/- An omitted class argument names the same specialization as its written-out default exactly when
the kept texts of the defaults read like the types they stand for. -/

import Eevee.Classes.Specialization

set_option autoImplicit false
set_option relaxedAutoImplicit false

namespace Eevee.Classes.Defaults

open Eevee.Ast.Classes
open Eevee.Classes.Declarations (TypeRef ParamDecl)
open Eevee.Classes.Specialization
open Eevee.Lib.Tables

/-! ### What a type reference stands for -/

/-- The class of a name with resolved arguments. -/
def classNamed (env : Env) (name : String) (argNames : List String) : String :=
  match env.templates name with
  | none => name
  | some tmpl => mangle name tmpl.params argNames

mutual

/-- A type reference stands for the class of a name. -/
inductive Denotes (env : Env) (ctx : SubstCtx) : TypeRef → String → Prop
  | bound {name s : String} {args : List TypeRef} (h : ctx.bindings name = some s) :
    Denotes env ctx (.mk name args) s
  | classAlias {name s : String} {args : List TypeRef} {target : TypeRef}
    (hbound : ctx.bindings name = none) (halias : ctx.aliases name = some target)
    (h : Denotes env ctx target s) : Denotes env ctx (.mk name args) s
  | globalAlias {name s : String} {target : TypeRef} (hbound : ctx.bindings name = none)
    (halias : ctx.aliases name = none) (hglobal : env.globalAliases name = some target)
    (h : Denotes env ctx target s) : Denotes env ctx (.mk name []) s
  | named {name : String} {args : List TypeRef} {argNames : List String}
    (hbound : ctx.bindings name = none) (halias : ctx.aliases name = none)
    (hglobal : args = [] → env.globalAliases name = none) (h : DenotesAll env ctx args argNames) :
    Denotes env ctx (.mk name args) (classNamed env name argNames)

inductive DenotesAll (env : Env) (ctx : SubstCtx) : List TypeRef → List String → Prop
  | nil : DenotesAll env ctx [] []
  | cons {arg : TypeRef} {args : List TypeRef} {s : String} {names : List String}
    (h : Denotes env ctx arg s) (hrest : DenotesAll env ctx args names) :
    DenotesAll env ctx (arg :: args) (s :: names)

end

section

variable {env : Env} {ctx : SubstCtx}

private def Only (env : Env) (ctx : SubstCtx) (tr : TypeRef) (s : String) : Prop :=
  ∀ s', Denotes env ctx tr s' → s = s'

private def OnlyAll (env : Env) (ctx : SubstCtx) (args : List TypeRef) (names : List String) :
    Prop :=
  ∀ names', DenotesAll env ctx args names' → names = names'

private theorem only_classAlias {name s : String} {args : List TypeRef} {target : TypeRef}
    (hbound : ctx.bindings name = none) (halias : ctx.aliases name = some target)
    (h : Only env ctx target s) : Only env ctx (.mk name args) s := by
  intro s' h'
  cases h' with
  | bound hs' => simp_all
  | classAlias _ halias' htarget' =>
    cases Option.some.inj (halias.symm.trans halias')
    exact h s' htarget'
  | globalAlias _ halias' => simp_all
  | named _ halias' => simp_all

private theorem only_globalAlias {name s : String} {target : TypeRef}
    (hbound : ctx.bindings name = none) (halias : ctx.aliases name = none)
    (hglobal : env.globalAliases name = some target) (h : Only env ctx target s) :
    Only env ctx (.mk name []) s := by
  intro s' h'
  cases h' with
  | bound hs' => simp_all
  | classAlias _ halias' => simp_all
  | globalAlias _ _ hglobal' htarget' =>
    cases Option.some.inj (hglobal.symm.trans hglobal')
    exact h s' htarget'
  | named _ _ hglobal' => simp_all

private theorem only_named {name : String} {args : List TypeRef} {argNames : List String}
    (hbound : ctx.bindings name = none) (halias : ctx.aliases name = none)
    (hglobal : args = [] → env.globalAliases name = none) (h : OnlyAll env ctx args argNames) :
    Only env ctx (.mk name args) (classNamed env name argNames) := by
  intro s' h'
  cases h' with
  | bound hs' => simp_all
  | classAlias _ halias' => simp_all
  | globalAlias _ _ hglobal' => simp_all
  | named _ _ _ hargs' => rw [h _ hargs']

private theorem onlyAll_cons {arg : TypeRef} {args : List TypeRef} {s : String}
    {names : List String} (h : Only env ctx arg s) (hrest : OnlyAll env ctx args names) :
    OnlyAll env ctx (arg :: args) (s :: names) := by
  intro names' h'
  cases h' with
  | cons hs' hrest' => rw [h _ hs', hrest _ hrest']

private theorem onlyAll_nil : OnlyAll env ctx [] [] := by
  intro names' h'
  cases h'
  rfl

/-- A reference stands for one class. -/
theorem Denotes.unique {tr : TypeRef} {s s' : String} (h : Denotes env ctx tr s)
    (h' : Denotes env ctx tr s') : s = s' :=
  @Denotes.rec env ctx (fun tr s _ => Only env ctx tr s)
    (fun args names _ => OnlyAll env ctx args names)
    (by
      intro name s args hs s' h'
      cases h' <;> simp_all)
    (fun hbound halias _ ih => only_classAlias hbound halias ih)
    (fun hbound halias hglobal _ ih => only_globalAlias hbound halias hglobal ih)
    (fun hbound halias hglobal _ ih => only_named hbound halias hglobal ih)
    onlyAll_nil (fun _ _ ih ihs => onlyAll_cons ih ihs) tr s h s' h'

theorem DenotesAll.unique {args : List TypeRef} {names names' : List String}
    (h : DenotesAll env ctx args names) (h' : DenotesAll env ctx args names') :
    names = names' := by
  induction args generalizing names names' with
  | nil =>
    cases h
    cases h'
    rfl
  | cons arg args ih =>
    cases h with
    | cons hs hrest =>
      cases h' with
      | cons hs' hrest' => rw [hs.unique hs', ih hrest hrest']

theorem DenotesAll.length {args : List TypeRef} {names : List String}
    (h : DenotesAll env ctx args names) : names.length = args.length := by
  induction args generalizing names with
  | nil =>
    cases h
    rfl
  | cons arg args ih =>
    cases h with
    | cons hs hrest => simp [ih hrest]

theorem DenotesAll.split {args rest : List TypeRef} {names : List String}
    (h : DenotesAll env ctx (args ++ rest) names) :
    ∃ first second, names = first ++ second ∧ DenotesAll env ctx args first ∧
      DenotesAll env ctx rest second := by
  induction args generalizing names with
  | nil => exact ⟨[], names, rfl, .nil, h⟩
  | cons arg args ih =>
    cases h with
    | cons hs hrest =>
      obtain ⟨first, second, rfl, hfirst, hsecond⟩ := ih hrest
      exact ⟨_ :: first, second, rfl, .cons hs hfirst, hsecond⟩

end

/-! ### Resolution finds it -/

section

variable {α β : Type} {m m' : Mono}

theorem bind_eq_some {x : Build α} {f : α → Build β} {b : β} :
    (x >>= f) m = some (b, m') ↔ ∃ a m₁, x m = some (a, m₁) ∧ f a m₁ = some (b, m') := by
  change ((x m).bind fun p => f p.1 p.2) = some (b, m') ↔ _
  simp only [Option.bind_eq_some_iff, Prod.exists]

theorem pure_eq_some {a b : α} : (pure a : Build α) m = some (b, m') ↔ a = b ∧ m = m' := by
  change some (a, m) = some (b, m') ↔ _
  simp only [Option.some.injEq, Prod.mk.injEq]

end

theorem specialize_name {env : Env} {resolve : SubstCtx → TypeRef → Build String} {base s : String}
    {argNames : List String} {m m' : Mono}
    (h : specialize env resolve base argNames m = some (s, m')) :
    s = classNamed env base argNames := by
  unfold classNamed
  cases htmpl : env.templates base with
  | none =>
    simp only [specialize, htmpl] at h
    exact (pure_eq_some.mp h).1.symm
  | some tmpl =>
    simp only [specialize, htmpl] at h
    obtain ⟨m₁, _, hget, h⟩ := bind_eq_some.mp h
    split at h
    · exact (pure_eq_some.mp h).1.symm
    · obtain ⟨_, _, _, h⟩ := bind_eq_some.mp h
      obtain ⟨_, _, _, h⟩ := bind_eq_some.mp h
      obtain ⟨_, _, _, h⟩ := bind_eq_some.mp h
      exact (pure_eq_some.mp h).1.symm

section

variable {env : Env} {ctx : SubstCtx}

theorem resolveAll_denotes {resolve : TypeRef → Build String} {args : List TypeRef}
    {names : List String} {m m' : Mono}
    (hresolve : ∀ tr s m m', resolve tr m = some (s, m') → Denotes env ctx tr s)
    (h : args.mapM resolve m = some (names, m')) : DenotesAll env ctx args names := by
  induction args generalizing names m m' with
  | nil =>
    obtain ⟨rfl, -⟩ := pure_eq_some.mp h
    exact .nil
  | cons arg args ih =>
    rw [List.mapM_cons] at h
    obtain ⟨s, m₁, hs, h⟩ := bind_eq_some.mp h
    obtain ⟨rest, m₂, hrest, h⟩ := bind_eq_some.mp h
    obtain ⟨rfl, rfl⟩ := pure_eq_some.mp h
    exact .cons (hresolve arg s m m₁ hs) (ih hrest)

/-- Whatever is built on the way, the result is the name the reference stands for. -/
theorem resolve_denotes {n : Nat} {tr : TypeRef} {s : String} {m m' : Mono}
    (h : resolve env n ctx tr m = some (s, m')) : Denotes env ctx tr s := by
  induction n generalizing tr s m m' with
  | zero => cases h
  | succ n ih =>
    obtain ⟨name, args⟩ := tr
    unfold resolve at h
    cases hbound : ctx.bindings name with
    | some bound =>
      simp only [hbound] at h
      obtain ⟨rfl, -⟩ := pure_eq_some.mp h
      exact .bound hbound
    | none =>
      simp only [hbound] at h
      cases halias : ctx.aliases name with
      | some target =>
        simp only [halias] at h
        exact .classAlias hbound halias (ih h)
      | none =>
        simp only [halias] at h
        cases hglobal : (if args.isEmpty then env.globalAliases name else none) with
        | some target =>
          simp only [hglobal] at h
          obtain rfl : args = [] := by
            cases args
            · rfl
            · simp at hglobal
          exact .globalAlias hbound halias hglobal (ih h)
        | none =>
          simp only [hglobal] at h
          obtain ⟨argNames, m₁, hargs, h⟩ := bind_eq_some.mp h
          have hall : DenotesAll env ctx args argNames :=
            resolveAll_denotes (fun _ _ _ _ h => ih h) hargs
          have hglobal' : args = [] → env.globalAliases name = none := by
            rintro rfl
            exact hglobal
          suffices hs : s = classNamed env name argNames by
            exact hs ▸ .named hbound halias hglobal' hall
          split at h
          · rename_i hplain
            obtain ⟨rfl, -⟩ := pure_eq_some.mp h
            simp [classNamed, Option.isNone_iff_eq_none.mp hplain.2]
          · exact specialize_name h

end

/-! ### Omitted and written-out arguments -/

/-- A formal as its class declares it: the class name that the front end finds in the type of its
default, none where there is no default or its type is primitive, and the reference that the
default is as an argument. -/
structure Formal where
  name : String
  isType : Bool
  className : Option String
  written : TypeRef

/-- The front end keeps no default of a value formal. -/
def lowerFormal (f : Formal) : ParamDecl :=
  ⟨f.name, f.isType, if f.isType then f.className else none⟩

mutual

/-- Formals give way to their arguments. -/
def substFormals (formals : Names TypeRef) : TypeRef → TypeRef
  | .mk name [] => (formals name).getD (.mk name [])
  | .mk name (arg :: args) => .mk name (substFormals formals arg :: substAllFormals formals args)

def substAllFormals (formals : Names TypeRef) : List TypeRef → List TypeRef
  | [] => []
  | arg :: args => substFormals formals arg :: substAllFormals formals args

end

/-- The arguments of the first formals. -/
def argsOf : List Formal → List TypeRef → Names TypeRef
  | f :: formals, arg :: args => fun name =>
    (argsOf formals args name).or (if name = f.name then some arg else none)
  | _, _ => Names.empty

/-- The defaults of the other formals, each after the earlier formals. -/
def defaultsAfter : Names TypeRef → List Formal → List TypeRef
  | _, [] => []
  | earlier, f :: formals =>
    let written := substFormals earlier f.written
    written :: defaultsAfter (earlier.insert f.name written) formals

def writtenDefaults (formals : List Formal) (args : List TypeRef) : List TypeRef :=
  defaultsAfter (argsOf formals args) (formals.drop args.length)

/-- The part of a mangled name that an omitted formal gives. -/
def keptPart (f : Formal) : String := partOf (lowerFormal f) none

private theorem parts_omitted (formals : List Formal) :
    (withArgs (formals.map lowerFormal) []).map (fun p => partOf p.1 p.2) =
      formals.map keptPart := by
  induction formals with
  | nil => rfl
  | cons f formals ih => simp only [List.map_cons, withArgs, ih, keptPart]

private theorem parts_given {formals : List Formal} {names : List String}
    (h : names.length ≤ formals.length) (rest : List String) :
    (withArgs (formals.map lowerFormal) (names ++ rest)).map (fun p => partOf p.1 p.2) =
      names.map sanitize ++
        (withArgs ((formals.drop names.length).map lowerFormal) rest).map
          fun p => partOf p.1 p.2 := by
  induction names generalizing formals with
  | nil => rfl
  | cons name names ih =>
    cases formals with
    | nil => simp at h
    | cons f formals =>
      simp only [List.map_cons, List.cons_append, withArgs, List.length_cons, List.drop_succ_cons,
        ih (Nat.le_of_succ_le_succ h)]
      rfl

theorem defaultsAfter_length (earlier : Names TypeRef) (formals : List Formal) :
    (defaultsAfter earlier formals).length = formals.length := by
  induction formals generalizing earlier with
  | nil => rfl
  | cons f formals ih => simp [defaultsAfter, ih]

theorem suffix_append (parts rest : List String) :
    suffix (parts ++ rest) = suffix parts ++ suffix rest := by
  simp [suffix, String.join_append]

private theorem parts_all {formals : List Formal} {names : List String}
    (h : names.length = formals.length) :
    (withArgs (formals.map lowerFormal) names).map (fun p => partOf p.1 p.2) =
      names.map sanitize := by
  have hparts := parts_given h.le []
  rw [List.append_nil, h, List.drop_length] at hparts
  simpa [withArgs] using hparts

section

variable {env : Env} {cur : SubstCtx} {base : String} {tmpl : ClassDecl} {formals : List Formal}
  {args : List TypeRef}

/-- A reference to a class with formals, and the same reference with its omitted arguments written
out as their defaults, name one class exactly when the kept texts of the omitted defaults read,
after the characters no name has are replaced, like the types that the written-out defaults
stand for. -/
theorem omitted_iff {n n' : Nat} {m m' m₁ m₁' : Mono} {s s' : String}
    (htmpl : env.templates base = some tmpl) (hparams : tmpl.params = formals.map lowerFormal)
    (hbound : cur.bindings base = none) (halias : cur.aliases base = none)
    (hglobal : env.globalAliases base = none) (hshort : args.length < formals.length)
    (h : resolve env n cur (.mk base args) m = some (s, m₁))
    (h' : resolve env n' cur (.mk base (args ++ writtenDefaults formals args)) m' =
      some (s', m₁')) :
    s = s' ↔ ∃ names, DenotesAll env cur (writtenDefaults formals args) names ∧
      suffix ((formals.drop args.length).map keptPart) = suffix (names.map sanitize) := by
  have hnamed : ∀ {args s}, Denotes env cur (.mk base args) s →
      ∃ names, DenotesAll env cur args names ∧ s = mangle base tmpl.params names := by
    intro args s h
    cases h with
    | bound hs => simp_all
    | classAlias _ halias' => simp_all
    | globalAlias _ _ hglobal' => simp_all
    | named _ _ _ hargs => exact ⟨_, hargs, by simp only [classNamed, htmpl]⟩
  obtain ⟨given, hgiven, rfl⟩ := hnamed (resolve_denotes h)
  obtain ⟨all, hall, rfl⟩ := hnamed (resolve_denotes h')
  obtain ⟨given', defaults, rfl, hgiven', hdefaults⟩ := hall.split
  obtain rfl := hgiven.unique hgiven'
  have hlength : given.length = args.length := hgiven.length
  have hparts : mangle base tmpl.params given =
      base ++ suffix (given.map sanitize) ++ suffix ((formals.drop args.length).map keptPart) := by
    have hle : given.length ≤ formals.length := by omega
    have h := parts_given hle []
    rw [List.append_nil, parts_omitted, hlength] at h
    rw [mangle, hparams, h, suffix_append, String.append_assoc]
  have hparts' : mangle base tmpl.params (given ++ defaults) =
      base ++ suffix (given.map sanitize) ++ suffix (defaults.map sanitize) := by
    have hdefault : (given ++ defaults).length = formals.length := by
      have := hdefaults.length
      rw [writtenDefaults, defaultsAfter_length, List.length_drop] at this
      simp only [List.length_append]
      omega
    rw [mangle, hparams, parts_all hdefault, List.map_append, suffix_append, String.append_assoc]
  rw [hparts, hparts', String.append_right_inj]
  constructor
  · intro heq
    exact ⟨defaults, hdefaults, heq⟩
  · rintro ⟨names, hnames, heq⟩
    rw [heq, hnames.unique hdefaults]

end

/-! ### A default that is kept and one that is lost -/

/-- A class with nothing but formals. -/
def templateOf (name : String) (formals : List Formal) : ClassDecl :=
  { stub name with params := formals.map lowerFormal }

/-- `class pool #(type T = item)`. -/
def poolFormals : List Formal := [⟨"T", true, some "item", .mk "item" []⟩]

def poolEnv : Env := envOf [templateOf "pool" poolFormals, stub "item"] []

theorem omitted_iff_pool : ∃ names,
    DenotesAll poolEnv SubstCtx.empty (writtenDefaults poolFormals []) names ∧
      suffix (poolFormals.map keptPart) = suffix (names.map sanitize) := by
  have hpool : poolEnv.templates "pool" = some (templateOf "pool" poolFormals) := rfl
  have h : resolve poolEnv 2 SubstCtx.empty (.mk "pool" []) Mono.empty = some ("pool__item", _) :=
    rfl
  have h' : resolve poolEnv 2 SubstCtx.empty (.mk "pool" ([] ++ writtenDefaults poolFormals []))
    Mono.empty = some ("pool__item", _) := rfl
  exact (omitted_iff hpool rfl rfl rfl rfl (by decide) h h').mp rfl

/-- `class box #(type T = int)`. -/
def boxFormals : List Formal := [⟨"T", true, none, .mk "int" []⟩]

def boxEnv : Env := envOf [templateOf "box" boxFormals] []

/-- Without its argument the class is another one than with the default `int`. -/
theorem box_omitted_differs :
    ((resolve boxEnv 2 SubstCtx.empty (.mk "box" []) Mono.empty).map Prod.fst,
      (resolve boxEnv 2 SubstCtx.empty (.mk "box" (writtenDefaults boxFormals [])) Mono.empty).map
        Prod.fst) = (some "box___", some "box__int") := by
  decide

end Eevee.Classes.Defaults
