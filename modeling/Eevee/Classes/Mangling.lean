/- When mangled names tell the instantiations apart, and names that can always be read back. -/

import Mathlib.Data.List.Nodup
import Eevee.Classes.Formals
import Eevee.Classes.Traversal
import Eevee.Lib.Readable

set_option autoImplicit false
set_option relaxedAutoImplicit false

namespace Eevee.Classes.Mangling

open Eevee.Ast.Classes
open Eevee.Classes.Declarations (TypeRef TypeAlias ParamDecl)
open Eevee.Classes.Defaults
open Eevee.Classes.Formals
open Eevee.Classes.Specialization
open Eevee.Classes.Traversal
open Eevee.Lib.Readable
open Eevee.Lib.Tables

/-! ### Names that can be read back -/

/-- Letters and digits, with single underscores between them. -/
structure Clean (s : String) : Prop where
  plain : Plain '_' s.toList
  chars : ∀ c ∈ s.toList, isNameChar c = true

/-- A clean name, or the placeholder of a formal without argument and default. -/
def Word (s : String) : Prop := Clean s ∨ s = "_"

theorem Word.token {s : String} (h : Word s) : Token '_' s.toList := by
  rcases h with h | rfl
  · exact .inl h.plain
  · exact .inr (by decide)

theorem Word.chars {s : String} (h : Word s) : ∀ c ∈ s.toList, isNameChar c = true := by
  rcases h with h | rfl
  · exact h.chars
  · exact List.all_eq_true.mp (by decide)

theorem Word.ne_nil {s : String} (h : Word s) : s.toList ≠ [] := by
  rcases h with h | rfl
  · exact h.plain.nonempty
  · decide

theorem sanitize_eq {s : String} (hne : s.toList ≠ [])
    (h : ∀ c ∈ s.toList, isNameChar c = true) : sanitize s = s := by
  have hmap : (s.toList.map fun c => if isNameChar c then c else '_') = s.toList :=
    (List.map_congr_left fun c hc => if_pos (h c hc)).trans (List.map_id _)
  rw [sanitize, if_neg (by simpa using hne), hmap, String.ofList_toList]

mutual

/-- The mangled name of a class whose arguments are such names. -/
def text : LabelTree String → String
  | .node label children => label ++ texts children

def texts : List (LabelTree String) → String
  | [] => ""
  | t :: ts => "__" ++ text t ++ texts ts

end

theorem texts_eq (ts : List (LabelTree String)) : texts ts = suffix (ts.map text) := by
  induction ts with
  | nil => rfl
  | cons t ts ih => simp only [texts, ih, suffix, List.map_cons, String.join_cons]

mutual

theorem text_chars (t : LabelTree String) :
    '_' :: '_' :: (text t).toList = joined '_' ((labels t).map String.toList) := by
  cases t with
  | node label children =>
    rw [text, labels, List.map_cons, String.toList_append, texts_chars children]
    rfl
termination_by structural t

theorem texts_chars (ts : List (LabelTree String)) :
    (texts ts).toList = joined '_' ((allLabels ts).map String.toList) := by
  cases ts with
  | nil => rfl
  | cons t ts =>
    rw [texts, allLabels, List.map_append, String.toList_append, String.toList_append,
      texts_chars ts]
    change '_' :: '_' :: (text t).toList ++ _ = _
    rw [text_chars t]
    simp only [joined, List.flatMap_append]
termination_by structural ts

end

/-- The number of the formals of a class; the placeholder has none. -/
def arity (env : Env) (name : String) : Nat :=
  if name = "_" then 0
  else match env.templates name with
    | none => 0
    | some tmpl => tmpl.params.length

theorem arity_placeholder (env : Env) : arity env "_" = 0 := if_pos rfl

theorem Clean.ne_placeholder {s : String} (h : Clean s) : s ≠ "_" := by
  rintro rfl
  exact h.plain.head rfl

theorem Clean.arity {s : String} (h : Clean s) (env : Env) :
    arity env s = match env.templates s with
      | none => 0
      | some tmpl => tmpl.params.length := if_neg h.ne_placeholder

/-- A name that reads as a class with as many arguments as it has formals, each again such a
name. -/
structure Good (env : Env) (t : LabelTree String) : Prop where
  wellFormed : WellFormed (arity env) t
  words : ∀ label ∈ labels t, Word label

def Readable (env : Env) (s : String) : Prop :=
  ∃ label children, Clean label ∧ Good env (.node label children) ∧ text (.node label children) = s

section

variable {env : Env}

theorem text_injective {t t' : LabelTree String} (h : Good env t) (h' : Good env t')
    (heq : text t = text t') : t = t' := by
  have htokens : ∀ {t}, Good env t → ∀ w ∈ (labels t).map String.toList, Token '_' w := by
    intro t h w hw
    obtain ⟨label, hlabel, rfl⟩ := List.mem_map.mp hw
    exact (h.words label hlabel).token
  have hlabels : (labels t).map String.toList = (labels t').map String.toList :=
    joined_injective (htokens h) (htokens h') (by rw [← text_chars, ← text_chars, heq])
  refine labels_injective h.wellFormed h'.wellFormed ?_
  exact List.map_injective_iff.mpr (fun _ _ => String.toList_injective) hlabels

theorem sanitize_text {t : LabelTree String} (h : Good env t) : sanitize (text t) = text t := by
  obtain ⟨label, children⟩ := t
  refine sanitize_eq ?_ fun c hc => ?_
  · rw [text, String.toList_append]
    exact List.append_ne_nil_of_left_ne_nil (h.words label List.mem_cons_self).ne_nil _
  · have hmem : c ∈ joined '_' ((labels (.node label children)).map String.toList) :=
      text_chars _ ▸ List.mem_cons_of_mem _ (List.mem_cons_of_mem _ hc)
    obtain ⟨w, hw, hc⟩ := List.mem_flatMap.mp hmem
    obtain ⟨l, hl, rfl⟩ := List.mem_map.mp hw
    rcases List.mem_cons.mp hc with rfl | hc
    · decide
    · rcases List.mem_cons.mp hc with rfl | hc
      · decide
      · exact (h.words l hl).chars c hc

theorem Readable.of_clean {s : String} (h : Clean s) (htmpl : env.templates s = none) :
    Readable env s := by
  refine ⟨s, [], h, ⟨⟨?_, trivial⟩, fun label hlabel => ?_⟩, String.append_empty⟩
  · rw [h.arity, htmpl]
    rfl
  · obtain rfl := List.mem_singleton.mp hlabel
    exact .inl h

/-- What can be read is not the placeholder. -/
theorem Readable.ne_placeholder {s : String} (h : Readable env s) : s ≠ "_" := by
  obtain ⟨label, children, hlabel, -, rfl⟩ := h
  intro heq
  have hhead : (label.toList ++ (texts children).toList).head? = some '_' := by
    rw [← String.toList_append]
    exact congrArg (fun s => s.toList.head?) heq
  obtain ⟨c, cs, hcs⟩ := List.exists_cons_of_ne_nil hlabel.plain.nonempty
  exact hlabel.plain.head (by simpa [hcs] using hhead)

end

/-! ### Resolved arguments -/

/-- One entry for each formal: its argument, else its default, else nothing. -/
def resolvedArgs (params : List ParamDecl) (argNames : List String) : List (Option String) :=
  (withArgs params argNames).map fun p => p.2.or p.1.fallback

theorem withArgs_length (params : List ParamDecl) (argNames : List String) :
    (withArgs params argNames).length = params.length := by
  induction params generalizing argNames with
  | nil => rfl
  | cons p params ih => cases argNames <;> simp [withArgs, ih]

theorem mangle_eq (base : String) (params : List ParamDecl) (argNames : List String) :
    mangle base params argNames =
      base ++ suffix ((resolvedArgs params argNames).map fun arg => sanitize (arg.getD "_")) := by
  rw [mangle, resolvedArgs, List.map_map]
  rfl

/-- An instantiation in words: the name of its template, then its resolved arguments with an
underscore for every other character, and one for a formal without argument and default. -/
def wordsOf (base : String) (params : List ParamDecl) (argNames : List String) :
    List (List Char) :=
  base.toList :: (resolvedArgs params argNames).map fun arg => (sanitize (arg.getD "_")).toList

theorem sanitize_ne_nil (s : String) : (sanitize s).toList ≠ [] := by
  unfold sanitize
  split
  next => decide
  next h =>
    rw [String.toList_ofList]
    exact fun hnil => h (List.isEmpty_iff.mpr (List.map_eq_nil_iff.mp hnil))

theorem wordsOf_tail {base : String} {params : List ParamDecl} {argNames : List String} :
    ∀ w ∈ (wordsOf base params argNames).tail, w ≠ [] := by
  intro w hw
  obtain ⟨arg, -, rfl⟩ := List.mem_map.mp hw
  exact sanitize_ne_nil _

private theorem suffix_chars (words : List String) :
    (suffix words).toList = joined '_' (words.map String.toList) := by
  induction words with
  | nil => rfl
  | cons word words ih =>
    rw [List.map_cons, joined_cons, ← ih, suffix, List.map_cons, String.join_cons,
      String.toList_append, String.toList_append, List.append_assoc]
    rfl

theorem mangle_chars (base : String) (params : List ParamDecl) (argNames : List String) :
    '_' :: '_' :: (mangle base params argNames).toList =
      joined '_' (wordsOf base params argNames) := by
  rw [mangle_eq, String.toList_append, suffix_chars, List.map_map, wordsOf, joined_cons]
  rfl

theorem mangle_eq_iff {base base' : String} {params params' : List ParamDecl}
    {argNames argNames' : List String} :
    mangle base params argNames = mangle base' params' argNames' ↔
      Overlaid '_' (wordsOf base params argNames) (wordsOf base' params' argNames') := by
  rw [← joined_eq_iff wordsOf_tail wordsOf_tail, ← mangle_chars, ← mangle_chars,
    List.cons.injEq, List.cons.injEq, String.toList_inj]
  simp only [true_and]

theorem mangle_eq_name_iff {base name : String} {params : List ParamDecl}
    {argNames : List String} :
    mangle base params argNames = name ↔
      Overlaid '_' (wordsOf base params argNames) [name.toList] := by
  have hname : joined '_' [name.toList] = '_' :: '_' :: name.toList := by
    rw [joined_cons]
    exact congrArg _ (congrArg _ (List.append_nil _))
  rw [← joined_eq_iff wordsOf_tail (fun w hw => absurd hw List.not_mem_nil), ← mangle_chars, hname,
    List.cons.injEq, List.cons.injEq, String.toList_inj]
  simp only [true_and]

section

variable {env : Env}

/-- The trees that resolved arguments are read as. -/
theorem exists_children {args : List (Option String)}
    (h : ∀ s, some s ∈ args → Readable env s) :
    ∃ children : List (LabelTree String), children.map text = args.map (fun arg => arg.getD "_") ∧
      ∀ t ∈ children, Good env t := by
  induction args with
  | nil => exact ⟨[], rfl, fun t ht => absurd ht List.not_mem_nil⟩
  | cons arg args ih =>
    obtain ⟨children, htext, hgood⟩ := ih fun s hs => h s (List.mem_cons_of_mem _ hs)
    obtain ⟨t, ht, htgood⟩ : ∃ t, text t = arg.getD "_" ∧ Good env t := by
      cases arg with
      | none =>
        refine ⟨.node "_" [], rfl, ⟨(arity_placeholder env).symm, trivial⟩, fun l hl => ?_⟩
        exact .inr (List.mem_singleton.mp hl)
      | some s =>
        obtain ⟨label, children, -, hgood, htext⟩ := h s List.mem_cons_self
        exact ⟨_, htext, hgood⟩
    exact ⟨t :: children, by simp only [List.map_cons, ht, htext],
      List.forall_mem_cons.mpr ⟨htgood, hgood⟩⟩

private theorem allWellFormed {ts : List (LabelTree String)} (h : ∀ t ∈ ts, Good env t) :
    AllWellFormed (arity env) ts := by
  induction ts with
  | nil => trivial
  | cons t ts ih =>
    obtain ⟨ht, hts⟩ := List.forall_mem_cons.mp h
    exact ⟨ht.wellFormed, ih hts⟩

private theorem allWords {ts : List (LabelTree String)} (h : ∀ t ∈ ts, Good env t) :
    ∀ label ∈ allLabels ts, Word label := by
  induction ts with
  | nil => exact fun label hlabel => absurd hlabel List.not_mem_nil
  | cons t ts ih =>
    obtain ⟨ht, hts⟩ := List.forall_mem_cons.mp h
    intro label hlabel
    rcases List.mem_append.mp hlabel with hlabel | hlabel
    · exact ht.words label hlabel
    · exact ih hts label hlabel

variable {base : String} {tmpl : ClassDecl} {argNames : List String}

private theorem getD_injective {args args' : List (Option String)}
    (h : ∀ s, some s ∈ args → Readable env s) (h' : ∀ s, some s ∈ args' → Readable env s)
    (heq : args.map (fun arg => arg.getD "_") = args'.map fun arg => arg.getD "_") :
    args = args' := by
  induction args generalizing args' with
  | nil => exact (List.map_eq_nil_iff.mp heq.symm).symm
  | cons arg args ih =>
    obtain ⟨arg', args', rfl, harg, hargs⟩ := List.map_eq_cons_iff.mp heq.symm
    rw [ih (fun s hs => h s (List.mem_cons_of_mem _ hs))
      (fun s hs => h' s (List.mem_cons_of_mem _ hs)) hargs.symm]
    congr 1
    cases arg with
    | none =>
      cases arg' with
      | none => rfl
      | some s' => exact absurd harg (h' s' List.mem_cons_self).ne_placeholder
    | some s =>
      cases arg' with
      | none => exact absurd harg.symm (h s List.mem_cons_self).ne_placeholder
      | some s' => exact congrArg some harg.symm

/-- A mangled name is read as its template with the trees of its resolved arguments. -/
theorem mangle_readable (hbase : Clean base) (htmpl : env.templates base = some tmpl)
    (hargs : ∀ s, some s ∈ resolvedArgs tmpl.params argNames → Readable env s) :
    ∃ children, Good env (.node base children) ∧
      text (.node base children) = mangle base tmpl.params argNames ∧
      children.map text = (resolvedArgs tmpl.params argNames).map (fun arg => arg.getD "_") := by
  obtain ⟨children, htext, hgood⟩ := exists_children hargs
  refine ⟨children, ⟨⟨?_, allWellFormed hgood⟩, ?_⟩, ?_, htext⟩
  · have hlength := congrArg List.length htext
    simp only [List.length_map, resolvedArgs, withArgs_length] at hlength
    rw [hbase.arity, htmpl, hlength]
  · exact List.forall_mem_cons.mpr ⟨.inl hbase, allWords hgood⟩
  · have hparts : (resolvedArgs tmpl.params argNames).map (fun arg => sanitize (arg.getD "_")) =
        children.map text := by
      calc (resolvedArgs tmpl.params argNames).map (fun arg => sanitize (arg.getD "_"))
        _ = ((resolvedArgs tmpl.params argNames).map fun arg => arg.getD "_").map sanitize := by
          rw [List.map_map]
          rfl
        _ = children.map (sanitize ∘ text) := by rw [← htext, List.map_map]
        _ = children.map text := List.map_congr_left fun t ht => sanitize_text (hgood t ht)
    rw [mangle_eq, hparts, text, texts_eq]

/-- Names that can be read back are mangled to one name only for one template and the same
resolved arguments. -/
theorem mangle_injective {base' : String} {tmpl' : ClassDecl} {argNames' : List String}
    (hbase : Clean base) (hbase' : Clean base') (htmpl : env.templates base = some tmpl)
    (htmpl' : env.templates base' = some tmpl')
    (hargs : ∀ s, some s ∈ resolvedArgs tmpl.params argNames → Readable env s)
    (hargs' : ∀ s, some s ∈ resolvedArgs tmpl'.params argNames' → Readable env s)
    (heq : mangle base tmpl.params argNames = mangle base' tmpl'.params argNames') :
    base = base' ∧
      resolvedArgs tmpl.params argNames = resolvedArgs tmpl'.params argNames' := by
  obtain ⟨children, hgood, htext, hchildren⟩ := mangle_readable hbase htmpl hargs
  obtain ⟨children', hgood', htext', hchildren'⟩ :=
    mangle_readable hbase' htmpl' hargs'
  obtain ⟨hnames, htrees⟩ := LabelTree.node.inj
    (text_injective hgood hgood' (htext.trans (heq.trans htext'.symm)))
  refine ⟨hnames, ?_⟩
  rw [htrees, hchildren'] at hchildren
  exact getD_injective hargs hargs' hchildren.symm

end

/-! ### Instantiations -/

section

variable (env : Env)

/-- The name of a reference is neither a formal nor an alias. -/
structure Stands (ctx : SubstCtx) (name : String) (args : List TypeRef) : Prop where
  bound : ctx.bindings name = none
  classAlias : ctx.aliases name = none
  globalAlias : args = [] → env.globalAliases name = none

end

section

variable (classes : List ClassDecl) (globalAliases : List TypeAlias)

/-- The references that monomorphization comes to, each with what names mean there. -/
inductive Visited : SubstCtx → TypeRef → Prop
  | concrete {c : ClassDecl} {tr : TypeRef} (hc : c ∈ classes) (hparams : c.params = [])
    (htr : tr ∈ classTypes c) : Visited (bindAliases c.typeAliases SubstCtx.empty) tr
  | target {a : TypeAlias} (ha : a ∈ globalAliases) : Visited SubstCtx.empty a.target
  | classAlias {ctx : SubstCtx} {name : String} {args : List TypeRef} {target : TypeRef}
    (h : Visited ctx (.mk name args)) (hbound : ctx.bindings name = none)
    (halias : ctx.aliases name = some target) : Visited ctx target
  | globalAlias {ctx : SubstCtx} {name : String} {target : TypeRef} (h : Visited ctx (.mk name []))
    (hbound : ctx.bindings name = none) (halias : ctx.aliases name = none)
    (hglobal : (envOf classes globalAliases).globalAliases name = some target) :
    Visited ctx target
  | arg {ctx : SubstCtx} {name : String} {args : List TypeRef} {tr : TypeRef}
    (h : Visited ctx (.mk name args)) (hstands : Stands (envOf classes globalAliases) ctx name args)
    (htr : tr ∈ args) : Visited ctx tr
  | body {ctx : SubstCtx} {name : String} {args : List TypeRef} {argNames : List String}
    {tmpl : ClassDecl} {tr : TypeRef} (h : Visited ctx (.mk name args))
    (hstands : Stands (envOf classes globalAliases) ctx name args)
    (hargs : DenotesAll (envOf classes globalAliases) ctx args argNames)
    (htmpl : (envOf classes globalAliases).templates name = some tmpl)
    (htr : tr ∈ classTypes tmpl) :
    Visited (specCtx tmpl argNames) tr

/-- A template and the arguments that a visited reference gives it. -/
def Instantiated (name : String) (argNames : List String) (tmpl : ClassDecl) : Prop :=
  (envOf classes globalAliases).templates name = some tmpl ∧ ∃ ctx args,
    Visited classes globalAliases ctx (.mk name args) ∧
      Stands (envOf classes globalAliases) ctx name args ∧
      DenotesAll (envOf classes globalAliases) ctx args argNames

/-- Two instantiations have one name only if they are one template with the same resolved
arguments, and no instantiation has the name of a declared class. -/
structure Distinct : Prop where
  injective : ∀ base argNames tmpl base' argNames' tmpl',
    Instantiated classes globalAliases base argNames tmpl →
    Instantiated classes globalAliases base' argNames' tmpl' →
    mangle base tmpl.params argNames = mangle base' tmpl'.params argNames' →
      base = base' ∧ resolvedArgs tmpl.params argNames = resolvedArgs tmpl'.params argNames'
  undeclared : ∀ base argNames tmpl, Instantiated classes globalAliases base argNames tmpl →
    ∀ c ∈ classes, mangle base tmpl.params argNames ≠ c.name

/-- The words of an instantiation show what it is: different arguments are spelled differently,
no other instantiation's words can be laid over them, and no declared name can. -/
structure Apart : Prop where
  spelled : ∀ base argNames argNames' tmpl,
    Instantiated classes globalAliases base argNames tmpl →
    Instantiated classes globalAliases base argNames' tmpl →
    wordsOf base tmpl.params argNames = wordsOf base tmpl.params argNames' →
      resolvedArgs tmpl.params argNames = resolvedArgs tmpl.params argNames'
  cut : ∀ base argNames tmpl base' argNames' tmpl',
    Instantiated classes globalAliases base argNames tmpl →
    Instantiated classes globalAliases base' argNames' tmpl' →
    Overlaid '_' (wordsOf base tmpl.params argNames) (wordsOf base' tmpl'.params argNames') →
      wordsOf base tmpl.params argNames = wordsOf base' tmpl'.params argNames'
  undeclared : ∀ base argNames tmpl, Instantiated classes globalAliases base argNames tmpl →
    ∀ c ∈ classes, ¬ Overlaid '_' (wordsOf base tmpl.params argNames) [c.name.toList]

theorem distinct_iff_apart : Distinct classes globalAliases ↔ Apart classes globalAliases := by
  constructor
  · intro h
    refine ⟨?_, ?_, ?_⟩
    · intro base argNames argNames' tmpl hinst hinst' heq
      refine (h.injective base argNames tmpl base argNames' tmpl hinst hinst' ?_).2
      rw [mangle_eq_iff, heq]
      exact overlaid_of_joined_eq wordsOf_tail wordsOf_tail rfl
    · intro base argNames tmpl base' argNames' tmpl' hinst hinst' hover
      obtain ⟨rfl, hargs⟩ := h.injective base argNames tmpl base' argNames' tmpl' hinst hinst'
        (mangle_eq_iff.mpr hover)
      rw [wordsOf, wordsOf, hargs]
    · intro base argNames tmpl hinst c hc hover
      exact h.undeclared base argNames tmpl hinst c hc (mangle_eq_name_iff.mpr hover)
  · intro h
    refine ⟨?_, ?_⟩
    · intro base argNames tmpl base' argNames' tmpl' hinst hinst' heq
      have hwords := h.cut base argNames tmpl base' argNames' tmpl' hinst hinst'
        (mangle_eq_iff.mp heq)
      obtain rfl : base = base' := String.toList_inj.mp (List.cons.inj hwords).1
      obtain rfl : tmpl = tmpl' := Option.some.inj (hinst.1.symm.trans hinst'.1)
      exact ⟨rfl, h.spelled base argNames argNames' tmpl hinst hinst' hwords⟩
    · intro base argNames tmpl hinst c hc heq
      exact h.undeclared base argNames tmpl hinst c hc (mangle_eq_name_iff.mp heq)

/-- Visited names are clean, a default in use is a clean name that no template has, and no declared
name goes on after a template's with two underscores. -/
structure CleanNames : Prop where
  declared : ∀ name argNames tmpl, Instantiated classes globalAliases name argNames tmpl →
    ∀ c ∈ classes, ¬ (name ++ "__").toList <+: c.name.toList
  visited : ∀ ctx name args, Visited classes globalAliases ctx (.mk name args) →
    Stands (envOf classes globalAliases) ctx name args → Clean name
  defaults : ∀ name argNames tmpl, Instantiated classes globalAliases name argNames tmpl →
    ∀ p ∈ withArgs tmpl.params argNames, p.2 = none → ∀ s, p.1.fallback = some s →
      Clean s ∧ (envOf classes globalAliases).templates s = none

end

section

variable {classes : List ClassDecl} {globalAliases : List TypeAlias}

private theorem orInsert_cases {α : Type} {names : Names α} {name other : String} {value found : α}
    (h : names.orInsert name value other = some found) :
    names other = some found ∨ other = name ∧ found = value := by
  unfold Names.orInsert at h
  split at h
  · exact .inl h
  · by_cases hname : other = name
    · subst hname
      rw [Names.insert_self] at h
      exact .inr ⟨rfl, (Option.some.inj h).symm⟩
    · rw [Names.insert_of_ne _ hname] at h
      exact .inl h

private theorem mem_of_foldl_orInsert {l : List ClassDecl} {names : Names ClassDecl} {name : String}
    {c : ClassDecl}
    (h : l.foldl (fun names c => names.orInsert c.name c) names name = some c) :
    names name = some c ∨ c ∈ l ∧ c.name = name := by
  induction l generalizing names with
  | nil => exact .inl h
  | cons d l ih =>
    rcases ih h with h | ⟨hc, hname⟩
    · rcases orInsert_cases h with h | ⟨rfl, rfl⟩
      · exact .inl h
      · exact .inr ⟨List.mem_cons_self, rfl⟩
    · exact .inr ⟨List.mem_cons_of_mem _ hc, hname⟩

/-- A template is a declared class with formals. -/
theorem templates_mem {name : String} {tmpl : ClassDecl}
    (h : (envOf classes globalAliases).templates name = some tmpl) :
    tmpl ∈ classes ∧ tmpl.params ≠ [] ∧ tmpl.name = name := by
  rcases mem_of_foldl_orInsert h with h | ⟨hmem, hname⟩
  · cases h
  · obtain ⟨hmem, hparams⟩ := List.mem_filter.mp hmem
    exact ⟨hmem, by simpa using hparams, hname⟩

private theorem bindFormals_bound {params : List (ParamDecl × Option String)} {ctx : SubstCtx}
    {name s : String} (h : (bindFormals params ctx).bindings name = some s) :
    ctx.bindings name = some s ∨ some s ∈ params.map fun p => p.2.or p.1.fallback := by
  induction params generalizing ctx with
  | nil => exact .inl h
  | cons p params ih =>
    rw [bindFormals, List.foldl_cons] at h
    rcases ih h with h | h
    · by_cases hempty : ((p.2.or p.1.fallback).getD "").isEmpty
      · simp only [hempty, if_true] at h
        exact .inl h
      · simp only [hempty] at h
        by_cases hname : name = p.1.name
        · subst hname
          refine .inr (List.mem_cons.mpr (.inl ?_))
          cases hresolved : p.2.or p.1.fallback with
          | none =>
            rw [hresolved] at hempty
            exact absurd rfl hempty
          | some val => simpa [hresolved] using h.symm
        · rw [if_neg Bool.false_ne_true] at h
          exact .inl ((Names.insert_of_ne _ hname _).symm.trans h)
    · exact .inr (List.mem_cons_of_mem _ h)

/-- A formal is bound to its resolved argument. -/
theorem specCtx_bound {tmpl : ClassDecl} {argNames : List String} {name s : String}
    (h : (specCtx tmpl argNames).bindings name = some s) :
    some s ∈ resolvedArgs tmpl.params argNames := by
  rcases bindFormals_bound h with h | h
  · cases h
  · exact h

private theorem withArgs_arg {params : List ParamDecl} {argNames : List String}
    {p : ParamDecl × Option String} {s : String} (h : p ∈ withArgs params argNames)
    (hs : p.2 = some s) : s ∈ argNames := by
  induction params generalizing argNames with
  | nil => cases h
  | cons q params ih =>
    cases argNames with
    | nil =>
      rcases List.mem_cons.mp h with rfl | h
      · cases hs
      · exact absurd (ih h) List.not_mem_nil
    | cons arg argNames =>
      rcases List.mem_cons.mp h with rfl | h
      · cases hs
        exact List.mem_cons_self
      · exact List.mem_cons_of_mem _ (ih h)

variable (hclean : CleanNames classes globalAliases)

include hclean

/-- Resolved arguments can be read if the arguments can. -/
theorem CleanNames.resolvedArgs_readable {name : String} {argNames : List String} {tmpl : ClassDecl}
    (h : Instantiated classes globalAliases name argNames tmpl)
    (hargs : ∀ s ∈ argNames, Readable (envOf classes globalAliases) s) :
    ∀ s, some s ∈ resolvedArgs tmpl.params argNames → Readable (envOf classes globalAliases) s := by
  intro s hs
  obtain ⟨p, hp, hresolved⟩ := List.mem_map.mp hs
  cases harg : p.2 with
  | none =>
    rw [harg, Option.none_or] at hresolved
    obtain ⟨hs, htmpl⟩ := hclean.defaults name argNames tmpl h p hp harg s hresolved
    exact .of_clean hs htmpl
  | some arg =>
    rw [harg, Option.some_or] at hresolved
    cases hresolved
    exact hargs s (withArgs_arg hp harg)

/-- In a visited context whose formals can be read, every class that a reference stands for can. -/
theorem CleanNames.denotes_readable {ctx : SubstCtx} {tr : TypeRef} {s : String}
    (hctx : ∀ name s, ctx.bindings name = some s → Readable (envOf classes globalAliases) s)
    (hvisited : Visited classes globalAliases ctx tr)
    (h : Denotes (envOf classes globalAliases) ctx tr s) :
    Readable (envOf classes globalAliases) s := by
  refine @Denotes.rec (envOf classes globalAliases) ctx
    (fun tr s _ => Visited classes globalAliases ctx tr → Readable (envOf classes globalAliases) s)
    (fun args names _ => (∀ arg ∈ args, Visited classes globalAliases ctx arg) →
      ∀ s ∈ names, Readable (envOf classes globalAliases) s)
    (fun hs _ => hctx _ _ hs)
    (fun hbound halias _ ih hvisited => ih (hvisited.classAlias hbound halias))
    (fun hbound halias hglobal _ ih hvisited => ih (hvisited.globalAlias hbound halias hglobal))
    ?_ (fun _ s hs => absurd hs List.not_mem_nil) ?_ tr s h hvisited
  · intro name args argNames hbound halias hglobal hargs ih hvisited
    have hstands : Stands (envOf classes globalAliases) ctx name args := ⟨hbound, halias, hglobal⟩
    have hname := hclean.visited ctx name args hvisited hstands
    have hreadable := ih fun arg harg => hvisited.arg hstands harg
    unfold classNamed
    cases htmpl : (envOf classes globalAliases).templates name with
    | none => exact .of_clean hname htmpl
    | some tmpl =>
      obtain ⟨children, hgood, htext, -⟩ := mangle_readable hname htmpl
        (hclean.resolvedArgs_readable ⟨htmpl, ctx, args, hvisited, hstands, hargs⟩ hreadable)
      exact ⟨name, children, hname, hgood, htext⟩
  · intro arg args s names _ _ ih ihs hvisited
    obtain ⟨harg, hargs⟩ := List.forall_mem_cons.mp hvisited
    exact List.forall_mem_cons.mpr ⟨ih harg, ihs hargs⟩

theorem CleanNames.args_readable {ctx : SubstCtx} {args : List TypeRef} {names : List String}
    (hctx : ∀ name s, ctx.bindings name = some s → Readable (envOf classes globalAliases) s)
    (hvisited : ∀ arg ∈ args, Visited classes globalAliases ctx arg)
    (h : DenotesAll (envOf classes globalAliases) ctx args names) :
    ∀ s ∈ names, Readable (envOf classes globalAliases) s := by
  induction args generalizing names with
  | nil =>
    cases h
    exact fun s hs => absurd hs List.not_mem_nil
  | cons arg args ih =>
    cases h with
    | cons harg hargs =>
      obtain ⟨hvisit, hvisits⟩ := List.forall_mem_cons.mp hvisited
      exact List.forall_mem_cons.mpr
        ⟨hclean.denotes_readable hctx hvisit harg, ih hvisits hargs⟩

/-- Formals are bound to names that can be read wherever monomorphization comes. -/
theorem CleanNames.bindings_readable {ctx : SubstCtx} {tr : TypeRef}
    (h : Visited classes globalAliases ctx tr) :
    ∀ name s, ctx.bindings name = some s → Readable (envOf classes globalAliases) s := by
  induction h with
  | concrete => exact fun name s hs => absurd hs (Option.some_ne_none s).symm
  | target => exact fun name s hs => absurd hs (Option.some_ne_none s).symm
  | classAlias _ _ _ ih => exact ih
  | globalAlias _ _ _ _ ih => exact ih
  | arg _ _ _ ih => exact ih
  | body hvisited hstands hargs htmpl _ ih =>
    intro name s hs
    exact hclean.resolvedArgs_readable ⟨htmpl, _, _, hvisited, hstands, hargs⟩
      (hclean.args_readable ih (fun arg harg => hvisited.arg hstands harg) hargs) s
      (specCtx_bound hs)

theorem CleanNames.instantiated_readable {name : String} {argNames : List String} {tmpl : ClassDecl}
    (h : Instantiated classes globalAliases name argNames tmpl) :
    Clean name ∧ ∀ s, some s ∈ resolvedArgs tmpl.params argNames →
      Readable (envOf classes globalAliases) s := by
  obtain ⟨htmpl, ctx, args, hvisited, hstands, hargs⟩ := h
  refine ⟨hclean.visited ctx name args hvisited hstands, ?_⟩
  exact hclean.resolvedArgs_readable ⟨htmpl, ctx, args, hvisited, hstands, hargs⟩
    (hclean.args_readable (hclean.bindings_readable hvisited)
      (fun arg harg => hvisited.arg hstands harg) hargs)

end

/-! ### Built classes -/

def namesOf (m : Mono) : List String := m.out.map ClassDecl.name

section

variable (classes : List ClassDecl) (globalAliases : List TypeAlias)

/-- The name of a class without formals, or the mangled name of an instantiation. -/
def Built (name : String) : Prop :=
  (∃ c ∈ classes, c.params = [] ∧ c.name = name) ∨
    ∃ base argNames tmpl, Instantiated classes globalAliases base argNames tmpl ∧
      mangle base tmpl.params argNames = name

/-- The built classes have an entry each. -/
structure Sound (m : Mono) : Prop where
  built : ∀ name ∈ namesOf m, Built classes globalAliases name
  indexed : ∀ name slot, m.index name = some slot ↔ (namesOf m)[slot]? = some name

/-- Built classes keep their places. -/
def Keeps {α : Type} (x : Build α) : Prop :=
  ∀ m a m', x m = some (a, m') → Sound classes globalAliases m →
    Sound classes globalAliases m' ∧ namesOf m <+: namesOf m'

variable {classes globalAliases}

theorem keeps_sequential : Sequential fun _ => Keeps classes globalAliases where
  pure a m _ m' h hm := by
    obtain ⟨-, rfl⟩ := pure_eq_some.mp h
    exact ⟨hm, List.prefix_refl _⟩
  bind := by
    intro α β x f hx hf m b m' h hm
    obtain ⟨a, m₁, hxm, h⟩ := bind_eq_some.mp h
    obtain ⟨hm₁, hprefix⟩ := hx m a m₁ hxm hm
    obtain ⟨hm', hprefix'⟩ := hf a ⟨m, m₁, hxm⟩ m₁ b m' h hm₁
    exact ⟨hm', hprefix.trans hprefix'⟩

theorem namesOf_push (m : Mono) (decl : ClassDecl) (index : Names Nat) (inProgress : List String) :
    namesOf ⟨m.out ++ [decl], index, inProgress⟩ = namesOf m ++ [decl.name] := List.map_append

theorem Sound.push {m : Mono} {decl : ClassDecl} {inProgress : List String}
    (hm : Sound classes globalAliases m) (hbuilt : Built classes globalAliases decl.name)
    (hnew : m.index decl.name = none) :
    Sound classes globalAliases
      ⟨m.out ++ [decl], m.index.insert decl.name m.out.length, inProgress⟩ := by
  have hlength : (namesOf m).length = m.out.length := List.length_map _
  constructor
  · intro name hname
    rw [namesOf_push] at hname
    rcases List.mem_append.mp hname with hname | hname
    · exact hm.built name hname
    · exact List.mem_singleton.mp hname ▸ hbuilt
  · intro name slot
    rw [namesOf_push]
    change m.index.insert decl.name m.out.length name = some slot ↔ _
    by_cases hname : name = decl.name
    · subst hname
      have hfresh : (namesOf m)[slot]? ≠ some decl.name := fun h =>
        Option.some_ne_none slot (((hm.indexed _ slot).mpr h).symm.trans hnew)
      rw [Names.insert_self, Option.some.injEq, ← hlength]
      constructor
      · rintro rfl
        exact List.getElem?_concat_length
      · intro h
        by_contra hslot
        rcases Nat.lt_or_gt_of_ne hslot with hslot | hslot
        · have hend : (namesOf m ++ [decl.name]).length ≤ slot := by
            simp only [List.length_append, List.length_singleton]
            omega
          rw [List.getElem?_eq_none hend] at h
          cases h
        · rw [List.getElem?_append_left hslot] at h
          exact hfresh h
    · rw [Names.insert_of_ne _ hname, hm.indexed]
      constructor
      · intro h
        rw [List.getElem?_append_left (List.getElem?_eq_some_iff.mp h).1]
        exact h
      · intro h
        rcases Nat.lt_or_ge slot (namesOf m).length with hslot | hslot
        · rwa [List.getElem?_append_left hslot] at h
        · rw [List.getElem?_append_right hslot] at h
          obtain rfl := List.mem_singleton.mp (List.mem_of_getElem? h)
          exact absurd rfl hname

theorem namesOf_set {m : Mono} {decl : ClassDecl} {slot : Nat}
    (h : (namesOf m)[slot]? = some decl.name) :
    (m.out.set slot decl).map ClassDecl.name = namesOf m := by
  obtain ⟨hslot, hname⟩ := List.getElem?_eq_some_iff.mp h
  rw [List.map_set, ← hname]
  exact List.set_getElem_self hslot

theorem Sound.set {m : Mono} {decl : ClassDecl} {slot : Nat} {inProgress : List String}
    (hm : Sound classes globalAliases m) (h : (namesOf m)[slot]? = some decl.name) :
    Sound classes globalAliases ⟨m.out.set slot decl, m.index, inProgress⟩ := by
  have hnames : namesOf ⟨m.out.set slot decl, m.index, inProgress⟩ = namesOf m := namesOf_set h
  exact ⟨hnames ▸ hm.built, hnames ▸ hm.indexed⟩

theorem buildSpec_name {resolve : TypeRef → Build String} {ctx : SubstCtx} {tmpl spec : ClassDecl}
    {name : String} {m m' : Mono} (h : buildSpec resolve ctx tmpl name m = some (spec, m')) :
    spec.name = name := by
  obtain ⟨base, _, -, h⟩ := bind_eq_some.mp h
  obtain ⟨fields, _, -, h⟩ := bind_eq_some.mp h
  obtain ⟨typeAliases, _, -, h⟩ := bind_eq_some.mp h
  obtain ⟨collectionAliases, _, -, h⟩ := bind_eq_some.mp h
  obtain ⟨methods, _, -, h⟩ := bind_eq_some.mp h
  obtain ⟨ctor, _, -, h⟩ := bind_eq_some.mp h
  obtain ⟨rfl, -⟩ := pure_eq_some.mp h
  rfl

theorem specialize_keeps {r : SubstCtx → TypeRef → Build String} {name : String}
    {argNames : List String}
    (h : ∀ tmpl, (envOf classes globalAliases).templates name = some tmpl →
      Instantiated classes globalAliases name argNames tmpl ∧
        Keeps classes globalAliases (buildSpec (r (specCtx tmpl argNames)) (specCtx tmpl argNames)
          tmpl (mangle name tmpl.params argNames))) :
    Keeps classes globalAliases (specialize (envOf classes globalAliases) r name argNames) := by
  intro m s m' hrun hm
  cases htmpl : (envOf classes globalAliases).templates name with
  | none =>
    simp only [specialize, htmpl] at hrun
    exact keeps_sequential.pure name m s m' hrun hm
  | some tmpl =>
    obtain ⟨hinst, hbody⟩ := h tmpl htmpl
    rcases specialize_cases htmpl hrun with ⟨-, rfl⟩ | ⟨hnew, spec, m₂, hspec, rfl⟩
    · exact ⟨hm, List.prefix_refl _⟩
    · have hbuilt : Built classes globalAliases (stub (mangle name tmpl.params argNames)).name :=
        .inr ⟨name, argNames, tmpl, hinst, rfl⟩
      obtain ⟨hm₂, hprefix⟩ := hbody _ spec m₂ hspec (hm.push hbuilt hnew)
      rw [namesOf_push] at hprefix
      have hslot : (namesOf m₂)[m.out.length]? = some spec.name := by
        rw [buildSpec_name hspec]
        obtain ⟨rest, hrest⟩ := hprefix
        have hlength : (namesOf m).length = m.out.length := List.length_map _
        rw [← hrest, ← hlength, List.getElem?_append_left (by simp)]
        exact List.getElem?_concat_length
      refine ⟨hm₂.set hslot, ?_⟩
      rw [show namesOf ⟨m₂.out.set m.out.length spec, m₂.index, _⟩ = namesOf m₂ from
        namesOf_set hslot]
      exact (List.prefix_append _ _).trans hprefix

/-- Resolution builds what is reached, and each class once. -/
theorem resolve_keeps {n : Nat} {ctx : SubstCtx} {tr : TypeRef}
    (h : Visited classes globalAliases ctx tr) :
    Keeps classes globalAliases (resolve (envOf classes globalAliases) n ctx tr) := by
  induction n generalizing ctx tr with
  | zero => exact fun _ _ _ hrun => absurd hrun (Option.some_ne_none _).symm
  | succ n ih =>
    obtain ⟨name, args⟩ := tr
    unfold resolve
    cases hbound : ctx.bindings name with
    | some bound => exact keeps_sequential.pure bound
    | none =>
      cases halias : ctx.aliases name with
      | some target =>
        exact ih (h.classAlias hbound halias)
      | none =>
        cases hglobal : (if args.isEmpty then (envOf classes globalAliases).globalAliases name
            else none) with
        | some target =>
          obtain rfl : args = [] := by
            cases args
            · rfl
            · simp at hglobal
          exact ih (h.globalAlias hbound halias hglobal)
        | none =>
          have hstands : Stands (envOf classes globalAliases) ctx name args := by
            refine ⟨hbound, halias, ?_⟩
            rintro rfl
            exact hglobal
          refine keeps_sequential.bind (keeps_sequential.mapM fun arg harg =>
            ih (h.arg hstands harg)) fun argNames hrun => ?_
          obtain ⟨m, m', hrun⟩ := hrun
          have hargs : DenotesAll (envOf classes globalAliases) ctx args argNames :=
            resolveAll_denotes (fun _ _ _ _ h => resolve_denotes h) hrun
          split
          · exact keeps_sequential.pure name
          · refine specialize_keeps fun tmpl htmpl => ⟨⟨htmpl, ctx, args, h, hstands, hargs⟩, ?_⟩
            exact buildSpec_sequential keeps_sequential _ fun tr htr =>
              ih (h.body hstands hargs htmpl htr)

theorem record_keeps {name : String} {decl : ClassDecl} (hname : decl.name = name)
    (hbuilt : Built classes globalAliases name) :
    Keeps classes globalAliases (record name decl) := by
  subst hname
  intro m _ m' h hm
  obtain ⟨-, h⟩ := Prod.mk.inj (Option.some.inj h)
  cases hindex : m.index decl.name with
  | some slot =>
    have hslot := (hm.indexed _ _).mp hindex
    simp only [hindex] at h
    subst h
    refine ⟨hm.set hslot, ?_⟩
    rw [show namesOf ⟨m.out.set slot decl, m.index, _⟩ = namesOf m from namesOf_set hslot]
  | none =>
    simp only [hindex] at h
    subst h
    refine ⟨hm.push hbuilt hindex, ?_⟩
    rw [namesOf_push]
    exact List.prefix_append _ _

theorem sound_empty : Sound classes globalAliases Mono.empty where
  built _ hname := absurd hname List.not_mem_nil
  indexed _ _ := ⟨fun h => absurd h (Option.some_ne_none _).symm,
    fun h => absurd h (Option.some_ne_none _).symm⟩

theorem monomorphize_sound {n : Nat} {out : List ClassDecl} {names : Names String}
    (h : monomorphize n classes globalAliases = some (out, names)) :
    ∃ m, Sound classes globalAliases m ∧ m.out = out := by
  simp only [monomorphize, Option.bind_eq_bind, Option.bind_eq_some_iff] at h
  obtain ⟨⟨_, m₁⟩, hconcrete, ⟨aliasNames, m⟩, haliases, h⟩ := h
  obtain ⟨rfl, -⟩ := Prod.mk.inj (Option.some.inj h)
  have hconcrete_keeps : Keeps classes globalAliases
      (buildConcrete (envOf classes globalAliases) n classes) := by
    refine keeps_sequential.forM fun c hc => ?_
    obtain ⟨hc, hparams⟩ := List.mem_filter.mp hc
    have hparams : c.params = [] := List.isEmpty_iff.mp hparams
    refine keeps_sequential.bind (buildSpec_sequential keeps_sequential _ fun tr htr =>
      resolve_keeps (.concrete hc hparams htr)) fun spec hspec => ?_
    obtain ⟨_, _, hspec⟩ := hspec
    exact record_keeps (buildSpec_name hspec) (.inl ⟨c, hc, hparams, rfl⟩)
  have haliases_keeps : Keeps classes globalAliases
      (resolveAliases (envOf classes globalAliases) n globalAliases) :=
    keeps_sequential.foldlM (fun a ha names =>
      keeps_sequential.map (resolve_keeps (.target ha)) _) _
  obtain ⟨hm₁, -⟩ := hconcrete_keeps _ _ _ hconcrete sound_empty
  exact ⟨m, (haliases_keeps _ _ _ haliases hm₁).1, rfl⟩

/-- The built classes have different names, each the name of a class without formals or of an
instantiation, and their names tell all instantiations and declared classes apart exactly if the
words of the instantiations do. -/
theorem specializations_distinct_iff {n : Nat} {out : List ClassDecl} {names : Names String}
    (h : monomorphize n classes globalAliases = some (out, names)) :
    (out.map ClassDecl.name).Nodup ∧ (∀ c ∈ out, Built classes globalAliases c.name) ∧
      (Distinct classes globalAliases ↔ Apart classes globalAliases) := by
  obtain ⟨m, hm, rfl⟩ := monomorphize_sound h
  refine ⟨?_, fun c hc => hm.built _ (List.mem_map_of_mem hc), distinct_iff_apart classes _⟩
  refine List.nodup_iff_getElem?_ne_getElem?.mpr fun i j hij hj heq => ?_
  have hname := List.getElem?_eq_getElem hj
  have hi := (hm.indexed _ i).mpr (heq.trans hname)
  exact hij.ne (Option.some.inj (hi.symm.trans ((hm.indexed _ j).mpr hname)))

private theorem mangle_prefix {base : String} {tmpl : ClassDecl} {argNames : List String}
    (hparams : tmpl.params ≠ []) :
    (base ++ "__").toList <+: (mangle base tmpl.params argNames).toList := by
  cases hargs : resolvedArgs tmpl.params argNames with
  | nil =>
    have hlength := congrArg List.length hargs
    rw [resolvedArgs, List.length_map, withArgs_length] at hlength
    exact absurd (List.length_eq_zero_iff.mp hlength) hparams
  | cons arg args =>
    rw [mangle_eq, hargs, List.map_cons, suffix, List.map_cons, String.join_cons]
    simp only [String.toList_append, ← List.append_assoc]
    exact (List.prefix_append _ _).trans (List.prefix_append _ _)

/-- Clean names tell the instantiations apart. -/
theorem CleanNames.distinct (hclean : CleanNames classes globalAliases) :
    Distinct classes globalAliases where
  injective base argNames tmpl base' argNames' tmpl' hinst hinst' heq := by
    obtain ⟨hbase, hargs⟩ := hclean.instantiated_readable hinst
    obtain ⟨hbase', hargs'⟩ := hclean.instantiated_readable hinst'
    exact mangle_injective hbase hbase' hinst.1 hinst'.1 hargs hargs' heq
  undeclared base argNames tmpl hinst c hc heq :=
    hclean.declared base argNames tmpl hinst c hc
      (heq ▸ mangle_prefix (templates_mem hinst.1).2.1)

end

/-! ### A class that is told apart and one that is not -/

/-- `class box #(type T); T item; endclass`. -/
def boxTemplate : ClassDecl :=
  { stub "box" with fields := [fieldOf "item" (some "T") none], params := [⟨"T", true, none⟩] }

/-- `class main; box#(int) item; endclass`. -/
def boxMain : ClassDecl :=
  { stub "main" with
    fields := [{ fieldOf "item" (some "box") none with typeArgs := [.mk "int" []] }] }

private theorem box_visited {ctx : SubstCtx} {tr : TypeRef}
    (h : Visited [boxTemplate, boxMain] [] ctx tr) :
    ctx = SubstCtx.empty ∧ (tr = .mk "box" [.mk "int" []] ∨ tr = .mk "int" []) ∨
      ctx = specCtx boxTemplate ["int"] ∧ tr = .mk "T" [] := by
  induction h with
  | @concrete c tr hc hparams htr =>
    rcases List.mem_pair.mp hc with rfl | rfl
    · cases hparams
    · exact .inl ⟨rfl, .inl (List.mem_singleton.mp htr)⟩
  | target ha => exact absurd ha List.not_mem_nil
  | classAlias _ _ halias ih =>
    rcases ih with ⟨rfl, -⟩ | ⟨rfl, -⟩ <;> cases halias
  | globalAlias _ _ _ hglobal => cases hglobal
  | arg _ hstands htr ih =>
    rcases ih with ⟨rfl, h | h⟩ | ⟨rfl, h⟩ <;> obtain ⟨rfl, rfl⟩ := TypeRef.mk.inj h
    · exact .inl ⟨rfl, .inr (List.mem_singleton.mp htr)⟩
    · cases htr
    · cases htr
  | body _ hstands hargs htmpl htr ih =>
    rcases ih with ⟨rfl, h | h⟩ | ⟨rfl, h⟩ <;> obtain ⟨rfl, rfl⟩ := TypeRef.mk.inj h
    · obtain rfl := hargs.unique (.cons (.named rfl rfl (fun _ => rfl) .nil) .nil)
      cases htmpl
      exact .inr ⟨rfl, List.mem_singleton.mp htr⟩
    · cases htmpl
    · cases hstands.bound

private theorem box_clean : CleanNames [boxTemplate, boxMain] [] where
  declared name argNames tmpl hinst c hc := by
    obtain ⟨hmem, hparams, rfl⟩ := templates_mem hinst.1
    rcases List.mem_pair.mp hmem with rfl | rfl
    · rcases List.mem_pair.mp hc with rfl | rfl <;> decide
    · exact absurd rfl hparams
  visited ctx name args h hstands := by
    rcases box_visited h with ⟨-, htr | htr⟩ | ⟨rfl, htr⟩ <;>
      obtain ⟨rfl, rfl⟩ := TypeRef.mk.inj htr
    · exact ⟨⟨by decide, by decide, by decide, by decide⟩, List.all_eq_true.mp (by decide)⟩
    · exact ⟨⟨by decide, by decide, by decide, by decide⟩, List.all_eq_true.mp (by decide)⟩
    · cases hstands.bound
  defaults name argNames tmpl hinst p hp hnone s hs := by
    obtain ⟨htmpl, ctx, args, hvisited, hstands, hargs⟩ := hinst
    obtain ⟨hmem, hparams, -⟩ := templates_mem htmpl
    rcases List.mem_pair.mp hmem with rfl | rfl
    · cases argNames with
      | nil =>
        obtain rfl := List.mem_singleton.mp hp
        cases hs
      | cons arg argNames =>
        obtain rfl := List.mem_singleton.mp hp
        cases hnone
    · exact absurd rfl hparams

theorem specializations_distinct_box : ∃ out names,
    monomorphize 4 [boxTemplate, boxMain] [] = some (out, names) ∧
      (out.map ClassDecl.name).Nodup ∧ Distinct [boxTemplate, boxMain] [] ∧
      Apart [boxTemplate, boxMain] [] := by
  have hrun : ∃ out names, monomorphize 4 [boxTemplate, boxMain] [] = some (out, names) :=
    ⟨_, _, rfl⟩
  obtain ⟨out, names, hrun⟩ := hrun
  obtain ⟨hnodup, -, hiff⟩ := specializations_distinct_iff hrun
  exact ⟨out, names, hrun, hnodup, box_clean.distinct, hiff.mp box_clean.distinct⟩

/-- `class box__int; endclass` besides `box`. -/
def takenClasses : List ClassDecl := [boxTemplate, stub "box__int", boxMain]

/-- The instantiation is given the name of a declared class, and is not built. -/
theorem box_int_taken :
    Instantiated takenClasses [] "box" ["int"] boxTemplate ∧
      mangle "box" boxTemplate.params ["int"] = (stub "box__int").name ∧
      stub "box__int" ∈ takenClasses ∧
      (monomorphize 4 takenClasses []).map (fun result => result.1.map ClassDecl.name) =
        some ["box__int", "main"] := by
  have hmain : boxMain ∈ takenClasses := by simp [takenClasses]
  have hvisited : Visited takenClasses [] SubstCtx.empty (.mk "box" [.mk "int" []]) :=
    .concrete hmain rfl (List.mem_singleton_self _)
  refine ⟨⟨rfl, SubstCtx.empty, [.mk "int" []], hvisited, ⟨rfl, rfl, ?_⟩, ?_⟩, by decide, ?_,
    by decide⟩
  · exact fun h => absurd h (List.cons_ne_nil _ _)
  · exact .cons (.named rfl rfl (fun _ => rfl) .nil) .nil
  · simp [takenClasses]

end Eevee.Classes.Mangling
