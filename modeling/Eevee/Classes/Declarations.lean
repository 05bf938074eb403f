/- Class declarations and the numbers of the callables they declare. -/

import Eevee.Const.Evaluators
import Eevee.Lib.Folds
import Eevee.Lib.Tables

set_option autoImplicit false
set_option relaxedAutoImplicit false

namespace Eevee.Classes.Declarations

open Eevee.Ast.Syntax
open Eevee.Lib.Folds
open Eevee.Lib.Tables

/-! ### Syntax -/

inductive CollKind
  | queue | fixed | assoc
  deriving DecidableEq

/-- An initializer: a string literal or another expression. -/
inductive Init
  | str (text : String)
  | expr (value : Expr)

/-- A type name with its actual type arguments. -/
inductive TypeRef
  | mk (name : String) (args : List TypeRef)

def TypeRef.name : TypeRef → String
  | mk name _ => name

def TypeRef.args : TypeRef → List TypeRef
  | mk _ args => args

/-- A variable or class field. -/
structure VarDecl where
  name : String
  width : Nat
  signed : Bool
  className : Option String
  isString : Bool
  isEvent : Bool
  coll : Option CollKind
  keyClassName : Option String
  isStatic : Bool
  init : Option Init

/-- A function or task; its parameters and body are only passed on here. -/
structure FuncDecl (Body : Type) where
  name : String
  retWidth : Nat
  retSigned : Bool
  retIsString : Bool
  retClass : Option String
  /-- The class of a definition given out of the class body. -/
  classScope : Option String
  isVoid : Bool
  isVirtual : Bool
  body : Body

structure TypeAlias where
  name : String
  target : TypeRef

structure CollectionAlias where
  name : String
  kind : CollKind
  element : Option TypeRef
  key : Option TypeRef

/-- A formal parameter of a class with the text of its default. -/
structure ParamDecl where
  name : String
  isType : Bool
  fallback : Option String

structure ClassDecl (Body : Type) where
  name : String
  base : Option String
  fields : List VarDecl
  methods : List (FuncDecl Body)
  constructor : Option (FuncDecl Body)
  typeAliases : List TypeAlias
  collectionAliases : List CollectionAlias
  params : List ParamDecl
  isStruct : Bool

/-! ### Callable numbers -/

abbrev ClassId := Nat

abbrev FuncId := Nat

/-- A method of a class with the virtualness and return type its prototype gives. -/
structure Effective (Body : Type) where
  name : String
  decl : FuncDecl Body
  isVirtual : Bool
  retClass : Option String

/-- A method's number, virtualness and return class. -/
structure MethodFid where
  name : String
  fid : FuncId
  isVirtual : Bool
  retClass : Option ClassId

/-- The out-of-body definition adds to what the prototype says. -/
def Effective.withBody {Body : Type} (entry : Effective Body) (e : FuncDecl Body) :
    Effective Body where
  name := entry.name
  decl := e
  isVirtual := entry.isVirtual || e.isVirtual
  retClass := entry.retClass.or e.retClass

@[simp]
theorem Effective.name_withBody {Body : Type} (entry : Effective Body) (e : FuncDecl Body) :
    (entry.withBody e).name = entry.name := rfl

structure ClassFids where
  methodFids : List MethodFid
  ctorFid : Option FuncId

section

variable {Body : Type}

/-- The first declaration of a name wins. -/
def classIds (decls : List (ClassDecl Body)) : Names ClassId :=
  decls.zipIdx.foldl (fun ids entry => ids.orInsert entry.1.name entry.2) .empty

/-- The methods gathered so far and the place of the last one of each name. -/
structure Methods (Body : Type) where
  eff : List (Effective Body)
  idx : Names Nat

namespace Methods

def push (methods : Methods Body) (entry : Effective Body) : Methods Body where
  eff := methods.eff ++ [entry]
  idx := methods.idx.insert entry.name methods.eff.length

theorem eff_push (methods : Methods Body) (entry : Effective Body) :
    (methods.push entry).eff = methods.eff ++ [entry] := rfl

theorem idx_push (methods : Methods Body) (entry : Effective Body) :
    (methods.push entry).idx = methods.idx.insert entry.name methods.eff.length := rfl

/-- A method of the class body. -/
def inBody (methods : Methods Body) (m : FuncDecl Body) : Methods Body :=
  methods.push ⟨m.name, m, m.isVirtual, m.retClass⟩

/-- An out-of-body definition supplies the body of the method of its name, or is a method of its
own. -/
def mergeExtern (methods : Methods Body) (e : FuncDecl Body) : Methods Body :=
  match methods.idx e.name with
  | some i =>
    match methods.eff[i]? with
    | some entry =>
      { methods with eff := methods.eff.set i (entry.withBody e) }
    | none => methods
  | none => methods.push ⟨e.name, e, e.isVirtual, e.retClass⟩

end Methods

/-- The out-of-body definitions of a class, in the order of the source. -/
def externsOf (freeFuncs : List (FuncDecl Body)) (className : String) : List (FuncDecl Body) :=
  freeFuncs.filter (·.classScope = some className)

def effectiveMethods (freeFuncs : List (FuncDecl Body)) (c : ClassDecl Body) : Methods Body :=
  (externsOf freeFuncs c.name).foldl .mergeExtern
    (c.methods.foldl .inBody ⟨[], .empty⟩)

/-- The callables numbered so far, each with the class it belongs to. -/
abbrev Jobs (Body : Type) := List (FuncDecl Body × Option ClassId)

structure FreeFuncs (Body : Type) where
  jobs : Jobs Body
  funcIds : Names FuncId
  funcIntegralReturns : Names (Nat × Bool)

/-- The first function of a name is the one that is called; the last gives the return type. -/
def freeFunc (state : FreeFuncs Body) (f : FuncDecl Body) : FreeFuncs Body where
  jobs := if f.classScope.isSome then state.jobs else state.jobs ++ [(f, none)]
  funcIds :=
    if f.classScope.isSome then state.funcIds else state.funcIds.orInsert f.name state.jobs.length
  funcIntegralReturns :=
    if f.classScope.isSome ∨ f.isVoid ∨ f.retClass.isSome ∨ f.retIsString then
      state.funcIntegralReturns
    else state.funcIntegralReturns.insert f.name (max f.retWidth 1, f.retSigned)

def freeFuncs (funcs : List (FuncDecl Body)) : FreeFuncs Body :=
  funcs.foldl freeFunc ⟨[], .empty, .empty⟩

def pushMethod (ids : Names ClassId) (cid : ClassId) (state : Jobs Body × List MethodFid)
    (m : Effective Body) : Jobs Body × List MethodFid :=
  (state.1 ++ [(m.decl, some cid)],
    state.2 ++ [⟨m.name, state.1.length, m.isVirtual, m.retClass.bind ids⟩])

/-- A constructor that is declared as a method named `new` counts as the constructor. -/
def pushConstructor (c : ClassDecl Body) (cid : ClassId) (state : Jobs Body × List MethodFid) :
    Jobs Body × ClassFids :=
  match c.constructor with
  | some ct => (state.1 ++ [(ct, some cid)], ⟨state.2, some state.1.length⟩)
  | none => (state.1, ⟨state.2, (state.2.find? (·.name = "new")).map (·.fid)⟩)

def pushClass (ids : Names ClassId) (funcs : List (FuncDecl Body))
    (state : Jobs Body × List ClassFids) (entry : ClassDecl Body × ClassId) :
    Jobs Body × List ClassFids :=
  let numbered := pushConstructor entry.1 entry.2
    ((effectiveMethods funcs entry.1).eff.foldl (pushMethod ids entry.2) (state.1, []))
  (numbered.1, state.2 ++ [numbered.2])

/-- The methods and constructors follow the free functions, class by class. -/
def numberClasses (decls : List (ClassDecl Body)) (funcs : List (FuncDecl Body)) :
    Jobs Body × List ClassFids :=
  decls.zipIdx.foldl (pushClass (classIds decls) funcs) ((freeFuncs funcs).jobs, [])

/-- A class without a constructor gets the next number after all real callables. -/
def synthesizeConstructor (state : List ClassFids × FuncId) (fids : ClassFids) :
    List ClassFids × FuncId :=
  match fids.ctorFid with
  | some _ => (state.1 ++ [fids], state.2)
  | none => (state.1 ++ [{ fids with ctorFid := some state.2 }], state.2 + 1)

def classFids (decls : List (ClassDecl Body)) (funcs : List (FuncDecl Body)) : List ClassFids :=
  ((numberClasses decls funcs).2.foldl synthesizeConstructor
    ([], (numberClasses decls funcs).1.length)).1

/-! ### The method a name stands for -/

/-- The declaration that implements a method in a class: the last out-of-body definition of the
name, or else the last method of the class body. -/
def implementation (funcs : List (FuncDecl Body)) (c : ClassDecl Body) (name : String) :
    Option (FuncDecl Body) :=
  (lastNamed FuncDecl.name (externsOf funcs c.name) name).or
    (lastNamed FuncDecl.name c.methods name)

namespace Methods

variable {methods : Methods Body}

def decl (methods : Methods Body) (name : String) : Option (FuncDecl Body) :=
  (lastNamed Effective.name methods.eff name).map (·.decl)

structure Indexed (methods : Methods Body) : Prop where
  found : ∀ name i, methods.idx name = some i → LastAt Effective.name methods.eff name i
  absent : ∀ name, methods.idx name = none → lastNamed Effective.name methods.eff name = none

theorem indexed_push (h : methods.Indexed) (entry : Effective Body) :
    (methods.push entry).Indexed where
  found := by
    intro name i hi
    by_cases hname : name = entry.name
    · subst hname
      rw [idx_push, Names.insert_self] at hi
      cases hi
      exact LastAt.push_self
    · rw [idx_push, Names.insert_of_ne _ hname] at hi
      exact (h.found name i hi).push_ne (Ne.symm hname)
  absent := by
    intro name hnone
    have hname : name ≠ entry.name := by
      rintro rfl
      rw [idx_push, Names.insert_self] at hnone
      cases hnone
    rw [idx_push, Names.insert_of_ne _ hname] at hnone
    rw [eff_push, lastNamed_push, if_neg (Ne.symm hname)]
    exact h.absent name hnone

theorem decl_push (entry : Effective Body) (name : String) :
    (methods.push entry).decl name =
      if entry.name = name then some entry.decl else methods.decl name := by
  rw [decl, eff_push, lastNamed_push]
  split <;> rfl

/-- What one more declaration does: it implements its own name and leaves the others. -/
def Declares (step : Methods Body → FuncDecl Body → Methods Body) : Prop :=
  ∀ methods f, methods.Indexed → (step methods f).Indexed ∧
    ∀ name, (step methods f).decl name = if f.name = name then some f else methods.decl name

theorem declares_inBody : Declares (inBody : Methods Body → FuncDecl Body → Methods Body) :=
  fun _ _ h => ⟨indexed_push h _, decl_push _⟩

theorem declares_mergeExtern :
    Declares (mergeExtern : Methods Body → FuncDecl Body → Methods Body) := by
  intro methods e h
  unfold mergeExtern
  cases hidx : methods.idx e.name with
  | none => exact ⟨indexed_push h _, decl_push _⟩
  | some i =>
    have hlast := h.found e.name i hidx
    obtain ⟨entry, hentry, hname, -⟩ := id hlast
    have hmerged : (entry.withBody e).name = entry.name := entry.name_withBody e
    simp only [hentry]
    refine ⟨⟨fun name k hk => (h.found name k hk).set hentry hname (hmerged.trans hname),
      fun name hk => ?_⟩, fun name => ?_⟩
    · have hne : entry.name ≠ name := by
        rintro rfl
        rw [hname, hidx] at hk
        cases hk
      exact (lastNamed_set_ne hentry hmerged hne).trans (h.absent name hk)
    · by_cases hne : e.name = name
      · subst hne
        rw [if_pos rfl]
        exact congrArg (Option.map (·.decl)) (lastNamed_set_self hlast (hmerged.trans hname))
      · rw [if_neg hne]
        exact congrArg (Option.map (·.decl)) (lastNamed_set_ne hentry hmerged (hname ▸ hne))

theorem declares_run {step : Methods Body → FuncDecl Body → Methods Body} (hstep : Declares step)
    (fs : List (FuncDecl Body)) (h : methods.Indexed) : (fs.foldl step methods).Indexed ∧
      ∀ name, (fs.foldl step methods).decl name =
        (lastNamed FuncDecl.name fs name).or (methods.decl name) := by
  refine foldl_invariant step
    (fun done methods' => methods'.Indexed ∧ ∀ name, methods'.decl name =
      (lastNamed FuncDecl.name done name).or (methods.decl name)) fs methods
    ⟨h, fun _ => rfl⟩ fun done f _ methods' _ hdone => ?_
  obtain ⟨hindexed, hdecl⟩ := hstep methods' f hdone.1
  refine ⟨hindexed, fun name => ?_⟩
  rw [hdecl name, lastNamed_push, hdone.2 name]
  split <;> rfl

end Methods

theorem decl_effectiveMethods (funcs : List (FuncDecl Body)) (c : ClassDecl Body) (name : String) :
    (effectiveMethods funcs c).decl name = implementation funcs c name := by
  have hempty : (⟨[], .empty⟩ : Methods Body).Indexed :=
    ⟨fun _ _ h => absurd h (by simp [Names.empty]), fun _ _ => rfl⟩
  obtain ⟨hindexed, hbody⟩ := Methods.declares_run Methods.declares_inBody c.methods hempty
  obtain ⟨-, hall⟩ :=
    Methods.declares_run Methods.declares_mergeExtern (externsOf funcs c.name) hindexed
  rw [effectiveMethods, hall, hbody, implementation]
  simp [Methods.decl]

/-! ### Numbers of methods -/

/-- The methods of a class are numbered: the last entry of a name has the number of the name's
implementation. -/
structure Numbered (jobs : Jobs Body) (cid : ClassId) (fids : List MethodFid)
    (impl : String → Option (FuncDecl Body)) : Prop where
  found : ∀ name m, lastNamed MethodFid.name fids name = some m →
    ∃ decl, impl name = some decl ∧ jobs[m.fid]? = some (decl, some cid)
  absent : ∀ name, lastNamed MethodFid.name fids name = none → impl name = none

namespace Numbered

variable {jobs more : Jobs Body} {cid : ClassId} {fids : List MethodFid}
  {impl : String → Option (FuncDecl Body)}

theorem grow (h : Numbered jobs cid fids impl) (hmore : jobs <+: more) :
    Numbered more cid fids impl where
  found name m hm := by
    obtain ⟨decl, himpl, hjob⟩ := h.found name m hm
    obtain ⟨rest, rfl⟩ := hmore
    exact ⟨decl, himpl,
      (List.getElem?_append_left (List.getElem?_eq_some_iff.mp hjob).1).trans hjob⟩
  absent := h.absent

theorem push (h : Numbered jobs cid fids impl) (ids : Names ClassId) (m : Effective Body) :
    Numbered (pushMethod ids cid (jobs, fids) m).1 cid (pushMethod ids cid (jobs, fids) m).2
      fun name => if m.name = name then some m.decl else impl name where
  found name found hfound := by
    rw [pushMethod, lastNamed_push] at hfound
    by_cases hname : m.name = name
    · rw [if_pos hname] at hfound
      cases hfound
      exact ⟨m.decl, if_pos hname, List.getElem?_concat_length⟩
    · rw [if_neg hname] at hfound
      obtain ⟨decl, himpl, hjob⟩ := (h.grow (List.prefix_append _ _)).found name found hfound
      exact ⟨decl, (if_neg hname).trans himpl, hjob⟩
  absent name hnone := by
    rw [pushMethod, lastNamed_push] at hnone
    by_cases hname : m.name = name
    · rw [if_pos hname] at hnone
      cases hnone
    · rw [if_neg hname] at hnone
      exact (if_neg hname).trans (h.absent name hnone)

end Numbered

theorem numbered_methods (ids : Names ClassId) (cid : ClassId) (eff : List (Effective Body))
    (jobs : Jobs Body) :
    jobs <+: (eff.foldl (pushMethod ids cid) (jobs, [])).1 ∧
      Numbered (eff.foldl (pushMethod ids cid) (jobs, [])).1 cid
        (eff.foldl (pushMethod ids cid) (jobs, [])).2
        fun name => (lastNamed Effective.name eff name).map (·.decl) := by
  refine foldl_invariant (pushMethod ids cid)
    (fun done state => jobs <+: state.1 ∧ Numbered state.1 cid state.2
      fun name => (lastNamed Effective.name done name).map (·.decl)) eff (jobs, [])
    ⟨List.prefix_rfl, ⟨fun _ _ h => absurd h (by simp), fun _ _ => rfl⟩⟩
    fun done m _ state _ h => ?_
  refine ⟨h.1.trans (List.prefix_append _ _), ?_⟩
  have hpush := h.2.push ids m
  convert hpush using 2 with name
  rw [lastNamed_push]
  split <;> rfl

/-- Every class of a prefix of the declarations has its methods numbered. -/
structure AllNumbered (funcs : List (FuncDecl Body)) (done : List (ClassDecl Body))
    (jobs : Jobs Body) (fids : List ClassFids) : Prop where
  length_eq : fids.length = done.length
  numbered : ∀ (cid : ClassId) c f, done[cid]? = some c → fids[cid]? = some f →
    Numbered jobs cid f.methodFids (implementation funcs c)

theorem prefix_pushConstructor (c : ClassDecl Body) (cid : ClassId)
    (state : Jobs Body × List MethodFid) : state.1 <+: (pushConstructor c cid state).1 := by
  unfold pushConstructor
  cases c.constructor with
  | some ct => exact List.prefix_append _ _
  | none => exact List.prefix_rfl

theorem methodFids_pushConstructor (c : ClassDecl Body) (cid : ClassId)
    (state : Jobs Body × List MethodFid) :
    (pushConstructor c cid state).2.methodFids = state.2 := by
  unfold pushConstructor
  cases c.constructor <;> rfl

theorem AllNumbered.push (ids : Names ClassId) {funcs : List (FuncDecl Body)}
    {done : List (ClassDecl Body)} {state : Jobs Body × List ClassFids}
    (h : AllNumbered funcs done state.1 state.2) (c : ClassDecl Body) :
    AllNumbered funcs (done ++ [c]) (pushClass ids funcs state (c, done.length)).1
      (pushClass ids funcs state (c, done.length)).2 where
  length_eq := by simp [pushClass, h.length_eq]
  numbered := by
    intro cid c' f hc hf
    obtain ⟨hgrow, hown⟩ := numbered_methods ids done.length (effectiveMethods funcs c).eff state.1
    have hctor := prefix_pushConstructor c done.length
      ((effectiveMethods funcs c).eff.foldl (pushMethod ids done.length) (state.1, []))
    by_cases hlt : cid < done.length
    · rw [List.getElem?_append_left hlt] at hc
      rw [pushClass, List.getElem?_append_left (h.length_eq ▸ hlt)] at hf
      exact (h.numbered cid c' f hc hf).grow (hgrow.trans hctor)
    · have hend := (List.getElem?_eq_some_iff.mp hc).1
      rw [List.length_append, List.length_singleton] at hend
      have heq : cid = done.length :=
        Nat.le_antisymm (Nat.lt_succ_iff.mp hend) (Nat.not_lt.mp hlt)
      subst heq
      rw [List.getElem?_concat_length] at hc
      rw [pushClass, ← h.length_eq, List.getElem?_concat_length] at hf
      cases hc
      cases hf
      rw [methodFids_pushConstructor]
      have himpl : (fun name => (lastNamed Effective.name (effectiveMethods funcs c).eff name).map
          (·.decl)) = implementation funcs c := funext (decl_effectiveMethods funcs c)
      rw [← himpl, h.length_eq]
      exact hown.grow hctor

theorem allNumbered_numberClasses (decls : List (ClassDecl Body)) (funcs : List (FuncDecl Body)) :
    AllNumbered funcs decls (numberClasses decls funcs).1 (numberClasses decls funcs).2 := by
  have run : ∀ (rest done : List (ClassDecl Body)) (state : Jobs Body × List ClassFids),
      AllNumbered funcs done state.1 state.2 →
      AllNumbered funcs (done ++ rest)
        ((rest.zipIdx done.length).foldl (pushClass (classIds decls) funcs) state).1
        ((rest.zipIdx done.length).foldl (pushClass (classIds decls) funcs) state).2 := by
    intro rest
    induction rest with
    | nil =>
      intro done state h
      simpa using h
    | cons c rest ih =>
      intro done state h
      have hnext := ih (done ++ [c]) _ (h.push (classIds decls) c)
      rw [List.append_assoc, List.length_append] at hnext
      exact hnext
  refine run decls [] ((freeFuncs funcs).jobs, []) ⟨rfl, ?_⟩
  intro cid c f hc
  cases hc

theorem methodFids_synthesized (fids : List ClassFids) (next : FuncId) :
    (fids.foldl synthesizeConstructor ([], next)).1.map (·.methodFids) =
      fids.map (·.methodFids) := by
  refine foldl_invariant synthesizeConstructor
    (fun done state => state.1.map (·.methodFids) = done.map (·.methodFids)) fids ([], next) rfl
    fun done f _ state _ h => ?_
  unfold synthesizeConstructor
  cases f.ctorFid <;> simp [h]

/-- Every class has its methods numbered. -/
theorem numbered_classFids {decls : List (ClassDecl Body)} {funcs : List (FuncDecl Body)}
    {cid : ClassId} {c : ClassDecl Body} {f : ClassFids} (hc : decls[cid]? = some c)
    (hf : (classFids decls funcs)[cid]? = some f) :
    Numbered (numberClasses decls funcs).1 cid f.methodFids (implementation funcs c) := by
  have hall := allNumbered_numberClasses decls funcs
  have hsame := congrArg (·[cid]?) (methodFids_synthesized (numberClasses decls funcs).2
    (numberClasses decls funcs).1.length)
  simp only [List.getElem?_map] at hsame
  rw [classFids] at hf
  rw [hf] at hsame
  obtain ⟨f', hf', heq⟩ := Option.map_eq_some_iff.mp hsame.symm
  have hnumbered := hall.numbered cid c f' hc hf'
  rw [heq] at hnumbered
  exact hnumbered

theorem length_classFids (decls : List (ClassDecl Body)) (funcs : List (FuncDecl Body)) :
    (classFids decls funcs).length = decls.length := by
  have hsame := congrArg List.length (methodFids_synthesized (numberClasses decls funcs).2
    (numberClasses decls funcs).1.length)
  rw [List.length_map, List.length_map] at hsame
  exact hsame.trans (allNumbered_numberClasses decls funcs).length_eq

end

end Eevee.Classes.Declarations
