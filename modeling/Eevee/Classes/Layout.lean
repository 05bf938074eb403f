/- The layout of classes: fields, methods and virtual tables, base before derived. -/

import Eevee.Classes.Declarations

set_option autoImplicit false
set_option relaxedAutoImplicit false

namespace Eevee.Classes.Layout

open Eevee.Core.Logic
open Eevee.Const.Evaluators
open Eevee.Lib.Folds
open Eevee.Lib.Tables
open Eevee.Classes.Declarations

structure CollInfo where
  kind : CollKind
  elemClass : Option ClassId
  keyClass : Option ClassId
  deriving DecidableEq

/-- What a field or static variable holds before anything is assigned to it. -/
inductive Default
  | null
  | logic (value : PackedVec)
  | str (text : String)
  | event (id : Nat)
  | queue
  | assoc

/-- The static variables allocated so far and the next event identity. A default whose
evaluation fails an assertion is kept as that failure. -/
structure Storage where
  statics : List (Eval Default)
  nextEvent : Nat

structure ClassInfo where
  name : String
  base : Option ClassId
  /-- Slot and width of an instance field. -/
  fieldSlot : Names (Nat × Nat)
  fieldSigned : Names Bool
  fieldClass : Names ClassId
  fieldColl : Names CollInfo
  fieldEvents : Names Unit
  fieldStrings : Names Unit
  staticFields : Names Nat
  staticFieldWidths : Names Nat
  staticFieldSigned : Names Bool
  staticFieldStrings : Names Unit
  staticFieldClass : Names ClassId
  staticFieldColl : Names CollInfo
  typeParamDefault : Names ClassId
  typeAliases : Names ClassId
  collectionAliases : Names CollInfo
  methodRetClass : Names ClassId
  methodRetIntegral : Names (Nat × Bool)
  fieldDefaults : List (Eval Default)
  methods : Names FuncId
  vtable : List FuncId
  /-- The place of a virtual method in `vtable`. -/
  vslotOf : Names Nat
  ctor : Option FuncId
  isStruct : Bool

def ClassInfo.empty : ClassInfo where
  name := ""
  base := none
  fieldSlot := .empty
  fieldSigned := .empty
  fieldClass := .empty
  fieldColl := .empty
  fieldEvents := .empty
  fieldStrings := .empty
  staticFields := .empty
  staticFieldWidths := .empty
  staticFieldSigned := .empty
  staticFieldStrings := .empty
  staticFieldClass := .empty
  staticFieldColl := .empty
  typeParamDefault := .empty
  typeAliases := .empty
  collectionAliases := .empty
  methodRetClass := .empty
  methodRetIntegral := .empty
  fieldDefaults := []
  methods := .empty
  vtable := []
  vslotOf := .empty
  ctor := none
  isStruct := false

/-! ### One class -/

/-- A field's default and the next event identity. -/
def defaultValue (fld : VarDecl) (consts : Constants) (nextEvent : Nat) : Eval Default × Nat :=
  if fld.coll.isSome ∨ fld.className.isSome then (.ok .null, nextEvent)
  else if fld.isEvent then (.ok (.event nextEvent), nextEvent + 1)
  else if fld.isString then
    match fld.init with
    | some (.str text) => (.ok (.str text), nextEvent)
    | _ => (.ok (.str ""), nextEvent)
  else
    match fld.init with
    | some (.expr e) =>
      (match Elab.tryConstEvalAtWidth consts e (max fld.width 1) fld.signed with
        | .ok value => .ok (.logic value)
        | .error .none => .ok (.logic (.zero (max fld.width 1)))
        | .error .panic => .error .panic, nextEvent)
    | _ => (.ok (.logic (.zero (max fld.width 1))), nextEvent)

/-- A static collection starts as empty storage of its own. -/
def staticDefault (fld : VarDecl) (consts : Constants) (nextEvent : Nat) : Eval Default × Nat :=
  match fld.coll with
  | some .assoc => (.ok .assoc, nextEvent)
  | some .queue | some .fixed => (.ok .queue, nextEvent)
  | none => defaultValue fld consts nextEvent

section

variable {Body : Type}

def addTypeParam (ids : Names ClassId) (info : ClassInfo) (p : ParamDecl) : ClassInfo :=
  if p.isType then
    match p.fallback.bind ids with
    | some cid => { info with typeParamDefault := info.typeParamDefault.insert p.name cid }
    | none => info
  else info

def sanitize (text : String) : String :=
  let s := text.map fun c => if c.isAlphanum || c == '_' then c else '_'
  if s.isEmpty then "_" else s

/-- The name a specialised class is declared under. -/
def lookupName (target : TypeRef) : String :=
  if target.args.isEmpty then target.name
  else "__".intercalate (target.name :: target.args.map fun arg => sanitize arg.name)

def addTypeAlias (ids : Names ClassId) (info : ClassInfo) (a : TypeAlias) : ClassInfo :=
  match ids (lookupName a.target) with
  | some cid => { info with typeAliases := info.typeAliases.insert a.name cid }
  | none => info

/-- A global class, an alias of the class, or the default of a type parameter. -/
def resolveTy (ids : Names ClassId) (info : ClassInfo) (name : String) : Option ClassId :=
  (ids name).or ((info.typeAliases name).or (info.typeParamDefault name))

def addCollectionAlias (ids : Names ClassId) (info : ClassInfo) (a : CollectionAlias) :
    ClassInfo :=
  { info with
    collectionAliases := info.collectionAliases.insert a.name
      ⟨a.kind, a.element.bind fun ty => resolveTy ids info ty.name,
        a.key.bind fun ty => resolveTy ids info ty.name⟩ }

/-- Insert when there is something to insert. -/
def insertSome {α : Type} (names : Names α) (name : String) : Option α → Names α
  | some value => names.insert name value
  | none => names

/-- A static field lives in the storage all objects share. -/
def addStaticField (ids : Names ClassId) (consts : Constants) (state : ClassInfo × Storage)
    (fld : VarDecl) : ClassInfo × Storage :=
  let info := state.1
  let elemClass := fld.className.bind (resolveTy ids info)
  let keyClass := fld.keyClassName.bind (resolveTy ids info)
  let made := staticDefault fld consts state.2.nextEvent
  ({ info with
      staticFields := info.staticFields.insert fld.name state.2.statics.length
      staticFieldWidths := info.staticFieldWidths.insert fld.name (max fld.width 1)
      staticFieldSigned := info.staticFieldSigned.insert fld.name fld.signed
      staticFieldStrings :=
        if fld.isString then info.staticFieldStrings.insert fld.name ()
        else info.staticFieldStrings
      staticFieldClass := insertSome info.staticFieldClass fld.name elemClass
      staticFieldColl := insertSome info.staticFieldColl fld.name
        (fld.coll.map fun kind => ⟨kind, elemClass, keyClass⟩) },
    ⟨state.2.statics ++ [made.1], made.2⟩)

/-- An instance field takes the next slot, also when its name is inherited. -/
def addInstanceField (ids : Names ClassId) (consts : Constants) (state : ClassInfo × Storage)
    (fld : VarDecl) : ClassInfo × Storage :=
  let info := state.1
  let elemClass := fld.className.bind (resolveTy ids info)
  let keyClass := fld.keyClassName.bind (resolveTy ids info)
  let made := defaultValue fld consts state.2.nextEvent
  ({ info with
      fieldSlot := info.fieldSlot.insert fld.name (info.fieldDefaults.length, fld.width)
      fieldSigned := info.fieldSigned.insert fld.name fld.signed
      fieldEvents :=
        if fld.isEvent then info.fieldEvents.insert fld.name () else info.fieldEvents
      fieldStrings :=
        if fld.isString then info.fieldStrings.insert fld.name () else info.fieldStrings
      fieldColl := insertSome info.fieldColl fld.name
        (fld.coll.map fun kind => ⟨kind, elemClass, keyClass⟩)
      fieldClass :=
        if fld.coll.isSome then info.fieldClass
        else insertSome info.fieldClass fld.name elemClass
      fieldDefaults := info.fieldDefaults ++ [made.1] },
    ⟨state.2.statics, made.2⟩)

theorem fieldSlot_addInstanceField (ids : Names ClassId) (consts : Constants)
    (state : ClassInfo × Storage) (fld : VarDecl) :
    (addInstanceField ids consts state fld).1.fieldSlot =
      state.1.fieldSlot.insert fld.name (state.1.fieldDefaults.length, fld.width) := rfl

theorem length_addInstanceField (ids : Names ClassId) (consts : Constants)
    (state : ClassInfo × Storage) (fld : VarDecl) :
    (addInstanceField ids consts state fld).1.fieldDefaults.length =
      state.1.fieldDefaults.length + 1 := List.length_append

def addField (ids : Names ClassId) (consts : Constants) (state : ClassInfo × Storage)
    (fld : VarDecl) : ClassInfo × Storage :=
  if fld.isStatic then addStaticField ids consts state fld
  else addInstanceField ids consts state fld

/-- An inherited slot gets the new implementation; a virtual method without a slot gets one. -/
def addVirtual (info : ClassInfo) (m : MethodFid) : ClassInfo :=
  match info.vslotOf m.name with
  | some vslot => { info with vtable := info.vtable.set vslot m.fid }
  | none =>
    if m.isVirtual then
      { info with
        vslotOf := info.vslotOf.insert m.name info.vtable.length
        vtable := info.vtable ++ [m.fid] }
    else info

/-- The first method of the name that returns a vector. -/
def integralReturn (c : ClassDecl Body) (name : String) : Option (Nat × Bool) :=
  (c.methods.find? fun m =>
    m.name = name ∧ ¬ m.isVoid ∧ m.retClass.isNone ∧ ¬ m.retIsString).map fun m =>
      (max m.retWidth 1, m.retSigned)

def addMethod (c : ClassDecl Body) (info : ClassInfo) (m : MethodFid) : ClassInfo :=
  addVirtual
    { info with
      methods := info.methods.insert m.name m.fid
      methodRetClass := insertSome info.methodRetClass m.name m.retClass
      methodRetIntegral := insertSome info.methodRetIntegral m.name (integralReturn c m.name) }
    m

/-- The base's layout, to be extended. -/
def inherited (c : ClassDecl Body) (baseId : Option ClassId) (base : Option ClassInfo)
    (fids : ClassFids) : ClassInfo :=
  { base.getD .empty with
    name := c.name
    base := baseId
    typeParamDefault := .empty
    ctor := fids.ctorFid
    isStruct := c.isStruct }

def addTypeNames (ids : Names ClassId) (c : ClassDecl Body) (info : ClassInfo) : ClassInfo :=
  c.collectionAliases.foldl (addCollectionAlias ids)
    (c.typeAliases.foldl (addTypeAlias ids) (c.params.foldl (addTypeParam ids) info))

/-- A class after its base: own type names, then fields, then methods. -/
def buildClassInfo (ids : Names ClassId) (consts : Constants) (c : ClassDecl Body)
    (baseId : Option ClassId) (base : Option ClassInfo) (fids : ClassFids) (storage : Storage) :
    ClassInfo × Storage :=
  let fielded := c.fields.foldl (addField ids consts)
    (addTypeNames ids c (inherited c baseId base fids), storage)
  (fids.methodFids.foldl (addMethod c) fielded.1, fielded.2)

/-! ### All classes -/

structure Design (Body : Type) where
  classDecls : List (ClassDecl Body)
  funcs : List (FuncDecl Body)
  consts : Constants
  /-- The storage after the package variables. -/
  storage : Storage

/-- A class may extend its own type parameter; a class that extends itself has no base. -/
def baseIdOf (d : Design Body) (c : ClassDecl Body) (cid : ClassId) : Option ClassId :=
  (c.base.bind fun bn =>
    (classIds d.classDecls bn).or
      ((c.params.find? fun p => p.isType ∧ p.name = bn).bind fun p =>
        p.fallback.bind (classIds d.classDecls))).filter (· != cid)

structure Building where
  built : ClassId → Option ClassInfo
  storage : Storage
  progress : Bool

/-- A class with its number and the numbers of its methods. -/
structure Entry (Body : Type) where
  cid : ClassId
  decl : ClassDecl Body
  fids : ClassFids

def entries (d : Design Body) : List (Entry Body) :=
  (d.classDecls.zip (classFids d.classDecls d.funcs)).zipIdx.map fun e => ⟨e.2, e.1.1, e.1.2⟩

def build (d : Design Body) (state : Building) (entry : Entry Body) (baseId : Option ClassId) :
    Building :=
  let made := buildClassInfo (classIds d.classDecls) d.consts entry.decl baseId
    (baseId.bind state.built) entry.fids state.storage
  ⟨fun cid => if cid = entry.cid then some made.1 else state.built cid, made.2, true⟩

/-- A class is built once its base is. -/
def visit (d : Design Body) (state : Building) (entry : Entry Body) : Building :=
  if (state.built entry.cid).isSome then state
  else
    match baseIdOf d entry.decl entry.cid with
    | some bid =>
      if (state.built bid).isNone then state else build d state entry (some bid)
    | none => build d state entry none

def sweep (d : Design Body) (state : Building) : Building :=
  (entries d).foldl (visit d) { state with progress := false }

/-- Sweeps until one makes no progress. -/
def sweeps (d : Design Body) : Nat → Building → Building
  | 0, state => state
  | fuel + 1, state =>
    let next := sweep d state
    if next.progress then sweeps d fuel next else next

/-- A class whose base is never built gets no base. -/
def visitLeftover (d : Design Body) (state : Building) (entry : Entry Body) : Building :=
  if (state.built entry.cid).isSome then state else build d state entry none

def initial (d : Design Body) : Building := ⟨fun _ => none, d.storage, false⟩

def classInfos (d : Design Body) : ClassId → Option ClassInfo :=
  ((entries d).foldl (visitLeftover d) (sweeps d (d.classDecls.length + 1) (initial d))).built

/-- All classes, and the storage that elaboration took. -/
def elaborated (d : Design Body) : Building :=
  (entries d).foldl (visitLeftover d) (sweeps d (d.classDecls.length + 1) (initial d))

/-- A property that holds before any class is built and that building a class keeps. -/
structure Kept (d : Design Body) (P : (ClassId → Option ClassInfo) → Storage → Prop) : Prop where
  start : P (fun _ => none) d.storage
  build : ∀ (state : Building) (entry : Entry Body) (baseId : Option ClassId),
    entry ∈ entries d → state.built entry.cid = none →
    (∀ bid, baseId = some bid → ∃ base, state.built bid = some base) →
    P state.built state.storage →
    P (build d state entry baseId).built (build d state entry baseId).storage

namespace Kept

variable {d : Design Body} {P : (ClassId → Option ClassInfo) → Storage → Prop}

theorem visit (h : Kept d P) {state : Building} (hs : P state.built state.storage)
    {entry : Entry Body} (hentry : entry ∈ entries d) :
    P (visit d state entry).built (visit d state entry).storage := by
  unfold Layout.visit
  by_cases hdone : (state.built entry.cid).isSome = true
  · rw [if_pos hdone]
    exact hs
  · have hnone : state.built entry.cid = none := by simpa using hdone
    rw [if_neg hdone]
    cases hb : baseIdOf d entry.decl entry.cid with
    | none => exact h.build state entry none hentry hnone (fun _ hbid => by cases hbid) hs
    | some bid =>
      by_cases hwait : (state.built bid).isNone = true
      · simp only [if_pos hwait]
        exact hs
      · simp only [if_neg hwait]
        refine h.build state entry (some bid) hentry hnone (fun bid' hbid => ?_) hs
        cases hbid
        exact Option.ne_none_iff_exists'.mp (by simpa using hwait)

theorem sweep (h : Kept d P) {state : Building} (hs : P state.built state.storage) :
    P (sweep d state).built (sweep d state).storage := by
  refine foldl_invariant (Layout.visit d) (fun _ state' => P state'.built state'.storage)
    (entries d) { state with progress := false } hs fun done entry rest state' hall hs' => ?_
  exact h.visit hs' (hall ▸ List.mem_append_right _ List.mem_cons_self)

theorem sweeps (h : Kept d P) (fuel : Nat) : ∀ {state : Building},
    P state.built state.storage → P (sweeps d fuel state).built (sweeps d fuel state).storage := by
  induction fuel with
  | zero => exact fun hs => hs
  | succ fuel ih =>
    intro state hs
    have hsweep := h.sweep hs
    rw [Layout.sweeps]
    by_cases hp : (Layout.sweep d state).progress = true
    · simp only [if_pos hp]
      exact ih hsweep
    · simp only [if_neg hp]
      exact hsweep

theorem visitLeftover (h : Kept d P) {state : Building} (hs : P state.built state.storage)
    {entry : Entry Body} (hentry : entry ∈ entries d) :
    P (visitLeftover d state entry).built (visitLeftover d state entry).storage := by
  unfold Layout.visitLeftover
  by_cases hdone : (state.built entry.cid).isSome = true
  · rw [if_pos hdone]
    exact hs
  · rw [if_neg hdone]
    exact h.build state entry none hentry (by simpa using hdone) (fun _ hbid => by cases hbid) hs

/-- What every class that is built keeps holds of all classes, in any order of declarations. -/
theorem elaborated (h : Kept d P) : P (elaborated d).built (elaborated d).storage := by
  have hstart : P (initial d).built (initial d).storage := h.start
  have hsweeps := h.sweeps (d.classDecls.length + 1) hstart
  refine foldl_invariant (Layout.visitLeftover d)
    (fun _ state' => P state'.built state'.storage) (entries d) _ hsweeps
    fun done entry rest state' hall hs => ?_
  exact h.visitLeftover hs (hall ▸ List.mem_append_right _ List.mem_cons_self)

end Kept

/-- The callables in the order of their numbers. -/
def jobs (d : Design Body) : Jobs Body := (numberClasses d.classDecls d.funcs).1

/-- The callable a virtual call on an object of a class runs. -/
def callVirtual (classes : ClassId → Option ClassInfo) (cls : ClassId) (vslot : Nat) :
    Option FuncId :=
  (classes cls).bind fun info => info.vtable[vslot]?

end

end Eevee.Classes.Layout
