/- Objects and their declarations: every slot that needs storage has storage of its own, exactly
when no such slot is shadowed. -/

import Mathlib.Data.List.Basic
import Mathlib.Data.List.Forall2
import Mathlib.Logic.Relation
import Mathlib.Tactic.Common
import Mathlib.Tactic.SplitIfs
import Eevee.Classes.Fields
import Eevee.Ir.Instances

set_option autoImplicit false
set_option relaxedAutoImplicit false

namespace Eevee.Classes.Instances

open Eevee.Const.Evaluators
open Eevee.Ir.Objects
open Eevee.Ir.Instances
open Eevee.Lib.References
open Eevee.Lib.Tables
open Eevee.Classes.Declarations
open Eevee.Classes.Layout
open Eevee.Classes.Dispatch (classInfos_built)
open Eevee.Classes.Fields

/-! ### Class tables -/

/-- The value of a field's default. Only static variables start as collections. -/
def defaultVal : Eval Default → Option Val
  | .ok .null => some .null
  | .ok (.logic value) => some (.logic value)
  | .ok (.str text) => some (.str text)
  | .ok (.event id) => some (.event id)
  | .ok .queue | .ok .assoc | .error _ => none

def isStruct (classes : ClassId → Option ClassInfo) (cid : ClassId) : Bool :=
  (classes cid).any (·.isStruct)

/-- The orders in which the tables by name are gone through; hash tables have none of their own. -/
structure Orders where
  colls : List String
  events : List String
  classes : List String

structure Orders.Lists (o : Orders) (info : ClassInfo) : Prop where
  colls : ∀ name, name ∈ o.colls ↔ (info.fieldColl name).isSome = true
  events : ∀ name, name ∈ o.events ↔ (info.fieldEvents name).isSome = true
  classes : ∀ name, name ∈ o.classes ↔ (info.fieldClass name).isSome = true

/-- The lists of slots by name: each name stands for the slot it has last. -/
def classDef (structs : ClassId → Bool) (info : ClassInfo) (o : Orders) : Option ClassDef :=
  (info.fieldDefaults.mapM defaultVal).map fun defaults =>
    { fieldDefaults := defaults
      collFields := o.colls.filterMap fun name =>
        (info.fieldColl name).bind fun coll =>
          (info.fieldSlot name).map fun slot => (slot.1, coll.kind = .assoc)
      eventFields := o.events.filterMap fun name => (info.fieldSlot name).map (·.1)
      structFields := o.classes.filterMap fun name =>
        (info.fieldClass name).bind fun cid =>
          if structs cid then (info.fieldSlot name).map fun slot => (slot.1, cid) else none }

section

variable {Body : Type}

def linkage (d : Design Body) (orders : ClassId → Orders) (cid : ClassId) : Option ClassDef :=
  (classInfos d cid).bind fun info => classDef (isStruct (classInfos d)) info (orders cid)

def Listed (d : Design Body) (orders : ClassId → Orders) : Prop :=
  ∀ cid info, classInfos d cid = some info → (orders cid).Lists info

/-! ### Declared slots -/

/-- What a slot is declared to hold: storage of its own, or a default. -/
inductive SlotKind
  | coll (isAssoc : Bool)
  | struct (cls : ClassId)
  | event
  | plain (value : Eval Default)

def SlotKind.isStorage : SlotKind → Bool
  | .plain _ => false
  | .coll _ | .struct _ | .event => true

def slotKind (consts : Constants) (structs : ClassId → Bool) (f : Field) : SlotKind :=
  match f.decl.coll with
  | some kind => .coll (kind = .assoc)
  | none =>
    match f.elemClass.filter structs with
    | some cid => .struct cid
    | none =>
      if f.decl.isEvent = true ∧ f.decl.className = none then .event
      else .plain (defaultValue f.decl consts 0).1

/-- The slots of a class, base before derived. -/
def layout (d : Design Body) (cls : ClassId) (kinds : List SlotKind) : Prop :=
  ∃ L, Declares d (classInfos d) cls L ∧
    kinds = L.map (slotKind d.consts (isStruct (classInfos d)))

/-- A value that refers to storage. -/
def isHandle : Val → Bool
  | .obj _ | .queue _ | .assoc _ | .event _ => true
  | .null | .logic _ | .str _ => false

/-- A value of a kind, with storage made between two memories, and so for the slots of a struct. -/
inductive Fresh (layout : ClassId → List SlotKind → Prop) (before after : Memory) :
    SlotKind → Val → Prop
  | queue {id : Nat} (hnew : before.heap.queues.length ≤ id)
      (hempty : after.heap.queues[id]? = some []) :
      Fresh layout before after (.coll false) (.queue id)
  | assoc {id : Nat} (hnew : before.heap.assocs.length ≤ id)
      (hempty : after.heap.assocs[id]? = some []) :
      Fresh layout before after (.coll true) (.assoc id)
  | event {id : Nat} (hnew : before.nextEvent ≤ id) (hmade : id < after.nextEvent) :
      Fresh layout before after .event (.event id)
  | struct {cls id : Nat} {fields : List Val} {kinds : List SlotKind}
      (hnew : before.heap.objs.length ≤ id) (hobj : after.heap.objs[id]? = some ⟨cls, fields⟩)
      (hlayout : layout cls kinds) (hlen : fields.length = kinds.length)
      (hslots : ∀ (i : Nat) (kind : SlotKind) (w : Val), kinds[i]? = some kind →
        fields[i]? = some w → Fresh layout before after kind w) :
      Fresh layout before after (.struct cls) (.obj id)
  | plain {value : Eval Default} {w : Val} (hdefault : defaultVal value = some w)
      (hhandle : isHandle w = false) : Fresh layout before after (.plain value) w

/-- What was made is held once and reached through its object only, and an object that existed
shares nothing with the new one. -/
structure Apart (before after : Memory) (value : Val) : Prop where
  sole : ∀ p p' w, after.held p = some w → after.held p' = some w → ¬ Within before w → p = p'
  owned : ∀ p w a, after.held p = some w → ¬ Within before w → a ≠ w →
    Reaches Place.owner after.held a w → Reaches Place.owner after.held a p.owner
  root : ∀ a, Reaches Place.owner after.held a value → a = value
  others : ∀ id w, id < before.heap.objs.length → isHandle w = true →
    Reaches Place.owner after.held (.obj id) w → ¬ Reaches Place.owner after.held value w

/-- No slot with storage is shadowed, and a name that is an event somewhere is one where it is
declared last. -/
structure Clean (consts : Constants) (structs : ClassId → Bool) (L : List Field) : Prop where
  storage : ∀ (i : Nat) (f : Field), L[i]? = some f → (slotKind consts structs f).isStorage = true →
    LastAt Field.name L f.name i
  events : ∀ f ∈ L, f.decl.isEvent = true → ∀ (i : Nat) (g : Field), L[i]? = some g →
    LastAt Field.name L f.name i → slotKind consts structs g = .event

def CleanClass (d : Design Body) (cls : ClassId) : Prop :=
  ∀ L, Declares d (classInfos d) cls L → Clean d.consts (isStruct (classInfos d)) L

/-- A class declares a struct of another. -/
def HasStruct (d : Design Body) (cls cls' : ClassId) : Prop :=
  ∃ L, Declares d (classInfos d) cls L ∧
    ∃ f ∈ L, slotKind d.consts (isStruct (classInfos d)) f = .struct cls'

/-- Structs in structs, the class itself included. -/
def Nested (d : Design Body) : ClassId → ClassId → Prop := Relation.ReflTransGen (HasStruct d)

end

/-! ### The lists of slots -/

/-- What the lists of a class table say, by place. -/
structure Lays (consts : Constants) (structs : ClassId → Bool) (n : Nat) (L : List Field)
    (defn : ClassDef) : Prop where
  length : defn.fieldDefaults.length = L.length
  defaults : ∀ (i : Nat) (f : Field) (w : Val), L[i]? = some f → defn.fieldDefaults[i]? = some w →
    ∃ value, DefaultOf consts n f value ∧ defaultVal value = some w
  colls : ∀ i isAssoc, (i, isAssoc) ∈ defn.collFields ↔ ∃ name kind, LastAt Field.name L name i ∧
    latest Field.name (·.decl.coll) L name = some kind ∧ isAssoc = decide (kind = .assoc)
  events : ∀ i, i ∈ defn.eventFields ↔ ∃ name, LastAt Field.name L name i ∧
    latest Field.name Field.eventMark L name = some ()
  structs : ∀ i cid, (i, cid) ∈ defn.structFields ↔ ∃ name, LastAt Field.name L name i ∧
    latest Field.name Field.ownClass L name = some cid ∧ structs cid = true

theorem forall₂_of_mapM {α β : Type} {f : α → Option β} {values : List α} {results : List β}
    (h : values.mapM f = some results) :
    List.Forall₂ (fun value result => f value = some result) values results := by
  induction values generalizing results with
  | nil =>
    cases h
    exact .nil
  | cons value values ih =>
    rw [List.mapM_cons] at h
    obtain ⟨result, hresult, h⟩ := Option.bind_eq_some_iff.mp h
    obtain ⟨rest, hrest, h⟩ := Option.bind_eq_some_iff.mp h
    cases h
    exact .cons hresult (ih hrest)

/-- Two lists that a relation goes through in step are related at every place. -/
theorem related_at {α β : Type} {R : α → β → Prop} {xs : List α} {ys : List β}
    (h : List.Forall₂ R xs ys) {i : Nat} {x : α} {y : β} (hx : xs[i]? = some x)
    (hy : ys[i]? = some y) : R x y := by
  obtain ⟨hi, rfl⟩ := List.getElem?_eq_some_iff.mp hx
  obtain ⟨hi', rfl⟩ := List.getElem?_eq_some_iff.mp hy
  exact h.get hi hi'

theorem lays_classDef {consts : Constants} {structs : ClassId → Bool} {n : Nat} {L : List Field}
    {info : ClassInfo} {o : Orders} {defn : ClassDef} (h : Describes consts n L info)
    (ho : o.Lists info) (hdefn : classDef structs info o = some defn) :
    Lays consts structs n L defn := by
  obtain ⟨defaults, hdefaults, hdefn⟩ := Option.map_eq_some_iff.mp hdefn
  subst hdefn
  have hvalues := forall₂_of_mapM hdefaults
  have hslots :
      ∀ name i, (info.fieldSlot name).map (·.1) = some i ↔ LastAt Field.name L name i := by
    intro name i
    rw [← h.slots, Option.map_eq_some_iff]
    constructor
    · rintro ⟨slot, hslot, rfl⟩
      exact ⟨slot.2, hslot⟩
    · rintro ⟨width, hslot⟩
      exact ⟨_, hslot, rfl⟩
  refine ⟨hvalues.length_eq.symm.trans h.defaults.length_eq.symm, fun i f w hf hw => ?_,
    fun i isAssoc => ?_, fun i => ?_, fun i cid => ?_⟩
  · have hi : i < info.fieldDefaults.length := by
      rw [← h.defaults.length_eq]
      exact (List.getElem?_eq_some_iff.mp hf).1
    have hvalue := List.getElem?_eq_getElem hi
    exact ⟨_, related_at h.defaults hf hvalue, related_at hvalues hvalue hw⟩
  · rw [List.mem_filterMap]
    constructor
    · rintro ⟨name, -, hname⟩
      obtain ⟨coll, hcoll, hslot⟩ := Option.bind_eq_some_iff.mp hname
      obtain ⟨slot, hfound, heq⟩ := Option.map_eq_some_iff.mp hslot
      cases heq
      refine ⟨name, coll.kind,
        (hslots name slot.1).mp (Option.map_eq_some_iff.mpr ⟨slot, hfound, rfl⟩), ?_, rfl⟩
      rw [← h.colls, hcoll]
      rfl
    · rintro ⟨name, kind, hlast, hlatest, rfl⟩
      rw [← h.colls] at hlatest
      obtain ⟨coll, hcoll, rfl⟩ := Option.map_eq_some_iff.mp hlatest
      obtain ⟨slot, hslot, rfl⟩ := Option.map_eq_some_iff.mp ((hslots name i).mpr hlast)
      refine ⟨name, (ho.colls name).mpr (by rw [hcoll]; rfl), ?_⟩
      rw [hcoll, Option.bind_some, hslot]
      rfl
  · rw [List.mem_filterMap]
    constructor
    · rintro ⟨name, hmem, hslot⟩
      refine ⟨name, (hslots name i).mp hslot, ?_⟩
      rw [← h.events]
      obtain ⟨mark, hmark⟩ := Option.isSome_iff_exists.mp ((ho.events name).mp hmem)
      exact hmark
    · rintro ⟨name, hlast, hlatest⟩
      rw [← h.events] at hlatest
      exact ⟨name, (ho.events name).mpr (by rw [hlatest]; rfl), (hslots name i).mpr hlast⟩
  · rw [List.mem_filterMap]
    constructor
    · rintro ⟨name, -, hname⟩
      obtain ⟨found, hclass, hslot⟩ := Option.bind_eq_some_iff.mp hname
      split_ifs at hslot with hstruct
      obtain ⟨slot, hfound, heq⟩ := Option.map_eq_some_iff.mp hslot
      cases heq
      refine ⟨name, (hslots name slot.1).mp (Option.map_eq_some_iff.mpr ⟨slot, hfound, rfl⟩), ?_,
        hstruct⟩
      rw [← h.classes, hclass]
    · rintro ⟨name, hlast, hlatest, hstruct⟩
      rw [← h.classes] at hlatest
      obtain ⟨slot, hslot, rfl⟩ := Option.map_eq_some_iff.mp ((hslots name i).mpr hlast)
      refine ⟨name, (ho.classes name).mpr (by rw [hlatest]; rfl), ?_⟩
      rw [hlatest, Option.bind_some, if_pos hstruct, hslot]
      rfl

/-! ### Declared slots and listed ones -/

section

variable {consts : Constants} {structs : ClassId → Bool} {n : Nat} {L : List Field}
  {defn : ClassDef} {i : Nat} {f : Field}

theorem slotKind_coll {kind : CollKind} (h : f.decl.coll = some kind) :
    slotKind consts structs f = .coll (decide (kind = .assoc)) := by
  rw [slotKind, h]

theorem slotKind_struct {cid : ClassId} (hcoll : f.decl.coll = none) (h : f.elemClass = some cid)
    (hstruct : structs cid = true) : slotKind consts structs f = .struct cid := by
  rw [slotKind, hcoll, h, Option.filter_some_pos hstruct]

/-- The declarations that give a slot a kind. -/
inductive KindOf (consts : Constants) (structs : ClassId → Bool) (f : Field) : SlotKind → Prop
  | coll {kind : CollKind} (hcoll : f.decl.coll = some kind) :
      KindOf consts structs f (.coll (decide (kind = .assoc)))
  | struct {cid : ClassId} (hcoll : f.decl.coll = none) (hclass : f.ownClass = some cid)
      (hstruct : structs cid = true) (htyped : f.decl.className.isSome = true) :
      KindOf consts structs f (.struct cid)
  | event (hcoll : f.decl.coll = none) (hevent : f.decl.isEvent = true)
      (hclass : f.decl.className = none) : KindOf consts structs f .event
  | plain (hcoll : f.decl.coll = none)
      (hevent : ¬ (f.decl.isEvent = true ∧ f.decl.className = none)) :
      KindOf consts structs f (.plain (defaultValue f.decl consts 0).1)

theorem kindOf_slotKind (consts : Constants) (structs : ClassId → Bool) (f : Field) :
    KindOf consts structs f (slotKind consts structs f) := by
  cases hcoll : f.decl.coll with
  | some kind =>
    rw [slotKind_coll hcoll]
    exact .coll hcoll
  | none =>
    cases hclass : f.elemClass.filter structs with
    | some cid =>
      obtain ⟨helem, hstruct⟩ := Option.filter_eq_some_iff.mp hclass
      have hown : f.ownClass = some cid := by
        rw [Field.ownClass, hcoll]
        exact helem
      rw [slotKind_struct hcoll helem hstruct]
      exact .struct hcoll hown hstruct (f.typed (by rw [helem]; rfl))
    | none =>
      rw [slotKind, hcoll, hclass]
      by_cases hevent : f.decl.isEvent = true ∧ f.decl.className = none
      · simp only [if_pos hevent]
        exact .event hcoll hevent.1 hevent.2
      · simp only [if_neg hevent]
        exact .plain hcoll hevent

theorem kindOf {kind : SlotKind} (h : slotKind consts structs f = kind) :
    KindOf consts structs f kind := h ▸ kindOf_slotKind consts structs f

/-- A default that is no event does not depend on the counter. -/
theorem defaultValue_plain (fld : VarDecl) (hevent : ¬ (fld.isEvent = true ∧ fld.className = none))
    (e : Nat) :
    (defaultValue fld consts e).1 = (defaultValue fld consts 0).1 := by
  unfold defaultValue
  split_ifs with hhandle hmark
  · rfl
  · -- an event with the name of a class would have been a handle
    have hclass := Option.not_isSome_iff_eq_none.mp fun h => hhandle (.inr h)
    exact absurd ⟨hmark, hclass⟩ hevent
  · cases fld.init with
    | none => rfl
    | some init => cases init <;> rfl
  · cases fld.init with
    | none => rfl
    | some init => cases init <;> rfl

/-- Without shadowing the lists say of every slot what it is declared to hold. -/
theorem Lays.of_clean (h : Lays consts structs n L defn) (hclean : Clean consts structs L)
    (hf : L[i]? = some f) :
    (i ∈ defn.eventFields ↔ slotKind consts structs f = .event) ∧
      (∀ cid, (i, cid) ∈ defn.structFields ↔ slotKind consts structs f = .struct cid) ∧
      ∀ isAssoc, (i, isAssoc) ∈ defn.collFields ↔ slotKind consts structs f = .coll isAssoc := by
  have same : ∀ name g, LastAt Field.name L name i → g ∈ L → g.name = name →
      (slotKind consts structs g).isStorage = true → f = g := by
    intro name g hlast hg hname hstorage
    obtain ⟨j, hj⟩ := List.mem_iff_getElem?.mp hg
    have hlast' := hclean.storage j g hj hstorage
    subst hname
    cases hlast.unique hlast'
    exact Option.some.inj (hf.symm.trans hj)
  refine ⟨⟨fun hmem => ?_, fun hkind => ?_⟩, fun cid => ⟨fun hmem => ?_, fun hkind => ?_⟩,
    fun isAssoc => ⟨fun hmem => ?_, fun hkind => ?_⟩⟩
  · obtain ⟨name, hlast, hlatest⟩ := (h.events i).mp hmem
    obtain ⟨g, hg, hname, hmark⟩ := exists_of_latest hlatest
    have hevent : g.decl.isEvent = true := by
      by_contra hnone
      rw [Field.eventMark, if_neg hnone] at hmark
      cases hmark
    exact hclean.events g hg hevent i f hf (hname ▸ hlast)
  · have hlast := hclean.storage i f hf (by rw [hkind]; rfl)
    cases kindOf hkind with
    | event _ hevent _ => exact (h.events i).mpr ⟨f.name, hlast, hlast.latest hf (if_pos hevent)⟩
  · obtain ⟨name, hlast, hlatest, hstruct⟩ := (h.structs i cid).mp hmem
    obtain ⟨g, hg, hname, hclass⟩ := exists_of_latest hlatest
    have hkind : slotKind consts structs g = .struct cid := by
      unfold Field.ownClass at hclass
      split_ifs at hclass with hcoll
      exact slotKind_struct (by simpa using hcoll) hclass hstruct
    rw [same name g hlast hg hname (by rw [hkind]; rfl)]
    exact hkind
  · have hlast := hclean.storage i f hf (by rw [hkind]; rfl)
    cases kindOf hkind with
    | struct _ hclass hstruct _ =>
      exact (h.structs i cid).mpr ⟨f.name, hlast, hlast.latest hf hclass, hstruct⟩
  · obtain ⟨name, kind, hlast, hlatest, rfl⟩ := (h.colls i isAssoc).mp hmem
    obtain ⟨g, hg, hname, hcoll⟩ := exists_of_latest hlatest
    rw [same name g hlast hg hname (by rw [slotKind_coll hcoll]; rfl)]
    exact slotKind_coll hcoll
  · have hlast := hclean.storage i f hf (by rw [hkind]; rfl)
    cases kindOf hkind with
    | @coll kind hcoll =>
      exact (h.colls i _).mpr ⟨f.name, kind, hlast, hlast.latest hf hcoll, rfl⟩

/-- A slot without storage of its own holds null, an event from elaboration, or a plain value. -/
theorem defaultVal_cases {value : Eval Default} {w : Val} (h : DefaultOf consts n f value)
    (hvalue : defaultVal value = some w) :
    (w = .null ∧ (f.decl.coll.isSome = true ∨ f.decl.className.isSome = true)) ∨
      (∃ id < n, w = .event id ∧ f.decl.isEvent = true ∧ f.decl.coll = none ∧
        f.decl.className = none) ∨
      (isHandle w = false ∧ f.decl.isEvent = false) := by
  obtain ⟨e, rfl, hle⟩ := h
  unfold defaultValue at hvalue hle
  split_ifs at hvalue hle with hhandle hevent hstring
  · cases hvalue
    exact .inl ⟨rfl, hhandle⟩
  · cases hvalue
    rw [not_or, Option.not_isSome_iff_eq_none, Option.not_isSome_iff_eq_none] at hhandle
    exact .inr (.inl ⟨e, hle, rfl, hevent, hhandle.1, hhandle.2⟩)
  · refine .inr (.inr ⟨?_, by simpa using hevent⟩)
    cases hinit : f.decl.init with
    | none =>
      rw [hinit] at hvalue
      cases hvalue
      rfl
    | some init =>
      cases init <;>
      · rw [hinit] at hvalue
        cases hvalue
        rfl
  · refine .inr (.inr ⟨?_, by simpa using hevent⟩)
    cases hinit : f.decl.init with
    | none =>
      rw [hinit] at hvalue
      cases hvalue
      rfl
    | some init =>
      cases init with
      | str =>
        rw [hinit] at hvalue
        cases hvalue
        rfl
      | expr value =>
        rw [hinit] at hvalue
        dsimp only at hvalue
        cases heval : Elab.tryConstEvalAtWidth consts value (max f.decl.width 1) f.decl.signed with
        | ok result =>
          rw [heval] at hvalue
          cases hvalue
          rfl
        | error stop =>
          rw [heval] at hvalue
          cases stop
          · cases hvalue
            rfl
          · cases hvalue

theorem early_default {value : Eval Default} {w : Val} (h : DefaultOf consts n f value)
    (hvalue : defaultVal value = some w) : Early n w := by
  rcases defaultVal_cases h hvalue with ⟨rfl, -⟩ | ⟨id, hid, rfl, -⟩ | ⟨hplain, -⟩
  · trivial
  · exact hid
  · cases w <;> trivial

end

/-! ### New objects -/

theorem Fresh.mono {layout : ClassId → List SlotKind → Prop} {before before' after after' : Memory}
    (hbefore : Extends before' before) (hafter : Extends after after') {kind : SlotKind} {w : Val}
    (h : Fresh layout before after kind w) : Fresh layout before' after' kind w := by
  induction h with
  | queue hnew hempty =>
    exact .queue (hbefore.queues.length_le.trans hnew) (hafter.queue hempty)
  | assoc hnew hempty =>
    exact .assoc (hbefore.assocs.length_le.trans hnew) (hafter.assoc hempty)
  | event hnew hmade => exact .event (hbefore.events.trans hnew) (hmade.trans_le hafter.events)
  | struct hnew hobj hlayout hlen _ ih =>
    exact .struct (hbefore.objs.length_le.trans hnew) (hafter.obj hobj) hlayout
      hlen ih
  | plain hdefault hhandle => exact .plain hdefault hhandle

section

variable {Body : Type} {d : Design Body} {orders : ClassId → Orders} {m m' : Memory}
  {cls depth : Nat} {value : Val}

theorem laid (hlisted : Listed d orders) {defn : ClassDef} (h : linkage d orders cls = some defn) :
    ∃ L, Declares d (classInfos d) cls L ∧ Lays d.consts (isStruct (classInfos d))
      (elaborated d).storage.nextEvent L defn := by
  obtain ⟨info, hinfo, hdefn⟩ := Option.bind_eq_some_iff.mp h
  obtain ⟨L, hdeclares, hdescribes⟩ := described_classInfos d cls info hinfo
  exact ⟨L, hdeclares, lays_classDef hdescribes (hlisted cls info hinfo) hdefn⟩

theorem early_linkage (hlisted : Listed d orders) (cls : ClassId) (defn : ClassDef)
    (h : linkage d orders cls = some defn) (w : Val) (hw : w ∈ defn.fieldDefaults) :
    Early (elaborated d).storage.nextEvent w := by
  obtain ⟨L, -, hlays⟩ := laid hlisted h
  obtain ⟨i, hi⟩ := List.mem_iff_getElem?.mp hw
  have hlt : i < L.length := hlays.length ▸ (List.getElem?_eq_some_iff.mp hi).1
  obtain ⟨value, hdefault, hvalue⟩ := hlays.defaults i _ w (List.getElem?_eq_getElem hlt) hi
  exact early_default hdefault hvalue

/-- Without shadowing an object is what its class declares, with what is nested in it. -/
theorem fresh_of_clean (hlisted : Listed d orders) (depth : Nat) :
    ∀ {m cls m' value}, newInstance (linkage d orders) depth m cls = some (m', value) →
      (∀ c, Nested d cls c → CleanClass d c) → Fresh (layout d) m m' (.struct cls) value := by
  induction depth with
  | zero => exact fun h => by cases h
  | succ depth ih =>
    intro m cls m' value h hclean
    obtain ⟨defn, fields, id, hdefn, rfl, hobj, hnew, hlen, hslots⟩ := newInstance_slots h
    obtain ⟨L, hdeclares, hlays⟩ := laid hlisted hdefn
    have hcleanL := hclean cls .refl L hdeclares
    refine .struct hnew hobj ⟨L, hdeclares, rfl⟩ ?_ fun i kind w hkind hw => ?_
    · rw [List.length_map, hlen, hlays.length]
    obtain ⟨f, hf, rfl⟩ := Option.map_eq_some_iff.mp (List.getElem?_map.symm.trans hkind)
    obtain ⟨hevents, hstructs, hcolls⟩ := hlays.of_clean hcleanL hf
    cases hslots i w hw with
    | event hmem hmade hbefore hafter =>
      obtain ⟨rfl, rfl⟩ := Prod.mk.inj hmade
      rw [hevents.mp hmem]
      exact .event hbefore.events (Nat.lt_of_lt_of_le (Nat.lt_succ_self _) hafter.events)
    | @struct m₁ m₂ _ c hevent hmem hmade hbefore hafter =>
      have hkind := (hstructs c).mp hmem
      have hstep : HasStruct d cls c := ⟨L, hdeclares, f, List.mem_of_getElem? hf, hkind⟩
      rw [hkind]
      exact (ih hmade fun c' hc' => hclean c' (.head hstep hc')).mono hbefore hafter
    | @coll m₁ m₂ _ isAssoc hevent hstruct hmem hmade hbefore hafter =>
      rw [(hcolls isAssoc).mp hmem]
      cases isAssoc with
      | false =>
        obtain ⟨rfl, rfl⟩ := Prod.mk.inj hmade
        exact .queue hbefore.queues.length_le
          (hafter.queue List.getElem?_concat_length)
      | true =>
        obtain ⟨rfl, rfl⟩ := Prod.mk.inj hmade
        exact .assoc hbefore.assocs.length_le
          (hafter.assoc List.getElem?_concat_length)
    | default hevent hstruct hcoll hvalue =>
      obtain ⟨value, hdefault, hval⟩ := hlays.defaults i f w hf hvalue
      have hk := kindOf_slotKind d.consts (isStruct (classInfos d)) f
      generalize hkind : slotKind d.consts (isStruct (classInfos d)) f = kind at *
      cases hk with
      | coll => exact absurd ((hcolls _).mpr rfl) (hcoll _)
      | struct => exact absurd ((hstructs _).mpr rfl) (hstruct _)
      | event => exact absurd (hevents.mpr rfl) hevent
      | plain hnone hmark =>
        have hcases := defaultVal_cases hdefault hval
        obtain ⟨e, rfl, -⟩ := hdefault
        refine .plain (defaultValue_plain f.decl hmark e ▸ hval) ?_
        rcases hcases with ⟨rfl, -⟩ | ⟨_, -, -, hevent, -, hclass⟩ | ⟨hw, -⟩
        · rfl
        · exact absurd ⟨hevent, hclass⟩ hmark
        · exact hw

/-- A slot that is not the last one of its name is in none of the lists. -/
theorem Lays.unlisted {consts : Constants} {structs : ClassId → Bool} {n : Nat} {L : List Field}
    {defn : ClassDef} (h : Lays consts structs n L defn) {i : Nat} {f : Field}
    (hf : L[i]? = some f) (hshadowed : ¬ LastAt Field.name L f.name i) :
    i ∉ defn.eventFields ∧ (∀ cid, (i, cid) ∉ defn.structFields) ∧
      ∀ isAssoc, (i, isAssoc) ∉ defn.collFields := by
  have hnever : ∀ name, ¬ LastAt Field.name L name i := by
    intro name hlast
    obtain ⟨g, hg, rfl, -⟩ := id hlast
    cases hf.symm.trans hg
    exact hshadowed hlast
  refine ⟨fun hmem => ?_, fun cid hmem => ?_, fun isAssoc hmem => ?_⟩
  · obtain ⟨name, hlast, -⟩ := (h.events i).mp hmem
    exact hnever name hlast
  · obtain ⟨name, hlast, -⟩ := (h.structs i cid).mp hmem
    exact hnever name hlast
  · obtain ⟨name, kind, hlast, -⟩ := (h.colls i isAssoc).mp hmem
    exact hnever name hlast

/-- The slots of one object tell that no slot of its class with storage is shadowed. -/
theorem clean_of_slots {L : List Field} {defn : ClassDef} {fields : List Val} {n : Nat}
    {consts : Constants} {structs : ClassId → Bool} {classes : Nat → Option ClassDef}
    {layout : ClassId → List SlotKind → Prop} {before after : Memory}
    (hlays : Lays consts structs n L defn) (hn : n ≤ before.nextEvent)
    (hlen : fields.length = L.length)
    (hslots : ∀ i w, fields[i]? = some w → SlotMade classes depth defn m m' i w)
    (hfresh : ∀ (i : Nat) (f : Field) (w : Val), L[i]? = some f → fields[i]? = some w →
      Fresh layout before after (slotKind consts structs f) w) : Clean consts structs L := by
  have value : ∀ {i : Nat} {f : Field}, L[i]? = some f → ∃ w, fields[i]? = some w := by
    intro i f hf
    exact ⟨_, List.getElem?_eq_getElem (hlen ▸ (List.getElem?_eq_some_iff.mp hf).1)⟩
  refine ⟨fun i f hf hstorage => ?_, fun f hf hevent i g hg hlast => ?_⟩
  · by_contra hshadowed
    obtain ⟨hevent, hstruct, hcoll⟩ := hlays.unlisted hf hshadowed
    obtain ⟨w, hw⟩ := value hf
    have hkind := hfresh i f w hf hw
    cases hslots i w hw with
    | event hmem => exact hevent hmem
    | struct _ hmem => exact hstruct _ hmem
    | coll _ _ hmem => exact hcoll _ hmem
    | default _ _ _ hvalue =>
      -- the default is null or an event that all objects of the class would share
      obtain ⟨dflt, hdefault, hval⟩ := hlays.defaults i f w hf hvalue
      have hk := kindOf_slotKind consts structs f
      rcases defaultVal_cases hdefault hval with ⟨rfl, hhandle⟩ | ⟨id, hid, rfl, -, hnone, hclass⟩ |
        ⟨hw, hmark⟩
      · generalize slotKind consts structs f = kind at *
        cases hkind
        cases hstorage
      · generalize slotKind consts structs f = kind at *
        cases hkind with
        | event hnew _ => exact absurd (hid.trans_le hn) (Nat.not_lt_of_le hnew)
        | plain _ _ => cases hstorage
      · generalize slotKind consts structs f = kind at *
        cases hkind with
        | plain _ _ => cases hstorage
        | queue => cases hw
        | assoc => cases hw
        | event => cases hw
        | struct => cases hw
  · obtain ⟨w, hw⟩ := value hg
    have hkind := hfresh i g w hg hw
    have hmem : i ∈ defn.eventFields := by
      have hown : f.eventMark = some () := if_pos hevent
      obtain ⟨mark, hmark⟩ := Option.isSome_iff_exists.mp (latest_isSome hf rfl hown)
      exact (hlays.events i).mpr ⟨f.name, hlast, hmark⟩
    cases hslots i w hw with
    | event _ hmade _ _ =>
      obtain ⟨-, rfl⟩ := Prod.mk.inj hmade
      generalize slotKind consts structs g = kind at *
      cases hkind with
      | event _ _ => rfl
      | plain _ hhandle => cases hhandle
    | struct hevent => exact absurd hmem hevent
    | coll hevent => exact absurd hmem hevent
    | default hevent => exact absurd hmem hevent

/-- An object that is what its class declares has no shadowed storage, nor has what is nested in
it. -/
theorem clean_of_fresh (hlisted : Listed d orders) {before after : Memory}
    (hn : (elaborated d).storage.nextEvent ≤ before.nextEvent) (depth : Nat) :
    ∀ {m cls m' value}, newInstance (linkage d orders) depth m cls = some (m', value) →
      Extends m' after → Fresh (layout d) before after (.struct cls) value →
      ∀ c, Nested d cls c → CleanClass d c := by
  induction depth with
  | zero => exact fun h => by cases h
  | succ depth ih =>
    intro m cls m' value h hafter hfresh c hnested
    obtain ⟨defn, fields, id, hdefn, rfl, hobj, hnew, hlen, hslots⟩ := newInstance_slots h
    obtain ⟨L, hdeclares, hlays⟩ := laid hlisted hdefn
    cases hfresh with
    | struct _ hobj' hlayout _ hkinds =>
      cases (hafter.obj hobj).symm.trans hobj'
      obtain ⟨L', hdeclares', rfl⟩ := hlayout
      cases hdeclares.unique hdeclares'
      have hfields : ∀ (i : Nat) (f : Field) (w : Val), L[i]? = some f → fields[i]? = some w →
          Fresh (layout d) before after (slotKind d.consts (isStruct (classInfos d)) f) w := by
        intro i f w hf hw
        exact hkinds i _ w (List.getElem?_map.trans (Option.map_eq_some_iff.mpr ⟨f, hf, rfl⟩)) hw
      have hclean := clean_of_slots hlays hn (hlen.trans hlays.length) hslots hfields
      rcases Relation.ReflTransGen.cases_head hnested with rfl | ⟨c', hstep, hrest⟩
      · intro L' hL'
        cases hdeclares.unique hL'
        exact hclean
      · -- the struct slot holds what was made for it
        obtain ⟨L', hL', f, hf, hkind⟩ := hstep
        cases hdeclares.unique hL'
        obtain ⟨i, hi⟩ := List.mem_iff_getElem?.mp hf
        obtain ⟨hevents, hstructs, -⟩ := hlays.of_clean hclean hi
        have hlt : i < fields.length := by
          rw [hlen, hlays.length]
          exact (List.getElem?_eq_some_iff.mp hi).1
        have hw := List.getElem?_eq_getElem hlt
        have hsub := hfields i f _ hi hw
        rw [hkind] at hevents hstructs hsub
        have hmem := (hstructs c').mpr rfl
        cases hslots i _ hw with
        | event hmark => cases hevents.mp hmark
        | struct _ hmem' hmade _ hsubAfter =>
          cases (hstructs _).mp hmem'
          exact ih hmade (hsubAfter.trans hafter) hsub c hrest
        | coll _ hstruct => exact absurd hmem (hstruct c')
        | default _ hstruct => exact absurd hmem (hstruct c')

/-! ### Objects apart -/

/-- What is fresh leads to what is fresh only. -/
theorem inside_fresh {layout : ClassId → List SlotKind → Prop} {before after : Memory} :
    Inside Place.owner after.held fun w => ∃ kind, Fresh layout before after kind w := by
  rintro p w ⟨kind, hfresh⟩ hp
  cases p with
  | field obj slot =>
    obtain ⟨data, hdata, hslot⟩ := Option.bind_eq_some_iff.mp hp
    cases hfresh with
    | struct _ hobj _ hlen hslots =>
      cases hobj.symm.trans hdata
      have hlt := hlen ▸ (List.getElem?_eq_some_iff.mp hslot).1
      exact ⟨_, hslots slot _ w (List.getElem?_eq_getElem hlt) hslot⟩
    | plain _ hhandle => cases hhandle
  | element queue i =>
    obtain ⟨values, hvalues, hi⟩ := Option.bind_eq_some_iff.mp hp
    cases hfresh with
    | queue _ hempty =>
      cases hempty.symm.trans hvalues
      cases hi
    | plain _ hhandle => cases hhandle
  | entry assoc i =>
    obtain ⟨entries, hentries, hi⟩ := Option.bind_eq_some_iff.mp hp
    cases hfresh with
    | assoc _ hempty =>
      cases hempty.symm.trans hentries
      cases hi
    | plain _ hhandle => cases hhandle
  | key assoc i =>
    obtain ⟨entries, hentries, hi⟩ := Option.bind_eq_some_iff.mp hp
    cases hfresh with
    | assoc _ hempty =>
      cases hempty.symm.trans hentries
      cases hi
    | plain _ hhandle => cases hhandle

/-- Fresh storage did not exist before. -/
theorem Fresh.not_within {layout : ClassId → List SlotKind → Prop} {before after : Memory}
    {kind : SlotKind} {w : Val} (h : Fresh layout before after kind w) (hw : isHandle w = true) :
    ¬ Within before w := by
  cases h with
  | queue hnew => exact Nat.not_lt_of_le hnew
  | assoc hnew => exact Nat.not_lt_of_le hnew
  | event hnew => exact Nat.not_lt_of_le hnew
  | struct hnew => exact Nat.not_lt_of_le hnew
  | plain _ hhandle =>
    rw [hhandle] at hw
    cases hw

theorem apart_of_creates {layout : ClassId → List SlotKind → Prop} {n : Nat}
    (h : Creates n m m' value) (hclosed : Closed m)
    (hfresh : Fresh layout m m' (.struct cls) value) : Apart m m' value where
  sole := h.sole
  owned p w a hp hw hne := reaches_owner (fun p' hp' => h.sole p' p w hp' hp hw) hne
  root a := eq_of_unheld h.unheld
  others id w hid hhandle := by
    refine apart_of_inside (inside_old hclosed h.grows) inside_fresh hid ⟨_, hfresh⟩ ?_
    rintro ⟨hwithin, kind, hkind⟩
    exact hkind.not_within hhandle hwithin

/-- An object has all its declared slots, with storage that nothing else reaches, exactly when its
class, and every class of a struct nested in it, shadows no slot with storage. -/
theorem new_storage_iff (d : Design Body) (orders : ClassId → Orders) (hlisted : Listed d orders)
    {m m' : Memory} {cls depth : Nat} {value : Val} (hclosed : Closed m)
    (hstarted : (elaborated d).storage.nextEvent ≤ m.nextEvent)
    (hnew : newInstance (linkage d orders) depth m cls = some (m', value)) :
    Fresh (layout d) m m' (.struct cls) value ∧ Apart m m' value ↔
      ∀ c, Nested d cls c → CleanClass d c := by
  constructor
  · rintro ⟨hfresh, -⟩
    exact clean_of_fresh hlisted hstarted depth hnew (.refl m') hfresh
  · intro hclean
    have hfresh := fresh_of_clean hlisted depth hnew hclean
    have hcreates := newInstance_creates (early_linkage hlisted) depth hclosed hstarted hnew
    exact ⟨hfresh, apart_of_creates hcreates hclosed hfresh⟩

end

def shelfField (name : String) (className : Option String) (isEvent : Bool)
    (coll : Option CollKind) : VarDecl :=
  ⟨name, 32, true, className, false, isEvent, coll, none, false, none⟩

/-- A struct, a class with a queue, an event and a struct, and a class derived from it. -/
def shelf (derived : List VarDecl) : Design Unit where
  classDecls :=
    [⟨"Pair", none, [shelfField "lo" none false none], [], none, [], [], [], true⟩,
      ⟨"Base", none, [shelfField "q" none false (some .queue), shelfField "done" none true none,
        shelfField "p" (some "Pair") false none], [], none, [], [], [], false⟩,
      ⟨"Derived", some "Base", derived, [], none, [], [], [], false⟩]
  funcs := []
  consts := fun _ => none
  storage := ⟨[], 1⟩

def shelfOrders : ClassId → Orders
  | 0 => ⟨[], [], []⟩
  | _ => ⟨["q"], ["done"], ["p"]⟩

def emptyMemory : Memory := ⟨⟨[], [], []⟩, 2⟩

theorem closed_emptyMemory : Closed emptyMemory := by
  intro p w hp
  cases p <;> cases hp

/-- The tables by name that storage is listed from. -/
def storageNames (info : ClassInfo) : Names CollInfo × Names Unit × Names ClassId :=
  (info.fieldColl, info.fieldEvents, info.fieldClass)

theorem lists_base {info : ClassInfo} (h : storageNames info =
    (Names.empty.insert "q" ⟨.queue, none, none⟩, Names.empty.insert "done" (),
      Names.empty.insert "p" 0)) : (⟨["q"], ["done"], ["p"]⟩ : Orders).Lists info := by
  simp only [storageNames, Prod.mk.injEq] at h
  obtain ⟨hcolls, hevents, hclasses⟩ := h
  refine ⟨fun name => ?_, fun name => ?_, fun name => ?_⟩
  · by_cases hname : name = "q" <;> simp [hcolls, hname, Names.insert, Names.empty]
  · by_cases hname : name = "done" <;> simp [hevents, hname, Names.insert, Names.empty]
  · by_cases hname : name = "p" <;> simp [hclasses, hname, Names.insert, Names.empty]

theorem listed_shelf : Listed (shelf []) shelfOrders := by
  intro cid info hinfo
  rcases cid with _ | _ | _ | cid
  · have h : (classInfos (shelf []) 0).map storageNames =
        some (Names.empty, Names.empty, Names.empty) := rfl
    rw [hinfo] at h
    simp only [storageNames, Option.map_some, Option.some.injEq, Prod.mk.injEq] at h
    obtain ⟨hcolls, hevents, hclasses⟩ := h
    refine ⟨fun name => ?_, fun name => ?_, fun name => ?_⟩
    · simp [hcolls, shelfOrders, Names.empty]
    · simp [hevents, shelfOrders, Names.empty]
    · simp [hclasses, shelfOrders, Names.empty]
  · have h : (classInfos (shelf []) 1).map storageNames = some _ := rfl
    rw [hinfo] at h
    exact lists_base (Option.some.inj h)
  · have h : (classInfos (shelf []) 2).map storageNames = some _ := rfl
    rw [hinfo] at h
    exact lists_base (Option.some.inj h)
  · have h : classInfos (shelf []) (cid + 3) = none := rfl
    rw [hinfo] at h
    cases h

theorem new_storage_shelf :
    ∃ m value, newInstance (linkage (shelf []) shelfOrders) 2 emptyMemory 2 = some (m, value) ∧
      (Fresh (layout (shelf [])) emptyMemory m (.struct 2) value ∧ Apart emptyMemory m value ↔
        ∀ c, Nested (shelf []) 2 c → CleanClass (shelf []) c) := by
  have hsome : (newInstance (linkage (shelf []) shelfOrders) 2 emptyMemory 2).isSome = true := by
    decide
  obtain ⟨⟨m, value⟩, hnew⟩ := Option.isSome_iff_exists.mp hsome
  exact ⟨m, value, hnew, new_storage_iff (shelf []) shelfOrders listed_shelf closed_emptyMemory
    (by decide) hnew⟩

/-- A derived class that declares the queue of its base again: the queue of the base stays null. -/
theorem shadowed_queue_is_null :
    ∃ m, newInstance (linkage (shelf [shelfField "q" none false (some .queue)]) shelfOrders) 2
        emptyMemory 2 = some (m, .obj 1) ∧
      m.held (.field 1 0) = some .null ∧
      ¬ Fresh (layout (shelf [shelfField "q" none false (some .queue)])) emptyMemory m (.struct 2)
        (.obj 1) := by
  have hrun : (newInstance (linkage (shelf [shelfField "q" none false (some .queue)]) shelfOrders) 2
      emptyMemory 2).map (fun made => (made.2, made.1.held (.field 1 0))) =
        some (.obj 1, some .null) := by decide
  generalize hd : shelf [shelfField "q" none false (some .queue)] = d at *
  obtain ⟨⟨m, value⟩, hnew, hmade⟩ := Option.map_eq_some_iff.mp hrun
  obtain ⟨rfl, hslot⟩ := Prod.mk.inj hmade
  refine ⟨m, hnew, hslot, fun hfresh => ?_⟩
  obtain ⟨base, hbase⟩ := classInfos_built d (show 1 < d.classDecls.length by subst hd; decide)
  obtain ⟨derived, hderived⟩ :=
    classInfos_built d (show 2 < d.classDecls.length by subst hd; decide)
  have hroot : (classInfos d 1).map ClassInfo.base = some none := by subst hd; rfl
  have hup : (classInfos d 2).map ClassInfo.base = some (some 1) := by subst hd; rfl
  rw [hbase] at hroot
  rw [hderived] at hup
  have hdeclares : Declares d (classInfos d) 2 _ :=
    .derived (by subst hd; rfl) hderived (Option.some.inj hup)
      (.root (by subst hd; rfl) hbase (Option.some.inj hroot))
  cases hfresh with
  | struct _ hobj hlayout _ hslots =>
    obtain ⟨L, hL, rfl⟩ := hlayout
    cases hL.unique hdeclares
    obtain ⟨data, hdata, hnull⟩ := Option.bind_eq_some_iff.mp hslot
    cases hobj.symm.trans hdata
    have hkind := hslots 0 (.coll false) .null (by subst hd; rfl) hnull
    cases hkind

end Eevee.Classes.Instances
