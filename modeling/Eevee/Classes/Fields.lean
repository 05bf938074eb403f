/- The fields a class has by declaration, inherited and shadowed ones included, and its tables. -/

import Mathlib.Data.List.Basic
import Mathlib.Data.List.Forall2
import Mathlib.Tactic.Common
import Mathlib.Tactic.SplitIfs
import Eevee.Classes.Dispatch

set_option autoImplicit false
set_option relaxedAutoImplicit false

namespace Eevee.Classes.Fields

open Eevee.Const.Evaluators
open Eevee.Lib.Folds
open Eevee.Lib.Tables
open Eevee.Classes.Declarations
open Eevee.Classes.Layout
open Eevee.Classes.Dispatch (parts parts_addTypeNames grows_build Grows entry_spec)

/-- An instance field and the class its type names. -/
structure Field where
  decl : VarDecl
  elemClass : Option ClassId
  /-- Only a field of a named type has a class. -/
  typed : elemClass.isSome = true → decl.className.isSome = true

def Field.name (f : Field) : String := f.decl.name

/-- The class of a field that is no collection. -/
def Field.ownClass (f : Field) : Option ClassId :=
  if f.decl.coll.isSome then none else f.elemClass

def Field.eventMark (f : Field) : Option Unit :=
  if f.decl.isEvent then some () else none

section

variable {Body : Type}

def declaredField (ids : Names ClassId) (info : ClassInfo) (fld : VarDecl) : Field where
  decl := fld
  elemClass := fld.className.bind (resolveTy ids info)
  typed h := by
    cases hname : fld.className with
    | none => rw [hname] at h; exact h
    | some _ => rfl

/-- The instance fields of a class's own declaration. -/
def ownFields (ids : Names ClassId) (info : ClassInfo) (fields : List VarDecl) : List Field :=
  (fields.filter fun fld => ! fld.isStatic).map (declaredField ids info)

/-- The fields a class declares, those of its bases first. -/
inductive Declares (d : Design Body) (classes : ClassId → Option ClassInfo) :
    ClassId → List Field → Prop
  | root {cid : ClassId} {c : ClassDecl Body} {info : ClassInfo}
      (hc : d.classDecls[cid]? = some c) (hinfo : classes cid = some info)
      (hbase : info.base = none) :
      Declares d classes cid (ownFields (classIds d.classDecls) info c.fields)
  | derived {cid bid : ClassId} {c : ClassDecl Body} {info : ClassInfo} {L : List Field}
      (hc : d.classDecls[cid]? = some c) (hinfo : classes cid = some info)
      (hbase : info.base = some bid) (hinherited : Declares d classes bid L) :
      Declares d classes cid (L ++ ownFields (classIds d.classDecls) info c.fields)

theorem Declares.unique {d : Design Body} {classes : ClassId → Option ClassInfo} {cid : ClassId}
    {L L' : List Field} (h : Declares d classes cid L) (h' : Declares d classes cid L') :
    L = L' := by
  induction h generalizing L' with
  | root hc hinfo hbase =>
    cases h' with
    | root hc' hinfo' _ =>
      cases hc.symm.trans hc'
      cases hinfo.symm.trans hinfo'
      rfl
    | derived _ hinfo' hbase' _ =>
      cases hinfo.symm.trans hinfo'
      cases hbase.symm.trans hbase'
  | derived hc hinfo hbase _ ih =>
    cases h' with
    | root _ hinfo' hbase' =>
      cases hinfo.symm.trans hinfo'
      cases hbase.symm.trans hbase'
    | derived hc' hinfo' hbase' hinherited' =>
      cases hc.symm.trans hc'
      cases hinfo.symm.trans hinfo'
      cases hbase.symm.trans hbase'
      rw [ih hinherited']

theorem Declares.grow {d : Design Body} {classes after : ClassId → Option ClassInfo}
    (hgrow : Grows classes after) {cid : ClassId} {L : List Field} (h : Declares d classes cid L) :
    Declares d after cid L := by
  induction h with
  | root hc hinfo hbase => exact .root hc (hgrow _ _ hinfo) hbase
  | derived hc hinfo hbase _ ih => exact .derived hc (hgrow _ _ hinfo) hbase ih

/-! ### Layouts and declarations -/

/-- The default a field was given while the event counter was below a bound. -/
def DefaultOf (consts : Constants) (n : Nat) (f : Field) (value : Eval Default) : Prop :=
  ∃ e, value = (defaultValue f.decl consts e).1 ∧ (defaultValue f.decl consts e).2 ≤ n

/-- The tables of a layout by name are about these fields by place. -/
structure Describes (consts : Constants) (n : Nat) (L : List Field) (info : ClassInfo) : Prop where
  defaults : List.Forall₂ (DefaultOf consts n) L info.fieldDefaults
  slots : ∀ name i, (∃ width, info.fieldSlot name = some (i, width)) ↔ LastAt Field.name L name i
  colls : ∀ name, (info.fieldColl name).map CollInfo.kind = latest Field.name (·.decl.coll) L name
  classes : ∀ name, info.fieldClass name = latest Field.name Field.ownClass L name
  events : ∀ name, info.fieldEvents name = latest Field.name Field.eventMark L name

/-- What a layout says of the objects of its class. -/
def objectPart (info : ClassInfo) : List (Eval Default) × Names (Nat × Nat) × Names CollInfo ×
    Names ClassId × Names Unit :=
  (info.fieldDefaults, info.fieldSlot, info.fieldColl, info.fieldClass, info.fieldEvents)

/-- What the names of types are resolved by. -/
def typePart (info : ClassInfo) : Option ClassId × Names ClassId × Names ClassId :=
  (info.base, info.typeAliases, info.typeParamDefault)

variable {consts : Constants} {n n' : Nat} {L : List Field} {info info' : ClassInfo}

theorem Describes.of_same (h : Describes consts n L info)
    (hsame : objectPart info' = objectPart info) :
    Describes consts n L info' := by
  simp only [objectPart, Prod.mk.injEq] at hsame
  obtain ⟨hdefaults, hslot, hcoll, hclass, hevents⟩ := hsame
  exact ⟨hdefaults ▸ h.defaults, hslot ▸ h.slots, hcoll ▸ h.colls, hclass ▸ h.classes,
    hevents ▸ h.events⟩

theorem Describes.mono (h : Describes consts n L info) (hle : n ≤ n') :
    Describes consts n' L info :=
  { h with defaults := h.defaults.imp fun _ _ ⟨e, hvalue, hlt⟩ => ⟨e, hvalue, hlt.trans hle⟩ }

theorem describes_empty : Describes consts n [] .empty where
  defaults := .nil
  slots name i := by
    constructor
    · rintro ⟨_, h⟩
      cases h
    · intro h
      exact absurd h.lt (Nat.not_lt_zero _)
  colls _ := rfl
  classes _ := rfl
  events _ := rfl

theorem resolveTy_same (ids : Names ClassId) (hsame : typePart info' = typePart info) :
    resolveTy ids info' = resolveTy ids info := by
  simp only [typePart, Prod.mk.injEq] at hsame
  funext name
  rw [resolveTy, resolveTy, hsame.2.1, hsame.2.2]

theorem declaredField_same (ids : Names ClassId) (hsame : typePart info' = typePart info)
    (fld : VarDecl) : declaredField ids info' fld = declaredField ids info fld := by
  unfold declaredField
  simp only [resolveTy_same ids hsame]

theorem le_defaultValue (fld : VarDecl) (e : Nat) : e ≤ (defaultValue fld consts e).2 := by
  unfold defaultValue
  split_ifs
  · exact Nat.le_refl _
  · exact Nat.le_succ _
  · cases fld.init with
    | none => exact Nat.le_refl _
    | some init => cases init <;> exact Nat.le_refl _
  · cases fld.init with
    | none => exact Nat.le_refl _
    | some init => cases init <;> exact Nat.le_refl _

theorem insertSome_apply {α : Type} (names : Names α) (name other : String) (value : Option α) :
    insertSome names name value other =
      if name = other then value.or (names other) else names other := by
  by_cases h : name = other
  · subst h
    cases value <;> simp [insertSome]
  · cases value <;> simp [insertSome, h, Ne.symm h]

theorem insert_apply {α : Type} (names : Names α) (name other : String) (value : α) :
    names.insert name value other = if name = other then some value else names other := by
  by_cases h : name = other
  · subst h
    simp
  · simp [h, Ne.symm h]

/-! ### One field -/

theorem typePart_addField (ids : Names ClassId) (state : ClassInfo × Storage) (fld : VarDecl) :
    typePart (addField ids consts state fld).1 = typePart state.1 := by
  unfold addField
  split <;> rfl

theorem objectPart_addStaticField (ids : Names ClassId) (state : ClassInfo × Storage)
    (fld : VarDecl) : objectPart (addStaticField ids consts state fld).1 = objectPart state.1 :=
  rfl

theorem le_nextEvent_addField (ids : Names ClassId) (state : ClassInfo × Storage) (fld : VarDecl) :
    state.2.nextEvent ≤ (addField ids consts state fld).2.nextEvent := by
  unfold addField
  split
  · unfold addStaticField staticDefault
    cases fld.coll with
    | none => exact le_defaultValue fld _
    | some kind => cases kind <;> exact Nat.le_refl _
  · exact le_defaultValue fld _

theorem describes_addInstanceField (ids : Names ClassId) (state : ClassInfo × Storage)
    (fld : VarDecl) (h : Describes consts state.2.nextEvent L state.1) :
    Describes consts (addInstanceField ids consts state fld).2.nextEvent
      (L ++ [declaredField ids state.1 fld]) (addInstanceField ids consts state fld).1 where
  defaults := by
    have hle : state.2.nextEvent ≤ (addInstanceField ids consts state fld).2.nextEvent :=
      le_defaultValue fld _
    refine List.rel_append (h.mono hle).defaults (.cons ?_ .nil)
    exact ⟨state.2.nextEvent, rfl, Nat.le_refl _⟩
  slots name i := by
    have hlen : L.length = state.1.fieldDefaults.length := h.defaults.length_eq
    rw [fieldSlot_addInstanceField, insert_apply, ← hlen]
    by_cases hname : fld.name = name
    · rw [if_pos hname]
      have hlast : LastAt Field.name (L ++ [declaredField ids state.1 fld]) name L.length := by
        subst hname
        exact LastAt.push_self
      constructor
      · rintro ⟨_, heq⟩
        cases heq
        exact hlast
      · intro hi
        cases hlast.unique hi
        exact ⟨_, rfl⟩
    · rw [if_neg hname, h.slots]
      exact ⟨fun hi => hi.push_ne hname, fun hi => hi.of_push_ne hname⟩
  colls name := by
    have hnew : (addInstanceField ids consts state fld).1.fieldColl name = _ :=
      insertSome_apply _ _ _ _
    rw [hnew, latest_push, ← h.colls]
    show Option.map _ (if fld.name = name then _ else _) = if fld.name = name then _ else _
    by_cases hname : fld.name = name
    · rw [if_pos hname, if_pos hname]
      show Option.map _ _ = Option.or fld.coll _
      cases fld.coll <;> rfl
    · rw [if_neg hname, if_neg hname]
  classes name := by
    rw [latest_push, ← h.classes]
    show (if fld.coll.isSome then state.1.fieldClass
      else insertSome state.1.fieldClass fld.name _) name =
        if fld.name = name then Option.or (if fld.coll.isSome then none else _) _ else _
    by_cases hcoll : fld.coll.isSome = true
    · rw [if_pos hcoll, if_pos hcoll, Option.none_or, ite_self]
    · rw [if_neg hcoll, if_neg hcoll, insertSome_apply]
      rfl
  events name := by
    rw [latest_push, ← h.events]
    show
      (if fld.isEvent then state.1.fieldEvents.insert fld.name () else state.1.fieldEvents) name =
      if fld.name = name then Option.or (if fld.isEvent then some () else none) _ else _
    by_cases hevent : fld.isEvent = true
    · rw [if_pos hevent, if_pos hevent, insert_apply, Option.some_or]
    · rw [if_neg hevent, if_neg hevent, Option.none_or, ite_self]

/-- A class's fields are described one after the other. -/
theorem describes_fields (ids : Names ClassId) (fields : List VarDecl)
    (state : ClassInfo × Storage) (h : Describes consts state.2.nextEvent L state.1) :
    state.2.nextEvent ≤ (fields.foldl (addField ids consts) state).2.nextEvent ∧
      Describes consts (fields.foldl (addField ids consts) state).2.nextEvent
        (L ++ ownFields ids state.1 fields) (fields.foldl (addField ids consts) state).1 := by
  have hrun := foldl_invariant (addField ids consts)
    (fun done state' => typePart state'.1 = typePart state.1 ∧
      state.2.nextEvent ≤ state'.2.nextEvent ∧
      Describes consts state'.2.nextEvent (L ++ ownFields ids state.1 done) state'.1)
    fields state ⟨rfl, Nat.le_refl _, by simpa [ownFields] using h⟩ ?_
  · exact hrun.2
  · intro done fld _ state' _ hstate
    obtain ⟨htypes, hle, hdone⟩ := hstate
    have hstep := @le_nextEvent_addField consts ids state' fld
    refine ⟨(typePart_addField ids state' fld).trans htypes, hle.trans hstep, ?_⟩
    by_cases hstatic : fld.isStatic = true
    · have hown : ownFields ids state.1 (done ++ [fld]) = ownFields ids state.1 done := by
        simp [ownFields, hstatic]
      have hadd : addField ids consts state' fld = addStaticField ids consts state' fld :=
        if_pos hstatic
      rw [hown]
      refine (hdone.mono hstep).of_same ?_
      rw [hadd, objectPart_addStaticField]
    · have hown : ownFields ids state.1 (done ++ [fld]) =
          ownFields ids state.1 done ++ [declaredField ids state'.1 fld] := by
        simp [ownFields, hstatic, declaredField_same ids htypes]
      have hadd : addField ids consts state' fld = addInstanceField ids consts state' fld :=
        if_neg hstatic
      rw [hown, hadd, ← List.append_assoc]
      exact describes_addInstanceField ids state' fld hdone

/-! ### One class -/

theorem objectPart_addTypeNames (ids : Names ClassId) (c : ClassDecl Body) (info : ClassInfo) :
    objectPart (addTypeNames ids c info) = objectPart info := by
  refine (foldl_same (addCollectionAlias ids) objectPart (fun _ _ => rfl) _ _).trans
    ((foldl_same (addTypeAlias ids) objectPart (fun info a => ?_) _ _).trans
      (foldl_same (addTypeParam ids) objectPart (fun info p => ?_) _ _))
  · unfold addTypeAlias
    split <;> rfl
  · unfold addTypeParam
    split
    · split <;> rfl
    · rfl

theorem parts_addMethod (c : ClassDecl Body) (info : ClassInfo) (m : MethodFid) :
    (typePart (addMethod c info m), objectPart (addMethod c info m)) =
      (typePart info, objectPart info) := by
  rw [addMethod, addVirtual]
  split
  · rfl
  · split <;> rfl

theorem describes_buildClassInfo (ids : Names ClassId) (c : ClassDecl Body)
    (baseId : Option ClassId) (base : Option ClassInfo) (fids : ClassFids) (storage : Storage)
    (h : Describes consts storage.nextEvent L (base.getD .empty))
    {made : ClassInfo × Storage}
    (hmade : buildClassInfo ids consts c baseId base fids storage = made) :
    made.1.base = baseId ∧ storage.nextEvent ≤ made.2.nextEvent ∧
      Describes consts made.2.nextEvent (L ++ ownFields ids made.1 c.fields) made.1 := by
  have hbase := congrArg (·.1.1) (parts_addTypeNames ids c (inherited c baseId base fids))
  have hobject := objectPart_addTypeNames ids c (inherited c baseId base fids)
  unfold buildClassInfo at hmade
  generalize addTypeNames ids c (inherited c baseId base fids) = typed at hbase hobject hmade
  have htyped : Describes consts storage.nextEvent L typed := h.of_same hobject
  have htypes := foldl_same (addField ids consts) (fun s => typePart s.1)
    (typePart_addField ids) c.fields (typed, storage)
  obtain ⟨hle, hfields⟩ := describes_fields ids c.fields (typed, storage) htyped
  generalize c.fields.foldl (addField ids consts) (typed, storage) = fielded at *
  have hparts := foldl_same (addMethod c) (fun info => (typePart info, objectPart info))
    (parts_addMethod c) fids.methodFids fielded.1
  obtain ⟨htypes', hobject'⟩ := Prod.mk.inj hparts
  subst hmade
  have hsame := htypes'.trans htypes
  refine ⟨?_, hle, ?_⟩
  · exact (congrArg (·.1) hsame).trans hbase
  · have hown : ownFields ids (fids.methodFids.foldl (addMethod c) fielded.1) c.fields =
        ownFields ids typed c.fields :=
      List.map_congr_left fun fld _ => declaredField_same ids hsame fld
    rw [hown]
    exact hfields.of_same hobject'

/-! ### All classes -/

/-- Every class has its declared fields, described by its tables. -/
def AllDescribed (d : Design Body) (classes : ClassId → Option ClassInfo) (storage : Storage) :
    Prop :=
  ∀ cid info, classes cid = some info →
    ∃ L, Declares d classes cid L ∧ Describes d.consts storage.nextEvent L info

theorem described_build {d : Design Body} {state : Building}
    (h : AllDescribed d state.built state.storage) {entry : Entry Body} (hentry : entry ∈ entries d)
    (hnone : state.built entry.cid = none) (baseId : Option ClassId)
    (hbase : ∀ bid, baseId = some bid → ∃ base, state.built bid = some base) :
    AllDescribed d (build d state entry baseId).built (build d state entry baseId).storage := by
  have hgrow := grows_build (d := d) baseId hnone
  obtain ⟨hc, -⟩ := entry_spec hentry
  -- the fields of the base come first
  obtain ⟨L, hL, hdescribes⟩ : ∃ L : List Field,
      (∀ bid, baseId = some bid → Declares d state.built bid L) ∧ (baseId = none → L = []) ∧
        Describes d.consts state.storage.nextEvent L ((baseId.bind state.built).getD .empty) := by
    cases baseId with
    | none =>
      refine ⟨[], fun _ hbid => ?_, fun _ => rfl, describes_empty.mono (Nat.zero_le _)⟩
      cases hbid
    | some bid =>
      obtain ⟨base, hbuilt⟩ := hbase bid rfl
      obtain ⟨L, hdeclares, hdescribes⟩ := h bid base hbuilt
      refine ⟨L, fun bid' hbid => ?_, fun hnone => ?_, ?_⟩
      · cases hbid
        exact hdeclares
      · cases hnone
      · rw [Option.bind_some, hbuilt]
        exact hdescribes
  obtain ⟨hroot, hdescribes⟩ := hdescribes
  obtain ⟨hbaseId, hle, hmade⟩ := describes_buildClassInfo (classIds d.classDecls) entry.decl baseId
    (baseId.bind state.built) entry.fids state.storage hdescribes rfl
  intro cid info hinfo
  by_cases hcid : cid = entry.cid
  · subst hcid
    cases Option.some.inj ((if_pos rfl).symm.trans hinfo)
    refine ⟨_, ?_, hmade⟩
    rcases Option.eq_none_or_eq_some baseId with hb | ⟨bid, hb⟩
    · rw [hroot hb]
      exact .root hc hinfo (hbaseId.trans hb)
    · exact .derived hc hinfo (hbaseId.trans hb) ((hL bid hb).grow hgrow)
  · obtain ⟨L', hdeclares, hold⟩ := h cid info ((if_neg hcid).symm.trans hinfo)
    exact ⟨L', hdeclares.grow hgrow, hold.mono hle⟩

/-- The tables of every class are about the fields it declares. -/
theorem described_classInfos (d : Design Body) :
    AllDescribed d (classInfos d) (elaborated d).storage := by
  have hkept : Kept d (AllDescribed d) := by
    refine ⟨fun _ _ h => ?_, fun _ _ baseId hentry hnone hbase h => ?_⟩
    · cases h
    · exact described_build h hentry hnone baseId hbase
  exact hkept.elaborated

end

end Eevee.Classes.Fields
