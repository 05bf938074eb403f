/- Every class extends the layout of its base, and its virtual table holds the nearest override. -/

import Mathlib.Data.Finset.Card
import Mathlib.Data.Finset.Range
import Mathlib.Logic.Relation
import Eevee.Classes.Layout

set_option autoImplicit false
set_option relaxedAutoImplicit false

namespace Eevee.Classes.Dispatch

open Eevee.Const.Evaluators
open Eevee.Lib.Folds
open Eevee.Lib.Tables
open Eevee.Classes.Declarations
open Eevee.Classes.Layout

variable {Body : Type}

/-! ### Fields -/

/-- A layout keeps the slots of another and puts new fields behind them. -/
structure ExtendsFields (base derived : ClassInfo) : Prop where
  defaults : base.fieldDefaults <+: derived.fieldDefaults
  slots : ∀ name slot width, base.fieldSlot name = some (slot, width) →
    derived.fieldSlot name = some (slot, width) ∨
      ∃ slot' width', derived.fieldSlot name = some (slot', width') ∧
        base.fieldDefaults.length ≤ slot'

namespace ExtendsFields

variable {base mid derived : ClassInfo}

theorem refl (info : ClassInfo) : ExtendsFields info info :=
  ⟨List.prefix_rfl, fun _ _ _ h => .inl h⟩

theorem trans (h : ExtendsFields base mid) (h' : ExtendsFields mid derived) :
    ExtendsFields base derived where
  defaults := h.defaults.trans h'.defaults
  slots name slot width hslot := by
    rcases h.slots name slot width hslot with hsame | ⟨slot', width', hmoved, hle⟩
    · rcases h'.slots name slot width hsame with hkept | ⟨slot'', width'', hmoved', hle'⟩
      · exact .inl hkept
      · exact .inr ⟨slot'', width'', hmoved', h.defaults.length_le.trans hle'⟩
    · rcases h'.slots name slot' width' hmoved with hkept | ⟨slot'', width'', hmoved', hle'⟩
      · exact .inr ⟨slot', width', hkept, hle⟩
      · exact .inr ⟨slot'', width'', hmoved', h.defaults.length_le.trans hle'⟩

theorem of_same (hdefaults : derived.fieldDefaults = base.fieldDefaults)
    (hslots : derived.fieldSlot = base.fieldSlot) : ExtendsFields base derived :=
  ⟨hdefaults ▸ List.prefix_rfl, fun _ _ _ h => .inl (hslots ▸ h)⟩

end ExtendsFields

/-- Every instance field has a place in the object. -/
def FieldsPlaced (info : ClassInfo) : Prop :=
  ∀ name slot width, info.fieldSlot name = some (slot, width) → slot < info.fieldDefaults.length

/-- What the virtual table is about. -/
def virtualPart (info : ClassInfo) : Option ClassId × List FuncId × Names Nat :=
  (info.base, info.vtable, info.vslotOf)

/-- What the fields of an object are about. -/
def fieldPart (info : ClassInfo) : Option ClassId × List (Eval Default) × Names (Nat × Nat) :=
  (info.base, info.fieldDefaults, info.fieldSlot)

section

variable (ids : Names ClassId) (consts : Constants)

/-- The type names of a class touch neither its fields nor its table. -/
def parts (info : ClassInfo) :
    (Option ClassId × List FuncId × Names Nat) ×
      (Option ClassId × List (Eval Default) × Names (Nat × Nat)) :=
  (virtualPart info, fieldPart info)

theorem parts_addTypeParam (info : ClassInfo) (p : ParamDecl) :
    parts (addTypeParam ids info p) = parts info := by
  unfold addTypeParam
  split
  · split <;> rfl
  · rfl

theorem parts_addTypeAlias (info : ClassInfo) (a : TypeAlias) :
    parts (addTypeAlias ids info a) = parts info := by
  unfold addTypeAlias
  split <;> rfl

theorem parts_addTypeNames (c : ClassDecl Body) (info : ClassInfo) :
    parts (addTypeNames ids c info) = parts info :=
  (foldl_same (addCollectionAlias ids) parts (fun _ _ => rfl) _ _).trans
    ((foldl_same (addTypeAlias ids) parts (parts_addTypeAlias ids) _ _).trans
      (foldl_same (addTypeParam ids) parts (parts_addTypeParam ids) _ _))

theorem virtualPart_addField (state : ClassInfo × Storage) (fld : VarDecl) :
    virtualPart (addField ids consts state fld).1 = virtualPart state.1 := by
  unfold addField
  split <;> rfl

theorem extends_addField (state : ClassInfo × Storage) (fld : VarDecl)
    (h : FieldsPlaced state.1) : ExtendsFields state.1 (addField ids consts state fld).1 ∧
      FieldsPlaced (addField ids consts state fld).1 := by
  unfold addField
  split
  · exact ⟨.of_same rfl rfl, h⟩
  · refine ⟨⟨List.prefix_append _ _, fun name slot width hslot => ?_⟩,
      fun name slot width hslot => ?_⟩
    · by_cases hname : name = fld.name
      · subst hname
        exact .inr ⟨_, _, Names.insert_self _ _ _, le_refl _⟩
      · exact .inl ((Names.insert_of_ne _ hname _).trans hslot)
    · rw [fieldSlot_addInstanceField] at hslot
      rw [length_addInstanceField]
      by_cases hname : name = fld.name
      · subst hname
        rw [Names.insert_self] at hslot
        cases hslot
        exact Nat.lt_succ_self _
      · rw [Names.insert_of_ne _ hname] at hslot
        exact Nat.lt_succ_of_lt (h name slot width hslot)

theorem extends_fields (fields : List VarDecl) (state : ClassInfo × Storage)
    (h : FieldsPlaced state.1) :
    ExtendsFields state.1 (fields.foldl (addField ids consts) state).1 ∧
      FieldsPlaced (fields.foldl (addField ids consts) state).1 := by
  refine foldl_invariant (addField ids consts)
    (fun _ state' => ExtendsFields state.1 state'.1 ∧ FieldsPlaced state'.1) fields state
    ⟨.refl _, h⟩ fun _ fld _ state' _ hs => ?_
  obtain ⟨hext, hplaced⟩ := extends_addField ids consts state' fld hs.2
  exact ⟨hs.1.trans hext, hplaced⟩

end

/-! ### Virtual methods -/

/-- The implementation a class's table holds for a method. -/
def tableEntry (info : ClassInfo) (name : String) : Option FuncId :=
  (info.vslotOf name).bind fun slot => info.vtable[slot]?

/-- Slots are places of the table, no two methods share one. -/
structure Slotted (info : ClassInfo) : Prop where
  lt : ∀ name slot, info.vslotOf name = some slot → slot < info.vtable.length
  inj : ∀ name other slot, info.vslotOf name = some slot → info.vslotOf other = some slot →
    name = other

theorem Slotted.of_same {info next : ClassInfo} (h : Slotted info)
    (hvtable : next.vtable = info.vtable) (hvslotOf : next.vslotOf = info.vslotOf) :
    Slotted next where
  lt name slot hs := hvtable ▸ h.lt name slot (hvslotOf ▸ hs)
  inj name other slot hs hs' := h.inj name other slot (hvslotOf ▸ hs) (hvslotOf ▸ hs')

theorem Slotted.entry_isSome {info : ClassInfo} (h : Slotted info) {name : String} {slot : Nat}
    (hslot : info.vslotOf name = some slot) :
    ∃ fid, info.vtable[slot]? = some fid ∧ tableEntry info name = some fid := by
  have hfid := List.getElem?_eq_getElem (h.lt name slot hslot)
  exact ⟨_, hfid, by rw [tableEntry, hslot]; exact hfid⟩

/-- What one more method does to the table: slots stay, and its name's slot, if there is one,
holds it. -/
structure Adds (info next : ClassInfo) (m : MethodFid) : Prop where
  slotted : Slotted next
  keeps : ∀ name slot, info.vslotOf name = some slot → next.vslotOf name = some slot
  own : ∀ slot, next.vslotOf m.name = some slot → tableEntry next m.name = some m.fid
  other : ∀ name, name ≠ m.name →
    next.vslotOf name = info.vslotOf name ∧ tableEntry next name = tableEntry info name

theorem adds_override {info : ClassInfo} (h : Slotted info) {m : MethodFid} {slot : Nat}
    (hslot : info.vslotOf m.name = some slot) :
    Adds info { info with vtable := info.vtable.set slot m.fid } m where
  slotted := ⟨fun name slot' hs => by simpa using h.lt name slot' hs, h.inj⟩
  keeps _ _ hs := hs
  own slot' hs := by
    cases hslot.symm.trans hs
    simp [tableEntry, hslot, h.lt m.name slot hslot]
  other name hne := by
    refine ⟨rfl, ?_⟩
    cases hname : info.vslotOf name with
    | none => simp [tableEntry, hname]
    | some slot' =>
      have hdiff : slot ≠ slot' := by
        rintro rfl
        exact hne (h.inj name m.name slot hname hslot)
      simp [tableEntry, hname, List.getElem?_set_ne hdiff]

theorem adds_new {info : ClassInfo} (h : Slotted info) {m : MethodFid}
    (hslot : info.vslotOf m.name = none) :
    Adds info { info with
      vslotOf := info.vslotOf.insert m.name info.vtable.length
      vtable := info.vtable ++ [m.fid] } m where
  slotted := by
    have places : ∀ name slot, info.vslotOf.insert m.name info.vtable.length name = some slot →
        name = m.name ∧ slot = info.vtable.length ∨
          info.vslotOf name = some slot ∧ slot < info.vtable.length := by
      intro name slot hs
      by_cases hname : name = m.name
      · subst hname
        rw [Names.insert_self] at hs
        cases hs
        exact .inl ⟨rfl, rfl⟩
      · rw [Names.insert_of_ne _ hname] at hs
        exact .inr ⟨hs, h.lt name slot hs⟩
    refine ⟨fun name slot hs => ?_, fun name other slot hs hs' => ?_⟩
    · rw [List.length_append, List.length_singleton]
      rcases places name slot hs with ⟨-, rfl⟩ | ⟨-, hlt⟩ <;> omega
    · rcases places name slot hs with ⟨rfl, rfl⟩ | ⟨hn, hlt⟩ <;>
        rcases places other _ hs' with ⟨rfl, heq⟩ | ⟨ho, hlt'⟩
      · rfl
      · exact absurd hlt' (Nat.lt_irrefl _)
      · exact absurd (heq ▸ hlt) (Nat.lt_irrefl _)
      · exact h.inj name other slot hn ho
  keeps name slot hs := by
    have hne : name ≠ m.name := by
      rintro rfl
      rw [hslot] at hs
      cases hs
    exact (Names.insert_of_ne _ hne _).trans hs
  own slot hs := by simp [tableEntry]
  other name hne := by
    have hsame : info.vslotOf.insert m.name info.vtable.length name = info.vslotOf name :=
      Names.insert_of_ne _ hne _
    refine ⟨hsame, ?_⟩
    cases hname : info.vslotOf name with
    | none => simp only [tableEntry, hsame, hname, Option.bind_none]
    | some slot =>
      simp only [tableEntry, hsame, hname, Option.bind_some]
      exact List.getElem?_append_left (h.lt name slot hname)

theorem adds_method (c : ClassDecl Body) {info : ClassInfo} (h : Slotted info) (m : MethodFid) :
    Adds info (addMethod c info m) m := by
  have hstart : Slotted { info with
      methods := info.methods.insert m.name m.fid
      methodRetClass := insertSome info.methodRetClass m.name m.retClass
      methodRetIntegral := insertSome info.methodRetIntegral m.name (integralReturn c m.name) } :=
    ⟨h.lt, h.inj⟩
  rw [addMethod, addVirtual]
  cases hslot : info.vslotOf m.name with
  | some slot =>
    have hadds := adds_override hstart hslot
    exact ⟨hadds.slotted, hadds.keeps, hadds.own, hadds.other⟩
  | none =>
    by_cases hv : m.isVirtual = true
    · have hadds := adds_new hstart hslot
      simp only [if_pos hv]
      exact ⟨hadds.slotted, hadds.keeps, hadds.own, hadds.other⟩
    · simp only [if_neg hv]
      refine ⟨hstart, fun _ _ hs => hs, fun slot hs => ?_, fun _ _ => ⟨rfl, rfl⟩⟩
      cases hslot.symm.trans hs

theorem fieldPart_addMethod (c : ClassDecl Body) (info : ClassInfo) (m : MethodFid) :
    fieldPart (addMethod c info m) = fieldPart info := by
  rw [addMethod, addVirtual]
  split
  · rfl
  · split <;> rfl

/-- The methods of a class override what its table held; the slots stay. -/
structure Overrides (info next : ClassInfo) (fids : List MethodFid) : Prop where
  slotted : Slotted next
  keeps : ∀ name slot, info.vslotOf name = some slot → next.vslotOf name = some slot
  entry : ∀ name slot, next.vslotOf name = some slot → tableEntry next name =
    ((lastNamed MethodFid.name fids name).map (·.fid)).or (tableEntry info name)
  fresh : ∀ name slot, next.vslotOf name = some slot →
    lastNamed MethodFid.name fids name = none → info.vslotOf name = some slot

theorem overrides_methods (c : ClassDecl Body) {info : ClassInfo} (h : Slotted info)
    (fids : List MethodFid) : Overrides info (fids.foldl (addMethod c) info) fids := by
  refine foldl_invariant (addMethod c) (fun done next => Overrides info next done) fids info
    ⟨h, fun _ _ hs => hs, fun _ _ _ => rfl, fun _ _ hs _ => hs⟩ fun done m _ next _ hdone => ?_
  have hadds := adds_method c hdone.slotted m
  refine ⟨hadds.slotted, fun name slot hs => hadds.keeps name slot (hdone.keeps name slot hs),
    fun name slot hs => ?_, fun name slot hs hnone => ?_⟩
  · rw [lastNamed_push]
    by_cases hname : m.name = name
    · subst hname
      rw [if_pos rfl]
      exact hadds.own slot hs
    · obtain ⟨hslot, hentry⟩ := hadds.other name (Ne.symm hname)
      rw [if_neg hname, hentry]
      exact hdone.entry name slot (hslot ▸ hs)
  · rw [lastNamed_push] at hnone
    by_cases hname : m.name = name
    · rw [if_pos hname] at hnone
      cases hnone
    · rw [if_neg hname] at hnone
      obtain ⟨hslot, -⟩ := hadds.other name (Ne.symm hname)
      exact hdone.fresh name slot (hslot ▸ hs) hnone

/-! ### One class over its base -/

/-- A class's layout over the layout of its base. -/
structure Derives (base derived : ClassInfo) (fids : List MethodFid) : Prop where
  fields : ExtendsFields base derived
  placed : FieldsPlaced derived
  methods : Overrides base derived fids

theorem derives_buildClassInfo (ids : Names ClassId) (consts : Constants) (c : ClassDecl Body)
    (baseId : Option ClassId) {base : Option ClassInfo} (fids : ClassFids) (storage : Storage)
    (hslots : Slotted (base.getD .empty)) (hfields : FieldsPlaced (base.getD .empty)) :
    Derives (base.getD .empty) (buildClassInfo ids consts c baseId base fids storage).1
        fids.methodFids ∧
      (buildClassInfo ids consts c baseId base fids storage).1.base = baseId := by
  have htyped := parts_addTypeNames ids c (inherited c baseId base fids)
  unfold buildClassInfo
  generalize addTypeNames ids c (inherited c baseId base fids) = typed at htyped
  simp only [parts, virtualPart, fieldPart, inherited, Prod.mk.injEq] at htyped
  obtain ⟨⟨hbase, hvtable, hvslotOf⟩, -, hdefaults, hslot⟩ := htyped
  obtain ⟨hext, hplaced⟩ := extends_fields ids consts c.fields (typed, storage) (by
    intro name slot width hs
    rw [hdefaults]
    exact hfields name slot width (hslot ▸ hs))
  have hvirtual := foldl_same (addField ids consts) (fun s => virtualPart s.1)
    (virtualPart_addField ids consts) c.fields (typed, storage)
  generalize (c.fields.foldl (addField ids consts) (typed, storage)) = fielded at *
  simp only [virtualPart, Prod.mk.injEq] at hvirtual
  obtain ⟨hbase', hvtable', hvslotOf'⟩ := hvirtual
  have hentry : tableEntry fielded.1 = tableEntry (base.getD .empty) := by
    funext name
    rw [tableEntry, tableEntry, hvtable', hvslotOf', hvtable, hvslotOf]
  have hsame : fielded.1.vslotOf = (base.getD .empty).vslotOf := hvslotOf'.trans hvslotOf
  have hover := overrides_methods c (hslots.of_same (hvtable'.trans hvtable) hsame)
    fids.methodFids
  have hpart := foldl_same (addMethod c) fieldPart (fieldPart_addMethod c) fids.methodFids fielded.1
  simp only [fieldPart, Prod.mk.injEq] at hpart
  obtain ⟨hbase'', hdefaults', hslot'⟩ := hpart
  refine ⟨⟨?_, ?_, ?_⟩, ?_⟩
  · exact (ExtendsFields.of_same hdefaults hslot).trans (hext.trans (.of_same hdefaults' hslot'))
  · intro name slot width hs
    rw [hdefaults']
    exact hplaced name slot width (hslot' ▸ hs)
  · exact ⟨hover.slotted, fun name slot hs => hover.keeps name slot (hsame ▸ hs),
      fun name slot hs => hentry ▸ hover.entry name slot hs,
      fun name slot hs hnone => hsame ▸ hover.fresh name slot hs hnone⟩
  · exact hbase''.trans (hbase'.trans hbase)

/-! ### The base chain -/

variable {d : Design Body} {classes : ClassId → Option ClassInfo}

/-- The base of a class as it was built. -/
def BaseOf (classes : ClassId → Option ClassInfo) (cid base : ClassId) : Prop :=
  ∃ info, classes cid = some info ∧ info.base = some base

/-- The second class is on the first one's chain of bases, which starts with the class itself. -/
def Ancestor (classes : ClassId → Option ClassInfo) : ClassId → ClassId → Prop :=
  Relation.ReflTransGen (BaseOf classes)

/-- The nearest class, from the first one upwards, that declares a method, and its declaration
there. -/
inductive Nearest (d : Design Body) (classes : ClassId → Option ClassInfo) (name : String) :
    ClassId → ClassId → FuncDecl Body → Prop
  | own {cid : ClassId} {c : ClassDecl Body} {decl : FuncDecl Body}
      (hc : d.classDecls[cid]? = some c) (h : implementation d.funcs c name = some decl) :
      Nearest d classes name cid cid decl
  | inherited {cid base owner : ClassId} {c : ClassDecl Body} {decl : FuncDecl Body}
      (hc : d.classDecls[cid]? = some c) (h : implementation d.funcs c name = none)
      (hbase : BaseOf classes cid base) (hnearest : Nearest d classes name base owner decl) :
      Nearest d classes name cid owner decl

theorem Nearest.unique {name : String} {cid owner owner' : ClassId} {decl decl' : FuncDecl Body}
    (h : Nearest d classes name cid owner decl) (h' : Nearest d classes name cid owner' decl') :
    owner = owner' ∧ decl = decl' := by
  induction h with
  | own hc himpl =>
    cases h' with
    | own hc' himpl' =>
      cases hc.symm.trans hc'
      cases himpl.symm.trans himpl'
      exact ⟨rfl, rfl⟩
    | inherited hc' himpl' =>
      cases hc.symm.trans hc'
      cases himpl.symm.trans himpl'
  | inherited hc himpl hbase _ ih =>
    cases h' with
    | own hc' himpl' =>
      cases hc.symm.trans hc'
      cases himpl.symm.trans himpl'
    | inherited hc' _ hbase' hnearest' =>
      obtain ⟨info, hinfo, heq⟩ := hbase
      obtain ⟨info', hinfo', heq'⟩ := hbase'
      cases hinfo.symm.trans hinfo'
      cases heq.symm.trans heq'
      exact ih hnearest'

/-- What holds of a class that is built. -/
structure Lawful (d : Design Body) (classes : ClassId → Option ClassInfo) (cid : ClassId)
    (info : ClassInfo) : Prop where
  slotted : Slotted info
  placed : FieldsPlaced info
  /-- The table holds the nearest implementations. -/
  nearest : ∀ name slot fid, info.vslotOf name = some slot → info.vtable[slot]? = some fid →
    ∃ owner decl, Nearest d classes name cid owner decl ∧
      (jobs d)[fid]? = some (decl, some owner)
  base : ∀ bid, info.base = some bid → ∃ base, classes bid = some base ∧
    ExtendsFields base info ∧
    ∀ name slot, base.vslotOf name = some slot → info.vslotOf name = some slot

def AllLawful (d : Design Body) (classes : ClassId → Option ClassInfo) : Prop :=
  ∀ cid info, classes cid = some info → Lawful d classes cid info

/-- Classes are added to the table, never changed. -/
def Grows (before after : ClassId → Option ClassInfo) : Prop :=
  ∀ cid info, before cid = some info → after cid = some info

theorem Nearest.grow {after : ClassId → Option ClassInfo} (hgrow : Grows classes after)
    {name : String} {cid owner : ClassId} {decl : FuncDecl Body}
    (h : Nearest d classes name cid owner decl) : Nearest d after name cid owner decl := by
  induction h with
  | own hc himpl => exact .own hc himpl
  | inherited hc himpl hbase _ ih =>
    obtain ⟨info, hinfo, heq⟩ := hbase
    exact .inherited hc himpl ⟨info, hgrow _ _ hinfo, heq⟩ ih

theorem Lawful.grow {after : ClassId → Option ClassInfo} (hgrow : Grows classes after)
    {cid : ClassId} {info : ClassInfo} (h : Lawful d classes cid info) :
    Lawful d after cid info where
  slotted := h.slotted
  placed := h.placed
  nearest name slot fid hslot hfid := by
    obtain ⟨owner, decl, hnearest, hjob⟩ := h.nearest name slot fid hslot hfid
    exact ⟨owner, decl, hnearest.grow hgrow, hjob⟩
  base bid hbid := by
    obtain ⟨base, hbase, hext⟩ := h.base bid hbid
    exact ⟨base, hgrow _ _ hbase, hext⟩

theorem entry_spec {entry : Entry Body} (h : entry ∈ entries d) :
    d.classDecls[entry.cid]? = some entry.decl ∧
      (classFids d.classDecls d.funcs)[entry.cid]? = some entry.fids := by
  obtain ⟨⟨⟨c, f⟩, cid⟩, hmem, rfl⟩ := List.mem_map.mp h
  have hzip := List.mem_zipIdx_iff_getElem?.mp hmem
  exact List.getElem?_zip_eq_some.mp hzip

theorem grows_build {state : Building} {entry : Entry Body} (baseId : Option ClassId)
    (hnone : state.built entry.cid = none) :
    Grows state.built (build d state entry baseId).built := by
  intro cid info hinfo
  have hne : cid ≠ entry.cid := by
    rintro rfl
    rw [hnone] at hinfo
    cases hinfo
  exact (if_neg hne).trans hinfo

theorem lawful_base {built : ClassId → Option ClassInfo} (h : AllLawful d built)
    {baseId : Option ClassId}
    (hbase : ∀ bid, baseId = some bid → ∃ base, built bid = some base) :
    Slotted ((baseId.bind built).getD .empty) ∧
      FieldsPlaced ((baseId.bind built).getD .empty) := by
  cases baseId with
  | none =>
    refine ⟨⟨fun _ _ hs => ?_, fun _ _ _ hs => ?_⟩, fun _ _ _ hs => ?_⟩ <;> cases hs
  | some bid =>
    obtain ⟨base, hbuilt⟩ := hbase bid rfl
    rw [Option.bind_some, hbuilt]
    exact ⟨(h bid base hbuilt).slotted, (h bid base hbuilt).placed⟩

/-- A class built on a base that is built keeps all classes lawful. -/
theorem lawful_build {state : Building} (h : AllLawful d state.built) {entry : Entry Body}
    (hentry : entry ∈ entries d) (hnone : state.built entry.cid = none) (baseId : Option ClassId)
    (hbase : ∀ bid, baseId = some bid → ∃ base, state.built bid = some base) :
    AllLawful d (build d state entry baseId).built := by
  have hgrow := grows_build (d := d) baseId hnone
  obtain ⟨hc, hf⟩ := entry_spec hentry
  have hnumbered := numbered_classFids hc hf
  intro cid info hinfo
  by_cases hcid : cid = entry.cid
  · subst hcid
    have hmade := Option.some.inj ((if_pos rfl).symm.trans hinfo)
    obtain ⟨hslots, hfields⟩ := lawful_base h hbase
    obtain ⟨hderives, hbaseId⟩ := derives_buildClassInfo (classIds d.classDecls) d.consts
      entry.decl baseId entry.fids state.storage hslots hfields
    rw [hmade] at hderives hbaseId
    refine ⟨hderives.methods.slotted, hderives.placed, fun name slot fid hslot hfid => ?_,
      fun bid hbid => ?_⟩
    · have hentry : tableEntry info name = some fid := by rw [tableEntry, hslot]; exact hfid
      rw [hderives.methods.entry name slot hslot] at hentry
      cases hlast : lastNamed MethodFid.name entry.fids.methodFids name with
      | some m =>
        rw [hlast] at hentry
        cases hentry
        obtain ⟨decl, himpl, hjob⟩ := hnumbered.found name m hlast
        exact ⟨entry.cid, decl, .own hc himpl, hjob⟩
      | none =>
        rw [hlast] at hentry
        have hold := hderives.methods.fresh name slot hslot hlast
        rcases Option.eq_none_or_eq_some baseId with hb | ⟨bid, hb⟩
        · rw [hb] at hold
          cases hold
        · obtain ⟨base, hbuilt⟩ := hbase bid hb
          simp only [hb, Option.bind_some, hbuilt, Option.getD_some] at hentry hold
          rw [Option.map_none, Option.none_or, tableEntry, hold] at hentry
          obtain ⟨owner, decl, hnearest, hjob⟩ :=
            (h bid base hbuilt).nearest name slot fid hold hentry
          exact ⟨owner, decl, .inherited hc (hnumbered.absent name hlast)
            ⟨info, hinfo, hbaseId.trans hb⟩ (hnearest.grow hgrow), hjob⟩
    · have hb : baseId = some bid := hbaseId.symm.trans hbid
      obtain ⟨base, hbuilt⟩ := hbase bid hb
      simp only [hb, Option.bind_some, hbuilt, Option.getD_some] at hderives
      exact ⟨base, hgrow bid base hbuilt, hderives.fields, hderives.methods.keeps⟩
  · exact (h cid info ((if_neg hcid).symm.trans hinfo)).grow hgrow

/-! ### All classes -/

/-- Every class that is built is lawful, in any order of declarations. -/
theorem lawful_classInfos (d : Design Body) : AllLawful d (classInfos d) := by
  have hkept : Kept d fun built _ => AllLawful d built := by
    refine ⟨fun _ _ h => ?_, fun _ _ baseId hentry hnone hbase h => ?_⟩
    · cases h
    · exact lawful_build h hentry hnone baseId hbase
  exact hkept.elaborated

/-! ### Every class is built -/

theorem grows_visit (state : Building) (entry : Entry Body) :
    Grows state.built (visit d state entry).built := by
  unfold visit
  by_cases hdone : (state.built entry.cid).isSome = true
  · rw [if_pos hdone]
    exact fun _ _ h => h
  · have hnone : state.built entry.cid = none := by simpa using hdone
    rw [if_neg hdone]
    cases baseIdOf d entry.decl entry.cid with
    | none => exact grows_build none hnone
    | some bid =>
      by_cases hwait : (state.built bid).isNone = true
      · simp only [if_pos hwait]
        exact fun _ _ h => h
      · simp only [if_neg hwait]
        exact grows_build (some bid) hnone

/-- A visit that makes progress builds its class. -/
theorem progress_visit (state : Building) (entry : Entry Body) :
    visit d state entry = state ∨ (visit d state entry).progress = true ∧
      state.built entry.cid = none ∧ ((visit d state entry).built entry.cid).isSome = true := by
  unfold visit
  by_cases hdone : (state.built entry.cid).isSome = true
  · exact .inl (if_pos hdone)
  · have hnone : state.built entry.cid = none := by simpa using hdone
    rw [if_neg hdone]
    cases baseIdOf d entry.decl entry.cid with
    | none => exact .inr ⟨rfl, hnone, by simp [build]⟩
    | some bid =>
      by_cases hwait : (state.built bid).isNone = true
      · exact .inl (by simp only [if_pos hwait])
      · simp only [if_neg hwait]
        exact .inr ⟨rfl, hnone, by simp [build]⟩

/-- The classes still to be built. -/
def waiting (d : Design Body) (state : Building) : Finset ClassId :=
  (Finset.range d.classDecls.length).filter fun cid => (state.built cid).isNone

/-- A sweep without progress changes nothing; one with progress leaves fewer classes waiting. -/
theorem waiting_sweep (d : Design Body) (state : Building) :
    sweep d state = { state with progress := false } ∨
      (sweep d state).progress = true ∧
        (waiting d (sweep d state)).card < (waiting d state).card := by
  have hrun := foldl_invariant (visit d)
    (fun _ next => Grows state.built next.built ∧ (next = { state with progress := false } ∨
      next.progress = true ∧ ∃ cid ∈ waiting d state, (next.built cid).isSome = true))
    (entries d) { state with progress := false } ⟨fun _ _ h => h, .inl rfl⟩ ?_
  · obtain ⟨hgrow, hsame | ⟨hprogress, cid, hcid, hsome⟩⟩ := hrun
    · exact .inl hsame
    · refine .inr ⟨hprogress, Finset.card_lt_card
        (Finset.ssubset_iff_subset_ne.mpr ⟨fun other hother => ?_, ?_⟩)⟩
      · rw [waiting, Finset.mem_filter] at hother ⊢
        refine ⟨hother.1, ?_⟩
        cases hbuilt : state.built other with
        | none => rfl
        | some info => exact absurd hother.2 (by simp [sweep, hgrow other info hbuilt])
      · rintro heq
        rw [← heq, waiting, Finset.mem_filter] at hcid
        have hnone := hcid.2
        rw [Option.isNone_iff_eq_none] at hnone
        exact absurd hsome (by rw [← sweep, hnone]; simp)
  · rintro done entry rest next hall ⟨hgrow, hnext⟩
    have hgrow' : Grows state.built (visit d next entry).built :=
      fun cid info h => grows_visit next entry cid info (hgrow cid info h)
    refine ⟨hgrow', ?_⟩
    rcases progress_visit (d := d) next entry with hsame | ⟨hprogress, hnone, hsome⟩
    · exact hsame.symm ▸ hnext
    · refine .inr ⟨hprogress, entry.cid, ?_, hsome⟩
      have hmem : entry ∈ entries d := hall ▸ List.mem_append_right _ List.mem_cons_self
      have hlt := (List.getElem?_eq_some_iff.mp (entry_spec hmem).1).1
      rw [waiting, Finset.mem_filter, Finset.mem_range, Option.isNone_iff_eq_none]
      refine ⟨hlt, ?_⟩
      cases hbuilt : state.built entry.cid with
      | none => rfl
      | some info =>
        rw [hgrow entry.cid info hbuilt] at hnone
        cases hnone

/-- With a sweep for each waiting class and one more, the last sweep makes no progress. -/
theorem sweeps_settled_of_lt (fuel : Nat) : ∀ {state : Building}, (waiting d state).card < fuel →
    sweep d (sweeps d fuel state) = { sweeps d fuel state with progress := false } := by
  induction fuel with
  | zero => exact fun h => absurd h (Nat.not_lt_zero _)
  | succ fuel ih =>
    intro state hfuel
    rw [sweeps]
    rcases waiting_sweep d state with hsame | ⟨hprogress, hless⟩
    · have hstop : ¬ (sweep d state).progress = true := by simp [hsame]
      simp only [if_neg hstop]
      rw [hsame]
      exact hsame
    · simp only [if_pos hprogress]
      exact ih (by omega)

/-- The loop over the classes ends by itself. -/
theorem sweeps_settled (d : Design Body) :
    (sweep d (sweeps d (d.classDecls.length + 1) (initial d))).progress = false := by
  rw [sweeps_settled_of_lt]
  refine Nat.lt_succ_of_le ((Finset.card_filter_le _ _).trans ?_)
  rw [Finset.card_range]

/-- Every declared class has a layout. -/
theorem classInfos_built (d : Design Body) {cid : ClassId} (h : cid < d.classDecls.length) :
    ∃ info, classInfos d cid = some info := by
  obtain ⟨entry, hentry, rfl⟩ : ∃ entry ∈ entries d, entry.cid = cid := by
    have hlt : cid < (classFids d.classDecls d.funcs).length := by
      rw [length_classFids]
      exact h
    have hc := List.getElem?_eq_getElem h
    have hf := List.getElem?_eq_getElem hlt
    have hzip : (d.classDecls.zip (classFids d.classDecls d.funcs))[cid]? =
        some (d.classDecls[cid], (classFids d.classDecls d.funcs)[cid]) :=
      List.getElem?_zip_eq_some.mpr ⟨hc, hf⟩
    have hmem : ((d.classDecls[cid], (classFids d.classDecls d.funcs)[cid]), cid) ∈
        (d.classDecls.zip (classFids d.classDecls d.funcs)).zipIdx :=
      List.mem_zipIdx_iff_getElem?.mpr hzip
    exact ⟨_, List.mem_map_of_mem hmem, rfl⟩
  refine Option.isSome_iff_exists.mp (foldl_absorb (visitLeftover d) (fun _ _ => True)
    (fun state => (state.built entry.cid).isSome = true) (entries d) _ hentry trivial
    (fun _ _ _ _ _ _ => trivial) (fun _ _ state _ _ => ?_) fun _ other _ state _ _ _ hsome => ?_)
  · unfold visitLeftover
    by_cases hdone : (state.built entry.cid).isSome = true
    · rw [if_pos hdone]
      exact hdone
    · rw [if_neg hdone]
      simp [build]
  · unfold visitLeftover
    by_cases hdone : (state.built other.cid).isSome = true
    · rw [if_pos hdone]
      exact hsome
    · rw [if_neg hdone]
      obtain ⟨info, hinfo⟩ := Option.isSome_iff_exists.mp hsome
      have hnone : state.built other.cid = none := by simpa using hdone
      rw [grows_build (d := d) none hnone _ _ hinfo]
      rfl

/-- A class's layout extends that of every ancestor. -/
theorem extends_of_ancestor (h : AllLawful d classes) {cid ancestor : ClassId}
    (hchain : Ancestor classes cid ancestor) {info base : ClassInfo}
    (hinfo : classes cid = some info) (hbase : classes ancestor = some base) :
    ExtendsFields base info ∧
      ∀ name slot, base.vslotOf name = some slot → info.vslotOf name = some slot := by
  induction hchain generalizing base with
  | refl =>
    cases hinfo.symm.trans hbase
    exact ⟨.refl _, fun _ _ hs => hs⟩
  | tail _ hstep ih =>
    obtain ⟨mid, hmid, hup⟩ := hstep
    obtain ⟨base', hbase', hext, hslots⟩ := (h _ mid hmid).base _ hup
    cases hbase.symm.trans hbase'
    obtain ⟨hext', hslots'⟩ := ih hmid
    exact ⟨hext.trans hext', fun name slot hs => hslots' name slot (hslots name slot hs)⟩

/-- An object of a class runs, through any slot of any ancestor, the implementation nearest to its
own class, and has the ancestor's fields at the ancestor's places. -/
theorem dynamic_dispatch (d : Design Body) {cid ancestor : ClassId} {info base : ClassInfo}
    (hinfo : classInfos d cid = some info) (hbase : classInfos d ancestor = some base)
    (hchain : Ancestor (classInfos d) cid ancestor) :
    (∀ name slot, base.vslotOf name = some slot →
      slot < info.vtable.length ∧ info.vslotOf name = some slot ∧
        ∃ fid owner decl, callVirtual (classInfos d) cid slot = some fid ∧
          Nearest d (classInfos d) name cid owner decl ∧
          (jobs d)[fid]? = some (decl, some owner)) ∧
      FieldsPlaced base ∧ ExtendsFields base info := by
  have hall := lawful_classInfos d
  have hlawful := hall cid info hinfo
  obtain ⟨hext, hslots⟩ := extends_of_ancestor hall hchain hinfo hbase
  refine ⟨fun name slot hs => ?_, (hall ancestor base hbase).placed, hext⟩
  have hslot := hslots name slot hs
  obtain ⟨fid, hfid, -⟩ := hlawful.slotted.entry_isSome hslot
  obtain ⟨owner, decl, hnearest, hjob⟩ := hlawful.nearest name slot fid hslot hfid
  refine ⟨hlawful.slotted.lt name slot hslot, hslot, fid, owner, decl, ?_, hnearest, hjob⟩
  rw [callVirtual, hinfo]
  exact hfid

def sampleMethod (name : String) (isVirtual : Bool) (body : Nat) : FuncDecl Nat :=
  ⟨name, 1, false, false, none, none, false, isVirtual, body⟩

def sampleClass (name : String) (base : Option String) (methods : List (FuncDecl Nat)) :
    ClassDecl Nat :=
  ⟨name, base, [⟨"tag", 8, false, none, false, false, none, none, false, none⟩], methods, none, [],
    [], [], false⟩

/-- Three generations, the youngest declared first; the middle one overrides without `virtual`. -/
def generations : Design Nat where
  classDecls :=
    [sampleClass "Child" (some "Parent") [], sampleClass "Parent" (some "Root")
      [sampleMethod "run" false 1], sampleClass "Root" none [sampleMethod "run" true 0]]
  funcs := []
  consts := fun _ => none
  storage := ⟨[], 1⟩

theorem dynamic_dispatch_generations :
    ∃ fid owner decl, callVirtual (classInfos generations) 0 0 = some fid ∧
      Nearest generations (classInfos generations) "run" 0 owner decl ∧
      (jobs generations)[fid]? = some (decl, some owner) := by
  obtain ⟨child, hchild⟩ := classInfos_built generations (show 0 < 3 by decide)
  obtain ⟨parent, hparent⟩ := classInfos_built generations (show 1 < 3 by decide)
  obtain ⟨root, hroot⟩ := classInfos_built generations (show 2 < 3 by decide)
  have hslot : (classInfos generations 2).bind (fun info => info.vslotOf "run") = some 0 := by
    decide
  have hup : (classInfos generations 0).bind (fun info => info.base) = some 1 := by decide
  have hup' : (classInfos generations 1).bind (fun info => info.base) = some 2 := by decide
  rw [hroot] at hslot
  rw [hchild] at hup
  rw [hparent] at hup'
  have hchain : Ancestor (classInfos generations) 0 2 :=
    .tail (.single ⟨child, hchild, hup⟩) ⟨parent, hparent, hup'⟩
  obtain ⟨-, -, hcall⟩ := (dynamic_dispatch generations hchild hroot hchain).1 "run" 0 hslot
  exact hcall

end Eevee.Classes.Dispatch
