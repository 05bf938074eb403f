/- Every operation on four-state vectors yields a canonical vector, and what it yields bit by
bit. -/

import Mathlib.Data.List.Basic
import Mathlib.Data.List.Count
import Mathlib.Tactic.Common
import Mathlib.Tactic.SplitIfs
import Eevee.Core.Alu

set_option autoImplicit false
set_option relaxedAutoImplicit false

namespace Eevee.Core.Canonical

open Eevee.Core.Alu
open Eevee.Core.Logic
open Eevee.Core.Logic.LogicVec

/-! ### Planes -/

theorem getBit_planes {v : LogicVec} (hv : Canonical v) (i : Nat) :
    v.getBit i = Bit.ofPlaneBits (v.repr.aBit i) (v.repr.bBit i) := by
  rw [LogicVec.getBit_eq]
  split_ifs with hi
  · rfl
  · obtain ⟨ha, hb⟩ := hv.high i (Nat.le_of_not_lt hi)
    rw [ha, hb]
    rfl

theorem getLsbD_limbAval {v : LogicVec} (i : Nat) :
    (limbAval v (i / 64)).getLsbD (i % 64) = v.repr.aBit i := by
  unfold limbAval
  cases v.repr with
  | small aval bval =>
    by_cases hi : i < 64
    · have hd : i / 64 = 0 := by omega
      have hm : i % 64 = i := by omega
      simp [hd, hm, LogicRepr.aBit]
    · have hd : i / 64 ≠ 0 := by omega
      simp [hd, LogicRepr.aBit, BitVec.getLsbD_of_ge _ _ (Nat.le_of_not_lt hi)]
  | wide aval bval => rfl

theorem getLsbD_limbBval {v : LogicVec} (i : Nat) :
    (limbBval v (i / 64)).getLsbD (i % 64) = v.repr.bBit i := by
  unfold limbBval
  cases v.repr with
  | small aval bval =>
    by_cases hi : i < 64
    · have hd : i / 64 = 0 := by omega
      have hm : i % 64 = i := by omega
      simp [hd, hm, LogicRepr.bBit]
    · have hd : i / 64 ≠ 0 := by omega
      simp [hd, LogicRepr.bBit, BitVec.getLsbD_of_ge _ _ (Nat.le_of_not_lt hi)]
  | wide aval bval => rfl

/-- Inline words cut to the width. -/
theorem canonical_small {width : Nat} (hw : width ≤ 64) (a b : BitVec 64) :
    Canonical (planesSmall a b width) := by
  refine ⟨hw, fun i hi => ?_⟩
  have hi' : ¬ i < width := Nat.not_lt.mpr hi
  simp [planesSmall, LogicRepr.aBit, LogicRepr.bBit, getLsbD_wordMask, hi']

theorem planes_small {width i : Nat} (a b : BitVec 64) (hw : width ≤ 64) :
    (planesSmall a b width).repr.aBit i = (decide (i < width) && a.getLsbD i) ∧
      (planesSmall a b width).repr.bBit i = (decide (i < width) && b.getLsbD i) := by
  by_cases hi : i < width
  · have hi' : i < 64 := Nat.lt_of_lt_of_le hi hw
    simp [planesSmall, LogicRepr.aBit, LogicRepr.bBit, getLsbD_wordMask, hi, hi']
  · simp [planesSmall, LogicRepr.aBit, LogicRepr.bBit, getLsbD_wordMask, hi]

/-- Limbs of the right number, with the top limb masked. -/
theorem canonical_wide {width : Nat} (hw : 64 < width) {a b : List (BitVec 64)}
    (ha : a.length = limbsFor width) (hb : b.length = limbsFor width) :
    Canonical (normalizeTop ⟨width, .wide a b⟩) := by
  refine ⟨⟨hw, ?_, ?_⟩, fun i hi => ?_⟩
  · exact (length_maskTop _ _).trans ha
  · exact (length_maskTop _ _).trans hb
  · have hi' : ¬ i < width := Nat.not_lt.mpr hi
    simp [normalizeTop, LogicRepr.aBit, LogicRepr.bBit, limbBit_maskTop _ _ ha,
      limbBit_maskTop _ _ hb, hi']

theorem planes_wide {width i : Nat} {a b : List (BitVec 64)} (ha : a.length = limbsFor width)
    (hb : b.length = limbsFor width) :
    (normalizeTop ⟨width, .wide a b⟩).repr.aBit i = (decide (i < width) && limbBit a i) ∧
      (normalizeTop ⟨width, .wide a b⟩).repr.bBit i = (decide (i < width) && limbBit b i) :=
  ⟨limbBit_maskTop _ _ ha i, limbBit_maskTop _ _ hb i⟩

/-- Limb `i / 64` of an array computed limb by limb. -/
theorem limbBit_map_range (f : Nat → BitVec 64) {width i : Nat} (hi : i < width) :
    limbBit ((List.range (limbsFor width)).map f) i = (f (i / 64)).getLsbD (i % 64) := by
  have hk := limbsFor_spec width i hi
  simp [limbBit, List.getD_eq_getElem?_getD, hk]

/-! ### Constructors -/

theorem canonical_ones (width : Nat) : Canonical (ones width) :=
  canonical_fillPlanes (canonical_zero width) _ _

theorem canonical_x (width : Nat) : Canonical (x width) :=
  canonical_fillPlanes (canonical_zero width) _ _

theorem canonical_z (width : Nat) : Canonical (z width) :=
  canonical_fillPlanes (canonical_zero width) _ _

@[simp] theorem width_ones (width : Nat) : (ones width).width = width := by
  simp [ones]

@[simp] theorem width_x (width : Nat) : (x width).width = width := by
  simp [x]

@[simp] theorem width_z (width : Nat) : (z width).width = width := by
  simp [z]

theorem getBit_ones (width i : Nat) :
    (ones width).getBit i = if i < width then .one else .zero := by
  simp [ones, getBit_fillPlanes (canonical_zero width), Bit.ofPlaneBits]

theorem getBit_x (width i : Nat) : (x width).getBit i = if i < width then .x else .zero := by
  simp [x, getBit_fillPlanes (canonical_zero width), Bit.ofPlaneBits]

theorem getBit_z (width i : Nat) : (z width).getBit i = if i < width then .z else .zero := by
  simp [z, getBit_fillPlanes (canonical_zero width), Bit.ofPlaneBits]

@[simp] theorem width_fromU64 (val : BitVec 64) (width : Nat) :
    (fromU64 val width).width = width := by
  unfold fromU64
  split_ifs <;> rfl

private theorem limbBit_set_zero {limbs : List (BitVec 64)} (hl : 0 < limbs.length)
    (val : BitVec 64) (i : Nat) :
    limbBit (limbs.set 0 val) i = if i < 64 then val.getLsbD i else limbBit limbs i := by
  unfold limbBit
  simp only [List.getD_eq_getElem?_getD, List.getElem?_set]
  by_cases hi : i < 64
  · have hd : i / 64 = 0 := by omega
    have hm : i % 64 = i := by omega
    simp [hd, hm, hl, hi]
  · have hd : 0 ≠ i / 64 := by omega
    simp [hd, hi]

private theorem limbsFor_pos {width : Nat} (hw : 64 < width) : 1 < limbsFor width := by
  unfold limbsFor
  omega

theorem canonical_fromU64 (val : BitVec 64) (width : Nat) : Canonical (fromU64 val width) := by
  unfold fromU64
  split_ifs with hw
  · refine ⟨hw, fun i hi => ?_⟩
    have hi' : ¬ i < width := Nat.not_lt.mpr hi
    simp [LogicRepr.aBit, LogicRepr.bBit, getLsbD_wordMask, hi']
  · have hw' := Nat.lt_of_not_le hw
    have hpos := limbsFor_pos hw'
    refine ⟨⟨hw', by simp, by simp⟩, fun i hi => ⟨?_, limbBit_replicate _ _⟩⟩
    have hge : width ≤ i := hi
    have hi' : ¬ i < 64 := by omega
    show limbBit _ i = false
    rw [limbBit_set_zero (by simp; omega), if_neg hi', limbBit_replicate]

theorem planes_fromU64 (val : BitVec 64) {width i : Nat} (hi : i < width) :
    (fromU64 val width).repr.aBit i = val.getLsbD i ∧ (fromU64 val width).repr.bBit i = false := by
  unfold fromU64
  split_ifs with hw
  · have hi' : i < 64 := Nat.lt_of_lt_of_le hi hw
    simp [LogicRepr.aBit, LogicRepr.bBit, getLsbD_wordMask, hi, hi']
  · have hpos := limbsFor_pos (Nat.lt_of_not_le hw)
    refine ⟨?_, limbBit_replicate _ _⟩
    show limbBit _ i = _
    rw [limbBit_set_zero (by simp; omega), limbBit_replicate]
    split_ifs with h64
    · rfl
    · exact (BitVec.getLsbD_of_ge _ _ (Nat.le_of_not_lt h64)).symm

theorem getBit_fromU64 (val : BitVec 64) {width i : Nat} (hi : i < width) :
    (fromU64 val width).getBit i = ofBool (val.getLsbD i) := by
  obtain ⟨ha, hb⟩ := planes_fromU64 val hi
  rw [getBit_planes (canonical_fromU64 _ _), ha, hb]
  cases val.getLsbD i <;> rfl

theorem canonical_fromI64 (val : BitVec 64) (width : Nat) : Canonical (fromI64 val width) := by
  unfold fromI64
  by_cases hw : width ≤ 64
  · rw [if_pos hw]
    refine ⟨hw, fun i hi => ?_⟩
    have hi' : ¬ i < width := Nat.not_lt.mpr hi
    simp [LogicRepr.aBit, LogicRepr.bBit, getLsbD_wordMask, hi']
  · rw [if_neg hw]
    exact canonical_wide (Nat.lt_of_not_le hw) (by simp) (by simp)

theorem canonical_fromPlanesSmall {a b : BitVec 64} {width : Nat} {v : LogicVec}
    (h : fromPlanesSmall a b width = some v) : Canonical v := by
  unfold fromPlanesSmall at h
  split_ifs at h with hw
  obtain rfl := Option.some.inj h
  exact canonical_small hw.2 a b

theorem canonical_fromBitsMsbFirst (bits : List Bit) : Canonical (fromBitsMsbFirst bits) :=
  canonical_writeBits (canonical_zero _) _ _ _

theorem canonical_fromBit (b : Bit) : Canonical (fromBit b) := by
  cases b <;> first | exact canonical_fromU64 _ _ | exact canonical_x _

@[simp] theorem width_fromBit (b : Bit) : (fromBit b).width = 1 := by
  cases b <;> simp [fromBit]

theorem getBit_fromBit_zero (b : Bit) :
    (fromBit b).getBit 0 = if b = .z then .x else b := by
  cases b <;> simp [fromBit, getBit_fromU64, getBit_x, ofBool]

theorem canonical_filled (b : Bit) (width : Nat) : Canonical (filled b width) := by
  cases b
  · exact canonical_zero width
  · exact canonical_ones width
  · exact canonical_x width
  · exact canonical_z width

@[simp] theorem width_filled (b : Bit) (width : Nat) : (filled b width).width = width := by
  cases b <;> simp [filled]

theorem getBit_filled (b : Bit) (width i : Nat) :
    (filled b width).getBit i = if i < width then b else .zero := by
  cases b <;> simp [filled, getBit_ones, getBit_x, getBit_z]

/-! ### Literals -/

private theorem canonical_writeDigit {bitsPer : Nat} {s s' : LogicVec × Nat} {c : Char}
    (hs : Canonical s.1) (h : writeDigit bitsPer s c = some s') : Canonical s'.1 := by
  unfold writeDigit at h
  generalize List.range bitsPer = ks at h
  induction ks generalizing s with
  | nil =>
    obtain rfl := Option.some.inj h
    exact hs
  | cons k ks ih =>
    rw [List.foldlM_cons] at h
    obtain ⟨t, ht, h⟩ := Option.bind_eq_some_iff.mp h
    refine ih ?_ h
    split_ifs at ht
    · obtain rfl := Option.some.inj ht
      exact hs
    · obtain ⟨b, -, rfl⟩ := Option.map_eq_some_iff.mp ht
      exact canonical_setBit hs _ _

private theorem canonical_parseDigits {width : Nat} {base : Char} {digits : List Char}
    {v : LogicVec} (h : parseDigits width base digits = some v) : Canonical v := by
  unfold parseDigits at h
  split_ifs at h with hd
  · obtain ⟨val, -, rfl⟩ := Option.map_eq_some_iff.mp h
    exact canonical_fromU64 _ _
  · obtain ⟨bitsPer, -, h⟩ := Option.bind_eq_some_iff.mp h
    obtain ⟨s, hs, rfl⟩ := Option.map_eq_some_iff.mp h
    have go : ∀ (cs : List Char) (t : LogicVec × Nat), Canonical t.1 →
        cs.foldlM (writeDigit bitsPer) t = some s → Canonical s.1 := by
      intro cs
      induction cs with
      | nil =>
        intro t ht hs
        obtain rfl := Option.some.inj hs
        exact ht
      | cons c cs ih =>
        intro t ht hs
        rw [List.foldlM_cons] at hs
        obtain ⟨t', ht', hs⟩ := Option.bind_eq_some_iff.mp hs
        exact ih t' (canonical_writeDigit ht ht') hs
    exact go _ _ (canonical_zero width) hs

theorem canonical_parseSized {s : List Char} {v : LogicVec} (h : parseSized s = some v) :
    Canonical v := by
  unfold parseSized at h
  split at h
  · cases h
  · split at h
    · split_ifs at h
      · split at h
        · cases h
        · exact canonical_parseDigits h
      · exact canonical_parseDigits h
    · cases h

/-! ### Knownness and truth -/

theorem word_eq_zero_iff (a : BitVec 64) : a = 0 ↔ ∀ i, a.getLsbD i = false := by
  constructor
  · rintro rfl i
    simp
  · intro h
    apply BitVec.eq_of_getLsbD_eq
    intro i hi
    simpa using h i

theorem limbs_eq_zero_iff (limbs : List (BitVec 64)) :
    (∀ w ∈ limbs, w = 0) ↔ ∀ i, limbBit limbs i = false := by
  constructor
  · intro h i
    unfold limbBit
    rw [List.getD_eq_getElem?_getD]
    cases hk : limbs[i / 64]? with
    | none => simp
    | some w => simp [h w (List.mem_of_getElem? hk)]
  · intro h w hw
    obtain ⟨k, hk, rfl⟩ := List.getElem_of_mem hw
    apply (word_eq_zero_iff _).mpr
    intro i
    by_cases hi : i < 64
    · have hbit := h (64 * k + i)
      have hd : (64 * k + i) / 64 = k := by omega
      have hm : (64 * k + i) % 64 = i := by omega
      simpa [limbBit, hd, hm, List.getD_eq_getElem?_getD, List.getElem?_eq_getElem hk] using hbit
    · exact BitVec.getLsbD_of_ge _ _ (Nat.le_of_not_lt hi)

theorem isKnown_iff_planes (v : LogicVec) :
    v.isKnown = true ↔ ∀ i, v.repr.bBit i = false := by
  unfold LogicVec.isKnown
  cases v.repr with
  | small a b =>
    rw [beq_iff_eq]
    exact word_eq_zero_iff b
  | wide a b =>
    simp only [List.all_eq_true, beq_iff_eq]
    exact limbs_eq_zero_iff b

theorem isUnknown_ofPlaneBits (a b : Bool) : (Bit.ofPlaneBits a b).isUnknown = b := by
  cases a <;> cases b <;> rfl

/-- `is_known` says that no bit is X or Z. -/
theorem isKnown_iff {v : LogicVec} (hv : Canonical v) :
    v.isKnown = true ↔ ∀ i < v.width, (v.getBit i).isUnknown = false := by
  rw [isKnown_iff_planes]
  constructor
  · intro h i _
    rw [getBit_planes hv, isUnknown_ofPlaneBits, h i]
  · intro h i
    by_cases hi : i < v.width
    · have hb := h i hi
      rwa [getBit_planes hv, isUnknown_ofPlaneBits] at hb
    · exact (hv.high i (Nat.le_of_not_lt hi)).2

theorem ofPlaneBits_eq_one (a b : Bool) : Bit.ofPlaneBits a b = .one ↔ (a && !b) = true := by
  cases a <;> cases b <;> simp [Bit.ofPlaneBits]

theorem word_ne_zero_iff (a b : BitVec 64) :
    (a &&& ~~~b) ≠ 0 ↔ ∃ i, (a.getLsbD i && !b.getLsbD i) = true := by
  rw [Ne, word_eq_zero_iff, not_forall]
  refine exists_congr fun i => ?_
  by_cases hi : i < 64
  · simp [hi]
  · simp [BitVec.getLsbD_of_ge _ _ (Nat.le_of_not_lt hi)]

theorem isTrue_iff_planes {v : LogicVec} (hv : Canonical v) :
    v.isTrue = true ↔ ∃ i, (v.repr.aBit i && !v.repr.bBit i) = true := by
  have hs := hv.storage
  unfold LogicVec.isTrue
  cases hr : v.repr with
  | small a b =>
    rw [bne_iff_ne]
    exact word_ne_zero_iff a b
  | wide a b =>
    rw [hr] at hs
    have hlen : a.length = b.length := hs.2.1.trans hs.2.2.symm
    rw [List.any_eq_true]
    constructor
    · rintro ⟨p, hp, hne⟩
      obtain ⟨k, hk, rfl⟩ := List.getElem_of_mem hp
      rw [List.getElem_zip, bne_iff_ne] at hne
      obtain ⟨i, hi⟩ := (word_ne_zero_iff _ _).mp hne
      rw [List.length_zip] at hk
      have ha : k < a.length := Nat.lt_of_lt_of_le hk (Nat.min_le_left _ _)
      have hb : k < b.length := Nat.lt_of_lt_of_le hk (Nat.min_le_right _ _)
      have hi64 : i < 64 := by
        by_contra hge
        simp [BitVec.getLsbD_of_ge _ _ (Nat.le_of_not_lt hge)] at hi
      have hd : (64 * k + i) / 64 = k := by omega
      have hm : (64 * k + i) % 64 = i := by omega
      refine ⟨64 * k + i, ?_⟩
      simpa [LogicRepr.aBit, LogicRepr.bBit, limbBit, hd, hm, List.getD_eq_getElem?_getD,
        List.getElem?_eq_getElem ha, List.getElem?_eq_getElem hb] using hi
    · rintro ⟨i, hi⟩
      have hk : i / 64 < a.length := by
        by_contra hge
        have hz : limbBit a i = false := by
          simp [limbBit, List.getD_eq_getElem?_getD, List.getElem?_eq_none (Nat.le_of_not_lt hge)]
        simp [LogicRepr.aBit, hz] at hi
      have hz : i / 64 < (a.zip b).length := by
        rw [List.length_zip, hlen, Nat.min_self]
        exact hlen ▸ hk
      refine ⟨(a.zip b)[i / 64], List.getElem_mem hz, ?_⟩
      rw [List.getElem_zip, bne_iff_ne, word_ne_zero_iff]
      refine ⟨i % 64, ?_⟩
      simpa [LogicRepr.aBit, LogicRepr.bBit, limbBit, List.getD_eq_getElem?_getD,
        List.getElem?_eq_getElem hk, List.getElem?_eq_getElem (hlen ▸ hk : i / 64 < b.length)]
        using hi

/-- `is_true` says that some bit is a known 1. -/
theorem isTrue_iff {v : LogicVec} (hv : Canonical v) :
    v.isTrue = true ↔ ∃ i < v.width, v.getBit i = .one := by
  rw [isTrue_iff_planes hv]
  constructor
  · rintro ⟨i, hi⟩
    rw [← ofPlaneBits_eq_one, ← getBit_planes hv] at hi
    refine ⟨i, ?_, hi⟩
    by_contra hge
    rw [v.getBit_of_ge (Nat.le_of_not_lt hge)] at hi
    cases hi
  · rintro ⟨i, -, hi⟩
    refine ⟨i, ?_⟩
    rwa [getBit_planes hv, ofPlaneBits_eq_one] at hi

/-! ### Word-parallel operations -/

@[simp] theorem width_mapWord (f : BitVec 64 → BitVec 64 → BitVec 64 × BitVec 64) (v : LogicVec) :
    (mapWord f v).width = v.width := by
  unfold mapWord
  split <;> rfl

theorem canonical_mapWord (f : BitVec 64 → BitVec 64 → BitVec 64 × BitVec 64) {v : LogicVec}
    (hv : Canonical v) : Canonical (mapWord f v) := by
  have hs := hv.storage
  unfold mapWord
  cases hr : v.repr with
  | small a b =>
    rw [hr] at hs
    exact canonical_small hs _ _
  | wide a b =>
    rw [hr] at hs
    exact canonical_wide hs.1 (by simp [hs.2.1]) (by simp [hs.2.1])

/-- A word function that works bit by bit. -/
def Bitwise (f : BitVec 64 → BitVec 64 → BitVec 64 × BitVec 64)
    (g : Bool → Bool → Bool × Bool) : Prop :=
  ∀ a b i, i < 64 → ((f a b).1.getLsbD i, (f a b).2.getLsbD i) = g (a.getLsbD i) (b.getLsbD i)

theorem getBit_mapWord {f : BitVec 64 → BitVec 64 → BitVec 64 × BitVec 64}
    {g : Bool → Bool → Bool × Bool} (hf : Bitwise f g) {v : LogicVec} (hv : Canonical v) {i : Nat}
    (hi : i < v.width) : (mapWord f v).getBit i =
      Bit.ofPlaneBits (g (v.repr.aBit i) (v.repr.bBit i)).1
        (g (v.repr.aBit i) (v.repr.bBit i)).2 := by
  rw [getBit_planes (canonical_mapWord f hv)]
  have hs := hv.storage
  unfold mapWord
  cases hr : v.repr with
  | small a b =>
    rw [hr] at hs
    have hi64 : i < 64 := Nat.lt_of_lt_of_le hi hs
    obtain ⟨ha, hb⟩ := @planes_small v.width i (f a b).1 (f a b).2 hs
    have hg := hf a b i hi64
    simp only [hi, decide_true, Bool.true_and] at ha hb
    show Bit.ofPlaneBits ((planesSmall (f a b).1 (f a b).2 v.width).repr.aBit i)
      ((planesSmall (f a b).1 (f a b).2 v.width).repr.bBit i) = _
    rw [ha, hb]
    exact congrArg (fun p : Bool × Bool => Bit.ofPlaneBits p.1 p.2) hg
  | wide a b =>
    rw [hr] at hs
    have hm : i % 64 < 64 := Nat.mod_lt _ (by omega)
    have hg := hf (a.getD (i / 64) 0) (b.getD (i / 64) 0) (i % 64) hm
    have hlen : ((List.range a.length).map fun i => (f (a.getD i 0) (b.getD i 0)).1).length =
        limbsFor v.width := by simp [hs.2.1]
    have hlen' : ((List.range a.length).map fun i => (f (a.getD i 0) (b.getD i 0)).2).length =
        limbsFor v.width := by simp [hs.2.1]
    obtain ⟨ha, hb⟩ := @planes_wide v.width i _ _ hlen hlen'
    simp only [hi, decide_true, Bool.true_and] at ha hb
    dsimp only
    rw [ha, hb, hs.2.1, limbBit_map_range _ hi, limbBit_map_range _ hi]
    exact congrArg (fun p : Bool × Bool => Bit.ofPlaneBits p.1 p.2) hg

section Zip

variable {f : BitVec 64 → BitVec 64 → BitVec 64 → BitVec 64 → BitVec 64 × BitVec 64}
  {g : Bool → Bool → Bool → Bool → Bool × Bool} {v w : LogicVec}

@[simp] theorem width_zipWord : (zipWord f v w).width = max v.width w.width := by
  unfold zipWord
  dsimp only
  split
  · split_ifs <;> rfl
  · rfl

/-- The two forms of the result. -/
private theorem zipWord_eq (hv : Canonical v) (hw : Canonical w) :
    (∃ a b c d, v.repr = .small a b ∧ w.repr = .small c d ∧ max v.width w.width ≤ 64 ∧
        zipWord f v w = planesSmall (f a b c d).1 (f a b c d).2 (max v.width w.width)) ∨
      64 < max v.width w.width ∧ zipWord f v w = normalizeTop ⟨max v.width w.width, .wide
        ((List.range (limbsFor (max v.width w.width))).map fun i =>
          (f (limbAval v i) (limbBval v i) (limbAval w i) (limbBval w i)).1)
        ((List.range (limbsFor (max v.width w.width))).map fun i =>
          (f (limbAval v i) (limbBval v i) (limbAval w i) (limbBval w i)).2)⟩ := by
  have hsv := hv.storage
  have hsw := hw.storage
  unfold zipWord
  cases hrv : v.repr with
  | small a b =>
    rw [hrv] at hsv
    cases hrw : w.repr with
    | small c d =>
      rw [hrw] at hsw
      have hmax : max v.width w.width ≤ 64 := Nat.max_le.mpr ⟨hsv, hsw⟩
      refine Or.inl ⟨a, b, c, d, rfl, rfl, hmax, ?_⟩
      exact if_pos hmax
    | wide c d =>
      rw [hrw] at hsw
      exact Or.inr ⟨Nat.lt_of_lt_of_le hsw.1 (Nat.le_max_right _ _), rfl⟩
  | wide a b =>
    rw [hrv] at hsv
    exact Or.inr ⟨Nat.lt_of_lt_of_le hsv.1 (Nat.le_max_left _ _), rfl⟩

theorem canonical_zipWord (hv : Canonical v) (hw : Canonical w) : Canonical (zipWord f v w) := by
  rcases @zipWord_eq f v w hv hw with ⟨a, b, c, d, -, -, hmax, he⟩ | ⟨hmax, he⟩
  · rw [he]
    exact canonical_small hmax _ _
  · rw [he]
    exact canonical_wide hmax (by simp) (by simp)

theorem getBit_zipWord (hf : ∀ a b c d i, i < 64 →
      ((f a b c d).1.getLsbD i, (f a b c d).2.getLsbD i) =
        g (a.getLsbD i) (b.getLsbD i) (c.getLsbD i) (d.getLsbD i))
    (hv : Canonical v) (hw : Canonical w) {i : Nat} (hi : i < max v.width w.width) :
    (zipWord f v w).getBit i =
      Bit.ofPlaneBits (g (v.repr.aBit i) (v.repr.bBit i) (w.repr.aBit i) (w.repr.bBit i)).1
        (g (v.repr.aBit i) (v.repr.bBit i) (w.repr.aBit i) (w.repr.bBit i)).2 := by
  rw [getBit_planes (canonical_zipWord hv hw)]
  rcases @zipWord_eq f v w hv hw with ⟨a, b, c, d, hrv, hrw, hmax, he⟩ | ⟨hmax, he⟩
  · obtain ⟨ha, hb⟩ := @planes_small _ i (f a b c d).1 (f a b c d).2 hmax
    have hg := hf a b c d i (Nat.lt_of_lt_of_le hi hmax)
    simp only [hi, decide_true, Bool.true_and] at ha hb
    rw [he, ha, hb, hrv, hrw]
    exact congrArg (fun p : Bool × Bool => Bit.ofPlaneBits p.1 p.2) hg
  · have hm : i % 64 < 64 := Nat.mod_lt _ (by omega)
    have hg := hf (limbAval v (i / 64)) (limbBval v (i / 64)) (limbAval w (i / 64))
      (limbBval w (i / 64)) (i % 64) hm
    rw [getLsbD_limbAval, getLsbD_limbBval, getLsbD_limbAval, getLsbD_limbBval] at hg
    obtain ⟨ha, hb⟩ := @planes_wide (max v.width w.width) i
      ((List.range (limbsFor (max v.width w.width))).map fun i =>
        (f (limbAval v i) (limbBval v i) (limbAval w i) (limbBval w i)).1)
      ((List.range (limbsFor (max v.width w.width))).map fun i =>
        (f (limbAval v i) (limbBval v i) (limbAval w i) (limbBval w i)).2) (by simp) (by simp)
    simp only [hi, decide_true, Bool.true_and] at ha hb
    rw [he, ha, hb, limbBit_map_range _ hi, limbBit_map_range _ hi]
    exact congrArg (fun p : Bool × Bool => Bit.ofPlaneBits p.1 p.2) hg

end Zip

theorem getBit_bitnot {v : LogicVec} (hv : Canonical v) {i : Nat} (hi : i < v.width) :
    (bitnot v).getBit i = bitNot (v.getBit i) := by
  unfold bitnot
  rw [@getBit_mapWord _ (fun a b => (!a && !b, b)) (fun a b i hi => by simp [hi]) v hv i hi,
    getBit_planes hv]
  cases v.repr.aBit i <;> cases v.repr.bBit i <;> rfl

theorem getBit_bitand {v w : LogicVec} (hv : Canonical v) (hw : Canonical w) {i : Nat}
    (hi : i < max v.width w.width) : (bitand v w).getBit i = bitAnd (v.getBit i) (w.getBit i) := by
  unfold bitand
  rw [@getBit_zipWord _ (fun aa ab ba bb => ((aa && !ab) && (ba && !bb),
      !((!aa && !ab) || (!ba && !bb)) && !((aa && !ab) && (ba && !bb)))) v w
    (fun a b c d i hi => by simp [hi]) hv hw i hi, getBit_planes hv, getBit_planes hw]
  cases v.repr.aBit i <;> cases v.repr.bBit i <;> cases w.repr.aBit i <;> cases w.repr.bBit i <;>
    rfl

theorem getBit_bitor {v w : LogicVec} (hv : Canonical v) (hw : Canonical w) {i : Nat}
    (hi : i < max v.width w.width) : (bitor v w).getBit i = bitOr (v.getBit i) (w.getBit i) := by
  unfold bitor
  rw [@getBit_zipWord _ (fun aa ab ba bb => ((aa && !ab) || (ba && !bb),
      !((aa && !ab) || (ba && !bb)) && !((!aa && !ab) && (!ba && !bb)))) v w
    (fun a b c d i hi => by simp [hi]) hv hw i hi, getBit_planes hv, getBit_planes hw]
  cases v.repr.aBit i <;> cases v.repr.bBit i <;> cases w.repr.aBit i <;> cases w.repr.bBit i <;>
    rfl

theorem getBit_bitxor {v w : LogicVec} (hv : Canonical v) (hw : Canonical w) {i : Nat}
    (hi : i < max v.width w.width) : (bitxor v w).getBit i = bitXor (v.getBit i) (w.getBit i) := by
  unfold bitxor
  rw [@getBit_zipWord _ (fun aa ab ba bb => ((aa ^^ ba) && !(ab || bb), ab || bb)) v w
    (fun a b c d i hi => by simp [hi]) hv hw i hi, getBit_planes hv, getBit_planes hw]
  cases v.repr.aBit i <;> cases v.repr.bBit i <;> cases w.repr.aBit i <;> cases w.repr.bBit i <;>
    rfl

/-! ### The other operations -/

section WriteWhere

variable (indices : List Nat) (cond : Nat → Prop) [DecidablePred cond] (bit : Nat → Bit)

theorem canonical_writeWhere {v : LogicVec} (hv : Canonical v) :
    Canonical (writeWhere v indices cond bit) := by
  unfold writeWhere
  induction indices generalizing v with
  | nil => exact hv
  | cons i indices ih =>
    rw [List.foldl_cons]
    apply ih
    split_ifs
    · exact canonical_setBit hv _ _
    · exact hv

@[simp] theorem width_writeWhere (v : LogicVec) :
    (writeWhere v indices cond bit).width = v.width := by
  unfold writeWhere
  induction indices generalizing v with
  | nil => rfl
  | cons i indices ih =>
    rw [List.foldl_cons, ih]
    split_ifs
    · exact LogicVec.width_setBit _ _ _
    · rfl

theorem getBit_writeWhere {v : LogicVec} (hv : Canonical v) (i : Nat) :
    (writeWhere v indices cond bit).getBit i =
      if i ∈ indices ∧ cond i ∧ i < v.width then bit i else v.getBit i := by
  unfold writeWhere
  induction indices generalizing v with
  | nil => simp
  | cons j indices ih =>
    rw [List.foldl_cons]
    by_cases hc : cond j
    · rw [if_pos hc, ih (canonical_setBit hv _ _), LogicVec.width_setBit, getBit_setBit hv]
      by_cases hij : i = j
      · subst hij
        by_cases hi : i < v.width <;> simp [hc, hi]
      · simp [hij]
    · rw [if_neg hc, ih hv]
      by_cases hij : i = j
      · subst hij
        simp [hc]
      · simp [hij]

end WriteWhere

theorem canonical_conditional {c t e : LogicVec} (ht : Canonical t) (he : Canonical e) :
    Canonical (conditional c t e) := by
  unfold conditional
  dsimp only
  split_ifs
  · exact canonical_resize ht _ _
  · exact canonical_resize he _ _
  · exact canonical_writeWhere _ _ _ (canonical_x _)

theorem canonical_verdict (o : Option Ordering) (f : Ordering → Bool) :
    Canonical (verdict o f) := by
  cases o with
  | none => exact canonical_x 1
  | some o => exact canonical_fromU64 _ _

theorem canonical_eqLogical (v w : LogicVec) : Canonical (eqLogical v w) := by
  unfold eqLogical
  split_ifs
  · exact canonical_x 1
  · exact canonical_fromU64 _ _

theorem canonical_lognot (v : LogicVec) : Canonical (lognot v) := by
  unfold lognot
  split
  · exact canonical_fromU64 _ _
  · exact canonical_fromU64 _ _
  · exact canonical_x 1

@[simp] theorem length_addsubLimbs (v w : LogicVec) (sub : Bool) (n i carry : Nat) :
    (addsubLimbs v w sub n i carry).length = n := by
  induction n generalizing i carry with
  | zero => rfl
  | succ n ih => simp [addsubLimbs, ih]

theorem canonical_wideAddsub (v w : LogicVec) (sub : Bool) {width : Nat} (hw : 64 < width) :
    Canonical (wideAddsub v w sub width) :=
  canonical_wide hw (length_addsubLimbs _ _ _ _ _ _) List.length_replicate

theorem canonical_add (v w : LogicVec) : Canonical (add v w) := by
  unfold add
  dsimp only
  split_ifs with hu hw
  · exact canonical_x _
  · exact canonical_fromU64 _ _
  · exact canonical_wideAddsub _ _ _ (Nat.lt_of_not_le hw)

theorem canonical_sub (v w : LogicVec) : Canonical (sub v w) := by
  unfold sub
  dsimp only
  split_ifs with hu hw
  · exact canonical_x _
  · exact canonical_fromU64 _ _
  · exact canonical_wideAddsub _ _ _ (Nat.lt_of_not_le hw)

theorem canonical_mul {v w u : LogicVec} (h : mul v w = some u) : Canonical u := by
  unfold mul at h
  dsimp only at h
  split_ifs at h
  · obtain rfl := Option.some.inj h
    exact canonical_x _
  · obtain rfl := Option.some.inj h
    exact canonical_fromU64 _ _

theorem canonical_shl {v : LogicVec} (hv : Canonical v) (amt : Nat) : Canonical (shl v amt) := by
  have hs := hv.storage
  unfold shl
  cases hr : v.repr with
  | small a b =>
    rw [hr] at hs
    dsimp only
    split_ifs
    · exact canonical_zero _
    · exact canonical_small hs _ _
  | wide a b => exact canonical_writeWhere _ _ _ (canonical_zero _)

theorem canonical_shr {v : LogicVec} (hv : Canonical v) (amt : Nat) : Canonical (shr v amt) := by
  have hs := hv.storage
  unfold shr
  cases hr : v.repr with
  | small a b =>
    rw [hr] at hs
    dsimp only
    split_ifs
    · exact canonical_zero _
    · exact canonical_small hs _ _
  | wide a b => exact canonical_writeWhere _ _ _ (canonical_zero _)

theorem canonical_ashr (v : LogicVec) (amt : Nat) : Canonical (ashr v amt) :=
  canonical_writeWhere _ _ _ (canonical_filled _ _)

theorem canonical_slice (v : LogicVec) (hi lo : Nat) : Canonical (slice v hi lo) :=
  canonical_writeBits (canonical_zero _) _ _ _

theorem canonical_concat (v w : LogicVec) : Canonical (concat v w) :=
  canonical_writeBits (canonical_writeBits (canonical_zero _) _ _ _) _ _ _

/-! ### Reductions -/

/-- The bits of a vector, from the lowest. -/
def bitsOf (v : LogicVec) : List Bit := (List.range v.width).map v.getBit

theorem foldl_bitOr (bits : List Bit) {b : Bit} (hb : b ≠ .z) : bits.foldl bitOr b =
    if b = .one ∨ .one ∈ bits then .one
    else if b = .x ∨ ∃ c ∈ bits, c.isUnknown = true then .x else .zero := by
  induction bits generalizing b with
  | nil => cases b <;> simp_all
  | cons c bits ih =>
    have hnext : bitOr b c ≠ .z := by cases b <;> cases c <;> simp [bitOr]
    rw [List.foldl_cons, ih hnext]
    cases b <;> cases c <;> simp_all [bitOr, Bit.isUnknown]

/-- `reduce_or` is the disjunction of the bits. -/
theorem reduceOr_eq {v : LogicVec} (hv : Canonical v) :
    reduceOr v = (bitsOf v).foldl bitOr .zero := by
  have htrue : v.isTrue = true ↔ Bit.one ∈ bitsOf v := by
    rw [isTrue_iff hv]
    simp [bitsOf]
  have hknown : v.isKnown = false ↔ ∃ c ∈ bitsOf v, c.isUnknown = true := by
    rw [← Bool.not_eq_true, isKnown_iff hv]
    simp [bitsOf]
  rw [foldl_bitOr _ (by simp)]
  unfold reduceOr
  simp only [false_or, reduceCtorEq, Bool.not_eq_true', htrue, hknown]

theorem foldl_bitXor (bits : List Bit) {b : Bit} (hb : b ≠ .z) : bits.foldl bitXor b =
    if b = .x ∨ ∃ c ∈ bits, c.isUnknown = true then .x
    else ofBool ((bits.countP (· = .one) + if b = .one then 1 else 0) % 2 = 1) := by
  induction bits generalizing b with
  | nil => cases b <;> simp_all [ofBool]
  | cons c bits ih =>
    have hnext : bitXor b c ≠ .z := by cases b <;> cases c <;> simp [bitXor]
    have hparity (n : Nat) : (n + 1 + 1) % 2 = n % 2 := by omega
    rw [List.foldl_cons, ih hnext, List.countP_cons]
    cases b <;> cases c <;> simp_all [bitXor, Bit.isUnknown]

/-- The parity of the ones, counted limb by limb, is that of the positions whose bit is set. -/
private theorem foldl_countOnes (limbs : List (BitVec 64)) (n : Nat) :
    limbs.foldl (fun parity w => (parity + countOnes w) % 0x100000000) n % 2 =
      (n + (List.range (64 * limbs.length)).countP (limbBit limbs ·)) % 2 := by
  induction limbs generalizing n with
  | nil => simp
  | cons w limbs ih =>
    have hlen : 64 * (w :: limbs).length = 64 + 64 * limbs.length := by
      rw [List.length_cons]
      omega
    have hlow : (List.range 64).countP (limbBit (w :: limbs) ·) = countOnes w := by
      apply List.countP_congr
      intro i hi
      have hi64 := List.mem_range.mp hi
      have hd : i / 64 = 0 := by omega
      have hm : i % 64 = i := by omega
      simp [limbBit, hd, hm]
    have hhigh : ((List.range (64 * limbs.length)).map (64 + ·)).countP (limbBit (w :: limbs) ·) =
        (List.range (64 * limbs.length)).countP (limbBit limbs ·) := by
      rw [List.countP_map]
      apply List.countP_congr
      intro i _
      have hd : (64 + i) / 64 = i / 64 + 1 := by omega
      have hm : (64 + i) % 64 = i % 64 := by omega
      simp [limbBit, hd, hm]
    rw [List.foldl_cons, ih, hlen, List.range_add, List.countP_append, hlow, hhigh]
    omega

theorem countP_range_of_false {p : Nat → Bool} {m n : Nat} (hmn : m ≤ n)
    (hp : ∀ i, m ≤ i → p i = false) : (List.range n).countP p = (List.range m).countP p := by
  obtain ⟨k, rfl⟩ := Nat.exists_eq_add_of_le hmn
  rw [List.range_add, List.countP_append]
  have hzero : ((List.range k).map (m + ·)).countP p = 0 := by
    rw [List.countP_eq_zero]
    intro i hi
    obtain ⟨j, -, rfl⟩ := List.mem_map.mp hi
    simp [hp (m + j) (Nat.le_add_right m j)]
  rw [hzero, Nat.add_zero]

theorem onesCount_parity {v : LogicVec} (hv : Canonical v) :
    onesCount v % 2 = (List.range v.width).countP (v.repr.aBit ·) % 2 := by
  have hs := hv.storage
  have hhigh (i : Nat) (hi : v.width ≤ i) : v.repr.aBit i = false := (hv.high i hi).1
  unfold onesCount
  cases hr : v.repr with
  | small a b =>
    rw [hr] at hs hhigh
    exact congrArg (· % 2) (countP_range_of_false hs hhigh)
  | wide a b =>
    rw [hr] at hs hhigh
    have hle : v.width ≤ 64 * a.length := by
      rw [hs.2.1]
      unfold limbsFor
      omega
    dsimp only
    rw [foldl_countOnes, Nat.zero_add]
    exact congrArg (· % 2) (countP_range_of_false hle hhigh)

/-- `reduce_xor` is the parity of the bits, X when a bit is unknown. -/
theorem reduceXor_eq {v : LogicVec} (hv : Canonical v) :
    reduceXor v = (bitsOf v).foldl bitXor .zero := by
  rw [foldl_bitXor _ (by simp)]
  unfold reduceXor
  by_cases hk : v.isKnown = true
  · have hall := (isKnown_iff hv).mp hk
    have hnone : ¬ ∃ c ∈ bitsOf v, c.isUnknown = true := by
      rintro ⟨c, hc, hu⟩
      obtain ⟨i, hi, rfl⟩ := List.mem_map.mp hc
      rw [hall i (List.mem_range.mp hi)] at hu
      cases hu
    have hcount : (bitsOf v).countP (· = .one) = (List.range v.width).countP (v.repr.aBit ·) := by
      unfold bitsOf
      rw [List.countP_map]
      apply List.countP_congr
      intro i _
      have hb := (isKnown_iff_planes v).mp hk i
      simp [getBit_planes hv, ofPlaneBits_eq_one, hb]
    simp only [hk, Bool.not_true, Bool.false_eq_true, if_false, false_or, hnone, reduceCtorEq,
      hcount, Nat.add_zero, onesCount_parity hv]
    unfold ofBool
    simp only [decide_eq_true_eq]
  · have hsome : ∃ c ∈ bitsOf v, c.isUnknown = true := by
      rw [isKnown_iff hv] at hk
      push Not at hk
      obtain ⟨i, hi, hu⟩ := hk
      exact ⟨v.getBit i, List.mem_map_of_mem (List.mem_range.mpr hi), by simpa using hu⟩
    simp [hk, hsome]

/-! ### All operations together -/

/-- What the constructors yield, and the operations from canonical operands. -/
inductive Produced : LogicVec → Prop
  | zero (width : Nat) : Produced (zero width)
  | ones (width : Nat) : Produced (ones width)
  | x (width : Nat) : Produced (x width)
  | z (width : Nat) : Produced (z width)
  | fromU64 (val : BitVec 64) (width : Nat) : Produced (fromU64 val width)
  | fromI64 (val : BitVec 64) (width : Nat) : Produced (fromI64 val width)
  | fromPlanesSmall {a b : BitVec 64} {width : Nat} {v : LogicVec}
      (h : fromPlanesSmall a b width = some v) : Produced v
  | fromBitsMsbFirst (bits : List Bit) : Produced (fromBitsMsbFirst bits)
  | parseSized {s : List Char} {v : LogicVec} (h : parseSized s = some v) : Produced v
  | fromBit (b : Bit) : Produced (fromBit b)
  | filled (b : Bit) (width : Nat) : Produced (filled b width)
  | setBit {v : LogicVec} (hv : Canonical v) (i : Nat) (b : Bit) : Produced (v.setBit i b)
  | conditional {c t e : LogicVec} (hc : Canonical c) (ht : Canonical t) (he : Canonical e) :
      Produced (conditional c t e)
  | resize {v : LogicVec} (hv : Canonical v) (width : Nat) (signed : Bool) :
      Produced (v.resize width signed)
  | eqLogical {v w : LogicVec} (hv : Canonical v) (hw : Canonical w) : Produced (eqLogical v w)
  | neLogical {v w : LogicVec} (hv : Canonical v) (hw : Canonical w) : Produced (neLogical v w)
  | ult {v w : LogicVec} (hv : Canonical v) (hw : Canonical w) : Produced (ult v w)
  | ule {v w : LogicVec} (hv : Canonical v) (hw : Canonical w) : Produced (ule v w)
  | ugt {v w : LogicVec} (hv : Canonical v) (hw : Canonical w) : Produced (ugt v w)
  | uge {v w : LogicVec} (hv : Canonical v) (hw : Canonical w) : Produced (uge v w)
  | slt {v w : LogicVec} (hv : Canonical v) (hw : Canonical w) : Produced (slt v w)
  | sle {v w : LogicVec} (hv : Canonical v) (hw : Canonical w) : Produced (sle v w)
  | sgt {v w : LogicVec} (hv : Canonical v) (hw : Canonical w) : Produced (sgt v w)
  | sge {v w : LogicVec} (hv : Canonical v) (hw : Canonical w) : Produced (sge v w)
  | lognot {v : LogicVec} (hv : Canonical v) : Produced (lognot v)
  | neg {v : LogicVec} (hv : Canonical v) : Produced (neg v)
  | bitnot {v : LogicVec} (hv : Canonical v) : Produced (bitnot v)
  | bitand {v w : LogicVec} (hv : Canonical v) (hw : Canonical w) : Produced (bitand v w)
  | bitor {v w : LogicVec} (hv : Canonical v) (hw : Canonical w) : Produced (bitor v w)
  | bitxor {v w : LogicVec} (hv : Canonical v) (hw : Canonical w) : Produced (bitxor v w)
  | add {v w : LogicVec} (hv : Canonical v) (hw : Canonical w) : Produced (add v w)
  | sub {v w : LogicVec} (hv : Canonical v) (hw : Canonical w) : Produced (sub v w)
  | mul {v w u : LogicVec} (hv : Canonical v) (hw : Canonical w) (h : mul v w = some u) :
      Produced u
  | shl {v : LogicVec} (hv : Canonical v) (amt : Nat) : Produced (shl v amt)
  | shr {v : LogicVec} (hv : Canonical v) (amt : Nat) : Produced (shr v amt)
  | ashr {v : LogicVec} (hv : Canonical v) (amt : Nat) : Produced (ashr v amt)
  | slice {v : LogicVec} (hv : Canonical v) (hi lo : Nat) : Produced (slice v hi lo)
  | concat {v w : LogicVec} (hv : Canonical v) (hw : Canonical w) : Produced (concat v w)

/-- What the representation answers is what the bits say. -/
structure BitExact (v w : LogicVec) : Prop where
  eqCase : v.eqCase w = true ↔ v.width = w.width ∧ ∀ i < v.width, v.getBit i = w.getBit i
  isKnown : v.isKnown = true ↔ ∀ i < v.width, (v.getBit i).isUnknown = false
  isTrue : v.isTrue = true ↔ ∃ i < v.width, v.getBit i = .one
  reduceOr : reduceOr v = (bitsOf v).foldl bitOr .zero
  reduceXor : reduceXor v = (bitsOf v).foldl bitXor .zero
  bitnot : (bitnot v).width = v.width ∧
    ∀ i < v.width, (bitnot v).getBit i = bitNot (v.getBit i)
  bitand : (bitand v w).width = max v.width w.width ∧
    ∀ i < max v.width w.width, (bitand v w).getBit i = bitAnd (v.getBit i) (w.getBit i)
  bitor : (bitor v w).width = max v.width w.width ∧
    ∀ i < max v.width w.width, (bitor v w).getBit i = bitOr (v.getBit i) (w.getBit i)
  bitxor : (bitxor v w).width = max v.width w.width ∧
    ∀ i < max v.width w.width, (bitxor v w).getBit i = bitXor (v.getBit i) (w.getBit i)

theorem Produced.canonical {v : LogicVec} (h : Produced v) : Canonical v := by
  cases h with
  | zero width => exact canonical_zero width
  | ones width => exact canonical_ones width
  | x width => exact canonical_x width
  | z width => exact canonical_z width
  | fromU64 val width => exact canonical_fromU64 val width
  | fromI64 val width => exact canonical_fromI64 val width
  | fromPlanesSmall h => exact canonical_fromPlanesSmall h
  | fromBitsMsbFirst bits => exact canonical_fromBitsMsbFirst bits
  | parseSized h => exact canonical_parseSized h
  | fromBit b => exact canonical_fromBit b
  | filled b width => exact canonical_filled b width
  | setBit hv i b => exact canonical_setBit hv i b
  | conditional hc ht he => exact canonical_conditional ht he
  | resize hv width signed => exact canonical_resize hv width signed
  | eqLogical hv hw => exact canonical_eqLogical _ _
  | neLogical hv hw => exact canonical_lognot _
  | lognot hv => exact canonical_lognot _
  | neg hv => exact canonical_sub _ _
  | bitnot hv => exact canonical_mapWord _ hv
  | bitand hv hw => exact canonical_zipWord hv hw
  | bitor hv hw => exact canonical_zipWord hv hw
  | bitxor hv hw => exact canonical_zipWord hv hw
  | add hv hw => exact canonical_add _ _
  | sub hv hw => exact canonical_sub _ _
  | mul hv hw h => exact canonical_mul h
  | shl hv amt => exact canonical_shl hv amt
  | shr hv amt => exact canonical_shr hv amt
  | ashr hv amt => exact canonical_ashr _ amt
  | slice hv hi lo => exact canonical_slice _ hi lo
  | concat hv hw => exact canonical_concat _ _
  | _ => exact canonical_verdict _ _

theorem eqCase_iff_bits {v w : LogicVec} (hv : Canonical v) (hw : Canonical w) :
    v.eqCase w = true ↔ v.width = w.width ∧ ∀ i < v.width, v.getBit i = w.getBit i := by
  rw [eqCase_iff hv hw]
  constructor
  · rintro rfl
    exact ⟨rfl, fun _ _ => rfl⟩
  · rintro ⟨hwidth, hbits⟩
    exact canonical_ext hv hw hwidth hbits

/-- Whatever the constructors and operations yield is canonical, and on canonical vectors the
representation answers what the bits say. -/
theorem canonical_representation :
    (∀ v, Produced v → Canonical v) ∧ ∀ v w, Canonical v → Canonical w → BitExact v w := by
  refine ⟨fun v h => h.canonical, fun v w hv hw => ?_⟩
  exact {
    eqCase := eqCase_iff_bits hv hw
    isKnown := isKnown_iff hv
    isTrue := isTrue_iff hv
    reduceOr := reduceOr_eq hv
    reduceXor := reduceXor_eq hv
    bitnot := ⟨width_mapWord _ _, fun _ hi => getBit_bitnot hv hi⟩
    bitand := ⟨width_zipWord, fun _ hi => getBit_bitand hv hw hi⟩
    bitor := ⟨width_zipWord, fun _ hi => getBit_bitor hv hw hi⟩
    bitxor := ⟨width_zipWord, fun _ hi => getBit_bitxor hv hw hi⟩ }

/-- Subtraction of a limb vector and an inline one. -/
theorem canonical_representation_mixed :
    Canonical (sub (ones 65) (z 3)) ∧ BitExact (ones 65) (z 3) :=
  ⟨canonical_representation.1 _ (.sub (canonical_ones 65) (canonical_z 3)),
    canonical_representation.2 _ _ (canonical_ones 65) (canonical_z 3)⟩

end Eevee.Core.Canonical
