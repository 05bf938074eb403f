/- The operations on canonical vectors, with the bits of what they yield. -/

import Mathlib.Data.List.Basic
import Mathlib.Tactic.Common
import Mathlib.Tactic.SplitIfs
import Eevee.Core.Canonical

set_option autoImplicit false
set_option relaxedAutoImplicit false

namespace Eevee.Core.Logic.PackedVec

open Eevee.Core.Alu
open Eevee.Core.Canonical

def isKnown (v : PackedVec) : Bool := v.1.isKnown

def isTrue (v : PackedVec) : Bool := v.1.isTrue

def toU64 (v : PackedVec) : Nat := v.1.toU64.toNat

/-- The cast `as u32` of the low word. -/
def toU32 (v : PackedVec) : Nat := v.toU64 % 0x100000000

def fromU64 (val : BitVec 64) (width : Nat) : PackedVec :=
  ⟨LogicVec.fromU64 val width, canonical_fromU64 val width⟩

/-- One bit from a truth value. -/
def fromBool (b : Bool) : PackedVec := fromU64 (if b then 1 else 0) 1

def fromBit (b : Bit) : PackedVec := ⟨Alu.fromBit b, canonical_fromBit b⟩

def filled (b : Bit) (width : Nat) : PackedVec := ⟨Alu.filled b width, canonical_filled b width⟩

def conditional (c t e : PackedVec) : PackedVec :=
  ⟨Alu.conditional c.1 t.1 e.1, canonical_conditional t.2 e.2⟩

def eqLogical (v w : PackedVec) : PackedVec := ⟨Alu.eqLogical v.1 w.1, canonical_eqLogical _ _⟩

def neLogical (v w : PackedVec) : PackedVec := ⟨Alu.neLogical v.1 w.1, canonical_lognot _⟩

def ult (v w : PackedVec) : PackedVec := ⟨Alu.ult v.1 w.1, canonical_verdict _ _⟩
def ule (v w : PackedVec) : PackedVec := ⟨Alu.ule v.1 w.1, canonical_verdict _ _⟩
def ugt (v w : PackedVec) : PackedVec := ⟨Alu.ugt v.1 w.1, canonical_verdict _ _⟩
def uge (v w : PackedVec) : PackedVec := ⟨Alu.uge v.1 w.1, canonical_verdict _ _⟩
def slt (v w : PackedVec) : PackedVec := ⟨Alu.slt v.1 w.1, canonical_verdict _ _⟩
def sle (v w : PackedVec) : PackedVec := ⟨Alu.sle v.1 w.1, canonical_verdict _ _⟩
def sgt (v w : PackedVec) : PackedVec := ⟨Alu.sgt v.1 w.1, canonical_verdict _ _⟩
def sge (v w : PackedVec) : PackedVec := ⟨Alu.sge v.1 w.1, canonical_verdict _ _⟩

def lognot (v : PackedVec) : PackedVec := ⟨Alu.lognot v.1, canonical_lognot _⟩

def neg (v : PackedVec) : PackedVec := ⟨Alu.neg v.1, canonical_sub _ _⟩

def bitnot (v : PackedVec) : PackedVec := ⟨Alu.bitnot v.1, canonical_mapWord _ v.2⟩

def bitand (v w : PackedVec) : PackedVec := ⟨Alu.bitand v.1 w.1, canonical_zipWord v.2 w.2⟩
def bitor (v w : PackedVec) : PackedVec := ⟨Alu.bitor v.1 w.1, canonical_zipWord v.2 w.2⟩
def bitxor (v w : PackedVec) : PackedVec := ⟨Alu.bitxor v.1 w.1, canonical_zipWord v.2 w.2⟩

def reduceOr (v : PackedVec) : Bit := Alu.reduceOr v.1
def reduceAnd (v : PackedVec) : Bit := Alu.reduceAnd v.1
def reduceXor (v : PackedVec) : Bit := Alu.reduceXor v.1

def add (v w : PackedVec) : PackedVec := ⟨Alu.add v.1 w.1, canonical_add _ _⟩
def sub (v w : PackedVec) : PackedVec := ⟨Alu.sub v.1 w.1, canonical_sub _ _⟩

/-- None where the assertion of the source fails. -/
def mul (v w : PackedVec) : Option PackedVec :=
  match h : Alu.mul v.1 w.1 with
  | none => none
  | some u => some ⟨u, canonical_mul h⟩

def shl (v : PackedVec) (amt : Nat) : PackedVec := ⟨Alu.shl v.1 amt, canonical_shl v.2 amt⟩
def shr (v : PackedVec) (amt : Nat) : PackedVec := ⟨Alu.shr v.1 amt, canonical_shr v.2 amt⟩
def ashr (v : PackedVec) (amt : Nat) : PackedVec := ⟨Alu.ashr v.1 amt, canonical_ashr v.1 amt⟩

def slice (v : PackedVec) (hi lo : Nat) : PackedVec := ⟨Alu.slice v.1 hi lo, canonical_slice _ _ _⟩

def concat (v w : PackedVec) : PackedVec := ⟨Alu.concat v.1 w.1, canonical_concat _ _⟩

/-! ### Widths -/

@[simp] theorem width_zero (n : Nat) : (zero n).width = n := Logic.width_zero n

@[simp] theorem width_ones (n : Nat) : (ones n).width = n := Canonical.width_ones n

@[simp] theorem width_x (n : Nat) : (x n).width = n := Canonical.width_x n

@[simp] theorem width_fromU64 (val : BitVec 64) (n : Nat) : (fromU64 val n).width = n :=
  Canonical.width_fromU64 val n

@[simp] theorem width_fromBool (b : Bool) : (fromBool b).width = 1 := width_fromU64 _ 1

@[simp] theorem width_fromBit (b : Bit) : (fromBit b).width = 1 := Canonical.width_fromBit b

@[simp] theorem width_filled (b : Bit) (n : Nat) : (filled b n).width = n :=
  Canonical.width_filled b n

theorem width_conditional (c t e : PackedVec) :
    (conditional c t e).width = max t.width e.width := by
  show (Alu.conditional c.1 t.1 e.1).width = _
  unfold Alu.conditional
  dsimp only
  split_ifs
  · exact Logic.width_resize _ _ _
  · exact Logic.width_resize _ _ _
  · rw [width_writeWhere, Canonical.width_x]
    rfl

theorem width_verdict (o : Option Ordering) (f : Ordering → Bool) : (verdict o f).width = 1 := by
  cases o <;> simp [verdict]

@[simp] theorem width_eqLogical (v w : PackedVec) : (eqLogical v w).width = 1 := by
  show (Alu.eqLogical v.1 w.1).width = 1
  unfold Alu.eqLogical
  split_ifs <;> simp

@[simp] theorem width_ult (v w : PackedVec) : (ult v w).width = 1 := width_verdict _ _

@[simp] theorem width_ule (v w : PackedVec) : (ule v w).width = 1 := width_verdict _ _

@[simp] theorem width_ugt (v w : PackedVec) : (ugt v w).width = 1 := width_verdict _ _

@[simp] theorem width_uge (v w : PackedVec) : (uge v w).width = 1 := width_verdict _ _

@[simp] theorem width_slt (v w : PackedVec) : (slt v w).width = 1 := width_verdict _ _

@[simp] theorem width_sle (v w : PackedVec) : (sle v w).width = 1 := width_verdict _ _

@[simp] theorem width_sgt (v w : PackedVec) : (sgt v w).width = 1 := width_verdict _ _

@[simp] theorem width_sge (v w : PackedVec) : (sge v w).width = 1 := width_verdict _ _

@[simp] theorem width_lognot (v : PackedVec) : (lognot v).width = 1 := by
  show (Alu.lognot v.1).width = 1
  unfold Alu.lognot
  split <;> simp

@[simp] theorem width_neLogical (v w : PackedVec) : (neLogical v w).width = 1 :=
  width_lognot (eqLogical v w)

@[simp] theorem width_bitnot (v : PackedVec) : (bitnot v).width = v.width := width_mapWord _ _

@[simp] theorem width_bitand (v w : PackedVec) : (bitand v w).width = max v.width w.width :=
  width_zipWord

@[simp] theorem width_bitor (v w : PackedVec) : (bitor v w).width = max v.width w.width :=
  width_zipWord

@[simp] theorem width_bitxor (v w : PackedVec) : (bitxor v w).width = max v.width w.width :=
  width_zipWord

@[simp] theorem width_add (v w : PackedVec) : (add v w).width = max v.width w.width := by
  show (Alu.add v.1 w.1).width = _
  unfold Alu.add
  dsimp only
  split_ifs
  · exact Canonical.width_x _
  · exact Canonical.width_fromU64 _ _
  · rfl

@[simp] theorem width_sub (v w : PackedVec) : (sub v w).width = max v.width w.width := by
  show (Alu.sub v.1 w.1).width = _
  unfold Alu.sub
  dsimp only
  split_ifs
  · exact Canonical.width_x _
  · exact Canonical.width_fromU64 _ _
  · rfl

@[simp] theorem width_neg (v : PackedVec) : (neg v).width = v.width := by
  have h := width_sub (zero v.width) v
  rw [width_zero, Nat.max_self] at h
  exact h

theorem mul_eq_some {v w u : PackedVec} : mul v w = some u ↔ Alu.mul v.1 w.1 = some u.1 := by
  unfold mul
  split
  · next h => simp [h]
  · next u' h => simp [h, Subtype.ext_iff]

theorem width_mul {v w u : PackedVec} (h : mul v w = some u) : u.width = max v.width w.width := by
  have h' := mul_eq_some.mp h
  unfold Alu.mul at h'
  dsimp only at h'
  split_ifs at h'
  · exact (congrArg LogicVec.width (Option.some.inj h')).symm.trans (Canonical.width_x _)
  · exact (congrArg LogicVec.width (Option.some.inj h')).symm.trans (Canonical.width_fromU64 _ _)

@[simp] theorem width_shl (v : PackedVec) (amt : Nat) : (shl v amt).width = v.width := by
  show (Alu.shl v.1 amt).width = _
  unfold Alu.shl
  split
  · split_ifs
    · exact Logic.width_zero _
    · rfl
  · rw [width_writeWhere, Logic.width_zero]
    rfl

@[simp] theorem width_shr (v : PackedVec) (amt : Nat) : (shr v amt).width = v.width := by
  show (Alu.shr v.1 amt).width = _
  unfold Alu.shr
  split
  · split_ifs
    · exact Logic.width_zero _
    · rfl
  · rw [width_writeWhere, Logic.width_zero]
    rfl

@[simp] theorem width_ashr (v : PackedVec) (amt : Nat) : (ashr v amt).width = v.width := by
  show (Alu.ashr v.1 amt).width = _
  unfold Alu.ashr
  rw [width_writeWhere, Canonical.width_filled]
  rfl

@[simp] theorem width_slice (v : PackedVec) (hi lo : Nat) :
    (slice v hi lo).width = hi - lo + 1 := by
  show (Alu.slice v.1 hi lo).width = _
  simp [Alu.slice]

@[simp] theorem width_concat (v w : PackedVec) : (concat v w).width = v.width + w.width := by
  show (Alu.concat v.1 w.1).width = _
  simp [Alu.concat, width]

/-! ### Bits -/

theorem isKnown_iff {v : PackedVec} :
    v.isKnown = true ↔ ∀ i < v.width, (v.getBit i).isUnknown = false := Canonical.isKnown_iff v.2

theorem isTrue_iff {v : PackedVec} : v.isTrue = true ↔ ∃ i < v.width, v.getBit i = .one :=
  Canonical.isTrue_iff v.2

@[simp] theorem isTrue_fromBool (b : Bool) : (fromBool b).isTrue = b := by
  cases b <;> rfl

@[simp] theorem isKnown_fromBool (b : Bool) : (fromBool b).isKnown = true := by
  cases b <;> rfl

theorem getBit_x (n i : Nat) : (x n).getBit i = if i < n then .x else .zero :=
  Canonical.getBit_x n i

theorem getBit_filled (b : Bit) (n i : Nat) :
    (filled b n).getBit i = if i < n then b else .zero := Canonical.getBit_filled b n i

theorem getBit_fromBool (b : Bool) : (fromBool b).getBit 0 = ofBool b := by
  have h := getBit_fromU64 (if b then 1 else 0) Nat.one_pos
  refine Eq.trans h ?_
  cases b <;> rfl

theorem getBit_fromBit (b : Bit) : (fromBit b).getBit 0 = if b = .z then .x else b :=
  getBit_fromBit_zero b

theorem getBit_bitnot (v : PackedVec) {i : Nat} (hi : i < v.width) :
    (bitnot v).getBit i = bitNot (v.getBit i) := Canonical.getBit_bitnot v.2 hi

theorem getBit_bitand (v w : PackedVec) {i : Nat} (hi : i < max v.width w.width) :
    (bitand v w).getBit i = bitAnd (v.getBit i) (w.getBit i) := Canonical.getBit_bitand v.2 w.2 hi

theorem getBit_bitor (v w : PackedVec) {i : Nat} (hi : i < max v.width w.width) :
    (bitor v w).getBit i = bitOr (v.getBit i) (w.getBit i) := Canonical.getBit_bitor v.2 w.2 hi

theorem getBit_bitxor (v w : PackedVec) {i : Nat} (hi : i < max v.width w.width) :
    (bitxor v w).getBit i = bitXor (v.getBit i) (w.getBit i) := Canonical.getBit_bitxor v.2 w.2 hi

theorem getBit_writeBits_range {v : LogicVec} (hv : Canonical v) (n : Nat) (bit : Nat → Bit)
    {i : Nat} (hn : v.width = n) (hi : i < n) : (v.writeBits n id bit).getBit i = bit i := by
  rw [Logic.getBit_writeBits_id hv, if_pos ⟨hi, hn.symm ▸ hi⟩]

theorem getBit_slice (v : PackedVec) {hi lo i : Nat} (h : i < hi - lo + 1) :
    (slice v hi lo).getBit i = v.getBit (lo + i) :=
  getBit_writeBits_range (canonical_zero _) _ _ (Logic.width_zero _) h

theorem getBit_concat (v w : PackedVec) {i : Nat} (hi : i < v.width + w.width) :
    (concat v w).getBit i = if i < w.width then w.getBit i else v.getBit (i - w.width) := by
  have hw : Canonical ((LogicVec.zero (v.width + w.width)).writeBits w.width id w.getBit) :=
    canonical_writeBits (canonical_zero _) _ _ _
  show (((LogicVec.zero (v.width + w.width)).writeBits w.width id w.getBit).writeBits v.width
    (w.width + ·) v.getBit).getBit i = _
  rw [Logic.getBit_writeBits hw, Logic.width_writeBits, Logic.width_zero]
  by_cases hlt : i < w.width
  · have hn : ¬ (w.width ≤ i ∧ i < w.width + v.width ∧ i < v.width + w.width) := by omega
    rw [if_neg hn, if_pos hlt, Logic.getBit_writeBits_id (canonical_zero _), Logic.width_zero,
      if_pos ⟨hlt, hi⟩]
  · have hp : w.width ≤ i ∧ i < w.width + v.width ∧ i < v.width + w.width := by omega
    rw [if_pos hp, if_neg hlt]

theorem getBit_shl (v : PackedVec) {amt i : Nat} (hi : i < v.width) :
    (shl v amt).getBit i = if amt ≤ i then v.getBit (i - amt) else .zero := by
  show (Alu.shl v.1 amt).getBit i = _
  have hs := v.2.storage
  have hi' : i < v.1.width := hi
  unfold Alu.shl
  cases hr : v.1.repr with
  | small a b =>
    rw [hr] at hs
    have hi64 : i < 64 := Nat.lt_of_lt_of_le hi hs
    dsimp only
    by_cases hge : amt ≥ v.1.width
    · have hn : ¬ amt ≤ i := Nat.not_le.mpr (Nat.lt_of_lt_of_le hi hge)
      rw [if_pos hge, if_neg hn, Logic.getBit_zero]
    · rw [if_neg hge, getBit_planes (canonical_small hs _ _), (planes_small _ _ hs).1,
        (planes_small _ _ hs).2]
      have hv : v.getBit (i - amt) =
          Bit.ofPlaneBits (a.getLsbD (i - amt)) (b.getLsbD (i - amt)) := by
        refine (getBit_planes v.2 _).trans ?_
        rw [hr]
        rfl
      rw [hv]
      by_cases hle : amt ≤ i
      · have hnlt : ¬ i < amt := Nat.not_lt.mpr hle
        simp only [BitVec.getLsbD_and, BitVec.getLsbD_shiftLeft, getLsbD_wordMask, hi', hi64, hnlt,
          hle, decide_true, decide_false, Bool.not_false, Bool.true_and, Bool.and_true, if_true]
      · have hlt : i < amt := Nat.lt_of_not_le hle
        simp only [BitVec.getLsbD_and, BitVec.getLsbD_shiftLeft, hlt, hle, decide_true,
          Bool.not_true, Bool.and_false, Bool.false_and, if_false]
        rfl
  | wide a b =>
    dsimp only
    rw [getBit_writeWhere _ _ _ (canonical_zero _), Logic.width_zero, Logic.getBit_zero]
    have hmem : i ∈ (List.range v.1.width).reverse := by simpa using hi'
    simp only [hmem, hi', true_and, and_true]
    rfl

theorem getBit_shr (v : PackedVec) {amt i : Nat} (hi : i < v.width) : (shr v amt).getBit i =
    v.getBit (if v.width ≤ 64 then i + amt else addU32 i amt) := by
  show (Alu.shr v.1 amt).getBit i = _
  have hs := v.2.storage
  have hi' : i < v.1.width := hi
  unfold Alu.shr
  cases hr : v.1.repr with
  | small a b =>
    rw [hr] at hs
    have hw : v.width ≤ 64 := hs
    dsimp only
    rw [if_pos hw]
    by_cases hge : amt ≥ v.1.width
    · have hout : v.width ≤ i + amt := Nat.le_trans hge (Nat.le_add_left _ _)
      rw [if_pos hge, Logic.getBit_zero, v.getBit_of_ge hout]
    · rw [if_neg hge, getBit_planes (canonical_small hs _ _), (planes_small _ _ hs).1,
        (planes_small _ _ hs).2]
      have hv : v.getBit (i + amt) =
          Bit.ofPlaneBits (a.getLsbD (i + amt)) (b.getLsbD (i + amt)) := by
        refine (getBit_planes v.2 _).trans ?_
        rw [hr]
        rfl
      rw [hv]
      simp [hi', Nat.add_comm]
  | wide a b =>
    rw [hr] at hs
    have hw : ¬ v.width ≤ 64 := Nat.not_le.mpr hs.1
    dsimp only
    rw [if_neg hw, getBit_writeWhere _ _ _ (canonical_zero _), Logic.width_zero, Logic.getBit_zero]
    have hmem : i ∈ List.range v.1.width := List.mem_range.mpr hi'
    simp only [hmem, hi', true_and, and_true]
    by_cases hlt : addU32 i amt < v.1.width
    · rw [if_pos hlt]
      rfl
    · rw [if_neg hlt]
      exact (v.getBit_of_ge (Nat.le_of_not_lt hlt)).symm

theorem getBit_ashr (v : PackedVec) {amt i : Nat} (hi : i < v.width) : (ashr v amt).getBit i =
    if addU32 i amt < v.width then v.getBit (addU32 i amt) else signFill v.1 := by
  show (Alu.ashr v.1 amt).getBit i = _
  have hi' : i < v.1.width := hi
  unfold Alu.ashr
  rw [getBit_writeWhere _ _ _ (canonical_filled _ _), Canonical.width_filled,
    Canonical.getBit_filled]
  have hmem : i ∈ List.range v.1.width := List.mem_range.mpr hi'
  simp only [hmem, hi', true_and, and_true, if_true]
  rfl

/-- The bits of a resized vector. -/
theorem getBit_resize (v : PackedVec) (n : Nat) (signed : Bool) {i : Nat} (hi : i < n) :
    (v.resize n signed).getBit i =
      if i < v.width then v.getBit i else v.1.extension signed := by
  show (v.1.resize n signed).getBit i = _
  by_cases hn : n = v.1.width
  · subst hn
    have hi' : i < v.width := hi
    rw [Logic.resize_self, if_pos hi']
    rfl
  unfold LogicVec.resize
  rw [if_neg hn]
  have hcopy : (v.1.copyLow n).getBit i = if i < v.width then v.getBit i else .zero := by
    unfold LogicVec.copyLow
    rw [Logic.getBit_writeBits_id (canonical_zero n), Logic.width_zero, Logic.getBit_zero]
    have hmin : (i < min n v.1.width ∧ i < n) ↔ i < v.width := by
      show (i < min n v.1.width ∧ i < n) ↔ i < v.1.width
      omega
    simp only [hmin]
    rfl
  by_cases hgt : n > v.1.width
  · rw [if_pos hgt]
    by_cases hext : v.1.extension signed = .zero
    · simp only [hext, ne_eq, not_true_eq_false, if_false]
      exact hcopy
    · rw [if_pos hext, Logic.getBit_writeBits (canonical_copyLow _ _)]
      have hwidth : (v.1.copyLow n).width = n := by simp [LogicVec.copyLow]
      rw [hwidth, hcopy]
      by_cases hlt : i < v.width
      · have hnot : ¬ (v.1.width ≤ i ∧ i < v.1.width + (n - v.1.width) ∧ i < n) := fun hc =>
          Nat.not_lt.mpr hc.1 hlt
        rw [if_neg hnot, if_pos hlt, if_pos hlt]
      · have hge : v.1.width ≤ i := Nat.le_of_not_lt hlt
        have hin : v.1.width ≤ i ∧ i < v.1.width + (n - v.1.width) ∧ i < n :=
          ⟨hge, by omega, hi⟩
        rw [if_pos hin, if_neg hlt]
  · rw [if_neg hgt, hcopy]
    have hlt : i < v.width := Nat.lt_of_lt_of_le hi (Nat.le_of_not_lt hgt)
    rw [if_pos hlt, if_pos hlt]

theorem getBit_conditional_unknown {c t e : PackedVec} (hc : c.isTrue = false)
    (hk : c.isKnown = false) {i : Nat} (hi : i < max t.width e.width) :
    (conditional c t e).getBit i = if t.getBit i = e.getBit i then t.getBit i else .x := by
  have ht : (t.resize (max t.width e.width) false).getBit i = t.getBit i := by
    rw [getBit_resize_unsigned, if_pos hi]
  have he : (e.resize (max t.width e.width) false).getBit i = e.getBit i := by
    rw [getBit_resize_unsigned, if_pos hi]
  have hc' : c.1.isTrue = false := hc
  have hk' : c.1.isKnown = false := hk
  show (Alu.conditional c.1 t.1 e.1).getBit i = _
  unfold Alu.conditional
  dsimp only
  rw [hc', hk']
  simp only [Bool.false_eq_true, if_false]
  rw [getBit_writeWhere _ _ _ (Canonical.canonical_x _), Canonical.width_x, Canonical.getBit_x]
  have hi' : i < max t.1.width e.1.width := hi
  have hmem : i ∈ List.range (max t.1.width e.1.width) := List.mem_range.mpr hi'
  simp only [hmem, hi', true_and, and_true, if_true]
  have ht' : (t.1.resize (max t.1.width e.1.width) false).getBit i = t.getBit i := ht
  have he' : (e.1.resize (max t.1.width e.1.width) false).getBit i = e.getBit i := he
  rw [ht', he']

/-! ### Conditionals -/

theorem conditional_true {c : PackedVec} (hc : c.isTrue = true) (t e : PackedVec) :
    conditional c t e = t.resize (max t.width e.width) false := by
  have hc' : c.1.isTrue = true := hc
  apply Subtype.ext
  show Alu.conditional c.1 t.1 e.1 = _
  unfold Alu.conditional
  rw [if_pos hc']
  rfl

theorem conditional_false {c : PackedVec} (hc : c.isTrue = false) (hk : c.isKnown = true)
    (t e : PackedVec) : conditional c t e = e.resize (max t.width e.width) false := by
  have hc' : ¬ c.1.isTrue = true := Bool.eq_false_iff.mp hc
  have hk' : c.1.isKnown = true := hk
  apply Subtype.ext
  show Alu.conditional c.1 t.1 e.1 = _
  unfold Alu.conditional
  rw [if_neg hc', if_pos hk']
  rfl

/-- The merged bits of the branches. -/
theorem getBit_conditional (c t e : PackedVec) {i : Nat} (hi : i < max t.width e.width) :
    (conditional c t e).getBit i =
      if c.isTrue then t.getBit i
      else if c.isKnown then e.getBit i
      else if t.getBit i = e.getBit i then t.getBit i else .x := by
  by_cases hc : c.isTrue = true
  · rw [conditional_true hc, getBit_resize_unsigned, if_pos hi, if_pos hc]
  · have hc' := Bool.eq_false_iff.mpr hc
    by_cases hk : c.isKnown = true
    · rw [conditional_false hc' hk, getBit_resize_unsigned, if_pos hi, if_neg hc, if_pos hk]
    · rw [getBit_conditional_unknown hc' (Bool.eq_false_iff.mpr hk) hi, if_neg hc, if_neg hk]

/-- Resizing the branches resizes the result. -/
theorem conditional_resize (c t e : PackedVec) (n : Nat) :
    conditional c (t.resize n false) (e.resize n false) =
      (conditional c t e).resize n false := by
  ext i hi
  · simp [width_conditional]
  · simp only [width_conditional, width_resize, Nat.max_self] at hi
    have hi' : i < max (t.resize n false).width (e.resize n false).width := by simpa using hi
    rw [getBit_conditional _ _ _ hi', getBit_resize_unsigned, getBit_resize_unsigned,
      getBit_resize_unsigned, if_pos hi, if_pos hi, if_pos hi]
    by_cases hm : i < max t.width e.width
    · rw [getBit_conditional _ _ _ hm]
    · have hw : (conditional c t e).width ≤ i := by
        rw [width_conditional]
        exact Nat.le_of_not_lt hm
      rw [getBit_of_ge _ hw, getBit_of_ge t (by omega), getBit_of_ge e (by omega)]
      simp
end Eevee.Core.Logic.PackedVec
