/- The shift instructions against shifts by the whole amount, and their 32-bit index sums. -/

import Mathlib.Data.List.Basic
import Mathlib.Tactic.Common
import Mathlib.Tactic.SplitIfs
import Eevee.Core.Numeric
import Eevee.Ir.XSound

set_option autoImplicit false
set_option relaxedAutoImplicit false

namespace Eevee.Ir.Shifts

open Eevee.Core.Alu
open Eevee.Core.Logic
open Eevee.Core.Numeric
open Eevee.Ir.Inst
open Eevee.Ir.XSound (shlBit shrBit ashrBit)

inductive Shift
  | shl | shr | ashr
  deriving DecidableEq

def Shift.inst : Shift → BinaryInst
  | .shl => .shl
  | .shr => .shr
  | .ashr => .ashr

/-! ### The exact shift -/

/-- What stands outside the range of the operand: zero, or its sign bit with Z read as X. -/
def Shift.fill (a : PackedVec) : Shift → Bit
  | .shl | .shr => .zero
  | .ashr => if a.getBit (a.width - 1) = .z then .x else a.getBit (a.width - 1)

/-- The bit that a shift by `n` places, of any size, brings to place `i`. -/
def Shift.bit (a : PackedVec) (n i : Nat) : Shift → Bit
  | .shl => if n ≤ i then a.getBit (i - n) else Shift.shl.fill a
  | .shr => if i + n < a.width then a.getBit (i + n) else Shift.shr.fill a
  | .ashr => if i + n < a.width then a.getBit (i + n) else Shift.ashr.fill a

/-- The sums of an index and the amount that the loop of a shift forms in 32 bits; on inline planes
the logical shifts work on whole words, and a left shift only subtracts. -/
def Shift.sums (a : PackedVec) (amt : Nat) : Shift → List Nat
  | .shl => []
  | .shr =>
    match a.1.repr with
    | .small _ _ => []
    | .wide _ _ => (List.range a.width).map (· + amt)
  | .ashr => (List.range a.width).map (· + amt)

/-- The instruction shifts by the unsigned value of its amount, and no index sum overflows. -/
structure Exact (op : Shift) (a b : PackedVec) : Prop where
  result : ∃ r, op.inst.exec a b = some r ∧ r.width = a.width ∧
    ∀ i < a.width, r.getBit i = op.bit a (toNat b) i
  sums : ∀ s ∈ op.sums a b.toU32, s < 0x100000000

/-! ### When the 32-bit amount does the same -/

/-- The bits of the operand that a shift by `amt` keeps within its width. -/
def Shift.kept (width amt : Nat) : Shift → Nat → Prop
  | .shl, i => i + amt < width
  | .shr, i | .ashr, i => amt ≤ i ∧ i < width

/-- No index sum reaches 2 ^ 32. -/
def Shift.inBounds (width amt : Nat) : Shift → Prop
  | .shl => True
  | .shr => width ≤ 64 ∨ width - 1 + amt < 0x100000000
  | .ashr => width - 1 + amt < 0x100000000

/-- The amount fits in 32 bits, or what its low 32 bits leave in range is fill already. -/
def Safe (op : Shift) (a b : PackedVec) : Prop :=
  op.inBounds a.width (toNat b % 0x100000000) ∧ (toNat b < 0x100000000 ∨
    ∀ i, op.kept a.width (toNat b % 0x100000000) i → a.getBit i = op.fill a)

theorem signFill_eq (a : PackedVec) : signFill a.1 = Shift.ashr.fill a := by
  show _ = if a.1.getBit (a.1.width - 1) = .z then _ else a.1.getBit (a.1.width - 1)
  unfold signFill
  cases a.1.getBit (a.1.width - 1) <;> rfl

theorem sums_map {width amt : Nat} (hw : 0 < width ∨ amt < 0x100000000) :
    (∀ s ∈ (List.range width).map (· + amt), s < 0x100000000) ↔
      width - 1 + amt < 0x100000000 := by
  constructor
  · intro h
    by_cases hzero : width = 0
    · subst hzero
      simpa using hw
    · exact h _ (List.mem_map.mpr ⟨width - 1, List.mem_range.mpr (by omega), rfl⟩)
  · intro h s hs
    obtain ⟨i, hi, rfl⟩ := List.mem_map.mp hs
    have hlt : i < width := List.mem_range.mp hi
    show i + amt < _
    omega

theorem sums_iff (op : Shift) (a b : PackedVec) :
    (∀ s ∈ op.sums a b.toU32, s < 0x100000000) ↔ op.inBounds a.width (toNat b % 0x100000000) := by
  have hamt : toNat b % 0x100000000 < 0x100000000 := Nat.mod_lt _ (by decide)
  rw [toU32_eq]
  cases op with
  | shl => simp [Shift.sums, Shift.inBounds]
  | shr =>
    have hs := a.2.storage
    unfold Shift.sums Shift.inBounds
    cases hr : a.1.repr with
    | small x y =>
      rw [hr] at hs
      have hw : a.width ≤ 64 := hs
      simp [hw]
    | wide x y =>
      rw [hr] at hs
      have hw : ¬ a.width ≤ 64 := Nat.not_le.mpr hs.1
      rw [or_iff_right hw]
      exact sums_map (.inr hamt)
  | ashr => exact sums_map (.inr hamt)

/-- Within bounds the instruction is a shift by the amount modulo 2 ^ 32. -/
theorem exec_bit (op : Shift) {a b : PackedVec}
    (h : op.inBounds a.width (toNat b % 0x100000000)) :
    ∃ r, op.inst.exec a b = some r ∧ r.width = a.width ∧
      ∀ i < a.width, r.getBit i = op.bit a (toNat b % 0x100000000) i := by
  cases op with
  | shl =>
    refine ⟨a.shl b.toU32, rfl, PackedVec.width_shl _ _, fun i hi => ?_⟩
    rw [PackedVec.getBit_shl _ hi, toU32_eq]
    rfl
  | shr =>
    refine ⟨a.shr b.toU32, rfl, PackedVec.width_shr _ _, fun i hi => ?_⟩
    have hindex : (if a.width ≤ 64 then i + toNat b % 0x100000000
        else addU32 i (toNat b % 0x100000000)) = i + toNat b % 0x100000000 := by
      by_cases hw : a.width ≤ 64
      · rw [if_pos hw]
      · have hsum := (or_iff_right hw).mp h
        rw [if_neg hw]
        exact Nat.mod_eq_of_lt (by omega)
    rw [PackedVec.getBit_shr _ hi, toU32_eq, hindex]
    show _ = if i + _ < a.width then _ else _
    split_ifs with hin
    · rfl
    · exact PackedVec.getBit_of_ge a (Nat.le_of_not_lt hin)
  | ashr =>
    refine ⟨a.ashr b.toU32, rfl, PackedVec.width_ashr _ _, fun i hi => ?_⟩
    have hsum : a.width - 1 + toNat b % 0x100000000 < 0x100000000 := h
    have hindex : addU32 i (toNat b % 0x100000000) = i + toNat b % 0x100000000 :=
      Nat.mod_eq_of_lt (by omega)
    rw [PackedVec.getBit_ashr _ hi, toU32_eq, hindex, signFill_eq]
    rfl

/-- An amount past the width shifts everything out. -/
theorem bit_of_width_le (op : Shift) {a : PackedVec} {n i : Nat} (hn : a.width ≤ n)
    (hi : i < a.width) : op.bit a n i = op.fill a := by
  cases op with
  | shl => exact if_neg (by omega)
  | shr => exact if_neg (by omega)
  | ashr => exact if_neg (by omega)

/-- A shift yields fill alone exactly when all it keeps is fill. -/
theorem bits_fill_iff (op : Shift) (a : PackedVec) (amt : Nat) :
    (∀ i < a.width, op.bit a amt i = op.fill a) ↔
      ∀ i, op.kept a.width amt i → a.getBit i = op.fill a := by
  have right : (∀ i < a.width, (if i + amt < a.width then a.getBit (i + amt) else op.fill a) =
      op.fill a) ↔ ∀ i, amt ≤ i ∧ i < a.width → a.getBit i = op.fill a := by
    constructor
    · intro h i hi
      have hat := h (i - amt) (by omega)
      rwa [Nat.sub_add_cancel hi.1, if_pos hi.2] at hat
    · intro h i hi
      split_ifs with hin
      · exact h _ ⟨Nat.le_add_left _ _, hin⟩
      · rfl
  cases op with
  | shl =>
    constructor
    · intro h i hi
      have hkept : i + amt < a.width := hi
      have hat := h (i + amt) hkept
      have hle : amt ≤ i + amt := Nat.le_add_left _ _
      unfold Shift.bit at hat
      rwa [if_pos hle, Nat.add_sub_cancel] at hat
    · intro h i hi
      show (if amt ≤ i then a.getBit (i - amt) else _) = _
      split_ifs with hle
      · have hkept : i - amt + amt < a.width := by omega
        exact h _ hkept
      · rfl
  | shr => exact right
  | ashr => exact right

/-- A shift is exact if and only if no index sum overflows and either the amount fits in 32 bits or
the bits that its low 32 bits leave in range are fill already. -/
theorem shift_exact_iff (op : Shift) (a b : PackedVec) (hwidth : a.width < 0x100000000) :
    Exact op a b ↔ Safe op a b := by
  have hresult : op.inBounds a.width (toNat b % 0x100000000) →
      ((∃ r, op.inst.exec a b = some r ∧ r.width = a.width ∧
        ∀ i < a.width, r.getBit i = op.bit a (toNat b) i) ↔
      (toNat b < 0x100000000 ∨
        ∀ i, op.kept a.width (toNat b % 0x100000000) i → a.getBit i = op.fill a)) := by
    intro hbounds
    obtain ⟨r, hexec, hwidth', hbits⟩ := exec_bit op hbounds
    by_cases hfit : toNat b < 0x100000000
    · rw [Nat.mod_eq_of_lt hfit] at hbits
      exact iff_of_true ⟨r, hexec, hwidth', hbits⟩ (.inl hfit)
    · have hout : ∀ i < a.width, op.bit a (toNat b) i = op.fill a := fun i hi =>
        bit_of_width_le op (by omega) hi
      rw [or_iff_right hfit, ← bits_fill_iff op a]
      constructor
      · rintro ⟨r', hexec', _, hbits'⟩ i hi
        obtain rfl : r = r' := Option.some.inj (hexec.symm.trans hexec')
        rw [← hbits i hi, hbits' i hi, hout i hi]
      · intro hfill
        exact ⟨r, hexec, hwidth', fun i hi => by rw [hbits i hi, hfill i hi, hout i hi]⟩
  constructor
  · intro h
    have hbounds := (sums_iff op a b).mp h.sums
    exact ⟨hbounds, (hresult hbounds).mp h.result⟩
  · intro h
    exact ⟨(hresult h.1).mpr h.2, (sums_iff op a b).mpr h.1⟩

theorem shift_exact_by_three :
    Exact .ashr (PackedVec.fromU64 0xA5 8) (PackedVec.fromU64 3 4) :=
  (shift_exact_iff .ashr _ _ (by decide)).mpr
    ⟨show 8 - 1 + toNat (PackedVec.fromU64 3 4) % 0x100000000 < 0x100000000 by decide,
      .inl (by decide)⟩

/-- A left shift by 2 ^ 32 moves nothing. -/
theorem shift_by_two_pow_32_inexact :
    ¬ Exact .shl (PackedVec.fromU64 1 8) (PackedVec.fromU64 0x100000000 33) := by
  intro h
  obtain ⟨r, hexec, _, hbits⟩ := h.result
  have hr : r = (PackedVec.fromU64 1 8).shl 0 := (Option.some.inj hexec).symm
  have hbit := hbits 0 (by decide)
  rw [hr] at hbit
  exact absurd hbit (by decide)

end Eevee.Ir.Shifts
