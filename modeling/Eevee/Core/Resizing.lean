/- Resizing in one step or in two, there and back, and what it does to a vector's value. -/

import Mathlib.Tactic.Common
import Eevee.Core.Numeric

set_option autoImplicit false
set_option relaxedAutoImplicit false

namespace Eevee.Core.Resizing

open Eevee.Core.Logic
open Eevee.Core.Logic.PackedVec
open Eevee.Core.Numeric

variable {v : PackedVec} {a b : Nat}

theorem extension_eq (v : PackedVec) (signed : Bool) : v.1.extension signed =
    if signed then (if v.getBit (v.width - 1) = .z then .x else v.getBit (v.width - 1))
    else .zero := by
  unfold LogicVec.extension
  have hsign : v.1.getBit (v.1.width - 1) = v.getBit (v.width - 1) := rfl
  cases signed
  · rfl
  · rw [hsign]
    cases v.getBit (v.width - 1) <;> rfl

theorem extension_ne_z (v : PackedVec) (signed : Bool) : v.1.extension signed ≠ .z := by
  rw [extension_eq]
  cases signed
  · simp
  · cases v.getBit (v.width - 1) <;> simp

/-- The sign bit of an extended vector extends like the one of the vector itself: a Z has become
an X. -/
theorem extension_resize (h : v.width ≤ a) (signed : Bool) :
    (v.resize a signed).1.extension signed = v.1.extension signed := by
  rcases Nat.eq_or_lt_of_le h with rfl | hlt
  · rw [PackedVec.resize_self]
  cases signed
  · rfl
  · have htop : (v.resize a true).getBit (a - 1) = v.1.extension true := by
      rw [getBit_resize v a true (by omega), if_neg (by omega)]
    have hne := extension_ne_z v true
    rw [extension_eq, if_pos rfl, PackedVec.width_resize, htop, if_neg hne]

theorem resize_extend (h : v.width ≤ a) (signed : Bool) :
    (v.resize a signed).resize b signed = v.resize b signed := by
  apply PackedVec.ext_bits
  · rw [PackedVec.width_resize, PackedVec.width_resize]
  · intro i hi
    rw [PackedVec.width_resize] at hi
    rw [getBit_resize _ b signed hi, getBit_resize v b signed hi, PackedVec.width_resize,
      extension_resize h]
    by_cases hia : i < a
    · rw [if_pos hia, getBit_resize v a signed hia]
    · rw [if_neg hia, if_neg (by omega)]

/-- The low bits do not depend on the signedness. -/
theorem getBit_truncate (h : a ≤ v.width) (signed : Bool) {i : Nat} (hi : i < a) :
    (v.resize a signed).getBit i = v.getBit i := by
  rw [getBit_resize v a signed hi, if_pos (by omega)]

theorem resize_truncate (h : a ≤ v.width) (hba : b ≤ a) (s s' s'' : Bool) :
    (v.resize a s).resize b s' = v.resize b s'' := by
  apply PackedVec.ext_bits
  · rw [PackedVec.width_resize, PackedVec.width_resize]
  · intro i hi
    rw [PackedVec.width_resize] at hi
    have hwidth : b ≤ (v.resize a s).width := by rwa [PackedVec.width_resize]
    rw [getBit_truncate hwidth s' hi, getBit_truncate h s (by omega),
      getBit_truncate (by omega) s'' hi]

theorem resize_back (h : v.width ≤ a) (s s' : Bool) : (v.resize a s).resize v.width s' = v := by
  apply PackedVec.ext_bits
  · rw [PackedVec.width_resize]
  · intro i hi
    rw [PackedVec.width_resize] at hi
    have hwidth : v.width ≤ (v.resize a s).width := by rwa [PackedVec.width_resize]
    rw [getBit_truncate hwidth s' hi, getBit_resize v a s (by omega), if_pos hi]

/-- Two extensions of one signedness are one, two truncations are one whatever the signedness, a
truncation undoes an extension, and an extension of its signedness keeps a known value. -/
theorem resize_composes (v : PackedVec) (a b : Nat) :
    (v.width ≤ a → a ≤ b → ∀ signed,
      (v.resize a signed).resize b signed = v.resize b signed) ∧
    (a ≤ v.width → b ≤ a → ∀ s s' s'', (v.resize a s).resize b s' = v.resize b s'') ∧
    (v.width ≤ a → ∀ s s', (v.resize a s).resize v.width s' = v) ∧
    (v.isKnown = true → v.width ≤ a →
      ((v.resize a true).isKnown = true ∧ toInt (v.resize a true) = toInt v) ∧
      (v.resize a false).isKnown = true ∧ toNat (v.resize a false) = toNat v) := by
  refine ⟨fun h _ signed => resize_extend h signed, fun h hba => resize_truncate h hba,
    fun h => resize_back h, fun hk h => ⟨⟨?_, ?_⟩, ?_, ?_⟩⟩
  · exact isKnown_resize hk
  · exact toInt_resize h
  · exact isKnown_resize hk
  · exact toNat_resize_unsigned h

/-- From inline to limb storage by way of the largest inline width. -/
theorem resize_composes_minus_one :
    ((PackedVec.ones 3).resize 64 true).resize 70 true = (PackedVec.ones 3).resize 70 true ∧
    ((PackedVec.ones 3).resize 2 true).resize 1 false = (PackedVec.ones 3).resize 1 true ∧
    ((PackedVec.ones 3).resize 64 true).resize 3 false = PackedVec.ones 3 ∧
    toInt ((PackedVec.ones 3).resize 64 true) = toInt (PackedVec.ones 3) := by
  obtain ⟨hextend, -, hback, hknown⟩ := resize_composes (PackedVec.ones 3) 64 70
  obtain ⟨-, htruncate, -, -⟩ := resize_composes (PackedVec.ones 3) 2 1
  exact ⟨hextend (by decide) (by decide) true,
    htruncate (by decide) (by decide) true false true, hback (by decide) true false,
    (hknown (by decide) (by decide)).1.2⟩

end Eevee.Core.Resizing
