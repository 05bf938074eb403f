/- Which element of an associative array, and which member of an enumeration, a vector stands
for. -/

import Mathlib.Data.List.Basic
import Mathlib.Tactic.Common
import Mathlib.Tactic.SplitIfs
import Eevee.Ir.Collections
import Eevee.Ir.Iteration

set_option autoImplicit false
set_option relaxedAutoImplicit false

namespace Eevee.Ir.Keys

open Eevee.Core.Logic
open Eevee.Core.Numeric
open Eevee.Ir.Collections
open Eevee.Ir.Iteration (store)
open Eevee.Ir.Locations
open Eevee.Ir.Objects
open Eevee.Lib.Binary
open Eevee.Lib.Cursor

/-! ### Enumerations -/

/-- The table of an enumeration; of members with one value the first keeps its name. -/
def enumTable (members : List (String × PackedVec)) : List (Int × String) :=
  members.foldl (fun table m =>
    if table.any (·.1 = toI64 m.2) then table else table ++ [(toI64 m.2, m.1)]) []

def nameAt (table : List (Int × String)) (value : Int) : String :=
  ((table.find? (·.1 = value)).map (·.2)).getD (toString value)

/-- The name of an enumeration value, or its decimal text. -/
def enumName (table : List (Int × String)) (src : PackedVec) : String := nameAt table (toI64 src)

/-! ### Designation -/

/-- Every operation with this vector as an index works on the element with this key. -/
structure ActsOn (v : PackedVec) (k : Key) : Prop where
  get : ∀ t id, indexGet t (.assoc id) (.logic v) = some (read t (.entry id k))
  set : ∀ (t : State) base id value, t.regs base = .assoc id →
    indexSet t base (.logic v) value = some (store t value (.entry id k))
  present : ∀ addr (s : State) id entries arg, s.regs arg = .logic v →
    assocMethod addr s id entries .exists [arg] =
      (s, intVal (if (lookupEntry entries k).isSome then 1 else 0))
  delete : ∀ addr (s : State) id entries arg, s.regs arg = .logic v →
    assocMethod addr s id entries .delete [arg] =
      (setAssoc s id (entries.filter (·.1 ≠ k)), .null)
  next : ∀ addr (s : State) id entries arg, s.regs arg = .logic v →
    assocMethod addr s id entries .next [arg] =
      moveTo s arg ((following (keyLt addr) (keysOf entries) k).map keyToValue)
  prev : ∀ addr (s : State) id entries arg, s.regs arg = .logic v →
    assocMethod addr s id entries .prev [arg] =
      moveTo s arg ((following (fun a b => keyLt addr b a) (keysOf entries) k).map keyToValue)
  name : ∃ z, k = .int z ∧ ∀ members, enumName (enumTable members) v = nameAt (enumTable members) z

/-- Two vectors stand for one element, and one enumeration member. -/
def SameElement (a b : PackedVec) : Prop := ∃ k, ActsOn a k ∧ ActsOn b k

theorem actsOn_key (v : PackedVec) : ActsOn v (valueToKey (.logic v)) where
  get _ _ := rfl
  set t base id value hbase := by
    unfold indexSet
    rw [hbase]
    rfl
  present addr s id entries arg harg := by
    unfold assocMethod
    dsimp only
    rw [harg]
  delete addr s id entries arg harg := by
    unfold assocMethod
    dsimp only
    rw [harg]
  next addr s id entries arg harg := by
    unfold assocMethod
    dsimp only
    rw [harg]
  prev addr s id entries arg harg := by
    unfold assocMethod
    dsimp only
    rw [harg]
  name := ⟨toI64 v, rfl, fun _ => rfl⟩

/-- A vector works on one element only: in an array with just this entry it finds it. -/
theorem ActsOn.unique {v : PackedVec} {k : Key} (h : ActsOn v k) : k = valueToKey (.logic v) := by
  have hread := (h.get ⟨fun _ => .null, fun _ => .null, fun _ => .zero 1,
    ⟨[], [], [[(k, .str "")]]⟩⟩ 0).symm.trans ((actsOn_key v).get _ 0)
  by_contra hne
  have hmiss : lookupEntry [(k, Val.str "")] (valueToKey (.logic v)) = none := by
    unfold lookupEntry
    rw [List.find?_cons_of_neg (by simpa using hne)]
    rfl
  have hhit : lookupEntry [(k, Val.str "")] k = some (.str "") := by
    unfold lookupEntry
    rw [List.find?_cons_of_pos (by simp)]
    rfl
  have hvalues : (lookupEntry [(k, Val.str "")] k).getD .null =
      (lookupEntry [(k, Val.str "")] (valueToKey (.logic v))).getD .null :=
    Option.some.inj hread
  rw [hmiss, hhit] at hvalues
  cases hvalues

theorem sameElement_iff (a b : PackedVec) : SameElement a b ↔ toI64 a = toI64 b := by
  constructor
  · rintro ⟨k, ha, hb⟩
    exact Key.int.inj (ha.unique.symm.trans hb.unique)
  · intro heq
    have hkey : valueToKey (.logic a) = valueToKey (.logic b) := congrArg Key.int heq
    exact ⟨_, actsOn_key a, hkey ▸ actsOn_key b⟩

/-! ### When the key is the number -/

/-- The low 64 bits, unknown bits read as 0. -/
def low (v : PackedVec) : Nat := toNat v % 2 ^ 64

/-- The width that the conversion looks at. -/
def span (v : PackedVec) : Nat := min v.width 64

/-- The bit that the conversion takes for the sign. -/
def sign (v : PackedVec) : Bool := isOne v (span v - 1)

/-- The same key: below the sign bit the same number, and with the sign bit the same distance to
the end of the range. -/
def SameBits (a b : PackedVec) : Prop :=
  sign a = sign b ∧
    if sign a then 2 ^ span a - low a = 2 ^ span b - low b else low a = low b

/-- Equal values need clear sign bits or equal widths; different values, and a known key against an
index with unknown bits, must not come out as the same key. -/
def Distinguished (a b : PackedVec) : Prop :=
  (a.isKnown = true → b.isKnown = true →
    if toNat a = toNat b then sign a = sign b ∧ (sign a = true → span a = span b)
    else ¬ SameBits a b) ∧
  (a.isKnown = false → b.isKnown = true → ¬ SameBits a b)

/-- Fully known vectors stand for one element exactly when their values are equal, and a vector with
an unknown bit never stands for the element of a known one. -/
def NumericIdentity (a b : PackedVec) : Prop :=
  (a.isKnown = true → b.isKnown = true → (SameElement a b ↔ toNat a = toNat b)) ∧
  (a.isKnown = false → b.isKnown = true → ¬ SameElement a b)

section

variable {v : PackedVec}

theorem low_bounds (v : PackedVec) : low v < 2 ^ span v ∧
    if sign v then 2 ^ (span v - 1) ≤ low v else low v < 2 ^ (span v - 1) := by
  have htest : ∀ i, (low v).testBit i = (decide (i < 64) && isOne v i) := by
    intro i
    unfold low Eevee.Core.Numeric.toNat
    rw [Nat.testBit_mod_two_pow, testBit_value]
    by_cases hi : i < v.width
    · simp [hi]
    · simp [hi, isOne_of_ge (Nat.le_of_not_lt hi)]
  have hlt : low v < 2 ^ span v := by
    apply Nat.lt_pow_two_of_testBit
    intro i hi
    unfold span at hi
    rw [htest]
    by_cases h64 : i < 64
    · have hout : v.width ≤ i := by omega
      rw [isOne_of_ge hout, Bool.and_false]
    · simp [h64]
  refine ⟨hlt, ?_⟩
  by_cases hzero : span v = 0
  · have hsign : sign v = false := by
      unfold sign
      apply isOne_of_ge
      unfold span at hzero ⊢
      omega
    rw [hsign, hzero]
    rw [hzero] at hlt
    simpa using hlt
  · have hbit : (low v).testBit (span v - 1) = sign v := by
      have h64 : span v - 1 < 64 := by
        unfold span
        omega
      rw [htest]
      simp [h64, sign]
    have hpow : 2 ^ span v = 2 * 2 ^ (span v - 1) := by
      rw [← Nat.pow_succ', Nat.succ_eq_add_one, Nat.sub_add_cancel (Nat.pos_of_ne_zero hzero)]
    by_cases hs : sign v = true
    · rw [if_pos hs]
      exact Nat.ge_two_pow_of_testBit (hbit.trans hs)
    · rw [if_neg hs]
      apply Nat.lt_pow_two_of_testBit
      intro i hi
      rcases Nat.lt_or_ge i (span v) with hin | hout
      · obtain rfl : i = span v - 1 := by omega
        rw [hbit]
        exact Bool.eq_false_of_not_eq_true hs
      · exact Nat.testBit_lt_two_pow (Nat.lt_of_lt_of_le hlt
          (Nat.pow_le_pow_right Nat.two_pos hout))

theorem toI64_low (v : PackedVec) :
    toI64 v = (low v : Int) - if sign v then ((2 ^ span v : Nat) : Int) else 0 := by
  rw [toI64_eq]
  by_cases hw : v.width < 64
  · have hspan : span v = v.width := min_eq_left hw.le
    have hlow : low v = toNat v := Nat.mod_eq_of_lt (Nat.lt_of_lt_of_le (toNat_lt v)
      (Nat.pow_le_pow_right Nat.two_pos hw.le))
    unfold sign
    rw [if_pos hw, hspan, hlow]
    unfold toInt
    push_cast
    split_ifs <;> simp
  · have hspan : span v = 64 := min_eq_right (Nat.le_of_not_lt hw)
    have hnat : (BitVec.ofNat 64 (toNat v)).toNat = low v := BitVec.toNat_ofNat _ _
    have hbounds := (low_bounds v).2
    rw [if_neg hw, BitVec.toInt_eq_toNat_cond, hnat]
    rw [hspan] at hbounds ⊢
    by_cases hs : sign v = true
    · rw [if_pos hs] at hbounds ⊢
      rw [if_neg (by omega)]
    · rw [if_neg hs] at hbounds ⊢
      rw [if_pos (by omega), sub_zero]

end

/-- Keys are equal exactly when sign and distance are. -/
theorem toI64_eq_iff (a b : PackedVec) : toI64 a = toI64 b ↔ SameBits a b := by
  obtain ⟨ha, -⟩ := low_bounds a
  obtain ⟨hb, -⟩ := low_bounds b
  unfold SameBits
  rw [toI64_low, toI64_low]
  generalize 2 ^ span a = p at *
  generalize 2 ^ span b = q at *
  cases sign a <;> cases sign b <;> simp <;> omega

theorem sameBits_of_eq {a b : PackedVec} (h : toNat a = toNat b) :
    SameBits a b ↔ sign a = sign b ∧ (sign a = true → span a = span b) := by
  have hlow : low a = low b := congrArg (· % 2 ^ 64) h
  obtain ⟨ha, -⟩ := low_bounds a
  obtain ⟨hb, -⟩ := low_bounds b
  unfold SameBits
  rw [hlow] at ha ⊢
  refine and_congr_right fun _ => ?_
  by_cases hs : sign a = true
  · rw [if_pos hs]
    constructor
    · intro heq _
      have hpow : 2 ^ span a = 2 ^ span b := by omega
      exact Nat.pow_right_injective (le_refl 2) hpow
    · intro himp
      rw [himp hs]
  · rw [if_neg hs]
    exact iff_of_true rfl fun hc => absurd hc hs

/-- Two index vectors keep their numeric identity if and only if they are distinguished. -/
theorem numeric_identity_iff (a b : PackedVec) : NumericIdentity a b ↔ Distinguished a b := by
  unfold NumericIdentity Distinguished
  simp only [sameElement_iff, toI64_eq_iff]
  refine and_congr_left fun _ => forall₂_congr fun _ _ => ?_
  by_cases heq : toNat a = toNat b
  · rw [if_pos heq, ← sameBits_of_eq heq]
    exact iff_true_right heq
  · rw [if_neg heq]
    exact iff_false_right heq

/-- One bit and eight bits of value 1 are two elements; 8'hFF and 16'hFFFF are one; an unknown bit
is read as 0. -/
theorem numeric_identity_lost :
    ¬ NumericIdentity (PackedVec.fromU64 1 1) (PackedVec.fromU64 1 8) ∧
    ¬ NumericIdentity (PackedVec.fromU64 0xFF 8) (PackedVec.fromU64 0xFFFF 16) ∧
    ¬ NumericIdentity (PackedVec.x 8) (PackedVec.fromU64 0 8) := by
  refine ⟨fun h => ?_, fun h => ?_, fun h => ?_⟩
  · have hsame := (h.1 (by decide) (by decide)).mpr (by decide)
    exact absurd ((sameElement_iff _ _).mp hsame) (by decide)
  · have hvalue := (h.1 (by decide) (by decide)).mp ((sameElement_iff _ _).mpr (by decide))
    exact absurd hvalue (by decide)
  · exact h.2 (by decide) (by decide) ((sameElement_iff _ _).mpr (by decide))

end Eevee.Ir.Keys
