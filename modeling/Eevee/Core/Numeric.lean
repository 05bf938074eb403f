/- Vectors as integers: arithmetic modulo a power of two, and comparison. -/

import Mathlib.Data.Int.ModEq
import Mathlib.Tactic.Common
import Mathlib.Tactic.Ring
import Eevee.Core.Packed
import Eevee.Lib.Binary

set_option autoImplicit false
set_option relaxedAutoImplicit false

namespace Eevee.Core.Numeric

open Eevee.Core.Alu
open Eevee.Core.Logic
open Eevee.Core.Logic.PackedVec
open Eevee.Core.Canonical
open Eevee.Lib.Binary

/-- Whether a bit is a known 1. -/
def isOne (v : PackedVec) (i : Nat) : Bool := decide (v.getBit i = .one)

/-- The unsigned value. -/
def toNat (v : PackedVec) : Nat := value (isOne v) v.width

/-- The two's complement value at the vector's own width. -/
def toInt (v : PackedVec) : Int :=
  if isOne v (v.width - 1) then (toNat v : Int) - 2 ^ v.width else toNat v

/-- The known vector of the given width that holds an integer modulo a power of two. -/
structure Denotes (v : PackedVec) (n : Nat) (z : Int) : Prop where
  width : v.width = n
  known : v.isKnown = true
  value : (toNat v : Int) = z % 2 ^ n

section Values

variable {v w : PackedVec}

theorem isOne_of_ge {i : Nat} (h : v.width ≤ i) : isOne v i = false := by
  unfold isOne
  rw [getBit_of_ge v h]
  rfl

theorem toNat_lt (v : PackedVec) : toNat v < 2 ^ v.width := value_lt _ _

/-- Known bits are equal when both are 1 or neither is. -/
theorem eq_of_isOne (hv : v.isKnown = true) (hw : w.isKnown = true) (hwidth : v.width = w.width)
    (h : ∀ i < v.width, isOne v i = isOne w i) : v = w := by
  apply PackedVec.ext_bits hwidth
  intro i hi
  have hbv := PackedVec.isKnown_iff.mp hv i hi
  have hbw := PackedVec.isKnown_iff.mp hw i (hwidth ▸ hi)
  have hone := h i hi
  unfold isOne at hone
  cases hv : v.getBit i <;> cases hw : w.getBit i <;>
    simp_all [Bit.isUnknown]

/-- An integer modulo a power of two is held by one vector only. -/
theorem Denotes.unique {n : Nat} {z : Int} (h : Denotes v n z) (h' : Denotes w n z) :
    v = w := by
  have hwidth : v.width = w.width := h.width.trans h'.width.symm
  have hnat : toNat v = toNat w := Int.ofNat.inj (h.value.trans h'.value.symm)
  refine eq_of_isOne h.known h'.known hwidth (value_inj.mp ?_)
  unfold toNat at hnat
  rwa [← hwidth] at hnat

theorem aBit_eq (hv : v.isKnown = true) (i : Nat) : v.1.repr.aBit i = isOne v i := by
  have hb : v.1.repr.bBit i = false := (isKnown_iff_planes v.1).mp hv i
  have hbit : v.getBit i = Bit.ofPlaneBits (v.1.repr.aBit i) (v.1.repr.bBit i) :=
    getBit_planes v.2 i
  unfold isOne
  rw [hbit, hb]
  cases v.1.repr.aBit i <;> rfl

/-- The limbs of a known vector, past the last one too, hold its value. -/
theorem words_limbAval (hv : v.isKnown = true) {n : Nat} (hn : v.width ≤ 64 * n) :
    words (limbAval v.1) 0 n = toNat v := by
  apply Nat.eq_of_testBit_eq
  intro i
  rw [testBit_words, Nat.zero_add, getLsbD_limbAval, aBit_eq hv]
  unfold toNat
  rw [testBit_value]
  by_cases hi : i < v.width
  · simp [hi, Nat.lt_of_lt_of_le hi hn]
  · simp [hi, isOne_of_ge (Nat.le_of_not_lt hi)]

/-- The low word of a vector of any width, its unknown bits read as 0. -/
theorem toU64_eq (v : PackedVec) : v.toU64 = toNat v % 2 ^ 64 := by
  apply Nat.eq_of_testBit_eq
  intro i
  rw [Nat.testBit_mod_two_pow]
  show v.1.toU64.getLsbD i = _
  unfold toNat
  rw [testBit_value]
  by_cases hi : i < 64
  · have hword : v.1.toU64.getLsbD i = (v.1.repr.aBit i && !v.1.repr.bBit i) := by
      have hlow : i / 64 = 0 ∧ i % 64 = i := by omega
      unfold LogicVec.toU64 LogicRepr.aBit LogicRepr.bBit limbBit
      cases v.1.repr <;> simp [hi, hlow.1, hlow.2]
    have hone : isOne v i = (v.1.repr.aBit i && !v.1.repr.bBit i) := by
      have hbit : v.getBit i = Bit.ofPlaneBits (v.1.repr.aBit i) (v.1.repr.bBit i) :=
        getBit_planes v.2 i
      unfold isOne
      rw [hbit]
      cases v.1.repr.aBit i <;> cases v.1.repr.bBit i <;> rfl
    rw [hword, ← hone]
    by_cases hw : i < v.width
    · simp [hi, hw]
    · simp [hi, hw, isOne_of_ge (Nat.le_of_not_lt hw)]
  · simp [hi, BitVec.getLsbD_of_ge _ _ (Nat.le_of_not_lt hi)]

/-- The cast to 32 bits keeps the value modulo 2 ^ 32. -/
theorem toU32_eq (v : PackedVec) : v.toU32 = toNat v % 0x100000000 := by
  unfold PackedVec.toU32
  rw [toU64_eq]
  exact Nat.mod_mod_of_dvd _ (by decide)

theorem toNat_toU64 (hv : v.isKnown = true) (hw : v.width ≤ 64) :
    v.1.toU64.toNat = toNat v := by
  have hlimb : v.1.toU64 = limbAval v.1 0 := by
    have hb := (isKnown_iff_planes v.1).mp hv
    unfold LogicVec.toU64 limbAval
    cases hr : v.1.repr with
    | small aval bval =>
      have hz : bval = 0 := by
        rw [word_eq_zero_iff]
        intro i
        have := hb i
        rwa [hr] at this
      have hones : ~~~(0 : BitVec 64) = BitVec.allOnes 64 := by decide
      rw [hz]
      show aval &&& ~~~(0 : BitVec 64) = aval
      rw [hones, BitVec.and_allOnes]
    | wide aval bval =>
      have hs := v.2.storage
      rw [hr] at hs
      exact absurd hw (Nat.not_le.mpr hs.1)
  have hwords := words_limbAval hv (n := 1) (by omega)
  rw [hlimb, ← hwords]
  simp [words]

theorem toNat_fromU64 (val : BitVec 64) (n : Nat) : toNat (fromU64 val n) = val.toNat % 2 ^ n := by
  rw [← value_testBit]
  unfold toNat
  rw [PackedVec.width_fromU64]
  apply value_congr
  intro i hi
  have hbit : (fromU64 val n).getBit i = ofBool (val.getLsbD i) := Canonical.getBit_fromU64 val hi
  unfold isOne
  rw [hbit]
  cases hl : val.getLsbD i <;> simp [ofBool, BitVec.getLsbD] at hl ⊢ <;> exact hl

theorem isKnown_fromU64 (val : BitVec 64) (n : Nat) : (fromU64 val n).isKnown = true := by
  rw [PackedVec.isKnown_iff]
  intro i hi
  have hi' : i < n := by rwa [PackedVec.width_fromU64] at hi
  have hbit : (fromU64 val n).getBit i = ofBool (val.getLsbD i) := Canonical.getBit_fromU64 val hi'
  rw [hbit]
  cases val.getLsbD i <;> rfl

end Values

/-! ### Sums and differences -/

section Sums

theorem words_congr {f g : Nat → BitVec 64} {i j n : Nat} (h : ∀ k < n, f (i + k) = g (j + k)) :
    words f i n = words g j n := by
  induction n generalizing i j with
  | zero => rfl
  | succ n ih =>
    have hrest : words f (i + 1) n = words g (j + 1) n := by
      refine ih fun k hk => ?_
      rw [Nat.add_assoc, Nat.add_comm 1, Nat.add_assoc j, Nat.add_comm 1]
      exact h (k + 1) (Nat.succ_lt_succ hk)
    rw [words, words, hrest]
    exact congrArg (fun x => _ + BitVec.toNat x) (h 0 (Nat.succ_pos n))

/-- The second operand of the limb loop. -/
def operand (w : LogicVec) (sub : Bool) (i : Nat) : BitVec 64 :=
  if sub then ~~~limbAval w i else limbAval w i

/-- The limb loop adds with the carry that it starts from. -/
theorem words_addsubLimbs (v w : LogicVec) (sub : Bool) (n i carry : Nat) :
    words (fun k => (addsubLimbs v w sub n i carry).getD k 0) 0 n =
      (words (limbAval v) i n + words (operand w sub) i n + carry) % 2 ^ (64 * n) := by
  induction n generalizing i carry with
  | zero => simp [words, Nat.mod_one]
  | succ n ih =>
    generalize hs : (limbAval v i).toNat + (operand w sub i).toNat + carry = s
    have hlist : addsubLimbs v w sub (n + 1) i carry =
        BitVec.ofNat 64 s :: addsubLimbs v w sub n (i + 1) (s / 2 ^ 64) := by
      rw [← hs]
      rfl
    have hrest : words (fun k => (addsubLimbs v w sub (n + 1) i carry).getD k 0) 1 n =
        words (fun k => (addsubLimbs v w sub n (i + 1) (s / 2 ^ 64)).getD k 0) 0 n := by
      refine words_congr fun k _ => ?_
      rw [hlist, Nat.add_comm 1, Nat.zero_add]
      rfl
    have hfirst : ((addsubLimbs v w sub (n + 1) i carry).getD 0 0).toNat = s % 2 ^ 64 := by
      rw [hlist]
      exact BitVec.toNat_ofNat s 64
    have htotal : words (limbAval v) i (n + 1) + words (operand w sub) i (n + 1) + carry =
        2 ^ 64 * (words (limbAval v) (i + 1) n + words (operand w sub) (i + 1) n) + s := by
      rw [words, words, ← hs, Nat.mul_add]
      omega
    rw [htotal, Nat.mul_succ, Nat.pow_add, Nat.mul_comm (2 ^ (64 * n)), ← column]
    show 2 ^ 64 * words (fun k => (addsubLimbs v w sub (n + 1) i carry).getD k 0) 1 n + _ = _
    rw [hrest, ih, hfirst, Nat.add_comm]

theorem sub_emod {a b m n : Nat} (hb : b ≤ 2 ^ m) (hn : n ≤ m) :
    (((2 ^ m - b + a) % 2 ^ n : Nat) : Int) = ((a : Int) - b) % 2 ^ n := by
  have hdvd : (2 ^ n : Int) ∣ 2 ^ m := pow_dvd_pow 2 hn
  obtain ⟨c, hc⟩ := hdvd
  have hcast : ((2 ^ m - b + a : Nat) : Int) = (a : Int) - b + 2 ^ n * c := by
    rw [← hc]
    push_cast [Nat.cast_sub hb]
    ring
  rw [Int.natCast_mod, hcast]
  push_cast
  exact Int.add_mul_emod_self_left _ _ _

variable {v w : PackedVec} {n : Nat}

theorem denotes_fromU64 {val : BitVec 64} {z : Int}
    (h : ((val.toNat % 2 ^ n : Nat) : Int) = z % 2 ^ n) :
    Denotes (fromU64 val n) n z where
  width := PackedVec.width_fromU64 val n
  known := isKnown_fromU64 val n
  value := by rw [toNat_fromU64, h]

/-- The value of a wide sum or difference. -/
theorem toNat_wideAddsub (hn : 64 < n) (sub : Bool) :
    toNat ⟨wideAddsub v.1 w.1 sub n, canonical_wideAddsub _ _ _ hn⟩ =
      (words (limbAval v.1) 0 (limbsFor n) + words (operand w.1 sub) 0 (limbsFor n) +
        if sub then 1 else 0) % 2 ^ (64 * limbsFor n) % 2 ^ n := by
  rw [← words_addsubLimbs, ← value_testBit]
  refine value_congr fun i hi => ?_
  have hi' : i < n := hi
  have hlt : i < 64 * limbsFor n := by
    have := limbsFor_spec n i hi'
    omega
  rw [testBit_words, Nat.zero_add, ← aBit_eq]
  · have hbit := (planes_wide (i := i)
      (length_addsubLimbs v.1 w.1 sub (limbsFor n) 0 (if sub then 1 else 0))
      (List.length_replicate (n := limbsFor n) (a := (0 : BitVec 64)))).1
    refine hbit.trans ?_
    simp [hi', hlt, limbBit]
  · refine (isKnown_iff_planes _).mpr fun j => ?_
    refine (planes_wide (length_addsubLimbs v.1 w.1 sub (limbsFor n) 0 (if sub then 1 else 0))
      List.length_replicate).2.trans ?_
    rw [limbBit_replicate, Bool.and_false]

theorem limbs_cover {m : Nat} (hm : m ≤ n) : m ≤ 64 * limbsFor n := by
  unfold limbsFor
  omega

theorem denotes_wideAddsub (hn : 64 < n) (sub : Bool) {z : Int}
    (h : (((words (limbAval v.1) 0 (limbsFor n) + words (operand w.1 sub) 0 (limbsFor n) +
      if sub then 1 else 0) % 2 ^ n : Nat) : Int) = z % 2 ^ n) :
    Denotes ⟨wideAddsub v.1 w.1 sub n, canonical_wideAddsub _ _ _ hn⟩ n z where
  width := rfl
  known := by
    refine (isKnown_iff_planes _).mpr fun j => ?_
    refine (planes_wide (length_addsubLimbs v.1 w.1 sub (limbsFor n) 0 (if sub then 1 else 0))
      List.length_replicate).2.trans ?_
    rw [limbBit_replicate, Bool.and_false]
  value := by
    have hle : n ≤ 64 * limbsFor n := limbs_cover (Nat.le_refl n)
    rw [toNat_wideAddsub hn, Nat.mod_mod_of_dvd _ (pow_dvd_pow 2 hle), h]

variable (hv : v.isKnown = true) (hw : w.isKnown = true)
include hv hw

/-- Known operands take the narrow or the wide path. -/
theorem known_path {α : Type} (a b c : α) :
    (if (!v.1.isKnown || !w.1.isKnown) = true then a else
      if max v.1.width w.1.width ≤ 64 then b else c) =
      if max v.width w.width ≤ 64 then b else c := by
  have hv' : v.1.isKnown = true := hv
  have hw' : w.1.isKnown = true := hw
  rw [hv', hw']
  rfl

theorem denotes_add : Denotes (PackedVec.add v w) (max v.width w.width) (toNat v + toNat w) := by
  have hpath : (PackedVec.add v w).1 = _ := known_path hv hw _ _ _
  by_cases hn : max v.width w.width ≤ 64
  · have hadd : PackedVec.add v w = fromU64 (v.1.toU64 + w.1.toU64) (max v.width w.width) :=
      Subtype.ext (hpath.trans (if_pos hn))
    rw [hadd]
    refine denotes_fromU64 ?_
    rw [BitVec.toNat_add, toNat_toU64 hv (Nat.le_trans (Nat.le_max_left _ _) hn),
      toNat_toU64 hw (Nat.le_trans (Nat.le_max_right _ _) hn),
      Nat.mod_mod_of_dvd _ (pow_dvd_pow 2 hn)]
    push_cast
    rfl
  · have hn' : 64 < max v.width w.width := Nat.lt_of_not_le hn
    have hadd : PackedVec.add v w = ⟨wideAddsub v.1 w.1 false (max v.width w.width),
        canonical_wideAddsub _ _ _ hn'⟩ := Subtype.ext (hpath.trans (if_neg hn))
    rw [hadd]
    refine denotes_wideAddsub hn' false ?_
    have hop : operand w.1 false = limbAval w.1 := rfl
    rw [hop, words_limbAval hv (limbs_cover (Nat.le_max_left _ _)),
      words_limbAval hw (limbs_cover (Nat.le_max_right _ _))]
    push_cast
    simp

theorem denotes_sub : Denotes (PackedVec.sub v w) (max v.width w.width) (toNat v - toNat w) := by
  have hpath : (PackedVec.sub v w).1 = _ := known_path hv hw _ _ _
  have hwide : toNat w < 2 ^ (64 * limbsFor (max v.width w.width)) :=
    Nat.lt_of_lt_of_le (toNat_lt w)
      (Nat.pow_le_pow_right Nat.two_pos (limbs_cover (Nat.le_max_right _ _)))
  by_cases hn : max v.width w.width ≤ 64
  · have hw64 : w.width ≤ 64 := Nat.le_trans (Nat.le_max_right _ _) hn
    have hsub : PackedVec.sub v w = fromU64 (v.1.toU64 - w.1.toU64) (max v.width w.width) :=
      Subtype.ext (hpath.trans (if_pos hn))
    rw [hsub]
    refine denotes_fromU64 ?_
    have hlt : toNat w ≤ 2 ^ 64 :=
      Nat.le_of_lt (Nat.lt_of_lt_of_le (toNat_lt w) (Nat.pow_le_pow_right Nat.two_pos hw64))
    rw [BitVec.toNat_sub, toNat_toU64 hv (Nat.le_trans (Nat.le_max_left _ _) hn),
      toNat_toU64 hw hw64, Nat.mod_mod_of_dvd _ (pow_dvd_pow 2 hn), sub_emod hlt hn]
  · have hn' : 64 < max v.width w.width := Nat.lt_of_not_le hn
    have hsub : PackedVec.sub v w = ⟨wideAddsub v.1 w.1 true (max v.width w.width),
        canonical_wideAddsub _ _ _ hn'⟩ := Subtype.ext (hpath.trans (if_neg hn))
    rw [hsub]
    refine denotes_wideAddsub hn' true ?_
    -- the complemented limbs and the first carry make the two's complement
    have hop : operand w.1 true = fun i => ~~~limbAval w.1 i := rfl
    have hnot := words_not (limbAval w.1) 0 (limbsFor (max v.width w.width))
    rw [words_limbAval hw (limbs_cover (Nat.le_max_right _ _))] at hnot
    have hsum : toNat v + words (operand w.1 true) 0 (limbsFor (max v.width w.width)) + 1 =
        2 ^ (64 * limbsFor (max v.width w.width)) - toNat w + toNat v := by
      rw [hop]
      omega
    rw [words_limbAval hv (limbs_cover (Nat.le_max_left _ _)), if_pos rfl, hsum]
    exact sub_emod (Nat.le_of_lt hwide) (limbs_cover (Nat.le_refl _))

theorem denotes_mul (hn : max v.width w.width ≤ 64) :
    ∃ u, PackedVec.mul v w = some u ∧ Denotes u (max v.width w.width) (toNat v * toNat w) := by
  have hpath : Alu.mul v.1 w.1 = _ := known_path hv hw _ _ _
  refine ⟨fromU64 (v.1.toU64 * w.1.toU64) (max v.width w.width),
    PackedVec.mul_eq_some.mpr (hpath.trans (if_pos hn)), denotes_fromU64 ?_⟩
  rw [BitVec.toNat_mul, toNat_toU64 hv (Nat.le_trans (Nat.le_max_left _ _) hn),
    toNat_toU64 hw (Nat.le_trans (Nat.le_max_right _ _) hn),
    Nat.mod_mod_of_dvd _ (pow_dvd_pow 2 hn)]
  push_cast
  rfl

end Sums

theorem toNat_zero (n : Nat) : toNat (PackedVec.zero n) = 0 := by
  unfold toNat
  rw [PackedVec.width_zero, value_congr (q := fun _ => false)]
  · induction n with
    | zero => rfl
    | succ n ih => simpa [value] using ih
  · intro i _
    unfold isOne
    have hbit : (PackedVec.zero n).getBit i = .zero := Logic.getBit_zero n i
    rw [hbit]
    rfl

theorem denotes_neg {v : PackedVec} (hv : v.isKnown = true) :
    Denotes (PackedVec.neg v) v.width (-(toNat v : Int)) := by
  have hzero : (PackedVec.zero v.width).isKnown = true := by
    refine PackedVec.isKnown_iff.mpr fun i _ => ?_
    have hbit : (PackedVec.zero v.width).getBit i = .zero := Logic.getBit_zero _ i
    rw [hbit]
    rfl
  have h := denotes_sub hzero hv
  rw [toNat_zero, PackedVec.width_zero, Nat.max_self, Nat.cast_zero, Int.zero_sub] at h
  exact h

/-! ### Comparison -/

/-- Integers at the same distance compare alike. -/
theorem compare_shift {a b : Nat} {x y : Int} (h : y - x = (b : Int) - a) :
    compare a b = compare x y := by
  rcases Nat.lt_trichotomy a b with hab | hab | hab
  · rw [compare_lt_iff_lt.mpr hab, compare_lt_iff_lt.mpr (by omega)]
  · rw [compare_eq_iff_eq.mpr hab, compare_eq_iff_eq.mpr (by omega)]
  · rw [compare_gt_iff_gt.mpr hab, compare_gt_iff_gt.mpr (by omega)]

section Comparison

variable {v w : PackedVec} {n : Nat} (hv : v.isKnown = true) (hw : w.isKnown = true)

theorem isOne_resize (v : PackedVec) (signed : Bool) {i : Nat} (hi : i < n) :
    isOne (v.resize n signed) i =
      if i < v.width then isOne v i else signed && isOne v (v.width - 1) := by
  unfold isOne
  rw [PackedVec.getBit_resize v n signed hi]
  split_ifs
  · rfl
  · unfold LogicVec.extension
    have hsign : v.1.getBit (v.1.width - 1) = v.getBit (v.width - 1) := rfl
    cases signed
    · rfl
    · rw [hsign]
      cases v.getBit (v.width - 1) <;> rfl

theorem value_resize (hn : v.width ≤ n) : value (isOne (v.resize n false)) n = toNat v := by
  unfold toNat
  rw [← value_extend (fun i hi => isOne_of_ge hi) hn]
  refine value_congr fun i hi => ?_
  rw [isOne_resize v false hi]
  split_ifs with hlt
  · rfl
  · exact (isOne_of_ge (Nat.le_of_not_lt hlt)).symm

theorem toNat_resize_unsigned (hn : v.width ≤ n) : toNat (v.resize n false) = toNat v := by
  rw [← value_resize hn]
  unfold toNat
  rw [PackedVec.width_resize]

theorem toInt_resize (hn : v.width ≤ n) : toInt (v.resize n true) = toInt v := by
  by_cases he : n = v.width
  · have hid : v.resize n true = v := PackedVec.resize_of_width_eq he.symm true
    rw [hid]
  · have hlt : v.width < n := Nat.lt_of_le_of_ne hn (Ne.symm he)
    have hlow : value (isOne (v.resize n true)) v.width = toNat v :=
      value_congr fun i hi => by rw [isOne_resize v true (Nat.lt_of_lt_of_le hi hn), if_pos hi]
    have hsign : ∀ i, v.width ≤ i → i < n →
        isOne (v.resize n true) i = isOne v (v.width - 1) := by
      intro i hi hin
      rw [isOne_resize v true hin, if_neg (Nat.not_lt.mpr hi), Bool.true_and]
    have hpow : 2 ^ v.width ≤ 2 ^ n := Nat.pow_le_pow_right Nat.two_pos hn
    unfold toInt
    rw [PackedVec.width_resize, hsign (n - 1) (by omega) (by omega)]
    cases hs : isOne v (v.width - 1) with
    | true =>
      have htop : toNat (v.resize n true) = toNat v + (2 ^ n - 2 ^ v.width) := by
        unfold toNat
        rw [PackedVec.width_resize, value_ones (fun i hi hin => (hsign i hi hin).trans hs) hn, hlow]
        rfl
      rw [htop, if_pos rfl, if_pos rfl]
      push_cast [Nat.cast_sub hpow]
      ring
    | false =>
      have htop : toNat (v.resize n true) = toNat v := by
        unfold toNat
        rw [PackedVec.width_resize]
        refine (value_congr (q := isOne v) fun i hi => ?_).trans
          (value_extend (fun i hi => isOne_of_ge hi) hn)
        by_cases hlt' : i < v.width
        · rw [isOne_resize v true hi, if_pos hlt']
        · rw [hsign i (Nat.le_of_not_lt hlt') hi, hs, isOne_of_ge (Nat.le_of_not_lt hlt')]
      rw [htop]
      rfl

theorem isKnown_resize {signed : Bool} (hv : v.isKnown = true) :
    (v.resize n signed).isKnown = true := by
  refine PackedVec.isKnown_iff.mpr fun i hi => ?_
  rw [PackedVec.width_resize] at hi
  rw [PackedVec.getBit_resize v n signed hi]
  split_ifs with hlt
  · exact PackedVec.isKnown_iff.mp hv i hlt
  · unfold LogicVec.extension
    have hsign : v.1.getBit (v.1.width - 1) = v.getBit (v.width - 1) := rfl
    cases signed
    · rfl
    · rw [hsign]
      cases hb : v.getBit (v.width - 1) with
      | zero | one => rfl
      | x | z =>
        by_cases hpos : 0 < v.width
        · have hknown := PackedVec.isKnown_iff.mp hv (v.width - 1) (by omega)
          rw [hb] at hknown
          cases hknown
        · rw [PackedVec.getBit_of_ge v (by omega)] at hb
          cases hb

theorem unknown_or (h : v.isKnown = false ∨ w.isKnown = false) :
    (!v.1.isKnown || !w.1.isKnown) = true := by
  rcases h with h | h
  · have h' : v.1.isKnown = false := h
    rw [h']
    rfl
  · have h' : w.1.isKnown = false := h
    rw [h', Bool.not_false, Bool.or_true]

theorem eqLogical_x (h : v.isKnown = false ∨ w.isKnown = false) :
    PackedVec.eqLogical v w = PackedVec.x 1 := Subtype.ext (if_pos (unknown_or h))

include hv hw

theorem not_unknown : ¬ (!v.1.isKnown || !w.1.isKnown) = true := by
  have hv' : v.1.isKnown = true := hv
  have hw' : w.1.isKnown = true := hw
  rw [hv', hw']
  exact Bool.false_ne_true

theorem eqLogical_eq : PackedVec.eqLogical v w = fromBool (decide (toNat v = toNat w)) := by
  apply Subtype.ext
  show Alu.eqLogical v.1 w.1 =
    LogicVec.fromU64 (if decide (toNat v = toNat w) = true then 1 else 0) 1
  have hle := Nat.le_max_left v.width w.width
  have hle' := Nat.le_max_right v.width w.width
  have hiff : (v.1.resize (max v.1.width w.1.width) false).eqCase
      (w.1.resize (max v.1.width w.1.width) false) = decide (toNat v = toNat w) := by
    rw [Bool.eq_iff_iff, Logic.eqCase_iff (canonical_resize v.2 _ _) (canonical_resize w.2 _ _),
      decide_eq_true_iff, ← toNat_resize_unsigned hle, ← toNat_resize_unsigned hle']
    constructor
    · intro h
      exact congrArg toNat (Subtype.ext h)
    · intro h
      refine congrArg Subtype.val (eq_of_isOne (isKnown_resize hv) (isKnown_resize hw)
        (by rw [PackedVec.width_resize, PackedVec.width_resize]) ?_)
      rw [PackedVec.width_resize]
      unfold toNat at h
      rw [PackedVec.width_resize, PackedVec.width_resize] at h
      exact value_inj.mp h
  unfold Alu.eqLogical
  rw [if_neg (not_unknown hv hw)]
  dsimp only
  rw [hiff]

theorem ucmp_eq : Alu.ucmp v.1 w.1 = some (compare (toNat v) (toNat w)) := by
  have hle := Nat.le_max_left v.width w.width
  have hle' := Nat.le_max_right v.width w.width
  have hcompare := findSome_compare (isOne (v.resize (max v.width w.width) false))
    (isOne (w.resize (max v.width w.width) false)) (max v.width w.width)
  rw [value_resize hle, value_resize hle'] at hcompare
  unfold Alu.ucmp
  rw [if_neg (not_unknown hv hw), ← hcompare]
  simp only [isOne, ne_eq, decide_eq_decide, decide_eq_true_eq, eq_iff_iff]
  rfl

theorem scmp_eq : Alu.scmp v.1 w.1 = some (compare (toInt v) (toInt w)) := by
  have hle := Nat.le_max_left v.width w.width
  have hle' := Nat.le_max_right v.width w.width
  rw [← toInt_resize hle, ← toInt_resize hle']
  generalize hn : max v.width w.width = n
  have hn' : max v.1.width w.1.width = n := hn
  have hlt := toNat_lt (v.resize n true)
  have hlt' := toNat_lt (w.resize n true)
  rw [PackedVec.width_resize] at hlt hlt'
  unfold Alu.scmp
  rw [if_neg (not_unknown hv hw), hn']
  have hucmp : Alu.ucmp (v.1.resize n true) (w.1.resize n true) =
      some (compare (toNat (v.resize n true)) (toNat (w.resize n true))) :=
    ucmp_eq (isKnown_resize hv) (isKnown_resize hw)
  have hsign : ∀ u : PackedVec, (u.1.resize n true).getBit (n - 1) =
      (u.resize n true).getBit (n - 1) := fun _ => rfl
  dsimp only
  rw [hucmp, hsign, hsign]
  unfold toInt
  rw [PackedVec.width_resize, PackedVec.width_resize]
  show (if isOne (v.resize n true) (n - 1) ≠ isOne (w.resize n true) (n - 1) then
    some (if isOne (v.resize n true) (n - 1) = true then Ordering.lt else Ordering.gt) else _) = _
  have hpow : ((2 ^ n : Nat) : Int) = 2 ^ n := by push_cast; rfl
  cases isOne (v.resize n true) (n - 1) <;> cases isOne (w.resize n true) (n - 1)
  · simp only [ne_eq, not_true_eq_false, if_false, Bool.false_eq_true]
    exact congrArg some (compare_shift rfl)
  · simp only [ne_eq, Bool.false_eq_true, not_false_eq_true, if_true, if_false]
    refine congrArg some (compare_gt_iff_gt.mpr ?_).symm
    omega
  · simp only [ne_eq, Bool.true_eq_false, not_false_eq_true, if_true, Bool.false_eq_true, if_false]
    refine congrArg some (compare_lt_iff_lt.mpr ?_).symm
    omega
  · simp only [ne_eq, not_true_eq_false, if_false, if_true]
    exact congrArg some (compare_shift (by ring))

end Comparison

/-! ### The operations on integers -/

section Verdicts

variable {v w : PackedVec}

/-- A comparison that succeeds gives one known bit. -/
theorem verdict_eq {o : Option Ordering} {c : Ordering} {f : Ordering → Bool} {b : Bool}
    (ho : o = some c) (hb : f c = b) :
    (⟨verdict o f, canonical_verdict o f⟩ : PackedVec) = fromBool b := by
  subst ho hb
  rfl

theorem verdict_x {o : Option Ordering} {f : Ordering → Bool} (ho : o = none) :
    (⟨verdict o f, canonical_verdict o f⟩ : PackedVec) = PackedVec.x 1 := by
  subst ho
  rfl

theorem orderings {α : Type} [LinearOrder α] (a b : α) :
    (compare a b == .lt) = decide (a < b) ∧ (compare a b != .gt) = decide (a ≤ b) ∧
      (compare a b == .gt) = decide (b < a) ∧ (compare a b != .lt) = decide (b ≤ a) := by
  rcases lt_trichotomy a b with h | h | h
  · simp [compare_lt_iff_lt.mpr h, h, h.le, not_lt.mpr h.le]
  · simp [h]
  · simp [compare_gt_iff_gt.mpr h, h, h.le, not_lt.mpr h.le]

end Verdicts

/-- Each operation on known vectors is the operation on integers, modulo a power of two or as one
bit; with an unknown bit in an operand the result is all X. -/
theorem arithmetic_homomorphism (v w : PackedVec) :
    (v.isKnown = true → w.isKnown = true →
      Denotes (PackedVec.add v w) (max v.width w.width) (toNat v + toNat w) ∧
      Denotes (PackedVec.sub v w) (max v.width w.width) (toNat v - toNat w) ∧
      (max v.width w.width ≤ 64 → ∃ u, PackedVec.mul v w = some u ∧
        Denotes u (max v.width w.width) (toNat v * toNat w)) ∧
      PackedVec.eqLogical v w = fromBool (decide (toNat v = toNat w)) ∧
      PackedVec.ult v w = fromBool (decide (toNat v < toNat w)) ∧
      PackedVec.ule v w = fromBool (decide (toNat v ≤ toNat w)) ∧
      PackedVec.ugt v w = fromBool (decide (toNat w < toNat v)) ∧
      PackedVec.uge v w = fromBool (decide (toNat w ≤ toNat v)) ∧
      PackedVec.slt v w = fromBool (decide (toInt v < toInt w)) ∧
      PackedVec.sle v w = fromBool (decide (toInt v ≤ toInt w)) ∧
      PackedVec.sgt v w = fromBool (decide (toInt w < toInt v)) ∧
      PackedVec.sge v w = fromBool (decide (toInt w ≤ toInt v))) ∧
    (v.isKnown = true → Denotes (PackedVec.neg v) v.width (-(toNat v : Int))) ∧
    (v.isKnown = false ∨ w.isKnown = false →
      PackedVec.add v w = PackedVec.x (max v.width w.width) ∧
      PackedVec.sub v w = PackedVec.x (max v.width w.width) ∧
      PackedVec.mul v w = some (PackedVec.x (max v.width w.width)) ∧
      PackedVec.eqLogical v w = PackedVec.x 1 ∧
      PackedVec.ult v w = PackedVec.x 1 ∧ PackedVec.ule v w = PackedVec.x 1 ∧
      PackedVec.ugt v w = PackedVec.x 1 ∧ PackedVec.uge v w = PackedVec.x 1 ∧
      PackedVec.slt v w = PackedVec.x 1 ∧ PackedVec.sle v w = PackedVec.x 1 ∧
      PackedVec.sgt v w = PackedVec.x 1 ∧ PackedVec.sge v w = PackedVec.x 1) ∧
    (v.isKnown = false → PackedVec.neg v = PackedVec.x v.width) := by
  have hunknown : ∀ {u u' : PackedVec}, u.isKnown = false ∨ u'.isKnown = false →
      PackedVec.sub u u' = PackedVec.x (max u.width u'.width) :=
    fun h => Subtype.ext (if_pos (unknown_or h))
  refine ⟨fun hv hw => ?_, denotes_neg, fun h => ?_, fun hv => ?_⟩
  · have hu := ucmp_eq hv hw
    have hs := scmp_eq hv hw
    obtain ⟨hult, hule, hugt, huge⟩ := orderings (toNat v) (toNat w)
    obtain ⟨hslt, hsle, hsgt, hsge⟩ := orderings (toInt v) (toInt w)
    exact ⟨denotes_add hv hw, denotes_sub hv hw, denotes_mul hv hw, eqLogical_eq hv hw,
      verdict_eq hu hult, verdict_eq hu hule, verdict_eq hu hugt, verdict_eq hu huge,
      verdict_eq hs hslt, verdict_eq hs hsle, verdict_eq hs hsgt, verdict_eq hs hsge⟩
  · have hor := unknown_or h
    have hu : Alu.ucmp v.1 w.1 = none := if_pos hor
    have hs : Alu.scmp v.1 w.1 = none := if_pos hor
    exact ⟨Subtype.ext (if_pos hor), hunknown h, PackedVec.mul_eq_some.mpr (if_pos hor),
      eqLogical_x h, verdict_x hu, verdict_x hu, verdict_x hu, verdict_x hu, verdict_x hs,
      verdict_x hs, verdict_x hs, verdict_x hs⟩
  · have h := hunknown (.inr hv) (u := PackedVec.zero v.width)
    rw [PackedVec.width_zero, Nat.max_self] at h
    exact h

end Eevee.Core.Numeric
