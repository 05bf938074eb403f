/- Numbers as sequences of bits and of machine words, least significant first. -/

import Mathlib.Data.List.Basic
import Mathlib.Data.Nat.Bitwise
import Mathlib.Tactic.Common
import Mathlib.Tactic.Ring

set_option autoImplicit false
set_option relaxedAutoImplicit false

namespace Eevee.Lib.Binary

/-! ### Bits -/

/-- The number whose binary digits are the first bits of a sequence. -/
def value (p : Nat → Bool) : Nat → Nat
  | 0 => 0
  | n + 1 => value p n + if p n then 2 ^ n else 0

section Bits

variable {p q : Nat → Bool} {n m : Nat}

theorem value_lt (p : Nat → Bool) (n : Nat) : value p n < 2 ^ n := by
  induction n with
  | zero => exact Nat.one_pos
  | succ n ih =>
    rw [value, Nat.pow_succ]
    split <;> omega

theorem testBit_value (p : Nat → Bool) (n i : Nat) :
    (value p n).testBit i = (decide (i < n) && p i) := by
  induction n with
  | zero => simp [value]
  | succ n ih =>
    have hsum : value p (n + 1) = 2 ^ n * (p n).toNat + value p n := by
      rw [value]
      cases p n <;> simp [Nat.add_comm]
    rw [hsum, Nat.testBit_two_pow_mul_add _ (value_lt p n), ih]
    rcases Nat.lt_trichotomy i n with h | rfl | h
    · simp [h, Nat.lt_succ_of_lt h]
    · cases p i <;> simp
    · have hn : ¬ i < n + 1 := by omega
      have hs : i - n ≠ 0 := by omega
      have hone : Nat.testBit 1 (i - n) = false :=
        Bool.eq_false_iff.mpr fun ht => hs (Nat.testBit_one_eq_true_iff_self_eq_zero.mp ht)
      cases p n <;> simp [hn, hone, Nat.not_lt.mpr (Nat.le_of_lt h)]

theorem value_congr (h : ∀ i < n, p i = q i) : value p n = value q n := by
  apply Nat.eq_of_testBit_eq
  intro i
  rw [testBit_value, testBit_value]
  by_cases hi : i < n
  · rw [h i hi]
  · simp [hi]

theorem value_inj : value p n = value q n ↔ ∀ i < n, p i = q i := by
  refine ⟨fun h i hi => ?_, value_congr⟩
  have hbit : (value p n).testBit i = (value q n).testBit i := by rw [h]
  simpa [testBit_value, hi] using hbit

/-- Cutting a number to its low bits. -/
theorem value_testBit (m n : Nat) : value m.testBit n = m % 2 ^ n := by
  apply Nat.eq_of_testBit_eq
  intro i
  rw [testBit_value, Nat.testBit_mod_two_pow]

/-- Bits past the end add nothing. -/
theorem value_extend (h : ∀ i, n ≤ i → p i = false) (hnm : n ≤ m) : value p m = value p n := by
  apply Nat.eq_of_testBit_eq
  intro i
  rw [testBit_value, testBit_value]
  by_cases hi : i < n
  · simp [hi, Nat.lt_of_lt_of_le hi hnm]
  · simp [hi, h i (Nat.le_of_not_lt hi)]

/-- The upper bits of a longer sequence are all set. -/
theorem value_ones (h : ∀ i, n ≤ i → i < m → p i = true) (hnm : n ≤ m) :
    value p m = value p n + (2 ^ m - 2 ^ n) := by
  induction m with
  | zero =>
    obtain rfl : n = 0 := by omega
    rfl
  | succ m ih =>
    by_cases he : n = m + 1
    · subst he
      omega
    · have hle : n ≤ m := by omega
      have hpow : 2 ^ n ≤ 2 ^ m := Nat.pow_le_pow_right Nat.two_pos hle
      rw [value, h m hle (Nat.lt_succ_self m), ih (fun i hi hm => h i hi (by omega)) hle,
        Nat.pow_succ]
      simp only [if_true]
      omega

/-- The highest position where two sequences differ decides. -/
theorem findSome_compare (p q : Nat → Bool) (n : Nat) :
    ((List.range n).reverse.findSome? fun i =>
      if p i ≠ q i then some (if q i then Ordering.lt else Ordering.gt) else none).getD .eq =
      compare (value p n) (value q n) := by
  induction n with
  | zero => rfl
  | succ n ih =>
    rw [List.range_succ, List.reverse_append, List.reverse_singleton, List.singleton_append,
      List.findSome?_cons, value, value]
    have hp := value_lt p n
    have hq := value_lt q n
    cases hpn : p n <;> cases hqn : q n
    · simpa [hpn, hqn] using ih
    · have hlt : compare (value p n) (value q n + 2 ^ n) = .lt :=
        compare_lt_iff_lt.mpr (by omega)
      simp [hlt]
    · have hgt : compare (value p n + 2 ^ n) (value q n) = .gt :=
        compare_gt_iff_gt.mpr (by omega)
      simp [hgt]
    · have hshift : compare (value p n + 2 ^ n) (value q n + 2 ^ n) =
          compare (value p n) (value q n) := by
        rcases Nat.lt_trichotomy (value p n) (value q n) with h | h | h
        · rw [compare_lt_iff_lt.mpr h, compare_lt_iff_lt.mpr (by omega)]
        · rw [h, compare_eq_iff_eq.mpr rfl, compare_eq_iff_eq.mpr rfl]
        · rw [compare_gt_iff_gt.mpr h, compare_gt_iff_gt.mpr (by omega)]
      simpa [hshift] using ih

end Bits

/-! ### Words -/

/-- The number in `n` words of 64 bits, from word `i` on. -/
def words (f : Nat → BitVec 64) : Nat → Nat → Nat
  | _, 0 => 0
  | i, n + 1 => 2 ^ 64 * words f (i + 1) n + (f i).toNat

theorem testBit_words (f : Nat → BitVec 64) (i n j : Nat) : (words f i n).testBit j =
    (decide (j < 64 * n) && (f (i + j / 64)).getLsbD (j % 64)) := by
  induction n generalizing i j with
  | zero => simp [words]
  | succ n ih =>
    rw [words, Nat.testBit_two_pow_mul_add _ (f i).isLt]
    by_cases hj : j < 64
    · have hdiv : j / 64 = 0 := Nat.div_eq_of_lt hj
      have hlt : j < 64 * (n + 1) := by omega
      rw [if_pos hj, hdiv, Nat.add_zero, Nat.mod_eq_of_lt hj]
      simp [hlt, BitVec.getLsbD]
    · have hdiv : i + 1 + (j - 64) / 64 = i + j / 64 := by omega
      have hmod : (j - 64) % 64 = j % 64 := by omega
      have hiff : j - 64 < 64 * n ↔ j < 64 * (n + 1) := by omega
      rw [if_neg hj, ih, hdiv, hmod]
      simp only [hiff]

/-- The complement of every word. -/
theorem words_not (f : Nat → BitVec 64) (i n : Nat) :
    words (fun i => ~~~f i) i n + words f i n + 1 = 2 ^ (64 * n) := by
  induction n generalizing i with
  | zero => rfl
  | succ n ih =>
    have hrest := ih (i + 1)
    have hnot : (~~~f i).toNat + (f i).toNat + 1 = 2 ^ 64 := by
      have hlt := (f i).isLt
      rw [BitVec.toNat_not]
      omega
    rw [words, words, Nat.mul_succ, Nat.pow_add, Nat.mul_comm (2 ^ (64 * n)), ← hrest]
    ring_nf
    ring_nf at hnot
    omega

/-- One column of a sum with a carry. -/
theorem column (s rest m : Nat) : s % 2 ^ 64 + 2 ^ 64 * ((rest + s / 2 ^ 64) % m) =
    (2 ^ 64 * rest + s) % (2 ^ 64 * m) := by
  have hdiv : (2 ^ 64 * rest + s) / 2 ^ 64 = rest + s / 2 ^ 64 :=
    Nat.mul_add_div (Nat.two_pow_pos 64) rest s
  rw [Nat.mod_mul, Nat.mul_add_mod, hdiv]

end Eevee.Lib.Binary
