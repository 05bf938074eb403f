/- The resolved bit of a contribution list that no driver order can change. -/

import Mathlib.Data.List.Perm.Subperm
import Eevee.Sched.ResolutionOrder.Intervals

set_option autoImplicit false
set_option relaxedAutoImplicit false

namespace Eevee.Sched.ResolutionOrder

open Eevee.Core.Logic
open Eevee.Lib.Folds
open Eevee.Sched.Resolution

/-! ### A strictly strongest known value -/

theorem pair_sublist {T S : List StrengthValue} {a b : StrengthValue} (h : a ∈ T) :
    [a, b].Sublist (T ++ b :: S) :=
  (List.singleton_sublist.mpr h).append (List.singleton_sublist.mpr (by simp))

/-- Two X drives that pull a strictly strongest known 0 open: one reaches past it, and
something else has strength on the other side. -/
def SplitsZero (L : List StrengthValue) (l : Levels) : Prop :=
  max l.one l.xOne < l.zero ∧ ∃ z o z' o', [interval z o, interval z' o'].Subperm L ∧
    l.zero < z ∧ (0 < o' ∨ 0 < l.one)

def SplitsOne (L : List StrengthValue) (l : Levels) : Prop :=
  max l.zero l.xZero < l.one ∧ ∃ z o z' o', [interval z o, interval z' o'].Subperm L ∧ l.one < o

/-- What a strictly strongest known 0 leaves behind. -/
structure HeldZero (l : Levels) (v : StrengthValue) : Prop where
  low : v.towardZero.one = false
  reach : l.zero ≤ v.towardZero.strength
  high : v.towardOne.one = false
  top : v.towardOne.strength = l.zero ∨ l.one = 0
  exact : v.towardZero.strength = l.zero → v.towardOne.strength = l.zero

theorem HeldZero.bit {l : Levels} {v : StrengthValue} (h : HeldZero l v) (hl : 0 < l.zero) :
    v.bit = .zero := by
  have hr := h.reach
  have hz : v.isHighZ = false := by simp [StrengthValue.isHighZ]; omega
  simp [StrengthValue.bit, hz, h.low, h.high]

/-- What a strictly strongest known 1 leaves behind. -/
structure HeldOne (l : Levels) (v : StrengthValue) : Prop where
  low : v.towardZero = ⟨true, l.one⟩
  high : v.towardOne.one = true
  reach : l.one ≤ v.towardOne.strength

theorem HeldOne.bit {l : Levels} {v : StrengthValue} (h : HeldOne l v) (hl : 0 < l.one) :
    v.bit = .one := by
  have hr := h.reach
  have hz : v.isHighZ = false := by simp [StrengthValue.isHighZ]; omega
  simp [StrengthValue.bit, hz, h.low, h.high]

section Dominant

variable {L T : List StrengthValue} {l : Levels} {v : StrengthValue}

/-- Absorbing the strongest known 0 closes the end toward 1 at its strength. -/
theorem Ends.heldZero (h : Ends T v) (hT : T ⊆ L) (hl : HasLevels L l)
    (hdom : max l.one l.xOne < l.zero) : HeldZero l (v.resolve (known false l.zero)) ∧
      (v.resolve (known false l.zero)).towardOne.strength = l.zero := by
  have hpos : 0 < l.zero := by omega
  have h1 := h.zeroHigh_le hT hl
  have h2 := h.oneHigh_le hT hl
  have h3 := h.oneLow_le hT hl
  have hne : v ≠ known (!false) l.zero := by
    rintro rfl
    have := h1 rfl
    simp [known] at this
    omega
  rw [resolve_known h.toOriented false hpos, if_neg hne]
  obtain ⟨⟨b₁, s₁⟩, ⟨b₂, s₂⟩⟩ := v
  dsimp only at h1 h2 h3
  have hone : against false l.zero ⟨b₂, s₂⟩ = ⟨false, l.zero⟩ := by
    unfold against
    cases b₂ <;> grind
  have hzero : (against false l.zero ⟨b₁, s₁⟩).one = false ∧
      l.zero ≤ (against false l.zero ⟨b₁, s₁⟩).strength := by
    unfold against
    cases b₁ <;> grind
  rw [hone]
  exact ⟨⟨hzero.1, hzero.2, rfl, .inl rfl, fun _ => rfl⟩, rfl⟩

theorem HeldZero.resolve (hQ : HeldZero l v) (h : Ends T v) {c : StrengthValue} (hc : Drive c)
    {S : List StrengthValue} (hL : L = T ++ c :: S) (hl : HasLevels L l)
    (hdom : max l.one l.xOne < l.zero) (hno : ¬ SplitsZero L l) : HeldZero l (v.resolve c) := by
  have hT : T ⊆ L := hL ▸ List.subset_append_left T (c :: S)
  have hcL : c ∈ L := by simp [hL]
  have h3 := h.oneLow_le hT hl hQ.high
  have hwide := h.exists_wide_zero hT hl hQ.low
  obtain ⟨⟨b₁, s₁⟩, ⟨b₂, s₂⟩⟩ := v
  obtain ⟨low, reach, high, top, exact'⟩ := hQ
  dsimp only at low high reach top exact' h3 hwide
  subst low high
  cases hc with
  | @zero p hp =>
    have hp' := hl.zero_le p hcL
    have hne : (⟨⟨false, s₁⟩, ⟨false, s₂⟩⟩ : StrengthValue) ≠ known (!false) p := by simp [known]
    rw [resolve_known h.toOriented false hp, if_neg hne]
    have hlow : against false p ⟨false, s₁⟩ = ⟨false, s₁⟩ := by
      simp [against, Nat.not_lt.mpr (hp'.trans reach)]
    rw [hlow]
    refine ⟨rfl, reach, ?_, ?_, ?_⟩ <;> unfold against <;> dsimp only <;> split_ifs <;> grind
  | @one q hq =>
    have hq' := hl.one_le q hcL
    have hlow : ¬ q > s₁ := by omega
    have hhigh : ¬ q > s₂ := by omega
    have hne : (⟨⟨false, s₁⟩, ⟨false, s₂⟩⟩ : StrengthValue) ≠ known (!true) q := by
      simp [known]
      omega
    rw [resolve_known h.toOriented true hq, if_neg hne]
    simp only [against, hlow, hhigh, if_false]
    exact ⟨rfl, reach, rfl, top, exact'⟩
  | @x z o hzo =>
    have ho' := hl.xOne_le z o hcL
    have hne : (⟨⟨false, s₁⟩, ⟨false, s₂⟩⟩ : StrengthValue) ≠ interval z o := by simp [interval]
    rw [resolve_interval h.toOriented hzo, if_neg hne]
    by_cases hs : s₁ = s₂
    · subst hs
      have hgt : s₁ > o := by omega
      simp only [hgt, if_true]
      split_ifs with hz
      · exact ⟨rfl, reach, rfl, top, exact'⟩
      · exact ⟨rfl, by dsimp only; omega, rfl, top, by dsimp only; omega⟩
    · -- an X drive has already reached past the known 0, so this one must have no 1 side
      obtain ⟨o₁, ho₁⟩ := hwide (by omega)
      have hpair := (pair_sublist (S := S) (b := interval z o) ho₁).subperm
      have hlt : l.zero < s₁ := by omega
      have hnone : ¬ (0 < o ∨ 0 < l.one) := fun hside =>
        hno ⟨hdom, s₁, o₁, z, o, hL ▸ hpair, hlt, hside⟩
      obtain ⟨rfl, hone⟩ : o = 0 ∧ l.one = 0 := by omega
      have hcoord : (⟨false, s₁⟩ : StrengthPoint) ≠ ⟨false, s₂⟩ := by simpa using hs
      rw [if_neg hcoord]
      simp only [StrengthPoint.coordinate, StrengthPoint.fromCoordinate, Bool.false_eq_true,
        if_false]
      exact ⟨by simp, by dsimp only; omega, by simp, .inr hone, by dsimp only; omega⟩

/-- A strictly strongest known 0 decides the bit unless X drives split it. -/
theorem fold_bit_zero (hL : Contributions L) (hl : HasLevels L l)
    (hdom : max l.one l.xOne < l.zero) (hno : ¬ SplitsZero L l) : (fold L).bit = .zero := by
  have hpos : 0 < l.zero := by omega
  refine HeldZero.bit (l := l) ?_ hpos
  refine fold_absorb hL (HeldZero l) (hl.zero_mem hpos) (.zero hpos)
    ⟨rfl, Nat.le_refl _, rfl, .inl rfl, fun _ => rfl⟩ ?_ ?_
  · intro T v hT hv
    exact (hv.heldZero hT hl hdom).1
  · intro T c S v he hv hc hQ
    exact hQ.resolve hv hc he hl hdom hno

/-- Absorbing the strongest known 1 closes the end toward 0 at its strength. -/
theorem Ends.heldOne (h : Ends T v) (hT : T ⊆ L) (hl : HasLevels L l)
    (hdom : max l.zero l.xZero < l.one) : HeldOne l (v.resolve (known true l.one)) := by
  have hpos : 0 < l.one := by omega
  have h1 := h.zeroHigh_le hT hl
  have h2 := h.zeroLow_le hT hl
  have h3 := h.oneLow_le hT hl
  have hne : v ≠ known (!true) l.one := by
    rintro rfl
    have := h3 rfl
    simp [known] at this
    omega
  rw [resolve_known h.toOriented true hpos, if_neg hne]
  obtain ⟨⟨b₁, s₁⟩, ⟨b₂, s₂⟩⟩ := v
  dsimp only at h1 h2 h3
  refine ⟨?_, ?_, ?_⟩ <;> unfold against <;> dsimp only
  · cases b₁ <;> grind
  · cases b₂ <;> grind
  · cases b₂ <;> grind

theorem HeldOne.resolve (hQ : HeldOne l v) (h : Ends T v) {c : StrengthValue} (hc : Drive c)
    {S : List StrengthValue} (hL : L = T ++ c :: S) (hl : HasLevels L l)
    (hdom : max l.zero l.xZero < l.one) (hno : ¬ SplitsOne L l) : HeldOne l (v.resolve c) := by
  have hT : T ⊆ L := hL ▸ List.subset_append_left T (c :: S)
  have hcL : c ∈ L := by simp [hL]
  have hwide := h.exists_wide_one hT hl hQ.high
  obtain ⟨⟨b₁, s₁⟩, ⟨b₂, s₂⟩⟩ := v
  obtain ⟨low, high, reach⟩ := hQ
  obtain ⟨rfl, rfl⟩ : b₁ = true ∧ s₁ = l.one := by simpa using low
  dsimp only at high reach hwide
  subst high
  cases hc with
  | @zero p hp =>
    have hp' := hl.zero_le p hcL
    have hlow : ¬ p > l.one := by omega
    have hhigh : ¬ p > s₂ := by omega
    have hne : (⟨⟨true, l.one⟩, ⟨true, s₂⟩⟩ : StrengthValue) ≠ known (!false) p := by
      simp [known]
      omega
    rw [resolve_known h.toOriented false hp, if_neg hne]
    simp only [against, hlow, hhigh, if_false]
    exact ⟨rfl, rfl, reach⟩
  | @one q hq =>
    have hq' := hl.one_le q hcL
    have hlow : ¬ q > l.one := by omega
    have hhigh : ¬ q > s₂ := by omega
    have hne : (⟨⟨true, l.one⟩, ⟨true, s₂⟩⟩ : StrengthValue) ≠ known (!true) q := by simp [known]
    rw [resolve_known h.toOriented true hq, if_neg hne]
    simp only [against, hlow, hhigh, if_false]
    exact ⟨rfl, rfl, reach⟩
  | @x z o hzo =>
    have hz' := hl.xZero_le z o hcL
    have hne : (⟨⟨true, l.one⟩, ⟨true, s₂⟩⟩ : StrengthValue) ≠ interval z o := by simp [interval]
    rw [resolve_interval h.toOriented hzo, if_neg hne]
    by_cases hs : l.one = s₂
    · subst hs
      have hgt : l.one > z := by omega
      simp only [hgt, if_true]
      split_ifs
      · exact ⟨rfl, rfl, reach⟩
      · exact ⟨rfl, rfl, by dsimp only; omega⟩
    · -- an X drive has already reached past the known 1, so there is no second one
      obtain ⟨z₁, hz₁⟩ := hwide (by omega)
      have hpair := (pair_sublist (S := S) (b := interval z o) hz₁).subperm
      exact absurd ⟨hdom, z₁, s₂, z, o, hL ▸ hpair, by omega⟩ hno

/-- A strictly strongest known 1 decides the bit unless X drives split it. -/
theorem fold_bit_one (hL : Contributions L) (hl : HasLevels L l)
    (hdom : max l.zero l.xZero < l.one) (hno : ¬ SplitsOne L l) : (fold L).bit = .one := by
  have hpos : 0 < l.one := by omega
  refine HeldOne.bit (l := l) ?_ hpos
  refine fold_absorb hL (HeldOne l) (hl.one_mem hpos) (.one hpos) ⟨rfl, rfl, Nat.le_refl _⟩ ?_ ?_
  · intro T v hT hv
    exact hv.heldOne hT hl hdom
  · intro T c S v he hv hc hQ
    exact hQ.resolve hv hc he hl hdom hno

end Dominant

/-! ### No strictly strongest known value -/

section Open

variable {L T : List StrengthValue} {l : Levels} {v : StrengthValue}

/-- The widest end toward 1 stays once reached, unless a known 0 is stronger. -/
theorem Oriented.keep_high (h : Oriented v) {c : StrengthValue} (hc : Drive c) (hcL : c ∈ L)
    (hl : HasLevels L l) (hle : l.zero ≤ max l.one l.xOne) (hpos : 0 < max l.one l.xOne)
    (hv : v.towardOne = ⟨true, max l.one l.xOne⟩) :
    (v.resolve c).towardOne = ⟨true, max l.one l.xOne⟩ := by
  cases hc with
  | @zero p hp =>
    have hp' := hl.zero_le p hcL
    rw [resolve_known h false hp]
    split
    · next he =>
      have hs : max l.one l.xOne = p := by simpa [he, known] using congrArg (·.strength) hv.symm
      simp [interval, hs]
    · have hng : ¬ p > max l.one l.xOne := by omega
      simp only [hv, against, hng, if_false]
  | @one q hq =>
    have hq' := hl.one_le q hcL
    have hne : v ≠ known (!true) q := fun he => by simp [he, known] at hv
    have hng : ¬ q > max l.one l.xOne := by omega
    rw [resolve_known h true hq, if_neg hne]
    simp only [hv, against, hng, if_false]
  | @x z o hzo =>
    have ho' := hl.xOne_le z o hcL
    rw [resolve_interval h hzo]
    split
    · exact hv
    · split
      · next hp =>
        simp only [hp, hv]
        split_ifs
        · rfl
        · simp only [StrengthPoint.mk.injEq, true_and]
          omega
      · dsimp only
        rw [hv, coordinate_of_one rfl, Int.max_eq_left (by dsimp only; omega)]
        exact fromCoordinate_of_pos hpos

theorem Oriented.keep_low (h : Oriented v) {c : StrengthValue} (hc : Drive c) (hcL : c ∈ L)
    (hl : HasLevels L l) (hle : l.one ≤ max l.zero l.xZero)
    (hv : v.towardZero = ⟨false, max l.zero l.xZero⟩) :
    (v.resolve c).towardZero = ⟨false, max l.zero l.xZero⟩ := by
  cases hc with
  | @zero p hp =>
    have hp' := hl.zero_le p hcL
    have hne : v ≠ known (!false) p := fun he => by simp [he, known] at hv
    have hng : ¬ p > max l.zero l.xZero := by omega
    rw [resolve_known h false hp, if_neg hne]
    simp only [hv, against, hng, if_false]
  | @one q hq =>
    have hq' := hl.one_le q hcL
    rw [resolve_known h true hq]
    split
    · next he =>
      have hs : max l.zero l.xZero = q := by simpa [he, known] using congrArg (·.strength) hv.symm
      simp [interval, hs]
    · have hng : ¬ q > max l.zero l.xZero := by omega
      simp only [hv, against, hng, if_false]
  | @x z o hzo =>
    have hz' := hl.xZero_le z o hcL
    rw [resolve_interval h hzo]
    split
    · exact hv
    · split
      · next hp =>
        simp only [hv]
        split_ifs
        · rfl
        · simp only [StrengthPoint.mk.injEq, true_and]
          omega
      · dsimp only
        rw [hv, coordinate_of_zero rfl, Int.min_eq_left (by dsimp only; omega)]
        exact fromCoordinate_neg _

/-- An X drive with the widest 1 side sets the end toward 1. -/
theorem Ends.high_of_interval (h : Ends T v) (hT : T ⊆ L) (hl : HasLevels L l) {z : Nat}
    (hle : l.zero ≤ max l.one l.xOne) (hpos : 0 < max l.one l.xOne) :
    (v.resolve (interval z (max l.one l.xOne))).towardOne = ⟨true, max l.one l.xOne⟩ := by
  have h1 := h.oneHigh_le hT hl
  have h2 := h.oneLow_le hT hl
  have hs : v.towardOne.strength ≤ max l.one l.xOne := by
    cases hb : v.towardOne.one
    · exact (h2 hb).trans hle
    · exact h1 hb
  rw [resolve_interval h.toOriented (.inr hpos)]
  split
  · next he => rw [he]; rfl
  · split
    · next hp =>
      simp only [hp, Nat.not_lt.mpr hs, if_false]
    · have hc : v.towardOne.coordinate ≤ (max l.one l.xOne : Nat) := by
        unfold StrengthPoint.coordinate
        split_ifs <;> omega
      dsimp only
      rw [Int.max_eq_right hc]
      exact fromCoordinate_of_pos hpos

theorem Ends.low_of_interval (h : Ends T v) (hT : T ⊆ L) (hl : HasLevels L l) {o : Nat}
    (hle : l.one ≤ max l.zero l.xZero) (hd : 0 < max l.zero l.xZero ∨ 0 < o) :
    (v.resolve (interval (max l.zero l.xZero) o)).towardZero = ⟨false, max l.zero l.xZero⟩ := by
  have h1 := h.zeroLow_le hT hl
  have h2 := h.zeroHigh_le hT hl
  have hs : v.towardZero.strength ≤ max l.zero l.xZero := by
    cases hb : v.towardZero.one
    · exact h1 hb
    · exact (h2 hb).trans hle
  rw [resolve_interval h.toOriented hd]
  split
  · next he => rw [he]; rfl
  · split
    · simp only [Nat.not_lt.mpr hs, if_false]
    · have hc : -((max l.zero l.xZero : Nat) : Int) ≤ v.towardZero.coordinate := by
        unfold StrengthPoint.coordinate
        split_ifs <;> omega
      dsimp only
      rw [Int.min_eq_right hc]
      exact fromCoordinate_neg _

/-- A strongest known 1 sets the end toward 1 if it is strict or no drive is stronger. -/
theorem Ends.high_of_known (h : Ends T v) (hT : T ⊆ L) (hl : HasLevels L l)
    (hmax : l.one = max l.one l.xOne) (hle : l.zero ≤ l.one) (hpos : 0 < l.one)
    (htie : l.zero < l.one ∨ max l.zero l.xZero ≤ l.one) :
    (v.resolve (known true l.one)).towardOne = ⟨true, l.one⟩ := by
  have h1 := h.oneHigh_le hT hl
  have h2 := h.oneLow_le hT hl
  have h3 := h.zeroLow_le hT hl
  have ho := h.ordered
  rw [resolve_known h.toOriented true hpos]
  split
  · rfl
  · next hne =>
    obtain ⟨⟨b₁, s₁⟩, ⟨b₂, s₂⟩⟩ := v
    simp only [StrengthPoint.coordinate, known] at h1 h2 h3 ho hne ⊢
    unfold against
    cases b₁ <;> cases b₂ <;> grind

theorem Ends.low_of_known (h : Ends T v) (hT : T ⊆ L) (hl : HasLevels L l)
    (hmax : l.zero = max l.zero l.xZero) (hle : l.one ≤ l.zero) (hpos : 0 < l.zero)
    (htie : l.one < l.zero ∨ max l.one l.xOne ≤ l.zero) :
    (v.resolve (known false l.zero)).towardZero = ⟨false, l.zero⟩ := by
  have h1 := h.zeroHigh_le hT hl
  have h2 := h.zeroLow_le hT hl
  have h3 := h.oneHigh_le hT hl
  have ho := h.ordered
  rw [resolve_known h.toOriented false hpos]
  split
  · rfl
  · next hne =>
    obtain ⟨⟨b₁, s₁⟩, ⟨b₂, s₂⟩⟩ := v
    simp only [StrengthPoint.coordinate, known] at h1 h2 h3 ho hne ⊢
    unfold against
    cases b₁ <;> cases b₂ <;> grind

/-- A known conflict that an X drive on the 0 side alone can hide. -/
def MasksOne (l : Levels) : Prop :=
  0 < l.zero ∧ l.zero = l.one ∧ l.xOne < l.zero ∧ l.zero < l.xZero

/-- A known conflict that an X drive on the 1 side alone can hide. -/
def MasksZero (l : Levels) : Prop :=
  0 < l.zero ∧ l.zero = l.one ∧ l.xZero < l.zero ∧ l.zero < l.xOne

theorem fold_high (hL : Contributions L) (hl : HasLevels L l)
    (hle : l.zero ≤ max l.one l.xOne) (hpos : 0 < max l.one l.xOne) (hno : ¬ MasksOne l) :
    (fold L).towardOne = ⟨true, max l.one l.xOne⟩ := by
  by_cases hx : l.one ≤ l.xOne
  · have hmax : l.xOne = max l.one l.xOne := by omega
    obtain ⟨z, hz⟩ := hl.xOne_mem (by omega)
    rw [hmax] at hz
    refine fold_absorb hL (fun v => v.towardOne = ⟨true, max l.one l.xOne⟩) hz
      (.x (.inr hpos)) rfl ?_ ?_
    · intro T v hT hv
      exact hv.high_of_interval hT hl hle hpos
    · intro T c S v he hv hc hQ
      exact hv.toOriented.keep_high hc (by simp [he]) hl hle hpos hQ
  · have hmax : l.one = max l.one l.xOne := by omega
    have hone : 0 < l.one := by omega
    have htie : l.zero < l.one ∨ max l.zero l.xZero ≤ l.one := by
      unfold MasksOne at hno
      omega
    refine fold_absorb hL (fun v => v.towardOne = ⟨true, max l.one l.xOne⟩) (hl.one_mem hone)
      (.one hone) (by rw [← hmax]; rfl) ?_ ?_
    · intro T v hT hv
      rw [← hmax]
      exact hv.high_of_known hT hl hmax (by omega) hone htie
    · intro T c S v he hv hc hQ
      exact hv.toOriented.keep_high hc (by simp [he]) hl hle hpos hQ

theorem fold_low (hL : Contributions L) (hl : HasLevels L l)
    (hle : l.one ≤ max l.zero l.xZero) (hd : 0 < max l.zero l.xZero ∨ 0 < l.xOne)
    (hno : ¬ MasksZero l) : (fold L).towardZero = ⟨false, max l.zero l.xZero⟩ := by
  by_cases hx : l.zero ≤ l.xZero
  · obtain ⟨o, ho, hzo⟩ : ∃ o, interval (max l.zero l.xZero) o ∈ L ∧
        (0 < max l.zero l.xZero ∨ 0 < o) := by
      have hmax : l.xZero = max l.zero l.xZero := by omega
      by_cases hpos : 0 < l.xZero
      · obtain ⟨o, ho⟩ := hl.xZero_mem hpos
        exact ⟨o, hmax ▸ ho, .inl (by omega)⟩
      · obtain ⟨z, hz⟩ := hl.xOne_mem (by omega)
        have hz0 : z = max l.zero l.xZero := by have := hl.xZero_le _ _ hz; omega
        exact ⟨l.xOne, hz0 ▸ hz, .inr (by omega)⟩
    refine fold_absorb hL (fun v => v.towardZero = ⟨false, max l.zero l.xZero⟩) ho (.x hzo)
      rfl ?_ ?_
    · intro T v hT hv
      exact hv.low_of_interval hT hl hle hzo
    · intro T c S v he hv hc hQ
      exact hv.toOriented.keep_low hc (by simp [he]) hl hle hQ
  · have hmax : l.zero = max l.zero l.xZero := by omega
    have hzero : 0 < l.zero := by omega
    have htie : l.one < l.zero ∨ max l.one l.xOne ≤ l.zero := by
      unfold MasksZero at hno
      omega
    refine fold_absorb hL (fun v => v.towardZero = ⟨false, max l.zero l.xZero⟩)
      (hl.zero_mem hzero) (.zero hzero) (by rw [← hmax]; rfl) ?_ ?_
    · intro T v hT hv
      rw [← hmax]
      exact hv.low_of_known hT hl hmax (by omega) hzero htie
    · intro T c S v he hv hc hQ
      exact hv.toOriented.keep_low hc (by simp [he]) hl hle hQ

/-- Strength on both sides with neither known value strictly strongest resolves to X. -/
theorem fold_bit_x (hL : Contributions L) (hl : HasLevels L l)
    (hzero : l.zero ≤ max l.one l.xOne) (hone : l.one ≤ max l.zero l.xZero)
    (hpos : 0 < max l.one l.xOne) (h0 : ¬ MasksZero l) (h1 : ¬ MasksOne l) :
    (fold L).bit = .x := by
  have high := fold_high hL hl hzero hpos h1
  have low := fold_low hL hl hone (by omega) h0
  have hz : (fold L).isHighZ = false := by
    simp [StrengthValue.isHighZ, high]
    omega
  simp [StrengthValue.bit, hz, high, low]

/-- All X drives have the same reach toward 0 and none toward 1. -/
def Uniform (L : List StrengthValue) : Prop := ∃ z, ∀ c ∈ L, Drive c → c = interval z 0

/-- One X drive so far, or the hull of two different ones, whose end toward 1 decodes as 0. -/
inductive OneSided : List StrengthValue → StrengthValue → Prop
  | idle {T : List StrengthValue} {v : StrengthValue} (hv : v.isHighZ = true)
      (hT : ∀ c ∈ T, c.isHighZ = true) : OneSided T v
  | single {T : List StrengthValue} {z : Nat} (hz : 0 < z) (hmem : interval z 0 ∈ T)
      (hT : ∀ c ∈ T, Drive c → c = interval z 0) : OneSided T (interval z 0)
  | merged {T : List StrengthValue} {m : Nat} (hm : 0 < m) (hT : ¬ Uniform T) :
      OneSided T ⟨⟨false, m⟩, .highZ⟩

theorem not_drive_of_highZ {c : StrengthValue} (h : c.isHighZ = true) : ¬ Drive c := fun hd => by
  simp [hd.oriented.driven] at h

theorem Uniform.of_append {S : List StrengthValue} (h : Uniform (T ++ S)) : Uniform T :=
  h.imp fun _ hz c hc => hz c (List.mem_append_left S hc)

theorem OneSided.resolve_highZ (h : OneSided T v) {c : StrengthValue} (hc : c.isHighZ = true) :
    OneSided (T ++ [c]) (v.resolve c) := by
  have hnc := not_drive_of_highZ hc
  cases h with
  | idle hv hT =>
    rw [resolve_highZ_left hv]
    refine .idle hc fun d hd => ?_
    rcases List.mem_append.mp hd with hd | hd
    · exact hT d hd
    · rwa [List.mem_singleton.mp hd]
  | single hz hmem hT =>
    rw [resolve_highZ_right (Drive.x (.inl hz)).oriented.driven hc]
    refine .single hz (List.mem_append_left _ hmem) fun d hd hdrive => ?_
    rcases List.mem_append.mp hd with hd | hd
    · exact hT d hd hdrive
    · exact absurd (List.mem_singleton.mp hd ▸ hdrive) hnc
  | merged hm hT =>
    rw [resolve_highZ_right (by simp [StrengthValue.isHighZ]; omega) hc]
    exact .merged hm fun hu => hT hu.of_append

theorem OneSided.resolve_interval (h : OneSided T v) {z : Nat} (hz : 0 < z) :
    OneSided (T ++ [interval z 0]) (v.resolve (interval z 0)) := by
  have hlast : interval z 0 ∈ T ++ [interval z 0] := by simp
  cases h with
  | idle hv hT =>
    rw [resolve_highZ_left hv]
    refine .single hz hlast fun d hd hdrive => ?_
    rcases List.mem_append.mp hd with hd | hd
    · exact absurd hdrive (not_drive_of_highZ (hT d hd))
    · exact List.mem_singleton.mp hd
  | @single z' hz' hmem hT =>
    rw [ResolutionOrder.resolve_interval (Drive.x (.inl hz')).oriented (.inl hz)]
    split
    · next he =>
      refine .single hz' (he ▸ hlast) fun d hd hdrive => ?_
      rcases List.mem_append.mp hd with hd | hd
      · exact hT d hd hdrive
      · exact (List.mem_singleton.mp hd).trans he.symm
    · next he =>
      have hends : (interval z' 0).towardZero ≠ (interval z' 0).towardOne := by simp [interval]
      rw [if_neg hends]
      have hm : 0 < max z' z := by omega
      have hzero : StrengthPoint.fromCoordinate
          (min (interval z' 0).towardZero.coordinate (-(z : Int))) = ⟨false, max z' z⟩ := by
        simp [interval, StrengthPoint.coordinate, StrengthPoint.fromCoordinate]
        omega
      have hone : StrengthPoint.fromCoordinate
          (max (interval z' 0).towardOne.coordinate ((0 : Nat) : Int)) = .highZ := rfl
      rw [hzero, hone]
      refine .merged hm ?_
      rintro ⟨w, hw⟩
      apply he
      exact (hw _ (List.mem_append_left _ hmem) (.x (.inl hz'))).trans
        (hw _ hlast (.x (.inl hz))).symm
  | @merged m hm hT =>
    have hv : Oriented ⟨⟨false, m⟩, .highZ⟩ := by
      constructor
      · simp [StrengthValue.isHighZ]
        omega
      · simp [StrengthPoint.coordinate, StrengthPoint.highZ]
    have hne : (⟨⟨false, m⟩, .highZ⟩ : StrengthValue) ≠ interval z 0 := by
      simp [interval, StrengthPoint.highZ]
    have hends : (⟨false, m⟩ : StrengthPoint) ≠ .highZ := by
      simp [StrengthPoint.highZ]
      omega
    rw [ResolutionOrder.resolve_interval hv (.inl hz), if_neg hne, if_neg hends]
    have hmax : 0 < max m z := by omega
    have hzero : StrengthPoint.fromCoordinate
        (min (StrengthPoint.coordinate ⟨false, m⟩) (-(z : Int))) = ⟨false, max m z⟩ := by
      simp [StrengthPoint.coordinate, StrengthPoint.fromCoordinate]
      omega
    have hone : StrengthPoint.fromCoordinate
        (max StrengthPoint.highZ.coordinate ((0 : Nat) : Int)) = .highZ := rfl
    dsimp only
    rw [hzero, hone]
    exact .merged hmax fun hu => hT hu.of_append

/-- X drives without strength toward 1 resolve to X if they agree and to 0 otherwise. -/
theorem fold_bit_oneSided (hL : Contributions L) (hl : HasLevels L l) (hzero : l.zero = 0)
    (hone : l.one = 0) (hxOne : l.xOne = 0) (hpos : 0 < l.xZero) :
    (Uniform L → (fold L).bit = .x) ∧ (¬ Uniform L → (fold L).bit = .zero) := by
  have hrun : OneSided L (fold L) := by
    refine foldl_invariant _ OneSided L _ (.idle rfl (by simp)) fun T c S v he hv => ?_
    have hc : c ∈ L := by simp [he]
    rcases hL.drive_or_highZ hc with hd | hd
    · cases hd with
      | zero hp => exact absurd (hl.zero_le _ hc) (by omega)
      | one hq => exact absurd (hl.one_le _ hc) (by omega)
      | @x z o hzo =>
        have ho := hl.xOne_le _ _ hc
        obtain rfl : o = 0 := by omega
        exact hv.resolve_interval (by omega)
    · exact hv.resolve_highZ hd
  obtain ⟨o, hmem⟩ := hl.xZero_mem hpos
  generalize fold L = v at hrun
  cases hrun with
  | idle hv hT =>
    exact absurd (hT _ hmem) (by simp [(Drive.x (.inl hpos)).oriented.driven])
  | single hz _ hT =>
    refine ⟨fun _ => ?_, fun hu => absurd ⟨_, hT⟩ hu⟩
    simp [interval, StrengthValue.bit, StrengthValue.isHighZ]
    omega
  | merged hm hT =>
    refine ⟨fun hu => absurd hu hT, fun _ => ?_⟩
    simp [StrengthValue.bit, StrengthValue.isHighZ, StrengthPoint.highZ]
    omega

theorem fold_bit_z (hL : Contributions L) (hl : HasLevels L l) (hzero : max l.zero l.xZero = 0)
    (hone : max l.one l.xOne = 0) : (fold L).bit = .z := by
  have hrun : (fold L).isHighZ = true := by
    refine foldl_invariant StrengthValue.resolve (fun _ v => v.isHighZ = true) L _ rfl
      fun T c S v he hv => ?_
    have hc : c ∈ L := by simp [he]
    rw [resolve_highZ_left hv]
    rcases hL.drive_or_highZ hc with hd | hd
    · cases hd with
      | zero hp => exact absurd (hl.zero_le _ hc) (by omega)
      | one hq => exact absurd (hl.one_le _ hc) (by omega)
      | x hzo =>
        have h1 := hl.xZero_le _ _ hc
        have h2 := hl.xOne_le _ _ hc
        omega
    · exact hd
  simp [StrengthValue.bit, hrun]

end Open

end Eevee.Sched.ResolutionOrder
