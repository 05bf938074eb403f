/- Known bits of a resolved net survive the replacement of X drives, unless strengths conceal
them. -/

import Mathlib.Data.List.Forall2
import Eevee.Sched.XSoundness.Inside

set_option autoImplicit false
set_option relaxedAutoImplicit false

namespace Eevee.Sched.XSoundness

open Eevee.Core.Logic
open Eevee.Lib.Folds
open Eevee.Sched.Nets
open Eevee.Sched.Resolution
open Eevee.Sched.ResolutionOrder

section

variable {L L' : List StrengthValue} {l : Levels} {v v' c : StrengthValue} {n : Nat}

/-! ### Folds of replaced lists -/

/-- What one contribution and its replacement keep related, two lists of them keep related. -/
theorem foldl_related {R : StrengthValue → StrengthValue → Prop} (hs : List.Forall₂ Sharper L L')
    (hstep : ∀ c ∈ L, ∀ c', Sharper c c' → ∀ v v', R v v' → R (v.resolve c) (v'.resolve c'))
    (h : R v v') : R (L.foldl StrengthValue.resolve v) (L'.foldl StrengthValue.resolve v') := by
  induction hs generalizing v v' with
  | nil => exact h
  | @cons c c' L L' hsharp _ ih =>
    have hnext := hstep c List.mem_cons_self c' hsharp v v' h
    exact ih (fun d hd => hstep d (List.mem_cons_of_mem _ hd)) hnext

/-- A known drive closes the side that only weaker drives have opened. -/
theorem close_zero {M : List StrengthValue} (hM : Contributions M) (hl : HasLevels M l)
    (hn : 0 < n) (hdom : max l.one l.xOne < n) :
    (fold (M ++ [known false n])).towardOne.one = false ∧
      n ≤ (fold (M ++ [known false n])).towardOne.strength := by
  refine fold_last hM (fun v => v.towardOne.one = false ∧ n ≤ v.towardOne.strength)
    ⟨rfl, Nat.le_refl _⟩ fun v hv => ?_
  have hhigh := hv.oneHigh_le (List.Subset.refl _) hl
  have hlow := hv.zeroHigh_le (List.Subset.refl _) hl
  have hne : v.towardZero ≠ ⟨!false, n⟩ := by
    intro he
    rw [he] at hlow
    have := hlow rfl
    dsimp only at this
    omega
  rw [resolve_against hv.toOriented hn hne]
  dsimp only
  unfold against
  split_ifs with hgt
  · exact ⟨rfl, Nat.le_refl _⟩
  · refine ⟨?_, by omega⟩
    by_contra hone
    have := hhigh (by simpa using hone)
    omega

theorem close_one {M : List StrengthValue} (hM : Contributions M) (hl : HasLevels M l)
    (hn : 0 < n) (hdom : max l.zero l.xZero < n) :
    (fold (M ++ [known true n])).towardZero.one = true ∧
      n ≤ (fold (M ++ [known true n])).towardZero.strength := by
  refine fold_last hM (fun v => v.towardZero.one = true ∧ n ≤ v.towardZero.strength)
    ⟨rfl, Nat.le_refl _⟩ fun v hv => ?_
  have hlow := hv.zeroLow_le (List.Subset.refl _) hl
  have hhigh := hv.oneLow_le (List.Subset.refl _) hl
  have hne : v ≠ known (!true) n := by
    rintro rfl
    have := hhigh rfl
    dsimp only [known] at this
    omega
  rw [resolve_known hv.toOriented true hn, if_neg hne]
  dsimp only
  unfold against
  split_ifs with hgt
  · exact ⟨rfl, Nat.le_refl _⟩
  · refine ⟨?_, by omega⟩
    by_contra hone
    have := hlow (by simpa using hone)
    omega

theorem oriented_fold_last {M : List StrengthValue} (hM : Contributions M) (hc : Drive c) :
    Oriented (fold (M ++ [c])) := by
  refine fold_last hM Oriented hc.oriented fun v hv => ?_
  cases hc with
  | zero hp => exact hv.toOriented.step_known false hp
  | one hq => exact hv.toOriented.step_known true hq
  | x hzo => exact hv.toOriented.step_interval hzo

theorem contributions_append {M : List StrengthValue} (hM : Contributions M) (hc : Drive c) :
    Contributions (M ++ [c]) := by
  intro d hd
  rcases List.mem_append.mp hd with hd | hd
  · exact hM d hd
  · exact .inl (List.mem_singleton.mp hd ▸ hc)

/-- The strongest known drive brings both values to its side. -/
theorem insideZero_start {M M' : List StrengthValue} (hM : Contributions M)
    (hM' : Contributions M') (hs : List.Forall₂ Sharper M M') (hl : HasLevels L l) (hML : M ⊆ L)
    (hdom : max l.one l.xOne < l.zero) :
    InsideZero l.zero (fold (M ++ [known false l.zero])) (fold (M' ++ [known false l.zero])) := by
  have hpos : 0 < l.zero := by omega
  have hk : Drive (known false l.zero) := .zero hpos
  have hlast := hasLevels (M ++ [known false l.zero])
  have hlast' := hasLevels (M' ++ [known false l.zero])
  have hfirst := hasLevels M
  have hfirst' := hasLevels M'
  have hsub : M ++ [known false l.zero] ⊆ L :=
    List.append_subset.mpr ⟨hML, by simpa using hl.zero_mem hpos⟩
  have hz := hlast.zero_le l.zero (by simp)
  have hz' := hlast'.zero_le l.zero (by simp)
  obtain ⟨m1, m2, m3, m4⟩ := levels_mono hlast hl hsub
  obtain ⟨f1, f2, f3, f4⟩ := levels_mono hfirst hl hML
  obtain ⟨s1, s2, s3, s4⟩ := levels_sharper hlast hlast'
    (List.rel_append hs (.cons (.same _) .nil))
  obtain ⟨t1, t2, t3, t4⟩ := levels_sharper hfirst hfirst' hs
  have hlow := fold_low (contributions_append hM hk) hlast (by omega) (.inl (by omega))
    fun h => by unfold MasksZero at h; omega
  have hlow' := fold_low (contributions_append hM' hk) hlast' (by omega) (.inl (by omega))
    fun h => by unfold MasksZero at h; omega
  obtain ⟨hc, hr⟩ := close_zero hM hfirst hpos (by omega)
  obtain ⟨hc', hr'⟩ := close_zero hM' hfirst' hpos (by omega)
  have hend : (fold (M ++ [known false l.zero])).towardOne.strength ≤ l.zero := by
    rcases reached_fold (contributions_append hM hk) with ⟨-, hall⟩ | he
    · have hz := hall (known false l.zero) (by simp)
      rw [hk.oriented.driven] at hz
      cases hz
    · exact (he.oneLow_le (List.Subset.refl _) hlast hc).trans m1
  refine ⟨oriented_fold_last hM hk, oriented_fold_last hM' hk, by rw [hlow], by rw [hlow'], ?_, ?_,
    ?_, fun h => by rw [hc'] at h; cases h⟩
  · rw [hlow']
    dsimp only
    omega
  · rw [hlow, hlow']
    dsimp only
    omega
  · rw [coordinate_of_zero hc, coordinate_of_zero hc']
    omega

theorem insideOne_start {M M' : List StrengthValue} (hM : Contributions M)
    (hM' : Contributions M') (hs : List.Forall₂ Sharper M M') (hl : HasLevels L l) (hML : M ⊆ L)
    (hdom : max l.zero l.xZero < l.one) :
    InsideOne l.one (fold (M ++ [known true l.one])) (fold (M' ++ [known true l.one])) := by
  have hpos : 0 < l.one := by omega
  have hk : Drive (known true l.one) := .one hpos
  have hlast := hasLevels (M ++ [known true l.one])
  have hlast' := hasLevels (M' ++ [known true l.one])
  have hfirst := hasLevels M
  have hfirst' := hasLevels M'
  have hsub : M ++ [known true l.one] ⊆ L :=
    List.append_subset.mpr ⟨hML, by simpa using hl.one_mem hpos⟩
  have hz := hlast.one_le l.one (by simp)
  have hz' := hlast'.one_le l.one (by simp)
  obtain ⟨m1, m2, m3, m4⟩ := levels_mono hlast hl hsub
  obtain ⟨f1, f2, f3, f4⟩ := levels_mono hfirst hl hML
  obtain ⟨s1, s2, s3, s4⟩ := levels_sharper hlast hlast'
    (List.rel_append hs (.cons (.same _) .nil))
  obtain ⟨t1, t2, t3, t4⟩ := levels_sharper hfirst hfirst' hs
  have hhigh := fold_high (contributions_append hM hk) hlast (by omega) (by omega)
    fun h => by unfold MasksOne at h; omega
  have hhigh' := fold_high (contributions_append hM' hk) hlast' (by omega) (by omega)
    fun h => by unfold MasksOne at h; omega
  obtain ⟨hc, hr⟩ := close_one hM hfirst hpos (by omega)
  obtain ⟨hc', hr'⟩ := close_one hM' hfirst' hpos (by omega)
  have hend : (fold (M ++ [known true l.one])).towardZero.strength ≤ l.one := by
    rcases reached_fold (contributions_append hM hk) with ⟨-, hall⟩ | he
    · have hz := hall (known true l.one) (by simp)
      rw [hk.oriented.driven] at hz
      cases hz
    · exact (he.zeroHigh_le (List.Subset.refl _) hlast hc).trans m2
  refine ⟨oriented_fold_last hM hk, oriented_fold_last hM' hk, by rw [hhigh], by rw [hhigh'], ?_,
    ?_, ?_, fun _ => ?_⟩
  · rw [hhigh']
    dsimp only
    omega
  · rw [hhigh, hhigh']
    dsimp only
    omega
  · rw [coordinate_of_one hc, coordinate_of_one hc']
    omega
  · rw [coordinate_of_one hc]
    omega

theorem fold_append (M S : List StrengthValue) (c : StrengthValue) :
    fold (M ++ c :: S) = S.foldl StrengthValue.resolve (fold (M ++ [c])) := by
  simp [fold]

theorem related_split {M N : List StrengthValue} (hs : List.Forall₂ Sharper (M ++ N) L') :
    ∃ M' N', L' = M' ++ N' ∧ List.Forall₂ Sharper M M' ∧ List.Forall₂ Sharper N N' := by
  induction M generalizing L' with
  | nil => exact ⟨[], L', rfl, .nil, hs⟩
  | cons c M ih =>
    obtain ⟨c', T', hc, hT, rfl⟩ := List.forall₂_cons_left_iff.mp hs
    obtain ⟨M', N', rfl, hM, hN⟩ := ih hT
    exact ⟨c' :: M', N', rfl, .cons hc hM, hN⟩

/-- Both lists have a known drive at the same place. -/
theorem sharper_split {one : Bool} {s : Nat} (hs : List.Forall₂ Sharper L L')
    (hmem : known one s ∈ L) : ∃ M S M' S', L = M ++ known one s :: S ∧
      L' = M' ++ known one s :: S' ∧ List.Forall₂ Sharper M M' ∧ List.Forall₂ Sharper S S' := by
  obtain ⟨M, S, rfl⟩ := List.append_of_mem hmem
  obtain ⟨M', N', rfl, hM, hN⟩ := related_split hs
  obtain ⟨c, S', hc, hS, rfl⟩ := List.forall₂_cons_left_iff.mp hN
  rw [sharper_known hc]
  exact ⟨M, S, M', S', rfl, rfl, hM, hS⟩

theorem sound_zero (hL : Contributions L) (hL' : Contributions L') (hl : HasLevels L l)
    (hs : List.Forall₂ Sharper L L') (hdom : max l.one l.xOne < l.zero) :
    InsideZero l.zero (fold L) (fold L') := by
  obtain ⟨M, S, M', S', rfl, rfl, hM, hS⟩ := sharper_split hs (hl.zero_mem (by omega))
  rw [fold_append M S, fold_append M' S']
  have hstart := insideZero_start (hL.of_subset (List.subset_append_left _ _))
    (hL'.of_subset (List.subset_append_left _ _)) hM hl (List.subset_append_left _ _) hdom
  refine foldl_related hS (fun c hc c' hsharp v v' h => ?_) hstart
  have hcL : c ∈ M ++ known false l.zero :: S :=
    List.mem_append_right _ (List.mem_cons_of_mem _ hc)
  rcases hL c hcL with hd | ⟨b, rfl⟩
  · cases hd with
    | @zero p hp =>
      rw [sharper_known hsharp]
      exact h.known hp (by simpa using hl.zero_le _ hcL)
    | @one q hq =>
      rw [sharper_known hsharp]
      have hle := hl.one_le _ hcL
      exact h.known hq (by simp only [if_true]; omega)
    | @x z o hzo =>
      have hle := hl.xOne_le _ _ hcL
      exact h.interval hzo (by omega) hsharp
  · rw [sharper_known hsharp, resolve_highZ_right h.oriented.driven rfl,
      resolve_highZ_right h.oriented'.driven rfl]
    exact h

theorem sound_one (hL : Contributions L) (hL' : Contributions L') (hl : HasLevels L l)
    (hs : List.Forall₂ Sharper L L') (hdom : max l.zero l.xZero < l.one) :
    InsideOne l.one (fold L) (fold L') := by
  obtain ⟨M, S, M', S', rfl, rfl, hM, hS⟩ := sharper_split hs (hl.one_mem (by omega))
  rw [fold_append M S, fold_append M' S']
  have hstart := insideOne_start (hL.of_subset (List.subset_append_left _ _))
    (hL'.of_subset (List.subset_append_left _ _)) hM hl (List.subset_append_left _ _) hdom
  refine foldl_related hS (fun c hc c' hsharp v v' h => ?_) hstart
  have hcL : c ∈ M ++ known true l.one :: S :=
    List.mem_append_right _ (List.mem_cons_of_mem _ hc)
  rcases hL c hcL with hd | ⟨b, rfl⟩
  · cases hd with
    | @zero p hp =>
      rw [sharper_known hsharp]
      have hle := hl.zero_le _ hcL
      exact h.known hp (by simp only [Bool.false_eq_true, if_false]; omega)
    | @one q hq =>
      rw [sharper_known hsharp]
      exact h.known hq (by simpa using hl.one_le _ hcL)
    | @x z o hzo =>
      have hle := hl.xZero_le _ _ hcL
      exact h.interval hzo (by omega) hsharp
  · rw [sharper_known hsharp, resolve_highZ_right h.oriented.driven rfl,
      resolve_highZ_right h.oriented'.driven rfl]
    exact h

/-! ### Concealed X drives -/

/-- X drives hide a conflict of equally strong known drives, or all drive only toward 0 and with
different strengths. -/
def Conceals (L : List StrengthValue) (l : Levels) : Prop :=
  MasksZero l ∨ MasksOne l ∨
    l.zero = 0 ∧ l.one = 0 ∧ l.xOne = 0 ∧ 0 < l.xZero ∧ ¬ Uniform L

theorem Conceals.perm (h : Conceals L' l) (hperm : L'.Perm L) : Conceals L l :=
  h.imp_right <| Or.imp_right fun ⟨h0, h1, h2, h3, hu⟩ =>
    ⟨h0, h1, h2, h3, fun h => hu (h.perm hperm)⟩

/-- A known result survives every replacement. -/
theorem fold_bit_sharper (hL : Contributions L) (hL' : Contributions L') (hl : HasLevels L l)
    (hno : ¬ Conceals L l) (hs : List.Forall₂ Sharper L L')
    (hbit : (fold L).bit = .zero ∨ (fold L).bit = .one) : (fold L').bit = (fold L).bit := by
  simp only [Conceals, not_or] at hno
  by_cases hzero : max l.one l.xOne < l.zero
  · exact (sound_zero hL hL' hl hs hzero).bit hbit
  by_cases hone : max l.zero l.xZero < l.one
  · exact (sound_one hL hL' hl hs hone).bit hbit
  by_cases hpos : 0 < max l.one l.xOne
  · rw [fold_bit_x hL hl (by omega) (by omega) hpos hno.1 hno.2.1] at hbit
    simp at hbit
  by_cases hx : 0 < l.xZero
  · have hside := fold_bit_oneSided hL hl (by omega) (by omega) (by omega) hx
    have hu : Uniform L := by
      by_contra hu
      exact hno.2.2 ⟨by omega, by omega, by omega, hx, hu⟩
    rw [hside.1 hu] at hbit
    simp at hbit
  · rw [fold_bit_z hL hl (by omega) (by omega)] at hbit
    simp at hbit

/-- Every X drive becomes a known drive of one value. -/
def settle (one : Bool) (c : StrengthValue) : StrengthValue :=
  if c.towardZero = c.towardOne then c
  else if one then ⟨c.towardOne, c.towardOne⟩ else ⟨c.towardZero, c.towardZero⟩

@[simp]
theorem settle_known (one b : Bool) (s : Nat) : settle one (known b s) = known b s := if_pos rfl

@[simp]
theorem settle_interval (one : Bool) (z o : Nat) :
    settle one (interval z o) = known one (if one then o else z) := by
  cases one <;> simp [settle, interval, known]

theorem contributions_settle (hL : Contributions L) (one : Bool) :
    Contributions (L.map (settle one)) := by
  intro c hc
  obtain ⟨d, hd, rfl⟩ := List.mem_map.mp hc
  rcases hL d hd with hdrive | ⟨b, rfl⟩
  · cases hdrive with
    | zero hp =>
      rw [settle_known]
      exact .inl (.zero hp)
    | one hq =>
      rw [settle_known]
      exact .inl (.one hq)
    | @x z o hzo =>
      rw [settle_interval]
      rcases Nat.eq_zero_or_pos (if one then o else z) with h | h
      · exact .inr ⟨one, by rw [h]⟩
      · cases one
        · exact .inl (.zero h)
        · exact .inl (.one h)
  · rw [settle_known]
    exact .inr ⟨b, rfl⟩

/-- A known drive of a settled list was known before or settled. -/
theorem known_of_settle (hL : Contributions L) {one b : Bool} {s : Nat}
    (h : known b s ∈ L.map (settle one)) : known b s ∈ L ∨
      b = one ∧ ∃ z o, interval z o ∈ L ∧ s = if one then o else z := by
  obtain ⟨d, hd, he⟩ := List.mem_map.mp h
  rcases hL d hd with hdrive | ⟨b', rfl⟩
  · cases hdrive with
    | zero hp =>
      rw [settle_known] at he
      exact .inl (he ▸ hd)
    | one hq =>
      rw [settle_known] at he
      exact .inl (he ▸ hd)
    | @x z o hzo =>
      rw [settle_interval] at he
      simp only [known, StrengthValue.mk.injEq, StrengthPoint.mk.injEq, and_self] at he
      exact .inr ⟨he.1.symm, z, o, hd, he.2.symm⟩
  · rw [settle_known] at he
    exact .inl (he ▸ hd)

theorem interval_not_mem_settle (hL : Contributions L) {one : Bool} {z o : Nat} :
    interval z o ∉ L.map (settle one) := by
  intro h
  obtain ⟨d, hd, he⟩ := List.mem_map.mp h
  have hk : ∃ b s, settle one d = known b s := by
    rcases hL d hd with hdrive | ⟨b, rfl⟩
    · cases hdrive with
      | zero hp => exact ⟨_, _, settle_known _ _ _⟩
      | one hq => exact ⟨_, _, settle_known _ _ _⟩
      | x hzo => exact ⟨_, _, settle_interval _ _ _⟩
    · exact ⟨_, _, settle_known _ _ _⟩
  obtain ⟨b, s, hk⟩ := hk
  rw [hk] at he
  have hone := (congrArg (·.towardZero.one) he).symm.trans (congrArg (·.towardOne.one) he)
  cases hone

/-- The levels when every X drive becomes 1. -/
theorem levels_settle_one (hL : Contributions L) (hl : HasLevels L l) :
    HasLevels (L.map (settle true)) ⟨l.zero, max l.one l.xOne, 0, 0⟩ where
  zero_le p hp := by
    rcases known_of_settle hL hp with h | ⟨h, -⟩
    · exact hl.zero_le p h
    · cases h
  one_le q hq := by
    rcases known_of_settle hL hq with h | ⟨-, z, o, h, rfl⟩
    · exact le_max_of_le_left (hl.one_le q h)
    · exact le_max_of_le_right (hl.xOne_le z _ h)
  xZero_le z o h := absurd h (interval_not_mem_settle hL)
  xOne_le z o h := absurd h (interval_not_mem_settle hL)
  zero_mem h := List.mem_map.mpr ⟨_, hl.zero_mem h, settle_known _ _ _⟩
  one_mem h := by
    rcases Nat.le_total l.one l.xOne with hle | hle
    · dsimp only at h ⊢
      rw [Nat.max_eq_right hle] at h ⊢
      obtain ⟨z, hz⟩ := hl.xOne_mem h
      exact List.mem_map.mpr ⟨_, hz, settle_interval _ _ _⟩
    · dsimp only at h ⊢
      rw [Nat.max_eq_left hle] at h ⊢
      exact List.mem_map.mpr ⟨_, hl.one_mem h, settle_known _ _ _⟩
  xZero_mem h := absurd h (Nat.lt_irrefl 0)
  xOne_mem h := absurd h (Nat.lt_irrefl 0)

/-- The levels when every X drive becomes 0. -/
theorem levels_settle_zero (hL : Contributions L) (hl : HasLevels L l) :
    HasLevels (L.map (settle false)) ⟨max l.zero l.xZero, l.one, 0, 0⟩ where
  zero_le p hp := by
    rcases known_of_settle hL hp with h | ⟨-, z, o, h, rfl⟩
    · exact le_max_of_le_left (hl.zero_le p h)
    · exact le_max_of_le_right (hl.xZero_le _ o h)
  one_le q hq := by
    rcases known_of_settle hL hq with h | ⟨h, -⟩
    · exact hl.one_le q h
    · cases h
  xZero_le z o h := absurd h (interval_not_mem_settle hL)
  xOne_le z o h := absurd h (interval_not_mem_settle hL)
  zero_mem h := by
    rcases Nat.le_total l.zero l.xZero with hle | hle
    · dsimp only at h ⊢
      rw [Nat.max_eq_right hle] at h ⊢
      obtain ⟨o, ho⟩ := hl.xZero_mem h
      exact List.mem_map.mpr ⟨_, ho, settle_interval _ _ _⟩
    · dsimp only at h ⊢
      rw [Nat.max_eq_left hle] at h ⊢
      exact List.mem_map.mpr ⟨_, hl.zero_mem h, settle_known _ _ _⟩
  one_mem h := List.mem_map.mpr ⟨_, hl.one_mem h, settle_known _ _ _⟩
  xZero_mem h := absurd h (Nat.lt_irrefl 0)
  xOne_mem h := absurd h (Nat.lt_irrefl 0)

/-- Where X drives conceal, some order has a known result that settling them changes. -/
theorem changed_of_conceals (hL : Contributions L) (hl : HasLevels L l) (h : Conceals L l) :
    ∃ L₁ one, L₁.Perm L ∧ ((fold L₁).bit = .zero ∨ (fold L₁).bit = .one) ∧
      (fold (L₁.map (settle one))).bit ≠ (fold L₁).bit := by
  have clash {a b : Nat} {M : List StrengthValue} (hM : Contributions M)
      (hlevels : HasLevels M ⟨a, b, 0, 0⟩) (hab : a = b) (hb : 0 < b) : (fold M).bit = .x :=
    fold_bit_x hM hlevels (by dsimp only; omega) (by dsimp only; omega) (by dsimp only; omega)
      (fun h => by unfold MasksZero at h; dsimp only at h; omega)
      (fun h => by unfold MasksOne at h; dsimp only at h; omega)
  rcases h with hm | hm | ⟨h0, h1, h2, h3, hu⟩
  · obtain ⟨L₁, hperm, hbit⟩ := hm.masked hL hl
    obtain ⟨hpos, heq, hx0, hx1⟩ := hm
    have hL₁ := hL.perm hperm
    have hx := clash (contributions_settle hL₁ false) (levels_settle_zero hL₁ (hl.perm hperm))
      (by omega) (by omega)
    exact ⟨L₁, false, hperm, .inr hbit, by rw [hx, hbit]; simp⟩
  · obtain ⟨L₁, hperm, hbit⟩ := hm.masked hL hl
    obtain ⟨hpos, heq, hx1, hx0⟩ := hm
    have hL₁ := hL.perm hperm
    have hx := clash (contributions_settle hL₁ true) (levels_settle_one hL₁ (hl.perm hperm))
      (by omega) (by omega)
    exact ⟨L₁, true, hperm, .inl hbit, by rw [hx, hbit]; simp⟩
  · have hbit := (fold_bit_oneSided hL hl h0 h1 h2 h3).2 hu
    have hz := fold_bit_z (contributions_settle hL true) (levels_settle_one hL hl)
      (by dsimp only; omega) (by dsimp only; omega)
    exact ⟨L, true, .refl L, .inl hbit, by rw [hz, hbit]; simp⟩

end

/-! ### Drivers -/

/-- A driver with its strengths, whose bit may be replaced by 0 or 1 if it is X. -/
def Replaces (bit : Nat) (d d' : PackedVec × DriverStrengths) : Prop :=
  d' = d ∨ d.1.getBit bit = .x ∧ ∃ b, (b = .zero ∨ b = .one) ∧ d' = (d.1.setBit bit b, d.2)

/-- A known resolved bit stays when X bits of the drivers are replaced. -/
def XSound (drivers : List (PackedVec × DriverStrengths)) (width : Nat)
    (resolution : NetResolution) (bit : Nat) : Prop :=
  ∀ replaced, List.Forall₂ (Replaces bit) drivers replaced →
    (resolvePaired drivers width resolution).getBit bit = .zero ∨
      (resolvePaired drivers width resolution).getBit bit = .one →
    (resolvePaired replaced width resolution).getBit bit =
      (resolvePaired drivers width resolution).getBit bit

section

variable {drivers replaced : List (PackedVec × DriverStrengths)} {bit : Nat}

theorem lt_width_of_x {v : PackedVec} (h : v.getBit bit = .x) : bit < v.width := by
  by_contra hlt
  have hzero : v.getBit bit = .zero := if_pos (Nat.le_of_not_lt hlt)
  rw [hzero] at h
  cases h

theorem getBit_replaced {d d' : PackedVec × DriverStrengths} (h : Replaces bit d d') :
    d'.2 = d.2 ∧ (d'.1.getBit bit = d.1.getBit bit ∨ d.1.getBit bit = .x ∧
      (d'.1.getBit bit = .zero ∨ d'.1.getBit bit = .one)) := by
  rcases h with rfl | ⟨hx, b, hb, rfl⟩
  · exact ⟨rfl, .inl rfl⟩
  · refine ⟨rfl, .inr ⟨hx, ?_⟩⟩
    have hget : (d.1.setBit bit b).getBit bit = b := by
      rw [PackedVec.getBit_setBit]
      simp [lt_width_of_x hx]
    dsimp only
    rw [hget]
    exact hb

theorem sharper_contributions (h : List.Forall₂ (Replaces bit) drivers replaced) :
    List.Forall₂ Sharper (contributions drivers bit) (contributions replaced bit) := by
  unfold contributions
  rw [List.forall₂_map_left_iff, List.forall₂_map_right_iff]
  refine h.imp fun d d' hd => ?_
  obtain ⟨hs, hbit | ⟨hx, hbit⟩⟩ := getBit_replaced hd
  · rw [hs, hbit]
    exact .same _
  · rw [hs, hx]
    by_cases hz : d.2.zero.level = 0 ∧ d.2.one.level = 0
    · have hsame (b : Bit) : StrengthValue.new b d.2 = .highZ := if_pos hz
      rw [hsame, hsame]
      exact .same _
    · have hnew (b : Bit) : StrengthValue.new b d.2 = _ := if_neg hz
      rw [hnew, hnew]
      rcases hbit with hbit | hbit
      · rw [hbit]
        exact .zero _ _
      · rw [hbit]
        exact .one _ _

/-- The drivers with every X at the position replaced. -/
def settleDriver (bit : Nat) (one : Bool) (d : PackedVec × DriverStrengths) :
    PackedVec × DriverStrengths :=
  if d.1.getBit bit = .x then (d.1.setBit bit (if one then .one else .zero), d.2) else d

theorem replaces_settle (one : Bool) :
    List.Forall₂ (Replaces bit) drivers (drivers.map (settleDriver bit one)) := by
  rw [List.forall₂_map_right_iff, List.forall₂_same]
  intro d _
  unfold settleDriver
  split_ifs with hx hone
  · exact .inr ⟨hx, .one, .inr rfl, rfl⟩
  · exact .inr ⟨hx, .zero, .inl rfl, rfl⟩
  · exact .inl rfl

theorem contributions_settleDriver (one : Bool) :
    contributions (drivers.map (settleDriver bit one)) bit =
      (contributions drivers bit).map (settle one) := by
  unfold contributions
  rw [List.map_map, List.map_map]
  refine List.map_congr_left fun d _ => ?_
  dsimp only [Function.comp]
  by_cases hz : d.2.zero.level = 0 ∧ d.2.one.level = 0
  · have hsame (b : Bit) : StrengthValue.new b d.2 = .highZ := if_pos hz
    have hs : (settleDriver bit one d).2 = d.2 := by
      unfold settleDriver
      split_ifs <;> rfl
    rw [hs, hsame, hsame]
    rfl
  · have hnew (b : Bit) : StrengthValue.new b d.2 = _ := if_neg hz
    unfold settleDriver
    by_cases hx : d.1.getBit bit = .x
    · rw [if_pos hx]
      dsimp only
      have hget (b : Bit) : (d.1.setBit bit b).getBit bit = b := by
        rw [PackedVec.getBit_setBit]
        simp [lt_width_of_x hx]
      rw [hget, hnew, hnew, hx]
      have hsettle := settle_interval one d.2.zero.level d.2.one.level
      cases one
      · exact hsettle.symm
      · exact hsettle.symm
    · rw [if_neg hx, hnew]
      cases hb : d.1.getBit bit with
      | x => exact absurd hb hx
      | zero => exact (settle_known one false _).symm
      | one => exact (settle_known one true _).symm
      | z => exact (settle_known one false 0).symm

theorem mem_replaced (h : List.Forall₂ (Replaces bit) drivers replaced) {b : Bit}
    (hb : b ∈ (replaced.map Prod.fst).map (·.getBit bit)) :
    b ∈ (drivers.map Prod.fst).map (·.getBit bit) ∨
      .x ∈ (drivers.map Prod.fst).map (·.getBit bit) := by
  induction h with
  | nil => cases hb
  | @cons d d' drivers replaced hd _ ih =>
    simp only [List.map_cons, List.mem_cons] at hb ⊢
    rcases hb with rfl | hb
    · rcases (getBit_replaced hd).2 with he | ⟨hx, -⟩
      · exact .inl (.inl he)
      · exact .inr (.inl hx.symm)
    · exact (ih hb).imp .inr .inr

theorem mem_kept (h : List.Forall₂ (Replaces bit) drivers replaced) {b : Bit} (hb : b ≠ .x)
    (hmem : b ∈ (drivers.map Prod.fst).map (·.getBit bit)) :
    b ∈ (replaced.map Prod.fst).map (·.getBit bit) := by
  induction h with
  | nil => cases hmem
  | @cons d d' drivers replaced hd _ ih =>
    simp only [List.map_cons, List.mem_cons] at hmem ⊢
    rcases hmem with rfl | hmem
    · rcases (getBit_replaced hd).2 with he | ⟨hx, -⟩
      · exact .inl he.symm
      · exact absurd hx hb
    · exact .inr (ih hmem)

theorem wand_sound {width : Nat} (hbit : bit < width)
    (h : List.Forall₂ (Replaces bit) drivers replaced)
    (hknown : (resolvePaired drivers width .wand).getBit bit = .zero ∨
      (resolvePaired drivers width .wand).getBit bit = .one) :
    (resolvePaired replaced width .wand).getBit bit =
      (resolvePaired drivers width .wand).getBit bit := by
  have hz := mem_kept h (b := .zero) (by simp)
  have ho := mem_kept h (b := .one) (by simp)
  have hr := fun b => mem_replaced h (b := b)
  simp only [resolvePaired, getBit_resolveDrivers _ _ _ _ hbit, resolveBit, resolveWandBit,
    wandLoop_eq _ Bit.z (by simp), reduceCtorEq, false_or] at hknown ⊢
  grind

theorem wor_sound {width : Nat} (hbit : bit < width)
    (h : List.Forall₂ (Replaces bit) drivers replaced)
    (hknown : (resolvePaired drivers width .wor).getBit bit = .zero ∨
      (resolvePaired drivers width .wor).getBit bit = .one) :
    (resolvePaired replaced width .wor).getBit bit =
      (resolvePaired drivers width .wor).getBit bit := by
  have hz := mem_kept h (b := .zero) (by simp)
  have ho := mem_kept h (b := .one) (by simp)
  have hr := fun b => mem_replaced h (b := b)
  simp only [resolvePaired, getBit_resolveDrivers _ _ _ _ hbit, resolveBit, resolveWorBit,
    worLoop_eq _ Bit.z (by simp), reduceCtorEq, false_or] at hknown ⊢
  grind

theorem getBit_wire {width : Nat} (hbit : bit < width) :
    (resolvePaired drivers width .wire).getBit bit = (fold (contributions drivers bit)).bit := by
  rw [resolvePaired, getBit_resolveDrivers _ _ _ _ hbit]
  exact resolveWireBit_eq_fold drivers bit

end

/-- In every order of the drivers a known resolved bit survives the replacement of X bits, exactly
unless X drives of a wire hide a conflict or drive only toward 0 with different strengths. -/
theorem x_sound_iff (drivers : List (PackedVec × DriverStrengths)) (width : Nat)
    (resolution : NetResolution) :
    (∀ permuted, permuted.Perm drivers → ∀ bit < width, XSound permuted width resolution bit) ↔
    (resolution = .wire → ∀ bit < width,
      ¬ Conceals (contributions drivers bit) (levels (contributions drivers bit))) := by
  cases resolution with
  | wand =>
    refine iff_of_true (fun permuted _ bit hbit replaced hr hknown => ?_) (by simp)
    exact wand_sound hbit hr hknown
  | wor =>
    refine iff_of_true (fun permuted _ bit hbit replaced hr hknown => ?_) (by simp)
    exact wor_sound hbit hr hknown
  | wire =>
    simp only [forall_const]
    constructor
    · intro h bit hbit hconceals
      obtain ⟨L₁, one, hperm, hknown, hchanged⟩ := changed_of_conceals
        (contributions_contributions drivers bit) (hasLevels _) hconceals
      obtain ⟨permuted, hp, rfl⟩ := exists_perm_map _ hperm
      have hsound := h permuted hp bit hbit _ (replaces_settle one)
      rw [getBit_wire hbit, getBit_wire hbit, contributions_settleDriver] at hsound
      exact hchanged (hsound hknown)
    · intro h permuted hp bit hbit replaced hr hknown
      have hperm : (contributions permuted bit).Perm (contributions drivers bit) := hp.map _
      rw [getBit_wire hbit] at hknown
      rw [getBit_wire hbit, getBit_wire hbit]
      exact fold_bit_sharper (contributions_contributions permuted bit)
        (contributions_contributions replaced bit) ((hasLevels _).perm hperm)
        (fun hc => h bit hbit (hc.perm hperm)) (sharper_contributions hr) hknown

/-- `assign (strong0, highz1)` and `assign (pull0, highz1)` with X resolve to 0, and to Z when both
become 1. -/
theorem x_unsound : ¬ ∀ (drivers : List (PackedVec × DriverStrengths)) (width : Nat)
    (resolution : NetResolution), ∀ bit < width, XSound drivers width resolution bit := by
  intro h
  have hsound := h [(.x 1, ⟨.strong, .highZ⟩), (.x 1, ⟨.pull, .highZ⟩)] 1 .wire 0 (by decide)
    [((PackedVec.x 1).setBit 0 .one, ⟨.strong, .highZ⟩),
      ((PackedVec.x 1).setBit 0 .one, ⟨.pull, .highZ⟩)]
    (.cons (.inr ⟨by decide, .one, .inr rfl, rfl⟩)
      (.cons (.inr ⟨by decide, .one, .inr rfl, rfl⟩) .nil)) (.inl (by decide))
  exact absurd hsound (by decide)

end Eevee.Sched.XSoundness
