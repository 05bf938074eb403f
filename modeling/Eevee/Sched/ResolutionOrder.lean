/- Which contribution lists resolve to the same wire bit in every driver order. -/

import Eevee.Sched.ResolutionOrder.Decided

set_option autoImplicit false
set_option relaxedAutoImplicit false

namespace Eevee.Sched.ResolutionOrder

open Eevee.Core.Logic
open Eevee.Lib.Folds
open Eevee.Sched.Nets
open Eevee.Sched.Resolution

/-! ### Order sensitivity -/

/-- The driver order can change the resolved bit. -/
def OrderSensitive (L : List StrengthValue) (l : Levels) : Prop :=
  SplitsZero L l ∨ SplitsOne L l ∨ MasksZero l ∨ MasksOne l

section Orders

variable {L L' T : List StrengthValue} {l : Levels} {v : StrengthValue}

theorem Contributions.perm (hL : Contributions L) (h : L'.Perm L) : Contributions L' :=
  fun c hc => hL c (h.mem_iff.mp hc)

theorem HasLevels.perm (hl : HasLevels L l) (h : L'.Perm L) : HasLevels L' l where
  zero_le p hp := hl.zero_le p (h.mem_iff.mp hp)
  one_le q hq := hl.one_le q (h.mem_iff.mp hq)
  xZero_le z o hx := hl.xZero_le z o (h.mem_iff.mp hx)
  xOne_le z o hx := hl.xOne_le z o (h.mem_iff.mp hx)
  zero_mem h0 := h.mem_iff.mpr (hl.zero_mem h0)
  one_mem h0 := h.mem_iff.mpr (hl.one_mem h0)
  xZero_mem h0 := (hl.xZero_mem h0).imp fun _ => h.mem_iff.mpr
  xOne_mem h0 := (hl.xOne_mem h0).imp fun _ => h.mem_iff.mpr

theorem OrderSensitive.perm (hs : OrderSensitive L' l) (h : L'.Perm L) : OrderSensitive L l := by
  rcases hs with ⟨hd, z, o, z', o', hp, hr⟩ | ⟨hd, z, o, z', o', hp, hr⟩ | hs | hs
  · exact .inl ⟨hd, z, o, z', o', hp.trans h.subperm, hr⟩
  · exact .inr (.inl ⟨hd, z, o, z', o', hp.trans h.subperm, hr⟩)
  · exact .inr (.inr (.inl hs))
  · exact .inr (.inr (.inr hs))

theorem Uniform.perm (hu : Uniform L) (h : L'.Perm L) : Uniform L' :=
  hu.imp fun _ hz c hc => hz c (h.mem_iff.mp hc)

/-- Without order sensitivity the levels alone fix the bit, up to one-sided X drives, where
it also depends on whether they agree. -/
theorem fold_bit_perm (hL : Contributions L) (hl : HasLevels L l) (hno : ¬ OrderSensitive L l)
    (h : L'.Perm L) : (fold L').bit = (fold L).bit := by
  have hL' := hL.perm h
  have hl' := hl.perm h
  have hno' : ¬ OrderSensitive L' l := fun hs => hno (hs.perm h)
  simp only [OrderSensitive, not_or] at hno hno'
  by_cases hzero : max l.one l.xOne < l.zero
  · rw [fold_bit_zero hL' hl' hzero hno'.1, fold_bit_zero hL hl hzero hno.1]
  by_cases hone : max l.zero l.xZero < l.one
  · rw [fold_bit_one hL' hl' hone hno'.2.1, fold_bit_one hL hl hone hno.2.1]
  by_cases hpos : 0 < max l.one l.xOne
  · rw [fold_bit_x hL' hl' (by omega) (by omega) hpos hno'.2.2.1 hno'.2.2.2,
      fold_bit_x hL hl (by omega) (by omega) hpos hno.2.2.1 hno.2.2.2]
  by_cases hx : 0 < l.xZero
  · have hside' := fold_bit_oneSided hL' hl' (by omega) (by omega) (by omega) hx
    have hside := fold_bit_oneSided hL hl (by omega) (by omega) (by omega) hx
    by_cases hu : Uniform L
    · rw [hside'.1 (hu.perm h), hside.1 hu]
    · rw [hside'.2 fun hu' => hu (hu'.perm h.symm), hside.2 hu]
  · rw [fold_bit_z hL' hl' (by omega) (by omega), fold_bit_z hL hl (by omega) (by omega)]

theorem fold_append_singleton (M : List StrengthValue) (c : StrengthValue) :
    fold (M ++ [c]) = (fold M).resolve c := by
  simp [fold]

/-- Consuming one drive last. -/
theorem fold_last {M : List StrengthValue} (hM : Contributions M) {c : StrengthValue}
    (Q : StrengthValue → Prop) (first : Q c) (establish : ∀ v, Ends M v → Q (v.resolve c)) :
    Q (fold (M ++ [c])) := by
  rw [fold_append_singleton]
  rcases reached_fold hM with ⟨hz, -⟩ | he
  · rwa [resolve_highZ_left hz]
  · exact establish _ he

/-- The bits of two orders differ. -/
def Differs (L : List StrengthValue) : Prop :=
  ∃ L₁ L₂ : List StrengthValue, L₁.Perm L ∧ L₂.Perm L ∧ (fold L₁).bit ≠ (fold L₂).bit

/-- A wide end toward 0 over a closed end toward 1: the state in which X drives open the
interval. -/
structure OpenLow (l : Levels) (v : StrengthValue) : Prop extends Oriented v where
  low : v.towardZero.one = false
  reach : l.zero < v.towardZero.strength
  top : v.towardOne.strength ≤ l.zero

theorem HeldZero.openLow (h : HeldZero l v) (hv : Oriented v)
    (htop : v.towardOne.strength = l.zero) {z o : Nat} (hz : l.zero < z) (ho : o < l.zero) :
    OpenLow l (v.resolve (interval z o)) := by
  refine ⟨hv.step_interval (.inl (by omega)), ?_, ?_, ?_⟩ <;>
    rw [resolve_interval hv (.inl (by omega))] <;>
    obtain ⟨⟨b₁, s₁⟩, ⟨b₂, s₂⟩⟩ := v <;>
    obtain ⟨low, reach, high, -, -⟩ := h <;>
    dsimp only at low reach high htop <;>
    subst low high htop
  · simp [interval, StrengthPoint.coordinate, StrengthPoint.fromCoordinate]
    split_ifs <;> simp
  · simp [interval, StrengthPoint.coordinate, StrengthPoint.fromCoordinate]
    split_ifs <;> simp <;> omega
  · simp [interval, StrengthPoint.coordinate, StrengthPoint.fromCoordinate]
    split_ifs <;> simp <;> omega

/-- A further X drive lifts the end toward 1 to its own strength. -/
theorem OpenLow.step_interval (h : OpenLow l v) {z o : Nat} (hzo : 0 < z ∨ 0 < o)
    (ho : o < l.zero) : OpenLow l (v.resolve (interval z o)) ∧
      (o : Int) ≤ (v.resolve (interval z o)).towardOne.coordinate := by
  have hv := h.toOriented
  have hor := hv.step_interval hzo
  rw [resolve_interval hv hzo] at hor ⊢
  obtain ⟨⟨b₁, s₁⟩, ⟨b₂, s₂⟩⟩ := v
  obtain ⟨-, low, reach, top⟩ := h
  dsimp only at low reach top
  subst low
  by_cases he : (⟨⟨false, s₁⟩, ⟨b₂, s₂⟩⟩ : StrengthValue) = interval z o
  · rw [if_pos he] at hor ⊢
    obtain ⟨rfl, rfl, rfl⟩ : s₁ = z ∧ b₂ = true ∧ s₂ = o := by simpa [interval] using he
    exact ⟨⟨hor, rfl, reach, top⟩, by simp [StrengthPoint.coordinate]⟩
  have hp : (⟨false, s₁⟩ : StrengthPoint) ≠ ⟨b₂, s₂⟩ := by
    simp only [ne_eq, StrengthPoint.mk.injEq, not_and]
    omega
  rw [if_neg he, if_neg hp] at hor ⊢
  refine ⟨⟨hor, ?_, ?_, ?_⟩, ?_⟩
  · simp [StrengthPoint.coordinate, StrengthPoint.fromCoordinate]
  · simp [StrengthPoint.coordinate, StrengthPoint.fromCoordinate]
    omega
  · cases b₂ <;> simp [StrengthPoint.coordinate, StrengthPoint.fromCoordinate] <;> omega
  · cases b₂ <;> simp [StrengthPoint.coordinate, StrengthPoint.fromCoordinate] <;> grind

theorem OpenLow.bit (h : OpenLow l v) (hpos : 0 < v.towardOne.coordinate) : v.bit = .x := by
  have hr := h.reach
  have hz : v.isHighZ = false := by simp [StrengthValue.isHighZ]; omega
  have hb : v.towardOne.one = true := by
    by_contra hb
    rw [coordinate_of_zero (by simpa using hb)] at hpos
    omega
  simp [StrengthValue.bit, hz, h.low, hb]

/-- A known 1 below the wide end lifts a nonnegative end toward 1. -/
theorem OpenLow.step_one (h : OpenLow l v) (h0 : 0 ≤ v.towardOne.coordinate) {q : Nat}
    (hq : 0 < q) (hlt : q < l.zero) : OpenLow l (v.resolve (known true q)) ∧
      0 < (v.resolve (known true q)).towardOne.coordinate := by
  have hv := h.toOriented
  have hor := hv.step_known true hq
  have hr := h.reach
  have ht := h.top
  have hne : v ≠ known (!true) q := by
    rintro rfl
    simp [known] at hr
    omega
  have hlow : ¬ q > v.towardZero.strength := by omega
  rw [resolve_known hv true hq, if_neg hne] at hor ⊢
  refine ⟨⟨hor, ?_, ?_, ?_⟩, ?_⟩ <;> simp only [against, hlow, if_false]
  · exact h.low
  · exact h.reach
  · split_ifs
    · dsimp only
      omega
    · exact ht
  · split_ifs with hs
    · simpa [StrengthPoint.coordinate] using hq
    · unfold StrengthPoint.coordinate at h0 ⊢
      split_ifs at h0 ⊢ <;> omega

/-- A wide end toward 1 over a closed end toward 0. -/
structure OpenHigh (l : Levels) (v : StrengthValue) : Prop extends Oriented v where
  high : v.towardOne.one = true
  reach : l.one < v.towardOne.strength
  low : v.towardZero.strength ≤ l.one

theorem HeldOne.openHigh (h : HeldOne l v) (hv : Oriented v) {z o : Nat} (ho : l.one < o)
    (hz : z < l.one) : OpenHigh l (v.resolve (interval z o)) := by
  refine ⟨hv.step_interval (.inr (by omega)), ?_, ?_, ?_⟩ <;>
    rw [resolve_interval hv (.inr (by omega))] <;>
    obtain ⟨p, ⟨b₂, s₂⟩⟩ := v <;>
    obtain ⟨low, high, reach⟩ := h <;>
    dsimp only at low high reach <;>
    subst low high
  · simp [interval, StrengthPoint.coordinate, StrengthPoint.fromCoordinate]
    split_ifs <;> simp
    omega
  · simp [interval, StrengthPoint.coordinate, StrengthPoint.fromCoordinate]
    split_ifs <;> simp
    all_goals omega
  · simp [interval, StrengthPoint.coordinate, StrengthPoint.fromCoordinate]
    split_ifs <;> simp
    all_goals omega

/-- A second X drive opens the closed end toward 0. -/
theorem OpenHigh.bit_interval (h : OpenHigh l v) {z o : Nat} (hzo : 0 < z ∨ 0 < o) :
    (v.resolve (interval z o)).bit = .x := by
  have hv := h.toOriented
  have hd := (hv.step_interval hzo).driven
  rw [resolve_interval hv hzo] at hd ⊢
  obtain ⟨⟨b₁, s₁⟩, ⟨b₂, s₂⟩⟩ := v
  obtain ⟨-, high, reach, low⟩ := h
  dsimp only at high reach low
  subst high
  by_cases he : (⟨⟨b₁, s₁⟩, ⟨true, s₂⟩⟩ : StrengthValue) = interval z o
  · rw [if_pos he] at hd ⊢
    obtain rfl : b₁ = false := by simpa [interval] using congrArg (·.towardZero.one) he
    simp [StrengthValue.bit, hd]
  have hp : (⟨b₁, s₁⟩ : StrengthPoint) ≠ ⟨true, s₂⟩ := by
    simp only [ne_eq, StrengthPoint.mk.injEq, not_and]
    omega
  rw [if_neg he, if_neg hp] at hd ⊢
  have hlow : (StrengthPoint.fromCoordinate
      (min (StrengthPoint.coordinate ⟨b₁, s₁⟩) (-(z : Int)))).one = false := by
    cases b₁ <;> simp [StrengthPoint.coordinate, StrengthPoint.fromCoordinate]
  have hhigh : (StrengthPoint.fromCoordinate
      (max (StrengthPoint.coordinate ⟨true, s₂⟩) o)).one = true := by
    simp [StrengthPoint.coordinate, StrengthPoint.fromCoordinate]
    omega
  simp [StrengthValue.bit, hd, hlow, hhigh]

theorem exists_perm_pair {a b : StrengthValue} (h : [a, b].Subperm L) {k : StrengthValue}
    (hk : k ∈ L) (hka : k ≠ a) (hkb : k ≠ b) : ∃ R, (R ++ [k] ++ [a] ++ [b]).Perm L := by
  obtain ⟨A, hA, hs⟩ := h
  obtain ⟨R, hR⟩ := hs.exists_perm_append
  have hLR : L.Perm ([a, b] ++ R) := hR.trans (hA.append_right R)
  have hkR : k ∈ R := by simpa [hka, hkb] using hLR.mem_iff.mp hk
  obtain ⟨R₁, R₂, rfl⟩ := List.append_of_mem hkR
  refine ⟨R₁ ++ R₂, List.Perm.trans ?_ hLR.symm⟩
  have h1 : (R₁ ++ R₂ ++ [k, a, b]).Perm ([k, a, b] ++ (R₁ ++ R₂)) := List.perm_append_comm
  have h2 : ([k, a, b] ++ (R₁ ++ R₂)).Perm ([a, b] ++ k :: (R₁ ++ R₂)) :=
    (@List.perm_middle _ k [a, b] (R₁ ++ R₂)).symm
  have h3 : ([a, b] ++ k :: (R₁ ++ R₂)).Perm ([a, b] ++ (R₁ ++ k :: R₂)) :=
    (List.perm_middle.symm).append_left [a, b]
  simpa using h1.trans (h2.trans h3)

theorem exists_perm_last {k : StrengthValue} (hk : k ∈ L) : ∃ R, (R ++ [k]).Perm L := by
  obtain ⟨R₁, R₂, rfl⟩ := List.append_of_mem hk
  refine ⟨R₁ ++ R₂, ?_⟩
  rw [List.append_assoc]
  exact (@List.perm_append_comm _ R₂ [k]).append_left R₁

theorem Contributions.of_subset (hL : Contributions L) (h : T ⊆ L) : Contributions T :=
  fun c hc => hL c (h hc)

theorem SplitsZero.differs (hL : Contributions L) (hl : HasLevels L l) (hs : SplitsZero L l) :
    Differs L := by
  obtain ⟨hdom, z, o, z', o', hpair, hz, hside⟩ := hs
  have hpos : 0 < l.zero := by omega
  have hk := hl.zero_mem hpos
  have hmemA : interval z o ∈ L := hpair.subset (by simp)
  have hmemB : interval z' o' ∈ L := hpair.subset (by simp)
  have hoA := hl.xOne_le _ _ hmemA
  have hoB := hl.xOne_le _ _ hmemB
  obtain ⟨R₁, hR₁⟩ := exists_perm_last hk
  obtain ⟨R₂, hR₂⟩ :=
    exists_perm_pair hpair hk (by simp [known, interval]) (by simp [known, interval])
  have sub₁ : R₁ ⊆ L := fun c hc => hR₁.subset (by simp [hc])
  have sub₂ : R₂ ⊆ L := fun c hc => hR₂.subset (by simp [hc])
  -- the strongest known 0 last: it decides
  have last : (fold (R₁ ++ [known false l.zero])).bit = .zero := by
    refine fold_last (hL.of_subset sub₁) (fun v => v.bit = .zero) ?_ ?_
    · simp [StrengthValue.bit, StrengthValue.isHighZ, known]
      omega
    · intro v hv
      exact (hv.heldZero sub₁ hl hdom).1.bit hpos
  -- the two X drives after it: the first lifts the end toward 0 off the known value
  have opened : ∀ M : List StrengthValue, M ⊆ L →
      OpenLow l (fold (M ++ [known false l.zero] ++ [interval z o] ++ [interval z' o'])) ∧
      (o' : Int) ≤ (fold (M ++ [known false l.zero] ++ [interval z o] ++
        [interval z' o'])).towardOne.coordinate := by
    intro M hM
    rw [fold_append_singleton, fold_append_singleton]
    refine OpenLow.step_interval ?_ (hL.interval hmemB) (by omega)
    refine fold_last (hL.of_subset hM) (fun v => OpenLow l (v.resolve (interval z o))) ?_ ?_
    · exact HeldZero.openLow ⟨rfl, Nat.le_refl _, rfl, .inl rfl, fun _ => rfl⟩
        (Drive.zero hpos).oriented rfl hz (by omega)
    · intro v hv
      obtain ⟨hheld, htop⟩ := hv.heldZero hM hl hdom
      exact hheld.openLow (hv.toOriented.step_known false hpos) htop hz (by omega)
  rcases Nat.eq_zero_or_pos o' with ho' | ho'
  · -- without strength toward 1 in the second X drive, a known 1 supplies it
    have hone : 0 < l.one := by omega
    have hq : known true l.one ∈ R₂ := by
      simpa [known, interval] using hR₂.symm.subset (hl.one_mem hone)
    obtain ⟨R₃, hR₃⟩ := exists_perm_last hq
    have sub₃ : R₃ ⊆ L := fun c hc => sub₂ (hR₃.subset (by simp [hc]))
    obtain ⟨hopen, hlow⟩ := opened R₃ sub₃
    have hstep := hopen.step_one (by omega) hone (by omega)
    rw [← fold_append_singleton] at hstep
    have hbit := hstep.1.bit hstep.2
    have hswap : (R₃ ++ [known false l.zero] ++ [interval z o] ++ [interval z' o'] ++
        [known true l.one]).Perm (R₃ ++ [known true l.one] ++
          ([known false l.zero] ++ [interval z o] ++ [interval z' o'])) := by
      simpa only [List.append_assoc, List.cons_append, List.nil_append] using
        (@List.perm_append_comm _ [known false l.zero, interval z o, interval z' o']
          [known true l.one]).append_left R₃
    have hrest : (R₃ ++ [known true l.one] ++
        ([known false l.zero] ++ [interval z o] ++ [interval z' o'])).Perm L := by
      simpa only [List.append_assoc] using (hR₃.append_right _).trans (by
        simpa only [List.append_assoc] using hR₂)
    exact ⟨_, _, hR₁, hswap.trans hrest, by rw [last, hbit]; simp⟩
  · obtain ⟨hopen, hlow⟩ := opened R₂ sub₂
    have hbit := hopen.bit (by omega)
    exact ⟨_, _, hR₁, hR₂, by rw [last, hbit]; simp⟩

theorem SplitsOne.differs (hL : Contributions L) (hl : HasLevels L l) (hs : SplitsOne L l) :
    Differs L := by
  obtain ⟨hdom, z, o, z', o', hpair, ho⟩ := hs
  have hpos : 0 < l.one := by omega
  have hk := hl.one_mem hpos
  have hmemA : interval z o ∈ L := hpair.subset (by simp)
  have hmemB : interval z' o' ∈ L := hpair.subset (by simp)
  have hzA := hl.xZero_le _ _ hmemA
  obtain ⟨R₁, hR₁⟩ := exists_perm_last hk
  obtain ⟨R₂, hR₂⟩ :=
    exists_perm_pair hpair hk (by simp [known, interval]) (by simp [known, interval])
  have sub₁ : R₁ ⊆ L := fun c hc => hR₁.subset (by simp [hc])
  have sub₂ : R₂ ⊆ L := fun c hc => hR₂.subset (by simp [hc])
  have last : (fold (R₁ ++ [known true l.one])).bit = .one := by
    refine fold_last (hL.of_subset sub₁) (fun v => v.bit = .one) ?_ ?_
    · simp [StrengthValue.bit, StrengthValue.isHighZ, known]
      omega
    · intro v hv
      exact (hv.heldOne sub₁ hl hdom).bit hpos
  have opened : OpenHigh l (fold (R₂ ++ [known true l.one] ++ [interval z o])) := by
    rw [fold_append_singleton]
    refine fold_last (hL.of_subset sub₂) (fun v => OpenHigh l (v.resolve (interval z o))) ?_ ?_
    · exact HeldOne.openHigh ⟨rfl, rfl, Nat.le_refl _⟩ (Drive.one hpos).oriented ho (by omega)
    · intro v hv
      exact (hv.heldOne sub₂ hl hdom).openHigh (hv.toOriented.step_known true hpos) ho (by omega)
  have hbit := opened.bit_interval (hL.interval hmemB)
  rw [← fold_append_singleton] at hbit
  exact ⟨_, _, hR₁, hR₂, by rw [last, hbit]; simp⟩

/-- The equal known drives first: their conflict is recorded before any X drive. -/
theorem conflict_first {s : Nat} (hs : 0 < s) (h0 : known false s ∈ L) (h1 : known true s ∈ L) :
    ∃ R, ([known false s, known true s] ++ R).Perm L ∧
      fold ([known false s, known true s] ++ R) = R.foldl StrengthValue.resolve (interval s s) := by
  obtain ⟨R₁, hR₁⟩ := exists_perm_last h0
  have h1' : known true s ∈ R₁ := by simpa [known] using hR₁.symm.subset h1
  obtain ⟨R₂, hR₂⟩ := exists_perm_last h1'
  refine ⟨R₂, ?_, ?_⟩
  · have hswap : ([known false s, known true s] ++ R₂).Perm
        (R₂ ++ [known true s] ++ [known false s]) := by
      have h2 : [known false s, known true s].Perm ([known true s] ++ [known false s]) :=
        @List.perm_append_comm _ [known false s] [known true s]
      rw [List.append_assoc]
      exact List.perm_append_comm.trans (h2.append_left R₂)
    exact hswap.trans ((hR₂.append_right _).trans hR₁)
  · have hconf : (known false s).resolve (known true s) = interval s s := by
      rw [resolve_known (Drive.zero hs).oriented true hs]
      simp [known]
    simp only [fold, List.cons_append, List.nil_append, List.foldl_cons,
      resolve_highZ_left (show StrengthValue.highZ.isHighZ = true from rfl), hconf]

/-- Drives of one known value, none of them able to move either end, leave the state alone. -/
theorem foldl_known_eq {R : List StrengthValue} (hR : Contributions R) {one : Bool}
    (hone : ∀ c ∈ R, c = known one c.towardZero.strength) (hv : Oriented v)
    (hne : v.towardZero.strength ≠ v.towardOne.strength)
    (hle : ∀ s, known one s ∈ R → s ≤ v.towardZero.strength ∧ s ≤ v.towardOne.strength) :
    R.foldl StrengthValue.resolve v = v := by
  refine foldl_invariant StrengthValue.resolve (fun _ w => w = v) R v rfl fun T c S w he hw => ?_
  subst hw
  have hc : c ∈ R := by simp [he]
  rcases hR.drive_or_highZ hc with hd | hd
  · have hk := hone c hc
    have hpos : 0 < c.towardZero.strength := by
      have hz := hd.oriented.driven
      rw [hk] at hz
      simpa [known, StrengthValue.isHighZ, Nat.pos_iff_ne_zero] using hz
    have hs := hle _ (hk ▸ hc)
    rw [hk, resolve_known hv one hpos, if_neg (fun h => hne (by rw [h]; rfl))]
    simp [against, Nat.not_lt.mpr hs.1, Nat.not_lt.mpr hs.2]
  · exact resolve_highZ_right hv.driven hd

/-- Dropping the known 1 drives keeps the other levels. -/
theorem HasLevels.restrict_zero (hl : HasLevels L l) :
    HasLevels (L.filter fun c => !c.towardZero.one) ⟨l.zero, 0, l.xZero, l.xOne⟩ where
  zero_le p hp := hl.zero_le p (List.mem_filter.mp hp).1
  one_le q hq := by simp [known] at hq
  xZero_le z o hx := hl.xZero_le z o (List.mem_filter.mp hx).1
  xOne_le z o hx := hl.xOne_le z o (List.mem_filter.mp hx).1
  zero_mem h0 := List.mem_filter.mpr ⟨hl.zero_mem h0, rfl⟩
  one_mem h0 := absurd h0 (Nat.lt_irrefl 0)
  xZero_mem h0 := (hl.xZero_mem h0).imp fun _ h => List.mem_filter.mpr ⟨h, rfl⟩
  xOne_mem h0 := (hl.xOne_mem h0).imp fun _ h => List.mem_filter.mpr ⟨h, rfl⟩

/-- Dropping the known 0 drives keeps the other levels. -/
theorem HasLevels.restrict_one (hl : HasLevels L l) :
    HasLevels (L.filter fun c => c.towardOne.one) ⟨0, l.one, l.xZero, l.xOne⟩ where
  zero_le p hp := by simp [known] at hp
  one_le q hq := hl.one_le q (List.mem_filter.mp hq).1
  xZero_le z o hx := hl.xZero_le z o (List.mem_filter.mp hx).1
  xOne_le z o hx := hl.xOne_le z o (List.mem_filter.mp hx).1
  zero_mem h0 := absurd h0 (Nat.lt_irrefl 0)
  one_mem h0 := List.mem_filter.mpr ⟨hl.one_mem h0, rfl⟩
  xZero_mem h0 := (hl.xZero_mem h0).imp fun _ h => List.mem_filter.mpr ⟨h, rfl⟩
  xOne_mem h0 := (hl.xOne_mem h0).imp fun _ h => List.mem_filter.mpr ⟨h, rfl⟩

/-- A property of the state that every drive of the list keeps is kept by every contribution. -/
theorem keep_oriented (hL : Contributions L) {c : StrengthValue} (hc : c ∈ L) (hv : Oriented v)
    {Q : StrengthValue → Prop} (hQ : Q v) (keep : Drive c → Q (v.resolve c)) :
    Oriented (v.resolve c) ∧ Q (v.resolve c) := by
  rcases hL.drive_or_highZ hc with hd | hd
  · refine ⟨?_, keep hd⟩
    cases hd with
    | zero hp => exact hv.step_known false hp
    | one hq => exact hv.step_known true hq
    | x hzo => exact hv.step_interval hzo
  · rw [resolve_highZ_right hv.driven hd]
    exact ⟨hv, hQ⟩

theorem StrengthPoint.eq_of {p : StrengthPoint} {b : Bool} {s : Nat} (hb : p.one = b)
    (hs : p.strength = s) : p = ⟨b, s⟩ := by
  rw [← hb, ← hs]

theorem bit_x_of_ends {a b : Nat} (hz : v.towardZero = ⟨false, a⟩) (ho : v.towardOne = ⟨true, b⟩)
    (h : 0 < a ∨ 0 < b) : v.bit = .x := by
  have hd : v.isHighZ = false := by
    simp [StrengthValue.isHighZ, hz, ho]
    omega
  simp [StrengthValue.bit, hd, hz, ho]

/-- After the conflict of the strongest known drives the end toward 1 stays. -/
theorem conflict_high (hL : Contributions L) (hl : HasLevels L l) (hpos : 0 < l.zero)
    (hmax : max l.one l.xOne = l.zero) {R : List StrengthValue} (hR : R ⊆ L) :
    (R.foldl StrengthValue.resolve (interval l.zero l.zero)).towardOne = ⟨true, l.zero⟩ := by
  refine (foldl_invariant StrengthValue.resolve
    (fun _ w => Oriented w ∧ w.towardOne = ⟨true, l.zero⟩) R _
    ⟨(Drive.x (.inl hpos)).oriented, rfl⟩ fun T c S w he hw => ?_).2
  have hcL : c ∈ L := hR (by simp [he])
  refine keep_oriented hL hcL hw.1 (Q := fun w => w.towardOne = ⟨true, l.zero⟩) hw.2 fun hd => ?_
  rw [← hmax] at hw ⊢
  exact hw.1.keep_high hd hcL hl (by omega) (by omega) hw.2

theorem conflict_low (hL : Contributions L) (hl : HasLevels L l) (hpos : 0 < l.zero)
    (hmax : max l.zero l.xZero = l.zero) (hle : l.one ≤ l.zero) {R : List StrengthValue}
    (hR : R ⊆ L) :
    (R.foldl StrengthValue.resolve (interval l.zero l.zero)).towardZero = ⟨false, l.zero⟩ := by
  refine (foldl_invariant StrengthValue.resolve
    (fun _ w => Oriented w ∧ w.towardZero = ⟨false, l.zero⟩) R _
    ⟨(Drive.x (.inl hpos)).oriented, rfl⟩ fun T c S w he hw => ?_).2
  have hcL : c ∈ L := hR (by simp [he])
  refine keep_oriented hL hcL hw.1 (Q := fun w => w.towardZero = ⟨false, l.zero⟩) hw.2
    fun hd => ?_
  have hlow : w.towardZero = ⟨false, max l.zero l.xZero⟩ := by rw [hmax]; exact hw.2
  rw [hw.1.keep_low hd hcL hl (by omega) hlow, hmax]

/-- An order in which the conflict is hidden. -/
theorem MasksOne.masked (hL : Contributions L) (hl : HasLevels L l) (hs : MasksOne l) :
    ∃ L₁ : List StrengthValue, L₁.Perm L ∧ (fold L₁).bit = .zero := by
  obtain ⟨hpos, heq, hx1, hx0⟩ := hs
  have hk0 := hl.zero_mem hpos
  -- all known 1 drives after the strongest known 0 and the X drives: their conflict is lost
  obtain ⟨M, hM⟩ := exists_perm_last (List.mem_filter.mpr ⟨hk0, (rfl : (!false) = true)⟩ :
    known false l.zero ∈ L.filter fun c => !c.towardZero.one)
  have hsplit : ((L.filter fun c => !c.towardZero.one) ++
      L.filter fun c => c.towardZero.one).Perm L :=
    List.perm_append_comm.trans (List.filter_append_perm (fun c => c.towardZero.one) L)
  have hrest : HasLevels (M ++ [known false l.zero]) ⟨l.zero, 0, l.xZero, l.xOne⟩ :=
    hl.restrict_zero.perm hM
  have hMc : Contributions (M ++ [known false l.zero]) :=
    (hL.of_subset (List.filter_subset_self L)).perm hM
  have hsub : M ⊆ M ++ [known false l.zero] := List.subset_append_left M _
  obtain ⟨hor, hhigh⟩ : Oriented (fold (M ++ [known false l.zero])) ∧
      (fold (M ++ [known false l.zero])).towardOne = ⟨false, l.zero⟩ := by
    refine fold_last (hMc.of_subset hsub)
      (fun v => Oriented v ∧ v.towardOne = ⟨false, l.zero⟩) ?_ ?_
    · exact ⟨(Drive.zero hpos).oriented, rfl⟩
    · intro v hv
      obtain ⟨hheld, htop⟩ := hv.heldZero hsub hrest (by simpa using hx1)
      exact ⟨hv.toOriented.step_known false hpos, StrengthPoint.eq_of hheld.high htop⟩
  have hlow : (fold (M ++ [known false l.zero])).towardZero = ⟨false, max l.zero l.xZero⟩ := by
    have hno : ¬ MasksZero ⟨l.zero, 0, l.xZero, l.xOne⟩ := fun ⟨_, h1, _⟩ => by
      dsimp only at h1
      omega
    exact fold_low (l := ⟨l.zero, 0, l.xZero, l.xOne⟩) hMc hrest (Nat.zero_le _)
      (.inl (lt_max_of_lt_left hpos)) hno
  have hsame : fold (M ++ [known false l.zero] ++ L.filter fun c => c.towardZero.one) =
      fold (M ++ [known false l.zero]) := by
    unfold fold at hor hlow hhigh ⊢
    rw [List.foldl_append]
    refine @foldl_known_eq _ _ (hL.of_subset (List.filter_subset_self L)) true ?_ hor ?_ ?_
    · intro c hc
      obtain ⟨hcL, hone⟩ := List.mem_filter.mp hc
      rcases hL c hcL with hd | ⟨b, rfl⟩
      · cases hd <;> simp_all [known, interval]
      · simp_all [known]
    · rw [hlow, hhigh]
      dsimp only
      omega
    · intro s hs
      have := hl.one_le s (List.mem_filter.mp hs).1
      rw [hlow, hhigh]
      dsimp only
      omega
  have hzero : (fold (M ++ [known false l.zero] ++ L.filter fun c => c.towardZero.one)).bit =
      .zero := by
    rw [hsame]
    simp [StrengthValue.bit, hor.driven, hlow, hhigh]
  exact ⟨_, (hM.append_right _).trans hsplit, hzero⟩

theorem MasksOne.differs (hL : Contributions L) (hl : HasLevels L l) (hs : MasksOne l) :
    Differs L := by
  obtain ⟨L₁, hL₁, hzero⟩ := hs.masked hL hl
  obtain ⟨hpos, heq, hx1, hx0⟩ := hs
  have hk0 := hl.zero_mem hpos
  have hk1 : known true l.zero ∈ L := heq ▸ hl.one_mem (by omega)
  -- the equal known drives first: the end toward 1 stays
  obtain ⟨R, hR, hfold⟩ := conflict_first hpos hk0 hk1
  have hsubR : R ⊆ L := fun c hc => hR.subset (by simp [hc])
  have hm0 : ¬ MasksZero l := fun h => by unfold MasksZero at h; omega
  have hx := bit_x_of_ends
    (fold_low (hL.perm hR) (hl.perm hR) (by omega) (.inl (by omega)) hm0)
    (hfold ▸ conflict_high hL hl hpos (by omega) hsubR) (.inr hpos)
  exact ⟨_, _, hL₁, hR, by rw [hzero, hx]; simp⟩

/-- An order in which the conflict is hidden. -/
theorem MasksZero.masked (hL : Contributions L) (hl : HasLevels L l) (hs : MasksZero l) :
    ∃ L₁ : List StrengthValue, L₁.Perm L ∧ (fold L₁).bit = .one := by
  obtain ⟨hpos, heq, hx0, hx1⟩ := hs
  have hone : 0 < l.one := by omega
  have hk1 := hl.one_mem hone
  -- all known 0 drives after the strongest known 1 and the X drives: their conflict is lost
  obtain ⟨M, hM⟩ := exists_perm_last (List.mem_filter.mpr ⟨hk1, (rfl : true = true)⟩ :
    known true l.one ∈ L.filter fun c => c.towardOne.one)
  have hsplit : ((L.filter fun c => c.towardOne.one) ++
      L.filter fun c => !c.towardOne.one).Perm L :=
    List.filter_append_perm (fun c => c.towardOne.one) L
  have hrest : HasLevels (M ++ [known true l.one]) ⟨0, l.one, l.xZero, l.xOne⟩ :=
    hl.restrict_one.perm hM
  have hMc : Contributions (M ++ [known true l.one]) :=
    (hL.of_subset (List.filter_subset_self L)).perm hM
  have hsub : M ⊆ M ++ [known true l.one] := List.subset_append_left M _
  obtain ⟨hor, hlow⟩ : Oriented (fold (M ++ [known true l.one])) ∧
      (fold (M ++ [known true l.one])).towardZero = ⟨true, l.one⟩ := by
    refine fold_last (hMc.of_subset hsub)
      (fun v => Oriented v ∧ v.towardZero = ⟨true, l.one⟩) ?_ ?_
    · exact ⟨(Drive.one hone).oriented, rfl⟩
    · intro v hv
      have hheld := hv.heldOne hsub hrest (by dsimp only; omega)
      exact ⟨hv.toOriented.step_known true hone, hheld.low⟩
  have hhigh : (fold (M ++ [known true l.one])).towardOne = ⟨true, max l.one l.xOne⟩ := by
    have hno : ¬ MasksOne ⟨0, l.one, l.xZero, l.xOne⟩ := fun ⟨h1, _⟩ => Nat.lt_irrefl 0 h1
    exact fold_high (l := ⟨0, l.one, l.xZero, l.xOne⟩) hMc hrest (Nat.zero_le _)
      (lt_max_of_lt_left hone) hno
  have hsame : fold (M ++ [known true l.one] ++ L.filter fun c => !c.towardOne.one) =
      fold (M ++ [known true l.one]) := by
    unfold fold at hor hlow hhigh ⊢
    rw [List.foldl_append]
    refine @foldl_known_eq _ _ (hL.of_subset (List.filter_subset_self L)) false ?_ hor ?_ ?_
    · intro c hc
      obtain ⟨hcL, hzero⟩ := List.mem_filter.mp hc
      rcases hL c hcL with hd | ⟨b, rfl⟩
      · cases hd <;> simp_all [known, interval]
      · simp_all [known]
    · rw [hlow, hhigh]
      dsimp only
      omega
    · intro s hs
      have := hl.zero_le s (List.mem_filter.mp hs).1
      rw [hlow, hhigh]
      dsimp only
      omega
  have hbit : (fold (M ++ [known true l.one] ++ L.filter fun c => !c.towardOne.one)).bit =
      .one := by
    rw [hsame]
    simp [StrengthValue.bit, hor.driven, hlow, hhigh]
  exact ⟨_, (hM.append_right _).trans hsplit, hbit⟩

theorem MasksZero.differs (hL : Contributions L) (hl : HasLevels L l) (hs : MasksZero l) :
    Differs L := by
  obtain ⟨L₁, hL₁, hbit⟩ := hs.masked hL hl
  obtain ⟨hpos, heq, hx0, hx1⟩ := hs
  have hk0 := hl.zero_mem hpos
  have hk1 := hl.one_mem (by omega)
  -- the equal known drives first: the end toward 0 stays
  obtain ⟨R, hR, hfold⟩ := conflict_first hpos hk0 (heq ▸ hk1)
  have hsubR : R ⊆ L := fun c hc => hR.subset (by simp [hc])
  have hm1 : ¬ MasksOne l := fun h => by unfold MasksOne at h; omega
  have hx := bit_x_of_ends
    (hfold ▸ conflict_low hL hl hpos (by omega) (by omega) hsubR)
    (fold_high (hL.perm hR) (hl.perm hR) (by omega) (by omega) hm1) (.inl hpos)
  exact ⟨_, _, hL₁, hR, by rw [hbit, hx]; simp⟩

/-- Resolution is independent of the driver order exactly off the sensitive lists. -/
theorem perm_invariant_iff (hL : Contributions L) (hl : HasLevels L l) :
    (∀ L', L'.Perm L → (fold L').bit = (fold L).bit) ↔ ¬ OrderSensitive L l := by
  constructor
  · intro hinv hs
    have hd : Differs L := by
      rcases hs with hs | hs | hs | hs
      · exact hs.differs hL hl
      · exact hs.differs hL hl
      · exact hs.differs hL hl
      · exact hs.differs hL hl
    obtain ⟨L₁, L₂, h₁, h₂, hne⟩ := hd
    exact hne ((hinv L₁ h₁).trans (hinv L₂ h₂).symm)
  · intro hno L' h
    exact fold_bit_perm hL hl hno h

end Orders

/-! ### Levels of a driver list -/

def maxOf (f : StrengthValue → Nat) (L : List StrengthValue) : Nat :=
  L.foldr (fun v m => max (f v) m) 0

def knownLevel (one : Bool) (v : StrengthValue) : Nat :=
  if v = known one v.towardZero.strength then v.towardZero.strength else 0

def intervalZero (v : StrengthValue) : Nat :=
  if v = interval v.towardZero.strength v.towardOne.strength then v.towardZero.strength else 0

def intervalOne (v : StrengthValue) : Nat :=
  if v = interval v.towardZero.strength v.towardOne.strength then v.towardOne.strength else 0

def levels (L : List StrengthValue) : Levels :=
  ⟨maxOf (knownLevel false) L, maxOf (knownLevel true) L, maxOf intervalZero L,
    maxOf intervalOne L⟩

theorem le_maxOf (f : StrengthValue → Nat) {L : List StrengthValue} {v : StrengthValue}
    (h : v ∈ L) : f v ≤ maxOf f L := by
  induction L with
  | nil => simp at h
  | cons w L ih =>
    rcases List.mem_cons.mp h with rfl | h
    · exact Nat.le_max_left _ _
    · exact (ih h).trans (Nat.le_max_right _ _)

theorem exists_maxOf (f : StrengthValue → Nat) {L : List StrengthValue} (h : 0 < maxOf f L) :
    ∃ v ∈ L, f v = maxOf f L := by
  induction L with
  | nil => simp [maxOf] at h
  | cons w L ih =>
    have hm : maxOf f (w :: L) = max (f w) (maxOf f L) := rfl
    rw [hm] at h ⊢
    rcases Nat.le_total (f w) (maxOf f L) with hle | hle
    · rw [Nat.max_eq_right hle] at h ⊢
      obtain ⟨v, hv, he⟩ := ih h
      exact ⟨v, List.mem_cons_of_mem w hv, he⟩
    · rw [Nat.max_eq_left hle]
      exact ⟨w, List.mem_cons_self, rfl⟩

theorem known_mem_of_max {one : Bool} {L : List StrengthValue} (h : 0 < maxOf (knownLevel one) L) :
    known one (maxOf (knownLevel one) L) ∈ L := by
  obtain ⟨v, hv, he⟩ := exists_maxOf _ h
  rw [← he] at h ⊢
  unfold knownLevel at h ⊢
  split_ifs at h ⊢ with hk
  · rwa [← hk]
  · omega

theorem hasLevels (L : List StrengthValue) : HasLevels L (levels L) where
  zero_le p hp := by simpa [knownLevel, known, levels] using le_maxOf (knownLevel false) hp
  one_le q hq := by simpa [knownLevel, known, levels] using le_maxOf (knownLevel true) hq
  xZero_le z o hx := by simpa [intervalZero, interval, levels] using le_maxOf intervalZero hx
  xOne_le z o hx := by simpa [intervalOne, interval, levels] using le_maxOf intervalOne hx
  zero_mem h := known_mem_of_max h
  one_mem h := known_mem_of_max h
  xZero_mem h := by
    obtain ⟨v, hv, he⟩ := exists_maxOf intervalZero h
    have hpos : 0 < intervalZero v := he ▸ h
    simp only [levels, ← he]
    unfold intervalZero at hpos ⊢
    split_ifs at hpos ⊢ with hi
    · exact ⟨_, hi ▸ hv⟩
    · omega
  xOne_mem h := by
    obtain ⟨v, hv, he⟩ := exists_maxOf intervalOne h
    have hpos : 0 < intervalOne v := he ▸ h
    simp only [levels, ← he]
    unfold intervalOne at hpos ⊢
    split_ifs at hpos ⊢ with hi
    · exact ⟨_, hi ▸ hv⟩
    · omega

/-- What the drivers of a net contribute to one bit, in driver order. -/
def contributions (drivers : List (PackedVec × DriverStrengths)) (bit : Nat) :
    List StrengthValue :=
  drivers.map fun d => .new (d.1.getBit bit) d.2

theorem contributions_contributions (drivers : List (PackedVec × DriverStrengths)) (bit : Nat) :
    Contributions (contributions drivers bit) := by
  intro c hc
  obtain ⟨⟨value, strengths⟩, -, rfl⟩ := List.mem_map.mp hc
  dsimp only
  unfold StrengthValue.new
  split_ifs with hz
  · exact .inr ⟨false, rfl⟩
  · cases value.getBit bit with
    | zero =>
      rcases Nat.eq_zero_or_pos strengths.zero.level with h | h
      · exact .inr ⟨false, by rw [h]; rfl⟩
      · exact .inl (.zero h)
    | one =>
      rcases Nat.eq_zero_or_pos strengths.one.level with h | h
      · exact .inr ⟨true, by rw [h]; rfl⟩
      · exact .inl (.one h)
    | x => exact .inl (.x (by omega))
    | z => exact .inr ⟨false, rfl⟩

/-- `resolve_drivers` on the drivers paired with their strengths. -/
def resolvePaired (drivers : List (PackedVec × DriverStrengths)) (width : Nat)
    (resolution : NetResolution) : PackedVec :=
  resolveDrivers (drivers.map Prod.fst) (drivers.map Prod.snd) width resolution

theorem resolveWireBit_eq_fold (drivers : List (PackedVec × DriverStrengths)) (bit : Nat) :
    resolveWireBit (drivers.map Prod.fst) (drivers.map Prod.snd) bit =
      (fold (contributions drivers bit)).bit := by
  have hzip : (drivers.map Prod.fst).zip (drivers.map Prod.snd) = drivers := by
    rw [List.zip_map', List.map_id'']
    exact fun _ => rfl
  simp only [resolveWireBit, hzip, fold, contributions, List.foldl_map]

/-- Wired nets resolve independently of the driver order; a wire does exactly if no bit of it
has an order-sensitive contribution list. -/
theorem resolve_order_independent_iff (drivers : List (PackedVec × DriverStrengths))
    (width : Nat) (resolution : NetResolution) :
    (∀ permuted, permuted.Perm drivers →
      resolvePaired permuted width resolution = resolvePaired drivers width resolution) ↔
    (resolution = .wire → ∀ bit < width,
      ¬ OrderSensitive (contributions drivers bit) (levels (contributions drivers bit))) := by
  simp only [resolvePaired, resolveDrivers_eq_iff]
  cases resolution with
  | wand =>
    refine iff_of_true (fun permuted h bit _ => ?_) (by simp)
    exact resolveWandBit_perm (h.map _) bit
  | wor =>
    refine iff_of_true (fun permuted h bit _ => ?_) (by simp)
    exact resolveWorBit_perm (h.map _) bit
  | wire =>
    simp only [resolveBit, resolveWireBit_eq_fold, forall_const]
    have bitwise (bit : Nat) := perm_invariant_iff (contributions_contributions drivers bit)
      (hasLevels (contributions drivers bit))
    constructor
    · intro h bit hbit
      refine (bitwise bit).mp fun L' hL' => ?_
      obtain ⟨permuted, hp, rfl⟩ := exists_perm_map _ hL'
      exact h permuted hp bit hbit
    · intro h permuted hp bit hbit
      exact (bitwise bit).mpr (h bit hbit) _ (hp.map _)

/-- `assign (strong0, highz1) w = 1'bx` with a weak 0 and a weak 1: the X drive before the
conflict gives 0, after it X. -/
theorem resolve_order_dependent :
    ¬ ∀ (drivers permuted : List (PackedVec × DriverStrengths)) (width : Nat)
      (resolution : NetResolution), permuted.Perm drivers →
      resolvePaired permuted width resolution = resolvePaired drivers width resolution := by
  intro h
  have hsame := h
    [(.x 1, ⟨.strong, .highZ⟩), (.zero 1, ⟨.weak, .weak⟩), (.ones 1, ⟨.weak, .weak⟩)]
    [(.zero 1, ⟨.weak, .weak⟩), (.ones 1, ⟨.weak, .weak⟩), (.x 1, ⟨.strong, .highZ⟩)]
    1 .wire (by decide)
  exact absurd hsame (by decide)

end Eevee.Sched.ResolutionOrder
