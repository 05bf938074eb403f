/- Strength intervals: what each drive does to an accumulated value and where its ends come from. -/

import Mathlib.Tactic.Common
import Mathlib.Tactic.SplitIfs
import Eevee.Lib.Folds
import Eevee.Sched.Resolution

set_option autoImplicit false
set_option relaxedAutoImplicit false

namespace Eevee.Sched.ResolutionOrder

open Eevee.Lib.Folds
open Eevee.Sched.Resolution

/-! ### The shapes of a contribution -/

/-- A known drive of one strength. -/
def known (one : Bool) (s : Nat) : StrengthValue := ⟨⟨one, s⟩, ⟨one, s⟩⟩

/-- An X drive: at most `z` toward 0 and `o` toward 1. -/
def interval (z o : Nat) : StrengthValue := ⟨⟨false, z⟩, ⟨true, o⟩⟩

/-- What one driver can contribute besides high impedance. -/
inductive Drive : StrengthValue → Prop
  | zero {p : Nat} (hp : 0 < p) : Drive (known false p)
  | one {q : Nat} (hq : 0 < q) : Drive (known true q)
  | x {z o : Nat} (h : 0 < z ∨ 0 < o) : Drive (interval z o)

/-- An end keeps its strength unless a known drive is stronger. -/
def against (one : Bool) (s : Nat) (p : StrengthPoint) : StrengthPoint :=
  if s > p.strength then ⟨one, s⟩ else p

/-- The interval is oriented and not high impedance. -/
structure Oriented (v : StrengthValue) : Prop where
  driven : v.isHighZ = false
  ordered : v.towardZero.coordinate ≤ v.towardOne.coordinate

theorem Drive.oriented {v : StrengthValue} (h : Drive v) : Oriented v := by
  cases h with
  | zero hp => exact ⟨by simp [known, StrengthValue.isHighZ]; omega, Int.le_refl _⟩
  | one hq => exact ⟨by simp [known, StrengthValue.isHighZ]; omega, Int.le_refl _⟩
  | x h =>
    constructor
    · simp [interval, StrengthValue.isHighZ]; omega
    · simp [interval, StrengthPoint.coordinate]

theorem resolve_highZ_left {v : StrengthValue} (hv : v.isHighZ = true) (w : StrengthValue) :
    v.resolve w = w := by
  simp [StrengthValue.resolve, hv]

theorem resolve_highZ_right {v w : StrengthValue} (hv : v.isHighZ = false)
    (hw : w.isHighZ = true) : v.resolve w = v := by
  simp [StrengthValue.resolve, hv, hw]

/-- A known drive acts on each end separately, except in an equal-strength conflict. -/
theorem resolve_known {v : StrengthValue} (hv : Oriented v) (one : Bool) {s : Nat} (hs : 0 < s) :
    v.resolve (known one s) =
      if v = known (!one) s then interval s s
      else ⟨against one s v.towardZero, against one s v.towardOne⟩ := by
  have hk : (known one s).isHighZ = false := by simp [known, StrengthValue.isHighZ]; omega
  have hku : (known one s).isUnambiguous = true := by simp [known, StrengthValue.isUnambiguous]
  by_cases hp : v.towardZero = v.towardOne
  · obtain ⟨p, q⟩ := v
    obtain rfl : p = q := hp
    obtain ⟨b, t⟩ := p
    have hu : StrengthValue.isUnambiguous ⟨⟨b, t⟩, ⟨b, t⟩⟩ = true := by
      simp [StrengthValue.isUnambiguous]
    simp only [StrengthValue.resolve, hv.driven, hk, hu, hku, Bool.false_eq_true, if_false,
      Bool.false_or, Bool.and_self, if_true]
    simp only [known, interval, StrengthValue.resolvePoints, against]
    rcases Nat.lt_trichotomy t s with h | h | h
    · have hne : t ≠ s := Nat.ne_of_lt h
      simp [h, hne]
    · subst h
      cases b <;> cases one <;> simp
    · have hne : t ≠ s := Nat.ne_of_gt h
      have hnlt : ¬ t < s := Nat.lt_asymm h
      simp [hne, hne.symm, hnlt]
  · have hu : v.isUnambiguous = false := by simpa [StrengthValue.isUnambiguous] using hp
    have hne : v ≠ known one s := fun h => hp (by rw [h]; rfl)
    have hne' : v ≠ known (!one) s := fun h => hp (by rw [h]; rfl)
    simp only [StrengthValue.resolve, hv.driven, hk, hu, hku, hne', beq_eq_false_iff_ne.mpr hne,
      StrengthValue.resolvePoint, Bool.false_eq_true, if_false, Bool.or_self,
      Bool.false_and, if_true]
    rfl

/-- Against an X drive a known value keeps the ends it is stronger than, and two different
intervals give their hull. -/
theorem resolve_interval {v : StrengthValue} (hv : Oriented v) {z o : Nat} (h : 0 < z ∨ 0 < o) :
    v.resolve (interval z o) =
      if v = interval z o then v
      else if v.towardZero = v.towardOne then
        ⟨if v.towardZero.strength > z then v.towardZero else ⟨false, z⟩,
          if v.towardZero.strength > o then v.towardZero else ⟨true, o⟩⟩
      else ⟨.fromCoordinate (min v.towardZero.coordinate (-z)),
        .fromCoordinate (max v.towardOne.coordinate o)⟩ := by
  have hi := (Drive.x h).oriented.driven
  have hiu : (interval z o).isUnambiguous = false := by
    simp [interval, StrengthValue.isUnambiguous]
  have ho := hv.ordered
  by_cases hp : v.towardZero = v.towardOne
  · have hu : v.isUnambiguous = true := by simpa [StrengthValue.isUnambiguous] using hp
    have hne : v ≠ interval z o := by
      rintro rfl
      simp [interval] at hp
    simp only [StrengthValue.resolve, hv.driven, hi, hu, hiu, hne, hp,
      beq_eq_false_iff_ne.mpr hne, StrengthValue.resolvePoint, Bool.false_eq_true, if_false,
      Bool.or_self, Bool.and_false, if_true]
    rfl
  · have hu : v.isUnambiguous = false := by simpa [StrengthValue.isUnambiguous] using hp
    by_cases he : v = interval z o
    · simp [StrengthValue.resolve, hv.driven, ← he]
    · have h1 : min (min v.towardZero.coordinate v.towardOne.coordinate) (min (-(z : Int)) o) =
          min v.towardZero.coordinate (-z) := by omega
      have h2 : max (max v.towardZero.coordinate v.towardOne.coordinate) (max (-(z : Int)) o) =
          max v.towardOne.coordinate o := by omega
      simp only [StrengthValue.resolve, hv.driven, hi, hu, hiu, hp, he,
        beq_eq_false_iff_ne.mpr he, Bool.false_eq_true, if_false, Bool.or_self, Bool.and_self]
      rw [← h1, ← h2]
      rfl

/-! ### Where the ends of an accumulated value come from -/

/-- The end toward 0 is absent, brought by a known drive, or the 0 side of an X drive. -/
def ZeroEnd (T : List StrengthValue) (p : StrengthPoint) : Prop :=
  p.strength = 0 ∨ known p.one p.strength ∈ T ∨ p.one = false ∧ ∃ o, interval p.strength o ∈ T

/-- The end toward 1 is absent, brought by a known drive, or the 1 side of an X drive. -/
def OneEnd (T : List StrengthValue) (p : StrengthPoint) : Prop :=
  p.strength = 0 ∨ known p.one p.strength ∈ T ∨ p.one = true ∧ ∃ z, interval z p.strength ∈ T

/-- Both ends of an accumulated value come from the consumed drives. -/
structure Ends (T : List StrengthValue) (v : StrengthValue) : Prop extends Oriented v where
  zeroEnd : ZeroEnd T v.towardZero
  oneEnd : OneEnd T v.towardOne

theorem coordinate_of_one {p : StrengthPoint} (h : p.one = true) : p.coordinate = p.strength := by
  simp [StrengthPoint.coordinate, h]

theorem coordinate_of_zero {p : StrengthPoint} (h : p.one = false) :
    p.coordinate = -p.strength := by
  simp [StrengthPoint.coordinate, h]

/-- The ends of a hull: strength 0 decodes on the 0 side, otherwise the end is kept. -/
theorem fromCoordinate_coordinate (p : StrengthPoint) :
    StrengthPoint.fromCoordinate p.coordinate = if p.strength = 0 then .highZ else p := by
  obtain ⟨b, s⟩ := p
  cases b <;> simp [StrengthPoint.fromCoordinate, StrengthPoint.coordinate, StrengthPoint.highZ] <;>
    split_ifs <;> simp_all
  omega

theorem coordinate_fromCoordinate (c : Int) : (StrengthPoint.fromCoordinate c).coordinate = c := by
  simp only [StrengthPoint.fromCoordinate, StrengthPoint.coordinate, decide_eq_true_eq]
  split_ifs <;> omega

theorem fromCoordinate_neg (n : Nat) : StrengthPoint.fromCoordinate (-(n : Int)) = ⟨false, n⟩ := by
  have h : ¬ -(n : Int) > 0 := by omega
  simp only [StrengthPoint.fromCoordinate, h, decide_false, Int.natAbs_neg, Int.natAbs_natCast]

theorem fromCoordinate_of_pos {n : Nat} (hn : 0 < n) :
    StrengthPoint.fromCoordinate (n : Int) = ⟨true, n⟩ := by
  have h : (n : Int) > 0 := by omega
  simp only [StrengthPoint.fromCoordinate, h, decide_true, Int.natAbs_natCast]

theorem Oriented.step_known {v : StrengthValue} (hv : Oriented v) (one : Bool) {s : Nat}
    (hs : 0 < s) : Oriented (v.resolve (known one s)) := by
  rw [resolve_known hv one hs]
  split
  · exact (Drive.x (.inl hs)).oriented
  · obtain ⟨⟨b₁, s₁⟩, ⟨b₂, s₂⟩⟩ := v
    have hd := hv.driven
    have ho := hv.ordered
    simp only [StrengthValue.isHighZ, StrengthPoint.coordinate] at hd ho
    constructor
    · simp only [against, StrengthValue.isHighZ]
      split_ifs <;> simp_all
      all_goals omega
    · simp only [against, StrengthPoint.coordinate]
      cases one <;> cases b₁ <;> cases b₂ <;> simp at ho ⊢ <;> split_ifs <;> simp_all
      all_goals omega

theorem Oriented.step_interval {v : StrengthValue} (hv : Oriented v) {z o : Nat}
    (h : 0 < z ∨ 0 < o) : Oriented (v.resolve (interval z o)) := by
  rw [resolve_interval hv h]
  obtain ⟨⟨b₁, s₁⟩, ⟨b₂, s₂⟩⟩ := v
  have hd := hv.driven
  have ho := hv.ordered
  split
  · exact hv
  · split
    · next hp =>
      obtain ⟨rfl, rfl⟩ : b₁ = b₂ ∧ s₁ = s₂ := by simpa using hp
      simp only [StrengthValue.isHighZ] at hd
      constructor
      · simp only [StrengthValue.isHighZ]
        split_ifs <;> simp_all
        omega
      · simp only [StrengthPoint.coordinate]
        cases b₁ <;> split_ifs <;> simp_all
    · next hp =>
      constructor
      · -- an end of strength 0 at 0 leaves the other end to the drive
        simp only [StrengthValue.isHighZ, StrengthPoint.fromCoordinate, Bool.and_eq_false_iff,
          beq_eq_false_iff_ne, ne_eq, Int.natAbs_eq_zero]
        omega
      · simp only [coordinate_fromCoordinate]
        omega

theorem ZeroEnd.mono {T T' : List StrengthValue} {p : StrengthPoint} (h : ZeroEnd T p)
    (hT : T ⊆ T') : ZeroEnd T' p :=
  h.imp_right (Or.imp (@hT _) (And.imp_right fun ⟨o, ho⟩ => ⟨o, hT ho⟩))

theorem OneEnd.mono {T T' : List StrengthValue} {p : StrengthPoint} (h : OneEnd T p)
    (hT : T ⊆ T') : OneEnd T' p :=
  h.imp_right (Or.imp (@hT _) (And.imp_right fun ⟨z, hz⟩ => ⟨z, hT hz⟩))

theorem Ends.mono {T T' : List StrengthValue} {v : StrengthValue} (h : Ends T v) (hT : T ⊆ T') :
    Ends T' v :=
  ⟨h.toOriented, h.zeroEnd.mono hT, h.oneEnd.mono hT⟩

theorem Drive.ends {c : StrengthValue} (h : Drive c) {T : List StrengthValue} (hc : c ∈ T) :
    Ends T c := by
  refine ⟨h.oriented, ?_, ?_⟩ <;> cases h with
  | zero => exact .inr (.inl hc)
  | one => exact .inr (.inl hc)
  | x => exact .inr (.inr ⟨rfl, _, hc⟩)

theorem ZeroEnd.against {T : List StrengthValue} {p : StrengthPoint} (h : ZeroEnd T p)
    {one : Bool} {s : Nat} (hc : known one s ∈ T) : ZeroEnd T (against one s p) := by
  unfold ResolutionOrder.against
  split
  · exact .inr (.inl hc)
  · exact h

theorem OneEnd.against {T : List StrengthValue} {p : StrengthPoint} (h : OneEnd T p)
    {one : Bool} {s : Nat} (hc : known one s ∈ T) : OneEnd T (against one s p) := by
  unfold ResolutionOrder.against
  split
  · exact .inr (.inl hc)
  · exact h

theorem Ends.step_known {T : List StrengthValue} {v : StrengthValue} (h : Ends T v)
    {one : Bool} {s : Nat} (hs : 0 < s) (hc : known one s ∈ T) :
    Ends T (v.resolve (known one s)) := by
  have ho := h.toOriented.step_known one hs
  have hs0 : s ≠ 0 := Nat.ne_of_gt hs
  by_cases hv : v = known (!one) s
  · rw [resolve_known h.toOriented one hs, if_pos hv] at ho ⊢
    have hz := h.zeroEnd
    have hone := h.oneEnd
    -- the opposing known drive is itself among the consumed ones
    cases one
    · have hopp : known true s ∈ T := by simpa [hv, known, ZeroEnd, hs0] using hz
      exact ⟨ho, .inr (.inl hc), .inr (.inl hopp)⟩
    · have hopp : known false s ∈ T := by simpa [hv, known, OneEnd, hs0] using hone
      exact ⟨ho, .inr (.inl hopp), .inr (.inl hc)⟩
  · rw [resolve_known h.toOriented one hs, if_neg hv] at ho ⊢
    exact ⟨ho, h.zeroEnd.against hc, h.oneEnd.against hc⟩

theorem fromCoordinate_min {p : StrengthPoint} (z : Nat) :
    StrengthPoint.fromCoordinate (min p.coordinate (-z)) =
      if p.coordinate ≤ -z then .fromCoordinate p.coordinate else ⟨false, z⟩ := by
  split
  · next h => rw [Int.min_eq_left h]
  · next h =>
    rw [Int.min_eq_right (by omega)]
    simp [StrengthPoint.fromCoordinate]

theorem fromCoordinate_max {p : StrengthPoint} (o : Nat) :
    StrengthPoint.fromCoordinate (max p.coordinate o) =
      if p.coordinate < o then (if o = 0 then .highZ else ⟨true, o⟩)
      else .fromCoordinate p.coordinate := by
  split
  · next h =>
    rw [Int.max_eq_right (by omega)]
    split_ifs with h0
    · simp [h0, StrengthPoint.fromCoordinate, StrengthPoint.highZ]
    · simp [StrengthPoint.fromCoordinate]
      omega
  · next h => rw [Int.max_eq_left (by omega)]

theorem Ends.step_interval {T : List StrengthValue} {v : StrengthValue} (h : Ends T v)
    {z o : Nat} (hzo : 0 < z ∨ 0 < o) (hc : interval z o ∈ T) :
    Ends T (v.resolve (interval z o)) := by
  have ho := h.toOriented.step_interval hzo
  have hz : ZeroEnd T ⟨false, z⟩ := .inr (.inr ⟨rfl, o, hc⟩)
  have hone : OneEnd T ⟨true, o⟩ := .inr (.inr ⟨rfl, z, hc⟩)
  rw [resolve_interval h.toOriented hzo] at ho ⊢
  split at ho
  · next hv => simpa [hv] using h
  · next hv =>
    split at ho
    · next hp =>
      rw [if_neg hv, if_pos hp]
      refine ⟨ho, ?_, ?_⟩
      · dsimp only
        split
        · exact h.zeroEnd
        · exact hz
      · dsimp only
        split
        · exact hp ▸ h.oneEnd
        · exact hone
    · next hp =>
      rw [if_neg hv, if_neg hp]
      refine ⟨ho, ?_, ?_⟩
      · dsimp only
        rw [fromCoordinate_min, fromCoordinate_coordinate]
        split_ifs
        · exact .inl rfl
        · exact h.zeroEnd
        · exact hz
      · dsimp only
        rw [fromCoordinate_max, fromCoordinate_coordinate]
        split_ifs
        · exact .inl rfl
        · exact hone
        · exact .inl rfl
        · exact h.oneEnd

theorem Ends.resolve {T : List StrengthValue} {v c : StrengthValue} (h : Ends T v)
    (hc : Drive c) (hm : c ∈ T) : Ends T (v.resolve c) := by
  cases hc with
  | zero hp => exact h.step_known hp hm
  | one hq => exact h.step_known hq hm
  | x hzo => exact h.step_interval hzo hm

/-! ### Folds over contribution lists -/

/-- Every contribution is a drive or a known value without strength. -/
def Contributions (L : List StrengthValue) : Prop := ∀ c ∈ L, Drive c ∨ ∃ b, c = known b 0

theorem Contributions.drive_or_highZ {L : List StrengthValue} (hL : Contributions L)
    {c : StrengthValue} (hc : c ∈ L) : Drive c ∨ c.isHighZ = true :=
  (hL c hc).imp_right fun ⟨_, hb⟩ => hb ▸ rfl

theorem Contributions.interval {L : List StrengthValue} (hL : Contributions L) {z o : Nat}
    (hc : interval z o ∈ L) : 0 < z ∨ 0 < o := by
  rcases hL _ hc with hd | ⟨b, hb⟩
  · cases hd with
    | x h => exact h
  · simp only [ResolutionOrder.interval, known, StrengthValue.mk.injEq,
      StrengthPoint.mk.injEq] at hb
    exact absurd (hb.1.1.trans hb.2.1.symm) (by simp)

def fold (L : List StrengthValue) : StrengthValue :=
  L.foldl StrengthValue.resolve StrengthValue.highZ

/-- Nothing has driven yet, or the ends come from what was consumed. -/
def Reached (T : List StrengthValue) (v : StrengthValue) : Prop :=
  (v.isHighZ = true ∧ ∀ c ∈ T, c.isHighZ = true) ∨ Ends T v

theorem Reached.resolve {T : List StrengthValue} {v c : StrengthValue} (h : Reached T v)
    (hc : Drive c ∨ c.isHighZ = true) : Reached (T ++ [c]) (v.resolve c) := by
  have hsub : T ⊆ T ++ [c] := List.subset_append_left T [c]
  have hmem : c ∈ T ++ [c] := by simp
  rcases h with ⟨hv, hT⟩ | hv
  · rw [resolve_highZ_left hv]
    rcases hc with hc | hc
    · exact .inr (hc.ends hmem)
    · refine .inl ⟨hc, fun d hd => ?_⟩
      rcases List.mem_append.mp hd with hd | hd
      · exact hT d hd
      · rwa [List.mem_singleton.mp hd]
  · rcases hc with hc | hc
    · exact .inr ((hv.mono hsub).resolve hc hmem)
    · rw [resolve_highZ_right hv.driven hc]
      exact .inr (hv.mono hsub)

theorem reached_fold {L : List StrengthValue} (hL : Contributions L) : Reached L (fold L) :=
  foldl_invariant _ Reached L _ (.inl ⟨rfl, by simp⟩) fun T a S _ he hv =>
    hv.resolve (hL.drive_or_highZ (by simp [he]))

/-- A property that the drive `a` establishes on any value and every later drive keeps. -/
theorem fold_absorb {L : List StrengthValue} (hL : Contributions L) (Q : StrengthValue → Prop)
    {a : StrengthValue} (ha : a ∈ L) (hd : Drive a) (first : Q a)
    (establish : ∀ T v, T ⊆ L → Ends T v → Q (v.resolve a))
    (keep : ∀ T c S v, L = T ++ c :: S → Ends T v → Drive c → Q v → Q (v.resolve c)) :
    Q (fold L) := by
  have prefixSub {T S : List StrengthValue} {c : StrengthValue} (he : L = T ++ c :: S) : T ⊆ L :=
    he ▸ List.subset_append_left T (c :: S)
  refine foldl_absorb _ Reached Q L _ ha (.inl ⟨rfl, by simp⟩)
    (fun T c S v he hv => hv.resolve (hL.drive_or_highZ (by simp [he]))) ?_ ?_
  · intro T S v he hv
    rcases hv with ⟨hv, -⟩ | hv
    · rwa [resolve_highZ_left hv]
    · exact establish T v (prefixSub he) hv
  · intro T c S v he hv hT hQ
    rcases hv with ⟨-, hT'⟩ | hv
    · exact absurd (hT' a hT) (by simp [hd.oriented.driven])
    · rcases hL.drive_or_highZ (c := c) (by simp [he]) with hc | hc
      · exact keep T c S v he hv hc hQ
      · rwa [resolve_highZ_right hv.driven hc]

/-- Strongest known 0, strongest known 1, and the widest reach of the X drives on each side. -/
structure Levels where
  zero : Nat
  one : Nat
  xZero : Nat
  xOne : Nat

structure HasLevels (L : List StrengthValue) (l : Levels) : Prop where
  zero_le : ∀ p, known false p ∈ L → p ≤ l.zero
  one_le : ∀ q, known true q ∈ L → q ≤ l.one
  xZero_le : ∀ z o, interval z o ∈ L → z ≤ l.xZero
  xOne_le : ∀ z o, interval z o ∈ L → o ≤ l.xOne
  zero_mem : 0 < l.zero → known false l.zero ∈ L
  one_mem : 0 < l.one → known true l.one ∈ L
  xZero_mem : 0 < l.xZero → ∃ o, interval l.xZero o ∈ L
  xOne_mem : 0 < l.xOne → ∃ z, interval z l.xOne ∈ L

section Bounds

variable {L T : List StrengthValue} {l : Levels} {v : StrengthValue}

theorem Ends.zeroLow_le (h : Ends T v) (hT : T ⊆ L) (hl : HasLevels L l)
    (hb : v.towardZero.one = false) : v.towardZero.strength ≤ max l.zero l.xZero := by
  rcases h.zeroEnd with h0 | hk | ⟨-, o, hm⟩
  · omega
  · exact le_max_of_le_left (hl.zero_le _ (hT (hb ▸ hk)))
  · exact le_max_of_le_right (hl.xZero_le _ o (hT hm))

theorem Ends.zeroHigh_le (h : Ends T v) (hT : T ⊆ L) (hl : HasLevels L l)
    (hb : v.towardZero.one = true) : v.towardZero.strength ≤ l.one := by
  rcases h.zeroEnd with h0 | hk | ⟨hf, -⟩
  · omega
  · exact hl.one_le _ (hT (hb ▸ hk))
  · simp [hb] at hf

theorem Ends.oneHigh_le (h : Ends T v) (hT : T ⊆ L) (hl : HasLevels L l)
    (hb : v.towardOne.one = true) : v.towardOne.strength ≤ max l.one l.xOne := by
  rcases h.oneEnd with h0 | hk | ⟨-, z, hm⟩
  · omega
  · exact le_max_of_le_left (hl.one_le _ (hT (hb ▸ hk)))
  · exact le_max_of_le_right (hl.xOne_le z _ (hT hm))

theorem Ends.oneLow_le (h : Ends T v) (hT : T ⊆ L) (hl : HasLevels L l)
    (hb : v.towardOne.one = false) : v.towardOne.strength ≤ l.zero := by
  rcases h.oneEnd with h0 | hk | ⟨hf, -⟩
  · omega
  · exact hl.zero_le _ (hT (hb ▸ hk))
  · simp [hb] at hf

/-- Past every known 0 only an X drive can have stretched the end toward 0. -/
theorem Ends.exists_wide_zero (h : Ends T v) (hT : T ⊆ L) (hl : HasLevels L l)
    (hb : v.towardZero.one = false) (hs : l.zero < v.towardZero.strength) :
    ∃ o, interval v.towardZero.strength o ∈ T := by
  rcases h.zeroEnd with h0 | hk | ⟨-, hm⟩
  · omega
  · exact absurd (hl.zero_le _ (hT (hb ▸ hk))) (by omega)
  · exact hm

theorem Ends.exists_wide_one (h : Ends T v) (hT : T ⊆ L) (hl : HasLevels L l)
    (hb : v.towardOne.one = true) (hs : l.one < v.towardOne.strength) :
    ∃ z, interval z v.towardOne.strength ∈ T := by
  rcases h.oneEnd with h0 | hk | ⟨-, hm⟩
  · omega
  · exact absurd (hl.one_le _ (hT (hb ▸ hk))) (by omega)
  · exact hm

end Bounds

end Eevee.Sched.ResolutionOrder
