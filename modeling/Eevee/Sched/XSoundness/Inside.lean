/- Replacing X drives by known ones keeps a value within the value of the X drives. -/

import Mathlib.Data.List.Forall2
import Eevee.Sched.ResolutionOrder

set_option autoImplicit false
set_option relaxedAutoImplicit false

namespace Eevee.Sched.XSoundness

open Eevee.Core.Logic
open Eevee.Lib.Folds
open Eevee.Sched.Nets
open Eevee.Sched.Resolution
open Eevee.Sched.ResolutionOrder

/-- An X drive may have become a known drive of its strength. -/
inductive Sharper : StrengthValue → StrengthValue → Prop
  | same (c : StrengthValue) : Sharper c c
  | zero (z o : Nat) : Sharper (interval z o) (known false z)
  | one (z o : Nat) : Sharper (interval z o) (known true o)

section

variable {L L' : List StrengthValue} {l : Levels} {v v' c c' : StrengthValue} {n : Nat}

theorem sharper_of_mem (h : List.Forall₂ Sharper L L') (hc : c' ∈ L') : ∃ c ∈ L, Sharper c c' := by
  induction h with
  | nil => cases hc
  | @cons a b L L' hab _ ih =>
    rcases List.mem_cons.mp hc with rfl | hc
    · exact ⟨a, List.mem_cons_self, hab⟩
    · obtain ⟨d, hd, hdc⟩ := ih hc
      exact ⟨d, List.mem_cons_of_mem _ hd, hdc⟩

/-! ### A strictly strongest known 0 -/

/-- Both values are held at 0 or below by the strongest known drive, the second one within the
first. -/
structure InsideZero (n : Nat) (v v' : StrengthValue) : Prop where
  oriented : Oriented v
  oriented' : Oriented v'
  low : v.towardZero.one = false
  low' : v'.towardZero.one = false
  reach : n ≤ v'.towardZero.strength
  within : v'.towardZero.strength ≤ v.towardZero.strength
  top : v'.towardOne.coordinate ≤ v.towardOne.coordinate
  positive : v'.towardOne.one = true → 0 < v'.towardOne.coordinate

theorem InsideZero.bit (h : InsideZero n v v') (hbit : v.bit = .zero ∨ v.bit = .one) :
    v'.bit = v.bit := by
  have hd := h.oriented.driven
  have hd' := h.oriented'.driven
  have hhigh : v.towardOne.one = false := by
    by_contra hne
    rcases hbit with hbit | hbit <;> simp [StrengthValue.bit, hd, h.low, hne] at hbit
  have hhigh' : v'.towardOne.one = false := by
    by_contra hne
    have hpos := h.positive (by simpa using hne)
    have htop := h.top
    rw [coordinate_of_zero hhigh] at htop
    omega
  simp [StrengthValue.bit, hd, hd', h.low, h.low', hhigh, hhigh']

theorem coordinate_fromCoordinate_pos (k : Int)
    (h : (StrengthPoint.fromCoordinate k).one = true) :
    0 < (StrengthPoint.fromCoordinate k).coordinate := by
  rw [coordinate_fromCoordinate]
  simpa [StrengthPoint.fromCoordinate] using h

/-- An X drive that is weaker toward 1 than the value is toward 0. -/
theorem low_interval (hv : Oriented v) (hlow : v.towardZero.one = false) {z o : Nat}
    (hzo : 0 < z ∨ 0 < o) (ho : o < v.towardZero.strength) :
    (v.resolve (interval z o)).towardZero = ⟨false, max v.towardZero.strength z⟩ ∧
    (v.resolve (interval z o)).towardOne.coordinate =
      (if v.towardZero = v.towardOne then v.towardOne.coordinate
        else max v.towardOne.coordinate o) ∧
    ((v.resolve (interval z o)).towardOne.one = true →
      (v.towardOne.one = true → 0 < v.towardOne.coordinate) →
      0 < (v.resolve (interval z o)).towardOne.coordinate) := by
  rw [resolve_interval hv hzo]
  obtain ⟨⟨b₁, s₁⟩, p⟩ := v
  dsimp only at hlow ho ⊢
  subst hlow
  by_cases he : (⟨⟨false, s₁⟩, p⟩ : StrengthValue) = interval z o
  · rw [if_pos he]
    simp only [interval, StrengthValue.mk.injEq, StrengthPoint.mk.injEq, true_and] at he
    obtain ⟨rfl, rfl⟩ := he
    refine ⟨by simp, by simp [StrengthPoint.coordinate], fun h hpos => hpos h⟩
  · rw [if_neg he]
    by_cases hp : (⟨false, s₁⟩ : StrengthPoint) = p
    · subst hp
      rw [if_pos rfl, if_pos rfl]
      dsimp only
      rw [if_pos (show s₁ > o from ho)]
      refine ⟨?_, rfl, fun h => by simp at h⟩
      split_ifs with hz
      · rw [Nat.max_eq_left (Nat.le_of_lt hz)]
      · rw [Nat.max_eq_right (by omega)]
    · rw [if_neg hp, if_neg hp]
      dsimp only
      refine ⟨?_, coordinate_fromCoordinate _, fun h _ => coordinate_fromCoordinate_pos _ h⟩
      have hmin : min (StrengthPoint.coordinate ⟨false, s₁⟩) (-(z : Int)) =
          -((max s₁ z : Nat) : Int) := by
        simp only [StrengthPoint.coordinate, Bool.false_eq_true, if_false]
        omega
      rw [hmin, fromCoordinate_neg]

theorem against_coordinate (one : Bool) (s : Nat) (p : StrengthPoint) :
    (against one s p).coordinate =
      if s > p.strength then (if one then (s : Int) else -s) else p.coordinate := by
  unfold against
  split_ifs <;> simp_all [StrengthPoint.coordinate]

theorem natAbs_coordinate (p : StrengthPoint) : p.coordinate.natAbs = p.strength := by
  unfold StrengthPoint.coordinate
  split_ifs <;> omega

theorem resolve_against {one : Bool} {s : Nat} (hv : Oriented v) (hs : 0 < s)
    (hne : v.towardZero ≠ ⟨!one, s⟩) : v.resolve (known one s) =
      ⟨against one s v.towardZero, against one s v.towardOne⟩ := by
  rw [resolve_known hv one hs, if_neg]
  rintro rfl
  exact hne rfl

/-- A known drive keeps the second value within the first. -/
theorem InsideZero.known (h : InsideZero n v v') {one : Bool} {s : Nat} (hs : 0 < s)
    (hbound : if one then s < n else s ≤ n) :
    InsideZero n (v.resolve (known one s)) (v'.resolve (known one s)) := by
  have hor := h.oriented.step_known one hs
  have hor' := h.oriented'.step_known one hs
  obtain ⟨hv, hv', low, low', reach, within, top, positive⟩ := h
  have hle : s ≤ n := by cases one <;> simp at hbound <;> omega
  have hne {w : StrengthValue} (hlow : w.towardZero.one = false)
      (hw : n ≤ w.towardZero.strength) : w.towardZero ≠ ⟨!one, s⟩ := by
    intro he
    rw [he] at hlow hw
    cases one
    · simp at hlow
    · simp only [if_true] at hbound
      dsimp only at hw
      omega
  have hkeep {w : StrengthValue} (hw : n ≤ w.towardZero.strength) :
      against one s w.towardZero = w.towardZero := by
    rw [against, if_neg (by omega)]
  rw [resolve_against hv hs (hne low (by omega)), hkeep (by omega)] at hor ⊢
  rw [resolve_against hv' hs (hne low' reach), hkeep reach] at hor' ⊢
  refine ⟨hor, hor', low, low', reach, within, ?_, ?_⟩
  · have ha := natAbs_coordinate v.towardOne
    have ha' := natAbs_coordinate v'.towardOne
    dsimp only
    rw [against_coordinate, against_coordinate]
    cases one <;> simp only [if_true, Bool.false_eq_true, if_false] <;> split_ifs <;> omega
  · dsimp only
    rw [against_coordinate]
    unfold against
    split_ifs with hgt hone
    · intro _
      omega
    · intro h
      exact absurd h hone
    · exact positive

theorem eq_of_coordinate {p q : StrengthPoint} (h : p.coordinate = q.coordinate)
    (hq : q.strength ≠ 0) : p = q := by
  obtain ⟨b, s⟩ := p
  obtain ⟨b', s'⟩ := q
  cases b <;> cases b' <;> simp [StrengthPoint.coordinate] at h hq ⊢ <;> omega

/-- A first value without spread leaves none to the second. -/
theorem InsideZero.point (h : InsideZero n v v') (hn : 0 < n) (he : v.towardZero = v.towardOne) :
    v'.towardZero = v.towardZero ∧ v'.towardOne = v.towardOne := by
  obtain ⟨-, hv', low, low', reach, within, top, -⟩ := h
  have hord' := hv'.ordered
  rw [← he] at top
  rw [coordinate_of_zero low] at top
  rw [coordinate_of_zero low'] at hord'
  have hs : v'.towardZero.strength = v.towardZero.strength := by omega
  refine ⟨StrengthPoint.eq_of (low'.trans low.symm) hs, ?_⟩
  rw [← he]
  refine eq_of_coordinate ?_ (by omega)
  rw [coordinate_of_zero low]
  omega

/-- An X drive, replaced or not in the second value, keeps it within the first. -/
theorem InsideZero.interval (h : InsideZero n v v') {z o : Nat} (hzo : 0 < z ∨ 0 < o)
    (ho : o < n) (hsharp : Sharper (interval z o) c') :
    InsideZero n (v.resolve (ResolutionOrder.interval z o)) (v'.resolve c') := by
  have hpoint := h.point (by omega)
  have hor := h.oriented.step_interval hzo
  obtain ⟨hv, hv', low, low', reach, within, top, positive⟩ := h
  obtain ⟨hlow, htop, -⟩ := low_interval hv low hzo (by omega)
  have ha' := natAbs_coordinate v'.towardOne
  -- an end toward 1 within the new reach of the first value
  have hwithin {p : StrengthPoint} (hp : v.towardZero = v.towardOne →
      p.coordinate ≤ v.towardOne.coordinate)
      (hp' : p.coordinate ≤ max v.towardOne.coordinate o) :
      p.coordinate ≤ (v.resolve (ResolutionOrder.interval z o)).towardOne.coordinate := by
    rw [htop]
    split_ifs with he
    · exact hp he
    · exact hp'
  have hstrength (he : v.towardZero = v.towardOne) : o < v'.towardOne.strength := by
    rw [(hpoint he).2, ← he]
    omega
  have hzero : (v.resolve (ResolutionOrder.interval z o)).towardZero.one = false ∧
      (v.resolve (ResolutionOrder.interval z o)).towardZero.strength =
        max v.towardZero.strength z := by
    rw [hlow]
    exact ⟨rfl, rfl⟩
  cases hsharp with
  | same =>
    obtain ⟨hlow', htop', hpos'⟩ := low_interval hv' low' hzo (by omega)
    refine ⟨hor, hv'.step_interval hzo, hzero.1, by rw [hlow'], ?_, ?_, ?_, fun h =>
      hpos' h positive⟩
    · rw [hlow']
      dsimp only
      omega
    · rw [hlow', hzero.2]
      dsimp only
      omega
    · refine hwithin (fun he => ?_) ?_
      · have he' : v'.towardZero = v'.towardOne := by rw [(hpoint he).1, (hpoint he).2, he]
        rw [htop', if_pos he']
        exact top
      · rw [htop']
        split_ifs <;> omega
  | zero =>
    rcases Nat.eq_zero_or_pos z with rfl | hz
    · rw [resolve_highZ_right hv'.driven rfl]
      refine ⟨hor, hv', hzero.1, low', reach, ?_, hwithin (fun _ => top) (by omega), positive⟩
      rw [hzero.2]
      omega
    · have hor' := hv'.step_known false hz
      have hne : v'.towardZero ≠ ⟨!false, z⟩ := by
        intro he
        rw [he] at low'
        cases low'
      rw [resolve_against hv' hz hne] at hor' ⊢
      have hzend : (against false z v'.towardZero).one = false ∧
          (against false z v'.towardZero).strength = max v'.towardZero.strength z := by
        unfold against
        split_ifs with hgt
        · exact ⟨rfl, (Nat.max_eq_right (Nat.le_of_lt hgt)).symm⟩
        · exact ⟨low', (Nat.max_eq_left (Nat.le_of_not_lt hgt)).symm⟩
      have hle : (against false z v'.towardOne).coordinate ≤ v'.towardOne.coordinate := by
        rw [against_coordinate]
        simp only [Bool.false_eq_true, if_false]
        split_ifs <;> omega
      refine ⟨hor, hor', hzero.1, hzend.1, ?_, ?_, ?_, ?_⟩
      · dsimp only
        omega
      · rw [hzero.2]
        dsimp only
        omega
      · exact hwithin (fun _ => le_trans hle top) (by dsimp only; omega)
      · dsimp only
        unfold against
        split_ifs
        · intro h
          cases h
        · exact positive
  | one =>
    rcases Nat.eq_zero_or_pos o with rfl | hone
    · rw [resolve_highZ_right hv'.driven rfl]
      refine ⟨hor, hv', hzero.1, low', reach, ?_, hwithin (fun _ => top) (by omega), positive⟩
      rw [hzero.2]
      omega
    · have hor' := hv'.step_known true hone
      have hne : v'.towardZero ≠ ⟨!true, o⟩ := by
        intro he
        rw [he] at reach
        dsimp only at reach
        omega
      have hkeep : against true o v'.towardZero = v'.towardZero := by
        rw [against, if_neg (by omega)]
      rw [resolve_against hv' hone hne, hkeep] at hor' ⊢
      have hto : (against true o v'.towardOne).coordinate =
          if o > v'.towardOne.strength then (o : Int) else v'.towardOne.coordinate := by
        rw [against_coordinate, if_pos rfl]
      refine ⟨hor, hor', hzero.1, low', reach, ?_, ?_, ?_⟩
      · rw [hzero.2]
        dsimp only
        omega
      · refine hwithin (fun he => ?_) ?_
        · have hlt := hstrength he
          dsimp only
          rw [hto, if_neg (by omega)]
          exact top
        · dsimp only
          rw [hto]
          split_ifs <;> omega
      · dsimp only
        intro h
        rw [hto]
        unfold against at h
        split_ifs at h ⊢
        · omega
        · exact positive h

/-! ### A strictly strongest known 1 -/

/-- Both values are held at 1 or above by the strongest known drive, the second one within the
first. -/
structure InsideOne (n : Nat) (v v' : StrengthValue) : Prop where
  oriented : Oriented v
  oriented' : Oriented v'
  high : v.towardOne.one = true
  high' : v'.towardOne.one = true
  reach : n ≤ v'.towardOne.strength
  within : v'.towardOne.strength ≤ v.towardOne.strength
  bottom : v.towardZero.coordinate ≤ v'.towardZero.coordinate
  positive : v.towardZero.one = true → 0 < v.towardZero.coordinate

theorem InsideOne.bit (h : InsideOne n v v') (hbit : v.bit = .zero ∨ v.bit = .one) :
    v'.bit = v.bit := by
  have hd := h.oriented.driven
  have hd' := h.oriented'.driven
  have hlow : v.towardZero.one = true := by
    by_contra hne
    rcases hbit with hbit | hbit <;> simp [StrengthValue.bit, hd, h.high, hne] at hbit
  have hlow' : v'.towardZero.one = true := by
    by_contra hne
    have hpos := h.positive hlow
    have hbottom := h.bottom
    rw [coordinate_of_zero (show v'.towardZero.one = false by simpa using hne)] at hbottom
    omega
  simp [StrengthValue.bit, hd, hd', h.high, h.high', hlow, hlow']

/-- An X drive that is weaker toward 0 than the value is toward 1. -/
theorem high_interval (hv : Oriented v) (hhigh : v.towardOne.one = true) {z o : Nat}
    (hzo : 0 < z ∨ 0 < o) (hz : z < v.towardOne.strength) :
    (v.resolve (interval z o)).towardOne = ⟨true, max v.towardOne.strength o⟩ ∧
    (v.resolve (interval z o)).towardZero.coordinate =
      (if v.towardZero = v.towardOne then v.towardZero.coordinate
        else min v.towardZero.coordinate (-z)) ∧
    ((v.resolve (interval z o)).towardZero.one = true →
      (v.towardZero.one = true → 0 < v.towardZero.coordinate) →
      0 < (v.resolve (interval z o)).towardZero.coordinate) := by
  rw [resolve_interval hv hzo]
  obtain ⟨p, ⟨b₂, s₂⟩⟩ := v
  dsimp only at hhigh hz ⊢
  subst hhigh
  by_cases he : (⟨p, ⟨true, s₂⟩⟩ : StrengthValue) = interval z o
  · rw [if_pos he]
    simp only [interval, StrengthValue.mk.injEq, StrengthPoint.mk.injEq, true_and] at he
    obtain ⟨rfl, rfl⟩ := he
    refine ⟨by simp, by simp [StrengthPoint.coordinate], fun h => by cases h⟩
  · rw [if_neg he]
    by_cases hp : p = ⟨true, s₂⟩
    · subst hp
      rw [if_pos rfl, if_pos rfl]
      dsimp only
      rw [if_pos (show s₂ > z from hz)]
      refine ⟨?_, rfl, fun h hpos => hpos h⟩
      split_ifs with ho
      · rw [Nat.max_eq_left (Nat.le_of_lt ho)]
      · rw [Nat.max_eq_right (by omega)]
    · rw [if_neg hp, if_neg hp]
      dsimp only
      refine ⟨?_, coordinate_fromCoordinate _, fun h _ => coordinate_fromCoordinate_pos _ h⟩
      have hmax : max (StrengthPoint.coordinate ⟨true, s₂⟩) (o : Int) =
          ((max s₂ o : Nat) : Int) := by
        simp only [StrengthPoint.coordinate, if_true]
        omega
      rw [hmax, fromCoordinate_of_pos (by omega)]

theorem InsideOne.known (h : InsideOne n v v') {one : Bool} {s : Nat} (hs : 0 < s)
    (hbound : if one then s ≤ n else s < n) :
    InsideOne n (v.resolve (known one s)) (v'.resolve (known one s)) := by
  have hor := h.oriented.step_known one hs
  have hor' := h.oriented'.step_known one hs
  obtain ⟨hv, hv', high, high', reach, within, bottom, positive⟩ := h
  have hle : s ≤ n := by cases one <;> simp at hbound <;> omega
  -- the value is no known drive of the other sign with this strength
  have hne {w : StrengthValue} (hhigh : w.towardOne.one = true)
      (hw : n ≤ w.towardOne.strength) : w ≠ ResolutionOrder.known (!one) s := by
    rintro rfl
    cases one
    · simp only [Bool.false_eq_true, if_false] at hbound
      dsimp only [ResolutionOrder.known] at hw
      omega
    · cases hhigh
  have hkeep {w : StrengthValue} (hw : n ≤ w.towardOne.strength) :
      against one s w.towardOne = w.towardOne := by
    rw [against, if_neg (by omega)]
  rw [resolve_known hv one hs, if_neg (hne high (by omega)), hkeep (by omega)] at hor ⊢
  rw [resolve_known hv' one hs, if_neg (hne high' reach), hkeep reach] at hor' ⊢
  refine ⟨hor, hor', high, high', reach, within, ?_, ?_⟩
  · have ha := natAbs_coordinate v.towardZero
    have ha' := natAbs_coordinate v'.towardZero
    dsimp only
    rw [against_coordinate, against_coordinate]
    cases one <;> simp only [if_true, Bool.false_eq_true, if_false] <;> split_ifs <;> omega
  · dsimp only
    rw [against_coordinate]
    unfold against
    split_ifs with hgt hone
    · intro _
      omega
    · intro h
      exact absurd h hone
    · exact positive

theorem InsideOne.point (h : InsideOne n v v') (hn : 0 < n) (he : v.towardZero = v.towardOne) :
    v'.towardOne = v.towardOne ∧ v'.towardZero = v.towardZero := by
  obtain ⟨-, hv', high, high', reach, within, bottom, -⟩ := h
  have hord' := hv'.ordered
  rw [he] at bottom
  rw [coordinate_of_one high] at bottom
  rw [coordinate_of_one high'] at hord'
  have hs : v'.towardOne.strength = v.towardOne.strength := by omega
  refine ⟨StrengthPoint.eq_of (high'.trans high.symm) hs, ?_⟩
  rw [he]
  refine eq_of_coordinate ?_ (by omega)
  rw [coordinate_of_one high]
  omega

theorem InsideOne.interval (h : InsideOne n v v') {z o : Nat} (hzo : 0 < z ∨ 0 < o)
    (hz : z < n) (hsharp : Sharper (interval z o) c') :
    InsideOne n (v.resolve (ResolutionOrder.interval z o)) (v'.resolve c') := by
  have hpoint := h.point (by omega)
  have hor := h.oriented.step_interval hzo
  obtain ⟨hv, hv', high, high', reach, within, bottom, positive⟩ := h
  obtain ⟨hhigh, hbottom, hpos⟩ := high_interval hv high hzo (by omega)
  have ha' := natAbs_coordinate v'.towardZero
  -- an end toward 0 within the new reach of the first value
  have hwithin {p : StrengthPoint} (hp : v.towardZero = v.towardOne →
      v.towardZero.coordinate ≤ p.coordinate)
      (hp' : min v.towardZero.coordinate (-z) ≤ p.coordinate) :
      (v.resolve (ResolutionOrder.interval z o)).towardZero.coordinate ≤ p.coordinate := by
    rw [hbottom]
    split_ifs with he
    · exact hp he
    · exact hp'
  have hstrength (he : v.towardZero = v.towardOne) : z < v'.towardZero.strength := by
    rw [(hpoint he).2, he]
    omega
  have hone : (v.resolve (ResolutionOrder.interval z o)).towardOne.one = true ∧
      (v.resolve (ResolutionOrder.interval z o)).towardOne.strength =
        max v.towardOne.strength o := by
    rw [hhigh]
    exact ⟨rfl, rfl⟩
  have hpositive := fun h => hpos h positive
  cases hsharp with
  | same =>
    obtain ⟨hhigh', hbottom', -⟩ := high_interval hv' high' hzo (by omega)
    refine ⟨hor, hv'.step_interval hzo, hone.1, by rw [hhigh'], ?_, ?_, ?_, hpositive⟩
    · rw [hhigh']
      dsimp only
      omega
    · rw [hhigh', hone.2]
      dsimp only
      omega
    · refine hwithin (fun he => ?_) ?_
      · have he' : v'.towardZero = v'.towardOne := by rw [(hpoint he).1, (hpoint he).2, he]
        rw [hbottom', if_pos he']
        exact bottom
      · rw [hbottom']
        split_ifs <;> omega
  | zero =>
    rcases Nat.eq_zero_or_pos z with rfl | hzero
    · rw [resolve_highZ_right hv'.driven rfl]
      refine ⟨hor, hv', hone.1, high', reach, ?_, hwithin (fun _ => bottom) (by omega), hpositive⟩
      rw [hone.2]
      omega
    · have hor' := hv'.step_known false hzero
      have hne : v' ≠ ResolutionOrder.known (!false) z := by
        rintro rfl
        dsimp only [ResolutionOrder.known] at reach
        omega
      have hkeep : against false z v'.towardOne = v'.towardOne := by
        rw [against, if_neg (by omega)]
      rw [resolve_known hv' false hzero, if_neg hne, hkeep] at hor' ⊢
      have hto : (against false z v'.towardZero).coordinate =
          if z > v'.towardZero.strength then -(z : Int) else v'.towardZero.coordinate := by
        rw [against_coordinate]
        rfl
      refine ⟨hor, hor', hone.1, high', reach, ?_, ?_, hpositive⟩
      · rw [hone.2]
        dsimp only
        omega
      · refine hwithin (fun he => ?_) ?_
        · have hlt := hstrength he
          dsimp only
          rw [hto, if_neg (by omega)]
          exact bottom
        · dsimp only
          rw [hto]
          split_ifs <;> omega
  | one =>
    rcases Nat.eq_zero_or_pos o with rfl | ho
    · rw [resolve_highZ_right hv'.driven rfl]
      refine ⟨hor, hv', hone.1, high', reach, ?_, hwithin (fun _ => bottom) (by omega), hpositive⟩
      rw [hone.2]
      omega
    · have hor' := hv'.step_known true ho
      have hne : v' ≠ ResolutionOrder.known (!true) o := by
        rintro rfl
        cases high'
      rw [resolve_known hv' true ho, if_neg hne] at hor' ⊢
      have hoend : (against true o v'.towardOne).one = true ∧
          (against true o v'.towardOne).strength = max v'.towardOne.strength o := by
        unfold against
        split_ifs with hgt
        · exact ⟨rfl, (Nat.max_eq_right (Nat.le_of_lt hgt)).symm⟩
        · exact ⟨high', (Nat.max_eq_left (Nat.le_of_not_lt hgt)).symm⟩
      have hle : v'.towardZero.coordinate ≤ (against true o v'.towardZero).coordinate := by
        rw [against_coordinate, if_pos rfl]
        split_ifs <;> omega
      refine ⟨hor, hor', hone.1, hoend.1, ?_, ?_, ?_, hpositive⟩
      · dsimp only
        omega
      · rw [hone.2]
        dsimp only
        omega
      · exact hwithin (fun _ => le_trans bottom hle) (by dsimp only; omega)

/-! ### Levels of the replaced drives -/

theorem sharper_known {one : Bool} {s : Nat} (h : Sharper (known one s) c') :
    c' = known one s := by
  generalize hk : known one s = c at h
  cases h with
  | same => rfl
  | zero z o =>
    have hone := (congrArg (·.towardZero.one) hk).symm.trans (congrArg (·.towardOne.one) hk)
    cases hone
  | one z o =>
    have hone := (congrArg (·.towardZero.one) hk).symm.trans (congrArg (·.towardOne.one) hk)
    cases hone

/-- Replacement moves the strength of X drives to known drives. -/
theorem levels_sharper {l' : Levels} (hl : HasLevels L l) (hl' : HasLevels L' l')
    (hs : List.Forall₂ Sharper L L') : l'.zero ≤ max l.zero l.xZero ∧
      l'.one ≤ max l.one l.xOne ∧ l'.xZero ≤ l.xZero ∧ l'.xOne ≤ l.xOne := by
  have known_le {one : Bool} {s m : Nat} (hm : known one s ∈ L')
      (hknown : known one s ∈ L → s ≤ m) (hzero : one = false → ∀ o, interval s o ∈ L → s ≤ m)
      (hone : one = true → ∀ z, interval z s ∈ L → s ≤ m) : s ≤ m := by
    obtain ⟨c, hc, hsharp⟩ := sharper_of_mem hs hm
    generalize hk : known one s = c' at hsharp
    cases hsharp with
    | same => exact hknown (hk ▸ hc)
    | zero z o =>
      simp only [known, StrengthValue.mk.injEq, StrengthPoint.mk.injEq, and_self] at hk
      obtain ⟨rfl, rfl⟩ := hk
      exact hzero rfl o hc
    | one z o =>
      simp only [known, StrengthValue.mk.injEq, StrengthPoint.mk.injEq, and_self] at hk
      obtain ⟨rfl, rfl⟩ := hk
      exact hone rfl z hc
  have kept {z o : Nat} (hm : interval z o ∈ L') : interval z o ∈ L := by
    obtain ⟨c, hc, hsharp⟩ := sharper_of_mem hs hm
    generalize hk : interval z o = c' at hsharp
    cases hsharp with
    | same => exact hk ▸ hc
    | zero => simp [interval, known] at hk
    | one => simp [interval, known] at hk
  refine ⟨?_, ?_, ?_, ?_⟩
  · rcases Nat.eq_zero_or_pos l'.zero with h | h
    · omega
    · exact known_le (hl'.zero_mem h) (fun hm => le_max_of_le_left (hl.zero_le _ hm))
        (fun _ o hm => le_max_of_le_right (hl.xZero_le _ o hm)) (fun h => by cases h)
  · rcases Nat.eq_zero_or_pos l'.one with h | h
    · omega
    · exact known_le (hl'.one_mem h) (fun hm => le_max_of_le_left (hl.one_le _ hm))
        (fun h => by cases h) (fun _ z hm => le_max_of_le_right (hl.xOne_le z _ hm))
  · rcases Nat.eq_zero_or_pos l'.xZero with h | h
    · omega
    · obtain ⟨o, hm⟩ := hl'.xZero_mem h
      exact hl.xZero_le _ o (kept hm)
  · rcases Nat.eq_zero_or_pos l'.xOne with h | h
    · omega
    · obtain ⟨z, hm⟩ := hl'.xOne_mem h
      exact hl.xOne_le z _ (kept hm)

/-- Fewer drives have lower levels. -/
theorem levels_mono {T : List StrengthValue} {t : Levels} (ht : HasLevels T t)
    (hl : HasLevels L l) (hT : T ⊆ L) : t.zero ≤ l.zero ∧ t.one ≤ l.one ∧ t.xZero ≤ l.xZero ∧
      t.xOne ≤ l.xOne := by
  refine ⟨?_, ?_, ?_, ?_⟩
  · rcases Nat.eq_zero_or_pos t.zero with h | h
    · omega
    · exact hl.zero_le _ (hT (ht.zero_mem h))
  · rcases Nat.eq_zero_or_pos t.one with h | h
    · omega
    · exact hl.one_le _ (hT (ht.one_mem h))
  · rcases Nat.eq_zero_or_pos t.xZero with h | h
    · omega
    · obtain ⟨o, hm⟩ := ht.xZero_mem h
      exact hl.xZero_le _ o (hT hm)
  · rcases Nat.eq_zero_or_pos t.xOne with h | h
    · omega
    · obtain ⟨z, hm⟩ := ht.xOne_mem h
      exact hl.xOne_le z _ (hT hm)

end

end Eevee.Sched.XSoundness
