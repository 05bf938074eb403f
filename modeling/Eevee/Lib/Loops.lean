/- Loops over a state: their finite runs, bounded execution, and two loops side by side. -/

import Mathlib.Data.List.Basic
import Mathlib.Tactic.Common

set_option autoImplicit false
set_option relaxedAutoImplicit false

namespace Eevee.Lib.Loops

universe u v

/-- A loop tests its state and steps to the next; either may fail. -/
structure Loop (σ : Type u) where
  test : σ → Option Bool
  next : σ → Option σ

namespace Loop

variable {σ : Type u} {τ : Type v}

/-- A finite run, with the states in which the body is executed. -/
inductive Visits (L : Loop σ) : σ → List σ → Prop
  | stop {s : σ} : L.test s = some false → Visits L s []
  | next {s s' : σ} {l : List σ} : L.test s = some true → L.next s = some s' → Visits L s' l →
      Visits L s (s :: l)

/-- The body is executed in the second state after a start in the first. -/
inductive Body (L : Loop σ) : σ → σ → Prop
  | first {s : σ} : L.test s = some true → Body L s s
  | later {s s' t : σ} : L.test s = some true → L.next s = some s' → Body L s' t → Body L s t

/-- Execution that gives up when its bound of tests is used up. -/
def collect (L : Loop σ) : Nat → σ → Option (List σ)
  | 0, _ => none
  | n + 1, s => (L.test s).bind fun go =>
    if go then (L.next s).bind fun s' => (collect L n s').map (s :: ·) else some []

section Runs

variable {L : Loop σ} {s t : σ} {l : List σ}

theorem Visits.test_of_nil (h : L.Visits s []) : L.test s = some false := by
  cases h with
  | stop htest => exact htest

theorem Visits.of_cons (h : L.Visits s (t :: l)) :
    t = s ∧ L.test s = some true ∧ ∃ s', L.next s = some s' ∧ L.Visits s' l := by
  cases h with
  | next htest hnext hrest => exact ⟨rfl, htest, _, hnext, hrest⟩

/-- No body is executed where the test fails at once. -/
theorem Body.test (h : L.Body s t) : L.test s = some true := by
  cases h with
  | first htest | later htest _ _ => exact htest

theorem Visits.unique {l' : List σ} (h : L.Visits s l) (h' : L.Visits s l') : l = l' := by
  induction h generalizing l' with
  | stop htest =>
    cases h' with
    | stop => rfl
    | next htest' => rw [htest] at htest'; cases htest'
  | next htest hnext _ ih =>
    cases h' with
    | stop htest' => rw [htest] at htest'; cases htest'
    | next htest' hnext' hrest' =>
      rw [hnext] at hnext'
      cases hnext'
      rw [ih hrest']

/-- Within its bound, execution is the finite run. -/
theorem collect_eq_some_iff {n : Nat} : L.collect n s = some l ↔ L.Visits s l ∧ l.length < n := by
  induction n generalizing s l with
  | zero => simp [collect]
  | succ n ih =>
    constructor
    · intro h
      obtain ⟨go, htest, h⟩ := Option.bind_eq_some_iff.mp h
      cases go with
      | false =>
        cases h
        exact ⟨.stop htest, Nat.succ_pos n⟩
      | true =>
        obtain ⟨s', hnext, h⟩ := Option.bind_eq_some_iff.mp h
        obtain ⟨rest, hrest, rfl⟩ := Option.map_eq_some_iff.mp h
        obtain ⟨hvisits, hlength⟩ := ih.mp hrest
        exact ⟨.next htest hnext hvisits, Nat.succ_lt_succ hlength⟩
    · rintro ⟨hvisits, hlength⟩
      cases hvisits with
      | stop htest => simp [collect, htest]
      | next htest hnext hrest =>
        have hrest' := ih.mpr ⟨hrest, Nat.lt_of_succ_lt_succ hlength⟩
        simp [collect, htest, hnext, hrest']

end Runs

/-! ### Two loops -/

section Comparison

variable {L : Loop σ} {M : Loop τ} {f : σ → τ} {s : σ} {t : τ} {l : List τ}

/-- Two loops go on together, and then in states that correspond, or end together. -/
structure Enters (L : Loop σ) (M : Loop τ) (f : σ → τ) (s : σ) (t : τ) : Prop where
  test : L.test s = M.test t
  state : M.test t = some true → f s = t

/-- Both step, and enter what follows together. -/
def Follows (L : Loop σ) (M : Loop τ) (f : σ → τ) (s : σ) : Prop :=
  ∃ s' t', L.next s = some s' ∧ M.next (f s) = some t' ∧ Enters L M f s' t'

/-- The first loop runs through the states of the second exactly when the two enter together and
follow each other after each execution of the body. -/
theorem visits_iff (h : M.Visits t l) : (∃ k, L.Visits s k ∧ k.map f = l) ↔
    Enters L M f s t ∧ ∀ b, L.Body s b → Follows L M f b := by
  induction h generalizing s with
  | @stop t htest =>
    constructor
    · rintro ⟨k, hk, hmap⟩
      rw [List.map_eq_nil_iff] at hmap
      subst hmap
      refine ⟨⟨hk.test_of_nil.trans htest.symm, fun hgo => ?_⟩, fun b hb => ?_⟩
      · rw [htest] at hgo
        cases hgo
      · have hgo := hb.test
        rw [hk.test_of_nil] at hgo
        cases hgo
    · rintro ⟨henters, -⟩
      exact ⟨[], .stop (henters.test.trans htest), rfl⟩
  | @next t t' l htest hnext hrest ih =>
    constructor
    · rintro ⟨k, hk, hmap⟩
      obtain ⟨s₀, k', rfl, hs₀, hk'⟩ := List.map_eq_cons_iff.mp hmap
      obtain ⟨rfl, hgo, s', hs', hvisits⟩ := hk.of_cons
      obtain ⟨henters, hbody⟩ := ih.mp ⟨k', hvisits, hk'⟩
      refine ⟨⟨hgo.trans htest.symm, fun _ => hs₀⟩, fun b hb => ?_⟩
      cases hb with
      | first => exact ⟨s', t', hs', hs₀ ▸ hnext, henters⟩
      | later _ hs'' hlater =>
        rw [hs'] at hs''
        cases hs''
        exact hbody b hlater
    · rintro ⟨henters, hbody⟩
      have hgo := henters.test.trans htest
      have hst := henters.state htest
      obtain ⟨s', t'', hs', ht'', henters'⟩ := hbody s (.first hgo)
      rw [hst, hnext] at ht''
      cases ht''
      obtain ⟨k, hk, hmap⟩ := ih.mpr ⟨henters', fun b hb => hbody b (.later hgo hs' hb)⟩
      exact ⟨s :: k, .next hgo hs' hk, by rw [List.map_cons, hst, hmap]⟩

/-- A loop with the same tests and steps on another representation of its states, as long as they
are well formed. -/
structure Represents (L : Loop σ) (M : Loop τ) (f : σ → τ) (good : σ → Prop) : Prop where
  test {s : σ} : good s → M.test (f s) = L.test s
  next {s : σ} : good s → M.next (f s) = (L.next s).map f
  good {s s' : σ} : good s → L.next s = some s' → good s'

theorem Represents.collect {good : σ → Prop} (h : Represents L M f good) (n : Nat)
    (hs : good s) : M.collect n (f s) = (L.collect n s).map (List.map f) := by
  induction n generalizing s with
  | zero => rfl
  | succ n ih =>
    simp only [Loop.collect, h.test hs, h.next hs]
    cases L.test s with
    | none => rfl
    | some go =>
      cases go with
      | false => rfl
      | true =>
        cases hnext : L.next s with
        | none => rfl
        | some s' => simp [ih (h.good hs hnext), Function.comp_def]

end Comparison

end Loop

end Eevee.Lib.Loops
