/- Runs of a deterministic machine that steps to a next state or halts with a result. -/

import Mathlib.Tactic.Common

set_option autoImplicit false
set_option relaxedAutoImplicit false

namespace Eevee.Lib.Machine

/-- What one step yields. -/
inductive Outcome (C R : Type)
  | next (state : C)
  | halt (result : R)

variable {C R : Type} {step : C → Outcome C R}

/-- The number of steps from one state to another. -/
inductive Runs (step : C → Outcome C R) : Nat → C → C → Prop
  | refl (c : C) : Runs step 0 c c
  | head {n : Nat} {a b c : C} (h : step a = .next b) (rest : Runs step n b c) :
    Runs step (n + 1) a c

/-- The machine stops in state `last` after `n` steps. -/
def Halts (step : C → Outcome C R) (n : Nat) (first last : C) (result : R) : Prop :=
  Runs step n first last ∧ step last = .halt result

namespace Runs

theorem single {a b : C} (h : step a = .next b) : Runs step 1 a b := .head h (.refl b)

theorem trans {n m : Nat} {a b c : C} (h : Runs step n a b) (h' : Runs step m b c) :
    Runs step (n + m) a c := by
  induction h with
  | refl => rwa [Nat.zero_add]
  | head hs _ ih =>
    rw [Nat.add_right_comm]
    exact .head hs (ih h')

/-- Of two runs from one state, the longer one passes through the end of the shorter. -/
theorem suffix {n m : Nat} {a b c : C} (h : Runs step n a b) (h' : Runs step m a c)
    (hle : n ≤ m) : Runs step (m - n) b c := by
  induction h generalizing m with
  | refl => exact h'
  | head hs _ ih =>
    cases h' with
    | refl => exact absurd hle (Nat.not_succ_le_zero _)
    | head hs' rest =>
      rw [hs] at hs'
      cases hs'
      rw [Nat.add_sub_add_right]
      exact ih rest (Nat.le_of_succ_le_succ hle)

/-- No step leaves a halted state. -/
theorem eq_zero_of_halt {n : Nat} {a b : C} {r : R} (h : Runs step n a b)
    (ha : step a = .halt r) : n = 0 := by
  cases h with
  | refl => rfl
  | head hs _ =>
    rw [ha] at hs
    cases hs

/-- A property that every step keeps. -/
theorem invariant {I : C → Prop} (hstep : ∀ a b, I a → step a = .next b → I b) {n : Nat}
    {a b : C} (h : Runs step n a b) (ha : I a) : I b := by
  induction h with
  | refl => exact ha
  | head hs _ ih => exact ih (hstep _ _ ha hs)

end Runs

namespace Halts

theorem prepend {n m : Nat} {a b c : C} {r : R} (h : Runs step n a b) (h' : Halts step m b c r) :
    Halts step (n + m) a c r := ⟨h.trans h'.1, h'.2⟩

/-- A run from the start of a halting one is part of it. -/
theorem after {n m : Nat} {a b c : C} {r : R} (h : Halts step m a c r) (h' : Runs step n a b) :
    n ≤ m ∧ Halts step (m - n) b c r := by
  rcases Nat.le_total n m with hle | hle
  · exact ⟨hle, h'.suffix h.1 hle, h.2⟩
  · have hrest := h.1.suffix h' hle
    have hzero := hrest.eq_zero_of_halt h.2
    have heq : n = m := by omega
    subst heq
    exact ⟨Nat.le_refl n, h'.suffix h.1 (Nat.le_refl n), h.2⟩

theorem unique {n m : Nat} {a b c : C} {r s : R} (h : Halts step n a b r)
    (h' : Halts step m a c s) : n = m ∧ b = c ∧ r = s := by
  obtain ⟨hle, hrest, -⟩ := h.after h'.1
  have hle' := (h'.after h.1).1
  have heq : n = m := Nat.le_antisymm hle' hle
  subst heq
  rw [Nat.sub_self] at hrest
  cases hrest with
  | refl =>
    refine ⟨rfl, rfl, ?_⟩
    have hr := h.2.symm.trans h'.2
    cases hr
    rfl

end Halts

end Eevee.Lib.Machine
