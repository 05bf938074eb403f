/- Tasks that perform their subtasks in order: grounded ones end, and what they performed. -/

import Mathlib.Data.List.Basic
import Mathlib.Tactic.Common

set_option autoImplicit false
set_option relaxedAutoImplicit false

namespace Eevee.Lib.TaskTree

universe u

variable {τ : Type u}

/-- The tasks that were performed, in the order in which they began. -/
inductive Outcome (τ : Type u)
  | done (performed : List τ)
  | panic
  | timeout

def Outcome.after (performed : List τ) : Outcome τ → Outcome τ
  | .done later => .done (performed ++ later)
  | .panic => .panic
  | .timeout => .timeout

theorem Outcome.after_eq_done {before : List τ} {o : Outcome τ} {performed : List τ} :
    o.after before = .done performed ↔ ∃ later, o = .done later ∧ performed = before ++ later := by
  cases o <;> simp [Outcome.after, eq_comm]

theorem Outcome.after_eq_timeout {before : List τ} {o : Outcome τ} :
    o.after before = .timeout ↔ o = .timeout := by
  cases o <;> simp [Outcome.after]

/-- Performs tasks one after the other, up to a panic. -/
def performAll (perform : τ → Outcome τ) : List (Option τ) → Outcome τ
  | [] => .done []
  | none :: _ => .panic
  | some t :: rest =>
    match perform t with
    | .done performed => (performAll perform rest).after performed
    | .panic => .panic
    | .timeout => .timeout

variable (subtasks : τ → List (Option τ))

def perform : Nat → τ → Outcome τ
  | 0, _ => .timeout
  | fuel + 1, t => (performAll (perform fuel) (subtasks t)).after [t]

/-- Every way down the tree of a task ends. -/
inductive Grounded (subtasks : τ → List (Option τ)) : τ → Prop
  | intro (t : τ) (h : ∀ t', some t' ∈ subtasks t → Grounded subtasks t') : Grounded subtasks t

section

variable {subtasks}

theorem performAll_congr {p p' : τ → Outcome τ} {tasks : List (Option τ)}
    (h : ∀ t, some t ∈ tasks → p t ≠ .timeout → p' t = p t)
    (hends : performAll p tasks ≠ .timeout) : performAll p' tasks = performAll p tasks := by
  induction tasks with
  | nil => rfl
  | cons task rest ih =>
    have hrest := ih fun t ht => h t (List.mem_cons_of_mem _ ht)
    cases task with
    | none => rfl
    | some t =>
      rw [performAll] at hends ⊢
      rw [performAll]
      cases hp : p t with
      | timeout =>
        rw [hp] at hends
        exact absurd rfl hends
      | panic => rw [h t List.mem_cons_self (by rw [hp]; exact fun he => by cases he), hp]
      | done performed =>
        rw [h t List.mem_cons_self (by rw [hp]; exact fun he => by cases he), hp]
        rw [hp] at hends
        dsimp only at hends ⊢
        rw [Ne, Outcome.after_eq_timeout] at hends
        rw [hrest hends]

/-- More fuel changes nothing. -/
theorem perform_add {fuel : Nat} {t : τ} (h : perform subtasks fuel t ≠ .timeout) (more : Nat) :
    perform subtasks (fuel + more) t = perform subtasks fuel t := by
  induction fuel generalizing t with
  | zero => exact absurd rfl h
  | succ fuel ih =>
    rw [Nat.succ_add, perform, perform]
    rw [perform, Ne, Outcome.after_eq_timeout] at h
    rw [performAll_congr (fun t' _ ht' => ih ht') h]

theorem performAll_ne_timeout {p : τ → Outcome τ} {tasks : List (Option τ)}
    (h : ∀ t, some t ∈ tasks → p t ≠ .timeout) : performAll p tasks ≠ .timeout := by
  induction tasks with
  | nil => exact fun he => by cases he
  | cons task rest ih =>
    have hrest := ih fun t ht => h t (List.mem_cons_of_mem _ ht)
    cases task with
    | none => exact fun he => by cases he
    | some t =>
      rw [performAll]
      cases hp : p t with
      | timeout => exact absurd hp (h t List.mem_cons_self)
      | panic => exact fun he => by cases he
      | done performed =>
        dsimp only
        rw [Ne, Outcome.after_eq_timeout]
        exact hrest

/-- One amount of fuel is enough for all tasks of a list. -/
theorem exists_fuel {tasks : List (Option τ)}
    (h : ∀ t, some t ∈ tasks → ∃ fuel, perform subtasks fuel t ≠ .timeout) :
    ∃ fuel, ∀ t, some t ∈ tasks → perform subtasks fuel t ≠ .timeout := by
  induction tasks with
  | nil => exact ⟨0, fun _ ht => by cases ht⟩
  | cons task rest ih =>
    obtain ⟨fuel, hfuel⟩ := ih fun t ht => h t (List.mem_cons_of_mem _ ht)
    cases task with
    | none => exact ⟨fuel, fun t ht => hfuel t ((List.mem_cons.mp ht).resolve_left (by simp))⟩
    | some t =>
      obtain ⟨fuel', hfuel'⟩ := h t List.mem_cons_self
      refine ⟨fuel + fuel', fun t' ht' => ?_⟩
      rcases List.mem_cons.mp ht' with heq | ht'
      · cases heq
        rw [Nat.add_comm, perform_add hfuel']
        exact hfuel'
      · rw [perform_add (hfuel t' ht')]
        exact hfuel t' ht'

/-- A grounded task ends. -/
theorem Grounded.ends {t : τ} (h : Grounded subtasks t) :
    ∃ fuel, perform subtasks fuel t ≠ .timeout := by
  induction h with
  | intro t _ ih =>
    obtain ⟨fuel, hfuel⟩ := exists_fuel ih
    refine ⟨fuel + 1, ?_⟩
    rw [perform, Ne, Outcome.after_eq_timeout]
    exact performAll_ne_timeout hfuel

theorem mem_performAll {p : τ → Outcome τ} {tasks : List (Option τ)} {performed : List τ} {t : τ}
    (h : performAll p tasks = .done performed) (ht : t ∈ performed) :
    ∃ t' performed', some t' ∈ tasks ∧ p t' = .done performed' ∧ t ∈ performed' := by
  induction tasks generalizing performed with
  | nil =>
    cases h
    cases ht
  | cons task rest ih =>
    cases task with
    | none => cases h
    | some first =>
      rw [performAll] at h
      cases hp : p first with
      | timeout =>
        rw [hp] at h
        cases h
      | panic =>
        rw [hp] at h
        cases h
      | done performed' =>
        rw [hp] at h
        obtain ⟨later, hlater, rfl⟩ := Outcome.after_eq_done.mp h
        rcases List.mem_append.mp ht with ht | ht
        · exact ⟨first, performed', List.mem_cons_self, hp, ht⟩
        · obtain ⟨t', performed', hmem, hdone⟩ := ih hlater ht
          exact ⟨t', performed', List.mem_cons_of_mem _ hmem, hdone⟩

/-- What a task hands down holds of everything that is performed for it. -/
theorem holds_of_performed {P : τ → Prop}
    (hstep : ∀ t t', P t → some t' ∈ subtasks t → P t') {fuel : Nat} {t t' : τ} {performed : List τ}
    (h : perform subtasks fuel t = .done performed) (ht : P t) (hmem : t' ∈ performed) : P t' := by
  induction fuel generalizing t performed with
  | zero => cases h
  | succ fuel ih =>
    obtain ⟨later, hlater, rfl⟩ := Outcome.after_eq_done.mp h
    rcases List.mem_append.mp hmem with hmem | hmem
    · cases List.mem_singleton.mp hmem
      exact ht
    · obtain ⟨sub, performed', hsub, hdone, hmem⟩ := mem_performAll hlater hmem
      exact ih hdone (hstep t sub ht hsub) hmem

end

end Eevee.Lib.TaskTree
