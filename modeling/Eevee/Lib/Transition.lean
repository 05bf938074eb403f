/- Runs of a partial step function: prefixes, step conditions, histories and induction. -/

import Mathlib.Data.List.Basic
import Mathlib.Logic.Function.Iterate
import Mathlib.Tactic.Common

set_option autoImplicit false
set_option relaxedAutoImplicit false

namespace Eevee.Lib.Transition

universe u v w

variable {S : Type u} {L : Type v} {B : Type w} (step : L → S → Option S)

/-- Take the labelled steps in order; a step that is not enabled stops the run. -/
def run : S → List L → Option S
  | s, [] => some s
  | s, l :: ls => (step l s).bind fun s' => run s' ls

/-- The steps of a run, each with the state before it. -/
def steps : S → List L → List (S × L)
  | _, [] => []
  | s, l :: ls => (s, l) :: ((step l s).map fun s' => steps s' ls).getD []

/-- Every step of the run meets the condition. -/
def Along (ok : S → L → Prop) (s : S) (ls : List L) : Prop := ∀ x ∈ steps step s ls, ok x.1 x.2

/-- What the steps of a run show, in order. -/
def trace (obs : S → L → List B) (s : S) (ls : List L) : List B :=
  (steps step s ls).flatMap fun x => obs x.1 x.2

variable {step}

theorem run_cons {s s' : S} {l : L} {ls : List L} :
    run step s (l :: ls) = some s' ↔ ∃ t, step l s = some t ∧ run step t ls = some s' := by
  simp [run, Option.bind_eq_some_iff]

theorem run_append {s s' : S} {ls ms : List L} :
    run step s (ls ++ ms) = some s' ↔
      ∃ t, run step s ls = some t ∧ run step t ms = some s' := by
  induction ls generalizing s with
  | nil => simp [run]
  | cons l ls ih =>
    rw [List.cons_append, run_cons]
    constructor
    · rintro ⟨t, ht, hr⟩
      obtain ⟨r, h1, h2⟩ := ih.mp hr
      exact ⟨r, run_cons.mpr ⟨t, ht, h1⟩, h2⟩
    · rintro ⟨r, h1, h2⟩
      obtain ⟨t, ht, hr⟩ := run_cons.mp h1
      exact ⟨t, ht, ih.mpr ⟨r, hr, h2⟩⟩

/-- A list of steps that takes each state of a family to the next one, `n` times over. -/
theorem run_replicate {A : Type*} {at_ : A → S} {next : A → A} {ls : List L}
    (h : ∀ a, run step (at_ a) ls = some (at_ (next a))) (n : Nat) (a : A) :
    run step (at_ a) (List.replicate n ls).flatten = some (at_ (next^[n] a)) := by
  induction n generalizing a with
  | zero => rfl
  | succ n ih =>
    rw [List.replicate_succ, List.flatten_cons]
    exact run_append.mpr ⟨_, h a, ih (next a)⟩

theorem mem_steps {s : S} {ls : List L} {x : S × L} (hx : x ∈ steps step s ls) : x.2 ∈ ls := by
  induction ls generalizing s with
  | nil => exact absurd hx List.not_mem_nil
  | cons l ls ih =>
    rw [steps] at hx
    rcases List.mem_cons.mp hx with rfl | hx
    · exact List.mem_cons_self
    · cases ht : step l s with
      | none => simp [ht] at hx
      | some t => exact List.mem_cons_of_mem l (ih (by simpa [ht] using hx))

theorem steps_cons {s t : S} {l : L} {ls : List L} (h : step l s = some t) :
    steps step s (l :: ls) = (s, l) :: steps step t ls := by
  rw [steps, h]
  rfl

theorem along_cons {ok : S → L → Prop} {s t : S} {l : L} {ls : List L} (h : step l s = some t) :
    Along step ok s (l :: ls) ↔ ok s l ∧ Along step ok t ls := by
  rw [Along, steps_cons h, List.forall_mem_cons]
  rfl

/-- A condition that the steps meet in every state. -/
theorem along_of_forall {ok : S → L → Prop} {ls : List L} (h : ∀ l ∈ ls, ∀ s, ok s l) (s : S) :
    Along step ok s ls := fun x hx => h x.2 (mem_steps hx) x.1

/-- Induction along a run: what holds of the empty history and is kept by one more step holds
of the history of the whole run. -/
theorem run_induction (P : List (S × L) → S → Prop) {s₀ s : S} {ls : List L}
    (hrun : run step s₀ ls = some s) (h0 : P [] s₀)
    (next : ∀ h t l t', P h t → step l t = some t' → P (h ++ [(t, l)]) t') :
    P (steps step s₀ ls) s := by
  have go : ∀ (ls : List L) (h : List (S × L)) (t : S), P h t → run step t ls = some s →
      P (h ++ steps step t ls) s := by
    intro ls
    induction ls with
    | nil =>
      intro h t hP hr
      obtain rfl : t = s := by simpa [run] using hr
      simpa [steps] using hP
    | cons l ls ih =>
      intro h t hP hr
      obtain ⟨t', ht, hr'⟩ := run_cons.mp hr
      have hnext := ih (h ++ [(t, l)]) t' (next h t l t' hP ht) hr'
      simpa [steps, ht] using hnext
  simpa using go ls [] s₀ h0 hrun

/-- A condition on all steps may be used at each of them. -/
theorem run_induction_where (ok : S → L → Prop) (P : List (S × L) → S → Prop) {s₀ s : S}
    {ls : List L} (hrun : run step s₀ ls = some s) (hok : Along step ok s₀ ls) (h0 : P [] s₀)
    (next : ∀ h t l t', P h t → ok t l → step l t = some t' → P (h ++ [(t, l)]) t') :
    P (steps step s₀ ls) s := by
  have h := run_induction (fun h t => (∀ x ∈ h, ok x.1 x.2) → P h t) hrun (fun _ => h0)
    fun h t l t' hP ht hall => by
      have hlast := hall (t, l) (by simp)
      exact next h t l t' (hP fun x hx => hall x (by simp [hx])) hlast ht
  exact h hok

/-- An invariant of the states alone. -/
theorem run_invariant (P : S → Prop) {s₀ s : S} {ls : List L} (hrun : run step s₀ ls = some s)
    (h0 : P s₀) (next : ∀ t l t', P t → step l t = some t' → P t') : P s :=
  run_induction (fun _ t => P t) hrun h0 fun _ t l t' => next t l t'

theorem run_invariant_where (ok : S → L → Prop) (P : S → Prop) {s₀ s : S} {ls : List L}
    (hrun : run step s₀ ls = some s) (hok : Along step ok s₀ ls) (h0 : P s₀)
    (next : ∀ t l t', P t → ok t l → step l t = some t' → P t') : P s :=
  run_induction_where ok (fun _ t => P t) hrun hok h0 fun _ t l t' => next t l t'

/-- A second system that can answer every step of the run in a relation answers the whole run. -/
theorem run_simulation_where {T : Type*} {answer : L → T → Option T} (ok : S → L → Prop)
    (R : S → T → Prop) {s₀ s : S} {t₀ : T} {ls : List L} (hrun : run step s₀ ls = some s)
    (hok : Along step ok s₀ ls) (h0 : R s₀ t₀)
    (next : ∀ s t l s', R s t → ok s l → step l s = some s' →
      ∃ t', answer l t = some t' ∧ R s' t') :
    ∃ t, run answer t₀ ls = some t ∧ R s t := by
  induction ls generalizing s₀ t₀ with
  | nil =>
    obtain rfl : s₀ = s := Option.some.inj hrun
    exact ⟨t₀, rfl, h0⟩
  | cons l ls ih =>
    obtain ⟨s₁, hs, hrest⟩ := run_cons.mp hrun
    obtain ⟨hl, hrest'⟩ := (along_cons hs).mp hok
    obtain ⟨t₁, ht, hR⟩ := next s₀ t₀ l s₁ h0 hl hs
    obtain ⟨t, hrun', hR'⟩ := ih hrest hrest' hR
    exact ⟨t, run_cons.mpr ⟨t₁, ht, hrun'⟩, hR'⟩

/-- A step in the history of a run splits the run at that step. -/
theorem steps_split {s₀ r : S} {ls : List L} {l : L} {h h' : List (S × L)}
    (hs : steps step s₀ ls = h ++ (r, l) :: h') :
    ∃ ls₁ ls₂, ls = ls₁ ++ l :: ls₂ ∧ run step s₀ ls₁ = some r ∧ steps step s₀ ls₁ = h := by
  induction ls generalizing s₀ h with
  | nil => simp [steps] at hs
  | cons m ls ih =>
    cases h with
    | nil =>
      obtain ⟨⟨rfl, rfl⟩, -⟩ := List.cons.inj (hs.trans (List.nil_append _)) |>.imp_left Prod.mk.inj
      exact ⟨[], ls, rfl, rfl, rfl⟩
    | cons x h =>
      rw [steps, List.cons_append] at hs
      obtain ⟨rfl, hs⟩ := List.cons.inj hs
      cases ht : step m s₀ with
      | none => simp [ht] at hs
      | some t =>
        obtain ⟨ls₁, ls₂, rfl, hr, rfl⟩ := ih (by simpa [ht] using hs)
        exact ⟨m :: ls₁, ls₂, rfl, run_cons.mpr ⟨t, ht, hr⟩, by simp [steps, ht]⟩

theorem steps_append {s t : S} {ls ms : List L} (hr : run step s ls = some t) :
    steps step s (ls ++ ms) = steps step s ls ++ steps step t ms := by
  induction ls generalizing s with
  | nil =>
    obtain rfl : s = t := by simpa [run] using hr
    rfl
  | cons l ls ih =>
    obtain ⟨r, hl, hr⟩ := run_cons.mp hr
    simp [steps, hl, ih hr]

theorem trace_singleton (obs : S → L → List B) (s : S) (l : L) :
    trace step obs s [l] = obs s l := by
  unfold trace steps
  cases step l s <;> simp [steps]

theorem trace_append {obs : S → L → List B} {s t : S} {ls ms : List L}
    (hr : run step s ls = some t) :
    trace step obs s (ls ++ ms) = trace step obs s ls ++ trace step obs t ms := by
  unfold trace
  rw [steps_append hr, List.flatMap_append]

/-- What a step of the run establishes and no later step ends holds at the end. The invariant `I`
of the run may be used throughout. -/
theorem run_since {I Q : S → Prop} {ends : S → L → Prop} {s₀ s t : S} {ls : List L} {l : L}
    {h₁ h₂ : List (S × L)} (hrun : run step s₀ ls = some s)
    (hs : steps step s₀ ls = h₁ ++ (t, l) :: h₂) (hI : ∀ {ls s}, run step s₀ ls = some s → I s)
    (hest : ∀ t', I t → step l t = some t' → Q t')
    (hkeep : ∀ u k u', I u → Q u → ¬ ends u k → step k u = some u' → Q u')
    (hno : ∀ x ∈ h₂, ¬ ends x.1 x.2) : Q s := by
  obtain ⟨as, bs, rfl, ht, has⟩ := steps_split hs
  obtain ⟨t, ht', hrest⟩ := run_append.mp hrun
  obtain rfl := Option.some.inj (ht.symm.trans ht')
  obtain ⟨t', hl, hbs⟩ := run_cons.mp hrest
  rw [steps_append ht, has] at hs
  have hmid : steps step t' bs = h₂ := by
    simpa [steps, hl] using List.append_cancel_left hs
  have hinv := run_invariant_where (fun u k => ¬ ends u k)
    (fun u => Q u ∧ ∃ ls, run step s₀ ls = some u) hbs (by rw [Along, hmid]; exact hno)
    ⟨hest t' (hI ht) hl, as ++ [l], run_append.mpr ⟨t, ht, run_cons.mpr ⟨t', hl, rfl⟩⟩⟩
    fun u k u' hu hk hstep => by
      obtain ⟨hQ, ls, hrun⟩ := hu
      exact ⟨hkeep u k u' (hI hrun) hQ hk hstep,
        ls ++ [k], run_append.mpr ⟨u, hrun, run_cons.mpr ⟨u', hstep, rfl⟩⟩⟩
  exact hinv.1

/-- Between two steps of a run: what the first establishes and no step in between ends still
holds at the second. -/
theorem run_between {I Q : S → Prop} {ends : S → L → Prop} {s₀ t r : S} {ls : List L} {l m : L}
    {h₁ h₂ h₃ : List (S × L)} (hs : steps step s₀ ls = h₁ ++ (t, l) :: h₂ ++ (r, m) :: h₃)
    (hI : ∀ {ls s}, run step s₀ ls = some s → I s)
    (hest : ∀ t', I t → step l t = some t' → Q t')
    (hkeep : ∀ u k u', I u → Q u → ¬ ends u k → step k u = some u' → Q u')
    (hno : ∀ x ∈ h₂, ¬ ends x.1 x.2) : Q r := by
  obtain ⟨ls₁, _, -, hr, hsteps⟩ := steps_split hs
  exact run_since hr hsteps hI hest hkeep hno

end Eevee.Lib.Transition
