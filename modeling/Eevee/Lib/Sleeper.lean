/- A sleeper in a changing world: it sleeps through every step that does not rouse it. -/

import Mathlib.Data.List.Basic
import Mathlib.Tactic.Common
import Eevee.Lib.Transition

set_option autoImplicit false
set_option relaxedAutoImplicit false

namespace Eevee.Lib.Sleeper

open Eevee.Lib.Transition

universe u v

variable {S : Type u} {L : Type v}

/-- What is known of a sleeper: a step that rouses it ends the sleep, no other one does, and it does
not fall asleep again. -/
structure Sleeps (step : L → S → Option S) (asleep : S → Prop) (rouses : S → L → Prop)
    (Inv : S → Prop) : Prop where
  roused : ∀ {s l t}, Inv s → asleep s → step l s = some t → rouses s l → ¬ asleep t
  quiet : ∀ {s l t}, Inv s → asleep s → step l s = some t → ¬ rouses s l → asleep t ∧ Inv t
  awake : ∀ {s l t}, ¬ asleep s → step l s = some t → ¬ asleep t

/-- Some step of the run is one of those waited for. -/
def Happened (step : L → S → Option S) (wanted : S → S → Prop) (s : S) (ls : List L) : Prop :=
  ∃ x ∈ steps step s ls, ∃ t, step x.2 x.1 = some t ∧ wanted x.1 t

/-- Awake exactly when something wanted has happened, after every part of the run. -/
def Punctual (step : L → S → Option S) (asleep : S → Prop) (wanted : S → S → Prop) (s : S)
    (ls : List L) : Prop :=
  ∀ past, past <+: ls → ∀ t, run step s past = some t →
    (¬ asleep t ↔ Happened step wanted s past)

/-- Whatever rouses the sleeper is wanted. -/
def Undisturbed (step : L → S → Option S) (asleep : S → Prop) (rouses : S → L → Prop)
    (wanted : S → S → Prop) (s : S) (ls : List L) : Prop :=
  Along step (fun s l => ∀ t, step l s = some t → asleep s → rouses s l → wanted s t) s ls

/-- Whatever is wanted rouses the sleeper. -/
def Heard (step : L → S → Option S) (asleep : S → Prop) (rouses : S → L → Prop)
    (wanted : S → S → Prop) (s : S) (ls : List L) : Prop :=
  Along step (fun s l => ∀ t, step l s = some t → asleep s → wanted s t → rouses s l) s ls

variable {step : L → S → Option S} {asleep : S → Prop} {rouses : S → L → Prop}
  {wanted : S → S → Prop} {Inv : S → Prop} {s t : S} {l : L} {ls : List L}

theorem along_nil {P : S → L → Prop} : Along step P s [] := by
  intro x hx
  cases hx

/-- Nothing is asked of what cannot happen. -/
theorem along_of_none {P : S → L → S → Prop} (h : step l s = none) :
    Along step (fun s l => ∀ t, step l s = some t → P s l t) s (l :: ls) := by
  intro x hx t ht
  rw [steps, h] at hx
  rcases List.mem_cons.mp hx with rfl | hx
  · cases h.symm.trans ht
  · cases hx

theorem not_happened_nil : ¬ Happened step wanted s [] := by
  rintro ⟨x, hx, -⟩
  cases hx

theorem happened_cons (h : step l s = some t) :
    Happened step wanted s (l :: ls) ↔ wanted s t ∨ Happened step wanted t ls := by
  unfold Happened
  rw [steps_cons h]
  simp [h]

theorem undisturbed_cons (h : step l s = some t) :
    Undisturbed step asleep rouses wanted s (l :: ls) ↔
      (asleep s → rouses s l → wanted s t) ∧ Undisturbed step asleep rouses wanted t ls := by
  unfold Undisturbed
  rw [along_cons h]
  simp [h]

theorem heard_cons (h : step l s = some t) :
    Heard step asleep rouses wanted s (l :: ls) ↔
      (asleep s → wanted s t → rouses s l) ∧ Heard step asleep rouses wanted t ls := by
  unfold Heard
  rw [along_cons h]
  simp [h]

/-- The question for the first part of a run and for the rest. -/
theorem punctual_cons (hs : asleep s) (h : step l s = some t) :
    Punctual step asleep wanted s (l :: ls) ↔
      ∀ past, past <+: ls → ∀ u, run step t past = some u →
        (¬ asleep u ↔ wanted s t ∨ Happened step wanted t past) := by
  constructor
  · intro hp past hpast u hu
    rw [← happened_cons h]
    exact hp (l :: past) (List.cons_prefix_cons.mpr ⟨rfl, hpast⟩) u (run_cons.mpr ⟨t, h, hu⟩)
  · intro hp past hpast u hu
    cases past with
    | nil =>
      cases hu
      exact iff_of_false (fun hno => hno hs) not_happened_nil
    | cons l' past =>
      obtain ⟨rfl, hrest⟩ := List.cons_prefix_cons.mp hpast
      obtain ⟨t', ht', hu⟩ := run_cons.mp hu
      cases h.symm.trans ht'
      rw [happened_cons h]
      exact hp past hrest u hu

namespace Sleeps

theorem awake_run (h : Sleeps step asleep rouses Inv) (hs : ¬ asleep s)
    (ht : run step s ls = some t) : ¬ asleep t := by
  induction ls generalizing s with
  | nil =>
    cases ht
    exact hs
  | cons l ls ih =>
    obtain ⟨u, hu, ht⟩ := run_cons.mp ht
    exact ih (h.awake hs hu) ht

/-- Nothing is asked of the steps after the sleep. -/
theorem along_of_awake (h : Sleeps step asleep rouses Inv) {P : S → L → S → Prop}
    (hs : ¬ asleep s) :
    Along step (fun s l => ∀ t, step l s = some t → asleep s → P s l t) s ls := by
  induction ls generalizing s with
  | nil => exact along_nil
  | cons l ls ih =>
    cases hstep : step l s with
    | none => exact along_of_none hstep
    | some t =>
      intro x hx u hu hasleep
      rw [steps_cons hstep] at hx
      rcases List.mem_cons.mp hx with rfl | hx
      · exact absurd hasleep hs
      · exact ih (h.awake hs hstep) x hx u hu hasleep

/-- The sleeper wakes at the first wanted step, and at no other, exactly when nothing else rouses
it and everything wanted does. -/
theorem punctual_iff (h : Sleeps step asleep rouses Inv) (hinv : Inv s) (hs : asleep s) :
    Punctual step asleep wanted s ls ↔
      Undisturbed step asleep rouses wanted s ls ∧ Heard step asleep rouses wanted s ls := by
  induction ls generalizing s with
  | nil =>
    refine iff_of_true (fun past hpast t ht => ?_) ⟨along_nil, along_nil⟩
    rw [List.prefix_nil.mp hpast] at ht ⊢
    cases ht
    exact iff_of_false (fun hno => hno hs) not_happened_nil
  | cons l ls ih =>
    cases hstep : step l s with
    | none =>
      refine iff_of_true (fun past hpast t ht => ?_) ⟨along_of_none hstep, along_of_none hstep⟩
      cases past with
      | nil =>
        cases ht
        exact iff_of_false (fun hno => hno hs) not_happened_nil
      | cons l' past =>
        obtain ⟨rfl, hrest⟩ := List.cons_prefix_cons.mp hpast
        obtain ⟨t', ht', -⟩ := run_cons.mp ht
        cases hstep.symm.trans ht'
    | some t =>
      rw [punctual_cons hs hstep, undisturbed_cons hstep, heard_cons hstep]
      by_cases hrouses : rouses s l
      · -- the first step that rouses is the end of the sleep
        have hawake : ¬ asleep t := h.roused hinv hs hstep hrouses
        constructor
        · intro hp
          have hfirst := (hp [] (List.nil_prefix) t rfl).mp hawake
          exact ⟨⟨fun _ _ => hfirst.resolve_right not_happened_nil, h.along_of_awake hawake⟩,
            fun _ _ => hrouses, h.along_of_awake hawake⟩
        · intro hu past _ u hrun
          exact iff_of_true (h.awake_run hawake hrun) (.inl (hu.1.1 hs hrouses))
      · -- any other one has to be unwanted, and leaves the question to the rest
        obtain ⟨hs', hinv'⟩ := h.quiet hinv hs hstep hrouses
        constructor
        · intro hp
          have hno : ¬ wanted s t := fun hwanted =>
            (hp [] (List.nil_prefix) t rfl).mpr (.inl hwanted) hs'
          simp only [hno, false_or] at hp
          obtain ⟨hundisturbed, hheard⟩ := (ih hinv' hs').mp hp
          exact ⟨⟨fun _ hr => absurd hr hrouses, hundisturbed⟩, fun _ hwanted => absurd hwanted hno,
            hheard⟩
        · intro hu past hpast u hrun
          have hno : ¬ wanted s t := fun hwanted => hrouses (hu.2.1 hs hwanted)
          simp only [hno, false_or]
          exact (ih hinv' hs').mpr ⟨hu.1.2, hu.2.2⟩ past hpast u hrun

/-- Where quiet steps are never wanted, everything wanted is heard. -/
theorem heard (h : Sleeps step asleep rouses Inv)
    (hquiet : ∀ {s l t}, Inv s → asleep s → step l s = some t → ¬ rouses s l → ¬ wanted s t)
    (hinv : Inv s) : Heard step asleep rouses wanted s ls := by
  induction ls generalizing s with
  | nil => exact along_nil
  | cons l ls ih =>
    by_cases hs : asleep s
    · cases hstep : step l s with
      | none => exact along_of_none hstep
      | some t =>
        rw [heard_cons hstep]
        by_cases hrouses : rouses s l
        · exact ⟨fun _ _ => hrouses, h.along_of_awake (h.roused hinv hs hstep hrouses)⟩
        · exact ⟨fun _ hwanted => absurd hwanted (hquiet hinv hs hstep hrouses),
            ih (h.quiet hinv hs hstep hrouses).2⟩
    · exact h.along_of_awake hs

end Sleeps

end Eevee.Lib.Sleeper
