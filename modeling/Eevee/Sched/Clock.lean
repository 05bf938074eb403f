/- Simulation time never decreases exactly when no limit before the current time is reached. -/

import Mathlib.Data.List.TakeWhile
import Mathlib.Tactic.Common
import Mathlib.Tactic.SplitIfs
import Eevee.Sched.Wheel

set_option autoImplicit false
set_option relaxedAutoImplicit false

namespace Eevee.Sched.Clock

open Eevee.Core.Logic
open Eevee.Lib.Transition
open Eevee.Sched.Frames
open Eevee.Sched.Nets
open Eevee.Sched.Scheduler
open Eevee.Sched.Simulation
open Eevee.Sched.Wheel

/-! ### Scheduling -/

/-- Time stands still, and each new event is due some delay from now. -/
structure Scheduled (k k' : Kernel) : Prop where
  time : k'.time = k.time
  timed : ∀ ev ∈ k'.timed, ev ∈ k.timed ∨ ∃ delay, ev.time = saturatingAddFs k.time delay

theorem Scheduled.refl (k : Kernel) : Scheduled k k := ⟨rfl, fun _ h => .inl h⟩

theorem Scheduled.trans {k₁ k₂ k₃ : Kernel} (h : Scheduled k₁ k₂) (h' : Scheduled k₂ k₃) :
    Scheduled k₁ k₃ := by
  refine ⟨h'.time.trans h.time, fun ev hev => ?_⟩
  rcases h'.timed ev hev with hev | ⟨delay, hdue⟩
  · exact h.timed ev hev
  · exact .inr ⟨delay, h.time ▸ hdue⟩

theorem Scheduled.of_calm {k k' : Kernel} (h : Calm k k') : Scheduled k k' :=
  ⟨h.time, fun _ hev => .inl (h.timed ▸ hev)⟩

theorem scheduled_push (k : Kernel) (delayFs : Nat) (region : Region) (action : TimedAction) :
    Scheduled k (k.pushTimedAction (saturatingAddFs k.time delayFs) region action) := by
  refine ⟨rfl, fun ev hev => ?_⟩
  rcases mem_pushTimedAction.mp hev with rfl | hev
  · exact .inr ⟨delayFs, rfl⟩
  · exact .inl hev

theorem scheduled_writeNet (k : Kernel) (n : NetId) (v : PackedVec) :
    Scheduled k (k.writeNet n v) := by
  have hset : Scheduled k (k.setValue n v) := ⟨rfl, fun _ h => .inl h⟩
  exact hset.trans (.of_calm (wakes_writeNet k n v).toCalm)

theorem scheduled_touch {d : DriverId} {n : NetId} {k k' : Kernel} (h : Touch d n k k') :
    Scheduled k k' := by
  cases h with
  | net h => cases h with
    | writeNet v hv => exact scheduled_writeNet k n v
    | setDelayRequest v generations hv hg => exact ⟨rfl, fun _ h => .inl h⟩
    | push hpos ha => exact scheduled_push _ _ _ _
  | setDriverValue v hd hv => exact ⟨rfl, fun _ h => .inl h⟩
  | setDriverRequest v generations hv hg => exact ⟨rfl, fun _ h => .inl h⟩
  | push hpos ha => exact scheduled_push _ _ _ _

theorem scheduled_touches {d : DriverId} {n : NetId} {k k' : Kernel} (h : Touches d n k k') :
    Scheduled k k' :=
  keeps_sequence (R := Scheduled) .refl Scheduled.trans scheduled_touch h

theorem scheduled_drainNba (k : Kernel) : Scheduled k k.drainNba :=
  drainNba_keeps (R := Scheduled) .refl Scheduled.trans ⟨rfl, fun _ h => .inl h⟩
    (fun u _ k₁ => scheduled_writeNet k₁ u.1 u.2) fun _ => ⟨rfl, fun _ h => .inl h⟩

theorem scheduled_dispatchEvent (k : Kernel) (ev : TimedEvent) :
    Scheduled k (k.dispatchEvent ev) := by
  by_cases ha : ∃ p, ev.action = .resume p
  · obtain ⟨p, ha⟩ := ha
    unfold Kernel.dispatchEvent
    rw [ha]
    dsimp only
    split <;> exact ⟨rfl, fun _ h => .inl h⟩
  · obtain ⟨d, n, ht⟩ := touches_dispatchEvent fun p hp => ha ⟨p, hp⟩
    exact scheduled_touches ht

theorem scheduled_effect {l : Label} {k k' : Kernel} (h : Effect l k k') (hl : l ≠ .advance) :
    Scheduled k k' := by
  cases h with
  | calm h hn => exact .of_calm h
  | delayed h => exact Scheduled.trans (.of_calm h.toCalm) (scheduled_push _ _ _ _)
  | newNet initial resolution delay => exact ⟨rfl, fun _ h => .inl h⟩
  | newDriver hn hw => exact ⟨rfl, fun _ h => .inl h⟩
  | drive hc hd => exact scheduled_touches (touches_call hc)
  | write hn => exact scheduled_writeNet _ _ _
  | drain => exact scheduled_drainNba _
  | advance => exact absurd rfl hl
  | @dispatch _ ev rest ht hd =>
    have hrest : Scheduled k { k with timed := rest } :=
      ⟨rfl, fun ev' hev' => .inl (ht ▸ List.mem_cons_of_mem _ hev')⟩
    exact hrest.trans (scheduled_dispatchEvent _ ev)

/-- Only the loop moves the time. -/
theorem scheduled_step {l : Label} {s s' : Sim} (hs : step l s = some s') (hl : l ≠ .advance) :
    Scheduled s.kernel s'.kernel := scheduled_effect (effect_of_step hs) hl

/-! ### The limit -/

/-- The limit of the call that is about to advance time. -/
def limitOf : Mode → Label → Option SimTime
  | .running limit, .advance => limit
  | _, _ => none

/-- When an event is pending after the slot has settled, the limit of the call does not lie in the
past. -/
def LimitAhead (s : Sim) (l : Label) : Prop :=
  ∀ limit ∈ limitOf s.mode l,
    (∃ ev ∈ s.kernel.timed, s.kernel.staleAction ev.action = false) → s.kernel.time ≤ limit

instance (s : Sim) (l : Label) : Decidable (LimitAhead s l) := by
  unfold LimitAhead
  infer_instance

theorem limitAhead_of_ne {s : Sim} {l : Label} (hl : l ≠ .advance) : LimitAhead s l := by
  intro limit hlimit
  have hnone : limitOf s.mode l = none := by
    unfold limitOf
    split
    · exact absurd rfl hl
    · rfl
  rw [hnone] at hlimit
  cases hlimit

theorem limitOf_advance {s : Sim} {limit : Option SimTime} (hm : s.mode = .running limit) :
    limitOf s.mode .advance = limit := by
  rw [hm]
  rfl

theorem pending_iff (k : Kernel) : k.discardStaleTimedActions.timed ≠ [] ↔
    ∃ ev ∈ k.timed, k.staleAction ev.action = false := by
  have hnil : k.discardStaleTimedActions.timed = [] ↔
      ∀ ev ∈ k.timed, k.staleAction ev.action = true := List.dropWhile_eq_nil_iff
  rw [Ne, hnil]
  push Not
  simp only [ne_eq, Bool.not_eq_true]

/-- Advancing keeps the time from decreasing exactly when the limit is not in the past. -/
theorem advance_forward {s s' : Sim} (ho : Ordered s.kernel) (hs : step .advance s = some s') :
    s.kernel.time ≤ s'.kernel.time ↔ LimitAhead s .advance := by
  unfold LimitAhead
  cases stepped_of_step hs with
  | done hm hq ht =>
    refine iff_of_true (Nat.le_refl _) fun t _ hpending => ?_
    exact absurd ht ((pending_iff _).mpr hpending)
  | limited hm hq ht hl =>
    rw [limitOf_advance hm]
    have hpending := (pending_iff s.kernel).mp (ht ▸ List.cons_ne_nil _ _)
    constructor
    · rintro h t ⟨⟩ -
      exact h
    · exact fun h => h _ rfl hpending
  | @advance _ limit ev rest hm hq ht hl =>
    rw [limitOf_advance hm]
    have hnow : s.kernel.time ≤ ev.time := by
      have hev : ev ∈ s.kernel.discardStaleTimedActions.timed := ht ▸ List.mem_cons_self
      exact ((ordered_discard ho).bounds ev hev).1
    exact iff_of_true hnow fun t ht' _ => Nat.le_trans hnow (hl t ht')

theorem step_forward {l : Label} {s s' : Sim} (ho : Ordered s.kernel) (hs : step l s = some s') :
    s.kernel.time ≤ s'.kernel.time ↔ LimitAhead s l := by
  by_cases hl : l = .advance
  · subst hl
    exact advance_forward ho hs
  · exact iff_of_true (Nat.le_of_eq (scheduled_step hs hl).time.symm) (limitAhead_of_ne hl)

/-! ### Runs -/

/-- Time never decreases, events are scheduled for now plus a delay, none is ever overdue, and each
is dispatched when its time has come. -/
structure Timely (labels : List Label) : Prop where
  forward : ∀ ls₁ ls₂ ls₃ t r, labels = ls₁ ++ ls₂ ++ ls₃ → Runs ls₁ t → run step t ls₂ = some r →
    t.kernel.time ≤ r.kernel.time
  scheduled : ∀ ls₁ l ls₂ t t' ev, labels = ls₁ ++ l :: ls₂ → Runs ls₁ t → step l t = some t' →
    ev ∈ t'.kernel.timed → ev ∈ t.kernel.timed ∨
      ∃ delay, ev.time = saturatingAddFs t.kernel.time delay
  overdue : ∀ ls₁ ls₂ t ev, labels = ls₁ ++ ls₂ → Runs ls₁ t → ev ∈ t.kernel.timed →
    t.kernel.time ≤ ev.time
  punctual : ∀ ls₁ ls₂ ls₃ t r ev, labels = ls₁ ++ ls₂ ++ .dispatch :: ls₃ → Runs ls₁ t →
    run step t ls₂ = some r → ev ∈ t.kernel.timed → r.kernel.timed.head? = some ev →
    ev.time = r.kernel.time ∧ t.kernel.time ≤ r.kernel.time

theorem scheduled_advance {s s' : Sim} (hs : step .advance s = some s') :
    s'.kernel.timed ⊆ s.kernel.timed := by
  have hsub : s.kernel.discardStaleTimedActions.timed ⊆ s.kernel.timed :=
    (List.dropWhile_sublist _).subset
  cases stepped_of_step hs with
  | done hm hq ht => exact hsub
  | limited hm hq ht hl => exact hsub
  | advance hm hq ht hl => exact hsub

/-- The first event of a time slot that is dispatched is due now. -/
theorem due_of_dispatch {s s' : Sim} {ev : TimedEvent} (hs : step .dispatch s = some s')
    (hev : s.kernel.timed.head? = some ev) : ev.time = s.kernel.time := by
  cases stepped_of_step hs with
  | dispatch hm ht hd =>
    rw [ht] at hev
    cases hev
    exact hd

theorem along_of_append {ok : Sim → Label → Prop} {ls₁ ls₂ ls₃ : List Label} {t : Sim}
    (h : Along step ok Sim.new (ls₁ ++ ls₂ ++ ls₃)) (ht : Runs ls₁ t) : Along step ok t ls₂ := by
  intro x hx
  refine h x ?_
  rw [List.append_assoc, steps_append ht]
  refine List.mem_append_right _ ?_
  clear h ht
  induction ls₂ generalizing t with
  | nil => cases hx
  | cons l ls₂ ih =>
    rcases List.mem_cons.mp hx with rfl | hx
    · exact List.mem_cons_self
    · cases hl : step l t with
      | none => simp [hl] at hx
      | some t' =>
        rw [List.cons_append, steps, hl]
        exact List.mem_cons_of_mem _ (ih (by simpa [hl] using hx))

/-- Simulation time is monotone, and every timed action is dispatched at its time, exactly in the
runs in which no call reaches a limit in the past while an event is pending. -/
theorem timely_iff {labels : List Label} {s : Sim} (hr : Runs labels s) :
    Timely labels ↔ Along step LimitAhead Sim.new labels := by
  constructor
  · rintro htimely ⟨r, l⟩ hx
    obtain ⟨h, h', hsplit⟩ := List.append_of_mem hx
    obtain ⟨ls₁, ls₂, rfl, hr₁, -⟩ := steps_split hsplit
    obtain ⟨r₁, hr₁', hrest⟩ := run_append.mp hr
    obtain rfl := Option.some.inj (hr₁.symm.trans hr₁')
    obtain ⟨r', hl, -⟩ := run_cons.mp hrest
    have hforward := htimely.forward ls₁ [l] ls₂ r r' (by simp) hr₁
      (run_cons.mpr ⟨r', hl, rfl⟩)
    exact (step_forward (ordered_run hr₁) hl).mp hforward
  · intro hok
    refine ⟨?_, ?_, ?_, ?_⟩
    · rintro ls₁ ls₂ ls₃ t r rfl ht hrun
      have hinv := run_invariant_where LimitAhead
        (fun r => Ordered r.kernel ∧ t.kernel.time ≤ r.kernel.time) hrun (along_of_append hok ht)
        ⟨ordered_run ht, Nat.le_refl _⟩ fun u l u' hu hl hstep =>
          ⟨ordered_step hstep hu.1, Nat.le_trans hu.2 ((step_forward hu.1 hstep).mpr hl)⟩
      exact hinv.2
    · rintro ls₁ l ls₂ t t' ev rfl ht hstep hev
      by_cases hl : l = .advance
      · subst hl
        exact .inl (scheduled_advance hstep hev)
      · exact (scheduled_step hstep hl).timed ev hev
    · rintro ls₁ ls₂ t ev rfl ht hev
      exact ((ordered_run ht).bounds ev hev).1
    · rintro ls₁ ls₂ ls₃ t r ev rfl ht hrun hev hhead
      have hr₂ : Runs (ls₁ ++ ls₂) r := run_append.mpr ⟨t, ht, hrun⟩
      obtain ⟨r₁, hr₁, hrest⟩ := run_append.mp hr
      obtain rfl := Option.some.inj (hr₂.symm.trans hr₁)
      obtain ⟨r', hl, -⟩ := run_cons.mp hrest
      have hdue := due_of_dispatch hl hhead
      exact ⟨hdue, hdue ▸ ((ordered_run ht).bounds ev hev).1⟩

/-- A process waits until 10 and then for another 10; the host runs to 12 and then to 5. -/
def rewoundRun : List Label :=
  [.addProcess, .runUntil (some 12), .resume, .suspend (.delay 10), .advance, .dispatch, .settle,
    .resume, .suspend (.delay 10), .advance, .runUntil (some 5), .advance]

/-- The second call sets the time back from 12 to 5. -/
theorem time_set_back : ∃ t s, Runs (rewoundRun.take 10) t ∧ Runs rewoundRun s ∧
    t.kernel.time = 12 ∧ s.kernel.time = 5 ∧ ¬ Timely rewoundRun := by
  let t := (run step Sim.new (rewoundRun.take 10)).get rfl
  let s := (run step Sim.new rewoundRun).get rfl
  refine ⟨t, s, rfl, rfl, rfl, rfl, fun h => ?_⟩
  have hforward := h.forward (rewoundRun.take 10) (rewoundRun.drop 10) [] t s rfl rfl rfl
  exact absurd hforward (show ¬ (12 : Nat) ≤ 5 by decide)

/-- The host runs to 12 and then to the end. -/
def resumedRun : List Label :=
  rewoundRun.take 10 ++ [.runUntil (some 25), .advance, .dispatch]

theorem resumed_timely : Timely resumedRun := by
  have hr : Runs resumedRun ((run step Sim.new resumedRun).get rfl) := rfl
  have hok : Along step LimitAhead Sim.new resumedRun := by
    unfold Along
    decide
  exact (timely_iff hr).mpr hok

end Eevee.Sched.Clock
