/- Time slots: what is discarded would have changed nothing, and a slot that is opened has work. -/

import Mathlib.Data.List.Basic
import Mathlib.Tactic.Common
import Mathlib.Tactic.SplitIfs
import Eevee.Sched.Clock

set_option autoImplicit false
set_option relaxedAutoImplicit false

namespace Eevee.Sched.Slots

open Eevee.Core.Logic
open Eevee.Lib.Transition
open Eevee.Sched.Nets
open Eevee.Sched.Scheduler
open Eevee.Sched.Simulation
open Eevee.Sched.Clock

variable {k : Kernel} {s s' : Sim}

/-! ### Live and stale actions -/

/-- The action resumes a process, or carries the current generation of its driver, of a bit of its
driver, or of a bit of its net. -/
def Live (k : Kernel) : TimedAction → Prop
  | .resume _ => True
  | .drive d _ generation => (k.driver d).generation = generation
  | .driveBits d updates => ∃ u ∈ updates, (k.bitGenerations d).getD u.bit 0 = u.generation
  | .netBits n updates => ∃ u ∈ updates, (k.net n).delayGenerations.getD u.bit 0 = u.generation

theorem staleAction_eq_false {action : TimedAction} :
    k.staleAction action = false ↔ Live k action := by
  cases action with
  | resume proc => simp [Kernel.staleAction, Live]
  | drive d value generation => simp [Kernel.staleAction, Live]
  | driveBits d updates => simp [Kernel.staleAction, Live]
  | netBits n updates => simp [Kernel.staleAction, Live]

theorem liveUpdates_of_stale {generations : List Generation} {updates : List BitDrive}
    (h : ∀ u ∈ updates, generations.getD u.bit 0 ≠ u.generation) (value : PackedVec) :
    Kernel.liveUpdates generations value updates = (value, false) := by
  unfold Kernel.liveUpdates
  induction updates with
  | nil => rfl
  | cons u updates ih =>
    rw [List.foldl_cons, if_neg (h u List.mem_cons_self)]
    exact ih fun u' hu' => h u' (List.mem_cons_of_mem _ hu')

/-- A stale action does nothing at all. -/
theorem dispatchEvent_of_stale {ev : TimedEvent} (h : ¬ Live k ev.action) :
    k.dispatchEvent ev = k := by
  unfold Kernel.dispatchEvent
  cases haction : ev.action with
  | resume proc =>
    rw [haction] at h
    exact absurd trivial h
  | drive d value generation =>
    rw [haction] at h
    exact if_neg h
  | driveBits d updates =>
    rw [haction] at h
    have hstale : ∀ u ∈ updates, (k.bitGenerations d).getD u.bit 0 ≠ u.generation :=
      fun u hu hlive => h ⟨u, hu, hlive⟩
    dsimp only
    rw [liveUpdates_of_stale hstale]
    rfl
  | netBits n updates =>
    rw [haction] at h
    have hstale : ∀ u ∈ updates, (k.net n).delayGenerations.getD u.bit 0 ≠ u.generation :=
      fun u hu hlive => h ⟨u, hu, hlive⟩
    dsimp only
    rw [liveUpdates_of_stale hstale]
    rfl

/-- Generations do not depend on the time or on what else is on the wheel. -/
theorem live_moved (k : Kernel) (action : TimedAction) (time : SimTime) (timed : List TimedEvent) :
    Live { k with time, timed } action ↔ Live k action := by
  cases action <;> rfl

/-! ### Advancing -/

/-- The events in front that are removed when time is advanced. -/
def discarded (k : Kernel) : List TimedEvent :=
  k.timed.takeWhile fun ev => k.staleAction ev.action

theorem discarded_append (k : Kernel) :
    discarded k ++ k.discardStaleTimedActions.timed = k.timed := List.takeWhile_append_dropWhile

theorem not_live_of_discarded {ev : TimedEvent} (h : ev ∈ discarded k) : ¬ Live k ev.action := by
  have hstale := @List.mem_takeWhile_imp _ (fun ev : TimedEvent => k.staleAction ev.action) _ _ h
  rw [← staleAction_eq_false, hstale]
  exact Bool.noConfusion

/-- The event in front after stale ones are discarded is live. -/
theorem live_of_head {ev : TimedEvent} {rest : List TimedEvent}
    (h : k.discardStaleTimedActions.timed = ev :: rest) : Live k ev.action := by
  have hhead := List.head?_dropWhile_not (fun ev : TimedEvent => k.staleAction ev.action) k.timed
  rw [show k.timed.dropWhile (fun ev => k.staleAction ev.action) = ev :: rest from h] at hhead
  exact staleAction_eq_false.mp hhead

/-- Had it been dispatched when its time came, no action that is discarded would have changed
anything. -/
theorem discarded_idle {ev : TimedEvent} (h : ev ∈ discarded k) (time : SimTime)
    (timed : List TimedEvent) :
    ({ k with time, timed } : Kernel).dispatchEvent ev = { k with time, timed } :=
  dispatchEvent_of_stale fun hlive => not_live_of_discarded h ((live_moved k _ time timed).mp hlive)

/-- The first action of the slot is live, and the next step dispatches it. -/
def Opened (s : Sim) : Prop :=
  ∃ ev rest, s.kernel.timed = ev :: rest ∧ ev.time = s.kernel.time ∧ Live s.kernel ev.action ∧
    ∀ l s', step l s = some s' ↔ l = .dispatch ∧
      s' = { s with kernel := { s.kernel with timed := rest }.dispatchEvent ev }

/-- A call of `run_until` ends at its limit, as all live actions are due later. -/
def Stopped (s s' : Sim) : Prop :=
  ∃ limit, s.mode = .running (some limit) ∧ s'.mode = .idle ∧ s'.kernel.time = limit ∧
    ∃ ev rest, s'.kernel.timed = ev :: rest ∧ limit < ev.time ∧ Live s.kernel ev.action

theorem step_iff_of_due {limit : Option SimTime} {ev : TimedEvent} {rest : List TimedEvent}
    (hm : s.mode = .dispatching limit) (ht : s.kernel.timed = ev :: rest)
    (hdue : ev.time = s.kernel.time) (l : Label) (s' : Sim) : step l s = some s' ↔
      l = .dispatch ∧
        s' = { s with kernel := { s.kernel with timed := rest }.dispatchEvent ev } := by
  constructor
  · intro h
    cases stepped_of_step h with
    | dispatch hm' ht' hd' =>
      obtain ⟨rfl, rfl⟩ := List.cons.inj (ht'.symm.trans ht)
      exact ⟨rfl, rfl⟩
    | settle hm' hd' =>
      rw [due, ht, List.head?_cons, Option.filter_some] at hd'
      simp [hdue] at hd'
    | call hm' hv =>
      rw [hm] at hm'
      rcases hm' with hm' | ⟨_, _, hm'⟩ <;> cases hm'
    | _ hm' =>
      rw [hm] at hm'
      cases hm'
  · rintro ⟨rfl, rfl⟩
    simp only [step, hm, ht, hdue, if_true]

/-- A slot that is opened has work, also where the time stays. -/
theorem opened_of_advance (h : step .advance s = some s') (hmode : s'.mode ≠ .idle) :
    Opened s' := by
  cases stepped_of_step h with
  | done hm hq htimed => exact absurd rfl hmode
  | limited hm hq htimed hlimit => exact absurd rfl hmode
  | @advance _ limit ev rest hm hq htimed hle =>
    refine ⟨ev, rest, htimed, rfl, ?_, step_iff_of_due rfl htimed rfl⟩
    exact (live_moved s.kernel _ _ _).mpr (live_of_head htimed)

/-- Time moves when a slot is opened or a call ends at its limit, and at no other step. -/
theorem opened_or_stopped {l : Label} (h : step l s = some s')
    (ht : s'.kernel.time ≠ s.kernel.time) : Opened s' ∨ Stopped s s' := by
  have hl : l = .advance := by
    by_contra hl
    exact ht (scheduled_step h hl).time
  subst hl
  by_cases hmode : s'.mode = .idle
  · cases stepped_of_step h with
    | done hm hq htimed => exact absurd rfl ht
    | limited hm hq htimed hlimit =>
      exact .inr ⟨_, hm, rfl, rfl, _, _, htimed, hlimit, live_of_head htimed⟩
    | advance hm hq htimed hle => cases hmode
  · exact .inl (opened_of_advance h hmode)

/-- In every run of the simulation: nothing live is discarded, and time goes on to work only, or to
the limit of a call. -/
structure NoPhantomSlots : Prop where
  discarded : ∀ labels s s', Runs labels s → step .advance s = some s' →
    s.kernel.timed = discarded s.kernel ++ s'.kernel.timed ∧
      ∀ ev ∈ discarded s.kernel, ∀ time timed,
        ({ s.kernel with time, timed } : Kernel).dispatchEvent ev = { s.kernel with time, timed }
  opened : ∀ labels s s', Runs labels s → step .advance s = some s' → s'.mode ≠ .idle → Opened s'
  advanced : ∀ labels l s s', Runs labels s → step l s = some s' →
    s'.kernel.time ≠ s.kernel.time → Opened s' ∨ Stopped s s'

theorem no_phantom_slots : NoPhantomSlots where
  discarded labels s s' _ h := by
    refine ⟨?_, fun ev hev time timed => discarded_idle hev time timed⟩
    have htimed : s'.kernel.timed = s.kernel.discardStaleTimedActions.timed := by
      cases stepped_of_step h <;> rfl
    rw [htimed, discarded_append]
  opened _ _ _ _ h hmode := opened_of_advance h hmode
  advanced _ _ _ _ _ h ht := opened_or_stopped h ht

/-- A process waits until 10, and the host runs to 5. -/
def limitedRun : List Label :=
  [.addProcess, .runUntil (some 5), .resume, .suspend (.delay 10)]

/-- The time is advanced to 5, where nothing is dispatched. -/
theorem limit_without_dispatch : ∃ s s', Runs limitedRun s ∧ step .advance s = some s' ∧
    s.kernel.time = 0 ∧ s'.kernel.time = 5 ∧ (∀ ev ∈ s'.kernel.timed, ev.time = 10) ∧
    step .dispatch s' = none ∧ ¬ Opened s' := by
  let s := (run step Sim.new limitedRun).get rfl
  let s' := (step .advance s).get rfl
  refine ⟨s, s', rfl, rfl, rfl, rfl, by decide, rfl, ?_⟩
  rintro ⟨ev, rest, ht, hdue, -⟩
  have hev : ev.time = 10 := by
    cases ht
    rfl
  rw [hev] at hdue
  exact absurd hdue (by decide)

end Eevee.Sched.Slots
