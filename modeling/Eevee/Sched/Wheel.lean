/- The time wheel stays sorted and never holds an event of the past. -/

import Mathlib.Data.List.Basic
import Mathlib.Tactic.Common
import Mathlib.Tactic.SplitIfs
import Eevee.Sched.Frames

set_option autoImplicit false
set_option relaxedAutoImplicit false

namespace Eevee.Sched.Wheel

open Eevee.Core.Logic
open Eevee.Lib.Transition
open Eevee.Sched.Frames
open Eevee.Sched.Nets
open Eevee.Sched.Scheduler
open Eevee.Sched.Simulation

/-- Lexicographic comparison of time, region and sequence number. -/
private theorem key_total (t r i t' r' i' : Nat) :
    (t < t' ∨ t = t' ∧ (r < r' ∨ r = r' ∧ i ≤ i')) ∨
      (t' < t ∨ t' = t ∧ (r' < r ∨ r' = r ∧ i' ≤ i)) := by
  omega

private theorem key_trans (t r i t' r' i' t'' r'' i'' : Nat)
    (h : t < t' ∨ t = t' ∧ (r < r' ∨ r = r' ∧ i ≤ i'))
    (h' : t' < t'' ∨ t' = t'' ∧ (r' < r'' ∨ r' = r'' ∧ i' ≤ i'')) :
    t < t'' ∨ t = t'' ∧ (r < r'' ∨ r = r'' ∧ i ≤ i'') := by
  omega

instance : Std.Total TimedEvent.before := ⟨fun _ _ => key_total _ _ _ _ _ _⟩

instance : IsTrans TimedEvent TimedEvent.before :=
  ⟨fun _ _ _ h h' => key_trans _ _ _ _ _ _ _ _ _ h h'⟩

theorem time_le_of_before {a b : TimedEvent} (h : a.before b) : a.time ≤ b.time := by
  rcases h with h | ⟨h, -⟩
  · exact Nat.le_of_lt h
  · exact Nat.le_of_eq h

/-- The events are in the order of the heap and none of them lies in the past. -/
structure Ordered (k : Kernel) : Prop where
  now : k.time ≤ maxTime
  bounds : ∀ ev ∈ k.timed, k.time ≤ ev.time ∧ ev.time ≤ maxTime
  sorted : k.timed.Pairwise TimedEvent.before

theorem Ordered.of_calm {k k' : Kernel} (h : Ordered k) (hk : Calm k k') : Ordered k' :=
  ⟨hk.time ▸ h.now, by rw [hk.time, hk.timed]; exact h.bounds, hk.timed ▸ h.sorted⟩

theorem Ordered.writeNet {k : Kernel} (h : Ordered k) (n : NetId) (v : PackedVec) :
    Ordered (k.writeNet n v) := by
  have hset : Ordered (k.setValue n v) := ⟨h.now, h.bounds, h.sorted⟩
  exact hset.of_calm (wakes_writeNet k n v).toCalm

theorem mem_pushTimedAction {k : Kernel} {time : SimTime} {region : Region} {action : TimedAction}
    {ev : TimedEvent} : ev ∈ (k.pushTimedAction time region action).timed ↔
      ev = ⟨time, region, k.seq + 1, action⟩ ∨ ev ∈ k.timed := List.mem_orderedInsert _

theorem Ordered.push {k : Kernel} (h : Ordered k) (delayFs : Nat) (region : Region)
    (action : TimedAction) :
    Ordered (k.pushTimedAction (saturatingAddFs k.time delayFs) region action) := by
  refine ⟨h.now, fun ev hev => ?_, h.sorted.orderedInsert _ _⟩
  rcases mem_pushTimedAction.mp hev with rfl | hev
  · exact ⟨le_saturatingAddFs h.now delayFs, Nat.min_le_right _ _⟩
  · exact h.bounds ev hev

theorem ordered_touch {d : DriverId} {n : NetId} {k k' : Kernel} (ht : Touch d n k k')
    (h : Ordered k) : Ordered k' := by
  cases ht with
  | net ht => cases ht with
    | writeNet v hv => exact h.writeNet n v
    | setDelayRequest v generations hv hg => exact ⟨h.now, h.bounds, h.sorted⟩
    | push hpos ha => exact h.push _ _ _
  | setDriverValue v hd hv => exact ⟨h.now, h.bounds, h.sorted⟩
  | setDriverRequest v generations hv hg => exact ⟨h.now, h.bounds, h.sorted⟩
  | push hpos ha => exact h.push _ _ _

theorem ordered_touches {d : DriverId} {n : NetId} {k k' : Kernel} (ht : Touches d n k k')
    (h : Ordered k) : Ordered k' :=
  keeps_sequence (R := fun k k' => Ordered k → Ordered k') (fun _ h => h)
    (fun h h' hk => h' (h hk)) ordered_touch ht h

theorem ordered_call {k : Kernel} (h : Ordered k) (c : Call) : Ordered (c.exec k) := by
  cases c with
  | driveNet d v => exact ordered_touches (touches_driveNet k d v) h
  | scheduleDrive d v delayFs => exact ordered_touches (touches_scheduleDrive k d v delayFs) h
  | scheduleDriveTransitions d v delays =>
    exact ordered_touches (touches_scheduleDriveTransitions k d v delays) h
  | writeNet n v => exact h.writeNet n v
  | _ => exact ⟨h.now, h.bounds, h.sorted⟩

theorem Ordered.tail {k : Kernel} (h : Ordered k) {rest : List TimedEvent}
    (hr : rest.Sublist k.timed) : Ordered { k with timed := rest } :=
  ⟨h.now, fun ev hev => h.bounds ev (hr.subset hev), h.sorted.sublist hr⟩

theorem Ordered.head_le {k : Kernel} (h : Ordered k) {ev : TimedEvent} {rest : List TimedEvent}
    (ht : k.timed = ev :: rest) : ∀ ev' ∈ k.timed, ev.time ≤ ev'.time := by
  intro ev' hev'
  have hsorted := h.sorted
  rw [ht] at hev' hsorted
  rcases List.mem_cons.mp hev' with rfl | hev'
  · exact Nat.le_refl _
  · exact time_le_of_before ((List.pairwise_cons.mp hsorted).1 ev' hev')

theorem Ordered.at {k : Kernel} (h : Ordered k) {t : SimTime} (hnow : t ≤ maxTime)
    (ht : ∀ ev ∈ k.timed, t ≤ ev.time) : Ordered { k with time := t } :=
  ⟨hnow, fun ev hev => ⟨ht ev hev, (h.bounds ev hev).2⟩, h.sorted⟩

theorem ordered_dispatchEvent {k : Kernel} (h : Ordered k) (ev : TimedEvent) :
    Ordered (k.dispatchEvent ev) := by
  by_cases ha : ∃ p, ev.action = .resume p
  · obtain ⟨p, ha⟩ := ha
    unfold Kernel.dispatchEvent
    rw [ha]
    dsimp only
    split <;> exact ⟨h.now, h.bounds, h.sorted⟩
  · obtain ⟨d, n, ht⟩ := touches_dispatchEvent fun p hp => ha ⟨p, hp⟩
    exact ordered_touches ht h

theorem ordered_discard {k : Kernel} (h : Ordered k) : Ordered k.discardStaleTimedActions :=
  h.tail (List.dropWhile_sublist _)

theorem ordered_step {l : Label} {s s' : Sim} (hs : step l s = some s') (h : Ordered s.kernel) :
    Ordered s'.kernel := by
  have hdiscard := ordered_discard h
  cases stepped_of_step hs with
  | call hm hv => exact ordered_call h _
  | suspend hm hn =>
    dsimp only
    rcases kernel_park s _ _ with hw | ⟨fs, k, -, hw, hk⟩
    · exact h.of_calm hw.toCalm
    · rw [hk]
      exact (h.of_calm hw.toCalm).push fs .active _
  | drainNba hm ha hi hp hn =>
    exact drainNba_keeps (R := fun k k' => Ordered k → Ordered k') (fun _ h => h)
      (fun h h' hk => h' (h hk)) (fun h => ⟨h.now, h.bounds, h.sorted⟩)
        (fun u _ k₁ h => h.writeNet u.1 u.2)
      (fun k₁ h => ⟨h.now, h.bounds, h.sorted⟩) h
  | done hm hq ht => exact hdiscard
  | limited hm hq ht hl =>
    have hle (ev') (hev') := Nat.le_trans (Nat.le_of_lt hl) (hdiscard.head_le ht ev' hev')
    refine hdiscard.at (Nat.le_trans (Nat.le_of_lt hl) ?_) hle
    exact (hdiscard.bounds _ (ht ▸ List.mem_cons_self)).2
  | advance hm hq ht hl =>
    exact hdiscard.at (hdiscard.bounds _ (ht ▸ List.mem_cons_self)).2 (hdiscard.head_le ht)
  | dispatch hm ht hd =>
    exact ordered_dispatchEvent (h.tail (ht ▸ List.sublist_cons_self _ _)) _
  | _ => exact ⟨h.now, h.bounds, h.sorted⟩

theorem ordered_run {labels : List Label} {s : Sim} (hr : Runs labels s) : Ordered s.kernel :=
  run_invariant (fun s => Ordered s.kernel) hr
    ⟨Nat.zero_le _, by simp [Sim.new, Kernel.new], List.Pairwise.nil⟩
    fun _ _ _ h hs => ordered_step hs h

end Eevee.Sched.Wheel
