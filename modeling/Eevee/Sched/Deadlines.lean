/- Between two time slots every update of a driver or net lies in the future. -/

import Mathlib.Data.List.Basic
import Mathlib.Tactic.Common
import Mathlib.Tactic.SplitIfs
import Eevee.Sched.Clock
import Eevee.Sched.Drivers

set_option autoImplicit false
set_option relaxedAutoImplicit false

namespace Eevee.Sched.Deadlines

open Eevee.Core.Logic
open Eevee.Lib.InertialLine
open Eevee.Lib.Transition
open Eevee.Sched.Clock
open Eevee.Sched.Drivers
open Eevee.Sched.Frames
open Eevee.Sched.Nets
open Eevee.Sched.Scheduler
open Eevee.Sched.Simulation
open Eevee.Sched.Stages
open Eevee.Sched.Wheel

/-- The action is not the resume of a process. -/
def IsUpdate : TimedAction → Prop
  | .resume _ => False
  | _ => True

/-- Every update on the wheel lies in the future. -/
def Later (k : Kernel) : Prop := ∀ ev ∈ k.timed, IsUpdate ev.action → k.time < ev.time

/-- Outside `dispatch_time_slot` every update on the wheel lies in the future. -/
def Ahead (s : Sim) : Prop := (∀ limit, s.mode ≠ .dispatching limit) → Later s.kernel

/-! ### Scheduling -/

/-- Time stands still, and each new update is due some delay from now. -/
structure Delays (k k' : Kernel) : Prop where
  time : k'.time = k.time
  timed : ∀ ev ∈ k'.timed, IsUpdate ev.action →
    ev ∈ k.timed ∨ ∃ delay > 0, ev.time = saturatingAddFs k.time delay

theorem Delays.refl (k : Kernel) : Delays k k := ⟨rfl, fun _ h _ => .inl h⟩

theorem Delays.trans {k₁ k₂ k₃ : Kernel} (h : Delays k₁ k₂) (h' : Delays k₂ k₃) :
    Delays k₁ k₃ := by
  refine ⟨h'.time.trans h.time, fun ev hev hu => ?_⟩
  rcases h'.timed ev hev hu with hold | ⟨delay, hpos, hdue⟩
  · exact h.timed ev hold hu
  · exact .inr ⟨delay, hpos, h.time ▸ hdue⟩

theorem Delays.of_calm {k k' : Kernel} (h : Calm k k') : Delays k k' :=
  ⟨h.time, fun _ hev _ => .inl (h.timed ▸ hev)⟩

theorem delays_push (k : Kernel) {delayFs : Nat} (region : Region) {action : TimedAction}
    (h : IsUpdate action → 0 < delayFs) :
    Delays k (k.pushTimedAction (saturatingAddFs k.time delayFs) region action) := by
  refine ⟨rfl, fun ev hev hu => ?_⟩
  rcases mem_pushTimedAction.mp hev with rfl | hev
  · exact .inr ⟨delayFs, h hu, rfl⟩
  · exact .inl hev

theorem delays_writeNet (k : Kernel) (n : NetId) (v : PackedVec) : Delays k (k.writeNet n v) := by
  have hset : Delays k (k.setValue n v) := ⟨rfl, fun _ h _ => .inl h⟩
  exact hset.trans (.of_calm (wakes_writeNet k n v).toCalm)

theorem delays_touch {d : DriverId} {n : NetId} {k k' : Kernel} (h : Touch d n k k') :
    Delays k k' := by
  cases h with
  | net h => cases h with
    | writeNet v hv => exact delays_writeNet k n v
    | setDelayRequest v generations hv hg => exact ⟨rfl, fun _ h _ => .inl h⟩
    | push hpos ha => exact delays_push _ _ fun _ => hpos
  | setDriverValue v hd hv => exact ⟨rfl, fun _ h _ => .inl h⟩
  | setDriverRequest v generations hv hg => exact ⟨rfl, fun _ h _ => .inl h⟩
  | push hpos ha => exact delays_push _ _ fun _ => hpos

theorem delays_touches {d : DriverId} {n : NetId} {k k' : Kernel} (h : Touches d n k k') :
    Delays k k' :=
  keeps_sequence (R := Delays) .refl Delays.trans delays_touch h

theorem delays_drainNba (k : Kernel) : Delays k k.drainNba :=
  drainNba_keeps (R := Delays) .refl Delays.trans ⟨rfl, fun _ h _ => .inl h⟩
    (fun u _ k₁ => delays_writeNet k₁ u.1 u.2) fun _ => ⟨rfl, fun _ h _ => .inl h⟩

/-- Outside `dispatch_time_slot` and the advance of time. -/
theorem delays_effect {l : Label} {k k' : Kernel} (h : Effect l k k') (hadvance : l ≠ .advance)
    (hdispatch : l ≠ .dispatch) : Delays k k' := by
  cases h with
  | calm h hn => exact .of_calm h
  | delayed h => exact Delays.trans (.of_calm h.toCalm) (delays_push _ _ False.elim)
  | newNet initial resolution delay => exact ⟨rfl, fun _ h _ => .inl h⟩
  | newDriver hn hw => exact ⟨rfl, fun _ h _ => .inl h⟩
  | drive hc hd => exact delays_touches (touches_call hc)
  | write hn => exact delays_writeNet _ _ _
  | drain => exact delays_drainNba _
  | advance => exact absurd rfl hadvance
  | dispatch ht hd => exact absurd rfl hdispatch

theorem lt_saturatingAddFs {t : SimTime} (ht : t < maxTime) {delay : Nat} (hpos : 0 < delay) :
    t < saturatingAddFs t delay :=
  Nat.lt_min.mpr ⟨Nat.lt_add_of_pos_right hpos, ht⟩

theorem later_delays {k k' : Kernel} (hd : Delays k k') (ht : k.time < maxTime) (h : Later k) :
    Later k' := by
  intro ev hev hu
  rw [hd.time]
  rcases hd.timed ev hev hu with hold | ⟨delay, hpos, hdue⟩
  · exact h ev hold hu
  · rw [hdue]
    exact lt_saturatingAddFs ht hpos

theorem ahead_step {l : Label} {s s' : Sim} (hs : step l s = some s') (ho : Ordered s.kernel)
    (ht : s.kernel.time < maxTime) (h : Ahead s) : Ahead s' := by
  intro hmode
  have hrest (hadvance : l ≠ .advance) (hdispatch : l ≠ .dispatch)
      (hold : ∀ limit, s.mode ≠ .dispatching limit) : Later s'.kernel :=
    later_delays (delays_effect (effect_of_step hs) hadvance hdispatch) ht (h hold)
  cases stepped_of_step hs with
  | call hm hv =>
    rcases hm with hm | ⟨limit, pid, hm⟩
    · exact hrest (by simp) (by simp) (by simp [hm])
    · exact hrest (by simp) (by simp) (by simp [hm])
  | addProcess hm => exact hrest (by simp) (by simp) (by simp [hm])
  | runUntil hm => exact hrest (by simp) (by simp) (by simp [hm])
  | resume hm ha => exact hrest (by simp) (by simp) (by simp [hm])
  | suspend hm hn => exact hrest (by simp) (by simp) (by simp [hm])
  | promote hm ha hi =>
    exact hrest (by simp) (by simp) (by simp [hm])
  | drainNba hm ha hi hp hn =>
    exact hrest (by simp) (by simp) (by simp [hm])
  | done hm hq htimed =>
    intro ev hev
    have hnil : ev ∈ s.kernel.discardStaleTimedActions.timed := hev
    rw [htimed] at hnil
    exact absurd hnil List.not_mem_nil
  | limited hm hq htimed hl =>
    exact fun ev hev _ => Nat.lt_of_lt_of_le hl ((ordered_discard ho).head_le htimed ev hev)
  | advance hm hq htimed hl => exact absurd rfl (hmode _)
  | dispatch hm htimed hd => exact absurd hm (hmode _)
  | settle hm hd =>
    intro ev hev _
    -- the first event is not due, and no other comes before it
    cases htimed : s.kernel.timed with
    | nil =>
      rw [htimed] at hev
      exact absurd hev List.not_mem_nil
    | cons first rest =>
      have hfirst : s.kernel.time ≠ first.time := by
        intro heq
        unfold due at hd
        rw [htimed, List.head?_cons, Option.filter_some, if_pos (by simp [heq])] at hd
        cases hd
      have hnow := (ho.bounds first (htimed ▸ List.mem_cons_self)).1
      exact Nat.lt_of_lt_of_le (Nat.lt_of_le_of_ne hnow hfirst) (ho.head_le htimed ev hev)

theorem ahead_new : Ahead Sim.new := fun _ _ hev => absurd hev List.not_mem_nil

/-- Whoever calls the kernel finds every update in the future. -/
theorem later_of_call {c : Call} {s s' : Sim} (hs : step (.call c) s = some s') (h : Ahead s) :
    Later s.kernel := by
  cases stepped_of_step hs with
  | call hm hv =>
    rcases hm with hm | ⟨limit, pid, hm⟩
    · exact h (by simp [hm])
    · exact h (by simp [hm])

/-- Time passes only when every update lies in the future. -/
theorem later_of_advance {s s' : Sim} (hs : step .advance s = some s') (h : Ahead s) :
    Later s.kernel := by
  cases stepped_of_step hs with
  | done hm hq ht => exact h (by simp [hm])
  | limited hm hq ht hl => exact h (by simp [hm])
  | advance hm hq ht hl => exact h (by simp [hm])

/-! ### Lines -/

section

variable {k : Kernel}

theorem isUpdate_of_owns {st : Stage} {action : TimedAction} (h : Owns st action) :
    IsUpdate action := by
  cases action with
  | resume p => cases st <;> exact absurd h id
  | _ => trivial

/-- A live update of one bit is that of an event on the wheel. -/
theorem mem_pending_bitLine {st : Stage} {bit : Nat} {p : SimTime × Bit}
    (hp : p ∈ (bitLine st k bit).pending) :
    ∃ ev ∈ k.timed, Owns st ev.action ∧ p.1 = ev.time := by
  obtain ⟨ev, hev, hp⟩ := List.mem_flatMap.mp hp
  obtain ⟨u, hu, rfl⟩ := List.mem_map.mp hp
  refine ⟨ev, hev, ?_, rfl⟩
  by_contra ho
  rw [updates_of_not_owns ho] at hu
  exact absurd hu List.not_mem_nil

theorem mem_pending_driveLine {d : DriverId} {p : SimTime × PackedVec}
    (hp : p ∈ (driveLine d k).pending) :
    ∃ ev ∈ k.timed, Owns (.driver d) ev.action ∧ p.1 = ev.time := by
  obtain ⟨ev, hev, hp⟩ := List.mem_flatMap.mp hp
  refine ⟨ev, hev, ?_, ?_⟩
  · by_contra ho
    rw [driveOf_of_not_owns ho] at hp
    exact absurd hp List.not_mem_nil
  · unfold driveOf at hp
    split at hp
    · split_ifs at hp
      · rw [List.mem_singleton.mp hp]
      · exact absurd hp List.not_mem_nil
    · exact absurd hp List.not_mem_nil

theorem quiet_bitLine (h : Later k) (st : Stage) (bit : Nat) :
    ¬ Due (· ≤ k.time) (bitLine st k bit) := by
  rintro ⟨p, hp, hdue⟩
  obtain ⟨ev, hev, ho, htime⟩ := mem_pending_bitLine hp
  exact Nat.not_le.mpr (h ev hev (isUpdate_of_owns ho)) (htime ▸ hdue)

theorem quiet_driveLine (h : Later k) (d : DriverId) : ¬ Due (· ≤ k.time) (driveLine d k) := by
  rintro ⟨p, hp, hdue⟩
  obtain ⟨ev, hev, ho, htime⟩ := mem_pending_driveLine hp
  exact Nat.not_le.mpr (h ev hev (isUpdate_of_owns ho)) (htime ▸ hdue)

theorem le_pending_bitLine (h : Ordered k) {st : Stage} {bit : Nat} {p : SimTime × Bit}
    (hp : p ∈ (bitLine st k bit).pending) : k.time ≤ p.1 := by
  obtain ⟨ev, hev, -, htime⟩ := mem_pending_bitLine hp
  rw [htime]
  exact (h.bounds ev hev).1

theorem le_pending_driveLine (h : Ordered k) {d : DriverId} {p : SimTime × PackedVec}
    (hp : p ∈ (driveLine d k).pending) : k.time ≤ p.1 := by
  obtain ⟨ev, hev, -, htime⟩ := mem_pending_driveLine hp
  rw [htime]
  exact (h.bounds ev hev).1

end

end Eevee.Sched.Deadlines
