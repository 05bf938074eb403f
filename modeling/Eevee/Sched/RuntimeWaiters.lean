/- Who waits for a runtime change, and that no net changes without one. -/

import Mathlib.Tactic.Common
import Mathlib.Tactic.SplitIfs
import Eevee.Sched.Wakeup

set_option autoImplicit false
set_option relaxedAutoImplicit false

namespace Eevee.Sched.RuntimeWaiters

open Eevee.Core.Logic
open Eevee.Sched.Frames
open Eevee.Sched.Nets
open Eevee.Sched.Scheduler
open Eevee.Sched.Simulation
open Eevee.Sched.Wakeup (current)

/-! ### The lists of waiting processes -/

section

variable {k : Kernel}

theorem waiters_clearNetWaiters (k : Kernel) (p : ProcId) :
    (k.clearNetWaiters p).runtimeWaiters = k.runtimeWaiters ∧
      (k.clearNetWaiters p).nbaWaiters = k.nbaWaiters := by
  obtain ⟨nets, netWaits, h⟩ := Wakeup.clearNetWaiters_frame k p
  rw [h]
  exact ⟨rfl, rfl⟩

theorem waiters_clearAll (procs : List ProcId) (k : Kernel) :
    (procs.foldl Kernel.clearNetWaiters k).runtimeWaiters = k.runtimeWaiters ∧
      (procs.foldl Kernel.clearNetWaiters k).nbaWaiters = k.nbaWaiters := by
  obtain ⟨nets, netWaits, h⟩ := Wakeup.clearAll_frame procs k
  rw [h]
  exact ⟨rfl, rfl⟩

/-- A write of another value is a runtime change. -/
theorem waiters_writeNet (k : Kernel) (n : NetId) (v : PackedVec) :
    (k.writeNet n v).runtimeWaiters =
        (if (detectEdge (k.netValue n) v).changed then [] else k.runtimeWaiters) ∧
      (k.writeNet n v).nbaWaiters = k.nbaWaiters := by
  unfold Kernel.writeNet
  dsimp only
  split_ifs
  · exact waiters_clearAll _ _
  · exact ⟨rfl, rfl⟩

/-- The waiters of a wait other than these two lists. -/
theorem waiters_registerNets (k : Kernel) (p : ProcId) (entries : List (NetId × EdgeKind)) :
    (k.registerNets p entries).runtimeWaiters = k.runtimeWaiters ∧
      (k.registerNets p entries).nbaWaiters = k.nbaWaiters := by
  unfold Kernel.registerNets
  obtain ⟨nets, hk⟩ := Wakeup.addWaiters_frame entries p k
  rw [hk]
  exact ⟨rfl, rfl⟩

/-- Only the process itself gets into the lists when it waits. -/
theorem waiters_arm {p pid : ProcId} (hne : p ≠ pid) (wait : Wait) :
    (pid ∈ (k.arm p wait).runtimeWaiters ↔ pid ∈ k.runtimeWaiters) ∧
      (pid ∈ (k.arm p wait).nbaWaiters ↔ pid ∈ k.nbaWaiters) := by
  obtain ⟨hr, hn⟩ := waiters_clearNetWaiters k p
  unfold Kernel.arm
  cases wait with
  | edge | sensitivity | cond =>
    dsimp only
    rw [(waiters_registerNets _ p _).1, (waiters_registerNets _ p _).2]
    exact ⟨by rw [← hr]; rfl, by rw [← hn]; rfl⟩
  | runtimeCond =>
    refine ⟨?_, by rw [← hn]; rfl⟩
    simp [Kernel.bumpEpoch, hr, Ne.symm hne]
  | nba =>
    refine ⟨by rw [← hr]; rfl, ?_⟩
    simp [Kernel.bumpEpoch, hn, Ne.symm hne]
  | finished | delay | namedEvent | fork =>
    exact ⟨by rw [← hr]; rfl, by rw [← hn]; rfl⟩

theorem netValue_arm (k : Kernel) (p : ProcId) (wait : Wait) :
    (k.arm p wait).netValue = k.netValue := by
  funext n
  have hcalm {k' : Kernel} (h : Calm k k') : k'.netValue n = k.netValue n := by
    have hvalue := congrArg Nets.Net.value (h.signals n)
    exact hvalue
  cases wait with
  | delay fs =>
    show ((k.clearNetWaiters p).bumpEpoch p).netValue n = _
    exact hcalm (wakes_bumpEpoch k p).toCalm
  | finished | edge | sensitivity | cond | runtimeCond | nba | namedEvent | fork =>
    exact hcalm (wakes_arm k p (by simp)).toCalm

/-- A write that keeps the value changes no net, and any other is a runtime change. -/
theorem netValue_writeNet_same {n : NetId} {v : PackedVec}
    (hc : (detectEdge (k.netValue n) v).changed = false) :
    (k.writeNet n v).netValue = k.netValue := by
  funext m
  rw [netValue_writeNet]
  split_ifs with hm
  · by_contra hne
    have hchanged := (detectEdge_changed (k.netValue n) v).mpr fun heq => hne (by rw [hm.1, heq])
    rw [hc] at hchanged
    cases hchanged
  · rfl

end

/-! ### Updates -/

/-- The kernel has moved everybody who waited for a runtime change to the active queue. -/
structure Roused (k k' : Kernel) : Prop where
  none : k'.runtimeWaiters = []
  active : ∀ p ∈ k.runtimeWaiters, p ∈ k'.active

/-- The nets keep their values, or all waiters have been moved. -/
structure Heeded (k k' : Kernel) : Prop where
  active : ∀ p ∈ k.active, p ∈ k'.active
  change : (k'.runtimeWaiters = k.runtimeWaiters ∧ k'.netValue = k.netValue) ∨ Roused k k'

theorem Heeded.refl (k : Kernel) : Heeded k k := ⟨fun _ h => h, .inl ⟨rfl, rfl⟩⟩

theorem Heeded.trans {k₁ k₂ k₃ : Kernel} (h : Heeded k₁ k₂) (h' : Heeded k₂ k₃) :
    Heeded k₁ k₃ := by
  refine ⟨fun p hp => h'.active p (h.active p hp), ?_⟩
  rcases h.change with ⟨hw, hv⟩ | hr
  · rcases h'.change with ⟨hw', hv'⟩ | hr'
    · exact .inl ⟨hw'.trans hw, hv'.trans hv⟩
    · exact .inr ⟨hr'.none, fun p hp => hr'.active p (hw ▸ hp)⟩
  · refine .inr ⟨?_, fun p hp => h'.active p (hr.active p hp)⟩
    rcases h'.change with ⟨hw', -⟩ | hr'
    · exact hw'.trans hr.none
    · exact hr'.none

/-- Nothing but the active queue has changed, and that has only grown. -/
theorem heeded_of {k k' : Kernel} (hw : k'.runtimeWaiters = k.runtimeWaiters)
    (hv : k'.netValue = k.netValue) (ha : ∃ woken, k'.active = k.active ++ woken) :
    Heeded k k' := by
  obtain ⟨woken, ha⟩ := ha
  exact ⟨fun p hp => ha ▸ List.mem_append_left _ hp, .inl ⟨hw, hv⟩⟩

theorem heeded_notifyRuntimeChange (k : Kernel) : Heeded k k.notifyRuntimeChange :=
  ⟨fun _ hp => List.mem_append_left _ hp, .inr ⟨rfl, fun _ hp => List.mem_append_right _ hp⟩⟩

theorem heeded_writeNet (k : Kernel) (n : NetId) (v : PackedVec) :
    Heeded k (k.writeNet n v) := by
  obtain ⟨hw, -⟩ := waiters_writeNet k n v
  obtain ⟨woken, hwoken⟩ := (wakes_writeNet k n v).active
  have hactive : ∀ p ∈ k.active, p ∈ (k.writeNet n v).active := fun p hp => by
    rw [hwoken]
    exact List.mem_append_left _ hp
  cases hc : (detectEdge (k.netValue n) v).changed with
  | false => exact ⟨hactive, .inl ⟨by simpa [hc] using hw, netValue_writeNet_same hc⟩⟩
  | true =>
    refine ⟨hactive, .inr ⟨by simpa [hc] using hw, fun p hp => ?_⟩⟩
    have hwakes : Wakes (k.setValue n v).notifyRuntimeChange (k.writeNet n v) := by
      unfold Kernel.writeNet
      dsimp only
      rw [if_pos hc]
      exact (wakes_storeScan _ n _).trans (wakes_clearAll _ _)
    obtain ⟨more, hmore⟩ := hwakes.active
    rw [hmore]
    exact List.mem_append_left _ (List.mem_append_right _ hp)

theorem heeded_modifyNet (k : Kernel) (n : NetId) {f : Net → Net}
    (hv : ∀ net, (f net).value = net.value) : Heeded k (k.modifyNet n f) := by
  refine heeded_of rfl ?_ ⟨[], (List.append_nil _).symm⟩
  funext m
  unfold Kernel.netValue
  rw [Kernel.net_modifyNet]
  split_ifs
  · exact hv _
  · rfl

theorem heeded_touch {d : DriverId} {n : NetId} {k k' : Kernel} (h : Touch d n k k') :
    Heeded k k' := by
  cases h with
  | net h =>
    cases h with
    | writeNet v hv => exact heeded_writeNet k n v
    | setDelayRequest v generations hv hg => exact heeded_modifyNet k n fun _ => rfl
    | push hpos ha => exact heeded_of rfl rfl ⟨[], (List.append_nil _).symm⟩
  | setDriverValue v hd hv => exact heeded_modifyNet k _ fun _ => rfl
  | setDriverRequest | push => exact heeded_of rfl rfl ⟨[], (List.append_nil _).symm⟩

theorem heeded_touches {d : DriverId} {n : NetId} {k k' : Kernel} (h : Touches d n k k') :
    Heeded k k' :=
  keeps_sequence (R := Heeded) .refl .trans heeded_touch h

/-- Nets are made before the simulation runs; no process makes one. -/
def makesNet : Label → Bool
  | .call (.newNet _ _ _) => true
  | _ => false

theorem heeded_call (k : Kernel) {c : Call} (hc : makesNet (.call c) = false) :
    Heeded k (c.exec k) := by
  have hsame {k' : Kernel} (hw : k'.runtimeWaiters = k.runtimeWaiters)
      (hv : k'.netValue = k.netValue) (ha : k'.active = k.active) : Heeded k k' :=
    heeded_of hw hv ⟨[], ha.trans (List.append_nil _).symm⟩
  cases c with
  | newNet => cases hc
  | newDriver n zero one =>
    have hslot : Heeded k (k.addDriverSlot n zero one) := heeded_modifyNet k n fun _ => rfl
    exact hslot.trans (heeded_of rfl rfl ⟨[], (List.append_nil _).symm⟩)
  | driveNet d v => exact heeded_touches (touches_driveNet k d v)
  | scheduleDrive d v delayFs => exact heeded_touches (touches_scheduleDrive k d v delayFs)
  | scheduleDriveTransitions d v delays =>
    exact heeded_touches (touches_scheduleDriveTransitions k d v delays)
  | writeNet n v => exact heeded_writeNet k n v
  | notifyRuntimeChange => exact heeded_notifyRuntimeChange k
  | triggerEvent event => exact heeded_of rfl rfl ⟨_, rfl⟩
  | scheduleNba | requestStop => exact hsame rfl rfl rfl

theorem heeded_drainNba (k : Kernel) : Heeded k k.drainNba :=
  drainNba_keeps .refl .trans (heeded_of rfl rfl ⟨[], (List.append_nil _).symm⟩)
    (fun u _ k => heeded_writeNet k u.1 u.2) fun _ => heeded_of rfl rfl ⟨_, rfl⟩

theorem heeded_dispatch (k : Kernel) (ev : TimedEvent) (rest : List TimedEvent) :
    Heeded k ({ k with timed := rest }.dispatchEvent ev) := by
  have hpop : Heeded k { k with timed := rest } :=
    heeded_of rfl rfl ⟨[], (List.append_nil _).symm⟩
  by_cases ha : ∃ q, ev.action = .resume q
  · obtain ⟨q, ha⟩ := ha
    refine hpop.trans ?_
    unfold Kernel.dispatchEvent
    rw [ha]
    dsimp only
    split
    · exact heeded_of rfl rfl ⟨[], (List.append_nil _).symm⟩
    · exact heeded_of rfl rfl ⟨_, rfl⟩
  · obtain ⟨d, n, htouch⟩ : ∃ d n, Touches d n { k with timed := rest }
        ({ k with timed := rest }.dispatchEvent ev) :=
      touches_dispatchEvent fun p he => ha ⟨p, he⟩
    exact hpop.trans (heeded_touches htouch)

/-! ### Steps -/

/-- A process that parks may join the waiters itself; nothing else happens to them or to the
nets. -/
theorem waiters_park (s : Sim) (pid : ProcId) (wait : Wait) :
    (∀ p ∈ (s.park pid wait).kernel.runtimeWaiters, p ∈ s.kernel.runtimeWaiters ∨ p = pid) ∧
      (s.park pid wait).kernel.netValue = s.kernel.netValue := by
  have harm (wait : Wait) : ∀ p ∈ (s.kernel.arm pid wait).runtimeWaiters,
      p ∈ s.kernel.runtimeWaiters ∨ p = pid := by
    intro p hp
    by_cases hpid : p = pid
    · exact .inr hpid
    · exact .inl ((waiters_arm (Ne.symm hpid) wait).1.mp hp)
  cases wait with
  | fork children join =>
    unfold Sim.park Sim.spawnFork
    dsimp only
    split_ifs <;> exact ⟨fun _ hp => .inl hp, rfl⟩
  | finished => exact ⟨harm .finished, netValue_arm s.kernel pid .finished⟩
  | _ => exact ⟨harm _, netValue_arm s.kernel pid _⟩

/-- A step changes no net and lets nobody but the running process join the waiters, or it moves all
of them to the active queue. -/
theorem waiters_step {l : Label} {s s' : Sim} (hs : step l s = some s')
    (hl : makesNet l = false) :
    ((∀ p ∈ s'.kernel.runtimeWaiters, p ∈ s.kernel.runtimeWaiters ∨ current s = some p) ∧
      s'.kernel.netValue = s.kernel.netValue) ∨ Roused s.kernel s'.kernel := by
  have of_heeded {k' : Kernel} (h : Heeded s.kernel k') :
      ((∀ p ∈ k'.runtimeWaiters, p ∈ s.kernel.runtimeWaiters ∨ current s = some p) ∧
        k'.netValue = s.kernel.netValue) ∨ Roused s.kernel k' := by
    rcases h.change with ⟨hw, hv⟩ | hr
    · exact .inl ⟨fun p hp => .inl (hw ▸ hp), hv⟩
    · exact .inr hr
  cases stepped_of_step hs with
  | call hm hv => exact of_heeded (heeded_call s.kernel hl)
  | drainNba hm ha hi hp hn => exact of_heeded (heeded_drainNba s.kernel)
  | dispatch hm ht hd => exact of_heeded (heeded_dispatch s.kernel _ _)
  | @suspend _ limit pid wait hm hn =>
    obtain ⟨hw, hv⟩ := waiters_park s pid wait
    refine .inl ⟨fun p hp => (hw p hp).imp id fun hpid => ?_, hv⟩
    rw [hpid]
    unfold current
    rw [hm]
  | _ => exact .inl ⟨fun _ hp => .inl hp, rfl⟩

end Eevee.Sched.RuntimeWaiters
