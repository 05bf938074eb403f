/- The registration of a process that waits for one edge of one net: what the waits of others and
the writes of nets do to it. -/

import Mathlib.Tactic.Common
import Mathlib.Tactic.SplitIfs
import Eevee.Sched.Observers

set_option autoImplicit false
set_option relaxedAutoImplicit false

namespace Eevee.Sched.Registrations

open Eevee.Core.Logic
open Eevee.Sched.EdgeWakeups
open Eevee.Sched.Frames (wakes_clearNetWaiters)
open Eevee.Sched.Nets
open Eevee.Sched.Observers (live_arm)
open Eevee.Sched.Scheduler
open Eevee.Sched.Wakeup

/-- The process waits for that edge of the net, and for no other. -/
structure WaitsFor (k : Kernel) (p : ProcId) (n : NetId) (edge : EdgeKind) : Prop where
  waits : (k.netWaits p).isSome = true
  live : ∀ m kind, Live k m p kind ↔ m = n ∧ kind = edge

section

variable {k : Kernel} {p q : ProcId} {n : NetId} {edge : EdgeKind}

/-! ### Waits -/

theorem registered_clearNetWaiters (hr : Registered k) (q : ProcId) :
    Registered (k.clearNetWaiters q) := by
  intro n w hw
  obtain ⟨hold, hnot⟩ := @mem_waiters_clearAll [q] k n w hw
  obtain ⟨waited, hwaited, hn, hepoch⟩ := hr n w hold
  have hne : w.proc ≠ q := fun heq => hnot waited hwaited hn (List.mem_singleton.mpr heq)
  refine ⟨waited, by rw [netWaits_clearNetWaiters, if_neg hne, hwaited], hn, ?_⟩
  obtain ⟨nets, netWaits, hk⟩ := clearNetWaiters_frame k q
  rw [hk, hepoch]

theorem netWaits_clear_self (k : Kernel) (q : ProcId) :
    (k.clearNetWaiters q).netWaits q = none := by
  rw [netWaits_clearNetWaiters, if_pos rfl]

/-- A process without registrations gets a new epoch. -/
theorem registered_bump (hr : Registered k) (q : ProcId) :
    Registered ((k.clearNetWaiters q).bumpEpoch q) :=
  bumpEpoch_registered (registered_clearNetWaiters hr q) (netWaits_clear_self k q)

theorem registered_arm (hr : Registered k) (q : ProcId) (wait : Wait) :
    Registered (k.arm q wait) := by
  have hn := netWaits_clear_self k q
  have hbump := registered_bump hr q
  unfold Kernel.arm
  cases wait with
  | edge | sensitivity | cond => exact (adds_registerNets hbump hn _).1
  | finished =>
    intro n w hw
    have hne := registered_of_unwaited hbump hn n hw
    obtain ⟨waited, hs, hm, he⟩ := hbump n w hw
    exact ⟨waited, hs, hm, by simpa [Function.update_apply, hne] using he⟩
  | delay | runtimeCond | nba | namedEvent | fork => exact hbump

theorem netWaits_arm (hpq : p ≠ q) (wait : Wait) : (k.arm q wait).netWaits p = k.netWaits p := by
  have hclear : ((k.clearNetWaiters q).bumpEpoch q).netWaits p = k.netWaits p :=
    (netWaits_clearNetWaiters k q p).trans (if_neg hpq)
  unfold Kernel.arm
  cases wait with
  | edge | sensitivity | cond => exact (Function.update_of_ne hpq _ _).trans hclear
  | finished | delay | runtimeCond | nba | namedEvent | fork => exact hclear

theorem waitEpochs_arm (hpq : p ≠ q) (wait : Wait) :
    (k.arm q wait).waitEpochs p = k.waitEpochs p := by
  have hbump : ((k.clearNetWaiters q).bumpEpoch q).waitEpochs p = k.waitEpochs p := by
    obtain ⟨nets, netWaits, hk⟩ := clearNetWaiters_frame k q
    rw [hk]
    exact Function.update_of_ne hpq _ _
  have hregister :
    ∀ entries, (((k.clearNetWaiters q).bumpEpoch q).registerNets q entries).waitEpochs
      p = k.waitEpochs p := by
    intro entries
    obtain ⟨nets, hk⟩ := addWaiters_frame entries q ((k.clearNetWaiters q).bumpEpoch q)
    simp only [Kernel.registerNets, hk]
    exact hbump
  unfold Kernel.arm
  cases wait with
  | edge | sensitivity | cond => exact hregister _
  | finished => exact (Function.update_of_ne hpq _ _).trans hbump
  | delay | runtimeCond | nba | namedEvent | fork => exact hbump

/-- A wait of a process only adds entries of its own. -/
theorem mem_waiters_arm {wait : Wait} {w : Waiter} (h : w ∈ ((k.arm q wait).net n).waiters)
    (hw : w.proc ≠ q) : w ∈ (k.net n).waiters := by
  have hclear : w ∈ (((k.clearNetWaiters q).bumpEpoch q).net n).waiters → w ∈ (k.net n).waiters :=
    fun h => (@mem_waiters_clearAll [q] k n w h).1
  unfold Kernel.arm at h
  cases wait with
  | edge | sensitivity | cond =>
    rcases mem_waiters_addWaiters h with hold | ⟨heq, -⟩
    · exact hclear hold
    · exact absurd heq hw
  | finished | delay | runtimeCond | nba | namedEvent | fork => exact hclear h

theorem live_arm_iff (hpq : p ≠ q) (wait : Wait) :
    Live (k.arm q wait) n p edge ↔ Live k n p edge := by
  refine ⟨?_, live_arm hpq wait⟩
  rintro ⟨w, hw, hp, hedge, hepoch⟩
  rw [waitEpochs_arm hpq] at hepoch
  exact ⟨w, mem_waiters_arm hw (hp ▸ hpq), hp, hedge, hepoch⟩

theorem WaitsFor.arm (h : WaitsFor k p n edge) (hpq : p ≠ q) (wait : Wait) :
    WaitsFor (k.arm q wait) p n edge :=
  ⟨(netWaits_arm hpq wait).symm ▸ h.waits, fun m kind =>
    (live_arm_iff hpq wait).trans (h.live m kind)⟩

/-- A process that comes to wait for an edge of a net waits for that one alone. -/
theorem waitsFor_arm (hr : Registered k) (p : ProcId) (edge : EdgeKind) (hlt : n < k.nets.length) :
    WaitsFor (k.arm p (.edge n edge)) p n edge := by
  have hnone : ∀ m, ∀ w ∈ (((k.clearNetWaiters p).bumpEpoch p).net m).waiters, w.proc ≠ p :=
    fun m _ hw => registered_of_unwaited (registered_bump hr p) (netWaits_clear_self k p) m hw
  have hbound : n < ((k.clearNetWaiters p).bumpEpoch p).nets.length := by
    show n < (k.clearNetWaiters p).nets.length
    rwa [(wakes_clearNetWaiters k p).length]
  show WaitsFor (((k.clearNetWaiters p).bumpEpoch p).registerNets p [(n, edge)]) p n edge
  generalize (k.clearNetWaiters p).bumpEpoch p = k at hnone hbound
  have hwaiters : ∀ m, ((k.registerNets p [(n, edge)]).net m).waiters =
      if m = n then (k.net m).waiters ++ [⟨p, edge, (k.waitEpochs p).getD 0⟩]
      else (k.net m).waiters := by
    intro m
    show ((k.addWaiter n ⟨p, edge, (k.waitEpochs p).getD 0⟩).net m).waiters = _
    unfold Kernel.addWaiter
    rw [Kernel.net_modifyNet]
    simp only [hbound, and_true]
    split_ifs <;> rfl
  have hwaits : (k.registerNets p [(n, edge)]).netWaits p = some (Kernel.waitedNets [n]) :=
    Function.update_self p _ _
  refine ⟨by rw [hwaits]; rfl, fun m kind => ?_⟩
  constructor
  · rintro ⟨w, hw, hp, rfl, -⟩
    rw [hwaiters] at hw
    split_ifs at hw with hm
    · rcases List.mem_append.mp hw with hold | hnew
      · exact absurd hp (hnone m w hold)
      · rw [List.mem_singleton.mp hnew]
        exact ⟨hm, rfl⟩
    · exact absurd hp (hnone m w hw)
  · rintro ⟨rfl, rfl⟩
    refine ⟨⟨p, kind, (k.waitEpochs p).getD 0⟩, ?_, rfl, rfl, rfl⟩
    rw [hwaiters, if_pos rfl]
    exact List.mem_append_right _ (List.mem_singleton.mpr rfl)

/-! ### Writes -/

theorem WaitsFor.asked_iff (h : WaitsFor k p n edge) (m : NetId) (v : PackedVec) :
    Asked k m v p ↔ m = n ∧ Matches (k.netValue n) v edge := by
  constructor
  · rintro ⟨kind, hlive, hmatches⟩
    obtain ⟨rfl, rfl⟩ := (h.live m kind).mp hlive
    exact ⟨rfl, hmatches⟩
  · rintro ⟨rfl, hmatches⟩
    exact ⟨edge, (h.live m edge).mpr ⟨rfl, rfl⟩, hmatches⟩

theorem netWaits_writeNet_of_none (h : k.netWaits p = none) (m : NetId) (v : PackedVec) :
    (k.writeNet m v).netWaits p = none := by
  unfold Kernel.writeNet
  dsimp only
  split_ifs
  · refine (netWaits_clearAll _ _ p).trans ?_
    split_ifs
    · rfl
    · exact h
  · exact h

/-- The write that is waited for ends the wait. -/
theorem WaitsFor.woken (hr : Registered k) (h : WaitsFor k p n edge) {v : PackedVec}
    (hmatches : Matches (k.netValue n) v edge) : (k.writeNet n v).netWaits p = none := by
  obtain ⟨procs, -, hmem, -, hwaits, -⟩ := woke_writeNet hr n v
  rw [hwaits, if_pos ((hmem p).mpr ((h.asked_iff n v).mpr ⟨rfl, hmatches⟩))]

/-- Any other write leaves the process waiting. -/
theorem WaitsFor.writeNet (hr : Registered k) (h : WaitsFor k p n edge) {m : NetId} {v : PackedVec}
    (hno : ¬ (m = n ∧ Matches (k.netValue n) v edge)) : WaitsFor (k.writeNet m v) p n edge := by
  obtain ⟨procs, -, hmem, -, hwaits, hepochs, hperm⟩ := woke_writeNet hr m v
  have hnot : p ∉ procs := fun hp => hno ((h.asked_iff m v).mp ((hmem p).mp hp))
  refine ⟨by rw [hwaits, if_neg hnot]; exact h.waits, fun m' kind => ?_⟩
  exact (live_of_perm (hepochs p hnot) (hperm p hnot m') kind).trans (h.live m' kind)

end

end Eevee.Sched.Registrations
