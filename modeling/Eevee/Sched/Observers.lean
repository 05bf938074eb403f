/- Processes that wait for their nets to change see every change. -/

import Mathlib.Data.List.Count
import Mathlib.Tactic.Common
import Mathlib.Tactic.SplitIfs
import Eevee.Sched.ForkJoin

set_option autoImplicit false
set_option relaxedAutoImplicit false

namespace Eevee.Sched.Observers

open Eevee.Core.Logic
open Eevee.Lib.Transition
open Eevee.Sched.EdgeWakeups
open Eevee.Sched.ForkJoin (active_step)
open Eevee.Sched.Frames
open Eevee.Sched.Nets
open Eevee.Sched.Regions (Resumes)
open Eevee.Sched.Scheduler
open Eevee.Sched.Simulation
open Eevee.Sched.Wakeup

/-- The process is registered for any change of each of the nets. -/
def Watching (k : Kernel) (p : ProcId) (nets : List NetId) : Prop :=
  ∀ n ∈ nets, Live k n p .anyChange

/-- The process stays in the active queue; if it watches the nets, it gets there or goes on watching
the same values. -/
structure Attends (p : ProcId) (nets : List NetId) (k k' : Kernel) : Prop where
  active : p ∈ k.active → p ∈ k'.active
  watching : Watching k p nets →
    p ∈ k'.active ∨ (Watching k' p nets ∧ ∀ n ∈ nets, k'.netValue n = k.netValue n)

section

variable {p : ProcId} {nets : List NetId} {k k' : Kernel}

theorem Attends.refl (k : Kernel) : Attends p nets k k := ⟨id, fun h => .inr ⟨h, fun _ _ => rfl⟩⟩

theorem Attends.trans {k₁ k₂ k₃ : Kernel} (h : Attends p nets k₁ k₂) (h' : Attends p nets k₂ k₃) :
    Attends p nets k₁ k₃ := by
  refine ⟨fun hp => h'.active (h.active hp), fun hw => ?_⟩
  rcases h.watching hw with hp | ⟨hw₂, hv₂⟩
  · exact .inl (h'.active hp)
  · rcases h'.watching hw₂ with hp | ⟨hw₃, hv₃⟩
    · exact .inl hp
    · exact .inr ⟨hw₃, fun n hn => (hv₃ n hn).trans (hv₂ n hn)⟩

/-- Registrations are on existing nets. -/
theorem Watching.lt (h : Watching k p nets) {n : NetId} (hn : n ∈ nets) : n < k.nets.length := by
  by_contra hge
  obtain ⟨w, hw, -⟩ := h n hn
  rw [Kernel.net_of_ge (Nat.le_of_not_lt hge)] at hw
  cases hw

/-- The registrations are as they were. -/
theorem attends_of {k k' : Kernel} (ha : p ∈ k.active → p ∈ k'.active)
    (hl : ∀ n, Live k n p .anyChange → Live k' n p .anyChange)
    (hv : ∀ n < k.nets.length, k'.netValue n = k.netValue n) : Attends p nets k k' :=
  ⟨ha, fun hw => .inr ⟨fun n hn => hl n (hw n hn), fun n hn => hv n (hw.lt hn)⟩⟩

theorem attends_quiet (h : Quiet k k') : Attends p nets k k' := by
  obtain ⟨woken, hwoken⟩ := h.active
  refine attends_of (fun hp => ?_) (fun n hl => ?_) h.values
  · rw [hwoken]
    exact List.mem_append_left _ hp
  · unfold Live at hl ⊢
    rwa [h.waiters, h.waitEpochs]

/-- A write of one of the nets wakes the process unless it stores the old value again. -/
theorem attends_writeNet (hr : Registered k) (hone : ∀ q, sources k q ≤ 1) (n : NetId)
    (v : PackedVec) : Attends p nets k (k.writeNet n v) := by
  have hexact := exact_writeNet hr hone n v
  refine ⟨fun hp => ?_, fun hw => ?_⟩
  · obtain ⟨procs, -, -, hactive⟩ := hexact.queue
    rw [hactive, List.append_assoc]
    exact List.mem_append_left _ hp
  · by_cases ha : Asked k n v p
    · obtain ⟨-, hcount, -⟩ := hexact.once p ha
      exact .inl (List.count_pos_iff.mp (by omega))
    · obtain ⟨-, -, -, hlive⟩ := hexact.others p ha
      refine .inr ⟨fun m hm => (hlive m .anyChange).mpr (hw m hm), fun m hm => ?_⟩
      rw [netValue_writeNet]
      split_ifs with hmn
      · obtain ⟨rfl, -⟩ := hmn
        by_contra hne
        exact ha ⟨.anyChange, hw m hm, (matches_anyChange _ _).mpr (Ne.symm hne)⟩
      · rfl

theorem attends_performs {ws : List Write} (h : Performs k ws k') (hr : Registered k)
    (hone : ∀ q, sources k q ≤ 1) : Attends p nets k k' := by
  induction h with
  | done k => exact .refl k
  | @quiet k k₁ k₂ ws hq _ ih =>
    obtain ⟨hr₁, hs₁⟩ := hq.keeps hr
    exact (attends_quiet hq).trans (ih hr₁ fun q => (hs₁ q).symm ▸ hone q)
  | @write k k₂ n v ws _ ih =>
    obtain ⟨hr₁, hs₁⟩ := keeps_writeNet k n v hr
    exact (attends_writeNet hr hone n v).trans (ih hr₁ fun q => (hs₁ q).symm ▸ hone q)

/-! ### Another process parks -/

theorem live_clearNetWaiters {q : ProcId} (hpq : p ≠ q) {n : NetId} {edge : EdgeKind}
    (h : Live k n p edge) : Live (k.clearNetWaiters q) n p edge := by
  obtain ⟨w, hw, hwp, he, hepoch⟩ := h
  have hepochs : (k.clearNetWaiters q).waitEpochs = k.waitEpochs := by
    obtain ⟨nets, netWaits, hk⟩ := clearNetWaiters_frame k q
    rw [hk]
  refine ⟨w, ?_, hwp, he, by rw [hepochs, hepoch]⟩
  rw [Kernel.net_clearNetWaiters]
  split_ifs
  · exact List.mem_filter.mpr ⟨hw, by simpa [hwp] using hpq⟩
  · exact hw

theorem mem_addWaiters {entries : List (NetId × EdgeKind)} {q : ProcId} {n : NetId} {w : Waiter}
    (h : w ∈ (k.net n).waiters) : w ∈ ((entries.foldl (fun (k : Kernel) e =>
      k.addWaiter e.1 ⟨q, e.2, (k.waitEpochs q).getD 0⟩) k).net n).waiters := by
  induction entries generalizing k with
  | nil => exact h
  | cons e entries ih =>
    refine ih ?_
    unfold Kernel.addWaiter
    rw [Kernel.net_modifyNet]
    split_ifs
    · exact List.mem_append_left _ h
    · exact h

theorem live_registerNets {q : ProcId} {entries : List (NetId × EdgeKind)} {n : NetId}
    {edge : EdgeKind} (h : Live k n p edge) : Live (k.registerNets q entries) n p edge := by
  obtain ⟨w, hw, hwp, he, hepoch⟩ := h
  obtain ⟨nets, hk⟩ := addWaiters_frame entries q k
  have hepochs : (k.registerNets q entries).waitEpochs = k.waitEpochs := by
    simp only [Kernel.registerNets, hk]
  exact ⟨w, mem_addWaiters hw, hwp, he, by rw [hepochs, hepoch]⟩

/-- Only the registrations of the process that parks change. -/
theorem live_arm {q : ProcId} (hpq : p ≠ q) (wait : Wait) {n : NetId} {edge : EdgeKind}
    (h : Live k n p edge) : Live (k.arm q wait) n p edge := by
  have hbump : Live ((k.clearNetWaiters q).bumpEpoch q) n p edge := by
    obtain ⟨w, hw, hwp, he, hepoch⟩ := live_clearNetWaiters hpq h
    refine ⟨w, hw, hwp, he, ?_⟩
    simpa [Kernel.bumpEpoch, Function.update_apply, hpq] using hepoch
  unfold Kernel.arm
  cases wait with
  | edge | sensitivity | cond => exact live_registerNets hbump
  | finished =>
    obtain ⟨w, hw, hwp, he, hepoch⟩ := hbump
    refine ⟨w, hw, hwp, he, ?_⟩
    simpa [Function.update_apply, hpq] using hepoch
  | delay | runtimeCond | nba | namedEvent | fork => exact hbump

theorem live_park {s : Sim} {q : ProcId} (hpq : p ≠ q) (wait : Wait) {n : NetId} {edge : EdgeKind}
    (h : Live s.kernel n p edge) : Live (s.park q wait).kernel n p edge := by
  cases wait with
  | fork children join =>
    unfold Sim.park Sim.spawnFork
    dsimp only
    split_ifs <;> exact h
  | finished => exact live_arm hpq .finished h
  | _ => exact live_arm hpq _ h

/-- The registrations of a process that waits for changes of these nets. -/
theorem watching_arm {q : ProcId} (hlt : ∀ n ∈ nets, n < k.nets.length) :
    Watching (k.arm q (.cond nets)) q nets := by
  intro n hn
  have hwait : n ∈ Kernel.waitedNets nets := (mem_waitedNets nets n).mpr hn
  have hadd : ∀ (waited : List NetId) (k : Kernel), n ∈ waited → n < k.nets.length →
      (⟨q, .anyChange, (k.waitEpochs q).getD 0⟩ : Waiter) ∈
        (((waited.map fun n => (n, EdgeKind.anyChange)).foldl (fun (k : Kernel) e =>
          k.addWaiter e.1 ⟨q, e.2, (k.waitEpochs q).getD 0⟩) k).net n).waiters := by
    intro waited
    induction waited with
    | nil => exact fun k hmem _ => absurd hmem List.not_mem_nil
    | cons m waited ih =>
      intro k hmem hlt
      rcases List.mem_cons.mp hmem with rfl | hmem
      · have hnew : (⟨q, .anyChange, (k.waitEpochs q).getD 0⟩ : Waiter) ∈
            ((k.addWaiter n ⟨q, .anyChange, (k.waitEpochs q).getD 0⟩).net n).waiters := by
          unfold Kernel.addWaiter
          rw [Kernel.net_modifyNet, if_pos ⟨rfl, hlt⟩]
          exact List.mem_append_right _ List.mem_cons_self
        rw [List.map_cons, List.foldl_cons]
        exact mem_addWaiters hnew
      · refine ih (k.addWaiter m ⟨q, .anyChange, (k.waitEpochs q).getD 0⟩) hmem ?_
        show n < (k.nets.modify m _).length
        rwa [List.length_modify]
  have hlen : n < ((k.clearNetWaiters q).bumpEpoch q).nets.length := by
    show n < (k.clearNetWaiters q).nets.length
    rw [(wakes_clearNetWaiters k q).length]
    exact hlt n hn
  obtain ⟨waiters, hk⟩ := addWaiters_frame ((Kernel.waitedNets nets).map fun n =>
    (n, EdgeKind.anyChange)) q ((k.clearNetWaiters q).bumpEpoch q)
  refine ⟨_, hadd _ ((k.clearNetWaiters q).bumpEpoch q) hwait hlen, rfl, rfl, ?_⟩
  show _ = ((Kernel.registerNets _ q _).waitEpochs q).getD 0
  simp only [Kernel.registerNets, hk]

end

/-! ### Steps -/

/-- A process that has never run is queued; one that waits for changes of nets is queued or watches
them. -/
structure Attentive (s : Sim) : Prop where
  unborn : ∀ p < s.procs.length, current s ≠ some p → s.lastWait p = none → p ∈ s.kernel.active
  watching : ∀ p < s.procs.length, current s ≠ some p → ∀ nets,
    s.lastWait p = some (.cond nets) → p ∈ s.kernel.active ∨ Watching s.kernel p nets

section

variable {s s' : Sim} {l : Label} {p : ProcId}

/-- What a step does to a process that runs neither before nor after it. -/
structure Bystander (s s' : Sim) (p : ProcId) : Prop where
  lastWait : s'.lastWait p = s.lastWait p
  attends : ∀ nets, Attends p nets s.kernel s'.kernel

theorem lastWait_park (hheld : Held s) {q : ProcId} (hcur : current s = some q) (hpq : p ≠ q)
    (wait : Wait) : (s.park q wait).lastWait p = s.lastWait p := by
  obtain ⟨children, hprocs⟩ := procs_park s q wait
  unfold Sim.lastWait
  rw [hprocs, getD_append_none, getD_set_proc (hheld.running q hcur).1, if_neg hpq]

theorem active_park (s : Sim) (q : ProcId) (wait : Wait) :
    ∃ woken, (s.park q wait).kernel.active = s.kernel.active ++ woken := by
  rcases kernel_park s q wait with hw | ⟨fs, k, -, hw, hk⟩
  · exact hw.active
  · rw [hk]
    exact hw.active

theorem netValue_park (s : Sim) (q : ProcId) (wait : Wait) (n : NetId) :
    (s.park q wait).kernel.netValue n = s.kernel.netValue n := by
  rcases kernel_park s q wait with hw | ⟨fs, k, -, hw, hk⟩
  · exact netValue_of_calm hw.toCalm n
  · rw [hk]
    exact netValue_of_calm hw.toCalm n

theorem bystander_step (hheld : Held s) (hs : step l s = some s')
    (hcur : current s ≠ some p) (hcur' : current s' ≠ some p) : Bystander s s' p := by
  have hone (q : ProcId) : sources s.kernel q ≤ 1 := by
    rw [hheld.sources]
    split_ifs <;> omega
  have writing (hl : Writing l) (hw : s'.lastWait p = s.lastWait p) : Bystander s s' p := by
    obtain ⟨ws, hws, -⟩ := performs_step hs hl
    exact ⟨hw, fun nets => attends_performs hws hheld.registered hone⟩
  cases stepped_of_step hs with
  | call hm hv => exact writing trivial rfl
  | drainNba hm ha hi hq hn => exact writing trivial rfl
  | dispatch hm ht hd => exact writing trivial rfl
  | addProcess hm =>
    refine ⟨?_, fun nets => attends_of (List.mem_append_left _) (fun n => id) fun n _ => rfl⟩
    exact getD_append_none s.procs 1 p
  | runUntil hm => exact ⟨rfl, fun nets => .refl _⟩
  | @resume _ limit pid rest hm ha =>
    have hpid : p ≠ pid := by
      rintro rfl
      exact hcur' rfl
    have hlt := (hheld.active_head ha).1.1
    refine ⟨(getD_set_proc hlt none p).trans (if_neg hpid), fun nets =>
      attends_of (fun hmem => ?_) (fun n => id) fun n _ => rfl⟩
    rw [ha] at hmem
    exact (List.mem_cons.mp hmem).resolve_left hpid
  | @suspend _ limit pid wait hm hn =>
    have hrun : current s = some pid := by simp [current, hm]
    have hpid : p ≠ pid := by
      rintro rfl
      exact hcur hrun
    refine ⟨lastWait_park hheld hrun hpid wait, fun nets =>
      attends_of (fun hmem => ?_) (fun n hl => live_park hpid wait hl)
        fun n _ => netValue_park s pid wait n⟩
    obtain ⟨woken, hwoken⟩ := active_park s pid wait
    exact hwoken ▸ List.mem_append_left _ hmem
  | promote hm ha hi =>
    exact ⟨rfl, fun nets => attends_of (List.mem_append_left _) (fun n => id) fun n _ => rfl⟩
  | done hm hq ht => exact ⟨rfl, fun nets => attends_of id (fun n => id) fun n _ => rfl⟩
  | limited hm hq ht hl => exact ⟨rfl, fun nets => attends_of id (fun n => id) fun n _ => rfl⟩
  | advance hm hq ht hl => exact ⟨rfl, fun nets => attends_of id (fun n => id) fun n _ => rfl⟩
  | settle hm hd => exact ⟨rfl, fun nets => .refl _⟩

/-- A process that is not in the table yet is queued when it gets there. -/
theorem queued_of_born (hs : step l s = some s') (hp : ¬ p < s.procs.length)
    (hp' : p < s'.procs.length) : p ∈ s'.kernel.active := by
  cases stepped_of_step hs with
  | addProcess hm =>
    have hlt : p < s.procs.length + 1 := by simpa [Sim.addProcess] using hp'
    have heq : p = s.procs.length := Nat.le_antisymm (Nat.lt_succ_iff.mp hlt) (Nat.le_of_not_lt hp)
    exact heq ▸ List.mem_append_right _ List.mem_cons_self
  | @suspend _ limit pid wait hm hn =>
    cases wait with
    | fork children join =>
      have hlt : p < s.procs.length + children := by
        simpa [Sim.park, Sim.spawnFork] using hp'
      have hle : s.procs.length ≤ p := Nat.le_of_not_lt hp
      have hmem : p ∈ (List.range children).map (s.procs.length + ·) :=
        List.mem_map.mpr ⟨p - s.procs.length,
          List.mem_range.mpr (Nat.sub_lt_left_of_lt_add hle hlt), Nat.add_sub_cancel' hle⟩
      unfold Sim.park Sim.spawnFork
      dsimp only
      rw [List.length_set]
      split_ifs
      · exact List.mem_append_left _ (List.mem_append_right _ hmem)
      · exact List.mem_append_right _ hmem
    | _ => exact absurd (by simpa [Sim.park] using hp') hp
  | resume hm ha => exact absurd (by simpa using hp') hp
  | _ => exact absurd hp' hp

/-- The running process has a wait of its own when it has parked, and watches what it waits for. -/
theorem parks (hheld : Held s) (hs : step l s = some s') (hcur : current s = some p)
    (hcur' : current s' ≠ some p) : ∃ wait, l = .suspend wait ∧ s'.lastWait p = some wait ∧
      ∀ nets, wait = .cond nets → Watching s'.kernel p nets := by
  have hlt := (hheld.running p hcur).1
  cases stepped_of_step hs with
  | @suspend _ limit pid wait hm hn =>
    obtain rfl : pid = p := by simpa [current, hm] using hcur
    refine ⟨wait, rfl, ?_, ?_⟩
    · obtain ⟨children, hprocs⟩ := procs_park s pid wait
      show (s.park pid wait).procs.getD pid none = some wait
      rw [hprocs, getD_append_none, getD_set_proc hlt, if_pos rfl]
    · rintro nets rfl
      exact watching_arm hn
  | call hm hv => exact absurd hcur hcur'
  | _ => simp_all [current]

theorem attentive_step (h : Attentive s) (hheld : Held s) (hs : step l s = some s') :
    Attentive s' := by
  refine ⟨fun p hp hcur hwait => ?_, fun p hp hcur nets hwait => ?_⟩
  all_goals by_cases hborn : p < s.procs.length
  · by_cases hrun : current s = some p
    · obtain ⟨wait, -, hparked, -⟩ := parks hheld hs hrun hcur
      rw [hwait] at hparked
      cases hparked
    · have hby := bystander_step hheld hs hrun hcur
      exact (hby.attends []).active (h.unborn p hborn hrun (hby.lastWait.symm.trans hwait))
  · exact queued_of_born hs hborn hp
  · by_cases hrun : current s = some p
    · obtain ⟨wait, -, hparked, hwatching⟩ := parks hheld hs hrun hcur
      rw [hwait] at hparked
      cases hparked
      exact .inr (hwatching nets rfl)
    · have hby := bystander_step hheld hs hrun hcur
      rcases h.watching p hborn hrun nets (hby.lastWait.symm.trans hwait) with hmem | hw
      · exact .inl ((hby.attends nets).active hmem)
      · exact ((hby.attends nets).watching hw).imp id And.left
  · exact .inl (queued_of_born hs hborn hp)

theorem attentive_run {labels : List Label} (hr : Runs labels s) : Attentive s := by
  have hboth := run_invariant (fun s => Held s ∧ Attentive s) hr
    ⟨held_new, fun p hp => absurd hp (Nat.not_lt_zero p), fun p hp => absurd hp (Nat.not_lt_zero p)⟩
    fun _ _ _ h hs => ⟨held_step h.1 hs, attentive_step h.2 h.1 hs⟩
  exact hboth.2

/-! ### Runs -/

theorem current_step (hs : step l s = some s') (hcur : current s ≠ some p)
    (hno : ¬ Resumes p s l) : current s' ≠ some p := by
  cases stepped_of_step hs with
  | call hm hv => exact hcur
  | @resume _ limit pid rest hm ha =>
    rintro hcur'
    obtain rfl : pid = p := by simpa [current] using hcur'
    exact hno ⟨rfl, by rw [ha]; rfl⟩
  | @suspend _ limit pid wait hm hn =>
    unfold current
    dsimp only
    split_ifs <;> simp
  | _ => simp_all [current, Sim.addProcess]

/-- The process is not running; it is queued, or it watches the nets, which have the values of this
kernel. -/
structure Awaits (p : ProcId) (nets : List NetId) (k₀ : Kernel) (s : Sim) : Prop where
  running : current s ≠ some p
  watching : p ∈ s.kernel.active ∨
    (Watching s.kernel p nets ∧ ∀ n ∈ nets, s.kernel.netValue n = k₀.netValue n)

variable {nets : List NetId} {k₀ : Kernel}

theorem awaits_suspend (hheld : Held s) (hcur : current s = some p)
    (hs : step (.suspend (.cond nets)) s = some s') : Awaits p nets s.kernel s' := by
  cases stepped_of_step hs with
  | @suspend _ limit pid wait hm hn =>
    have hcur' : current { s.park pid (.cond nets) with
        mode := if (s.park pid (.cond nets)).kernel.stop then .idle else .running limit } ≠
          some p := by
      unfold current
      dsimp only
      split_ifs <;> simp
    obtain ⟨wait, heq, -, hwatching⟩ := parks hheld hs hcur hcur'
    cases heq
    exact ⟨hcur', .inr ⟨hwatching nets rfl, fun n _ => netValue_park s pid _ n⟩⟩

theorem awaits_step (hheld : Held s) (h : Awaits p nets k₀ s) (hno : ¬ Resumes p s l)
    (hs : step l s = some s') : Awaits p nets k₀ s' := by
  have hcur' := current_step hs h.running hno
  have hattends := (bystander_step hheld hs h.running hcur').attends nets
  refine ⟨hcur', ?_⟩
  rcases h.watching with hactive | ⟨hwatching, hvalues⟩
  · exact .inl (hattends.active hactive)
  · rcases hattends.watching hwatching with hactive | ⟨hwatching', hsame⟩
    · exact .inl hactive
    · exact .inr ⟨hwatching', fun n hn => (hsame n hn).trans (hvalues n hn)⟩

/-- A process that waits for changes of nets is queued once one of them has had another value than
at its suspension, also where the net has the old value again. -/
theorem no_missed_change {labels : List Label} {t : Sim} {h₁ h₂ : List (Sim × Label)}
    (hr : Runs labels s)
    (hs : steps step Sim.new labels = h₁ ++ (t, .suspend (.cond nets)) :: h₂)
    (hp : current t = some p) (hno : ∀ x ∈ h₂, ¬ Resumes p x.1 x.2)
    (hchange : ∃ u, (u = s ∨ u ∈ h₂.map Prod.fst) ∧
      ∃ n ∈ nets, u.kernel.netValue n ≠ t.kernel.netValue n) : p ∈ s.kernel.active := by
  have hI {ls : List Label} {u : Sim} (hu : Runs ls u) : Held u := held_run hu
  obtain ⟨u, hu, n, hn, hne⟩ := hchange
  have queued {v : Sim} (hv : Awaits p nets t.kernel v)
      (hvalue : v.kernel.netValue n ≠ t.kernel.netValue n) : p ∈ v.kernel.active :=
    hv.watching.resolve_right fun hw => hvalue (hw.2 n hn)
  rcases hu with rfl | hu
  · exact queued (run_since hr hs hI (fun t' ht => awaits_suspend ht hp)
      (fun _ _ _ hheld hQ hk => awaits_step hheld hQ hk) hno) hne
  · obtain ⟨⟨u, m⟩, hmem, rfl⟩ := List.mem_map.mp hu
    obtain ⟨h₃, h₄, rfl⟩ := List.append_of_mem hmem
    have hsplit : steps step Sim.new labels =
        h₁ ++ (t, .suspend (.cond nets)) :: h₃ ++ (u, m) :: h₄ := by
      rw [hs]
      simp
    have hawaits := run_between hsplit hI (fun t' ht => awaits_suspend ht hp)
      (fun _ _ _ hheld hQ hk => awaits_step hheld hQ hk)
      fun x hx => hno x (List.mem_append_left _ hx)
    exact run_since hr hsplit hI (Q := fun v => p ∈ v.kernel.active)
      (fun v _ hv => active_step hv (queued hawaits hne)
        (hno _ (List.mem_append_right _ List.mem_cons_self)))
      (fun _ _ _ _ hQ hk hstep => active_step hstep hQ hk)
      fun x hx => hno x (List.mem_append_right _ (List.mem_cons_of_mem _ hx))

/-- A process waits for a net that changes and changes back. -/
def glitchRun : List Label :=
  [.call (.newNet (.zero 1) .wire none), .addProcess, .runUntil none, .resume,
    .suspend (.cond [0]), .advance, .call (.writeNet 0 (.ones 1)), .call (.writeNet 0 (.zero 1))]

theorem no_missed_glitch : ∃ s, Runs glitchRun s ∧ s.kernel.netValue 0 = .zero 1 ∧
    0 ∈ s.kernel.active := by
  have hr : Runs glitchRun ((run step Sim.new glitchRun).get rfl) := rfl
  let t := (run step Sim.new (glitchRun.take 4)).get rfl
  let u := (run step Sim.new (glitchRun.take 7)).get rfl
  have hsplit : steps step Sim.new glitchRun = steps step Sim.new (glitchRun.take 4) ++
      (t, .suspend (.cond [0])) :: (steps step Sim.new glitchRun).drop 5 := rfl
  have hno : ∀ x ∈ (steps step Sim.new glitchRun).drop 5, ¬ Resumes 0 x.1 x.2 := by
    decide
  refine ⟨_, hr, by decide,
    no_missed_change hr hsplit rfl hno ⟨u, .inr ?_, 0, by decide, by decide⟩⟩
  exact List.mem_map.mpr ⟨(u, .call (.writeNet 0 (.zero 1))), by
    exact List.mem_cons_of_mem _ (List.mem_cons_of_mem _ List.mem_cons_self), rfl⟩

end

end Eevee.Sched.Observers
