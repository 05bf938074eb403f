/- A forking parent is requeued once, when its children allow it, and every child is started
once. -/

import Mathlib.Data.List.Count
import Mathlib.Data.List.Perm.Basic
import Mathlib.Tactic.Common
import Mathlib.Tactic.SplitIfs
import Eevee.Sched.EdgeWakeups
import Eevee.Sched.Regions

set_option autoImplicit false
set_option relaxedAutoImplicit false

namespace Eevee.Sched.ForkJoin

open Eevee.Core.Logic
open Eevee.Lib.SwapScan
open Eevee.Lib.Transition
open Eevee.Sched.EdgeWakeups
open Eevee.Sched.Frames
open Eevee.Sched.Nets
open Eevee.Sched.Regions
open Eevee.Sched.Scheduler
open Eevee.Sched.Simulation
open Eevee.Sched.Wakeup

/-! ### Forks -/

/-- The process has returned `Finished`. -/
def Returned (s : Sim) (p : ProcId) : Prop := s.lastWait p = some .finished

instance (s : Sim) (p : ProcId) : Decidable (Returned s p) :=
  inferInstanceAs (Decidable (s.lastWait p = some .finished))

/-- A fork that a parent has made: its children got the process numbers from `first` on. -/
structure Fork where
  parent : ProcId
  first : Nat
  count : Nat
  join : ForkJoin

namespace Fork

/-- The children in the order in which they were spawned. -/
def ids (f : Fork) : List ProcId := (List.range f.count).map (f.first + ·)

/-- The parent may go on. -/
def Satisfied (f : Fork) (s : Sim) : Prop :=
  match f.join with
  | .none => True
  | .any => f.count = 0 ∨ ∃ c ∈ f.ids, Returned s c
  | .all => ∀ c ∈ f.ids, Returned s c

instance (f : Fork) (s : Sim) : Decidable (f.Satisfied s) := by
  unfold Satisfied
  cases f.join <;> infer_instance

/-- The watch of a fork whose parent still waits. -/
def watch (f : Fork) (s : Sim) : JoinWatch :=
  ⟨f.parent, f.ids.filter fun c => ¬ Returned s c, f.join = .any⟩

/-- The parent waits on its watch, and no other watch knows the children. -/
structure Open (f : Fork) (s : Sim) : Prop where
  unsatisfied : ¬ f.Satisfied s
  watch : f.watch s ∈ s.kernel.joinWatches
  own : ∀ w ∈ s.kernel.joinWatches, (∃ c ∈ f.ids, c ∈ w.remaining) → w = f.watch s

/-- The parent was released, and no watch knows the children any more. -/
structure Closed (f : Fork) (s : Sim) : Prop where
  satisfied : f.Satisfied s
  gone : ∀ w ∈ s.kernel.joinWatches, ∀ c ∈ f.ids, c ∉ w.remaining

/-- Until its next resume the parent waits on the watch or in the active queue. -/
def Waiting (f : Fork) (s : Sim) : Prop :=
  f.Open s ∨ f.Closed s ∧ f.parent ∈ s.kernel.active

theorem mem_ids {f : Fork} {c : Nat} : c ∈ f.ids ↔ f.first ≤ c ∧ c < f.first + f.count := by
  simp only [ids, List.mem_map, List.mem_range]
  constructor
  · rintro ⟨i, hi, rfl⟩
    omega
  · rintro ⟨hle, hlt⟩
    exact ⟨c - f.first, by omega, by omega⟩

theorem satisfied_congr {f : Fork} {s s' : Sim}
    (h : ∀ c ∈ f.ids, Returned s' c ↔ Returned s c) : f.Satisfied s' ↔ f.Satisfied s := by
  unfold Satisfied
  cases f.join with
  | none => exact Iff.rfl
  | any => exact or_congr_right (exists_congr fun c => and_congr_right fun hc => h c hc)
  | all => exact forall₂_congr h

theorem watch_congr {f : Fork} {s s' : Sim} (h : ∀ c ∈ f.ids, Returned s' c ↔ Returned s c) :
    f.watch s' = f.watch s := by
  have hids : (f.ids.filter fun c => decide (¬ Returned s' c)) =
      f.ids.filter fun c => decide (¬ Returned s c) :=
    List.filter_congr fun c hc => by simp [h c hc]
  simp only [watch, hids]

/-- Finished children stay finished, hence a satisfied fork satisfied. -/
theorem satisfied_mono {f : Fork} {s s' : Sim} (h : ∀ c, Returned s c → Returned s' c)
    (hf : f.Satisfied s) : f.Satisfied s' := by
  unfold Satisfied at *
  cases hj : f.join with
  | none => trivial
  | any =>
    rw [hj] at hf
    rcases hf with h0 | ⟨c, hc, hr⟩
    · exact .inl h0
    · exact .inr ⟨c, hc, h c hr⟩
  | all =>
    rw [hj] at hf
    exact fun c hc => h c (hf c hc)

/-- Joins that gained only watches of other children are as good as before. -/
theorem Waiting.frame {f : Fork} {s s' : Sim} (h : f.Waiting s)
    (hreturned : ∀ c ∈ f.ids, Returned s' c ↔ Returned s c) {new : List JoinWatch}
    (hjoins : s'.kernel.joinWatches = s.kernel.joinWatches ++ new)
    (hnew : ∀ w ∈ new, ∀ c ∈ f.ids, c ∉ w.remaining)
    (hactive : f.parent ∈ s.kernel.active → f.parent ∈ s'.kernel.active) : f.Waiting s' := by
  rcases h with h | ⟨h, hp⟩
  · refine .inl ⟨fun hs => h.unsatisfied ((satisfied_congr hreturned).mp hs), ?_, ?_⟩
    · rw [watch_congr hreturned, hjoins]
      exact List.mem_append_left _ h.watch
    · rw [watch_congr hreturned, hjoins]
      rintro w hw ⟨c, hc, hcw⟩
      rcases List.mem_append.mp hw with hw | hw
      · exact h.own w hw ⟨c, hc, hcw⟩
      · exact absurd hcw (hnew w hw c hc)
  · refine .inr ⟨⟨(satisfied_congr hreturned).mpr h.satisfied, fun w hw => ?_⟩, hactive hp⟩
    rw [hjoins] at hw
    rcases List.mem_append.mp hw with hw | hw
    · exact h.gone w hw
    · exact hnew w hw

end Fork

/-! ### A child finishes -/

/-- The watch without a finished child. -/
def without (pid : ProcId) (w : JoinWatch) : JoinWatch :=
  { w with remaining := w.remaining.filter (· ≠ pid) }

/-- The end of the child satisfies the watch. -/
def Meets (pid : ProcId) (w : JoinWatch) : Prop :=
  pid ∈ w.remaining ∧ (w.any = true ∨ (without pid w).remaining = [])

instance (pid : ProcId) (w : JoinWatch) : Decidable (Meets pid w) :=
  inferInstanceAs (Decidable (_ ∧ _))

theorem visitWatch_eq (pid : ProcId) (woken : List ProcId) (w : JoinWatch) :
    Kernel.visitWatch pid woken w =
      (woken ++ (if Meets pid w then [w.parent] else []),
        if Meets pid w then none else some (without pid w)) := by
  have hlength : (w.remaining.filter (· ≠ pid)).length < w.remaining.length ↔
      pid ∈ w.remaining := by
    rw [List.length_filter_lt_length_iff_exists]
    simp
  unfold Kernel.visitWatch
  dsimp only
  by_cases hm : Meets pid w
  · rw [if_pos ⟨hlength.mpr hm.1, hm.2⟩, if_pos hm, if_pos hm]
  · rw [if_neg (fun h => hm ⟨hlength.mp h.1, h.2⟩), if_neg hm, if_neg hm, List.append_nil]
    rfl

theorem mem_joinWatches_notifyFinished {k : Kernel} {pid : ProcId} {w' : JoinWatch} :
    w' ∈ (k.notifyFinished pid).joinWatches ↔
      ∃ w ∈ k.joinWatches, ¬ Meets pid w ∧ without pid w = w' := by
  have h := (scan_perm (visitWatch_eq pid) [] k.joinWatches).2
  unfold Kernel.notifyFinished
  dsimp only
  rw [h.mem_iff, List.mem_filterMap]
  simp

theorem mem_active_notifyFinished {k : Kernel} {pid p : ProcId} :
    p ∈ (k.notifyFinished pid).active ↔
      p ∈ k.active ∨ ∃ w ∈ k.joinWatches, Meets pid w ∧ w.parent = p := by
  have h := (scan_perm (visitWatch_eq pid) [] k.joinWatches).1
  unfold Kernel.notifyFinished
  dsimp only
  rw [List.mem_append, h.mem_iff, List.nil_append, List.mem_flatMap]
  apply or_congr_right
  apply exists_congr
  intro w
  apply and_congr_right
  intro _
  split_ifs with hm
  · simp [hm, eq_comm]
  · simp [hm]

/-- Nobody is woken by the end of a process that no watch knows. -/
theorem active_notifyFinished_of_unknown {k : Kernel} {pid : ProcId}
    (h : ∀ w ∈ k.joinWatches, pid ∉ w.remaining) :
    (k.notifyFinished pid).active = k.active := by
  have hperm := (scan_perm (visitWatch_eq pid) [] k.joinWatches).1
  have hnone : (k.joinWatches.flatMap fun w => if Meets pid w then [w.parent] else []) = [] := by
    rw [List.flatMap_eq_nil_iff]
    intro w hw
    exact if_neg fun hm => h w hw hm.1
  rw [hnone, List.nil_append] at hperm
  unfold Kernel.notifyFinished
  dsimp only
  rw [hperm.eq_nil, List.append_nil]

/-! ### Steps -/

theorem joinWatches_registerNets (k : Kernel) (pid : ProcId) (list : List (NetId × EdgeKind)) :
    (k.registerNets pid list).joinWatches = k.joinWatches := by
  obtain ⟨nets, hk⟩ := addWaiters_frame list pid k
  unfold Kernel.registerNets
  rw [hk]

theorem joinWatches_arm (k : Kernel) (pid : ProcId) (wait : Wait) :
    (k.arm pid wait).joinWatches = k.joinWatches := by
  obtain ⟨nets, netWaits, hk⟩ := clearNetWaiters_frame k pid
  unfold Kernel.arm
  rw [hk]
  cases wait with
  | edge n kind => exact joinWatches_registerNets _ pid _
  | sensitivity list => exact joinWatches_registerNets _ pid _
  | cond nets => exact joinWatches_registerNets _ pid _
  | _ => rfl

theorem active_arm_finished (k : Kernel) (pid : ProcId) :
    (k.arm pid .finished).active = k.active := by
  obtain ⟨nets, netWaits, hk⟩ := clearNetWaiters_frame k pid
  unfold Kernel.arm
  rw [hk]
  rfl

theorem mem_childIds {first count c : Nat} :
    c ∈ (List.range count).map (first + ·) ↔ first ≤ c ∧ c < first + count :=
  @Fork.mem_ids ⟨0, first, count, .none⟩ c

/-- What a step does to the joins: the end of a process visits every watch, a fork adds a watch of
new processes, and nothing else changes them. -/
inductive Joins (s s' : Sim) : Label → Prop
  | finished {pid : ProcId} {k : Kernel} (hcur : current s = some pid)
      (hj : k.joinWatches = s.kernel.joinWatches) (ha : k.active = s.kernel.active)
      (hk : s'.kernel = k.notifyFinished pid) : Joins s s' (.suspend .finished)
  | other {l : Label} (hl : l ≠ .suspend .finished) (new : List JoinWatch)
      (hj : s'.kernel.joinWatches = s.kernel.joinWatches ++ new)
      (hnew : ∀ w ∈ new, ∀ c ∈ w.remaining, s.procs.length ≤ c ∧ c < s'.procs.length) :
      Joins s s' l

theorem joins_step {l : Label} {s s' : Sim} (hs : step l s = some s') : Joins s s' l := by
  have same (hl : l ≠ .suspend .finished)
      (hj : s'.kernel.joinWatches = s.kernel.joinWatches) : Joins s s' l :=
    .other hl [] (by rw [hj, List.append_nil]) (by simp)
  have writing (hl : Writing l) (hne : l ≠ .suspend .finished) : Joins s s' l := by
    obtain ⟨ws, hws, -⟩ := performs_step hs hl
    exact same hne hws.frame.1
  cases stepped_of_step hs with
  | call hm hv => exact writing trivial (by simp)
  | drainNba hm ha hi hp hn => exact writing trivial (by simp)
  | dispatch hm ht hd => exact writing trivial (by simp)
  | @suspend _ limit pid wait hm hn =>
    have hcur : current s = some pid := by simp [current, hm]
    cases wait with
    | finished =>
      exact .finished hcur (joinWatches_arm s.kernel pid .finished)
        (active_arm_finished s.kernel pid) rfl
    | fork children join =>
      by_cases hjoin : join = .none ∨ (List.range children).map (s.procs.length + ·) = []
      · refine same (by simp) ?_
        simp only [Sim.park, Sim.spawnFork, List.length_set, if_pos hjoin]
      · refine .other (by simp) [⟨pid, (List.range children).map (s.procs.length + ·),
          join = .any⟩] ?_ ?_
        · simp only [Sim.park, Sim.spawnFork, List.length_set, if_neg hjoin]
        · intro w hw c hc
          obtain rfl := List.mem_singleton.mp hw
          simpa [Sim.park, Sim.spawnFork] using mem_childIds.mp hc
    | _ => exact same (by simp) (joinWatches_arm s.kernel pid _)
  | _ => exact same (by simp) rfl

/-- Only its own resume takes a process out of the active queue. -/
theorem active_step {l : Label} {s s' : Sim} (hs : step l s = some s') {p : ProcId}
    (hp : p ∈ s.kernel.active) (hno : ¬ Resumes p s l) : p ∈ s'.kernel.active := by
  have writing (hl : Writing l) : p ∈ s'.kernel.active := by
    obtain ⟨ws, hws, -⟩ := performs_step hs hl
    obtain ⟨-, woken, hw⟩ := hws.frame
    exact hw ▸ List.mem_append_left _ hp
  cases stepped_of_step hs with
  | call hm hv => exact writing trivial
  | drainNba hm ha hi hp hn => exact writing trivial
  | dispatch hm ht hd => exact writing trivial
  | addProcess hm => exact List.mem_append_left _ hp
  | promote hm ha hi => exact List.mem_append_left _ hp
  | @resume _ limit pid rest hm ha =>
    rw [ha] at hp
    rcases List.mem_cons.mp hp with rfl | hp
    · exact absurd ⟨rfl, by rw [ha]; rfl⟩ hno
    · exact hp
  | @suspend _ limit pid wait hm hn =>
    have grows {k : Kernel} (hw : Wakes s.kernel k) : p ∈ k.active := by
      obtain ⟨woken, hw⟩ := hw.active
      exact hw ▸ List.mem_append_left _ hp
    rcases kernel_park s pid wait with hw | ⟨fs, k, rfl, hw, hk⟩
    · exact grows hw
    · have hpark : (s.park pid (.delay fs)).kernel.active = k.active := by
        rw [hk]
        rfl
      exact hpark ▸ grows hw
  | _ => exact hp

theorem length_procs_step {l : Label} {s s' : Sim} (hs : step l s = some s') :
    s.procs.length ≤ s'.procs.length := by
  cases stepped_of_step hs with
  | addProcess hm => simp [Sim.addProcess]
  | resume hm ha => simp
  | @suspend _ limit pid wait hm hn =>
    obtain ⟨children, hprocs⟩ := procs_park s pid wait
    simp [hprocs]
  | _ => exact Nat.le_refl _

/-- A process returns `Finished` by suspending so. -/
theorem returned_step {l : Label} {s s' : Sim} (h : Held s) (hs : step l s = some s')
    (c : ProcId) : Returned s' c ↔
      Returned s c ∨ l = .suspend .finished ∧ current s = some c := by
  have same (hl : l ≠ .suspend .finished) (hlast : s'.lastWait c = s.lastWait c) :
      Returned s' c ↔ Returned s c ∨ l = .suspend .finished ∧ current s = some c := by
    simp [Returned, hlast, hl]
  cases stepped_of_step hs with
  | addProcess hm => exact same (by simp) (getD_append_none s.procs 1 c)
  | @resume _ limit pid rest hm ha =>
    obtain ⟨hpid, -⟩ := h.active_head ha
    have hlast := getD_set_proc hpid.1 none c
    by_cases hc : c = pid
    · subst hc
      have hnot : ¬ Returned s c := hpid.2.1
      have hnone := hlast.trans (if_pos rfl)
      have hnot' : ¬ Returned ⟨{ s.kernel with active := rest }, s.procs.set c none,
          .resuming limit c⟩ c := fun hret => by
        rw [Returned, Sim.lastWait, hnone] at hret
        cases hret
      simp [hnot, hnot']
    · exact same (by simp) (hlast.trans (if_neg hc))
  | @suspend _ limit pid wait hm hn =>
    have hcur : current s = some pid := by simp [current, hm]
    have hlast := lastWait_suspend h hcur wait c
      (if (s.park pid wait).kernel.stop then .idle else .running limit)
    by_cases hc : c = pid
    · subst hc
      have hnot : ¬ Returned s c := by
        simp [Returned, (h.running c hcur).2]
      simp [Returned, hlast, hcur] at hnot ⊢
      simp [hnot]
    · simp [Returned, hlast, hc, hcur, Ne.symm hc]
  | _ => exact same (by simp) rfl

/-- The watches know existing processes only. -/
def Known (s : Sim) : Prop := ∀ w ∈ s.kernel.joinWatches, ∀ c ∈ w.remaining, c < s.procs.length

theorem known_step {l : Label} {s s' : Sim} (h : Known s) (hs : step l s = some s') :
    Known s' := by
  have hlen := length_procs_step hs
  intro w hw c hc
  cases joins_step hs with
  | finished hcur hj ha hk =>
    rw [hk, mem_joinWatches_notifyFinished, hj] at hw
    obtain ⟨w, hw, -, rfl⟩ := hw
    exact Nat.lt_of_lt_of_le (h w hw c (List.mem_of_mem_filter hc)) hlen
  | other hl new hj hnew =>
    rw [hj] at hw
    rcases List.mem_append.mp hw with hw | hw
    · exact Nat.lt_of_lt_of_le (h w hw c hc) hlen
    · exact (hnew w hw c hc).2

theorem known_run {labels : List Label} {s : Sim} (hr : Runs labels s) : Known s :=
  run_invariant Known hr (by simp [Known, Sim.new, Kernel.new]) fun _ _ _ => known_step

/-! ### One fork -/

namespace Fork

/-- The children exist. -/
def Spawned (f : Fork) (s : Sim) : Prop := ∀ c ∈ f.ids, c < s.procs.length

/-- The end of a child takes it off its watch. -/
theorem watch_returned {f : Fork} {s s' : Sim} {pid : ProcId}
    (hreturned : ∀ c, Returned s' c ↔ Returned s c ∨ c = pid) :
    f.watch s' = without pid (f.watch s) := by
  have hids : (f.ids.filter fun c => decide (¬ Returned s' c)) =
      (f.ids.filter fun c => decide (¬ Returned s c)).filter (· ≠ pid) := by
    rw [List.filter_filter]
    apply List.filter_congr
    intro c _
    simp [hreturned, and_comm]
  simp only [watch, without, hids]

/-- The last needed child is the one whose end meets the watch. -/
theorem meets_watch {f : Fork} {s s' : Sim} {pid : ProcId}
    (hreturned : ∀ c, Returned s' c ↔ Returned s c ∨ c = pid) (hpid : ¬ Returned s pid)
    (hopen : ¬ f.Satisfied s) : Meets pid (f.watch s) ↔ f.Satisfied s' := by
  have hmem : pid ∈ (f.watch s).remaining ↔ pid ∈ f.ids := by
    simp [watch, hpid]
  have hempty : (without pid (f.watch s)).remaining = [] ↔ ∀ c ∈ f.ids, Returned s' c := by
    rw [← watch_returned hreturned]
    simp [watch, List.filter_eq_nil_iff]
  have hany : (f.watch s).any = true ↔ f.join = .any := by simp [watch]
  unfold Meets
  rw [hmem, hempty, hany]
  unfold Satisfied at hopen ⊢
  cases hj : f.join with
  | none => simp [hj] at hopen
  | any =>
    rw [hj] at hopen
    simp only [not_or, not_exists, not_and] at hopen
    simp only [true_or, and_true]
    constructor
    · intro hc
      exact .inr ⟨pid, hc, (hreturned pid).mpr (.inr rfl)⟩
    · rintro (h0 | ⟨c, hc, hret⟩)
      · exact absurd h0 hopen.1
      · rcases (hreturned c).mp hret with hret | rfl
        · exact absurd hret (hopen.2 c hc)
        · exact hc
  | all =>
    rw [hj] at hopen
    simp only [reduceCtorEq, false_or, and_iff_right_iff_imp]
    intro hall
    by_contra hc
    -- without a child among those that just ended, all had ended before
    refine hopen fun c hcm => ((hreturned c).mp (hall c hcm)).resolve_right ?_
    rintro rfl
    exact hc hcm

/-- The end of a process leaves the parent waiting, on its watch or, released, in the queue. -/
theorem waiting_finished {f : Fork} {s s' : Sim} {pid : ProcId} {k : Kernel} (h : f.Waiting s)
    (hpid : ¬ Returned s pid) (hreturned : ∀ c, Returned s' c ↔ Returned s c ∨ c = pid)
    (hj : k.joinWatches = s.kernel.joinWatches) (ha : k.active = s.kernel.active)
    (hk : s'.kernel = k.notifyFinished pid) : f.Waiting s' := by
  have hjoins (w' : JoinWatch) : w' ∈ s'.kernel.joinWatches ↔
      ∃ w ∈ s.kernel.joinWatches, ¬ Meets pid w ∧ without pid w = w' := by
    rw [hk, mem_joinWatches_notifyFinished, hj]
  have hactive (p : ProcId) : p ∈ s'.kernel.active ↔ p ∈ s.kernel.active ∨
      ∃ w ∈ s.kernel.joinWatches, Meets pid w ∧ w.parent = p := by
    rw [hk, mem_active_notifyFinished, hj, ha]
  rcases h with h | ⟨h, hp⟩
  · have hmeets := meets_watch hreturned hpid h.unsatisfied
    have hown (w : JoinWatch) (hw : w ∈ s.kernel.joinWatches) {c : ProcId} (hc : c ∈ f.ids)
        (hcw : c ∈ (without pid w).remaining) : w = f.watch s :=
      h.own w hw ⟨c, hc, List.mem_of_mem_filter hcw⟩
    by_cases hsat : f.Satisfied s'
    · refine .inr ⟨⟨hsat, fun w' hw' c hc hcw => ?_⟩, ?_⟩
      · obtain ⟨w, hw, hno, rfl⟩ := (hjoins w').mp hw'
        exact hno (hown w hw hc hcw ▸ hmeets.mpr hsat)
      · exact (hactive f.parent).mpr (.inr ⟨f.watch s, h.watch, hmeets.mpr hsat, rfl⟩)
    · refine .inl ⟨hsat, ?_, ?_⟩
      · rw [watch_returned hreturned]
        exact (hjoins _).mpr ⟨f.watch s, h.watch, fun hm => hsat (hmeets.mp hm), rfl⟩
      · rintro w' hw' ⟨c, hc, hcw⟩
        obtain ⟨w, hw, -, rfl⟩ := (hjoins w').mp hw'
        rw [watch_returned hreturned, hown w hw hc hcw]
  · refine .inr ⟨⟨satisfied_mono (fun c hc => (hreturned c).mpr (.inl hc)) h.satisfied,
      fun w' hw' c hc hcw => ?_⟩, (hactive f.parent).mpr (.inl hp)⟩
    obtain ⟨w, hw, -, rfl⟩ := (hjoins w').mp hw'
    exact h.gone w hw c hc (List.mem_of_mem_filter hcw)

theorem not_returned_of_current {s : Sim} (h : Held s) {pid : ProcId}
    (hcur : current s = some pid) : ¬ Returned s pid := by
  rw [Returned, (h.running pid hcur).2]
  exact Option.some_ne_none _ ∘ Eq.symm

/-- Any step but its resume leaves the parent waiting. -/
theorem waiting_step {f : Fork} {l : Label} {s s' : Sim} (h : Held s) (hf : f.Spawned s)
    (hw : f.Waiting s) (hno : ¬ Resumes f.parent s l) (hs : step l s = some s') :
    f.Waiting s' := by
  have hreturned := returned_step h hs
  cases joins_step hs with
  | @finished pid k hcur hj ha hk =>
    refine waiting_finished hw (not_returned_of_current h hcur) (fun c => ?_) hj ha hk
    rw [hreturned, hcur]
    simp [eq_comm]
  | other hl new hj hnew =>
    refine hw.frame (fun c _ => ?_) hj (fun w hmem c hc hcw => ?_) fun hp => active_step hs hp hno
    · simp [hreturned, hl]
    · exact absurd (hf c hc) (Nat.not_lt.mpr (hnew w hmem c hcw).1)

/-- Once released, the fork stays closed. -/
theorem closed_step {f : Fork} {l : Label} {s s' : Sim} (h : Held s) (hf : f.Spawned s)
    (hc : f.Closed s) (hs : step l s = some s') : f.Closed s' := by
  have hreturned := returned_step h hs
  refine ⟨satisfied_mono (fun c hr => (hreturned c).mpr (.inl hr)) hc.satisfied,
    fun w hw c hcm hcw => ?_⟩
  cases joins_step hs with
  | finished hcur hj ha hk =>
    rw [hk, mem_joinWatches_notifyFinished, hj] at hw
    obtain ⟨w, hw, -, rfl⟩ := hw
    exact hc.gone w hw c hcm (List.mem_of_mem_filter hcw)
  | other hl new hj hnew =>
    rw [hj] at hw
    rcases List.mem_append.mp hw with hw | hw
    · exact hc.gone w hw c hcm hcw
    · exact absurd (hf c hcm) (Nat.not_lt.mpr (hnew w hw c hcw).1)

theorem spawned_step {f : Fork} {l : Label} {s s' : Sim} (hf : f.Spawned s)
    (hs : step l s = some s') : f.Spawned s' :=
  fun c hc => Nat.lt_of_lt_of_le (hf c hc) (length_procs_step hs)

/-- The fork that a suspending process makes. -/
def made (s : Sim) (parent : ProcId) (count : Nat) (join : ForkJoin) : Fork :=
  ⟨parent, s.procs.length, count, join⟩

/-- Forking spawns the children, queues each and leaves the parent waiting. -/
theorem start {s s' : Sim} (h : Held s) (hk : Known s) {parent : ProcId}
    (hcur : current s = some parent) {count : Nat} {join : ForkJoin}
    (hs : step (.suspend (.fork count join)) s = some s') :
    (made s parent count join).Spawned s' ∧ (made s parent count join).Waiting s' ∧
      ∀ c ∈ (made s parent count join).ids, c ∈ s'.kernel.active := by
  have hreturned := returned_step h hs
  have hfresh : ∀ c ∈ (made s parent count join).ids, ¬ Returned s' c := by
    intro c hc hret
    have hle : s.procs.length ≤ c := (mem_ids.mp hc).1
    have hnone : s.lastWait c = none := by
      simp [Sim.lastWait, List.getD_eq_getElem?_getD, List.getElem?_eq_none hle]
    rw [hreturned c, Returned, hnone] at hret
    simp at hret
  have hids : (made s parent count join).ids =
      (List.range count).map (s.procs.length + ·) := rfl
  have hempty : (made s parent count join).ids = [] ↔ count = 0 := by simp [hids]
  cases stepped_of_step hs with
  | @suspend _ limit pid wait hm hn =>
    obtain rfl : pid = parent := by simpa [current, hm] using hcur
    have hkernel : (s.park pid (.fork count join)).kernel =
        if join = .none ∨ (made s pid count join).ids = [] then
          { s.kernel with active :=
              s.kernel.active ++ (made s pid count join).ids ++ [pid] }
        else { s.kernel with
          active := s.kernel.active ++ (made s pid count join).ids
          joinWatches := s.kernel.joinWatches ++
            [⟨pid, (made s pid count join).ids, join = .any⟩] } := by
      simp only [Sim.park, Sim.spawnFork, List.length_set, hids]
    have hgone : ∀ w ∈ s.kernel.joinWatches, ∀ c ∈ (made s pid count join).ids,
        c ∉ w.remaining := by
      intro w hw c hc hcw
      exact absurd (hk w hw c hcw) (Nat.not_lt.mpr (mem_ids.mp hc).1)
    refine ⟨fun c hc => ?_, ?_, fun c hc => ?_⟩
    · have hlt : c < s.procs.length + count := (mem_ids.mp hc).2
      simpa [Sim.park, Sim.spawnFork] using hlt
    · by_cases hjoin : join = .none ∨ (made s pid count join).ids = []
      · rw [if_pos hjoin] at hkernel
        refine .inr ⟨⟨?_, ?_⟩, ?_⟩
        · unfold Satisfied
          rcases hjoin with rfl | hnil
          · trivial
          · cases join with
            | none => trivial
            | any => exact .inl (hempty.mp hnil)
            | all =>
              show ∀ c ∈ (made s pid count .all).ids, _
              simp [hnil]
        · dsimp only
          rw [hkernel]
          exact hgone
        · dsimp only
          rw [hkernel]
          exact List.mem_append_right _ (List.mem_singleton.mpr rfl)
      · rw [if_neg hjoin] at hkernel
        simp only [not_or] at hjoin
        have hne : count ≠ 0 := fun h0 => hjoin.2 (hempty.mpr h0)
        have hwatch : (made s pid count join).watch { s.park pid (.fork count join) with
            mode := if (s.park pid (.fork count join)).kernel.stop then .idle else
              .running limit } = ⟨pid, (made s pid count join).ids, join = .any⟩ := by
          have hall : ((made s pid count join).ids.filter fun c => decide (¬ Returned
              { s.park pid (.fork count join) with
                mode := if (s.park pid (.fork count join)).kernel.stop then .idle else
                  .running limit } c)) = (made s pid count join).ids :=
            List.filter_eq_self.mpr fun c hc => by simp [hfresh c hc]
          unfold watch
          rw [hall]
          rfl
        refine .inl ⟨?_, ?_, ?_⟩
        · unfold Satisfied
          cases join with
          | none => exact absurd rfl hjoin.1
          | any =>
            rintro (h0 | ⟨c, hc, hret⟩)
            · exact hne h0
            · exact hfresh c hc hret
          | all =>
            intro hall
            have hmem : s.procs.length ∈ (made s pid count .all).ids :=
              mem_ids.mpr ⟨Nat.le_refl _, Nat.lt_add_of_pos_right (Nat.pos_of_ne_zero hne)⟩
            exact hfresh _ hmem (hall _ hmem)
        · rw [hwatch]
          dsimp only
          rw [hkernel]
          exact List.mem_append_right _ (List.mem_singleton.mpr rfl)
        · rw [hwatch]
          dsimp only
          rw [hkernel]
          rintro w hw ⟨c, hc, hcw⟩
          rcases List.mem_append.mp hw with hw | hw
          · exact absurd hcw (hgone w hw c hc)
          · exact List.mem_singleton.mp hw
    · dsimp only
      rw [hkernel]
      split_ifs
      · exact List.mem_append_left _ (List.mem_append_right _ hc)
      · exact List.mem_append_right _ hc

/-- The parent is in the queue just when the fork is satisfied, and then once. -/
theorem count_of_waiting {f : Fork} {s : Sim} (h : Held s) (hw : f.Waiting s) :
    s.kernel.active.count f.parent = if f.Satisfied s then 1 else 0 := by
  have hone : sources s.kernel f.parent ≤ 1 := by
    rw [h.sources]
    split_ifs <;> omega
  simp only [sources] at hone
  rcases hw with hw | ⟨hw, hp⟩
  · have hwatch : 0 < s.kernel.joinWatches.countP (·.parent == f.parent) :=
      List.countP_pos_iff.mpr ⟨f.watch s, hw.watch, by simp [watch]⟩
    rw [if_neg hw.unsatisfied]
    omega
  · have hpos := List.count_pos_iff.mpr hp
    rw [if_pos hw.satisfied]
    omega

/-- A parent that is about to be resumed was released. -/
theorem closed_of_resumes {f : Fork} {s : Sim} (h : Held s) (hw : f.Waiting s) {l : Label}
    (hres : Resumes f.parent s l) : f.Closed s := by
  have hmem : f.parent ∈ s.kernel.active := List.mem_of_mem_head? hres.2
  rcases hw with hw | hw
  · have hcount := count_of_waiting h (.inl hw)
    rw [if_neg hw.unsatisfied, List.count_eq_zero] at hcount
    exact absurd hmem hcount
  · exact hw.1

/-- From its making on a fork is known to the joins or closed. -/
structure Kept (f : Fork) (s : Sim) : Prop where
  spawned : f.Spawned s
  phase : f.Waiting s ∨ f.Closed s

theorem kept_step {f : Fork} {l : Label} {s s' : Sim} (h : Held s) (hf : f.Kept s)
    (hs : step l s = some s') : f.Kept s' := by
  refine ⟨spawned_step hf.spawned hs, ?_⟩
  rcases hf.phase with hw | hc
  · by_cases hres : Resumes f.parent s l
    · exact .inr (closed_step h hf.spawned (closed_of_resumes h hw hres) hs)
    · exact .inl (waiting_step h hf.spawned hw hres hs)
  · exact .inr (closed_step h hf.spawned hc hs)

theorem nodup_ids (f : Fork) : f.ids.Nodup := by
  refine List.Nodup.map ?_ List.nodup_range
  intro i j hij
  exact Nat.add_left_cancel hij

theorem length_ids (f : Fork) : f.ids.length = f.count := by
  simp [ids]

end Fork

/-- After a fork, whatever the processes do: until its next resume the parent is queued, once,
just when the join is satisfied; it is resumed only after that; from then on the end of a child
wakes nobody; the children are new processes, queued once until they are started, and each
further resume of a child has a suspension of its own. -/
theorem fork_join {labels : List Label} {s : Sim} (hr : Runs labels s)
    {h₁ h₂ : List (Sim × Label)} {t : Sim} {p : ProcId} {count : Nat} {join : ForkJoin}
    (hs : steps step Sim.new labels = h₁ ++ (t, .suspend (.fork count join)) :: h₂)
    (hp : current t = some p) :
    let f := Fork.made t p count join
    ((∀ x ∈ h₂, ¬ Resumes p x.1 x.2) →
      s.kernel.active.count p = if f.Satisfied s then 1 else 0) ∧
    (∀ h₃ r l h₄, h₂ = h₃ ++ (r, l) :: h₄ → Resumes p r l → f.Satisfied r) ∧
    ((∃ x ∈ h₂, Resumes p x.1 x.2) → ∀ c ∈ f.ids, current s = some c → ∀ s',
      step (.suspend .finished) s = some s' → s'.kernel.active = s.kernel.active) ∧
    f.ids.Nodup ∧ f.ids.length = count ∧
    ∀ c ∈ f.ids, t.procs.length ≤ c ∧ c < s.procs.length ∧
      ((∀ x ∈ h₂, ¬ Resumes c x.1 x.2) → s.kernel.active.count c = 1) ∧
      (trace step (resumesOf c) Sim.new labels).length ≤
        (trace step (armsOf c) Sim.new labels).length + 1 := by
  intro f
  have hI {ls : List Label} {u : Sim} (hu : Runs ls u) : Held u ∧ Known u :=
    ⟨held_run hu, known_run hu⟩
  have hstart (t' : Sim) (ht : Held t ∧ Known t)
      (ht' : step (.suspend (.fork count join)) t = some t') := Fork.start ht.1 ht.2 hp ht'
  have hkept : ∀ u k u', Held u ∧ Known u → f.Kept u → ¬ False → step k u = some u' →
      f.Kept u' := fun u k u' hu hf _ hstep => Fork.kept_step hu.1 hf hstep
  have kept_at {h₃ h₄ : List (Sim × Label)} {r : Sim} {l : Label}
      (hsplit : h₂ = h₃ ++ (r, l) :: h₄) : Held r ∧ f.Kept r := by
    have hs' : steps step Sim.new labels =
        h₁ ++ (t, .suspend (.fork count join)) :: h₃ ++ (r, l) :: h₄ := by
      rw [hs, hsplit]
      simp
    obtain ⟨ls, -, -, hrun, -⟩ := steps_split hs'
    refine ⟨held_run hrun, run_between hs' hI (fun t' ht ht' => ?_) hkept fun _ _ => id⟩
    obtain ⟨hsp, hw, -⟩ := hstart t' ht ht'
    exact ⟨hsp, .inl hw⟩
  have satisfied_at {h₃ h₄ : List (Sim × Label)} {r : Sim} {l : Label}
      (hsplit : h₂ = h₃ ++ (r, l) :: h₄) (hres : Resumes p r l) : f.Closed r := by
    obtain ⟨hheld, hf⟩ := kept_at hsplit
    exact hf.phase.elim (fun hw => Fork.closed_of_resumes hheld hw hres) id
  have hend : f.Kept s := run_since hr hs hI (fun t' ht ht' => by
    obtain ⟨hsp, hw, -⟩ := hstart t' ht ht'
    exact ⟨hsp, .inl hw⟩) hkept fun _ _ => id
  refine ⟨fun hno => ?_, fun h₃ r l h₄ hsplit hres => (satisfied_at hsplit hres).satisfied,
    ?_, f.nodup_ids, f.length_ids, fun c hc => ?_⟩
  · have hw := run_since hr hs hI (Q := fun u => f.Spawned u ∧ f.Waiting u)
      (fun t' ht ht' => by
        obtain ⟨hsp, hw, -⟩ := hstart t' ht ht'
        exact ⟨hsp, hw⟩)
      (fun u k u' hu hQ hk hstep =>
        ⟨Fork.spawned_step hQ.1 hstep, Fork.waiting_step hu.1 hQ.1 hQ.2 hk hstep⟩) hno
    exact Fork.count_of_waiting (held_run hr) hw.2
  · rintro ⟨⟨r, l⟩, hx, hres⟩ c hc hcur s' hstep
    obtain ⟨h₃, h₄, hsplit⟩ := List.append_of_mem hx
    have hs' : steps step Sim.new labels =
        (h₁ ++ (t, .suspend (.fork count join)) :: h₃) ++ (r, l) :: h₄ := by
      rw [hs, hsplit]
      simp
    have hclosed := @run_since _ _ _ _ (fun u => f.Spawned u ∧ f.Closed u) (fun _ _ => False)
      _ _ _ _ _ _ _ hr hs' hI
      (fun r' hr' hr'' => by
        have hsp := (kept_at hsplit).2.spawned
        exact ⟨Fork.spawned_step hsp hr'',
          Fork.closed_step hr'.1 hsp (satisfied_at hsplit hres) hr''⟩)
      (fun u k u' hu hQ _ hstep =>
        ⟨Fork.spawned_step hQ.1 hstep, Fork.closed_step hu.1 hQ.1 hQ.2 hstep⟩)
      fun _ _ => id
    cases joins_step hstep with
    | @finished pid k hcur' hj ha hk =>
      obtain rfl := Option.some.inj (hcur.symm.trans hcur')
      rw [hk, active_notifyFinished_of_unknown fun w hw => hclosed.2.gone w (hj ▸ hw) c hc, ha]
    | other hl => exact absurd rfl hl
  · refine ⟨(Fork.mem_ids.mp hc).1, hend.spawned c hc, fun hno => ?_, ?_⟩
    · have hmem := run_since hr hs hI (Q := fun u => c ∈ u.kernel.active)
        (fun t' ht ht' => (hstart t' ht ht').2.2 c hc)
        (fun u k u' hu hQ hk hstep => active_step hstep hQ hk) hno
      have hone := (held_run hr).sources c
      have hpos := List.count_pos_iff.mpr hmem
      simp only [sources] at hone
      split_ifs at hone <;> omega
    · have hb := balance_run hr c
      split_ifs at hb <;> omega

/-- A process forks two children of which one is enough; both end in the same drain. -/
def forkRun : List Label :=
  [.addProcess, .runUntil none, .resume, .suspend (.fork 2 .any), .resume, .suspend .finished,
    .resume, .suspend .finished]

theorem fork_join_any : ∃ s h₁ t h₂, Runs forkRun s ∧
    steps step Sim.new forkRun = h₁ ++ (t, .suspend (.fork 2 .any)) :: h₂ ∧
    s.kernel.active.count 0 = 1 := by
  have hr : Runs forkRun ((run step Sim.new forkRun).get rfl) := rfl
  let t := (run step Sim.new (forkRun.take 3)).get rfl
  have hsplit : steps step Sim.new forkRun = steps step Sim.new (forkRun.take 3) ++
      (t, .suspend (.fork 2 .any)) :: (steps step Sim.new forkRun).drop 4 := rfl
  have hno : ∀ x ∈ (steps step Sim.new forkRun).drop 4, ¬ Resumes 0 x.1 x.2 := by
    decide
  have hcount := (fork_join hr hsplit rfl).1 hno
  exact ⟨_, _, t, _, hr, hsplit, hcount.trans (if_pos (by decide))⟩

end Eevee.Sched.ForkJoin
