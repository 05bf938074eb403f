/- Zero delays and nonblocking updates of one time slot: when the regions keep their order. -/

import Mathlib.Data.List.Basic
import Mathlib.Tactic.Common
import Mathlib.Tactic.SplitIfs
import Eevee.Sched.Wakeup
import Eevee.Sched.Wheel

set_option autoImplicit false
set_option relaxedAutoImplicit false

namespace Eevee.Sched.Regions

open Eevee.Core.Logic
open Eevee.Lib.Transition
open Eevee.Sched.Frames
open Eevee.Sched.Nets
open Eevee.Sched.Scheduler
open Eevee.Sched.Simulation
open Eevee.Sched.Wakeup
open Eevee.Sched.Wheel

/-- The event resumes, in the current time slot, a process that suspended with a zero delay. -/
def zeroDelayed (s : Sim) (ev : TimedEvent) : Bool :=
  match ev.action with
  | .resume p => ev.time = s.kernel.time ∧ s.lastWait p = some (.delay 0)
  | _ => false

/-- The step does not make a zero delay and a nonblocking update of one slot wait together. -/
def SlotKept (s : Sim) : Label → Prop
  | .suspend (.delay 0) => s.kernel.nba = []
  | .call (.scheduleNba _ _) => ∀ ev ∈ s.kernel.timed, zeroDelayed s ev = false
  | _ => True

def Resumes (p : ProcId) (s : Sim) (l : Label) : Prop :=
  l = .resume ∧ s.kernel.active.head? = some p

instance (p : ProcId) (s : Sim) (l : Label) : Decidable (Resumes p s l) :=
  match l with
  | .resume => decidable_of_iff (s.kernel.active.head? = some p) ⟨fun h => ⟨rfl, h⟩, And.right⟩
  | .call _ | .addProcess | .runUntil _ | .suspend _ | .promote | .drainNba | .advance
  | .dispatch | .settle => .isFalse (by simp [Resumes])

/-- The process will be resumed by an event at `t` or is already runnable. -/
def Queued (k : Kernel) (t : SimTime) (p : ProcId) : Prop :=
  (∃ ev ∈ k.timed, ev.action = .resume p ∧ ev.time = t) ∨ p ∈ k.active ∨ p ∈ k.inactive

/-! ### Calls -/

/-- No process leaves its queue and no resume is scheduled. -/
structure Extends (k k' : Kernel) : Prop where
  time : k'.time = k.time
  nba : k'.nba = k.nba
  inactive : k'.inactive = k.inactive
  active : k.active ⊆ k'.active
  resumes : ∀ ev p, ev.action = .resume p → (ev ∈ k'.timed ↔ ev ∈ k.timed)

theorem Extends.refl (k : Kernel) : Extends k k :=
  ⟨rfl, rfl, rfl, fun _ h => h, fun _ _ _ => Iff.rfl⟩

theorem Extends.trans {k₁ k₂ k₃ : Kernel} (h : Extends k₁ k₂) (h' : Extends k₂ k₃) :
    Extends k₁ k₃ :=
  ⟨h'.time.trans h.time, h'.nba.trans h.nba, h'.inactive.trans h.inactive,
    fun _ hp => h'.active (h.active hp),
    fun ev p ha => (h'.resumes ev p ha).trans (h.resumes ev p ha)⟩

theorem Extends.of_wakes {k k' : Kernel} (h : Wakes k k') : Extends k k' := by
  obtain ⟨woken, hw⟩ := h.active
  exact ⟨h.time, h.nba, h.inactive, fun p hp => hw ▸ List.mem_append_left _ hp,
    fun ev p _ => by rw [h.timed]⟩

theorem extends_writeNet (k : Kernel) (n : NetId) (v : PackedVec) :
    Extends k (k.writeNet n v) := by
  have hset : Extends k (k.setValue n v) := ⟨rfl, rfl, rfl, fun _ h => h, fun _ _ _ => Iff.rfl⟩
  exact hset.trans (.of_wakes (wakes_writeNet k n v))

theorem extends_touch {d : DriverId} {n : NetId} {k k' : Kernel} (h : Touch d n k k') :
    Extends k k' := by
  have pushed {delayFs : Nat} {action : TimedAction} (ha : ∀ p, action ≠ .resume p) :
      Extends k (k.pushTimedAction (saturatingAddFs k.time delayFs) .active action) := by
    refine ⟨rfl, rfl, rfl, fun _ h => h, fun ev p hp => ?_⟩
    rw [mem_pushTimedAction]
    refine or_iff_right ?_
    rintro rfl
    exact ha p hp
  cases h with
  | net h => cases h with
    | writeNet v hv => exact extends_writeNet k n v
    | setDelayRequest v generations hv hg =>
      exact ⟨rfl, rfl, rfl, fun _ h => h, fun _ _ _ => Iff.rfl⟩
    | push hpos ha =>
      apply pushed
      rintro p rfl
      exact ha
  | push hpos ha =>
    apply pushed
    rintro p rfl
    exact ha
  | _ => exact ⟨rfl, rfl, rfl, fun _ h => h, fun _ _ _ => Iff.rfl⟩

theorem extends_touches {d : DriverId} {n : NetId} {k k' : Kernel} (h : Touches d n k k') :
    Extends k k' := keeps_sequence Extends.refl Extends.trans extends_touch h

theorem extends_call (k : Kernel) {c : Call} (hc : ∀ n v, c ≠ .scheduleNba n v) :
    Extends k (c.exec k) := by
  cases c with
  | driveNet d v => exact extends_touches (touches_driveNet k d v)
  | scheduleDrive d v delayFs => exact extends_touches (touches_scheduleDrive k d v delayFs)
  | scheduleDriveTransitions d v delays =>
    exact extends_touches (touches_scheduleDriveTransitions k d v delays)
  | writeNet n v => exact extends_writeNet k n v
  | scheduleNba n v => exact absurd rfl (hc n v)
  | notifyRuntimeChange => exact .of_wakes (wakes_notifyRuntimeChange k)
  | triggerEvent event =>
    exact ⟨rfl, rfl, rfl, fun _ h => List.mem_append_left _ h, fun _ _ _ => Iff.rfl⟩
  | _ => exact ⟨rfl, rfl, rfl, fun _ h => h, fun _ _ _ => Iff.rfl⟩

theorem Queued.extends {k k' : Kernel} {t : SimTime} {p : ProcId} (h : Queued k t p)
    (hk : Extends k k') : Queued k' t p := by
  rcases h with ⟨ev, hev, ha, ht⟩ | h | h
  · exact .inl ⟨ev, (hk.resumes ev p ha).mpr hev, ha, ht⟩
  · exact .inr (.inl (hk.active h))
  · exact .inr (.inr (hk.inactive ▸ h))

/-! ### Steps -/

theorem lastWait_suspend {s : Sim} (h : Held s) {pid : ProcId} (hcur : current s = some pid)
    (wait : Wait) (p : ProcId) (mode : Mode) :
    Sim.lastWait { s.park pid wait with mode := mode } p =
      if p = pid then some wait else s.lastWait p := by
  obtain ⟨children, hprocs⟩ := procs_park s pid wait
  unfold Sim.lastWait
  dsimp only
  rw [hprocs, getD_append_none, getD_set_proc (h.running pid hcur).1]

/-- Popping an event leaves its process runnable and every other process queued. -/
theorem Queued.dispatch {k : Kernel} {t : SimTime} {p : ProcId} (h : Queued k t p)
    {ev : TimedEvent} {rest : List TimedEvent} (ht : k.timed = ev :: rest) :
    Queued ({ k with timed := rest }.dispatchEvent ev) t p := by
  have hpop : ev.action ≠ .resume p → Queued { k with timed := rest } t p := by
    intro ha
    rcases h with ⟨ev', hev, ha', ht'⟩ | h | h
    · rw [ht] at hev
      rcases List.mem_cons.mp hev with rfl | hev
      · exact absurd ha' ha
      · exact .inl ⟨ev', hev, ha', ht'⟩
    · exact .inr (.inl h)
    · exact .inr (.inr h)
  by_cases ha : ∃ q, ev.action = .resume q
  · obtain ⟨q, ha⟩ := ha
    unfold Kernel.dispatchEvent
    rw [ha] at hpop ⊢
    by_cases hq : q = p
    · subst hq
      dsimp only
      split
      · exact .inr (.inr (by simp))
      · exact .inr (.inl (by simp))
    · rcases hpop (by simpa using hq) with h | h | h
      · dsimp only
        split <;> exact .inl h
      · dsimp only
        split
        · exact .inr (.inl h)
        · exact .inr (.inl (List.mem_append_left _ h))
      · dsimp only
        split
        · exact .inr (.inr (List.mem_append_left _ h))
        · exact .inr (.inr h)
  · obtain ⟨d, n, htouch⟩ := touches_dispatchEvent fun q hq => ha ⟨q, hq⟩
    exact (hpop fun hp => ha ⟨p, hp⟩).extends (extends_touches htouch)

/-- Stale drives are dropped from the wheel, resumes are not. -/
theorem Queued.discard {k : Kernel} {t : SimTime} {p : ProcId} (h : Queued k t p) :
    Queued k.discardStaleTimedActions t p := by
  have hmem : ∀ timed : List TimedEvent, ∀ ev ∈ timed, ev.action = .resume p →
      ev ∈ timed.dropWhile fun ev => k.staleAction ev.action := by
    intro timed
    induction timed with
    | nil => simp
    | cons ev timed ih =>
      intro ev' hev' ha
      rw [List.dropWhile_cons]
      split_ifs with hs
      · rcases List.mem_cons.mp hev' with rfl | hev'
        · simp [ha, Kernel.staleAction] at hs
        · exact ih ev' hev' ha
      · exact hev'
  rcases h with ⟨ev, hev, ha, ht⟩ | h | h
  · exact .inl ⟨ev, hmem _ ev hev ha, ha, ht⟩
  · exact .inr (.inl h)
  · exact .inr (.inr h)

/-- The process suspended with a zero delay at `t` and has not been resumed since. -/
structure Pending (t : SimTime) (p : ProcId) (s : Sim) : Prop where
  idle : current s ≠ some p
  wait : s.lastWait p = some (.delay 0)
  queued : Queued s.kernel t p

theorem Pending.extends {t : SimTime} {p : ProcId} {s : Sim} (h : Pending t p s) {k' : Kernel}
    (hk : Queued s.kernel t p → Queued k' t p) {mode : Mode}
    (hm : current { s with mode := mode } = current s) :
    Pending t p { s with kernel := k', mode := mode } :=
  ⟨by
    have hcur : current ⟨k', s.procs, mode⟩ = current s := hm
    rw [hcur]
    exact h.idle, h.wait, hk h.queued⟩

theorem pending_start {s s' : Sim} {p : ProcId} (h : Held s) (ho : Ordered s.kernel)
    (hcur : current s = some p) (hs : step (.suspend (.delay 0)) s = some s') :
    Pending s.kernel.time p s' := by
  cases stepped_of_step hs with
  | @suspend _ limit pid _ hm hn =>
    obtain rfl : pid = p := by simpa [current, hm] using hcur
    refine ⟨?_, (lastWait_suspend h hcur _ _ _).trans (if_pos rfl), .inl ?_⟩
    · unfold current
      split_ifs <;> simp
    · have htime : saturatingAddFs ((s.kernel.clearNetWaiters pid).bumpEpoch pid).time 0 =
          s.kernel.time := by
        rw [(wakes_bumpEpoch s.kernel pid).time]
        exact Nat.min_eq_left ho.now
      exact ⟨_, mem_pushTimedAction.mpr (.inl rfl), rfl, htime⟩

theorem pending_step {l : Label} {t : SimTime} {p : ProcId} {s s' : Sim} (h : Held s)
    (hp : Pending t p s) (hl : ¬ Resumes p s l) (hs : step l s = some s') : Pending t p s' := by
  cases stepped_of_step hs with
  | @call _ c hm hv =>
    refine hp.extends (fun hq => ?_) rfl
    by_cases hc : ∃ n v, c = .scheduleNba n v
    · obtain ⟨n, v, rfl⟩ := hc
      exact hq
    · exact hq.extends (extends_call _ fun n v he => hc ⟨n, v, he⟩)
  | addProcess hm =>
    refine ⟨by simp [current, Sim.addProcess, hm], ?_, ?_⟩
    · exact (getD_append_none s.procs 1 p).trans hp.wait
    · rcases hp.queued with hq | hq | hq
      · exact .inl hq
      · exact .inr (.inl (List.mem_append_left _ hq))
      · exact .inr (.inr hq)
  | runUntil hm => exact hp.extends id (by simp [current, hm])
  | @resume _ limit pid rest hm ha =>
    have hne : pid ≠ p := fun he => hl ⟨rfl, by simp [ha, he]⟩
    obtain ⟨hpid, -⟩ := h.active_head ha
    refine ⟨by simpa [current] using hne, ?_, ?_⟩
    · exact (getD_set_proc hpid.1 none p).trans ((if_neg hne.symm).trans hp.wait)
    · rcases hp.queued with hq | hq | hq
      · exact .inl hq
      · rw [ha] at hq
        exact .inr (.inl ((List.mem_cons.mp hq).resolve_left hne.symm))
      · exact .inr (.inr hq)
  | @suspend _ limit pid wait hm hn =>
    have hcur : current s = some pid := by simp [current, hm]
    have hne : p ≠ pid := fun he => hp.idle (he ▸ hcur)
    refine ⟨?_, ?_, ?_⟩
    · unfold current
      split_ifs <;> simp
    · exact (lastWait_suspend h hcur _ _ _).trans ((if_neg hne).trans hp.wait)
    · dsimp only
      rcases kernel_park s pid wait with hw | ⟨fs, k, -, hw, hk⟩
      · exact hp.queued.extends (.of_wakes hw)
      · rw [hk]
        rcases hp.queued.extends (.of_wakes hw) with ⟨ev, hev, hq⟩ | hq | hq
        · exact .inl ⟨ev, mem_pushTimedAction.mpr (.inr hev), hq⟩
        · exact .inr (.inl hq)
        · exact .inr (.inr hq)
  | promote hm ha hi =>
    refine hp.extends (fun hq => ?_) rfl
    rcases hq with hq | hq | hq
    · exact .inl hq
    · exact .inr (.inl (List.mem_append_left _ hq))
    · exact .inr (.inl (List.mem_append_right _ hq))
  | drainNba hm ha hi hp' hn =>
    refine hp.extends (fun hq => ?_) rfl
    refine drainNba_keeps (R := fun k k' => Queued k t p → Queued k' t p) (fun _ h => h)
      (fun h h' hk => h' (h hk)) id (fun u _ k₁ h => h.extends (extends_writeNet k₁ u.1 u.2))
      (fun k₁ h => ?_) hq
    rcases h with h | h | h
    · exact .inl h
    · exact .inr (.inl (List.mem_append_left _ h))
    · exact .inr (.inr h)
  | done hm hq ht => exact hp.extends Queued.discard (by simp [current, hm])
  | limited hm hq ht hl' => exact ⟨by simp [current], hp.wait, hp.queued.discard⟩
  | advance hm hq ht hl' => exact ⟨by simp [current], hp.wait, hp.queued.discard⟩
  | dispatch hm ht hd => exact hp.extends (fun h => h.dispatch ht) rfl
  | settle hm hd => exact hp.extends id (by simp [current, hm])

/-! ### Pending nonblocking updates -/

/-- While nonblocking updates are pending, no zero delay of the slot is on the wheel. -/
def Separate (s : Sim) : Prop :=
  s.kernel.nba ≠ [] → ∀ ev ∈ s.kernel.timed, zeroDelayed s ev = false

theorem zeroDelayed_eq_false {s : Sim} {ev : TimedEvent} :
    zeroDelayed s ev = false ↔ ∀ p, ev.action = .resume p → ev.time = s.kernel.time →
      s.lastWait p ≠ some (.delay 0) := by
  unfold zeroDelayed
  cases ev.action with
  | resume q => simp
  | _ => simp

/-- A step that adds neither updates nor resumes, and no zero-delayed process. -/
theorem Separate.of_subset {s s' : Sim} (h : Separate s)
    (hnba : s'.kernel.nba ≠ [] → s.kernel.nba ≠ []) (htime : s'.kernel.time = s.kernel.time)
    (hmem : ∀ ev p, ev.action = .resume p → ev ∈ s'.kernel.timed → ev ∈ s.kernel.timed)
    (hwait : ∀ p, s'.lastWait p = some (.delay 0) → s.lastWait p = some (.delay 0)) :
    Separate s' := by
  intro hn ev hev
  rw [zeroDelayed_eq_false]
  intro p ha ht hw
  have hold := zeroDelayed_eq_false.mp (h (hnba hn) ev (hmem ev p ha hev)) p ha
  exact hold (ht.trans htime) (hwait p hw)

theorem separate_step {l : Label} {s s' : Sim} (hh : Held s) (h : Separate s)
    (hok : SlotKept s l) (hs : step l s = some s') : Separate s' := by
  cases stepped_of_step hs with
  | @call _ c hm hv =>
    by_cases hc : ∃ n v, c = .scheduleNba n v
    · obtain ⟨n, v, rfl⟩ := hc
      exact fun _ => hok
    · have hk := extends_call s.kernel fun n v he => hc ⟨n, v, he⟩
      exact h.of_subset (fun hn => hk.nba ▸ hn) hk.time
        (fun ev p ha hev => (hk.resumes ev p ha).mp hev) fun _ hw => hw
  | addProcess hm =>
    exact h.of_subset id rfl (fun _ _ _ hev => hev)
      fun p hw => (getD_append_none s.procs 1 p).symm.trans hw
  | @resume _ limit pid rest hm ha =>
    refine h.of_subset id rfl (fun _ _ _ hev => hev) fun p hw => ?_
    obtain ⟨hpid, -⟩ := hh.active_head ha
    have hw' := (getD_set_proc hpid.1 none p).symm.trans hw
    split_ifs at hw' with hp
    exact hw'
  | @suspend _ limit pid wait hm hn =>
    have hcur : current s = some pid := by simp [current, hm]
    intro hnba ev hev
    rw [zeroDelayed_eq_false]
    intro p ha ht hw
    rw [lastWait_suspend hh hcur] at hw
    have hpark := kernel_park s pid wait
    have hnba' : s.kernel.nba ≠ [] := by
      rcases hpark with hk | ⟨fs, k, -, hk, he⟩
      · exact hk.nba ▸ hnba
      · dsimp only at hnba
        rw [he] at hnba
        exact hk.nba ▸ hnba
    have hne : p ≠ pid := by
      rintro rfl
      rw [if_pos rfl] at hw
      obtain rfl := Option.some.inj hw
      exact hnba' hok
    rw [if_neg hne] at hw
    dsimp only at hev ht
    rcases hpark with hk | ⟨fs, k, -, hk, he⟩
    · rw [hk.timed] at hev
      exact zeroDelayed_eq_false.mp (h hnba' ev hev) p ha (ht.trans hk.time) hw
    · rw [he] at hev ht
      rcases mem_pushTimedAction.mp hev with rfl | hev
      · exact hne (TimedAction.resume.inj ha).symm
      · rw [hk.timed] at hev
        exact zeroDelayed_eq_false.mp (h hnba' ev hev) p ha (ht.trans hk.time) hw
  | drainNba hm ha hi hp hn => exact fun hn => absurd (nba_drainNba _) hn
  | done hm hq ht => exact fun hn => absurd hq.2.2.1 hn
  | limited hm hq ht hl => exact fun hn => absurd hq.2.2.1 hn
  | advance hm hq ht hl => exact fun hn => absurd hq.2.2.1 hn
  | @dispatch _ limit ev rest hm ht hd =>
    by_cases ha : ∃ q, ev.action = .resume q
    · obtain ⟨q, ha⟩ := ha
      have hrest : ∀ ev' p, ev'.action = TimedAction.resume p → ev' ∈ rest → ev' ∈ s.kernel.timed :=
        fun ev' p _ hev => ht ▸ List.mem_cons_of_mem _ hev
      unfold Kernel.dispatchEvent
      rw [ha]
      dsimp only
      split
      · exact h.of_subset id rfl hrest fun _ hw => hw
      · exact h.of_subset id rfl hrest fun _ hw => hw
    · obtain ⟨d, n, htouch⟩ := @touches_dispatchEvent { s.kernel with timed := rest } ev
        fun q hq => ha ⟨q, hq⟩
      have hk := extends_touches htouch
      refine h.of_subset (fun hn => hk.nba ▸ hn) hk.time (fun ev' p hp hev => ?_) fun _ hw => hw
      exact ht ▸ List.mem_cons_of_mem _ ((hk.resumes ev' p hp).mp hev)
  | _ => exact h.of_subset id rfl (fun _ _ _ hev => hev) fun _ hw => hw

theorem separate_run {labels : List Label} {s : Sim} (hr : Runs labels s)
    (hok : Along step SlotKept Sim.new labels) : Separate s := by
  have h := run_invariant_where SlotKept (fun s => Held s ∧ Separate s) hr hok
    ⟨held_new, fun hn => absurd rfl hn⟩
    fun t l t' ht hl hs => ⟨held_step ht.1 hs, separate_step ht.1 ht.2 hl hs⟩
  exact h.2

/-- In a run whose steps never make a zero delay and a nonblocking update of one slot wait
together, a process that suspended with a zero delay is resumed before any nonblocking update of
its slot is applied, updates are applied only when no process is runnable, and time advances only
when the slot is empty. -/
theorem region_order {labels : List Label} {s : Sim} (hr : Runs labels s)
    (hok : Along step SlotKept Sim.new labels) :
    (∀ h₁ t h₂ r h₃ p, steps step Sim.new labels =
        h₁ ++ (t, .suspend (.delay 0)) :: h₂ ++ (r, .drainNba) :: h₃ → current t = some p →
      r.kernel.time = t.kernel.time → r.kernel.nba ≠ [] → ∃ x ∈ h₂, Resumes p x.1 x.2) ∧
    (∀ r, (r, .drainNba) ∈ steps step Sim.new labels →
      r.kernel.active = [] ∧ r.kernel.inactive = []) ∧
    ∀ r, (r, .advance) ∈ steps step Sim.new labels → r.kernel.active = [] ∧
      r.kernel.inactive = [] ∧ r.kernel.nba = [] ∧ r.kernel.nbaWaiters = [] := by
  have enabled {r : Sim} {l : Label} (hmem : (r, l) ∈ steps step Sim.new labels) :
      ∃ r', step l r = some r' := by
    obtain ⟨h, h', hsplit⟩ := List.append_of_mem hmem
    obtain ⟨ls₁, ls₂, rfl, hr₁, -⟩ := steps_split hsplit
    obtain ⟨r₁, hr₁', hrest⟩ := run_append.mp hr
    obtain rfl := Option.some.inj (hr₁.symm.trans hr₁')
    obtain ⟨r', hl, -⟩ := run_cons.mp hrest
    exact ⟨r', hl⟩
  have drains {r : Sim} (hmem : (r, .drainNba) ∈ steps step Sim.new labels) :
      r.kernel.active = [] ∧ r.kernel.inactive = [] := by
    obtain ⟨r', hl⟩ := enabled hmem
    cases stepped_of_step hl with
    | drainNba hm ha hi hp hn => exact ⟨ha, hi⟩
  refine ⟨fun h₁ t h₂ r h₃ p hsplit hcur htime hnba => ?_, fun r => drains, fun r hmem => ?_⟩
  · by_contra hno
    have hno' : ∀ x ∈ h₂, ¬ Resumes p x.1 x.2 := fun x hx hres => hno ⟨x, hx, hres⟩
    have hpend := run_between (I := fun s => Held s ∧ Ordered s.kernel)
      (Q := Pending t.kernel.time p) hsplit (fun hr => ⟨held_run hr, ordered_run hr⟩)
      (fun t' hI hs => pending_start hI.1 hI.2 hcur hs)
      (fun u m u' hI hQ hm hs => pending_step hI.1 hQ hm hs) hno'
    obtain ⟨ha, hi⟩ := drains (hsplit ▸ List.mem_append_right _ List.mem_cons_self)
    obtain ⟨ls₁, ls₂, rfl, hr₁, hsteps⟩ := steps_split hsplit
    have hok₁ : Along step SlotKept Sim.new ls₁ := fun x hx => hok x (by
      rw [steps_append hr₁]
      exact List.mem_append_left _ hx)
    rcases hpend.queued with ⟨ev, hev, hact, ht⟩ | hq | hq
    · have hz := separate_run hr₁ hok₁ hnba ev hev
      exact zeroDelayed_eq_false.mp hz p hact (ht.trans htime.symm) hpend.wait
    · simp [ha] at hq
    · simp [hi] at hq
  · obtain ⟨r', hl⟩ := enabled hmem
    cases stepped_of_step hl with
    | done hm hq ht => exact hq
    | limited hm hq ht hl => exact hq
    | advance hm hq ht hl => exact hq

/-- A process schedules an update and then suspends with a zero delay. -/
def overtakenRun : List Label :=
  [.call (.newNet (.zero 1) .wire none), .addProcess, .runUntil none, .resume,
    .call (.scheduleNba 0 (.ones 1)), .suspend (.delay 0), .drainNba]

/-- The update is applied in the slot of the suspension although the process has not been
resumed. -/
theorem region_order_broken : ∃ s h₁ t r, Runs overtakenRun s ∧
    steps step Sim.new overtakenRun = h₁ ++ (t, .suspend (.delay 0)) :: [] ++ (r, .drainNba) :: [] ∧
    current t = some 0 ∧ r.kernel.time = t.kernel.time ∧ r.kernel.nba ≠ [] ∧
    s.kernel.netValue 0 ≠ r.kernel.netValue 0 :=
  ⟨(run step Sim.new overtakenRun).get rfl, steps step Sim.new (overtakenRun.take 5),
    (run step Sim.new (overtakenRun.take 5)).get rfl,
    (run step Sim.new (overtakenRun.take 6)).get rfl, rfl, rfl, rfl, rfl, by decide, by decide⟩

/-- The process waits out a zero delay before it schedules an update. -/
def orderedRun : List Label :=
  [.call (.newNet (.zero 1) .wire none), .addProcess, .addProcess, .runUntil none, .resume,
    .suspend (.delay 0), .resume, .suspend .finished, .advance, .dispatch, .settle, .resume,
    .call (.scheduleNba 0 (.ones 1)), .suspend .nba, .drainNba]

instance (s : Sim) : (l : Label) → Decidable (SlotKept s l)
  | .suspend (.delay 0) => inferInstanceAs (Decidable (s.kernel.nba = []))
  | .call (.scheduleNba _ _) =>
    inferInstanceAs (Decidable (∀ ev ∈ s.kernel.timed, zeroDelayed s ev = false))
  | .suspend (.delay (_ + 1)) | .suspend .finished | .suspend (.edge _ _)
  | .suspend (.sensitivity _) | .suspend (.cond _) | .suspend .runtimeCond | .suspend .nba
  | .suspend (.namedEvent _) | .suspend (.fork _ _) | .call (.newNet _ _ _)
  | .call (.newDriver _ _ _) | .call (.driveNet _ _) | .call (.scheduleDrive _ _ _)
  | .call (.scheduleDriveTransitions _ _ _) | .call (.writeNet _ _) | .call .requestStop
  | .call .notifyRuntimeChange | .call (.triggerEvent _) | .addProcess | .runUntil _ | .resume
  | .promote | .drainNba | .advance | .dispatch | .settle => .isTrue trivial

theorem region_order_zero_delay : ∃ h₁ t h₂ r, steps step Sim.new orderedRun =
    h₁ ++ (t, .suspend (.delay 0)) :: h₂ ++ (r, .drainNba) :: [] ∧ r.kernel.nba ≠ [] ∧
    ∃ x ∈ h₂, Resumes 0 x.1 x.2 := by
  have hok : Along step SlotKept Sim.new orderedRun := by
    unfold Along
    decide
  have hr : Runs orderedRun ((run step Sim.new orderedRun).get rfl) := rfl
  let t := (run step Sim.new (orderedRun.take 5)).get rfl
  let r := (run step Sim.new (orderedRun.take 14)).get rfl
  have hsplit : steps step Sim.new orderedRun = steps step Sim.new (orderedRun.take 5) ++
      (t, .suspend (.delay 0)) :: (steps step Sim.new (orderedRun.take 14)).drop 6 ++
      (r, .drainNba) :: [] := rfl
  have hnba : r.kernel.nba ≠ [] := List.cons_ne_nil _ _
  exact ⟨_, t, _, r, hsplit, hnba, (region_order hr hok).1 _ t _ r [] 0 hsplit rfl rfl hnba⟩

end Eevee.Sched.Regions
