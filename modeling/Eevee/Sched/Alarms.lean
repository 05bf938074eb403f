/- Delays, named events and the NBA region bring a process back at their own step and at no
other. -/

import Mathlib.Data.List.Count
import Mathlib.Tactic.Common
import Mathlib.Tactic.SplitIfs
import Eevee.Sched.Observers
import Eevee.Sched.Wheel

set_option autoImplicit false
set_option relaxedAutoImplicit false

namespace Eevee.Sched.Alarms

open Eevee.Core.Logic
open Eevee.Lib.Transition
open Eevee.Sched.ForkJoin (active_step)
open Eevee.Sched.Frames
open Eevee.Sched.Nets
open Eevee.Sched.Observers (current_step)
open Eevee.Sched.Regions
open Eevee.Sched.Scheduler
open Eevee.Sched.Simulation
open Eevee.Sched.Wakeup
open Eevee.Sched.Wheel

/-! ### What a process waits for -/

/-- A point in time, a named event, or the end of the NBA region. -/
inductive Bell
  | deadline (time : SimTime)
  | event (e : EventId)
  | region

/-- The bell of a wait that begins at this time. -/
def bellOf (now : SimTime) : Wait → Option Bell
  | .delay fs => some (.deadline (saturatingAddFs now fs))
  | .namedEvent e => some (.event e)
  | .nba => some .region
  | _ => none

/-- The process is registered for the bell; all its alarms on the wheel are for the deadline. -/
def Listens (k : Kernel) (p : ProcId) : Bell → Prop
  | .deadline time => (∃ ev ∈ k.timed, ev.action = .resume p) ∧
    ∀ ev ∈ k.timed, ev.action = .resume p → ev.time = time ∧ ev.region = .active
  | .event e => (e, p) ∈ k.eventWaiters
  | .region => p ∈ k.nbaWaiters

/-- The step that brings the process back. -/
def Rings (p : ProcId) (s : Sim) (l : Label) : Bell → Prop
  | .deadline time => l = .dispatch ∧ s.kernel.time = time ∧
    ∃ ev, s.kernel.timed.head? = some ev ∧ ev.action = .resume p
  | .event e => l = .call (.triggerEvent e)
  | .region => l = .drainNba

/-! ### Operations of the kernel -/

/-- The waits for named events and for the NBA region stay. -/
structure SameTables (k k' : Kernel) : Prop where
  events : k'.eventWaiters = k.eventWaiters
  nba : k'.nbaWaiters = k.nbaWaiters

section

variable {k k' : Kernel} {p : ProcId} {bell : Bell}

theorem SameTables.refl (k : Kernel) : SameTables k k := ⟨rfl, rfl⟩

theorem SameTables.trans {k₁ k₂ k₃ : Kernel} (h : SameTables k₁ k₂) (h' : SameTables k₂ k₃) :
    SameTables k₁ k₃ := ⟨h'.events.trans h.events, h'.nba.trans h.nba⟩

theorem sameTables_clearNetWaiters (k : Kernel) (p : ProcId) :
    SameTables k (k.clearNetWaiters p) := by
  obtain ⟨nets, netWaits, h⟩ := clearNetWaiters_frame k p
  rw [h]
  exact ⟨rfl, rfl⟩

theorem sameTables_writeNet (k : Kernel) (n : NetId) (v : PackedVec) :
    SameTables k (k.writeNet n v) := by
  unfold Kernel.writeNet
  dsimp only
  split_ifs
  · unfold Kernel.wakeWaiters
    dsimp only
    obtain ⟨nets, netWaits, h⟩ :=
      clearAll_frame _ (((k.setValue n v).notifyRuntimeChange).storeScan n _)
    rw [h]
    exact ⟨rfl, rfl⟩
  · exact ⟨rfl, rfl⟩

theorem sameTables_writes (batch : List (NetId × PackedVec)) (k : Kernel) :
    SameTables k (batch.foldl (fun (k : Kernel) u => k.writeNet u.1 u.2) k) := by
  induction batch generalizing k with
  | nil => exact .refl k
  | cons u batch ih => exact (sameTables_writeNet k u.1 u.2).trans (ih _)

theorem sameTables_touches {d : DriverId} {n : NetId} (h : Touches d n k k') :
    SameTables k k' := by
  refine keeps_sequence SameTables.refl SameTables.trans (fun ht => ?_) h
  cases ht with
  | net ht => cases ht with
    | writeNet v hv => exact sameTables_writeNet _ n v
    | _ => exact ⟨rfl, rfl⟩
  | _ => exact ⟨rfl, rfl⟩

theorem sameTables_call (k : Kernel) {c : Call} (hc : ∀ e, c ≠ .triggerEvent e) :
    SameTables k (c.exec k) := by
  cases c with
  | driveNet d v => exact sameTables_touches (touches_driveNet k d v)
  | scheduleDrive d v delayFs => exact sameTables_touches (touches_scheduleDrive k d v delayFs)
  | scheduleDriveTransitions d v delays =>
    exact sameTables_touches (touches_scheduleDriveTransitions k d v delays)
  | writeNet n v => exact sameTables_writeNet k n v
  | triggerEvent e => exact absurd rfl (hc e)
  | _ => exact ⟨rfl, rfl⟩

/-- The alarms of the process are the same. -/
def SameAlarms (p : ProcId) (k k' : Kernel) : Prop :=
  ∀ ev, ev.action = .resume p → (ev ∈ k'.timed ↔ ev ∈ k.timed)

theorem Listens.kept (h : Listens k p bell) (ha : SameAlarms p k k') (ht : SameTables k k') :
    Listens k' p bell := by
  cases bell with
  | deadline time =>
    obtain ⟨⟨ev, hev, hp⟩, hall⟩ := h
    exact ⟨⟨ev, (ha ev hp).mpr hev, hp⟩, fun ev hev hp => hall ev ((ha ev hp).mp hev) hp⟩
  | event e =>
    show (e, p) ∈ k'.eventWaiters
    rwa [ht.events]
  | region =>
    show p ∈ k'.nbaWaiters
    rwa [ht.nba]

theorem Listens.extends (h : Listens k p bell) (he : Extends k k') (ht : SameTables k k') :
    Listens k' p bell := h.kept (fun ev => he.resumes ev p) ht

/-- Stale drives are dropped from the wheel, alarms are not. -/
theorem sameAlarms_discard (k : Kernel) (p : ProcId) :
    SameAlarms p k k.discardStaleTimedActions := by
  intro ev ha
  refine ⟨fun hev => (List.dropWhile_sublist _).subset hev, fun hev => ?_⟩
  rw [← @List.takeWhile_append_dropWhile _ (fun ev => k.staleAction ev.action) k.timed] at hev
  rcases List.mem_append.mp hev with hmem | hmem
  · have hstale := List.all_eq_true.mp List.all_takeWhile ev hmem
    simp [ha, Kernel.staleAction] at hstale
  · exact hmem

/-- A process is not queued while it listens. -/
theorem Listens.excludes (h : Listens k p bell) (hone : sources k p ≤ 1) : p ∉ k.active := by
  intro hmem
  have hactive := List.count_pos_iff.mpr hmem
  unfold sources at hone
  cases bell with
  | deadline time =>
    obtain ⟨⟨ev, hev, hp⟩, -⟩ := h
    have hcount : 0 < k.timed.countP (isResume p) :=
      List.countP_pos_iff.mpr ⟨ev, hev, by simp [isResume, hp]⟩
    omega
  | event e =>
    have hcount : 0 < k.eventWaiters.countP (·.2 == p) :=
      List.countP_pos_iff.mpr ⟨(e, p), h, by simp⟩
    omega
  | region =>
    have hcount := List.count_pos_iff.mpr h
    omega

end

/-! ### Steps -/

section

variable {s s' : Sim} {l : Label} {p : ProcId} {bell : Bell}

/-- The process that parks joins one of the tables at most. -/
theorem tables_park (s : Sim) (q : ProcId) (wait : Wait) :
    (∃ es, (s.park q wait).kernel.eventWaiters = s.kernel.eventWaiters ++ es) ∧
      ∃ ns, (s.park q wait).kernel.nbaWaiters = s.kernel.nbaWaiters ++ ns := by
  have hclear := sameTables_clearNetWaiters s.kernel q
  have hadd (entries : List (NetId × EdgeKind)) (k : Kernel) :
      SameTables k (k.registerNets q entries) := by
    unfold Kernel.registerNets
    obtain ⟨nets, hk⟩ := addWaiters_frame entries q k
    rw [hk]
    exact ⟨rfl, rfl⟩
  have same {k : Kernel} (h : SameTables s.kernel k) :
      (∃ es, k.eventWaiters = s.kernel.eventWaiters ++ es) ∧
        ∃ ns, k.nbaWaiters = s.kernel.nbaWaiters ++ ns :=
    ⟨⟨[], by rw [h.events, List.append_nil]⟩, ⟨[], by rw [h.nba, List.append_nil]⟩⟩
  have hbump : SameTables s.kernel ((s.kernel.clearNetWaiters q).bumpEpoch q) :=
    ⟨hclear.events, hclear.nba⟩
  cases wait with
  | edge | sensitivity | cond => exact same (hbump.trans (hadd _ _))
  | namedEvent e =>
    exact ⟨⟨[(e, q)], congrArg (· ++ _) hbump.events⟩,
      ⟨[], by rw [List.append_nil]; exact hbump.nba⟩⟩
  | nba =>
    exact ⟨⟨[], by rw [List.append_nil]; exact hbump.events⟩, ⟨[q], congrArg (· ++ _) hbump.nba⟩⟩
  | finished | delay | runtimeCond => exact same ⟨hbump.events, hbump.nba⟩
  | fork children join =>
    refine same ?_
    unfold Sim.park Sim.spawnFork
    dsimp only
    split_ifs <;> exact ⟨rfl, rfl⟩

/-- Another process parks. -/
theorem Listens.park (h : Listens s.kernel p bell) {q : ProcId} (hpq : p ≠ q) (wait : Wait) :
    Listens (s.park q wait).kernel p bell := by
  obtain ⟨⟨es, hes⟩, ⟨ns, hns⟩⟩ := tables_park s q wait
  cases bell with
  | deadline time =>
    have halarms : SameAlarms p s.kernel (s.park q wait).kernel := by
      intro ev ha
      rcases kernel_park s q wait with hw | ⟨fs, k, -, hw, hk⟩
      · rw [hw.timed]
      · rw [hk, mem_pushTimedAction, hw.timed]
        refine or_iff_right ?_
        rintro rfl
        exact hpq (TimedAction.resume.inj ha).symm
    obtain ⟨⟨ev, hev, hp⟩, hall⟩ := h
    exact ⟨⟨ev, (halarms ev hp).mpr hev, hp⟩, fun ev hev hp => hall ev ((halarms ev hp).mp hev) hp⟩
  | event e =>
    show (e, p) ∈ (s.park q wait).kernel.eventWaiters
    rw [hes]
    exact List.mem_append_left _ h
  | region =>
    show p ∈ (s.park q wait).kernel.nbaWaiters
    rw [hns]
    exact List.mem_append_left _ h

theorem time_dispatchEvent (k : Kernel) (ev : TimedEvent) : (k.dispatchEvent ev).time = k.time := by
  by_cases ha : ∃ q, ev.action = .resume q
  · obtain ⟨q, ha⟩ := ha
    unfold Kernel.dispatchEvent
    rw [ha]
    dsimp only
    split <;> rfl
  · obtain ⟨d, n, htouch⟩ := touches_dispatchEvent fun q hq => ha ⟨q, hq⟩
    exact (extends_touches htouch).time

theorem kept_dispatchEvent (k : Kernel) (ev : TimedEvent) :
    SameAlarms p k (k.dispatchEvent ev) ∧ SameTables k (k.dispatchEvent ev) := by
  by_cases ha : ∃ q, ev.action = .resume q
  · obtain ⟨q, ha⟩ := ha
    unfold Kernel.dispatchEvent
    rw [ha]
    dsimp only
    split <;> exact ⟨fun _ _ => Iff.rfl, rfl, rfl⟩
  · obtain ⟨d, n, htouch⟩ := touches_dispatchEvent fun q hq => ha ⟨q, hq⟩
    exact ⟨fun ev => (extends_touches htouch).resumes ev p, sameTables_touches htouch⟩

theorem listens_dispatch {ev : TimedEvent} {rest : List TimedEvent} {k : Kernel}
    (h : Listens k p bell) (ht : k.timed = ev :: rest)
    (hne : ∀ time, bell = .deadline time → ev.action ≠ .resume p) :
    Listens ({ k with timed := rest }.dispatchEvent ev) p bell := by
  obtain ⟨halarms, htables⟩ := @kept_dispatchEvent p { k with timed := rest } ev
  refine Listens.kept (k := { k with timed := rest }) ?_ halarms htables
  cases bell with
  | deadline time =>
    obtain ⟨⟨ev', hev, hp⟩, hall⟩ := h
    rw [ht] at hev hall
    refine ⟨⟨ev', (List.mem_cons.mp hev).resolve_left ?_, hp⟩,
      fun ev' hev => hall ev' (List.mem_cons_of_mem _ hev)⟩
    rintro rfl
    exact hne time rfl hp
  | event e => exact h
  | region => exact h

theorem listens_drainNba {k : Kernel} (h : Listens k p bell) (hne : bell ≠ .region) :
    Listens k.drainNba p bell := by
  refine drainNba_keeps (R := fun k k' => Listens k p bell → Listens k' p bell) (fun _ h => h)
    (fun h h' hk => h' (h hk)) (fun h => h.kept (fun _ _ => Iff.rfl) ⟨rfl, rfl⟩)
    (fun u _ k₁ h => h.extends (extends_writeNet k₁ u.1 u.2) (sameTables_writeNet k₁ u.1 u.2))
    (fun k₁ h => ?_) h
  cases bell with
  | deadline time => exact h
  | event e => exact h
  | region => exact absurd rfl hne

theorem listens_step (h : Listens s.kernel p bell) (hcur : current s ≠ some p)
    (hs : step l s = some s') (hno : ¬ Rings p s l bell) : Listens s'.kernel p bell := by
  cases stepped_of_step hs with
  | @call _ c hm hv =>
    by_cases hc : ∃ e, c = .triggerEvent e
    · obtain ⟨e, rfl⟩ := hc
      cases bell with
      | deadline time => exact h
      | region => exact h
      | event e' =>
        have hne : e' ≠ e := fun heq => hno (heq ▸ rfl)
        exact List.mem_filter.mpr ⟨h, by simpa using hne⟩
    · have htables := sameTables_call s.kernel fun e he => hc ⟨e, he⟩
      by_cases hnba : ∃ n v, c = .scheduleNba n v
      · obtain ⟨n, v, rfl⟩ := hnba
        exact h.kept (fun _ _ => Iff.rfl) htables
      · exact h.extends (extends_call _ fun n v he => hnba ⟨n, v, he⟩) htables
  | addProcess hm => exact h.kept (fun _ _ => Iff.rfl) ⟨rfl, rfl⟩
  | runUntil hm => exact h
  | resume hm ha => exact h.kept (fun _ _ => Iff.rfl) ⟨rfl, rfl⟩
  | @suspend _ limit pid wait hm hn =>
    have hpid : p ≠ pid := by
      rintro rfl
      exact hcur (by simp [current, hm])
    exact h.park hpid wait
  | promote hm ha hi => exact h.kept (fun _ _ => Iff.rfl) ⟨rfl, rfl⟩
  | drainNba hm ha hi hp hn => exact listens_drainNba h fun heq => hno (heq ▸ rfl)
  | done hm hq ht => exact h.kept (sameAlarms_discard s.kernel p) ⟨rfl, rfl⟩
  | limited hm hq ht hl => exact h.kept (sameAlarms_discard s.kernel p) ⟨rfl, rfl⟩
  | advance hm hq ht hl => exact h.kept (sameAlarms_discard s.kernel p) ⟨rfl, rfl⟩
  | @dispatch _ limit ev rest hm ht hd =>
    refine listens_dispatch h ht ?_
    rintro time rfl ha
    have htime := (h.2 ev (ht ▸ List.mem_cons_self) ha).1
    exact hno ⟨rfl, hd.symm.trans htime, ev, by rw [ht]; rfl, ha⟩
  | settle hm hd => exact h

/-- The step rings: the process is queued, and at a deadline this is the time. -/
theorem active_of_rings (h : Listens s.kernel p bell) (hs : step l s = some s')
    (hr : Rings p s l bell) :
    p ∈ s'.kernel.active ∧ ∀ time, bell = .deadline time → s'.kernel.time = time := by
  cases bell with
  | deadline time =>
    obtain ⟨rfl, htime, ev, hev, ha⟩ := hr
    cases stepped_of_step hs with
    | @dispatch _ limit ev' rest hm ht hd =>
      obtain rfl : ev' = ev := by simpa [ht] using hev
      have hregion := (h.2 ev' (ht ▸ List.mem_cons_self) ha).2
      have hkernel : { s.kernel with timed := rest }.dispatchEvent ev' =
          { s.kernel with timed := rest, active := s.kernel.active ++ [p] } := by
        unfold Kernel.dispatchEvent
        rw [ha, hregion]
      rw [hkernel]
      refine ⟨List.mem_append_right _ List.mem_cons_self, fun time' heq => ?_⟩
      cases heq
      exact htime
  | event e =>
    obtain rfl : l = .call (.triggerEvent e) := hr
    cases stepped_of_step hs with
    | call hm hv =>
      refine ⟨List.mem_append_right _ (List.mem_map.mpr ⟨(e, p), ?_, rfl⟩), fun time heq => by
        cases heq⟩
      exact List.mem_filter.mpr ⟨h, by simp⟩
  | region =>
    obtain rfl : l = .drainNba := hr
    cases stepped_of_step hs with
    | drainNba hm ha hi hp hn =>
      have hnba := (sameTables_writes s.kernel.nba { s.kernel with nba := [] }).nba
      refine ⟨List.mem_append_right _ ?_, fun time heq => by cases heq⟩
      rw [hnba]
      exact h

/-- A queued process does not let time pass. -/
theorem time_of_active (hs : step l s = some s') (h : p ∈ s.kernel.active) :
    s'.kernel.time = s.kernel.time := by
  have nonempty : s.kernel.active ≠ [] := List.ne_nil_of_mem h
  cases stepped_of_step hs with
  | @call _ c hm hv =>
    by_cases hnba : ∃ n v, c = .scheduleNba n v
    · obtain ⟨n, v, rfl⟩ := hnba
      rfl
    · exact (extends_call _ fun n v he => hnba ⟨n, v, he⟩).time
  | @suspend _ limit pid wait hm hn =>
    rcases kernel_park s pid wait with hw | ⟨fs, k, -, hw, hk⟩
    · exact hw.time
    · exact (congrArg Kernel.time hk).trans hw.time
  | @dispatch _ limit ev rest hm ht hd =>
    exact (time_dispatchEvent { s.kernel with timed := rest } ev)
  | drainNba hm ha hi hp hn => exact absurd ha nonempty
  | done hm hq ht => exact absurd hq.1 nonempty
  | limited hm hq ht hl => exact absurd hq.1 nonempty
  | advance hm hq ht hl => exact absurd hq.1 nonempty
  | _ => rfl

/-- The process parks: it is registered for its bell. -/
theorem listens_suspend (hheld : Held s) (hcur : current s = some p) {wait : Wait}
    (hb : bellOf s.kernel.time wait = some bell) (hs : step (.suspend wait) s = some s') :
    current s' ≠ some p ∧ Listens s'.kernel p bell := by
  have hzero : sources s.kernel p = 0 := by
    rw [hheld.sources, if_neg fun hparked => hparked.2.2 hcur]
  cases stepped_of_step hs with
  | @suspend _ limit pid wait hm hn =>
    obtain rfl : pid = p := by simpa [current, hm] using hcur
    refine ⟨?_, ?_⟩
    · unfold current
      dsimp only
      split_ifs <;> simp
    · have hwakes := wakes_bumpEpoch s.kernel pid
      cases wait with
      | delay fs =>
        cases hb
        have hnew {ev : TimedEvent} (hev : ev ∈ (s.park pid (.delay fs)).kernel.timed)
            (ha : ev.action = .resume pid) : ev = ⟨saturatingAddFs s.kernel.time fs, .active,
              ((s.kernel.clearNetWaiters pid).bumpEpoch pid).seq + 1, .resume pid⟩ := by
          rcases mem_pushTimedAction.mp hev with heq | hold
          · rw [heq, hwakes.time]
          · rw [hwakes.timed] at hold
            have hcount : 0 < s.kernel.timed.countP (isResume pid) :=
              List.countP_pos_iff.mpr ⟨ev, hold, by simp [isResume, ha]⟩
            unfold sources at hzero
            omega
        refine ⟨⟨_, mem_pushTimedAction.mpr (.inl rfl), rfl⟩, fun ev hev ha => ?_⟩
        rw [hnew hev ha]
        exact ⟨rfl, rfl⟩
      | namedEvent e =>
        cases hb
        exact List.mem_append_right _ List.mem_cons_self
      | nba =>
        cases hb
        exact List.mem_append_right _ List.mem_cons_self
      | _ => cases hb

/-- The process is not running; it listens, or it is queued and the deadline is now. -/
structure Waits (p : ProcId) (bell : Bell) (s : Sim) : Prop where
  running : current s ≠ some p
  place : Listens s.kernel p bell ∨
    (p ∈ s.kernel.active ∧ ∀ time, bell = .deadline time → s.kernel.time = time)

theorem waits_step (h : Waits p bell s) (hno : ¬ Resumes p s l) (hs : step l s = some s') :
    Waits p bell s' := by
  refine ⟨current_step hs h.running hno, ?_⟩
  rcases h.place with hl | ⟨hactive, htime⟩
  · by_cases hrings : Rings p s l bell
    · exact .inr (active_of_rings hl hs hrings)
    · exact .inl (listens_step hl h.running hs hrings)
  · refine .inr ⟨active_step hs hactive hno, fun time heq => ?_⟩
    rw [time_of_active hs hactive, htime time heq]

end

/-! ### Runs -/

/-- A process that waits for a delay, a named event or the NBA region is queued by the step that it
waits for and by no other; it is then the time of the deadline, which has not passed before. -/
theorem wakes_on_time {labels : List Label} {s t : Sim} {p : ProcId} {wait : Wait} {bell : Bell}
    {h₁ h₂ : List (Sim × Label)} (hr : Runs labels s)
    (hs : steps step Sim.new labels = h₁ ++ (t, .suspend wait) :: h₂) (hp : current t = some p)
    (hb : bellOf t.kernel.time wait = some bell) (hno : ∀ x ∈ h₂, ¬ Resumes p x.1 x.2) :
    (p ∈ s.kernel.active ↔ ∃ x ∈ h₂, Rings p x.1 x.2 bell) ∧
      ∀ time, bell = .deadline time → s.kernel.time ≤ time ∧
        (p ∈ s.kernel.active → s.kernel.time = time) := by
  have hI {ls : List Label} {u : Sim} (hu : Runs ls u) : Held u := held_run hu
  have hest (t' : Sim) (ht : Held t) (ht' : step (.suspend wait) t = some t') :
      Waits p bell t' := by
    obtain ⟨hcur, hl⟩ := listens_suspend ht hp hb ht'
    exact ⟨hcur, .inl hl⟩
  have hkept : ∀ u k u', Held u → Waits p bell u → ¬ Resumes p u k → step k u = some u' →
      Waits p bell u' := fun u k u' _ hu hk hstep => waits_step hu hk hstep
  have hone (u : Sim) (hu : Held u) : sources u.kernel p ≤ 1 := by
    rw [hu.sources]
    split_ifs <;> omega
  have hend := run_since hr hs hI hest hkept hno
  refine ⟨⟨fun hactive => ?_, ?_⟩, fun time heq => ?_⟩
  · by_contra hsilent
    have hlistens := @run_since _ _ _ Held (fun u => current u ≠ some p ∧ Listens u.kernel p bell)
      (fun u k => Resumes p u k ∨ Rings p u k bell) _ _ _ _ _ _ _ hr hs hI
      (fun t' ht ht' => listens_suspend ht hp hb ht')
      (fun u k u' _ hu hk hstep => ⟨current_step hstep hu.1 fun h => hk (.inl h),
        listens_step hu.2 hu.1 hstep fun h => hk (.inr h)⟩)
      fun x hx h => h.elim (hno x hx) fun hrings => hsilent ⟨x, hx, hrings⟩
    exact hlistens.2.excludes (hone s (hI hr)) hactive
  · rintro ⟨⟨u, m⟩, hmem, hrings⟩
    obtain ⟨h₃, h₄, rfl⟩ := List.append_of_mem hmem
    have hsplit : steps step Sim.new labels =
        h₁ ++ (t, .suspend wait) :: h₃ ++ (u, m) :: h₄ := by
      rw [hs]
      simp
    have hwaits := run_between hsplit hI hest hkept fun x hx => hno x (List.mem_append_left _ hx)
    refine run_since hr hsplit hI (Q := fun v => p ∈ v.kernel.active) (fun v _ hv => ?_)
      (fun _ _ _ _ hQ hk hstep => active_step hstep hQ hk)
      fun x hx => hno x (List.mem_append_right _ (List.mem_cons_of_mem _ hx))
    rcases hwaits.place with hl | ⟨hactive, -⟩
    · exact (active_of_rings hl hv hrings).1
    · exact active_step hv hactive (hno _ (List.mem_append_right _ List.mem_cons_self))
  · rcases hend.place with hl | ⟨hactive, htime⟩
    · refine ⟨?_, fun hactive => absurd hactive (hl.excludes (hone s (hI hr)))⟩
      subst heq
      obtain ⟨⟨ev, hev, ha⟩, hall⟩ := hl
      exact (hall ev hev ha).1 ▸ ((ordered_run hr).bounds ev hev).1
    · exact ⟨Nat.le_of_eq (htime time heq), fun _ => htime time heq⟩

/-- The host stops at 3, before the deadline, and runs to the end later. -/
def sleepingRun : List Label :=
  [.addProcess, .runUntil (some 3), .resume, .suspend (.delay 5), .advance, .runUntil none,
    .advance, .dispatch, .settle]

theorem wakes_at_deadline : ∃ s, Runs sleepingRun s ∧ 0 ∈ s.kernel.active ∧ s.kernel.time = 5 := by
  have hr : Runs sleepingRun ((run step Sim.new sleepingRun).get rfl) := rfl
  let t := (run step Sim.new (sleepingRun.take 3)).get rfl
  let u := (run step Sim.new (sleepingRun.take 7)).get rfl
  have hsplit : steps step Sim.new sleepingRun = steps step Sim.new (sleepingRun.take 3) ++
      (t, .suspend (.delay 5)) :: (steps step Sim.new sleepingRun).drop 4 := rfl
  have hno : ∀ x ∈ (steps step Sim.new sleepingRun).drop 4, ¬ Resumes 0 x.1 x.2 := by
    decide
  obtain ⟨hiff, htime⟩ := wakes_on_time hr hsplit rfl rfl hno
  have hactive := hiff.mpr ⟨(u, .dispatch), by
    exact List.mem_cons_of_mem _ (List.mem_cons_of_mem _ (List.mem_cons_of_mem _
      List.mem_cons_self)), rfl, by decide, _, rfl, rfl⟩
  exact ⟨_, hr, hactive, (htime _ rfl).2 hactive⟩

end Eevee.Sched.Alarms
