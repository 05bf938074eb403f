/- Every unfinished process is held by exactly one wakeup source between two resumes. -/

import Mathlib.Data.List.Count
import Mathlib.Tactic.Common
import Mathlib.Tactic.SplitIfs
import Eevee.Sched.Frames

set_option autoImplicit false
set_option relaxedAutoImplicit false

namespace Eevee.Sched.Wakeup

open Eevee.Core.Logic
open Eevee.Lib.SwapScan
open Eevee.Lib.Transition
open Eevee.Sched.Frames
open Eevee.Sched.Nets
open Eevee.Sched.Resolution
open Eevee.Sched.Scheduler
open Eevee.Sched.Simulation

/-! ### Wakeup sources -/

def isResume (p : ProcId) (ev : TimedEvent) : Bool :=
  match ev.action with
  | .resume proc => proc == p
  | _ => false

/-- The number of places that can wake the process. -/
def sources (k : Kernel) (p : ProcId) : Nat :=
  k.active.count p + k.inactive.count p + k.timed.countP (isResume p) + k.nbaWaiters.count p +
    k.runtimeWaiters.count p + k.eventWaiters.countP (·.2 == p) +
    k.joinWatches.countP (·.parent == p) + (k.netWaits p).isSome.toNat

/-- Every entry of a sensitivity list belongs to a registration of its process for that net,
under the process's current epoch. -/
def Registered (k : Kernel) : Prop :=
  ∀ n, ∀ w ∈ (k.net n).waiters, ∃ waited, k.netWaits w.proc = some waited ∧ n ∈ waited ∧
    w.epoch = (k.waitEpochs w.proc).getD 0

/-- A kernel operation that neither loses nor duplicates a wakeup. -/
def Keeps (k k' : Kernel) : Prop :=
  Registered k → Registered k' ∧ ∀ p, sources k' p = sources k p

theorem Keeps.refl (k : Kernel) : Keeps k k := fun h => ⟨h, fun _ => rfl⟩

theorem Keeps.trans {k₁ k₂ k₃ : Kernel} (h : Keeps k₁ k₂) (h' : Keeps k₂ k₃) : Keeps k₁ k₃ :=
  fun hr => ⟨(h' (h hr).1).1, fun p => ((h' (h hr).1).2 p).trans ((h hr).2 p)⟩

theorem Keeps.foldl {α : Type} {f : Kernel → α → Kernel} (h : ∀ k a, Keeps k (f k a))
    (xs : List α) (k : Kernel) : Keeps k (xs.foldl f k) := by
  induction xs generalizing k with
  | nil => exact .refl k
  | cons a xs ih => exact (h k a).trans (ih (f k a))

/-- The wakeup tables are untouched; the time wheel may gain or lose drive actions. -/
structure SameWakeups (k k' : Kernel) : Prop where
  active : k'.active = k.active
  inactive : k'.inactive = k.inactive
  timed : ∀ p, k'.timed.countP (isResume p) = k.timed.countP (isResume p)
  nbaWaiters : k'.nbaWaiters = k.nbaWaiters
  runtimeWaiters : k'.runtimeWaiters = k.runtimeWaiters
  eventWaiters : k'.eventWaiters = k.eventWaiters
  joinWatches : k'.joinWatches = k.joinWatches
  netWaits : k'.netWaits = k.netWaits
  waitEpochs : k'.waitEpochs = k.waitEpochs
  waiters : ∀ n, (k'.net n).waiters = (k.net n).waiters

theorem SameWakeups.keeps {k k' : Kernel} (h : SameWakeups k k') : Keeps k k' := by
  intro hr
  refine ⟨fun n w hw => ?_, fun p => ?_⟩
  · rw [h.waiters] at hw
    rw [h.netWaits, h.waitEpochs]
    exact hr n w hw
  · simp only [sources, h.active, h.inactive, h.timed, h.nbaWaiters, h.runtimeWaiters,
      h.eventWaiters, h.joinWatches, h.netWaits]

theorem keeps_modifyNet (k : Kernel) (n : NetId) {f : Net → Net}
    (hf : ∀ net, (f net).waiters = net.waiters) : Keeps k (k.modifyNet n f) := by
  refine SameWakeups.keeps ⟨rfl, rfl, fun _ => rfl, rfl, rfl, rfl, rfl, rfl, rfl, fun m => ?_⟩
  rw [Kernel.net_modifyNet]
  split
  · exact hf _
  · rfl

/-! ### Waking a sensitivity list -/

theorem netWaits_clearNetWaiters (k : Kernel) (pid p : ProcId) :
    (k.clearNetWaiters pid).netWaits p = if p = pid then none else k.netWaits p := by
  unfold Kernel.clearNetWaiters
  cases h : k.netWaits pid with
  | none =>
    split_ifs with hp
    · exact hp ▸ h
    · rfl
  | some waited => exact Function.update_apply _ _ _ _

theorem clearNetWaiters_frame (k : Kernel) (pid : ProcId) :
    ∃ nets netWaits, k.clearNetWaiters pid = { k with nets := nets, netWaits := netWaits } := by
  unfold Kernel.clearNetWaiters
  cases k.netWaits pid with
  | none => exact ⟨k.nets, k.netWaits, rfl⟩
  | some waited => exact ⟨_, _, rfl⟩

theorem clearAll_frame (procs : List ProcId) (k : Kernel) :
    ∃ nets netWaits, procs.foldl Kernel.clearNetWaiters k =
      { k with nets := nets, netWaits := netWaits } := by
  induction procs generalizing k with
  | nil => exact ⟨k.nets, k.netWaits, rfl⟩
  | cons p procs ih =>
    obtain ⟨nets, netWaits, h⟩ := clearNetWaiters_frame k p
    obtain ⟨nets', netWaits', h'⟩ := ih (k.clearNetWaiters p)
    exact ⟨nets', netWaits', by rw [List.foldl_cons, h', h]⟩

theorem netWaits_clearAll (procs : List ProcId) (k : Kernel) (p : ProcId) :
    (procs.foldl Kernel.clearNetWaiters k).netWaits p =
      if p ∈ procs then none else k.netWaits p := by
  induction procs generalizing k with
  | nil => simp
  | cons q procs ih =>
    rw [List.foldl_cons, ih, netWaits_clearNetWaiters]
    by_cases hp : p ∈ procs <;> simp [hp]

/-- What is left in the lists belongs to no process cleared from that net. -/
theorem mem_waiters_clearAll {procs : List ProcId} {k : Kernel} {n : NetId} {w : Waiter}
    (h : w ∈ ((procs.foldl Kernel.clearNetWaiters k).net n).waiters) :
    w ∈ (k.net n).waiters ∧
      ∀ waited, k.netWaits w.proc = some waited → n ∈ waited → w.proc ∉ procs := by
  induction procs generalizing k with
  | nil => exact ⟨h, fun _ _ _ => by simp⟩
  | cons p procs ih =>
    rw [List.foldl_cons] at h
    obtain ⟨hw, hrest⟩ := ih h
    rw [Kernel.net_clearNetWaiters] at hw
    have hmem : w ∈ (k.net n).waiters := by
      split_ifs at hw
      · exact (List.mem_filter.mp hw).1
      · exact hw
    refine ⟨hmem, fun waited hs hn => ?_⟩
    have hne : w.proc ≠ p := by
      rintro rfl
      rw [hs] at hw
      simp [Kernel.Net.forget, hn] at hw
    have htail := hrest waited (by rw [netWaits_clearNetWaiters, if_neg hne, hs]) hn
    simp [hne, htail]

/-- A scan wakes only registered processes, each at most once, and bumps exactly their
epochs. -/
structure Scanned (k : Kernel) (waiters : List Waiter) (s : Kernel.Woken) : Prop where
  nodup : s.procs.Nodup
  mem : ∀ p ∈ s.procs, ∃ w ∈ waiters, w.proc = p
  woken : ∀ p ∈ s.procs, (s.epochs p).getD 0 = (k.waitEpochs p).getD 0 + 1
  others : ∀ p, p ∉ s.procs → s.epochs p = k.waitEpochs p

/-- Removing an entry of a list of live entries keeps a scan such. -/
theorem scanned_visit {k : Kernel} {edges : Edges} {waiters : List Waiter} {s s' : Kernel.Woken}
    {w : Waiter} (hlive : ∀ w ∈ waiters, w.epoch = (k.waitEpochs w.proc).getD 0)
    (hs : Scanned k waiters s) (hw : w ∈ waiters)
    (hv : Kernel.visitWaiter edges s w = (s', none)) : Scanned k waiters s' := by
  unfold Kernel.visitWaiter at hv
  split_ifs at hv with hstale hfire
  · obtain rfl : s = s' := by simpa using hv
    exact hs
  · obtain rfl := (Prod.mk.inj hv).1.symm
    have hnew : w.proc ∉ s.procs := fun hm => hstale (by
      rw [hs.woken _ hm, hlive w hw]
      omega)
    have hep := hs.others _ hnew
    refine ⟨?_, fun p hp => ?_, fun p hp => ?_, fun p hp => ?_⟩
    · exact List.nodup_append.mpr ⟨hs.nodup, by simp, by
        intro a ha b hb
        obtain rfl := List.mem_singleton.mp hb
        exact fun he => hnew (he ▸ ha)⟩
    · rcases List.mem_append.mp hp with hp | hp
      · exact hs.mem p hp
      · exact ⟨w, hw, (List.mem_singleton.mp hp).symm⟩
    · rcases List.mem_append.mp hp with hp | hp
      · have hne : p ≠ w.proc := fun he => hnew (he ▸ hp)
        simpa [Function.update_apply, hne] using hs.woken p hp
      · obtain rfl := List.mem_singleton.mp hp
        simp [hep]
    · simp only [List.mem_append, List.mem_singleton, not_or] at hp
      simpa [Function.update_apply, hp.2] using hs.others p hp.1
  · simp at hv

theorem scanned_scan (k : Kernel) (edges : Edges) (waiters : List Waiter)
    (hlive : ∀ w ∈ waiters, w.epoch = (k.waitEpochs w.proc).getD 0) :
    let s := scan (Kernel.visitWaiter edges) ⟨k.waitEpochs, []⟩ waiters
    Scanned k waiters s.1 ∧ ∀ w ∈ s.2, w ∈ waiters := by
  intro s
  have h := scan_induction (Kernel.visitWaiter edges) (fun s kept rest =>
    Scanned k waiters s ∧ (∀ w ∈ kept, w ∈ waiters) ∧ ∀ w ∈ rest, w ∈ waiters)
    ⟨k.waitEpochs, []⟩ waiters
    ⟨⟨List.nodup_nil, by simp, by simp, fun _ _ => rfl⟩, by simp, fun _ hw => hw⟩ ?_ ?_
  · exact ⟨h.1, h.2.1⟩
  · rintro s kept w tail s' w' ⟨hs, hk, hr⟩ hv
    obtain ⟨rfl, rfl⟩ : s = s' ∧ w = w' := by
      unfold Kernel.visitWaiter at hv
      split_ifs at hv
      · simp at hv
      · simp at hv
      · simpa using hv
    refine ⟨hs, fun v hv => ?_, fun v hv => hr v (List.mem_cons_of_mem _ hv)⟩
    rcases List.mem_append.mp hv with hv | hv
    · exact hk v hv
    · exact List.mem_singleton.mp hv ▸ hr w List.mem_cons_self
  · rintro s kept w tail s' ⟨hs, hk, hr⟩ hv
    have htail : ∀ v ∈ lastToFront tail, v ∈ waiters := fun v hv =>
      hr v (List.mem_cons_of_mem _ ((lastToFront_perm tail).mem_iff.mp hv))
    exact ⟨scanned_visit hlive hs (hr w List.mem_cons_self) hv, hk, htail⟩

theorem keeps_wakeWaiters (k : Kernel) (n : NetId) (edges : Edges) :
    Keeps k (k.wakeWaiters n edges) := by
  intro hr
  obtain ⟨hs, hsub⟩ :=
    scanned_scan k edges (k.net n).waiters fun w hw => (hr n w hw).choose_spec.2.2
  unfold Kernel.wakeWaiters
  dsimp only
  generalize scan (Kernel.visitWaiter edges) ⟨k.waitEpochs, []⟩ (k.net n).waiters = s at hs hsub ⊢
  have hwaits (p : ProcId) := netWaits_clearAll s.1.procs (k.storeScan n s) p
  obtain ⟨nets, netWaits, hk⟩ := clearAll_frame s.1.procs (k.storeScan n s)
  have sub : ∀ m w, w ∈ ((k.storeScan n s).net m).waiters → w ∈ (k.net m).waiters := by
    intro m w hw
    have hnet : (k.storeScan n s).net m =
        (k.modifyNet n fun net => { net with waiters := s.2 }).net m := rfl
    rw [hnet, Kernel.net_modifyNet] at hw
    split_ifs at hw with hm
    · exact hm.1 ▸ hsub w hw
    · exact hw
  refine ⟨fun m w hw => ?_, fun p => ?_⟩
  · obtain ⟨hw₁, hclear⟩ := mem_waiters_clearAll hw
    obtain ⟨waited, hreg, hm, hep⟩ := hr m w (sub m w hw₁)
    have hnot := hclear waited hreg hm
    refine ⟨waited, ?_, hm, ?_⟩
    · rw [hwaits, if_neg hnot]
      exact hreg
    · rw [hk, hep]
      exact congrArg (·.getD 0) (hs.others _ hnot).symm
  · have hcount : s.1.procs.count p = if p ∈ s.1.procs then 1 else 0 := by
      split_ifs with hp
      · exact List.count_eq_one_of_mem hs.nodup hp
      · exact List.count_eq_zero_of_not_mem hp
    have hold : p ∈ s.1.procs → (k.netWaits p).isSome = true := fun hp => by
      obtain ⟨w, hw, rfl⟩ := hs.mem p hp
      obtain ⟨waited, hreg, -⟩ := hr n w hw
      simp [hreg]
    have hnew := hwaits p
    rw [hk] at hnew ⊢
    simp only [sources] at hnew ⊢
    rw [hnew]
    simp only [Kernel.storeScan, Kernel.modifyNet, List.count_append, hcount]
    by_cases hp : p ∈ s.1.procs
    · simp [hp, hold hp]
      omega
    · simp [hp]

theorem keeps_notifyRuntimeChange (k : Kernel) : Keeps k k.notifyRuntimeChange := by
  intro hr
  refine ⟨hr, fun p => ?_⟩
  simp only [sources, Kernel.notifyRuntimeChange, List.count_append, List.count_nil]
  omega

theorem keeps_writeNet (k : Kernel) (n : NetId) (val : PackedVec) :
    Keeps k (k.writeNet n val) := by
  have hval : Keeps k (k.setValue n val) := keeps_modifyNet k n fun _ => rfl
  unfold Kernel.writeNet
  dsimp only
  split
  · exact hval.trans ((keeps_notifyRuntimeChange _).trans (keeps_wakeWaiters _ n _))
  · exact hval

theorem keeps_triggerEvent (k : Kernel) (event : EventId) : Keeps k (k.triggerEvent event) := by
  intro hr
  refine ⟨hr, fun p => ?_⟩
  have hsplit := List.countP_eq_countP_filter_add k.eventWaiters (fun e => e.2 == p)
    (fun e => decide (e.1 = event))
  have hwoken : ((k.eventWaiters.filter (·.1 = event)).map Prod.snd).count p =
      (k.eventWaiters.filter (·.1 = event)).countP (·.2 == p) := by
    rw [List.count_eq_countP, List.countP_map]
    rfl
  have hrest : k.eventWaiters.filter (fun e => decide (e.1 ≠ event)) =
      k.eventWaiters.filter fun e => !decide (e.1 = event) :=
    List.filter_congr fun e _ => by simp
  simp only [sources, Kernel.triggerEvent, List.count_append, hwoken, hrest]
  omega

/-! ### Drive actions -/

theorem sameWakeups_pushTimedAction (k : Kernel) (time : SimTime) (region : Region)
    {action : TimedAction} (ha : ∀ p, action ≠ .resume p) :
    SameWakeups k (k.pushTimedAction time region action) := by
  refine ⟨rfl, rfl, fun p => ?_, rfl, rfl, rfl, rfl, rfl, rfl, fun _ => rfl⟩
  have hp : isResume p ⟨time, region, k.seq + 1, action⟩ = false := by
    unfold isResume
    cases action with
    | resume q => exact absurd rfl (ha q)
    | _ => rfl
  unfold Kernel.pushTimedAction
  rw [(List.perm_orderedInsert _ _ _).countP_eq, List.countP_cons, hp]
  simp

theorem keeps_touch {d : DriverId} {n : NetId} {k k' : Kernel} (h : Touch d n k k') :
    Keeps k k' := by
  have pushed {delayFs : Nat} {action : TimedAction} (ha : ∀ p, action ≠ .resume p) :
      Keeps k (k.pushTimedAction (saturatingAddFs k.time delayFs) .active action) :=
    (sameWakeups_pushTimedAction k _ .active ha).keeps
  cases h with
  | net h => cases h with
    | writeNet v hv => exact keeps_writeNet k n v
    | setDelayRequest v generations hv hg => exact keeps_modifyNet k n fun _ => rfl
    | push hpos ha =>
      apply pushed
      rintro p rfl
      exact ha
  | setDriverValue v hd hv => exact keeps_modifyNet k _ fun _ => rfl
  | setDriverRequest v generations hv hg =>
    exact SameWakeups.keeps ⟨rfl, rfl, fun _ => rfl, rfl, rfl, rfl, rfl, rfl, rfl, fun _ => rfl⟩
  | push hpos ha =>
    apply pushed
    rintro p rfl
    exact ha

theorem keeps_touches {d : DriverId} {n : NetId} {k k' : Kernel} (h : Touches d n k k') :
    Keeps k k' := keeps_sequence Keeps.refl Keeps.trans keeps_touch h

/-! ### Calls and events -/

theorem sameWakeups_newNet (k : Kernel) (initial : PackedVec) (resolution : NetResolution)
    (delay : Option NetDelay) :
    SameWakeups k (k.newNetWithResolutionAndDelay initial resolution delay) := by
  refine ⟨rfl, rfl, fun _ => rfl, rfl, rfl, rfl, rfl, rfl, rfl, fun n => ?_⟩
  unfold Kernel.net Kernel.newNetWithResolutionAndDelay
  simp only [List.getD_eq_getElem?_getD, List.getElem?_append]
  by_cases hn : n < k.nets.length
  · simp [hn]
  · rw [if_neg hn, List.getElem?_eq_none (Nat.le_of_not_lt hn)]
    cases n - k.nets.length with
    | zero => rfl
    | succ i => rfl

theorem keeps_newDriver (k : Kernel) (n : NetId) (zero one : DriveStrength) :
    Keeps k (k.newDriverWithStrengths n zero one) := by
  have hslot : Keeps k (k.addDriverSlot n zero one) := keeps_modifyNet k n fun _ => rfl
  refine hslot.trans ?_
  exact SameWakeups.keeps ⟨rfl, rfl, fun _ => rfl, rfl, rfl, rfl, rfl, rfl, rfl, fun _ => rfl⟩

theorem keeps_call (k : Kernel) (c : Call) : Keeps k (c.exec k) := by
  cases c with
  | newNet initial resolution delay => exact (sameWakeups_newNet k initial resolution delay).keeps
  | newDriver n zero one => exact keeps_newDriver k n zero one
  | writeNet n value => exact keeps_writeNet k n value
  | scheduleNba n value =>
    exact SameWakeups.keeps ⟨rfl, rfl, fun _ => rfl, rfl, rfl, rfl, rfl, rfl, rfl, fun _ => rfl⟩
  | requestStop =>
    exact SameWakeups.keeps ⟨rfl, rfl, fun _ => rfl, rfl, rfl, rfl, rfl, rfl, rfl, fun _ => rfl⟩
  | notifyRuntimeChange => exact keeps_notifyRuntimeChange k
  | triggerEvent event => exact keeps_triggerEvent k event
  | driveNet d value => exact keeps_touches (touches_driveNet k d value)
  | scheduleDrive d value delayFs => exact keeps_touches (touches_scheduleDrive k d value delayFs)
  | scheduleDriveTransitions d value delays =>
    exact keeps_touches (touches_scheduleDriveTransitions k d value delays)

theorem keeps_wakeNbaWaiters (k : Kernel) : Keeps k k.wakeNbaWaiters := by
  refine fun hr => ⟨hr, fun p => ?_⟩
  simp only [sources, Kernel.wakeNbaWaiters, List.count_append, List.count_nil]
  omega

theorem keeps_clearNba (k : Kernel) : Keeps k { k with nba := [] } :=
  SameWakeups.keeps ⟨rfl, rfl, fun _ => rfl, rfl, rfl, rfl, rfl, rfl, rfl, fun _ => rfl⟩

theorem keeps_drainNba (k : Kernel) : Keeps k k.drainNba := by
  have hbatch := Keeps.foldl (fun (k : Kernel) (u : NetId × PackedVec) =>
    keeps_writeNet k u.1 u.2) k.nba { k with nba := [] }
  exact (keeps_clearNba k).trans (hbatch.trans (keeps_wakeNbaWaiters _))

/-- Popping a drive action loses no wakeup. -/
theorem keeps_pop (k : Kernel) {ev : TimedEvent} {rest : List TimedEvent}
    (ht : k.timed = ev :: rest) (hne : ∀ p, ev.action ≠ .resume p) :
    Keeps k { k with timed := rest } := by
  refine SameWakeups.keeps ⟨rfl, rfl, fun p => ?_, rfl, rfl, rfl, rfl, rfl, rfl, fun _ => rfl⟩
  have hp : isResume p ev = false := by
    unfold isResume
    cases h : ev.action with
    | resume q => exact absurd h (hne q)
    | _ => rfl
  simp [ht, hp]

/-- Popping an event and performing its action keeps every wakeup. -/
theorem keeps_dispatch (k : Kernel) {ev : TimedEvent} {rest : List TimedEvent}
    (ht : k.timed = ev :: rest) : Keeps k ({ k with timed := rest }.dispatchEvent ev) := by
  by_cases ha : ∃ q, ev.action = .resume q
  · obtain ⟨q, ha⟩ := ha
    have hp (p : ProcId) : k.timed.countP (isResume p) =
        rest.countP (isResume p) + (if q == p then 1 else 0) := by
      rw [ht, List.countP_cons]
      simp [isResume, ha]
    have hq (p : ProcId) : [q].count p = if q == p then 1 else 0 := List.count_singleton
    unfold Kernel.dispatchEvent
    rw [ha]
    intro hr
    dsimp only
    split
    · refine ⟨hr, fun p => ?_⟩
      simp only [sources, List.count_append, hp, hq]
      omega
    · refine ⟨hr, fun p => ?_⟩
      simp only [sources, List.count_append, hp, hq]
      omega
  · have hne : ∀ p, ev.action ≠ .resume p := fun p he => ha ⟨p, he⟩
    obtain ⟨d, n, htouch⟩ := touches_dispatchEvent hne
    exact (keeps_pop k ht hne).trans (keeps_touches htouch)

theorem keeps_discardStale (k : Kernel) : Keeps k k.discardStaleTimedActions := by
  refine SameWakeups.keeps ⟨rfl, rfl, fun p => ?_, rfl, rfl, rfl, rfl, rfl, rfl, fun _ => rfl⟩
  -- a resume action is never stale, so none is dropped
  have hdrop : ∀ timed : List TimedEvent,
      (timed.dropWhile fun ev => k.staleAction ev.action).countP (isResume p) =
        timed.countP (isResume p) := by
    intro timed
    induction timed with
    | nil => rfl
    | cons ev timed ih =>
      rw [List.dropWhile_cons]
      split
      · next hs =>
        have hp : isResume p ev = false := by
          unfold isResume
          cases h : ev.action with
          | resume q => simp [h, Kernel.staleAction] at hs
          | _ => rfl
        simp [ih, hp]
      · rfl
  exact hdrop k.timed

/-! ### Parking -/

theorem mem_waitedNets (nets : List NetId) (n : NetId) : n ∈ Kernel.waitedNets nets ↔ n ∈ nets := by
  have go : ∀ (nets waited : List NetId), n ∈ nets.foldl (fun waited n =>
      if n ∈ waited then waited else waited ++ [n]) waited ↔ n ∈ waited ∨ n ∈ nets := by
    intro nets
    induction nets with
    | nil => simp
    | cons m nets ih =>
      intro waited
      rw [List.foldl_cons, ih]
      split_ifs with hm
      · by_cases hn : n = m
        · simp [hn, hm]
        · simp [hn]
      · simp [or_assoc]
  simpa [Kernel.waitedNets] using go nets []

theorem addWaiters_frame (entries : List (NetId × EdgeKind)) (pid : ProcId) (k : Kernel) :
    ∃ nets, entries.foldl (fun k e => k.addWaiter e.1 ⟨pid, e.2, (k.waitEpochs pid).getD 0⟩) k =
      { k with nets := nets } := by
  induction entries generalizing k with
  | nil => exact ⟨k.nets, rfl⟩
  | cons e entries ih =>
    rw [List.foldl_cons]
    obtain ⟨nets, h⟩ := ih (k.addWaiter e.1 ⟨pid, e.2, (k.waitEpochs pid).getD 0⟩)
    exact ⟨nets, h⟩

/-- The entries that registering adds carry the process and its current epoch. -/
theorem mem_waiters_addWaiters {entries : List (NetId × EdgeKind)} {pid : ProcId} {k : Kernel}
    {n : NetId} {w : Waiter}
    (h : w ∈ ((entries.foldl (fun (k : Kernel) e =>
      k.addWaiter e.1 ⟨pid, e.2, (k.waitEpochs pid).getD 0⟩) k).net n).waiters) :
    w ∈ (k.net n).waiters ∨
      w.proc = pid ∧ w.epoch = (k.waitEpochs pid).getD 0 ∧ n ∈ entries.map Prod.fst := by
  induction entries generalizing k with
  | nil => exact .inl h
  | cons e entries ih =>
    rw [List.foldl_cons] at h
    rcases ih h with hold | ⟨hp, he, hn⟩
    · unfold Kernel.addWaiter at hold
      rw [Kernel.net_modifyNet] at hold
      split_ifs at hold with hm
      · rcases List.mem_append.mp hold with hold | hnew
        · exact .inl hold
        · obtain rfl := List.mem_singleton.mp hnew
          exact .inr ⟨rfl, rfl, by simp [hm.1]⟩
      · exact .inl hold
    · exact .inr ⟨hp, he, List.mem_cons_of_mem _ hn⟩

/-- Parking adds one source for the process and none for others. -/
def Adds (k k' : Kernel) (pid : ProcId) (count : Nat) : Prop :=
  Registered k' ∧ ∀ p, sources k' p = sources k p + if p = pid then count else 0

theorem registered_of_unwaited {k : Kernel} (hr : Registered k) {pid : ProcId}
    (hn : k.netWaits pid = none) (n : NetId) {w : Waiter} (hw : w ∈ (k.net n).waiters) :
    w.proc ≠ pid := by
  rintro rfl
  obtain ⟨waited, hs, -⟩ := hr n w hw
  simp [hn] at hs

theorem adds_registerNets {k : Kernel} (hr : Registered k) {pid : ProcId}
    (hn : k.netWaits pid = none) (entries : List (NetId × EdgeKind)) :
    Adds k (k.registerNets pid entries) pid 1 := by
  obtain ⟨nets, hk⟩ := addWaiters_frame entries pid k
  refine ⟨fun n w hw => ?_, fun p => ?_⟩
  · have hwaits : (k.registerNets pid entries).netWaits =
        Function.update k.netWaits pid (some (Kernel.waitedNets (entries.map Prod.fst))) := rfl
    have hepochs : (k.registerNets pid entries).waitEpochs = k.waitEpochs := by
      simp only [Kernel.registerNets, hk]
    rw [hwaits, hepochs]
    rcases mem_waiters_addWaiters hw with hold | ⟨rfl, he, hmem⟩
    · obtain ⟨waited, hs, hm, he⟩ := hr n w hold
      have hne := registered_of_unwaited hr hn n hold
      exact ⟨waited, by simpa [Function.update_apply, hne] using hs, hm, he⟩
    · exact ⟨_, by simp, (mem_waitedNets _ n).mpr hmem, he⟩
  · simp only [sources, Kernel.registerNets, hk, Function.update_apply]
    split_ifs with hp
    · subst hp
      simp [hn]
    · simp

theorem bumpEpoch_registered {k : Kernel} (hr : Registered k) {pid : ProcId}
    (hn : k.netWaits pid = none) : Registered (k.bumpEpoch pid) := by
  intro n w hw
  have hne := registered_of_unwaited hr hn n hw
  obtain ⟨waited, hs, hm, he⟩ := hr n w hw
  exact ⟨waited, hs, hm, by simpa [Kernel.bumpEpoch, Function.update_apply, hne] using he⟩

/-- Arming a wait gives a process without wakeup sources exactly one, or none if it has
finished. -/
theorem adds_arm {k : Kernel} (hr : Registered k) {pid : ProcId} (h0 : sources k pid = 0)
    {wait : Wait} (hf : ∀ children join, wait ≠ .fork children join) :
    Adds k (k.arm pid wait) pid (if wait = .finished then 0 else 1) := by
  have hn : k.netWaits pid = none := by
    simp only [sources] at h0
    cases h : k.netWaits pid with
    | none => rfl
    | some waited => simp [h] at h0
  have hclear : k.clearNetWaiters pid = k := by simp [Kernel.clearNetWaiters, hn]
  have hr' := bumpEpoch_registered hr hn
  have hsame (p : ProcId) : sources (k.bumpEpoch pid) p = sources k p := rfl
  unfold Kernel.arm
  rw [hclear]
  cases wait with
  | finished =>
    refine ⟨fun n w hw => ?_, fun p => by simp [sources, Kernel.bumpEpoch]⟩
    have hne := registered_of_unwaited hr' hn n hw
    obtain ⟨waited, hs, hm, he⟩ := hr' n w hw
    exact ⟨waited, hs, hm, by simpa [Function.update_apply, hne] using he⟩
  | delay fs =>
    refine ⟨hr', fun p => ?_⟩
    have hp : isResume p ⟨saturatingAddFs k.time fs, .active, k.seq + 1, .resume pid⟩ =
        (pid == p) := rfl
    simp only [sources, Kernel.pushTimedAction, Kernel.bumpEpoch,
      (List.perm_orderedInsert _ _ _).countP_eq, List.countP_cons, hp]
    by_cases he : p = pid
    · simp [he]
      omega
    · simp [he, Ne.symm he]
  | edge n kind => exact ⟨(adds_registerNets hr' hn _).1, fun p => (adds_registerNets hr' hn _).2 p⟩
  | sensitivity list => exact adds_registerNets hr' hn list
  | cond nets => exact adds_registerNets hr' hn _
  | runtimeCond =>
    refine ⟨hr', fun p => ?_⟩
    simp only [sources, Kernel.bumpEpoch, List.count_append, List.count_singleton]
    by_cases he : p = pid
    · simp [he]
      omega
    · simp [he, Ne.symm he]
  | nba =>
    refine ⟨hr', fun p => ?_⟩
    simp only [sources, Kernel.bumpEpoch, List.count_append, List.count_singleton]
    by_cases he : p = pid
    · simp [he]
      omega
    · simp [he, Ne.symm he]
  | namedEvent event =>
    refine ⟨hr', fun p => ?_⟩
    simp only [sources, Kernel.bumpEpoch, List.countP_append, List.countP_singleton]
    by_cases he : p = pid
    · simp [he]
      omega
    · simp [he, Ne.symm he]
  | fork children join => exact absurd rfl (hf children join)

theorem keeps_notifyFinished (k : Kernel) (pid : ProcId) : Keeps k (k.notifyFinished pid) := by
  intro hr
  refine ⟨hr, fun p => ?_⟩
  have h := scan_induction (Kernel.visitWatch pid) (fun woken kept rest =>
    woken.count p + kept.countP (·.parent == p) + rest.countP (·.parent == p) =
      k.joinWatches.countP (·.parent == p)) [] k.joinWatches (by simp) ?_ ?_
  · simp only [sources, Kernel.notifyFinished, List.count_append]
    simp only [List.countP_nil] at h
    omega
  · intro woken kept w tail woken' w' hP hv
    unfold Kernel.visitWatch at hv
    dsimp only at hv
    split_ifs at hv
    · simp at hv
    · obtain ⟨rfl, rfl⟩ :
        woken = woken' ∧ { w with remaining := w.remaining.filter (· ≠ pid) } = w' := by
        simpa using hv
      simp only [List.countP_append, List.countP_cons, List.countP_nil] at hP ⊢
      omega
  · intro woken kept w tail woken' hP hv
    unfold Kernel.visitWatch at hv
    dsimp only at hv
    split_ifs at hv
    · obtain rfl : woken ++ [w.parent] = woken' := by simpa using hv
      rw [(lastToFront_perm tail).countP_eq]
      simp only [List.count_append, List.count_singleton, List.countP_cons] at hP ⊢
      omega
    · simp at hv

/-! ### Runs -/

/-- The process inside whose `resume` the simulation stands. -/
def current (s : Sim) : Option ProcId :=
  match s.mode with
  | .resuming _ pid => some pid
  | _ => none

/-- The process is in the table, has not finished and is not running. -/
def Parked (s : Sim) (p : ProcId) : Prop :=
  p < s.procs.length ∧ s.lastWait p ≠ some .finished ∧ current s ≠ some p

instance (s : Sim) (p : ProcId) : Decidable (Parked s p) := by
  unfold Parked
  infer_instance

/-- The single-location invariant, at every step. -/
structure Held (s : Sim) : Prop where
  registered : Registered s.kernel
  sources : ∀ p, sources s.kernel p = if Parked s p then 1 else 0
  running : ∀ p, current s = some p → p < s.procs.length ∧ s.lastWait p = none

theorem Held.of_keeps {s : Sim} (h : Held s) {k' : Kernel} (hk : Keeps s.kernel k') {mode : Mode}
    (hm : current { s with mode := mode } = current s) :
    Held { s with kernel := k', mode := mode } := by
  obtain ⟨hr, hs⟩ := hk h.registered
  have hcur : current ⟨k', s.procs, mode⟩ = current s := hm
  have hpark (p : ProcId) : Parked ⟨k', s.procs, mode⟩ p ↔ Parked s p := by
    simp only [Parked, hcur]
    exact Iff.rfl
  refine ⟨hr, fun p => ?_, fun p hp => h.running p (hcur ▸ hp)⟩
  rw [hs, h.sources]
  simp only [hpark]

theorem getD_set_proc {procs : List (Option Wait)} {pid : ProcId} (hpid : pid < procs.length)
    (w : Option Wait) (p : ProcId) :
    (procs.set pid w).getD p none = if p = pid then w else procs.getD p none := by
  simp only [List.getD_eq_getElem?_getD, List.getElem?_set]
  by_cases hp : p = pid
  · subst hp
    simp [hpid]
  · simp [hp, Ne.symm hp]

theorem held_new : Held Sim.new := by
  refine ⟨fun n w hw => ?_, fun p => ?_, fun p hp => by simp [current, Sim.new] at hp⟩
  · have hnil : (Sim.new.kernel.net n).waiters = [] := rfl
    simp [hnil] at hw
  · have hp : ¬ Parked Sim.new p := fun h => Nat.not_lt_zero p h.1
    rw [if_neg hp]
    rfl

theorem held_addProcess {s : Sim} (h : Held s) (hm : s.mode = .idle) : Held s.addProcess := by
  have hcur : current s = none := by simp [current, hm]
  have hcur' : current s.addProcess = none := by simp [current, Sim.addProcess, hm]
  refine ⟨h.registered, fun p => ?_, fun p hp => by simp [hcur'] at hp⟩
  have hs := h.sources p
  have hcount : sources s.addProcess.kernel p =
      sources s.kernel p + if p = s.procs.length then 1 else 0 := by
    simp only [Wakeup.sources, Sim.addProcess, List.count_append, List.count_singleton]
    by_cases hp : p = s.procs.length
    · simp [hp]
      omega
    · simp [hp, Ne.symm hp]
  have hlast : s.addProcess.lastWait p = s.lastWait p := by
    unfold Sim.lastWait Sim.addProcess
    simp only [List.getD_eq_getElem?_getD, List.getElem?_append]
    by_cases hp : p < s.procs.length
    · simp [hp]
    · rw [if_neg hp, List.getElem?_eq_none (Nat.le_of_not_lt hp)]
      cases p - s.procs.length <;> rfl
  rw [hcount, hs]
  simp only [Parked, hcur, hcur', hlast]
  have hlen : s.addProcess.procs.length = s.procs.length + 1 := by simp [Sim.addProcess]
  rw [hlen]
  by_cases hp : p = s.procs.length
  · have hnone : s.lastWait p = none := by
      simp [Sim.lastWait, hp, List.getD_eq_getElem?_getD]
    simp [hp, hp ▸ hnone]
  · have hiff : p < s.procs.length + 1 ↔ p < s.procs.length :=
      ⟨fun h => Nat.lt_of_le_of_ne (Nat.le_of_lt_succ h) hp, Nat.lt_succ_of_lt⟩
    simp [hp, hiff]

theorem held_resume {s : Sim} (h : Held s) {limit : Option SimTime} {pid : ProcId}
    {rest : List ProcId} (hm : s.mode = .running limit) (ha : s.kernel.active = pid :: rest) :
    Held ⟨{ s.kernel with active := rest }, s.procs.set pid none, .resuming limit pid⟩ := by
  have hcur : current s = none := by simp [current, hm]
  have hpop (p : ProcId) : sources s.kernel p =
      sources { s.kernel with active := rest } p + if p = pid then 1 else 0 := by
    simp only [Wakeup.sources, ha, List.count_cons]
    by_cases hp : p = pid
    · simp [hp]
      omega
    · simp [hp, Ne.symm hp]
  have hpid : Parked s pid := by
    by_contra hn
    have h1 := hpop pid
    rw [h.sources, if_neg hn, if_pos rfl] at h1
    omega
  have hlast (p : ProcId) : Sim.lastWait
      ⟨{ s.kernel with active := rest }, s.procs.set pid none, .resuming limit pid⟩ p =
      if p = pid then none else s.lastWait p := getD_set_proc hpid.1 none p
  refine ⟨h.registered, fun p => ?_, fun p hp => ?_⟩
  · have h1 := hpop p
    rw [h.sources] at h1
    by_cases hp : p = pid
    · subst hp
      rw [if_pos hpid, if_pos rfl] at h1
      rw [if_neg fun hn => hn.2.2 rfl]
      exact (Nat.succ.inj h1).symm
    · have hcur' : current ⟨{ s.kernel with active := rest }, s.procs.set pid none,
          .resuming limit pid⟩ = some pid := rfl
      have hiff : Parked ⟨{ s.kernel with active := rest }, s.procs.set pid none,
          .resuming limit pid⟩ p ↔ Parked s p := by
        simp only [Parked, hlast, hcur, hcur', List.length_set, hp, if_false]
        simp [Ne.symm hp]
      simp only [hiff]
      simpa [hp] using h1.symm
  · obtain rfl : pid = p := by simpa [current] using hp
    exact ⟨by simpa using hpid.1, by rw [hlast, if_pos rfl]⟩

/-- Parking the running process, with one source added unless it has finished. -/
theorem held_of_adds {s : Sim} (h : Held s) {limit : Option SimTime} {pid : ProcId} {wait : Wait}
    (hm : s.mode = .resuming limit pid) {k' : Kernel}
    (hk : Adds s.kernel k' pid (if wait = .finished then 0 else 1)) {mode : Mode}
    (hmode : mode = .idle ∨ mode = .running limit) :
    Held ⟨k', s.procs.set pid (some wait), mode⟩ := by
  have hcur : current s = some pid := by simp [current, hm]
  have hcur' : current ⟨k', s.procs.set pid (some wait), mode⟩ = none := by
    rcases hmode with rfl | rfl <;> rfl
  obtain ⟨hpid, -⟩ := h.running pid hcur
  have hlast (p : ProcId) : Sim.lastWait ⟨k', s.procs.set pid (some wait), mode⟩ p =
      if p = pid then some wait else s.lastWait p := getD_set_proc hpid _ p
  refine ⟨hk.1, fun p => ?_, fun p hp => by simp [hcur'] at hp⟩
  rw [hk.2, h.sources]
  simp only [Parked, hlast, hcur, hcur', List.length_set]
  by_cases hp : p = pid
  · subst hp
    by_cases hw : wait = .finished <;> simp [hw, hpid]
  · simp [hp, Ne.symm hp]

/-- Spawning children puts each of them on the active queue once. -/
theorem held_spawn {s : Sim} (h : Held s) (hcur : current s = none) (children : Nat) {k' : Kernel}
    (hr : Registered k') (hs : ∀ p, sources k' p = sources s.kernel p +
      ((List.range children).map (s.procs.length + ·)).count p) :
    Held ⟨k', s.procs ++ List.replicate children none, s.mode⟩ := by
  have hcur' : current ⟨k', s.procs ++ List.replicate children none, s.mode⟩ = none := hcur
  refine ⟨hr, fun p => ?_, fun p hp => by simp [hcur'] at hp⟩
  have hlast : Sim.lastWait ⟨k', s.procs ++ List.replicate children none, s.mode⟩ p =
      s.lastWait p := by
    unfold Sim.lastWait
    simp only [List.getD_eq_getElem?_getD, List.getElem?_append, List.getElem?_replicate]
    by_cases hp : p < s.procs.length
    · simp [hp]
    · rw [if_neg hp, List.getElem?_eq_none (Nat.le_of_not_lt hp)]
      split_ifs <;> rfl
  have hnodup : ((List.range children).map (s.procs.length + ·)).Nodup :=
    List.nodup_range.map fun a b he => Nat.add_left_cancel he
  have hmem : p ∈ (List.range children).map (s.procs.length + ·) ↔
      s.procs.length ≤ p ∧ p < s.procs.length + children := by
    simp only [List.mem_map, List.mem_range]
    constructor
    · rintro ⟨a, ha, rfl⟩
      exact ⟨Nat.le_add_right _ _, Nat.add_lt_add_left ha _⟩
    · rintro ⟨h1, h2⟩
      exact ⟨p - s.procs.length, Nat.sub_lt_left_of_lt_add h1 h2, Nat.add_sub_cancel' h1⟩
  rw [hs, h.sources]
  simp only [Parked, hlast, hcur, hcur', List.length_append, List.length_replicate]
  by_cases hp : p < s.procs.length
  · have hn : p ∉ (List.range children).map (s.procs.length + ·) := fun hm =>
      Nat.not_le.mpr hp (hmem.mp hm).1
    rw [List.count_eq_zero_of_not_mem hn]
    simp [hp, Nat.lt_add_right children hp]
  · have hnone : s.lastWait p = none := by
      simp [Sim.lastWait, List.getD_eq_getElem?_getD, List.getElem?_eq_none (Nat.le_of_not_lt hp)]
    by_cases hc : p < s.procs.length + children
    · rw [List.count_eq_one_of_mem hnodup (hmem.mpr ⟨Nat.le_of_not_lt hp, hc⟩)]
      simp [hp, hc, hnone]
    · rw [List.count_eq_zero_of_not_mem fun hm => hc (hmem.mp hm).2]
      simp [hp, hc]

theorem held_park {s : Sim} (h : Held s) {limit : Option SimTime} {pid : ProcId} {wait : Wait}
    (hm : s.mode = .resuming limit pid) {mode : Mode}
    (hmode : mode = .idle ∨ mode = .running limit) :
    Held { s.park pid wait with mode := mode } := by
  have hcur : current s = some pid := by simp [current, hm]
  have h0 : sources s.kernel pid = 0 := by
    rw [h.sources, if_neg fun hp => hp.2.2 hcur]
  have arms (hf : ∀ children join, wait ≠ .fork children join) :=
    adds_arm h.registered h0 hf
  cases wait with
  | finished =>
    obtain ⟨hr, hs⟩ := arms (by simp)
    obtain ⟨hr', hs'⟩ := keeps_notifyFinished _ pid hr
    exact held_of_adds h hm ⟨hr', fun p => (hs' p).trans (hs p)⟩ hmode
  | fork children join =>
    -- first the parent, then its children
    have hparent : Adds s.kernel { s.kernel with active := s.kernel.active ++ [pid] } pid 1 := by
      refine ⟨h.registered, fun p => ?_⟩
      simp only [Wakeup.sources, List.count_append, List.count_singleton]
      by_cases hp : p = pid
      · simp [hp]
        omega
      · simp [hp, Ne.symm hp]
    have hheld : Held ⟨{ s.kernel with active := s.kernel.active ++ [pid] },
        s.procs.set pid (some (.fork children join)), mode⟩ :=
      @held_of_adds s h limit pid (.fork children join) hm _ hparent mode hmode
    have hnone : current ⟨{ s.kernel with active := s.kernel.active ++ [pid] },
        s.procs.set pid (some (.fork children join)), mode⟩ = none := by
      rcases hmode with rfl | rfl <;> rfl
    refine held_spawn hheld hnone children ?_ fun p => ?_
    · unfold Sim.park Sim.spawnFork
      dsimp only
      split
      · exact h.registered
      · exact h.registered
    · unfold Sim.park Sim.spawnFork
      dsimp only
      split
      · simp only [Wakeup.sources, List.count_append, List.length_set]
        omega
      · simp only [Wakeup.sources, List.count_append, List.length_set, List.countP_append,
          List.countP_singleton, List.count_singleton]
        omega
  | _ => exact held_of_adds h hm (arms (by simp)) hmode

theorem keeps_promote (k : Kernel) :
    Keeps k { k with active := k.active ++ k.inactive, inactive := [] } := by
  refine fun hr => ⟨hr, fun p => ?_⟩
  simp only [Wakeup.sources, List.count_append, List.count_nil]
  omega

/-- Every step keeps the single-location invariant. -/
theorem held_step {l : Label} {s s' : Sim} (h : Held s) (hs : step l s = some s') : Held s' := by
  cases stepped_of_step hs with
  | call hm hv => exact h.of_keeps (keeps_call s.kernel _) rfl
  | addProcess hm => exact held_addProcess h hm
  | runUntil hm => exact h.of_keeps (.refl _) (by simp [current, hm])
  | resume hm ha => exact held_resume h hm ha
  | suspend hm hn =>
    refine held_park h hm ?_
    split_ifs
    · exact .inl rfl
    · exact .inr rfl
  | promote hm ha hi => exact h.of_keeps (keeps_promote _) rfl
  | drainNba hm ha hi hp hn => exact h.of_keeps (keeps_drainNba _) rfl
  | done hm hq ht => exact h.of_keeps (keeps_discardStale _) (by simp [current, hm])
  | limited hm hq ht hl =>
    refine h.of_keeps ((keeps_discardStale _).trans ?_) (by simp [current, hm])
    exact SameWakeups.keeps ⟨rfl, rfl, fun _ => rfl, rfl, rfl, rfl, rfl, rfl, rfl, fun _ => rfl⟩
  | advance hm hq ht hl =>
    refine h.of_keeps ((keeps_discardStale _).trans ?_) (by simp [current, hm])
    exact SameWakeups.keeps ⟨rfl, rfl, fun _ => rfl, rfl, rfl, rfl, rfl, rfl, rfl, fun _ => rfl⟩
  | dispatch hm ht hd => exact h.of_keeps (keeps_dispatch _ ht) rfl
  | settle hm hd => exact h.of_keeps (.refl _) (by simp [current, hm])

theorem held_run {labels : List Label} {s : Sim} (hr : Runs labels s) : Held s :=
  run_invariant Held hr held_new fun _ _ _ => held_step

/-- The queued process is parked, and that queue slot is its only wakeup source. -/
theorem Held.active_head {s : Sim} (h : Held s) {pid : ProcId} {rest : List ProcId}
    (ha : s.kernel.active = pid :: rest) : Parked s pid ∧ pid ∉ rest := by
  have hs := h.sources pid
  simp only [Wakeup.sources, ha, List.count_cons_self] at hs
  split_ifs at hs with hp
  · refine ⟨hp, fun hmem => ?_⟩
    have := List.count_pos_iff.mpr hmem
    omega
  · omega

/-! ### One resume for each armed wait -/

/-- The step resumes `p`. -/
def resumesOf (p : ProcId) (s : Sim) : Label → List Unit
  | .resume => if s.kernel.active.head? = some p then [()] else []
  | _ => []

/-- The step arms a wait of `p`. -/
def armsOf (p : ProcId) (s : Sim) : Label → List Unit
  | .suspend wait => if current s = some p ∧ wait ≠ .finished then [()] else []
  | _ => []

theorem procs_park (s : Sim) (pid : ProcId) (wait : Wait) :
    ∃ children, (s.park pid wait).procs =
      s.procs.set pid (some wait) ++ List.replicate children none := by
  cases wait with
  | fork children join => exact ⟨children, rfl⟩
  | _ => exact ⟨0, by simp [Sim.park]⟩

theorem getD_append_none (procs : List (Option Wait)) (children p : Nat) :
    (procs ++ List.replicate children none).getD p none = procs.getD p none := by
  simp only [List.getD_eq_getElem?_getD, List.getElem?_append, List.getElem?_replicate]
  by_cases hp : p < procs.length
  · simp [hp]
  · rw [if_neg hp, List.getElem?_eq_none (Nat.le_of_not_lt hp)]
    split_ifs <;> rfl

/-- The running process parks, and its new children are parked too. -/
theorem parked_park {s : Sim} (h : Held s) {pid : ProcId} (hcur : current s = some pid)
    (wait : Wait) {k' : Kernel} {mode : Mode} {children : Nat}
    (hmode : current ⟨k', s.procs.set pid (some wait) ++ List.replicate children none, mode⟩ = none)
    (p : ProcId) :
    Parked ⟨k', s.procs.set pid (some wait) ++ List.replicate children none, mode⟩ p ↔
      Parked s p ∨ p = pid ∧ wait ≠ .finished ∨
        s.procs.length ≤ p ∧ p < s.procs.length + children := by
  obtain ⟨hpid, -⟩ := h.running pid hcur
  have hlast : Sim.lastWait
      ⟨k', s.procs.set pid (some wait) ++ List.replicate children none, mode⟩ p =
      if p = pid then some wait else s.lastWait p := by
    unfold Sim.lastWait
    rw [getD_append_none, getD_set_proc hpid]
  simp only [Parked, hmode, hlast, hcur, List.length_append, List.length_set,
    List.length_replicate]
  by_cases hp : p = pid
  · subst hp
    have hlt : p < s.procs.length + children := Nat.lt_add_right children hpid
    simp [hpid, hlt, Nat.not_le.mpr hpid]
  · simp only [hp, if_false, false_and, false_or]
    by_cases hlt : p < s.procs.length
    · simp [hlt, Nat.lt_add_right children hlt, Nat.not_le.mpr hlt, Ne.symm hp]
    · have hnone : s.lastWait p = none := by
        simp [Sim.lastWait, List.getD_eq_getElem?_getD,
          List.getElem?_eq_none (Nat.le_of_not_lt hlt)]
      simp [hlt, hnone, Nat.le_of_not_lt hlt]

/-- A step consumes one armed wait for each resume; processes are born parked. -/
theorem balance_step {l : Label} {s s' : Sim} (h : Held s) (hs : step l s = some s')
    (p : ProcId) :
    (resumesOf p s l).length + (if Parked s' p then 1 else 0) +
        (if p < s.procs.length then 1 else 0) =
      (armsOf p s l).length + (if Parked s p then 1 else 0) +
        (if p < s'.procs.length then 1 else 0) := by
  -- steps that neither resume nor park
  have unchanged (k' : Kernel) (mode : Mode) (hc : current ⟨k', s.procs, mode⟩ = current s) :
      0 + (if Parked ⟨k', s.procs, mode⟩ p then 1 else 0) + (if p < s.procs.length then 1 else 0) =
        0 + (if Parked s p then 1 else 0) + (if p < s.procs.length then 1 else 0) := by
    have hiff : Parked ⟨k', s.procs, mode⟩ p ↔ Parked s p := by
      simp only [Parked, hc]
      exact Iff.rfl
    simp only [hiff]
  cases stepped_of_step hs with
  | call hm hv => exact unchanged _ _ rfl
  | runUntil hm => exact unchanged _ _ (by simp [current, hm])
  | promote hm ha hi => exact unchanged _ _ rfl
  | drainNba hm ha hi hp hn => exact unchanged _ _ rfl
  | done hm hq ht => exact unchanged _ _ (by simp [current, hm])
  | limited hm hq ht hl => exact unchanged _ _ (by simp [current, hm])
  | advance hm hq ht hl => exact unchanged _ _ (by simp [current, hm])
  | dispatch hm ht hd => exact unchanged _ _ rfl
  | settle hm hd => exact unchanged _ _ (by simp [current, hm])
  | addProcess hm =>
    have hcur : current s = none := by simp [current, hm]
    have hcur' : current s.addProcess = none := by simp [current, Sim.addProcess, hm]
    have hlen : s.addProcess.procs.length = s.procs.length + 1 := by simp [Sim.addProcess]
    have hlast : s.addProcess.lastWait p = s.lastWait p := getD_append_none s.procs 1 p
    simp only [resumesOf, armsOf, List.length_nil, Parked, hcur, hcur', hlast, hlen]
    by_cases hlt : p < s.procs.length
    · simp [hlt, Nat.lt_succ_of_lt hlt]
    · have hnone : s.lastWait p = none := by
        simp [Sim.lastWait, List.getD_eq_getElem?_getD,
          List.getElem?_eq_none (Nat.le_of_not_lt hlt)]
      simp [hlt, hnone]
  | @resume _ limit pid rest hm ha =>
    have hcur : current s = none := by simp [current, hm]
    obtain ⟨hpid, -⟩ := h.active_head ha
    have hlast := getD_set_proc hpid.1 none p
    simp only [resumesOf, armsOf, ha, List.head?_cons, Option.some.injEq, List.length_nil,
      List.length_set]
    by_cases hp : p = pid
    · subst hp
      have hnot : ¬ Parked ⟨{ s.kernel with active := rest }, s.procs.set p none,
          .resuming limit p⟩ p := fun hn => hn.2.2 rfl
      simp [hnot, hpid]
    · have hcur' : current ⟨{ s.kernel with active := rest }, s.procs.set pid none,
          .resuming limit pid⟩ = some pid := rfl
      have hiff : Parked ⟨{ s.kernel with active := rest }, s.procs.set pid none,
          .resuming limit pid⟩ p ↔ Parked s p := by
        simp only [Parked, Sim.lastWait, hlast, hcur, hcur', List.length_set, hp, if_false]
        simp [Ne.symm hp]
      simp [hiff, Ne.symm hp]
  | @suspend _ limit pid wait hm hn =>
    have hcur : current s = some pid := by simp [current, hm]
    obtain ⟨hpid, -⟩ := h.running pid hcur
    obtain ⟨children, hprocs⟩ := procs_park s pid wait
    have hmode : current ⟨(s.park pid wait).kernel,
        s.procs.set pid (some wait) ++ List.replicate children none,
        if (s.park pid wait).kernel.stop then .idle else .running limit⟩ = none := by
      unfold current
      split_ifs <;> rfl
    have hiff := parked_park h hcur wait hmode p
    simp only [resumesOf, armsOf, List.length_nil, hprocs, hcur, Option.some.injEq, hiff,
      List.length_append, List.length_set, List.length_replicate]
    by_cases hp : p = pid
    · subst hp
      have hnot : ¬ Parked s p := fun hn => hn.2.2 hcur
      by_cases hw : wait = .finished <;>
        simp [hnot, hw, hpid, Nat.lt_add_right children hpid, Nat.not_le.mpr hpid]
    · by_cases hlt : p < s.procs.length
      · simp [hp, Ne.symm hp, hlt, Nat.lt_add_right children hlt, Nat.not_le.mpr hlt]
      · have hnot : ¬ Parked s p := fun hn => hlt hn.1
        simp [hp, Ne.symm hp, hlt, hnot, Nat.le_of_not_lt hlt]

/-- Along a run every armed wait of a process, and its birth, accounts for one resume or for its
one current wakeup source. -/
theorem balance_run {labels : List Label} {s : Sim} (hr : Runs labels s) (p : ProcId) :
    (trace step (resumesOf p) Sim.new labels).length + (if Parked s p then 1 else 0) =
      (trace step (armsOf p) Sim.new labels).length + (if p < s.procs.length then 1 else 0) := by
  have h := run_induction (fun h t => Held t ∧
    (h.flatMap fun x => resumesOf p x.1 x.2).length + (if Parked t p then 1 else 0) =
      (h.flatMap fun x => armsOf p x.1 x.2).length + (if p < t.procs.length then 1 else 0))
    hr ⟨held_new, by simp [Parked, Sim.new]⟩ ?_
  · exact h.2
  · rintro h t l t' ⟨hheld, hbal⟩ hs
    have hstep := balance_step hheld hs p
    refine ⟨held_step hheld hs, ?_⟩
    simp only [List.flatMap_append, List.flatMap_cons, List.flatMap_nil, List.append_nil,
      List.length_append]
    omega

/-- A step keeps a finished process finished. -/
theorem finished_step {l : Label} {s s' : Sim} (h : Held s) (hs : step l s = some s')
    {p : ProcId} (hf : s.lastWait p = some .finished) : s'.lastWait p = some .finished := by
  cases stepped_of_step hs with
  | addProcess hm => exact (getD_append_none s.procs 1 p).trans hf
  | @resume _ limit pid rest hm ha =>
    obtain ⟨hpid, -⟩ := h.active_head ha
    have hne : p ≠ pid := fun he => hpid.2.1 (he ▸ hf)
    exact (getD_set_proc hpid.1 none p).trans (by rw [if_neg hne]; exact hf)
  | @suspend _ limit pid wait hm hn =>
    obtain ⟨hpid, hnone⟩ := h.running pid (by simp [current, hm])
    obtain ⟨children, hprocs⟩ := procs_park s pid wait
    have hne : p ≠ pid := fun he => by simp [← he, hf] at hnone
    unfold Sim.lastWait
    dsimp only
    rw [hprocs, getD_append_none, getD_set_proc hpid, if_neg hne]
    exact hf
  | _ => exact hf

/-- A process whose resume returned `Finished` stays finished. -/
theorem finished_run {labels : List Label} {s : Sim} (hr : Runs labels s) {t : Sim}
    (ht : (t, Label.suspend .finished) ∈ steps step Sim.new labels) {p : ProcId}
    (hp : current t = some p) : s.lastWait p = some .finished := by
  have h := run_induction (fun h t => Held t ∧ ∀ r, (r, Label.suspend .finished) ∈ h →
    current r = some p → t.lastWait p = some .finished) hr ⟨held_new, by simp⟩ ?_
  · exact h.2 t ht hp
  · rintro h t l t' ⟨hheld, hfin⟩ hs
    refine ⟨held_step hheld hs, fun r hr hrp => ?_⟩
    rcases List.mem_append.mp hr with hr | hr
    · exact finished_step hheld hs (hfin r hr hrp)
    · obtain ⟨rfl, rfl⟩ := Prod.mk.inj (List.mem_singleton.mp hr)
      cases stepped_of_step hs with
      | @suspend _ limit pid _ hm hn =>
        obtain rfl : pid = p := by simpa [current, hm] using hrp
        exact (getD_set_proc (hheld.running pid hrp).1 _ pid).trans (if_pos rfl)

/-- Between any two steps of any run: a parked process has exactly one wakeup source, a running
one none, and one whose resume returned `Finished` none ever after; every sensitivity entry is
registered under its process's current epoch; the process that resumes next is parked and queued
once; and armed waits, with the birth of the process, bound its resumes. -/
theorem single_wakeup {labels : List Label} {s : Sim} (hr : Runs labels s) :
    (∀ p, Parked s p → sources s.kernel p = 1) ∧
    (∀ p, current s = some p → sources s.kernel p = 0) ∧
    (∀ t p, (t, Label.suspend .finished) ∈ steps step Sim.new labels → current t = some p →
      sources s.kernel p = 0 ∧ ∀ n, ∀ w ∈ (s.kernel.net n).waiters, w.proc ≠ p) ∧
    (∀ n, ∀ w ∈ (s.kernel.net n).waiters, ∃ waited, s.kernel.netWaits w.proc = some waited ∧
      n ∈ waited ∧ w.epoch = (s.kernel.waitEpochs w.proc).getD 0) ∧
    (∀ p rest, s.kernel.active = p :: rest → Parked s p ∧ p ∉ rest) ∧
    ∀ p, (trace step (resumesOf p) Sim.new labels).length ≤
      (trace step (armsOf p) Sim.new labels).length + 1 := by
  have h := held_run hr
  refine ⟨fun p hp => ?_, fun p hp => ?_, fun t p ht hp => ?_, h.registered,
    fun p rest ha => h.active_head ha, fun p => ?_⟩
  · rw [h.sources, if_pos hp]
  · rw [h.sources, if_neg fun hn => hn.2.2 hp]
  · have hfin := finished_run hr ht hp
    have h0 : sources s.kernel p = 0 := by rw [h.sources, if_neg fun hn => hn.2.1 hfin]
    refine ⟨h0, fun n w hw hpw => ?_⟩
    obtain ⟨waited, hs, -⟩ := h.registered n w hw
    simp only [sources] at h0
    simp [← hpw, hs] at h0
  · have hb := balance_run hr p
    split_ifs at hb <;> omega

/-- One process waits for either of two edges, a second one makes both and finishes. -/
def edgeRun : List Label :=
  [.call (.newNet (.zero 1) .wire none), .addProcess, .addProcess, .runUntil none, .resume,
    .suspend (.sensitivity [(0, .posedge), (0, .anyChange)]), .resume,
    .call (.writeNet 0 (.ones 1)), .suspend .finished]

theorem edgeRun_isSome : (run step Sim.new edgeRun).isSome = true := rfl

theorem single_wakeup_edge : ∃ s, Runs edgeRun s ∧ s.kernel.active = [0] ∧
    sources s.kernel 0 = 1 := by
  have hr : Runs edgeRun ((run step Sim.new edgeRun).get edgeRun_isSome) :=
    (Option.some_get edgeRun_isSome).symm
  exact ⟨_, hr, rfl, (single_wakeup hr).1 0 (by decide)⟩

end Eevee.Sched.Wakeup
