/- What the kernel operations leave alone. -/

import Mathlib.Data.List.Basic
import Mathlib.Logic.Relation
import Mathlib.Tactic.Common
import Mathlib.Tactic.SplitIfs
import Eevee.Lib.Folds
import Eevee.Sched.Simulation

set_option autoImplicit false
set_option relaxedAutoImplicit false

namespace Eevee.Sched.Frames

open Eevee.Core.Logic
open Eevee.Lib.Folds
open Eevee.Lib.SwapScan
open Eevee.Sched.Nets
open Eevee.Sched.Resolution
open Eevee.Sched.Scheduler
open Eevee.Sched.Simulation

/-! ### Waking processes -/

/-- A net without its sensitivity list. -/
def signals (net : Net) : Net := { net with waiters := [] }

/-- Queues and wakeup tables aside, the kernel is the same. -/
structure Calm (k k' : Kernel) : Prop where
  time : k'.time = k.time
  length : k'.nets.length = k.nets.length
  signals : ∀ n, signals (k'.net n) = signals (k.net n)
  drivers : k'.drivers = k.drivers
  driverRequests : k'.driverRequests = k.driverRequests
  driverBitGenerations : k'.driverBitGenerations = k.driverBitGenerations
  timed : k'.timed = k.timed
  seq : k'.seq = k.seq

theorem Calm.refl (k : Kernel) : Calm k k := ⟨rfl, rfl, fun _ => rfl, rfl, rfl, rfl, rfl, rfl⟩

theorem Calm.trans {k₁ k₂ k₃ : Kernel} (h : Calm k₁ k₂) (h' : Calm k₂ k₃) : Calm k₁ k₃ :=
  ⟨h'.time.trans h.time, h'.length.trans h.length,
    fun n => (h'.signals n).trans (h.signals n), h'.drivers.trans h.drivers,
    h'.driverRequests.trans h.driverRequests,
    h'.driverBitGenerations.trans h.driverBitGenerations, h'.timed.trans h.timed,
    h'.seq.trans h.seq⟩

/-- Processes may have been woken; the other queues are the same too. -/
structure Wakes (k k' : Kernel) : Prop extends Calm k k' where
  active : ∃ woken, k'.active = k.active ++ woken
  inactive : k'.inactive = k.inactive
  nba : k'.nba = k.nba
  stop : k'.stop = k.stop

theorem Wakes.refl (k : Kernel) : Wakes k k := ⟨.refl k, ⟨[], by simp⟩, rfl, rfl, rfl⟩

theorem Wakes.trans {k₁ k₂ k₃ : Kernel} (h : Wakes k₁ k₂) (h' : Wakes k₂ k₃) : Wakes k₁ k₃ := by
  obtain ⟨woken, hw⟩ := h.active
  obtain ⟨woken', hw'⟩ := h'.active
  exact ⟨h.toCalm.trans h'.toCalm, ⟨woken ++ woken', by rw [hw', hw, List.append_assoc]⟩,
    h'.inactive.trans h.inactive, h'.nba.trans h.nba, h'.stop.trans h.stop⟩

theorem wakes_clearNetWaiters (k : Kernel) (pid : ProcId) : Wakes k (k.clearNetWaiters pid) := by
  have hnet (n : NetId) : signals ((k.clearNetWaiters pid).net n) = signals (k.net n) := by
    rw [Kernel.net_clearNetWaiters]
    split_ifs <;> rfl
  have hlen : ∀ (waited : List NetId) (nets : List Net), (waited.foldl (fun nets n =>
      nets.modify n fun net => { net with waiters := net.waiters.filter (·.proc ≠ pid) })
      nets).length = nets.length := by
    intro waited
    induction waited with
    | nil => exact fun _ => rfl
    | cons n waited ih =>
      intro nets
      rw [List.foldl_cons, ih, List.length_modify]
  unfold Kernel.clearNetWaiters at hnet ⊢
  cases h : k.netWaits pid with
  | none => exact .refl k
  | some waited =>
    rw [h] at hnet
    exact ⟨⟨rfl, hlen waited k.nets, hnet, rfl, rfl, rfl, rfl, rfl⟩, ⟨[], by simp⟩, rfl, rfl, rfl⟩

theorem wakes_clearAll (procs : List ProcId) (k : Kernel) :
    Wakes k (procs.foldl Kernel.clearNetWaiters k) := by
  induction procs generalizing k with
  | nil => exact .refl k
  | cons p procs ih => exact (wakes_clearNetWaiters k p).trans (ih _)

theorem wakes_storeScan (k : Kernel) (n : NetId) (s : Kernel.Woken × List Waiter) :
    Wakes k (k.storeScan n s) := by
  refine ⟨⟨rfl, List.length_modify _ _ _, fun m => ?_, rfl, rfl, rfl, rfl, rfl⟩, ⟨s.1.procs, rfl⟩,
    rfl, rfl, rfl⟩
  have hnet : (k.storeScan n s).net m =
      (k.modifyNet n fun net => { net with waiters := s.2 }).net m := rfl
  rw [hnet, Kernel.net_modifyNet]
  split_ifs <;> rfl

theorem wakes_notifyRuntimeChange (k : Kernel) : Wakes k k.notifyRuntimeChange :=
  ⟨⟨rfl, rfl, fun _ => rfl, rfl, rfl, rfl, rfl, rfl⟩, ⟨k.runtimeWaiters, rfl⟩, rfl, rfl, rfl⟩

/-- A blocking write stores the value and wakes processes. -/
theorem wakes_writeNet (k : Kernel) (n : NetId) (v : PackedVec) :
    Wakes (k.setValue n v) (k.writeNet n v) := by
  unfold Kernel.writeNet
  dsimp only
  split_ifs
  · exact (wakes_notifyRuntimeChange _).trans ((wakes_storeScan _ n _).trans (wakes_clearAll _ _))
  · exact .refl _

/-- Only the value of the written net changes. -/
theorem signals_writeNet (k : Kernel) (n m : NetId) (v : PackedVec) :
    signals ((k.writeNet n v).net m) =
      if m = n ∧ n < k.nets.length then { signals (k.net m) with value := v }
      else signals (k.net m) := by
  rw [(wakes_writeNet k n v).signals, Kernel.setValue, Kernel.net_modifyNet]
  split_ifs <;> rfl

theorem netValue_writeNet (k : Kernel) (n m : NetId) (v : PackedVec) :
    (k.writeNet n v).netValue m = if m = n ∧ n < k.nets.length then v else k.netValue m := by
  have h := congrArg Net.value (signals_writeNet k n m v)
  rw [apply_ite Net.value] at h
  exact h

/-- A write that no one waits for only stores the value. -/
theorem writeNet_unwatched {k : Kernel} {n : NetId} (h : (k.net n).waiters = [])
    (hr : k.runtimeWaiters = []) (v : PackedVec) : k.writeNet n v = k.setValue n v := by
  have hset : ((k.setValue n v).net n).waiters = [] := by
    unfold Kernel.setValue
    rw [Kernel.net_modifyNet]
    split_ifs <;> exact h
  have hnotify : (k.setValue n v).notifyRuntimeChange = k.setValue n v := by
    unfold Kernel.notifyRuntimeChange
    have hr' : (k.setValue n v).runtimeWaiters = [] := hr
    rw [hr', List.append_nil, ← hr']
  have hmodify (k : Kernel) (hk : (k.net n).waiters = []) :
      k.modifyNet n (fun net => { net with waiters := [] }) = k := by
    unfold Kernel.modifyNet
    have hnets : k.nets.modify n (fun net => { net with waiters := [] }) = k.nets := by
      apply List.ext_getElem?
      intro i
      rw [List.getElem?_modify]
      split_ifs with hi
      · subst hi
        unfold Kernel.net at hk
        rw [List.getD_eq_getElem?_getD] at hk
        cases hget : k.nets[n]? with
        | none => rfl
        | some net =>
          rw [hget] at hk
          have hw : net.waiters = [] := hk
          show some { net with waiters := [] } = some net
          rw [← hw]
      · cases k.nets[i]? <;> rfl
    rw [hnets]
  unfold Kernel.writeNet
  dsimp only
  split_ifs
  · rw [hnotify]
    unfold Kernel.wakeWaiters
    rw [hset]
    have hstore : (k.setValue n v).storeScan n (⟨(k.setValue n v).waitEpochs, []⟩, []) =
        k.setValue n v := by
      unfold Kernel.storeScan
      rw [hmodify _ hset]
      show ({ k.setValue n v with active := (k.setValue n v).active ++ [] } : Kernel) = _
      rw [List.append_nil]
    exact hstore
  · rfl

/-! ### Driving a net -/

def OfNet (n : NetId) : TimedAction → Prop
  | .netBits n' _ => n' = n
  | _ => False

def OfDriver (d : DriverId) : TimedAction → Prop
  | .drive d' _ _ => d' = d
  | .driveBits d' _ => d' = d
  | _ => False

/-- The elementary updates of which a new resolved value of one net consists. -/
inductive NetTouch (n : NetId) : Kernel → Kernel → Prop
  | writeNet {k : Kernel} (v : PackedVec) (hv : v.width = (k.netValue n).width) :
      NetTouch n k (k.writeNet n v)
  | setDelayRequest {k : Kernel} (v : PackedVec) (generations : List Generation)
      (hv : v.width = (k.netValue n).width)
      (hg : generations.length = (k.net n).delayGenerations.length) :
      NetTouch n k (k.setDelayRequest n v generations)
  | push {k : Kernel} {delayFs : Nat} {action : TimedAction} (hpos : 0 < delayFs)
      (ha : OfNet n action) :
      NetTouch n k (k.pushTimedAction (saturatingAddFs k.time delayFs) .active action)

/-- The elementary updates of which requests of one driver of one net consist. -/
inductive Touch (d : DriverId) (n : NetId) : Kernel → Kernel → Prop
  | net {k k' : Kernel} (h : NetTouch n k k') : Touch d n k k'
  | setDriverValue {k : Kernel} (v : PackedVec) (hd : (k.driver d).net = n)
      (hv : v.width = (k.netValue n).width) : Touch d n k (k.setDriverValue d v)
  | setDriverRequest {k : Kernel} (v : PackedVec) (generations : List Generation)
      (hv : v.width = k.driverWidth d) (hg : generations.length = (k.bitGenerations d).length) :
      Touch d n k (k.setDriverRequest d v generations)
  | push {k : Kernel} {delayFs : Nat} {action : TimedAction} (hpos : 0 < delayFs)
      (ha : OfDriver d action) :
      Touch d n k (k.pushTimedAction (saturatingAddFs k.time delayFs) .active action)

abbrev NetTouches (n : NetId) : Kernel → Kernel → Prop := Relation.ReflTransGen (NetTouch n)

abbrev Touches (d : DriverId) (n : NetId) : Kernel → Kernel → Prop :=
  Relation.ReflTransGen (Touch d n)

/-- What every elementary update keeps, their sequences keep. -/
theorem keeps_sequence {T R : Kernel → Kernel → Prop} (hrefl : ∀ k, R k k)
    (htrans : ∀ {k₁ k₂ k₃}, R k₁ k₂ → R k₂ k₃ → R k₁ k₃) (htouch : ∀ {k k'}, T k k' → R k k')
    {k k' : Kernel} (h : Relation.ReflTransGen T k k') : R k k' := by
  induction h with
  | refl => exact hrefl _
  | tail _ ht ih => exact htrans ih (htouch ht)

theorem touches_of_net {n : NetId} {k k' : Kernel} (h : NetTouches n k k') (d : DriverId) :
    Touches d n k k' := Relation.ReflTransGen.mono (fun _ _ => Touch.net) _ _ h

/-- Pushing groups of updates is a sequence of single pushes. -/
theorem sequence_pushDelayed {T : Kernel → Kernel → Prop} {action : List BitDrive → TimedAction}
    {delayed : List (Nat × List BitDrive)}
    (hpush : ∀ group ∈ delayed, ∀ k : Kernel, T k
      (k.pushTimedAction (saturatingAddFs k.time group.1) .active (action group.2))) (k : Kernel) :
    Relation.ReflTransGen T k (k.pushDelayed action delayed) := by
  unfold Kernel.pushDelayed
  induction delayed generalizing k with
  | nil => exact .refl
  | cons group delayed ih =>
    exact .head (hpush group List.mem_cons_self k)
      (ih (fun g hg => hpush g (List.mem_cons_of_mem _ hg)) _)

theorem mem_addDelayed_delay {delayed : List (Nat × List BitDrive)} {delayFs : Nat}
    {update : BitDrive} {group : Nat × List BitDrive}
    (h : group ∈ Kernel.addDelayed delayed delayFs update) :
    group.1 = delayFs ∨ ∃ g ∈ delayed, group.1 = g.1 := by
  induction delayed with
  | nil => exact .inl (by simp only [List.mem_singleton.mp h])
  | cons g delayed ih =>
    unfold Kernel.addDelayed at h
    split_ifs at h with he
    · rcases List.mem_cons.mp h with rfl | h
      · exact .inl he
      · exact .inr ⟨group, List.mem_cons_of_mem _ h, rfl⟩
    · rcases List.mem_cons.mp h with rfl | h
      · exact .inr ⟨_, List.mem_cons_self, rfl⟩
      · rcases ih h with hd | ⟨g', hg', hd⟩
        · exact .inl hd
        · exact .inr ⟨g', List.mem_cons_of_mem _ hg', hd⟩

/-- The bit loop keeps the width of the value and the number of generations, and delays no update
by zero. -/
theorem shape_transitions (width : Nat) (previous current value : PackedVec)
    (delay : Bit → Bit → Nat) (generations : List Generation) :
    let s := Kernel.transitions width previous current value delay generations
    s.immediate.width = current.width ∧ s.generations.length = generations.length ∧
      ∀ group ∈ s.delayed, 0 < group.1 := by
  refine foldl_invariant _ (fun _ (s : Kernel.Transitions) =>
    s.immediate.width = current.width ∧ s.generations.length = generations.length ∧
      ∀ group ∈ s.delayed, 0 < group.1) _ _
    ⟨rfl, rfl, by simp⟩ fun _ bit _ s _ ⟨hwidth, hlen, hpos⟩ => ?_
  have hlen' : (s.generations.modify bit (· + 1)).length = generations.length :=
    (List.length_modify _ _ _).trans hlen
  unfold Kernel.transitionBit
  split_ifs with _ _ hzero
  · exact ⟨hwidth, hlen, hpos⟩
  · exact ⟨hwidth, hlen', hpos⟩
  · exact ⟨(PackedVec.width_setBit _ _ _).trans hwidth, hlen', hpos⟩
  · refine ⟨hwidth, hlen', fun group hg => ?_⟩
    rcases mem_addDelayed_delay hg with hd | ⟨g, hg, hd⟩
    · rw [hd]
      exact Nat.pos_of_ne_zero hzero
    · rw [hd]
      exact hpos g hg

theorem netValue_setDelayRequest (k : Kernel) (n m : NetId) (v : PackedVec)
    (generations : List Generation) :
    (k.setDelayRequest n v generations).netValue m = k.netValue m := by
  unfold Kernel.netValue Kernel.setDelayRequest
  rw [Kernel.net_modifyNet]
  split_ifs <;> rfl

theorem touches_writeImmediate {n : NetId} {k : Kernel} {s : Kernel.Transitions}
    (hs : s.immediate.width = (k.netValue n).width) : NetTouches n k (k.writeImmediate n s) := by
  unfold Kernel.writeImmediate
  split_ifs
  · exact .single (.writeNet _ hs)
  · exact .refl

theorem touches_requestNet {n : NetId} {k : Kernel} {v : PackedVec}
    (hv : v.width = (k.netValue n).width) (delays : NetDelay) :
    NetTouches n k (k.requestNet n v delays) := by
  obtain ⟨hwidth, hlen, hpos⟩ := shape_transitions (k.netValue n).width (k.net n).delayRequest
    (k.netValue n) v delays.forTransition (k.net n).delayGenerations
  unfold Kernel.requestNet
  dsimp only
  generalize Kernel.transitions (k.netValue n).width (k.net n).delayRequest (k.netValue n) v
    delays.forTransition (k.net n).delayGenerations = s at hwidth hlen hpos ⊢
  have hset : NetTouch n k (k.setDelayRequest n v s.generations) :=
    .setDelayRequest v s.generations hv hlen
  have hwrite : NetTouches n (k.setDelayRequest n v s.generations)
      ((k.setDelayRequest n v s.generations).writeImmediate n s) :=
    touches_writeImmediate (by rw [netValue_setDelayRequest, hwidth])
  exact (Relation.ReflTransGen.head hset hwrite).trans
    (sequence_pushDelayed (fun group hg k => .push (hpos group hg) rfl) _)

theorem touches_applyResolvedNet (n : NetId) (k : Kernel) {v : PackedVec}
    (hv : v.width = (k.netValue n).width) : NetTouches n k (k.applyResolvedNet n v) := by
  unfold Kernel.applyResolvedNet
  split
  · exact .single (.writeNet v hv)
  · dsimp only
    split_ifs
    · exact .refl
    · exact touches_requestNet (PackedVec.width_resize _ _ _) _

theorem width_resolved (k : Kernel) (n : NetId) :
    (k.resolved n).width = (k.netValue n).width := width_resolveDrivers _ _ _ _

theorem touches_applyDrive (k : Kernel) (d : DriverId) (v : PackedVec) :
    Touches d (k.driver d).net k (k.applyDrive d v) :=
  .head (.setDriverValue _ rfl (PackedVec.width_resize _ _ _))
    (touches_of_net (touches_applyResolvedNet _ _ (width_resolved _ _)) d)

theorem driver_net_setDriverRequest (k : Kernel) (d d' : DriverId) (v : PackedVec)
    (generations : List Generation) :
    ((k.setDriverRequest d v generations).driver d').net = (k.driver d').net := by
  unfold Kernel.driver Kernel.setDriverRequest
  simp only [List.getD_eq_getElem?_getD, List.getElem?_modify]
  cases k.drivers[d']? with
  | none => simp
  | some t => by_cases hd : d = d' <;> simp [hd]

/-- What follows the recording of a request, seen from the kernel before it. -/
theorem touches_request {k : Kernel} {d : DriverId} {v : PackedVec}
    {generations : List Generation} (hv : v.width = k.driverWidth d)
    (hg : generations.length = (k.bitGenerations d).length) {k' : Kernel}
    (h : Touches d ((k.setDriverRequest d v generations).driver d).net
      (k.setDriverRequest d v generations) k') : Touches d (k.driver d).net k k' := by
  rw [driver_net_setDriverRequest] at h
  exact .head (.setDriverRequest v generations hv hg) h

theorem touches_driveNet (k : Kernel) (d : DriverId) (v : PackedVec) :
    Touches d (k.driver d).net k (k.driveNet d v) :=
  touches_request (PackedVec.width_resize _ _ _) (List.length_map _) (touches_applyDrive _ d _)

theorem touches_startDrive (k : Kernel) (d : DriverId) (v : PackedVec) (delayFs : Nat) :
    Touches d (k.driver d).net k (k.startDrive d v delayFs) := by
  unfold Kernel.startDrive
  split_ifs with _ hzero
  · exact .refl
  · exact touches_applyDrive k d v
  · exact .single (.push (Nat.pos_of_ne_zero hzero) rfl)

theorem touches_scheduleDrive (k : Kernel) (d : DriverId) (v : PackedVec) (delayFs : Nat) :
    Touches d (k.driver d).net k (k.scheduleDrive d v delayFs) := by
  unfold Kernel.scheduleDrive
  dsimp only
  split_ifs
  · exact .refl
  · exact touches_request (PackedVec.width_resize _ _ _) (List.length_map _)
      (touches_startDrive _ d _ delayFs)

theorem touches_driveImmediate (k : Kernel) (d : DriverId) (s : Kernel.Transitions) :
    Touches d (k.driver d).net k (k.driveImmediate d s) := by
  unfold Kernel.driveImmediate
  split_ifs
  · exact touches_applyDrive k d _
  · exact .refl

theorem touches_requestDriver {k : Kernel} {d : DriverId} {v : PackedVec}
    (hv : v.width = k.driverWidth d) (delays : DriveDelay) :
    Touches d (k.driver d).net k (k.requestDriver d v delays) := by
  obtain ⟨-, hlen, hpos⟩ := shape_transitions (k.driverWidth d) (k.driverRequest d)
    (k.driverValue d) v delays.forTransition (k.bitGenerations d)
  exact touches_request hv hlen ((touches_driveImmediate _ d _).trans
    (sequence_pushDelayed (fun group hg k => .push (hpos group hg) rfl) _))

theorem touches_scheduleDriveTransitions (k : Kernel) (d : DriverId) (v : PackedVec)
    (delays : DriveDelay) :
    Touches d (k.driver d).net k (k.scheduleDriveTransitions d v delays) := by
  unfold Kernel.scheduleDriveTransitions
  dsimp only
  split_ifs
  · exact .refl
  · exact touches_requestDriver (PackedVec.width_resize _ _ _) delays

/-- The value that live updates make of a vector has its width. -/
theorem width_liveUpdates (generations : List Generation) (v : PackedVec)
    (updates : List BitDrive) :
    (Kernel.liveUpdates generations v updates).1.width = v.width := by
  have go : ∀ (updates : List BitDrive) (s : PackedVec × Bool),
      (updates.foldl (fun s u => if generations.getD u.bit 0 = u.generation then
        (s.1.setBit u.bit u.value, true) else s) s).1.width = s.1.width := by
    intro updates
    induction updates with
    | nil => exact fun _ => rfl
    | cons u updates ih =>
      intro s
      rw [List.foldl_cons, ih]
      split_ifs
      · exact PackedVec.width_setBit _ _ _
      · rfl
  exact go updates (v, false)

/-- The driver and the net whose state the call may touch. -/
def Call.target (k : Kernel) : Call → Option (DriverId × NetId)
  | .driveNet d _ | .scheduleDrive d _ _ | .scheduleDriveTransitions d _ _ =>
    some (d, (k.driver d).net)
  | _ => none

theorem touches_call {k : Kernel} {c : Call} {d : DriverId} {n : NetId}
    (h : Call.target k c = some (d, n)) : Touches d n k (c.exec k) := by
  cases c with
  | driveNet d' v =>
    obtain ⟨rfl, rfl⟩ := Prod.mk.inj (Option.some.inj h)
    exact touches_driveNet k d' v
  | scheduleDrive d' v delayFs =>
    obtain ⟨rfl, rfl⟩ := Prod.mk.inj (Option.some.inj h)
    exact touches_scheduleDrive k d' v delayFs
  | scheduleDriveTransitions d' v delays =>
    obtain ⟨rfl, rfl⟩ := Prod.mk.inj (Option.some.inj h)
    exact touches_scheduleDriveTransitions k d' v delays
  | _ => simp [Call.target] at h

/-- A timed event other than a resume updates one driver and its net, or only a net. -/
theorem touches_dispatchEvent {k : Kernel} {ev : TimedEvent} (ha : ∀ p, ev.action ≠ .resume p) :
    ∃ d n, Touches d n k (k.dispatchEvent ev) := by
  unfold Kernel.dispatchEvent
  cases h : ev.action with
  | resume p => exact absurd h (ha p)
  | drive d v generation =>
    refine ⟨d, (k.driver d).net, ?_⟩
    dsimp only
    split_ifs
    · exact touches_applyDrive k d v
    · exact .refl
  | driveBits d updates =>
    refine ⟨d, (k.driver d).net, ?_⟩
    dsimp only
    split_ifs
    · exact touches_applyDrive k d _
    · exact .refl
  | netBits n updates =>
    refine ⟨0, n, ?_⟩
    dsimp only
    split_ifs
    · exact .single (.net (.writeNet _ (width_liveUpdates _ _ _)))
    · exact .refl

theorem nba_touch {d : DriverId} {n : NetId} {k k' : Kernel} (h : Touch d n k k') :
    k'.nba = k.nba := by
  cases h with
  | net h => cases h with
    | writeNet v hv => exact (wakes_writeNet k n v).nba
    | _ => rfl
  | _ => rfl

theorem nba_touches {d : DriverId} {n : NetId} {k k' : Kernel} (h : Touches d n k k') :
    k'.nba = k.nba :=
  keeps_sequence (R := fun k k' => k'.nba = k.nba) (fun _ => rfl) (fun h h' => h'.trans h)
    nba_touch h

/-! ### Parking and draining -/

theorem wakes_addWaiters (entries : List (NetId × EdgeKind)) (pid : ProcId) (k : Kernel) :
    Wakes k (entries.foldl (fun (k : Kernel) e =>
      k.addWaiter e.1 ⟨pid, e.2, (k.waitEpochs pid).getD 0⟩) k) := by
  induction entries generalizing k with
  | nil => exact .refl k
  | cons e entries ih =>
    refine .trans ?_ (ih _)
    refine ⟨⟨rfl, List.length_modify _ _ _, fun m => ?_, rfl, rfl, rfl, rfl, rfl⟩, ⟨[], ?_⟩,
      rfl, rfl, rfl⟩
    · unfold Kernel.addWaiter
      rw [Kernel.net_modifyNet]
      split_ifs <;> rfl
    · exact (List.append_nil _).symm

theorem wakes_registerNets (k : Kernel) (pid : ProcId) (entries : List (NetId × EdgeKind)) :
    Wakes k (k.registerNets pid entries) := by
  have h := wakes_addWaiters entries pid k
  exact ⟨⟨h.time, h.length, h.signals, h.drivers, h.driverRequests, h.driverBitGenerations,
    h.timed, h.seq⟩, h.active, h.inactive, h.nba, h.stop⟩

theorem wakes_bumpEpoch (k : Kernel) (pid : ProcId) :
    Wakes k ((k.clearNetWaiters pid).bumpEpoch pid) :=
  (wakes_clearNetWaiters k pid).trans
    ⟨⟨rfl, rfl, fun _ => rfl, rfl, rfl, rfl, rfl, rfl⟩, ⟨[], (List.append_nil _).symm⟩, rfl, rfl,
      rfl⟩

/-- Every wait but a delay only enters a wakeup table. -/
theorem wakes_arm (k : Kernel) (pid : ProcId) {wait : Wait} (hw : ∀ fs, wait ≠ .delay fs) :
    Wakes k (k.arm pid wait) := by
  refine (wakes_bumpEpoch k pid).trans ?_
  unfold Kernel.arm
  generalize (k.clearNetWaiters pid).bumpEpoch pid = k
  cases wait with
  | delay fs => exact absurd rfl (hw fs)
  | edge n kind => exact wakes_registerNets k pid _
  | sensitivity list => exact wakes_registerNets k pid _
  | cond nets => exact wakes_registerNets k pid _
  | _ => exact ⟨⟨rfl, rfl, fun _ => rfl, rfl, rfl, rfl, rfl, rfl⟩, ⟨[], (List.append_nil _).symm⟩,
      rfl, rfl, rfl⟩

theorem wakes_notifyFinished (k : Kernel) (pid : ProcId) : Wakes k (k.notifyFinished pid) :=
  ⟨⟨rfl, rfl, fun _ => rfl, rfl, rfl, rfl, rfl, rfl⟩, ⟨_, rfl⟩, rfl, rfl, rfl⟩

/-- A suspending process either enters a wakeup table or the time wheel. -/
theorem kernel_park (s : Sim) (pid : ProcId) (wait : Wait) :
    Wakes s.kernel (s.park pid wait).kernel ∨
      ∃ fs k, wait = .delay fs ∧ Wakes s.kernel k ∧ (s.park pid wait).kernel =
        k.pushTimedAction (saturatingAddFs k.time fs) .active (.resume pid) := by
  have arms {wait : Wait} (hw : ∀ fs, wait ≠ .delay fs)
      (hk : (s.park pid wait).kernel = s.kernel.arm pid wait) :
      Wakes s.kernel (s.park pid wait).kernel := hk ▸ wakes_arm s.kernel pid hw
  cases wait with
  | delay fs => exact .inr ⟨fs, _, rfl, wakes_bumpEpoch s.kernel pid, rfl⟩
  | finished =>
    exact .inl ((wakes_arm s.kernel pid (by simp)).trans (wakes_notifyFinished _ pid))
  | fork children join =>
    refine .inl ?_
    unfold Sim.park Sim.spawnFork
    dsimp only
    split_ifs
    · exact ⟨⟨rfl, rfl, fun _ => rfl, rfl, rfl, rfl, rfl, rfl⟩,
        ⟨_, List.append_assoc _ _ _⟩, rfl, rfl, rfl⟩
    · exact ⟨⟨rfl, rfl, fun _ => rfl, rfl, rfl, rfl, rfl, rfl⟩, ⟨_, rfl⟩, rfl, rfl, rfl⟩
  | _ => exact .inl (arms (by simp) rfl)

/-- What every write of the batch keeps, draining it keeps. -/
theorem drainNba_keeps {R : Kernel → Kernel → Prop} (hrefl : ∀ k, R k k)
    (htrans : ∀ {k₁ k₂ k₃}, R k₁ k₂ → R k₂ k₃ → R k₁ k₃) {k : Kernel}
    (hclear : R k { k with nba := [] })
    (hwrite : ∀ u ∈ k.nba, ∀ k₁ : Kernel, R k₁ (k₁.writeNet u.1 u.2))
    (hwake : ∀ k₁ : Kernel, R k₁ k₁.wakeNbaWaiters) : R k k.drainNba := by
  have hbatch : ∀ (batch : List (NetId × PackedVec)) (k₁ : Kernel),
      (∀ u ∈ batch, ∀ k₁ : Kernel, R k₁ (k₁.writeNet u.1 u.2)) →
      R k₁ (batch.foldl (fun (k : Kernel) u => k.writeNet u.1 u.2) k₁) := by
    intro batch
    induction batch with
    | nil => exact fun k₁ _ => hrefl k₁
    | cons u batch ih =>
      intro k₁ hb
      exact htrans (hb u List.mem_cons_self k₁) (ih _ fun v hv => hb v (List.mem_cons_of_mem _ hv))
  exact htrans hclear (htrans (hbatch k.nba _ hwrite) (hwake _))

theorem nba_drainNba (k : Kernel) : k.drainNba.nba = [] := by
  have hfold : ∀ (batch : List (NetId × PackedVec)) (k : Kernel),
      (batch.foldl (fun (k : Kernel) u => k.writeNet u.1 u.2) k).nba = k.nba := by
    intro batch
    induction batch with
    | nil => exact fun _ => rfl
    | cons u batch ih => exact fun k => (ih _).trans (wakes_writeNet k u.1 u.2).nba
  exact hfold k.nba { k with nba := [] }

/-! ### Steps -/

/-- What a step does to nets, drivers and the time wheel. -/
inductive Effect : Label → Kernel → Kernel → Prop
  | calm {l : Label} {k k' : Kernel} (h : Calm k k')
      (hn : k'.nba = k.nba ∨ ∃ n v, l = .call (.scheduleNba n v) ∧ k'.nba = k.nba ++ [(n, v)]) :
      Effect l k k'
  | delayed {k k' : Kernel} {fs : Nat} {pid : ProcId} (h : Wakes k k') :
      Effect (.suspend (.delay fs)) k
        (k'.pushTimedAction (saturatingAddFs k'.time fs) .active (.resume pid))
  | newNet {k : Kernel} (initial : PackedVec) (resolution : NetResolution)
      (delay : Option NetDelay) : Effect (.call (.newNet initial resolution delay)) k
        (k.newNetWithResolutionAndDelay initial resolution delay)
  | newDriver {k : Kernel} {n : NetId} {zero one : DriveStrength} (hn : n < k.nets.length)
      (hw : (k.net n).resolution = .wire ∨ zero = .strong ∧ one = .strong) :
      Effect (.call (.newDriver n zero one)) k (k.newDriverWithStrengths n zero one)
  | drive {k : Kernel} {c : Call} {d : DriverId} {n : NetId} (hc : Call.target k c = some (d, n))
      (hd : d < k.drivers.length) : Effect (.call c) k (c.exec k)
  | write {k : Kernel} {n : NetId} {v : PackedVec} (hn : n < k.nets.length) :
      Effect (.call (.writeNet n v)) k (k.writeNet n v)
  | drain {k : Kernel} : Effect .drainNba k k.drainNba
  | advance {k : Kernel} {t : SimTime} :
      Effect .advance k { k.discardStaleTimedActions with time := t }
  | dispatch {k : Kernel} {ev : TimedEvent} {rest : List TimedEvent} (ht : k.timed = ev :: rest)
      (hd : ev.time = k.time) : Effect .dispatch k ({ k with timed := rest }.dispatchEvent ev)

theorem effect_of_step {l : Label} {s s' : Sim} (hs : step l s = some s') :
    Effect l s.kernel s'.kernel := by
  cases stepped_of_step hs with
  | @call _ c hm hv =>
    cases c with
    | newNet initial resolution delay => exact .newNet initial resolution delay
    | newDriver n zero one => exact .newDriver hv.1 hv.2
    | driveNet d v => exact .drive rfl hv
    | scheduleDrive d v delayFs => exact .drive rfl hv
    | scheduleDriveTransitions d v delays => exact .drive rfl hv
    | writeNet n v => exact .write hv
    | scheduleNba n v =>
      exact .calm ⟨rfl, rfl, fun _ => rfl, rfl, rfl, rfl, rfl, rfl⟩ (.inr ⟨n, v, rfl, rfl⟩)
    | requestStop => exact .calm ⟨rfl, rfl, fun _ => rfl, rfl, rfl, rfl, rfl, rfl⟩ (.inl rfl)
    | notifyRuntimeChange => exact .calm (wakes_notifyRuntimeChange _).toCalm (.inl rfl)
    | triggerEvent event => exact .calm ⟨rfl, rfl, fun _ => rfl, rfl, rfl, rfl, rfl, rfl⟩ (.inl rfl)
  | @suspend _ limit pid wait hm hn =>
    rcases kernel_park s pid wait with hw | ⟨fs, k, rfl, hw, hk⟩
    · exact .calm hw.toCalm (.inl hw.nba)
    · dsimp only
      rw [hk]
      exact .delayed hw
  | drainNba hm ha hi hp hn => exact .drain
  | done hm hq ht => exact .advance
  | limited hm hq ht hl => exact .advance
  | advance hm hq ht hl => exact .advance
  | dispatch hm ht hd => exact .dispatch ht hd
  | _ => exact .calm ⟨rfl, rfl, fun _ => rfl, rfl, rfl, rfl, rfl, rfl⟩ (.inl rfl)

end Eevee.Sched.Frames
