/- The kernel state: nets, drivers, region queues, the time wheel and the wakeup tables. -/

import Mathlib.Data.List.Sort
import Mathlib.Tactic.Common
import Eevee.Lib.SwapScan
import Eevee.Sched.Resolution

set_option autoImplicit false
set_option relaxedAutoImplicit false

namespace Eevee.Sched.Scheduler

open Eevee.Core.Logic
open Eevee.Lib.SwapScan
open Eevee.Sched.Nets
open Eevee.Sched.Resolution

/-- Stratified regions of one time slot, in scheduling order. -/
inductive Region
  | preponed | active | inactive | nba | observed | reactive | postponed
  deriving DecidableEq

def Region.priority : Region → Nat
  | .preponed => 0
  | .active => 1
  | .inactive => 2
  | .nba => 3
  | .observed => 4
  | .reactive => 5
  | .postponed => 6

structure DriverTarget where
  net : NetId
  slot : Nat
  generation : Generation

structure BitDrive where
  bit : Nat
  value : Bit
  generation : Generation

/-- A parent blocked on `join`/`join_any` for a set of forked children. -/
structure JoinWatch where
  parent : ProcId
  remaining : List ProcId
  any : Bool

inductive TimedAction
  | resume (proc : ProcId)
  | drive (driver : DriverId) (value : PackedVec) (generation : Generation)
  | driveBits (driver : DriverId) (updates : List BitDrive)
  | netBits (net : NetId) (updates : List BitDrive)

structure TimedEvent where
  time : SimTime
  region : Region
  seq : Nat
  action : TimedAction

/-- Earlier time first, then earlier region, then earlier sequence number. -/
def TimedEvent.before (a b : TimedEvent) : Prop :=
  a.time < b.time ∨ a.time = b.time ∧
    (a.region.priority < b.region.priority ∨
      a.region.priority = b.region.priority ∧ a.seq ≤ b.seq)

instance : DecidableRel TimedEvent.before := fun a b => by
  unfold TimedEvent.before
  infer_instance

/-- The completion discipline of a `fork` block. -/
inductive ForkJoin
  | all | any | none
  deriving DecidableEq

/-- What a process waits for after a `resume` call. -/
inductive Wait
  | finished
  | delay (fs : Nat)
  | edge (net : NetId) (kind : EdgeKind)
  | sensitivity (list : List (NetId × EdgeKind))
  | cond (nets : List NetId)
  | runtimeCond
  | nba
  | namedEvent (event : EventId)
  | fork (children : Nat) (join : ForkJoin)
  deriving DecidableEq

/-- The simulation kernel. The hash maps are functions, except that `eventWaiters` lists its
entries: the waiters of one event are the entries with its id, in order. The time wheel is the
list of its events in the order in which the heap yields them. -/
structure Kernel where
  time : SimTime
  nets : List Net
  drivers : List DriverTarget
  driverRequests : List PackedVec
  driverBitGenerations : List (List Generation)
  active : List ProcId
  inactive : List ProcId
  nba : List (NetId × PackedVec)
  nbaWaiters : List ProcId
  timed : List TimedEvent
  seq : Nat
  stop : Bool
  joinWatches : List JoinWatch
  runtimeWaiters : List ProcId
  eventWaiters : List (EventId × ProcId)
  waitEpochs : ProcId → Option Nat
  netWaits : ProcId → Option (List NetId)

namespace Kernel

def new : Kernel where
  time := 0
  nets := []
  drivers := []
  driverRequests := []
  driverBitGenerations := []
  active := []
  inactive := []
  nba := []
  nbaWaiters := []
  timed := []
  seq := 0
  stop := false
  joinWatches := []
  runtimeWaiters := []
  eventWaiters := []
  waitEpochs := fun _ => none
  netWaits := fun _ => none

/-! ### Nets and drivers -/

def net (k : Kernel) (n : NetId) : Net := k.nets.getD n default

def netValue (k : Kernel) (n : NetId) : PackedVec := (k.net n).value

def modifyNet (k : Kernel) (n : NetId) (f : Net → Net) : Kernel :=
  { k with nets := k.nets.modify n f }

def newNetWithResolutionAndDelay (k : Kernel) (initial : PackedVec) (resolution : NetResolution)
    (delay : Option NetDelay) : Kernel :=
  { k with nets := k.nets ++ [.withResolution initial resolution delay] }

def driver (k : Kernel) (d : DriverId) : DriverTarget := k.drivers.getD d ⟨0, 0, 0⟩

/-- The value this driver currently contributes to its net. -/
def driverValue (k : Kernel) (d : DriverId) : PackedVec :=
  (k.net (k.driver d).net).driverValues.getD (k.driver d).slot default

def driverRequest (k : Kernel) (d : DriverId) : PackedVec := k.driverRequests.getD d default

def bitGenerations (k : Kernel) (d : DriverId) : List Generation :=
  k.driverBitGenerations.getD d []

/-- The width every value of the driver is resized to. -/
def driverWidth (k : Kernel) (d : DriverId) : Nat := (k.netValue (k.driver d).net).width

/-- A driver starts out as high impedance. -/
def addDriverSlot (k : Kernel) (n : NetId) (zero one : DriveStrength) : Kernel :=
  k.modifyNet n fun net =>
    { net with
      driverValues := net.driverValues ++ [.z (k.netValue n).width]
      driverStrengths := net.driverStrengths ++ [⟨zero, one⟩] }

def newDriverWithStrengths (k : Kernel) (n : NetId) (zero one : DriveStrength) : Kernel :=
  { k.addDriverSlot n zero one with
    drivers := k.drivers ++ [⟨n, (k.net n).driverValues.length, 0⟩]
    driverRequests := k.driverRequests ++ [.z (k.netValue n).width]
    driverBitGenerations := k.driverBitGenerations ++
      [List.replicate (k.netValue n).width 0] }

/-! ### Waking processes -/

def clearNetWaiters (k : Kernel) (pid : ProcId) : Kernel :=
  match k.netWaits pid with
  | none => k
  | some waited =>
    { k with
      netWaits := Function.update k.netWaits pid none
      nets := waited.foldl (fun nets n =>
        nets.modify n fun net => { net with waiters := net.waiters.filter (·.proc ≠ pid) }) k.nets }

/-- `notify_runtime_change`, also the first thing a changing write does. -/
def notifyRuntimeChange (k : Kernel) : Kernel :=
  { k with active := k.active ++ k.runtimeWaiters, runtimeWaiters := [] }

def triggerEvent (k : Kernel) (event : EventId) : Kernel :=
  { k with
    active := k.active ++ (k.eventWaiters.filter (·.1 = event)).map Prod.snd
    eventWaiters := k.eventWaiters.filter (·.1 ≠ event) }

/-- The epochs and the processes woken so far by one scan of a sensitivity list. -/
structure Woken where
  epochs : ProcId → Option Nat
  procs : List ProcId

/-- One iteration of the waiter loop of `write_net`: stale entries are dropped, a matching entry
wakes its process and makes its siblings stale, others stay. -/
def visitWaiter (edges : Edges) (s : Woken) (w : Waiter) : Woken × Option Waiter :=
  if w.epoch ≠ (s.epochs w.proc).getD 0 then (s, none)
  else if edges.fires w.edge then
    (⟨Function.update s.epochs w.proc (some ((s.epochs w.proc).getD 0 + 1)),
      s.procs ++ [w.proc]⟩, none)
  else (s, some w)

/-- Queue the woken processes and store what the scan left. -/
def storeScan (k : Kernel) (n : NetId) (s : Woken × List Waiter) : Kernel :=
  { k.modifyNet n (fun net => { net with waiters := s.2 }) with
    active := k.active ++ s.1.procs
    waitEpochs := s.1.epochs }

/-- Scan the sensitivity list of one net, then clear every other registration of the woken
processes. -/
def wakeWaiters (k : Kernel) (n : NetId) (edges : Edges) : Kernel :=
  let s := scan (visitWaiter edges) ⟨k.waitEpochs, []⟩ (k.net n).waiters
  s.1.procs.foldl clearNetWaiters (k.storeScan n s)

def setValue (k : Kernel) (n : NetId) (val : PackedVec) : Kernel :=
  k.modifyNet n fun net => { net with value := val }

/-- Blocking write: update the net now and wake every parked process whose edge matches. -/
def writeNet (k : Kernel) (n : NetId) (val : PackedVec) : Kernel :=
  let edges := detectEdge (k.netValue n) val
  if edges.changed then (k.setValue n val).notifyRuntimeChange.wakeWaiters n edges
  else k.setValue n val

def scheduleNba (k : Kernel) (n : NetId) (val : PackedVec) : Kernel :=
  { k with nba := k.nba ++ [(n, val)] }

def wakeNbaWaiters (k : Kernel) : Kernel :=
  { k with active := k.active ++ k.nbaWaiters, nbaWaiters := [] }

/-- Apply the batch; the waiters of the NBA region run after it. -/
def drainNba (k : Kernel) : Kernel :=
  (k.nba.foldl (fun (k : Kernel) u => k.writeNet u.1 u.2) { k with nba := [] }).wakeNbaWaiters

def requestStop (k : Kernel) : Kernel := { k with stop := true }

/-! ### Driving nets -/

def pushTimedAction (k : Kernel) (time : SimTime) (region : Region) (action : TimedAction) :
    Kernel :=
  { k with
    seq := k.seq + 1
    timed := k.timed.orderedInsert TimedEvent.before ⟨time, region, k.seq + 1, action⟩ }

/-- The state of the bit loop shared by `schedule_drive_transitions` and
`apply_resolved_net`. -/
structure Transitions where
  generations : List Generation
  immediate : PackedVec
  hasImmediate : Bool
  delayed : List (Nat × List BitDrive)

/-- Updates with equal delays share one action. -/
def addDelayed (delayed : List (Nat × List BitDrive)) (delayFs : Nat) (update : BitDrive) :
    List (Nat × List BitDrive) :=
  match delayed with
  | [] => [(delayFs, [update])]
  | (existing, updates) :: rest =>
    if existing = delayFs then (existing, updates ++ [update]) :: rest
    else (existing, updates) :: addDelayed rest delayFs update

/-- One iteration of the bit loop. -/
def transitionBit (previous current value : PackedVec) (delay : Bit → Bit → Nat)
    (s : Transitions) (bit : Nat) : Transitions :=
  if previous.getBit bit = value.getBit bit then s
  else if current.getBit bit = value.getBit bit then
    { s with generations := s.generations.modify bit (· + 1) }
  else if delay (current.getBit bit) (value.getBit bit) = 0 then
    { s with
      generations := s.generations.modify bit (· + 1)
      immediate := s.immediate.setBit bit (value.getBit bit)
      hasImmediate := true }
  else
    { s with
      generations := s.generations.modify bit (· + 1)
      delayed := addDelayed s.delayed (delay (current.getBit bit) (value.getBit bit))
        ⟨bit, value.getBit bit, s.generations.getD bit 0 + 1⟩ }

def transitions (width : Nat) (previous current value : PackedVec) (delay : Bit → Bit → Nat)
    (generations : List Generation) : Transitions :=
  (List.range width).foldl (transitionBit previous current value delay)
    ⟨generations, current, false, []⟩

/-- Push one action for each group of equally delayed updates. -/
def pushDelayed (k : Kernel) (action : List BitDrive → TimedAction)
    (delayed : List (Nat × List BitDrive)) : Kernel :=
  delayed.foldl (fun k group =>
    k.pushTimedAction (saturatingAddFs k.time group.1) .active (action group.2)) k

def setDelayRequest (k : Kernel) (n : NetId) (value : PackedVec)
    (generations : List Generation) : Kernel :=
  k.modifyNet n fun net => { net with delayRequest := value, delayGenerations := generations }

/-- The undelayed bits of a request change the net at once. -/
def writeImmediate (k : Kernel) (n : NetId) (s : Transitions) : Kernel :=
  if s.hasImmediate then k.writeNet n s.immediate else k

/-- The bits that a new request changes wait out their own delays. -/
def requestNet (k : Kernel) (n : NetId) (value : PackedVec) (delays : NetDelay) : Kernel :=
  let s := transitions (k.netValue n).width (k.net n).delayRequest (k.netValue n) value
    delays.forTransition (k.net n).delayGenerations
  ((k.setDelayRequest n value s.generations).writeImmediate n s).pushDelayed (.netBits n) s.delayed

/-- A net without declaration delay takes the resolved value at once. -/
def applyResolvedNet (k : Kernel) (n : NetId) (value : PackedVec) : Kernel :=
  match (k.net n).delay with
  | none => k.writeNet n value
  | some delays =>
    let value := value.resize (k.netValue n).width false
    if (k.net n).delayRequest.eqCase value then k else k.requestNet n value delays

def setDriverValue (k : Kernel) (d : DriverId) (value : PackedVec) : Kernel :=
  k.modifyNet (k.driver d).net fun net =>
    { net with driverValues := net.driverValues.set (k.driver d).slot value }

/-- `resolve_drivers` on the drivers of one net. -/
def resolved (k : Kernel) (n : NetId) : PackedVec :=
  resolveDrivers (k.net n).driverValues (k.net n).driverStrengths (k.netValue n).width
    (k.net n).resolution

def applyDrive (k : Kernel) (d : DriverId) (value : PackedVec) : Kernel :=
  let k' := k.setDriverValue d (value.resize (k.driverWidth d) false)
  k'.applyResolvedNet (k.driver d).net (k'.resolved (k.driver d).net)

/-- Record a new request of the driver with new bit generations. -/
def setDriverRequest (k : Kernel) (d : DriverId) (value : PackedVec)
    (generations : List Generation) : Kernel :=
  { k with
    driverRequests := k.driverRequests.set d value
    drivers := k.drivers.modify d fun t => { t with generation := t.generation + 1 }
    driverBitGenerations := k.driverBitGenerations.set d generations }

/-- Record a new request and invalidate every pending action of the driver. -/
def supersede (k : Kernel) (d : DriverId) (value : PackedVec) : Kernel :=
  k.setDriverRequest d value ((k.bitGenerations d).map (· + 1))

/-- Update one continuous driver and the resolved value of its net. -/
def driveNet (k : Kernel) (d : DriverId) (value : PackedVec) : Kernel :=
  let value := value.resize (k.driverWidth d) false
  (k.supersede d value).applyDrive d value

/-- The part of `schedule_drive` after the request has been recorded. -/
def startDrive (k : Kernel) (d : DriverId) (value : PackedVec) (delayFs : Nat) : Kernel :=
  if (k.driverValue d).eqCase value then k
  else if delayFs = 0 then k.applyDrive d value
  else k.pushTimedAction (saturatingAddFs k.time delayFs) .active
    (.drive d value (k.driver d).generation)

/-- Inertial update of the whole vector after `delayFs`. -/
def scheduleDrive (k : Kernel) (d : DriverId) (value : PackedVec) (delayFs : Nat) : Kernel :=
  let value := value.resize (k.driverWidth d) false
  if (k.driverRequest d).eqCase value then k
  else (k.supersede d value).startDrive d value delayFs

def driveImmediate (k : Kernel) (d : DriverId) (s : Transitions) : Kernel :=
  if s.hasImmediate then k.applyDrive d s.immediate else k

/-- The part of `schedule_drive_transitions` for a request that differs from the last one. -/
def requestDriver (k : Kernel) (d : DriverId) (value : PackedVec) (delays : DriveDelay) : Kernel :=
  let s := transitions (k.driverWidth d) (k.driverRequest d) (k.driverValue d) value
    delays.forTransition (k.bitGenerations d)
  ((k.setDriverRequest d value s.generations).driveImmediate d s).pushDelayed (.driveBits d)
    s.delayed

/-- Inertial updates of the single bits with rise, fall and turn-off delays. -/
def scheduleDriveTransitions (k : Kernel) (d : DriverId) (value : PackedVec)
    (delays : DriveDelay) : Kernel :=
  let value := value.resize (k.driverWidth d) false
  if (k.driverRequest d).eqCase value then k else k.requestDriver d value delays

/-! ### The time wheel -/

/-- Write the updates whose generation is still current. -/
def liveUpdates (generations : List Generation) (value : PackedVec) (updates : List BitDrive) :
    PackedVec × Bool :=
  updates.foldl (fun s u =>
    if generations.getD u.bit 0 = u.generation then (s.1.setBit u.bit u.value, true) else s)
    (value, false)

/-- What one timed event does when its time has come. -/
def dispatchEvent (k : Kernel) (ev : TimedEvent) : Kernel :=
  match ev.action with
  | .resume proc =>
    match ev.region with
    | .inactive => { k with inactive := k.inactive ++ [proc] }
    | _ => { k with active := k.active ++ [proc] }
  | .drive d value generation =>
    if (k.driver d).generation = generation then k.applyDrive d value else k
  | .driveBits d updates =>
    let s := liveUpdates (k.bitGenerations d) (k.driverValue d) updates
    if s.2 then k.applyDrive d s.1 else k
  | .netBits n updates =>
    let s := liveUpdates (k.net n).delayGenerations (k.netValue n) updates
    if s.2 then k.writeNet n s.1 else k

/-- An event without a live update. -/
def staleAction (k : Kernel) : TimedAction → Bool
  | .drive d _ generation => (k.driver d).generation ≠ generation
  | .driveBits d updates =>
    updates.all fun u => (k.bitGenerations d).getD u.bit 0 ≠ u.generation
  | .netBits n updates =>
    updates.all fun u => (k.net n).delayGenerations.getD u.bit 0 ≠ u.generation
  | .resume _ => false

def discardStaleTimedActions (k : Kernel) : Kernel :=
  { k with timed := k.timed.dropWhile fun ev => k.staleAction ev.action }

/-! ### Parking processes -/

/-- Register a process on one net. -/
def addWaiter (k : Kernel) (n : NetId) (w : Waiter) : Kernel :=
  k.modifyNet n fun net => { net with waiters := net.waiters ++ [w] }

/-- The nets of a wait, each once, in order of first occurrence. -/
def waitedNets (nets : List NetId) : List NetId :=
  nets.foldl (fun waited n => if n ∈ waited then waited else waited ++ [n]) []

def bumpEpoch (k : Kernel) (pid : ProcId) : Kernel :=
  { k with waitEpochs := Function.update k.waitEpochs pid (some ((k.waitEpochs pid).getD 0 + 1)) }

/-- Park a process on its net registrations. -/
def registerNets (k : Kernel) (pid : ProcId) (entries : List (NetId × EdgeKind)) : Kernel :=
  { entries.foldl (fun k e => k.addWaiter e.1 ⟨pid, e.2, (k.waitEpochs pid).getD 0⟩) k with
    netWaits := Function.update k.netWaits pid (some (waitedNets (entries.map Prod.fst))) }

/-- Park a process per the wait it returned. A `fork` never gets here. -/
def arm (k : Kernel) (pid : ProcId) (wait : Wait) : Kernel :=
  let k := (k.clearNetWaiters pid).bumpEpoch pid
  match wait with
  | .finished => { k with waitEpochs := Function.update k.waitEpochs pid none }
  | .delay fs => k.pushTimedAction (saturatingAddFs k.time fs) .active (.resume pid)
  | .edge n kind => k.registerNets pid [(n, kind)]
  | .sensitivity list => k.registerNets pid list
  | .cond nets => k.registerNets pid ((waitedNets nets).map fun n => (n, .anyChange))
  | .runtimeCond => { k with runtimeWaiters := k.runtimeWaiters ++ [pid] }
  | .nba => { k with nbaWaiters := k.nbaWaiters ++ [pid] }
  | .namedEvent event => { k with eventWaiters := k.eventWaiters ++ [(event, pid)] }
  | .fork _ _ => k

/-- One iteration of `notify_finished`: the child leaves the watch, which wakes its parent when
that satisfies it. -/
def visitWatch (pid : ProcId) (woken : List ProcId) (w : JoinWatch) :
    List ProcId × Option JoinWatch :=
  let remaining := w.remaining.filter (· ≠ pid)
  if remaining.length < w.remaining.length ∧ (w.any ∨ remaining = []) then
    (woken ++ [w.parent], none)
  else (woken, some { w with remaining := remaining })

def notifyFinished (k : Kernel) (pid : ProcId) : Kernel :=
  let s := scan (visitWatch pid) [] k.joinWatches
  { k with active := k.active ++ s.1, joinWatches := s.2 }

/-- The nets a wait refers to. -/
def waitNets : Wait → List NetId
  | .edge n _ => [n]
  | .sensitivity list => list.map Prod.fst
  | .cond nets => nets
  | _ => []

/-! ### Nets after an update -/

theorem net_modifyNet (k : Kernel) (n m : NetId) (f : Net → Net) :
    (k.modifyNet n f).net m = if m = n ∧ n < k.nets.length then f (k.net m) else k.net m := by
  unfold net modifyNet
  simp only [List.getD_eq_getElem?_getD, List.getElem?_modify]
  by_cases hm : m = n
  · subst hm
    by_cases hl : m < k.nets.length
    · simp [hl]
    · simp [hl]
  · simp [hm, Ne.symm hm]

theorem net_of_ge {k : Kernel} {n : NetId} (h : k.nets.length ≤ n) : k.net n = default := by
  simp [net, List.getD_eq_getElem?_getD, List.getElem?_eq_none h]

/-- A change that leaves the default net alone applies at every index. -/
theorem net_modifyNet_of_default (k : Kernel) (n m : NetId) {f : Net → Net}
    (hf : f default = default) :
    (k.modifyNet n f).net m = if m = n then f (k.net m) else k.net m := by
  rw [net_modifyNet]
  by_cases hm : m = n
  · subst hm
    by_cases hl : m < k.nets.length
    · simp [hl]
    · simp [hl, net_of_ge (Nat.le_of_not_lt hl), hf]
  · simp [hm]

def Net.forget (pid : ProcId) (net : Net) : Net :=
  { net with waiters := net.waiters.filter (·.proc ≠ pid) }

theorem net_clearNetWaiters (k : Kernel) (pid : ProcId) (m : NetId) :
    (k.clearNetWaiters pid).net m =
      if m ∈ (k.netWaits pid).getD [] then Net.forget pid (k.net m) else k.net m := by
  have twice (net : Net) : Net.forget pid (Net.forget pid net) = Net.forget pid net := by
    simp [Net.forget, List.filter_filter]
  have fold : ∀ (waited : List NetId) (k : Kernel),
      net { k with nets := waited.foldl (fun nets n =>
        nets.modify n (Net.forget pid)) k.nets } m =
        if m ∈ waited then Net.forget pid (k.net m) else k.net m := by
    intro waited
    induction waited with
    | nil =>
      intro k
      simp only [List.foldl_nil, List.not_mem_nil, if_false]
    | cons n waited ih =>
      intro k
      have hstep := ih (k.modifyNet n (Net.forget pid))
      rw [net_modifyNet_of_default k n m rfl] at hstep
      simp only [List.foldl_cons]
      refine hstep.trans ?_
      by_cases hn : m = n
      · subst hn
        by_cases hw : m ∈ waited <;> simp [hw, twice]
      · simp [hn]
  unfold clearNetWaiters
  cases h : k.netWaits pid with
  | none => simp
  | some waited => exact fold waited k

end Kernel

end Eevee.Sched.Scheduler
