/- The simulation loop as a labelled step function over arbitrary processes. -/

import Eevee.Lib.Transition
import Eevee.Sched.Scheduler

set_option autoImplicit false
set_option relaxedAutoImplicit false

namespace Eevee.Sched.Simulation

open Eevee.Core.Logic
open Eevee.Lib.Transition
open Eevee.Sched.Nets
open Eevee.Sched.Scheduler

/-- The public operations of the kernel, called by processes and by the host. -/
inductive Call
  | newNet (initial : PackedVec) (resolution : NetResolution) (delay : Option NetDelay)
  | newDriver (net : NetId) (zero one : DriveStrength)
  | driveNet (driver : DriverId) (value : PackedVec)
  | scheduleDrive (driver : DriverId) (value : PackedVec) (delayFs : Nat)
  | scheduleDriveTransitions (driver : DriverId) (value : PackedVec) (delays : DriveDelay)
  | writeNet (net : NetId) (value : PackedVec)
  | scheduleNba (net : NetId) (value : PackedVec)
  | requestStop
  | notifyRuntimeChange
  | triggerEvent (event : EventId)

/-- Whether the call runs without a panic: handles in range, and default strength on wired
nets. A bad handle in `scheduleNba` is only noticed when the update is applied. -/
def Call.Valid (k : Kernel) : Call → Prop
  | .newDriver n zero one => n < k.nets.length ∧
    ((k.net n).resolution = .wire ∨ zero = .strong ∧ one = .strong)
  | .driveNet d _ | .scheduleDrive d _ _ | .scheduleDriveTransitions d _ _ => d < k.drivers.length
  | .writeNet n _ => n < k.nets.length
  | _ => True

instance (k : Kernel) (c : Call) : Decidable (c.Valid k) := by
  cases c <;> unfold Call.Valid <;> infer_instance

def Call.exec (k : Kernel) : Call → Kernel
  | .newNet initial resolution delay => k.newNetWithResolutionAndDelay initial resolution delay
  | .newDriver n zero one => k.newDriverWithStrengths n zero one
  | .driveNet d value => k.driveNet d value
  | .scheduleDrive d value delayFs => k.scheduleDrive d value delayFs
  | .scheduleDriveTransitions d value delays => k.scheduleDriveTransitions d value delays
  | .writeNet n value => k.writeNet n value
  | .scheduleNba n value => k.scheduleNba n value
  | .requestStop => k.requestStop
  | .notifyRuntimeChange => k.notifyRuntimeChange
  | .triggerEvent event => k.triggerEvent event

/-- Where the simulation loop stands between two steps. -/
inductive Mode
  /-- Outside `run_until`: the host may call the kernel and add processes. -/
  | idle
  /-- Inside `run_until`, between two processes. -/
  | running (limit : Option SimTime)
  /-- Inside `resume` of a process, which may call the kernel. -/
  | resuming (limit : Option SimTime) (pid : ProcId)
  /-- Inside `dispatch_time_slot`. -/
  | dispatching (limit : Option SimTime)
  deriving DecidableEq

/-- The kernel and the process table. A process is arbitrary code: of it only the wait it
returned last is kept, none before its first resume and while it runs. -/
structure Sim where
  kernel : Kernel
  procs : List (Option Wait)
  mode : Mode

namespace Sim

def new : Sim := ⟨.new, [], .idle⟩

/-- The wait a process is parked on. -/
def lastWait (s : Sim) (p : ProcId) : Option Wait := s.procs.getD p none

def addProcess (s : Sim) : Sim :=
  { s with
    procs := s.procs ++ [none]
    kernel := { s.kernel with active := s.kernel.active ++ [s.procs.length] } }

/-- Spawn the children and requeue the parent or park it on a join watch. -/
def spawnFork (s : Sim) (parent : ProcId) (children : Nat) (join : ForkJoin) : Sim :=
  let ids := (List.range children).map (s.procs.length + ·)
  let k := s.kernel
  { s with
    procs := s.procs ++ List.replicate children none
    kernel :=
      if join = .none ∨ ids = [] then { k with active := k.active ++ ids ++ [parent] }
      else { k with
        active := k.active ++ ids
        joinWatches := k.joinWatches ++ [⟨parent, ids, join = .any⟩] } }

/-- Park the process that returned `wait`. -/
def park (s : Sim) (pid : ProcId) (wait : Wait) : Sim :=
  let s := { s with procs := s.procs.set pid (some wait) }
  match wait with
  | .fork children join => s.spawnFork pid children join
  | .finished => { s with kernel := (s.kernel.arm pid .finished).notifyFinished pid }
  | other => { s with kernel := s.kernel.arm pid other }

end Sim

inductive Label
  | call (c : Call)
  | addProcess
  | runUntil (limit : Option SimTime)
  | resume
  | suspend (wait : Wait)
  | promote
  | drainNba
  | advance
  | dispatch
  | settle

/-- The next event is due at the current time. -/
def due (k : Kernel) : Option TimedEvent :=
  k.timed.head?.filter fun ev => ev.time = k.time

/-- One step of the host, of the loop of `run_until` or of the running process. -/
def step (l : Label) (s : Sim) : Option Sim :=
  let k := s.kernel
  match s.mode, l with
  | .idle, .call c => if c.Valid k then some { s with kernel := c.exec k } else none
  | .resuming _ _, .call c => if c.Valid k then some { s with kernel := c.exec k } else none
  | .idle, .addProcess => some s.addProcess
  | .idle, .runUntil limit => some { s with mode := .running limit }
  | .running limit, .resume =>
    match k.active with
    | [] => none
    | pid :: rest => some { s with
        kernel := { k with active := rest }
        procs := s.procs.set pid none
        mode := .resuming limit pid }
  | .resuming limit pid, .suspend wait =>
    if ∀ n ∈ Kernel.waitNets wait, n < k.nets.length then
      let s := s.park pid wait
      some { s with mode := if s.kernel.stop then .idle else .running limit }
    else none
  | .running _, .promote =>
    if k.active = [] ∧ k.inactive ≠ [] then
      some { s with kernel := { k with active := k.active ++ k.inactive, inactive := [] } }
    else none
  | .running _, .drainNba =>
    if k.active = [] ∧ k.inactive = [] ∧ (k.nba ≠ [] ∨ k.nbaWaiters ≠ []) ∧
        ∀ u ∈ k.nba, u.1 < k.nets.length then
      some { s with kernel := k.drainNba }
    else none
  | .running limit, .advance =>
    if k.active = [] ∧ k.inactive = [] ∧ k.nba = [] ∧ k.nbaWaiters = [] then
      let k := k.discardStaleTimedActions
      match k.timed with
      | [] => some { s with kernel := k, mode := .idle }
      | ev :: _ =>
        match limit with
        | some limit =>
          if ev.time > limit then some { s with kernel := { k with time := limit }, mode := .idle }
          else
            some { s with kernel := { k with time := ev.time }, mode := .dispatching (some limit) }
        | none => some { s with kernel := { k with time := ev.time }, mode := .dispatching none }
    else none
  | .dispatching _, .dispatch =>
    match k.timed with
    | [] => none
    | ev :: rest =>
      if ev.time = k.time then
        some { s with kernel := { k with timed := rest }.dispatchEvent ev }
      else none
  | .dispatching limit, .settle =>
    if due k = none then some { s with mode := .running limit } else none
  | _, _ => none

/-- What each step can do, with its guard. -/
inductive Stepped : Label → Sim → Sim → Prop
  | call {s : Sim} {c : Call} (hm : s.mode = .idle ∨ ∃ limit pid, s.mode = .resuming limit pid)
      (hv : c.Valid s.kernel) : Stepped (.call c) s { s with kernel := c.exec s.kernel }
  | addProcess {s : Sim} (hm : s.mode = .idle) : Stepped .addProcess s s.addProcess
  | runUntil {s : Sim} {limit : Option SimTime} (hm : s.mode = .idle) :
      Stepped (.runUntil limit) s { s with mode := .running limit }
  | resume {s : Sim} {limit : Option SimTime} {pid : ProcId} {rest : List ProcId}
      (hm : s.mode = .running limit) (ha : s.kernel.active = pid :: rest) :
      Stepped .resume s
        ⟨{ s.kernel with active := rest }, s.procs.set pid none, .resuming limit pid⟩
  | suspend {s : Sim} {limit : Option SimTime} {pid : ProcId} {wait : Wait}
      (hm : s.mode = .resuming limit pid)
      (hn : ∀ n ∈ Kernel.waitNets wait, n < s.kernel.nets.length) :
      Stepped (.suspend wait) s { s.park pid wait with
        mode := if (s.park pid wait).kernel.stop then .idle else .running limit }
  | promote {s : Sim} {limit : Option SimTime} (hm : s.mode = .running limit)
      (ha : s.kernel.active = []) (hi : s.kernel.inactive ≠ []) :
      Stepped .promote s { s with kernel := { s.kernel with
        active := s.kernel.active ++ s.kernel.inactive, inactive := [] } }
  | drainNba {s : Sim} {limit : Option SimTime} (hm : s.mode = .running limit)
      (ha : s.kernel.active = []) (hi : s.kernel.inactive = [])
      (hp : s.kernel.nba ≠ [] ∨ s.kernel.nbaWaiters ≠ [])
      (hn : ∀ u ∈ s.kernel.nba, u.1 < s.kernel.nets.length) :
      Stepped .drainNba s { s with kernel := s.kernel.drainNba }
  | done {s : Sim} {limit : Option SimTime} (hm : s.mode = .running limit)
      (hq : s.kernel.active = [] ∧ s.kernel.inactive = [] ∧ s.kernel.nba = [] ∧
        s.kernel.nbaWaiters = [])
      (ht : s.kernel.discardStaleTimedActions.timed = []) :
      Stepped .advance s { s with kernel := s.kernel.discardStaleTimedActions, mode := .idle }
  | limited {s : Sim} {limit : SimTime} {ev : TimedEvent} {rest : List TimedEvent}
      (hm : s.mode = .running (some limit))
      (hq : s.kernel.active = [] ∧ s.kernel.inactive = [] ∧ s.kernel.nba = [] ∧
        s.kernel.nbaWaiters = [])
      (ht : s.kernel.discardStaleTimedActions.timed = ev :: rest) (hl : limit < ev.time) :
      Stepped .advance s { s with
        kernel := { s.kernel.discardStaleTimedActions with time := limit }, mode := .idle }
  | advance {s : Sim} {limit : Option SimTime} {ev : TimedEvent} {rest : List TimedEvent}
      (hm : s.mode = .running limit)
      (hq : s.kernel.active = [] ∧ s.kernel.inactive = [] ∧ s.kernel.nba = [] ∧
        s.kernel.nbaWaiters = [])
      (ht : s.kernel.discardStaleTimedActions.timed = ev :: rest)
      (hl : ∀ t, limit = some t → ev.time ≤ t) :
      Stepped .advance s { s with
        kernel := { s.kernel.discardStaleTimedActions with time := ev.time },
        mode := .dispatching limit }
  | dispatch {s : Sim} {limit : Option SimTime} {ev : TimedEvent} {rest : List TimedEvent}
      (hm : s.mode = .dispatching limit) (ht : s.kernel.timed = ev :: rest)
      (hd : ev.time = s.kernel.time) :
      Stepped .dispatch s { s with kernel := { s.kernel with timed := rest }.dispatchEvent ev }
  | settle {s : Sim} {limit : Option SimTime} (hm : s.mode = .dispatching limit)
      (hd : due s.kernel = none) : Stepped .settle s { s with mode := .running limit }

theorem stepped_of_step {l : Label} {s s' : Sim} (h : step l s = some s') : Stepped l s s' := by
  obtain ⟨k, procs, mode⟩ := s
  cases l with
  | call c =>
    cases mode <;> simp only [step, Option.ite_none_right_eq_some, reduceCtorEq] at h
    · obtain ⟨hv, h⟩ := h
      cases h
      exact .call (.inl rfl) hv
    · obtain ⟨hv, h⟩ := h
      cases h
      exact .call (.inr ⟨_, _, rfl⟩) hv
  | addProcess =>
    cases mode <;> simp only [step, Option.some.injEq, reduceCtorEq] at h
    exact h ▸ .addProcess rfl
  | runUntil limit =>
    cases mode <;> simp only [step, Option.some.injEq, reduceCtorEq] at h
    exact h ▸ .runUntil rfl
  | resume =>
    cases mode <;> simp only [step, reduceCtorEq] at h
    split at h
    · cases h
    · next ha =>
      cases h
      exact .resume rfl ha
  | suspend wait =>
    cases mode <;> simp only [step, Option.ite_none_right_eq_some, reduceCtorEq] at h
    obtain ⟨hn, h⟩ := h
    cases h
    exact .suspend rfl hn
  | promote =>
    cases mode <;> simp only [step, Option.ite_none_right_eq_some, reduceCtorEq] at h
    obtain ⟨⟨ha, hi⟩, h⟩ := h
    cases h
    exact .promote rfl ha hi
  | drainNba =>
    cases mode <;> simp only [step, Option.ite_none_right_eq_some, reduceCtorEq] at h
    obtain ⟨⟨ha, hi, hp, hn⟩, h⟩ := h
    cases h
    exact .drainNba rfl ha hi hp hn
  | advance =>
    cases mode <;> simp only [step, Option.ite_none_right_eq_some, reduceCtorEq] at h
    obtain ⟨hq, h⟩ := h
    split at h
    · next ht =>
      cases h
      exact .done rfl hq ht
    · next ev rest ht =>
      split at h
      · next limit =>
        split at h
        · next hl =>
          cases h
          exact .limited rfl hq ht hl
        · next hl =>
          cases h
          exact .advance rfl hq ht fun t he => Option.some.inj he ▸ Nat.le_of_not_lt hl
      · cases h
        exact .advance rfl hq ht fun t ht => by simp at ht
  | dispatch =>
    cases mode <;> simp only [step, reduceCtorEq] at h
    split at h
    · cases h
    · next ht =>
      simp only [Option.ite_none_right_eq_some] at h
      obtain ⟨hd, h⟩ := h
      cases h
      exact .dispatch rfl ht hd
  | settle =>
    cases mode <;> simp only [step, Option.ite_none_right_eq_some, reduceCtorEq] at h
    obtain ⟨hd, h⟩ := h
    cases h
    exact .settle rfl hd

/-- A run of the simulation from its creation. -/
abbrev Runs (labels : List Label) (s : Sim) : Prop := run step Sim.new labels = some s

end Eevee.Sched.Simulation
