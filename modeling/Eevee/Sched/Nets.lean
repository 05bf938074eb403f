/- Nets: resolution kinds, drive strengths, transition delays, sensitivity lists and edges. -/

import Eevee.Core.Logic

set_option autoImplicit false
set_option relaxedAutoImplicit false

namespace Eevee.Sched.Nets

open Eevee.Core.Logic

abbrev ProcId := Nat
abbrev NetId := Nat
abbrev DriverId := Nat
abbrev EventId := Nat

/-- Femtoseconds; the machine type has 64 bits. -/
abbrev SimTime := Nat

def maxTime : SimTime := 0xFFFFFFFFFFFFFFFF

/-- Saturating addition of a femtosecond delta. -/
def saturatingAddFs (t : SimTime) (delta : Nat) : SimTime := min (t + delta) maxTime

theorem le_saturatingAddFs {t : SimTime} (ht : t ≤ maxTime) (delta : Nat) :
    t ≤ saturatingAddFs t delta := Nat.le_min.mpr ⟨Nat.le_add_right t delta, ht⟩

/-- Update counters wrap at 64 bits, as `wrapping_add` does. -/
abbrev Generation := BitVec 64

inductive NetResolution
  | wire | wand | wor
  deriving DecidableEq

inductive DriveStrength
  | highZ | weak | pull | strong | supply
  deriving DecidableEq

/-- The discriminants of the strength levels. -/
def DriveStrength.level : DriveStrength → Nat
  | .highZ => 0
  | .weak => 3
  | .pull => 5
  | .strong => 6
  | .supply => 7

/-- Strengths used when one driver produces logic 0 or logic 1. -/
structure DriverStrengths where
  zero : DriveStrength
  one : DriveStrength
  deriving DecidableEq

def transitionDelay (source target : Bit) (riseFs fallFs turnOffFs : Nat) : Nat :=
  match target with
  | .one => riseFs
  | .zero => fallFs
  | .z => turnOffFs
  | .x => match source with
    | .zero => min riseFs turnOffFs
    | .one => min fallFs turnOffFs
    | .z => min riseFs fallFs
    | .x => 0

/-- Transition-specific delays for one continuous driver. -/
structure DriveDelay where
  riseFs : Nat
  fallFs : Nat
  turnOffFs : Nat
  deriving DecidableEq

def DriveDelay.forTransition (d : DriveDelay) (source target : Bit) : Nat :=
  transitionDelay source target d.riseFs d.fallFs d.turnOffFs

/-- Transition-specific propagation delays for a resolved net value. -/
structure NetDelay where
  riseFs : Nat
  fallFs : Nat
  turnOffFs : Nat
  deriving DecidableEq

def NetDelay.forTransition (d : NetDelay) (source target : Bit) : Nat :=
  transitionDelay source target d.riseFs d.fallFs d.turnOffFs

inductive EdgeKind
  | posedge | negedge | anyChange
  deriving DecidableEq

/-- A process parked on a net, with the edge it is waiting for. -/
structure Waiter where
  proc : ProcId
  edge : EdgeKind
  epoch : Nat
  deriving DecidableEq

/-- A four-state net with an attached sensitivity list. -/
structure Net where
  value : PackedVec
  resolution : NetResolution
  delay : Option NetDelay
  delayRequest : PackedVec
  delayGenerations : List Generation
  driverValues : List PackedVec
  driverStrengths : List DriverStrengths
  waiters : List Waiter
  deriving DecidableEq

def Net.withResolution (value : PackedVec) (resolution : NetResolution)
    (delay : Option NetDelay) : Net where
  value := value
  resolution := resolution
  delay := delay
  delayRequest := value
  delayGenerations := List.replicate value.width 0
  driverValues := []
  driverStrengths := []
  waiters := []

instance : Inhabited Net := ⟨.withResolution default .wire none⟩

/-- Which edges a transition produced. -/
structure Edges where
  posedge : Bool
  negedge : Bool
  changed : Bool

def Edges.fires (e : Edges) : EdgeKind → Bool
  | .posedge => e.posedge
  | .negedge => e.negedge
  | .anyChange => e.changed

def isPosedge (old new : Bit) : Bool :=
  match old, new with
  | .zero, .one | .zero, .x | .zero, .z | .x, .one | .z, .one => true
  | _, _ => false

def isNegedge (old new : Bit) : Bool :=
  match old, new with
  | .one, .zero | .one, .x | .one, .z | .x, .zero | .z, .zero => true
  | _, _ => false

/-- Edges are those of bit 0; `changed` is full-vector case inequality. -/
def detectEdge (old new : PackedVec) : Edges :=
  if !old.eqCase new then
    ⟨isPosedge (old.getBit 0) (new.getBit 0), isNegedge (old.getBit 0) (new.getBit 0), true⟩
  else ⟨false, false, false⟩

theorem detectEdge_changed (old new : PackedVec) :
    (detectEdge old new).changed = true ↔ old ≠ new := by
  unfold detectEdge
  by_cases h : old = new
  · simp [h, PackedVec.eqCase_iff.mpr rfl]
  · have hn : old.eqCase new = false := by
      rw [Bool.eq_false_iff]
      exact fun he => h (PackedVec.eqCase_iff.mp he)
    simp [hn, h]

theorem detectEdge_unchanged {old new : PackedVec}
    (h : (detectEdge old new).changed = false) (edge : EdgeKind) :
    (detectEdge old new).fires edge = false := by
  unfold detectEdge at h ⊢
  split_ifs at h ⊢ with hc
  cases edge <;> rfl

end Eevee.Sched.Nets
