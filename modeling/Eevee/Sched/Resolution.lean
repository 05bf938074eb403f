/- Driver resolution: strength intervals for wires, dominance for wired nets. -/

import Mathlib.Data.List.Perm.Subperm
import Mathlib.Data.List.MinMax
import Mathlib.Tactic.Common
import Eevee.Sched.Nets

set_option autoImplicit false
set_option relaxedAutoImplicit false

namespace Eevee.Sched.Resolution

open Eevee.Core.Logic
open Eevee.Sched.Nets

/-- One end of a strength interval: a logic value with a strength. -/
structure StrengthPoint where
  one : Bool
  strength : Nat
  deriving DecidableEq

namespace StrengthPoint

def highZ : StrengthPoint := ⟨false, 0⟩

def coordinate (p : StrengthPoint) : Int := if p.one then p.strength else -p.strength

/-- Coordinate zero decodes to the logic-0 side. -/
def fromCoordinate (c : Int) : StrengthPoint := ⟨decide (c > 0), c.natAbs⟩

end StrengthPoint

/-- An X drive is an interval between its possible 0 and its possible 1. -/
structure StrengthValue where
  towardZero : StrengthPoint
  towardOne : StrengthPoint
  deriving DecidableEq

namespace StrengthValue

def highZ : StrengthValue := ⟨.highZ, .highZ⟩

def new (bit : Bit) (strengths : DriverStrengths) : StrengthValue :=
  if strengths.zero.level = 0 ∧ strengths.one.level = 0 then highZ
  else match bit with
    | .zero => ⟨⟨false, strengths.zero.level⟩, ⟨false, strengths.zero.level⟩⟩
    | .one => ⟨⟨true, strengths.one.level⟩, ⟨true, strengths.one.level⟩⟩
    | .x => ⟨⟨false, strengths.zero.level⟩, ⟨true, strengths.one.level⟩⟩
    | .z => highZ

def isHighZ (v : StrengthValue) : Bool :=
  v.towardZero.strength == 0 && v.towardOne.strength == 0

def isUnambiguous (v : StrengthValue) : Bool := v.towardZero == v.towardOne

def bit (v : StrengthValue) : Bit :=
  if v.isHighZ then .z
  else if v.towardZero.one = v.towardOne.one then
    if v.towardZero.one then .one else .zero
  else .x

/-- Two unambiguous drives: the stronger one, or the interval of an equal-strength conflict. -/
def resolvePoints (v other : StrengthValue) : StrengthValue :=
  if other.towardZero.strength > v.towardZero.strength then other
  else if other.towardZero.strength = v.towardZero.strength then
    if v.towardZero.one then ⟨other.towardZero, v.towardOne⟩
    else ⟨v.towardZero, other.towardOne⟩
  else v

/-- An unambiguous drive against an interval: it replaces each end it is stronger than. -/
def resolvePoint (v other : StrengthValue) : StrengthValue where
  towardZero :=
    if v.towardZero.strength > other.towardZero.strength then v.towardZero else other.towardZero
  towardOne :=
    if v.towardOne.strength > other.towardOne.strength then v.towardOne else other.towardOne

/-- Two intervals: the hull of the four ends. -/
def hull (v other : StrengthValue) : StrengthValue where
  towardZero := .fromCoordinate
    (min (min v.towardZero.coordinate v.towardOne.coordinate)
      (min other.towardZero.coordinate other.towardOne.coordinate))
  towardOne := .fromCoordinate
    (max (max v.towardZero.coordinate v.towardOne.coordinate)
      (max other.towardZero.coordinate other.towardOne.coordinate))

/-- `other.resolve(self)` in the source's last branch is reached with `other` unambiguous and
`self` not, where it is `resolvePoint`. -/
def resolve (v other : StrengthValue) : StrengthValue :=
  if v.isHighZ then other
  else if other.isHighZ || v == other then v
  else if v.isUnambiguous && other.isUnambiguous then v.resolvePoints other
  else if v.isUnambiguous then v.resolvePoint other
  else if other.isUnambiguous then other.resolvePoint v
  else v.hull other

end StrengthValue

def resolveWireBit (drivers : List PackedVec) (strengths : List DriverStrengths)
    (bit : Nat) : Bit :=
  ((drivers.zip strengths).foldl
    (fun (resolved : StrengthValue) d => resolved.resolve (.new (d.1.getBit bit) d.2))
    StrengthValue.highZ).bit

/-- The loop of `resolve_wand_bit`; a 0 returns at once. -/
def wandLoop (value : Bit) : List Bit → Bit
  | [] => value
  | .z :: rest => wandLoop value rest
  | .zero :: _ => .zero
  | .x :: rest => wandLoop .x rest
  | .one :: rest => wandLoop (if value = .z then .one else value) rest

def resolveWandBit (drivers : List PackedVec) (bit : Nat) : Bit :=
  wandLoop .z (drivers.map (·.getBit bit))

/-- The loop of `resolve_wor_bit`; a 1 returns at once. -/
def worLoop (value : Bit) : List Bit → Bit
  | [] => value
  | .z :: rest => worLoop value rest
  | .one :: _ => .one
  | .x :: rest => worLoop .x rest
  | .zero :: rest => worLoop (if value = .z then .zero else value) rest

def resolveWorBit (drivers : List PackedVec) (bit : Nat) : Bit :=
  worLoop .z (drivers.map (·.getBit bit))

def resolveBit (drivers : List PackedVec) (strengths : List DriverStrengths)
    (resolution : NetResolution) (bit : Nat) : Bit :=
  match resolution with
  | .wire => resolveWireBit drivers strengths bit
  | .wand => resolveWandBit drivers bit
  | .wor => resolveWorBit drivers bit

def resolveDrivers (drivers : List PackedVec) (strengths : List DriverStrengths)
    (width : Nat) (resolution : NetResolution) : PackedVec :=
  (PackedVec.z width).writeBits width id (resolveBit drivers strengths resolution)

@[simp] theorem width_resolveDrivers (drivers : List PackedVec)
    (strengths : List DriverStrengths) (width : Nat) (resolution : NetResolution) :
    (resolveDrivers drivers strengths width resolution).width = width := by
  simp [resolveDrivers]

theorem getBit_resolveDrivers (drivers : List PackedVec) (strengths : List DriverStrengths)
    (width : Nat) (resolution : NetResolution) {i : Nat} (hi : i < width) :
    (resolveDrivers drivers strengths width resolution).getBit i =
      resolveBit drivers strengths resolution i := by
  simp [resolveDrivers, PackedVec.getBit_writeBits_id, hi]

theorem resolveDrivers_eq_iff {d₁ d₂ : List PackedVec} {s₁ s₂ : List DriverStrengths}
    {width : Nat} {resolution : NetResolution} :
    resolveDrivers d₁ s₁ width resolution = resolveDrivers d₂ s₂ width resolution ↔
      ∀ i < width, resolveBit d₁ s₁ resolution i = resolveBit d₂ s₂ resolution i := by
  constructor
  · intro h i hi
    rw [← getBit_resolveDrivers d₁ s₁ width resolution hi, h,
      getBit_resolveDrivers d₂ s₂ width resolution hi]
  · intro h
    apply PackedVec.ext_bits (by simp)
    intro i hi
    have hi : i < width := by simpa using hi
    rw [getBit_resolveDrivers d₁ s₁ width resolution hi,
      getBit_resolveDrivers d₂ s₂ width resolution hi, h i hi]

/-! ### Undriven slots -/

theorem StrengthValue.new_z (strengths : DriverStrengths) :
    StrengthValue.new .z strengths = highZ := by
  unfold StrengthValue.new
  split_ifs <;> rfl

theorem StrengthValue.bit_resolve_highZ (v : StrengthValue) : (v.resolve highZ).bit = v.bit := by
  unfold StrengthValue.resolve
  by_cases hv : v.isHighZ = true
  · rw [if_pos hv]
    unfold StrengthValue.bit
    rw [if_pos hv]
    rfl
  · rw [if_neg hv]
    rfl

theorem wandLoop_append_z (bits : List Bit) (value : Bit) :
    wandLoop value (bits ++ [.z]) = wandLoop value bits := by
  induction bits generalizing value with
  | nil => rfl
  | cons b bits ih => cases b <;> simp only [List.cons_append, wandLoop, ih]

theorem worLoop_append_z (bits : List Bit) (value : Bit) :
    worLoop value (bits ++ [.z]) = worLoop value bits := by
  induction bits generalizing value with
  | nil => rfl
  | cons b bits ih => cases b <;> simp only [List.cons_append, worLoop, ih]

/-- A driver that contributes high impedance changes nothing. -/
theorem resolveBit_append_z {drivers : List PackedVec} {strengths : List DriverStrengths}
    (hlen : strengths.length = drivers.length) {v : PackedVec} {bit : Nat}
    (hv : v.getBit bit = .z) (s : DriverStrengths) (resolution : NetResolution) :
    resolveBit (drivers ++ [v]) (strengths ++ [s]) resolution bit =
      resolveBit drivers strengths resolution bit := by
  cases resolution with
  | wire =>
    show resolveWireBit _ _ bit = resolveWireBit _ _ bit
    unfold resolveWireBit
    rw [List.zip_append hlen.symm, List.foldl_append]
    simp only [List.zip_cons_cons, List.zip_nil_right, List.foldl_cons, List.foldl_nil, hv,
      StrengthValue.new_z, StrengthValue.bit_resolve_highZ]
  | wand =>
    show resolveWandBit _ bit = resolveWandBit _ bit
    unfold resolveWandBit
    rw [List.map_append, List.map_cons, List.map_nil, hv, wandLoop_append_z]
  | wor =>
    show resolveWorBit _ bit = resolveWorBit _ bit
    unfold resolveWorBit
    rw [List.map_append, List.map_cons, List.map_nil, hv, worLoop_append_z]

theorem resolveDrivers_nil (width : Nat) (resolution : NetResolution) :
    resolveDrivers [] [] width resolution = .z width := by
  apply PackedVec.ext_bits (by simp)
  intro i hi
  have hi : i < width := by simpa using hi
  rw [getBit_resolveDrivers _ _ _ _ hi, PackedVec.getBit_z, if_pos hi]
  cases resolution <;> rfl

/-! ### Wired-AND and wired-OR -/

/-- A dominated fold: the dominant value if present, else X, else the other value, else Z. -/
theorem wandLoop_eq (bits : List Bit) (value : Bit) (hv : value ≠ .zero) :
    wandLoop value bits =
      if .zero ∈ bits then .zero
      else if value = .x ∨ .x ∈ bits then .x
      else if value = .one ∨ .one ∈ bits then .one else .z := by
  induction bits generalizing value with
  | nil => cases value <;> simp_all [wandLoop]
  | cons b rest ih =>
    cases b with
    | zero => simp [wandLoop]
    | one =>
      have hne : (if value = Bit.z then Bit.one else value) ≠ .zero := by
        cases value <;> simp_all
      rw [wandLoop, ih _ hne]
      cases value <;> simp_all
    | x =>
      rw [wandLoop, ih _ (by simp)]
      simp
    | z =>
      rw [wandLoop, ih _ hv]
      simp

theorem worLoop_eq (bits : List Bit) (value : Bit) (hv : value ≠ .one) :
    worLoop value bits =
      if .one ∈ bits then .one
      else if value = .x ∨ .x ∈ bits then .x
      else if value = .zero ∨ .zero ∈ bits then .zero else .z := by
  induction bits generalizing value with
  | nil => cases value <;> simp_all [worLoop]
  | cons b rest ih =>
    cases b with
    | one => simp [worLoop]
    | zero =>
      have hne : (if value = Bit.z then Bit.zero else value) ≠ .one := by
        cases value <;> simp_all
      rw [worLoop, ih _ hne]
      cases value <;> simp_all
    | x =>
      rw [worLoop, ih _ (by simp)]
      simp
    | z =>
      rw [worLoop, ih _ hv]
      simp

theorem resolveWandBit_perm {d₁ d₂ : List PackedVec} (h : d₁.Perm d₂) (bit : Nat) :
    resolveWandBit d₁ bit = resolveWandBit d₂ bit := by
  have hm : ∀ b, b ∈ d₁.map (·.getBit bit) ↔ b ∈ d₂.map (·.getBit bit) :=
    fun b => (h.map _).mem_iff
  simp only [resolveWandBit, wandLoop_eq _ Bit.z (by simp), hm]

theorem resolveWorBit_perm {d₁ d₂ : List PackedVec} (h : d₁.Perm d₂) (bit : Nat) :
    resolveWorBit d₁ bit = resolveWorBit d₂ bit := by
  have hm : ∀ b, b ∈ d₁.map (·.getBit bit) ↔ b ∈ d₂.map (·.getBit bit) :=
    fun b => (h.map _).mem_iff
  simp only [resolveWorBit, worLoop_eq _ Bit.z (by simp), hm]

end Eevee.Sched.Resolution
