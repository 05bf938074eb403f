/- The values of registers and the logic instructions on them. -/

import Mathlib.Data.List.Basic
import Eevee.Ir.Inst

set_option autoImplicit false
set_option relaxedAutoImplicit false

namespace Eevee.Ir.Values

open Eevee.Core.Logic
open Eevee.Ir.Inst

/-- A register's value: null until it is written. -/
inductive Value
  | null
  | logic (value : PackedVec)
  deriving DecidableEq

/-- What the instructions read outside the registers: net values and package variables. -/
structure World where
  nets : Nat → PackedVec
  statics : Nat → Value

/-- The nets of a fixed memory, one for each index from `left` to `right`. -/
structure MemoryDef where
  elements : List Nat
  left : Int
  right : Int
  elementWidth : Nat

/-- A known value that fits in 64 bits. -/
def tryToU64 (v : PackedVec) : Option Nat :=
  if v.isKnown then
    match v.1.repr with
    | .small aval _ => some aval.toNat
    | .wide aval _ => if aval.tail.all (· == 0) then some (aval.headD 0).toNat else none
  else none

/-- The net at an index; none when the index is unknown or out of the declared range. -/
def memoryElement (memory : MemoryDef) (index : PackedVec) : Option Nat :=
  (tryToU64 index).bind fun index =>
    if index < 0x8000000000000000 then
      if memory.left ≤ memory.right then
        if (index : Int) < memory.left ∨ (index : Int) > memory.right then none
        else memory.elements[((index : Int) - memory.left).toNat]?
      else
        if (index : Int) > memory.left ∨ (index : Int) < memory.right then none
        else memory.elements[(memory.left - (index : Int)).toNat]?
    else none

def memoryRead (world : World) (memory : MemoryDef) (index : PackedVec) : PackedVec :=
  match memoryElement memory index with
  | some net => world.nets net
  | none => .x memory.elementWidth

namespace Value

/-- A null slot reads as zero. -/
def asLogic : Value → PackedVec
  | .null => .zero 32
  | .logic value => value

def truthy : Value → Bool
  | .null => false
  | .logic value => value.isTrue

def isKnown : Value → Bool
  | .null => true
  | .logic value => value.isKnown

def evalEq : Value → Value → PackedVec
  | .logic a, .logic b => a.eqLogical b
  | .null, .null => .fromBool true
  | .logic _, .null | .null, .logic _ => .fromBool false

/-- Vectors merge; a null branch gives null. -/
def select (condition : PackedVec) : Value → Value → Value
  | .logic whenTrue, .logic whenFalse => .logic (.conditional condition whenTrue whenFalse)
  | .null, .null | .logic _, .null | .null, .logic _ => .null

def indexGet (base index : Value) : Value :=
  match base with
  | .logic value => .logic (indexLogic value index.asLogic)
  | .null => .null

end Value

/-- None where an assertion of the vector library fails. -/
def execValue : LogicInst Value → Option Value
  | .binary .eq a b => some (.logic (a.evalEq b))
  | .binary .neq a b => some (.logic (a.evalEq b).lognot)
  | .binary .logAnd a b => some (.logic (.fromBool (a.truthy && b.truthy)))
  | .binary .logOr a b => some (.logic (.fromBool (a.truthy || b.truthy)))
  | .binary .indexGet a b => some (a.indexGet b)
  | .binary op a b => (op.exec a.asLogic b.asLogic).map .logic
  | .unary op a => some (.logic (op.exec a.asLogic))
  | .select condition whenTrue whenFalse =>
    some (Value.select condition.asLogic whenTrue whenFalse)
  | .partSelect base left right =>
    some (.logic (selectLogic base.asLogic left.asLogic.toU32 right.asLogic.toU32))
  | .concat args => some (.logic (concatAll (args.map Value.asLogic)))
  | .resize src width signed => some (.logic (src.asLogic.resize width signed))

/-! ### Instructions on vectors -/

@[simp] theorem asLogic_logic (v : PackedVec) : Value.asLogic (.logic v) = v := rfl

@[simp] theorem truthy_logic (v : PackedVec) : Value.truthy (.logic v) = v.isTrue := rfl

@[simp] theorem isKnown_logic (v : PackedVec) : Value.isKnown (.logic v) = v.isKnown := rfl

theorem execValue_concat (args : List PackedVec) :
    execValue (.concat (args.map .logic)) = some (.logic (concatAll args)) := by
  show some (Value.logic (concatAll ((args.map Value.logic).map Value.asLogic))) = _
  rw [List.map_map]
  exact congrArg (fun l => some (Value.logic (concatAll l))) (List.map_id args)

end Eevee.Ir.Values
