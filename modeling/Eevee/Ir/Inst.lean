/- The instructions of the interpreter that compute one vector from vectors. -/

import Mathlib.Data.List.Basic
import Eevee.Core.Packed

set_option autoImplicit false
set_option relaxedAutoImplicit false

namespace Eevee.Ir.Inst

open Eevee.Core.Logic

inductive UnaryInst
  | not | neg | logNot | reduceAnd | reduceOr | reduceXor
  deriving DecidableEq

inductive BinaryInst
  | add | sub | mul | and | or | xor
  | eq | neq | lt | le | gt | ge | signedLt | signedLe | signedGt | signedGe
  | shl | shr | ashr | logAnd | logOr | indexGet
  deriving DecidableEq

/-- A logic instruction over operands: registers in a program, vectors when it is executed. -/
inductive LogicInst (α : Type)
  | unary (op : UnaryInst) (a : α)
  | binary (op : BinaryInst) (a b : α)
  | select (condition whenTrue whenFalse : α)
  | partSelect (base left right : α)
  | concat (args : List α)
  | resize (src : α) (width : Nat) (signed : Bool)
  deriving DecidableEq

def UnaryInst.exec (a : PackedVec) : UnaryInst → PackedVec
  | .not => a.bitnot
  | .neg => a.neg
  | .logNot => a.lognot
  | .reduceAnd => .fromBit a.reduceAnd
  | .reduceOr => .fromBit a.reduceOr
  | .reduceXor => .fromBit a.reduceXor

/-- A bit select; an unknown or too large index reads X. -/
def indexLogic (base index : PackedVec) : PackedVec :=
  if index.isKnown ∧ index.toU64 < base.width then .fromBit (base.getBit index.toU64) else .x 1

/-- None where an assertion of the vector library fails. -/
def BinaryInst.exec (a b : PackedVec) : BinaryInst → Option PackedVec
  | .add => some (a.add b)
  | .sub => some (a.sub b)
  | .mul => a.mul b
  | .and => some (a.bitand b)
  | .or => some (a.bitor b)
  | .xor => some (a.bitxor b)
  | .eq => some (a.eqLogical b)
  | .neq => some (a.eqLogical b).lognot
  | .lt => some (a.ult b)
  | .le => some (a.ule b)
  | .gt => some (a.ugt b)
  | .ge => some (a.uge b)
  | .signedLt => some (a.slt b)
  | .signedLe => some (a.sle b)
  | .signedGt => some (a.sgt b)
  | .signedGe => some (a.sge b)
  | .shl => some (a.shl b.toU32)
  | .shr => some (a.shr b.toU32)
  | .ashr => some (a.ashr b.toU32)
  | .logAnd => some (.fromBool (a.isTrue && b.isTrue))
  | .logOr => some (.fromBool (a.isTrue || b.isTrue))
  | .indexGet => some (indexLogic a b)

/-- The bits from `left` to `right`; an ascending range reverses them. -/
def selectLogic (base : PackedVec) (left right : Nat) : PackedVec :=
  if left ≥ right then base.slice left right
  else
    let width := right - left + 1
    (PackedVec.zero width).writeBits width id fun offset => base.getBit (right - offset)

/-- The first operand takes the high bits; no operand at all gives one zero bit. -/
def concatAll : List PackedVec → PackedVec
  | [] => .zero 1
  | first :: rest => rest.foldl PackedVec.concat first

def LogicInst.exec : LogicInst PackedVec → Option PackedVec
  | .unary op a => some (op.exec a)
  | .binary op a b => op.exec a b
  | .select condition whenTrue whenFalse => some (.conditional condition whenTrue whenFalse)
  | .partSelect base left right => some (selectLogic base left.toU32 right.toU32)
  | .concat args => some (concatAll args)
  | .resize src width signed => some (src.resize width signed)

end Eevee.Ir.Inst
