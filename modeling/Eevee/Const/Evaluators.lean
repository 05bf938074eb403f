/- The constant evaluators of the front end and of the elaborator. -/

import Eevee.Ast.Syntax
import Eevee.Ir.Inst

set_option autoImplicit false
set_option relaxedAutoImplicit false

namespace Eevee.Const.Evaluators

open Eevee.Ast.Syntax
open Eevee.Core.Logic
open Eevee.Ir.Inst

/-- Why an evaluation yields no value: it returns `None`, or an assertion of the vector library
fails. -/
inductive Stop
  | none | panic
  deriving DecidableEq

abbrev Eval (α : Type) := Except Stop α

/-- The named constants with their values. -/
abbrev Constants := String → Option PackedVec

/-- The named constant, or `None`. -/
def Constants.get (constants : Constants) (name : String) : Eval PackedVec :=
  match constants name with
  | some value => .ok value
  | none => .error .none

/-- A missing vector is a failed assertion. -/
def asserted (value : Option PackedVec) : Eval PackedVec :=
  match value with
  | some value => .ok value
  | none => .error .panic

/-! ### Common parts -/

/-- The right operand is not asked for when the left one is unsigned. -/
def bothSigned (left right : Option Bool) : Option Bool :=
  match left with
  | none => none
  | some false => some false
  | some true => right

/-- Both evaluators have this function. -/
def constExprSignedness : Expr → Option Bool
  | .signedLiteral _ => some true
  | .literal _ | .fill _ | .concat _ | .index _ _ | .partSelect _ _ _ => some false
  | .unary op operand =>
    match op with
    | .bitNot | .neg | .plus => constExprSignedness operand
    | .logNot | .reduceAnd | .reduceOr | .reduceXor => some false
  | .binary op lhs rhs =>
    match op with
    | .add | .sub | .mul | .and | .or | .xor =>
      bothSigned (constExprSignedness lhs) (constExprSignedness rhs)
    | .shl | .shr | .sar => constExprSignedness lhs
    | .eq | .neq | .lt | .gt | .le | .ge | .logAnd | .logOr => some false
  | .conditional _ whenTrue whenFalse =>
    bothSigned (constExprSignedness whenTrue) (constExprSignedness whenFalse)
  | .ref _ => none

/-- `const_expr_signedness(e).unwrap_or(false)`. -/
def constSigned (e : Expr) : Bool := (constExprSignedness e).getD false

/-- Both evaluators apply a unary operator so. -/
def constUnary (value : PackedVec) : UnaryOp → PackedVec
  | .bitNot => value.bitnot
  | .logNot => value.lognot
  | .neg => value.neg
  | .plus => value
  | .reduceAnd => .fromBit value.reduceAnd
  | .reduceOr => .fromBit value.reduceOr
  | .reduceXor => .fromBit value.reduceXor

/-- Both evaluators apply a binary operator so; `lhsSigned` and `rhsSigned` are the signednesses of
the operands. -/
def constBinary (lhsSigned rhsSigned : Bool) (left right : PackedVec) :
    BinOp → Eval PackedVec
  | .add => .ok (left.add right)
  | .sub => .ok (left.sub right)
  | .mul => asserted (left.mul right)
  | .and => .ok (left.bitand right)
  | .or => .ok (left.bitor right)
  | .xor => .ok (left.bitxor right)
  | .eq => .ok (left.eqLogical right)
  | .neq => .ok (left.neLogical right)
  | .lt => .ok (if lhsSigned && rhsSigned then left.slt right else left.ult right)
  | .gt => .ok (if lhsSigned && rhsSigned then left.sgt right else left.ugt right)
  | .le => .ok (if lhsSigned && rhsSigned then left.sle right else left.ule right)
  | .ge => .ok (if lhsSigned && rhsSigned then left.sge right else left.uge right)
  | .shl => .ok (left.shl right.toU32)
  | .shr => .ok (left.shr right.toU32)
  | .sar => .ok (if lhsSigned then left.ashr right.toU32 else left.shr right.toU32)
  | .logAnd => .ok (.fromBool (left.isTrue && right.isTrue))
  | .logOr => .ok (.fromBool (left.isTrue || right.isTrue))

/-! ### The front end -/

namespace FrontEnd

def evalConstExpr (constants : Constants) : Expr → Eval PackedVec
  | .literal value | .signedLiteral value => .ok value
  | .fill bit => .ok (.filled bit 32)
  | .ref name => constants.get name
  | .unary op operand => do
    let value ← evalConstExpr constants operand
    return constUnary value op
  | .binary op lhs rhs => do
    let left ← evalConstExpr constants lhs
    let right ← evalConstExpr constants rhs
    constBinary (constSigned lhs) (constSigned rhs) left right op
  | .conditional condition whenTrue whenFalse => do
    let condition ← evalConstExpr constants condition
    let whenTrue ← evalConstExpr constants whenTrue
    let whenFalse ← evalConstExpr constants whenFalse
    return .conditional condition whenTrue whenFalse
  | .index _ _ | .partSelect _ _ _ | .concat _ => .error .none

def evalConstExprAtWidth (constants : Constants) : Expr → Nat → Bool → Eval PackedVec
  | .fill bit, width, _ => .ok (.filled bit width)
  | .signedLiteral value, width, _ => .ok (value.resize width true)
  | .literal value, width, _ => .ok (value.resize width false)
  | .conditional condition whenTrue whenFalse, width, signed => do
    let condition ← evalConstExpr constants condition
    let whenTrue ← evalConstExprAtWidth constants whenTrue width signed
    let whenFalse ← evalConstExprAtWidth constants whenFalse width signed
    return .conditional condition whenTrue whenFalse
  | e, width, signed => do
    let value ← evalConstExpr constants e
    return value.resize width signed

end FrontEnd

/-! ### The elaborator -/

namespace Elab

mutual

def tryConstEvalWith (consts : Constants) : Expr → Eval PackedVec
  | .literal value | .signedLiteral value => .ok value
  | .fill bit => .ok (.filled bit 1)
  | .ref name => consts.get name
  | .index _ _ => .error .none
  | .partSelect base left right => do
    let value ← tryConstEvalWith consts base
    let left ← tryConstEvalWith consts left
    let right ← tryConstEvalWith consts right
    return selectLogic value left.toU32 right.toU32
  | .concat parts => do
    let values ← tryConstEvalParts consts parts
    return concatAll values
  | .unary op operand => do
    let value ← tryConstEvalWith consts operand
    return constUnary value op
  | .binary op lhs rhs => do
    let left ← tryConstEvalWith consts lhs
    let right ← tryConstEvalWith consts rhs
    constBinary (constSigned lhs) (constSigned rhs) left right op
  | .conditional condition whenTrue whenFalse => do
    let whenTrueValue ← tryConstEvalWith consts whenTrue
    let whenFalseValue ← tryConstEvalWith consts whenFalse
    let width := max whenTrueValue.width whenFalseValue.width
    let condition ← tryConstEvalWith consts condition
    let whenTrue ← tryConstEvalAtWidth consts whenTrue width false
    let whenFalse ← tryConstEvalAtWidth consts whenFalse width false
    return .conditional condition whenTrue whenFalse
  termination_by e => (sizeOf e, 0)

/-- The parts of a concatenation in order, up to the first without a value. -/
def tryConstEvalParts (consts : Constants) : List Expr → Eval (List PackedVec)
  | [] => .ok []
  | part :: parts => do
    let value ← tryConstEvalWith consts part
    let values ← tryConstEvalParts consts parts
    return value :: values
  termination_by parts => (sizeOf parts, 0)

def tryConstEvalAtWidth (consts : Constants) : Expr → Nat → Bool → Eval PackedVec
  | .fill bit, width, _ => .ok (.filled bit width)
  | .signedLiteral value, width, _ => .ok (value.resize width true)
  | .literal value, width, _ => .ok (value.resize width false)
  | .conditional condition whenTrue whenFalse, width, signed => do
    let condition ← tryConstEvalWith consts condition
    let whenTrue ← tryConstEvalAtWidth consts whenTrue width signed
    let whenFalse ← tryConstEvalAtWidth consts whenFalse width signed
    return .conditional condition whenTrue whenFalse
  | e, width, signed => do
    let value ← tryConstEvalWith consts e
    return value.resize width ((constExprSignedness e).getD signed)
  termination_by e => (sizeOf e, 1)

end

end Elab

end Eevee.Const.Evaluators
