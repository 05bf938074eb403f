/- What expressions and statements mean: the value and the effect of the code that is generated for
them. -/

import Mathlib.Data.List.Basic
import Mathlib.Tactic.Common
import Eevee.Elab.Generator

set_option autoImplicit false
set_option relaxedAutoImplicit false

namespace Eevee.Elab.Evaluation

open Eevee.Ast.Syntax
open Eevee.Ast.Stmts
open Eevee.Core.Logic
open Eevee.Ir.Inst
open Eevee.Ir.Values
open Eevee.Elab.Generator

/-- The values of the local variables. -/
abbrev Store := String → Value

section Expressions

variable (cg : CodeGen) (W : World) (σ : Store)

/-- The value that a name refers to. -/
def evalRef (name : String) : Option Value :=
  match cg.locals name with
  | some _ => some (σ name)
  | none =>
    match cg.vars name with
    | some id => some (W.statics id)
    | none =>
      match cg.consts name with
      | some value => some (.logic value)
      | none =>
        match cg.memories name, cg.nets name with
        | none, some (net, _) => some (.logic (W.nets net))
        | some _, _ | _, none => none

def evalUnary (a : Value) : UnaryOp → Option Value
  | .bitNot => execValue (.unary .not a)
  | .logNot => execValue (.unary .logNot a)
  | .neg => execValue (.unary .neg a)
  | .plus => some a
  | .reduceAnd => execValue (.unary .reduceAnd a)
  | .reduceOr => execValue (.unary .reduceOr a)
  | .reduceXor => execValue (.unary .reduceXor a)

def evalBinary (signed : Bool) (op : BinOp) (a b : Value) : Option Value :=
  execValue (.binary (CodeGen.binaryInst signed op) a b)

/-- An unknown condition merges the branches. -/
def evalConditional (condition whenTrue whenFalse : Option Value) : Option Value := do
  let condition ← condition
  if condition.truthy then whenTrue
  else if condition.isKnown then whenFalse
  else
    let whenTrue ← whenTrue
    let whenFalse ← whenFalse
    return Value.select condition.asLogic whenTrue whenFalse

mutual

/-- The value of an expression at its own width; none where an assertion fails. -/
def evalExpr : Expr → Option Value
  | .literal value | .signedLiteral value => some (.logic value)
  | .fill bit => some (.logic (.filled bit 1))
  | .ref name => evalRef cg W σ name
  | .unary op operand => do
    let a ← evalExpr operand
    evalUnary a op
  | .binary op lhs rhs => do
    let a ← evalExpr lhs
    let b ← evalExpr rhs
    evalBinary (cg.integralExprSigned lhs && cg.integralExprSigned rhs) op a b
  | .conditional condition whenTrue whenFalse =>
    evalConditional (evalExpr condition) (evalExpr whenTrue) (evalExpr whenFalse)
  | .index base index =>
    match cg.memoryOf base with
    | some memory => do
      let index ← evalExpr index
      return .logic (memoryRead W memory index.asLogic)
    | none => do
      let base ← evalExpr base
      let index ← evalExpr index
      return base.indexGet index
  | .partSelect base left right => do
    let base ← evalExpr base
    let left ← evalExpr left
    let right ← evalExpr right
    execValue (.partSelect base left right)
  | .concat parts => do
    let values ← evalExprs parts
    execValue (.concat values)

def evalExprs : List Expr → Option (List Value)
  | [] => some []
  | e :: es => do
    let value ← evalExpr e
    let values ← evalExprs es
    return value :: values

end

def resizedTo (width : Nat) (signed : Bool) (value : Value) : Option Value :=
  execValue (.resize value width signed)

def evalResized (e : Expr) (width : Nat) (signed : Bool) : Option Value := do
  let value ← evalExpr cg W σ e
  if cg.integralExprWidth e = some width then return value
  else resizedTo width signed value

/-- The value of an expression in a context of the given width and signedness. -/
def evalAtWidthWithSign : Expr → Nat → Bool → Option Value
  | .fill bit, width, _ => some (.logic (.filled bit width))
  | .conditional condition whenTrue whenFalse, width, signed =>
    evalConditional (evalExpr cg W σ condition) (evalAtWidthWithSign whenTrue width signed)
      (evalAtWidthWithSign whenFalse width signed)
  | .unary op operand, width, signed =>
    match op with
    | .bitNot | .neg | .plus => do
      let a ← evalAtWidthWithSign operand width signed
      evalUnary a op
    | .logNot | .reduceAnd | .reduceOr | .reduceXor =>
      evalResized cg W σ (.unary op operand) width signed
  | .binary op lhs rhs, width, signed =>
    match op with
    | .add | .sub | .mul | .and | .or | .xor => do
      let a ← evalAtWidthWithSign lhs width signed
      let b ← evalAtWidthWithSign rhs width signed
      evalBinary signed op a b
    | .shl | .shr | .sar => do
      let a ← evalAtWidthWithSign lhs width signed
      let b ← evalExpr cg W σ rhs
      evalBinary signed op a b
    | .eq | .neq | .lt | .gt | .le | .ge => do
      let comparisonSigned := cg.integralExprSigned lhs && cg.integralExprSigned rhs
      let a ← evalAtWidthWithSign lhs (cg.operandWidth lhs rhs) comparisonSigned
      let b ← evalAtWidthWithSign rhs (cg.operandWidth lhs rhs) comparisonSigned
      let result ← evalBinary comparisonSigned op a b
      if width = 1 then return result
      else resizedTo width false result
    | .logAnd | .logOr => evalResized cg W σ (.binary op lhs rhs) width signed
  | .literal value, width, signed => evalResized cg W σ (.literal value) width signed
  | .signedLiteral value, width, signed => evalResized cg W σ (.signedLiteral value) width signed
  | .ref name, width, signed => evalResized cg W σ (.ref name) width signed
  | .index base index, width, signed => evalResized cg W σ (.index base index) width signed
  | .partSelect base left right, width, signed =>
    evalResized cg W σ (.partSelect base left right) width signed
  | .concat parts, width, signed => evalResized cg W σ (.concat parts) width signed

def evalAtWidth (e : Expr) (width : Nat) : Option Value :=
  evalAtWidthWithSign cg W σ e width (cg.integralExprSigned e)

/-- The value that is stored in a variable. -/
def evalAssignmentRhs (lhs : String) (rhs : Expr) : Option Value :=
  match cg.lvalueWidth lhs with
  | some width => evalAtWidth cg W σ rhs width
  | none => evalExpr cg W σ rhs

def evalReturnValue (e : Expr) : Option Value :=
  match cg.returnType with
  | some (width, _) => evalAtWidth cg W σ e width
  | none => evalExpr cg W σ e

end Expressions

/-! ### Statements -/

/-- How the evaluation of a statement ends. -/
inductive Completion
  | normal (σ : Store)
  | breakLoop (σ : Store)
  | continueLoop (σ : Store)
  | returned (value : Option Value) (σ : Store)
  | panic

section Statements

variable (cg : CodeGen) (W : World)

/-- The labels are compared in order; true at the first that is equal to the selector. -/
def matchesLabel (σ : Store) (selector : Value) : List Expr → Option Bool
  | [] => some false
  | value :: values => do
    let candidate ← evalExpr cg W σ value
    if (selector.evalEq candidate).isTrue then return true
    else matchesLabel σ selector values

/-- The body of the first item with a matching label, else the default. -/
def selectItem (σ : Store) (selector : Value) (default : Option Stmt) :
    List (List Expr × Stmt) → Option (Option Stmt)
  | [] => some default
  | (values, body) :: items => do
    if ← matchesLabel cg W σ selector values then return some body
    else selectItem σ selector default items

/-- The rest follows after a normal completion only. -/
def Completion.andThen (c : Option Completion) (rest : Store → Option Completion) :
    Option Completion :=
  match c with
  | some (.normal σ) => rest σ
  | c => c

/-- What follows the body of a loop: the given continuation, or the end of the loop. -/
def Completion.loop (c : Option Completion) (next : Store → Option Completion) :
    Option Completion :=
  match c with
  | some (.normal σ) | some (.continueLoop σ) => next σ
  | some (.breakLoop σ) => some (.normal σ)
  | c => c

def execStmts (run : Stmt → Store → Option Completion) : List Stmt → Store → Option Completion
  | [], σ => some (.normal σ)
  | s :: stmts, σ => Completion.andThen (run s σ) (execStmts run stmts)

/-- The branch on a condition that may fail to have a value. -/
def onCondition (value : Option Value) (onTrue onFalse : Option Completion) : Option Completion :=
  match value with
  | some value => if value.truthy then onTrue else onFalse
  | none => some .panic

/-- The chosen body of a case statement; without one it ends. -/
def onItem (chosen : Option (Option Stmt)) (run : Stmt → Option Completion) (σ : Store) :
    Option Completion :=
  match chosen with
  | some (some body) => run body
  | some none => some (.normal σ)
  | none => some .panic

/-- Big-step evaluation with a bound on its depth; none when the bound is too small. -/
def exec : Nat → Stmt → Store → Option Completion
  | 0, _, _ => none
  | fuel + 1, s, σ =>
    match s with
    | .block stmts => execStmts (exec fuel) stmts σ
    | .blocking lhs rhs =>
      match evalAssignmentRhs cg W σ lhs rhs with
      | some value => some (.normal (Function.update σ lhs value))
      | none => some .panic
    | .ifElse cond thenBranch elseBranch =>
      onCondition (evalExpr cg W σ cond) (exec fuel thenBranch σ)
        (match elseBranch with
          | some elseBranch => exec fuel elseBranch σ
          | none => some (.normal σ))
    | .whileLoop cond body =>
      onCondition (evalExpr cg W σ cond)
        (Completion.loop (exec fuel body σ) (exec fuel (.whileLoop cond body)))
        (some (.normal σ))
    | .doWhile cond body =>
      Completion.loop (exec fuel body σ) fun σ =>
        onCondition (evalExpr cg W σ cond) (exec fuel (.doWhile cond body) σ) (some (.normal σ))
    | .case selector items default =>
      onItem ((evalExpr cg W σ selector).bind (selectItem cg W σ · default items))
        (exec fuel · σ) σ
    | .ret value =>
      match value with
      | some e =>
        match evalReturnValue cg W σ e with
        | some value => some (.returned (some value) σ)
        | none => some .panic
      | none => some (.returned none σ)
    | .breakLoop => some (.breakLoop σ)
    | .continueLoop => some (.continueLoop σ)

end Statements

end Eevee.Elab.Evaluation
