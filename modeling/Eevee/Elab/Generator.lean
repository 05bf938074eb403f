/- The code generator for expressions and statements outside classes. -/

import Mathlib.Data.List.Basic
import Eevee.Ast.Stmts
import Eevee.Ir.Emission

set_option autoImplicit false
set_option relaxedAutoImplicit false

namespace Eevee.Elab.Generator

open Eevee.Ast.Syntax
open Eevee.Ast.Stmts
open Eevee.Core.Logic
open Eevee.Ir.Inst
open Eevee.Ir.Values
open Eevee.Ir.Builder
open Eevee.Ir.Emission

/-- The names in scope: local variables with their registers and widths, package variables, named
constants, memories and nets. -/
structure CodeGen where
  locals : String → Option (Reg × Nat)
  localSigned : String → Option Bool
  vars : String → Option Nat
  varWidths : String → Option Nat
  varSigned : String → Option Bool
  consts : String → Option PackedVec
  memories : String → Option MemoryDef
  nets : String → Option (Nat × Nat)
  netSigned : String → Option Bool
  /-- The width and the signedness of the result of an integral function. -/
  returnType : Option (Nat × Bool)

/-- The break target and the continue target of every enclosing loop, innermost first. -/
abbrev LoopTargets := List (Label × Label)

namespace CodeGen

variable (cg : CodeGen)

/-- The fixed memory that an indexed expression names. -/
def memoryOf : Expr → Option MemoryDef
  | .ref name => cg.memories name
  | _ => none

/-! ### Widths and signedness -/

def refWidth (name : String) : Option Nat :=
  ((cg.locals name).map Prod.snd).or <| ((cg.nets name).map Prod.snd).or <|
    ((cg.consts name).map PackedVec.width).or (cg.varWidths name)

/-- The value of a literal. -/
def literalValue : Expr → Option PackedVec
  | .literal value | .signedLiteral value => some value
  | _ => none

/-- The distance of the bounds and one more than it are numbers of 32 bits, which wrap. -/
def partSelectWidth (left right : Expr) : Option Nat := do
  let left ← literalValue left
  let right ← literalValue right
  return (max left.toU64 right.toU64 - min left.toU64 right.toU64 + 1) % 0x100000000

/-- The width of an operation on operands of these widths. -/
def binaryWidth (left right : Nat) : BinOp → Nat
  | .eq | .neq | .lt | .gt | .le | .ge | .logAnd | .logOr => 1
  | .shl | .shr | .sar => left
  | .add | .sub | .mul | .and | .or | .xor => max left right

/-- The larger of the widths that are known. -/
def widerOf : Option Nat → Option Nat → Option Nat
  | some left, some right => some (max left right)
  | some width, none | none, some width => some width
  | none, none => none

mutual

def integralExprWidth : Expr → Option Nat
  | .literal value | .signedLiteral value => some value.width
  | .fill _ => none
  | .ref name => cg.refWidth name
  | .unary op operand =>
    match op with
    | .logNot | .reduceAnd | .reduceOr | .reduceXor => some 1
    | .bitNot | .neg | .plus => integralExprWidth operand
  | .binary op lhs rhs => do
    let left ← integralExprWidth lhs
    let right ← integralExprWidth rhs
    return binaryWidth left right op
  | .conditional _ whenTrue whenFalse =>
    widerOf (integralExprWidth whenTrue) (integralExprWidth whenFalse)
  | .index base _ => some (((cg.memoryOf base).map MemoryDef.elementWidth).getD 1)
  | .partSelect _ left right => partSelectWidth left right
  | .concat parts => concatWidth 0 parts

/-- The sum of the widths, none when one is unknown or the sum does not fit in 32 bits. -/
def concatWidth (width : Nat) : List Expr → Option Nat
  | [] => some width
  | part :: parts => do
    let partWidth ← integralExprWidth part
    if width + partWidth < 0x100000000 then concatWidth (width + partWidth) parts else none

end

def integralExprSigned : Expr → Bool
  | .signedLiteral _ => true
  | .literal _ | .fill _ | .index _ _ | .partSelect _ _ _ | .concat _ => false
  | .ref name =>
    ((cg.localSigned name).or <| (cg.netSigned name).or (cg.varSigned name)).getD false
  | .unary op operand =>
    match op with
    | .bitNot | .neg | .plus => integralExprSigned operand
    | .logNot | .reduceAnd | .reduceOr | .reduceXor => false
  | .binary op lhs rhs =>
    match op with
    | .add | .sub | .mul | .and | .or | .xor => integralExprSigned lhs && integralExprSigned rhs
    | .shl | .shr | .sar => integralExprSigned lhs
    | .eq | .neq | .lt | .gt | .le | .ge | .logAnd | .logOr => false
  | .conditional _ whenTrue whenFalse =>
    integralExprSigned whenTrue && integralExprSigned whenFalse

/-! ### Expressions -/

/-- Load a constant into a new register. -/
def genConst (value : PackedVec) : Emit Reg := do
  let dst ← newReg
  let k ← konstLogic value
  emit (.loadConst dst k)
  return dst

/-- A local is read in place. -/
def genRef (name : String) : Emit Reg :=
  match cg.locals name with
  | some (reg, _) => return reg
  | none =>
    match cg.vars name with
    | some id => emitNew (.staticGet · id)
    | none =>
      match cg.consts name with
      | some value => genConst value
      | none =>
        match cg.memories name, cg.nets name with
        | none, some (net, _) => emitNew (.netRead · net)
        | some _, _ | _, none => failure

def unaryInst (dst a : Reg) : UnaryOp → Inst
  | .bitNot => .logic dst (.unary .not a)
  | .logNot => .logic dst (.unary .logNot a)
  | .neg => .logic dst (.unary .neg a)
  | .plus => .mov dst a
  | .reduceAnd => .logic dst (.unary .reduceAnd a)
  | .reduceOr => .logic dst (.unary .reduceOr a)
  | .reduceXor => .logic dst (.unary .reduceXor a)

def binaryInst (signed : Bool) : BinOp → BinaryInst
  | .add => .add
  | .sub => .sub
  | .mul => .mul
  | .and => .and
  | .or => .or
  | .xor => .xor
  | .eq => .eq
  | .neq => .neq
  | .lt => if signed then .signedLt else .lt
  | .gt => if signed then .signedGt else .gt
  | .le => if signed then .signedLe else .le
  | .ge => if signed then .signedGe else .ge
  | .shl => .shl
  | .shr => .shr
  | .sar => if signed then .ashr else .shr
  | .logAnd => .logAnd
  | .logOr => .logOr

/-- Both conditionals: a condition without a known one that has an unknown bit runs both branches
and merges them. -/
def genConditionalOf (condition whenTrue whenFalse : Emit Reg) : Emit Reg := do
  let condition ← condition
  let whenTrueLabel ← newLabel
  let whenFalseLabel ← newLabel
  let done ← newLabel
  let dst ← newReg
  branchTrue condition whenTrueLabel
  let known ← emitNew (.isKnown · condition)
  branchTrue known whenFalseLabel
  let trueValue ← whenTrue
  let falseValue ← whenFalse
  emit (.logic dst (.select condition trueValue falseValue))
  jump done
  bindLabel whenTrueLabel
  let value ← whenTrue
  emit (.mov dst value)
  jump done
  bindLabel whenFalseLabel
  let value ← whenFalse
  emit (.mov dst value)
  bindLabel done
  return dst

mutual

def genExpr : Expr → Emit Reg
  | .literal value | .signedLiteral value => genConst value
  | .fill bit => genConst (.filled bit 1)
  | .ref name => cg.genRef name
  | .unary op operand => do
    let a ← genExpr operand
    emitNew (unaryInst · a op)
  | .binary op lhs rhs => do
    let signed := cg.integralExprSigned lhs && cg.integralExprSigned rhs
    let a ← genExpr lhs
    let b ← genExpr rhs
    emitNew (.logic · (.binary (binaryInst signed op) a b))
  | .conditional condition whenTrue whenFalse =>
    genConditionalOf (genExpr condition) (genExpr whenTrue) (genExpr whenFalse)
  | .index base index =>
    match cg.memoryOf base with
    | some def_ => do
      let memory ← memory def_
      let index ← genExpr index
      emitNew (.memoryRead · memory index)
    | none => do
      let base ← genExpr base
      let index ← genExpr index
      emitNew (.logic · (.binary .indexGet base index))
  | .partSelect base left right => do
    let base ← genExpr base
    let left ← genExpr left
    let right ← genExpr right
    emitNew (.logic · (.partSelect base left right))
  | .concat parts => do
    let regs ← genExprs parts
    let args ← arglist regs
    emitNew (.concat · args)

def genExprs : List Expr → Emit (List Reg)
  | [] => return []
  | e :: es => do
    let reg ← genExpr e
    let regs ← genExprs es
    return reg :: regs

end

/-- The value at its own width, then resized unless the widths agree. -/
def genResized (e : Expr) (width : Nat) (signed : Bool) : Emit Reg := do
  let src ← cg.genExpr e
  if cg.integralExprWidth e = some width then return src
  else emitNew (.logic · (.resize src width signed))

/-- The width at which the operands of a comparison are taken. -/
def operandWidth (lhs rhs : Expr) : Nat :=
  (widerOf (cg.integralExprWidth lhs) (cg.integralExprWidth rhs)).getD 1

def genExprAtWidthWithSign : Expr → Nat → Bool → Emit Reg
  | .fill bit, width, _ => genConst (.filled bit width)
  | .conditional condition whenTrue whenFalse, width, signed =>
    genConditionalOf (cg.genExpr condition) (genExprAtWidthWithSign whenTrue width signed)
      (genExprAtWidthWithSign whenFalse width signed)
  | .unary op operand, width, signed =>
    match op with
    | .bitNot | .neg | .plus => do
      let a ← genExprAtWidthWithSign operand width signed
      emitNew (unaryInst · a op)
    | .logNot | .reduceAnd | .reduceOr | .reduceXor =>
      cg.genResized (.unary op operand) width signed
  | .binary op lhs rhs, width, signed =>
    match op with
    | .add | .sub | .mul | .and | .or | .xor => do
      let a ← genExprAtWidthWithSign lhs width signed
      let b ← genExprAtWidthWithSign rhs width signed
      emitNew (.logic · (.binary (binaryInst signed op) a b))
    | .shl | .shr | .sar => do
      let a ← genExprAtWidthWithSign lhs width signed
      let b ← cg.genExpr rhs
      emitNew (.logic · (.binary (binaryInst signed op) a b))
    | .eq | .neq | .lt | .gt | .le | .ge => do
      let comparisonSigned := cg.integralExprSigned lhs && cg.integralExprSigned rhs
      let a ← genExprAtWidthWithSign lhs (cg.operandWidth lhs rhs) comparisonSigned
      let b ← genExprAtWidthWithSign rhs (cg.operandWidth lhs rhs) comparisonSigned
      let result ← emitNew (.logic · (.binary (binaryInst comparisonSigned op) a b))
      if width = 1 then return result
      else emitNew (.logic · (.resize result width false))
    | .logAnd | .logOr => cg.genResized (.binary op lhs rhs) width signed
  | .literal value, width, signed => cg.genResized (.literal value) width signed
  | .signedLiteral value, width, signed => cg.genResized (.signedLiteral value) width signed
  | .ref name, width, signed => cg.genResized (.ref name) width signed
  | .index base index, width, signed => cg.genResized (.index base index) width signed
  | .partSelect base left right, width, signed =>
    cg.genResized (.partSelect base left right) width signed
  | .concat parts, width, signed => cg.genResized (.concat parts) width signed

def genExprAtWidth (e : Expr) (width : Nat) : Emit Reg :=
  cg.genExprAtWidthWithSign e width (cg.integralExprSigned e)

/-! ### Statements -/

/-- The declared width of an assigned variable. -/
def lvalueWidth (name : String) : Option Nat :=
  ((cg.locals name).map Prod.snd).or <| (cg.varWidths name).or ((cg.nets name).map Prod.snd)

def genAssignmentRhs (lhs : String) (rhs : Expr) : Emit Reg :=
  match cg.lvalueWidth lhs with
  | some width => cg.genExprAtWidth rhs width
  | none => cg.genExpr rhs

/-- A move to a local variable. -/
def genAssign (name : String) (src : Reg) : Emit Unit :=
  match cg.locals name with
  | some (reg, _) => emit (.assign reg src)
  | none => failure

def genReturnValue (e : Expr) : Emit Reg :=
  match cg.returnType with
  | some (width, _) => cg.genExprAtWidth e width
  | none => cg.genExpr e

def newLabels : Nat → Emit (List Label)
  | 0 => return []
  | n + 1 => do
    let label ← newLabel
    let labels ← newLabels n
    return label :: labels

/-- The tests of the labels of one case item. -/
def genCaseValues (selector : Reg) (label : Label) : List Expr → Emit Unit
  | [] => return ()
  | value :: values => do
    let candidate ← cg.genExpr value
    let equal ← emitNew (.logic · (.binary .eq selector candidate))
    branchTrue equal label
    genCaseValues selector label values

def genCaseTests (selector : Reg) : List (List Expr × Stmt) → List Label → Emit Unit
  | (values, _) :: items, label :: labels => do
    cg.genCaseValues selector label values
    genCaseTests selector items labels
  | _, _ => return ()

mutual

def genStmt : Stmt → LoopTargets → Emit LoopTargets
  | .block stmts, loops => genStmts stmts loops
  | .blocking lhs rhs, loops => do
    let src ← cg.genAssignmentRhs lhs rhs
    cg.genAssign lhs src
    return loops
  | .ifElse cond thenBranch elseBranch, loops => do
    let c ← cg.genExpr cond
    let elseLabel ← newLabel
    branchFalse c elseLabel
    let loops ← genStmt thenBranch loops
    match elseBranch with
    | some elseBranch => do
      let endLabel ← newLabel
      jump endLabel
      bindLabel elseLabel
      let loops ← genStmt elseBranch loops
      bindLabel endLabel
      return loops
    | none => do
      bindLabel elseLabel
      return loops
  | .whileLoop cond body, loops => do
    let top ← newLabel
    let done ← newLabel
    bindLabel top
    let value ← cg.genExpr cond
    branchFalse value done
    let loops ← genStmt body ((done, top) :: loops)
    jump top
    bindLabel done
    return loops.tail
  | .doWhile cond body, loops => do
    let top ← newLabel
    let check ← newLabel
    let done ← newLabel
    bindLabel top
    let loops ← genStmt body ((done, check) :: loops)
    bindLabel check
    let value ← cg.genExpr cond
    branchTrue value top
    bindLabel done
    return loops.tail
  | .case selector items default, loops => do
    let selector ← cg.genExpr selector
    let done ← newLabel
    let labels ← newLabels items.length
    match default with
    | some body => do
      let defaultLabel ← newLabel
      cg.genCaseTests selector items labels
      jump defaultLabel
      let loops ← genCaseBodies items labels done loops
      bindLabel defaultLabel
      let loops ← genStmt body loops
      bindLabel done
      return loops
    | none => do
      cg.genCaseTests selector items labels
      jump done
      let loops ← genCaseBodies items labels done loops
      bindLabel done
      return loops
  | .ret value, loops =>
    match value with
    | some e => do
      let r ← cg.genReturnValue e
      emit (.ret r)
      return loops
    | none => do
      emit .returnVoid
      return loops
  | .breakLoop, loops =>
    match loops with
    | (target, _) :: _ => do
      jump target
      return loops
    | [] => failure
  | .continueLoop, loops =>
    match loops with
    | (_, target) :: _ => do
      jump target
      return loops
    | [] => failure

def genStmts : List Stmt → LoopTargets → Emit LoopTargets
  | [], loops => return loops
  | s :: stmts, loops => do
    let loops ← genStmt s loops
    genStmts stmts loops

def genCaseBodies : List (List Expr × Stmt) → List Label → Label → LoopTargets → Emit LoopTargets
  | (_, body) :: items, label :: labels, done, loops => do
    bindLabel label
    let loops ← genStmt body loops
    jump done
    genCaseBodies items labels done loops
  | _, _, _, loops => return loops

end

/-! ### Functions -/

/-- The registers of the parameters, in order. -/
def genParams (cg : CodeGen) : List (String × Nat × Bool) → Emit CodeGen
  | [] => return cg
  | (name, width, signed) :: params => do
    let reg ← newReg
    genParams { cg with
      locals := Function.update cg.locals name (some (reg, width))
      localSigned := Function.update cg.localSigned name (some signed) } params

/-- The code of a function: the variable with its name starts at zero and is the implicit result. -/
def genFunction (f : FuncDecl) : Emit CodeGen := do
  let returnType := if f.isVoid then none else some (max f.retWidth 1, f.retSigned)
  let cg ← genParams { cg with
    locals := fun _ => none, localSigned := fun _ => none, returnType := returnType } f.params
  let retReg ← newReg
  let cg := { cg with
    locals := Function.update cg.locals f.name (some (retReg, max f.retWidth 1))
    localSigned := Function.update cg.localSigned f.name (some f.retSigned) }
  let k ← konstLogic (.zero (max f.retWidth 1))
  emit (.loadConst retReg k)
  let _ ← cg.genStmt f.body []
  emit (if f.isVoid then .returnVoid else .ret retReg)
  return cg

def genCallable (f : FuncDecl) : Option Program := do
  let (_, pb) ← cg.genFunction f .new
  pb.build

end CodeGen

end Eevee.Elab.Generator
