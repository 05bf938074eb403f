/- The integral expressions of the syntax tree. -/

import Mathlib.Tactic.Common
import Eevee.Core.Packed

set_option autoImplicit false
set_option relaxedAutoImplicit false

namespace Eevee.Ast.Syntax

open Eevee.Core.Logic

inductive UnaryOp
  | bitNot | logNot | neg | plus | reduceAnd | reduceOr | reduceXor
  deriving DecidableEq

inductive BinOp
  | add | sub | mul | and | or | xor | eq | neq | lt | gt | le | ge | shl | shr | sar
  | logAnd | logOr
  deriving DecidableEq

/-- An expression without calls, class members and strings. -/
inductive Expr
  /-- A literal, already parsed to a four-state vector. -/
  | literal (value : PackedVec)
  /-- A signed literal or an unsized decimal integer. -/
  | signedLiteral (value : PackedVec)
  /-- An unbased unsized literal that fills the width of its context. -/
  | fill (bit : Bit)
  /-- A reference to a variable, a net or a constant by name. -/
  | ref (name : String)
  | unary (op : UnaryOp) (operand : Expr)
  | binary (op : BinOp) (lhs rhs : Expr)
  | conditional (condition whenTrue whenFalse : Expr)
  | index (base index : Expr)
  | partSelect (base left right : Expr)
  | concat (parts : List Expr)

namespace Expr

/-- Induction with a hypothesis for every part of a concatenation. -/
@[induction_eliminator]
theorem induct {motive : Expr → Prop} (literal : ∀ value, motive (.literal value))
    (signedLiteral : ∀ value, motive (.signedLiteral value)) (fill : ∀ bit, motive (.fill bit))
    (ref : ∀ name, motive (.ref name))
    (unary : ∀ op operand, motive operand → motive (.unary op operand))
    (binary : ∀ op lhs rhs, motive lhs → motive rhs → motive (.binary op lhs rhs))
    (conditional : ∀ condition whenTrue whenFalse, motive condition → motive whenTrue →
      motive whenFalse → motive (.conditional condition whenTrue whenFalse))
    (index : ∀ base index, motive base → motive index → motive (.index base index))
    (partSelect : ∀ base left right, motive base → motive left → motive right →
      motive (.partSelect base left right))
    (concat : ∀ parts, (∀ e ∈ parts, motive e) → motive (.concat parts)) (e : Expr) :
    motive e := by
  refine @Expr.rec motive (fun parts => ∀ e ∈ parts, motive e) literal signedLiteral fill ref
    unary binary conditional index partSelect concat (by simp) ?_ e
  intro head tail hhead htail e he
  rcases List.mem_cons.mp he with rfl | he
  · exact hhead
  · exact htail e he

end Expr

end Eevee.Ast.Syntax
