/- The statements of procedural bodies without timing controls. -/

import Eevee.Ast.Syntax

set_option autoImplicit false
set_option relaxedAutoImplicit false

namespace Eevee.Ast.Stmts

open Eevee.Ast.Syntax

inductive Stmt
  | block (stmts : List Stmt)
  /-- A blocking assignment to a whole variable. -/
  | blocking (lhs : String) (rhs : Expr)
  | ifElse (cond : Expr) (thenBranch : Stmt) (elseBranch : Option Stmt)
  | whileLoop (cond : Expr) (body : Stmt)
  | doWhile (cond : Expr) (body : Stmt)
  /-- Items with their label expressions, in order. -/
  | case (selector : Expr) (items : List (List Expr × Stmt)) (default : Option Stmt)
  | ret (value : Option Expr)
  | breakLoop
  | continueLoop

namespace Stmt

/-- Induction with a hypothesis for every statement of a list and for an optional branch. -/
@[induction_eliminator]
theorem induct {motive : Stmt → Prop}
    (block : ∀ stmts, (∀ s ∈ stmts, motive s) → motive (.block stmts))
    (blocking : ∀ lhs rhs, motive (.blocking lhs rhs))
    (ifElse : ∀ cond thenBranch elseBranch, motive thenBranch → (∀ s ∈ elseBranch, motive s) →
      motive (.ifElse cond thenBranch elseBranch))
    (whileLoop : ∀ cond body, motive body → motive (.whileLoop cond body))
    (doWhile : ∀ cond body, motive body → motive (.doWhile cond body))
    (case : ∀ selector items default, (∀ item ∈ items, motive item.2) → (∀ s ∈ default, motive s) →
      motive (.case selector items default))
    (ret : ∀ value, motive (.ret value)) (breakLoop : motive .breakLoop)
    (continueLoop : motive .continueLoop) (s : Stmt) : motive s := by
  refine @Stmt.rec motive (fun stmts => ∀ s ∈ stmts, motive s)
    (fun branch => ∀ s ∈ branch, motive s)
    (fun items => ∀ item ∈ items, motive item.2) (fun item => motive item.2) block blocking ifElse
    whileLoop doWhile case ret breakLoop continueLoop ?_ ?_ ?_ ?_ ?_ ?_ ?_ s
  · intro s hs
    cases hs
  · intro head tail hhead htail s hs
    rcases List.mem_cons.mp hs with rfl | hs
    · exact hhead
    · exact htail s hs
  · intro s hs
    cases hs
  · intro branch hbranch s hs
    cases hs
    exact hbranch
  · intro item hitem
    cases hitem
  · intro head tail hhead htail item hitem
    rcases List.mem_cons.mp hitem with rfl | hitem
    · exact hhead
    · exact htail item hitem
  · intro labels body hbody
    exact hbody

end Stmt

/-- A function or task; a parameter has a name, a width and a signedness. -/
structure FuncDecl where
  name : String
  params : List (String × Nat × Bool)
  isVoid : Bool
  retWidth : Nat
  retSigned : Bool
  body : Stmt

end Eevee.Ast.Stmts
