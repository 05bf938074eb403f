/- Modules with their nets, processes, instances and generate constructs. -/

import Eevee.Ast.Syntax
import Eevee.Elab.Targets

set_option autoImplicit false
set_option relaxedAutoImplicit false

namespace Eevee.Ast.Modules

open Eevee.Elab.Targets (Lvalue Rhs)

/-- An expression in a constant position; expressions of other kinds are no constants. -/
abbrev ConstExpr := Syntax.Expr

structure PackedRange where
  left : ConstExpr
  right : ConstExpr

inductive NetKind
  | wire | wand | wor | tri0 | tri1 | supply0 | supply1
  deriving DecidableEq

inductive PortDir
  | input | output | inout | ref
  deriving DecidableEq

/-! ### Statements -/

section

variable (E : Type)

/-- A variable of a module or a body. For a variable of a body, `collection` says that the type is
an array or the alias of one. -/
structure VarDecl where
  name : String
  width : Nat
  packedRange : Option PackedRange
  unpackedRange : Option PackedRange
  signed : Bool
  isEvent : Bool
  collection : Bool
  init : Option (Rhs E)

inductive TimingControl
  | delay (amount : ConstExpr)
  | event (signal : E)
  | wait (condition : E)

/-- The statements of processes; the expressions in them are compiled elsewhere. -/
inductive Stmt
  | block (stmts : List Stmt)
  | varDecl (v : VarDecl E)
  | timed (control : TimingControl E) (body : Stmt)
  | blocking (lhs : Lvalue E) (rhs : Rhs E)
  | nonblocking (lhs : Lvalue E) (rhs : E)
  | ifElse (cond : E) (thenBranch : Stmt) (elseBranch : Option Stmt)
  | whileLoop (cond : E) (body : Stmt)
  | doWhile (cond : E) (body : Stmt)
  | case (selector : E) (items : List (List E × Stmt)) (default : Option Stmt)
  | foreach (collection : E) (index : String) (body : Stmt)
  | sysCall (name : String) (args : List E)
  | expr (e : E)
  | trigger (event : E)
  | ret (value : Option E)
  | breakLoop
  | continueLoop
  | fork (branches : List Stmt)
  | null

end

namespace Stmt

variable {E : Type}

/-- Induction with a hypothesis for every statement of a list and for an optional branch. -/
@[induction_eliminator]
theorem induct {motive : Stmt E → Prop}
    (block : ∀ stmts, (∀ s ∈ stmts, motive s) → motive (.block stmts))
    (varDecl : ∀ v, motive (.varDecl v))
    (timed : ∀ control body, motive body → motive (.timed control body))
    (blocking : ∀ lhs rhs, motive (.blocking lhs rhs))
    (nonblocking : ∀ lhs rhs, motive (.nonblocking lhs rhs))
    (ifElse : ∀ cond thenBranch elseBranch, motive thenBranch → (∀ s ∈ elseBranch, motive s) →
      motive (.ifElse cond thenBranch elseBranch))
    (whileLoop : ∀ cond body, motive body → motive (.whileLoop cond body))
    (doWhile : ∀ cond body, motive body → motive (.doWhile cond body))
    (case : ∀ selector items default, (∀ item ∈ items, motive item.2) → (∀ s ∈ default, motive s) →
      motive (.case selector items default))
    (foreach : ∀ collection index body, motive body → motive (.foreach collection index body))
    (sysCall : ∀ name args, motive (.sysCall name args)) (expr : ∀ e, motive (.expr e))
    (trigger : ∀ event, motive (.trigger event)) (ret : ∀ value, motive (.ret value))
    (breakLoop : motive .breakLoop) (continueLoop : motive .continueLoop)
    (fork : ∀ branches, (∀ s ∈ branches, motive s) → motive (.fork branches))
    (null : motive .null) (s : Stmt E) : motive s := by
  refine @Stmt.rec E motive (fun stmts => ∀ s ∈ stmts, motive s)
    (fun branch => ∀ s ∈ branch, motive s) (fun items => ∀ item ∈ items, motive item.2)
    (fun item => motive item.2) block varDecl timed blocking nonblocking ifElse whileLoop doWhile
    case foreach sysCall expr trigger ret breakLoop continueLoop fork null ?_ ?_ ?_ ?_ ?_ ?_ ?_ s
  · intro s hs
    cases hs
  · intro head tail hhead htail s hs
    rcases List.mem_cons.mp hs with rfl | hs
    · exact hhead
    · exact htail s hs
  · intro s hs
    cases hs
  · intro branch hbranch s hs
    cases hs
    exact hbranch
  · intro item hitem
    cases hitem
  · intro head tail hhead htail item hitem
    rcases List.mem_cons.mp hitem with rfl | hitem
    · exact hhead
    · exact htail item hitem
  · intro labels body hbody
    exact hbody

end Stmt

/-! ### Modules -/

structure Port where
  name : String
  dir : PortDir
  width : Nat
  packedRange : Option PackedRange
  signed : Bool
  /-- None for a variable. -/
  netKind : Option NetKind

structure ModuleParameter where
  name : String
  width : Nat
  signed : Bool
  default : ConstExpr

structure NetDecl where
  name : String
  width : Nat
  packedRange : Option PackedRange
  signed : Bool
  kind : NetKind

/-- Overrides of parameters and connections of ports are named or positional; a port is connected to
a signal. -/
structure ModuleInstance where
  moduleName : String
  name : String
  parameters : List (Option String × ConstExpr)
  connections : List (Option String × String)

section

variable (E : Type)

mutual

inductive ModuleItem
  | var (v : VarDecl E)
  | net (n : NetDecl)
  | instance (i : ModuleInstance)
  | genvar (name : String)
  | generate (construct : GenerateConstruct)
  | continuousAssign (target : String) (rhs : E)
  | always (body : Stmt E)
  | initial (body : Stmt E)
  | func (body : Stmt E)
  /-- Classes, types and their constants. -/
  | other

inductive GenerateConstruct
  | ifElse (condition : ConstExpr) (thenBlock : GenerateBlock) (elseBlock : Option GenerateBlock)
  | case (selector : ConstExpr) (items : List (List ConstExpr × GenerateBlock))
    (default : Option GenerateBlock)
  | loop (genvar : String) (initial condition step : ConstExpr) (block : GenerateBlock)

inductive GenerateBlock
  | mk (name : String) (items : List ModuleItem)

end

structure Module where
  name : String
  parameters : List ModuleParameter
  ports : List Port
  items : List (ModuleItem E)

end

def GenerateBlock.name {E : Type} : GenerateBlock E → String
  | .mk name _ => name

def GenerateBlock.items {E : Type} : GenerateBlock E → List (ModuleItem E)
  | .mk _ items => items

end Eevee.Ast.Modules
