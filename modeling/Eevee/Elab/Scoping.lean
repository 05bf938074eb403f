/- Bodies whose names are in scope compile. -/

import Mathlib.Data.List.Basic
import Mathlib.Tactic.Common
import Eevee.Elab.Generator

set_option autoImplicit false
set_option relaxedAutoImplicit false

namespace Eevee.Elab.Scoping

open Eevee.Ast.Syntax
open Eevee.Ast.Stmts
open Eevee.Ir.Values
open Eevee.Ir.Builder
open Eevee.Ir.Emission
open Eevee.Elab.Generator

/-- The name refers to a value: a local, a package variable, a constant, or a net that is no
memory. -/
def Named (cg : CodeGen) (name : String) : Prop :=
  (cg.locals name).isSome ∨ (cg.vars name).isSome ∨ (cg.consts name).isSome ∨
    cg.memories name = none ∧ (cg.nets name).isSome

/-- Every name of the expression is in scope. -/
inductive Resolves (cg : CodeGen) : Expr → Prop
  | literal (value : Core.Logic.PackedVec) : Resolves cg (.literal value)
  | signedLiteral (value : Core.Logic.PackedVec) : Resolves cg (.signedLiteral value)
  | fill (bit : Core.Logic.Bit) : Resolves cg (.fill bit)
  | ref {name : String} (h : Named cg name) : Resolves cg (.ref name)
  | unary (op : UnaryOp) {operand : Expr} (h : Resolves cg operand) :
    Resolves cg (.unary op operand)
  | binary (op : BinOp) {lhs rhs : Expr} (hl : Resolves cg lhs) (hr : Resolves cg rhs) :
    Resolves cg (.binary op lhs rhs)
  | conditional {condition whenTrue whenFalse : Expr} (hc : Resolves cg condition)
    (ht : Resolves cg whenTrue) (hf : Resolves cg whenFalse) :
    Resolves cg (.conditional condition whenTrue whenFalse)
  | memory {base index : Expr} (h : (cg.memoryOf base).isSome) (hi : Resolves cg index) :
    Resolves cg (.index base index)
  | index {base index : Expr} (hb : Resolves cg base) (hi : Resolves cg index) :
    Resolves cg (.index base index)
  | partSelect {base left right : Expr} (hb : Resolves cg base) (hl : Resolves cg left)
    (hr : Resolves cg right) : Resolves cg (.partSelect base left right)
  | concat {parts : List Expr} (h : ∀ e ∈ parts, Resolves cg e) : Resolves cg (.concat parts)

/-- Every name of the statement is in scope, assignments are to locals, and a break or a continue
is inside a loop. -/
inductive Scoped (cg : CodeGen) : Bool → Stmt → Prop
  | block {inLoop : Bool} {stmts : List Stmt} (h : ∀ s ∈ stmts, Scoped cg inLoop s) :
    Scoped cg inLoop (.block stmts)
  | blocking (inLoop : Bool) {lhs : String} {rhs : Expr} (hl : (cg.locals lhs).isSome)
    (hr : Resolves cg rhs) : Scoped cg inLoop (.blocking lhs rhs)
  | ifElse {inLoop : Bool} {cond : Expr} {thenBranch : Stmt} {elseBranch : Option Stmt}
    (hc : Resolves cg cond) (ht : Scoped cg inLoop thenBranch)
    (he : ∀ s ∈ elseBranch, Scoped cg inLoop s) :
    Scoped cg inLoop (.ifElse cond thenBranch elseBranch)
  | whileLoop (inLoop : Bool) {cond : Expr} {body : Stmt} (hc : Resolves cg cond)
    (hb : Scoped cg true body) : Scoped cg inLoop (.whileLoop cond body)
  | doWhile (inLoop : Bool) {cond : Expr} {body : Stmt} (hc : Resolves cg cond)
    (hb : Scoped cg true body) : Scoped cg inLoop (.doWhile cond body)
  | case {inLoop : Bool} {selector : Expr} {items : List (List Expr × Stmt)}
    {default : Option Stmt} (hs : Resolves cg selector)
    (hl : ∀ item ∈ items, ∀ e ∈ item.1, Resolves cg e)
    (hi : ∀ item ∈ items, Scoped cg inLoop item.2) (hd : ∀ s ∈ default, Scoped cg inLoop s) :
    Scoped cg inLoop (.case selector items default)
  | ret (inLoop : Bool) {value : Option Expr} (h : ∀ e ∈ value, Resolves cg e) :
    Scoped cg inLoop (.ret value)
  | breakLoop : Scoped cg true .breakLoop
  | continueLoop : Scoped cg true .continueLoop

section Expressions

variable {cg : CodeGen}

theorem gives_const (v : Core.Logic.PackedVec) : Gives (CodeGen.genConst v) fun _ => True :=
  .bind .newReg fun _ _ => .bind (.konstLogic v) fun _ _ => .bind (.emit _) fun _ _ => .pure trivial

theorem gives_ref {name : String} (h : Named cg name) : Gives (cg.genRef name) fun _ => True := by
  unfold CodeGen.genRef
  rcases hl : cg.locals name with _ | ⟨reg, width⟩
  · rcases hv : cg.vars name with _ | id
    · rcases hc : cg.consts name with _ | value
      · obtain ⟨hm, hn⟩ : cg.memories name = none ∧ (cg.nets name).isSome := by
          simpa [Named, hl, hv, hc] using h
        obtain ⟨net, hnet⟩ := Option.isSome_iff_exists.mp hn
        rw [hm, hnet]
        exact .emitNew _
      · exact gives_const value
    · exact .emitNew _
  · exact .pure trivial

theorem gives_conditionalOf {c t f : Emit Reg} (hc : Gives c fun _ => True)
    (ht : Gives t fun _ => True) (hf : Gives f fun _ => True) :
    Gives (CodeGen.genConditionalOf c t f) fun _ => True := by
  refine hc.bind fun _ _ => .bind .newLabel fun _ _ => .bind .newLabel fun _ _ =>
    .bind .newLabel fun _ _ => .bind .newReg fun _ _ => .bind (.branchTrue _ _) fun _ _ =>
    .bind (.emitNew _) fun _ _ => .bind (.branchTrue _ _) fun _ _ => ?_
  refine ht.bind fun _ _ => hf.bind fun _ _ => .bind (.emit _) fun _ _ =>
    .bind (.jump _) fun _ _ => .bind (.bindLabel _) fun _ _ => ?_
  refine ht.bind fun _ _ => .bind (.emit _) fun _ _ => .bind (.jump _) fun _ _ =>
    .bind (.bindLabel _) fun _ _ => ?_
  exact hf.bind fun _ _ => .bind (.emit _) fun _ _ => .bind (.bindLabel _) fun _ _ => .pure trivial

theorem gives_exprs {es : List Expr} (h : ∀ e ∈ es, Gives (cg.genExpr e) fun _ => True) :
    Gives (cg.genExprs es) fun _ => True := by
  induction es with
  | nil =>
    simp only [CodeGen.genExprs]
    exact .pure trivial
  | cons e es ih =>
    simp only [CodeGen.genExprs]
    refine (h e List.mem_cons_self).bind fun _ _ => ?_
    exact (ih fun e he => h e (List.mem_cons_of_mem _ he)).bind fun _ _ => .pure trivial

theorem gives_expr {e : Expr} (h : Resolves cg e) : Gives (cg.genExpr e) fun _ => True := by
  induction h with
  | literal value | signedLiteral value | fill bit =>
    simp only [CodeGen.genExpr]
    exact gives_const _
  | ref h =>
    simp only [CodeGen.genExpr]
    exact gives_ref h
  | unary op _ ih =>
    simp only [CodeGen.genExpr]
    exact ih.bind fun _ _ => .emitNew _
  | binary op _ _ ihl ihr =>
    simp only [CodeGen.genExpr]
    exact ihl.bind fun _ _ => ihr.bind fun _ _ => .emitNew _
  | conditional _ _ _ ihc iht ihf =>
    simp only [CodeGen.genExpr]
    exact gives_conditionalOf ihc iht ihf
  | memory h _ ihi =>
    obtain ⟨def_, hm⟩ := Option.isSome_iff_exists.mp h
    simp only [CodeGen.genExpr, hm]
    exact .bind (.memory def_) fun _ _ => ihi.bind fun _ _ => .emitNew _
  | @index base index _ _ ihb ihi =>
    simp only [CodeGen.genExpr]
    cases cg.memoryOf base with
    | none => exact ihb.bind fun _ _ => ihi.bind fun _ _ => .emitNew _
    | some def_ => exact .bind (.memory def_) fun _ _ => ihi.bind fun _ _ => .emitNew _
  | partSelect _ _ _ ihb ihl ihr =>
    simp only [CodeGen.genExpr]
    exact ihb.bind fun _ _ => ihl.bind fun _ _ => ihr.bind fun _ _ => .emitNew _
  | concat _ ih =>
    simp only [CodeGen.genExpr]
    exact (gives_exprs ih).bind fun _ _ => .bind (.arglist _) fun _ _ => .emitNew _

theorem gives_resized {e : Expr} (h : Resolves cg e) (width : Nat) (signed : Bool) :
    Gives (cg.genResized e width signed) fun _ => True := by
  refine (gives_expr h).bind fun src _ => ?_
  split
  · exact .pure trivial
  · exact .emitNew _

theorem gives_atWidthWithSign {e : Expr} (h : Resolves cg e) (width : Nat) (signed : Bool) :
    Gives (cg.genExprAtWidthWithSign e width signed) fun _ => True := by
  induction h generalizing width signed with
  | fill bit =>
    simp only [CodeGen.genExprAtWidthWithSign]
    exact gives_const _
  | conditional hc _ _ _ iht ihf =>
    simp only [CodeGen.genExprAtWidthWithSign]
    exact gives_conditionalOf (gives_expr hc) (iht width signed) (ihf width signed)
  | unary op h ih =>
    cases op <;> simp only [CodeGen.genExprAtWidthWithSign] <;>
      first
        | exact (ih width signed).bind fun _ _ => .emitNew _
        | exact gives_resized (.unary _ h) width signed
  | @binary op lhs rhs hl hr ihl ihr =>
    have hcompare : ∀ inst : Reg → Reg → Reg → Inst,
        Gives (do
          let a ← cg.genExprAtWidthWithSign lhs (cg.operandWidth lhs rhs)
            (cg.integralExprSigned lhs && cg.integralExprSigned rhs)
          let b ← cg.genExprAtWidthWithSign rhs (cg.operandWidth lhs rhs)
            (cg.integralExprSigned lhs && cg.integralExprSigned rhs)
          let result ← emitNew (inst a b)
          if width = 1 then return result
          else emitNew (.logic · (.resize result width false))) fun _ => True := by
      intro inst
      refine (ihl _ _).bind fun _ _ => (ihr _ _).bind fun _ _ => .bind (.emitNew _) fun _ _ => ?_
      split
      · exact .pure trivial
      · exact .emitNew _
    cases op <;> simp only [CodeGen.genExprAtWidthWithSign] <;>
      first
        | exact (ihl width signed).bind fun _ _ => (ihr width signed).bind fun _ _ => .emitNew _
        | exact (ihl width signed).bind fun _ _ => (gives_expr hr).bind fun _ _ => .emitNew _
        | exact gives_resized (.binary _ hl hr) width signed
        | exact hcompare fun a b dst => .logic dst (.binary _ a b)
  | literal value =>
    simp only [CodeGen.genExprAtWidthWithSign]
    exact gives_resized (.literal value) width signed
  | signedLiteral value =>
    simp only [CodeGen.genExprAtWidthWithSign]
    exact gives_resized (.signedLiteral value) width signed
  | ref h =>
    simp only [CodeGen.genExprAtWidthWithSign]
    exact gives_resized (.ref h) width signed
  | memory hm hi =>
    simp only [CodeGen.genExprAtWidthWithSign]
    exact gives_resized (.memory hm hi) width signed
  | index hb hi =>
    simp only [CodeGen.genExprAtWidthWithSign]
    exact gives_resized (.index hb hi) width signed
  | partSelect hb hl hr =>
    simp only [CodeGen.genExprAtWidthWithSign]
    exact gives_resized (.partSelect hb hl hr) width signed
  | concat h =>
    simp only [CodeGen.genExprAtWidthWithSign]
    exact gives_resized (.concat h) width signed

theorem gives_assignmentRhs (lhs : String) {rhs : Expr} (h : Resolves cg rhs) :
    Gives (cg.genAssignmentRhs lhs rhs) fun _ => True := by
  unfold CodeGen.genAssignmentRhs
  cases cg.lvalueWidth lhs with
  | none => exact gives_expr h
  | some width => exact gives_atWidthWithSign h width _

theorem gives_returnValue {e : Expr} (h : Resolves cg e) :
    Gives (cg.genReturnValue e) fun _ => True := by
  unfold CodeGen.genReturnValue
  cases cg.returnType with
  | none => exact gives_expr h
  | some type => exact gives_atWidthWithSign h type.1 _

end Expressions

section Statements

variable {cg : CodeGen}

theorem gives_newLabels (n : Nat) : Gives (CodeGen.newLabels n) fun _ => True := by
  induction n with
  | zero => exact .pure trivial
  | succ n ih =>
    rw [CodeGen.newLabels]
    exact .bind .newLabel fun _ _ => ih.bind fun _ _ => .pure trivial

theorem gives_caseValues (sel : Reg) (label : Label) {values : List Expr}
    (h : ∀ e ∈ values, Resolves cg e) :
    Gives (cg.genCaseValues sel label values) fun _ => True := by
  induction values with
  | nil => exact .pure trivial
  | cons value values ih =>
    rw [CodeGen.genCaseValues]
    refine (gives_expr (h value List.mem_cons_self)).bind fun _ _ => .bind (.emitNew _) fun _ _ =>
      .bind (.branchTrue _ _) fun _ _ => ?_
    exact ih fun e he => h e (List.mem_cons_of_mem _ he)

theorem gives_caseTests (sel : Reg) {items : List (List Expr × Stmt)} (labels : List Label)
    (h : ∀ item ∈ items, ∀ e ∈ item.1, Resolves cg e) :
    Gives (cg.genCaseTests sel items labels) fun _ => True := by
  induction items generalizing labels with
  | nil =>
    rw [CodeGen.genCaseTests]
    · exact .pure trivial
    · exact fun _ _ _ _ _ he => nomatch he
  | cons item items ih =>
    cases labels with
    | nil =>
      rw [CodeGen.genCaseTests]
      · exact .pure trivial
      · exact fun _ _ _ _ _ _ he => nomatch he
    | cons label labels =>
      obtain ⟨values, body⟩ := item
      rw [CodeGen.genCaseTests]
      refine (gives_caseValues sel label (h _ List.mem_cons_self)).bind fun _ _ => ?_
      exact ih labels fun item hi => h item (List.mem_cons_of_mem _ hi)

theorem gives_caseBodies {items : List (List Expr × Stmt)} (labels : List Label) (done : Label)
    {loops : LoopTargets} (h : ∀ item ∈ items, Gives (cg.genStmt item.2 loops) (· = loops)) :
    Gives (cg.genCaseBodies items labels done loops) (· = loops) := by
  induction items generalizing labels with
  | nil =>
    rw [CodeGen.genCaseBodies]
    · exact .pure rfl
    · exact fun _ _ _ _ _ he => nomatch he
  | cons item items ih =>
    cases labels with
    | nil =>
      rw [CodeGen.genCaseBodies]
      · exact .pure rfl
      · exact fun _ _ _ _ _ _ he => nomatch he
    | cons label labels =>
      obtain ⟨values, body⟩ := item
      rw [CodeGen.genCaseBodies]
      refine .bind (.bindLabel _) fun _ _ => (h _ List.mem_cons_self).bind ?_
      rintro _ rfl
      exact .bind (.jump _) fun _ _ => ih labels fun item hi => h item (List.mem_cons_of_mem _ hi)

theorem gives_stmts {stmts : List Stmt} {loops : LoopTargets}
    (h : ∀ s ∈ stmts, Gives (cg.genStmt s loops) (· = loops)) :
    Gives (cg.genStmts stmts loops) (· = loops) := by
  induction stmts with
  | nil =>
    simp only [CodeGen.genStmts]
    exact .pure rfl
  | cons s stmts ih =>
    simp only [CodeGen.genStmts]
    refine (h s List.mem_cons_self).bind ?_
    rintro _ rfl
    exact ih fun s hs => h s (List.mem_cons_of_mem _ hs)

/-- The code of a scoped statement is generated, and the loops stay balanced. -/
theorem gives_stmt {inLoop : Bool} {s : Stmt} (h : Scoped cg inLoop s) {loops : LoopTargets}
    (hl : inLoop = true → loops ≠ []) : Gives (cg.genStmt s loops) (· = loops) := by
  induction h generalizing loops with
  | block _ ih =>
    simp only [CodeGen.genStmt]
    exact gives_stmts fun s hs => ih s hs hl
  | @blocking inLoop lhs rhs hlocal hr =>
    simp only [CodeGen.genStmt]
    refine (gives_assignmentRhs lhs hr).bind fun src _ => ?_
    obtain ⟨⟨reg, width⟩, he⟩ := Option.isSome_iff_exists.mp hlocal
    unfold CodeGen.genAssign
    rw [he]
    exact .bind (.emit _) fun _ _ => .pure rfl
  | @ifElse _ _ _ elseBranch hc _ _ iht ihe =>
    simp only [CodeGen.genStmt]
    refine (gives_expr hc).bind fun _ _ => .bind .newLabel fun _ _ =>
      .bind (.branchFalse _ _) fun _ _ => (iht hl).bind ?_
    rintro _ rfl
    cases elseBranch with
    | none => exact .bind (.bindLabel _) fun _ _ => .pure rfl
    | some elseBranch =>
      refine .bind .newLabel fun _ _ => .bind (.jump _) fun _ _ => .bind (.bindLabel _) fun _ _ =>
        (ihe elseBranch rfl hl).bind ?_
      rintro _ rfl
      exact .bind (.bindLabel _) fun _ _ => .pure rfl
  | whileLoop _ hc _ ih =>
    simp only [CodeGen.genStmt]
    refine .bind .newLabel fun top _ => .bind .newLabel fun done _ =>
      .bind (.bindLabel _) fun _ _ => (gives_expr hc).bind fun _ _ =>
      .bind (.branchFalse _ _) fun _ _ =>
      (ih fun _ => List.cons_ne_nil _ _).bind ?_
    rintro _ rfl
    exact .bind (.jump _) fun _ _ => .bind (.bindLabel _) fun _ _ => .pure rfl
  | doWhile _ hc _ ih =>
    simp only [CodeGen.genStmt]
    refine .bind .newLabel fun top _ => .bind .newLabel fun check _ => .bind .newLabel fun done _ =>
      .bind (.bindLabel _) fun _ _ => (ih fun _ => List.cons_ne_nil _ _).bind ?_
    rintro _ rfl
    exact .bind (.bindLabel _) fun _ _ => (gives_expr hc).bind fun _ _ =>
      .bind (.branchTrue _ _) fun _ _ => .bind (.bindLabel _) fun _ _ => .pure rfl
  | @case _ _ items default hs hv _ _ ihi ihd =>
    simp only [CodeGen.genStmt]
    refine (gives_expr hs).bind fun sel _ => .bind .newLabel fun done _ =>
      (gives_newLabels items.length).bind fun labels _ => ?_
    have hbodies : ∀ labels done, Gives (cg.genCaseBodies items labels done loops) (· = loops) :=
      fun labels done => gives_caseBodies labels done fun item hi => ihi item hi hl
    cases default with
    | none =>
      refine (gives_caseTests sel labels hv).bind fun _ _ => .bind (.jump _) fun _ _ =>
        (hbodies labels done).bind ?_
      rintro _ rfl
      exact .bind (.bindLabel _) fun _ _ => .pure rfl
    | some body =>
      refine .bind .newLabel fun defaultLabel _ => (gives_caseTests sel labels hv).bind fun _ _ =>
        .bind (.jump _) fun _ _ => (hbodies labels done).bind ?_
      rintro _ rfl
      refine .bind (.bindLabel _) fun _ _ => (ihd body rfl hl).bind ?_
      rintro _ rfl
      exact .bind (.bindLabel _) fun _ _ => .pure rfl
  | @ret _ value h =>
    simp only [CodeGen.genStmt]
    cases value with
    | none => exact .bind (.emit _) fun _ _ => .pure rfl
    | some e =>
      exact (gives_returnValue (h e rfl)).bind fun _ _ => .bind (.emit _) fun _ _ => .pure rfl
  | breakLoop =>
    cases loops with
    | nil => exact absurd rfl (hl rfl)
    | cons entry loops =>
      simp only [CodeGen.genStmt]
      exact .bind (.jump _) fun _ _ => .pure rfl
  | continueLoop =>
    cases loops with
    | nil => exact absurd rfl (hl rfl)
    | cons entry loops =>
      simp only [CodeGen.genStmt]
      exact .bind (.jump _) fun _ _ => .pure rfl

end Statements

end Eevee.Elab.Scoping
