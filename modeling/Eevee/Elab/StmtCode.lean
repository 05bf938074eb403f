/- The code of a statement: what it adds to the builder. -/

import Mathlib.Data.List.Basic
import Mathlib.Tactic.Common
import Eevee.Elab.ExprCode

set_option autoImplicit false
set_option relaxedAutoImplicit false

namespace Eevee.Elab.StmtCode

open Eevee.Ast.Syntax
open Eevee.Ast.Stmts
open Eevee.Core.Logic
open Eevee.Ir.Inst
open Eevee.Ir.Values
open Eevee.Ir.Builder
open Eevee.Ir.Emission
open Eevee.Elab.Generator
open Eevee.Elab.ExprCode

/-- The labels that a break or a continue jumps to. -/
def exits : LoopTargets → List Label
  | [] => []
  | (onBreak, onContinue) :: _ => [onBreak, onContinue]

/-- The statement adds code that leaves through the targets of the innermost loop only, and leaves
the loops as they were. -/
def Keeps (cg : CodeGen) (s : Stmt) : Prop :=
  ∀ {loops pb loops' pb'}, cg.genStmt s loops pb = some (loops', pb') → Within cg pb.nRegs →
    loops' = loops ∧ Grows pb.labels.length (exits loops) pb pb'

section Labels

variable {pb : ProgramBuilder}

@[simp] theorem length_newLabel : pb.newLabel.2.labels.length = pb.labels.length + 1 :=
  List.length_append

@[simp] theorem length_bind (l : Label) : (pb.bind l).labels.length = pb.labels.length :=
  List.length_set

theorem unbound_older {l : Label} (h : pb.Unbound l) : pb.newLabel.2.Unbound l :=
  getElem?_snoc h

end Labels

variable {cg : CodeGen}

/-! ### Conditional statements -/

/-- The stages of an if statement up to the end of the first branch. -/
structure IfCode (cg : CodeGen) (cond : Expr) (thenBranch : Stmt) (loops : LoopTargets)
    (pb : ProgramBuilder) where
  c : Reg
  (pb₁ pb₂ : ProgramBuilder)
  loops₁ : LoopTargets
  condition : cg.genExpr cond pb = some (c, pb₁)
  thenCode : cg.genStmt thenBranch loops (pb₁.newLabel.2.branchFalse c pb₁.labels.length) =
    some (loops₁, pb₂)

theorem ifCode {cond : Expr} {thenBranch : Stmt} {loops loops' : LoopTargets}
    {pb pb' : ProgramBuilder}
    (h : cg.genStmt (.ifElse cond thenBranch none) loops pb = some (loops', pb')) :
    ∃ k : IfCode cg cond thenBranch loops pb,
      loops' = k.loops₁ ∧ pb' = k.pb₂.bind k.pb₁.labels.length := by
  simp only [CodeGen.genStmt] at h
  obtain ⟨c, pb₁, hc, h⟩ := bind_eq_some.mp h
  rw [newLabel_bind, branchFalse_bind] at h
  obtain ⟨loops₁, pb₂, ht, h⟩ := bind_eq_some.mp h
  rw [bindLabel_bind] at h
  obtain ⟨hl, hp⟩ := pure_eq_some.mp h
  exact ⟨⟨c, pb₁, pb₂, loops₁, hc, ht⟩, hl.symm, hp.symm⟩

theorem ifElseCode {cond : Expr} {thenBranch elseBranch : Stmt} {loops loops' : LoopTargets}
    {pb pb' : ProgramBuilder}
    (h : cg.genStmt (.ifElse cond thenBranch (some elseBranch)) loops pb = some (loops', pb')) :
    ∃ (k : IfCode cg cond thenBranch loops pb) (loops₂ : LoopTargets) (pb₃ : ProgramBuilder),
      cg.genStmt elseBranch k.loops₁ ((k.pb₂.newLabel.2.jump k.pb₂.labels.length).bind
        k.pb₁.labels.length) = some (loops₂, pb₃) ∧
      loops' = loops₂ ∧ pb' = pb₃.bind k.pb₂.labels.length := by
  simp only [CodeGen.genStmt] at h
  obtain ⟨c, pb₁, hc, h⟩ := bind_eq_some.mp h
  rw [newLabel_bind, branchFalse_bind] at h
  obtain ⟨loops₁, pb₂, ht, h⟩ := bind_eq_some.mp h
  rw [newLabel_bind, jump_bind, bindLabel_bind] at h
  obtain ⟨loops₂, pb₃, he, h⟩ := bind_eq_some.mp h
  rw [bindLabel_bind] at h
  obtain ⟨hl, hp⟩ := pure_eq_some.mp h
  exact ⟨⟨c, pb₁, pb₂, loops₁, hc, ht⟩, loops₂, pb₃, he, hl.symm, hp.symm⟩

section If

variable {cond : Expr} {thenBranch : Stmt} {loops : LoopTargets} {pb : ProgramBuilder}
  (k : IfCode cg cond thenBranch loops pb) (ht : Keeps cg thenBranch) (hw : Within cg pb.nRegs)

/-- The label of the else branch. -/
def IfCode.elseLabel : Label := k.pb₁.labels.length

/-- The builder where the then branch begins. -/
def IfCode.atThen : ProgramBuilder := k.pb₁.newLabel.2.branchFalse k.c k.elseLabel

include hw

theorem IfCode.grows_condition : Grows pb.labels.length [] pb k.pb₁ ∧ k.c < k.pb₁.nRegs :=
  (generates_expr cond pb).grows k.condition hw

theorem IfCode.grows_atThen :
    Grows pb.labels.length (k.elseLabel :: exits loops) pb k.atThen := by
  obtain ⟨h, -⟩ := k.grows_condition hw
  refine (h.mono (Nat.le_refl _) (by simp)).trans ?_
  exact (grows_newLabel _ h.labels).trans (grows_emitTo _ _ rfl List.mem_cons_self)

include ht

theorem IfCode.grows_then : k.loops₁ = loops ∧
    Grows (k.elseLabel + 1) (exits loops) k.atThen k.pb₂ := by
  have h := ht k.thenCode (hw.mono (k.grows_atThen hw).nRegs)
  have hl : k.atThen.labels.length = k.elseLabel + 1 := length_newLabel
  rwa [← hl]

theorem IfCode.unbound_else : k.pb₂.Unbound k.elseLabel := by
  have hu : k.atThen.Unbound k.elseLabel := unbound_newLabel k.pb₁
  exact unbound_keep hu (k.grows_then ht hw).2 (Nat.lt_succ_self _)

theorem IfCode.grows_toEnd :
    Grows pb.labels.length (k.elseLabel :: exits loops) pb k.pb₂ := by
  have hle := (k.grows_condition hw).1.labels
  refine (k.grows_atThen hw).trans ((k.grows_then ht hw).2.mono ?_ ?_)
  · exact Nat.le_succ_of_le hle
  · exact fun _ hl => List.mem_cons_of_mem _ hl

end If

theorem keeps_if {cond : Expr} {thenBranch : Stmt} (ht : Keeps cg thenBranch) :
    Keeps cg (.ifElse cond thenBranch none) := by
  intro loops pb loops' pb' h hw
  obtain ⟨k, rfl, rfl⟩ := ifCode h
  obtain ⟨hl, -⟩ := k.grows_then ht hw
  refine ⟨hl, ?_⟩
  have hu := k.unbound_else ht hw
  have hg := (k.grows_toEnd ht hw).trans (grows_bind _ hu (k.grows_condition hw).1.labels)
  refine Grows.close (show Grows _ ([k.elseLabel] ++ exits loops) _ _ from hg) ?_
  intro l hl
  rw [List.mem_singleton.mp hl]
  exact ⟨_, bound_bind hu⟩

section IfElse

variable {cond : Expr} {thenBranch elseBranch : Stmt} {loops loops₂ : LoopTargets}
  {pb pb₃ : ProgramBuilder} (k : IfCode cg cond thenBranch loops pb)

/-- The label of the end. -/
def IfCode.endLabel : Label := k.pb₂.labels.length

/-- The builder where the else branch begins. -/
def IfCode.atElse : ProgramBuilder := (k.pb₂.newLabel.2.jump k.endLabel).bind k.elseLabel

variable (ht : Keeps cg thenBranch) (he : Keeps cg elseBranch) (hw : Within cg pb.nRegs)
  (h : cg.genStmt elseBranch k.loops₁ k.atElse = some (loops₂, pb₃))
include ht hw

theorem IfCode.unbound_else' : (k.pb₂.newLabel.2.jump k.endLabel).Unbound k.elseLabel :=
  unbound_older (k.unbound_else ht hw)

theorem IfCode.else_lt_end : k.elseLabel < k.endLabel :=
  (List.getElem?_eq_some_iff.mp (k.unbound_else ht hw)).1

theorem IfCode.grows_atElse :
    Grows pb.labels.length (k.elseLabel :: k.endLabel :: exits loops) pb k.atElse := by
  have hle := (k.grows_condition hw).1.labels
  have hend : pb.labels.length ≤ k.endLabel :=
    Nat.le_trans hle (Nat.le_of_lt (k.else_lt_end ht hw))
  refine ((k.grows_toEnd ht hw).mono (Nat.le_refl _) ?_).trans <| (grows_newLabel _ hend).trans <|
    (grows_emitTo _ _ rfl (by simp)).trans (grows_bind _ (k.unbound_else' ht hw) hle)
  intro l hl
  rcases List.mem_cons.mp hl with rfl | hl
  · exact List.mem_cons_self
  · exact List.mem_cons_of_mem _ (List.mem_cons_of_mem _ hl)

theorem IfCode.unbound_end : k.atElse.Unbound k.endLabel :=
  unbound_bind (unbound_newLabel k.pb₂) (Nat.ne_of_lt (k.else_lt_end ht hw))

include he h

theorem IfCode.grows_else : loops₂ = loops ∧ Grows (k.endLabel + 1) (exits loops) k.atElse pb₃ := by
  have hk := he h (hw.mono (k.grows_atElse ht hw).nRegs)
  have hl : k.atElse.labels.length = k.endLabel + 1 := by
    show ((k.pb₂.newLabel.2.jump k.endLabel).bind k.elseLabel).labels.length = _
    rw [length_bind]
    exact length_newLabel
  rwa [hl, (k.grows_then ht hw).1] at hk

theorem IfCode.unbound_end' : pb₃.Unbound k.endLabel :=
  unbound_keep (k.unbound_end ht hw) (k.grows_else ht he hw h).2 (Nat.lt_succ_self _)

theorem IfCode.grows_fromElse :
    Grows pb.labels.length (k.elseLabel :: k.endLabel :: exits loops) k.atElse
      (pb₃.bind k.endLabel) := by
  have hle := Nat.le_trans (k.grows_condition hw).1.labels (Nat.le_of_lt (k.else_lt_end ht hw))
  refine ((k.grows_else ht he hw h).2.mono (Nat.le_succ_of_le hle) ?_).trans
    (grows_bind _ (k.unbound_end' ht he hw h) hle)
  exact fun _ hl => List.mem_cons_of_mem _ (List.mem_cons_of_mem _ hl)

end IfElse

theorem keeps_ifElse {cond : Expr} {thenBranch elseBranch : Stmt} (ht : Keeps cg thenBranch)
    (he : Keeps cg elseBranch) : Keeps cg (.ifElse cond thenBranch (some elseBranch)) := by
  intro loops pb loops' pb' h hw
  obtain ⟨k, loops₂, pb₃, hcode, rfl, rfl⟩ := ifElseCode h
  refine ⟨(k.grows_else ht he hw hcode).1, ?_⟩
  have hg := (k.grows_atElse ht hw).trans (k.grows_fromElse ht he hw hcode)
  refine Grows.close (show Grows _ ([k.elseLabel, k.endLabel] ++ exits loops) _ _ from hg) ?_
  intro l hl
  simp only [List.mem_cons, List.not_mem_nil, or_false] at hl
  rcases hl with rfl | rfl
  · exact ⟨_, (k.grows_fromElse ht he hw hcode).bound (bound_bind (k.unbound_else' ht hw))⟩
  · exact ⟨_, bound_bind (k.unbound_end' ht he hw hcode)⟩

/-! ### Loops -/

/-- The stages of a while loop; the loop begins where the builder stands. -/
structure WhileCode (cg : CodeGen) (cond : Expr) (body : Stmt) (loops : LoopTargets)
    (pb : ProgramBuilder) where
  value : Reg
  (pb₁ pb₂ : ProgramBuilder)
  loops₁ : LoopTargets
  condition : cg.genExpr cond (pb.newLabel.2.newLabel.2.bind pb.labels.length) = some (value, pb₁)
  bodyCode : cg.genStmt body ((pb.labels.length + 1, pb.labels.length) :: loops)
    (pb₁.branchFalse value (pb.labels.length + 1)) = some (loops₁, pb₂)

theorem whileCode {cond : Expr} {body : Stmt} {loops loops' : LoopTargets} {pb pb' : ProgramBuilder}
    (h : cg.genStmt (.whileLoop cond body) loops pb = some (loops', pb')) :
    ∃ k : WhileCode cg cond body loops pb, loops' = k.loops₁.tail ∧
      pb' = (k.pb₂.jump pb.labels.length).bind (pb.labels.length + 1) := by
  simp only [CodeGen.genStmt] at h
  rw [newLabel_bind, newLabel_bind, length_newLabel, bindLabel_bind] at h
  obtain ⟨value, pb₁, hc, h⟩ := bind_eq_some.mp h
  rw [branchFalse_bind] at h
  obtain ⟨loops₁, pb₂, hbody, h⟩ := bind_eq_some.mp h
  rw [jump_bind, bindLabel_bind] at h
  obtain ⟨hl, hp⟩ := pure_eq_some.mp h
  exact ⟨⟨value, pb₁, pb₂, loops₁, hc, hbody⟩, hl.symm, hp.symm⟩

/-- Two labels of which the first is bound at once. -/
theorem grows_loopHead {n : Nat} {pb : ProgramBuilder} (outs : List Label)
    (hn : n ≤ pb.labels.length) :
    Grows n outs pb (pb.newLabel.2.newLabel.2.bind pb.labels.length) := by
  refine (grows_newLabel _ hn).trans <| (grows_newLabel _ ?_).trans <| grows_bind _ ?_ hn
  · rw [length_newLabel]
    exact Nat.le_succ_of_le hn
  · exact unbound_older (unbound_newLabel pb)

theorem unbound_loopHead (pb : ProgramBuilder) :
    (pb.newLabel.2.newLabel.2.bind pb.labels.length).Unbound (pb.labels.length + 1) := by
  have h := unbound_newLabel pb.newLabel.2
  rw [length_newLabel] at h
  exact unbound_bind h (Nat.ne_of_lt (Nat.lt_succ_self _))

section While

variable {cond : Expr} {body : Stmt} {loops : LoopTargets} {pb : ProgramBuilder}
  (k : WhileCode cg cond body loops pb) (hbody : Keeps cg body) (hw : Within cg pb.nRegs)

/-- The builder where the body begins. -/
def WhileCode.atBody : ProgramBuilder := k.pb₁.branchFalse k.value (pb.labels.length + 1)

include hw

theorem WhileCode.grows_condition : Grows (pb.labels.length + 2) []
    (pb.newLabel.2.newLabel.2.bind pb.labels.length) k.pb₁ ∧ k.value < k.pb₁.nRegs := by
  have h := (generates_expr cond _).grows k.condition (hw.mono (Nat.le_refl _))
  rwa [length_bind, length_newLabel, length_newLabel] at h

theorem WhileCode.grows_atBody :
    Grows pb.labels.length
      (pb.labels.length :: (pb.labels.length + 1) :: exits loops) pb k.atBody := by
  refine (grows_loopHead _ (Nat.le_refl _)).trans (((k.grows_condition hw).1.mono ?_ ?_).trans ?_)
  · exact Nat.le_add_right _ _
  · simp
  · exact grows_emitTo _ _ rfl (by simp)

include hbody

theorem WhileCode.grows_body :
    k.loops₁ = (pb.labels.length + 1, pb.labels.length) :: loops ∧
      Grows (pb.labels.length + 2) [pb.labels.length + 1, pb.labels.length] k.atBody k.pb₂ := by
  obtain ⟨hl, hg⟩ := hbody k.bodyCode (hw.mono (k.grows_atBody hw).nRegs)
  refine ⟨hl, hg.mono ?_ fun _ h => h⟩
  have hle := (k.grows_condition hw).1.labels
  rwa [length_bind, length_newLabel, length_newLabel] at hle

theorem WhileCode.unbound_done : (k.pb₂.jump pb.labels.length).Unbound (pb.labels.length + 1) := by
  have h₁ : k.pb₁.Unbound (pb.labels.length + 1) :=
    unbound_keep (unbound_loopHead pb) (k.grows_condition hw).1 (Nat.lt_succ_self _)
  have hbody' : k.atBody.Unbound (pb.labels.length + 1) := h₁
  have h₂ : k.pb₂.Unbound (pb.labels.length + 1) :=
    unbound_keep hbody' (k.grows_body hbody hw).2 (Nat.lt_succ_self _)
  exact h₂

theorem WhileCode.grows_fromBody :
    Grows pb.labels.length (pb.labels.length :: (pb.labels.length + 1) :: exits loops) k.atBody
      ((k.pb₂.jump pb.labels.length).bind (pb.labels.length + 1)) := by
  refine ((k.grows_body hbody hw).2.mono (Nat.le_add_right _ _) ?_).trans <|
    (grows_emitTo _ _ rfl (by simp)).trans <|
      grows_bind _ (k.unbound_done hbody hw) (Nat.le_succ _)
  intro l hl
  simp only [List.mem_cons, List.not_mem_nil, or_false] at hl
  rcases hl with rfl | rfl <;> simp

theorem WhileCode.bound_top :
    ((k.pb₂.jump pb.labels.length).bind (pb.labels.length + 1)).Bound pb.labels.length
      pb.code.length := by
  have h : (pb.newLabel.2.newLabel.2.bind pb.labels.length).Bound pb.labels.length pb.code.length :=
    bound_bind (unbound_older (unbound_newLabel pb))
  have h₁ := (k.grows_condition hw).1.bound h
  exact (k.grows_fromBody hbody hw).bound (l := pb.labels.length) h₁

end While

theorem keeps_while {cond : Expr} {body : Stmt} (hbody : Keeps cg body) :
    Keeps cg (.whileLoop cond body) := by
  intro loops pb loops' pb' h hw
  obtain ⟨k, rfl, rfl⟩ := whileCode h
  refine ⟨by rw [(k.grows_body hbody hw).1]; rfl, ?_⟩
  have hg := (k.grows_atBody hw).trans (k.grows_fromBody hbody hw)
  refine Grows.close
    (show Grows _ ([pb.labels.length, pb.labels.length + 1] ++ exits loops) _ _ from hg) ?_
  intro l hl
  simp only [List.mem_cons, List.not_mem_nil, or_false] at hl
  rcases hl with rfl | rfl
  · exact ⟨_, k.bound_top hbody hw⟩
  · exact ⟨_, bound_bind (k.unbound_done hbody hw)⟩

/-- The stages of a loop that tests its condition at the end. -/
structure DoWhileCode (cg : CodeGen) (cond : Expr) (body : Stmt) (loops : LoopTargets)
    (pb : ProgramBuilder) where
  value : Reg
  (pb₁ pb₂ : ProgramBuilder)
  loops₁ : LoopTargets
  bodyCode : cg.genStmt body ((pb.labels.length + 2, pb.labels.length + 1) :: loops)
    (pb.newLabel.2.newLabel.2.newLabel.2.bind pb.labels.length) = some (loops₁, pb₁)
  condition : cg.genExpr cond (pb₁.bind (pb.labels.length + 1)) = some (value, pb₂)

theorem doWhileCode {cond : Expr} {body : Stmt} {loops loops' : LoopTargets}
    {pb pb' : ProgramBuilder}
    (h : cg.genStmt (.doWhile cond body) loops pb = some (loops', pb')) :
    ∃ k : DoWhileCode cg cond body loops pb, loops' = k.loops₁.tail ∧
      pb' = (k.pb₂.branchTrue k.value pb.labels.length).bind (pb.labels.length + 2) := by
  simp only [CodeGen.genStmt] at h
  rw [newLabel_bind, newLabel_bind, newLabel_bind, length_newLabel, length_newLabel,
    bindLabel_bind] at h
  obtain ⟨loops₁, pb₁, hbody, h⟩ := bind_eq_some.mp h
  rw [bindLabel_bind] at h
  obtain ⟨value, pb₂, hc, h⟩ := bind_eq_some.mp h
  rw [branchTrue_bind, bindLabel_bind] at h
  obtain ⟨hl, hp⟩ := pure_eq_some.mp h
  exact ⟨⟨value, pb₁, pb₂, loops₁, hbody, hc⟩, hl.symm, hp.symm⟩

section DoWhile

variable {cond : Expr} {body : Stmt} {loops : LoopTargets} {pb : ProgramBuilder}
  (k : DoWhileCode cg cond body loops pb) (hbody : Keeps cg body) (hw : Within cg pb.nRegs)

/-- The labels of the loop: its beginning, its test and its end. -/
def doWhileLabels (pb : ProgramBuilder) : List Label :=
  [pb.labels.length, pb.labels.length + 1, pb.labels.length + 2]

/-- The builder where the body begins. -/
def doWhileHead (pb : ProgramBuilder) : ProgramBuilder :=
  pb.newLabel.2.newLabel.2.newLabel.2.bind pb.labels.length

theorem length_doWhileHead : (doWhileHead pb).labels.length = pb.labels.length + 3 := by
  unfold doWhileHead
  rw [length_bind, length_newLabel, length_newLabel, length_newLabel]

theorem grows_doWhileHead (outs : List Label) :
    Grows pb.labels.length outs pb (doWhileHead pb) := by
  have h₁ := grows_newLabel outs (Nat.le_refl pb.labels.length)
  have h₂ : Grows pb.labels.length outs pb.newLabel.2 _ := grows_newLabel outs h₁.labels
  have h₃ : Grows pb.labels.length outs pb.newLabel.2.newLabel.2 _ :=
    grows_newLabel outs (Nat.le_trans h₁.labels h₂.labels)
  refine h₁.trans (h₂.trans (h₃.trans (grows_bind _ ?_ (Nat.le_refl _))))
  exact unbound_older (unbound_older (unbound_newLabel pb))

theorem unbound_doWhileHead {l : Nat} (h : l = pb.labels.length + 1 ∨ l = pb.labels.length + 2) :
    (doWhileHead pb).Unbound l := by
  rcases h with rfl | rfl
  · have h := unbound_newLabel pb.newLabel.2
    rw [length_newLabel] at h
    exact unbound_bind (unbound_older h) (Nat.ne_of_lt (Nat.lt_succ_self _))
  · have h := unbound_newLabel pb.newLabel.2.newLabel.2
    rw [length_newLabel, length_newLabel] at h
    exact unbound_bind h (Nat.ne_of_lt (Nat.lt_add_of_pos_right Nat.two_pos))

include hbody hw

theorem DoWhileCode.grows_body :
    k.loops₁ = (pb.labels.length + 2, pb.labels.length + 1) :: loops ∧
      Grows (pb.labels.length + 3) [pb.labels.length + 2, pb.labels.length + 1] (doWhileHead pb)
        k.pb₁ := by
  have hg : Grows pb.labels.length [] pb (doWhileHead pb) := grows_doWhileHead []
  have h := hbody k.bodyCode (hw.mono hg.nRegs)
  rwa [← length_doWhileHead]

theorem DoWhileCode.unbound_body {l : Nat}
    (h : l = pb.labels.length + 1 ∨ l = pb.labels.length + 2) : k.pb₁.Unbound l := by
  refine unbound_keep (unbound_doWhileHead h) (k.grows_body hbody hw).2 ?_
  rcases h with rfl | rfl
  · exact Nat.add_lt_add_left (by decide) _
  · exact Nat.lt_succ_self _

theorem DoWhileCode.grows_toTest : Grows pb.labels.length (doWhileLabels pb ++ exits loops) pb
    (k.pb₁.bind (pb.labels.length + 1)) := by
  refine (grows_doWhileHead _).trans (((k.grows_body hbody hw).2.mono ?_ ?_).trans ?_)
  · exact Nat.le_add_right _ _
  · intro l hl
    simp only [List.mem_cons, List.not_mem_nil, or_false] at hl
    rcases hl with rfl | rfl <;> simp [doWhileLabels]
  · exact grows_bind _ (k.unbound_body hbody hw (.inl rfl)) (Nat.le_succ _)

theorem DoWhileCode.grows_condition : Grows (pb.labels.length + 3) []
    (k.pb₁.bind (pb.labels.length + 1)) k.pb₂ ∧ k.value < k.pb₂.nRegs := by
  obtain ⟨h, hv⟩ := (generates_expr cond _).grows k.condition
    (hw.mono (k.grows_toTest hbody hw).nRegs)
  have hle := (k.grows_body hbody hw).2.labels
  rw [length_doWhileHead] at hle
  exact ⟨h.mono (by rwa [length_bind]) fun _ h => h, hv⟩

theorem DoWhileCode.unbound_done :
    (k.pb₂.branchTrue k.value pb.labels.length).Unbound (pb.labels.length + 2) := by
  have h₁ : (k.pb₁.bind (pb.labels.length + 1)).Unbound (pb.labels.length + 2) :=
    unbound_bind (k.unbound_body hbody hw (.inr rfl)) (Nat.ne_of_lt (Nat.lt_succ_self _))
  have h₂ : k.pb₂.Unbound (pb.labels.length + 2) :=
    unbound_keep h₁ (k.grows_condition hbody hw).1 (Nat.lt_succ_self _)
  exact h₂

theorem DoWhileCode.grows_fromTest : Grows pb.labels.length (doWhileLabels pb ++ exits loops)
    (k.pb₁.bind (pb.labels.length + 1))
    ((k.pb₂.branchTrue k.value pb.labels.length).bind (pb.labels.length + 2)) := by
  refine ((k.grows_condition hbody hw).1.mono (Nat.le_add_right _ _) (by simp)).trans <|
    (grows_emitTo _ _ rfl (by simp [doWhileLabels])).trans <|
      grows_bind _ (k.unbound_done hbody hw) (Nat.le_add_right _ _)

theorem DoWhileCode.grows_fromBody : Grows pb.labels.length (doWhileLabels pb ++ exits loops)
    (doWhileHead pb)
    ((k.pb₂.branchTrue k.value pb.labels.length).bind (pb.labels.length + 2)) := by
  refine ((k.grows_body hbody hw).2.mono (Nat.le_add_right _ _) ?_).trans <|
    (grows_bind _ (k.unbound_body hbody hw (.inl rfl)) (Nat.le_succ _)).trans
      (k.grows_fromTest hbody hw)
  intro l hl
  simp only [List.mem_cons, List.not_mem_nil, or_false] at hl
  rcases hl with rfl | rfl <;> simp [doWhileLabels]

theorem DoWhileCode.bound_top : ((k.pb₂.branchTrue k.value pb.labels.length).bind
    (pb.labels.length + 2)).Bound pb.labels.length pb.code.length := by
  have h : (doWhileHead pb).Bound pb.labels.length pb.code.length :=
    bound_bind (unbound_older (unbound_older (unbound_newLabel pb)))
  exact (k.grows_fromBody hbody hw).bound h

theorem DoWhileCode.bound_check : ((k.pb₂.branchTrue k.value pb.labels.length).bind
    (pb.labels.length + 2)).Bound (pb.labels.length + 1) k.pb₁.code.length :=
  (k.grows_fromTest hbody hw).bound (bound_bind (k.unbound_body hbody hw (.inl rfl)))

end DoWhile

theorem keeps_doWhile {cond : Expr} {body : Stmt} (hbody : Keeps cg body) :
    Keeps cg (.doWhile cond body) := by
  intro loops pb loops' pb' h hw
  obtain ⟨k, rfl, rfl⟩ := doWhileCode h
  refine ⟨by rw [(k.grows_body hbody hw).1]; rfl, ?_⟩
  refine ((k.grows_toTest hbody hw).trans (k.grows_fromTest hbody hw)).close ?_
  intro l hl
  simp only [doWhileLabels, List.mem_cons, List.not_mem_nil, or_false] at hl
  rcases hl with rfl | rfl | rfl
  · exact ⟨_, k.bound_top hbody hw⟩
  · exact ⟨_, k.bound_check hbody hw⟩
  · exact ⟨_, bound_bind (k.unbound_done hbody hw)⟩

/-! ### Case statements -/

/-- New labels for the items of a case statement. -/
structure NewLabels (pb : ProgramBuilder) (labels : List Label) (pb' : ProgramBuilder) : Prop where
  grows : ∀ {n outs}, n ≤ pb.labels.length → Grows n outs pb pb'
  fresh : ∀ l ∈ labels, pb.labels.length ≤ l ∧ pb'.Unbound l
  nodup : labels.Nodup
  older : ∀ {l}, pb.Unbound l → pb'.Unbound l
  code : pb'.code = pb.code
  nRegs : pb'.nRegs = pb.nRegs

theorem newLabels_spec {n : Nat} {pb pb' : ProgramBuilder} {labels : List Label}
    (h : CodeGen.newLabels n pb = some (labels, pb')) :
    labels.length = n ∧ NewLabels pb labels pb' := by
  induction n generalizing pb pb' labels with
  | zero =>
    obtain ⟨rfl, rfl⟩ := pure_eq_some.mp h
    exact ⟨rfl, fun _ => .refl _ _ _, fun _ hl => (List.not_mem_nil hl).elim, List.nodup_nil, id,
      rfl, rfl⟩
  | succ n ih =>
    rw [CodeGen.newLabels, newLabel_bind] at h
    obtain ⟨rest, pb₁, hrest, h⟩ := bind_eq_some.mp h
    obtain ⟨rfl, rfl⟩ := pure_eq_some.mp h
    obtain ⟨hlen, hnew⟩ := ih hrest
    refine ⟨congrArg Nat.succ hlen, ?_, ?_, ?_, ?_, hnew.code, hnew.nRegs⟩
    · intro n outs hn
      refine (grows_newLabel _ hn).trans (hnew.grows ?_)
      rw [length_newLabel]
      exact Nat.le_succ_of_le hn
    · intro l hl
      rcases List.mem_cons.mp hl with rfl | hl
      · exact ⟨Nat.le_refl _, hnew.older (unbound_newLabel pb)⟩
      · obtain ⟨hle, hu⟩ := hnew.fresh l hl
        rw [length_newLabel] at hle
        exact ⟨Nat.le_of_succ_le hle, hu⟩
    · refine List.nodup_cons.mpr ⟨fun hmem => ?_, hnew.nodup⟩
      have hle := (hnew.fresh _ hmem).1
      rw [length_newLabel] at hle
      exact Nat.not_succ_le_self _ hle
    · exact fun hu => hnew.older (unbound_older hu)

theorem grows_caseValues {selector : Reg} {label : Label} {values : List Expr}
    {pb pb' : ProgramBuilder} (h : cg.genCaseValues selector label values pb = some ((), pb'))
    (hw : Within cg pb.nRegs) : Grows pb.labels.length [label] pb pb' := by
  induction values generalizing pb with
  | nil =>
    obtain ⟨-, rfl⟩ := pure_eq_some.mp h
    exact .refl _ _ _
  | cons value values ih =>
    rw [CodeGen.genCaseValues] at h
    obtain ⟨candidate, pb₁, hc, h⟩ := bind_eq_some.mp h
    rw [bind_run (emitNew_run _), branchTrue_bind] at h
    obtain ⟨hg, -⟩ := (generates_expr value pb).grows hc hw
    have htest : Grows pb.labels.length [label] pb
        ((pb₁.newReg.2.emit (.logic pb₁.nRegs (.binary .eq selector candidate))).branchTrue
          pb₁.nRegs label) :=
      (hg.mono (Nat.le_refl _) (by simp)).trans <| (grows_newReg _ _ _).trans <|
        (grows_emit _ _ _ rfl).trans (grows_emitTo _ _ rfl List.mem_cons_self)
    exact htest.trans ((ih h (hw.mono htest.nRegs)).mono htest.labels fun _ hl => hl)

theorem grows_caseTests {selector : Reg} {items : List (List Expr × Stmt)} {labels : List Label}
    {pb pb' : ProgramBuilder} (h : cg.genCaseTests selector items labels pb = some ((), pb'))
    (hw : Within cg pb.nRegs) : Grows pb.labels.length labels pb pb' := by
  induction items generalizing labels pb with
  | nil =>
    rw [CodeGen.genCaseTests] at h
    · obtain ⟨-, rfl⟩ := pure_eq_some.mp h
      exact .refl _ _ _
    · exact fun _ _ _ _ _ he => nomatch he
  | cons item items ih =>
    cases labels with
    | nil =>
      rw [CodeGen.genCaseTests] at h
      · obtain ⟨-, rfl⟩ := pure_eq_some.mp h
        exact .refl _ _ _
      · exact fun _ _ _ _ _ _ he => nomatch he
    | cons label labels =>
      obtain ⟨values, body⟩ := item
      rw [CodeGen.genCaseTests] at h
      obtain ⟨⟨⟩, pb₁, hv, h⟩ := bind_eq_some.mp h
      have hg := grows_caseValues hv hw
      refine (hg.mono (Nat.le_refl _) (by simp)).trans ?_
      exact (ih h (hw.mono hg.nRegs)).mono hg.labels fun _ hl => List.mem_cons_of_mem _ hl

/-- The body of an item begins at its label and ends with a jump. -/
def Arm (cg : CodeGen) (loops : LoopTargets) (done : Label) (n : Nat) (pb' : ProgramBuilder)
    (body : Stmt) (label : Label) : Prop :=
  ∃ q loops₁ q', cg.genStmt body loops q = some (loops₁, q') ∧ n ≤ q.nRegs ∧
    pb'.Bound label q.code.length ∧ Extends (q'.jump done) pb'

/-- What the bodies of the items keep. -/
structure CaseBodies (cg : CodeGen) (items : List (List Expr × Stmt)) (labels : List Label)
    (done : Label) (loops : LoopTargets) (pb pb' : ProgramBuilder) : Prop where
  grows : ∀ {n}, (∀ l ∈ labels, n ≤ l) → n ≤ pb.labels.length →
    Grows n (done :: exits loops) pb pb'
  arms : ∀ item label, (item, label) ∈ items.zip labels →
    Arm cg loops done pb.nRegs pb' item.2 label
  other : ∀ {l}, pb.Unbound l → l ∉ labels → pb'.Unbound l

theorem Arm.extends {loops : LoopTargets} {done : Label} {n m : Nat} {pb pb' : ProgramBuilder}
    {body : Stmt} {label : Label} (h : Arm cg loops done n pb body label) (hx : Extends pb pb')
    (hm : m ≤ n) : Arm cg loops done m pb' body label := by
  obtain ⟨q, loops₁, q', hq, hn, hb, hj⟩ := h
  exact ⟨q, loops₁, q', hq, Nat.le_trans hm hn, hx.bound hb, hj.trans hx⟩

theorem lt_of_unbound {pb : ProgramBuilder} {l : Label} (h : pb.Unbound l) :
    l < pb.labels.length := (List.getElem?_eq_some_iff.mp h).1

theorem caseBodies_spec {items : List (List Expr × Stmt)} {labels : List Label} {done : Label}
    {loops loops' : LoopTargets} {pb pb' : ProgramBuilder}
    (h : cg.genCaseBodies items labels done loops pb = some (loops', pb'))
    (hk : ∀ item ∈ items, Keeps cg item.2) (hw : Within cg pb.nRegs) (hn : labels.Nodup)
    (hu : ∀ l ∈ labels, pb.Unbound l) (hlen : labels.length = items.length) :
    loops' = loops ∧ CaseBodies cg items labels done loops pb pb' := by
  induction items generalizing labels pb loops' with
  | nil =>
    rw [List.eq_nil_of_length_eq_zero hlen, CodeGen.genCaseBodies] at h
    · obtain ⟨rfl, rfl⟩ := pure_eq_some.mp h
      rw [List.eq_nil_of_length_eq_zero hlen]
      exact ⟨rfl, fun _ _ => .refl _ _ _, fun _ _ hmem => (List.not_mem_nil hmem).elim,
        fun hu _ => hu⟩
    · exact fun _ _ _ _ _ he => nomatch he
  | cons item items ih =>
    cases labels with
    | nil => exact absurd hlen (by simp)
    | cons label labels =>
      obtain ⟨values, body⟩ := item
      rw [CodeGen.genCaseBodies, bindLabel_bind] at h
      obtain ⟨loops₁, pb₁, hbody, hbodies⟩ := bind_eq_some.mp h
      rw [jump_bind] at hbodies
      have hul := hu label List.mem_cons_self
      obtain ⟨hnl, hnd⟩ := List.nodup_cons.mp hn
      obtain ⟨hloops, hg⟩ := hk _ List.mem_cons_self hbody hw
      rw [hloops] at hbodies
      rw [length_bind] at hg
      have hother : ∀ {l}, pb.Unbound l → l ≠ label → (pb₁.jump done).Unbound l := by
        intro l hl hne
        have h₁ : pb₁.Unbound l :=
          unbound_keep (unbound_bind hl (Ne.symm hne)) hg (lt_of_unbound hl)
        exact h₁
      have hlabels : ∀ l ∈ labels, (pb₁.jump done).Unbound l := fun l hl =>
        hother (hu l (List.mem_cons_of_mem _ hl)) fun he => hnl (he ▸ hl)
      obtain ⟨hl', hrest⟩ :=
        ih hbodies (fun i hi => hk i (List.mem_cons_of_mem _ hi)) (hw.mono hg.nRegs)
        hnd hlabels (Nat.succ.inj hlen)
      have hle : pb.labels.length ≤ pb₁.labels.length := by
        have := hg.labels
        rwa [length_bind] at this
      have hext : Extends (pb₁.jump done) pb' :=
        (hrest.grows (n := 0) (fun _ _ => Nat.zero_le _) (Nat.zero_le _)).toExtends
      refine ⟨hl', ?_, ?_, ?_⟩
      · intro n hnle hn
        have hjump : Grows n (done :: exits loops) pb₁ (pb₁.jump done) :=
          grows_emitTo _ _ rfl List.mem_cons_self
        refine (grows_bind _ hul (hnle label List.mem_cons_self)).trans <|
          (hg.mono hn fun _ hl => List.mem_cons_of_mem _ hl).trans (hjump.trans ?_)
        exact hrest.grows (fun l hl => hnle l (List.mem_cons_of_mem _ hl)) (Nat.le_trans hn hle)
      · intro item l hmem
        rw [List.zip_cons_cons] at hmem
        rcases List.mem_cons.mp hmem with heq | hmem
        · cases heq
          refine ⟨_, _, _, hbody, Nat.le_refl _, ?_, hext⟩
          exact hext.bound (((extends_emitTo _ _ _).bound (hg.bound (bound_bind hul))))
        · exact (hrest.arms item l hmem).extends (.refl _) hg.nRegs
      · intro l hl hmem
        rw [List.mem_cons, not_or] at hmem
        exact hrest.other (hother hl hmem.1) hmem.2

/-- The stages of a case statement up to the end of the item bodies; `exit` is where no item
matches, the end or the default. -/
structure CaseCode (cg : CodeGen) (selector : Expr) (items : List (List Expr × Stmt))
    (loops : LoopTargets) (pb : ProgramBuilder) where
  value : Reg
  (pb₁ pb₂ pb₃ pb₄ pb₅ : ProgramBuilder)
  labels : List Label
  exit : Label
  loops₁ : LoopTargets
  selectorCode : cg.genExpr selector pb = some (value, pb₁)
  newLabels : CodeGen.newLabels items.length pb₁.newLabel.2 = some (labels, pb₂)
  exit_eq : pb₃ = pb₂ ∧ exit = pb₁.labels.length ∨
    pb₃ = pb₂.newLabel.2 ∧ exit = pb₂.labels.length
  tests : cg.genCaseTests value items labels pb₃ = some ((), pb₄)
  bodies : cg.genCaseBodies items labels pb₁.labels.length loops (pb₄.jump exit) =
    some (loops₁, pb₅)

theorem caseCode {selector : Expr} {items : List (List Expr × Stmt)} {loops loops' : LoopTargets}
    {pb pb' : ProgramBuilder}
    (h : cg.genStmt (.case selector items none) loops pb = some (loops', pb')) :
    ∃ k : CaseCode cg selector items loops pb, k.exit = k.pb₁.labels.length ∧ loops' = k.loops₁ ∧
      pb' = k.pb₅.bind k.pb₁.labels.length := by
  simp only [CodeGen.genStmt] at h
  obtain ⟨value, pb₁, hs, h⟩ := bind_eq_some.mp h
  rw [newLabel_bind] at h
  obtain ⟨labels, pb₂, hl, h⟩ := bind_eq_some.mp h
  obtain ⟨⟨⟩, pb₄, ht, h⟩ := bind_eq_some.mp h
  rw [jump_bind] at h
  obtain ⟨loops₁, pb₅, hb, h⟩ := bind_eq_some.mp h
  rw [bindLabel_bind] at h
  obtain ⟨hloops, hp⟩ := pure_eq_some.mp h
  exact ⟨⟨value, pb₁, pb₂, pb₂, pb₄, pb₅, labels, _, loops₁, hs, hl, .inl ⟨rfl, rfl⟩, ht, hb⟩, rfl,
    hloops.symm, hp.symm⟩

theorem caseDefaultCode {selector : Expr} {items : List (List Expr × Stmt)} {default : Stmt}
    {loops loops' : LoopTargets} {pb pb' : ProgramBuilder}
    (h : cg.genStmt (.case selector items (some default)) loops pb = some (loops', pb')) :
    ∃ (k : CaseCode cg selector items loops pb) (loops₂ : LoopTargets) (pb₆ : ProgramBuilder),
      k.exit ≠ k.pb₁.labels.length ∧
      cg.genStmt default k.loops₁ (k.pb₅.bind k.exit) = some (loops₂, pb₆) ∧ loops' = loops₂ ∧
      pb' = pb₆.bind k.pb₁.labels.length := by
  simp only [CodeGen.genStmt] at h
  obtain ⟨value, pb₁, hs, h⟩ := bind_eq_some.mp h
  rw [newLabel_bind] at h
  obtain ⟨labels, pb₂, hl, h⟩ := bind_eq_some.mp h
  rw [newLabel_bind] at h
  obtain ⟨⟨⟩, pb₄, ht, h⟩ := bind_eq_some.mp h
  rw [jump_bind] at h
  obtain ⟨loops₁, pb₅, hb, h⟩ := bind_eq_some.mp h
  rw [bindLabel_bind] at h
  obtain ⟨loops₂, pb₆, hd, h⟩ := bind_eq_some.mp h
  rw [bindLabel_bind] at h
  obtain ⟨hloops, hp⟩ := pure_eq_some.mp h
  refine ⟨⟨value, pb₁, pb₂, _, pb₄, pb₅, labels, _, loops₁, hs, hl, .inr ⟨rfl, rfl⟩, ht, hb⟩,
    loops₂, pb₆, ?_, hd, hloops.symm, hp.symm⟩
  have hu := (newLabels_spec hl).2.older (unbound_newLabel pb₁)
  exact Nat.ne_of_gt (lt_of_unbound hu)

section Case

variable {selector : Expr} {items : List (List Expr × Stmt)} {loops : LoopTargets}
  {pb : ProgramBuilder} (k : CaseCode cg selector items loops pb)

/-- The label of the end. -/
def CaseCode.done : Label := k.pb₁.labels.length

theorem CaseCode.length_labels : k.labels.length = items.length := (newLabels_spec k.newLabels).1

theorem CaseCode.spec : NewLabels k.pb₁.newLabel.2 k.labels k.pb₂ := (newLabels_spec k.newLabels).2

theorem CaseCode.lt_label {l : Label} (hl : l ∈ k.labels) : k.done < l := by
  have h := (k.spec.fresh l hl).1
  rwa [length_newLabel] at h

theorem CaseCode.unbound_start {l : Label} (h : k.pb₂.Unbound l) : k.pb₃.Unbound l := by
  rcases k.exit_eq with ⟨he, -⟩ | ⟨he, -⟩
  · rwa [he]
  · rw [he]
    exact unbound_older h

theorem CaseCode.unbound_done : k.pb₃.Unbound k.done :=
  k.unbound_start (k.spec.older (unbound_newLabel k.pb₁))

theorem CaseCode.unbound_exit : k.pb₃.Unbound k.exit := by
  rcases k.exit_eq with ⟨-, he⟩ | ⟨hp, he⟩
  · rw [he]
    exact k.unbound_done
  · rw [he, hp]
    exact unbound_newLabel k.pb₂

theorem CaseCode.exit_not_label : k.exit ∉ k.labels := by
  intro hmem
  rcases k.exit_eq with ⟨-, he⟩ | ⟨-, he⟩
  · rw [he] at hmem
    exact Nat.lt_irrefl _ (k.lt_label hmem)
  · rw [he] at hmem
    exact Nat.lt_irrefl _ (lt_of_unbound (k.spec.fresh _ hmem).2)

theorem CaseCode.le_exit : k.done ≤ k.exit := by
  rcases k.exit_eq with ⟨-, he⟩ | ⟨-, he⟩
  · exact Nat.le_of_eq he.symm
  · rw [he]
    exact Nat.le_of_lt (lt_of_unbound (k.spec.older (unbound_newLabel k.pb₁)))

theorem CaseCode.code_start : k.pb₃.code = k.pb₁.code ∧ k.pb₃.nRegs = k.pb₁.nRegs := by
  rcases k.exit_eq with ⟨he, -⟩ | ⟨he, -⟩
  · rw [he]
    exact ⟨k.spec.code, k.spec.nRegs⟩
  · rw [he]
    exact ⟨k.spec.code, k.spec.nRegs⟩

theorem CaseCode.extends_start : Extends k.pb₁ k.pb₃ := by
  have h : Grows 0 [] k.pb₁.newLabel.2 k.pb₂ := k.spec.grows (Nat.zero_le _)
  have h₂ := (extends_newLabel k.pb₁).trans h.toExtends
  rcases k.exit_eq with ⟨he, -⟩ | ⟨he, -⟩
  · rwa [he]
  · rw [he]
    exact h₂.trans (extends_newLabel _)

/-- The labels of the statement. -/
def CaseCode.own : List Label := k.done :: k.exit :: k.labels

variable (hk : ∀ item ∈ items, Keeps cg item.2) (hw : Within cg pb.nRegs)
include hw

theorem CaseCode.grows_selector : Grows pb.labels.length [] pb k.pb₁ ∧ k.value < k.pb₁.nRegs :=
  (generates_expr selector pb).grows k.selectorCode hw

theorem CaseCode.grows_start : Grows pb.labels.length (k.own ++ exits loops) pb k.pb₃ := by
  obtain ⟨h, -⟩ := k.grows_selector hw
  have h₁ : pb.labels.length ≤ k.pb₁.newLabel.2.labels.length :=
    Nat.le_trans h.labels (extends_newLabel _).labels
  have h₂ : Grows pb.labels.length (k.own ++ exits loops) pb k.pb₂ :=
    (h.mono (Nat.le_refl _) (by simp)).trans ((grows_newLabel _ h.labels).trans (k.spec.grows h₁))
  rcases k.exit_eq with ⟨he, -⟩ | ⟨he, -⟩
  · rwa [he]
  · rw [he]
    exact h₂.trans (grows_newLabel _ h₂.labels)

theorem CaseCode.grows_tests : Grows k.pb₃.labels.length k.labels k.pb₃ k.pb₄ :=
  grows_caseTests k.tests (hw.mono (k.grows_start hw).nRegs)

theorem CaseCode.unbound_tests {l : Label} (h : k.pb₃.Unbound l) :
    (k.pb₄.jump k.exit).Unbound l := by
  have h₁ : k.pb₄.Unbound l := unbound_keep h (k.grows_tests hw) (lt_of_unbound h)
  exact h₁

theorem CaseCode.grows_toBodies :
    Grows pb.labels.length (k.own ++ exits loops) pb (k.pb₄.jump k.exit) := by
  have h := k.grows_start hw
  have hjump : Grows pb.labels.length (k.own ++ exits loops) k.pb₄ (k.pb₄.jump k.exit) :=
    grows_emitTo _ _ rfl (by simp [own])
  refine h.trans (((k.grows_tests hw).mono h.labels ?_).trans hjump)
  intro l hl
  exact List.mem_append_left _ (List.mem_cons_of_mem _ (List.mem_cons_of_mem _ hl))

include hk

theorem CaseCode.bodies_spec : k.loops₁ = loops ∧
    CaseBodies cg items k.labels k.done loops (k.pb₄.jump k.exit) k.pb₅ := by
  refine caseBodies_spec k.bodies hk (hw.mono (k.grows_toBodies hw).nRegs) k.spec.nodup ?_
    k.length_labels
  exact fun l hl => k.unbound_tests hw (k.unbound_start (k.spec.fresh l hl).2)

theorem CaseCode.grows_bodies :
    Grows pb.labels.length (k.own ++ exits loops) (k.pb₄.jump k.exit) k.pb₅ := by
  have hle := (k.grows_selector hw).1.labels
  refine ((k.bodies_spec hk hw).2.grows (n := pb.labels.length) ?_
    (k.grows_toBodies hw).labels).mono (Nat.le_refl _) ?_
  · exact fun l hl => Nat.le_trans hle (Nat.le_of_lt (k.lt_label hl))
  · intro l hl
    rcases List.mem_cons.mp hl with rfl | hl
    · simp [own]
    · exact List.mem_append_right _ hl

theorem CaseCode.unbound_last {l : Label} (h : k.pb₃.Unbound l) (hl : l ∉ k.labels) :
    k.pb₅.Unbound l := (k.bodies_spec hk hw).2.other (k.unbound_tests hw h) hl

theorem CaseCode.bound_label {l : Label} (hl : l ∈ k.labels) : ∃ target, k.pb₅.Bound l target := by
  obtain ⟨i, hi, rfl⟩ := List.mem_iff_getElem.mp hl
  have hi' : i < items.length := k.length_labels ▸ hi
  have hmem : (items[i], k.labels[i]) ∈ items.zip k.labels := by
    have hz : i < (items.zip k.labels).length := by
      rw [List.length_zip]
      exact Nat.lt_min.mpr ⟨hi', hi⟩
    rw [← List.getElem_zip (h := hz)]
    exact List.getElem_mem hz
  obtain ⟨q, _, _, _, _, hb, _⟩ := (k.bodies_spec hk hw).2.arms _ _ hmem
  exact ⟨q.code.length, hb⟩

end Case

theorem keeps_case {selector : Expr} {items : List (List Expr × Stmt)}
    (hk : ∀ item ∈ items, Keeps cg item.2) : Keeps cg (.case selector items none) := by
  intro loops pb loops' pb' h hw
  obtain ⟨k, hexit, rfl, rfl⟩ := caseCode h
  have hle := (k.grows_selector hw).1.labels
  have hd : k.pb₅.Unbound k.done := by
    refine k.unbound_last hk hw k.unbound_done ?_
    exact fun hmem => Nat.lt_irrefl _ (k.lt_label hmem)
  have hlast : Grows pb.labels.length (k.own ++ exits loops) k.pb₅ (k.pb₅.bind k.done) :=
    grows_bind _ hd hle
  refine ⟨(k.bodies_spec hk hw).1, ?_⟩
  refine ((k.grows_toBodies hw).trans ((k.grows_bodies hk hw).trans hlast)).close ?_
  intro l hl
  simp only [CaseCode.own, List.mem_cons] at hl
  rcases hl with rfl | rfl | hl
  · exact ⟨_, bound_bind hd⟩
  · rw [hexit]
    exact ⟨_, bound_bind hd⟩
  · obtain ⟨target, hb⟩ := k.bound_label hk hw hl
    exact ⟨target, hlast.bound hb⟩

section CaseDefault

variable {selector : Expr} {items : List (List Expr × Stmt)} {default : Stmt}
  {loops loops₂ : LoopTargets} {pb pb₆ : ProgramBuilder} (k : CaseCode cg selector items loops pb)
  (hk : ∀ item ∈ items, Keeps cg item.2) (hdef : Keeps cg default) (hw : Within cg pb.nRegs)
  (hne : k.exit ≠ k.done) (h : cg.genStmt default k.loops₁ (k.pb₅.bind k.exit) = some (loops₂, pb₆))
include hk hw

theorem CaseCode.unbound_exit' : k.pb₅.Unbound k.exit :=
  k.unbound_last hk hw k.unbound_exit k.exit_not_label

theorem CaseCode.grows_toDefault :
    Grows pb.labels.length (k.own ++ exits loops) pb (k.pb₅.bind k.exit) := by
  have hle := Nat.le_trans (k.grows_selector hw).1.labels k.le_exit
  exact (k.grows_toBodies hw).trans ((k.grows_bodies hk hw).trans
    (grows_bind _ (k.unbound_exit' hk hw) hle))

include hdef h

theorem CaseCode.grows_default : loops₂ = loops ∧
    Grows k.pb₅.labels.length (exits loops) (k.pb₅.bind k.exit) pb₆ := by
  have hd := hdef h (hw.mono (k.grows_toDefault hk hw).nRegs)
  rwa [length_bind, (k.bodies_spec hk hw).1] at hd

include hne

theorem CaseCode.unbound_done' : pb₆.Unbound k.done := by
  have hd : k.pb₅.Unbound k.done := by
    refine k.unbound_last hk hw k.unbound_done ?_
    exact fun hmem => Nat.lt_irrefl _ (k.lt_label hmem)
  exact unbound_keep (unbound_bind hd hne) (k.grows_default hk hdef hw h).2 (lt_of_unbound hd)

theorem CaseCode.grows_fromDefault : Grows pb.labels.length (k.own ++ exits loops)
    (k.pb₅.bind k.exit) (pb₆.bind k.done) := by
  have hle := (k.grows_toDefault hk hw).labels
  rw [length_bind] at hle
  refine ((k.grows_default hk hdef hw h).2.mono hle ?_).trans
    (grows_bind _ (k.unbound_done' hk hdef hw hne h) (k.grows_selector hw).1.labels)
  exact fun _ hl => List.mem_append_right _ hl

end CaseDefault

theorem keeps_caseDefault {selector : Expr} {items : List (List Expr × Stmt)} {default : Stmt}
    (hk : ∀ item ∈ items, Keeps cg item.2) (hdef : Keeps cg default) :
    Keeps cg (.case selector items (some default)) := by
  intro loops pb loops' pb' h hw
  obtain ⟨k, loops₂, pb₆, hne, hcode, rfl, rfl⟩ := caseDefaultCode h
  have hlast := k.grows_fromDefault hk hdef hw hne hcode
  have hexit := bound_bind (k.unbound_exit' hk hw)
  refine ⟨(k.grows_default hk hdef hw hcode).1, ?_⟩
  refine ((k.grows_toDefault hk hw).trans hlast).close ?_
  intro l hl
  simp only [CaseCode.own, List.mem_cons] at hl
  rcases hl with rfl | rfl | hl
  · exact ⟨_, bound_bind (k.unbound_done' hk hdef hw hne hcode)⟩
  · exact ⟨_, hlast.bound hexit⟩
  · obtain ⟨target, hb⟩ := k.bound_label hk hw hl
    exact ⟨target, hlast.bound ((extends_bind (k.unbound_exit' hk hw)).bound hb)⟩

/-! ### Other statements -/

theorem keeps_block {stmts : List Stmt} (h : ∀ s ∈ stmts, Keeps cg s) :
    Keeps cg (.block stmts) := by
  intro loops pb loops' pb' hs hw
  simp only [CodeGen.genStmt] at hs
  induction stmts generalizing pb with
  | nil =>
    simp only [CodeGen.genStmts] at hs
    obtain ⟨rfl, rfl⟩ := pure_eq_some.mp hs
    exact ⟨rfl, .refl _ _ _⟩
  | cons s stmts ih =>
    simp only [CodeGen.genStmts] at hs
    obtain ⟨loops₁, pb₁, hfirst, hrest⟩ := bind_eq_some.mp hs
    obtain ⟨rfl, hg⟩ := h s List.mem_cons_self hfirst hw
    obtain ⟨hl, hg'⟩ := ih (fun s hs => h s (List.mem_cons_of_mem _ hs)) hrest (hw.mono hg.nRegs)
    exact ⟨hl, hg.trans (hg'.mono hg.labels fun _ h => h)⟩

theorem keeps_blocking (lhs : String) (rhs : Expr) : Keeps cg (.blocking lhs rhs) := by
  intro loops pb loops' pb' h hw
  simp only [CodeGen.genStmt] at h
  obtain ⟨src, pb₁, hrhs, h⟩ := bind_eq_some.mp h
  obtain ⟨⟨⟩, pb₂, hassign, h⟩ := bind_eq_some.mp h
  obtain ⟨rfl, rfl⟩ := pure_eq_some.mp h
  obtain ⟨hg, -⟩ := (generates_assignmentRhs lhs rhs pb).grows hrhs hw
  refine ⟨rfl, (hg.mono (Nat.le_refl _) (by simp)).trans ?_⟩
  unfold CodeGen.genAssign at hassign
  cases hl : cg.locals lhs with
  | none =>
    rw [hl] at hassign
    cases hassign
  | some entry =>
    rw [hl] at hassign
    cases hassign
    exact grows_emit _ _ _ rfl

theorem keeps_ret (value : Option Expr) : Keeps cg (.ret value) := by
  intro loops pb loops' pb' h hw
  cases value with
  | none =>
    simp only [CodeGen.genStmt, emit_bind] at h
    obtain ⟨rfl, rfl⟩ := pure_eq_some.mp h
    exact ⟨rfl, grows_emit _ _ _ rfl⟩
  | some e =>
    simp only [CodeGen.genStmt] at h
    obtain ⟨r, pb₁, he, h⟩ := bind_eq_some.mp h
    rw [emit_bind] at h
    obtain ⟨rfl, rfl⟩ := pure_eq_some.mp h
    obtain ⟨hg, -⟩ := (generates_returnValue e pb).grows he hw
    exact ⟨rfl, (hg.mono (Nat.le_refl _) (by simp)).trans (grows_emit _ _ _ rfl)⟩

theorem keeps_break : Keeps cg .breakLoop := by
  intro loops pb loops' pb' h _
  cases loops with
  | nil => cases h
  | cons entry loops =>
    simp only [CodeGen.genStmt, jump_bind] at h
    obtain ⟨rfl, rfl⟩ := pure_eq_some.mp h
    exact ⟨rfl, grows_emitTo _ _ rfl (by simp [exits])⟩

theorem keeps_continue : Keeps cg .continueLoop := by
  intro loops pb loops' pb' h _
  cases loops with
  | nil => cases h
  | cons entry loops =>
    simp only [CodeGen.genStmt, jump_bind] at h
    obtain ⟨rfl, rfl⟩ := pure_eq_some.mp h
    exact ⟨rfl, grows_emitTo _ _ rfl (by simp [exits])⟩

theorem keeps (s : Stmt) : Keeps cg s := by
  induction s with
  | block stmts ih => exact keeps_block ih
  | blocking lhs rhs => exact keeps_blocking lhs rhs
  | ifElse cond thenBranch elseBranch iht ihe =>
    cases elseBranch with
    | none => exact keeps_if iht
    | some elseBranch => exact keeps_ifElse iht (ihe _ rfl)
  | whileLoop cond body ih => exact keeps_while ih
  | doWhile cond body ih => exact keeps_doWhile ih
  | case selector items default ihi ihd =>
    cases default with
    | none => exact keeps_case ihi
    | some default => exact keeps_caseDefault ihi (ihd _ rfl)
  | ret value => exact keeps_ret value
  | breakLoop => exact keeps_break
  | continueLoop => exact keeps_continue

end Eevee.Elab.StmtCode
