/- The code of a statement runs as the statement evaluates. -/

import Mathlib.Data.List.Basic
import Mathlib.Tactic.Common
import Eevee.Elab.StmtCode

set_option autoImplicit false
set_option relaxedAutoImplicit false

namespace Eevee.Elab.ControlFlow

open Eevee.Ast.Syntax
open Eevee.Ast.Stmts
open Eevee.Core.Logic
open Eevee.Ir.Inst
open Eevee.Ir.Values
open Eevee.Ir.Builder
open Eevee.Ir.Emission
open Eevee.Ir.Interp
open Eevee.Lib.Machine
open Eevee.Elab.Generator
open Eevee.Elab.Evaluation
open Eevee.Elab.ExprCode
open Eevee.Elab.StmtCode

/-- The frame stands at a code position, with the locals as in `σ` and room for all registers. -/
structure Stands (cg : CodeGen) (F : ProgramBuilder) (pc : Nat) (σ : Store) (f : Frame) : Prop where
  pc : f.pc = pc
  agrees : Agrees cg σ f.regs
  room : F.nRegs ≤ f.regs.length

section Runs

variable (cg : CodeGen) (F : ProgramBuilder) (P : Program) (W : World)

/-- In at least `n` steps the machine comes to stand at a code position. -/
def Arrives (n : Nat) (f : Frame) (pc : Nat) (σ : Store) : Prop :=
  ∃ k f', n ≤ k ∧ Runs (step P W) k f f' ∧ Stands cg F pc σ f'

def Panics (f : Frame) : Prop := ∃ k last, Halts (step P W) k f last .panic

/-- The machine makes at least `n` steps. -/
def Lasts (n : Nat) (f : Frame) : Prop := ∃ k f', n ≤ k ∧ Runs (step P W) k f f'

/-- The machine does what the completion says: it reaches the end of the code or a target of the
innermost loop, or it halts. -/
def Completes (loops : LoopTargets) (pc : Nat) (f : Frame) : Completion → Prop
  | .normal σ => Arrives cg F P W 0 f pc σ
  | .breakLoop σ => ∃ l l' rest target, loops = (l, l') :: rest ∧ F.Bound l target ∧
      Arrives cg F P W 0 f target σ
  | .continueLoop σ => ∃ l l' rest target, loops = (l, l') :: rest ∧ F.Bound l' target ∧
      Arrives cg F P W 0 f target σ
  | .returned value σ => ∃ k last, Halts (step P W) k f last (.returned value) ∧
      Agrees cg σ last.regs
  | .panic => Panics P W f

/-- An evaluation that ends tells what the machine does; one that exceeds its bound, that the
machine makes at least `n` steps. -/
def Follows (n : Nat) (loops : LoopTargets) (pc : Nat) (f : Frame) : Option Completion → Prop
  | some c => Completes cg F P W loops pc f c
  | none => Lasts P W n f

/-- The machine branches on a value, or panics where there is none. -/
def Branches (f : Frame) (σ : Store) (onTrue onFalse : Nat) : Option Value → Prop
  | some v => Arrives cg F P W 1 f (if v.truthy then onTrue else onFalse) σ
  | none => Panics P W f

end Runs

/-! ### Composing runs -/

section Compose

variable {cg : CodeGen} {F : ProgramBuilder} {P : Program} {W : World} {loops : LoopTargets}
  {pc pc' n k : Nat} {f f' : Frame} {σ : Store} {c : Completion} {oc : Option Completion}

theorem Stands.arrives (h : Stands cg F pc σ f) : Arrives cg F P W 0 f pc σ :=
  ⟨0, f, Nat.le_refl 0, .refl f, h⟩

theorem Stands.follows (h : Stands cg F pc σ f) :
    Follows cg F P W n loops pc f (some (.normal σ)) := h.arrives

theorem Arrives.prepend (hrun : Runs (step P W) k f f') (h : Arrives cg F P W n f' pc σ) :
    Arrives cg F P W (k + n) f pc σ := by
  obtain ⟨k', f'', hk, hrun', hs⟩ := h
  exact ⟨k + k', f'', Nat.add_le_add_left hk k, hrun.trans hrun', hs⟩

theorem Arrives.mono {m : Nat} (h : Arrives cg F P W n f pc σ) (hm : m ≤ n) :
    Arrives cg F P W m f pc σ := by
  obtain ⟨k, f', hk, hrun, hs⟩ := h
  exact ⟨k, f', Nat.le_trans hm hk, hrun, hs⟩

/-- A further step that changes the code position only. -/
theorem Arrives.goto (h : Arrives cg F P W n f pc σ)
    (hstep : ∀ regs, step P W ⟨pc, regs⟩ = .next ⟨pc', regs⟩) :
    Arrives cg F P W (n + 1) f pc' σ := by
  obtain ⟨k, ⟨_, regs⟩, hk, hrun, ⟨rfl, ha, hroom⟩⟩ := h
  exact ⟨k + 1, ⟨pc', regs⟩, Nat.succ_le_succ hk, hrun.trans (.single (hstep regs)), rfl, ha, hroom⟩

theorem Lasts.prepend (hrun : Runs (step P W) k f f') (h : Lasts P W n f') :
    Lasts P W (k + n) f := by
  obtain ⟨k', f'', hk, hrun'⟩ := h
  exact ⟨k + k', f'', Nat.add_le_add_left hk k, hrun.trans hrun'⟩

theorem Lasts.mono {m : Nat} (h : Lasts P W n f) (hm : m ≤ n) : Lasts P W m f := by
  obtain ⟨k, f', hk, hrun⟩ := h
  exact ⟨k, f', Nat.le_trans hm hk, hrun⟩

theorem Panics.prepend (hrun : Runs (step P W) k f f') (h : Panics P W f') : Panics P W f := by
  obtain ⟨k', last, hh⟩ := h
  exact ⟨k + k', last, hh.prepend hrun⟩

theorem Completes.prepend (hrun : Runs (step P W) k f f') (h : Completes cg F P W loops pc f' c) :
    Completes cg F P W loops pc f c := by
  have harrive : ∀ {pc σ}, Arrives cg F P W 0 f' pc σ → Arrives cg F P W 0 f pc σ :=
    fun ha => (Arrives.prepend hrun ha).mono (Nat.zero_le _)
  cases c with
  | normal σ => exact harrive h
  | breakLoop σ =>
    obtain ⟨l, l', rest, target, hloops, hb, ha⟩ := h
    exact ⟨l, l', rest, target, hloops, hb, harrive ha⟩
  | continueLoop σ =>
    obtain ⟨l, l', rest, target, hloops, hb, ha⟩ := h
    exact ⟨l, l', rest, target, hloops, hb, harrive ha⟩
  | returned value σ =>
    obtain ⟨k', last, hh, ha⟩ := h
    exact ⟨k + k', last, hh.prepend hrun, ha⟩
  | panic => exact Panics.prepend hrun h

theorem Follows.prepend (hrun : Runs (step P W) k f f') (h : Follows cg F P W n loops pc f' oc) :
    Follows cg F P W (k + n) loops pc f oc := by
  cases oc with
  | none => exact Lasts.prepend hrun h
  | some c => exact Completes.prepend hrun h

theorem Follows.mono {m : Nat} (h : Follows cg F P W n loops pc f oc) (hm : m ≤ n) :
    Follows cg F P W m loops pc f oc := by
  cases oc with
  | none => exact Lasts.mono h hm
  | some c => exact h

theorem Arrives.follows {m : Nat} (h : Arrives cg F P W m f pc σ)
    (hnext : ∀ f', Stands cg F pc σ f' → Follows cg F P W n loops pc' f' oc) :
    Follows cg F P W (m + n) loops pc' f oc := by
  obtain ⟨k, f', hk, hrun, hs⟩ := h
  exact (Follows.prepend hrun (hnext f' hs)).mono (Nat.add_le_add_right hk n)

/-- The end of the code is followed by a step that changes the code position only. -/
theorem Follows.goto (h : Follows cg F P W n loops pc f oc)
    (hstep : ∀ regs, step P W ⟨pc, regs⟩ = .next ⟨pc', regs⟩) :
    Follows cg F P W n loops pc' f oc := by
  cases oc with
  | none => exact h
  | some c =>
    cases c with
    | normal σ => exact (Arrives.goto h hstep).mono (Nat.zero_le _)
    | breakLoop σ => exact h
    | continueLoop σ => exact h
    | returned value σ => exact h
    | panic => exact h

theorem Follows.andThen {rest : Store → Option Completion}
    (h : Follows cg F P W n loops pc f oc)
    (hrest : ∀ σ f', Stands cg F pc σ f' → Follows cg F P W n loops pc' f' (rest σ)) :
    Follows cg F P W n loops pc' f (Completion.andThen oc rest) := by
  cases oc with
  | none => exact h
  | some c =>
    cases c with
    | normal σ => exact (Arrives.follows h (hrest σ)).mono (Nat.le_add_left _ _)
    | breakLoop σ => exact h
    | continueLoop σ => exact h
    | returned value σ => exact h
    | panic => exact h

/-- The body of a loop goes on at the continue target or leaves at the break target. -/
theorem Follows.loop {l l' : Label} {next : Nat} {rest : Store → Option Completion}
    (h : Follows cg F P W n ((l, l') :: loops) next f oc) (hnext : F.Bound l' next)
    (hdone : F.Bound l pc')
    (hrest : ∀ σ f', Stands cg F next σ f' → Follows cg F P W n loops pc' f' (rest σ)) :
    Follows cg F P W n loops pc' f (Completion.loop oc rest) := by
  have hgo : ∀ {σ}, Arrives cg F P W 0 f next σ → Follows cg F P W n loops pc' f (rest σ) :=
    fun ha => (Arrives.follows ha (hrest _)).mono (Nat.le_add_left _ _)
  cases oc with
  | none => exact h
  | some c =>
    cases c with
    | normal σ => exact hgo h
    | breakLoop σ =>
      obtain ⟨l, l', rest, target, hloops, hb, ha⟩ := h
      cases hloops
      rw [hb.unique hdone] at ha
      exact ha
    | continueLoop σ =>
      obtain ⟨l, l', rest, target, hloops, hb, ha⟩ := h
      cases hloops
      rw [hb.unique hnext] at ha
      exact hgo ha
    | returned value σ => exact h
    | panic => exact h

theorem Branches.follows {onTrue onFalse : Nat} {value : Option Value} {ot of : Option Completion}
    (h : Branches cg F P W f σ onTrue onFalse value)
    (htrue : ∀ f', Stands cg F onTrue σ f' → Follows cg F P W n loops pc f' ot)
    (hfalse : ∀ f', Stands cg F onFalse σ f' → Follows cg F P W n loops pc f' of) :
    Follows cg F P W (n + 1) loops pc f (onCondition value ot of) := by
  cases value with
  | none => exact h
  | some v =>
    rw [Nat.add_comm]
    have ha : Arrives cg F P W 1 f (if v.truthy then onTrue else onFalse) σ := h
    show Follows cg F P W _ loops pc f (if v.truthy then ot else of)
    by_cases hv : v.truthy = true
    · rw [if_pos hv] at ha ⊢
      exact ha.follows htrue
    · rw [if_neg hv] at ha ⊢
      exact ha.follows hfalse

end Compose

/-! ### Conditions -/

section Conditions

variable {cg : CodeGen} {F pb pb₁ : ProgramBuilder} {P : Program} {W : World} {f : Frame}
    {σ : Store}
  (hb : Built F P)
include hb

theorem bound_jump {l : Label} {inst : Inst} (hx : Extends (pb.emitTo inst l) F) :
    ∃ target, F.Bound l target := by
  have hp : (pb.code.length, l) ∈ F.patches :=
    hx.patches (List.mem_append_right _ List.mem_cons_self)
  have hi : F.code[pb.code.length]? = some inst :=
    getElem?_of_prefix hx.code (List.getElem?_concat_length ..)
  obtain ⟨target, hl, -⟩ := F.build_jump hb.wf hb.build hi hp
  exact ⟨target, hl⟩

/-- The code of a value runs where the frame stands. -/
theorem delivers_at {pre : List Value → Prop} {m : Emit Reg}
    {value : World → Store → Option Value} {r : Reg} (hm : Generates cg pb pre m value)
    (h : m pb = some (r, pb₁)) (hw : Within cg pb.nRegs) (hx : Extends pb₁ F)
    (hf : Stands cg F pb.code.length σ f) (hpre : pre f.regs) :
    Delivers P W f pb₁.code.length pb.nRegs (fun regs v => regs[r]? = some v) (value W σ) := by
  obtain ⟨pc, regs⟩ := f
  obtain ⟨rfl, ha, hroom⟩ := hf
  exact hm.delivers h hw hx hb ha hpre (Nat.le_trans hx.nRegs hroom)

/-- The value of a condition is followed by a branch. -/
theorem branches_of {e : Expr} {r : Reg} {onTrue onFalse : Nat}
    (h : cg.genExpr e pb = some (r, pb₁)) (hw : Within cg pb.nRegs) (hx : Extends pb₁ F)
    (hf : Stands cg F pb.code.length σ f)
    (hstep : ∀ regs v, regs[r]? = some v → step P W ⟨pb₁.code.length, regs⟩ =
      .next ⟨if v.truthy then onTrue else onFalse, regs⟩) :
    Branches cg F P W f σ onTrue onFalse (evalExpr cg W σ e) := by
  have hd := delivers_at hb (W := W) (generates_expr e pb) h hw hx hf trivial
  cases hv : evalExpr cg W σ e with
  | none =>
    rw [hv] at hd
    exact hd
  | some v =>
    rw [hv] at hd
    obtain ⟨k, regs, hrun, hr, hs⟩ := hd
    refine ⟨k + 1, _, Nat.le_add_left 1 k, hrun.trans (.single (hstep regs v hr)), rfl, ?_, ?_⟩
    · exact Agrees.same hf.agrees hw hs
    · exact hs.length ▸ hf.room

theorem branches_true {e : Expr} {r : Reg} {l : Label} {target : Nat}
    (h : cg.genExpr e pb = some (r, pb₁)) (hw : Within cg pb.nRegs)
    (hx : Extends (pb₁.branchTrue r l) F) (hl : F.Bound l target)
    (hf : Stands cg F pb.code.length σ f) :
    Branches cg F P W f σ target (pb₁.code.length + 1) (evalExpr cg W σ e) := by
  refine branches_of hb h hw ((extends_emitTo _ _ _).trans hx) hf ?_
  exact fun _ _ hr => step_branchTrue hb hx hl hr

theorem branches_false {e : Expr} {r : Reg} {q : ProgramBuilder} {l : Label} {target : Nat}
    (h : cg.genExpr e pb = some (r, pb₁)) (hw : Within cg pb.nRegs) (hq : Extends pb₁ q)
    (hcode : q.code = pb₁.code) (hx : Extends (q.branchFalse r l) F) (hl : F.Bound l target)
    (hf : Stands cg F pb.code.length σ f) :
    Branches cg F P W f σ (q.branchFalse r l).code.length target (evalExpr cg W σ e) := by
  have hlen : (q.branchFalse r l).code.length = q.code.length + 1 := List.length_append
  refine branches_of hb h hw (hq.trans ((extends_emitTo _ _ _).trans hx)) hf ?_
  intro regs v hr
  rw [hlen, ← hcode]
  exact step_branchFalse hb hx hl hr

end Conditions

/-! ### Statements -/

/-- Under this bound, the evaluation of the statement tells what its code does. -/
def Simulates (cg : CodeGen) (F : ProgramBuilder) (P : Program) (W : World) (fuel : Nat)
    (s : Stmt) : Prop :=
  ∀ {loops pb loops' pb' σ f}, cg.genStmt s loops pb = some (loops', pb') → Within cg pb.nRegs →
    Extends pb' F → Stands cg F pb.code.length σ f →
    Follows cg F P W (fuel - sizeOf s) loops pb'.code.length f (exec cg W fuel s σ)

section Statements

variable {cg : CodeGen} {F : ProgramBuilder} {P : Program} {W : World} {fuel : Nat}

/-- A part of a statement has a smaller size, so its runs are long enough for the whole. -/
theorem Simulates.part {s : Stmt} (h : Simulates cg F P W fuel s) (s' : Stmt)
    (hsize : sizeOf s < sizeOf s')
    {loops loops' : LoopTargets} {pb pb' : ProgramBuilder} {σ : Store} {f : Frame}
    (hs : cg.genStmt s loops pb = some (loops', pb')) (hw : Within cg pb.nRegs)
    (hx : Extends pb' F) (hf : Stands cg F pb.code.length σ f) :
    Follows cg F P W (fuel + 1 - sizeOf s') loops pb'.code.length f (exec cg W fuel s σ) := by
  refine (h hs hw hx hf).mono ?_
  rw [← Nat.succ_sub_succ fuel (sizeOf s)]
  exact Nat.sub_le_sub_left hsize _

theorem follows_stmts {n : Nat} {stmts : List Stmt}
    (ih : ∀ s ∈ stmts, Simulates cg F P W fuel s ∧ n ≤ fuel - sizeOf s)
    {loops loops' : LoopTargets} {pb pb' : ProgramBuilder} {σ : Store} {f : Frame}
    (h : cg.genStmts stmts loops pb = some (loops', pb')) (hw : Within cg pb.nRegs)
    (hx : Extends pb' F) (hf : Stands cg F pb.code.length σ f) :
    Follows cg F P W n loops pb'.code.length f (execStmts (exec cg W fuel) stmts σ) := by
  induction stmts generalizing pb σ f with
  | nil =>
    simp only [CodeGen.genStmts] at h
    obtain ⟨-, rfl⟩ := pure_eq_some.mp h
    exact hf.arrives
  | cons s stmts ihs =>
    simp only [CodeGen.genStmts] at h
    obtain ⟨loops₁, pb₁, hfirst, hrest⟩ := bind_eq_some.mp h
    obtain ⟨rfl, hg⟩ := keeps s hfirst hw
    have hw₁ : Within cg pb₁.nRegs := hw.mono hg.nRegs
    have hblock : cg.genStmt (.block stmts) loops₁ pb₁ = some (loops', pb') := by
      simp only [CodeGen.genStmt]
      exact hrest
    have hx₁ := (keeps _ hblock hw₁).2.toExtends.trans hx
    obtain ⟨hsim, hn⟩ := ih s List.mem_cons_self
    refine ((hsim hfirst hw hx₁ hf).mono hn).andThen ?_
    intro σ' f' hf'
    exact ihs (fun s hs => ih s (List.mem_cons_of_mem _ hs)) hrest hw₁ hf'

theorem simulates_block {stmts : List Stmt} (ih : ∀ s ∈ stmts, Simulates cg F P W fuel s) :
    Simulates cg F P W (fuel + 1) (.block stmts) := by
  intro loops pb loops' pb' σ f h hw hx hf
  simp only [CodeGen.genStmt] at h
  refine follows_stmts (fun s hs => ⟨ih s hs, ?_⟩) h hw hx hf
  have hsize := List.sizeOf_lt_of_mem hs
  simp only [Stmt.block.sizeOf_spec]
  omega

variable (hb : Built F P)
include hb

theorem simulates_blocking (hd : Distinct cg) {lhs : String} {rhs : Expr} :
    Simulates cg F P W (fuel + 1) (.blocking lhs rhs) := by
  intro loops pb loops' pb' σ f h hw hx hf
  simp only [CodeGen.genStmt] at h
  obtain ⟨src, pb₁, hrhs, h⟩ := bind_eq_some.mp h
  obtain ⟨⟨⟩, pb₂, hassign, h⟩ := bind_eq_some.mp h
  obtain ⟨rfl, rfl⟩ := pure_eq_some.mp h
  unfold CodeGen.genAssign at hassign
  cases hl : cg.locals lhs with
  | none =>
    rw [hl] at hassign
    cases hassign
  | some entry =>
    obtain ⟨reg, width⟩ := entry
    rw [hl] at hassign
    cases hassign
    have hx₁ : Extends pb₁ F := (extends_emit _ _).trans hx
    have hv := delivers_at hb (W := W) (generates_assignmentRhs lhs rhs pb) hrhs hw hx₁ hf trivial
    simp only [exec]
    cases hval : evalAssignmentRhs cg W σ lhs rhs with
    | none =>
      rw [hval] at hv
      exact hv
    | some v =>
      rw [hval] at hv
      obtain ⟨k, regs, hrun, hr, hs⟩ := hv
      have ha : Agrees cg σ regs := Agrees.same hf.agrees hw hs
      have hlt : reg < regs.length := (List.getElem?_eq_some_iff.mp (ha hl)).1
      have hi : P.code[pb₁.code.length]? = some (.assign reg src) := hb.code_emit hx rfl
      have hstep : step P W ⟨pb₁.code.length, regs⟩ =
          .next ⟨pb₁.code.length + 1, regs.set reg v⟩ := by
        rw [step_computed (f := ⟨pb₁.code.length, regs⟩) hi rfl, hr]
        exact if_pos hlt
      refine ⟨k + 1, _, Nat.zero_le _, hrun.trans (.single hstep), ?_, ha.assign hd hl v, ?_⟩
      · show pb₁.code.length + 1 = (pb₁.code ++ [_]).length
        rw [List.length_append]
        rfl
      · rw [List.length_set, hs.length]
        exact hf.room

theorem simulates_ret {value : Option Expr} : Simulates cg F P W (fuel + 1) (.ret value) := by
  intro loops pb loops' pb' σ f h hw hx hf
  cases value with
  | none =>
    simp only [CodeGen.genStmt, emit_bind] at h
    obtain ⟨rfl, rfl⟩ := pure_eq_some.mp h
    obtain ⟨pc, regs⟩ := f
    obtain ⟨rfl, ha, -⟩ := hf
    have hi : P.code[pb.code.length]? = some .returnVoid := hb.code_emit hx rfl
    exact ⟨0, _, ⟨.refl _, step_returnVoid hi⟩, ha⟩
  | some e =>
    simp only [CodeGen.genStmt] at h
    obtain ⟨r, pb₁, he, h⟩ := bind_eq_some.mp h
    rw [emit_bind] at h
    obtain ⟨rfl, rfl⟩ := pure_eq_some.mp h
    have hx₁ : Extends pb₁ F := (extends_emit _ _).trans hx
    have hv := delivers_at hb (W := W) (generates_returnValue e pb) he hw hx₁ hf trivial
    simp only [exec]
    cases hval : evalReturnValue cg W σ e with
    | none =>
      rw [hval] at hv
      exact hv
    | some v =>
      rw [hval] at hv
      obtain ⟨k, regs, hrun, hr, hs⟩ := hv
      have hi : P.code[pb₁.code.length]? = some (.ret r) := hb.code_emit hx rfl
      exact ⟨k, _, ⟨hrun, step_ret hi hr⟩, Agrees.same hf.agrees hw hs⟩

theorem simulates_break : Simulates cg F P W (fuel + 1) .breakLoop := by
  intro loops pb loops' pb' σ f h hw hx hf
  cases loops with
  | nil => cases h
  | cons entry loops =>
    simp only [CodeGen.genStmt, jump_bind] at h
    obtain ⟨rfl, rfl⟩ := pure_eq_some.mp h
    obtain ⟨target, hl⟩ := bound_jump hb hx
    have ha := (hf.arrives (P := P) (W := W)).goto fun _ => step_jump hb hx hl
    exact ⟨_, _, _, target, rfl, hl, ha.mono (Nat.zero_le _)⟩

theorem simulates_continue : Simulates cg F P W (fuel + 1) .continueLoop := by
  intro loops pb loops' pb' σ f h hw hx hf
  cases loops with
  | nil => cases h
  | cons entry loops =>
    simp only [CodeGen.genStmt, jump_bind] at h
    obtain ⟨rfl, rfl⟩ := pure_eq_some.mp h
    obtain ⟨target, hl⟩ := bound_jump hb hx
    have ha := (hf.arrives (P := P) (W := W)).goto fun _ => step_jump hb hx hl
    exact ⟨_, _, _, target, rfl, hl, ha.mono (Nat.zero_le _)⟩

theorem simulates_if {cond : Expr} {thenBranch : Stmt} (ih : Simulates cg F P W fuel thenBranch) :
    Simulates cg F P W (fuel + 1) (.ifElse cond thenBranch none) := by
  intro loops pb loops' pb' σ f h hw hx hf
  obtain ⟨k, rfl, rfl⟩ := ifCode h
  have ht : Keeps cg thenBranch := keeps thenBranch
  have hu := k.unbound_else ht hw
  have hxt : Extends k.pb₂ F := (extends_bind hu).trans hx
  have hxc : Extends k.atThen F := (k.grows_then ht hw).2.toExtends.trans hxt
  have hbranch := branches_false hb (W := W) k.condition hw (extends_newLabel k.pb₁) rfl hxc
    (hx.bound (bound_bind hu)) hf
  simp only [exec]
  refine (hbranch.follows (fun f' hf' => ?_) fun f' hf' => hf'.follows).mono (Nat.le_succ _)
  have hwt : Within cg k.atThen.nRegs := hw.mono (k.grows_atThen hw).nRegs
  have hsize : sizeOf thenBranch < sizeOf (Stmt.ifElse cond thenBranch none) := by
    simp only [Stmt.ifElse.sizeOf_spec]
    omega
  have hthen := ih.part _ hsize k.thenCode hwt hxt hf'
  exact hthen

theorem simulates_ifElse {cond : Expr} {thenBranch elseBranch : Stmt}
    (iht : Simulates cg F P W fuel thenBranch) (ihe : Simulates cg F P W fuel elseBranch) :
    Simulates cg F P W (fuel + 1) (.ifElse cond thenBranch (some elseBranch)) := by
  intro loops pb loops' pb' σ f h hw hx hf
  obtain ⟨k, loops₂, pb₃, hcode, rfl, rfl⟩ := ifElseCode h
  have ht : Keeps cg thenBranch := keeps thenBranch
  have he : Keeps cg elseBranch := keeps elseBranch
  have hend := k.unbound_end' ht he hw hcode
  have hue := k.unbound_else' ht hw
  have hx₃ : Extends pb₃ F := (extends_bind hend).trans hx
  have hxe : Extends k.atElse F := (k.grows_else ht he hw hcode).2.toExtends.trans hx₃
  have hxj : Extends (k.pb₂.newLabel.2.jump k.endLabel) F := (extends_bind hue).trans hxe
  have hxt : Extends k.pb₂ F := (extends_newLabel k.pb₂).trans ((extends_emitTo _ _ _).trans hxj)
  have hxc : Extends k.atThen F := (k.grows_then ht hw).2.toExtends.trans hxt
  have hbranch := branches_false hb (W := W) k.condition hw (extends_newLabel k.pb₁) rfl hxc
    (hxe.bound (bound_bind hue)) hf
  simp only [exec]
  refine (hbranch.follows (fun f' hf' => ?_) fun f' hf' => ?_).mono (Nat.le_succ _)
  · have hwt : Within cg k.atThen.nRegs := hw.mono (k.grows_atThen hw).nRegs
    have hsize : sizeOf thenBranch < sizeOf (Stmt.ifElse cond thenBranch (some elseBranch)) := by
      simp only [Stmt.ifElse.sizeOf_spec]
      omega
    have hthen := iht.part _ hsize k.thenCode hwt hxt hf'
    have hjump : ∀ regs, step P W ⟨k.pb₂.newLabel.2.code.length, regs⟩ =
        .next ⟨pb₃.code.length, regs⟩ := fun _ => step_jump hb hxj (hx.bound (bound_bind hend))
    exact hthen.goto hjump
  · have hwe : Within cg k.atElse.nRegs := hw.mono (k.grows_atElse ht hw).nRegs
    rw [(k.grows_then ht hw).1] at hcode
    have hsize : sizeOf elseBranch < sizeOf (Stmt.ifElse cond thenBranch (some elseBranch)) := by
      simp only [Stmt.ifElse.sizeOf_spec, Option.some.sizeOf_spec]
      omega
    have helse := ihe.part _ hsize hcode hwe hx₃ hf'
    exact helse

theorem simulates_while {cond : Expr} {body : Stmt} (ihb : Simulates cg F P W fuel body)
    (ih : Simulates cg F P W fuel (.whileLoop cond body)) :
    Simulates cg F P W (fuel + 1) (.whileLoop cond body) := by
  intro loops pb loops' pb' σ f h hw hx hf
  obtain ⟨k, rfl, rfl⟩ := whileCode h
  have hbody : Keeps cg body := keeps body
  have hdone := hx.bound (bound_bind (k.unbound_done hbody hw))
  have htop := hx.bound (k.bound_top hbody hw)
  have hxj : Extends (k.pb₂.jump pb.labels.length) F :=
    (extends_bind (k.unbound_done hbody hw)).trans hx
  have hx₂ : Extends k.pb₂ F := (extends_emitTo _ _ _).trans hxj
  have hxc : Extends k.atBody F := (k.grows_body hbody hw).2.toExtends.trans hx₂
  have hwh : Within cg (pb.newLabel.2.newLabel.2.bind pb.labels.length).nRegs := hw
  have hbranch := branches_false hb (W := W) k.condition hwh (Extends.refl k.pb₁) rfl hxc hdone hf
  simp only [exec]
  refine (hbranch.follows (n := fuel - sizeOf (Stmt.whileLoop cond body)) (fun f' hf' => ?_)
    fun f' hf' => hf'.follows).mono (by omega)
  have hrun := ihb k.bodyCode (hw.mono (k.grows_atBody hw).nRegs) hx₂ hf'
  have hjump := hrun.goto fun _ => step_jump hb hxj htop
  refine Follows.loop (hjump.mono ?_) htop hdone fun σ' f'' hf'' => ?_
  · simp only [Stmt.whileLoop.sizeOf_spec]
    omega
  · have hagain := ih h hw hx hf''
    exact hagain

theorem simulates_doWhile {cond : Expr} {body : Stmt} (ihb : Simulates cg F P W fuel body)
    (ih : Simulates cg F P W fuel (.doWhile cond body)) :
    Simulates cg F P W (fuel + 1) (.doWhile cond body) := by
  intro loops pb loops' pb' σ f h hw hx hf
  obtain ⟨k, rfl, rfl⟩ := doWhileCode h
  have hbody : Keeps cg body := keeps body
  have hdone := hx.bound (bound_bind (k.unbound_done hbody hw))
  have htop := hx.bound (k.bound_top hbody hw)
  have hcheck := hx.bound (k.bound_check hbody hw)
  have hxb : Extends (k.pb₂.branchTrue k.value pb.labels.length) F :=
    (extends_bind (k.unbound_done hbody hw)).trans hx
  have hx₂ : Extends k.pb₂ F := (extends_emitTo _ _ _).trans hxb
  have hxc : Extends (k.pb₁.bind (pb.labels.length + 1)) F :=
    (k.grows_condition hbody hw).1.toExtends.trans hx₂
  have hx₁ : Extends k.pb₁ F := (extends_bind (k.unbound_body hbody hw (.inl rfl))).trans hxc
  have hwc : Within cg (k.pb₁.bind (pb.labels.length + 1)).nRegs :=
    hw.mono (k.grows_toTest hbody hw).nRegs
  have hlen : ((k.pb₂.branchTrue k.value pb.labels.length).bind
      (pb.labels.length + 2)).code.length =
      k.pb₂.code.length + 1 := List.length_append
  simp only [exec]
  have hsize : sizeOf body < sizeOf (Stmt.doWhile cond body) := by
    simp only [Stmt.doWhile.sizeOf_spec]
    omega
  have hrun := ihb.part _ hsize k.bodyCode hw hx₁ hf
  refine hrun.loop hcheck hdone fun σ' f' hf' => ?_
  have hbranch := branches_true hb (W := W) k.condition hwc hxb htop hf'
  rw [← hlen] at hbranch
  refine (hbranch.follows (n := fuel - sizeOf (Stmt.doWhile cond body)) (fun f'' hf'' => ?_)
    fun f'' hf'' => hf''.follows).mono (by omega)
  exact ih h hw hx hf''

end Statements

/-! ### Case statements -/

section Case

variable {cg : CodeGen} {F : ProgramBuilder} {P : Program} {W : World} {sel : Reg} {v : Value}

/-- The comparison of the selector with one label. -/
theorem generates_equal (value : Expr) {pb : ProgramBuilder} (hsel : sel < pb.nRegs) :
    Generates cg pb (fun regs => regs[sel]? = some v)
      (do
        let candidate ← cg.genExpr value
        emitNew (.logic · (.binary .eq sel candidate)))
      (fun W σ => (evalExpr cg W σ value).bind fun candidate =>
        some (.logic (v.evalEq candidate))) := by
  have hst : Stable pb.nRegs fun regs => regs[sel]? = some v :=
    fun hs hv => (hs.get _ hsel).trans hv
  refine ((generates_expr value pb).weaken fun _ => trivial).bind hst fun a w pb₁ _ _ _ => ?_
  exact .instruction (fun _ => rfl) fun _ _ hp _ _ _ => computed_binary .eq hp.1 hp.2

/-- The machine arrives where the choice says, or panics where there is none. -/
def Chooses {γ : Type} (P : Program) (W : World) (f : Frame) (place : γ → Frame → Prop) :
    Option γ → Prop
  | some choice => ∃ k f', Runs (step P W) k f f' ∧ place choice f'
  | none => Panics P W f

theorem Chooses.prepend {γ : Type} {place : γ → Frame → Prop} {choice : Option γ} {k : Nat}
    {f f' : Frame} (hrun : Runs (step P W) k f f') (h : Chooses P W f' place choice) :
    Chooses P W f place choice := by
  cases choice with
  | none => exact Panics.prepend hrun h
  | some choice =>
    obtain ⟨k', f'', hrun', hp⟩ := h
    exact ⟨k + k', f'', hrun.trans hrun', hp⟩

/-- Further steps after the choice. -/
theorem Chooses.after {γ : Type} {place place' : γ → Frame → Prop} {choice : Option γ} {f : Frame}
    (h : Chooses P W f place choice)
    (hnext : ∀ c f', place c f' → ∃ k f'', Runs (step P W) k f' f'' ∧ place' c f'') :
    Chooses P W f place' choice := by
  cases choice with
  | none => exact h
  | some c =>
    obtain ⟨k, f', hrun, hp⟩ := h
    obtain ⟨k', f'', hrun', hp'⟩ := hnext c f' hp
    exact ⟨k + k', f'', hrun.trans hrun', hp'⟩

theorem Chooses.bind {γ γ' : Type} {place : γ → Frame → Prop} {place' : γ' → Frame → Prop}
    {choice : Option γ} {next : γ → Option γ'} {f : Frame} (h : Chooses P W f place choice)
    (hnext : ∀ c f', place c f' → Chooses P W f' place' (next c)) :
    Chooses P W f place' (choice.bind next) := by
  cases choice with
  | none => exact h
  | some c =>
    obtain ⟨k, f', hrun, hp⟩ := h
    exact (hnext c f' hp).prepend hrun

variable (hb : Built F P)
include hb

theorem chooses_values {label : Label} {target : Nat} (hl : F.Bound label target)
    {values : List Expr} {pb pb' : ProgramBuilder} {σ : Store} {f : Frame}
    (h : cg.genCaseValues sel label values pb = some ((), pb')) (hw : Within cg pb.nRegs)
    (hx : Extends pb' F) (hsel : sel < pb.nRegs) (hf : Stands cg F pb.code.length σ f)
    (hv : f.regs[sel]? = some v) :
    Chooses P W f
      (fun matched f' => Stands cg F (if matched = true then target else pb'.code.length) σ f' ∧
        f'.regs[sel]? = some v)
      (matchesLabel cg W σ v values) := by
  induction values generalizing pb f with
  | nil =>
    obtain ⟨-, rfl⟩ := pure_eq_some.mp h
    exact ⟨0, f, .refl f, hf, hv⟩
  | cons value values ih =>
    rw [CodeGen.genCaseValues] at h
    obtain ⟨candidate, pb₁, hc, h⟩ := bind_eq_some.mp h
    obtain ⟨equal, pb₂, he, h⟩ := bind_eq_some.mp h
    rw [branchTrue_bind] at h
    have htest : (do
        let candidate ← cg.genExpr value
        emitNew (.logic · (.binary .eq sel candidate))) pb = some (equal, pb₂) :=
      bind_eq_some.mpr ⟨candidate, pb₁, hc, he⟩
    obtain ⟨hg, -⟩ := (generates_equal (v := v) value hsel).grows htest hw
    have hw₂ : Within cg (pb₂.branchTrue equal label).nRegs := hw.mono hg.nRegs
    have hsel₂ : sel < (pb₂.branchTrue equal label).nRegs := Nat.lt_of_lt_of_le hsel hg.nRegs
    have hxb : Extends (pb₂.branchTrue equal label) F := (grows_caseValues h hw₂).toExtends.trans hx
    have hd := delivers_at hb (W := W) (generates_equal value hsel) htest hw
      ((extends_emitTo _ _ _).trans hxb) hf hv
    have hlen : (pb₂.branchTrue equal label).code.length = pb₂.code.length + 1 :=
      List.length_append
    rw [matchesLabel]
    cases hval : evalExpr cg W σ value with
    | none =>
      rw [hval] at hd
      exact hd
    | some w =>
      rw [hval] at hd
      obtain ⟨k, regs, hrun, hr, hs⟩ := hd
      have hstep := step_branchTrue hb (W := W) hxb hl hr
      rw [truthy_logic, ← hlen] at hstep
      have hrun' := hrun.trans (.single hstep)
      have hv' : regs[sel]? = some v := (hs.get _ hsel).trans hv
      have ha : Agrees cg σ regs := Agrees.same hf.agrees hw hs
      have hroom : F.nRegs ≤ regs.length := hs.length ▸ hf.room
      show Chooses P W f _
        (if (v.evalEq w).isTrue then some true else matchesLabel cg W σ v values)
      by_cases heq : (v.evalEq w).isTrue = true
      · rw [if_pos heq] at hrun' ⊢
        exact ⟨k + 1, _, hrun', ⟨rfl, ha, hroom⟩, hv'⟩
      · rw [if_neg heq] at hrun' ⊢
        exact (ih h hw₂ hsel₂ ⟨rfl, ha, hroom⟩ hv').prepend hrun'

/-- The frame stands at the label of the chosen item, or past the tests. -/
def AtItem (cg : CodeGen) (F : ProgramBuilder) (σ : Store) (items : List (List Expr × Stmt))
    (labels : List Label) (default : Option Stmt) (past : Nat) (chosen : Option Stmt) (f : Frame) :
    Prop :=
  ∃ pc, Stands cg F pc σ f ∧
    ((∃ item label, (item, label) ∈ items.zip labels ∧ chosen = some item.2 ∧ F.Bound label pc) ∨
      chosen = default ∧ pc = past)

theorem chooses_item {default : Option Stmt} {items : List (List Expr × Stmt)}
    {labels : List Label} (hlen : labels.length = items.length)
    (hlabels : ∀ l ∈ labels, ∃ target, F.Bound l target) {pb pb' : ProgramBuilder} {σ : Store}
    {f : Frame} (h : cg.genCaseTests sel items labels pb = some ((), pb'))
    (hw : Within cg pb.nRegs) (hx : Extends pb' F) (hsel : sel < pb.nRegs)
    (hf : Stands cg F pb.code.length σ f) (hv : f.regs[sel]? = some v) :
    Chooses P W f (AtItem cg F σ items labels default pb'.code.length)
      (selectItem cg W σ v default items) := by
  induction items generalizing labels pb f with
  | nil =>
    rw [CodeGen.genCaseTests] at h
    · obtain ⟨-, rfl⟩ := pure_eq_some.mp h
      exact ⟨0, f, .refl f, _, hf, .inr ⟨rfl, rfl⟩⟩
    · intro _ _ _ _ _ he
      cases he
  | cons item items ih =>
    cases labels with
    | nil => exact absurd hlen (by simp)
    | cons label labels =>
      obtain ⟨values, body⟩ := item
      rw [CodeGen.genCaseTests] at h
      obtain ⟨⟨⟩, pb₁, hvalues, h⟩ := bind_eq_some.mp h
      obtain ⟨target, hl⟩ := hlabels label List.mem_cons_self
      have hg := grows_caseValues hvalues hw
      have hw₁ : Within cg pb₁.nRegs := hw.mono hg.nRegs
      have hx₁ : Extends pb₁ F := (grows_caseTests h hw₁).toExtends.trans hx
      rw [selectItem]
      refine (chooses_values hb (W := W) hl hvalues hw hx₁ hsel hf hv).bind ?_
      rintro (_ | _) f' ⟨hf', hv'⟩
      · have hrest := ih (Nat.succ.inj hlen) (fun l hl => hlabels l (List.mem_cons_of_mem _ hl)) h
          hw₁ (Nat.lt_of_lt_of_le hsel hg.nRegs) hf' hv'
        show Chooses P W f' _ (selectItem cg W σ v default items)
        refine hrest.after ?_
        rintro chosen f'' ⟨pc, hf'', hp⟩
        refine ⟨0, f'', .refl f'', pc, hf'', hp.imp_left ?_⟩
        rintro ⟨item, l, hmem, hc, hl'⟩
        exact ⟨item, l, List.mem_cons_of_mem _ hmem, hc, hl'⟩
      · refine ⟨0, f', .refl f', target, hf', .inl ⟨(values, body), label, ?_, rfl, hl⟩⟩
        exact List.mem_cons_self

/-- The choice of a case statement. -/
theorem CaseCode.chooses {selector : Expr} {items : List (List Expr × Stmt)}
    (default : Option Stmt) {loops : LoopTargets} {pb : ProgramBuilder}
    (k : CaseCode cg selector items loops pb)
    (hw : Within cg pb.nRegs) (hx : Extends k.pb₅ F) {past : Nat} (hpast : F.Bound k.exit past)
    {σ : Store} {f : Frame} (hf : Stands cg F pb.code.length σ f) :
    Chooses P W f (AtItem cg F σ items k.labels default past)
      ((evalExpr cg W σ selector).bind (selectItem cg W σ · default items)) := by
  have hk : ∀ item ∈ items, Keeps cg item.2 := fun item _ => keeps item.2
  have hxj : Extends (k.pb₄.jump k.exit) F := (k.grows_bodies hk hw).toExtends.trans hx
  have hx₄ : Extends k.pb₄ F := (extends_emitTo _ _ _).trans hxj
  have hx₃ : Extends k.pb₃ F := (k.grows_tests hw).toExtends.trans hx₄
  have hx₁ : Extends k.pb₁ F := k.extends_start.trans hx₃
  obtain ⟨-, hsel⟩ := k.grows_selector hw
  have hw₃ : Within cg k.pb₃.nRegs := hw.mono (k.grows_start hw).nRegs
  have hlabels : ∀ l ∈ k.labels, ∃ target, F.Bound l target := by
    intro l hl
    obtain ⟨target, hb⟩ := k.bound_label hk hw hl
    exact ⟨target, hx.bound hb⟩
  have hd := delivers_at hb (W := W) (generates_expr selector pb) k.selectorCode hw hx₁ hf trivial
  cases hv : evalExpr cg W σ selector with
  | none =>
    rw [hv] at hd
    exact hd
  | some v =>
    rw [hv] at hd
    obtain ⟨n, regs, hrun, hr, hs⟩ := hd
    have hf₃ : Stands cg F k.pb₃.code.length σ ⟨k.pb₁.code.length, regs⟩ :=
      ⟨by rw [k.code_start.1], Agrees.same hf.agrees hw hs, hs.length ▸ hf.room⟩
    have hchoice : Chooses P W ⟨k.pb₁.code.length, regs⟩
        (AtItem cg F σ items k.labels default k.pb₄.code.length)
        (selectItem cg W σ v default items) :=
      chooses_item hb k.length_labels hlabels k.tests hw₃ hx₄ (k.code_start.2 ▸ hsel) hf₃ hr
    refine Chooses.prepend hrun (hchoice.after ?_)
    rintro chosen f' ⟨pc, hf', hitem | ⟨hdefault, rfl⟩⟩
    · exact ⟨0, f', .refl f', pc, hf', .inl hitem⟩
    · -- no label matched: the jump past the tests
      obtain ⟨n', f'', -, hrun', hf''⟩ :=
        (hf'.arrives (P := P) (W := W)).goto fun _ => step_jump hb hxj hpast
      exact ⟨n', f'', hrun', past, hf'', .inr ⟨hdefault, rfl⟩⟩

/-- The body of an item and the jump to the end. -/
theorem Arm.follows {fuel n m : Nat} {loops : LoopTargets} {done label : Label} {body : Stmt}
    {pc last : Nat} {σ : Store} {f : Frame} (harm : Arm cg loops done m F body label)
    (hw : Within cg m) (hl : F.Bound label pc) (hdone : F.Bound done last)
    (hf : Stands cg F pc σ f) (ih : Simulates cg F P W fuel body) (hn : n ≤ fuel - sizeOf body) :
    Follows cg F P W n loops last f (exec cg W fuel body σ) := by
  obtain ⟨q, loops₁, q', hcode, hm, hlabel, hxj⟩ := harm
  rw [hl.unique hlabel] at hf
  have hrun := ih hcode (hw.mono hm) ((extends_emitTo _ _ _).trans hxj) hf
  exact (hrun.mono hn).goto fun _ => step_jump hb hxj hdone

omit hb in
theorem Chooses.follows {n pc : Nat} {loops : LoopTargets} {place : Option Stmt → Frame → Prop}
    {choice : Option (Option Stmt)} {run : Stmt → Option Completion} {σ : Store} {f : Frame}
    (h : Chooses P W f place choice)
    (hbody : ∀ body f', place (some body) f' → Follows cg F P W n loops pc f' (run body))
    (hnone : ∀ f', place none f' → Follows cg F P W n loops pc f' (some (.normal σ))) :
    Follows cg F P W n loops pc f (onItem choice run σ) := by
  rcases choice with _ | _ | body
  · exact h
  · obtain ⟨k, f', hrun, hp⟩ := h
    exact (Follows.prepend hrun (hnone f' hp)).mono (Nat.le_add_left _ _)
  · obtain ⟨k, f', hrun, hp⟩ := h
    exact (Follows.prepend hrun (hbody body f' hp)).mono (Nat.le_add_left _ _)

theorem CaseCode.follows_item {fuel n last : Nat} {selector : Expr}
    {items : List (List Expr × Stmt)} {loops : LoopTargets} {pb : ProgramBuilder}
    (k : CaseCode cg selector items loops pb) (hw : Within cg pb.nRegs) (hx : Extends k.pb₅ F)
    (hdone : F.Bound k.done last) {item : List Expr × Stmt} {label : Label} {pc : Nat} {σ : Store}
    {f : Frame} (hmem : (item, label) ∈ items.zip k.labels) (hl : F.Bound label pc)
    (hf : Stands cg F pc σ f) (ih : ∀ item ∈ items, Simulates cg F P W fuel item.2)
    (hn : n ≤ fuel + 1 - sizeOf items) :
    Follows cg F P W n loops last f (exec cg W fuel item.2 σ) := by
  have hk : ∀ item ∈ items, Keeps cg item.2 := fun item _ => keeps item.2
  have hitem := (List.of_mem_zip hmem).1
  have harm : Arm cg loops k.done (k.pb₄.jump k.exit).nRegs F item.2 label :=
    ((k.bodies_spec hk hw).2.arms _ _ hmem).extends hx (Nat.le_refl _)
  have hwb : Within cg (k.pb₄.jump k.exit).nRegs := hw.mono (k.grows_toBodies hw).nRegs
  refine Arm.follows hb harm hwb hl hdone hf (ih item hitem) ?_
  have hsize := List.sizeOf_lt_of_mem hitem
  cases item
  simp only [Prod.mk.sizeOf_spec] at hsize ⊢
  omega

theorem simulates_case {fuel : Nat} {selector : Expr} {items : List (List Expr × Stmt)}
    (ih : ∀ item ∈ items, Simulates cg F P W fuel item.2) :
    Simulates cg F P W (fuel + 1) (.case selector items none) := by
  intro loops pb loops' pb' σ f h hw hx hf
  obtain ⟨k, hexit, rfl, rfl⟩ := caseCode h
  have hk : ∀ item ∈ items, Keeps cg item.2 := fun item _ => keeps item.2
  have hu : k.pb₅.Unbound k.done := by
    refine k.unbound_last hk hw k.unbound_done ?_
    exact fun hmem => Nat.lt_irrefl _ (k.lt_label hmem)
  have hdone : F.Bound k.done k.pb₅.code.length := hx.bound (bound_bind hu)
  have hpast : F.Bound k.exit k.pb₅.code.length := by
    rw [hexit]
    exact hdone
  have hx₅ : Extends k.pb₅ F := (extends_bind hu).trans hx
  have hchoice := CaseCode.chooses hb (W := W) none k hw hx₅ hpast hf
  simp only [exec]
  refine hchoice.follows (fun body f' hplace => ?_) fun f' hplace => ?_
  · obtain ⟨pc, hf', ⟨item, label, hmem, hbody, hl⟩ | ⟨hbody, -⟩⟩ := hplace
    · cases hbody
      refine CaseCode.follows_item hb k hw hx₅ hdone hmem hl hf' ih ?_
      simp only [Stmt.case.sizeOf_spec]
      omega
    · cases hbody
  · obtain ⟨pc, hf', ⟨item, label, -, hbody, -⟩ | ⟨-, rfl⟩⟩ := hplace
    · cases hbody
    · exact hf'.follows

theorem simulates_caseDefault {fuel : Nat} {selector : Expr} {items : List (List Expr × Stmt)}
    {default : Stmt} (ih : ∀ item ∈ items, Simulates cg F P W fuel item.2)
    (ihd : Simulates cg F P W fuel default) :
    Simulates cg F P W (fuel + 1) (.case selector items (some default)) := by
  intro loops pb loops' pb' σ f h hw hx hf
  obtain ⟨k, loops₂, pb₆, hne, hcode, rfl, rfl⟩ := caseDefaultCode h
  have hk : ∀ item ∈ items, Keeps cg item.2 := fun item _ => keeps item.2
  have hdef : Keeps cg default := keeps default
  have hu := k.unbound_done' hk hdef hw hne hcode
  have hue := k.unbound_exit' hk hw
  have hx₆ : Extends pb₆ F := (extends_bind hu).trans hx
  have hxe : Extends (k.pb₅.bind k.exit) F :=
    (k.grows_default hk hdef hw hcode).2.toExtends.trans hx₆
  have hdone : F.Bound k.done pb₆.code.length := hx.bound (bound_bind hu)
  have hchoice := CaseCode.chooses hb (W := W) (some default) k hw ((extends_bind hue).trans hxe)
    (hxe.bound (bound_bind hue)) hf
  simp only [exec]
  refine hchoice.follows (fun body f' hplace => ?_) fun f' hplace => ?_
  · obtain ⟨pc, hf', ⟨item, label, hmem, hbody, hl⟩ | ⟨hbody, rfl⟩⟩ := hplace
    · cases hbody
      refine CaseCode.follows_item hb k hw ((extends_bind hue).trans hxe) hdone hmem hl hf' ih ?_
      simp only [Stmt.case.sizeOf_spec]
      omega
    · cases hbody
      have hwd : Within cg (k.pb₅.bind k.exit).nRegs := hw.mono (k.grows_toDefault hk hw).nRegs
      rw [(k.bodies_spec hk hw).1] at hcode
      have hsize : sizeOf default < sizeOf (Stmt.case selector items (some default)) := by
        simp only [Stmt.case.sizeOf_spec, Option.some.sizeOf_spec]
        omega
      have hrun := ihd.part _ hsize hcode hwd hx₆ hf'
      exact hrun
  · obtain ⟨pc, hf', ⟨item, label, -, hbody, -⟩ | ⟨hbody, -⟩⟩ := hplace
    · cases hbody
    · cases hbody

end Case

/-- The code of a statement follows its evaluation. -/
theorem simulates {cg : CodeGen} {F : ProgramBuilder} {P : Program} {W : World} (hb : Built F P)
    (hd : Distinct cg) (fuel : Nat) (s : Stmt) : Simulates cg F P W fuel s := by
  induction fuel generalizing s with
  | zero =>
    intro loops pb loops' pb' σ f _ _ _ _
    exact ⟨0, f, Nat.le_of_eq (Nat.zero_sub _), .refl f⟩
  | succ fuel ih =>
    cases s with
    | block stmts => exact simulates_block fun s _ => ih s
    | blocking lhs rhs => exact simulates_blocking hb hd
    | ifElse cond thenBranch elseBranch =>
      cases elseBranch with
      | none => exact simulates_if hb (ih thenBranch)
      | some elseBranch => exact simulates_ifElse hb (ih thenBranch) (ih elseBranch)
    | whileLoop cond body => exact simulates_while hb (ih body) (ih _)
    | doWhile cond body => exact simulates_doWhile hb (ih body) (ih _)
    | case selector items default =>
      cases default with
      | none => exact simulates_case hb fun item _ => ih item.2
      | some default => exact simulates_caseDefault hb (fun item _ => ih item.2) (ih default)
    | ret value => exact simulates_ret hb
    | breakLoop => exact simulates_break hb
    | continueLoop => exact simulates_continue hb

end Eevee.Elab.ControlFlow
