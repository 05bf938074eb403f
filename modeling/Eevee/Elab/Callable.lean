/- A compiled function runs as its body evaluates. -/

import Mathlib.Data.List.Basic
import Mathlib.Tactic.Common
import Eevee.Elab.ControlFlow
import Eevee.Elab.Scoping

set_option autoImplicit false
set_option relaxedAutoImplicit false

namespace Eevee.Elab.Callable

open Eevee.Ast.Syntax
open Eevee.Ast.Stmts
open Eevee.Core.Logic
open Eevee.Ir.Inst
open Eevee.Ir.Values
open Eevee.Ir.Builder
open Eevee.Ir.Emission
open Eevee.Ir.Interp
open Eevee.Lib.Machine
open Eevee.Elab.Generator
open Eevee.Elab.Evaluation
open Eevee.Elab.ExprCode
open Eevee.Elab.StmtCode
open Eevee.Elab.Scoping
open Eevee.Elab.ControlFlow

/-! ### The names in scope of a body -/

/-- The parameters live in the registers from `reg` on. -/
def withParams (cg : CodeGen) (reg : Reg) : List (String × Nat × Bool) → CodeGen
  | [] => cg
  | (name, width, signed) :: params =>
    withParams { cg with
      locals := Function.update cg.locals name (some (reg, width))
      localSigned := Function.update cg.localSigned name (some signed) } (reg + 1) params

/-- The names in scope in the body of a function. -/
def bodyScope (cg : CodeGen) (f : FuncDecl) : CodeGen :=
  let returnType := if f.isVoid then none else some (max f.retWidth 1, f.retSigned)
  let cg := withParams { cg with
    locals := fun _ => none, localSigned := fun _ => none, returnType := returnType } 0 f.params
  { cg with
    locals := Function.update cg.locals f.name (some (f.params.length, max f.retWidth 1))
    localSigned := Function.update cg.localSigned f.name (some f.retSigned) }

/-- The builder where the body begins. -/
def bodyStart (f : FuncDecl) : ProgramBuilder :=
  { ProgramBuilder.new with
    code := [.loadConst f.params.length 0]
    consts := [.zero (max f.retWidth 1)]
    nRegs := f.params.length + 1 }

theorem genParams_run (params : List (String × Nat × Bool)) (cg : CodeGen) (pb : ProgramBuilder) :
    CodeGen.genParams cg params pb =
      some (withParams cg pb.nRegs params, { pb with nRegs := pb.nRegs + params.length }) := by
  induction params generalizing cg pb with
  | nil => rfl
  | cons param params ih =>
    obtain ⟨name, width, signed⟩ := param
    rw [CodeGen.genParams, newReg_bind, ih]
    show some (_, { pb with nRegs := pb.nRegs + 1 + params.length }) = _
    rw [Nat.add_assoc, Nat.add_comm 1]
    rfl

theorem genFunction_run (cg : CodeGen) (f : FuncDecl) : cg.genFunction f .new = (do
    let _ ← (bodyScope cg f).genStmt f.body []
    emit (if f.isVoid then .returnVoid else .ret f.params.length)
    return bodyScope cg f) (bodyStart f) := by
  unfold CodeGen.genFunction
  dsimp only
  rw [bind_run (genParams_run _ _ _), newReg_bind, konstLogic_bind, emit_bind]
  have hreg : ProgramBuilder.new.nRegs + f.params.length = f.params.length := Nat.zero_add _
  simp only [hreg]
  rfl

/-- The parameter that a name refers to, last first. -/
theorem withParams_locals {params : List (String × Nat × Bool)} {cg : CodeGen} {reg : Reg}
    {name : String} {entry : Reg × Nat}
    (h : (withParams cg reg params).locals name = some entry) :
    (∃ i signed, params[i]? = some (name, entry.2, signed) ∧ entry.1 = reg + i) ∨
      cg.locals name = some entry ∧ name ∉ params.map Prod.fst := by
  induction params generalizing cg reg with
  | nil => exact .inr ⟨h, List.not_mem_nil⟩
  | cons param params ih =>
    obtain ⟨name', width, signed⟩ := param
    rcases ih h with ⟨i, signed', hi, hreg⟩ | ⟨hl, hn⟩
    · exact .inl ⟨i + 1, signed', hi, by rw [hreg, Nat.add_assoc, Nat.add_comm 1]⟩
    · by_cases he : name = name'
      · subst he
        have hl' : Function.update cg.locals name (some (reg, width)) name = some entry := hl
        rw [Function.update_self] at hl'
        cases hl'
        exact .inl ⟨0, signed, rfl, rfl⟩
      · have hl' : Function.update cg.locals name' (some (reg, width)) name = some entry := hl
        rw [Function.update_of_ne he] at hl'
        refine .inr ⟨hl', ?_⟩
        rw [List.map_cons, List.mem_cons, not_or]
        exact ⟨he, hn⟩

theorem bodyScope_locals {cg : CodeGen} {f : FuncDecl} {name : String} {reg : Reg} {width : Nat}
    (h : (bodyScope cg f).locals name = some (reg, width)) :
    name = f.name ∧ reg = f.params.length ∨
      ∃ signed, f.params[reg]? = some (name, width, signed) := by
  unfold bodyScope at h
  dsimp only at h
  by_cases he : name = f.name
  · subst he
    rw [Function.update_self] at h
    cases h
    exact .inl ⟨rfl, rfl⟩
  · rw [Function.update_of_ne he] at h
    rcases withParams_locals h with ⟨i, signed, hi, hreg⟩ | ⟨hl, -⟩
    · rw [Nat.zero_add] at hreg
      have hi' : f.params[reg]? = some (name, width, signed) := by
        rw [show reg = i from hreg]
        exact hi
      exact .inr ⟨signed, hi'⟩
    · cases hl

theorem bodyScope_result (cg : CodeGen) (f : FuncDecl) :
    (bodyScope cg f).locals f.name = some (f.params.length, max f.retWidth 1) :=
  Function.update_self ..

theorem within_bodyScope (cg : CodeGen) (f : FuncDecl) :
    Within (bodyScope cg f) (f.params.length + 1) := by
  intro name reg width h
  rcases bodyScope_locals h with ⟨-, rfl⟩ | ⟨signed, hp⟩
  · exact Nat.lt_succ_self _
  · exact Nat.lt_succ_of_lt (List.getElem?_eq_some_iff.mp hp).1

theorem distinct_bodyScope (cg : CodeGen) (f : FuncDecl) : Distinct (bodyScope cg f) := by
  intro name name' reg width width' h h'
  rcases bodyScope_locals h with ⟨rfl, rfl⟩ | ⟨signed, hp⟩
  · rcases bodyScope_locals h' with ⟨rfl, -⟩ | ⟨signed', hp'⟩
    · rfl
    · exact absurd (List.getElem?_eq_some_iff.mp hp').1 (Nat.lt_irrefl _)
  · rcases bodyScope_locals h' with ⟨-, rfl⟩ | ⟨signed', hp'⟩
    · exact absurd (List.getElem?_eq_some_iff.mp hp).1 (Nat.lt_irrefl _)
    · cases hp.symm.trans hp'
      rfl

/-! ### The code position -/

/-- A step goes to the next position or to the target of a jump. -/
theorem step_pc {P : Program} {W : World} {f f' : Frame} (h : step P W f = .next f') :
    ∃ inst, P.code[f.pc]? = some inst ∧
      (f'.pc = f.pc + 1 ∨ inst.retarget f'.pc = some inst) := by
  cases hi : P.code[f.pc]? with
  | none =>
    unfold step at h
    rw [hi] at h
    cases h
  | some inst =>
    refine ⟨inst, rfl, ?_⟩
    have hbranch : ∀ {cond onTrue onFalse}, branch f cond onTrue onFalse = .next f' →
        f'.pc = onTrue ∨ f'.pc = onFalse := by
      intro cond onTrue onFalse h
      unfold branch at h
      cases hr : f.regs[cond]? with
      | none =>
        rw [hr] at h
        cases h
      | some v =>
        rw [hr] at h
        cases h
        dsimp only
        split
        · exact .inl rfl
        · exact .inr rfl
    cases hc : computed P W f.regs inst with
    | some entry =>
      obtain ⟨dst, value⟩ := entry
      rw [step_computed hi hc] at h
      unfold write at h
      cases value with
      | none => cases h
      | some v =>
        by_cases hd : dst < f.regs.length
        · have hnext : Outcome.next ⟨f.pc + 1, f.regs.set dst v⟩ = Outcome.next f' :=
            (if_pos hd).symm.trans h
          cases hnext
          exact .inl rfl
        · cases (if_neg hd).symm.trans h
    | none =>
      rw [step_control hi hc] at h
      cases inst with
      | jump target =>
        cases h
        exact .inr rfl
      | branchFalse cond target =>
        refine (hbranch h).imp id fun he => ?_
        rw [he]
        rfl
      | branchTrue cond target =>
        refine (hbranch h).symm.imp id fun he => ?_
        rw [he]
        rfl
      | ret value => exact absurd ((step_control hi hc).trans h) (step_ret_ne_next hi f')
      | returnVoid | finish => cases h
      | loadConst | mov | assign | netRead | staticGet | memoryRead | isKnown | logic | concat =>
        cases hc

/-- Jumps stay in front of a last instruction that never goes on. -/
theorem pc_within {pb : ProgramBuilder} {inst : Inst} {P : Program} {W : World}
    (hb : Built (pb.emit inst) P) (hw : pb.Wf)
    (hlast : ∀ regs f', step P W ⟨pb.code.length, regs⟩ ≠ .next f') {n : Nat} {f f' : Frame}
    (h : Runs (step P W) n f f') (hf : f.pc ≤ pb.code.length) : f'.pc ≤ pb.code.length := by
  refine h.invariant (I := fun f => f.pc ≤ pb.code.length) ?_ hf
  rintro ⟨pc, regs⟩ g hpc hstep
  have hlt : pc < pb.code.length := by
    refine Nat.lt_of_le_of_ne hpc ?_
    rintro rfl
    exact hlast _ _ hstep
  obtain ⟨inst', hi, hnext | hjump⟩ := step_pc hstep
  · rw [hnext]
    exact hlt
  · have hF : (pb.emit inst).code[pc]? = some pb.code[pc] :=
      getElem?_snoc (List.getElem?_eq_getElem hlt)
    cases hp : pb.code[pc].isPlain with
    | true =>
      cases hi.symm.trans (ProgramBuilder.build_plain hb.wf hb.build hF hp)
      rw [Inst.retarget_eq_none hp] at hjump
      cases hjump
    | false =>
      obtain ⟨l, hl⟩ := hb.wf.jumps hF hp
      obtain ⟨target, hbound, hcode⟩ := ProgramBuilder.build_jump hb.wf hb.build hF hl
      have htarget : target ≤ pb.code.length := hw.within hbound
      have hsame : pb.code[pc].retarget target = some inst' := hcode.symm.trans hi
      have heq : g.pc = target := by
        generalize pb.code[pc] = inst₀ at hsame
        cases inst₀ <;> cases hsame <;> cases hjump <;> rfl
      rwa [heq]

/-! ### Calls -/

/-- The values of the parameters. -/
def bindArgs : List (String × Nat × Bool) → List Value → Store → Store
  | (name, _, _) :: params, value :: values, σ =>
    bindArgs params values (Function.update σ name value)
  | _, _, σ => σ

/-- The values of the locals where the body begins: the variable with the name of the function is
zero. -/
def entryStore (f : FuncDecl) (args : List Value) (σ : Store) : Store :=
  Function.update (bindArgs f.params args σ) f.name (.logic (.zero (max f.retWidth 1)))

/-- The frame of a call: the arguments, then empty registers. -/
def callFrame (P : Program) (args : List Value) : Frame :=
  ⟨0, args ++ List.replicate (P.nRegs - args.length) .null⟩

/-- What a call yields: a body that ends without a return statement yields the variable with the
name of the function. -/
def callResult (f : FuncDecl) : Completion → Stop
  | .normal σ => .returned (if f.isVoid then none else some (σ f.name))
  | .returned value _ => .returned value
  | .panic => .panic
  | .breakLoop _ | .continueLoop _ => .finished

/-- The values of the locals in the end. -/
def finalStore : Completion → Option Store
  | .normal σ | .returned _ σ | .breakLoop σ | .continueLoop σ => some σ
  | .panic => none

/-- A new local in a register that holds its value. -/
theorem agrees_update {cg cg' : CodeGen} {σ : Store} {regs : List Value} {name : String} {reg : Reg}
    {width : Nat} {v : Value} (h : Agrees cg σ regs)
    (hl : cg'.locals = Function.update cg.locals name (some (reg, width)))
    (hv : regs[reg]? = some v) : Agrees cg' (Function.update σ name v) regs := by
  intro name' reg' width' hl'
  rw [hl] at hl'
  by_cases he : name' = name
  · subst he
    rw [Function.update_self] at hl'
    cases hl'
    rwa [Function.update_self]
  · rw [Function.update_of_ne he] at hl'
    rw [Function.update_of_ne he]
    exact h hl'

theorem agrees_withParams {params : List (String × Nat × Bool)} {cg : CodeGen} {reg : Reg}
    {σ : Store} {args regs : List Value} (h : Agrees cg σ regs) (hlen : args.length = params.length)
    (hargs : ∀ i < args.length, regs[reg + i]? = args[i]?) :
    Agrees (withParams cg reg params) (bindArgs params args σ) regs := by
  induction params generalizing cg reg σ args with
  | nil => exact h
  | cons param params ih =>
    obtain ⟨name, width, signed⟩ := param
    cases args with
    | nil => cases hlen
    | cons value values =>
      refine ih ?_ (Nat.succ.inj hlen) fun i hi => ?_
      · exact agrees_update h rfl (hargs 0 (Nat.succ_pos _))
      · rw [Nat.add_assoc, Nat.add_comm 1]
        exact hargs (i + 1) (Nat.succ_lt_succ hi)

/-- The instruction that ends a function. -/
def lastInst (f : FuncDecl) : Inst := if f.isVoid then .returnVoid else .ret f.params.length

theorem isPlain_lastInst (f : FuncDecl) : (lastInst f).isPlain = true := by
  unfold lastInst
  split <;> rfl

/-- The stages of a compiled function. -/
structure FunctionCode (cg : CodeGen) (f : FuncDecl) (P : Program) where
  pb : ProgramBuilder
  body : (bodyScope cg f).genStmt f.body [] (bodyStart f) = some ([], pb)
  wf : pb.Wf
  built : Built (pb.emit (lastInst f)) P

theorem wf_bodyStart (f : FuncDecl) : (bodyStart f).Wf where
  patched _ hp := nomatch hp
  jumps {i inst} h hp := by
    cases i with
    | zero =>
      cases h
      cases hp
    | succ i => cases h
  distinct := List.nodup_nil
  within h := nomatch h

/-- A function whose body is scoped compiles. -/
theorem functionCode {cg : CodeGen} {f : FuncDecl} (hs : Scoped (bodyScope cg f) false f.body) :
    ∃ P, cg.genCallable f = some P ∧ Nonempty (FunctionCode cg f P) := by
  have hgives : Gives ((bodyScope cg f).genStmt f.body []) (· = []) :=
    gives_stmt hs fun h => nomatch h
  obtain ⟨loops, pb, hbody, rfl⟩ := hgives (bodyStart f)
  obtain ⟨-, hg⟩ := keeps f.body hbody (within_bodyScope cg f)
  have hw : pb.Wf := hg.wf (wf_bodyStart f)
  have hemit := grows_emit 0 [] pb (isPlain_lastInst f)
  obtain ⟨P, hP⟩ := ProgramBuilder.build_succeeds (hemit.wf hw) fun p hp => by
    rcases hg.targets hp with hp | hp | hp
    · cases hp
    · cases hp
    · exact hp
  refine ⟨P, ?_, ⟨⟨pb, hbody, hw, ⟨hemit.wf hw, hP⟩⟩⟩⟩
  have hrun : cg.genFunction f .new = some (bodyScope cg f, pb.emit (lastInst f)) := by
    rw [genFunction_run, bind_run hbody, emit_bind]
    rfl
  unfold CodeGen.genCallable
  rw [hrun]
  exact hP

namespace FunctionCode

variable {cg : CodeGen} {f : FuncDecl} {P : Program} (k : FunctionCode cg f P)

theorem extends_body : Extends (bodyStart f) k.pb :=
  (keeps f.body k.body (within_bodyScope cg f)).2.toExtends

theorem extends_last : Extends k.pb (k.pb.emit (lastInst f)) := extends_emit _ _

theorem nRegs_eq : P.nRegs = k.pb.nRegs :=
  (ProgramBuilder.build_eq_some.mp k.built.build).2.2.2.2

/-- The first instruction leads to the beginning of the body. -/
theorem enters (W : World) {args : List Value} (hargs : args.length = f.params.length) (σ : Store) :
    ∃ g, Runs (step P W) 1 (callFrame P args) g ∧ Stands (bodyScope cg f) (k.pb.emit (lastInst f))
      (bodyStart f).code.length (entryStore f args σ) g := by
  have hx : Extends (bodyStart f) (k.pb.emit (lastInst f)) := k.extends_body.trans k.extends_last
  have hregs : f.params.length < P.nRegs := by
    rw [k.nRegs_eq]
    exact k.extends_body.nRegs
  have hlen : (callFrame P args).regs.length = P.nRegs := by
    show (args ++ List.replicate (P.nRegs - args.length) Value.null).length = _
    rw [List.length_append, List.length_replicate]
    omega
  have hfirst : (k.pb.emit (lastInst f)).code[0]? = some (.loadConst f.params.length 0) :=
    getElem?_of_prefix hx.code rfl
  have hi : P.code[0]? = some (.loadConst f.params.length 0) :=
    ProgramBuilder.build_plain k.built.wf k.built.build hfirst rfl
  have hc : P.consts[0]? = some (.zero (max f.retWidth 1)) :=
    getElem?_of_prefix (k.built.tables hx).consts rfl
  have hcomputed : computed P W (callFrame P args).regs (.loadConst f.params.length 0) =
      some (f.params.length, some (.logic (.zero (max f.retWidth 1)))) := by
    show some (f.params.length, (P.consts[0]?).map Value.logic) = _
    rw [hc]
    rfl
  have hstep : step P W (callFrame P args) = .next ⟨1, (callFrame P args).regs.set f.params.length
      (.logic (.zero (max f.retWidth 1)))⟩ := by
    rw [step_computed (f := callFrame P args) hi hcomputed]
    exact if_pos (hlen ▸ hregs)
  refine ⟨_, .single hstep, rfl, ?_, ?_⟩
  · refine agrees_update (agrees_withParams ?_ hargs fun i hi => ?_) rfl
      (List.getElem?_set_self (hlen ▸ hregs))
    · intro _ _ _ hl
      cases hl
    · rw [Nat.zero_add, List.getElem?_set_ne (Nat.ne_of_gt (hargs ▸ hi))]
      exact List.getElem?_append_left hi
  · rw [List.length_set, hlen, k.nRegs_eq]
    exact Nat.le_refl _

theorem code_last : P.code[k.pb.code.length]? = some (lastInst f) :=
  k.built.code_emit (Extends.refl _) (isPlain_lastInst f)

theorem stops (W : World) (regs : List Value) (g : Frame) :
    step P W ⟨k.pb.code.length, regs⟩ ≠ .next g := by
  have hi := k.code_last
  unfold lastInst at hi
  cases hv : f.isVoid with
  | true =>
    rw [hv] at hi
    rw [step_returnVoid (f := ⟨k.pb.code.length, regs⟩) hi]
    exact nofun
  | false =>
    rw [hv] at hi
    exact step_ret_ne_next (f := ⟨k.pb.code.length, regs⟩) hi g

/-- Past the body the call returns. -/
theorem leaves (W : World) {σ : Store} {g : Frame}
    (hg : Stands (bodyScope cg f) (k.pb.emit (lastInst f)) k.pb.code.length σ g) :
    step P W g = .halt (callResult f (.normal σ)) := by
  obtain ⟨pc, regs⟩ := g
  obtain ⟨rfl, ha, -⟩ := hg
  have hi := k.code_last
  unfold lastInst at hi
  unfold callResult
  cases hv : f.isVoid with
  | true =>
    rw [hv] at hi
    exact step_returnVoid hi
  | false =>
    rw [hv] at hi
    exact step_ret hi (ha (bodyScope_result cg f))

end FunctionCode

/-- The code of a function with a scoped body never leaves the program; it halts exactly when the
body evaluates to a completion, with the value and the locals of that completion. -/
theorem control_flow (cg : CodeGen) (f : FuncDecl) (W : World)
    (hs : Scoped (bodyScope cg f) false f.body) (args : List Value)
    (hargs : args.length = f.params.length) (σ : Store) :
    ∃ P, cg.genCallable f = some P ∧
      (∀ n g, Runs (step P W) n (callFrame P args) g → g.pc < P.code.length) ∧
      ((∃ n last r, Halts (step P W) n (callFrame P args) last r) ↔
        ∃ fuel c, exec (bodyScope cg f) W fuel f.body (entryStore f args σ) = some c) ∧
      ∀ fuel c, exec (bodyScope cg f) W fuel f.body (entryStore f args σ) = some c →
        ∃ n last, Halts (step P W) n (callFrame P args) last (callResult f c) ∧
          ∀ σ' ∈ finalStore c, Agrees (bodyScope cg f) σ' last.regs := by
  obtain ⟨P, hP, ⟨k⟩⟩ := functionCode hs
  obtain ⟨g, hrun, hg⟩ := k.enters W hargs σ
  have hsim : ∀ fuel, Follows (bodyScope cg f) (k.pb.emit (lastInst f)) P W
      (fuel - sizeOf f.body) [] k.pb.code.length g
      (exec (bodyScope cg f) W fuel f.body (entryStore f args σ)) := fun fuel =>
    simulates k.built (distinct_bodyScope cg f) fuel f.body k.body (within_bodyScope cg f)
      k.extends_last hg
  have hend : ∀ fuel c, exec (bodyScope cg f) W fuel f.body (entryStore f args σ) = some c →
      ∃ n last, Halts (step P W) n (callFrame P args) last (callResult f c) ∧
        ∀ σ' ∈ finalStore c, Agrees (bodyScope cg f) σ' last.regs := by
    intro fuel c hc
    have h := hsim fuel
    rw [hc] at h
    cases c with
    | normal σ' =>
      obtain ⟨n, last, -, hrun', hlast⟩ := h
      refine ⟨1 + n, last, ⟨hrun.trans hrun', k.leaves W hlast⟩, ?_⟩
      rintro _ ⟨⟩
      exact hlast.agrees
    | returned value σ' =>
      obtain ⟨n, last, hh, ha⟩ := h
      refine ⟨1 + n, last, hh.prepend hrun, ?_⟩
      rintro _ ⟨⟩
      exact ha
    | panic =>
      obtain ⟨n, last, hh⟩ := h
      exact ⟨1 + n, last, hh.prepend hrun, fun _ h => nomatch h⟩
    | breakLoop σ' | continueLoop σ' =>
      obtain ⟨_, _, _, _, hloops, -⟩ := h
      cases hloops
  refine ⟨P, hP, ?_, ⟨?_, ?_⟩, hend⟩
  · intro n g' hrun'
    have hlen : P.code.length = k.pb.code.length + 1 :=
      (ProgramBuilder.length_build k.built.build).trans List.length_append
    have hpc : g'.pc ≤ k.pb.code.length := pc_within k.built k.wf (k.stops W) hrun' (Nat.zero_le _)
    rw [hlen]
    exact Nat.lt_succ_of_le hpc
  · rintro ⟨n, last, r, hh⟩
    by_contra hnone
    have hfuel :
        exec (bodyScope cg f) W (n + sizeOf f.body) f.body (entryStore f args σ) = none := by
      rw [Option.eq_none_iff_forall_ne_some]
      exact fun c hc => hnone ⟨_, c, hc⟩
    have h := hsim (n + sizeOf f.body)
    rw [hfuel, Nat.add_sub_cancel] at h
    obtain ⟨m, g', hm, hrun'⟩ := h
    have hle := (hh.after (hrun.trans hrun')).1
    omega
  · rintro ⟨fuel, c, hc⟩
    obtain ⟨n, last, hh, -⟩ := hend fuel c hc
    exact ⟨n, last, _, hh⟩

/-- No names outside the function. -/
def emptyScope : CodeGen where
  locals _ := none
  localSigned _ := none
  vars _ := none
  varWidths _ := none
  varSigned _ := none
  consts _ := none
  memories _ := none
  nets _ := none
  netSigned _ := none
  returnType := none

/-- Counts down to one, and leaves the loop through a break. -/
def countdown : FuncDecl where
  name := "countdown"
  params := [("n", 8, false)]
  isVoid := false
  retWidth := 8
  retSigned := false
  body := .whileLoop (.ref "n") (.block [
    .ifElse (.binary .eq (.ref "n") (.literal (.zero 1))) .breakLoop none,
    .blocking "countdown" (.ref "n"),
    .blocking "n" (.binary .shr (.ref "n") (.unary .logNot (.literal (.zero 1))))])

theorem scoped_countdown : Scoped (bodyScope emptyScope countdown) false countdown.body := by
  have hn : Resolves (bodyScope emptyScope countdown) (.ref "n") := .ref (.inl (by decide))
  have hzero : Resolves (bodyScope emptyScope countdown) (.literal (.zero 1)) := .literal _
  refine .whileLoop false hn (.block fun s hs => ?_)
  simp only [List.mem_cons, List.not_mem_nil, or_false] at hs
  rcases hs with rfl | rfl | rfl
  · exact .ifElse (.binary _ hn hzero) .breakLoop (fun _ h => nomatch h)
  · exact .blocking true (by decide) hn
  · exact .blocking true (by decide) (.binary _ hn (.unary _ hzero))

theorem control_flow_countdown : ∃ P, emptyScope.genCallable countdown = some P ∧
    ∃ n last r, Halts (step P ⟨fun _ => .zero 1, fun _ => .null⟩) n
      (callFrame P [.logic (.filled .one 8)]) last r := by
  obtain ⟨P, hP, -, hiff, -⟩ := control_flow emptyScope countdown ⟨fun _ => .zero 1, fun _ => .null⟩
    scoped_countdown [.logic (.filled .one 8)] rfl fun _ => .null
  refine ⟨P, hP, hiff.mpr ⟨16, ?_⟩⟩
  exact Option.isSome_iff_exists.mp (by decide)

end Eevee.Elab.Callable
