/- The interpreter on one frame, with what single instructions do. -/

import Mathlib.Data.List.Basic
import Mathlib.Tactic.Common
import Eevee.Ir.Emission
import Eevee.Lib.Machine

set_option autoImplicit false
set_option relaxedAutoImplicit false

namespace Eevee.Ir.Interp

open Eevee.Core.Logic
open Eevee.Ir.Inst
open Eevee.Ir.Values
open Eevee.Ir.Builder
open Eevee.Ir.Emission
open Eevee.Lib.Machine

structure Frame where
  pc : Nat
  regs : List Value

/-- How a run of a frame ends. -/
inductive Stop
  | returned (value : Option Value)
  | finished
  | panic
  deriving DecidableEq

/-- The operands of an instruction, read from the registers. -/
def operands (regs : List Value) : LogicInst Reg → Option (LogicInst Value)
  | .unary op a => do return .unary op (← regs[a]?)
  | .binary op a b => do return .binary op (← regs[a]?) (← regs[b]?)
  | .select condition whenTrue whenFalse => do
    return .select (← regs[condition]?) (← regs[whenTrue]?) (← regs[whenFalse]?)
  | .partSelect base left right => do
    return .partSelect (← regs[base]?) (← regs[left]?) (← regs[right]?)
  | .concat args => do return .concat (← args.mapM (regs[·]?))
  | .resize src width signed => do return .resize (← regs[src]?) width signed

/-- The destination of an instruction that computes a value, with the value; no value where a
register does not exist or an assertion fails. -/
def computed (P : Program) (W : World) (regs : List Value) : Inst → Option (Reg × Option Value)
  | .loadConst dst k => some (dst, (P.consts[k]?).map .logic)
  | .mov dst src | .assign dst src => some (dst, regs[src]?)
  | .netRead dst net => some (dst, some (.logic (W.nets net)))
  | .staticGet dst id => some (dst, some (W.statics id))
  | .memoryRead dst memory index => some (dst, do
      let memory ← P.memories[memory]?
      let index ← regs[index]?
      return .logic (memoryRead W memory index.asLogic))
  | .isKnown dst a => some (dst, (regs[a]?).map fun v => .logic (.fromBool v.isKnown))
  | .logic dst op => some (dst, (operands regs op).bind execValue)
  | .concat dst args => some (dst, do
      let args ← P.arglists[args]?
      let values ← args.mapM (regs[·]?)
      execValue (.concat values))
  | .jump _ | .branchFalse _ _ | .branchTrue _ _ | .ret _ | .returnVoid | .finish => none

/-- The value goes to the destination register; a register that does not exist is a panic. -/
def write (f : Frame) (dst : Reg) (value : Option Value) : Outcome Frame Stop :=
  match value with
  | some value =>
    if dst < f.regs.length then .next ⟨f.pc + 1, f.regs.set dst value⟩ else .halt .panic
  | none => .halt .panic

/-- The branch on a condition register. -/
def branch (f : Frame) (cond : Reg) (onTrue onFalse : Nat) : Outcome Frame Stop :=
  match f.regs[cond]? with
  | some value => .next { f with pc := if value.truthy then onTrue else onFalse }
  | none => .halt .panic

def control (f : Frame) : Inst → Outcome Frame Stop
  | .jump target => .next { f with pc := target }
  | .branchFalse cond target => branch f cond (f.pc + 1) target
  | .branchTrue cond target => branch f cond target (f.pc + 1)
  | .ret value =>
    match f.regs[value]? with
    | some value => .halt (.returned (some value))
    | none => .halt .panic
  | .returnVoid => .halt (.returned none)
  | _ => .halt .finished

/-- Fetch and execute one instruction; a code position past the end is a panic. -/
def step (P : Program) (W : World) (f : Frame) : Outcome Frame Stop :=
  match P.code[f.pc]? with
  | none => .halt .panic
  | some inst =>
    match computed P W f.regs inst with
    | some (dst, value) => write f dst value
    | none => control f inst

section Steps

variable {P : Program} {W : World} {f : Frame} {inst : Inst}

theorem step_computed (h : P.code[f.pc]? = some inst) {dst : Reg} {value : Option Value}
    (hc : computed P W f.regs inst = some (dst, value)) : step P W f = write f dst value := by
  unfold step
  rw [h]
  dsimp only
  rw [hc]

theorem step_control (h : P.code[f.pc]? = some inst) (hc : computed P W f.regs inst = none) :
    step P W f = control f inst := by
  unfold step
  rw [h]
  dsimp only
  rw [hc]

theorem step_ret {r : Reg} {v : Value} (h : P.code[f.pc]? = some (.ret r))
    (hr : f.regs[r]? = some v) : step P W f = .halt (.returned (some v)) := by
  rw [step_control h rfl]
  simp only [control, hr]

theorem step_returnVoid (h : P.code[f.pc]? = some .returnVoid) :
    step P W f = .halt (.returned none) := step_control h rfl

/-- A return never goes on. -/
theorem step_ret_ne_next {r : Reg} (h : P.code[f.pc]? = some (.ret r)) (g : Frame) :
    step P W f ≠ .next g := by
  rw [step_control h rfl]
  intro hnext
  cases hr : f.regs[r]? <;> simp [control, hr] at hnext

end Steps

section Branches

variable {F pb : ProgramBuilder} {P : Program} {W : World} {regs : List Value} (hb : Built F P)
include hb

theorem step_jump {l : Label} {target : Nat} (hx : Extends (pb.jump l) F) (hl : F.Bound l target) :
    step P W ⟨pb.code.length, regs⟩ = .next ⟨target, regs⟩ :=
  step_control (f := ⟨pb.code.length, regs⟩) (hb.code_emitTo hx hl) rfl

theorem step_branchTrue {r : Reg} {l : Label} {target : Nat} {v : Value}
    (hx : Extends (pb.branchTrue r l) F) (hl : F.Bound l target) (hr : regs[r]? = some v) :
    step P W ⟨pb.code.length, regs⟩ =
      .next ⟨if v.truthy then target else pb.code.length + 1, regs⟩ := by
  rw [step_control (f := ⟨pb.code.length, regs⟩) (hb.code_emitTo hx hl) rfl]
  show branch _ _ _ _ = _
  unfold branch
  rw [hr]

theorem step_branchFalse {r : Reg} {l : Label} {target : Nat} {v : Value}
    (hx : Extends (pb.branchFalse r l) F) (hl : F.Bound l target) (hr : regs[r]? = some v) :
    step P W ⟨pb.code.length, regs⟩ =
      .next ⟨if v.truthy then pb.code.length + 1 else target, regs⟩ := by
  rw [step_control (f := ⟨pb.code.length, regs⟩) (hb.code_emitTo hx hl) rfl]
  show branch _ _ _ _ = _
  unfold branch
  rw [hr]

end Branches

/-! ### Runs that deliver a value -/

/-- The registers below `n` are the same. -/
structure SameBelow (n : Nat) (regs regs' : List Value) : Prop where
  length : regs'.length = regs.length
  get : ∀ r < n, regs'[r]? = regs[r]?

namespace SameBelow

variable {n : Nat} {regs regs' regs'' : List Value}

theorem refl (n : Nat) (regs : List Value) : SameBelow n regs regs := ⟨rfl, fun _ _ => rfl⟩

theorem trans (h : SameBelow n regs regs') (h' : SameBelow n regs' regs'') :
    SameBelow n regs regs'' :=
  ⟨h'.length.trans h.length, fun r hr => (h'.get r hr).trans (h.get r hr)⟩

theorem mono {m : Nat} (h : SameBelow n regs regs') (hm : m ≤ n) : SameBelow m regs regs' :=
  ⟨h.length, fun r hr => h.get r (Nat.lt_of_lt_of_le hr hm)⟩

theorem set {dst : Reg} (hd : n ≤ dst) (v : Value) : SameBelow n regs (regs.set dst v) :=
  ⟨List.length_set, fun _ hr => List.getElem?_set_ne (Nat.ne_of_gt (Nat.lt_of_lt_of_le hr hd))⟩

end SameBelow

/-- From `f` the machine reaches code position `pc` in registers that hold the value, those below
`n` unchanged; without a value it panics. -/
def Delivers {β : Type} (P : Program) (W : World) (f : Frame) (pc n : Nat)
    (holds : List Value → β → Prop) : Option β → Prop
  | some v => ∃ k regs, Runs (step P W) k f ⟨pc, regs⟩ ∧ holds regs v ∧ SameBelow n f.regs regs
  | none => ∃ k last, Halts (step P W) k f last .panic

namespace Delivers

variable {β γ : Type} {P : Program} {W : World} {f : Frame} {pc n : Nat}
  {holds : List Value → β → Prop} {value : Option β}

theorem mono {m : Nat} (h : Delivers P W f pc n holds value) (hm : m ≤ n) :
    Delivers P W f pc m holds value := by
  cases value with
  | none => exact h
  | some v =>
    obtain ⟨k, regs, hrun, hr, hs⟩ := h
    exact ⟨k, regs, hrun, hr, hs.mono hm⟩

theorem prepend {k : Nat} {regs : List Value} {pc' : Nat}
    (hrun : Runs (step P W) k f ⟨pc', regs⟩) (hs : SameBelow n f.regs regs)
    (h : Delivers P W ⟨pc', regs⟩ pc n holds value) : Delivers P W f pc n holds value := by
  cases value with
  | none =>
    obtain ⟨k', last, hh⟩ := h
    exact ⟨k + k', last, hh.prepend hrun⟩
  | some v =>
    obtain ⟨k', regs', hrun', hr, hs'⟩ := h
    exact ⟨k + k', regs', hrun.trans hrun', hr, hs.trans hs'⟩

/-- First one value is computed, then one that may depend on it; the second may change registers
that the first keeps. -/
theorem bind {m pc' : Nat} {holds' : List Value → γ → Prop} {next : β → Option γ}
    (h : Delivers P W f pc m holds value) (hm : n ≤ m)
    (hnext : ∀ v regs, holds regs v → SameBelow m f.regs regs →
      Delivers P W ⟨pc, regs⟩ pc' n holds' (next v)) :
    Delivers P W f pc' n holds' (value.bind next) := by
  cases value with
  | none => exact h
  | some v =>
    obtain ⟨k, regs, hrun, hr, hs⟩ := h
    exact prepend hrun (hs.mono hm) (hnext v regs hr hs)

/-- A further step that changes the code position only. -/
theorem goto {pc' : Nat} (h : Delivers P W f pc n holds value)
    (hstep : ∀ regs, step P W ⟨pc, regs⟩ = .next ⟨pc', regs⟩) :
    Delivers P W f pc' n holds value := by
  cases value with
  | none => exact h
  | some v =>
    obtain ⟨k, regs, hrun, hr, hs⟩ := h
    exact ⟨k + 1, regs, hrun.trans (.single (hstep regs)), hr, hs⟩

/-- One instruction that computes a value. -/
theorem computed {inst : Inst} {r : Reg} {value : Option Value} (hi : P.code[f.pc]? = some inst)
    (hc : Interp.computed P W f.regs inst = some (r, value)) (hn : n ≤ r) (hr : r < f.regs.length) :
    Delivers P W f (f.pc + 1) n (fun regs v => regs[r]? = some v) value := by
  have hstep := step_computed hi hc
  cases value with
  | none => exact ⟨0, f, .refl f, hstep⟩
  | some v =>
    have hnext : step P W f = .next ⟨f.pc + 1, f.regs.set r v⟩ := by
      rw [hstep]
      exact if_pos hr
    exact ⟨1, f.regs.set r v, .single hnext, List.getElem?_set_self hr, .set hn v⟩

end Delivers

end Eevee.Ir.Interp
