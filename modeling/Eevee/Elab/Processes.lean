/- Processes whose code calls the kernel: the interpreter up to the next wait. -/

import Mathlib.Tactic.Common
import Eevee.Ir.Interp
import Eevee.Sched.Simulation

set_option autoImplicit false
set_option relaxedAutoImplicit false

namespace Eevee.Elab.Processes

open Eevee.Ir.Builder (Inst Program Reg)
open Eevee.Ir.Interp
open Eevee.Ir.Values
open Eevee.Lib.Machine
open Eevee.Sched.Nets (DriverId NetId DriveDelay EdgeKind)
open Eevee.Sched.Scheduler (Wait Kernel)
open Eevee.Sched.Simulation (Call Sim)

/-- An instruction of a process: one that works on its frame, one that calls the kernel, or one that
suspends the process. -/
inductive Op
  | inst (i : Inst)
  | driveNet (driver : DriverId) (src : Reg)
  | scheduleDrive (driver : DriverId) (src : Reg) (delayFs : Nat)
  | scheduleDriveTransitions (driver : DriverId) (src : Reg) (delays : DriveDelay)
  | nbaWrite (net : NetId) (src : Reg)
  | waitCond (nets : List NetId)
  | waitEdge (net : NetId) (edge : EdgeKind)

/-- The program that the frame instructions belong to, and the whole code. -/
structure Process where
  body : Program
  code : List Op

/-! ### Execution -/

/-- One instruction that works on the frame. -/
def execInst (P : Program) (W : World) (f : Frame) (i : Inst) : Outcome Frame Stop :=
  match computed P W f.regs i with
  | some (dst, value) => write f dst value
  | none => control f i

/-- The call of the kernel in which an instruction results. -/
def callOf (regs : List Value) : Op → Option Call
  | .driveNet driver src => (regs[src]?).map fun v => .driveNet driver v.asLogic
  | .scheduleDrive driver src delayFs =>
    (regs[src]?).map fun v => .scheduleDrive driver v.asLogic delayFs
  | .scheduleDriveTransitions driver src delays =>
    (regs[src]?).map fun v => .scheduleDriveTransitions driver v.asLogic delays
  | .nbaWrite net src => (regs[src]?).map fun v => .scheduleNba net v.asLogic
  | .inst _ | .waitCond _ | .waitEdge _ _ => none

/-- The wait with which an instruction suspends the process. -/
def waitOf : Op → Option Wait
  | .waitCond nets => some (.cond nets)
  | .waitEdge net edge => some (.edge net edge)
  | _ => none

/-- Run the process until it suspends, for so many instructions at most; none where it panics. -/
def resume (P : Process) (statics : Nat → Value) : Nat → Sim → Frame → Option (Sim × Frame)
  | 0, _, _ => none
  | fuel + 1, s, f =>
    match P.code[f.pc]? with
    | none => none
    | some (.inst .finish) => (Eevee.Sched.Simulation.step (.suspend .finished) s).map (·, f)
    | some (.inst i) =>
      match execInst P.body ⟨s.kernel.netValue, statics⟩ f i with
      | .next f => resume P statics fuel s f
      | .halt _ => none
    | some op =>
      match waitOf op with
      | some wait =>
        (Eevee.Sched.Simulation.step (.suspend wait) s).map (·, { f with pc := f.pc + 1 })
      | none => (callOf f.regs op).bind fun call =>
        (Eevee.Sched.Simulation.step (.call call) s).bind fun s =>
          resume P statics fuel s { f with pc := f.pc + 1 }

section

variable {P : Process} {statics : Nat → Value} {s : Sim} {f : Frame} {fuel : Nat}

/-- More instructions than needed do no harm. -/
theorem resume_succ {r : Sim × Frame} (h : resume P statics fuel s f = some r) :
    resume P statics (fuel + 1) s f = some r := by
  induction fuel generalizing s f with
  | zero => cases h
  | succ fuel ih =>
    rw [resume] at h ⊢
    split at h
    · cases h
    · exact h
    · split at h
      · exact ih h
      · cases h
    · split at h
      · exact h
      · obtain ⟨call, hcall, h⟩ := Option.bind_eq_some_iff.mp h
        obtain ⟨s₁, hs, h⟩ := Option.bind_eq_some_iff.mp h
        exact Option.bind_eq_some_iff.mpr ⟨call, hcall, Option.bind_eq_some_iff.mpr ⟨s₁, hs, ih h⟩⟩

theorem resume_add {r : Sim × Frame} (n : Nat) (h : resume P statics fuel s f = some r) :
    resume P statics (n + fuel) s f = some r := by
  induction n with
  | zero => rwa [Nat.zero_add]
  | succ n ih =>
    rw [Nat.add_right_comm]
    exact resume_succ ih

theorem resume_inst {i : Inst} (hi : P.code[f.pc]? = some (.inst i)) (hfin : i ≠ .finish) :
    resume P statics (fuel + 1) s f =
      match execInst P.body ⟨s.kernel.netValue, statics⟩ f i with
      | .next f => resume P statics fuel s f
      | .halt _ => none := by
  rw [resume, hi]
  cases i <;> first | exact absurd rfl hfin | rfl

theorem resume_call {op : Op} {call : Call} (hop : P.code[f.pc]? = some op)
    (hcall : callOf f.regs op = some call) : resume P statics (fuel + 1) s f =
      (Eevee.Sched.Simulation.step (.call call) s).bind fun s =>
        resume P statics fuel s { f with pc := f.pc + 1 } := by
  rw [resume, hop]
  cases op with
  | inst | waitCond | waitEdge => cases hcall
  | _ =>
    dsimp only [waitOf]
    rw [hcall]
    rfl

theorem resume_wait {op : Op} {wait : Wait} (hop : P.code[f.pc]? = some op)
    (hwait : waitOf op = some wait) : resume P statics (fuel + 1) s f =
      (Eevee.Sched.Simulation.step (.suspend wait) s).map (·, { f with pc := f.pc + 1 }) := by
  rw [resume, hop]
  cases op with
  | waitCond | waitEdge =>
    cases hwait
    rfl
  | _ => cases hwait

/-! ### Programs within the code -/

/-- The instructions of a program stand in the code of the process; at its `Finish` the code may
have anything. -/
structure Stands (Q : Program) (P : Process) : Prop where
  code : ∀ {i : Nat} {inst : Inst}, Q.code[i]? = some inst → inst ≠ .finish →
    P.code[i]? = some (.inst inst)
  computed : ∀ W regs inst, computed P.body W regs inst = computed Q W regs inst

variable {Q : Program}

theorem Stands.execInst (h : Stands Q P) {i : Inst} {W : World} (hi : Q.code[f.pc]? = some i) :
    execInst P.body W f i = step Q W f := by
  unfold Processes.execInst step
  rw [hi]
  dsimp only
  exact h.computed W f.regs i ▸ rfl

/-- A step of the program is a step of the process. -/
theorem Stands.resume_step (h : Stands Q P) {g : Frame}
    (hs : step Q ⟨s.kernel.netValue, statics⟩ f = .next g) :
    resume P statics (fuel + 1) s f = resume P statics fuel s g := by
  cases hi : Q.code[f.pc]? with
  | none =>
    unfold step at hs
    rw [hi] at hs
    cases hs
  | some i =>
    have hfin : i ≠ .finish := by
      rintro rfl
      rw [step_control hi rfl] at hs
      cases hs
    rw [resume_inst (h.code hi hfin) hfin, h.execInst hi, hs]

theorem Stands.resume_runs (h : Stands Q P) {n : Nat} {g : Frame}
    (hr : Runs (step Q ⟨s.kernel.netValue, statics⟩) n f g) :
    resume P statics (n + fuel) s f = resume P statics fuel s g := by
  induction hr with
  | refl f => rw [Nat.zero_add]
  | @head n a b c hs _ ih => rw [Nat.add_right_comm, h.resume_step hs, ih]

/-- Where the program panics, the process does. -/
theorem Stands.resume_panics (h : Stands Q P) {n : Nat} {last : Frame}
    (hp : Halts (step Q ⟨s.kernel.netValue, statics⟩) n f last .panic)
    (hend : Q.code[last.pc]? = none → P.code[last.pc]? = none) (fuel : Nat) :
    resume P statics fuel s f = none := by
  obtain ⟨hr, hlast⟩ := hp
  cases hres : resume P statics fuel s f with
  | none => rfl
  | some r =>
    have hmore := resume_add n (resume_succ hres)
    rw [h.resume_runs hr] at hmore
    cases hi : Q.code[last.pc]? with
    | none =>
      rw [resume, hend hi] at hmore
      cases hmore
    | some i =>
      have hfin : i ≠ .finish := by
        rintro rfl
        rw [step_control hi rfl] at hlast
        cases hlast
      rw [resume_inst (h.code hi hfin) hfin, h.execInst hi, hlast] at hmore
      cases hmore

end

end Eevee.Elab.Processes
