/- The processes of continuous assignments and of port bridges, and what one activation of them
does. -/

import Mathlib.Tactic.Common
import Eevee.Elab.Callable
import Eevee.Elab.Processes
import Eevee.Elab.ReadSets

set_option autoImplicit false
set_option relaxedAutoImplicit false

namespace Eevee.Elab.Continuous

open Eevee.Ast.Syntax
open Eevee.Core.Logic
open Eevee.Ir.Builder
open Eevee.Ir.Emission
open Eevee.Ir.Inst
open Eevee.Ir.Interp
open Eevee.Ir.Values
open Eevee.Lib.Machine
open Eevee.Elab.Callable (emptyScope pc_within)
open Eevee.Elab.Evaluation
open Eevee.Elab.ExprCode
open Eevee.Elab.Generator
open Eevee.Elab.Processes
open Eevee.Elab.ReadSets
open Eevee.Sched.Nets (DriverId NetId DriveDelay)
open Eevee.Sched.Scheduler (Wait Kernel)
open Eevee.Sched.Simulation (Call Sim)

/-! ### Programs -/

inductive CompiledContinuousDelay
  | single (fs : Nat)
  | transitions (delays : DriveDelay)

def driveOp (driver : DriverId) (value : Reg) : Option CompiledContinuousDelay → Op
  | some (.single delayFs) => .scheduleDrive driver value delayFs
  | some (.transitions delays) => .scheduleDriveTransitions driver value delays
  | none => .driveNet driver value

/-- Evaluate, drive, wait for a change of a net that has been read, and begin again. The label of
the evaluation is bound to the first instruction. -/
def genProcess (evaluation : Emit Reg) (driver : DriverId) (delay : Option CompiledContinuousDelay)
    (reads : List NetId) : Option Process := do
  let (value, pb) ← (do
    let evaluate ← newLabel
    bindLabel evaluate
    evaluation : Emit Reg) .new
  let body ← pb.build
  let last := if reads = [] then [.inst .finish] else [.waitCond reads, .inst (.jump 0)]
  return ⟨body, body.code.map .inst ++ driveOp driver value delay :: last⟩

/-- What drives a net: an assignment in a module, or the bridge between a port and its
connection. -/
inductive Source
  | assign (cg : CodeGen) (rhs : Expr) (width : Nat) (delay : Option CompiledContinuousDelay)
  | bridge (source : NetId) (signed : Bool) (width : Nat)

namespace Source

def delay : Source → Option CompiledContinuousDelay
  | .assign _ _ _ delay => delay
  | .bridge _ _ _ => none

/-- The nets whose changes start a new evaluation. -/
def reads : Source → List NetId
  | .assign cg rhs _ _ => collectNetReads cg [] rhs
  | .bridge source _ _ => [source]

def evaluation : Source → Emit Reg
  | .assign cg rhs width _ => cg.genExprAtWidth rhs width
  | .bridge source signed width => do
    let src ← emitNew (.netRead · source)
    emitNew (.logic · (.resize src width signed))

/-- `gen_continuous`, or the program of `add_port_bridge`. -/
def program (src : Source) (driver : DriverId) : Option Process :=
  genProcess src.evaluation driver src.delay src.reads

/-- The value that is driven, where there are these nets and package variables. -/
def value (src : Source) (W : World) : Option Value :=
  match src with
  | .assign cg rhs width _ => evalAtWidth cg W (fun _ => .null) rhs width
  | .bridge source signed width => some (.logic ((W.nets source).resize width signed))

def call (src : Source) (driver : DriverId) (v : PackedVec) : Call :=
  match src.delay with
  | some (.single delayFs) => .scheduleDrive driver v delayFs
  | some (.transitions delays) => .scheduleDriveTransitions driver v delays
  | none => .driveNet driver v

def wait (src : Source) : Wait := if src.reads = [] then .finished else .cond src.reads

/-- The code generator of a module has no local variables, and the right-hand side is made of nets,
memories and constants. -/
def Plain : Source → Prop
  | .assign cg rhs _ _ => (∀ name, cg.locals name = none) ∧ netsOnly cg rhs = true
  | .bridge _ _ _ => True

end Source

/-! ### The code of the evaluation -/

theorem patches_append {labels : List (Option Nat)} {patches : List (Nat × Label)}
    {code code' : List Inst} (h : patches.foldlM (ProgramBuilder.patch labels) code = some code')
    (inst : Inst) :
    patches.foldlM (ProgramBuilder.patch labels) (code ++ [inst]) = some (code' ++ [inst]) := by
  induction patches generalizing code with
  | nil =>
    cases h
    rfl
  | cons p patches ih =>
    rw [List.foldlM_cons] at h ⊢
    obtain ⟨code₁, hp, hrest⟩ := Option.bind_eq_some_iff.mp h
    obtain ⟨target, i, i', hl, hc, hr, rfl⟩ := ProgramBuilder.patch_eq_some.mp hp
    have hlt := (List.getElem?_eq_some_iff.mp hc).1
    have hp' : ProgramBuilder.patch labels (code ++ [inst]) p =
        some (code.set p.1 i' ++ [inst]) :=
      ProgramBuilder.patch_eq_some.mpr ⟨target, i, i', hl, getElem?_snoc hc, hr,
        (List.set_append_left _ _ hlt).symm⟩
    rw [hp']
    exact ih hrest

/-- The code of the evaluation, with an end. -/
def ended (P : Process) : Program := { P.body with code := P.body.code ++ [.finish] }

/-- What the generator has made of a source. -/
structure Generated (src : Source) (driver : DriverId) (P : Process) where
  (pb : ProgramBuilder)
  (result : Reg)
  start : src.evaluation ((ProgramBuilder.new.newLabel.2).bind 0) = some (result, pb)
  build : pb.build = some P.body
  code : P.code = P.body.code.map .inst ++ driveOp driver result src.delay ::
    if src.reads = [] then [.inst .finish] else [.waitCond src.reads, .inst (.jump 0)]

theorem generated {src : Source} {driver : DriverId} {P : Process}
    (h : src.program driver = some P) : Nonempty (Generated src driver P) := by
  obtain ⟨⟨result, pb⟩, hrun, h⟩ := Option.bind_eq_some_iff.mp h
  obtain ⟨body, hbuild, h⟩ := Option.bind_eq_some_iff.mp h
  rw [newLabel_bind, bindLabel_bind] at hrun
  cases h
  exact ⟨pb, result, hrun, hbuild, rfl⟩

/-- The names that the evaluation of a source may use. -/
def Source.scope : Source → CodeGen
  | .assign cg _ _ _ => cg
  | .bridge _ _ _ => emptyScope

theorem Source.Plain.locals {src : Source} (h : src.Plain) (name : String) :
    src.scope.locals name = none := by
  cases src with
  | assign cg rhs width delay => exact h.1 name
  | bridge source signed width => rfl

theorem generates_evaluation (src : Source) (pb : ProgramBuilder) :
    Generates src.scope pb (fun _ => True) src.evaluation
      fun W σ => match src with
        | .assign cg rhs width _ => evalAtWidth cg W σ rhs width
        | .bridge source signed width => some (.logic ((W.nets source).resize width signed)) := by
  cases src with
  | assign cg rhs width delay => exact generates_atWidth rhs width pb
  | bridge source signed width =>
    have hread : Generates (α := Reg) emptyScope pb (fun _ => True) (emitNew (.netRead · source))
        fun W _ => some (Value.logic (W.nets source)) :=
      .instruction (fun _ => rfl) fun _ _ _ _ _ _ => rfl
    have hresize (a : Reg) (v : Value) (pb₁ : ProgramBuilder) :
        Generates (α := Reg) emptyScope pb₁ (fun regs => True ∧ Place.holds a regs v)
          (emitNew (.logic · (.resize a width signed)))
          fun _ _ => execValue (.resize v width signed) :=
      .instruction (fun _ => rfl) fun _ _ hp W σ dst => computed_resize width signed hp.2
    exact hread.bind (stable_true _) fun a v pb₁ _ _ _ => hresize a v pb₁

theorem grows_start : Grows 0 [] ProgramBuilder.new ((ProgramBuilder.new.newLabel.2).bind 0) :=
  (grows_newLabel _ (Nat.zero_le _)).trans (grows_bind _ (unbound_newLabel _) (Nat.zero_le _))

namespace Generated

variable {src : Source} {driver : DriverId} {P : Process}

theorem grows (k : Generated src driver P) (h : src.Plain) :
    Grows 0 [] ProgramBuilder.new k.pb ∧ k.result < k.pb.nRegs := by
  have hwithin : Within src.scope ((ProgramBuilder.new.newLabel.2).bind 0).nRegs := by
    intro name reg width hl
    rw [h.locals] at hl
    cases hl
  obtain ⟨hg, hbelow⟩ := (generates_evaluation src _).grows k.start hwithin
  exact ⟨grows_start.trans (hg.mono (Nat.zero_le _) fun _ hl => hl), hbelow⟩

theorem built (k : Generated src driver P) (h : src.Plain) :
    Built (k.pb.emit .finish) (ended P) := by
  have hw : k.pb.Wf := (k.grows h).1.wf ProgramBuilder.wf_new
  obtain ⟨hcode, hc, hm, ha, hn⟩ := ProgramBuilder.build_eq_some.mp k.build
  exact ⟨(grows_emit 0 [] k.pb rfl).wf hw,
    ProgramBuilder.build_eq_some.mpr ⟨patches_append hcode .finish, hc, hm, ha, hn⟩⟩

theorem length_code (k : Generated src driver P) : P.body.code.length = k.pb.code.length :=
  ProgramBuilder.length_build k.build

/-- The evaluation leaves the value in the result register, or it panics on the way. -/
theorem evaluates (k : Generated src driver P) (h : src.Plain) (W : World) {regs : List Value}
    (hlen : P.body.nRegs ≤ regs.length) :
    Delivers (ended P) W ⟨0, regs⟩ P.body.code.length 0
      (fun regs v => regs[k.result]? = some v) (src.value W) := by
  obtain ⟨-, -, -, -, hn⟩ := ProgramBuilder.build_eq_some.mp k.build
  have hwithin : Within src.scope ((ProgramBuilder.new.newLabel.2).bind 0).nRegs := by
    intro name reg width hl
    rw [h.locals] at hl
    cases hl
  have hagrees : Agrees src.scope (fun _ => .null) regs := by
    intro name reg width hl
    rw [h.locals] at hl
    cases hl
  rw [k.length_code]
  have hdelivers :=
    (generates_evaluation src _).delivers k.start hwithin (extends_emit k.pb .finish)
    (k.built h) (W := W) hagrees trivial (hn ▸ hlen)
  cases src <;> exact hdelivers

end Generated

/-! ### Activations -/

section

variable {src : Source} {driver : DriverId} {P : Process} {statics : Nat → Value} {s s' : Sim}
  {f f' g : Frame} {fuel : Nat}

theorem computed_ended (W : World) (regs : List Value) (i : Inst) :
    computed (ended P) W regs i = computed P.body W regs i := by
  cases i <;> rfl

namespace Generated

variable (k : Generated src driver P)
include k

theorem code_body {pc : Nat} {i : Inst} (h : P.body.code[pc]? = some i) :
    P.code[pc]? = some (.inst i) := by
  have hlt := (List.getElem?_eq_some_iff.mp h).1
  rw [k.code, List.getElem?_append_left (by rwa [List.length_map]), List.getElem?_map, h]
  rfl

theorem stands : Stands (ended P) P where
  code {i inst} hi hfin := by
    rcases getElem?_snoc_lt hi with hi | ⟨-, rfl⟩
    · exact k.code_body hi
    · exact absurd rfl hfin
  computed W regs inst := (computed_ended W regs inst).symm

theorem pc_evaluation (h : src.Plain) {W : World} {regs : List Value} {n : Nat}
    (hr : Runs (step (ended P) W) n ⟨0, regs⟩ g) : g.pc ≤ P.body.code.length := by
  rw [k.length_code]
  refine pc_within (k.built h) ((k.grows h).1.wf ProgramBuilder.wf_new) ?_ hr (Nat.zero_le _)
  intro regs f' hnext
  have hlast := (k.built h).code_emit (Extends.refl _) rfl
  rw [step_control hlast rfl] at hnext
  cases hnext

/-- The position at which the process goes on after a wait: the jump back. -/
def restart (P : Process) : Nat := P.body.code.length + 2

theorem code_drive : P.code[P.body.code.length]? = some (driveOp driver k.result src.delay) := by
  rw [k.code]
  exact List.getElem?_append_right (by rw [List.length_map]) |>.trans (by simp)

theorem code_wait (hne : src.reads ≠ []) :
    P.code[P.body.code.length + 1]? = some (.waitCond src.reads) := by
  rw [k.code, if_neg hne]
  exact List.getElem?_append_right (by simp) |>.trans (by simp)

theorem code_finish (he : src.reads = []) :
    P.code[P.body.code.length + 1]? = some (.inst .finish) := by
  rw [k.code, if_pos he]
  exact List.getElem?_append_right (by simp) |>.trans (by simp)

theorem code_restart (hne : src.reads ≠ []) : P.code[restart P]? = some (.inst (.jump 0)) := by
  rw [k.code, if_neg hne]
  exact List.getElem?_append_right (by simp [restart]) |>.trans (by simp [restart])

theorem callOf_drive {regs : List Value} {v : Value} (hv : regs[k.result]? = some v) :
    callOf regs (driveOp driver k.result src.delay) = some (src.call driver v.asLogic) := by
  unfold Source.call
  cases src.delay with
  | none => simp [driveOp, callOf, hv]
  | some delay => cases delay <;> simp [driveOp, callOf, hv]

/-- Where an activation may begin: at the first instruction, or at the jump back. -/
def Starts (src : Source) (P : Process) (f : Frame) : Prop :=
  P.body.nRegs ≤ f.regs.length ∧ (f.pc = 0 ∨ src.reads ≠ [] ∧ f.pc = restart P)

/-- The frame after an activation that began with these registers. -/
def parked (src : Source) (P : Process) (regs : List Value) : Frame :=
  ⟨if src.reads = [] then P.body.code.length + 1 else restart P, regs⟩

theorem resume_wait {regs : List Value} :
    resume P statics (fuel + 1) s ⟨P.body.code.length + 1, regs⟩ =
      (Eevee.Sched.Simulation.step (.suspend src.wait) s).map (·, parked src P regs) := by
  unfold Source.wait parked
  by_cases he : src.reads = []
  · rw [resume, k.code_finish he, if_pos he, if_pos he]
  · rw [resume, k.code_wait he, if_neg he, if_neg he]
    rfl

/-- From the evaluation on: the value goes to the driver, and the process suspends. -/
theorem resume_drive {regs : List Value} {v : Value} (hv : regs[k.result]? = some v) :
    resume P statics (fuel + 2) s ⟨P.body.code.length, regs⟩ =
      (Eevee.Sched.Simulation.step (.call (src.call driver v.asLogic)) s).bind fun s =>
        (Eevee.Sched.Simulation.step (.suspend src.wait) s).map (·, parked src P regs) := by
  rw [resume_call k.code_drive (k.callOf_drive hv)]
  congr 1
  funext s
  exact k.resume_wait

theorem resume_restart {regs : List Value} (hne : src.reads ≠ []) :
    resume P statics (fuel + 1) s ⟨restart P, regs⟩ = resume P statics fuel s ⟨0, regs⟩ := by
  rw [resume_inst (k.code_restart hne) (by simp)]
  rfl

/-- The evaluation takes so many instructions, or it panics. -/
theorem resume_evaluation (statics : Nat → Value) (s : Sim) (h : src.Plain) {regs : List Value}
    (hlen : P.body.nRegs ≤ regs.length) :
    (∃ v regs' n, src.value ⟨s.kernel.netValue, statics⟩ = some v ∧ regs'.length = regs.length ∧
      regs'[k.result]? = some v ∧ ∀ fuel, resume P statics (n + fuel) s ⟨0, regs⟩ =
        resume P statics fuel s ⟨P.body.code.length, regs'⟩) ∨
    src.value ⟨s.kernel.netValue, statics⟩ = none ∧ ∀ fuel, resume P statics fuel s ⟨0, regs⟩ =
      none := by
  have heval := k.evaluates h ⟨s.kernel.netValue, statics⟩ hlen
  cases hv : src.value ⟨s.kernel.netValue, statics⟩ with
  | some v =>
    rw [hv] at heval
    obtain ⟨n, regs', hruns, hresult, hsame⟩ := heval
    exact .inl ⟨v, regs', n, rfl, hsame.length, hresult, fun fuel => k.stands.resume_runs hruns⟩
  | none =>
    rw [hv] at heval
    obtain ⟨n, last, hpanic⟩ := heval
    refine .inr ⟨rfl, k.stands.resume_panics hpanic fun hend => ?_⟩
    have hpc := k.pc_evaluation h hpanic.1
    rw [List.getElem?_eq_none_iff] at hend
    exact absurd hend (by simp [ended]; omega)

/-- An activation evaluates the source where it stands, drives the value and suspends. -/
theorem activation_spec (h : src.Plain) (hstart : Starts src P f)
    (hr : resume P statics fuel s f = some (s', f')) :
    ∃ v s₁, src.value ⟨s.kernel.netValue, statics⟩ = some v ∧
      Eevee.Sched.Simulation.step (.call (src.call driver v.asLogic)) s = some s₁ ∧
      Eevee.Sched.Simulation.step (.suspend src.wait) s₁ = some s' ∧
      (src.reads ≠ [] → Starts src P f') := by
  obtain ⟨pc, regs⟩ := f
  obtain ⟨hlen, hpc⟩ := hstart
  have hzero : ∃ fuel, resume P statics fuel s ⟨0, regs⟩ = some (s', f') := by
    rcases hpc with rfl | ⟨hne, rfl⟩
    · exact ⟨fuel, hr⟩
    · refine ⟨fuel, ?_⟩
      rw [← k.resume_restart hne]
      exact resume_succ hr
  obtain ⟨fuel, hr⟩ := hzero
  rcases k.resume_evaluation statics s h hlen with
    ⟨v, regs', n, hv, hlen', hresult, heval⟩ | ⟨-, hnone⟩
  · have hmore := resume_add n (resume_succ (resume_succ hr))
    rw [heval, k.resume_drive hresult] at hmore
    obtain ⟨s₁, hcall, hmore⟩ := Option.bind_eq_some_iff.mp hmore
    obtain ⟨s₂, hsuspend, heq⟩ := Option.map_eq_some_iff.mp hmore
    cases heq
    refine ⟨v, s₁, hv, hcall, hsuspend, fun hne => ⟨hlen'.symm ▸ hlen, .inr ⟨hne, ?_⟩⟩⟩
    exact if_neg hne
  · rw [hnone] at hr
    cases hr

/-- An activation comes to its end if the source has a value. -/
theorem activates (h : src.Plain) (hstart : Starts src P f) {v : Value} {s₁ : Sim}
    (hv : src.value ⟨s.kernel.netValue, statics⟩ = some v)
    (hcall : Eevee.Sched.Simulation.step (.call (src.call driver v.asLogic)) s = some s₁)
    (hsuspend : Eevee.Sched.Simulation.step (.suspend src.wait) s₁ = some s') :
    ∃ fuel f', resume P statics fuel s f = some (s', f') := by
  obtain ⟨pc, regs⟩ := f
  obtain ⟨hlen, hpc⟩ := hstart
  rcases k.resume_evaluation statics s h hlen with
    ⟨w, regs', n, hw, -, hresult, heval⟩ | ⟨hnone, -⟩
  · cases hv.symm.trans hw
    have hzero : resume P statics (n + 2) s ⟨0, regs⟩ = some (s', parked src P regs') := by
      rw [heval, k.resume_drive hresult, hcall, Option.bind_some, hsuspend]
      rfl
    rcases hpc with rfl | ⟨hne, rfl⟩
    · exact ⟨_, _, hzero⟩
    · exact ⟨_, _, (k.resume_restart hne).trans hzero⟩
  · rw [hv] at hnone
    cases hnone

end Generated

end

end Eevee.Elab.Continuous
