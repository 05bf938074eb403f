/- The frames of a process from call to return: what a return gives back, and when a process
ends. -/

import Mathlib.Data.List.Basic
import Mathlib.Logic.Relation
import Mathlib.Tactic.Common
import Eevee.Ir.Calls

set_option autoImplicit false
set_option relaxedAutoImplicit false

namespace Eevee.Ir.Activations

open Relation (ReflTransGen)
open Eevee.Ir.Objects
open Eevee.Ir.Calls
open Eevee.Lib.CallStack

variable {I : Type}

/-! ### Processes that end -/

/-- The instructions that are no calls or returns: `finish`, and those that go on or wait. -/
inductive Local (I : Type)
  | finish
  | plain (i : I)
  deriving DecidableEq

/-- What a process runs on: the functions, the implementations of virtual methods, and what the
instructions do to the frame that runs. -/
structure Design (I : Type) where
  funcs : FuncId → Option (Program (Local I))
  vtable : Nat → Nat → Option FuncId
  plain : I → Nat → Activation → Shared → Option Outcome

def Design.linkage (D : Design I) : Linkage (Local I) where
  funcs := D.funcs
  vtable := D.vtable
  other i providedArgs act shared :=
    match i with
    | .finish => none
    | .plain i => D.plain i providedArgs act shared

/-- What one instruction comes to. -/
inductive Progress (I : Type)
  | running (p : IrProcess (Local I))
  | suspended (p : IrProcess (Local I))
  | finished
  | panic

/-- The frame is popped; without a caller the process has finished. -/
def afterReturn (p : IrProcess (Local I)) (val : Option Val) : Progress I :=
  match p.leave val with
  | some q => .running q
  | none => .finished

def ofStep : Option (Bool × IrProcess (Local I)) → Progress I
  | some (false, q) => .running q
  | some (true, q) => .suspended q
  | none => .panic

def progress (D : Design I) (p : IrProcess (Local I)) : Progress I :=
  match p.inst with
  | none => .panic
  | some (.ret value) => afterReturn p (some (p.frame.act.regs value))
  | some .returnVoid => afterReturn p none
  | some (.other .finish) => .finished
  | some inst => ofStep (p.perform D.linkage inst)

/-- A process at the start of its program. -/
def start (prog : Program (Local I)) (regs : Reg → Val) (shared : Shared) :
    IrProcess (Local I) where
  frame := ⟨prog, ⟨0, regs, []⟩, ⟨0, []⟩, 0⟩
  applyPendingNba := false
  callers := []
  shared := shared

/-- The process has come to this state, with any waits on the way. -/
def Reached (D : Design I) (prog : Program (Local I)) (p : IrProcess (Local I)) : Prop :=
  ∃ regs shared, ReflTransGen (Step D.linkage) (start prog regs shared) p

/-- The next instruction of the running frame returns. -/
def Returning (p : IrProcess (Local I)) : Prop :=
  p.inst = some .returnVoid ∨ ∃ value, p.inst = some (.ret value)

def Finishing (p : IrProcess (Local I)) : Prop := p.inst = some (.other .finish)

section

variable {D : Design I} {p q t : IrProcess (Local I)}

theorem afterReturn_eq_finished {val : Option Val} :
    afterReturn p val = .finished ↔ p.callers = [] := by
  unfold afterReturn IrProcess.leave
  cases p.callers with
  | nil => simp
  | cons caller callers => simp

theorem ofStep_ne_finished (step : Option (Bool × IrProcess (Local I))) :
    ofStep step ≠ .finished := by
  rcases step with _ | ⟨_ | _, q'⟩ <;> simp [ofStep]

/-- A process finishes where its last frame returns and at `finish`. -/
theorem progress_eq_finished :
    progress D p = .finished ↔ (p.callers = [] ∧ Returning p) ∨ Finishing p := by
  unfold progress Returning Finishing
  cases p.inst with
  | none => simp
  | some inst =>
    cases inst with
    | ret value => simp [afterReturn_eq_finished]
    | returnVoid => simp [afterReturn_eq_finished]
    | data i => simp [ofStep_ne_finished]
    | call func args ret => simp [ofStep_ne_finished]
    | callVirtual obj vslot args ret => simp [ofStep_ne_finished]
    | other i =>
      cases i with
      | finish => simp
      | plain i => simp [ofStep_ne_finished]

/-! ### From a call to its return -/

variable {callee : Program (Local I)} {args : List Reg} {ret : Reg}

/-- A step that pushes a frame is a call. -/
theorem call_of_rise (h : Step D.linkage p q) (hlen : p.callers.length < q.callers.length) :
    ∃ callee args ret, Invokes D.linkage p callee args ret ∧ q = p.enter callee args ret := by
  have hkind : ∃ r waits, StepKind D.linkage p waits r ∧ (r = q ∨ waits = true) ∧
      r.callers = q.callers := by
    cases h with
    | run h => exact ⟨q, false, stepKind_of_step h, .inl rfl, rfl⟩
    | wait h shared => exact ⟨_, true, stepKind_of_step h, .inr rfl, (callers_resume _ _).symm⟩
  obtain ⟨r, waits, hkind, hwaits, hcallers⟩ := hkind
  rw [← hcallers] at hlen
  cases hkind with
  | keep hkeep _ _ _ => exact absurd hlen (by rw [hkeep]; exact Nat.lt_irrefl _)
  | push hcall =>
    obtain rfl : p.enter _ _ _ = q := hwaits.resolve_right Bool.false_ne_true
    exact ⟨_, _, _, hcall, rfl⟩
  | @pop val _ hval hleave =>
    obtain ⟨caller, hcaller, -⟩ := leave_spec hleave
    rw [hcaller, List.length_cons] at hlen
    omega

/-- A return into a frame pops one. -/
theorem pop_of_returning (h : Returning q) (hcallers : q.callers ≠ []) :
    ∃ t, q.step D.linkage = some (false, t) ∧ t.callers.length < q.callers.length := by
  obtain ⟨caller, callers, hcons⟩ := List.exists_cons_of_ne_nil hcallers
  have hleave : ∀ val, ∃ t, q.leave val = some t ∧ t.callers.length < q.callers.length := by
    intro val
    unfold IrProcess.leave
    rw [hcons]
    exact ⟨_, rfl, Nat.lt_succ_self _⟩
  rcases h with hinst | ⟨value, hinst⟩
  · obtain ⟨t, ht, hlen⟩ := hleave none
    refine ⟨t, ?_, hlen⟩
    rw [IrProcess.step, hinst, Option.bind_some, IrProcess.perform, ht]
    rfl
  · obtain ⟨t, ht, hlen⟩ := hleave (some (q.frame.act.regs value))
    refine ⟨t, ?_, hlen⟩
    rw [IrProcess.step, hinst, Option.bind_some, IrProcess.perform, ht]
    rfl

/-- Each return into a frame is the return of a call that was made earlier in the run. -/
theorem exists_call {prog : Program (Local I)} (hq : Reached D prog q) (hreturn : Returning q)
    (hcallers : q.callers ≠ []) : ∃ t p callee args ret, Reached D prog p ∧
      Returns D.linkage callee args ret p q t := by
  obtain ⟨regs, shared, hrun⟩ := hq
  obtain ⟨t, h, hlen⟩ := pop_of_returning hreturn hcallers
  obtain ⟨p, p', hp, hcall, hheight, hbody⟩ :=
    exists_rise stepwise_callers hrun (Nat.zero_le t.callers.length) hlen
  have hrise : p.callers.length < p'.callers.length := by
    have hfirst := hbody.first
    rw [hheight]
    exact hfirst
  obtain ⟨callee, args, ret, hinvokes, rfl⟩ := call_of_rise hcall hrise
  refine ⟨t, p, callee, args, ret, ⟨regs, shared, hp⟩, hinvokes, ?_, h, hheight.symm⟩
  rw [hheight]
  exact hbody

/-- What the caller finds when the callee has returned. -/
structure Restored (callee : Program (Local I)) (args : List Reg) (ret : Reg)
    (p q t : IrProcess (Local I)) : Prop where
  prog : t.frame.prog = p.frame.prog
  pc : t.frame.act.pc = p.frame.act.pc + 1
  callers : t.callers = p.callers
  link : t.frame.link = p.frame.link
  providedArgs : t.frame.providedArgs = p.frame.providedArgs
  pendingNba : t.frame.act.pendingNba = p.frame.act.pendingNba
  regs : ∀ r, (∀ i, args[i]? = some r → (modeAt callee.argModes i).copiesOut = false) →
    (r = ret → q.inst = some .returnVoid) → t.frame.act.regs r = p.frame.act.regs r
  result : ∀ value, q.inst = some (.ret value) → t.frame.act.regs ret = q.frame.act.regs value

theorem restored_of_returns (h : Returns D.linkage callee args ret p q t) :
    Restored callee args ret p q t := by
  obtain ⟨hcallers, hlink⟩ := h.saved
  have hlen : t.callers.length < q.callers.length := by
    rw [h.height, hcallers]
    exact Nat.lt_succ_self _
  obtain ⟨val, hval, hleave⟩ := pop_of_step h.last hlen
  obtain ⟨caller, hcaller, hframe, -⟩ := leave_spec hleave
  obtain ⟨rfl, hbelow⟩ := List.cons.inj (hcallers.symm.trans hcaller)
  rw [hlink] at hframe
  have hregs : t.frame.act.regs = deliver ret val
      (copyBack (copyOuts callee args) q.frame.act.regs p.frame.act.regs) := by
    rw [hframe]
    rfl
  have hkept : ∀ r, (∀ i, args[i]? = some r → (modeAt callee.argModes i).copiesOut = false) →
      copyBack (copyOuts callee args) q.frame.act.regs p.frame.act.regs r =
        p.frame.act.regs r := by
    intro r hin
    refine copyBack_of_not_mem fun i hmem => ?_
    obtain ⟨hget, hmode⟩ := mem_copyOuts.mp hmem
    rw [hin i hget] at hmode
    cases hmode
  refine ⟨by rw [hframe]; rfl, by rw [hframe]; rfl, hbelow.symm, by rw [hframe]; rfl,
    by rw [hframe]; rfl, by rw [hframe]; rfl, fun r hin hret => ?_, fun value hinst => ?_⟩
  · rw [hregs]
    cases hval with
    | void hinst => exact hkept r hin
    | value hinst =>
      have hne : r ≠ ret := by
        intro heq
        rw [hret heq] at hinst
        cases hinst
      rw [deliver, Function.update_of_ne hne]
      exact hkept r hin
  · rw [hregs]
    cases hval with
    | void hinst' =>
      rw [hinst'] at hinst
      cases hinst
    | value hinst' =>
      rw [hinst'] at hinst
      cases hinst
      exact Function.update_self _ _ _

/-! ### The bottom frame -/

def progs (p : IrProcess (Local I)) : List (Program (Local I)) :=
  (p.frame :: p.callers).map Frame.prog

/-- All frames above the bottom one run functions. -/
def Called (D : Design I) (stack : List (Program (Local I))) : Prop :=
  ∃ above bottom, stack = above ++ [bottom] ∧ ∀ prog ∈ above, ∃ func, D.funcs func = some prog

theorem progs_resume (p : IrProcess (Local I)) (shared : Shared) :
    progs (p.resume shared) = progs p := by
  rw [IrProcess.resume]
  split <;> rfl

theorem funcs_of_invokes (h : Invokes D.linkage p callee args ret) :
    ∃ func, D.funcs func = some callee := by
  cases h with
  | direct _ hfunc => exact ⟨_, hfunc⟩
  | virtual _ hfunc =>
    obtain ⟨func, -, hfunc⟩ := Option.bind_eq_some_iff.mp hfunc
    exact ⟨func, hfunc⟩

theorem called_step {waits : Bool} (h : p.step D.linkage = some (waits, q))
    (hp : Called D (progs p)) : Called D (progs q) := by
  obtain ⟨above, bottom, hstack, hcalled⟩ := hp
  cases stepKind_of_step h with
  | keep hcallers hprog _ _ =>
    refine ⟨above, bottom, ?_, hcalled⟩
    rw [← hstack, progs, progs, List.map_cons, List.map_cons, hcallers, hprog]
  | @push callee _ _ hcall =>
    refine ⟨callee :: above, bottom, congrArg (callee :: ·) hstack, fun prog hmem => ?_⟩
    rcases List.mem_cons.mp hmem with rfl | hmem
    · exact funcs_of_invokes hcall
    · exact hcalled prog hmem
  | pop _ hleave =>
    obtain ⟨caller, hcallers, hframe, -⟩ := leave_spec hleave
    have hprogs : progs p = p.frame.prog :: progs q := by
      rw [progs, progs, hcallers, hframe]
      rfl
    rw [hprogs] at hstack
    cases above with
    | nil =>
      have hlen := congrArg List.length hstack
      simp [progs] at hlen
    | cons prog above =>
      exact ⟨above, bottom, (List.cons.inj hstack).2, fun prog hmem =>
        hcalled prog (List.mem_cons_of_mem _ hmem)⟩

theorem called_of_reached {prog : Program (Local I)} (h : Reached D prog p) :
    Called D (progs p) := by
  obtain ⟨regs, shared, hrun⟩ := h
  induction hrun with
  | refl => exact ⟨[], prog, rfl, fun _ hmem => by cases hmem⟩
  | tail _ hstep ih =>
    cases hstep with
    | run h => exact called_step h ih
    | wait h shared =>
      rw [progs_resume]
      exact called_step h ih

/-- Where no function contains `finish`, a process ends in its bottom frame. -/
theorem bottom_of_finished {prog : Program (Local I)} (hp : Reached D prog p)
    (hfuncs : ∀ func callee, D.funcs func = some callee → .other .finish ∉ callee.code)
    (h : progress D p = .finished) : p.callers = [] := by
  rcases progress_eq_finished.mp h with ⟨hcallers, -⟩ | hfinish
  · exact hcallers
  obtain ⟨above, bottom, hstack, hcalled⟩ := called_of_reached hp
  cases above with
  | nil => exact List.map_eq_nil_iff.mp (List.cons.inj hstack).2
  | cons running above =>
    obtain ⟨func, hfunc⟩ := hcalled running List.mem_cons_self
    have hmem : .other .finish ∈ p.frame.prog.code := List.mem_of_getElem? hfinish
    rw [(List.cons.inj hstack).1] at hmem
    exact absurd hmem (hfuncs func running hfunc)

end

/-- Calls and returns of a process, whatever it runs and however it is suspended. -/
structure FramesIsolated (D : Design I) : Prop where
  /-- Every return is that of a call, behind which the caller goes on. -/
  calls : ∀ prog q, Reached D prog q → Returning q → q.callers ≠ [] →
    ∃ t p callee args ret, Reached D prog p ∧ Returns D.linkage callee args ret p q t
  restored : ∀ callee args ret p q t, Returns D.linkage callee args ret p q t →
    Restored callee args ret p q t
  finished : ∀ p : IrProcess (Local I), progress D p = .finished ↔
    (p.callers = [] ∧ Returning p) ∨ Finishing p
  /-- Compiled functions contain no `finish`. -/
  bottom : (∀ func callee, D.funcs func = some callee → .other .finish ∉ callee.code) →
    ∀ prog p, Reached D prog p → progress D p = .finished → p.callers = []

theorem frames_isolated (D : Design I) : FramesIsolated D where
  calls _ _ hq h hcallers := exists_call hq h hcallers
  restored _ _ _ _ _ _ h := restored_of_returns h
  finished _ := progress_eq_finished
  bottom hfuncs _ _ hp h := bottom_of_finished hp hfuncs h

end Eevee.Ir.Activations
