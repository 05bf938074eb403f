/- Frames, calls and returns of a process, with what a call leaves alone. -/

import Mathlib.Data.List.Basic
import Mathlib.Data.Nat.Find
import Eevee.Ir.Objects
import Eevee.Lib.CallStack

set_option autoImplicit false
set_option relaxedAutoImplicit false

namespace Eevee.Ir.Calls

open Eevee.Core.Logic
open Eevee.Ir.Objects
open Eevee.Lib.CallStack

abbrev FuncId := Nat

/-! ### Programs -/

inductive ArgMode
  | input
  | output
  | inout
  | ref
  deriving DecidableEq

def ArgMode.copiesOut : ArgMode → Bool
  | .input => false
  | .output | .inout | .ref => true

/-- The instructions: those on data, calls and returns, and all others, which only work on the
frame that runs. -/
inductive Instr (I : Type)
  | data (i : Objects.Inst)
  | call (func : FuncId) (args : List Reg) (ret : Reg)
  | callVirtual (obj : Reg) (vslot : Nat) (args : List Reg) (ret : Reg)
  | ret (value : Reg)
  | returnVoid
  | other (i : I)

/-- The formals are the first registers. -/
structure Program (I : Type) where
  code : List (Instr I)
  nRegs : Nat
  argModes : List ArgMode
  formals : argModes.length ≤ nRegs

/-- What all processes share. -/
structure Shared where
  statics : Nat → Val
  nets : NetId → PackedVec
  heap : Heap

def Shared.withRegs (shared : Shared) (regs : Reg → Val) : State :=
  ⟨regs, shared.statics, shared.nets, shared.heap⟩

def Shared.ofState (s : State) : Shared := ⟨s.statics, s.nets, s.heap⟩

/-- What the instructions of a frame work on. -/
structure Activation where
  pc : Nat
  regs : Reg → Val
  /-- Updates of variables for the end of the time step. -/
  pendingNba : List (Reg × Val)

/-- Suspended by an instruction, until the updates for the end of the time step or otherwise. -/
inductive Outcome
  | next (act : Activation) (shared : Shared)
  | wait (nba : Bool) (act : Activation) (shared : Shared)

/-- The functions, the implementations of virtual methods by class and slot, and what all other
instructions do with the number of arguments supplied; none where a process ends. -/
structure Linkage (I : Type) where
  funcs : FuncId → Option (Program I)
  vtable : Nat → Nat → Option FuncId
  other : I → Nat → Activation → Shared → Option Outcome

/-! ### Processes -/

/-- How a frame returns: the register of the caller for the value, and the pairs of a formal and the
caller's register that it is copied to. -/
structure Link where
  retDst : Reg
  copyOut : List (Reg × Reg)
  deriving DecidableEq

structure Frame (I : Type) where
  prog : Program I
  act : Activation
  link : Link
  providedArgs : Nat

structure IrProcess (I : Type) where
  frame : Frame I
  /-- The updates of the frame are applied before the next instruction. -/
  applyPendingNba : Bool
  callers : List (Frame I)
  shared : Shared

variable {I : Type}

def modeAt (modes : List ArgMode) (i : Nat) : ArgMode := modes[i]?.getD .input

/-- Registers of a callee: the formals hold the arguments, unless they are outputs only. -/
def entryRegs (callee : Program I) (vals : List Val) (i : Reg) : Val :=
  if i < callee.nRegs ∧ modeAt callee.argModes i ≠ .output then vals[i]?.getD .null else .null

def copyOuts (callee : Program I) (actuals : List Reg) : List (Reg × Reg) :=
  (actuals.zipIdx.filter fun p =>
    p.2 < callee.nRegs ∧ (modeAt callee.argModes p.2).copiesOut).map Prod.swap

/-- The values of the formals go to the registers of the caller, one after the other. -/
def copyBack (copyOut : List (Reg × Reg)) (final regs : Reg → Val) : Reg → Val :=
  copyOut.foldl (fun regs p => Function.update regs p.2 (final p.1)) regs

def deliver (ret : Reg) (val : Option Val) (regs : Reg → Val) : Reg → Val :=
  match val with
  | some v => Function.update regs ret v
  | none => regs

def Frame.setAct (f : Frame I) (act : Activation) : Frame I := { f with act }

def Frame.advance (f : Frame I) : Frame I := f.setAct { f.act with pc := f.act.pc + 1 }

namespace IrProcess

variable (L : Linkage I) (p : IrProcess I)

/-- The registers of the running frame with what is shared. -/
def state : State := p.shared.withRegs p.frame.act.regs

def inst : Option (Instr I) := p.frame.prog.code[p.frame.act.pc]?

def setAct (act : Activation) (shared : Shared) : IrProcess I :=
  { p with frame := p.frame.setAct act, shared }

/-- Pushes a frame for the callee. The updates of the caller wait with it. -/
def enter (callee : Program I) (args : List Reg) (ret : Reg) : IrProcess I where
  frame := ⟨callee, ⟨0, entryRegs callee (args.map p.frame.act.regs), []⟩,
    ⟨ret, copyOuts callee args⟩, args.length⟩
  applyPendingNba := p.applyPendingNba
  callers := p.frame.advance :: p.callers
  shared := p.shared

/-- Pops the frame; a process whose last frame returns has finished. -/
def leave (val : Option Val) : Option (IrProcess I) :=
  match p.callers with
  | [] => none
  | caller :: callers => some
    { p with
      frame := caller.setAct { caller.act with
        regs := deliver p.frame.link.retDst val
          (copyBack p.frame.link.copyOut p.frame.act.regs caller.act.regs) }
      callers }

/-- The implementation in the class of the object; a null handle has none. -/
def resolve (obj : Reg) (vslot : Nat) : Option FuncId :=
  match p.frame.act.regs obj with
  | .obj id => (p.shared.heap.objs[id]?).bind fun data => L.vtable data.cls vslot
  | _ => none

/-- After an instruction on the frame: whether the process is suspended, and its state. -/
def carryOn : Outcome → Bool × IrProcess I
  | .next act shared => (false, p.setAct act shared)
  | .wait nba act shared => (true, { p.setAct act shared with applyPendingNba := nba })

/-- One instruction: whether the process is suspended then, and its state. None where it panics or
ends. -/
def perform : Instr I → Option (Bool × IrProcess I)
  | .data i => (exec p.state i).map fun s =>
    (false, p.setAct { p.frame.act with pc := p.frame.act.pc + 1, regs := s.regs } (.ofState s))
  | .call func args ret => (L.funcs func).map fun callee => (false, p.enter callee args ret)
  | .callVirtual obj vslot args ret => ((p.resolve L obj vslot).bind L.funcs).map fun callee =>
    (false, p.enter callee args ret)
  | .ret value => (p.leave (some (p.frame.act.regs value))).map (false, ·)
  | .returnVoid => (p.leave none).map (false, ·)
  | .other i => (L.other i p.frame.providedArgs { p.frame.act with pc := p.frame.act.pc + 1 }
      p.shared).map p.carryOn

def step : Option (Bool × IrProcess I) := p.inst.bind (p.perform L)

/-- Resumed after other processes have run: updates of the frame that waited for it are applied. -/
def resume (shared : Shared) : IrProcess I :=
  if p.applyPendingNba then
    { p.setAct { p.frame.act with
        regs := p.frame.act.pendingNba.foldl (fun regs u => Function.update regs u.1 u.2)
          p.frame.act.regs
        pendingNba := [] } shared with applyPendingNba := false }
  else { p with shared }

end IrProcess

/-- A step of a process; where it is suspended, whatever is shared may change before it goes on. -/
inductive Step (L : Linkage I) : IrProcess I → IrProcess I → Prop
  | run {p q : IrProcess I} (h : p.step L = some (false, q)) : Step L p q
  | wait {p q : IrProcess I} (h : p.step L = some (true, q)) (shared : Shared) :
    Step L p (q.resume shared)

/-! ### Copying back -/

theorem lt_of_copiesOut {modes : List ArgMode} {i : Nat} (h : (modeAt modes i).copiesOut = true) :
    i < modes.length := by
  by_contra hge
  rw [modeAt, List.getElem?_eq_none (Nat.not_lt.mp hge)] at h
  cases h

theorem mem_copyOuts {callee : Program I} {args : List Reg} {i : Nat} {r : Reg} :
    (i, r) ∈ copyOuts callee args ↔
      args[i]? = some r ∧ (modeAt callee.argModes i).copiesOut = true := by
  rw [copyOuts, List.mem_map]
  constructor
  · rintro ⟨⟨a, j⟩, hmem, heq⟩
    cases heq
    rw [List.mem_filter, List.mk_mem_zipIdx_iff_getElem?, decide_eq_true_iff] at hmem
    exact ⟨hmem.1, hmem.2.2⟩
  · rintro ⟨hget, hmode⟩
    refine ⟨(r, i), ?_, rfl⟩
    rw [List.mem_filter, List.mk_mem_zipIdx_iff_getElem?, decide_eq_true_iff]
    exact ⟨hget, Nat.lt_of_lt_of_le (lt_of_copiesOut hmode) callee.formals, hmode⟩

theorem copyBack_of_not_mem {copyOut : List (Reg × Reg)} {final regs : Reg → Val} {r : Reg}
    (h : ∀ i, (i, r) ∉ copyOut) : copyBack copyOut final regs r = regs r := by
  induction copyOut generalizing regs with
  | nil => rfl
  | cons p copyOut ih =>
    rw [copyBack, List.foldl_cons]
    have hrest : copyBack copyOut final (Function.update regs p.2 (final p.1)) r =
        Function.update regs p.2 (final p.1) r := ih fun i hi => h i (List.mem_cons_of_mem _ hi)
    refine hrest.trans (Function.update_of_ne ?_ _ _)
    rintro rfl
    exact h p.1 List.mem_cons_self

theorem copyBack_append (copyOut rest : List (Reg × Reg)) (final regs : Reg → Val) :
    copyBack (copyOut ++ rest) final regs = copyBack rest final (copyBack copyOut final regs) :=
  List.foldl_append

theorem pairwise_copyOuts (callee : Program I) (args : List Reg) :
    (copyOuts callee args).Pairwise (·.1 < ·.1) := by
  rw [copyOuts, List.pairwise_map]
  refine List.Pairwise.filter _ ?_
  have hrange : (args.zipIdx.map Prod.snd).Pairwise (· < ·) := by
    rw [List.zipIdx_map_snd]
    exact List.pairwise_lt_range'
  exact List.pairwise_map.mp hrange

/-- The formal that is copied last counts. -/
theorem copyBack_of_last {callee : Program I} {args : List Reg} {i : Nat} {r : Reg}
    {final regs : Reg → Val} (hmem : (i, r) ∈ copyOuts callee args)
    (hlast : ∀ j, i < j → (j, r) ∉ copyOuts callee args) :
    copyBack (copyOuts callee args) final regs r = final i := by
  obtain ⟨before, after, hsplit⟩ := List.append_of_mem hmem
  have hordered := pairwise_copyOuts callee args
  rw [hsplit] at hordered hlast ⊢
  have hafter : ∀ j, (j, r) ∉ after := fun j hj =>
    hlast j (List.rel_of_pairwise_cons (List.pairwise_append.mp hordered).2.1 hj)
      (List.mem_append_right _ (List.mem_cons_of_mem _ hj))
  rw [copyBack_append, copyBack, List.foldl_cons]
  exact (copyBack_of_not_mem hafter).trans (Function.update_self _ _ _)

/-- Of the formals that are copied to a register there is a last one. -/
theorem exists_last {callee : Program I} {args : List Reg} {i : Nat} {r : Reg}
    (hmem : (i, r) ∈ copyOuts callee args) :
    ∃ k, i ≤ k ∧ (k, r) ∈ copyOuts callee args ∧
      ∀ j, k < j → (j, r) ∉ copyOuts callee args := by
  have hbound : ∀ j, (j, r) ∈ copyOuts callee args → j ≤ args.length := fun j hj =>
    (List.getElem?_eq_some_iff.mp (mem_copyOuts.mp hj).1).1.le
  let copied : Nat → Prop := fun j => (j, r) ∈ copyOuts callee args
  have hle : i ≤ Nat.findGreatest copied args.length :=
    Nat.le_findGreatest (hbound i hmem) hmem
  have hspec : copied (Nat.findGreatest copied args.length) :=
    Nat.findGreatest_spec (hbound i hmem) hmem
  refine ⟨_, hle, hspec, fun j hlt hj => ?_⟩
  have hge : j ≤ Nat.findGreatest copied args.length := Nat.le_findGreatest (hbound j hj) hj
  exact absurd hge (Nat.not_le.mpr hlt)

/-! ### Steps by what they do to the frames -/

section

variable {L : Linkage I} {p q : IrProcess I} {callee : Program I} {args : List Reg} {ret : Reg}

/-- The next instruction calls `callee`. -/
inductive Invokes (L : Linkage I) (p : IrProcess I) (callee : Program I) (args : List Reg)
    (ret : Reg) : Prop
  | direct {func : FuncId} (hinst : p.inst = some (.call func args ret))
    (hfunc : L.funcs func = some callee) : Invokes L p callee args ret
  | virtual {obj : Reg} {vslot : Nat} (hinst : p.inst = some (.callVirtual obj vslot args ret))
    (hfunc : (p.resolve L obj vslot).bind L.funcs = some callee) : Invokes L p callee args ret

/-- What the running frame returns, where its next instruction is a return. -/
inductive ReturnValue (p : IrProcess I) : Option Val → Prop
  | value {r : Reg} (hinst : p.inst = some (.ret r)) : ReturnValue p (some (p.frame.act.regs r))
  | void (hinst : p.inst = some .returnVoid) : ReturnValue p none

/-- A step stays in its frame, pushes the frame of a callee, or pops its own. -/
inductive StepKind (L : Linkage I) (p : IrProcess I) : Bool → IrProcess I → Prop
  | keep {waits : Bool} {q : IrProcess I} (hcallers : q.callers = p.callers)
      (hprog : q.frame.prog = p.frame.prog) (hlink : q.frame.link = p.frame.link)
      (hargs : q.frame.providedArgs = p.frame.providedArgs) : StepKind L p waits q
  | push {callee : Program I} {args : List Reg} {ret : Reg} (hcall : Invokes L p callee args ret) :
      StepKind L p false (p.enter callee args ret)
  | pop {val : Option Val} {q : IrProcess I} (hval : ReturnValue p val)
      (hleave : p.leave val = some q) : StepKind L p false q

/-- A return goes to the caller's frame, whose registers alone change. -/
theorem leave_spec {val : Option Val} (h : p.leave val = some q) :
    ∃ caller, p.callers = caller :: q.callers ∧ q.frame = caller.setAct { caller.act with
      regs := deliver p.frame.link.retDst val
        (copyBack p.frame.link.copyOut p.frame.act.regs caller.act.regs) } ∧
      q.shared = p.shared := by
  unfold IrProcess.leave at h
  cases hcallers : p.callers with
  | nil =>
    rw [hcallers] at h
    cases h
  | cons caller callers =>
    rw [hcallers] at h
    cases h
    exact ⟨caller, rfl, rfl, rfl⟩

theorem stepKind_of_step {waits : Bool} (h : p.step L = some (waits, q)) :
    StepKind L p waits q := by
  rw [IrProcess.step, Option.bind_eq_some_iff] at h
  obtain ⟨inst, hinst, h⟩ := h
  cases inst with
  | data i =>
    obtain ⟨s, -, heq⟩ := Option.map_eq_some_iff.mp h
    cases heq
    exact .keep rfl rfl rfl rfl
  | call func args ret =>
    obtain ⟨callee, hfunc, heq⟩ := Option.map_eq_some_iff.mp h
    cases heq
    exact .push (.direct hinst hfunc)
  | callVirtual obj vslot args ret =>
    obtain ⟨callee, hfunc, heq⟩ := Option.map_eq_some_iff.mp h
    cases heq
    exact .push (.virtual hinst hfunc)
  | ret value =>
    obtain ⟨q', hleave, heq⟩ := Option.map_eq_some_iff.mp h
    cases heq
    exact .pop (.value hinst) hleave
  | returnVoid =>
    obtain ⟨q', hleave, heq⟩ := Option.map_eq_some_iff.mp h
    cases heq
    exact .pop (.void hinst) hleave
  | other i =>
    obtain ⟨outcome, -, heq⟩ := Option.map_eq_some_iff.mp h
    cases outcome with
    | next act shared =>
      cases heq
      exact .keep rfl rfl rfl rfl
    | wait nba act shared =>
      cases heq
      exact .keep rfl rfl rfl rfl

end

/-! ### What a call leaves alone -/

def IrProcess.links (p : IrProcess I) : List Link := (p.frame :: p.callers).map Frame.link

section

variable {L : Linkage I} {p q t : IrProcess I} {callee : Program I} {args : List Reg} {ret : Reg}

/-- The saved frames move by one at most, and so do the ways in which the frames return. -/
structure Bounded (p q : IrProcess I) : Prop where
  callers : Moves p.callers q.callers
  links : Moves p.links q.links

theorem bounded_of_frame (hcallers : q.callers = p.callers) (hlink : q.frame.link = p.frame.link) :
    Bounded p q := by
  refine ⟨by rw [hcallers]; exact .keep _, ?_⟩
  rw [IrProcess.links, IrProcess.links, List.map_cons, List.map_cons, hcallers, hlink]
  exact .keep _

theorem bounded_enter (callee : Program I) (args : List Reg) (ret : Reg) :
    Bounded p (p.enter callee args ret) := ⟨.push _ _, .push _ _⟩

theorem bounded_leave {val : Option Val} (h : p.leave val = some q) : Bounded p q := by
  obtain ⟨caller, hcallers, hframe, -⟩ := leave_spec h
  refine ⟨by rw [hcallers]; exact .pop _ _, ?_⟩
  rw [IrProcess.links, IrProcess.links, hcallers, hframe]
  exact .pop _ _

theorem bounded_step {waits : Bool} (h : p.step L = some (waits, q)) : Bounded p q := by
  cases stepKind_of_step h with
  | keep hcallers _ hlink _ => exact bounded_of_frame hcallers hlink
  | push _ => exact bounded_enter _ _ _
  | pop _ hleave => exact bounded_leave hleave

theorem callers_resume (p : IrProcess I) (shared : Shared) :
    (p.resume shared).callers = p.callers := by
  rw [IrProcess.resume]
  split <;> rfl

theorem links_resume (p : IrProcess I) (shared : Shared) : (p.resume shared).links = p.links := by
  rw [IrProcess.resume]
  split <;> rfl

theorem bounded_of_step (h : Step L p q) : Bounded p q := by
  cases h with
  | run h => exact bounded_step h
  | wait h shared =>
    have hstep := bounded_step h
    refine ⟨?_, ?_⟩
    · rw [callers_resume]
      exact hstep.callers
    · rw [links_resume]
      exact hstep.links

theorem stepwise_callers : Stepwise (Step L) IrProcess.callers :=
  fun _ _ h => (bounded_of_step h).callers

theorem stepwise_links : Stepwise (Step L) IrProcess.links :=
  fun _ _ h => (bounded_of_step h).links

theorem length_links (p : IrProcess I) : p.links.length = p.callers.length + 1 := by
  rw [IrProcess.links, List.length_map, List.length_cons]

/-! ### From a call to its return -/

/-- A call from its instruction (`p`) to the end of its frame (`q`) and its return (`t`). In between
the callee may call others and be suspended. -/
structure Returns (L : Linkage I) (callee : Program I) (args : List Reg) (ret : Reg)
    (p q t : IrProcess I) : Prop where
  invokes : Invokes L p callee args ret
  body : Within (Step L) (fun r => p.callers.length < r.callers.length) (p.enter callee args ret) q
  last : q.step L = some (false, t)
  height : t.callers.length = p.callers.length

/-- A frame that a step removes returns. -/
theorem pop_of_step {waits : Bool} (h : p.step L = some (waits, q))
    (hlen : q.callers.length < p.callers.length) :
    ∃ val, ReturnValue p val ∧ p.leave val = some q := by
  cases stepKind_of_step h with
  | keep hcallers _ _ _ => exact absurd hlen (by rw [hcallers]; exact Nat.lt_irrefl _)
  | push _ => exact absurd hlen (Nat.not_lt.mpr (Nat.le_succ _))
  | pop hval hleave => exact ⟨_, hval, hleave⟩

/-- At the end of its frame a callee finds the frame of the caller as the call left it. -/
theorem Returns.saved (h : Returns L callee args ret p q t) :
    q.callers = p.frame.advance :: p.callers ∧
      q.frame.link = ⟨ret, copyOuts callee args⟩ := by
  have hlen : q.callers.length = p.callers.length + 1 := by
    have hmoves := (bounded_step h.last).callers
    have habove : p.callers.length < q.callers.length := h.body.last
    have hle : q.callers.length ≤ t.callers.length + 1 := by
      generalize q.callers = l at *
      generalize t.callers = l' at *
      cases hmoves with
      | keep => exact Nat.le_succ _
      | push => exact Nat.le_succ_of_le (Nat.le_succ _)
      | pop => exact Nat.le_refl _
    rw [h.height] at hle
    exact Nat.le_antisymm hle habove
  have hcallers : q.callers = (p.enter callee args ret).callers :=
    h.body.unchanged stepwise_callers (fun _ hr => hr) hlen
  have hlinks : q.links = (p.enter callee args ret).links :=
    h.body.unchanged stepwise_links
      (fun r hr => by
        rw [length_links, length_links]
        exact Nat.succ_le_succ hr)
      (by rw [length_links, length_links, hcallers])
  exact ⟨hcallers, List.head_eq_of_cons_eq hlinks⟩

/-- After the return the caller goes on behind the call. Of its registers only those of the actuals
that are copied back and that of the result may have changed. -/
theorem Returns.resumed (h : Returns L callee args ret p q t) :
    t.callers = p.callers ∧ t.frame.prog = p.frame.prog ∧ t.frame.act.pc = p.frame.act.pc + 1 ∧
      t.shared = q.shared ∧ ∃ val, t.frame.act.regs = deliver ret val
        (copyBack (copyOuts callee args) q.frame.act.regs p.frame.act.regs) := by
  obtain ⟨hcallers, hlink⟩ := h.saved
  have hlen : t.callers.length < q.callers.length := by
    rw [h.height, hcallers]
    exact Nat.lt_succ_self _
  obtain ⟨val, -, hleave⟩ := pop_of_step h.last hlen
  obtain ⟨caller, hcaller, hframe, hshared⟩ := leave_spec hleave
  obtain ⟨rfl, hbelow⟩ := List.cons.inj (hcallers.symm.trans hcaller)
  rw [hlink] at hframe
  exact ⟨hbelow.symm, by rw [hframe]; rfl, by rw [hframe]; rfl, hshared, val, by rw [hframe]; rfl⟩

end

end Eevee.Ir.Calls
