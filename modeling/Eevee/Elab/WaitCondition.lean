/- A process waits for a condition only while it does not hold. -/

import Mathlib.Logic.Function.Basic
import Mathlib.Tactic.Common
import Eevee.Elab.Conditions
import Eevee.Lib.Transition
import Eevee.Sched.RuntimeWaiters

set_option autoImplicit false
set_option relaxedAutoImplicit false

namespace Eevee.Elab.WaitCondition

open Eevee.Core.Logic
open Eevee.Elab.Conditions
open Eevee.Elab.EventControl (Grown Unchanged applyUpdates grown_of_extends mutates notifiesInst
  quiet_evalCollMethod quiet_exec written)
open Eevee.Ir.Collections
open Eevee.Ir.Objects
open Eevee.Lib.Transition
open Eevee.Sched.Nets (ProcId)
open Eevee.Sched.RuntimeWaiters
open Eevee.Sched.Scheduler
open Eevee.Sched.Simulation (Call Label Sim Stepped stepped_of_step)
open Eevee.Sched.Wakeup (current)

/-! ### The processes -/

/-- The condition of a `wait`, with the first free register at its place. -/
structure Condition where
  expr : Expr
  next : Reg
  below : Below next expr

/-- The simulation, what all processes share, the registers of the running frame of each process,
and the `wait(cond)` that a process is in. -/
structure World where
  sim : Sim
  statics : Nat → Val
  heap : Heap
  regs : ProcId → Reg → Val
  waits : ProcId → Option Condition

namespace World

variable (w : World)

/-- What the instructions of a process work on. -/
def seenBy (p : ProcId) : State := ⟨w.regs p, w.statics, w.sim.kernel.netValue, w.heap⟩

/-- The running process, when it is in no `wait(cond)`. -/
def free : Option ProcId := (current w.sim).filter fun p => (w.waits p).isNone

/-- What an instruction leaves, with the call of the kernel it ends in. -/
def store (p : ProcId) (s : State) (call : Option Call) : Option World :=
  ((call.map fun c => Eevee.Sched.Simulation.step (.call c) w.sim).getD (some w.sim)).map fun sim =>
    { w with sim, statics := s.statics, heap := s.heap, regs := Function.update w.regs p s.regs }

/-- The check of `wait(cond)`: the process waits, or it runs on behind the statement. The condition
has a value: the interpreter panics at the others, and handles lead somewhere. -/
def check (addr : Nat → Nat) (p : ProcId) (c : Condition) : Option World :=
  if (eval (w.seenBy p) c.expr).isSome then
    (runCode addr 0 (genWait c.expr c.next) (w.seenBy p)).bind fun (s, parks) =>
      if parks then
        (Eevee.Sched.Simulation.step (.suspend .runtimeCond) w.sim).map fun sim =>
          { w with
            sim
            regs := Function.update w.regs p s.regs
            waits := Function.update w.waits p (some c) }
      else
        some { w with
          regs := Function.update w.regs p s.regs
          waits := Function.update w.waits p none }
  else none

end World

/-- The call of the kernel in which an instruction ends. -/
def callOf (s : State) (i : Inst) : Option Call :=
  match written s i with
  | some (n, v) => some (.writeNet n v)
  | none => if notifiesInst s i then some .notifyRuntimeChange else none

/-- What happens, one thing at a time. The scheduler takes a step, or the running process calls the
kernel or suspends; it runs an instruction or a method on its registers; it makes an object or an
array; anything else it computes, is passed or gets back changes its own registers only; resumed by
the NBA region it applies the updates of its variables; it comes to a `wait(cond)`, or jumps back to
the check of the one it is in. -/
inductive Act
  | sched (l : Label)
  | inst (i : Inst)
  | collMethod (dst base : Reg) (op : CollOp) (args : List Reg)
  | newObject (dst : Reg) (data : ObjData)
  | newQueue (dst : Reg)
  | newAssoc (dst : Reg)
  | registers (regs : Reg → Val)
  | applyPending (pending : List (Reg × Val))
  | wait (c : Condition)
  | check

/-- A new object or array and its handle. -/
def World.make (w : World) (dst : Reg) (made : Heap × Val) : Option World :=
  w.free.bind fun p => w.store p (((w.seenBy p).setHeap made.1).setReg dst made.2) none

/-- One step of any process or of the scheduler. -/
def step (addr : Nat → Nat) (act : Act) (w : World) : Option World :=
  match act with
  | .sched l =>
    if !makesNet l && (current w.sim).all fun p => (w.waits p).isNone then
      (Eevee.Sched.Simulation.step l w.sim).map fun sim => { w with sim }
    else none
  | .inst i => w.free.bind fun p =>
    (exec (w.seenBy p) i).bind fun s => w.store p s (callOf (w.seenBy p) i)
  | .collMethod dst base op args => w.free.bind fun p =>
    (evalCollMethod addr (w.seenBy p) (w.regs p base) op args).bind fun (s, v) =>
      w.store p { s.setReg dst v with statics := w.statics }
        (if mutates op then some .notifyRuntimeChange else none)
  | .newObject dst data =>
    w.make dst ({ w.heap with objs := w.heap.objs ++ [data] }, .obj w.heap.objs.length)
  | .newQueue dst => w.make dst (w.heap.addQueue [])
  | .newAssoc dst => w.make dst (w.heap.addAssoc [])
  | .registers regs => w.free.bind fun p => w.store p { w.seenBy p with regs } none
  | .applyPending pending => w.free.bind fun p =>
    w.store p { w.seenBy p with regs := applyUpdates pending (w.regs p) }
      (some .notifyRuntimeChange)
  | .wait c => w.free.bind fun p => w.check addr p c
  | .check => (current w.sim).bind fun p => (w.waits p).bind (w.check addr p)

/-! ### What a step does -/

/-- What all processes share is as it was; there may be new objects and arrays. -/
structure Shares (w w' : World) : Prop where
  statics : w'.statics = w.statics
  nets : w'.sim.kernel.netValue = w.sim.kernel.netValue
  heap : Grown w.heap w'.heap

/-- Either all who wait for a runtime change are moved, or what processes share is as it was. A
process that still waits in its `wait(cond)` has its registers as they were, or has just found that
the condition does not hold. -/
structure Outcome (w w' : World) : Prop where
  shared : Roused w.sim.kernel w'.sim.kernel ∨ Shares w w'
  waits : ∀ p c, w'.waits p = some c → p ∈ w'.sim.kernel.runtimeWaiters →
    (w.waits p = some c ∧ p ∈ w.sim.kernel.runtimeWaiters ∧ w'.regs p = w.regs p) ∨
      ∃ v, eval (w'.seenBy p) c.expr = some v ∧ truthy v = false

section

variable {addr : Nat → Nat} {w w' : World} {p : ProcId}

theorem free_spec (h : w.free = some p) : current w.sim = some p ∧ w.waits p = none := by
  obtain ⟨hcurrent, hnone⟩ := Option.filter_eq_some_iff.mp h
  exact ⟨hcurrent, Option.isNone_iff_eq_none.mp hnone⟩

/-- A process in a `wait(cond)` is not the one that runs freely. -/
theorem ne_of_free {q : ProcId} {c : Condition} (h : w.free = some p) (hq : w.waits q = some c) :
    q ≠ p := by
  rintro rfl
  rw [(free_spec h).2] at hq
  cases hq

/-- What a free process does to its registers and to what is shared, with the call of the kernel
that goes with it. -/
theorem outcome_store {s : State} {call : Option Call} (hfree : w.free = some p)
    (h : w.store p s call = some w') (hnet : ∀ c, call = some c → makesNet (.call c) = false)
    (hquiet : call ≠ some .notifyRuntimeChange →
      s.statics = w.statics ∧ Grown w.heap s.heap) : Outcome w w' := by
  obtain ⟨sim, hsim, rfl⟩ := Option.map_eq_some_iff.mp h
  have hother {q : ProcId} {c : Condition} (hq : w.waits q = some c) :
      Function.update w.regs p s.regs q = w.regs q :=
    Function.update_of_ne (ne_of_free hfree hq) _ _
  have hroused (hr : Roused w.sim.kernel sim.kernel) : Outcome w
      { w with
        sim, statics := s.statics, heap := s.heap, regs := Function.update w.regs p s.regs } :=
    ⟨.inl hr, fun q c _ hmem => absurd hmem (by rw [hr.none]; exact List.not_mem_nil)⟩
  cases call with
  | none =>
    cases hsim
    obtain ⟨hstatics, hheap⟩ := hquiet (by simp)
    exact ⟨.inr ⟨hstatics, rfl, hheap⟩, fun q c hq hmem => .inl ⟨hq, hmem, hother hq⟩⟩
  | some c =>
    have hsim : Eevee.Sched.Simulation.step (.call c) w.sim = some sim := hsim
    by_cases hnotify : c = .notifyRuntimeChange
    · subst hnotify
      cases stepped_of_step hsim
      exact hroused ⟨rfl, fun q hq => List.mem_append_right _ hq⟩
    · obtain ⟨hstatics, hheap⟩ := hquiet fun heq => hnotify (Option.some.inj heq)
      rcases waiters_step hsim (hnet c rfl) with ⟨hwaiters, hnets⟩ | hr
      · refine ⟨.inr ⟨hstatics, hnets, hheap⟩, fun q c hq hmem => .inl ⟨hq, ?_, hother hq⟩⟩
        refine (hwaiters q hmem).resolve_right fun hcurrent => ne_of_free hfree hq ?_
        exact Option.some.inj (hcurrent.symm.trans (free_spec hfree).1)
      · exact hroused hr

/-- A check leaves the process waiting only after it has found the condition not to hold. -/
theorem outcome_check {c : Condition} (hcurrent : current w.sim = some p)
    (h : w.check addr p c = some w') : Outcome w w' := by
  unfold World.check at h
  split at h
  · rename_i hvalue
    obtain ⟨v, hv⟩ := Option.isSome_iff_exists.mp hvalue
    obtain ⟨t, ht, hrun⟩ : ∃ t, Unchanged c.next (w.seenBy p) t ∧
        runCode addr 0 (genWait c.expr c.next) (w.seenBy p) = some (t, !truthy v) :=
      runCode_genWait c.below hv
    rw [hrun, Option.bind_some] at h
    have hother {q : ProcId} (hq : q ≠ p) : Function.update w.regs p t.regs q = w.regs q :=
      Function.update_of_ne hq _ _
    cases htrue : truthy v with
    | true =>
      simp only [htrue] at h
      cases h
      refine ⟨.inr ⟨rfl, rfl, .refl _⟩, fun q d hq hmem => .inl ?_⟩
      have hne : q ≠ p := by
        rintro rfl
        simp at hq
      have hq : w.waits q = some d := (Function.update_of_ne hne _ _).symm.trans hq
      exact ⟨hq, hmem, hother hne⟩
    | false =>
      simp only [htrue] at h
      obtain ⟨sim, hsim, rfl⟩ := Option.map_eq_some_iff.mp h
      rcases waiters_step hsim rfl with ⟨hwaiters, hnets⟩ | hr
      · refine ⟨.inr ⟨rfl, hnets, .refl _⟩, fun q d hq hmem => ?_⟩
        by_cases hne : q = p
        · subst hne
          have hd : c = d :=
            Option.some.inj ((Function.update_self q (some c) w.waits).symm.trans hq)
          subst hd
          have hsame : Unchanged c.next (w.seenBy q)
              ⟨t.regs, w.statics, sim.kernel.netValue, w.heap⟩ := ⟨ht.regs, rfl, hnets, .refl _⟩
          refine .inr ⟨v, ?_, htrue⟩
          show eval ⟨Function.update w.regs q t.regs q, w.statics, sim.kernel.netValue, w.heap⟩
            c.expr = some v
          rw [Function.update_self]
          exact eval_unchanged hsame c.below hv
        · have hq : w.waits q = some d := (Function.update_of_ne hne _ _).symm.trans hq
          refine .inl ⟨hq, (hwaiters q hmem).resolve_right fun h => hne ?_, hother hne⟩
          exact Option.some.inj (h.symm.trans hcurrent)
      · exact ⟨.inl hr, fun q d _ hmem => absurd hmem (by rw [hr.none]; exact List.not_mem_nil)⟩
  · cases h

theorem outcome_make {dst : Reg} {made : Heap × Val} (h : w.make dst made = some w')
    (hgrown : Grown w.heap made.1) : Outcome w w' := by
  obtain ⟨p, hfree, h⟩ := Option.bind_eq_some_iff.mp h
  exact outcome_store hfree h (by simp) fun _ => ⟨rfl, hgrown⟩

/-- An instruction that ends in no runtime change leaves what is in the statics and the heap. -/
theorem quiet_inst {s t : State} {i : Inst} (h : exec s i = some t)
    (hcall : callOf s i ≠ some .notifyRuntimeChange) :
    t.statics = s.statics ∧ Grown s.heap t.heap := by
  have hinst : notifiesInst s i = false := by
    by_contra hnotifies
    rw [Bool.not_eq_false] at hnotifies
    refine hcall ?_
    have hnone : written s i = none := by
      cases i <;> first | rfl | cases hnotifies
    unfold callOf
    rw [hnone, hnotifies]
    rfl
  obtain ⟨hstatics, hheap⟩ := quiet_exec h hinst
  exact ⟨hstatics, grown_of_extends hheap⟩

theorem makesNet_callOf {s : State} {i : Inst} {c : Call} (h : callOf s i = some c) :
    makesNet (.call c) = false := by
  unfold callOf at h
  split at h
  · cases h
    rfl
  · split at h
    · cases h
      rfl
    · cases h

theorem outcome_step {act : Act} (h : step addr act w = some w') : Outcome w w' := by
  cases act with
  | sched l =>
    simp only [step] at h
    split at h
    · rename_i hguard
      obtain ⟨sim, hsim, rfl⟩ := Option.map_eq_some_iff.mp h
      obtain ⟨hnet, hguard⟩ := (Bool.and_eq_true _ _).mp hguard
      rw [Bool.not_eq_true'] at hnet
      rcases waiters_step hsim hnet with ⟨hwaiters, hnets⟩ | hr
      · refine ⟨.inr ⟨rfl, hnets, .refl _⟩, fun q c hq hmem => .inl ⟨hq, ?_, rfl⟩⟩
        refine (hwaiters q hmem).resolve_right fun hcurrent => ?_
        have hq : w.waits q = some c := hq
        simp [hcurrent, hq] at hguard
      · exact ⟨.inl hr, fun q c _ hmem => absurd hmem (by rw [hr.none]; exact List.not_mem_nil)⟩
    · cases h
  | inst i =>
    obtain ⟨p, hfree, h⟩ := Option.bind_eq_some_iff.mp h
    obtain ⟨s, hs, h⟩ := Option.bind_eq_some_iff.mp h
    exact outcome_store hfree h (fun c => makesNet_callOf) (quiet_inst hs)
  | collMethod dst base op args =>
    obtain ⟨p, hfree, h⟩ := Option.bind_eq_some_iff.mp h
    obtain ⟨⟨s, v⟩, hs, h⟩ := Option.bind_eq_some_iff.mp h
    refine outcome_store hfree h (fun c hc => ?_) fun hcall => ⟨rfl, ?_⟩
    · split at hc
      · exact Option.some.inj hc ▸ rfl
      · cases hc
    · have hquiet : mutates op = false := by
        by_contra hmutates
        exact hcall (if_pos (by simpa using hmutates))
      have hheap := quiet_evalCollMethod hs hquiet
      show Grown w.heap s.heap
      rw [hheap]
      exact .refl _
  | newObject dst data =>
    exact outcome_make h ⟨List.prefix_append _ _, List.prefix_refl _, List.prefix_refl _⟩
  | newQueue dst =>
    exact outcome_make h ⟨List.prefix_refl _, List.prefix_append _ _, List.prefix_refl _⟩
  | newAssoc dst =>
    exact outcome_make h ⟨List.prefix_refl _, List.prefix_refl _, List.prefix_append _ _⟩
  | registers regs =>
    obtain ⟨p, hfree, h⟩ := Option.bind_eq_some_iff.mp h
    exact outcome_store hfree h (by simp) fun _ => ⟨rfl, .refl _⟩
  | applyPending pending =>
    obtain ⟨p, hfree, h⟩ := Option.bind_eq_some_iff.mp h
    exact outcome_store hfree h (fun c hc => Option.some.inj hc ▸ rfl) fun _ => ⟨rfl, .refl _⟩
  | wait c =>
    obtain ⟨p, hfree, h⟩ := Option.bind_eq_some_iff.mp h
    exact outcome_check (free_spec hfree).1 h
  | check =>
    obtain ⟨p, hcurrent, h⟩ := Option.bind_eq_some_iff.mp h
    obtain ⟨c, -, h⟩ := Option.bind_eq_some_iff.mp h
    exact outcome_check hcurrent h

end

/-! ### Runs -/

/-- Nobody waits in a `wait(cond)` for a condition that holds. -/
def NoneLost (w : World) : Prop :=
  ∀ p c, w.waits p = some c → p ∈ w.sim.kernel.runtimeWaiters →
    ∃ v, eval (w.seenBy p) c.expr = some v ∧ truthy v = false

theorem noneLost_step {addr : Nat → Nat} {act : Act} {w w' : World} (hw : NoneLost w)
    (h : step addr act w = some w') : NoneLost w' := by
  have hout := outcome_step h
  intro p c hp hmem
  rcases hout.waits p c hp hmem with ⟨hwaits, hwaiter, hregs⟩ | hchecked
  · obtain ⟨v, hv, hfalse⟩ := hw p c hwaits hwaiter
    rcases hout.shared with hr | hs
    · rw [hr.none] at hmem
      cases hmem
    · have hsame : Unchanged c.next (w.seenBy p) (w'.seenBy p) :=
        ⟨fun r _ => congrFun hregs r, hs.statics, hs.nets, hs.heap⟩
      exact ⟨v, eval_unchanged hsame c.below hv, hfalse⟩
  · exact hchecked

/-- In every run of any processes a process that waits in the runtime list for a condition has a
condition that does not hold, and whatever changes something that all processes share moves
everybody in that list to the active queue. -/
theorem no_lost_wakeup (addr : Nat → Nat) (w₀ w : World) (acts : List Act)
    (h₀ : ∀ p, w₀.waits p = none) (hrun : run (step addr) w₀ acts = some w) :
    (∀ p c, w.waits p = some c → p ∈ w.sim.kernel.runtimeWaiters →
      ∃ v, eval (w.seenBy p) c.expr = some v ∧ truthy v = false) ∧
    ∀ act w', step addr act w = some w' → ¬ Shares w w' →
      Roused w.sim.kernel w'.sim.kernel := by
  have hstart : NoneLost w₀ := fun p c hp _ => by
    rw [h₀ p] at hp
    cases hp
  have hw : NoneLost w := run_invariant NoneLost hrun hstart fun _ _ _ hw h => noneLost_step hw h
  exact ⟨hw, fun act w' h hs => (outcome_step h).shared.resolve_right hs⟩

/-- Two processes that have not run yet, and a static that nobody has written. -/
def twoProcesses : World where
  sim := Sim.new.addProcess.addProcess
  statics _ := .null
  heap := ⟨[], [], []⟩
  regs _ _ := .null
  waits _ := none

/-- The static is true. -/
def isSet : Condition := ⟨.read (.static 0) [], 0, trivial⟩

/-- The first process comes to `wait(cond)`, and the second one runs. -/
def waitRun : List Act :=
  [.sched (.runUntil none), .sched .resume, .wait isSet, .sched .resume,
    .registers fun _ => .logic (.ones 1)]

/-- The second process sets the static. -/
def setStatic : Act := .inst (.staticSet 0 0)

theorem waitRun_isSome : (run (step id) twoProcesses waitRun).isSome = true := rfl

theorem setStatic_isSome :
    (step id setStatic ((run (step id) twoProcesses waitRun).get waitRun_isSome)).isSome = true :=
  rfl

/-- The first process waits while the static is not set, and the second one moves it. -/
theorem no_lost_wakeup_static : ∃ w w', run (step id) twoProcesses waitRun = some w ∧
    w.sim.kernel.runtimeWaiters = [0] ∧
    (∃ v, eval (w.seenBy 0) isSet.expr = some v ∧ truthy v = false) ∧
    step id setStatic w = some w' ∧ Roused w.sim.kernel w'.sim.kernel := by
  have hrun : run (step id) twoProcesses waitRun =
      some ((run (step id) twoProcesses waitRun).get waitRun_isSome) :=
    (Option.some_get waitRun_isSome).symm
  have hstep := (Option.some_get setStatic_isSome).symm
  obtain ⟨hwaits, hmoves⟩ := no_lost_wakeup id twoProcesses _ waitRun (fun _ => rfl) hrun
  refine ⟨_, _, hrun, rfl, hwaits 0 isSet rfl List.mem_cons_self, hstep,
    hmoves _ _ hstep fun hs => ?_⟩
  have hsame : Val.logic (.ones 1) = .null := congrFun hs.statics 0
  cases hsame

end Eevee.Elab.WaitCondition
