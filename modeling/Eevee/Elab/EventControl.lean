/- Event control on an expression: what resumes the process, and when that is the change it asked
for. -/

import Mathlib.Data.List.Basic
import Mathlib.Tactic.Common
import Mathlib.Tactic.SplitIfs
import Eevee.Ir.Collections
import Eevee.Lib.Sleeper
import Eevee.Sched.Registrations
import Eevee.Sched.RuntimeWaiters

set_option autoImplicit false
set_option relaxedAutoImplicit false

namespace Eevee.Elab.EventControl

open Eevee.Core.Logic
open Eevee.Ir.Objects
open Eevee.Ir.Locations (Extends extends_assignmentCopy)
open Eevee.Ir.Collections
open Eevee.Ir.Values (MemoryDef memoryElement)
open Eevee.Lib.Sleeper
open Eevee.Lib.Transition
open Eevee.Sched.Nets (EdgeKind ProcId detectEdge)
open Eevee.Sched
open Eevee.Sched.Registrations
open Eevee.Sched.RuntimeWaiters (netValue_arm netValue_writeNet_same waiters_arm
  waiters_clearNetWaiters waiters_registerNets waiters_writeNet)
open Eevee.Sched.Scheduler

/-! ### Expressions -/

/-- An expression over local variables, nets, statics and what handles lead to. The operations take
the values of their operands, a conditional those of its condition and both branches; none where
the interpreter panics. -/
inductive Expr
  | const (value : Val)
  | reg (r : Reg)
  | net (n : NetId)
  | static (id : Nat)
  | memory (m : MemoryDef) (index : Expr)
  | field (obj : Expr) (slot : Nat)
  | index (base idx : Expr)
  | op (f : List Val → Option Val) (args : List Expr)

/-- A field of an object; other values have none. -/
def fieldOf (h : Heap) (slot : Nat) : Val → Option Val
  | .obj id => h.objs[id]?.bind (·.fields[slot]?)
  | _ => some .null

/-- The arrays of the handles exist. -/
def Stored (h : Heap) : Val → Prop
  | .queue id => id < h.queues.length
  | .assoc id => id < h.assocs.length
  | _ => True

instance (h : Heap) : (v : Val) → Decidable (Stored h v)
  | .queue id => inferInstanceAs (Decidable (id < h.queues.length))
  | .assoc id => inferInstanceAs (Decidable (id < h.assocs.length))
  | .null | .logic _ | .str _ | .obj _ | .event _ => .isTrue trivial

def memoryOf (s : State) (m : MemoryDef) (idx : Val) : Option Val :=
  idx.asLogic.map fun index => .logic (match memoryElement m index with
    | some net => s.nets net
    | none => .x m.elementWidth)

/-- An element or bit of storage that exists. -/
def elementOf (s : State) (base idx : Val) : Option Val :=
  if Stored s.heap base then indexGet s base idx else none

mutual

/-- The value of an expression in a state. -/
def eval (s : State) : Expr → Option Val
  | .const value => some value
  | .reg r => some (s.regs r)
  | .net n => some (.logic (s.nets n))
  | .static id => some (s.statics id)
  | .memory m index => (eval s index).bind (memoryOf s m)
  | .field obj slot => (eval s obj).bind (fieldOf s.heap slot)
  | .index base idx => (eval s base).bind fun base => (eval s idx).bind (elementOf s base)
  | .op f args => (evalAll s args).bind f

def evalAll (s : State) : List Expr → Option (List Val)
  | [] => some []
  | e :: es => (eval s e).bind fun v => (evalAll s es).map (v :: ·)

end

mutual

/-- The local variables of the expression have registers below `n`. -/
def Below (n : Reg) : Expr → Prop
  | .reg r => r < n
  | .const _ | .net _ | .static _ => True
  | .memory _ e | .field e _ => Below n e
  | .index base idx => Below n base ∧ Below n idx
  | .op _ args => AllBelow n args

def AllBelow (n : Reg) : List Expr → Prop
  | [] => True
  | e :: es => Below n e ∧ AllBelow n es

end

/-! ### Code -/

/-- The instructions of an event control. -/
inductive Code
  | data (i : Eevee.Ir.Objects.Inst)
  | apply (dst : Reg) (f : List Val → Option Val) (args : List Reg)
  | waitEdge (net : NetId) (edge : EdgeKind)
  | waitChange (value : Reg)

/-- Code for an expression, with the register of its value and the next free register. -/
structure Piece where
  code : List Code
  value : Reg
  next : Reg

mutual

/-- `gen_expr`: a local variable is its own register, all other values get new ones. -/
def genExpr : Expr → Reg → Piece
  | .const value, n => ⟨[.data (.loadConst n value)], n, n + 1⟩
  | .reg r, n => ⟨[], r, n⟩
  | .net net, n => ⟨[.data (.netRead n net)], n, n + 1⟩
  | .static id, n => ⟨[.data (.staticGet n id)], n, n + 1⟩
  | .memory m e, n =>
    let p := genExpr e n
    ⟨p.code ++ [.data (.memoryRead p.next m p.value)], p.next, p.next + 1⟩
  | .field e slot, n =>
    let p := genExpr e n
    ⟨p.code ++ [.data (.getField p.next p.value slot)], p.next, p.next + 1⟩
  | .index base idx, n =>
    let p := genExpr base n
    let q := genExpr idx p.next
    ⟨p.code ++ q.code ++ [.data (.indexGet q.next p.value q.value)], q.next, q.next + 1⟩
  | .op f args, n =>
    let (code, values, next) := genAll args n
    ⟨code ++ [.apply next f values], next, next + 1⟩

def genAll : List Expr → Reg → List Code × List Reg × Reg
  | [], n => ([], [], n)
  | e :: es, n =>
    let p := genExpr e n
    let (code, values, next) := genAll es p.next
    (p.code ++ code, p.value :: values, next)

end

/-- An event of an event control. Where the expression is a plain name, it is given with the
variable or net that the name stands for. -/
structure EventExpr where
  edge : EdgeKind
  name : Option String
  expr : Expr

section

variable (nets : String → Option NetId)

/-- The net that has the name. -/
def EventExpr.net (ev : EventExpr) : Option NetId := ev.name.bind nets

/-- The event control on one expression. A plain name is looked up among the nets first, whatever
else it stands for, and only a net keeps its edge. -/
def genTiming (ev : EventExpr) (next : Reg) : List Code :=
  match ev.net nets with
  | some n => [.waitEdge n ev.edge]
  | none => (genExpr ev.expr next).code ++ [.waitChange (genExpr ev.expr next).value]

end

/-! ### The waiting process and the others -/

/-- The kernel, what all processes share, and of the waiting process its registers and the updates
of its variables for the end of the time step. -/
structure World where
  kernel : Kernel
  statics : Nat → Val
  heap : Heap
  regs : Reg → Val
  pending : List (Reg × Val)

namespace World

/-- What instructions on some registers work on. -/
def seenBy (w : World) (regs : Reg → Val) : State := ⟨regs, w.statics, w.kernel.netValue, w.heap⟩

def own (w : World) : State := w.seenBy w.regs

end World

/-- The value of the expression for the waiting process. -/
def valueIn (w : World) (e : Expr) : Option Val := eval w.own e

/-- The net that an instruction writes, with the value. -/
def written (s : State) : Inst → Option (NetId × PackedVec)
  | .blockingWrite net src => (s.regs src).asLogic.map (net, ·)
  | .blockingMemoryWrite m index src => (s.regs index).asLogic.bind fun index =>
    (memoryElement m index).bind fun net =>
      (s.regs src).asLogic.map fun value => (net, value.resize m.elementWidth false)
  | _ => none

/-- The instruction ends in `notify_runtime_change`. -/
def notifiesInst (s : State) : Inst → Bool
  | .setField obj _ _ => match s.regs obj with
    | .obj _ => true
    | _ => false
  | .staticSet _ _ => true
  | .indexSet base idx _ => match s.regs base with
    | .logic old => match s.regs idx with
      | .logic index => index.isKnown && decide (index.toU64 < old.width)
      | _ => false
    | .queue _ | .assoc _ => true
    | _ => false
  | _ => false

/-- The methods that notify, whatever they are called on. -/
def mutates : CollOp → Bool
  | .pushBack | .pushFront | .popBack | .popFront | .insert | .delete => true
  | .size | .exists | .num | .first | .last | .next | .prev => false

/-- What happens while the process waits. Another process runs an instruction on its registers,
makes an object or array, applies the updates of its own variables, or waits; a driver or an update
of the NBA region writes a net; the NBA region ends. -/
inductive Act
  | exec (regs : Reg → Val) (i : Inst)
  | collMethod (regs : Reg → Val) (base : Val) (op : CollOp) (args : List Reg)
  | newObject (data : ObjData)
  | newQueue
  | newAssoc
  | applyPending
  | arm (p : ProcId) (wait : Wait)
  | writeNet (n : NetId) (v : PackedVec)
  | wakeNba

def applyUpdates (pending : List (Reg × Val)) (regs : Reg → Val) : Reg → Val :=
  pending.foldl (fun regs u => Function.update regs u.1 u.2) regs

/-- What an instruction of another process does to the kernel. -/
def kernelAfter (k : Kernel) (s : State) (i : Inst) : Kernel :=
  match written s i with
  | some (n, v) => k.writeNet n v
  | none => if notifiesInst s i then k.notifyRuntimeChange else k

/-- One step of the others. The waiting process has its updates applied when the NBA region resumes
it, before it reads any variable. -/
def step (addr : Nat → Nat) (pid : ProcId) (act : Act) (w : World) : Option World :=
  match act with
  | .exec regs i =>
    (exec (w.seenBy regs) i).map fun s =>
      { w with
        statics := s.statics
        heap := s.heap
        kernel := kernelAfter w.kernel (w.seenBy regs) i }
  | .collMethod regs base op args =>
    (evalCollMethod addr (w.seenBy regs) base op args).map fun (s, _) =>
      { w with
        heap := s.heap
        kernel := if mutates op then w.kernel.notifyRuntimeChange else w.kernel }
  | .newObject data => some { w with heap := { w.heap with objs := w.heap.objs ++ [data] } }
  | .newQueue => some { w with heap := (w.heap.addQueue []).1 }
  | .newAssoc => some { w with heap := (w.heap.addAssoc []).1 }
  | .applyPending => some { w with kernel := w.kernel.notifyRuntimeChange }
  | .arm p wait => if p = pid then none else some { w with kernel := w.kernel.arm p wait }
  | .writeNet n v => some { w with kernel := w.kernel.writeNet n v }
  | .wakeNba =>
    if pid ∈ w.kernel.nbaWaiters then
      some { w with
        kernel := w.kernel.wakeNbaWaiters
        regs := applyUpdates w.pending w.regs
        pending := [] }
    else some { w with kernel := w.kernel.wakeNbaWaiters }

/-- The process is in the list of those that any runtime change or the NBA region resumes, or it is
registered on a net. -/
def Waiting (pid : ProcId) (w : World) : Prop :=
  pid ∈ w.kernel.runtimeWaiters ∨ pid ∈ w.kernel.nbaWaiters ∨
    (w.kernel.netWaits pid).isSome = true

/-- `WaitChange`: a variable with an update to come waits for the NBA region. -/
def waitChange (pending : List (Reg × Val)) (value : Reg) : Wait :=
  if pending.any (·.1 == value) then .nba else .runtimeCond

/-- The step ends in a runtime change: a net gets another value, or anything else is written. -/
def notifies (w : World) : Act → Bool
  | .exec regs i => match written (w.seenBy regs) i with
    | some (n, v) => (detectEdge (w.kernel.netValue n) v).changed
    | none => notifiesInst (w.seenBy regs) i
  | .collMethod _ _ op _ => mutates op
  | .writeNet n v => (detectEdge (w.kernel.netValue n) v).changed
  | .applyPending => true
  | .newObject _ | .newQueue | .newAssoc | .arm _ _ | .wakeNba => false

/-- The net that a step writes, with the value. -/
def writes (w : World) : Act → Option (NetId × PackedVec)
  | .exec regs i => written (w.seenBy regs) i
  | .writeNet n v => some (n, v)
  | .collMethod .. | .newObject _ | .newQueue | .newAssoc | .applyPending | .arm _ _ | .wakeNba =>
    none

/-- What resumes a waiting process. -/
def rouses (wait : Wait) (w : World) (act : Act) : Prop :=
  match wait with
  | .nba => act = .wakeNba
  | .edge n edge => ∃ v, writes w act = some (n, v) ∧
    EdgeWakeups.Matches (w.kernel.netValue n) v edge
  | _ => notifies w act = true

/-- The event control of the standard on two successive values. -/
def Made (edge : EdgeKind) (old new : Option Val) : Prop :=
  match edge with
  | .anyChange => old ≠ new
  | .posedge | .negedge => ∃ a b, old.bind (·.asLogic) = some a ∧ new.bind (·.asLogic) = some b ∧
    EdgeWakeups.Matches a b edge

/-- The instructions up to the first wait; none where the interpreter panics. -/
def runCode (pending : List (Reg × Val)) (s : State) : List Code → Option (State × Option Wait)
  | [] => some (s, none)
  | .data i :: rest => (exec s i).bind (runCode pending · rest)
  | .apply dst f args :: rest =>
    (f (args.map s.regs)).bind fun v => runCode pending (s.setReg dst v) rest
  | .waitEdge n edge :: _ => some (s, some (.edge n edge))
  | .waitChange value :: _ => some (s, some (waitChange pending value))

/-- The process comes to its event control and waits. -/
def enter (nets : String → Option NetId) (pid : ProcId) (ev : EventExpr) (next : Reg) (w : World) :
    Option World :=
  (runCode w.pending w.own (genTiming nets ev next)).map fun (s, wait) =>
    { w with
      regs := s.regs
      kernel := (wait.map (w.kernel.arm pid)).getD w.kernel }

/-! ### What the value depends on -/

mutual

theorem le_genExpr : ∀ (e : Expr) (n : Reg), n ≤ (genExpr e n).next
  | .const _, n | .net _, n | .static _, n => Nat.le_succ n
  | .reg _, n => le_refl n
  | .memory _ e, n | .field e _, n => (le_genExpr e n).trans (Nat.le_succ _)
  | .index base idx, n =>
    (le_genExpr base n).trans ((le_genExpr idx _).trans (Nat.le_succ _))
  | .op _ args, n => (le_genAll args n).trans (Nat.le_succ _)

theorem le_genAll : ∀ (es : List Expr) (n : Reg), n ≤ (genAll es n).2.2
  | [], n => le_refl n
  | e :: es, n => (le_genExpr e n).trans (le_genAll es _)

end

/-- Any other value than that of a variable is in a register of its own. -/
theorem le_value {e : Expr} (hreg : ∀ r, e ≠ .reg r) (n : Reg) : n ≤ (genExpr e n).value := by
  cases e with
  | reg r => exact absurd rfl (hreg r)
  | const | net | static => exact le_refl n
  | memory m e => exact le_genExpr e n
  | field e slot => exact le_genExpr e n
  | index base idx => exact (le_genExpr base n).trans (le_genExpr idx _)
  | op f args => exact le_genAll args n

mutual

theorem below_mono {n m : Reg} (hle : n ≤ m) : ∀ {e : Expr}, Below n e → Below m e
  | .reg _, h => Nat.lt_of_lt_of_le h hle
  | .const _, _ | .net _, _ | .static _, _ => trivial
  | .memory _ e, h => below_mono (e := e) hle h
  | .field e _, h => below_mono (e := e) hle h
  | .index _ _, h => ⟨below_mono hle h.1, below_mono hle h.2⟩
  | .op _ _, h => allBelow_mono hle h

theorem allBelow_mono {n m : Reg} (hle : n ≤ m) : ∀ {es : List Expr}, AllBelow n es → AllBelow m es
  | [], _ => trivial
  | _ :: _, h => ⟨below_mono hle h.1, allBelow_mono hle h.2⟩

end

/-- Objects and arrays keep their contents; there may be new ones. -/
structure Grown (h h' : Heap) : Prop where
  objs : h.objs <+: h'.objs
  queues : h.queues <+: h'.queues
  assocs : h.assocs <+: h'.assocs

theorem Grown.refl (h : Heap) : Grown h h :=
  ⟨List.prefix_refl _, List.prefix_refl _, List.prefix_refl _⟩

theorem grown_of_extends {h h' : Heap} (hh : Extends h h') : Grown h h' :=
  ⟨by rw [hh.objs], hh.queues, hh.assocs⟩

/-- Nothing that an expression over the first variables can see is different. -/
structure Unchanged (n : Reg) (s t : State) : Prop where
  regs : ∀ r < n, t.regs r = s.regs r
  statics : t.statics = s.statics
  nets : t.nets = s.nets
  heap : Grown s.heap t.heap

section

variable {n m : Reg} {s t u : State} {v : Val}

theorem Unchanged.mono (h : Unchanged m s t) (hle : n ≤ m) : Unchanged n s t :=
  ⟨fun r hr => h.regs r (Nat.lt_of_lt_of_le hr hle), h.statics, h.nets, h.heap⟩

theorem Unchanged.trans (h : Unchanged n s t) (h' : Unchanged n t u) : Unchanged n s u :=
  ⟨fun r hr => (h'.regs r hr).trans (h.regs r hr), h'.statics.trans h.statics,
    h'.nets.trans h.nets, h.heap.objs.trans h'.heap.objs, h.heap.queues.trans h'.heap.queues,
    h.heap.assocs.trans h'.heap.assocs⟩

theorem getElem?_of_grown {α : Type} {l l' : List α} (h : l <+: l') {i : Nat} {a : α}
    (hi : l[i]? = some a) : l'[i]? = some a := by
  obtain ⟨hlt, rfl⟩ := List.getElem?_eq_some_iff.mp hi
  exact List.prefix_iff_getElem?.mp h i hlt

theorem fieldOf_grown {h h' : Heap} (hh : Grown h h') {slot : Nat} {obj : Val}
    (hv : fieldOf h slot obj = some v) : fieldOf h' slot obj = some v := by
  cases obj with
  | obj id =>
    obtain ⟨data, hdata, hfield⟩ := Option.bind_eq_some_iff.mp hv
    exact Option.bind_eq_some_iff.mpr ⟨data, getElem?_of_grown hh.objs hdata, hfield⟩
  | null | logic | str | queue | assoc | event => exact hv

theorem stored_grown {h h' : Heap} (hh : Grown h h') (hv : Stored h v) : Stored h' v := by
  cases v with
  | queue id => exact Nat.lt_of_lt_of_le hv hh.queues.length_le
  | assoc id => exact Nat.lt_of_lt_of_le hv hh.assocs.length_le
  | null | logic | str | obj | event => trivial

theorem elementOf_unchanged (h : Unchanged n s t) {base idx : Val}
    (hv : elementOf s base idx = some v) : elementOf t base idx = some v := by
  unfold elementOf at hv ⊢
  split at hv
  · rename_i hstored
    rw [if_pos (stored_grown h.heap hstored)]
    cases base with
    | queue id =>
      have hqueue : t.heap.queues[id]? = s.heap.queues[id]? :=
        (getElem?_of_grown h.heap.queues (List.getElem?_eq_getElem hstored)).trans
          (List.getElem?_eq_getElem hstored).symm
      simpa only [indexGet, hqueue] using hv
    | assoc id =>
      have hassoc : t.heap.assocs[id]? = s.heap.assocs[id]? :=
        (getElem?_of_grown h.heap.assocs (List.getElem?_eq_getElem hstored)).trans
          (List.getElem?_eq_getElem hstored).symm
      simpa only [indexGet, hassoc] using hv
    | null | logic | str | obj | event => exact hv
  · cases hv

theorem memoryOf_unchanged (h : Unchanged n s t) (m : MemoryDef) (idx : Val) :
    memoryOf t m idx = memoryOf s m idx := by
  unfold memoryOf
  rw [h.nets]

mutual

/-- The value stays as long as nothing that it depends on changes. -/
theorem eval_unchanged (h : Unchanged n s t) : ∀ {e : Expr} {v : Val}, Below n e →
    eval s e = some v → eval t e = some v
  | .const _, _, _, hv => hv
  | .reg r, v, hb, hv => by
    cases hv
    exact congrArg some (h.regs r hb)
  | .net net, v, _, hv => by
    cases hv
    rw [eval, h.nets]
  | .static id, v, _, hv => by
    cases hv
    rw [eval, h.statics]
  | .memory m e, v, hb, hv => by
    obtain ⟨idx, hidx, hv⟩ := Option.bind_eq_some_iff.mp hv
    have hb : Below n e := hb
    rw [eval, eval_unchanged h hb hidx, Option.bind_some, memoryOf_unchanged h, hv]
  | .field e slot, v, hb, hv => by
    obtain ⟨obj, hobj, hv⟩ := Option.bind_eq_some_iff.mp hv
    have hb : Below n e := hb
    rw [eval, eval_unchanged h hb hobj, Option.bind_some, fieldOf_grown h.heap hv]
  | .index base idx, v, hb, hv => by
    obtain ⟨b, hbase, hv⟩ := Option.bind_eq_some_iff.mp hv
    obtain ⟨i, hidx, hv⟩ := Option.bind_eq_some_iff.mp hv
    rw [eval, eval_unchanged h hb.1 hbase, Option.bind_some, eval_unchanged h hb.2 hidx,
      Option.bind_some, elementOf_unchanged h hv]
  | .op f args, v, hb, hv => by
    obtain ⟨vs, hvs, hv⟩ := Option.bind_eq_some_iff.mp hv
    rw [eval, evalAll_unchanged h hb hvs, Option.bind_some, hv]

theorem evalAll_unchanged (h : Unchanged n s t) : ∀ {es : List Expr} {vs : List Val},
    AllBelow n es → evalAll s es = some vs → evalAll t es = some vs
  | [], _, _, hvs => hvs
  | e :: es, vs, hb, hvs => by
    obtain ⟨v, hv, hvs⟩ := Option.bind_eq_some_iff.mp hvs
    obtain ⟨vs', hvs', rfl⟩ := Option.map_eq_some_iff.mp hvs
    rw [evalAll, eval_unchanged h hb.1 hv, Option.bind_some, evalAll_unchanged h hb.2 hvs']
    rfl

end

/-! ### The code computes the value -/

theorem unchanged_setReg (s : State) (hle : n ≤ m) (v : Val) : Unchanged n s (s.setReg m v) :=
  ⟨fun _ hr => Function.update_of_ne (Nat.ne_of_lt (Nat.lt_of_lt_of_le hr hle)) _ _, rfl, rfl,
    .refl _⟩

/-- Running the piece leaves the value in its register. -/
structure Computes (pending : List (Reg × Val)) (n : Reg) (s : State) (p : Piece) (v : Val)
    (t : State) : Prop where
  run : ∀ rest, runCode pending s (p.code ++ rest) = runCode pending t rest
  value : t.regs p.value = v
  below : p.value < p.next
  next : n ≤ p.next
  rest : Unchanged n s t

/-- One more instruction, whose result goes to the next free register. -/
theorem Computes.last {pending : List (Reg × Val)} {p : Piece} {w : Val}
    (h : Computes pending n s p w t) {c : Code}
    (hc : ∀ rest, runCode pending t (c :: rest) = runCode pending (t.setReg p.next v) rest) :
    Computes pending n s ⟨p.code ++ [c], p.next, p.next + 1⟩ v (t.setReg p.next v) where
  run rest := by
    rw [List.append_assoc, h.run]
    exact hc rest
  value := Function.update_self _ _ _
  below := Nat.lt_succ_self _
  next := h.next.trans (Nat.le_succ _)
  rest := h.rest.trans (unchanged_setReg t h.next v)

theorem Computes.leaf {pending : List (Reg × Val)} {i : Inst}
    (hi : exec s i = some (s.setReg n v)) :
    Computes pending n s ⟨[.data i], n, n + 1⟩ v (s.setReg n v) where
  run rest := by
    show (exec s i).bind _ = _
    rw [hi]
    rfl
  value := Function.update_self _ _ _
  below := Nat.lt_succ_self _
  next := Nat.le_succ _
  rest := unchanged_setReg s le_rfl v

theorem exec_getField_of {dst obj : Reg} {slot : Nat}
    (hv : fieldOf s.heap slot (s.regs obj) = some v) :
    exec s (.getField dst obj slot) = some (s.setReg dst v) := by
  cases hobj : s.regs obj with
  | obj id =>
    rw [hobj] at hv
    have hv : (s.heap.objs[id]?.bind (·.fields[slot]?)) = some v := hv
    simp only [exec, hobj, hv, Option.map_some]
  | null | logic | str | queue | assoc | event =>
    rw [hobj] at hv
    cases hv
    simp only [exec, hobj]

theorem exec_memoryRead (s : State) (dst idx : Reg) (m : MemoryDef) :
    exec s (.memoryRead dst m idx) = (memoryOf s m (s.regs idx)).map (s.setReg dst) := by
  simp only [exec, memoryOf, Option.map_map]
  rfl

theorem exec_indexGet_of {dst base idx : Reg}
    (hv : elementOf s (s.regs base) (s.regs idx) = some v) :
    exec s (.indexGet dst base idx) = some (s.setReg dst v) := by
  unfold elementOf at hv
  split at hv
  · simp only [exec, hv, Option.map_some]
  · cases hv

mutual

theorem computes_genExpr (pending : List (Reg × Val)) :
    ∀ {e : Expr} {n : Reg} {s : State} {v : Val},
    Below n e → eval s e = some v → ∃ t, Computes pending n s (genExpr e n) v t
  | .const value, n, s, v, _, hv => by
    cases hv
    exact ⟨_, .leaf rfl⟩
  | .reg r, n, s, v, hb, hv => by
    cases hv
    exact ⟨s, fun _ => rfl, rfl, hb, le_rfl, fun _ _ => rfl, rfl, rfl, .refl _⟩
  | .net net, n, s, v, _, hv => by
    cases hv
    exact ⟨_, .leaf rfl⟩
  | .static id, n, s, v, _, hv => by
    cases hv
    exact ⟨_, .leaf rfl⟩
  | .memory m e, n, s, v, hb, hv => by
    obtain ⟨idx, hidx, hv⟩ := Option.bind_eq_some_iff.mp hv
    have hb : Below n e := hb
    obtain ⟨t, ht⟩ := computes_genExpr pending hb hidx
    refine ⟨_, ht.last fun rest => ?_⟩
    rw [runCode, exec_memoryRead, ht.value, memoryOf_unchanged ht.rest, hv]
    rfl
  | .field e slot, n, s, v, hb, hv => by
    obtain ⟨obj, hobj, hv⟩ := Option.bind_eq_some_iff.mp hv
    have hb : Below n e := hb
    obtain ⟨t, ht⟩ := computes_genExpr pending hb hobj
    refine ⟨_, ht.last fun rest => ?_⟩
    have hfield : fieldOf t.heap slot (t.regs (genExpr e n).value) = some v := by
      rw [ht.value, fieldOf_grown ht.rest.heap hv]
    rw [runCode, exec_getField_of hfield]
    rfl
  | .index base idx, n, s, v, hb, hv => by
    obtain ⟨b, hbase, hv⟩ := Option.bind_eq_some_iff.mp hv
    obtain ⟨i, hidx, hv⟩ := Option.bind_eq_some_iff.mp hv
    obtain ⟨t, ht⟩ := computes_genExpr pending hb.1 hbase
    have hbelow : Below (genExpr base n).next idx := below_mono ht.next hb.2
    obtain ⟨u, hu⟩ := computes_genExpr pending hbelow (eval_unchanged ht.rest hb.2 hidx)
    have hu' : Computes pending n s
        ⟨(genExpr base n).code ++ (genExpr idx (genExpr base n).next).code,
        (genExpr idx (genExpr base n).next).value, (genExpr idx (genExpr base n).next).next⟩ i u :=
      ⟨fun rest => by rw [List.append_assoc, ht.run, hu.run], hu.value, hu.below,
        ht.next.trans hu.next, ht.rest.trans (hu.rest.mono ht.next)⟩
    refine ⟨_, hu'.last fun rest => ?_⟩
    have hbase' : u.regs (genExpr base n).value = b := by
      rw [hu.rest.regs _ ht.below, ht.value]
    have helement : elementOf u (u.regs (genExpr base n).value)
        (u.regs (genExpr idx (genExpr base n).next).value) = some v := by
      rw [hbase', hu.value, elementOf_unchanged hu'.rest hv]
    rw [runCode, exec_indexGet_of helement]
    rfl
  | .op f args, n, s, v, hb, hv => by
    obtain ⟨vs, hvs, hv⟩ := Option.bind_eq_some_iff.mp hv
    have hb : AllBelow n args := hb
    obtain ⟨t, hrun, hvalues, hnext, hrest⟩ := computes_genAll pending hb hvs
    refine ⟨t.setReg (genAll args n).2.2 v, fun rest => ?_, Function.update_self _ _ _,
      Nat.lt_succ_self _, hnext.trans (Nat.le_succ _), hrest.trans (unchanged_setReg t hnext v)⟩
    show runCode pending s (((genAll args n).1 ++ [_]) ++ rest) = _
    rw [List.append_assoc, hrun]
    show (f ((genAll args n).2.1.map t.regs)).bind _ = _
    rw [hvalues, hv]
    rfl

theorem computes_genAll (pending : List (Reg × Val)) :
    ∀ {es : List Expr} {n : Reg} {s : State} {vs : List Val},
    AllBelow n es → evalAll s es = some vs → ∃ t,
      (∀ rest, runCode pending s ((genAll es n).1 ++ rest) = runCode pending t rest) ∧
      (genAll es n).2.1.map t.regs = vs ∧ n ≤ (genAll es n).2.2 ∧ Unchanged n s t
  | [], n, s, vs, _, hvs => by
    cases hvs
    exact ⟨s, fun _ => rfl, rfl, le_rfl, fun _ _ => rfl, rfl, rfl, .refl _⟩
  | e :: es, n, s, vs, hb, hvs => by
    obtain ⟨v, hv, hvs⟩ := Option.bind_eq_some_iff.mp hvs
    obtain ⟨vs', hvs', rfl⟩ := Option.map_eq_some_iff.mp hvs
    obtain ⟨t, ht⟩ := computes_genExpr pending hb.1 hv
    obtain ⟨u, hrun, hvalues, hnext, hrest⟩ := computes_genAll pending (allBelow_mono ht.next hb.2)
      (evalAll_unchanged ht.rest hb.2 hvs')
    refine ⟨u, fun rest => ?_, ?_, ht.next.trans hnext, ht.rest.trans (hrest.mono ht.next)⟩
    · show runCode pending s (((genExpr e n).code ++ (genAll es (genExpr e n).next).1) ++ rest) = _
      rw [List.append_assoc, ht.run, hrun]
    · show u.regs (genExpr e n).value :: _ = _
      rw [hrest.regs _ ht.below, ht.value, hvalues]

end

/-! ### What the others do -/

/-- An instruction that does not notify leaves the statics and what is in the heap. -/
theorem quiet_exec {i : Inst} (h : exec s i = some t) (hquiet : notifiesInst s i = false) :
    t.statics = s.statics ∧ Extends s.heap t.heap := by
  cases i with
  | loadConst | mov | netRead | staticGet =>
    cases h
    exact ⟨rfl, .refl _⟩
  | assign dst src =>
    obtain ⟨⟨h', v⟩, hcopy, rfl⟩ := Option.map_eq_some_iff.mp h
    exact ⟨rfl, extends_assignmentCopy hcopy⟩
  | memoryRead | blockingWrite | indexGet =>
    obtain ⟨v, -, rfl⟩ := Option.map_eq_some_iff.mp h
    exact ⟨rfl, .refl _⟩
  | blockingMemoryWrite m index src =>
    obtain ⟨idx, -, h⟩ := Option.bind_eq_some_iff.mp h
    split at h
    · obtain ⟨v, -, rfl⟩ := Option.map_eq_some_iff.mp h
      exact ⟨rfl, .refl _⟩
    · cases h
      exact ⟨rfl, .refl _⟩
  | getField dst obj slot =>
    simp only [exec] at h
    split at h
    · obtain ⟨v, -, rfl⟩ := Option.map_eq_some_iff.mp h
      exact ⟨rfl, .refl _⟩
    · cases h
      exact ⟨rfl, .refl _⟩
  | setField obj slot src =>
    obtain ⟨⟨h', v⟩, hcopy, h⟩ := Option.bind_eq_some_iff.mp h
    simp only [notifiesInst] at hquiet
    cases hobj : s.regs obj with
    | obj id => simp [hobj] at hquiet
    | null | logic | str | queue | assoc | event =>
      simp only [hobj] at h
      cases h
      exact ⟨rfl, extends_assignmentCopy hcopy⟩
  | staticSet id src => cases hquiet
  | indexSet base idx src =>
    obtain ⟨⟨h', v⟩, hcopy, h⟩ := Option.bind_eq_some_iff.mp h
    have hcopied : s.statics = s.statics ∧ Extends s.heap h' :=
      ⟨rfl, extends_assignmentCopy hcopy⟩
    simp only [notifiesInst] at hquiet
    have hregs : (s.setHeap h').regs = s.regs := rfl
    simp only [indexSet, hregs] at h
    cases hbase : s.regs base with
    | queue id => simp [hbase] at hquiet
    | assoc id => simp [hbase] at hquiet
    | logic old =>
      simp only [hbase] at h hquiet
      cases hidx : s.regs idx with
      | logic index =>
        simp only [hidx] at h hquiet
        split at h
        · rename_i hin
          simp [hin.1, hin.2] at hquiet
        · cases h
          exact hcopied
      | null | str | obj | queue | assoc | event =>
        simp only [hidx] at h
        cases h
        exact hcopied
    | null | str | obj | event =>
      simp only [hbase] at h
      cases h
      exact hcopied

theorem heap_moveTo {arg : Reg} {o : Option Val} {r : Val} (h : moveTo s arg o = (t, r)) :
    t.heap = s.heap := by
  cases o <;>
  · cases h
    rfl

/-- A method that only asks leaves the heap. -/
theorem quiet_evalCollMethod {addr : Nat → Nat} {base r : Val} {op : CollOp} {args : List Reg}
    (h : evalCollMethod addr s base op args = some (t, r)) (hquiet : mutates op = false) :
    t.heap = s.heap := by
  cases base with
  | queue id =>
    obtain ⟨q, -, h⟩ := Option.bind_eq_some_iff.mp h
    cases op with
    | pushBack | pushFront | popBack | popFront | insert | delete => cases hquiet
    | size | num | «exists» =>
      cases h
      rfl
    | first | last =>
      cases args with
      | nil =>
        cases h
        rfl
      | cons arg args =>
        exact heap_moveTo (Option.some.inj h)
    | next | prev =>
      cases args with
      | nil =>
        cases h
        rfl
      | cons arg args =>
        obtain ⟨i, -, h⟩ := Option.map_eq_some_iff.mp h
        exact heap_moveTo h
  | assoc id =>
    obtain ⟨entries, -, h⟩ := Option.map_eq_some_iff.mp h
    cases op with
    | pushBack | pushFront | popBack | popFront | insert | delete => cases hquiet
    | size | num =>
      cases h
      rfl
    | «exists» =>
      cases args <;>
      · cases h
        rfl
    | first | last | next | prev =>
      cases args with
      | nil =>
        cases h
        rfl
      | cons arg args => exact heap_moveTo h
  | null | logic | str | obj | event =>
    cases h
    rfl

end

/-! ### The lists of waiting processes -/

section

theorem waiters_kernelAfter (k : Kernel) (s : State) (i : Inst) :
    (kernelAfter k s i).runtimeWaiters =
        (if (match written s i with
          | some (n, v) => (detectEdge (k.netValue n) v).changed
          | none => notifiesInst s i) then [] else k.runtimeWaiters) ∧
      (kernelAfter k s i).nbaWaiters = k.nbaWaiters := by
  unfold kernelAfter
  cases written s i with
  | some u => exact waiters_writeNet k u.1 u.2
  | none =>
    dsimp only
    cases notifiesInst s i <;> exact ⟨rfl, rfl⟩

variable {addr : Nat → Nat} {pid : ProcId} {w w' : World} {act : Act}

/-- A step that notifies empties the list of those that wait for a runtime change, and the end of
the NBA region the other list. -/
theorem waiters_step (h : step addr pid act w = some w') :
    (pid ∈ w'.kernel.runtimeWaiters ↔ pid ∈ w.kernel.runtimeWaiters ∧ notifies w act = false) ∧
      (pid ∈ w'.kernel.nbaWaiters ↔ pid ∈ w.kernel.nbaWaiters ∧ act ≠ .wakeNba) := by
  cases act with
  | exec regs i =>
    obtain ⟨s, -, rfl⟩ := Option.map_eq_some_iff.mp h
    obtain ⟨hr, hn⟩ := waiters_kernelAfter w.kernel (w.seenBy regs) i
    dsimp only
    rw [hr, hn]
    refine ⟨?_, by simp⟩
    show _ ↔ _ ∧ (match written (w.seenBy regs) i with
      | some (n, v) => (detectEdge (w.kernel.netValue n) v).changed
      | none => notifiesInst (w.seenBy regs) i) = false
    split_ifs with hc <;> simp [hc]
  | collMethod regs base op args =>
    obtain ⟨⟨s, r⟩, -, rfl⟩ := Option.map_eq_some_iff.mp h
    cases hop : mutates op <;> simp [notifies, hop, Kernel.notifyRuntimeChange]
  | writeNet n v =>
    cases h
    obtain ⟨hr, hn⟩ := waiters_writeNet w.kernel n v
    dsimp only
    rw [hr, hn]
    refine ⟨?_, by simp⟩
    show _ ↔ _ ∧ (detectEdge (w.kernel.netValue n) v).changed = false
    split_ifs with hc <;> simp [hc]
  | newObject | newQueue | newAssoc =>
    cases h
    simp [notifies]
  | applyPending =>
    cases h
    simp [notifies, Kernel.notifyRuntimeChange]
  | arm p wait =>
    simp only [step] at h
    split at h
    · cases h
    · rename_i hne
      cases h
      obtain ⟨hr, hn⟩ := @waiters_arm w.kernel p pid hne wait
      simp [notifies, hr, hn]
  | wakeNba =>
    simp only [step] at h
    split at h <;>
    · cases h
      simp [notifies, Kernel.wakeNbaWaiters]

/-- The kernel after a step: a net is written, another process waits, or nothing happens to the
registrations on nets. -/
inductive NetStep (pid : ProcId) (written : Option (NetId × PackedVec)) (k : Kernel) : Kernel → Prop
  | write {n : NetId} {v : PackedVec} (h : written = some (n, v)) :
      NetStep pid written k (k.writeNet n v)
  | arm (q : ProcId) (wait : Wait) (hne : pid ≠ q) (h : written = none) :
    NetStep pid written k (k.arm q wait)
  | other {k' : Kernel} (hwaits : k'.netWaits = k.netWaits) (hepochs : k'.waitEpochs = k.waitEpochs)
    (hnets : k'.nets = k.nets) (h : written = none) : NetStep pid written k k'

theorem netStep_step (h : step addr pid act w = some w') :
    NetStep pid (writes w act) w.kernel w'.kernel := by
  cases act with
  | exec regs i =>
    obtain ⟨s, -, rfl⟩ := Option.map_eq_some_iff.mp h
    show NetStep pid (written (w.seenBy regs) i) w.kernel (kernelAfter w.kernel (w.seenBy regs) i)
    unfold kernelAfter
    cases hwritten : written (w.seenBy regs) i with
    | some u => exact .write rfl
    | none =>
      dsimp only
      split_ifs <;> exact .other rfl rfl rfl rfl
  | collMethod regs base op args =>
    obtain ⟨⟨s, r⟩, -, rfl⟩ := Option.map_eq_some_iff.mp h
    dsimp only
    split_ifs <;> exact .other rfl rfl rfl rfl
  | newObject | newQueue | newAssoc | applyPending =>
    cases h
    exact .other rfl rfl rfl rfl
  | writeNet n v =>
    cases h
    exact .write rfl
  | arm p wait =>
    simp only [step] at h
    split at h
    · cases h
    · rename_i hne
      cases h
      exact .arm p wait (Ne.symm hne) rfl
  | wakeNba =>
    simp only [step] at h
    split at h <;>
    · cases h
      exact .other rfl rfl rfl rfl

namespace NetStep

variable {u : Option (NetId × PackedVec)} {k k' : Kernel} {n : NetId} {edge : EdgeKind}

theorem live_of_eq {p : ProcId} (hepochs : k'.waitEpochs = k.waitEpochs) (hnets : k'.nets = k.nets)
    {m : NetId} : EdgeWakeups.Live k' m p edge ↔ EdgeWakeups.Live k m p edge := by
  have hnet : k'.net m = k.net m := by
    unfold Kernel.net
    rw [hnets]
  unfold EdgeWakeups.Live
  rw [hnet, hepochs]

theorem registered (h : NetStep pid u k k') (hr : Wakeup.Registered k) : Wakeup.Registered k' := by
  cases h with
  | write _ => exact (Wakeup.keeps_writeNet k _ _ hr).1
  | arm q wait => exact registered_arm hr q wait
  | other hwaits hepochs hnets =>
    intro n w hw
    have hnet : k'.net n = k.net n := by
      unfold Kernel.net
      rw [hnets]
    rw [hwaits, hepochs]
    exact hr n w (hnet ▸ hw)

/-- Nobody else registers the process. -/
theorem unwaited (h : NetStep pid u k k') (hnone : k.netWaits pid = none) :
    k'.netWaits pid = none := by
  cases h with
  | write _ => exact netWaits_writeNet_of_none hnone _ _
  | arm q wait hne => rw [netWaits_arm hne, hnone]
  | other hwaits => rw [hwaits, hnone]

/-- The write of the net that makes the edge ends the wait. -/
theorem woken (h : NetStep pid u k k') (hr : Wakeup.Registered k) (hw : WaitsFor k pid n edge)
    {v : PackedVec} (hu : u = some (n, v)) (hmatches : EdgeWakeups.Matches (k.netValue n) v edge) :
    k'.netWaits pid = none := by
  cases h with
  | write hwrite =>
    cases hwrite.symm.trans hu
    exact hw.woken hr hmatches
  | arm _ _ _ hnone => cases hnone.symm.trans hu
  | other _ _ _ hnone => cases hnone.symm.trans hu

/-- Nothing else does. -/
theorem waitsFor (h : NetStep pid u k k') (hr : Wakeup.Registered k) (hw : WaitsFor k pid n edge)
    (hno : ¬ ∃ v, u = some (n, v) ∧ EdgeWakeups.Matches (k.netValue n) v edge) :
    WaitsFor k' pid n edge := by
  cases h with
  | @write m v hwrite =>
    refine hw.writeNet hr fun hboth => hno ⟨v, ?_, hboth.2⟩
    rw [hwrite, hboth.1]
  | arm q wait hne => exact hw.arm hne wait
  | other hwaits hepochs hnets =>
    exact ⟨hwaits ▸ hw.waits, fun m kind => (live_of_eq hepochs hnets).trans (hw.live m kind)⟩

end NetStep

/-- Only the end of the NBA region writes the variables of the process. -/
theorem regs_step (h : step addr pid act w = some w') (hne : act ≠ .wakeNba) :
    w'.regs = w.regs := by
  cases act with
  | exec | collMethod =>
    obtain ⟨s, -, rfl⟩ := Option.map_eq_some_iff.mp h
    rfl
  | newObject | newQueue | newAssoc | applyPending | writeNet =>
    cases h
    rfl
  | arm p wait =>
    simp only [step] at h
    split at h <;> cases h
    rfl
  | wakeNba => exact absurd rfl hne

theorem valueIn_reg {r : Reg} (h : step addr pid act w = some w') (hne : act ≠ .wakeNba) :
    valueIn w' (.reg r) = valueIn w (.reg r) := by
  show some (w'.regs r) = some (w.regs r)
  rw [regs_step h hne]

/-- A step that does not notify changes nothing that the process can see. -/
theorem quiet_step (n : Reg) (h : step addr pid act w = some w') (hquiet : notifies w act = false)
    (hregs : pid ∉ w.kernel.nbaWaiters ∨ act ≠ .wakeNba) : Unchanged n w.own w'.own := by
  cases act with
  | exec regs i =>
    obtain ⟨s, hs, rfl⟩ := Option.map_eq_some_iff.mp h
    simp only [notifies] at hquiet
    cases hwritten : written (w.seenBy regs) i with
    | some u =>
      simp only [hwritten] at hquiet
      have hinst : notifiesInst (w.seenBy regs) i = false := by
        cases i <;> first | rfl | cases hwritten
      obtain ⟨hstatics, hheap⟩ := quiet_exec hs hinst
      refine ⟨fun _ _ => rfl, hstatics, ?_, grown_of_extends hheap⟩
      show (kernelAfter w.kernel (w.seenBy regs) i).netValue = _
      unfold kernelAfter
      rw [hwritten]
      exact netValue_writeNet_same hquiet
    | none =>
      simp only [hwritten] at hquiet
      obtain ⟨hstatics, hheap⟩ := quiet_exec hs hquiet
      refine ⟨fun _ _ => rfl, hstatics, ?_, grown_of_extends hheap⟩
      show (kernelAfter w.kernel (w.seenBy regs) i).netValue = _
      unfold kernelAfter
      rw [hwritten, hquiet]
      rfl
  | collMethod regs base op args =>
    obtain ⟨⟨s, r⟩, hs, rfl⟩ := Option.map_eq_some_iff.mp h
    have hheap := quiet_evalCollMethod hs hquiet
    refine ⟨fun _ _ => rfl, rfl, ?_, ?_⟩
    · have hop : mutates op = false := hquiet
      simp [World.own, World.seenBy, hop]
    · show Grown w.heap s.heap
      rw [hheap]
      exact .refl _
  | newObject data =>
    cases h
    exact ⟨fun _ _ => rfl, rfl, rfl, List.prefix_append _ _, List.prefix_refl _, List.prefix_refl _⟩
  | newQueue =>
    cases h
    exact ⟨fun _ _ => rfl, rfl, rfl, List.prefix_refl _, List.prefix_append _ _, List.prefix_refl _⟩
  | newAssoc =>
    cases h
    exact ⟨fun _ _ => rfl, rfl, rfl, List.prefix_refl _, List.prefix_refl _, List.prefix_append _ _⟩
  | applyPending => cases hquiet
  | arm p wait =>
    simp only [step] at h
    split at h
    · cases h
    · cases h
      exact ⟨fun _ _ => rfl, rfl, netValue_arm _ _ _, .refl _⟩
  | writeNet n' v =>
    cases h
    exact ⟨fun _ _ => rfl, rfl, netValue_writeNet_same hquiet, .refl _⟩
  | wakeNba =>
    rw [step, if_neg (hregs.resolve_right fun hne => hne rfl)] at h
    cases h
    exact ⟨fun _ _ => rfl, rfl, rfl, .refl _⟩

end

/-! ### The wait -/

section

variable {addr : Nat → Nat} {nets : String → Option NetId} {pid : ProcId} {ev : EventExpr}
  {next : Reg} {w w₀ w' : World} {act : Act} {v : Val}

/-- A process comes to an event control: it runs, so it waits nowhere, the updates of its variables
are for registers of variables, and the expression has a value and is no net. A net may have the
same name as what it is. -/
structure Arrives (nets : String → Option NetId) (pid : ProcId) (ev : EventExpr) (next : Reg)
    (w : World) (v : Val) : Prop where
  runtime : pid ∉ w.kernel.runtimeWaiters
  nba : pid ∉ w.kernel.nbaWaiters
  unwaited : w.kernel.netWaits pid = none
  registered : Wakeup.Registered w.kernel
  pending : ∀ u ∈ w.pending, u.1 < next
  below : Below next ev.expr
  value : valueIn w ev.expr = some v
  notNet : ∀ n, ev.expr ≠ .net n
  known : ∀ n, ev.net nets = some n → n < w.kernel.nets.length

/-- How the process waits. -/
def waitOf (nets : String → Option NetId) (w : World) (ev : EventExpr) (next : Reg) : Wait :=
  match ev.net nets with
  | some n => .edge n ev.edge
  | none => waitChange w.pending (genExpr ev.expr next).value

/-- Only a variable can have an update to come. -/
theorem reg_of_nba (ha : Arrives nets pid ev next w v) (hnba : waitOf nets w ev next = .nba) :
    ∃ r, ev.expr = .reg r := by
  by_contra hno
  have hle : next ≤ (genExpr ev.expr next).value :=
    le_value (fun r hr => hno ⟨r, hr⟩) next
  unfold waitOf waitChange at hnba
  split at hnba
  · cases hnba
  · split at hnba
    · rename_i hany
      obtain ⟨u, hu, heq⟩ := List.any_eq_true.mp hany
      have hlt := ha.pending u hu
      rw [beq_iff_eq] at heq
      exact absurd (heq ▸ hlt) (Nat.not_lt.mpr hle)
    · cases hnba

theorem waitChange_cases (pending : List (Reg × Val)) (r : Reg) :
    waitChange pending r = .nba ∨ waitChange pending r = .runtimeCond := by
  unfold waitChange
  split
  · exact .inl rfl
  · exact .inr rfl

theorem waitOf_cases (nets : String → Option NetId) (w : World) (ev : EventExpr) (next : Reg) :
    (∃ n, ev.net nets = some n ∧ waitOf nets w ev next = .edge n ev.edge) ∨
      (ev.net nets = none ∧
        (waitOf nets w ev next = .nba ∨ waitOf nets w ev next = .runtimeCond)) := by
  unfold waitOf
  cases h : ev.net nets with
  | some n => exact .inl ⟨n, rfl, rfl⟩
  | none => exact .inr ⟨rfl, waitChange_cases _ _⟩

/-- The event control computes the value, forgets it and waits; for a net it computes nothing. -/
theorem enter_eq (ha : Arrives nets pid ev next w v) :
    ∃ regs, (∀ r < next, regs r = w.regs r) ∧ enter nets pid ev next w =
      some { w with regs, kernel := w.kernel.arm pid (waitOf nets w ev next) } := by
  unfold enter genTiming waitOf
  cases h : ev.net nets with
  | some n => exact ⟨w.regs, fun _ _ => rfl, rfl⟩
  | none =>
    obtain ⟨s, hs⟩ := computes_genExpr w.pending ha.below ha.value
    refine ⟨s.regs, hs.rest.regs, ?_⟩
    dsimp only
    rw [hs.run]
    rfl

/-- A waiting process, which nothing but its own kind of change can resume. The expression still has
a value, unless a net is waited for instead. -/
structure Parked (pid : ProcId) (e : Expr) (next : Reg) (wait : Wait) (w : World) : Prop where
  registered : Wakeup.Registered w.kernel
  only : match wait with
    | .nba => pid ∉ w.kernel.runtimeWaiters ∧ w.kernel.netWaits pid = none ∧
      Below next e ∧ (∃ v, valueIn w e = some v) ∧ ∃ r, e = .reg r
    | .edge n edge => pid ∉ w.kernel.runtimeWaiters ∧ pid ∉ w.kernel.nbaWaiters ∧
      WaitsFor w.kernel pid n edge
    | .runtimeCond => pid ∉ w.kernel.nbaWaiters ∧ w.kernel.netWaits pid = none ∧
      Below next e ∧ ∃ v, valueIn w e = some v
    | _ => False

theorem waiters_arm_self (k : Kernel) (pid : ProcId) :
    (k.arm pid .runtimeCond).runtimeWaiters = k.runtimeWaiters ++ [pid] ∧
      (k.arm pid .runtimeCond).nbaWaiters = k.nbaWaiters ∧
      (k.arm pid .nba).nbaWaiters = k.nbaWaiters ++ [pid] ∧
      (k.arm pid .nba).runtimeWaiters = k.runtimeWaiters := by
  obtain ⟨hr, hn⟩ := waiters_clearNetWaiters k pid
  simp [Kernel.arm, Kernel.bumpEpoch, hr, hn]

theorem parked_enter (ha : Arrives nets pid ev next w v) (h : enter nets pid ev next w = some w₀) :
    Parked pid ev.expr next (waitOf nets w ev next) w₀ ∧ Waiting pid w₀ := by
  obtain ⟨regs, hregs, henter⟩ := @enter_eq nets pid ev next w v ha
  cases henter.symm.trans h
  have hregistered := registered_arm ha.registered pid (waitOf nets w ev next)
  have hunchanged : Unchanged next w.own
      ({ w with regs, kernel := w.kernel.arm pid (waitOf nets w ev next) } : World).own :=
    ⟨hregs, rfl, netValue_arm _ _ _, .refl _⟩
  have hvalue := eval_unchanged hunchanged ha.below ha.value
  obtain ⟨hr, hn, hn', hr'⟩ := waiters_arm_self w.kernel pid
  rcases waitOf_cases nets w ev next with ⟨n, hnet, hwait⟩ | ⟨-, hwait | hwait⟩
  · have hwaits := waitsFor_arm ha.registered pid ev.edge (ha.known n hnet)
    have hlists := waiters_registerNets ((w.kernel.clearNetWaiters pid).bumpEpoch pid) pid
      [(n, ev.edge)]
    obtain ⟨hclearRuntime, hclearNba⟩ := waiters_clearNetWaiters w.kernel pid
    refine ⟨⟨hregistered, ?_⟩, .inr (.inr ?_)⟩
    · rw [hwait]
      refine ⟨?_, ?_, hwaits⟩
      · show pid ∉ (Kernel.registerNets _ pid [(n, ev.edge)]).runtimeWaiters
        rw [hlists.1]
        show pid ∉ (w.kernel.clearNetWaiters pid).runtimeWaiters
        rw [hclearRuntime]
        exact ha.runtime
      · show pid ∉ (Kernel.registerNets _ pid [(n, ev.edge)]).nbaWaiters
        rw [hlists.2]
        show pid ∉ (w.kernel.clearNetWaiters pid).nbaWaiters
        rw [hclearNba]
        exact ha.nba
    · rw [hwait]
      exact hwaits.waits
  · obtain hreg := reg_of_nba ha hwait
    refine ⟨⟨hregistered, ?_⟩, .inr (.inl ?_)⟩
    · rw [hwait] at hvalue ⊢
      refine ⟨?_, netWaits_clear_self w.kernel pid, ha.below, ⟨v, hvalue⟩, hreg⟩
      rw [hr']
      exact ha.runtime
    · simp [hwait, hn']
  · refine ⟨⟨hregistered, ?_⟩, .inl ?_⟩
    · rw [hwait] at hvalue ⊢
      refine ⟨?_, netWaits_clear_self w.kernel pid, ha.below, v, hvalue⟩
      rw [hn]
      exact ha.nba
    · simp [hwait, hr]

theorem not_made_self (edge : EdgeKind) (o : Option Val) : ¬ Made edge o o := by
  cases edge with
  | anyChange => exact fun hne => hne rfl
  | posedge | negedge =>
    rintro ⟨a, b, ha, hb, hmatches⟩
    cases ha.symm.trans hb
    simp only [EdgeWakeups.Matches] at hmatches
    rcases hmatches with ⟨h, h'⟩ | ⟨h, h'⟩
    all_goals contradiction

theorem waiting_step (h : step addr pid act w = some w') (hwaits : Waiting pid w') :
    Waiting pid w := by
  obtain ⟨hr, hn⟩ := waiters_step h
  rcases hwaits with hwaits | hwaits | hwaits
  · exact .inl (hr.mp hwaits).1
  · exact .inr (.inl (hn.mp hwaits).1)
  · refine .inr (.inr ?_)
    by_contra hno
    have hnone : w.kernel.netWaits pid = none := Option.not_isSome_iff_eq_none.mp hno
    rw [(netStep_step h).unwaited hnone] at hwaits
    cases hwaits

/-- While the process waits it only leaves a list or its net. -/
theorem sleeps (addr : Nat → Nat) (pid : ProcId) (e : Expr) (next : Reg) (wait : Wait) :
    Sleeps (step addr pid) (Waiting pid) (rouses wait) (Parked pid e next wait) where
  awake hawake h hwaits := hawake (waiting_step h hwaits)
  roused {w act w'} hparked hwaits h hrouses := by
    obtain ⟨hr, hn⟩ := waiters_step h
    have hnet := netStep_step h
    have honly := hparked.only
    cases wait with
    | nba =>
      obtain ⟨hruntime, hnone, -⟩ := honly
      rintro (hwaits' | hwaits' | hwaits')
      · exact hruntime (hr.mp hwaits').1
      · exact (hn.mp hwaits').2 hrouses
      · rw [hnet.unwaited hnone] at hwaits'
        cases hwaits'
    | edge n edge =>
      obtain ⟨hruntime, hnba, hwaitsFor⟩ := honly
      obtain ⟨v, hwrites, hmatches⟩ := hrouses
      rintro (hwaits' | hwaits' | hwaits')
      · exact hruntime (hr.mp hwaits').1
      · exact hnba (hn.mp hwaits').1
      · rw [hnet.woken hparked.registered hwaitsFor hwrites hmatches] at hwaits'
        cases hwaits'
    | runtimeCond =>
      obtain ⟨hnba, hnone, -⟩ := honly
      rintro (hwaits' | hwaits' | hwaits')
      · exact Bool.false_ne_true ((hr.mp hwaits').2.symm.trans hrouses)
      · exact hnba (hn.mp hwaits').1
      · rw [hnet.unwaited hnone] at hwaits'
        cases hwaits'
    | finished | delay | sensitivity | cond | namedEvent | fork => exact honly.elim
  quiet {w act w'} hparked hwaits h hno := by
    obtain ⟨hr, hn⟩ := waiters_step h
    have hnet := netStep_step h
    have hregistered := hnet.registered hparked.registered
    have honly := hparked.only
    cases wait with
    | nba =>
      -- nobody else writes the variable
      obtain ⟨hruntime, hnone, hbelow, ⟨v, hv⟩, r, rfl⟩ := honly
      have hwaits := hwaits.resolve_left hruntime
      have hin : pid ∈ w.kernel.nbaWaiters := hwaits.resolve_right fun hsome => by
        rw [hnone] at hsome
        cases hsome
      have hsame : valueIn w' (.reg r) = valueIn w (.reg r) := valueIn_reg h hno
      exact ⟨.inr (.inl (hn.mpr ⟨hin, hno⟩)), hregistered, fun hin => hruntime (hr.mp hin).1,
        hnet.unwaited hnone, hbelow, ⟨v, hsame.trans hv⟩, r, rfl⟩
    | edge n edge =>
      obtain ⟨hruntime, hnba, hwaitsFor⟩ := honly
      have hwaits' := hnet.waitsFor hparked.registered hwaitsFor hno
      exact ⟨.inr (.inr hwaits'.waits), hregistered, fun hin => hruntime (hr.mp hin).1,
        fun hin => hnba (hn.mp hin).1, hwaits'⟩
    | runtimeCond =>
      obtain ⟨hnba, hnone, hbelow, v, hv⟩ := honly
      have hquiet : notifies w act = false := Bool.not_eq_true _ ▸ hno
      have hin : pid ∈ w.kernel.runtimeWaiters := by
        rcases hwaits with hin | hin | hsome
        · exact hin
        · exact absurd hin hnba
        · rw [hnone] at hsome
          cases hsome
      have hv' := eval_unchanged (quiet_step next h hquiet (.inl hnba)) hbelow hv
      exact ⟨.inl (hr.mpr ⟨hin, hquiet⟩), hregistered, fun hin => hnba (hn.mp hin).1,
        hnet.unwaited hnone, hbelow, v, hv'⟩
    | finished | delay | sensitivity | cond | namedEvent | fork => exact honly.elim

/-- Where no net hides behind the name, what does not rouse the process keeps the value. -/
theorem quiet_value {wait : Wait} (hwait : wait = .nba ∨ wait = .runtimeCond) {e : Expr}
    (hparked : Parked pid e next wait w) (h : step addr pid act w = some w')
    (hno : ¬ rouses wait w act) : valueIn w' e = valueIn w e := by
  have honly := hparked.only
  rcases hwait with rfl | rfl
  · obtain ⟨-, -, -, -, r, rfl⟩ := honly
    exact valueIn_reg h hno
  · obtain ⟨hnba, -, hbelow, v, hv⟩ := honly
    have hquiet : notifies w act = false := Bool.not_eq_true _ ▸ hno
    rw [hv]
    exact eval_unchanged (quiet_step next h hquiet (.inl hnba)) hbelow hv

end

/-! ### A static and a net beside it -/

/-- One net at zero, and a static that nobody has written. -/
def stillWorld : World where
  kernel := Kernel.new.newNetWithResolutionAndDelay (.zero 1) .wire none
  statics _ := .null
  heap := ⟨[], [], []⟩
  regs _ := .null
  pending := []

def moduleNets (name : String) : Option NetId := if name = "data" then some 0 else none

/-- `@(cfg)`. -/
def staticEvent : EventExpr := ⟨.anyChange, some "cfg", .static 0⟩

/-- The process waits for the static. -/
def parkedWorld : World :=
  { stillWorld with
    regs := Function.update stillWorld.regs 0 .null
    kernel := stillWorld.kernel.arm 0 .runtimeCond }

theorem arrives_still : Arrives moduleNets 0 staticEvent 0 stillWorld .null where
  runtime := by decide
  nba := by decide
  unwaited := rfl
  registered n w hw := by
    have hnone : (stillWorld.kernel.net n).waiters = [] := by cases n <;> rfl
    rw [hnone] at hw
    cases hw
  pending u hu := by cases hu
  below := trivial
  value := rfl
  notNet n h := by cases h
  known n h := by cases h

theorem enter_still : enter moduleNets 0 staticEvent 0 stillWorld = some parkedWorld := rfl

/-- Another process writes the static. -/
def writeStatic : Act := .exec (fun _ => .logic (.ones 1)) (.staticSet 0 0)

/-- `@(data)` for a local variable that has the name of the net waits for the net. -/
example : (enter moduleNets 0 ⟨.anyChange, some "data", .reg 0⟩ 1 stillWorld).map
    (·.kernel.netWaits 0) = some (some [0]) := by
  decide +kernel

end Eevee.Elab.EventControl
