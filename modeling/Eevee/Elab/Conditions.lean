/- Expressions that only read, and the code that computes them. -/

import Mathlib.Data.List.Basic
import Mathlib.Tactic.Common
import Mathlib.Tactic.SplitIfs
import Eevee.Elab.EventControl

set_option autoImplicit false
set_option relaxedAutoImplicit false

namespace Eevee.Elab.Conditions

open Eevee.Core.Logic
open Eevee.Ir.Collections
open Eevee.Ir.Objects
open Eevee.Ir.Values (MemoryDef memoryElement)
open Eevee.Elab.EventControl (Grown Unchanged elementOf elementOf_unchanged exec_getField_of
  exec_indexGet_of exec_memoryRead fieldOf fieldOf_grown getElem?_of_grown memoryOf
  memoryOf_unchanged unchanged_setReg)

/-! ### Expressions -/

/-- The methods that neither change the collection nor move a variable. -/
def asks : CollOp → Bool
  | .size | .num | .exists => true
  | .pushBack | .pushFront | .popBack | .popFront | .insert | .delete | .first | .last | .next
  | .prev => false

/-- What an expression does with the values of its operands: it reads what all processes share, or
computes. -/
inductive Read
  | const (value : Val)
  | net (n : NetId)
  | static (id : Nat)
  | memory (m : MemoryDef)
  | field (slot : Nat)
  | index
  | method (op : CollOp) (h : asks op = true)
  | op (f : List Val → Option Val)

/-- An expression without side effects. -/
inductive Expr
  | reg (r : Reg)
  | read (f : Read) (args : List Expr)
  | conditional (condition whenTrue whenFalse : Expr)

/-- The answer of a method to the values of its arguments. -/
def answer (h : Heap) (base : Val) (op : CollOp) (args : List Val) : Option Val :=
  match base with
  | .queue id => h.queues[id]?.map fun q =>
    match op with
    | .size | .num => intVal q.length
    | _ => .null
  | .assoc id => h.assocs[id]?.map fun entries =>
    match op, args with
    | .size, _ | .num, _ => intVal entries.length
    | .exists, key :: _ => intVal (if (lookupEntry entries (valueToKey key)).isSome then 1 else 0)
    | .exists, [] => intVal 0
    | _, _ => .null
  | _ => some .null

/-- The result for the values of the operands; none where the interpreter panics. -/
def Read.value (s : State) : Read → List Val → Option Val
  | .const value, _ => some value
  | .net n, _ => some (.logic (s.nets n))
  | .static id, _ => some (s.statics id)
  | .memory m, idx :: _ => memoryOf s m idx
  | .field slot, obj :: _ => fieldOf s.heap slot obj
  | .index, base :: idx :: _ => elementOf s base idx
  | .method m _, base :: args => answer s.heap base m args
  | .op f, args => f args
  | .memory _, [] | .field _, [] | .index, [] | .index, [_] | .method _ _, [] => none

/-- `IsKnown`: only vectors have unknown bits. -/
def isKnown : Val → Bool
  | .logic value => value.isKnown
  | _ => true

/-- `Select`, for an unknown condition: vectors are merged, other values have to be the same. -/
def selectOf (condition whenTrue whenFalse : Val) : Option Val :=
  condition.asLogic.map fun condition =>
    match whenTrue, whenFalse with
    | .logic a, .logic b => .logic (condition.conditional a b)
    | a, b => if a = b then a else .null

mutual

/-- The value of an expression in a state. -/
def eval (s : State) : Expr → Option Val
  | .reg r => some (s.regs r)
  | .read f args => (evalAll s args).bind (f.value s)
  | .conditional condition whenTrue whenFalse =>
    (eval s condition).bind fun c =>
      if truthy c then eval s whenTrue
      else if isKnown c then eval s whenFalse
      else (eval s whenTrue).bind fun a => (eval s whenFalse).bind fun b => selectOf c a b

def evalAll (s : State) : List Expr → Option (List Val)
  | [] => some []
  | e :: es => (eval s e).bind fun v => (evalAll s es).map (v :: ·)

end

mutual

/-- The local variables of the expression have registers below `n`. -/
def Below (n : Reg) : Expr → Prop
  | .reg r => r < n
  | .read _ args => AllBelow n args
  | .conditional condition whenTrue whenFalse =>
    Below n condition ∧ Below n whenTrue ∧ Below n whenFalse

def AllBelow (n : Reg) : List Expr → Prop
  | [] => True
  | e :: es => Below n e ∧ AllBelow n es

end

/-! ### Code -/

/-- The instructions of a condition. The jumps go forward, over a number of instructions. -/
inductive Code
  | data (i : Inst)
  | collMethod (dst base : Reg) (op : CollOp) (args : List Reg)
  | apply (dst : Reg) (f : List Val → Option Val) (args : List Reg)
  | branchTrue (cond : Reg) (skip : Nat)
  | jump (skip : Nat)
  | waitRuntime

/-- Code for an expression, with the register of its value and the next free register. -/
structure Piece where
  code : List Code
  value : Reg
  next : Reg

/-- The instruction for a read. -/
def Read.code (dst : Reg) : Read → List Reg → Code
  | .const value, _ => .data (.loadConst dst value)
  | .net n, _ => .data (.netRead dst n)
  | .static id, _ => .data (.staticGet dst id)
  | .memory m, idx :: _ => .data (.memoryRead dst m idx)
  | .field slot, obj :: _ => .data (.getField dst obj slot)
  | .index, base :: idx :: _ => .data (.indexGet dst base idx)
  | .method m _, base :: args => .collMethod dst base m args
  | .op f, args => .apply dst f args
  | .memory _, [] | .field _, [] | .index, [] | .index, [_] | .method _ _, [] =>
    .apply dst (fun _ => none) []

def isKnownOf (args : List Val) : Option Val := some (intVal (if args.all isKnown then 1 else 0))

def selectAll : List Val → Option Val
  | [c, a, b] => selectOf c a b
  | _ => none

/-- `gen_generic_conditional` behind the condition, from the code for an unknown condition and for
each of its outcomes. -/
def branches (cond known : Reg) (both onTrue onFalse : List Code) : List Code :=
  .branchTrue cond (1 + both.length + 2) :: .apply known isKnownOf [cond] ::
    .branchTrue known (1 + onTrue.length + 1 + both.length) ::
    (both ++ .jump (onFalse.length + 1 + onTrue.length) ::
      (onTrue ++ .jump onFalse.length :: onFalse))

mutual

/-- `gen_expr`: a local variable is its own register, all other values get new ones. -/
def genExpr : Expr → Reg → Piece
  | .reg r, n => ⟨[], r, n⟩
  | .read f args, n =>
    let (code, values, next) := genAll args n
    ⟨code ++ [f.code next values], next, next + 1⟩
  | .conditional condition whenTrue whenFalse, n =>
    let c := genExpr condition n
    let both₁ := genExpr whenTrue (c.next + 2)
    let both₂ := genExpr whenFalse both₁.next
    let onTrue := genExpr whenTrue both₂.next
    let onFalse := genExpr whenFalse onTrue.next
    ⟨c.code ++ branches c.value (c.next + 1)
        (both₁.code ++ both₂.code ++ [.apply c.next selectAll [c.value, both₁.value, both₂.value]])
        (onTrue.code ++ [.data (.mov c.next onTrue.value)])
        (onFalse.code ++ [.data (.mov c.next onFalse.value)]),
      c.next, onFalse.next⟩

def genAll : List Expr → Reg → List Code × List Reg × Reg
  | [], n => ([], [], n)
  | e :: es, n =>
    let p := genExpr e n
    let (code, values, next) := genAll es p.next
    (p.code ++ code, p.value :: values, next)

end

/-- `wait(cond)` from its check on. A process that resumes behind `waitRuntime` jumps back to the
check, and what is ready runs on behind the code. -/
def genWait (cond : Expr) (next : Reg) : List Code :=
  let p := genExpr cond next
  p.code ++ [.branchTrue p.value 1, .waitRuntime]

/-- Runs code up to its end or to the wait: the state, and whether the process waits. None where
the interpreter panics. The first argument counts the instructions still to be jumped over. -/
def runCode (addr : Nat → Nat) : Nat → List Code → State → Option (State × Bool)
  | _, [], s => some (s, false)
  | skip + 1, _ :: rest, s => runCode addr skip rest s
  | 0, i :: rest, s =>
    match i with
    | .data i => (exec s i).bind (runCode addr 0 rest)
    | .collMethod dst base op args =>
      (evalCollMethod addr s (s.regs base) op args).bind fun (t, v) =>
        runCode addr 0 rest (t.setReg dst v)
    | .apply dst f args => (f (args.map s.regs)).bind fun v => runCode addr 0 rest (s.setReg dst v)
    | .branchTrue cond skip => runCode addr (if truthy (s.regs cond) then skip else 0) rest s
    | .jump skip => runCode addr skip rest s
    | .waitRuntime => some (s, true)

/-! ### What the value depends on -/

mutual

theorem le_genExpr : ∀ (e : Expr) (n : Reg), n ≤ (genExpr e n).next
  | .reg _, n => le_refl n
  | .read _ args, n => (le_genAll args n).trans (Nat.le_succ _)
  | .conditional condition whenTrue whenFalse, n =>
    (le_genExpr condition n).trans ((Nat.le_add_right _ 2).trans
      ((le_genExpr whenTrue _).trans ((le_genExpr whenFalse _).trans
        ((le_genExpr whenTrue _).trans (le_genExpr whenFalse _)))))

theorem le_genAll : ∀ (es : List Expr) (n : Reg), n ≤ (genAll es n).2.2
  | [], n => le_refl n
  | e :: es, n => (le_genExpr e n).trans (le_genAll es _)

end

mutual

theorem below_mono {n m : Reg} (hle : n ≤ m) : ∀ {e : Expr}, Below n e → Below m e
  | .reg _, h => Nat.lt_of_lt_of_le h hle
  | .read _ _, h => allBelow_mono hle h
  | .conditional _ _ _, h => ⟨below_mono hle h.1, below_mono hle h.2.1, below_mono hle h.2.2⟩

theorem allBelow_mono {n m : Reg} (hle : n ≤ m) :
    ∀ {es : List Expr}, AllBelow n es → AllBelow m es
  | [], _ => trivial
  | _ :: _, h => ⟨below_mono hle h.1, allBelow_mono hle h.2⟩

end

section

variable {n m : Reg} {s t u : State} {v : Val}

theorem answer_grown {h h' : Heap} (hh : Grown h h') {base : Val} {op : CollOp} {args : List Val}
    (hv : answer h base op args = some v) : answer h' base op args = some v := by
  cases base with
  | queue id =>
    obtain ⟨q, hq, rfl⟩ := Option.map_eq_some_iff.mp hv
    exact Option.map_eq_some_iff.mpr ⟨q, getElem?_of_grown hh.queues hq, rfl⟩
  | assoc id =>
    obtain ⟨entries, hentries, rfl⟩ := Option.map_eq_some_iff.mp hv
    exact Option.map_eq_some_iff.mpr ⟨entries, getElem?_of_grown hh.assocs hentries, rfl⟩
  | null | logic | str | obj | event => exact hv

theorem value_unchanged (h : Unchanged n s t) {f : Read} {args : List Val}
    (hv : f.value s args = some v) : f.value t args = some v := by
  cases f with
  | const | op => exact hv
  | net n => rwa [Read.value, h.nets]
  | static id => rwa [Read.value, h.statics]
  | memory m =>
    cases args with
    | nil => cases hv
    | cons idx args => exact (memoryOf_unchanged h m idx).trans hv
  | field slot =>
    cases args with
    | nil => cases hv
    | cons obj args => exact fieldOf_grown h.heap hv
  | index =>
    cases args with
    | nil => cases hv
    | cons base args =>
      cases args with
      | nil => cases hv
      | cons idx args => exact elementOf_unchanged h hv
  | method op ha =>
    cases args with
    | nil => cases hv
    | cons base args => exact answer_grown h.heap hv

mutual

/-- The value stays as long as nothing that it depends on changes. -/
theorem eval_unchanged (h : Unchanged n s t) : ∀ {e : Expr} {v : Val}, Below n e →
    eval s e = some v → eval t e = some v
  | .reg r, v, hb, hv => by
    cases hv
    exact congrArg some (h.regs r hb)
  | .read f args, v, hb, hv => by
    obtain ⟨vs, hvs, hv⟩ := Option.bind_eq_some_iff.mp hv
    rw [eval, evalAll_unchanged h hb hvs]
    exact value_unchanged h hv
  | .conditional condition whenTrue whenFalse, v, hb, hv => by
    obtain ⟨c, hc, hv⟩ := Option.bind_eq_some_iff.mp hv
    rw [eval, eval_unchanged h hb.1 hc, Option.bind_some]
    split at hv
    · rename_i htrue
      rw [if_pos htrue, eval_unchanged h hb.2.1 hv]
    · rename_i htrue
      rw [if_neg htrue]
      split at hv
      · rename_i hknown
        rw [if_pos hknown, eval_unchanged h hb.2.2 hv]
      · rename_i hknown
        obtain ⟨a, ha, hv⟩ := Option.bind_eq_some_iff.mp hv
        obtain ⟨b, hb', hv⟩ := Option.bind_eq_some_iff.mp hv
        rw [if_neg hknown, eval_unchanged h hb.2.1 ha, Option.bind_some,
          eval_unchanged h hb.2.2 hb', Option.bind_some, hv]

theorem evalAll_unchanged (h : Unchanged n s t) : ∀ {es : List Expr} {vs : List Val},
    AllBelow n es → evalAll s es = some vs → evalAll t es = some vs
  | [], _, _, hvs => hvs
  | e :: es, vs, hb, hvs => by
    obtain ⟨v, hv, hvs⟩ := Option.bind_eq_some_iff.mp hvs
    obtain ⟨vs', hvs', rfl⟩ := Option.map_eq_some_iff.mp hvs
    rw [evalAll, eval_unchanged h hb.1 hv, Option.bind_some, evalAll_unchanged h hb.2 hvs']
    rfl

end

/-! ### The code computes the value -/

variable {addr : Nat → Nat}

/-- The code takes the state to this one. -/
def Does (addr : Nat → Nat) (code : List Code) (s t : State) : Prop :=
  ∀ rest, runCode addr 0 (code ++ rest) s = runCode addr 0 rest t

theorem Does.append {code code' : List Code} (h : Does addr code s t) (h' : Does addr code' t u) :
    Does addr (code ++ code') s u := by
  intro rest
  rw [List.append_assoc, h, h']

theorem does_one {i : Code}
    (h : ∀ rest, runCode addr 0 (i :: rest) s = runCode addr 0 rest t) : Does addr [i] s t := h

/-- A jump over a piece of code. -/
theorem runCode_skip (skip : Nat) (code rest : List Code) (s : State) :
    runCode addr (skip + code.length) (code ++ rest) s = runCode addr skip rest s := by
  induction code with
  | nil => rfl
  | cons i code ih => exact ih

section

variable {cond known : Reg} {both onTrue onFalse : List Code}

theorem does_onTrue (hc : truthy (s.regs cond) = true) (h : Does addr onTrue s t) :
    Does addr (branches cond known both onTrue onFalse) s t := by
  intro rest
  show runCode addr (if truthy (s.regs cond) then _ else 0) _ s = _
  rw [if_pos hc]
  show runCode addr (1 + both.length) (_ ++ rest) s = _
  rw [List.append_assoc, runCode_skip]
  show runCode addr 0 ((onTrue ++ _) ++ rest) s = _
  rw [List.append_assoc, h]
  show runCode addr onFalse.length (onFalse ++ rest) t = _
  rw [← Nat.zero_add onFalse.length, runCode_skip]

/-- The flag of a condition that is not true. -/
theorem runCode_known (hc : truthy (s.regs cond) = false) (rest : List Code) :
    runCode addr 0 (branches cond known both onTrue onFalse ++ rest) s =
      runCode addr (if isKnown (s.regs cond) then 1 + onTrue.length + 1 + both.length else 0)
        (both ++ .jump (onFalse.length + 1 + onTrue.length) ::
          (onTrue ++ .jump onFalse.length :: onFalse) ++ rest)
        (s.setReg known (intVal (if isKnown (s.regs cond) then 1 else 0))) := by
  have hflag (r : Bool) : truthy (intVal (if r then 1 else 0)) = r := by cases r <;> decide
  have hall : ([cond].map s.regs).all isKnown = isKnown (s.regs cond) := by simp
  show runCode addr (if truthy (s.regs cond) then _ else 0) _ s = _
  rw [hc]
  show runCode addr (if truthy (Function.update s.regs known (intVal _) known) then _ else 0) _
    (s.setReg known (intVal (if ([cond].map s.regs).all isKnown then 1 else 0))) = _
  rw [Function.update_self, hall, hflag]
  rfl

theorem does_onFalse (hc : truthy (s.regs cond) = false) (hk : isKnown (s.regs cond) = true)
    (h : Does addr onFalse (s.setReg known (intVal 1)) t) :
    Does addr (branches cond known both onTrue onFalse) s t := by
  intro rest
  rw [runCode_known hc, hk, if_pos rfl, if_pos rfl, List.append_assoc, runCode_skip]
  show runCode addr (1 + onTrue.length) ((onTrue ++ _) ++ rest) _ = _
  rw [List.append_assoc, runCode_skip]
  exact h rest

theorem does_both (hc : truthy (s.regs cond) = false) (hk : isKnown (s.regs cond) = false)
    (h : Does addr both (s.setReg known (intVal 0)) t) :
    Does addr (branches cond known both onTrue onFalse) s t := by
  intro rest
  rw [runCode_known hc, hk, if_neg Bool.false_ne_true, if_neg Bool.false_ne_true,
    List.append_assoc, h]
  show runCode addr (onFalse.length + 1 + onTrue.length) ((onTrue ++ _) ++ rest) t = _
  rw [List.append_assoc, runCode_skip]
  show runCode addr onFalse.length (onFalse ++ rest) t = _
  rw [← Nat.zero_add onFalse.length, runCode_skip]

end

/-- Running the piece leaves the value in its register. -/
structure Computes (addr : Nat → Nat) (n : Reg) (s : State) (p : Piece) (v : Val) (t : State) :
    Prop where
  run : Does addr p.code s t
  value : t.regs p.value = v
  below : p.value < p.next
  next : n ≤ p.next
  rest : Unchanged n s t

/-- A method that asks leaves the state and returns its answer. -/
theorem evalCollMethod_asks {base : Val} {op : CollOp} (ha : asks op = true) {args : List Reg}
    (hv : answer s.heap base op (args.map s.regs) = some v) :
    evalCollMethod addr s base op args = some (s, v) := by
  cases base with
  | queue id =>
    obtain ⟨q, hq, rfl⟩ := Option.map_eq_some_iff.mp hv
    show (s.heap.queues[id]?).bind _ = _
    rw [hq]
    cases op <;> first | rfl | cases ha
  | assoc id =>
    obtain ⟨entries, hentries, rfl⟩ := Option.map_eq_some_iff.mp hv
    show (s.heap.assocs[id]?).map _ = _
    rw [hentries]
    cases op <;> first | rfl | (cases args <;> rfl) | cases ha
  | null | logic | str | obj | event =>
    cases hv
    rfl

/-- The instruction of a read leaves its result in the register. -/
theorem runCode_read {f : Read} {dst : Reg} {args : List Reg}
    (hv : f.value s (args.map s.regs) = some v) (rest : List Code) :
    runCode addr 0 (f.code dst args :: rest) s = runCode addr 0 rest (s.setReg dst v) := by
  cases f with
  | const | net | static =>
    cases hv
    rfl
  | memory m =>
    cases args with
    | nil => cases hv
    | cons idx args =>
      show (exec s (.memoryRead dst m idx)).bind _ = _
      have hv : memoryOf s m (s.regs idx) = some v := hv
      rw [exec_memoryRead, hv]
      rfl
  | field slot =>
    cases args with
    | nil => cases hv
    | cons obj args =>
      show (exec s (.getField dst obj slot)).bind _ = _
      rw [exec_getField_of hv]
      rfl
  | index =>
    cases args with
    | nil => cases hv
    | cons base args =>
      cases args with
      | nil => cases hv
      | cons idx args =>
        show (exec s (.indexGet dst base idx)).bind _ = _
        rw [exec_indexGet_of hv]
        rfl
  | method op ha =>
    cases args with
    | nil => cases hv
    | cons base args =>
      show (evalCollMethod addr s (s.regs base) op args).bind _ = _
      rw [evalCollMethod_asks ha hv]
      rfl
  | op f =>
    show (f (args.map s.regs)).bind _ = _
    have hv : f (args.map s.regs) = some v := hv
    rw [hv]
    rfl

theorem setReg_unchanged (h : Unchanged n s t) (hle : n ≤ m) (v : Val) :
    Unchanged n s (t.setReg m v) :=
  h.trans (unchanged_setReg t hle v)

/-- The result of a branch, moved to the register of the conditional. -/
theorem does_mov {p : Piece} {dst : Reg} (h : Computes addr n s p v t) :
    Does addr (p.code ++ [.data (.mov dst p.value)]) s (t.setReg dst v) := by
  refine h.run.append (does_one fun rest => ?_)
  show runCode addr 0 rest (t.setReg dst (t.regs p.value)) = _
  rw [h.value]

/-- The condition and then one of the branches. -/
theorem Computes.branch {p : Piece} {w : Val} (h : Computes addr n s p w t) {code : List Code}
    (hdoes : Does addr code t (u.setReg p.next v)) (hrest : Unchanged n s u) {next : Reg}
    (hlt : p.next < next) :
    Computes addr n s ⟨p.code ++ code, p.next, next⟩ v (u.setReg p.next v) where
  run := h.run.append hdoes
  value := Function.update_self _ _ _
  below := hlt
  next := h.next.trans hlt.le
  rest := setReg_unchanged hrest h.next v

mutual

theorem computes_genExpr (addr : Nat → Nat) : ∀ {e : Expr} {n : Reg} {s : State} {v : Val},
    Below n e → eval s e = some v → ∃ t, Computes addr n s (genExpr e n) v t
  | .reg r, n, s, v, hb, hv => by
    cases hv
    exact ⟨s, fun _ => rfl, rfl, hb, le_rfl, fun _ _ => rfl, rfl, rfl, .refl _⟩
  | .read f args, n, s, v, hb, hv => by
    obtain ⟨vs, hvs, hv⟩ := Option.bind_eq_some_iff.mp hv
    have hb : AllBelow n args := hb
    obtain ⟨t, hrun, hvalues, hnext, hrest⟩ := computes_genAll addr hb hvs
    have hread : f.value t ((genAll args n).2.1.map t.regs) = some v := by
      rw [hvalues]
      exact value_unchanged hrest hv
    exact ⟨t.setReg (genAll args n).2.2 v, hrun.append (does_one (runCode_read hread)),
      Function.update_self _ _ _, Nat.lt_succ_self _, hnext.trans (Nat.le_succ _),
      setReg_unchanged hrest hnext v⟩
  | .conditional condition whenTrue whenFalse, n, s, v, hb, hv => by
    obtain ⟨c, hc, hv⟩ := Option.bind_eq_some_iff.mp hv
    obtain ⟨t, ht⟩ := computes_genExpr addr hb.1 hc
    have hknown : n ≤ (genExpr condition n).next + 1 := ht.next.trans (Nat.le_succ _)
    have hle₁ : n ≤ (genExpr condition n).next + 2 := hknown.trans (Nat.le_succ _)
    have hle₂ := le_genExpr whenTrue ((genExpr condition n).next + 2)
    have hle₃ := le_genExpr whenFalse (genExpr whenTrue ((genExpr condition n).next + 2)).next
    have hle₄ := le_genExpr whenTrue (genExpr whenFalse
      (genExpr whenTrue ((genExpr condition n).next + 2)).next).next
    have hle₅ := le_genExpr whenFalse (genExpr whenTrue (genExpr whenFalse
      (genExpr whenTrue ((genExpr condition n).next + 2)).next).next).next
    have hlt := Nat.lt_of_lt_of_le (Nat.lt_add_of_pos_right Nat.two_pos)
      (hle₂.trans (hle₃.trans (hle₄.trans hle₅)))
    split at hv
    · rename_i htrue
      have hle := hle₁.trans (hle₂.trans hle₃)
      obtain ⟨u, hu⟩ := computes_genExpr addr (below_mono hle hb.2.1)
        (eval_unchanged ht.rest hb.2.1 hv)
      exact ⟨_, ht.branch (does_onTrue (ht.value.symm ▸ htrue) (does_mov hu))
        (ht.rest.trans (hu.rest.mono hle)) hlt⟩
    · rename_i htrue
      have htrue : truthy (t.regs (genExpr condition n).value) = false := by
        rw [ht.value]
        simpa using htrue
      split at hv
      · rename_i hk
        have hle := hle₁.trans (hle₂.trans (hle₃.trans hle₄))
        have hrest := setReg_unchanged ht.rest hknown (intVal 1)
        obtain ⟨u, hu⟩ := computes_genExpr addr (below_mono hle hb.2.2)
          (eval_unchanged hrest hb.2.2 hv)
        exact ⟨_, ht.branch (does_onFalse htrue (ht.value.symm ▸ hk) (does_mov hu))
          (hrest.trans (hu.rest.mono hle)) hlt⟩
      · rename_i hk
        have hk : isKnown (t.regs (genExpr condition n).value) = false := by
          rw [ht.value]
          simpa using hk
        obtain ⟨a, ha, hv⟩ := Option.bind_eq_some_iff.mp hv
        obtain ⟨b, hb', hv⟩ := Option.bind_eq_some_iff.mp hv
        have hrest := setReg_unchanged ht.rest hknown (intVal 0)
        obtain ⟨u, hu⟩ := computes_genExpr addr (below_mono hle₁ hb.2.1)
          (eval_unchanged hrest hb.2.1 ha)
        have hrest' := hrest.trans (hu.rest.mono hle₁)
        obtain ⟨u', hu'⟩ := computes_genExpr addr (below_mono (hle₁.trans hle₂) hb.2.2)
          (eval_unchanged hrest' hb.2.2 hb')
        refine ⟨_, ht.branch (does_both htrue hk ((hu.run.append hu'.run).append
          (does_one fun rest => ?_))) (hrest'.trans (hu'.rest.mono (hle₁.trans hle₂))) hlt⟩
        -- the flag and the branches have registers of their own
        have hcond : u'.regs (genExpr condition n).value = c := by
          have hlow := Nat.lt_add_right 2 ht.below
          rw [hu'.rest.regs _ (Nat.lt_of_lt_of_le hlow hle₂), hu.rest.regs _ hlow]
          exact (Function.update_of_ne (Nat.ne_of_lt (Nat.lt_succ_of_lt ht.below)) _ _).trans
            ht.value
        show (selectOf (u'.regs _) (u'.regs _) (u'.regs _)).bind _ = _
        rw [hcond, hu'.rest.regs _ hu.below, hu.value, hu'.value, hv]
        rfl

theorem computes_genAll (addr : Nat → Nat) : ∀ {es : List Expr} {n : Reg} {s : State}
    {vs : List Val}, AllBelow n es → evalAll s es = some vs → ∃ t,
      Does addr (genAll es n).1 s t ∧ (genAll es n).2.1.map t.regs = vs ∧
      n ≤ (genAll es n).2.2 ∧ Unchanged n s t
  | [], n, s, vs, _, hvs => by
    cases hvs
    exact ⟨s, fun _ => rfl, rfl, le_rfl, fun _ _ => rfl, rfl, rfl, .refl _⟩
  | e :: es, n, s, vs, hb, hvs => by
    obtain ⟨v, hv, hvs⟩ := Option.bind_eq_some_iff.mp hvs
    obtain ⟨vs', hvs', rfl⟩ := Option.map_eq_some_iff.mp hvs
    obtain ⟨t, ht⟩ := computes_genExpr addr hb.1 hv
    obtain ⟨u, hrun, hvalues, hnext, hrest⟩ := computes_genAll addr (allBelow_mono ht.next hb.2)
      (evalAll_unchanged ht.rest hb.2 hvs')
    refine ⟨u, ht.run.append hrun, ?_, ht.next.trans hnext, ht.rest.trans (hrest.mono ht.next)⟩
    show u.regs (genExpr e n).value :: _ = _
    rw [hrest.regs _ ht.below, ht.value, hvalues]

end

/-- The check waits exactly when the condition is not true, with its value in a register of its
own. -/
theorem runCode_genWait {cond : Expr} (hb : Below n cond) (hv : eval s cond = some v) :
    ∃ t, Unchanged n s t ∧ runCode addr 0 (genWait cond n) s = some (t, !truthy v) := by
  obtain ⟨t, ht⟩ := computes_genExpr addr hb hv
  refine ⟨t, ht.rest, (ht.run _).trans ?_⟩
  show runCode addr (if truthy (t.regs (genExpr cond n).value) then 1 else 0) _ t = _
  rw [ht.value]
  cases truthy v <;> rfl

end

end Eevee.Elab.Conditions
