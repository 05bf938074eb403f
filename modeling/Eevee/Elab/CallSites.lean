/- The code of calls, and when a call copies the formals back to the actuals. -/

import Mathlib.Data.List.Basic
import Eevee.Elab.Blocking
import Eevee.Ir.Calls

set_option autoImplicit false
set_option relaxedAutoImplicit false

namespace Eevee.Elab.CallSites

open Eevee.Core.Logic
open Eevee.Ir.Values (MemoryDef memoryElement)
open Eevee.Ir.Objects
open Eevee.Ir.Locations
open Eevee.Ir.Calls hiding FuncId
open Eevee.Lib.CallStack
open Eevee.Lib.Tables (Names)
open Eevee.Classes.Declarations
open Eevee.Classes.Layout
open Eevee.Elab.Names
open Eevee.Elab.Targets
open Eevee.Elab.Assignments
open Eevee.Elab.Stores (anyVariable_scope local_lt scopedStatic_scope value_of_anyVariable)
open Eevee.Elab.Blocking (baseOf_at)

variable {E : Type}

/-! ### The code of a call -/

/-- An argument: something that can be assigned to, or any other expression. -/
inductive Actual (E : Type)
  | reference (lhs : Lvalue E)
  | value (e : E)

/-- The function or method that is called. -/
inductive CallForm (E : Type)
  | free (name : String)
  | method (receiver : E) (name : String)
  | super (name : String)
  | static (className name : String)

/-- What the code generator knows about functions and classes, with what it knows about
variables. -/
structure CallContext (E : Type) extends Context E where
  funcs : Names FuncId
  classCtx : Option ClassId
  resolveClass : Names ClassId

/-- The code of an argument, with the registers of the receiver and of the index that it
evaluates. -/
structure Passed extends Generated where
  obj : Reg
  idx : Reg

inductive Target
  | direct (func : FuncId)
  | virtual (obj : Reg) (vslot : Nat)

/-- A call, behind the code of its arguments. Methods are passed the object first. -/
structure CallSite where
  code : Code
  target : Target
  receiver : Option Reg
  passed : List Passed
  ret : Reg

def CallSite.args (site : CallSite) : List Reg :=
  site.receiver.toList ++ site.passed.map fun g => g.reg

/-- The formal that an argument is bound to. -/
def CallSite.formal (site : CallSite) (i : Nat) : Reg := site.receiver.toList.length + i

def CallSite.inst {I : Type} (site : CallSite) : Instr I :=
  match site.target with
  | .direct func => .call func site.args site.ret
  | .virtual obj vslot => .callVirtual obj vslot site.args site.ret

namespace CallContext

variable (ctx : CallContext E)

def methodOf (c : ClassId) (name : String) : Option FuncId :=
  (ctx.classes c).bind (·.methods name)

/-- A virtual method is found through the object, any other through the class. -/
def methodTarget (c : ClassId) (obj : Reg) (name : String) : Option Target :=
  match (ctx.classes c).bind (·.vslotOf name) with
  | some vslot => some (.virtual obj vslot)
  | none => (ctx.methodOf c name).map .direct

/-- An element of a memory or an array. -/
def genElement (lhs : Lvalue E) (index : E) (next : Reg) : Option Passed :=
  let memory :=
    if lhs.receiver.isNone ∧ lhs.scope.isNone then (ctx.env.memory lhs.name).bind memoryOf else none
  match memory with
  | some m =>
    let i := ctx.genExpr index next
    some ⟨⟨[.piece i, .inst (.memoryRead i.next m i.reg)], i.next, i.next + 1⟩, ctx.thisReg, i.reg⟩
  | none => (ctx.genBase lhs next).map fun base =>
    let i := ctx.genExpr index base.next
    ⟨⟨base.code ++ [.piece i, .inst (.indexGet i.next base.reg i.reg)], i.next, i.next + 1⟩,
      ctx.thisReg, i.reg⟩

/-- The receiver of a reference is evaluated first. -/
def objOf (lhs : Lvalue E) (next : Reg) : Reg :=
  match lhs.scope, lhs.receiver with
  | none, some receiver => (ctx.genExpr receiver next).reg
  | _, _ => ctx.thisReg

def genActual (next : Reg) : Actual E → Option Passed
  | .reference lhs =>
    match lhs.index with
    | some index =>
      (ctx.genElement lhs index next).map fun g => { g with obj := ctx.objOf lhs next }
    | none => (ctx.genBase lhs next).map fun g => ⟨g, ctx.objOf lhs next, g.reg⟩
  | .value e => some ⟨Context.ofPiece (ctx.genExpr e next), ctx.thisReg, ctx.thisReg⟩

def genArgs : List (Actual E) → Reg → Option (List Passed)
  | [], _ => some []
  | a :: args, next => (ctx.genActual next a).bind fun g =>
    (genArgs args g.next).map (g :: ·)

/-- The first register that the arguments leave free. -/
def nextAfter (start : Reg) : List Passed → Reg
  | [] => start
  | p :: passed => nextAfter p.next passed

/-- The arguments behind the code of the receiver, then the register of the result. -/
def genSite (code : Code) (target : Target) (receiver : Option Reg) (args : List (Actual E))
    (start : Reg) : Option CallSite :=
  (ctx.genArgs args start).map fun passed =>
    ⟨code ++ (passed.map fun g => g.code).flatten, target, receiver, passed,
      nextAfter start passed⟩

/-- `this.name(args)`. -/
def genMethodCallOnThis (name : String) (args : List (Actual E)) (next : Reg) : Option CallSite :=
  ctx.classCtx.bind fun c => (ctx.methodTarget c ctx.thisReg name).bind fun target =>
    ctx.genSite [] target (some ctx.thisReg) args next

/-- A method or constructor of the base class. -/
def superMethod (name : String) : Option FuncId :=
  ((ctx.classCtx.bind ctx.classes).bind (·.base)).bind fun base =>
    if name = "new" then (ctx.classes base).bind (·.ctor) else ctx.methodOf base name

/-- A call; none where the code generator panics or compiles something that is no call. -/
def genCall (args : List (Actual E)) (next : Reg) : CallForm E → Option CallSite
  | .free name =>
    if (ctx.classCtx.bind (ctx.methodOf · name)).isSome then ctx.genMethodCallOnThis name args next
    else (ctx.funcs name).bind fun func => ctx.genSite [] (.direct func) none args next
  | .method receiver name =>
    let p := ctx.genExpr receiver next
    (ctx.receiverClass receiver).bind fun c => (ctx.methodTarget c p.reg name).bind fun target =>
      ctx.genSite [.piece p] target (some p.reg) args p.next
  | .super name => (ctx.superMethod name).bind fun func =>
    ctx.genSite [] (.direct func) (some ctx.thisReg) args next
  | .static className name =>
    match ctx.resolveClass className with
    | none => (ctx.funcs name).bind fun func => ctx.genSite [] (.direct func) none args next
    | some c => (ctx.methodOf c name).bind fun func =>
      ctx.genSite [.inst (.loadConst next .null)] (.direct func) (some next) args (next + 1)

end CallContext

/-- Where an element of an array is. -/
def elementPlace (idx : Val) : Val → Option Location
  | .queue id => (indexValue idx).map (.element id ·)
  | .assoc id => if keyKnown idx then some (.entry id (valueToKey idx)) else none
  | _ => none

/-- Where an actual is: a variable, field or net, or an element of an array or memory. -/
def CallContext.actualPlace (ctx : CallContext E) (lhs : Lvalue E) (s : State) (obj idx : Val) :
    Option Location :=
  (denotedBase ctx.toContext lhs s obj).bind fun base =>
    match lhs.index, base with
    | none, .at l => some l
    | some _, .memory m => (idx.asLogic.bind (memoryElement m)).map .net
    | some _, .at l => elementPlace idx (read s l)
    | _, _ => none

/-- The modes of a callable with formals of the given modes. -/
def formalModes (hasThis : Bool) (modes : List ArgMode) : List ArgMode :=
  if hasThis then .input :: modes else modes

/-- A call of an object's method finds the object. -/
def CallSite.Dispatches (site : CallSite) (s : State) : Prop :=
  ∀ obj vslot, site.target = .virtual obj vslot → ∃ id data, s.regs obj = .obj id ∧
    s.heap.objs[id]? = some data

/-- The actual `i` of a call in state `s` is a reference to the place `l`. -/
inductive Refers (ctx : CallContext E) (args : List (Actual E)) (site : CallSite) (s : State)
    (i : Nat) (g : Passed) (l : Location) : Prop
  | intro (lhs : Lvalue E) (harg : args[i]? = some (.reference lhs))
    (hpassed : site.passed[i]? = some g)
    (hplace : ctx.actualPlace lhs s (s.regs g.obj) (s.regs g.idx) = some l)

/-- Whatever the callee does, alone and with others, until it returns: an actual that is copied out
then holds what the formal held, and any other actual what it would hold without the return. -/
def CopiesBack (I : Type) (ctx : CallContext E) (args : List (Actual E)) (site : CallSite)
    (modes : List ArgMode) (s : State) : Prop :=
  ∀ (L : Linkage I) (callee : Program I) (p q t : IrProcess I),
    callee.argModes = formalModes site.receiver.isSome modes → p.inst = some site.inst →
    p.state = s → Returns L callee site.args site.ret p q t →
    ∀ i g l, Refers ctx args site s i g l →
      ((modeAt modes i).copiesOut = true → read t.state l = q.frame.act.regs (site.formal i)) ∧
      ((modeAt modes i).copiesOut = false → read t.state l = read (q.shared.withRegs s.regs) l)

/-- Every actual that is copied out is a local variable, and no later one that is copied out is
passed in the same register. No actual of an input is. -/
def PassedInPlace (ctx : CallContext E) (args : List (Actual E)) (site : CallSite)
    (modes : List ArgMode) (s : State) : Prop :=
  ∀ i g l, Refers ctx args site s i g l →
    ((modeAt modes i).copiesOut = true → (∃ r, l = .register r) ∧
      ∀ j g', i < j → site.passed[j]? = some g' → (modeAt modes j).copiesOut = true →
        g'.reg ≠ g.reg) ∧
    ((modeAt modes i).copiesOut = false → ∀ r, l = .register r →
      ∀ j g', site.passed[j]? = some g' → (modeAt modes j).copiesOut = true → g'.reg ≠ r)

/-! ### The registers of actuals -/

section

variable {ctx : CallContext E} {s : State}

theorem scopedBase_ne_local {name scope : String} {w : Variable} :
    scopedBase ctx.toContext name scope ≠ some (.variable .local w) := by
  rw [scopedBase]
  cases hclass : ctx.env.classStatics scope with
  | some statics =>
    intro hd
    obtain ⟨_, heq⟩ := scopedStatic_scope hd
    cases heq
  | none =>
    intro hd
    obtain ⟨_, -, heq⟩ := Resolution.found_scope hd
    cases heq

theorem member_ne_register {receiver : E} {name : String} {obj : Val} {r : Reg} :
    member ctx.toContext receiver name obj ≠ some (.at (.register r)) := by
  intro hmember
  rw [member, Option.bind_eq_some_iff] at hmember
  obtain ⟨info, -, hmember⟩ := hmember
  cases hslot : info.fieldSlot name with
  | some slot =>
    rw [hslot] at hmember
    cases obj with
    | obj id => cases hmember
    | null | logic | str | queue | assoc | event => cases hmember
  | none =>
    rw [hslot] at hmember
    cases hstatic : info.staticFields name with
    | some id =>
      rw [hstatic] at hmember
      cases hmember
    | none =>
      rw [hstatic] at hmember
      cases hmember

theorem local_of_register {d : Decl} {r : Reg} (h : ctx.place s d = some (.register r)) :
    ∃ w, d = .variable .local w ∧ w.place = r := by
  cases d with
  | this | const | method | function => cases h
  | signal sig =>
    obtain ⟨_, _, -, heq⟩ := ctx.place_signal h
    cases heq
  | «variable» scope w =>
    cases scope with
    | «local» =>
      cases h
      exact ⟨w, rfl, rfl⟩
    | field =>
      obtain ⟨_, -, heq⟩ := ctx.place_field h
      cases heq
    | static | package => cases h

/-- A left-hand side that denotes a register is the name of a local variable. -/
theorem name_of_register {lhs : Lvalue E} {obj : Val} {r : Reg}
    (h : denotedBase ctx.toContext lhs s obj = some (.at (.register r))) :
    lhs.scope = none ∧ lhs.receiver = none ∧ ∃ w, w.place = r ∧ lhs.name ≠ "this" ∧
      ctx.env.anyVariable lhs.name = some (.variable .local w) := by
  obtain ⟨name, receiver, index, scope⟩ := lhs
  cases scope with
  | some scope =>
    rw [denotedBase, Option.map_eq_some_iff] at h
    obtain ⟨d, hd, hbase⟩ := h
    obtain ⟨w, rfl, -⟩ := local_of_register (baseOf_at hbase)
    exact absurd hd scopedBase_ne_local
  | none =>
    cases receiver with
    | some receiver => exact absurd h member_ne_register
    | none =>
      rw [denotedBase, Option.map_eq_some_iff] at h
      obtain ⟨d, hd, hbase⟩ := h
      obtain ⟨w, rfl, hw⟩ := local_of_register (baseOf_at hbase)
      have hdecl : declaredBase ctx.toContext name = some (.variable .local w) := hd
      rw [declaredBase] at hdecl
      split at hdecl
      · cases hdecl
      · rename_i hthis
        refine ⟨rfl, rfl, w, hw, hthis, ?_⟩
        rw [Option.or_eq_some_iff] at hdecl
        rcases hdecl with hany | ⟨-, hsignal⟩
        · exact hany
        · obtain ⟨_, heq⟩ := Stores.signal_of_lvalueIndexWidth hsignal
          cases heq

theorem elementPlace_ne_register {idx content : Val} {r : Reg} :
    elementPlace idx content ≠ some (.register r) := by
  intro h
  cases content with
  | queue id =>
    obtain ⟨_, -, heq⟩ := Option.map_eq_some_iff.mp h
    cases heq
  | assoc id =>
    obtain ⟨-, heq⟩ := Option.ite_none_right_eq_some.mp h
    cases heq
  | null | logic | str | obj | event => cases h

/-- Only a local variable is passed in its own register. -/
theorem passed_register {lhs : Lvalue E} {n : Reg} {g : Passed} {obj idx : Val} {r : Reg}
    (hgen : ctx.genActual n (.reference lhs) = some g)
    (hplace : ctx.actualPlace lhs s obj idx = some (.register r)) :
    g.reg = r ∧ r < ctx.temps := by
  obtain ⟨name, receiver, index, scope⟩ := lhs
  rw [CallContext.actualPlace, Option.bind_eq_some_iff] at hplace
  obtain ⟨base, hbase, hplace⟩ := hplace
  cases index with
  | none =>
    cases base with
    | nowhere | memory => cases hplace
    | «at» l =>
      cases hplace
      obtain ⟨hscope, hreceiver, w, hw, hthis, hany⟩ := name_of_register hbase
      cases hscope
      cases hreceiver
      obtain ⟨hvalue, hwrite⟩ := value_of_anyVariable hthis hany
      have hgen' : (ctx.genRef name n).map (fun g : Generated =>
        (⟨g, ctx.thisReg, g.reg⟩ : Passed)) = some g := hgen
      rw [Context.genRef, hvalue] at hgen'
      cases hgen'
      exact ⟨hw, hw ▸ local_lt hwrite⟩
  | some index =>
    cases base with
    | nowhere => cases hplace
    | memory m =>
      obtain ⟨_, -, heq⟩ := Option.map_eq_some_iff.mp hplace
      cases heq
    | «at» l =>
      have helement : elementPlace idx (read s l) = some (.register r) := hplace
      exact absurd helement elementPlace_ne_register

/-! ### The registers in use -/

variable {n : Reg} {g : Generated} {p : Passed}

theorem le_next_genDecl {d : Decl} (hn : ctx.temps ≤ n) (h : ctx.genDecl n d = some g) :
    n ≤ g.next := by
  cases d with
  | this =>
    cases h
    exact Nat.le_refl n
  | function => cases h
  | method m =>
    cases h
    exact (ctx.fresh_this m.name n hn).next
  | const name =>
    obtain ⟨_, -, rfl⟩ := Option.map_eq_some_iff.mp h
    exact Nat.le_succ n
  | signal sig =>
    rw [Context.genDecl] at h
    cases hkind : sig.kind with
    | net id width =>
      rw [hkind] at h
      cases h
      exact Nat.le_succ n
    | memory elements left right width =>
      rw [hkind] at h
      cases h
  | «variable» scope w =>
    cases scope with
    | «local» =>
      cases h
      exact Nat.le_refl n
    | field | static | package =>
      cases h
      exact Nat.le_succ n

theorem le_next_genRef {name : String} (hn : ctx.temps ≤ n) (h : ctx.genRef name n = some g) :
    n ≤ g.next := by
  obtain ⟨d, -, hd⟩ := Option.bind_eq_some_iff.mp h
  exact le_next_genDecl hn hd

theorem le_next_genMember {receiver : E} {obj : Reg} {field : String}
    (h : ctx.genMember receiver obj field n = some g) : n ≤ g.next := by
  obtain ⟨info, -, hinfo⟩ := Option.bind_eq_some_iff.mp h
  cases hslot : info.fieldSlot field with
  | some slot =>
    rw [hslot] at hinfo
    cases hinfo
    exact Nat.le_succ n
  | none =>
    rw [hslot] at hinfo
    cases hstatic : info.staticFields field with
    | some id =>
      rw [hstatic] at hinfo
      cases hinfo
      exact Nat.le_succ n
    | none =>
      rw [hstatic] at hinfo
      cases hinfo

theorem le_next_genStaticRef {scope name : String} (hn : ctx.temps ≤ n)
    (h : ctx.genStaticRef scope name n = some g) : n ≤ g.next := by
  rw [Context.genStaticRef] at h
  split at h
  · exact le_next_genDecl hn h
  · exact Nat.le_of_succ_le (le_next_genRef (Nat.le_succ_of_le hn) h)

theorem le_next_genBase {lhs : Lvalue E} (hn : ctx.temps ≤ n) (h : ctx.genBase lhs n = some g) :
    n ≤ g.next := by
  obtain ⟨name, receiver, index, scope⟩ := lhs
  cases scope with
  | some scope => exact le_next_genStaticRef hn h
  | none =>
    cases receiver with
    | none => exact le_next_genRef hn h
    | some receiver =>
      obtain ⟨g', hmember, rfl⟩ := Option.map_eq_some_iff.mp h
      have hle : (ctx.genExpr receiver n).next ≤ g'.next := le_next_genMember hmember
      exact Nat.le_trans (ctx.fresh receiver n hn).next hle

theorem le_next_genElement {lhs : Lvalue E} {index : E} (hn : ctx.temps ≤ n)
    (h : ctx.genElement lhs index n = some p) : n ≤ p.next := by
  rw [CallContext.genElement] at h
  dsimp only at h
  split at h
  · cases h
    exact Nat.le_succ_of_le (ctx.fresh index n hn).next
  · obtain ⟨base, hbase, rfl⟩ := Option.map_eq_some_iff.mp h
    have hle := le_next_genBase hn hbase
    exact Nat.le_succ_of_le
      (Nat.le_trans hle (ctx.fresh index base.next (Nat.le_trans hn hle)).next)

theorem le_next_genActual {a : Actual E} (hn : ctx.temps ≤ n) (h : ctx.genActual n a = some p) :
    n ≤ p.next := by
  cases a with
  | value e =>
    cases h
    exact (ctx.fresh e n hn).next
  | reference lhs =>
    obtain ⟨name, receiver, index, scope⟩ := lhs
    cases index with
    | none =>
      obtain ⟨base, hbase, rfl⟩ := Option.map_eq_some_iff.mp h
      exact le_next_genBase hn hbase
    | some index =>
      obtain ⟨element, helement, rfl⟩ := Option.map_eq_some_iff.mp h
      have hle : n ≤ element.next := le_next_genElement hn helement
      exact hle

/-- The code of the arguments, one after the other. -/
theorem genArgs_cons {a : Actual E} {args : List (Actual E)} {passed : List Passed}
    (h : ctx.genArgs (a :: args) n = some passed) : ∃ p rest, ctx.genActual n a = some p ∧
      ctx.genArgs args p.next = some rest ∧ passed = p :: rest := by
  obtain ⟨p, hp, hmap⟩ := Option.bind_eq_some_iff.mp h
  obtain ⟨rest, hrest, rfl⟩ := Option.map_eq_some_iff.mp hmap
  exact ⟨p, rest, hp, hrest, rfl⟩

theorem le_nextAfter {args : List (Actual E)} {passed : List Passed} (hn : ctx.temps ≤ n)
    (h : ctx.genArgs args n = some passed) : n ≤ CallContext.nextAfter n passed := by
  induction args generalizing n passed with
  | nil =>
    cases h
    exact Nat.le_refl n
  | cons a args ih =>
    obtain ⟨p, rest, hp, hrest, rfl⟩ := genArgs_cons h
    have hle := le_next_genActual hn hp
    exact Nat.le_trans hle (ih (Nat.le_trans hn hle) hrest)

theorem genActual_of_genArgs {args : List (Actual E)} {passed : List Passed}
    (h : ctx.genArgs args n = some passed) {i : Nat} {a : Actual E} (ha : args[i]? = some a)
    (hp : passed[i]? = some p) : ∃ n, ctx.genActual n a = some p := by
  induction args generalizing n passed i with
  | nil => cases ha
  | cons b args ih =>
    obtain ⟨q, rest, hq, hrest, rfl⟩ := genArgs_cons h
    cases i with
    | zero =>
      cases ha
      cases hp
      exact ⟨n, hq⟩
    | succ i => exact ih hrest ha hp

/-- What the code of a call keeps to. -/
structure Compiled (ctx : CallContext E) (args : List (Actual E)) (site : CallSite) : Prop where
  passed : ∀ (i : Nat) (a : Actual E) (p : Passed), args[i]? = some a →
    site.passed[i]? = some p → ∃ n, ctx.genActual n a = some p
  ret : ctx.temps ≤ site.ret

theorem compiled_genSite {code : Code} {target : Target} {receiver : Option Reg}
    {args : List (Actual E)} {site : CallSite} (hn : ctx.temps ≤ n)
    (h : ctx.genSite code target receiver args n = some site) : Compiled ctx args site := by
  obtain ⟨passed, hpassed, rfl⟩ := Option.map_eq_some_iff.mp h
  exact ⟨fun i a p ha hp => genActual_of_genArgs hpassed ha hp,
    Nat.le_trans hn (le_nextAfter hn hpassed)⟩

theorem compiled_genCall {form : CallForm E} {args : List (Actual E)} {site : CallSite}
    (hn : ctx.temps ≤ n) (h : ctx.genCall args n form = some site) : Compiled ctx args site := by
  cases form with
  | free name =>
    rw [CallContext.genCall] at h
    split at h
    · obtain ⟨c, -, h⟩ := Option.bind_eq_some_iff.mp h
      obtain ⟨target, -, h⟩ := Option.bind_eq_some_iff.mp h
      exact compiled_genSite hn h
    · obtain ⟨func, -, h⟩ := Option.bind_eq_some_iff.mp h
      exact compiled_genSite hn h
  | method receiver name =>
    obtain ⟨c, -, h⟩ := Option.bind_eq_some_iff.mp h
    obtain ⟨target, -, h⟩ := Option.bind_eq_some_iff.mp h
    exact compiled_genSite (Nat.le_trans hn (ctx.fresh receiver n hn).next) h
  | super name =>
    obtain ⟨func, -, h⟩ := Option.bind_eq_some_iff.mp h
    exact compiled_genSite hn h
  | static className name =>
    rw [CallContext.genCall] at h
    split at h
    · obtain ⟨func, -, h⟩ := Option.bind_eq_some_iff.mp h
      exact compiled_genSite hn h
    · obtain ⟨func, -, h⟩ := Option.bind_eq_some_iff.mp h
      exact compiled_genSite (Nat.le_succ_of_le hn) h

/-! ### Formals -/

theorem modeAt_formal (site : CallSite) (modes : List ArgMode) (i : Nat) :
    modeAt (formalModes site.receiver.isSome modes) (site.formal i) = modeAt modes i := by
  rw [CallSite.formal]
  cases site.receiver with
  | none =>
    rw [Option.toList_none, List.length_nil, Nat.zero_add]
    rfl
  | some r =>
    rw [Option.toList_some, List.length_singleton, Nat.add_comm]
    rfl

theorem getElem?_formal (site : CallSite) (i : Nat) :
    site.args[site.formal i]? = site.passed[i]?.map fun g => g.reg := by
  rw [CallSite.args, CallSite.formal, List.getElem?_append_right (Nat.le_add_right _ _),
    Nat.add_sub_cancel_left, List.getElem?_map]

theorem formal_lt {site : CallSite} {i j : Nat} : site.formal i < site.formal j ↔ i < j :=
  Nat.add_lt_add_iff_left

variable {I : Type} {site : CallSite} {modes : List ArgMode} {callee : Program I}

/-- The object that a method is called on is never copied back. -/
theorem mem_copyOuts_site (hmodes : callee.argModes = formalModes site.receiver.isSome modes)
    {k : Nat} {r : Reg} : (k, r) ∈ copyOuts callee site.args ↔
      ∃ i p, k = site.formal i ∧ site.passed[i]? = some p ∧ p.reg = r ∧
        (modeAt modes i).copiesOut = true := by
  rw [mem_copyOuts, hmodes]
  constructor
  · rintro ⟨harg, hmode⟩
    have hge : site.receiver.toList.length ≤ k := by
      cases hreceiver : site.receiver with
      | none => exact Nat.zero_le k
      | some o =>
        cases k with
        | zero =>
          rw [hreceiver] at hmode
          cases hmode
        | succ k => exact Nat.succ_le_succ (Nat.zero_le k)
    obtain ⟨i, rfl⟩ := Nat.exists_eq_add_of_le hge
    have harg' : site.args[site.formal i]? = some r := harg
    have hmode' := hmode
    rw [show site.receiver.toList.length + i = site.formal i from rfl, modeAt_formal] at hmode'
    rw [getElem?_formal] at harg'
    obtain ⟨p, hp, hreg⟩ := Option.map_eq_some_iff.mp harg'
    exact ⟨i, p, rfl, hp, hreg, hmode'⟩
  · rintro ⟨i, p, rfl, hp, hreg, hmode⟩
    rw [getElem?_formal, modeAt_formal, hp]
    exact ⟨congrArg some hreg, hmode⟩

/-! ### Calls that return -/

variable {L : Linkage I} {q t : IrProcess I} {c : IrProcess I}

theorem read_withRegs {shared : Shared} {l : Location} (hl : ∀ r, l ≠ .register r)
    (regs regs' : Reg → Val) : read (shared.withRegs regs) l = read (shared.withRegs regs') l := by
  cases l with
  | register r => exact absurd rfl (hl r)
  | field | static | net | element | entry => rfl

/-- After a call the registers of variables hold what was copied back to them. -/
theorem regs_of_returns (h : Returns L callee site.args site.ret c q t) {r : Reg}
    (hr : r < site.ret) :
    t.frame.act.regs r =
      copyBack (copyOuts callee site.args) q.frame.act.regs c.frame.act.regs r := by
  obtain ⟨-, -, -, -, val, hregs⟩ := h.resumed
  rw [hregs]
  cases val with
  | none => rfl
  | some v => exact Function.update_of_ne (Nat.ne_of_lt hr) _ _

theorem read_of_returns (h : Returns L callee site.args site.ret c q t) {l : Location}
    (hl : ∀ r, l ≠ .register r) (regs : Reg → Val) :
    read t.state l = read (q.shared.withRegs regs) l := by
  rw [IrProcess.state, h.resumed.2.2.2.1]
  exact read_withRegs hl _ regs

/-- A callee that gives a register a value and returns. -/
def loadingCallee (I : Type) (modes : List ArgMode) (r : Reg) (v : Val) : Program I :=
  ⟨[.data (.loadConst r v), .returnVoid], modes.length, modes, Nat.le_refl _⟩

/-- Every function is the callee. -/
def loadingLinkage (callee : Program I) : Linkage I :=
  ⟨fun _ => some callee, fun _ _ => some 0, fun _ _ _ _ => none⟩

/-- A process about to make a call. -/
def callingProcess (I : Type) (site : CallSite) (s : State) : IrProcess I :=
  ⟨⟨⟨[site.inst], 0, [], Nat.zero_le _⟩, ⟨0, s.regs, []⟩, ⟨0, []⟩, 0⟩, false, [], .ofState s⟩

theorem invokes_callingProcess (hdispatch : site.Dispatches s) :
    Invokes (loadingLinkage callee) (callingProcess I site s) callee site.args site.ret := by
  cases htarget : site.target with
  | direct func =>
    have hinst : (callingProcess I site s).inst = some (.call func site.args site.ret) := by
      show some site.inst = _
      rw [CallSite.inst, htarget]
    exact .direct hinst rfl
  | virtual obj vslot =>
    obtain ⟨id, data, hobj, hdata⟩ := hdispatch obj vslot htarget
    have hinst : (callingProcess I site s).inst =
        some (.callVirtual obj vslot site.args site.ret) := by
      show some site.inst = _
      rw [CallSite.inst, htarget]
    refine .virtual hinst ?_
    have hregs : (callingProcess I site s).frame.act.regs obj = .obj id := hobj
    have hheap : (callingProcess I site s).shared.heap.objs[id]? = some data := hdata
    rw [IrProcess.resolve, hregs]
    show (Option.bind _ _).bind _ = _
    rw [hheap]
    rfl

/-- A call returns whose callee has given any formal any value. -/
theorem exists_return (hdispatch : site.Dispatches s) (modes : List ArgMode) (k : Reg) (v : Val) :
    ∃ (L : Linkage I) (callee : Program I) (c q t : IrProcess I),
      callee.argModes = modes ∧ c.inst = some site.inst ∧ c.state = s ∧
      Returns L callee site.args site.ret c q t ∧ q.shared = .ofState s ∧
      q.frame.act.regs = Function.update (entryRegs callee (site.args.map s.regs)) k v := by
  let callee := loadingCallee I modes k v
  have hinvokes : Invokes (loadingLinkage callee) (callingProcess I site s) callee site.args
      site.ret := invokes_callingProcess hdispatch
  refine ⟨loadingLinkage callee, callee, callingProcess I site s, _, _, rfl, rfl, rfl,
    ⟨hinvokes, .tail (.refl (Nat.lt_succ_self _)) (.run rfl) (Nat.lt_succ_self _), rfl, rfl⟩, rfl,
    rfl⟩

/-! ### When a call copies back -/

variable {args : List (Actual E)}

theorem Refers.register {i : Nat} {g : Passed} {r : Reg} (hcompiled : Compiled ctx args site)
    (h : Refers ctx args site s i g (.register r)) : g.reg = r ∧ r < site.ret := by
  obtain ⟨lhs, harg, hpassed, hplace⟩ := h
  obtain ⟨n, hgen⟩ := hcompiled.passed i _ g harg hpassed
  obtain ⟨hreg, hlt⟩ := passed_register hgen hplace
  exact ⟨hreg, Nat.lt_of_lt_of_le hlt hcompiled.ret⟩

theorem Refers.passed {i : Nat} {g : Passed} {l : Location} (h : Refers ctx args site s i g l) :
    site.passed[i]? = some g := by
  obtain ⟨lhs, -, hpassed, -⟩ := h
  exact hpassed

/-- Local variables receive the formals, whatever the callee has done. -/
theorem copiesBack_of_inPlace (hcompiled : Compiled ctx args site)
    (h : PassedInPlace ctx args site modes s) : CopiesBack I ctx args site modes s := by
  intro L callee c q t hmodes _ hstate hreturns i g l hrefers
  have hregs : c.frame.act.regs = s.regs := congrArg State.regs hstate
  obtain ⟨hcopied, hkept⟩ := h i g l hrefers
  refine ⟨fun hmode => ?_, fun hmode => ?_⟩
  · obtain ⟨⟨r, rfl⟩, hlast⟩ := hcopied hmode
    obtain ⟨hreg, hlt⟩ := hrefers.register hcompiled
    refine (regs_of_returns hreturns hlt).trans (copyBack_of_last ?_ fun k hk hmem => ?_)
    · exact (mem_copyOuts_site hmodes).mpr ⟨i, g, rfl, hrefers.passed, hreg, hmode⟩
    · obtain ⟨j, p, rfl, hp, hpreg, hpmode⟩ := (mem_copyOuts_site hmodes).mp hmem
      exact hlast j p (formal_lt.mp hk) hp hpmode (hpreg.trans hreg.symm)
  · by_cases hl : ∃ r, l = .register r
    · obtain ⟨r, rfl⟩ := hl
      obtain ⟨hreg, hlt⟩ := hrefers.register hcompiled
      have hsame : copyBack (copyOuts callee site.args) q.frame.act.regs c.frame.act.regs r =
          c.frame.act.regs r := by
        refine copyBack_of_not_mem fun k hmem => ?_
        obtain ⟨j, p, rfl, hp, hpreg, hpmode⟩ := (mem_copyOuts_site hmodes).mp hmem
        exact hkept hmode r rfl j p hp hpmode hpreg
      exact (regs_of_returns hreturns hlt).trans (hsame.trans (congrFun hregs r))
    · exact read_of_returns hreturns (fun r hr => hl ⟨r, hr⟩) s.regs

theorem exists_ne (a b : Val) : ∃ v : Val, v ≠ a ∧ v ≠ b := by
  by_contra hno
  push Not at hno
  have h0 := hno (.event 0)
  have h1 := hno (.event 1)
  have h2 := hno (.event 2)
  by_cases ha : Val.event 0 = a
  · subst ha
    have hb1 := h1 (by simp)
    have hb2 := h2 (by simp)
    exact absurd (hb1.trans hb2.symm) (by simp)
  · have hb0 := h0 ha
    subst hb0
    by_cases ha1 : Val.event 1 = a
    · subst ha1
      exact absurd (h2 (by simp)) (by simp)
    · exact absurd (h1 ha1) (by simp)

/-- A formal starts with null or with the value of its actual. -/
theorem entryRegs_of_arg {k : Nat} {r : Reg} (regs : Reg → Val) (h : site.args[k]? = some r) :
    entryRegs callee (site.args.map regs) k = .null ∨
      entryRegs callee (site.args.map regs) k = regs r := by
  rw [entryRegs]
  split
  · refine .inr ?_
    rw [List.getElem?_map, h]
    rfl
  · exact .inl rfl

theorem inPlace_of_copiesBack (hcompiled : Compiled ctx args site) (hdispatch : site.Dispatches s)
    (h : CopiesBack I ctx args site modes s) : PassedInPlace ctx args site modes s := by
  intro i g l hrefers
  have hlocal : (modeAt modes i).copiesOut = true → ∃ r, l = .register r := by
    intro hmode
    by_contra hno
    obtain ⟨v, hv, -⟩ := exists_ne (read s l) .null
    obtain ⟨L, callee, c, q, t, hmodes, hinst, hstate, hreturns, hshared, hregs⟩ :=
      exists_return (I := I) hdispatch (formalModes site.receiver.isSome modes) (site.formal i) v
    have hfinal := (h L callee c q t hmodes hinst hstate hreturns i g l hrefers).1 hmode
    rw [hregs, Function.update_self,
      read_of_returns hreturns (fun r hr => hno ⟨r, hr⟩) s.regs, hshared] at hfinal
    exact hv hfinal.symm
  refine ⟨fun hmode => ⟨hlocal hmode, fun j g' hlt hj hmodej heq => ?_⟩,
    fun hmode r hl j g' hj hmodej heq => ?_⟩
  · obtain ⟨r, rfl⟩ := hlocal hmode
    obtain ⟨hreg, hret⟩ := hrefers.register hcompiled
    obtain ⟨v, hnull, hv⟩ := exists_ne .null (s.regs r)
    obtain ⟨L, callee, c, q, t, hmodes, hinst, hstate, hreturns, -, hregs⟩ :=
      exists_return (I := I) hdispatch (formalModes site.receiver.isSome modes) (site.formal i) v
    have hfinal := (h L callee c q t hmodes hinst hstate hreturns i g _ hrefers).1 hmode
    have hmem : (site.formal j, r) ∈ copyOuts callee site.args :=
      (mem_copyOuts_site hmodes).mpr ⟨j, g', rfl, hj, heq.trans hreg, hmodej⟩
    obtain ⟨k, hle, hk, hlast⟩ := exists_last hmem
    have hne : k ≠ site.formal i :=
      Nat.ne_of_gt (Nat.lt_of_lt_of_le (formal_lt.mpr hlt) hle)
    have hread : read t.state (.register r) = entryRegs callee (site.args.map s.regs) k := by
      refine (regs_of_returns hreturns hret).trans ((copyBack_of_last hk hlast).trans ?_)
      rw [hregs, Function.update_of_ne hne]
    rw [hregs, Function.update_self, hread] at hfinal
    have hstart : entryRegs callee (site.args.map s.regs) k = .null ∨
        entryRegs callee (site.args.map s.regs) k = s.regs r :=
      entryRegs_of_arg s.regs (mem_copyOuts.mp hk).1
    rcases hstart with hentry | hentry
    · exact hnull (hfinal.symm.trans hentry)
    · exact hv (hfinal.symm.trans hentry)
  · subst hl
    obtain ⟨hreg, hret⟩ := hrefers.register hcompiled
    obtain ⟨v, hv, -⟩ := exists_ne (s.regs r) .null
    have hmem : (site.formal j, r) ∈ copyOuts
        (loadingCallee I (formalModes site.receiver.isSome modes) 0 .null) site.args :=
      (mem_copyOuts_site rfl).mpr ⟨j, g', rfl, hj, heq, hmodej⟩
    obtain ⟨k, -, hk, hlast⟩ := exists_last hmem
    obtain ⟨L, callee, c, q, t, hmodes, hinst, hstate, hreturns, -, hregs⟩ :=
      exists_return (I := I) hdispatch (formalModes site.receiver.isSome modes) k v
    have hsame : ∀ m, (m, r) ∈ copyOuts callee site.args ↔ (m, r) ∈ copyOuts
        (loadingCallee I (formalModes site.receiver.isSome modes) 0 .null) site.args := fun m => by
      rw [mem_copyOuts_site hmodes, mem_copyOuts_site rfl]
    have hread : read t.state (.register r) = v := by
      refine (regs_of_returns hreturns hret).trans ((copyBack_of_last ((hsame k).mpr hk)
        fun m hlt hmem => hlast m hlt ((hsame m).mp hmem)).trans ?_)
      rw [hregs, Function.update_self]
    have hkept := (h L callee c q t hmodes hinst hstate hreturns i g _ hrefers).2 hmode
    exact hv (hread.symm.trans hkept)

end

/-- A method of a class with a field `flags`, next to a function `update`. -/
def flagsCalls : CallContext Unit where
  toContext := Blocking.flagsContext
  funcs := fun name => if name = "update" then some 0 else none
  classCtx := none
  resolveClass := .empty

def flagsArgs : List (Actual Unit) := [.reference ⟨"flags", none, none, none⟩]

/-- `update(flags)`. -/
def updateSite : CallSite where
  code := [.inst (.getField 1 0 0)]
  target := .direct 0
  receiver := none
  passed := [⟨⟨[.inst (.getField 1 0 0)], 1, 2⟩, 0, 1⟩]
  ret := 2

/-- The state in which the flags are in a register. -/
def flagsLoaded : State := Blocking.flagsState.setReg 1 (.logic (.ones 8))

theorem update_compiled : flagsCalls.genCall flagsArgs 1 (.free "update") = some updateSite := rfl

theorem update_dispatches (s : State) : updateSite.Dispatches s := fun _ _ h => by cases h

end Eevee.Elab.CallSites
