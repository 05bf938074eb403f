/- What a blocking assignment writes, and what it is meant to write. -/

import Mathlib.Data.List.Basic
import Eevee.Elab.Resolution

set_option autoImplicit false
set_option relaxedAutoImplicit false

namespace Eevee.Elab.Assignments

open Eevee.Core.Logic
open Eevee.Ir.Values (MemoryDef memoryElement tryToU64)
open Eevee.Ir.Objects
open Eevee.Ir.Locations
open Eevee.Classes.Declarations
open Eevee.Elab.Names
open Eevee.Elab.Targets
open Eevee.Elab.Resolution (exec_getField genDecl_remote)

variable {E : Type} (ctx : Context E)

/-! ### Writes -/

/-- A value for a place, or no write at all. -/
abbrev Write := Option (Location × Val)

/-- What a place holds after a write. -/
def Write.at (w : Write) (l : Location) (old : Val) : Val :=
  match w with
  | some (place, value) => if l = place then value else old
  | none => old

/-- The places that a write brings about. -/
def Write.makes (w : Write) (l : Location) : Prop :=
  match w with
  | some (place, _) => Makes place l
  | none => False

/-- Registers of variables are visible, temporaries are not. -/
def Visible : Location → Prop
  | .register r => r < ctx.temps
  | _ => True

/-- Whether `t` is the state after a write: all other places keep their values, and no element or
entry is there that was not before and that the write does not bring about. With a value that is
written come the copies in `h` of what it refers to. -/
structure Performs (s : State) (h : Heap) (t : State) (w : Write) : Prop where
  places : ∀ l, Visible ctx l → Allocated s.heap l → read t l = w.at l (read s l)
  present : ∀ l, Visible ctx l → Allocated s.heap l →
    (Present t.heap l ↔ Present s.heap l ∨ w.makes l)
  copies : w.isSome = true → ∀ l, Allocated h l → ¬ Allocated s.heap l →
    read t l = read (s.setHeap h) l ∧ (Present t.heap l ↔ Present h l)

/-- The place is there and holds the value. -/
def Holds (s : State) (place : Location) (value : Val) : Prop :=
  read s place = value ∧ Present s.heap place

/-- Whether two writes have the same effect: they write the same, or what is there already. -/
def SameEffect (s : State) : Write → Write → Prop
  | none, none => True
  | some (place, value), none | none, some (place, value) => Holds s place value
  | some (place, value), some (place', value') =>
    (place = place' ∧ value = value') ∨ (Holds s place value ∧ Holds s place' value')

/-- A write to a place that exists and is visible. -/
structure Placed (s : State) (w : Write) : Prop where
  visible : ∀ place value, w = some (place, value) → Visible ctx place
  allocated : ∀ place value, w = some (place, value) → Allocated s.heap place

/-! ### What is meant -/

/-- The variable, net or memory that is assigned to; `nowhere` without an object. -/
inductive Base
  | nowhere
  | memory (m : MemoryDef)
  | at (l : Location)

def memoryOf : Decl → Option MemoryDef
  | .signal ⟨_, _, .memory elements left right width⟩ => some ⟨elements, left, right, width⟩
  | _ => none

def baseOf (s : State) (d : Decl) : Base :=
  match memoryOf d, ctx.place s d with
  | some m, _ => .memory m
  | none, some l => .at l
  | none, none => .nowhere

/-- The member of an object, or the static field that the object leads to. -/
def member (receiver : E) (name : String) (obj : Val) : Option Base :=
  ((ctx.receiverClass receiver).bind ctx.classes).bind fun info =>
    match info.fieldSlot name, info.staticFields name with
    | some (slot, _), _ =>
      match obj with
      | .obj id => some (.at (.field id slot))
      | _ => some .nowhere
    | none, some id => some (.at (.static id))
    | none, none => none

/-- A name stands for the innermost variable, or else for a memory or net of the module. -/
def declaredBase (name : String) : Option Decl :=
  if name = "this" then none
  else (ctx.env.anyVariable name).or ((ctx.env.memory name).or (ctx.env.net name))

/-- `Class::name` is a static field of the class; where no class has the name, the scope is a
package. -/
def scopedBase (name scope : String) : Option Decl :=
  match ctx.env.classStatics scope with
  | some _ => ctx.env.scopedWrite name scope
  | none => ctx.env.found name .package fun _ => true

/-- The storage that a left-hand side denotes; none where it denotes nothing. -/
def denotedBase (lhs : Lvalue E) (s : State) (obj : Val) : Option Base :=
  match lhs.scope, lhs.receiver with
  | some scope, _ => (scopedBase ctx lhs.name scope).map (baseOf ctx s)
  | none, some receiver => member ctx receiver lhs.name obj
  | none, none => (declaredBase ctx lhs.name).map (baseOf ctx s)

/-- The number that an index stands for; an unknown index stands for none. -/
def indexValue (idx : Val) : Option Nat := idx.asLogic.bind tryToU64

/-- A string with one character replaced. -/
def putChar (text : String) (i : Nat) (byte : PackedVec) : String :=
  String.ofList (text.toList.set i (Char.ofNat (byte.toU64 % 256)))

/-- Whether a key of an associative array is known. -/
def keyKnown : Val → Bool
  | .logic value => value.isKnown
  | _ => true

/-- The write to an element, bit or character of what a place holds; none where the value has the
wrong type. -/
def denotedPart (l : Location) (content idx value : Val) : Option Write :=
  match content with
  | .queue id => some ((indexValue idx).map fun i => (.element id i, value))
  | .assoc id => some (if keyKnown idx then some (.entry id (valueToKey idx), value) else none)
  | .logic old => value.asLogic.map fun bits => (indexValue idx).bind fun i =>
    if i < old.width then some (l, .logic (old.setBit i (bits.getBit 0))) else none
  | .str text => value.asLogic.map fun byte => (indexValue idx).bind fun i =>
    if i < text.length then some (l, .str (putChar text i byte)) else none
  | _ => some none

/-- The write to a whole place. -/
def wholeWrite (l : Location) (value : Val) : Option Write :=
  match l with
  | .net _ => value.asLogic.map fun bits => some (l, .logic bits)
  | _ => some (some (l, value))

/-- The write to an element of a memory. -/
def elementWrite (m : MemoryDef) (idx value : Val) : Option Write :=
  idx.asLogic.bind fun index =>
    match memoryElement m index with
    | some net => value.asLogic.map fun bits =>
      some (.net net, .logic (bits.resize m.elementWidth false))
    | none => some none

/-- The write to a whole base; none where it has no meaning. -/
def storeWhole (s : State) (value : Val) : Base → Option Write
  | .nowhere => some none
  | .memory _ => none
  | .at l => if Allocated s.heap l then wholeWrite l value else none

/-- The write to a part of a base. -/
def storePart (s : State) (idx value : Val) : Base → Option Write
  | .nowhere => some none
  | .memory m => elementWrite m idx value
  | .at l => if Allocated s.heap l then denotedPart l (read s l) idx value else none

/-- The write that an assignment is meant to make; none where it has no meaning. -/
def denoted (lhs : Lvalue E) (s : State) (obj idx value : Val) : Option Write :=
  (denotedBase ctx lhs s obj).bind
    (if lhs.index.isSome then storePart s idx value else storeWhole s value)

/-! ### What is reached -/

/-- The write to a declaration; none where the interpreter panics. -/
def reachedWhole (s : State) (d : Decl) (value : Val) : Option Write :=
  storeWhole s value (baseOf ctx s d)

/-- The write to an element or bit of a value in a register. Only a register of a variable keeps
a bit. -/
def reachedPart (inPlace : Option Location) (content idx value : Val) : Option Write :=
  match content with
  | .queue id => (queueIndex (valueToKey idx)).map fun i => some (.element id i, value)
  | .assoc id => some (some (.entry id (valueToKey idx), value))
  | .logic old =>
    match idx with
    | .logic index =>
      if index.isKnown ∧ index.toU64 < old.width then
        value.asLogic.map fun bits =>
          inPlace.map (·, .logic (old.setBit index.toU64 (bits.getBit 0)))
      else some none
    | _ => some none
  | _ => some none

/-- The write of a net that was read before the index was evaluated. -/
def reachedNet (id : NetId) (old : PackedVec) (idx value : Val) : Option Write :=
  match idx with
  | .logic index =>
    if index.isKnown ∧ index.toU64 < old.width then
      value.asLogic.map fun bits =>
        some (.net id, .logic (old.setBit index.toU64 (bits.getBit 0)))
    else some (some (.net id, .logic old))
  | _ => some (some (.net id, .logic old))

/-- What a declaration holds where it is the base of an index: a local variable is looked up when
the write happens (`s₂`), everything else before the index is evaluated (`s₁`). -/
def contentOf (s₁ s₂ : State) : Decl → Val
  | .variable .local v => s₂.regs v.place
  | .variable .field v =>
    match s₁.regs ctx.thisReg with
    | .obj id => read s₁ (.field id v.place)
    | _ => .null
  | .variable .static v | .variable .package v => s₁.statics v.place
  | .const name => ((ctx.env.consts name).map .logic).getD .null
  | _ => .null

def inPlace : Decl → Option Location
  | .variable .local v => some (.register v.place)
  | _ => none

def baseContent (s : State) : Base → Val
  | .at l => read s l
  | _ => .null

def reachedIndexed (s₁ s₂ : State) (d : Decl) (idx value : Val) : Option Write :=
  reachedPart (inPlace d) (contentOf ctx s₁ s₂ d) idx value

/-- The write that the lookups of the code generator lead to, between the state in which the
right-hand side and the receiver are evaluated and that in which the index is. -/
def reached (lhs : Lvalue E) (isNew : Bool) (s₁ s₂ : State) (obj idx value : Val) :
    Option Write :=
  match lhs.index with
  | none =>
    if isNew then (ctx.env.wholeWrite lhs.name).bind fun d => reachedWhole ctx s₂ d value
    else
      match lhs.scope, lhs.receiver with
      | some scope, _ => (ctx.env.scopedWrite lhs.name scope).bind fun d =>
        reachedWhole ctx s₂ d value
      | none, some receiver => (member ctx receiver lhs.name obj).bind (storeWhole s₂ value)
      | none, none => (ctx.env.wholeWrite lhs.name).bind fun d => reachedWhole ctx s₂ d value
  | some _ =>
    if isNew then (ctx.env.value lhs.name).bind fun d => reachedIndexed ctx s₁ s₂ d idx value
    else
      match ctx.indexedSignal lhs with
      | some (.memory elements left right width) =>
        elementWrite ⟨elements, left, right, width⟩ idx value
      | some (.net id _) => reachedNet id (s₁.nets id) idx value
      | none =>
        match lhs.scope, lhs.receiver with
        | some scope, _ => (ctx.env.scopedValue lhs.name scope).bind fun d =>
          reachedIndexed ctx s₁ s₂ d idx value
        | none, some receiver => (member ctx receiver lhs.name obj).bind fun base =>
          reachedPart none (baseContent s₁ base) idx value
        | none, none => (ctx.env.value lhs.name).bind fun d =>
          reachedIndexed ctx s₁ s₂ d idx value

/-! ### The phases of an assignment -/

/-- The code of an assignment cut in three: the right-hand side and the receiver, the base and the
index, the write. -/
structure Phases where
  value : Code
  index : Code
  write : Code
  src : Reg
  obj : Reg
  idx : Reg

def indexedPhases (value : Code) (src obj : Reg) (base : Generated) (index : E) : Phases :=
  let i := ctx.genExpr index base.next
  ⟨value, base.code ++ [.piece i], [.inst (.indexSet base.reg i.reg src)], src, obj, i.reg⟩

def valuePhases (lhs : Lvalue E) (p : Piece) : Option Phases :=
  match lhs.index with
  | some index =>
    match ctx.indexedSignal lhs with
    | some (.memory elements left right width) =>
      let i := ctx.genExpr index p.next
      some ⟨[.piece p], [.piece i],
        [.inst (.blockingMemoryWrite ⟨elements, left, right, width⟩ i.reg p.reg)], p.reg,
        ctx.thisReg, i.reg⟩
    | some (.net id _) =>
      let i := ctx.genExpr index (p.next + 1)
      some ⟨[.piece p], [.inst (.netRead p.next id), .piece i],
        [.inst (.indexSet p.next i.reg p.reg), .inst (.blockingWrite id p.next)], p.reg,
        ctx.thisReg, i.reg⟩
    | none =>
      match lhs.scope, lhs.receiver with
      | none, some receiver =>
        let o := ctx.genExpr receiver p.next
        (ctx.genMember receiver o.reg lhs.name o.next).map fun base =>
          indexedPhases ctx [.piece p, .piece o] p.reg o.reg base index
      | _, _ => (ctx.genBase lhs p.next).map fun base =>
        indexedPhases ctx [.piece p] p.reg ctx.thisReg base index
  | none =>
    match lhs.scope, lhs.receiver with
    | some scope, _ => ((ctx.env.scopedWrite lhs.name scope).bind (ctx.genWrite p.reg)).map
      fun write => ⟨[.piece p], [], write, p.reg, ctx.thisReg, p.reg⟩
    | none, some receiver =>
      let o := ctx.genExpr receiver p.next
      (((ctx.receiverClass receiver).bind ctx.classes).bind (·.fieldSlot lhs.name)).map
        fun (slot, _) => ⟨[.piece p, .piece o], [], [.inst (.setField o.reg slot p.reg)], p.reg,
          o.reg, p.reg⟩
    | none, none => (ctx.genAssign lhs.name p.reg).map fun write =>
      ⟨[.piece p], [], write, p.reg, ctx.thisReg, p.reg⟩

def newPhases (lhs : Lvalue E) (p : Piece) : Option Phases :=
  match lhs.index with
  | some index => (ctx.genRef lhs.name p.next).map fun base =>
    indexedPhases ctx [.piece p] p.reg ctx.thisReg base index
  | none => (ctx.genAssign lhs.name p.reg).map fun write =>
    ⟨[.piece p], [], write, p.reg, ctx.thisReg, p.reg⟩

/-- The class of the new object. -/
def newClassOf (lhs : Lvalue E) : Option ClassId :=
  match lhs.index with
  | some _ => ctx.collElemClass lhs.name
  | none => ctx.classOfName lhs.name

def phases (lhs : Lvalue E) (next : Reg) : Rhs E → Option Phases
  | .value e => valuePhases ctx lhs (ctx.genAssignmentRhs lhs e next)
  | .new args => (newClassOf ctx lhs).bind fun c =>
    newPhases ctx lhs (ctx.genConstruct c args next)

def Phases.code (p : Phases) : Code := p.value ++ (p.index ++ p.write)

def isNew : Rhs E → Bool
  | .new _ => true
  | .value _ => false

theorem code_indexedPhases (value : Code) (src obj : Reg) (base : Generated) (index : E) :
    (indexedPhases ctx value src obj base index).code =
      value ++ ctx.genIndexSet base index src := by
  simp [indexedPhases, Phases.code, Context.genIndexSet]

variable {ctx} {lhs : Lvalue E} {next : Reg}

theorem code_valuePhases (p : Piece) : (valuePhases ctx lhs p).map Phases.code =
    (ctx.genAssignLvalue lhs p.reg p.next).map (.piece p :: ·) := by
  obtain ⟨name, receiver, index, scope⟩ := lhs
  cases index with
  | none =>
    cases scope with
    | some scope =>
      simp only [valuePhases, Context.genAssignLvalue, Option.map_map]
      rfl
    | none =>
      cases receiver with
      | some receiver =>
        simp only [valuePhases, Context.genAssignLvalue, Option.map_map]
        rfl
      | none =>
        simp only [valuePhases, Context.genAssignLvalue, Option.map_map]
        rfl
  | some index =>
    rw [Context.genAssignLvalue_index rfl, valuePhases]
    cases hsignal : ctx.indexedSignal ⟨name, receiver, some index, scope⟩ with
    | some kind =>
      cases kind with
      | net id width =>
        rw [Context.genAssignIndexed_net hsignal]
        rfl
      | memory elements left right width =>
        rw [Context.genAssignIndexed_memory hsignal]
        rfl
    | none =>
      rw [Context.genAssignIndexed_base hsignal]
      cases scope with
      | some scope =>
        simp only [Option.map_map]
        exact congrArg (Option.map · _) (funext fun base => code_indexedPhases ctx _ _ _ base index)
      | none =>
        cases receiver with
        | some receiver =>
          simp only [Context.genBase, Context.genField, Option.map_map]
          exact congrArg (Option.map · _)
            (funext fun base => code_indexedPhases ctx _ _ _ base index)
        | none =>
          simp only [Option.map_map]
          exact congrArg (Option.map · _)
            (funext fun base => code_indexedPhases ctx _ _ _ base index)

/-- The code of an assignment is that of its phases. -/
theorem genBlocking_eq (rhs : Rhs E) :
    ctx.genBlocking lhs next rhs = (phases ctx lhs next rhs).map Phases.code := by
  cases rhs with
  | value e => exact (code_valuePhases _).symm
  | new args =>
    obtain ⟨name, receiver, index, scope⟩ := lhs
    cases index with
    | none =>
      simp only [Context.genBlocking, phases, newClassOf, newPhases, Option.map_bind]
      refine congrArg _ (funext fun c => ?_)
      simp only [Function.comp, Option.map_map]
      rfl
    | some index =>
      simp only [Context.genBlocking, phases, newClassOf, newPhases, Option.map_bind]
      refine congrArg _ (funext fun c => ?_)
      simp only [Function.comp, Option.map_map]
      exact congrArg (Option.map · _) (funext fun base =>
        (code_indexedPhases ctx [.piece (ctx.genConstruct c args next)] _ _ base index).symm)

end Eevee.Elab.Assignments
