/- The code of references and of the targets of assignments. -/

import Mathlib.Data.List.Basic
import Eevee.Elab.Names
import Eevee.Ir.Locations

set_option autoImplicit false
set_option relaxedAutoImplicit false

namespace Eevee.Elab.Targets

open Eevee.Core.Logic
open Eevee.Ir.Values (MemoryDef)
open Eevee.Ir.Objects
open Eevee.Ir.Locations
open Eevee.Classes.Declarations
open Eevee.Classes.Layout
open Eevee.Elab.Names

/-! ### Code -/

/-- The code of an expression that is compiled elsewhere: what running it does, the register that
then holds the value and the next free register. -/
structure Piece where
  run : State → Option State
  reg : Reg
  next : Reg

inductive Step
  | inst (i : Inst)
  | piece (p : Piece)

abbrev Code := List Step

def Step.run (s : State) : Step → Option State
  | .inst i => exec s i
  | .piece p => p.run s

def runCode (s : State) : Code → Option State
  | [] => some s
  | step :: rest => (step.run s).bind (runCode · rest)

theorem runCode_inst {s t : State} {i : Inst} (h : exec s i = some t) (rest : Code) :
    runCode s (.inst i :: rest) = runCode t rest := by
  show (exec s i).bind _ = _
  rw [h, Option.bind_some]

theorem runCode_piece {s t : State} {p : Piece} (h : p.run s = some t) (rest : Code) :
    runCode s (.piece p :: rest) = runCode t rest := by
  show (p.run s).bind _ = _
  rw [h, Option.bind_some]

theorem runCode_append (s : State) (code rest : Code) :
    runCode s (code ++ rest) = (runCode s code).bind (runCode · rest) := by
  induction code generalizing s with
  | nil => rfl
  | cons step code ih =>
    show (step.run s).bind (runCode · (code ++ rest)) = ((step.run s).bind (runCode · code)).bind _
    rw [Option.bind_assoc]
    exact congrArg _ (funext fun t => ih t)

theorem runCode_single (s : State) (i : Inst) : runCode s [.inst i] = exec s i := by
  show (exec s i).bind (fun t => some t) = exec s i
  cases exec s i <;> rfl

/-- What a piece leaves alone when registers up to `start` are in use: the temporaries between
`temps` and `start`. -/
structure Piece.Fresh (p : Piece) (temps start : Reg) : Prop where
  next : start ≤ p.next
  keeps : ∀ s t, p.run s = some t → ∀ r, temps ≤ r → r < start → t.regs r = s.regs r

/-! ### Left-hand sides -/

structure Lvalue (E : Type) where
  name : String
  receiver : Option E
  index : Option E
  scope : Option String

inductive Rhs (E : Type)
  | value (e : E)
  | new (args : List E)

/-- What the code generator knows. The expressions below a target are compiled by `genExpr` and its
companions, which start with the next free register and only write registers from there on or
variables. -/
structure Context (E : Type) where
  env : Env
  thisReg : Reg
  classes : ClassId → Option ClassInfo
  /-- The class of the object that an expression evaluates to. -/
  receiverClass : E → Option ClassId
  genExpr : E → Reg → Piece
  /-- A call of a method without arguments on the current object. -/
  genMethodOnThis : String → Reg → Piece
  /-- A right-hand side, resized for its target. -/
  genAssignmentRhs : Lvalue E → E → Reg → Piece
  /-- A new object, constructed. -/
  genConstruct : ClassId → List E → Reg → Piece
  /-- The registers of variables come before all others. -/
  temps : Reg
  this_lt : thisReg < temps
  locals_lt : ∀ v ∈ env.locals, v.place < temps
  fresh : ∀ e start, temps ≤ start → (genExpr e start).Fresh temps start
  fresh_this : ∀ m start, temps ≤ start → (genMethodOnThis m start).Fresh temps start
  fresh_rhs : ∀ lhs e start, temps ≤ start → (genAssignmentRhs lhs e start).Fresh temps start
  fresh_construct : ∀ c args start, temps ≤ start → (genConstruct c args start).Fresh temps start

/-- Code that leaves a value in a register. -/
structure Generated where
  code : Code
  reg : Reg
  next : Reg

namespace Context

variable {E : Type} (ctx : Context E)

def ofPiece (p : Piece) : Generated := ⟨[.piece p], p.reg, p.next⟩

/-! ### References -/

/-- The value of a declaration; none where the code generator panics. A local variable is read in
place. -/
def genDecl (next : Reg) : Decl → Option Generated
  | .this => some ⟨[], ctx.thisReg, next⟩
  | .variable .local v => some ⟨[], v.place, next⟩
  | .variable .field v => some ⟨[.inst (.getField next ctx.thisReg v.place)], next, next + 1⟩
  | .variable .static v | .variable .package v =>
    some ⟨[.inst (.staticGet next v.place)], next, next + 1⟩
  | .const name => (ctx.env.consts name).map fun value =>
    ⟨[.inst (.loadConst next (.logic value))], next, next + 1⟩
  | .method m => some (ofPiece (ctx.genMethodOnThis m.name next))
  | .function _ => none
  | .signal s =>
    match s.kind with
    | .net id _ => some ⟨[.inst (.netRead next id)], next, next + 1⟩
    | .memory _ _ _ _ => none

def genRef (name : String) (next : Reg) : Option Generated :=
  (ctx.env.value name).bind (ctx.genDecl next)

/-- A field of an evaluated object, or a static field by way of the object. -/
def genMember (receiver : E) (obj : Reg) (field : String) (next : Reg) : Option Generated :=
  ((ctx.receiverClass receiver).bind ctx.classes).bind fun info =>
    match info.fieldSlot field, info.staticFields field with
    | some (slot, _), _ => some ⟨[.inst (.getField next obj slot)], next, next + 1⟩
    | none, some id => some ⟨[.inst (.staticGet next id)], next, next + 1⟩
    | none, none => none

def genField (receiver : E) (field : String) (next : Reg) : Option Generated :=
  let p := ctx.genExpr receiver next
  (ctx.genMember receiver p.reg field p.next).map fun g => ⟨.piece p :: g.code, g.reg, g.next⟩

/-- `Class::field`. -/
def genStaticRef (className field : String) (next : Reg) : Option Generated :=
  match (ctx.env.found field .package fun _ => true).or <| (ctx.env.const field).or <|
      (ctx.env.scopedStatic field className fun _ => true).or (ctx.env.const className) with
  | some d => ctx.genDecl next d
  | none => ctx.genRef field (next + 1)

/-- The base of an indexed target. -/
def genBase (lhs : Lvalue E) (next : Reg) : Option Generated :=
  match lhs.scope, lhs.receiver with
  | some scope, _ => ctx.genStaticRef scope lhs.name next
  | none, some receiver => ctx.genField receiver lhs.name next
  | none, none => ctx.genRef lhs.name next

/-! ### Targets -/

/-- Writes a register to the whole of a declaration; none where the code generator panics. -/
def genWrite (src : Reg) : Decl → Option Code
  | .variable .local v => some [.inst (.assign v.place src)]
  | .variable .field v => some [.inst (.setField ctx.thisReg v.place src)]
  | .variable .static v | .variable .package v => some [.inst (.staticSet v.place src)]
  | .signal s =>
    match s.kind with
    | .net id _ => some [.inst (.blockingWrite id src)]
    | .memory _ _ _ _ => none
  | _ => none

/-- Assigns a register to a name. -/
def genAssign (name : String) (src : Reg) : Option Code :=
  (ctx.env.wholeWrite name).bind (ctx.genWrite src)

/-- Writes an element or bit of a base that is already evaluated. -/
def genIndexSet (base : Generated) (index : E) (src : Reg) : Code :=
  let i := ctx.genExpr index base.next
  base.code ++ [.piece i, .inst (.indexSet base.reg i.reg src)]

/-- The memory or net that an indexed target without receiver and scope writes to. -/
def indexedSignal (lhs : Lvalue E) : Option SignalKind :=
  if lhs.receiver.isNone ∧ lhs.scope.isNone then
    match ctx.env.lvalueIndexWidth lhs.name with
    | some (.signal s) => some s.kind
    | _ => none
  else none

def genAssignIndexed (lhs : Lvalue E) (index : E) (src next : Reg) : Option Code :=
  match ctx.indexedSignal lhs with
  | some (.memory elements left right width) =>
    let i := ctx.genExpr index next
    some [.piece i, .inst (.blockingMemoryWrite ⟨elements, left, right, width⟩ i.reg src)]
  | some (.net id _) =>
    let i := ctx.genExpr index (next + 1)
    some [.inst (.netRead next id), .piece i, .inst (.indexSet next i.reg src),
      .inst (.blockingWrite id next)]
  | none => (ctx.genBase lhs next).map fun base => ctx.genIndexSet base index src

def genAssignLvalue (lhs : Lvalue E) (src next : Reg) : Option Code :=
  match lhs.index, lhs.scope, lhs.receiver with
  | some index, _, _ => ctx.genAssignIndexed lhs index src next
  | none, some scope, _ => (ctx.env.scopedWrite lhs.name scope).bind (ctx.genWrite src)
  | none, none, some receiver =>
    let p := ctx.genExpr receiver next
    (((ctx.receiverClass receiver).bind ctx.classes).bind (·.fieldSlot lhs.name)).map
      fun (slot, _) => [.piece p, .inst (.setField p.reg slot src)]
  | none, none, none => ctx.genAssign lhs.name src

section

variable {ctx} {lhs : Lvalue E} {index : E} {src next : Reg}

theorem genAssignLvalue_index (h : lhs.index = some index) :
    ctx.genAssignLvalue lhs src next = ctx.genAssignIndexed lhs index src next := by
  rw [genAssignLvalue, h]

theorem indexedSignal_of_signal {sig : Signal} (hreceiver : lhs.receiver = none)
    (hscope : lhs.scope = none) (h : ctx.env.lvalueIndexWidth lhs.name = some (.signal sig)) :
    ctx.indexedSignal lhs = some sig.kind := by
  rw [indexedSignal, hreceiver, hscope, h]
  rfl

theorem genAssignIndexed_memory {elements : List Nat} {left right : Int} {width : Nat}
    (h : ctx.indexedSignal lhs = some (.memory elements left right width)) :
    ctx.genAssignIndexed lhs index src next = some [.piece (ctx.genExpr index next),
      .inst (.blockingMemoryWrite ⟨elements, left, right, width⟩ (ctx.genExpr index next).reg
        src)] := by
  rw [genAssignIndexed, h]

theorem genAssignIndexed_net {id width : Nat} (h : ctx.indexedSignal lhs = some (.net id width)) :
    ctx.genAssignIndexed lhs index src next = some [.inst (.netRead next id),
      .piece (ctx.genExpr index (next + 1)),
      .inst (.indexSet next (ctx.genExpr index (next + 1)).reg src),
      .inst (.blockingWrite id next)] := by
  rw [genAssignIndexed, h]

theorem genAssignIndexed_base (h : ctx.indexedSignal lhs = none) :
    ctx.genAssignIndexed lhs index src next =
      (ctx.genBase lhs next).map fun base => ctx.genIndexSet base index src := by
  rw [genAssignIndexed, h]

end

/-- The class of the objects that `new` makes for a name. -/
def classOfName (name : String) : Option ClassId :=
  match ctx.env.newClass name with
  | some (.variable _ v) => v.cls
  | _ => none

/-- The class of the elements of a collection. -/
def collElemClass (name : String) : Option ClassId :=
  match ctx.env.collection name with
  | some (.variable _ v) => v.coll.bind (·.elemClass)
  | _ => none

/-- `lhs = rhs`. A new object goes where the name alone leads. -/
def genBlocking (lhs : Lvalue E) (next : Reg) : Rhs E → Option Code
  | .value e =>
    let p := ctx.genAssignmentRhs lhs e next
    (ctx.genAssignLvalue lhs p.reg p.next).map (.piece p :: ·)
  | .new args =>
    match lhs.index with
    | some index => (ctx.collElemClass lhs.name).bind fun c =>
      let p := ctx.genConstruct c args next
      (ctx.genRef lhs.name p.next).map fun base =>
        .piece p :: ctx.genIndexSet base index p.reg
    | none => (ctx.classOfName lhs.name).bind fun c =>
      let p := ctx.genConstruct c args next
      (ctx.genAssign lhs.name p.reg).map (.piece p :: ·)

/-! ### Places -/

/-- Where a variable or net lives in a state; the fields in scope are those of the current
object. -/
def place (s : State) : Decl → Option Location
  | .variable .local v => some (.register v.place)
  | .variable .field v =>
    match s.regs ctx.thisReg with
    | .obj id => some (.field id v.place)
    | _ => none
  | .variable .static v | .variable .package v => some (.static v.place)
  | .signal s =>
    match s.kind with
    | .net id _ => some (.net id)
    | .memory _ _ _ _ => none
  | _ => none

theorem place_field {s : State} {v : Variable} {l : Location}
    (h : ctx.place s (.variable .field v) = some l) :
    ∃ id, s.regs ctx.thisReg = .obj id ∧ l = .field id v.place := by
  rw [place] at h
  split at h
  · rename_i id hthis
    cases h
    exact ⟨id, hthis, rfl⟩
  · cases h

theorem place_signal {s : State} {sig : Signal} {l : Location}
    (h : ctx.place s (.signal sig) = some l) :
    ∃ id width, sig.kind = .net id width ∧ l = .net id := by
  rw [place] at h
  split at h
  · rename_i id width hkind
    cases h
    exact ⟨id, width, hkind, rfl⟩
  · cases h

end Context

end Eevee.Elab.Targets
