/- Objects, collections and the instructions that read and write them. -/

import Mathlib.Logic.Function.Basic
import Eevee.Ir.Values

set_option autoImplicit false
set_option relaxedAutoImplicit false

namespace Eevee.Ir.Objects

open Eevee.Core.Logic
open Eevee.Ir.Values (MemoryDef memoryElement)

abbrev Reg := Nat

abbrev NetId := Nat

/-! ### Values -/

/-- A value of a register, a field, a static variable or an element. Handles are shared: copying
an `obj`, a `queue` or an `assoc` copies the reference. -/
inductive Val
  | null
  | logic (value : PackedVec)
  | str (text : String)
  | obj (id : Nat)
  | queue (id : Nat)
  | assoc (id : Nat)
  | event (id : Nat)
  deriving DecidableEq

/-- The key of an associative array. -/
inductive Key
  | int (value : Int)
  | str (text : String)
  | obj (id : Nat)
  | null
  deriving DecidableEq

structure ObjData where
  cls : Nat
  fields : List Val
  deriving DecidableEq

/-- Everything that handles refer to. The entries of an associative array have different keys; their
order is left open. -/
structure Heap where
  objs : List ObjData
  queues : List (List Val)
  assocs : List (List (Key × Val))

/-- The registers of the running frame and what all processes share. -/
structure State where
  regs : Reg → Val
  statics : Nat → Val
  nets : NetId → PackedVec
  heap : Heap

/-- The low 64 bits as a signed number, the top bit of a narrow vector being its sign. -/
def toI64 (v : PackedVec) : Int :=
  let raw := v.1.toU64 &&& wordMask v.width
  if v.width < 64 ∧ raw.getLsbD (v.width - 1) then (raw ||| ~~~ wordMask v.width).toInt
  else raw.toInt

/-- A null slot reads as zero; other handles are type errors. -/
def Val.asLogic : Val → Option PackedVec
  | .logic value => some value
  | .null => some (.zero 32)
  | _ => none

def valueToKey : Val → Key
  | .str text => .str text
  | .logic value => .int (toI64 value)
  | .obj id => .obj id
  | .null | .queue _ | .assoc _ | .event _ => .null

/-! ### Copies -/

def lookupEntry (entries : List (Key × Val)) (key : Key) : Option Val :=
  (entries.find? (·.1 = key)).map (·.2)

def insertEntry (entries : List (Key × Val)) (key : Key) (value : Val) : List (Key × Val) :=
  (key, value) :: entries.filter (·.1 ≠ key)

def Heap.addQueue (h : Heap) (values : List Val) : Heap × Val :=
  ({ h with queues := h.queues ++ [values] }, .queue h.queues.length)

def Heap.addAssoc (h : Heap) (entries : List (Key × Val)) : Heap × Val :=
  ({ h with assocs := h.assocs ++ [entries] }, .assoc h.assocs.length)

/-- A copy of each value, from left to right. -/
def copyEach (copy : Heap → Val → Option (Heap × Val)) : Heap → List Val → Option (Heap × List Val)
  | h, [] => some (h, [])
  | h, value :: values =>
    (copy h value).bind fun (h, value) =>
      (copyEach copy h values).map fun (h, values) => (h, value :: values)

/-- A copy across an assignment: arrays are copied with their elements, all other values keep their
identity. The fuel bounds the nesting; an array that contains itself has no copy. -/
def copyAt : Nat → Heap → Val → Option (Heap × Val)
  | 0, _, _ => none
  | fuel + 1, h, .queue id =>
    h.queues[id]?.bind fun values =>
      (copyEach (copyAt fuel) h values).map fun (h, values) => h.addQueue values
  | fuel + 1, h, .assoc id =>
    h.assocs[id]?.bind fun entries =>
      (copyEach (copyAt fuel) h (entries.map (·.2))).map fun (h, values) =>
        h.addAssoc ((entries.map (·.1)).zip values)
  | _ + 1, h, value => some (h, value)

/-- Nesting deeper than the number of arrays is a cycle. -/
def assignmentCopy (h : Heap) (value : Val) : Option (Heap × Val) :=
  copyAt (h.queues.length + h.assocs.length + 1) h value

/-! ### Instructions -/

inductive Inst
  | loadConst (dst : Reg) (value : Val)
  | mov (dst src : Reg)
  | assign (dst src : Reg)
  | netRead (dst : Reg) (net : NetId)
  | memoryRead (dst : Reg) (memory : MemoryDef) (index : Reg)
  | blockingWrite (net : NetId) (src : Reg)
  | blockingMemoryWrite (memory : MemoryDef) (index src : Reg)
  | getField (dst obj : Reg) (slot : Nat)
  | setField (obj : Reg) (slot : Nat) (src : Reg)
  | staticGet (dst : Reg) (id : Nat)
  | staticSet (id : Nat) (src : Reg)
  | indexGet (dst base idx : Reg)
  | indexSet (base idx src : Reg)

namespace State

variable (s : State)

def setReg (r : Reg) (value : Val) : State := { s with regs := Function.update s.regs r value }

def setStatic (id : Nat) (value : Val) : State :=
  { s with statics := Function.update s.statics id value }

def setNet (net : NetId) (value : PackedVec) : State :=
  { s with nets := Function.update s.nets net value }

def setHeap (h : Heap) : State := { s with heap := h }

end State

/-- Grows a queue up to an index and writes there. -/
def setElement (values : List Val) (i : Nat) (value : Val) : List Val :=
  if i < values.length then values.set i value
  else values ++ List.replicate (i - values.length) .null ++ [value]

/-- A field of an object with a slot; the fields are indexed unchecked. -/
def Heap.setField (h : Heap) (id slot : Nat) (value : Val) : Option Heap :=
  h.objs[id]?.bind fun data =>
    if slot < data.fields.length then
      some { h with objs := h.objs.set id { data with fields := data.fields.set slot value } }
    else none

def Heap.setElement (h : Heap) (id i : Nat) (value : Val) : Heap :=
  { h with queues := h.queues.modify id fun values => Objects.setElement values i value }

def Heap.setEntry (h : Heap) (id : Nat) (key : Key) (value : Val) : Heap :=
  { h with assocs := h.assocs.modify id fun entries => insertEntry entries key value }

/-- A negative index is far beyond what a queue can be resized to. -/
def queueIndex : Key → Option Nat
  | .int value => if 0 ≤ value then some value.toNat else none
  | _ => some 0

/-- An element or bit of a register's value; none where the interpreter panics. -/
def indexGet (s : State) (base idx : Val) : Option Val :=
  match base with
  | .logic value => idx.asLogic.map fun index => .logic (Inst.indexLogic value index)
  | .queue id => idx.asLogic.map fun index =>
    (s.heap.queues[id]?.bind (·[index.toU64]?)).getD .null
  | .assoc id => some ((s.heap.assocs[id]?.bind (lookupEntry · (valueToKey idx))).getD .null)
  | _ => some .null

/-- Writes an element into shared storage, or a bit into the register itself. -/
def indexSet (s : State) (base : Reg) (idx value : Val) : Option State :=
  match s.regs base with
  | .logic old =>
    match idx with
    | .logic index =>
      if index.isKnown ∧ index.toU64 < old.width then
        value.asLogic.map fun bits =>
          s.setReg base (.logic (old.setBit index.toU64 (bits.getBit 0)))
      else some s
    | _ => some s
  | .queue id => (queueIndex (valueToKey idx)).map fun i => s.setHeap (s.heap.setElement id i value)
  | .assoc id => some (s.setHeap (s.heap.setEntry id (valueToKey idx) value))
  | _ => some s

/-- One instruction; none where the interpreter panics. -/
def exec (s : State) : Inst → Option State
  | .loadConst dst value => some (s.setReg dst value)
  | .mov dst src => some (s.setReg dst (s.regs src))
  | .assign dst src => (assignmentCopy s.heap (s.regs src)).map fun (h, value) =>
    (s.setHeap h).setReg dst value
  | .netRead dst net => some (s.setReg dst (.logic (s.nets net)))
  | .memoryRead dst memory index => (s.regs index).asLogic.map fun index =>
    s.setReg dst (.logic (match memoryElement memory index with
      | some net => s.nets net
      | none => .x memory.elementWidth))
  | .blockingWrite net src => (s.regs src).asLogic.map fun value => s.setNet net value
  | .blockingMemoryWrite memory index src => (s.regs index).asLogic.bind fun index =>
    match memoryElement memory index with
    | some net => (s.regs src).asLogic.map fun value =>
      s.setNet net (value.resize memory.elementWidth false)
    | none => some s
  | .getField dst obj slot =>
    match s.regs obj with
    | .obj id => (s.heap.objs[id]?.bind (·.fields[slot]?)).map fun value => s.setReg dst value
    | _ => some (s.setReg dst .null)
  | .setField obj slot src => (assignmentCopy s.heap (s.regs src)).bind fun (h, value) =>
    match s.regs obj with
    | .obj id => (h.setField id slot value).map s.setHeap
    | _ => some (s.setHeap h)
  | .staticGet dst id => some (s.setReg dst (s.statics id))
  | .staticSet id src => (assignmentCopy s.heap (s.regs src)).map fun (h, value) =>
    (s.setHeap h).setStatic id value
  | .indexGet dst base idx => (indexGet s (s.regs base) (s.regs idx)).map fun value =>
    s.setReg dst value
  | .indexSet base idx src => (assignmentCopy s.heap (s.regs src)).bind fun (h, value) =>
    indexSet (s.setHeap h) base (s.regs idx) value

/-- A straight piece of code. -/
def execAll (s : State) : List Inst → Option State
  | [] => some s
  | i :: rest => (exec s i).bind (execAll · rest)

end Eevee.Ir.Objects
