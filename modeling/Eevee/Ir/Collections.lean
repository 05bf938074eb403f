/- The methods of queues and associative arrays, and the loop of a foreach over them. -/

import Mathlib.Data.List.Basic
import Mathlib.Data.String.Basic
import Mathlib.Logic.Function.Basic
import Mathlib.Tactic.Common
import Mathlib.Tactic.SplitIfs
import Eevee.Core.Numeric
import Eevee.Ir.Locations
import Eevee.Lib.Cursor

set_option autoImplicit false
set_option relaxedAutoImplicit false

namespace Eevee.Ir.Collections

open Eevee.Core.Alu
open Eevee.Core.Canonical
open Eevee.Core.Logic
open Eevee.Core.Numeric
open Eevee.Ir.Locations
open Eevee.Ir.Objects
open Eevee.Lib.Binary
open Eevee.Lib.Cursor

/-! ### Keys in order -/

def rank : Key → Nat
  | .int _ => 0
  | .str _ => 1
  | .obj _ => 2
  | .null => 3

/-- The order of the keys; objects are ordered by their addresses. -/
def keyCmp (addr : Nat → Nat) : Key → Key → Ordering
  | .int left, .int right => compare left right
  | .str left, .str right => compare left right
  | .obj left, .obj right => compare (addr left) (addr right)
  | left, right => compare (rank left) (rank right)

def keyLt (addr : Nat → Nat) (left right : Key) : Bool := keyCmp addr left right == .lt

def keyToValue : Key → Val
  | .int value => .logic ⟨fromI64 (BitVec.ofInt 64 value) 64, canonical_fromI64 _ _⟩
  | .str value => .str value
  | .obj value => .obj value
  | .null => .null

/-! ### Methods -/

inductive CollOp
  | pushBack | pushFront | popBack | popFront | size | insert | delete | exists | num
  | first | last | next | prev
  deriving DecidableEq

/-- A number as the methods return it: 32 bits. -/
def intVal (n : Nat) : Val := .logic (.fromU64 (BitVec.ofNat 64 n) 32)

def setQueue (s : State) (id : Nat) (values : List Val) : State :=
  s.setHeap { s.heap with queues := s.heap.queues.set id values }

def setAssoc (s : State) (id : Nat) (entries : List (Key × Val)) : State :=
  s.setHeap { s.heap with assocs := s.heap.assocs.set id entries }

/-- A step of a walk: the variable moves on and the method returns 1, or it returns 0. -/
def moveTo (s : State) (arg : Reg) : Option Val → State × Val
  | some value => (s.setReg arg value, intVal 1)
  | none => (s, intVal 0)

def queueMethod (s : State) (id : Nat) (q : List Val) (op : CollOp) (args : List Reg) :
    Option (State × Val) :=
  match op, args with
  | .pushBack, a :: _ => some (setQueue s id (q ++ [s.regs a]), .null)
  | .pushFront, a :: _ => some (setQueue s id (s.regs a :: q), .null)
  | .pushBack, [] | .pushFront, [] => some (s, .null)
  | .popBack, _ => some (setQueue s id q.dropLast, q.getLast?.getD .null)
  | .popFront, _ => some (setQueue s id q.tail, q.head?.getD .null)
  | .size, _ | .num, _ => some (s, intVal q.length)
  | .insert, a :: b :: _ => (s.regs a).asLogic.map fun i =>
    (setQueue s id (q.insertIdx (min i.toU64 q.length) (s.regs b)), .null)
  | .insert, _ => some (s, .null)
  | .delete, a :: _ => (s.regs a).asLogic.map fun i =>
    (if i.toU64 < q.length then setQueue s id (q.eraseIdx i.toU64) else s, .null)
  | .delete, [] => some (setQueue s id [], .null)
  | .first, arg :: _ => some (moveTo s arg (if q = [] then none else some (intVal 0)))
  | .last, arg :: _ =>
    some (moveTo s arg (if q = [] then none else some (intVal (q.length - 1))))
  | .next, arg :: _ => (s.regs arg).asLogic.map fun i =>
    let next := (i.toU64 + 1) % 2 ^ 64
    moveTo s arg (if next < q.length then some (intVal next) else none)
  | .prev, arg :: _ => (s.regs arg).asLogic.map fun i =>
    moveTo s arg (if i.toU64 > 0 ∧ i.toU64 ≤ q.length then some (intVal (i.toU64 - 1)) else none)
  | .first, [] | .last, [] | .next, [] | .prev, [] => some (s, intVal 0)
  | .exists, _ => some (s, .null)

def keysOf (entries : List (Key × Val)) : List Key := entries.map (·.1)

def assocMethod (addr : Nat → Nat) (s : State) (id : Nat) (entries : List (Key × Val))
    (op : CollOp) (args : List Reg) : State × Val :=
  match op, args with
  | .size, _ | .num, _ => (s, intVal entries.length)
  | .exists, a :: _ =>
    (s, intVal (if (lookupEntry entries (valueToKey (s.regs a))).isSome then 1 else 0))
  | .exists, [] => (s, intVal 0)
  | .delete, a :: _ =>
    (setAssoc s id (entries.filter (·.1 ≠ valueToKey (s.regs a))), .null)
  | .delete, [] => (setAssoc s id [], .null)
  | .first, arg :: _ => moveTo s arg ((least (keyLt addr) (keysOf entries)).map keyToValue)
  | .last, arg :: _ =>
    moveTo s arg ((least (fun a b => keyLt addr b a) (keysOf entries)).map keyToValue)
  | .next, arg :: _ =>
    moveTo s arg ((following (keyLt addr) (keysOf entries) (valueToKey (s.regs arg))).map
      keyToValue)
  | .prev, arg :: _ =>
    moveTo s arg ((following (fun a b => keyLt addr b a) (keysOf entries)
      (valueToKey (s.regs arg))).map keyToValue)
  | .first, [] | .last, [] | .next, [] | .prev, [] => (s, intVal 0)
  | .pushBack, _ | .pushFront, _ | .popBack, _ | .popFront, _ | .insert, _ => (s, .null)

/-- A built-in method of a collection; none where the interpreter panics. -/
def evalCollMethod (addr : Nat → Nat) (s : State) (base : Val) (op : CollOp) (args : List Reg) :
    Option (State × Val) :=
  match base with
  | .queue id => s.heap.queues[id]?.bind fun q => queueMethod s id q op args
  | .assoc id => s.heap.assocs[id]?.map fun entries => assocMethod addr s id entries op args
  | _ => some (s, .null)

def truthy : Val → Bool
  | .logic value => value.isTrue
  | .obj _ | .queue _ | .assoc _ | .event _ => true
  | .null => false
  | .str text => text ≠ ""

/-! ### Vectors as keys -/

theorem toNat_word (x : BitVec 64) : value x.getLsbD 64 = x.toNat := by
  have hcut : value x.toNat.testBit 64 = x.toNat % 2 ^ 64 := value_testBit _ _
  rw [Nat.mod_eq_of_lt x.isLt] at hcut
  exact hcut

theorem word_toU64 (v : PackedVec) (i : Nat) :
    v.1.toU64.getLsbD i = (decide (i < 64) && isOne v i) := by
  have htest : v.1.toU64.toNat.testBit i = (toNat v % 2 ^ 64).testBit i :=
    congrArg (Nat.testBit · i) (toU64_eq v)
  rw [Nat.testBit_mod_two_pow] at htest
  unfold Eevee.Core.Numeric.toNat at htest
  rw [testBit_value] at htest
  refine htest.trans ?_
  by_cases hi : i < v.width
  · simp [hi]
  · simp [hi, isOne_of_ge (Nat.le_of_not_lt hi)]

theorem ofNat_toNat (v : PackedVec) : BitVec.ofNat 64 (toNat v) = v.1.toU64 := by
  apply BitVec.eq_of_toNat_eq
  rw [BitVec.toNat_ofNat]
  exact (toU64_eq v).symm

/-- The sign bit of a narrow vector, repeated above its width. -/
theorem toInt_signed {v : PackedVec} (hw : v.width < 64) (hs : isOne v (v.width - 1) = true) :
    (v.1.toU64 ||| ~~~ wordMask v.width).toInt = (toNat v : Int) - 2 ^ v.width := by
  have hpos : 0 < v.width := by
    by_contra hzero
    rw [isOne_of_ge (by omega)] at hs
    cases hs
  have hbit : ∀ i < 64, (v.1.toU64 ||| ~~~ wordMask v.width).getLsbD i =
      (isOne v i || !decide (i < v.width)) := by
    intro i hi
    rw [BitVec.getLsbD_or, BitVec.getLsbD_not, getLsbD_wordMask, word_toU64]
    simp [hi]
  have hnat : (v.1.toU64 ||| ~~~ wordMask v.width).toNat = toNat v + (2 ^ 64 - 2 ^ v.width) := by
    rw [← toNat_word, value_ones (n := v.width) (fun i hi hlt => ?_) hw.le]
    · congr 1
      exact value_congr fun i hi => by rw [hbit i (by omega)]; simp [hi]
    · rw [hbit i hlt]
      simp [Nat.not_lt.mpr hi]
  have hhalf : 2 ^ v.width = 2 * 2 ^ (v.width - 1) := by
    rw [← Nat.pow_succ', Nat.succ_eq_add_one, Nat.sub_add_cancel hpos]
  have hge : 2 ^ (v.width - 1) ≤ toNat v := by
    have hsplit : toNat v = value (isOne v) (v.width - 1) +
        if isOne v (v.width - 1) then 2 ^ (v.width - 1) else 0 := by
      show value (isOne v) v.width = _
      conv_lhs => rw [← Nat.sub_add_cancel hpos]
      rfl
    rw [hsplit, if_pos hs]
    exact Nat.le_add_left _ _
  have hlt := toNat_lt v
  have hpow : 2 ^ v.width ≤ 2 ^ 63 := Nat.pow_le_pow_right Nat.two_pos (by omega)
  have hcast : (2 : Int) ^ v.width = ((2 ^ v.width : Nat) : Int) := by
    push_cast
    rfl
  rw [BitVec.toInt_eq_toNat_cond, hnat, if_neg (by omega), hcast]
  omega

/-- The conversion to 64 bits extends the sign of a narrow vector and cuts a wide one. -/
theorem toI64_eq (v : PackedVec) : toI64 v =
    if v.width < 64 then toInt v else (BitVec.ofNat 64 (toNat v)).toInt := by
  have hraw : v.1.toU64 &&& wordMask v.width = v.1.toU64 := by
    apply BitVec.eq_of_getLsbD_eq
    intro i hi
    rw [BitVec.getLsbD_and, getLsbD_wordMask, word_toU64]
    by_cases hw : i < v.width
    · simp [hi, hw]
    · simp [hw, isOne_of_ge (Nat.le_of_not_lt hw)]
  unfold toI64
  dsimp only
  rw [hraw]
  by_cases hw : v.width < 64
  · have hsign : v.1.toU64.getLsbD (v.width - 1) = isOne v (v.width - 1) := by
      rw [word_toU64]
      have hlt : v.width - 1 < 64 := by omega
      simp [hlt]
    have hlow : v.1.toU64.toNat = toNat v := by
      have hlt : toNat v < 2 ^ 64 :=
        Nat.lt_of_lt_of_le (toNat_lt v) (Nat.pow_le_pow_right Nat.two_pos hw.le)
      exact (toU64_eq v).trans (Nat.mod_eq_of_lt hlt)
    rw [hsign, if_pos hw]
    unfold toInt
    by_cases hs : isOne v (v.width - 1) = true
    · rw [if_pos ⟨hw, hs⟩, if_pos hs]
      exact toInt_signed hw hs
    · have hfit : 2 * v.1.toU64.toNat < 2 ^ 64 := by
        have hlt := toNat_lt v
        have hpow : 2 ^ v.width ≤ 2 ^ 63 := Nat.pow_le_pow_right Nat.two_pos (by omega)
        omega
      rw [if_neg fun hc => hs hc.2, if_neg hs, BitVec.toInt_eq_toNat_of_lt hfit, hlow]
  · rw [if_neg fun hc => hw hc.1, if_neg hw, ofNat_toNat]

/-- A key of 64 bits survives its way through a register. -/
theorem valueToKey_keyToValue {k : Key}
    (hk : ∀ z, k = .int z → -2 ^ 63 ≤ z ∧ z < 2 ^ 63) : valueToKey (keyToValue k) = k := by
  cases k with
  | int z =>
    obtain ⟨hlo, hhi⟩ := hk z rfl
    have hword : (fromI64 (BitVec.ofInt 64 z) 64).toU64 = BitVec.ofInt 64 z := by
      have hmask : wordMask 64 = BitVec.allOnes 64 := by decide
      have hones : ~~~(0 : BitVec 64) = BitVec.allOnes 64 := by decide
      show (BitVec.ofInt 64 z &&& wordMask 64) &&& ~~~(0 : BitVec 64) = _
      rw [hmask, hones, BitVec.and_allOnes, BitVec.and_allOnes]
    have hwide : ¬ PackedVec.width ⟨fromI64 (BitVec.ofInt 64 z) 64, canonical_fromI64 _ _⟩ < 64 :=
      Nat.lt_irrefl 64
    show Key.int (toI64 _) = _
    rw [toI64_eq, if_neg hwide, ofNat_toNat]
    show Key.int (fromI64 (BitVec.ofInt 64 z) 64).toU64.toInt = _
    rw [hword, BitVec.toInt_ofInt_eq_self (by decide) hlo hhi]
  | str text => rfl
  | obj id => rfl
  | null => rfl

/-- The keys are in a strict total order when different objects have different addresses. -/
theorem ordered_keyLt {addr : Nat → Nat} (haddr : Function.Injective addr) :
    Ordered (keyLt addr) := by
  have hlt : ∀ a b, keyLt addr a b = true ↔ keyCmp addr a b = .lt := fun a b => by
    unfold keyLt
    rw [beq_iff_eq]
  refine ⟨fun a => ?_, fun a b c => ?_, fun a b => ?_⟩
  · cases a <;> simp [keyLt, keyCmp, rank]
  · rw [hlt, hlt, hlt]
    cases a <;> cases b <;> cases c <;>
      simp only [keyCmp, rank, compare_lt_iff_lt] <;> first | omega | exact lt_trans
  · rw [hlt, hlt]
    cases a <;> cases b <;>
      simp only [keyCmp, rank, compare_lt_iff_lt, Key.int.injEq, Key.str.injEq, Key.obj.injEq]
    all_goals first | exact lt_trichotomy _ _ | simp | skip
    exact (lt_trichotomy _ _).imp id fun hor => hor.imp (fun heq => haddr heq) id

end Eevee.Ir.Collections
