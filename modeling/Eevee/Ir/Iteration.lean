/- Loops over collections: every index or key once, in order, and back to its place as an index. -/

import Mathlib.Data.List.Basic
import Mathlib.Data.List.Forall2
import Mathlib.Logic.Function.Basic
import Mathlib.Tactic.Common
import Mathlib.Tactic.SplitIfs
import Eevee.Ir.Collections

set_option autoImplicit false
set_option relaxedAutoImplicit false

namespace Eevee.Ir.Iteration

open Eevee.Core.Logic
open Eevee.Core.Numeric
open Eevee.Ir.Collections
open Eevee.Ir.Locations
open Eevee.Ir.Objects
open Eevee.Lib.Binary
open Eevee.Lib.Cursor

/-! ### The loop -/

/-- The code of a loop over a collection, with the code of its body as one step. -/
inductive LoopInst
  | collMethod (dst base : Reg) (op : CollOp) (args : List Reg)
  | branchFalse (cond : Reg) (target : Nat)
  | body
  | jump (target : Nat)

/-- A loop that calls one method and then another on the same variable until it returns 0. -/
def walkCode (base index hasItem : Reg) (start advance : CollOp) : List LoopInst :=
  [.collMethod hasItem base start [index], .branchFalse hasItem 5, .body,
    .collMethod hasItem base advance [index], .jump 1]

def foreachCode (base index hasItem : Reg) : List LoopInst :=
  walkCode base index hasItem .first .next

/-- Runs the loop from a position: the values of the variable each time the body starts, and the
state at the end. -/
def walk (addr : Nat → Nat) (code : List LoopInst) (index : Reg) (body : State → State) :
    Nat → Nat → State → Option (List Val × State)
  | 0, _, _ => none
  | fuel + 1, pc, s =>
    match code[pc]? with
    | none => some ([], s)
    | some (.collMethod dst base op args) =>
      (evalCollMethod addr s (s.regs base) op args).bind fun (t, value) =>
        walk addr code index body fuel (pc + 1) (t.setReg dst value)
    | some (.branchFalse cond target) =>
      walk addr code index body fuel (if truthy (s.regs cond) then pc + 1 else target) s
    | some .body =>
      (walk addr code index body fuel (pc + 1) (body s)).map fun (visited, t) =>
        (s.regs index :: visited, t)
    | some (.jump target) => walk addr code index body fuel target s

/-! ### What a walk does -/

/-- Stores into an element or an entry. -/
def store (s : State) (value : Val) : Location → State
  | .element id i => s.setHeap (s.heap.setElement id i value)
  | .entry id key => s.setHeap (s.heap.setEntry id key value)
  | _ => s

/-- As an index the value leads to one place of the collection, to read and to write. -/
def Designates (handle index : Val) (place : Location) : Prop :=
  ∀ t : State, indexGet t handle index = some (read t place) ∧
    ∀ base value, t.regs base = handle → indexSet t base index value = some (store t value place)

/-- The body keeps the collection, its handle and the variable of the loop. -/
structure Untouched (base index : Reg) (body : State → State) : Prop where
  handle : ∀ s, (body s).regs base = s.regs base
  loopVar : ∀ s, (body s).regs index = s.regs index
  queue : ∀ s id, s.regs base = .queue id → (body s).heap.queues[id]? = s.heap.queues[id]?
  assoc : ∀ s id, s.regs base = .assoc id → (body s).heap.assocs[id]? = s.heap.assocs[id]?

/-- The loop stops, and the variable led to these places, in this order, when the body ran. -/
def Walks (addr : Nat → Nat) (s : State) (base index : Reg) (body : State → State)
    (code : List LoopInst) (places : List Location) : Prop :=
  ∃ n visited t, (∀ fuel ≥ n, walk addr code index body fuel 0 s = some (visited, t)) ∧
    List.Forall₂ (Designates (s.regs base)) visited places

/-- Every loop over the collection whose body leaves it alone goes through these places, and the
loop with `last` and `prev` through the same backwards. -/
def Iterates (addr : Nat → Nat) (s : State) (base : Reg) (places : List Location) : Prop :=
  ∀ index hasItem body, index ≠ base → hasItem ≠ base → hasItem ≠ index →
    Untouched base index body →
    Walks addr s base index body (foreachCode base index hasItem) places ∧
      Walks addr s base index body (walkCode base index hasItem .last .prev) places.reverse

/-- How two methods move the variable: through encoded positions, as long as an invariant of the
state holds that neither the other registers nor the body break. -/
structure Moves {α : Type} (addr : Nat → Nat) (base index : Reg) (body : State → State)
    (start advance : CollOp) (first : Option α) (next : α → Option α) (enc : α → Val)
    (dom : α → Prop) (inv : State → Prop) : Prop where
  first_dom : ∀ a, first = some a → dom a
  next_dom : ∀ a b, dom a → next a = some b → dom b
  start : ∀ s, inv s → evalCollMethod addr s (s.regs base) start [index] =
    some (moveTo s index (first.map enc))
  advance : ∀ s a, inv s → dom a → s.regs index = enc a →
    evalCollMethod addr s (s.regs base) advance [index] = some (moveTo s index ((next a).map enc))
  setReg : ∀ s r value, r ≠ base → inv s → inv (s.setReg r value)
  kept : ∀ s, inv s → inv (body s)
  loopVar : ∀ s, (body s).regs index = s.regs index

theorem regs_setReg (s : State) (r r' : Reg) (value : Val) :
    (s.setReg r value).regs r' = if r' = r then value else s.regs r' := by
  show Function.update s.regs r value r' = _
  rw [Function.update_apply]

section

variable {α : Type} {addr : Nat → Nat} {base index hasItem : Reg} {body : State → State}
  {start advance : CollOp} {first : Option α} {next : α → Option α} {enc : α → Val}
  {dom : α → Prop} {inv : State → Prop}

/-- At the check of the loop: the variable holds the position, and there is one exactly when the
flag is set. -/
structure Checks (index hasItem : Reg) (enc : α → Val) (dom : α → Prop) (inv : State → Prop)
    (at_ : Option α) (s : State) : Prop where
  inv : inv s
  flag : truthy (s.regs hasItem) = at_.isSome
  here : ∀ a, at_ = some a → dom a ∧ s.regs index = enc a

/-- After a method has moved the variable the loop is at its check. -/
theorem checks_moveTo (h : Moves addr base index body start advance first next enc dom inv)
    (hbase : index ≠ base) (hflag : hasItem ≠ base) (hne : hasItem ≠ index) {s : State}
    (hs : inv s) {at_ : Option α} (hdom : ∀ a, at_ = some a → dom a) :
    Checks index hasItem enc dom inv at_
      ((moveTo s index (at_.map enc)).1.setReg hasItem (moveTo s index (at_.map enc)).2) := by
  cases at_ with
  | none =>
    refine ⟨h.setReg _ _ _ hflag hs, ?_, fun a ha => nomatch ha⟩
    rw [regs_setReg, if_pos rfl]
    show truthy (intVal 0) = false
    decide
  | some a =>
    refine ⟨h.setReg _ _ _ hflag (h.setReg _ _ _ hbase hs), ?_, fun b hb => ?_⟩
    · rw [regs_setReg, if_pos rfl]
      show truthy (intVal 1) = true
      decide
    · obtain rfl : a = b := Option.some.inj hb
      refine ⟨hdom a rfl, ?_⟩
      show ((s.setReg index (enc a)).setReg hasItem _).regs index = _
      rw [regs_setReg, if_neg (Ne.symm hne), regs_setReg, if_pos rfl]

/-- From its check on, the loop goes through what is left and stops. -/
theorem walk_visits (h : Moves addr base index body start advance first next enc dom inv)
    (hbase : index ≠ base) (hflag : hasItem ≠ base) (hne : hasItem ≠ index) {at_ : Option α}
    {l : List α} (hl : Visits next at_ l) {s : State}
    (hs : Checks index hasItem enc dom inv at_ s) :
    ∃ t, ∀ fuel ≥ 4 * l.length + 2,
      walk addr (walkCode base index hasItem start advance) index body fuel 1 s =
        some (l.map enc, t) := by
  induction hl generalizing s with
  | stop =>
    refine ⟨s, fun fuel hfuel => ?_⟩
    obtain ⟨fuel, rfl⟩ : ∃ f, fuel = f + 2 := ⟨fuel - 2, by simp at hfuel; omega⟩
    show walk _ _ _ _ (fuel + 1) (if truthy (s.regs hasItem) then 2 else 5) s = _
    rw [hs.flag]
    rfl
  | @visit a l rest ih =>
    obtain ⟨hdom, hindex⟩ := hs.here a rfl
    have hafter := checks_moveTo h hbase hflag hne (h.kept s hs.inv)
      (fun b hb => h.next_dom a b hdom hb)
    obtain ⟨t, ht⟩ := ih hafter
    refine ⟨t, fun fuel hfuel => ?_⟩
    rw [List.length_cons] at hfuel
    obtain ⟨fuel, rfl⟩ : ∃ f, fuel = f + 4 := ⟨fuel - 4, by omega⟩
    have hmethod := h.advance (body s) a (h.kept s hs.inv) hdom ((h.loopVar s).trans hindex)
    show walk _ _ _ _ (fuel + 3) (if truthy (s.regs hasItem) then 2 else 5) s = _
    rw [hs.flag]
    show (walk _ _ _ _ (fuel + 2) 3 (body s)).map _ = _
    have hnext : walk addr (walkCode base index hasItem start advance) index body (fuel + 2) 3
        (body s) = some (l.map enc, t) := by
      show (evalCollMethod addr (body s) ((body s).regs base) advance [index]).bind _ = _
      rw [hmethod, Option.bind_some]
      exact ht fuel (by omega)
    rw [hnext, Option.map_some, hindex]
    rfl

/-- The whole loop. -/
theorem walk_all (h : Moves addr base index body start advance first next enc dom inv)
    (hbase : index ≠ base) (hflag : hasItem ≠ base) (hne : hasItem ≠ index) {l : List α}
    (hl : Visits next first l) {s : State} (hs : inv s) :
    ∃ t, ∀ fuel ≥ 4 * l.length + 3,
      walk addr (walkCode base index hasItem start advance) index body fuel 0 s =
        some (l.map enc, t) := by
  obtain ⟨t, ht⟩ :=
    walk_visits h hbase hflag hne hl (checks_moveTo h hbase hflag hne hs h.first_dom)
  refine ⟨t, fun fuel hfuel => ?_⟩
  obtain ⟨fuel, rfl⟩ : ∃ f, fuel = f + 1 := ⟨fuel - 1, by omega⟩
  show (evalCollMethod addr s (s.regs base) start [index]).bind _ = _
  rw [h.start s hs, Option.bind_some]
  exact ht fuel (by omega)

end

/-! ### Associative arrays -/

theorem designates_entry {k : Key} (hk : ∀ z, k = .int z → -2 ^ 63 ≤ z ∧ z < 2 ^ 63) (id : Nat) :
    Designates (.assoc id) (keyToValue k) (.entry id k) := by
  intro t
  have hkey := valueToKey_keyToValue hk
  refine ⟨?_, fun base value hbase => ?_⟩
  · unfold indexGet
    rw [hkey]
    rfl
  · unfold indexSet
    rw [hbase, hkey]
    rfl

/-- The two walks over an associative array, for either direction of the order of its keys. -/
theorem moves_assoc {addr : Nat → Nat} {base index : Reg} {body : State → State}
    (hbody : Untouched base index body) (id : Nat) {entries : List (Key × Val)}
    (hkeys : ∀ k ∈ keysOf entries, ∀ z, k = .int z → -2 ^ 63 ≤ z ∧ z < 2 ^ 63)
    {lt : Key → Key → Bool} (hlt : Ordered lt) {start advance : CollOp}
    (hstart : ∀ s : State, assocMethod addr s id entries start [index] =
      moveTo s index ((least lt (keysOf entries)).map keyToValue))
    (hadvance : ∀ s : State, assocMethod addr s id entries advance [index] =
      moveTo s index ((following lt (keysOf entries) (valueToKey (s.regs index))).map keyToValue)) :
    Moves addr base index body start advance (least lt (keysOf entries))
      (following lt (keysOf entries)) keyToValue (· ∈ keysOf entries)
      (fun s => s.regs base = .assoc id ∧ s.heap.assocs[id]? = some entries) where
  first_dom a ha := (least_spec hlt ha).1
  next_dom a b _ hb := (List.mem_filter.mp (least_spec hlt hb).1).1
  start s hs := by
    unfold evalCollMethod
    rw [hs.1]
    dsimp only
    rw [hs.2, Option.map_some, hstart]
  advance s a hs ha hindex := by
    unfold evalCollMethod
    rw [hs.1]
    dsimp only
    rw [hs.2, Option.map_some, hadvance, hindex, valueToKey_keyToValue (hkeys a ha)]
  setReg s r value hr hs := ⟨by rw [regs_setReg, if_neg (Ne.symm hr)]; exact hs.1, hs.2⟩
  kept s hs := ⟨(hbody.handle s).trans hs.1, (hbody.assoc s id hs.1).trans hs.2⟩
  loopVar := hbody.loopVar

theorem forall₂_entries {id : Nat} {l : List Key}
    (hkeys : ∀ k ∈ l, ∀ z, k = .int z → -2 ^ 63 ≤ z ∧ z < 2 ^ 63) :
    List.Forall₂ (Designates (.assoc id)) (l.map keyToValue) (l.map (.entry id)) := by
  induction l with
  | nil => exact .nil
  | cons k l ih =>
    exact .cons (designates_entry (hkeys k List.mem_cons_self) id)
      (ih fun k' hk' => hkeys k' (List.mem_cons_of_mem _ hk'))

/-- A loop over an associative array goes through its keys in increasing order, each once. -/
theorem iterates_assoc {addr : Nat → Nat} (haddr : Function.Injective addr) {s : State}
    {base : Reg} {id : Nat} {entries : List (Key × Val)} (hbase : s.regs base = .assoc id)
    (hentries : s.heap.assocs[id]? = some entries)
    (hkeys : ∀ k ∈ keysOf entries, ∀ z, k = .int z → -2 ^ 63 ≤ z ∧ z < 2 ^ 63) :
    ∃ keys : List Key, keys.Pairwise (keyLt addr · · = true) ∧
      (∀ k, k ∈ keys ↔ k ∈ keysOf entries) ∧
      Iterates addr s base (keys.map (.entry id)) := by
  have hlt := ordered_keyLt haddr
  obtain ⟨keys, hvisits, hsorted, hmem⟩ := visits_least hlt (keysOf entries)
  obtain ⟨back, hback, hbackSorted, hbackMem⟩ := visits_least hlt.flip (keysOf entries)
  have hreverse : back = keys.reverse := by
    refine eq_of_ordered hlt.flip hbackSorted (List.pairwise_reverse.mpr hsorted) fun a => ?_
    rw [hbackMem, List.mem_reverse, hmem]
  refine ⟨keys, hsorted, hmem, fun index hasItem body hib hhb hhi hbody => ⟨?_, ?_⟩⟩
  · have hmoves : Moves addr base index body .first .next _ _ _ _ _ :=
      moves_assoc hbody id hkeys hlt (fun _ => rfl) fun _ => rfl
    obtain ⟨t, ht⟩ := walk_all hmoves hib hhb hhi hvisits ⟨hbase, hentries⟩
    refine ⟨_, _, t, ht, ?_⟩
    rw [hbase]
    exact forall₂_entries fun k hk => hkeys k ((hmem k).mp hk)
  · have hmoves : Moves addr base index body .last .prev _ _ _ _ _ :=
      moves_assoc hbody id hkeys hlt.flip (fun _ => rfl) fun _ => rfl
    obtain ⟨t, ht⟩ := walk_all hmoves hib hhb hhi hback ⟨hbase, hentries⟩
    refine ⟨_, _, t, ht, ?_⟩
    rw [hbase, hreverse, ← List.map_reverse]
    exact forall₂_entries fun k hk => hkeys k ((hmem k).mp (List.mem_reverse.mp hk))

/-! ### Queues -/

theorem toU64_intVal {i : Nat} (hi : i < 2 ^ 32) :
    (PackedVec.fromU64 (BitVec.ofNat 64 i) 32).toU64 = i := by
  have hlt : i < 2 ^ 64 := Nat.lt_trans hi (by decide)
  rw [toU64_eq, toNat_fromU64, BitVec.toNat_ofNat, Nat.mod_eq_of_lt hlt, Nat.mod_eq_of_lt hi,
    Nat.mod_eq_of_lt hlt]

/-- A number that a method has returned is a 32-bit signed number as a key. -/
theorem toI64_intVal (n : Nat) :
    toI64 (PackedVec.fromU64 (BitVec.ofNat 64 n) 32) < 2 ^ 31 := by
  have hlt := toNat_lt (PackedVec.fromU64 (BitVec.ofNat 64 n) 32)
  rw [toI64_eq]
  unfold toInt
  rw [PackedVec.width_fromU64, if_pos (by decide)] at *
  by_cases hs : isOne (PackedVec.fromU64 (BitVec.ofNat 64 n) 32) (32 - 1) = true
  · rw [if_pos hs]
    omega
  · rw [if_neg hs]
    have hsplit : toNat (PackedVec.fromU64 (BitVec.ofNat 64 n) 32) =
        value (isOne (PackedVec.fromU64 (BitVec.ofNat 64 n) 32)) 31 +
          if isOne (PackedVec.fromU64 (BitVec.ofNat 64 n) 32) 31 then 2 ^ 31 else 0 := by
      unfold Eevee.Core.Numeric.toNat
      rw [PackedVec.width_fromU64]
      rfl
    have hlow := value_lt (isOne (PackedVec.fromU64 (BitVec.ofNat 64 n) 32)) 31
    rw [if_neg hs] at hsplit
    omega

theorem toI64_small {i : Nat} (hi : i < 2 ^ 31) :
    toI64 (PackedVec.fromU64 (BitVec.ofNat 64 i) 32) = i := by
  have hnat : toNat (PackedVec.fromU64 (BitVec.ofNat 64 i) 32) = i := by
    rw [toNat_fromU64, BitVec.toNat_ofNat]
    omega
  rw [toI64_eq, PackedVec.width_fromU64, if_pos (by decide)]
  unfold toInt
  have hs : isOne (PackedVec.fromU64 (BitVec.ofNat 64 i) 32) (32 - 1) = false := by
    by_contra hc
    have hone := Bool.eq_true_of_not_eq_false hc
    have htest : (toNat (PackedVec.fromU64 (BitVec.ofNat 64 i) 32)).testBit 31 = true := by
      unfold Eevee.Core.Numeric.toNat
      rw [testBit_value, PackedVec.width_fromU64]
      simpa using hone
    rw [hnat, Nat.testBit_lt_two_pow hi] at htest
    cases htest
  rw [PackedVec.width_fromU64, hs, hnat]
  rfl

theorem queueIndex_int (z : Int) :
    queueIndex (.int z) = if 0 ≤ z then some z.toNat else none := rfl

theorem designates_element {i : Nat} (hi : i < 2 ^ 31) (id : Nat) :
    Designates (.queue id) (intVal i) (.element id i) := by
  intro t
  refine ⟨?_, fun base value hbase => ?_⟩
  · show some ((t.heap.queues[id]?.bind (·[(PackedVec.fromU64 (BitVec.ofNat 64 i) 32).toU64]?)).getD
      .null) = _
    rw [toU64_intVal (Nat.lt_trans hi (by decide))]
    rfl
  · have hkey : valueToKey (intVal i) = .int i := congrArg Key.int (toI64_small hi)
    unfold indexSet
    rw [hbase, hkey]
    have hindex : queueIndex (.int i) = some i := by
      rw [queueIndex_int, if_pos (Int.natCast_nonneg i), Int.toNat_natCast]
    dsimp only
    rw [hindex]
    rfl

/-- No number that a method returns leads to the element 2 ^ 31 when it is written. -/
theorem not_designates_high (n id : Nat) :
    ¬ Designates (.queue id) (intVal n) (.element id (2 ^ 31)) := by
  intro h
  have hset := (h ⟨fun _ => .queue id, fun _ => .null, fun _ => .zero 1,
    ⟨[], List.replicate (id + 1) [], []⟩⟩).2 0 .null rfl
  have hlow := toI64_intVal n
  have hkey : valueToKey (intVal n) = .int (toI64 (.fromU64 (BitVec.ofNat 64 n) 32)) := rfl
  unfold indexSet at hset
  dsimp only at hset
  rw [hkey, queueIndex_int] at hset
  split_ifs at hset with hneg
  · generalize hm : (toI64 (.fromU64 (BitVec.ofNat 64 n) 32)).toNat = m at hset
    have hqueues := congrArg (fun s : State => s.heap.queues[id]?.map List.length)
      (Option.some.inj hset)
    have hlen : ∀ k : Nat, (Heap.setElement ⟨[], List.replicate (id + 1) [], []⟩ id k
        Val.null).queues[id]?.map List.length = some (k + 1) := by
      intro k
      unfold Heap.setElement
      rw [List.getElem?_modify]
      simp [Objects.setElement]
    have hsame := (hlen m).symm.trans (hqueues.trans (hlen (2 ^ 31)))
    have hm' := Option.some.inj hsame
    omega
  · cases hset

/-- The walk upwards through the indices below `n`. -/
theorem visits_up (n : Nat) {i : Nat} (hi : i ≤ n) :
    Visits (fun j => if j + 1 < n then some (j + 1) else none) (if i < n then some i else none)
      (List.range' i (n - i)) := by
  obtain ⟨d, rfl⟩ := Nat.exists_eq_add_of_le hi
  induction d generalizing i with
  | zero =>
    rw [if_neg (by omega), Nat.add_sub_cancel_left]
    exact .stop
  | succ d ih =>
    have hrest := @ih (i + 1) (by omega)
    rw [show i + 1 + d = i + (d + 1) by omega, show i + (d + 1) - (i + 1) = d by omega] at hrest
    rw [if_pos (by omega), Nat.add_sub_cancel_left, List.range'_succ]
    exact .visit hrest

/-- The walk downwards from the last index. -/
theorem visits_down (n : Nat) :
    Visits (fun j => if j > 0 then some (j - 1) else none) (if n = 0 then none else some (n - 1))
      (List.range n).reverse := by
  induction n with
  | zero => exact .stop
  | succ n ih =>
    rw [if_neg (Nat.succ_ne_zero n), List.range_succ, List.reverse_append]
    refine .visit ?_
    rw [Nat.add_sub_cancel]
    by_cases hn : n = 0
    · subst hn
      exact .stop
    · rw [if_neg hn] at ih
      rw [if_pos (Nat.pos_of_ne_zero hn)]
      exact ih

theorem moves_queue_up {addr : Nat → Nat} {base index : Reg} {body : State → State}
    (hbody : Untouched base index body) (id : Nat) {q : List Val} (hq : q.length ≤ 2 ^ 32) :
    Moves addr base index body .first .next (if 0 < q.length then some 0 else none)
      (fun j => if j + 1 < q.length then some (j + 1) else none) intVal (· < q.length)
      (fun s => s.regs base = .queue id ∧ s.heap.queues[id]? = some q) where
  first_dom a ha := by
    split_ifs at ha with hpos
    obtain rfl := Option.some.inj ha
    exact hpos
  next_dom a b _ hb := by
    split_ifs at hb with hlt
    obtain rfl := Option.some.inj hb
    exact hlt
  start s hs := by
    unfold evalCollMethod
    rw [hs.1]
    dsimp only
    rw [hs.2, Option.bind_some]
    unfold queueMethod
    cases q <;> rfl
  advance s a hs ha hindex := by
    have hlow : a < 2 ^ 32 := Nat.lt_of_lt_of_le ha hq
    have hnext : (a + 1) % 2 ^ 64 = a + 1 := Nat.mod_eq_of_lt (by omega)
    unfold evalCollMethod
    rw [hs.1]
    dsimp only
    rw [hs.2, Option.bind_some]
    unfold queueMethod
    dsimp only
    rw [hindex]
    show some (moveTo s index (if ((PackedVec.fromU64 (BitVec.ofNat 64 a) 32).toU64 + 1) % 2 ^ 64 <
      q.length then some (intVal (((PackedVec.fromU64 (BitVec.ofNat 64 a) 32).toU64 + 1) % 2 ^ 64))
      else none)) = _
    rw [toU64_intVal hlow, hnext]
    split_ifs <;> rfl
  setReg s r value hr hs := ⟨by rw [regs_setReg, if_neg (Ne.symm hr)]; exact hs.1, hs.2⟩
  kept s hs := ⟨(hbody.handle s).trans hs.1, (hbody.queue s id hs.1).trans hs.2⟩
  loopVar := hbody.loopVar

theorem moves_queue_down {addr : Nat → Nat} {base index : Reg} {body : State → State}
    (hbody : Untouched base index body) (id : Nat) {q : List Val} (hq : q.length ≤ 2 ^ 32) :
    Moves addr base index body .last .prev (if q.length = 0 then none else some (q.length - 1))
      (fun j => if j > 0 then some (j - 1) else none) intVal (· < q.length)
      (fun s => s.regs base = .queue id ∧ s.heap.queues[id]? = some q) where
  first_dom a ha := by
    split_ifs at ha with hzero
    obtain rfl := Option.some.inj ha
    omega
  next_dom a b ha hb := by
    split_ifs at hb with hpos
    obtain rfl := Option.some.inj hb
    omega
  start s hs := by
    unfold evalCollMethod
    rw [hs.1]
    dsimp only
    rw [hs.2, Option.bind_some]
    unfold queueMethod
    cases q <;> rfl
  advance s a hs ha hindex := by
    have hlow : a < 2 ^ 32 := Nat.lt_of_lt_of_le ha hq
    unfold evalCollMethod
    rw [hs.1]
    dsimp only
    rw [hs.2, Option.bind_some]
    unfold queueMethod
    dsimp only
    rw [hindex]
    show some (moveTo s index (if (PackedVec.fromU64 (BitVec.ofNat 64 a) 32).toU64 > 0 ∧
      (PackedVec.fromU64 (BitVec.ofNat 64 a) 32).toU64 ≤ q.length then
      some (intVal ((PackedVec.fromU64 (BitVec.ofNat 64 a) 32).toU64 - 1)) else none)) = _
    have hle : (a > 0 ∧ a ≤ q.length) ↔ a > 0 := and_iff_left (Nat.le_of_lt ha)
    rw [toU64_intVal hlow]
    simp only [hle]
    split_ifs <;> rfl
  setReg s r value hr hs := ⟨by rw [regs_setReg, if_neg (Ne.symm hr)]; exact hs.1, hs.2⟩
  kept s hs := ⟨(hbody.handle s).trans hs.1, (hbody.queue s id hs.1).trans hs.2⟩
  loopVar := hbody.loopVar

theorem forall₂_elements {id : Nat} {l : List Nat} (hl : ∀ i ∈ l, i < 2 ^ 31) :
    List.Forall₂ (Designates (.queue id)) (l.map intVal) (l.map (.element id)) := by
  induction l with
  | nil => exact .nil
  | cons i l ih =>
    exact .cons (designates_element (hl i List.mem_cons_self) id)
      (ih fun j hj => hl j (List.mem_cons_of_mem _ hj))

/-- A loop over a queue of up to 2 ^ 31 elements goes through its indices. -/
theorem iterates_queue {addr : Nat → Nat} {s : State} {base : Reg} {id : Nat} {q : List Val}
    (hbase : s.regs base = .queue id) (hq : s.heap.queues[id]? = some q)
    (hlen : q.length ≤ 2 ^ 31) :
    Iterates addr s base ((List.range q.length).map (.element id)) := by
  have hlong : q.length ≤ 2 ^ 32 := Nat.le_trans hlen (by decide)
  intro index hasItem body hib hhb hhi hbody
  have hup := visits_up q.length (Nat.zero_le q.length)
  rw [Nat.sub_zero, ← List.range_eq_range'] at hup
  have hmoves : Moves addr base index body .first .next _ _ _ _ _ := moves_queue_up hbody id hlong
  have hmoves' : Moves addr base index body .last .prev _ _ _ _ _ := moves_queue_down hbody id hlong
  obtain ⟨t, ht⟩ := walk_all hmoves hib hhb hhi hup ⟨hbase, hq⟩
  obtain ⟨t', ht'⟩ := walk_all hmoves' hib hhb hhi (visits_down q.length) ⟨hbase, hq⟩
  refine ⟨⟨_, _, t, ht, ?_⟩, ⟨_, _, t', ht', ?_⟩⟩
  · rw [hbase]
    exact forall₂_elements fun i hi => Nat.lt_of_lt_of_le (List.mem_range.mp hi) hlen
  · rw [hbase, ← List.map_reverse]
    exact forall₂_elements fun i hi =>
      Nat.lt_of_lt_of_le (List.mem_range.mp (List.mem_reverse.mp hi)) hlen

/-- Whatever the length of the queue, the variable only ever holds numbers of the methods. -/
theorem visited_numbers {addr : Nat → Nat} {base index hasItem : Reg} {body : State → State}
    (hib : index ≠ base) (hhb : hasItem ≠ base) (hhi : hasItem ≠ index)
    (hbody : Untouched base index body) (id : Nat) (q : List Val) (fuel : Nat) {s t : State}
    {visited : List Val} (hs : s.regs base = .queue id ∧ s.heap.queues[id]? = some q)
    (hnumber : truthy (s.regs hasItem) = true → ∃ n, s.regs index = intVal n)
    (h : walk addr (foreachCode base index hasItem) index body fuel 1 s = some (visited, t)) :
    ∀ v ∈ visited, ∃ n, v = intVal n := by
  induction fuel using Nat.strong_induction_on generalizing s visited with
  | _ fuel ih =>
    by_cases hf : truthy (s.regs hasItem) = true
    · rcases fuel with _ | _ | _ | _ | fuel
      · cases h
      · simp [walk, foreachCode, walkCode] at h
      · simp [walk, foreachCode, walkCode, hf] at h
      · simp [walk, foreachCode, walkCode, hf] at h
      · obtain ⟨n, hn⟩ := hnumber hf
        have hbase : (body s).regs base = .queue id := (hbody.handle s).trans hs.1
        have hindex : (body s).regs index = intVal n := (hbody.loopVar s).trans hn
        have hqueue := (hbody.queue s id hs.1).trans hs.2
        have hbodyRun : (walk addr (foreachCode base index hasItem) index body (fuel + 2) 3
            (body s)).map (fun r => (s.regs index :: r.1, r.2)) = some (visited, t) := by
          have hcheck : walk addr (foreachCode base index hasItem) index body (fuel + 3)
              (if truthy (s.regs hasItem) then 2 else 5) s = some (visited, t) := h
          rw [if_pos hf] at hcheck
          exact hcheck
        obtain ⟨⟨rest, t'⟩, hrest, heq⟩ := Option.map_eq_some_iff.mp hbodyRun
        obtain ⟨rfl, rfl⟩ := Prod.mk.inj heq
        have hmethod : (evalCollMethod addr (body s) ((body s).regs base) .next [index]).bind
            (fun r => walk addr (foreachCode base index hasItem) index body fuel 1
              (r.1.setReg hasItem r.2)) = some (rest, t') := hrest
        have hnext : ∃ moved : Option Nat,
            evalCollMethod addr (body s) ((body s).regs base) .next [index] =
              some (moveTo (body s) index (moved.map intVal)) := by
          unfold evalCollMethod
          rw [hbase]
          dsimp only
          rw [hqueue, Option.bind_some]
          unfold queueMethod
          dsimp only
          rw [hindex]
          by_cases hlt : ((PackedVec.fromU64 (BitVec.ofNat 64 n) 32).toU64 + 1) % 2 ^ 64 < q.length
          · exact ⟨some _, congrArg (fun o => some (moveTo (body s) index o)) (if_pos hlt)⟩
          · exact ⟨none, congrArg (fun o => some (moveTo (body s) index o)) (if_neg hlt)⟩
        obtain ⟨moved, hmoved⟩ := hnext
        rw [hmoved, Option.bind_some] at hmethod
        have htail := ih fuel (by omega) (s := (moveTo (body s) index (moved.map intVal)).1.setReg
          hasItem (moveTo (body s) index (moved.map intVal)).2) ?_ ?_ hmethod
        · intro v hv
          rcases List.mem_cons.mp hv with rfl | hv'
          · exact ⟨n, hn⟩
          · exact htail v hv'
        · cases moved with
          | none => exact ⟨by rw [regs_setReg, if_neg (Ne.symm hhb)]; exact hbase, hqueue⟩
          | some m =>
            refine ⟨?_, hqueue⟩
            rw [regs_setReg, if_neg (Ne.symm hhb)]
            show ((body s).setReg index _).regs base = _
            rw [regs_setReg, if_neg (Ne.symm hib)]
            exact hbase
        · intro _
          rw [regs_setReg, if_neg (Ne.symm hhi)]
          cases moved with
          | none => exact ⟨n, hindex⟩
          | some m =>
            refine ⟨m, ?_⟩
            show ((body s).setReg index _).regs index = _
            rw [regs_setReg, if_pos rfl]
    · rcases fuel with _ | _ | fuel
      · cases h
      · simp [walk, foreachCode, walkCode] at h
      · have hend : visited = [] := by
          simp [walk, foreachCode, walkCode, hf] at h
          exact h.1
        rw [hend]
        exact fun v hv => absurd hv List.not_mem_nil

/-- A loop over a queue goes through all its elements if and only if there are at most 2 ^ 31. -/
theorem iterates_queue_iff {addr : Nat → Nat} {s : State} {base : Reg} {id : Nat} {q : List Val}
    (hbase : s.regs base = .queue id) (hq : s.heap.queues[id]? = some q) :
    Iterates addr s base ((List.range q.length).map (.element id)) ↔ q.length ≤ 2 ^ 31 := by
  refine ⟨fun h => ?_, iterates_queue hbase hq⟩
  by_contra hlong
  have hbody : Untouched base (base + 1) fun s => s :=
    ⟨fun _ => rfl, fun _ => rfl, fun _ _ _ => rfl, fun _ _ _ => rfl⟩
  have hib : base + 1 ≠ base := Nat.succ_ne_self base
  have hhi : base + 2 ≠ base + 1 := Nat.succ_ne_self (base + 1)
  have hhb : base + 2 ≠ base := (Nat.lt_add_of_pos_right Nat.two_pos).ne'
  obtain ⟨⟨n, visited, t, hrun, hplaces⟩, -⟩ := h (base + 1) (base + 2) (fun s => s) hib hhb hhi
    hbody
  have hlen : visited.length = q.length := by
    rw [hplaces.length_eq, List.length_map, List.length_range]
  have hindex : 2 ^ 31 < visited.length := by omega
  have hdesignates := (List.forall₂_iff_get.mp hplaces).2 (2 ^ 31) hindex
    (by rw [List.length_map, List.length_range]; omega)
  rw [List.get_eq_getElem, List.get_eq_getElem, List.getElem_map, List.getElem_range, hbase]
    at hdesignates
  have hnumbers : ∀ v ∈ visited, ∃ m, v = intVal m := by
    have hfirst : (evalCollMethod addr s (s.regs base) .first [base + 1]).bind
        (fun r => walk addr (foreachCode base (base + 1) (base + 2)) (base + 1) (fun s => s) n 1
          (r.1.setReg (base + 2) r.2)) = some (visited, t) := hrun (n + 1) (by omega)
    have hne : q ≠ [] := by
      rintro rfl
      exact hlong (Nat.zero_le _)
    have hmethod : evalCollMethod addr s (s.regs base) .first [base + 1] =
        some (s.setReg (base + 1) (intVal 0), intVal 1) := by
      unfold evalCollMethod
      rw [hbase]
      dsimp only
      rw [hq, Option.bind_some]
      unfold queueMethod
      dsimp only
      rw [if_neg hne]
      rfl
    rw [hmethod, Option.bind_some] at hfirst
    refine visited_numbers hib hhb hhi hbody id q n
      (s := (s.setReg (base + 1) (intVal 0)).setReg (base + 2) (intVal 1)) ⟨?_, hq⟩
      (fun _ => ?_) hfirst
    · show ((s.setReg _ _).setReg _ _).regs base = _
      rw [regs_setReg, if_neg hhb.symm, regs_setReg, if_neg hib.symm]
      exact hbase
    · refine ⟨0, ?_⟩
      show ((s.setReg _ _).setReg _ _).regs (base + 1) = _
      rw [regs_setReg, if_neg hhi.symm, regs_setReg, if_pos rfl]
  obtain ⟨m, hm⟩ := hnumbers _ (List.getElem_mem hindex)
  rw [hm] at hdesignates
  exact not_designates_high m id hdesignates

/-- A loop with `first` and `next`, or with `last` and `prev`, goes through all of a queue if and
only if it has at most 2 ^ 31 elements, and through every associative array in the order of its
keys. -/
theorem collections_iterate {addr : Nat → Nat} (haddr : Function.Injective addr) :
    (∀ (s : State) (base : Reg) (id : Nat) (q : List Val), s.regs base = .queue id →
      s.heap.queues[id]? = some q →
      (Iterates addr s base ((List.range q.length).map (.element id)) ↔ q.length ≤ 2 ^ 31)) ∧
    ∀ (s : State) (base : Reg) (id : Nat) (entries : List (Key × Val)), s.regs base = .assoc id →
      s.heap.assocs[id]? = some entries →
      (∀ k ∈ keysOf entries, ∀ z, k = .int z → -2 ^ 63 ≤ z ∧ z < 2 ^ 63) →
      ∃ keys : List Key, keys.Pairwise (keyLt addr · · = true) ∧
        (∀ k, k ∈ keys ↔ k ∈ keysOf entries) ∧ Iterates addr s base (keys.map (.entry id)) :=
  ⟨fun _ _ _ _ hbase hq => iterates_queue_iff hbase hq,
    fun _ _ _ _ hbase hentries hkeys => iterates_assoc haddr hbase hentries hkeys⟩

/-- A queue in register 0 and an array with keys of all kinds in register 1. -/
def shelves : State where
  regs r := if r = 0 then .queue 0 else .assoc 0
  statics _ := .null
  nets _ := .zero 1
  heap := ⟨[], [[.str "a", .null, .str "c"]],
    [[(.null, .str "n"), (.int (-3), .null), (.obj 4, .null), (.str "k", .null), (.int 2, .null)]]⟩

theorem collections_iterate_shelves :
    Iterates (fun id => id) shelves 0 [.element 0 0, .element 0 1, .element 0 2] ∧
      ∃ keys : List Key, keys.Pairwise (keyLt (fun id => id) · · = true) ∧
        (∀ k, k ∈ keys ↔ k ∈ [.null, .int (-3), .obj 4, .str "k", .int 2]) ∧
        Iterates (fun id => id) shelves 1 (keys.map (.entry 0)) := by
  obtain ⟨hqueue, hassoc⟩ := @collections_iterate (fun id => id) fun _ _ h => h
  refine ⟨(hqueue shelves 0 0 _ rfl rfl).mpr (by decide), hassoc shelves 1 0 _ rfl rfl ?_⟩
  intro k hk z hz
  subst hz
  have hcases : z = -3 ∨ z = 2 := by simpa [keysOf] using hk
  omega

/-- One element more than 2 ^ 31. -/
def crowded : State where
  regs _ := .queue 0
  statics _ := .null
  nets _ := .zero 1
  heap := ⟨[], [List.replicate (2 ^ 31 + 1) .null], []⟩

/-- The loop over the crowded queue gives an index that leads to no element when it is written. -/
theorem crowded_not_iterated :
    ¬ Iterates (fun id => id) crowded 0
      ((List.range (List.replicate (2 ^ 31 + 1) Val.null).length).map (.element 0)) := by
  intro h
  have hlen := (iterates_queue_iff (q := List.replicate (2 ^ 31 + 1) Val.null) rfl rfl).mp h
  rw [List.length_replicate] at hlen
  omega

end Eevee.Ir.Iteration
