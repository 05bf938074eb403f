/- Fixed memories: their elements, and reads over blocking and nonblocking element writes. -/

import Mathlib.Data.List.Basic
import Mathlib.Data.List.Range
import Mathlib.Tactic.Common
import Mathlib.Tactic.SplitIfs
import Eevee.Core.Numeric
import Eevee.Ir.Values
import Eevee.Sched.Frames

set_option autoImplicit false
set_option relaxedAutoImplicit false

namespace Eevee.Sched.Memories

open Eevee.Core.Alu
open Eevee.Core.Canonical
open Eevee.Core.Logic
open Eevee.Core.Numeric
open Eevee.Ir.Values (MemoryDef memoryElement memoryRead tryToU64)
open Eevee.Lib.Binary
open Eevee.Sched.Frames
open Eevee.Sched.Nets
open Eevee.Sched.Scheduler

/-! ### Creation and access -/

/-- `new_net`: the names of nets play no part. -/
def newNet (k : Kernel) (initial : PackedVec) : Kernel :=
  k.newNetWithResolutionAndDelay initial .wire none

/-- One element of a fixed memory: the next free net, all X. -/
def newElement (width : Nat) (s : List NetId × Kernel) : List NetId × Kernel :=
  (s.1 ++ [s.2.nets.length], newNet s.2 (.x width))

/-- A declared fixed memory; none where an assertion on its bounds fails. -/
def newMemory (k : Kernel) (left right : Int) (width : Nat) : Option (MemoryDef × Kernel) :=
  if left ≥ 0 ∧ right ≥ 0 then
    let count := (left - right).natAbs + 1
    if count ≤ 1000000 then
      let s := (List.range count).foldl (fun s _ => newElement width s) ([], k)
      some (⟨s.1, left, right, width⟩, s.2)
    else none
  else none

/-- What an index designates is written with the value at the element width. -/
structure Write where
  index : PackedVec
  value : PackedVec

def readMemory (k : Kernel) (m : MemoryDef) (index : PackedVec) : PackedVec :=
  memoryRead ⟨k.netValue, fun _ => .null⟩ m index

def blockingMemoryWrite (k : Kernel) (m : MemoryDef) (w : Write) : Kernel :=
  match memoryElement m w.index with
  | some net => k.writeNet net (w.value.resize m.elementWidth false)
  | none => k

def nbaMemoryWrite (k : Kernel) (m : MemoryDef) (w : Write) : Kernel :=
  match memoryElement m w.index with
  | some net => k.scheduleNba net (w.value.resize m.elementWidth false)
  | none => k

/-! ### Indices -/

theorem aBit_testBit {v : PackedVec} (hv : v.isKnown = true) (i : Nat) :
    v.1.repr.aBit i = (toNat v).testBit i := by
  rw [aBit_eq hv]
  unfold Eevee.Core.Numeric.toNat
  rw [testBit_value]
  by_cases hi : i < v.width
  · simp [hi]
  · simp [hi, isOne_of_ge (Nat.le_of_not_lt hi)]

/-- Limbs above the first hold nothing exactly when the value fits in 64 bits. -/
theorem tail_zero_iff {v : PackedVec} (hv : v.isKnown = true) {aval bval : List (BitVec 64)}
    (hr : v.1.repr = .wide aval bval) :
    aval.tail.all (· == 0) = true ↔ toNat v < 2 ^ 64 := by
  have hbit : ∀ i, limbBit aval.tail i = (toNat v).testBit (i + 64) := by
    intro i
    have hdiv : (i + 64) / 64 = i / 64 + 1 := by omega
    have hmod : (i + 64) % 64 = i % 64 := by omega
    rw [← aBit_testBit hv, hr]
    show _ = limbBit aval (i + 64)
    unfold limbBit
    rw [hdiv, hmod]
    cases aval <;> rfl
  have hall : aval.tail.all (· == 0) = true ↔ ∀ w ∈ aval.tail, w = 0 := by
    rw [List.all_eq_true]
    simp only [beq_iff_eq]
  rw [hall, limbs_eq_zero_iff]
  constructor
  · intro h
    apply Nat.lt_pow_two_of_testBit
    intro i hi
    rw [← Nat.sub_add_cancel hi, ← hbit, h]
  · intro h i
    rw [hbit]
    exact Nat.testBit_lt_two_pow (Nat.lt_of_lt_of_le h
      (Nat.pow_le_pow_right Nat.two_pos (Nat.le_add_left _ _)))

theorem tryToU64_eq (v : PackedVec) :
    tryToU64 v = if v.isKnown = true ∧ toNat v < 2 ^ 64 then some (toNat v) else none := by
  unfold tryToU64
  by_cases hv : v.isKnown = true
  · rw [if_pos hv]
    cases hr : v.1.repr with
    | small aval bval =>
      have hs := v.2.storage
      rw [hr] at hs
      have hval : aval.toNat = toNat v := by
        apply Nat.eq_of_testBit_eq
        intro i
        rw [← aBit_testBit hv, hr]
        rfl
      rw [if_pos ⟨hv, hval ▸ aval.isLt⟩]
      exact congrArg some hval
    | wide aval bval =>
      dsimp only
      by_cases hfit : toNat v < 2 ^ 64
      · have hval : (aval.headD 0).toNat = toNat v := by
          apply Nat.eq_of_testBit_eq
          intro i
          by_cases hi : i < 64
          · have hdiv : i / 64 = 0 := Nat.div_eq_of_lt hi
            rw [← aBit_testBit hv, hr]
            show (aval.headD 0).getLsbD i = limbBit aval i
            unfold limbBit
            rw [hdiv, Nat.mod_eq_of_lt hi]
            cases aval <;> rfl
          · have hle : 2 ^ 64 ≤ 2 ^ i :=
              Nat.pow_le_pow_right Nat.two_pos (Nat.le_of_not_lt hi)
            rw [Nat.testBit_lt_two_pow (Nat.lt_of_lt_of_le (aval.headD 0).isLt hle),
              Nat.testBit_lt_two_pow (Nat.lt_of_lt_of_le hfit hle)]
        rw [if_pos ((tail_zero_iff hv hr).mpr hfit), if_pos ⟨hv, hfit⟩, hval]
      · rw [if_neg fun hc => hfit ((tail_zero_iff hv hr).mp hc), if_neg fun hc => hfit hc.2]
  · rw [if_neg hv, if_neg fun hc => hv hc.1]

/-- An index within the declared bounds, in either direction. -/
def InRange (m : MemoryDef) (n : Nat) : Prop :=
  min m.left m.right ≤ n ∧ (n : Int) ≤ max m.left m.right

instance (m : MemoryDef) (n : Nat) : Decidable (InRange m n) :=
  inferInstanceAs (Decidable (_ ∧ _))

/-- An index vector that is fully known and has the value `n`. -/
def Designates (index : PackedVec) (n : Nat) : Prop := index.isKnown = true ∧ toNat index = n

instance (index : PackedVec) (n : Nat) : Decidable (Designates index n) :=
  inferInstanceAs (Decidable (_ ∧ _))

/-- The elements of a memory are consecutive nets, in the order of its bounds, and the bounds are
nonnegative 64-bit numbers. -/
structure Laid (m : MemoryDef) (base : NetId) : Prop where
  left : 0 ≤ m.left ∧ m.left < 2 ^ 63
  right : 0 ≤ m.right ∧ m.right < 2 ^ 63
  elements : m.elements = List.range' base ((m.left - m.right).natAbs + 1)

/-- The net of index `n`. -/
def elementAt (m : MemoryDef) (base : NetId) (n : Nat) : NetId := base + (m.left - n).natAbs

section

variable {m : MemoryDef} {base : NetId}

theorem memoryElement_eq (h : Laid m base) (index : PackedVec) : memoryElement m index =
    if index.isKnown = true ∧ InRange m (toNat index) then some (elementAt m base (toNat index))
    else none := by
  obtain ⟨hl0, hl⟩ := h.left
  obtain ⟨hr0, hr⟩ := h.right
  unfold memoryElement
  rw [tryToU64_eq]
  by_cases hknown : index.isKnown = true
  · by_cases hin : InRange m (toNat index)
    · have hn : (toNat index : Int) < 2 ^ 63 := Int.lt_of_le_of_lt hin.2 (max_lt hl hr)
      have hsmall : toNat index < 2 ^ 63 := by exact_mod_cast hn
      have hfit : toNat index < 2 ^ 64 := Nat.lt_trans hsmall (by decide)
      have hn63 : toNat index < 0x8000000000000000 := hsmall
      have hbounds := hin
      unfold InRange at hbounds
      rw [if_pos ⟨hknown, hfit⟩, if_pos ⟨hknown, hin⟩, Option.bind_some, if_pos hn63, h.elements]
      unfold elementAt
      by_cases hle : m.left ≤ m.right
      · rw [if_pos hle, if_neg (by omega), List.getElem?_range' (by omega)]
        congr 1
        omega
      · rw [if_neg hle, if_neg (by omega), List.getElem?_range' (by omega)]
        congr 1
        omega
    · rw [if_neg fun hc : index.isKnown = true ∧ _ => hin hc.2]
      by_cases hfit : toNat index < 2 ^ 64
      · rw [if_pos ⟨hknown, hfit⟩, Option.bind_some]
        unfold InRange at hin
        split_ifs <;> first | rfl | omega
      · rw [if_neg fun hc => hfit hc.2]
        rfl
  · rw [if_neg fun hc => hknown hc.1, if_neg fun hc => hknown hc.1]
    rfl

/-- Two indices in range designate one element only if they are equal. -/
theorem elementAt_inj {n n' : Nat} (hn : InRange m n) (hn' : InRange m n') :
    elementAt m base n = elementAt m base n' ↔ n = n' := by
  unfold InRange at hn hn'
  constructor
  · intro heq
    have hdist : (m.left - n).natAbs = (m.left - n').natAbs := Nat.add_left_cancel heq
    omega
  · rintro rfl
    rfl

theorem elementAt_mem (h : Laid m base) {n : Nat} (hn : InRange m n) :
    elementAt m base n ∈ m.elements := by
  unfold InRange at hn
  rw [h.elements, List.mem_range'_1]
  unfold elementAt
  omega

end

/-! ### Creation -/

theorem netValue_newNet (k : Kernel) (v : PackedVec) (n : NetId) (hn : n ≤ k.nets.length) :
    (newNet k v).netValue n = if n = k.nets.length then v else k.netValue n := by
  show ((k.nets ++ [Net.withResolution v .wire none]).getD n default).value = _
  split_ifs with heq
  · subst heq
    rw [List.getD_append_right _ _ _ _ le_rfl, Nat.sub_self]
    rfl
  · have hlt : n < k.nets.length := Nat.lt_of_le_of_ne hn heq
    rw [List.getD_append _ _ _ _ hlt]
    rfl

/-- The elements made so far are the newest nets, all X, and nothing else has changed. -/
structure Made (k : Kernel) (width c : Nat) (s : List NetId × Kernel) : Prop where
  elements : s.1 = List.range' k.nets.length c
  length : s.2.nets.length = k.nets.length + c
  value : ∀ n ∈ s.1, s.2.netValue n = .x width
  old : ∀ n < k.nets.length, s.2.netValue n = k.netValue n
  nba : s.2.nba = k.nba

theorem made_elements (k : Kernel) (width c : Nat) :
    Made k width c ((List.range c).foldl (fun s _ => newElement width s) ([], k)) := by
  induction c with
  | zero => exact ⟨rfl, rfl, fun _ hn => absurd hn List.not_mem_nil, fun _ _ => rfl, rfl⟩
  | succ c ih =>
    rw [List.range_succ, List.foldl_append, List.foldl_cons, List.foldl_nil]
    generalize (List.range c).foldl (fun s _ => newElement width s) ([], k) = s at ih
    refine ⟨?_, ?_, ?_, ?_, ih.nba⟩
    · show s.1 ++ [s.2.nets.length] = _
      rw [ih.elements, ih.length, List.range'_1_concat]
    · show (s.2.nets ++ [_]).length = _
      rw [List.length_append, ih.length]
      rfl
    · intro n hn
      show (newNet s.2 (.x width)).netValue n = _
      rcases List.mem_append.mp hn with hold | hnew
      · have hlt : n < s.2.nets.length := by
          rw [ih.elements, List.mem_range'_1] at hold
          rw [ih.length]
          exact hold.2
        rw [netValue_newNet _ _ _ hlt.le, if_neg hlt.ne]
        exact ih.value n hold
      · obtain rfl : n = s.2.nets.length := List.mem_singleton.mp hnew
        rw [netValue_newNet _ _ _ le_rfl, if_pos rfl]
    · intro n hn
      show (newNet s.2 (.x width)).netValue n = _
      have hlt : n < s.2.nets.length := by
        rw [ih.length]
        exact Nat.lt_add_right c hn
      rw [netValue_newNet _ _ _ hlt.le, if_neg hlt.ne]
      exact ih.old n hn

/-- A memory whose bounds are 64-bit numbers is laid out on new nets. -/
theorem laid_newMemory {k k' : Kernel} {left right : Int} {width : Nat} {m : MemoryDef}
    (h : newMemory k left right width = some (m, k')) (hl : left < 2 ^ 63) (hr : right < 2 ^ 63) :
    Laid m k.nets.length ∧ m.elementWidth = width ∧ m.left = left ∧ m.right = right ∧
      Made k width ((left - right).natAbs + 1) (m.elements, k') := by
  unfold newMemory at h
  dsimp only at h
  split_ifs at h with hbounds
  obtain ⟨rfl, rfl⟩ := Prod.mk.inj (Option.some.inj h)
  have hmade := made_elements k width ((left - right).natAbs + 1)
  exact ⟨⟨⟨hbounds.1, hl⟩, ⟨hbounds.2, hr⟩, hmade.elements⟩, rfl, rfl, rfl, hmade⟩

/-! ### Runs of accesses -/

inductive Access
  | blocking (w : Write)
  | nonblocking (w : Write)
  /-- The pending nonblocking updates are applied. -/
  | update
  /-- Anything else the kernel does. -/
  | other

/-- The writes that have taken effect, oldest first, and those that are pending. -/
structure Log where
  done : List Write
  pending : List Write

def Log.step (log : Log) : Access → Log
  | .blocking w => { log with done := log.done ++ [w] }
  | .nonblocking w => { log with pending := log.pending ++ [w] }
  | .update => ⟨log.done ++ log.pending, []⟩
  | .other => log

/-- What a sequence of accesses has written. -/
def logOf (accesses : List Access) : Log := accesses.foldl Log.step ⟨[], []⟩

/-- The last write that took effect at index `n`. -/
def lastWritten (writes : List Write) (n : Nat) : Option PackedVec :=
  ((writes.filter fun w => Designates w.index n).getLast?).map Write.value

/-- The rest of the simulator leaves the elements of the memory and their updates alone. -/
structure Leaves (m : MemoryDef) (k k' : Kernel) : Prop where
  length : k.nets.length ≤ k'.nets.length
  value : ∀ n ∈ m.elements, k'.netValue n = k.netValue n
  nba : (k'.nba.filter fun u => u.1 ∈ m.elements) = k.nba.filter fun u => u.1 ∈ m.elements

/-- The kernel after a sequence of accesses to one memory, with other activity in between. -/
inductive Run (m : MemoryDef) (k₀ : Kernel) : List Access → Kernel → Prop
  | start : Run m k₀ [] k₀
  | blocking {as : List Access} {k : Kernel} (w : Write) (h : Run m k₀ as k) :
      Run m k₀ (as ++ [.blocking w]) (blockingMemoryWrite k m w)
  | nonblocking {as : List Access} {k : Kernel} (w : Write) (h : Run m k₀ as k) :
      Run m k₀ (as ++ [.nonblocking w]) (nbaMemoryWrite k m w)
  | update {as : List Access} {k : Kernel} (h : Run m k₀ as k) :
      Run m k₀ (as ++ [.update]) k.drainNba
  | other {as : List Access} {k k' : Kernel} (h : Run m k₀ as k) (hother : Leaves m k k') :
      Run m k₀ (as ++ [.other]) k'

/-! ### What a run keeps -/

theorem lastWritten_append (ws ws' : List Write) (n : Nat) :
    lastWritten (ws ++ ws') n = (lastWritten ws' n).or (lastWritten ws n) := by
  unfold lastWritten
  rw [List.filter_append, List.getLast?_append]
  cases (ws'.filter fun w => Designates w.index n).getLast? <;> rfl

theorem lastWritten_single (w : Write) (n : Nat) :
    lastWritten [w] n = if Designates w.index n then some w.value else none := by
  unfold lastWritten
  by_cases h : Designates w.index n <;> simp [h]

/-- What is stored at index `n` after these writes. -/
def stored (m : MemoryDef) (writes : List Write) (n : Nat) : PackedVec :=
  ((lastWritten writes n).map fun v => v.resize m.elementWidth false).getD (.x m.elementWidth)

/-- The update that a nonblocking write queues. -/
def queued (m : MemoryDef) (w : Write) : Option (NetId × PackedVec) :=
  (memoryElement m w.index).map fun net => (net, w.value.resize m.elementWidth false)

/-- The elements hold the last writes that took effect, and the pending ones are queued in order. -/
structure Holds (m : MemoryDef) (base : NetId) (log : Log) (k : Kernel) : Prop where
  exist : ∀ n ∈ m.elements, n < k.nets.length
  value : ∀ n, InRange m n → k.netValue (elementAt m base n) = stored m log.done n
  nba : (k.nba.filter fun u => u.1 ∈ m.elements) = log.pending.filterMap (queued m)

section

variable {m : MemoryDef} {base : NetId} {log : Log} {k k' : Kernel}

theorem designates_iff (h : Laid m base) {index : PackedVec} {n : Nat} (hn : InRange m n) :
    memoryElement m index = some (elementAt m base n) ↔ Designates index n := by
  rw [memoryElement_eq h]
  unfold Designates
  constructor
  · intro heq
    split_ifs at heq with hin
    exact ⟨hin.1, (elementAt_inj hin.2 hn).mp (Option.some.inj heq)⟩
  · rintro ⟨hknown, rfl⟩
    rw [if_pos ⟨hknown, hn⟩]

/-- Writing one element, or none, changes what is stored at the index it designates only. -/
theorem stored_append_single (h : Laid m base) (w : Write) {n : Nat} (hn : InRange m n) :
    stored m (log.done ++ [w]) n = if memoryElement m w.index = some (elementAt m base n) then
      w.value.resize m.elementWidth false else stored m log.done n := by
  unfold stored
  rw [lastWritten_append, lastWritten_single]
  by_cases hd : Designates w.index n
  · rw [if_pos hd, if_pos ((designates_iff h hn).mpr hd)]
    rfl
  · rw [if_neg hd, if_neg fun hc => hd ((designates_iff h hn).mp hc)]
    rfl

theorem holds_blocking (hm : Laid m base) (h : Holds m base log k) (w : Write) :
    Holds m base (log.step (.blocking w)) (blockingMemoryWrite k m w) := by
  unfold blockingMemoryWrite
  cases hnet : memoryElement m w.index with
  | none =>
    refine ⟨h.exist, fun n hn => ?_, h.nba⟩
    show _ = stored m (log.done ++ [w]) n
    rw [stored_append_single hm w hn, hnet, if_neg (by simp)]
    exact h.value n hn
  | some net =>
    have hwakes := wakes_writeNet k net (w.value.resize m.elementWidth false)
    have hlen : (k.writeNet net (w.value.resize m.elementWidth false)).nets.length =
        k.nets.length := hwakes.length.trans (List.length_modify _ _ _)
    refine ⟨fun n hn => by rw [hlen]; exact h.exist n hn, fun n hn => ?_, ?_⟩
    · show _ = stored m (log.done ++ [w]) n
      have hexist : net = elementAt m base n → net < k.nets.length := fun heq =>
        heq ▸ h.exist _ (elementAt_mem hm hn)
      rw [stored_append_single hm w hn, hnet, netValue_writeNet, h.value n hn]
      by_cases heq : net = elementAt m base n
      · rw [if_pos ⟨heq.symm, hexist heq⟩, if_pos (congrArg some heq)]
      · rw [if_neg fun hc => heq hc.1.symm, if_neg fun hc => heq (Option.some.inj hc)]
    · exact hwakes.nba ▸ h.nba

theorem holds_nonblocking (hm : Laid m base) (h : Holds m base log k) (w : Write) :
    Holds m base (log.step (.nonblocking w)) (nbaMemoryWrite k m w) := by
  unfold nbaMemoryWrite
  cases hnet : memoryElement m w.index with
  | none =>
    refine ⟨h.exist, h.value, h.nba.trans ?_⟩
    show _ = (log.pending ++ [w]).filterMap (queued m)
    have hnone : queued m w = none := by rw [queued, hnet]; rfl
    rw [List.filterMap_append, List.filterMap_cons_none hnone, List.filterMap_nil, List.append_nil]
  | some net =>
    have hmem : net ∈ m.elements := by
      rw [memoryElement_eq hm] at hnet
      split_ifs at hnet with hin
      exact Option.some.inj hnet ▸ elementAt_mem hm hin.2
    have hsome : queued m w = some (net, w.value.resize m.elementWidth false) := by
      rw [queued, hnet]
      rfl
    refine ⟨h.exist, h.value, ?_⟩
    show ((k.nba ++ [_]).filter fun u => u.1 ∈ m.elements) =
      (log.pending ++ [w]).filterMap (queued m)
    rw [List.filter_append, h.nba, List.filterMap_append, List.filterMap_cons_some hsome]
    simp [hmem]

/-- After a batch a net has the value of its last update. -/
theorem netValue_batch (batch : List (NetId × PackedVec)) (k : Kernel) {n : NetId}
    (hn : n < k.nets.length) :
    (batch.foldl (fun (k : Kernel) u => k.writeNet u.1 u.2) k).netValue n =
      (((batch.filter fun u => u.1 = n).getLast?).map Prod.snd).getD (k.netValue n) := by
  induction batch generalizing k with
  | nil => rfl
  | cons u batch ih =>
    have hlen : (k.writeNet u.1 u.2).nets.length = k.nets.length :=
      (wakes_writeNet k u.1 u.2).length.trans (List.length_modify _ _ _)
    rw [List.foldl_cons, ih _ (hlen ▸ hn), netValue_writeNet]
    by_cases hu : u.1 = n
    · subst hu
      rw [if_pos ⟨rfl, hn⟩, List.filter_cons_of_pos (by simp), List.getLast?_cons]
      cases (batch.filter fun v => v.1 = u.1).getLast? <;> rfl
    · rw [if_neg fun hc => hu hc.1.symm, List.filter_cons_of_neg (by simpa using hu)]

/-- The queued updates of one element are those of the pending writes that designate it. -/
theorem filter_queued (hm : Laid m base) (ws : List Write) {n : Nat} (hn : InRange m n) :
    ((ws.filterMap (queued m)).filter fun u => u.1 = elementAt m base n) =
      (ws.filter fun w => Designates w.index n).map fun w =>
        (elementAt m base n, w.value.resize m.elementWidth false) := by
  induction ws with
  | nil => rfl
  | cons w ws ih =>
    by_cases hd : Designates w.index n
    · have hsome : queued m w = some (elementAt m base n, w.value.resize m.elementWidth false) := by
        rw [queued, (designates_iff hm hn).mpr hd]
        rfl
      rw [List.filterMap_cons_some hsome, List.filter_cons_of_pos (by simp),
        List.filter_cons_of_pos (by simpa using hd), ih]
      rfl
    · rw [List.filter_cons_of_neg (by simpa using hd)]
      cases hq : queued m w with
      | none => rw [List.filterMap_cons_none hq, ih]
      | some u =>
        have hne : ¬ u.1 = elementAt m base n := by
          intro heq
          obtain ⟨net, hnet, rfl⟩ := Option.map_eq_some_iff.mp hq
          exact hd ((designates_iff hm hn).mp (hnet.trans (congrArg some heq)))
        rw [List.filterMap_cons_some hq, List.filter_cons_of_neg (by simpa using hne), ih]

theorem holds_update (hm : Laid m base) (h : Holds m base log k) :
    Holds m base (log.step .update) k.drainNba := by
  have hlen : k.drainNba.nets.length = k.nets.length :=
    drainNba_keeps (R := fun k k' : Kernel => k'.nets.length = k.nets.length) (fun _ => rfl)
      (fun h h' => h'.trans h) rfl
      (fun u _ k₁ => (wakes_writeNet k₁ u.1 u.2).length.trans (List.length_modify _ _ _))
      (fun _ => rfl)
  refine ⟨fun n hn => by rw [hlen]; exact h.exist n hn, fun n hn => ?_, ?_⟩
  · have hmem := elementAt_mem hm hn
    have hvalue : k.drainNba.netValue (elementAt m base n) =
        (((k.nba.filter fun u => u.1 = elementAt m base n).getLast?).map Prod.snd).getD
          (k.netValue (elementAt m base n)) :=
      netValue_batch k.nba { k with nba := [] } (h.exist _ hmem)
    have hfilter : (k.nba.filter fun u => u.1 = elementAt m base n) =
        (log.pending.filter fun w => Designates w.index n).map fun w =>
          (elementAt m base n, w.value.resize m.elementWidth false) := by
      rw [← filter_queued hm log.pending hn, ← h.nba, List.filter_filter]
      apply List.filter_congr
      intro u _
      by_cases hu : u.1 = elementAt m base n
      · simp [hu, hmem]
      · simp [hu]
    show _ = stored m (log.done ++ log.pending) n
    rw [hvalue, hfilter, h.value n hn, List.getLast?_map]
    unfold stored
    rw [lastWritten_append]
    show _ =
      (((((log.pending.filter fun w => Designates w.index n).getLast?).map Write.value).or _).map
        _).getD _
    cases (log.pending.filter fun w => Designates w.index n).getLast? <;> rfl
  · rw [nba_drainNba]
    rfl

theorem holds_other (hm : Laid m base) (h : Holds m base log k) (hk : Leaves m k k') :
    Holds m base (log.step .other) k' :=
  ⟨fun n hn => Nat.lt_of_lt_of_le (h.exist n hn) hk.length,
    fun n hn => (hk.value _ (elementAt_mem hm hn)).trans (h.value n hn), hk.nba.trans h.nba⟩

theorem logOf_append (as : List Access) (a : Access) : logOf (as ++ [a]) = (logOf as).step a := by
  unfold logOf
  rw [List.foldl_append]
  rfl

/-- A run keeps the elements in step with the log of its accesses. -/
theorem Run.holds {k₀ : Kernel} {as : List Access} (hrun : Run m k₀ as k) (hm : Laid m base)
    (h₀ : Holds m base ⟨[], []⟩ k₀) : Holds m base (logOf as) k := by
  induction hrun with
  | start => exact h₀
  | blocking w _ ih =>
    rw [logOf_append]
    exact holds_blocking hm ih w
  | nonblocking w _ ih =>
    rw [logOf_append]
    exact holds_nonblocking hm ih w
  | update _ ih =>
    rw [logOf_append]
    exact holds_update hm ih
  | other _ hk ih =>
    rw [logOf_append]
    exact holds_other hm ih hk

theorem leaves_writeNet {n : NetId} (hn : n ∉ m.elements) (k : Kernel) (v : PackedVec) :
    Leaves m k (k.writeNet n v) := by
  have hwakes := wakes_writeNet k n v
  have hlen : (k.writeNet n v).nets.length = k.nets.length :=
    hwakes.length.trans (List.length_modify _ _ _)
  refine ⟨hlen.ge, fun e he => ?_, congrArg _ hwakes.nba⟩
  have hne : ¬ (e = n ∧ n < k.nets.length) := fun hc => hn (hc.1 ▸ he)
  rw [netValue_writeNet, if_neg hne]

end

/-! ### Reads over writes -/

/-- What a read of a fixed memory returns after any run of accesses. -/
structure ReadOverWrite (m : MemoryDef) (k₀ : Kernel) : Prop where
  /-- The last value written to the index, in the order in which the writes take effect. -/
  read : ∀ as k, Run m k₀ as k → ∀ index : PackedVec, index.isKnown = true →
    InRange m (toNat index) → readMemory k m index = stored m (logOf as).done (toNat index)
  readOutside : ∀ (k : Kernel) (index : PackedVec),
    ¬ (index.isKnown = true ∧ InRange m (toNat index)) →
    readMemory k m index = .x m.elementWidth
  writeOutside : ∀ (k : Kernel) (w : Write),
    ¬ (w.index.isKnown = true ∧ InRange m (toNat w.index)) →
    blockingMemoryWrite k m w = k ∧ nbaMemoryWrite k m w = k
  distinct : ∀ i i' : PackedVec, i.isKnown = true → i'.isKnown = true →
    InRange m (toNat i) → InRange m (toNat i') →
    ∃ n ∈ m.elements, ∃ n' ∈ m.elements, memoryElement m i = some n ∧
      memoryElement m i' = some n' ∧ (n = n' ↔ toNat i = toNat i')

/-- A memory that has been declared satisfies read-over-write from then on. -/
theorem memory_read_over_write {k k₀ : Kernel} {left right : Int} {width : Nat} {m : MemoryDef}
    (h : newMemory k left right width = some (m, k₀)) (hl : left < 2 ^ 63) (hr : right < 2 ^ 63)
    (hnba : ∀ u ∈ k.nba, u.1 < k.nets.length) :
    m.elementWidth = width ∧ m.left = left ∧ m.right = right ∧ ReadOverWrite m k₀ := by
  obtain ⟨hm, hwidth, hleft, hright, hmade⟩ := laid_newMemory h hl hr
  have hmem : ∀ n ∈ m.elements, k.nets.length ≤ n ∧ n < k₀.nets.length := by
    intro n hn
    have helements : m.elements = List.range' k.nets.length _ := hmade.elements
    have hrange := helements ▸ hn
    rw [hmade.length]
    exact List.mem_range'_1.mp hrange
  have h₀ : Holds m k.nets.length ⟨[], []⟩ k₀ := by
    refine ⟨fun n hn => (hmem n hn).2, fun n hn => ?_, ?_⟩
    · rw [hmade.value _ (elementAt_mem hm hn), ← hwidth]
      rfl
    · rw [hmade.nba]
      apply List.filter_eq_nil_iff.mpr
      intro u hu hin
      exact Nat.not_lt.mpr (hmem u.1 (of_decide_eq_true hin)).1 (hnba u hu)
  refine ⟨hwidth, hleft, hright, ⟨fun as k' hrun index hknown hin => ?_,
    fun k' index hout => ?_, fun k' w hout => ?_, fun i i' hi hi' hn hn' => ?_⟩⟩
  · unfold readMemory memoryRead
    rw [memoryElement_eq hm, if_pos ⟨hknown, hin⟩]
    exact (hrun.holds hm h₀).value _ hin
  · unfold readMemory memoryRead
    rw [memoryElement_eq hm, if_neg hout]
  · unfold blockingMemoryWrite nbaMemoryWrite
    rw [memoryElement_eq hm, if_neg hout]
    exact ⟨rfl, rfl⟩
  · exact ⟨_, elementAt_mem hm hn, _, elementAt_mem hm hn',
      (memoryElement_eq hm i).trans (if_pos ⟨hi, hn⟩),
      (memoryElement_eq hm i').trans (if_pos ⟨hi', hn'⟩), elementAt_inj hn hn'⟩

/-- The elements of a descending memory behind another net. -/
def stack : MemoryDef := ⟨[1, 2, 3], 3, 1, 4⟩

def stackKernel : Kernel :=
  (newElement 4 (newElement 4 (newElement 4 ([], newNet .new (.zero 1))))).2

/-- A blocking and a nonblocking write of one element, and a write of the other net before the
update. -/
theorem memory_read_last :
    readMemory ((nbaMemoryWrite (blockingMemoryWrite stackKernel stack
      ⟨.fromU64 2 2, .fromU64 0xA5 8⟩) stack ⟨.fromU64 2 70, .fromU64 3 2⟩).writeNet 0
      (.ones 1)).drainNba stack (.fromU64 2 32) = .fromU64 3 4 := by
  have hread := (@memory_read_over_write (newNet .new (.zero 1)) stackKernel 3 1 4 stack rfl
    (by decide) (by decide) (by decide)).2.2.2.read
  have hrun := Run.update (Run.other (Run.nonblocking ⟨.fromU64 2 70, .fromU64 3 2⟩
    (Run.blocking ⟨.fromU64 2 2, .fromU64 0xA5 8⟩ Run.start)) (@leaves_writeNet stack 0
      (by decide) (nbaMemoryWrite (blockingMemoryWrite stackKernel stack
      ⟨.fromU64 2 2, .fromU64 0xA5 8⟩) stack ⟨.fromU64 2 70, .fromU64 3 2⟩) (.ones 1)))
  exact (hread _ _ hrun (.fromU64 2 32) (by decide) (by decide)).trans (by decide)

end Eevee.Sched.Memories
