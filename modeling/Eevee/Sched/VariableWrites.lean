/- Nonblocking assignments to a variable and its bits: what is left after the update. -/

import Mathlib.Data.List.Basic
import Mathlib.Tactic.Common
import Mathlib.Tactic.SplitIfs
import Eevee.Core.Numeric
import Eevee.Sched.Memories

set_option autoImplicit false
set_option relaxedAutoImplicit false

namespace Eevee.Sched.VariableWrites

open Eevee.Core.Logic
open Eevee.Core.Numeric
open Eevee.Sched.Frames
open Eevee.Sched.Memories
open Eevee.Sched.Nets
open Eevee.Sched.Scheduler

/-! ### Assignments -/

/-- `IndexSet` replaces a bit of the vector in a register if the index is below its width. -/
def SetsBit (base index : PackedVec) : Prop := index.isKnown = true ∧ index.toU64 < base.width

instance (base index : PackedVec) : Decidable (SetsBit base index) :=
  inferInstanceAs (Decidable (_ ∧ _))

def indexSet (base index src : PackedVec) : PackedVec :=
  if SetsBit base index then base.setBit index.toU64 (src.getBit 0) else base

/-- An assignment to a variable when its write is executed: the value at the variable's width, or
for a bit what the variable was read as, the index and the value. -/
inductive Assignment (width : Nat)
  | whole (value : PackedVec) (hwidth : value.width = width)
  | bit (current index src : PackedVec)

section

variable {width : Nat}

/-- The vector written to the variable. -/
def Assignment.vector : Assignment width → PackedVec
  | .whole value _ => value
  | .bit current index src => indexSet current index src

/-- The variable was read as one of these values. -/
def Assignment.ReadFrom (reads : List PackedVec) : Assignment width → Prop
  | .whole _ _ => True
  | .bit current _ _ => current ∈ reads

/-- What an assignment gives to a bit, if it is one to that bit. -/
def Assignment.assigned (i : Nat) : Assignment width → Option Bit
  | .whole value _ => some (value.getBit i)
  | .bit _ index src => if Designates index i then some (src.getBit 0) else none

/-- The notification of `IndexSet`, which has replaced a bit of a register. -/
def Assignment.notify (k : Kernel) : Assignment width → Kernel
  | .whole _ _ => k
  | .bit current index _ => if SetsBit current index then k.notifyRuntimeChange else k

def assign (k : Kernel) (net : NetId) (nonblocking : Bool) (a : Assignment width) : Kernel :=
  if nonblocking then (a.notify k).scheduleNba net a.vector else (a.notify k).writeNet net a.vector

/-- The value last scheduled for a bit. -/
def lastScheduled (log : List (Assignment width)) (i : Nat) : Option Bit :=
  (log.filterMap fun a => a.assigned i).getLast?

end

/-! ### Slots -/

/-- The rest of the simulator leaves the variable and its updates alone. -/
structure LeavesNet (net : NetId) (k k' : Kernel) : Prop where
  length : k.nets.length ≤ k'.nets.length
  value : k'.netValue net = k.netValue net
  nba : (k'.nba.filter fun u => u.1 = net) = k.nba.filter fun u => u.1 = net

/-- A kernel before the update, the nonblocking assignments to one variable since the update before,
and the values read for assignments to bits: the code of the index runs after the read, so that
other activity may come before the write. -/
inductive Slot (net : NetId) (width : Nat) :
    List PackedVec → List (Assignment width) → Kernel → Prop
  | start {reads : List PackedVec} {k : Kernel} (hu32 : width < 2 ^ 32)
      (hnet : net < k.nets.length) (hwidth : (k.netValue net).width = width)
      (hreads : ∀ v ∈ reads, v.width = width)
      (hidle : (k.nba.filter fun u => u.1 = net) = []) : Slot net width reads [] k
  | read {reads : List PackedVec} {log : List (Assignment width)} {k : Kernel}
      (h : Slot net width reads log k) : Slot net width (k.netValue net :: reads) log k
  | blocking {reads : List PackedVec} {log : List (Assignment width)} {k : Kernel}
      (a : Assignment width) (h : Slot net width reads log k) (hread : a.ReadFrom reads) :
      Slot net width reads log (assign k net false a)
  | nonblocking {reads : List PackedVec} {log : List (Assignment width)} {k : Kernel}
      (a : Assignment width) (h : Slot net width reads log k) (hread : a.ReadFrom reads) :
      Slot net width reads (log ++ [a]) (assign k net true a)
  | other {reads : List PackedVec} {log : List (Assignment width)} {k k' : Kernel}
      (h : Slot net width reads log k) (hother : LeavesNet net k k') : Slot net width reads log k'

/-- After the update each bit has the value last scheduled for it, or the one it had before the
update if none was. -/
def Atomic {width : Nat} (log : List (Assignment width)) (k : Kernel) (net : NetId) : Prop :=
  ∀ i < width, (k.drainNba.netValue net).getBit i =
    (lastScheduled log i).getD ((k.netValue net).getBit i)

/-- What an assignment to a bit carries in bit `i`: what was read there, unless the low word of the
index is `i`. -/
def carried (current index src : PackedVec) (i : Nat) : Bit :=
  if index.isKnown = true ∧ index.toU64 = i then src.getBit 0 else current.getBit i

/-- Where the last assignment is one to a bit, it carries in every other bit what was last scheduled
for that bit, or what the variable still has there if nothing was. -/
structure Undisturbed {width : Nat} (log : List (Assignment width)) (k : Kernel) (net : NetId) :
    Prop where
  scheduled : ∀ current index src, log.getLast? = some (.bit current index src) →
    ∀ i < width, ¬ Designates index i → ∀ b, lastScheduled log i = some b →
      carried current index src i = b
  unwritten : ∀ current index src, log.getLast? = some (.bit current index src) →
    ∀ i < width, ¬ Designates index i → lastScheduled log i = none →
      carried current index src i = (k.netValue net).getBit i

/-! ### What a slot keeps -/

section

variable {net : NetId} {width : Nat} {reads : List PackedVec} {log : List (Assignment width)}
  {k : Kernel}

theorem width_indexSet (base index src : PackedVec) :
    (indexSet base index src).width = base.width := by
  unfold indexSet
  split_ifs
  · exact PackedVec.width_setBit _ _ _
  · rfl

theorem getBit_indexSet (base index src : PackedVec) {i : Nat} (hi : i < base.width) :
    (indexSet base index src).getBit i = carried base index src i := by
  unfold indexSet carried
  by_cases hset : SetsBit base index
  · rw [if_pos hset, PackedVec.getBit_setBit]
    by_cases heq : index.toU64 = i
    · rw [if_pos ⟨heq.symm, hset.2⟩, if_pos ⟨hset.1, heq⟩]
    · rw [if_neg fun hc => heq hc.1.symm, if_neg fun hc => heq hc.2]
  · rw [if_neg hset, if_neg]
    rintro ⟨hknown, rfl⟩
    exact hset ⟨hknown, hi⟩

theorem wakes_notify (k : Kernel) (a : Assignment width) : Wakes k (a.notify k) := by
  cases a with
  | whole value hwidth => exact .refl k
  | bit current index src =>
    show Wakes k (if SetsBit current index then k.notifyRuntimeChange else k)
    split_ifs
    · exact wakes_notifyRuntimeChange k
    · exact .refl k

theorem netValue_notify (k : Kernel) (a : Assignment width) (net : NetId) :
    (a.notify k).netValue net = k.netValue net := by
  have hsignals := congrArg Net.value ((wakes_notify k a).signals net)
  exact hsignals

/-- The variable has its width, as had every value that was read, and the updates queued for it are
those of the assignments. -/
structure Queued (net : NetId) (width : Nat) (reads : List PackedVec)
    (log : List (Assignment width)) (k : Kernel) : Prop where
  fits : width < 2 ^ 32
  exist : net < k.nets.length
  keeps : (k.netValue net).width = width
  read : ∀ v ∈ reads, v.width = width
  logged : ∀ a ∈ log, a.vector.width = width
  nba : (k.nba.filter fun u => u.1 = net) = log.map fun a => (net, a.vector)

theorem Queued.width_vector (h : Queued net width reads log k) {a : Assignment width}
    (hread : a.ReadFrom reads) : a.vector.width = width := by
  cases a with
  | whole value hwidth => exact hwidth
  | bit current index src => exact (width_indexSet current index src).trans (h.read current hread)

theorem queued_blocking (h : Queued net width reads log k) {a : Assignment width}
    (hread : a.ReadFrom reads) : Queued net width reads log (assign k net false a) := by
  have hnotify := wakes_notify k a
  have hwrite := wakes_writeNet (a.notify k) net a.vector
  have hexist : net < (a.notify k).nets.length := hnotify.length.symm ▸ h.exist
  have hlength : ((a.notify k).writeNet net a.vector).nets.length = k.nets.length :=
    (hwrite.length.trans (List.length_modify _ _ _)).trans hnotify.length
  refine ⟨h.fits, ?_, ?_, h.read, h.logged, ?_⟩
  · show net < ((a.notify k).writeNet net a.vector).nets.length
    rw [hlength]
    exact h.exist
  · show (((a.notify k).writeNet net a.vector).netValue net).width = width
    rw [netValue_writeNet, if_pos ⟨rfl, hexist⟩]
    exact h.width_vector hread
  · show (((a.notify k).writeNet net a.vector).nba.filter fun u => u.1 = net) = _
    rw [hwrite.nba]
    show ((a.notify k).nba.filter fun u => u.1 = net) = _
    rw [hnotify.nba]
    exact h.nba

theorem queued_nonblocking (h : Queued net width reads log k) {a : Assignment width}
    (hread : a.ReadFrom reads) : Queued net width reads (log ++ [a]) (assign k net true a) := by
  have hnotify := wakes_notify k a
  refine ⟨h.fits, hnotify.length.symm ▸ h.exist, ?_, h.read, fun b hb => ?_, ?_⟩
  · show ((a.notify k).netValue net).width = width
    rw [netValue_notify]
    exact h.keeps
  · rcases List.mem_append.mp hb with hold | hnew
    · exact h.logged b hold
    · rw [List.mem_singleton.mp hnew]
      exact h.width_vector hread
  · show (((a.notify k).nba ++ [(net, a.vector)]).filter fun u => u.1 = net) = _
    rw [hnotify.nba, List.filter_append, h.nba, List.map_append,
      List.filter_cons_of_pos (by simp)]
    rfl

/-- By induction on the slot. -/
theorem Slot.queued (h : Slot net width reads log k) : Queued net width reads log k := by
  induction h with
  | start hu32 hnet hwidth hreads hidle =>
    exact ⟨hu32, hnet, hwidth, hreads, fun a ha => absurd ha List.not_mem_nil, hidle⟩
  | read _ ih =>
    refine ⟨ih.fits, ih.exist, ih.keeps, fun v hv => ?_, ih.logged, ih.nba⟩
    rcases List.mem_cons.mp hv with rfl | hold
    · exact ih.keeps
    · exact ih.read v hold
  | blocking a _ hread ih => exact queued_blocking ih hread
  | nonblocking a _ hread ih => exact queued_nonblocking ih hread
  | other _ hother ih =>
    refine ⟨ih.fits, Nat.lt_of_lt_of_le ih.exist hother.length, ?_, ih.read, ih.logged,
      hother.nba.trans ih.nba⟩
    rw [hother.value]
    exact ih.keeps

/-- The last assignment decides the whole variable. -/
theorem netValue_update (h : Queued net width reads log k) :
    k.drainNba.netValue net = (log.getLast?.map Assignment.vector).getD (k.netValue net) := by
  have hbatch : k.drainNba.netValue net =
      (((k.nba.filter fun u => u.1 = net).getLast?).map Prod.snd).getD (k.netValue net) :=
    netValue_batch k.nba { k with nba := [] } h.exist
  rw [hbatch, h.nba, List.getLast?_map]
  cases log.getLast? <;> rfl

theorem lastScheduled_of_getLast {a : Assignment width} {i : Nat} {b : Bit}
    (hlast : log.getLast? = some a) (hb : a.assigned i = some b) :
    lastScheduled log i = some b := by
  obtain ⟨init, rfl⟩ := List.getLast?_eq_some_iff.mp hlast
  have hsingle : ([a].filterMap fun a => a.assigned i) = [b] := by
    rw [List.filterMap_cons_some hb, List.filterMap_nil]
  unfold lastScheduled
  rw [List.filterMap_append, hsingle, List.getLast?_append, List.getLast?_singleton]
  rfl

/-- The width of a variable fits in a word, so that an index that designates a bit is its low
word. -/
theorem carried_of_designates (h : Queued net width reads log k) {index : PackedVec} {i : Nat}
    (hi : i < width) (hindex : Designates index i) (current src : PackedVec) :
    carried current index src i = src.getBit 0 := by
  have hfits : i < 2 ^ 64 := Nat.lt_trans (Nat.lt_trans hi h.fits) (by decide)
  have hword : index.toU64 = i := by
    rw [toU64_eq, hindex.2, Nat.mod_eq_of_lt hfits]
  exact if_pos ⟨hindex.1, hword⟩

end

/-- A variable of four bits. -/
def nibble : Kernel := newNet .new (.zero 4)

/-- An assignment to one of its bits, which has read it as zero. -/
def toBit (index : BitVec 64) (src : PackedVec) : Assignment 4 :=
  .bit (.zero 4) (.fromU64 index 32) src

/-- Two assignments that are executed one after the other. -/
def twice (a b : Assignment 4) : Kernel := assign (assign nibble 0 true a) 0 true b

theorem slot_twice (i j : BitVec 64) (src src' : PackedVec) :
    Slot 0 4 [.zero 4] [toBit i src, toBit j src'] (twice (toBit i src) (toBit j src')) := by
  have hstart : Slot 0 4 [] ([] : List (Assignment 4)) nibble :=
    .start (by decide) (by decide) (by decide) (by simp) rfl
  have hread : Slot 0 4 [.zero 4] ([] : List (Assignment 4)) nibble := hstart.read
  exact (hread.nonblocking (toBit i src) (List.mem_singleton.mpr rfl)).nonblocking (toBit j src')
    (List.mem_singleton.mpr rfl)

end Eevee.Sched.VariableWrites
