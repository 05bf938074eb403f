/- The bits that the indexes of a declared packed range stand for, and those that are accessed. -/

import Mathlib.Data.List.Basic
import Mathlib.Tactic.Common
import Mathlib.Tactic.SplitIfs
import Eevee.Elab.Evaluation
import Eevee.Elab.Hierarchy
import Eevee.Elab.Targets
import Eevee.Ir.Selects

set_option autoImplicit false
set_option relaxedAutoImplicit false

namespace Eevee.Elab.Ranges

open Eevee.Ast.Syntax
open Eevee.Core.Logic
open Eevee.Core.Numeric
open Eevee.Ir.Inst
open Eevee.Ir.Values (World Value execValue)
open Eevee.Ir.Objects (State Val assignmentCopy)
open Eevee.Ir.Locations (exec_indexSet indexSet_logic updates_blockingWrite)
open Eevee.Ir.Selects
open Eevee.Elab.Generator
open Eevee.Elab.Evaluation
open Eevee.Elab.Hierarchy (resolveRangeBounds resolveDeclaredWidth)
open Eevee.Elab.Targets
open Eevee.Ir.XSound (getBit_selectLogic)

/-! ### Positions -/

/-- The value of an index expression, which is signed or not. -/
structure Index where
  value : PackedVec
  signed : Bool

/-- The integer that an index stands for; an unknown index stands for none. -/
def Index.number (idx : Index) : Option Int :=
  if idx.value.isKnown then some (if idx.signed then toInt idx.value else toNat idx.value) else none

/-- The position that declaration order gives to an index: the distance from the right bound. -/
def declaredPosition (l r : Int) : Option Int → Option Nat
  | some n => if min l r ≤ n ∧ n ≤ max l r then some (n - r).natAbs else none
  | none => none

/-- The position that the code takes for an index: its low word. -/
def rawPosition (v index : PackedVec) : Option Nat :=
  if index.isKnown ∧ index.toU64 < v.width then some index.toU64 else none

/-- No position reads X. -/
def bitAt (v : PackedVec) : Option Nat → Bit
  | some p => v.getBit p
  | none => .x

def writeAt (v : PackedVec) (bit : Bit) : Option Nat → PackedVec
  | some p => v.setBit p bit
  | none => v

/-- The indexes of a range from the left bound to the right one. -/
def indices (l r : Int) : List Int :=
  (List.range ((l - r).natAbs + 1)).map fun (k : Nat) => if r ≤ l then l - k else l + k

/-- The index `k` steps before a right bound. -/
def before (left right : Int) (k : Nat) : Int := if right ≤ left then right + k else right - k

/-! ### Accesses -/

/-- A bit-select reads the bit that is declared for the index. -/
def ReadsDeclared (l r : Int) (v : PackedVec) (idx : Index) (result : Option Value) : Prop :=
  ∃ bit, result = some (.logic bit) ∧ bit.width = 1 ∧
    bit.getBit 0 = bitAt v (declaredPosition l r idx.number)

/-- A write to a bit-select writes the bit that is declared for the index. -/
def WritesDeclared (l r : Int) (v : PackedVec) (idx : Index) (bit : Bit)
    (result : Option PackedVec) : Prop :=
  result = some (writeAt v bit (declaredPosition l r idx.number))

/-- A part-select reads the bits that are declared from the left bound to the right one. -/
def SelectsDeclared (l r : Int) (v : PackedVec) (left right : Int) (result : Option Value) : Prop :=
  ∃ selected, result = some (.logic selected) ∧ selected.width = (left - right).natAbs + 1 ∧
    ∀ k ≤ (left - right).natAbs,
      selected.getBit k = bitAt v (declaredPosition l r (some (before left right k)))

/-- Two positions read the same; a Z bit reads X. -/
def SameBit (v : PackedVec) (p q : Option Nat) : Prop :=
  bitAt v p ≠ .z ∧ (bitAt v q = bitAt v p ∨ bitAt v q = .z ∧ bitAt v p = .x)

/-- A bit may be written to either position: they are the same, or both hold it. -/
def SameWrite (v : PackedVec) (bit : Bit) (p q : Option Nat) : Prop :=
  p = q ∨ (∀ i ∈ p, v.getBit i = bit) ∧ ∀ i ∈ q, v.getBit i = bit

section

variable {l r : Int} {v : PackedVec}

theorem declaredPosition_lt {n : Option Int} {p : Nat} (h : declaredPosition l r n = some p) :
    p < (l - r).natAbs + 1 := by
  cases n with
  | none => cases h
  | some n =>
    rw [declaredPosition] at h
    split_ifs at h with hrange
    cases h
    omega

theorem rawPosition_lt {index : PackedVec} {q : Nat} (h : rawPosition v index = some q) :
    q < v.width := by
  unfold rawPosition at h
  split_ifs at h with hindex
  cases h
  exact hindex.2

theorem getBit_indexLogic_raw (v index : PackedVec) : (indexLogic v index).getBit 0 =
    if bitAt v (rawPosition v index) = .z then .x else bitAt v (rawPosition v index) := by
  unfold indexLogic rawPosition
  split_ifs with hindex hz hz
  · exact (PackedVec.getBit_fromBit _).trans (if_pos hz)
  · exact (PackedVec.getBit_fromBit _).trans (if_neg hz)
  · cases hz
  · rfl

/-- The bit that is read is the one declared if the positions read the same. -/
theorem reads_iff (idx : Index) :
    ReadsDeclared l r v idx (some (.logic (indexLogic v idx.value))) ↔
      SameBit v (declaredPosition l r idx.number) (rawPosition v idx.value) := by
  have hread : ReadsDeclared l r v idx (some (.logic (indexLogic v idx.value))) ↔
      (indexLogic v idx.value).getBit 0 = bitAt v (declaredPosition l r idx.number) := by
    constructor
    · rintro ⟨bit, hbit, -, hget⟩
      cases hbit
      exact hget
    · exact fun hget => ⟨_, rfl, width_indexLogic _ _, hget⟩
  rw [hread, getBit_indexLogic_raw]
  unfold SameBit
  generalize bitAt v (declaredPosition l r idx.number) = b
  generalize bitAt v (rawPosition v idx.value) = c
  cases b <;> cases c <;> decide

theorem setBit_eq_self {v : PackedVec} {bit : Bit} {p : Nat} (h : v.getBit p = bit) :
    v.setBit p bit = v := by
  refine PackedVec.ext_bits (PackedVec.width_setBit _ _ _) fun j _ => ?_
  rw [PackedVec.getBit_setBit]
  split_ifs with hj
  · rw [hj.1, h]
  · rfl

theorem setBit_eq_iff {v : PackedVec} {bit : Bit} {p q : Nat} (hp : p < v.width)
    (hq : q < v.width) :
    v.setBit q bit = v.setBit p bit ↔ p = q ∨ v.getBit p = bit ∧ v.getBit q = bit := by
  constructor
  · intro h
    by_cases hpq : p = q
    · exact .inl hpq
    have hbit : ∀ j, (v.setBit q bit).getBit j = (v.setBit p bit).getBit j := fun j => by rw [h]
    have hp' := hbit p
    have hq' := hbit q
    rw [PackedVec.getBit_setBit, PackedVec.getBit_setBit, if_neg fun hc => hpq hc.1,
      if_pos ⟨rfl, hp⟩] at hp'
    rw [PackedVec.getBit_setBit, PackedVec.getBit_setBit, if_pos ⟨rfl, hq⟩,
      if_neg fun hc => hpq hc.1.symm] at hq'
    exact .inr ⟨hp', hq'.symm⟩
  · rintro (rfl | ⟨hp', hq'⟩)
    · rfl
    · rw [setBit_eq_self hq', setBit_eq_self hp']

/-- Writes to two positions have the same effect if the positions are the same or hold the bit. -/
theorem writes_iff {bit : Bit} {p q : Option Nat} (hp : ∀ i ∈ p, i < v.width)
    (hq : ∀ i ∈ q, i < v.width) : writeAt v bit q = writeAt v bit p ↔ SameWrite v bit p q := by
  have hself : ∀ i < v.width, v.setBit i bit = v ↔ v.getBit i = bit := fun i hi => by
    refine ⟨fun h => ?_, setBit_eq_self⟩
    rw [← h, PackedVec.getBit_setBit, if_pos ⟨rfl, hi⟩]
  unfold SameWrite
  cases p with
  | none =>
    cases q with
    | none => simp [writeAt]
    | some q => simp [writeAt, hself q (hq q rfl)]
  | some p =>
    cases q with
    | none => simp [writeAt, eq_comm (a := v), hself p (hp p rfl)]
    | some q => simp [writeAt, setBit_eq_iff (hp p rfl) (hq q rfl)]

end

/-! ### Writes -/

/-- The code of an indexed assignment to a net writes the bit at the raw position. -/
theorem runCode_netWrite {E : Type} {ctx : Context E} {lhs : Lvalue E} {e : E} {src next : Nat}
    {id width : Nat} (hsignal : ctx.indexedSignal lhs = some (.net id width)) {s t : State}
    (hpiece : (ctx.genExpr e (next + 1)).run (s.setReg next (.logic (s.nets id))) = some t)
    (htemps : ctx.temps ≤ next) (hnet : t.nets id = s.nets id) {index bits : PackedVec}
    (hindex : t.regs (ctx.genExpr e (next + 1)).reg = .logic index)
    (hsrc : t.regs src = .logic bits) :
    ((ctx.genAssignIndexed lhs e src next).bind (runCode s)).map (·.nets id) =
      some (writeAt (t.nets id) (bits.getBit 0) (rawPosition (t.nets id) index)) := by
  have hcurrent : t.regs next = .logic (s.nets id) := by
    rw [(ctx.fresh e (next + 1) (Nat.le_succ_of_le htemps)).keeps _ _ hpiece next htemps
      (Nat.lt_succ_self next)]
    exact Function.update_self next _ _
  have hcopy : assignmentCopy t.heap (t.regs src) = some (t.heap, .logic bits) := by
    rw [hsrc]
    rfl
  have hset : Ir.Objects.exec t (.indexSet next (ctx.genExpr e (next + 1)).reg src) =
      if index.isKnown ∧ index.toU64 < (t.nets id).width then
        some (t.setReg next (.logic ((t.nets id).setBit index.toU64 (bits.getBit 0))))
      else some t := by
    rw [exec_indexSet hcopy, hindex, hnet]
    exact indexSet_logic hcurrent _
  have hwrite : ∀ u v, u.regs next = .logic v →
      Ir.Objects.exec u (.blockingWrite id next) = some (u.setNet id v) := fun u v hu =>
    (updates_blockingWrite (by rw [hu]; rfl)).1
  rw [Context.genAssignIndexed_net hsignal, Option.bind_some,
    runCode_inst (t := s.setReg next (.logic (s.nets id))) rfl, runCode_piece hpiece]
  unfold rawPosition
  split_ifs at hset ⊢ with hlt
  · rw [runCode_inst hset, runCode_single, hwrite _ _ (Function.update_self next _ _)]
    exact congrArg some (Function.update_self id _ _)
  · rw [runCode_inst hset, runCode_single, hwrite _ _ hcurrent]
    exact congrArg some ((Function.update_self id _ _).trans hnet.symm)

/-! ### Bit-selects of all indexes, and part-selects -/

section

variable {l r : Int} {v : PackedVec}

theorem length_indices (l r : Int) : (indices l r).length = (l - r).natAbs + 1 := by
  rw [indices, List.length_map, List.length_range]

theorem getD_indices {l r : Int} {k : Nat} (hk : k ≤ (l - r).natAbs) (d : Int) :
    (indices l r).reverse.getD k d = before l r k := by
  have hlen : k < (indices l r).reverse.length := by
    rw [List.length_reverse, length_indices]
    omega
  rw [List.getD_eq_getElem _ _ hlen, List.getElem_reverse]
  unfold indices before
  simp only [List.getElem_map, List.getElem_range, List.length_map, List.length_range]
  split_ifs <;> omega

theorem declaredPosition_before {k : Nat} (hk : k ≤ (l - r).natAbs) :
    declaredPosition l r (some (before l r k)) = some k := by
  have hbounds :
      min l r ≤ before l r k ∧ before l r k ≤ max l r ∧ (before l r k - r).natAbs = k := by
    unfold before
    split_ifs <;> omega
  exact (if_pos ⟨hbounds.1, hbounds.2.1⟩).trans (congrArg some hbounds.2.2)

theorem mem_indices {n : Int} : n ∈ indices l r ↔ ∃ k ≤ (l - r).natAbs, before l r k = n := by
  have hlen : ∀ {k}, k ≤ (l - r).natAbs ↔ k < (indices l r).reverse.length := fun {k} => by
    rw [List.length_reverse, length_indices, Nat.lt_succ_iff]
  rw [← List.mem_reverse]
  constructor
  · intro hn
    obtain ⟨k, hk, rfl⟩ := List.mem_iff_getElem.mp hn
    exact ⟨k, hlen.mpr hk, by rw [← getD_indices (hlen.mpr hk) 0, List.getD_eq_getElem _ _ hk]⟩
  · rintro ⟨k, hk, rfl⟩
    rw [← getD_indices hk 0, List.getD_eq_getElem _ _ (hlen.mp hk)]
    exact List.getElem_mem _

/-- The bit-selects at all indexes make up the vector if each reads the bit at its position. -/
theorem whole_iff (hwidth : v.width = (l - r).natAbs + 1) {idx : Int → Index}
    (hidx : ∀ n ∈ indices l r, (idx n).number = some n) :
    concatAll ((indices l r).map fun n => indexLogic v (idx n).value) = v ↔
      ∀ n ∈ indices l r,
        SameBit v (declaredPosition l r (some n)) (rawPosition v (idx n).value) := by
  have hone : ∀ p ∈ (indices l r).map fun n => indexLogic v (idx n).value, p.width = 1 := by
    intro p hp
    obtain ⟨n, -, rfl⟩ := List.mem_map.mp hp
    exact width_indexLogic _ _
  have hne : ((indices l r).map fun n => indexLogic v (idx n).value) ≠ [] := by
    intro hnil
    have hlen := congrArg List.length hnil
    rw [List.length_map, length_indices] at hlen
    cases hlen
  have hbit : ∀ k ≤ (l - r).natAbs,
      (concatAll ((indices l r).map fun n => indexLogic v (idx n).value)).getBit k =
        (indexLogic v (idx (before l r k)).value).getBit 0 := by
    intro k hk
    rw [getBit_concatAll hone (by rw [List.length_map, length_indices]; omega)
      (indexLogic v (idx 0).value), ← List.map_reverse, List.getD_map, getD_indices hk]
  have hread : ∀ k ≤ (l - r).natAbs, (indexLogic v (idx (before l r k)).value).getBit 0 =
        v.getBit k ↔ SameBit v (declaredPosition l r (some (before l r k)))
          (rawPosition v (idx (before l r k)).value) := by
    intro k hk
    have hn : (idx (before l r k)).number = some (before l r k) :=
      hidx _ (mem_indices.mpr ⟨k, hk, rfl⟩)
    rw [← hn, ← reads_iff]
    constructor
    · intro h
      refine ⟨_, rfl, width_indexLogic _ _, ?_⟩
      rw [hn, declaredPosition_before hk]
      exact h
    · rintro ⟨bit, hbit, -, hget⟩
      cases hbit
      rwa [hn, declaredPosition_before hk] at hget
  constructor
  · intro h n hn
    obtain ⟨k, hk, rfl⟩ := mem_indices.mp hn
    refine (hread k hk).mp ?_
    rw [← hbit k hk, h]
  · intro h
    refine PackedVec.ext_bits ?_ fun k hk => ?_
    · rw [width_concatAll hne hone, List.length_map, length_indices, hwidth]
    · rw [width_concatAll hne hone, List.length_map, length_indices] at hk
      have hk' : k ≤ (l - r).natAbs := by omega
      rw [hbit k hk']
      exact (hread k hk').mpr (h _ (mem_indices.mpr ⟨k, hk', rfl⟩))

/-- The part-select reads the bits that are declared if its raw positions hold them. -/
theorem selects_iff {left right : Int} {a b : Nat} :
    SelectsDeclared l r v left right (some (.logic (selectLogic v a b))) ↔
      span a b = (left - right).natAbs ∧ ∀ k ≤ (left - right).natAbs,
        v.getBit (place a b k) =
          bitAt v (declaredPosition l r (some (before left right k))) := by
  constructor
  · rintro ⟨selected, hsel, hwidth, hbits⟩
    cases hsel
    rw [width_selectLogic] at hwidth
    have hspan : span a b = (left - right).natAbs := by omega
    refine ⟨hspan, fun k hk => ?_⟩
    rw [← hbits k hk, getBit_selectLogic, selectBit_eq v (hspan ▸ hk)]
  · rintro ⟨hspan, hbits⟩
    refine ⟨_, rfl, by rw [width_selectLogic, hspan], fun k hk => ?_⟩
    rw [← hbits k hk, getBit_selectLogic, selectBit_eq v (hspan ▸ hk)]

end

/-! ### The code of the accesses -/

/-- The name stands for a net of the module, which a variable of a module is as well. -/
structure NamesNet (cg : CodeGen) (name : String) (net width : Nat) : Prop where
  locals : cg.locals name = none
  vars : cg.vars name = none
  consts : cg.consts name = none
  memories : cg.memories name = none
  nets : cg.nets name = some (net, width)

/-- An assignment to a bit of a net, from `s` on: in `t` its index and its value are evaluated, and
the net is as it was. -/
structure BitWrite {E : Type} (ctx : Context E) (lhs : Lvalue E) (e : E) (src next net : Nat)
    (s t : State) (index bits : PackedVec) : Prop where
  signal : ∃ width, ctx.indexedSignal lhs = some (.net net width)
  temps : ctx.temps ≤ next
  evaluates : (ctx.genExpr e (next + 1)).run (s.setReg next (.logic (s.nets net))) = some t
  kept : t.nets net = s.nets net
  index : t.regs (ctx.genExpr e (next + 1)).reg = .logic index
  source : t.regs src = .logic bits

section

variable {cg : CodeGen} {W : World} {σ : Store} {name : String} {net width : Nat}

theorem evalExpr_net (h : NamesNet cg name net width) :
    evalExpr cg W σ (.ref name) = some (.logic (W.nets net)) := by
  rw [evalExpr, evalRef, h.locals, h.vars, h.consts, h.memories, h.nets]

theorem evalExpr_index (h : NamesNet cg name net width) {e : Expr} {index : PackedVec}
    (he : evalExpr cg W σ e = some (.logic index)) :
    evalExpr cg W σ (.index (.ref name) e) = some (.logic (indexLogic (W.nets net) index)) := by
  have hmemory : cg.memoryOf (.ref name) = none := h.memories
  rw [evalExpr, hmemory, evalExpr_net h, he]
  rfl

theorem evalExprs_indexes (h : NamesNet cg name net width) (idx : Int → Index) (ns : List Int) :
    evalExprs cg W σ (ns.map fun n => .index (.ref name) (.literal (idx n).value)) =
      some ((ns.map fun n => indexLogic (W.nets net) (idx n).value).map .logic) := by
  induction ns with
  | nil => rfl
  | cons n ns ih =>
    rw [List.map_cons, evalExprs, evalExpr_index h rfl, ih]
    rfl

theorem evalExpr_whole (h : NamesNet cg name net width) (idx : Int → Index) (l r : Int) :
    evalExpr cg W σ (.concat ((indices l r).map fun n =>
      .index (.ref name) (.literal (idx n).value))) =
        some (.logic (concatAll ((indices l r).map fun n =>
          indexLogic (W.nets net) (idx n).value))) := by
  rw [evalExpr, evalExprs_indexes h]
  exact Ir.Values.execValue_concat _

theorem evalExpr_partSelect (h : NamesNet cg name net width) {a b : Expr} {left right : PackedVec}
    (ha : evalExpr cg W σ a = some (.logic left)) (hb : evalExpr cg W σ b = some (.logic right)) :
    evalExpr cg W σ (.partSelect (.ref name) a b) =
      some (.logic (selectLogic (W.nets net) left.toU32 right.toU32)) := by
  rw [evalExpr, evalExpr_net h, ha, hb]
  rfl

end

/-- The width is the number of the indexes. -/
theorem width_of_range {fallback width : Nat} {range : Ast.Modules.PackedRange}
    {consts : Const.Evaluators.Constants} {l r : Int}
    (hbounds : resolveRangeBounds range consts = some (l, r))
    (hwidth : resolveDeclaredWidth fallback (some range) consts = some width) :
    width = (l - r).natAbs + 1 := by
  rw [resolveDeclaredWidth, hbounds, Option.bind_some] at hwidth
  dsimp only at hwidth
  split_ifs at hwidth with hlt
  exact (Option.some.inj hwidth).symm

/-- Only the width of a declared range is left after elaboration, and every access takes the low
word of an index for the position. So a bit-select reads and writes the bit that is declared if the
two positions hold the same bit; the bit-selects of all indexes are the vector if that is so for
each; and a part-select is right if its raw positions hold the bits that are declared. -/
theorem declared_range_iff {cg : CodeGen} {W : World} {σ : Store} {name : String} {net width : Nat}
    (hname : NamesNet cg name net width) {range : Ast.Modules.PackedRange}
    {consts : Const.Evaluators.Constants} {l r : Int} {fallback : Nat}
    (hbounds : resolveRangeBounds range consts = some (l, r))
    (hwidth : resolveDeclaredWidth fallback (some range) consts = some (W.nets net).width)
    {idx : Int → Index} (hidx : ∀ n ∈ indices l r, (idx n).number = some n) :
    (∀ (e : Expr) (i : Index), evalExpr cg W σ e = some (.logic i.value) →
      (ReadsDeclared l r (W.nets net) i (evalExpr cg W σ (.index (.ref name) e)) ↔
        SameBit (W.nets net) (declaredPosition l r i.number) (rawPosition (W.nets net) i.value))) ∧
    (∀ {E : Type} (ctx : Context E) (lhs : Lvalue E) (e : E) (src next : Nat) (s t : State)
      (i : Index) (bits : PackedVec), s.nets net = W.nets net →
      BitWrite ctx lhs e src next net s t i.value bits →
      (WritesDeclared l r (W.nets net) i (bits.getBit 0)
          (((ctx.genAssignIndexed lhs e src next).bind (runCode s)).map (·.nets net)) ↔
        SameWrite (W.nets net) (bits.getBit 0) (declaredPosition l r i.number)
          (rawPosition (W.nets net) i.value))) ∧
    (evalExpr cg W σ (.concat ((indices l r).map fun n =>
        .index (.ref name) (.literal (idx n).value))) = some (.logic (W.nets net)) ↔
      ∀ n ∈ indices l r, SameBit (W.nets net) (declaredPosition l r (some n))
        (rawPosition (W.nets net) (idx n).value)) ∧
    (∀ (a b : Expr) (left right : Index) (m n : Int), left.number = some m →
      right.number = some n → evalExpr cg W σ a = some (.logic left.value) →
      evalExpr cg W σ b = some (.logic right.value) →
      (SelectsDeclared l r (W.nets net) m n (evalExpr cg W σ (.partSelect (.ref name) a b)) ↔
        span left.value.toU32 right.value.toU32 = (m - n).natAbs ∧ ∀ k ≤ (m - n).natAbs,
          (W.nets net).getBit (place left.value.toU32 right.value.toU32 k) =
            bitAt (W.nets net) (declaredPosition l r (some (before m n k))))) := by
  have hv : (W.nets net).width = (l - r).natAbs + 1 := width_of_range hbounds hwidth
  refine ⟨fun e i he => ?_, fun ctx lhs e src next s t i bits hs hwrite => ?_, ?_,
    fun a b left right m n _ _ ha hb => ?_⟩
  · rw [evalExpr_index hname he]
    exact reads_iff i
  · obtain ⟨width', hsignal⟩ := hwrite.signal
    rw [runCode_netWrite hsignal hwrite.evaluates hwrite.temps hwrite.kept hwrite.index
      hwrite.source, hwrite.kept, hs, WritesDeclared, Option.some_inj]
    exact writes_iff (fun p hp => hv ▸ declaredPosition_lt hp) fun q hq => rawPosition_lt hq
  · rw [evalExpr_whole hname, Option.some_inj, Value.logic.injEq]
    exact whole_iff hv hidx
  · rw [evalExpr_partSelect hname ha hb]
    exact selects_iff

/-- A module with a vector of four bits. -/
def vectorScope : CodeGen where
  locals _ := none
  localSigned _ := none
  vars _ := none
  varWidths _ := none
  varSigned _ := none
  consts _ := none
  memories _ := none
  nets name := if name = "v" then some (0, 4) else none
  netSigned _ := none
  returnType := none

theorem namesNet_vectorScope : NamesNet vectorScope "v" 0 4 := ⟨rfl, rfl, rfl, rfl, rfl⟩

def bound (n : BitVec 64) : Expr := .literal (.fromU64 n 3)

theorem resolveRangeBounds_bound (m n : BitVec 64) (consts : Const.Evaluators.Constants) :
    resolveRangeBounds ⟨bound m, bound n⟩ consts =
      some (Ir.Objects.toI64 (.fromU64 m 3), Ir.Objects.toI64 (.fromU64 n 3)) := by
  have heval : ∀ n, Hierarchy.evaluateGenerateConstant consts (bound n) = some (.fromU64 n 3) := by
    intro n
    unfold Hierarchy.evaluateGenerateConstant Hierarchy.tryConstEvalWith bound
    rw [Const.Evaluators.Elab.tryConstEvalWith]
    exact Option.filter_some_pos (isKnown_fromU64 n 3)
  rw [resolveRangeBounds, heval, heval]
  rfl

theorem resolveDeclaredWidth_bound (fallback : Nat) (m n : BitVec 64)
    (consts : Const.Evaluators.Constants) :
    resolveDeclaredWidth fallback (some ⟨bound m, bound n⟩) consts =
      let width := (Ir.Objects.toI64 (.fromU64 m 3) - Ir.Objects.toI64 (.fromU64 n 3)).natAbs + 1
      if width < UInt32.size then some width else none := by
  rw [resolveDeclaredWidth, resolveRangeBounds_bound]
  rfl

theorem declared_range_descending : ReadsDeclared 3 0 (.fromU64 5 4) ⟨.fromU64 2 3, true⟩
    (evalExpr vectorScope ⟨fun _ => .fromU64 5 4, fun _ => .null⟩ (fun _ => .null)
      (.index (.ref "v") (bound 2))) := by
  have hbounds : resolveRangeBounds ⟨bound 3, bound 0⟩ (fun _ => none) = some (3, 0) :=
    (resolveRangeBounds_bound 3 0 _).trans (by decide)
  have hwidth : resolveDeclaredWidth 1 (some ⟨bound 3, bound 0⟩) (fun _ => none) = some 4 :=
    (resolveDeclaredWidth_bound 1 3 0 _).trans (by decide)
  have hidx : ∀ n ∈ indices 3 0, Index.number ⟨.fromU64 (.ofInt 64 n) 3, true⟩ = some n := by decide
  have h := (declared_range_iff (W := ⟨fun _ => .fromU64 5 4, fun _ => .null⟩)
    (σ := fun _ => .null) namesNet_vectorScope hbounds hwidth hidx).1 (bound 2)
      ⟨.fromU64 2 3, true⟩ rfl
  refine h.mpr ?_
  unfold SameBit
  decide

/-- The vector `[0:3] v` with the value one: the leftmost bit is `v[0]`, and the code reads the
rightmost one. -/
theorem ascending_reads_wrong_bit :
    resolveRangeBounds ⟨bound 0, bound 3⟩ (fun _ => none) = some (0, 3) ∧
    resolveDeclaredWidth 1 (some ⟨bound 0, bound 3⟩) (fun _ => none) = some 4 ∧
    ¬ ReadsDeclared 0 3 (.fromU64 1 4) ⟨.fromU64 0 3, true⟩
      (evalExpr vectorScope ⟨fun _ => .fromU64 1 4, fun _ => .null⟩ (fun _ => .null)
        (.index (.ref "v") (bound 0))) := by
  refine ⟨(resolveRangeBounds_bound 0 3 _).trans (by decide),
    (resolveDeclaredWidth_bound 1 0 3 _).trans (by decide), fun h => ?_⟩
  rw [evalExpr_index namesNet_vectorScope rfl] at h
  have hsame := (reads_iff ⟨.fromU64 0 3, true⟩).mp h
  unfold SameBit at hsame
  exact absurd hsame (by decide)

end Eevee.Elab.Ranges
