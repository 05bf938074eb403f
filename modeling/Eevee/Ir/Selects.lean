/- Bit-selects, part-selects and concatenation, position by position. -/

import Mathlib.Data.List.Basic
import Mathlib.Tactic.Common
import Mathlib.Tactic.SplitIfs
import Eevee.Core.Numeric
import Eevee.Ir.XSound

set_option autoImplicit false
set_option relaxedAutoImplicit false

namespace Eevee.Ir.Selects

open Eevee.Core.Alu
open Eevee.Core.Logic
open Eevee.Core.Numeric
open Eevee.Ir.Inst
open Eevee.Lib.Binary (value value_testBit value_congr)
open Eevee.Ir.XSound (getBit_selectLogic selectBit)

/-! ### Concatenations of single bits -/

theorem width_foldl_concat (parts : List PackedVec) (acc : PackedVec)
    (hparts : ∀ p ∈ parts, p.width = 1) :
    (parts.foldl PackedVec.concat acc).width = acc.width + parts.length := by
  induction parts generalizing acc with
  | nil => rfl
  | cons p parts ih =>
    rw [List.foldl_cons, ih _ fun q hq => hparts q (List.mem_cons_of_mem _ hq),
      PackedVec.width_concat, hparts p List.mem_cons_self, List.length_cons]
    omega

/-- The last part is the lowest bit; what stood before the parts is moved up past them. -/
theorem getBit_foldl_concat (parts : List PackedVec) (acc : PackedVec)
    (hparts : ∀ p ∈ parts, p.width = 1) {k : Nat} (hk : k < acc.width + parts.length) :
    (parts.foldl PackedVec.concat acc).getBit k =
      if k < parts.length then (parts.reverse.getD k acc).getBit 0
      else acc.getBit (k - parts.length) := by
  induction parts generalizing acc with
  | nil => rfl
  | cons p parts ih =>
    have hp : p.width = 1 := hparts p List.mem_cons_self
    have hrest : ∀ q ∈ parts, q.width = 1 := fun q hq => hparts q (List.mem_cons_of_mem _ hq)
    have hlen : k < acc.width + (parts.length + 1) := hk
    rw [List.foldl_cons, ih _ hrest (by rw [PackedVec.width_concat, hp]; omega),
      List.reverse_cons, List.length_cons]
    rcases Nat.lt_trichotomy k parts.length with hlt | rfl | hgt
    · have hin : k < parts.reverse.length := by rwa [List.length_reverse]
      rw [if_pos hlt, if_pos (Nat.lt_succ_of_lt hlt), List.getD_append _ _ _ _ hin,
        List.getD_eq_getElem _ _ hin, List.getD_eq_getElem _ _ hin]
    · have hlast : (parts.reverse ++ [p]).getD parts.length acc = p := by
        rw [List.getD_append_right _ _ _ _ (by simp)]
        simp
      rw [if_neg (Nat.lt_irrefl _), if_pos (Nat.lt_succ_self _), hlast, Nat.sub_self,
        PackedVec.getBit_concat _ _ (by rw [hp]; omega), hp]
      rfl
    · have hge : ¬ k - parts.length < p.width := by rw [hp]; omega
      rw [if_neg (Nat.lt_asymm hgt), if_neg (by omega),
        PackedVec.getBit_concat _ _ (by rw [hp]; omega), if_neg hge, hp]
      congr 1

theorem width_concatAll {parts : List PackedVec} (hne : parts ≠ [])
    (hparts : ∀ p ∈ parts, p.width = 1) : (concatAll parts).width = parts.length := by
  cases parts with
  | nil => exact absurd rfl hne
  | cons p parts =>
    show (parts.foldl PackedVec.concat p).width = _
    rw [width_foldl_concat _ _ fun q hq => hparts q (List.mem_cons_of_mem _ hq),
      hparts p List.mem_cons_self, List.length_cons, Nat.add_comm]

/-- The single bits of a concatenation, counted from its last operand. -/
theorem getBit_concatAll {parts : List PackedVec} (hparts : ∀ p ∈ parts, p.width = 1) {k : Nat}
    (hk : k < parts.length) (d : PackedVec) :
    (concatAll parts).getBit k = (parts.reverse.getD k d).getBit 0 := by
  cases parts with
  | nil => exact absurd hk (Nat.not_lt_zero _)
  | cons p parts =>
    have hp : p.width = 1 := hparts p List.mem_cons_self
    have hlen : k < parts.length + 1 := hk
    show (parts.foldl PackedVec.concat p).getBit k = _
    rw [getBit_foldl_concat _ _ (fun q hq => hparts q (List.mem_cons_of_mem _ hq))
      (by rw [hp]; omega), List.reverse_cons]
    by_cases hlt : k < parts.length
    · have hin : k < parts.reverse.length := by rwa [List.length_reverse]
      rw [if_pos hlt, List.getD_append _ _ _ _ hin, List.getD_eq_getElem _ _ hin,
        List.getD_eq_getElem _ _ hin]
    · obtain rfl : k = parts.length := by omega
      rw [if_neg hlt, Nat.sub_self, List.getD_append_right _ _ _ _ (by simp)]
      simp

/-! ### The two selects -/

/-- A known index vector for each number. -/
structure Indexes (idx : Nat → PackedVec) : Prop where
  known : ∀ i, (idx i).isKnown = true
  value : ∀ i, toNat (idx i) = i

/-- The positions from `l` towards `r`, both included. -/
def between (l r : Nat) : List Nat :=
  if r ≤ l then ((List.range (l - r + 1)).map (r + ·)).reverse
  else (List.range (r - l + 1)).map (l + ·)

/-- The number of steps from `l` to `r`. -/
def span (l r : Nat) : Nat := if r ≤ l then l - r else r - l

/-- The position `k` steps before the right bound. -/
def place (l r k : Nat) : Nat := if r ≤ l then r + k else r - k

/-- The part-select at constant bounds is the concatenation of the bit-selects from the left bound
towards the right one. -/
def SelectsAgree (idx : Nat → PackedVec) (v left right : PackedVec) : Prop :=
  LogicInst.exec (.partSelect v left right) =
    some (concatAll ((between (toNat left) (toNat right)).map fun i => indexLogic v (idx i)))

/-- A position between the bounds but out of range reads X, as a bit-select and within the
part-select. -/
structure OutsideReadsX (idx : Nat → PackedVec) (v left right : PackedVec) : Prop where
  index : ∀ i ∈ between (toNat left) (toNat right), v.width ≤ i → indexLogic v (idx i) = .x 1
  part : ∀ selected, LogicInst.exec (.partSelect v left right) = some selected →
    ∀ k ≤ span (toNat left) (toNat right), v.width ≤ place (toNat left) (toNat right) k →
      selected.getBit k = .x

/-- The bit-selects from the most significant down make up the vector. -/
def WholeAgrees (idx : Nat → PackedVec) (v : PackedVec) : Prop :=
  concatAll ((between (v.width - 1) 0).map fun i => indexLogic v (idx i)) = v

theorem length_between (l r : Nat) : (between l r).length = span l r + 1 := by
  unfold between span
  split_ifs <;> simp

theorem getD_between (l r : Nat) {k : Nat} (hk : k ≤ span l r) (d : Nat) :
    (between l r).reverse.getD k d = place l r k := by
  unfold between place span at *
  split_ifs with hle
  · rw [if_pos hle] at hk
    have hlt : k < l - r + 1 := by omega
    simp [hlt]
  · rw [if_neg hle] at hk
    have hlt : k < r - l + 1 := by omega
    have hlen : k < ((List.range (r - l + 1)).map (l + ·)).length := by simpa using hlt
    rw [List.getD_eq_getElem _ _ (by simpa using hlt), List.getElem_reverse, List.getElem_map,
      List.getElem_range]
    simp only [List.length_map, List.length_range]
    omega

theorem width_indexLogic (v index : PackedVec) : (indexLogic v index).width = 1 := by
  unfold indexLogic
  split_ifs <;> simp

/-- The bit that a bit-select at number `i` reads: its low 64 bits are the index. -/
def indexBit (v : PackedVec) (i : Nat) : Bit :=
  if i % 2 ^ 64 < v.width ∧ v.getBit (i % 2 ^ 64) ≠ .z then v.getBit (i % 2 ^ 64) else .x

theorem getBit_indexLogic {idx : Nat → PackedVec} (h : Indexes idx) (v : PackedVec) (i : Nat) :
    (indexLogic v (idx i)).getBit 0 = indexBit v i := by
  unfold indexLogic indexBit
  rw [toU64_eq, h.value]
  by_cases hin : i % 2 ^ 64 < v.width
  · rw [if_pos ⟨h.known i, hin⟩, PackedVec.getBit_fromBit]
    by_cases hz : v.getBit (i % 2 ^ 64) = .z
    · rw [if_pos hz, if_neg fun hc => hc.2 hz]
    · rw [if_neg hz, if_pos ⟨hin, hz⟩]
  · rw [if_neg fun hc => hin hc.2, if_neg fun hc => hin hc.1, PackedVec.getBit_x,
      if_pos Nat.one_pos]

theorem width_bits {idx : Nat → PackedVec} (v : PackedVec) (l r : Nat) :
    (concatAll ((between l r).map fun i => indexLogic v (idx i))).width = span l r + 1 := by
  rw [width_concatAll, List.length_map, length_between]
  · intro hnil
    have hlen := congrArg List.length hnil
    rw [List.length_map, length_between] at hlen
    exact absurd hlen (Nat.succ_ne_zero _)
  · intro p hp
    obtain ⟨i, _, rfl⟩ := List.mem_map.mp hp
    exact width_indexLogic _ _

theorem getBit_bits {idx : Nat → PackedVec} (h : Indexes idx) (v : PackedVec) {l r k : Nat}
    (hk : k ≤ span l r) :
    (concatAll ((between l r).map fun i => indexLogic v (idx i))).getBit k =
      indexBit v (place l r k) := by
  have hone : ∀ p ∈ (between l r).map fun i => indexLogic v (idx i), p.width = 1 := by
    intro p hp
    obtain ⟨i, _, rfl⟩ := List.mem_map.mp hp
    exact width_indexLogic _ _
  have hlen : k < ((between l r).map fun i => indexLogic v (idx i)).length := by
    rw [List.length_map, length_between]
    omega
  rw [getBit_concatAll hone hlen (indexLogic v (idx 0)), ← List.map_reverse, List.getD_map,
    getD_between l r hk, getBit_indexLogic h]

theorem width_selectLogic (v : PackedVec) (l r : Nat) :
    (selectLogic v l r).width = span l r + 1 := by
  unfold selectLogic span
  by_cases hle : l ≥ r
  · rw [if_pos hle, if_pos hle, PackedVec.width_slice]
  · rw [if_neg hle, if_neg hle, PackedVec.width_writeBits, PackedVec.width_zero]

theorem selectBit_eq (v : PackedVec) {l r k : Nat} (hk : k ≤ span l r) :
    selectBit v l r k = v.getBit (place l r k) := by
  unfold selectBit place span at *
  by_cases hle : l ≥ r
  · rw [if_pos hle] at hk
    rw [if_pos hle, if_pos hle, if_pos hk]
  · rw [if_neg hle] at hk
    rw [if_neg hle, if_neg hle, if_pos hk]

/-! ### When they agree -/

/-- The bounds that the part-select works with. -/
def cut (n : Nat) : Nat := n % 0x100000000

/-- What the bounds and the vector have to satisfy. Bounds of 32 bits: every position is in range
and not Z. Larger bounds are cut to 32 bits by the part-select and to 64 by a bit-select: then the
spans must be the same, the two positions of each step must hold one bit, and an index that loses
high bits must not come to stand on a known bit. -/
def Selectable (v : PackedVec) (l r : Nat) : Prop :=
  if l < 0x100000000 ∧ r < 0x100000000 then
    max l r < v.width ∧ ∀ i, min l r ≤ i → i ≤ max l r → v.getBit i ≠ .z
  else span (cut l) (cut r) = span l r ∧ ∀ k ≤ span l r,
    v.getBit (place (cut l) (cut r) k) =
        (if place l r k < v.width ∧ v.getBit (place l r k) ≠ .z then v.getBit (place l r k)
          else .x) ∧
      (v.width ≤ place l r k → v.width ≤ place l r k % 2 ^ 64 ∨
        (v.getBit (place l r k % 2 ^ 64)).isUnknown = true)

theorem selectsAgree_iff_bits {idx : Nat → PackedVec} (h : Indexes idx)
    (v left right : PackedVec) :
    SelectsAgree idx v left right ↔
      span (cut (toNat left)) (cut (toNat right)) = span (toNat left) (toNat right) ∧
      ∀ k ≤ span (toNat left) (toNat right),
        v.getBit (place (cut (toNat left)) (cut (toNat right)) k) =
          indexBit v (place (toNat left) (toNat right) k) := by
  have hexec : LogicInst.exec (.partSelect v left right) =
      some (selectLogic v (cut (toNat left)) (cut (toNat right))) := by
    show some (selectLogic v left.toU32 right.toU32) = _
    rw [toU32_eq, toU32_eq]
    rfl
  unfold SelectsAgree
  rw [hexec, Option.some_inj]
  constructor
  · intro heq
    have hspan : span (cut (toNat left)) (cut (toNat right)) = span (toNat left) (toNat right) := by
      have hw := congrArg PackedVec.width heq
      rw [width_selectLogic, width_bits] at hw
      omega
    refine ⟨hspan, fun k hk => ?_⟩
    rw [← getBit_bits h v hk, ← heq, getBit_selectLogic, selectBit_eq v (hspan ▸ hk)]
  · rintro ⟨hspan, hbits⟩
    refine PackedVec.ext_bits (by rw [width_selectLogic, width_bits, hspan]) fun k hk => ?_
    have hk' : k ≤ span (toNat left) (toNat right) := by
      rw [width_selectLogic] at hk
      omega
    rw [getBit_selectLogic, selectBit_eq v (hspan ▸ hk'), hbits k hk', getBit_bits h v hk']

/-- A position reads the same in both forms when it is in range and not Z, and else never. -/
theorem getBit_eq_indexBit_iff (v : PackedVec) {i : Nat} (hi : i < 0x100000000) :
    v.getBit i = indexBit v i ↔ i < v.width ∧ v.getBit i ≠ .z := by
  have hcut : i % 2 ^ 64 = i := Nat.mod_eq_of_lt (Nat.lt_trans hi (by decide))
  unfold indexBit
  rw [hcut]
  by_cases hin : i < v.width ∧ v.getBit i ≠ .z
  · rw [if_pos hin]
    exact iff_of_true rfl hin
  · rw [if_neg hin]
    refine iff_of_false (fun hx => ?_) hin
    by_cases hlt : i < v.width
    · exact hin ⟨hlt, by rw [hx]; decide⟩
    · rw [PackedVec.getBit_of_ge v (Nat.le_of_not_lt hlt)] at hx
      cases hx

theorem place_mem {l r k : Nat} (hk : k ≤ span l r) :
    min l r ≤ place l r k ∧ place l r k ≤ max l r := by
  unfold place span at *
  split_ifs at * <;> omega

theorem mem_place {l r i : Nat} (hmin : min l r ≤ i) (hmax : i ≤ max l r) :
    ∃ k ≤ span l r, place l r k = i := by
  unfold place span
  by_cases hle : r ≤ l
  · refine ⟨i - r, ?_, ?_⟩
    · rw [if_pos hle]
      omega
    · rw [if_pos hle]
      omega
  · refine ⟨r - i, ?_, ?_⟩
    · rw [if_neg hle]
      omega
    · rw [if_neg hle]
      omega

/-- What an exact bit-select reads at number `i`. -/
def exactBit (v : PackedVec) (i : Nat) : Bit :=
  if i < v.width ∧ v.getBit i ≠ .z then v.getBit i else .x

theorem indexBit_eq_exactBit_iff {v : PackedVec} (hw : v.width < 0x100000000) (i : Nat) :
    indexBit v i = exactBit v i ↔ (v.width ≤ i → v.width ≤ i % 2 ^ 64 ∨
      (v.getBit (i % 2 ^ 64)).isUnknown = true) := by
  unfold indexBit exactBit
  by_cases hin : i < v.width
  · have hcut : i % 2 ^ 64 = i := Nat.mod_eq_of_lt (Nat.lt_trans hin (Nat.lt_trans hw (by decide)))
    rw [hcut]
    exact iff_of_true rfl fun hge => absurd hin (Nat.not_lt.mpr hge)
  · rw [if_neg fun hc : i < v.width ∧ _ => hin hc.1]
    have hge := Nat.le_of_not_lt hin
    constructor
    · intro hx _
      by_cases hread : i % 2 ^ 64 < v.width ∧ v.getBit (i % 2 ^ 64) ≠ .z
      · rw [if_pos hread] at hx
        exact .inr (by rw [hx]; rfl)
      · rcases Nat.lt_or_ge (i % 2 ^ 64) v.width with hlt | hout
        · have hz : v.getBit (i % 2 ^ 64) = .z := not_not.mp fun hne => hread ⟨hlt, hne⟩
          exact .inr (by rw [hz]; rfl)
        · exact .inl hout
    · intro h
      split_ifs with hread
      · rcases h hge with hout | hunknown
        · exact absurd hread.1 (Nat.not_lt.mpr hout)
        · cases hbit : v.getBit (i % 2 ^ 64) with
          | zero =>
            rw [hbit] at hunknown
            cases hunknown
          | one =>
            rw [hbit] at hunknown
            cases hunknown
          | x => rfl
          | z => exact absurd hbit hread.2
      · rfl

theorem exactBit_of_ge {v : PackedVec} {i : Nat} (h : v.width ≤ i) : exactBit v i = .x :=
  if_neg fun hc => Nat.not_lt.mpr h hc.1

theorem indexLogic_eq_x_iff {idx : Nat → PackedVec} (h : Indexes idx) (v : PackedVec) (i : Nat) :
    indexLogic v (idx i) = .x 1 ↔ indexBit v i = .x := by
  rw [← getBit_indexLogic h]
  constructor
  · intro heq
    rw [heq]
    rfl
  · intro hx
    refine PackedVec.ext_bits (by rw [width_indexLogic, PackedVec.width_x]) fun k hk => ?_
    rw [width_indexLogic] at hk
    obtain rfl : k = 0 := by omega
    rw [hx]
    rfl

theorem mem_between {l r i : Nat} (hi : i ∈ between l r) : ∃ k ≤ span l r, place l r k = i := by
  have hbounds : min l r ≤ i ∧ i ≤ max l r := by
    unfold between at hi
    split_ifs at hi with hle
    · obtain ⟨k, hk, rfl⟩ := List.mem_map.mp (List.mem_reverse.mp hi)
      have := List.mem_range.mp hk
      omega
    · obtain ⟨k, hk, rfl⟩ := List.mem_map.mp hi
      have := List.mem_range.mp hk
      omega
  exact mem_place hbounds.1 hbounds.2

theorem place_mem_between {l r k : Nat} (hk : k ≤ span l r) : place l r k ∈ between l r := by
  have hlen : k < (between l r).reverse.length := by
    rw [List.length_reverse, length_between]
    omega
  rw [← getD_between l r hk 0, List.getD_eq_getElem _ _ hlen]
  exact List.mem_reverse.mp (List.getElem_mem hlen)

/-- Both requirements together, one position at a time. -/
theorem coheres_iff_bits {idx : Nat → PackedVec} (h : Indexes idx) {v : PackedVec}
    (hw : v.width < 0x100000000) (left right : PackedVec) :
    (SelectsAgree idx v left right ∧ OutsideReadsX idx v left right) ↔
      span (cut (toNat left)) (cut (toNat right)) = span (toNat left) (toNat right) ∧
      ∀ k ≤ span (toNat left) (toNat right),
        v.getBit (place (cut (toNat left)) (cut (toNat right)) k) =
            exactBit v (place (toNat left) (toNat right) k) ∧
          indexBit v (place (toNat left) (toNat right) k) =
            exactBit v (place (toNat left) (toNat right) k) := by
  rw [selectsAgree_iff_bits h]
  constructor
  · rintro ⟨⟨hspan, hbits⟩, hout⟩
    refine ⟨hspan, fun k hk => ?_⟩
    have hexact : indexBit v (place (toNat left) (toNat right) k) =
        exactBit v (place (toNat left) (toNat right) k) := by
      rcases Nat.lt_or_ge (place (toNat left) (toNat right) k) v.width with hlt | hge
      · exact (indexBit_eq_exactBit_iff hw _).mpr fun hge => absurd hlt (Nat.not_lt.mpr hge)
      · rw [exactBit_of_ge hge]
        exact (indexLogic_eq_x_iff h v _).mp (hout.index _ (place_mem_between hk) hge)
    exact ⟨(hbits k hk).trans hexact, hexact⟩
  · rintro ⟨hspan, hbits⟩
    have hagree : SelectsAgree idx v left right := (selectsAgree_iff_bits h v left right).mpr
      ⟨hspan, fun k hk => (hbits k hk).1.trans (hbits k hk).2.symm⟩
    refine ⟨(selectsAgree_iff_bits h v left right).mp hagree, ?_, ?_⟩
    · intro i hi hge
      obtain ⟨k, hk, rfl⟩ := mem_between hi
      rw [indexLogic_eq_x_iff h, (hbits k hk).2, exactBit_of_ge hge]
    · intro selected hexec k hk hge
      have hsel := Option.some.inj (hexec.symm.trans hagree)
      rw [hsel, getBit_bits h v hk, (hbits k hk).2, exactBit_of_ge hge]

theorem selectable_iff {v : PackedVec} (hw : v.width < 0x100000000) (l r : Nat) :
    Selectable v l r ↔ span (cut l) (cut r) = span l r ∧
      ∀ k ≤ span l r, v.getBit (place (cut l) (cut r) k) = exactBit v (place l r k) ∧
        indexBit v (place l r k) = exactBit v (place l r k) := by
  unfold Selectable
  split_ifs with hfit
  · have hl : cut l = l := Nat.mod_eq_of_lt hfit.1
    have hr : cut r = r := Nat.mod_eq_of_lt hfit.2
    have hbound : max l r < 0x100000000 := Nat.max_lt.mpr hfit
    rw [hl, hr, eq_self_iff_true, true_and]
    have hstep : ∀ i ≤ max l r, (v.getBit i = exactBit v i ∧ indexBit v i = exactBit v i) ↔
        i < v.width ∧ v.getBit i ≠ .z := by
      intro i hi
      have hlt : i < 0x100000000 := Nat.lt_of_le_of_lt hi hbound
      have hexact : indexBit v i = exactBit v i := by
        unfold indexBit exactBit
        rw [Nat.mod_eq_of_lt (Nat.lt_trans hlt (by decide))]
      rw [and_iff_left hexact, ← hexact, getBit_eq_indexBit_iff v hlt]
    constructor
    · rintro ⟨hmax, hz⟩ k hk
      obtain ⟨hlo, hhi⟩ := place_mem hk
      exact (hstep _ hhi).mpr ⟨Nat.lt_of_le_of_lt hhi hmax, hz _ hlo hhi⟩
    · intro hall
      have hin : ∀ i, min l r ≤ i → i ≤ max l r → i < v.width ∧ v.getBit i ≠ .z := by
        intro i hlo hhi
        obtain ⟨k, hk, rfl⟩ := mem_place hlo hhi
        exact (hstep _ hhi).mp (hall k hk)
      exact ⟨(hin _ (Nat.le_trans (Nat.min_le_left _ _) (Nat.le_max_left _ _)) le_rfl).1,
        fun i hlo hhi => (hin i hlo hhi).2⟩
  · simp only [indexBit_eq_exactBit_iff hw]
    rfl

theorem wholeAgrees_iff {idx : Nat → PackedVec} (h : Indexes idx) {v : PackedVec}
    (hv : 0 < v.width) (hw : v.width < 0x100000000) :
    WholeAgrees idx v ↔ ∀ i < v.width, v.getBit i ≠ .z := by
  have hspan : span (v.width - 1) 0 = v.width - 1 := rfl
  have hplace : ∀ k, place (v.width - 1) 0 k = k := fun k => Nat.zero_add k
  unfold WholeAgrees
  constructor
  · intro heq i hi
    have hk : i ≤ span (v.width - 1) 0 := by omega
    have hbit := getBit_bits h v hk
    rw [heq, hplace] at hbit
    exact ((getBit_eq_indexBit_iff v (Nat.lt_trans hi hw)).mp hbit).2
  · intro hz
    refine PackedVec.ext_bits (by rw [width_bits, hspan]; omega) fun k hk => ?_
    rw [width_bits] at hk
    have hin : k < v.width := by omega
    rw [getBit_bits h v (by omega), hplace]
    exact ((getBit_eq_indexBit_iff v (Nat.lt_trans hin hw)).mpr ⟨hin, hz k hin⟩).symm

/-- For all constant bounds the part-select is the concatenation of the bit-selects, with X for
what is out of range in both, if and only if the positions are selectable; and a vector is the
concatenation of its bits if and only if none is Z. -/
theorem selects_agree_iff (idx : Nat → PackedVec) (h : Indexes idx) (v left right : PackedVec)
    (hv : 0 < v.width) (hw : v.width < 0x100000000) :
    ((SelectsAgree idx v left right ∧ OutsideReadsX idx v left right) ↔
        Selectable v (toNat left) (toNat right)) ∧
      (WholeAgrees idx v ↔ ∀ i < v.width, v.getBit i ≠ .z) :=
  ⟨(coheres_iff_bits h hw left right).trans (selectable_iff hw _ _).symm,
    wholeAgrees_iff h hv hw⟩

/-- A known vector that is wide enough for the number it holds. -/
def number (n : Nat) : PackedVec :=
  (PackedVec.zero (n + 1)).writeBits (n + 1) id fun i => ofBool (n.testBit i)

theorem indexes_number : Indexes number := by
  have hbit : ∀ n i, i < n + 1 → (number n).getBit i = ofBool (n.testBit i) := by
    intro n i hi
    unfold number
    rw [PackedVec.getBit_writeBits_id, PackedVec.width_zero, if_pos ⟨hi, hi⟩]
  have hwidth : ∀ n, (number n).width = n + 1 := by
    intro n
    unfold number
    rw [PackedVec.width_writeBits, PackedVec.width_zero]
  refine ⟨fun n => PackedVec.isKnown_iff.mpr fun i hi => ?_, fun n => ?_⟩
  · rw [hbit n i (hwidth n ▸ hi)]
    cases n.testBit i <;> rfl
  · have hlt : n < 2 ^ (n + 1) := Nat.lt_trans n.lt_two_pow_self (by simp [Nat.pow_succ])
    have hvalue : value n.testBit (n + 1) = n := by rw [value_testBit, Nat.mod_eq_of_lt hlt]
    unfold Eevee.Core.Numeric.toNat
    rw [hwidth]
    refine Eq.trans (value_congr fun i hi => ?_) hvalue
    unfold isOne
    rw [hbit n i hi]
    cases n.testBit i <;> rfl

theorem selects_agree_middle :
    SelectsAgree number ((PackedVec.fromU64 0xB 4).setBit 1 .x) (PackedVec.fromU64 1 32)
      (PackedVec.fromU64 2 32) :=
  ((selects_agree_iff number indexes_number ((PackedVec.fromU64 0xB 4).setBit 1 .x)
    (PackedVec.fromU64 1 32) (PackedVec.fromU64 2 32) (by decide) (by decide)).1.mpr (by
      have hl : toNat (PackedVec.fromU64 1 32) = 1 := by rw [toNat_fromU64]; rfl
      have hr : toNat (PackedVec.fromU64 2 32) = 2 := by rw [toNat_fromU64]; rfl
      rw [hl, hr]
      refine ⟨by decide, fun i hlo hhi => ?_⟩
      have hi : i = 1 ∨ i = 2 := by omega
      rcases hi with rfl | rfl <;> decide)).1

/-- A Z bit reads X alone and Z in a part-select; past the end a part-select reads 0. -/
theorem selects_disagree_on_z_and_outside :
    ¬ SelectsAgree number (PackedVec.z 1) (PackedVec.fromU64 0 32) (PackedVec.fromU64 0 32) ∧
    ¬ OutsideReadsX number (PackedVec.zero 4) (PackedVec.fromU64 5 32)
      (PackedVec.fromU64 4 32) := by
  have hnat : ∀ val : BitVec 64, val.toNat < 2 ^ 32 →
      toNat (PackedVec.fromU64 val 32) = val.toNat := fun val hval => by
    rw [toNat_fromU64, Nat.mod_eq_of_lt hval]
  constructor
  · intro h
    have hbits := ((selectsAgree_iff_bits indexes_number _ _ _).mp h).2 0 (Nat.zero_le _)
    rw [hnat 0 (by decide)] at hbits
    exact absurd hbits (by decide)
  · intro h
    have hread := h.part _ rfl 0 (Nat.zero_le _)
    rw [hnat 5 (by decide), hnat 4 (by decide)] at hread
    exact absurd (hread (by decide)) (by decide)

end Eevee.Ir.Selects
