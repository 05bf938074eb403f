/- Which instructions keep their known result bits when unknown operand bits become known. -/

import Mathlib.Data.List.Basic
import Mathlib.Data.List.Forall2
import Mathlib.Tactic.Common
import Mathlib.Tactic.SplitIfs
import Eevee.Ir.Inst

set_option autoImplicit false
set_option relaxedAutoImplicit false

namespace Eevee.Ir.XSound

open Eevee.Core.Alu
open Eevee.Core.Canonical
open Eevee.Core.Logic
open Eevee.Ir.Inst

/-! ### Refinement -/

/-- The bit is the same, or an unknown bit has become known. -/
def RefinesBit (b b' : Bit) : Prop := b' = b ∨ b.isUnknown = true ∧ b'.isUnknown = false

/-- Some unknown bits have become 0 or 1. -/
structure Refines (v v' : PackedVec) : Prop where
  width : v'.width = v.width
  bits : ∀ i < v.width, RefinesBit (v.getBit i) (v'.getBit i)

/-- The same instruction on refined operands. -/
inductive RefinesInst : LogicInst PackedVec → LogicInst PackedVec → Prop
  | unary (op : UnaryInst) {a a' : PackedVec} (ha : Refines a a') :
      RefinesInst (.unary op a) (.unary op a')
  | binary (op : BinaryInst) {a a' b b' : PackedVec} (ha : Refines a a') (hb : Refines b b') :
      RefinesInst (.binary op a b) (.binary op a' b')
  | select {c c' t t' e e' : PackedVec} (hc : Refines c c') (ht : Refines t t')
      (he : Refines e e') : RefinesInst (.select c t e) (.select c' t' e')
  | partSelect {v v' l l' r r' : PackedVec} (hv : Refines v v') (hl : Refines l l')
      (hr : Refines r r') : RefinesInst (.partSelect v l r) (.partSelect v' l' r')
  | concat {args args' : List PackedVec} (h : List.Forall₂ Refines args args') :
      RefinesInst (.concat args) (.concat args')
  | resize {a a' : PackedVec} (ha : Refines a a') (width : Nat) (signed : Bool) :
      RefinesInst (.resize a width signed) (.resize a' width signed)

/-- A known bit is the same in both. -/
def KeepsBit (b b' : Bit) : Prop := b.isUnknown = false → b' = b

/-- Every known bit of the first vector is the same known bit of the second. -/
def Keeps (v v' : PackedVec) : Prop := ∀ i < v.width, KeepsBit (v.getBit i) (v'.getBit i)

theorem RefinesBit.keeps {b b' : Bit} (h : RefinesBit b b') : KeepsBit b b' := by
  intro hk
  rcases h with rfl | ⟨hu, -⟩
  · rfl
  · rw [hk] at hu
    cases hu

theorem KeepsBit.trans {a b c : Bit} (h : KeepsBit a b) (h' : KeepsBit b c) : KeepsBit a c := by
  intro hk
  obtain rfl := h hk
  exact h' hk

theorem Refines.refl (v : PackedVec) : Refines v v := ⟨rfl, fun _ _ => Or.inl rfl⟩

theorem Refines.keeps {v v' : PackedVec} (h : Refines v v') (i : Nat) :
    KeepsBit (v.getBit i) (v'.getBit i) := by
  by_cases hi : i < v.width
  · exact (h.bits i hi).keeps
  · have hge := Nat.le_of_not_lt hi
    rw [v.getBit_of_ge hge, v'.getBit_of_ge (h.width ▸ hge)]
    exact fun _ => rfl

/-- A known vector has no other refinement. -/
theorem Refines.eq_of_known {v v' : PackedVec} (h : Refines v v') (hk : v.isKnown = true) :
    v' = v := by
  apply PackedVec.ext_bits h.width
  intro i hi
  exact h.keeps i (PackedVec.isKnown_iff.mp hk i (h.width ▸ hi))

theorem Refines.isTrue {v v' : PackedVec} (h : Refines v v') (ht : v.isTrue = true) :
    v'.isTrue = true := by
  obtain ⟨i, hi, hone⟩ := PackedVec.isTrue_iff.mp ht
  apply PackedVec.isTrue_iff.mpr
  refine ⟨i, h.width ▸ hi, ?_⟩
  have hkeep := h.keeps i
  rw [hone] at hkeep
  exact hkeep rfl

/-- A vector with an unknown bit can become true. -/
theorem exists_true {v : PackedVec} (h : v.isTrue = true ∨ v.isKnown = false) :
    ∃ v', Refines v v' ∧ v'.isTrue = true := by
  rcases h with ht | hk
  · exact ⟨v, .refl v, ht⟩
  · rw [← Bool.not_eq_true, PackedVec.isKnown_iff] at hk
    push Not at hk
    obtain ⟨i, hi, hu⟩ := hk
    refine ⟨v.setBit i .one, ⟨PackedVec.width_setBit _ _ _, fun j hj => ?_⟩, ?_⟩
    · rw [PackedVec.getBit_setBit]
      split_ifs with hj'
      · rw [hj'.1]
        exact Or.inr ⟨by simpa using hu, rfl⟩
      · exact Or.inl rfl
    · apply PackedVec.isTrue_iff.mpr
      refine ⟨i, (PackedVec.width_setBit _ _ _).symm ▸ hi, ?_⟩
      rw [PackedVec.getBit_setBit, if_pos ⟨rfl, hi⟩]

/-! ### Bit operations -/

theorem keeps_bitNot {a a' : Bit} (h : KeepsBit a a') : KeepsBit (bitNot a) (bitNot a') := by
  cases a <;> simp_all [KeepsBit, bitNot, Bit.isUnknown]

theorem keeps_bitAnd {a a' b b' : Bit} (ha : KeepsBit a a') (hb : KeepsBit b b') :
    KeepsBit (bitAnd a b) (bitAnd a' b') := by
  have zero_right (c : Bit) : bitAnd c .zero = .zero := by cases c <;> rfl
  cases a <;> cases b <;> simp_all [KeepsBit, bitAnd, Bit.isUnknown]

theorem keeps_bitOr {a a' b b' : Bit} (ha : KeepsBit a a') (hb : KeepsBit b b') :
    KeepsBit (bitOr a b) (bitOr a' b') := by
  have one_right (c : Bit) : bitOr c .one = .one := by cases c <;> rfl
  cases a <;> cases b <;> simp_all [KeepsBit, bitOr, Bit.isUnknown]

theorem keeps_bitXor {a a' b b' : Bit} (ha : KeepsBit a a') (hb : KeepsBit b b') :
    KeepsBit (bitXor a b) (bitXor a' b') := by
  cases a <;> cases b <;> simp_all [KeepsBit, bitXor, Bit.isUnknown]

/-- A fold over the bits keeps what one application keeps. -/
theorem keeps_fold {f : Bit → Bit → Bit}
    (hf : ∀ a a' b b', KeepsBit a a' → KeepsBit b b' → KeepsBit (f a b) (f a' b')) (b : Bit)
    {v v' : PackedVec} (h : Refines v v') :
    KeepsBit ((bitsOf v.1).foldl f b) ((bitsOf v'.1).foldl f b) := by
  have hwidth : v'.1.width = v.1.width := h.width
  unfold bitsOf
  rw [hwidth, List.foldl_map, List.foldl_map]
  have go : ∀ (l : List Nat) (c c' : Bit), KeepsBit c c' →
      KeepsBit (l.foldl (fun b i => f b (v.1.getBit i)) c)
        (l.foldl (fun b i => f b (v'.1.getBit i)) c') := by
    intro l
    induction l with
    | nil => exact fun _ _ hc => hc
    | cons i l ih =>
      intro c c' hc
      rw [List.foldl_cons, List.foldl_cons]
      exact ih _ _ (hf _ _ _ _ hc (h.keeps i))
  exact go _ b b fun _ => rfl

theorem reduceAndLoop_eq (v : LogicVec) (l : List Nat) (saw : Bool) :
    reduceAndLoop v l saw = (l.map v.getBit).foldl bitAnd (if saw then .x else .one) := by
  have hzero (bits : List Bit) : bits.foldl bitAnd .zero = .zero := by
    induction bits with
    | nil => rfl
    | cons b bits ih => exact ih
  induction l generalizing saw with
  | nil => rfl
  | cons i l ih =>
    rw [List.map_cons, List.foldl_cons, reduceAndLoop]
    cases v.getBit i with
    | zero =>
      have hb : bitAnd (if saw = true then .x else .one) .zero = .zero := by cases saw <;> rfl
      rw [hb, hzero]
    | one =>
      have hb : bitAnd (if saw = true then .x else .one) .one =
          if saw = true then .x else .one := by
        cases saw <;> rfl
      rw [hb]
      exact ih saw
    | x =>
      have hb : bitAnd (if saw = true then .x else .one) .x = .x := by cases saw <;> rfl
      rw [hb]
      exact ih true
    | z =>
      have hb : bitAnd (if saw = true then .x else .one) .z = .x := by cases saw <;> rfl
      rw [hb]
      exact ih true

theorem keeps_fromBit {b b' : Bit} (h : KeepsBit b b') :
    Keeps (.fromBit b) (.fromBit b') := by
  intro i hi
  rw [PackedVec.width_fromBit, Nat.lt_one_iff] at hi
  subst hi
  rw [PackedVec.getBit_fromBit, PackedVec.getBit_fromBit]
  cases b <;> simp_all [KeepsBit, Bit.isUnknown]

theorem keeps_reduceOr {v v' : PackedVec} (h : Refines v v') :
    KeepsBit v.reduceOr v'.reduceOr := by
  unfold PackedVec.reduceOr
  rw [reduceOr_eq v.2, reduceOr_eq v'.2]
  exact keeps_fold (fun _ _ _ _ => keeps_bitOr) _ h

theorem lognot_eq (v : PackedVec) : v.lognot = .fromBit (bitNot v.reduceOr) := by
  apply Subtype.ext
  show lognot v.1 = fromBit (bitNot (reduceOr v.1))
  unfold lognot
  cases reduceOr v.1 <;> rfl

/-! ### All-or-nothing operations -/

/-- Without an unknown operand bit the operands are the same, so the results are. -/
theorem keeps_strict {f : PackedVec → PackedVec → Option PackedVec}
    (hf : ∀ v w u, f v w = some u → v.isKnown = false ∨ w.isKnown = false →
      ∀ i < u.width, (u.getBit i).isUnknown = true)
    {v v' w w' u u' : PackedVec} (hv : Refines v v') (hw : Refines w w')
    (hu : f v w = some u) (hu' : f v' w' = some u') : Keeps u u' := by
  by_cases hk : v.isKnown = true ∧ w.isKnown = true
  · rw [hv.eq_of_known hk.1, hw.eq_of_known hk.2, hu] at hu'
    obtain rfl := Option.some.inj hu'
    exact fun _ _ _ => rfl
  · intro i hi hb
    have hor : v.isKnown = false ∨ w.isKnown = false := by
      cases hv : v.isKnown <;> cases hw : w.isKnown <;> simp_all
    rw [hf v w u hu hor i hi] at hb
    cases hb

theorem unknown_x (n : Nat) {i : Nat} (hi : i < (PackedVec.x n).width) :
    ((PackedVec.x n).getBit i).isUnknown = true := by
  rw [PackedVec.width_x] at hi
  rw [PackedVec.getBit_x, if_pos hi]
  rfl

/-- The guard with which the strict operations begin. -/
theorem guard_of_unknown {v w : PackedVec} (h : v.isKnown = false ∨ w.isKnown = false) :
    (!v.1.isKnown || !w.1.isKnown) = true := by
  rcases h with h | h
  · have h' : v.1.isKnown = false := h
    rw [h']
    rfl
  · have h' : w.1.isKnown = false := h
    rw [h']
    exact Bool.or_true _

theorem unknown_verdict {o : Option Ordering} {f : Ordering → Bool} (ho : o = none)
    {u : PackedVec} (hu : u.1 = verdict o f) : ∀ i < u.width, (u.getBit i).isUnknown = true := by
  subst ho
  have hx : u = .x 1 := Subtype.ext hu
  rw [hx]
  exact fun i hi => unknown_x 1 hi

theorem ucmp_unknown {v w : PackedVec} (h : v.isKnown = false ∨ w.isKnown = false) :
    ucmp v.1 w.1 = none := if_pos (guard_of_unknown h)

theorem scmp_unknown {v w : PackedVec} (h : v.isKnown = false ∨ w.isKnown = false) :
    scmp v.1 w.1 = none := if_pos (guard_of_unknown h)

theorem add_unknown {v w : PackedVec} (h : v.isKnown = false ∨ w.isKnown = false) :
    v.add w = .x (max v.width w.width) := Subtype.ext (if_pos (guard_of_unknown h))

theorem sub_unknown {v w : PackedVec} (h : v.isKnown = false ∨ w.isKnown = false) :
    v.sub w = .x (max v.width w.width) := Subtype.ext (if_pos (guard_of_unknown h))

theorem eqLogical_unknown {v w : PackedVec} (h : v.isKnown = false ∨ w.isKnown = false) :
    v.eqLogical w = .x 1 := Subtype.ext (if_pos (guard_of_unknown h))

theorem mul_unknown {v w u : PackedVec} (h : v.isKnown = false ∨ w.isKnown = false)
    (hu : v.mul w = some u) : u = .x (max v.width w.width) := by
  have hmul : mul v.1 w.1 = some (LogicVec.x (max v.1.width w.1.width)) :=
    if_pos (guard_of_unknown h)
  rw [PackedVec.mul_eq_some.mp hu] at hmul
  exact Subtype.ext (Option.some.inj hmul)

theorem lognot_x : (PackedVec.x 1).lognot = .x 1 := by
  apply Subtype.ext
  decide

/-- The operations whose result is X as soon as an operand bit is unknown. -/
def BinaryInst.IsStrict : BinaryInst → Prop
  | .add | .sub | .mul | .eq | .neq | .lt | .le | .gt | .ge | .signedLt | .signedLe | .signedGt
  | .signedGe => True
  | _ => False

theorem unknown_exec {op : BinaryInst} (hop : BinaryInst.IsStrict op) (v w u : PackedVec)
    (hu : op.exec v w = some u) (h : v.isKnown = false ∨ w.isKnown = false) :
    ∀ i < u.width, (u.getBit i).isUnknown = true := by
  cases op with
  | add =>
    obtain rfl := Option.some.inj hu
    rw [add_unknown h]
    exact fun i hi => unknown_x _ hi
  | sub =>
    obtain rfl := Option.some.inj hu
    rw [sub_unknown h]
    exact fun i hi => unknown_x _ hi
  | mul =>
    obtain rfl := mul_unknown h hu
    exact fun i hi => unknown_x _ hi
  | eq =>
    obtain rfl := Option.some.inj hu
    rw [eqLogical_unknown h]
    exact fun i hi => unknown_x _ hi
  | neq =>
    obtain rfl := Option.some.inj hu
    rw [eqLogical_unknown h, lognot_x]
    exact fun i hi => unknown_x _ hi
  | lt =>
    obtain rfl := Option.some.inj hu
    exact unknown_verdict (ucmp_unknown h) rfl
  | le =>
    obtain rfl := Option.some.inj hu
    exact unknown_verdict (ucmp_unknown h) rfl
  | gt =>
    obtain rfl := Option.some.inj hu
    exact unknown_verdict (ucmp_unknown h) rfl
  | ge =>
    obtain rfl := Option.some.inj hu
    exact unknown_verdict (ucmp_unknown h) rfl
  | signedLt =>
    obtain rfl := Option.some.inj hu
    exact unknown_verdict (scmp_unknown h) rfl
  | signedLe =>
    obtain rfl := Option.some.inj hu
    exact unknown_verdict (scmp_unknown h) rfl
  | signedGt =>
    obtain rfl := Option.some.inj hu
    exact unknown_verdict (scmp_unknown h) rfl
  | signedGe =>
    obtain rfl := Option.some.inj hu
    exact unknown_verdict (scmp_unknown h) rfl
  | _ => exact absurd hop id

theorem keeps_neg {v v' : PackedVec} (h : Refines v v') : Keeps v.neg v'.neg := by
  have hsub := @keeps_strict (fun v w => BinaryInst.exec v w .sub)
    (@unknown_exec .sub trivial)
    (.zero v.width) (.zero v.width) v v' _ _ (.refl _) h rfl rfl
  have hneg : v'.neg = (PackedVec.zero v.width).sub v' := by
    unfold PackedVec.neg neg
    have hw : v'.1.width = v.1.width := h.width
    apply Subtype.ext
    show sub (LogicVec.zero v'.1.width) v'.1 = sub (LogicVec.zero v.1.width) v'.1
    rw [hw]
  rw [hneg]
  exact hsub

/-! ### Structure -/

theorem keeps_resize {v v' : PackedVec} (h : Refines v v') (n : Nat) (signed : Bool) :
    Keeps (v.resize n signed) (v'.resize n signed) := by
  intro i hi
  rw [PackedVec.width_resize] at hi
  rw [PackedVec.getBit_resize _ _ _ hi, PackedVec.getBit_resize _ _ _ hi, h.width]
  split_ifs
  · exact h.keeps i
  · have hsign : KeepsBit (v.1.getBit (v.1.width - 1)) (v'.1.getBit (v'.1.width - 1)) := by
      have hw : v'.1.width = v.1.width := h.width
      rw [hw]
      exact h.keeps _
    unfold LogicVec.extension
    cases signed with
    | false => exact fun _ => rfl
    | true =>
      simp only [if_true]
      cases hb : v.1.getBit (v.1.width - 1) with
      | zero =>
        rw [hb] at hsign
        rw [hsign rfl]
        exact fun _ => rfl
      | one =>
        rw [hb] at hsign
        rw [hsign rfl]
        exact fun _ => rfl
      | x => exact fun hk => absurd hk (by simp [Bit.isUnknown])
      | z => exact fun hk => absurd hk (by simp [Bit.isUnknown])

/-- The bits of a conditional, whatever its condition is. -/
theorem getBit_conditional (c t e : PackedVec) {i : Nat} (hi : i < max t.width e.width) :
    (PackedVec.conditional c t e).getBit i =
      if c.isTrue then t.getBit i
      else if c.isKnown then e.getBit i
      else if t.getBit i = e.getBit i then t.getBit i else .x := by
  cases ht : c.isTrue with
  | true =>
    have hcond : PackedVec.conditional c t e = t.resize (max t.width e.width) false := by
      apply Subtype.ext
      exact if_pos ht
    rw [hcond, PackedVec.getBit_resize_unsigned, if_pos hi]
    rfl
  | false =>
    have hnot : ¬ c.1.isTrue = true := by
      have hc : c.1.isTrue = false := ht
      simp [hc]
    cases hk : c.isKnown with
    | true =>
      have hcond : PackedVec.conditional c t e = e.resize (max t.width e.width) false := by
        apply Subtype.ext
        exact (if_neg hnot).trans (if_pos hk)
      rw [hcond, PackedVec.getBit_resize_unsigned, if_pos hi]
      rfl
    | false => exact PackedVec.getBit_conditional_unknown ht hk hi

theorem keeps_conditional {c c' t t' e e' : PackedVec} (hc : Refines c c') (ht : Refines t t')
    (he : Refines e e') :
    Keeps (.conditional c t e) (.conditional c' t' e') := by
  intro i hi
  rw [PackedVec.width_conditional] at hi
  have hi' : i < max t'.width e'.width := by rwa [ht.width, he.width]
  rw [getBit_conditional _ _ _ hi, getBit_conditional _ _ _ hi']
  have hkt := ht.keeps i
  have hke := he.keeps i
  by_cases htrue : c.isTrue = true
  · rw [if_pos htrue, if_pos (hc.isTrue htrue)]
    exact hkt
  rw [if_neg htrue]
  by_cases hknown : c.isKnown = true
  · rw [if_pos hknown, hc.eq_of_known hknown, if_neg htrue, if_pos hknown]
    exact hke
  rw [if_neg hknown]
  by_cases hsame : t.getBit i = e.getBit i
  · -- both branches agree on a known bit, so every condition selects it
    rw [if_pos hsame]
    intro hk
    have h₁ := hkt hk
    have h₂ := hke (hsame ▸ hk)
    rw [h₁, h₂, ← hsame, if_pos rfl, ite_self, ite_self]
  · rw [if_neg hsame]
    exact fun hk => absurd hk (by simp [Bit.isUnknown])

theorem keeps_concat {v v' w w' : PackedVec} (hv : v'.width = v.width) (hw : w'.width = w.width)
    (h : ∀ i, KeepsBit (v.getBit i) (v'.getBit i)) (h' : ∀ i, KeepsBit (w.getBit i) (w'.getBit i))
    (i : Nat) : KeepsBit ((v.concat w).getBit i) ((v'.concat w').getBit i) := by
  by_cases hi : i < v.width + w.width
  · rw [PackedVec.getBit_concat _ _ hi, PackedVec.getBit_concat _ _ (by rwa [hv, hw]), hw]
    split_ifs
    · exact h' i
    · exact h _
  · have hge := Nat.le_of_not_lt hi
    rw [PackedVec.getBit_of_ge _ (by rwa [PackedVec.width_concat]),
      PackedVec.getBit_of_ge _ (by rwa [PackedVec.width_concat, hv, hw])]
    exact fun _ => rfl

theorem keeps_concatAll {args args' : List PackedVec} (h : List.Forall₂ Refines args args') :
    Keeps (concatAll args) (concatAll args') := by
  have go : ∀ (args args' : List PackedVec) (v v' : PackedVec), List.Forall₂ Refines args args' →
      v'.width = v.width → (∀ i, KeepsBit (v.getBit i) (v'.getBit i)) →
      ∀ i, KeepsBit ((args.foldl PackedVec.concat v).getBit i)
        ((args'.foldl PackedVec.concat v').getBit i) := by
    intro args args' v v' h
    induction h generalizing v v' with
    | nil => exact fun _ hk => hk
    | cons hr _ ih =>
      intro hw hk
      rw [List.foldl_cons, List.foldl_cons]
      refine ih _ _ ?_ (keeps_concat hw hr.width hk hr.keeps)
      rw [PackedVec.width_concat, PackedVec.width_concat, hw, hr.width]
  cases h with
  | nil => exact fun _ _ _ => rfl
  | cons hr hrest => exact fun i _ => go _ _ _ _ hrest hr.width hr.keeps i

theorem keeps_indexLogic {v v' w w' : PackedVec} (hv : Refines v v') (hw : Refines w w') :
    Keeps (indexLogic v w) (indexLogic v' w') := by
  unfold indexLogic
  by_cases hc : w.isKnown = true ∧ w.toU64 < v.width
  · have hsame := hw.eq_of_known hc.1
    subst hsame
    have hc' : w'.isKnown = true ∧ w'.toU64 < v'.width := hv.width.symm ▸ hc
    rw [if_pos hc, if_pos hc']
    exact keeps_fromBit (hv.keeps _)
  · rw [if_neg hc]
    intro i hi hk
    rw [unknown_x 1 hi] at hk
    cases hk

/-! ### Shifts and part-selects -/

/-- The bit that a left shift by `amt` brings to place `i`. -/
def shlBit (a : PackedVec) (amt i : Nat) : Bit := if amt ≤ i then a.getBit (i - amt) else .zero

/-- The same for a logical right shift; above 64 bits the index wraps at 32 bits. -/
def shrBit (a : PackedVec) (amt i : Nat) : Bit :=
  a.getBit (if a.width ≤ 64 then i + amt else addU32 i amt)

/-- The same for an arithmetic right shift. -/
def ashrBit (a : PackedVec) (amt i : Nat) : Bit :=
  if addU32 i amt < a.width then a.getBit (addU32 i amt) else signFill a.1

/-- The bit that a part-select brings to place `i`. -/
def selectBit (a : PackedVec) (left right i : Nat) : Bit :=
  if left ≥ right then if i ≤ left - right then a.getBit (right + i) else .zero
  else if i ≤ right - left then a.getBit (right - i) else .zero

theorem getBit_selectLogic (a : PackedVec) (left right i : Nat) :
    (selectLogic a left right).getBit i = selectBit a left right i := by
  unfold selectLogic selectBit
  split_ifs with hle hi hi
  · exact PackedVec.getBit_slice a (Nat.lt_succ_of_le hi)
  · apply PackedVec.getBit_of_ge
    rw [PackedVec.width_slice]
    exact Nat.lt_of_not_le hi
  · show ((PackedVec.zero (right - left + 1)).writeBits _ id _).getBit i = _
    rw [PackedVec.getBit_writeBits_id, PackedVec.width_zero,
      if_pos ⟨Nat.lt_succ_of_le hi, Nat.lt_succ_of_le hi⟩]
  · apply PackedVec.getBit_of_ge
    show ((PackedVec.zero (right - left + 1)).writeBits _ id _).width ≤ i
    rw [PackedVec.width_writeBits, PackedVec.width_zero]
    exact Nat.lt_of_not_le hi

theorem keeps_signFill {a a' : PackedVec} (h : Refines a a') :
    KeepsBit (signFill a.1) (signFill a'.1) := by
  have hsign : KeepsBit (a.1.getBit (a.1.width - 1)) (a'.1.getBit (a'.1.width - 1)) := by
    have hw : a'.1.width = a.1.width := h.width
    rw [hw]
    exact h.keeps _
  unfold signFill
  intro hk
  cases hb : a.1.getBit (a.1.width - 1) with
  | zero =>
    rw [hb] at hsign
    rw [hsign rfl]
  | one =>
    rw [hb] at hsign
    rw [hsign rfl]
  | x =>
    rw [hb] at hk
    cases hk
  | z =>
    rw [hb] at hk
    cases hk

theorem keeps_shlBit {a a' : PackedVec} (h : Refines a a') (amt i : Nat) :
    KeepsBit (shlBit a amt i) (shlBit a' amt i) := by
  unfold shlBit
  split_ifs
  · exact h.keeps _
  · exact fun _ => rfl

theorem keeps_shrBit {a a' : PackedVec} (h : Refines a a') (amt i : Nat) :
    KeepsBit (shrBit a amt i) (shrBit a' amt i) := by
  unfold shrBit
  rw [h.width]
  exact h.keeps _

theorem keeps_ashrBit {a a' : PackedVec} (h : Refines a a') (amt i : Nat) :
    KeepsBit (ashrBit a amt i) (ashrBit a' amt i) := by
  unfold ashrBit
  rw [h.width]
  split_ifs
  · exact h.keeps _
  · exact keeps_signFill h

theorem keeps_selectBit {a a' : PackedVec} (h : Refines a a') (left right i : Nat) :
    KeepsBit (selectBit a left right i) (selectBit a' left right i) := by
  unfold selectBit
  split_ifs
  · exact h.keeps _
  · exact fun _ => rfl
  · exact h.keeps _
  · exact fun _ => rfl

/-! ### Every instruction -/

/-- However the unknown bits of the amount turn out, each place that receives a known bit
receives the same bit. -/
def Settled (bit : Nat → Nat → Bit) (width : Nat) (amount : PackedVec) : Prop :=
  ∀ amount', Refines amount amount' → ∀ i < width,
    KeepsBit (bit amount.toU32 i) (bit amount'.toU32 i)

/-- When an instruction keeps its known result bits. -/
def Sound : LogicInst PackedVec → Prop
  | .binary .logAnd a b => (a.isTrue = true ∧ b.isTrue = true) ∨
      (a.isKnown = true ∧ a.isTrue = false) ∨ (b.isKnown = true ∧ b.isTrue = false)
  | .binary .logOr a b => a.isTrue = true ∨ b.isTrue = true ∨
      (a.isKnown = true ∧ b.isKnown = true)
  | .binary .shl a b => Settled (shlBit a) a.width b
  | .binary .shr a b => Settled (shrBit a) a.width b
  | .binary .ashr a b => Settled (ashrBit a) a.width b
  | .partSelect a l r => ∀ l' r', Refines l l' → Refines r r' →
      ∀ i < (selectLogic a l.toU32 r.toU32).width,
        KeepsBit (selectBit a l.toU32 r.toU32 i) (selectBit a l'.toU32 r'.toU32 i)
  | _ => True

/-- Whatever refinement of the operands is executed, every known bit of the result stays. -/
def KeepsKnown (inst : LogicInst PackedVec) : Prop :=
  ∀ inst', RefinesInst inst inst' → ∀ u u', inst.exec = some u → inst'.exec = some u' → Keeps u u'

theorem keeps_unary (op : UnaryInst) {a a' : PackedVec} (h : Refines a a') :
    Keeps (op.exec a) (op.exec a') := by
  cases op with
  | not =>
    intro i hi
    have hi' : i < a.width := PackedVec.width_bitnot a ▸ hi
    show KeepsBit (a.bitnot.getBit i) (a'.bitnot.getBit i)
    rw [PackedVec.getBit_bitnot a hi', PackedVec.getBit_bitnot a' (h.width.symm ▸ hi')]
    exact keeps_bitNot (h.keeps i)
  | neg => exact keeps_neg h
  | logNot =>
    show Keeps a.lognot a'.lognot
    rw [lognot_eq, lognot_eq]
    exact keeps_fromBit (keeps_bitNot (keeps_reduceOr h))
  | reduceAnd =>
    apply keeps_fromBit
    show KeepsBit (reduceAnd a.1) (reduceAnd a'.1)
    unfold reduceAnd
    rw [reduceAndLoop_eq, reduceAndLoop_eq]
    exact keeps_fold (fun _ _ _ _ => keeps_bitAnd) _ h
  | reduceOr => exact keeps_fromBit (keeps_reduceOr h)
  | reduceXor =>
    apply keeps_fromBit
    show KeepsBit (reduceXor a.1) (reduceXor a'.1)
    rw [reduceXor_eq a.2, reduceXor_eq a'.2]
    exact keeps_fold (fun _ _ _ _ => keeps_bitXor) _ h

/-- A shift keeps its known result bits exactly when its amount is settled. -/
theorem keepsKnown_shift_iff {op : BinaryInst} {f : PackedVec → Nat → PackedVec}
    {bit : PackedVec → Nat → Nat → Bit} (hexec : ∀ a b, op.exec a b = some (f a b.toU32))
    (hwidth : ∀ a amt, (f a amt).width = a.width)
    (hbit : ∀ a amt i, i < a.width → (f a amt).getBit i = bit a amt i)
    (hkeeps : ∀ a a', Refines a a' → ∀ amt i, KeepsBit (bit a amt i) (bit a' amt i))
    (a b : PackedVec) : KeepsKnown (.binary op a b) ↔ Settled (bit a) a.width b := by
  constructor
  · intro h b' hb i hi
    have hk := h _ (.binary op (.refl a) hb) _ _ (hexec a b) (hexec a b') i
      ((hwidth a _).symm ▸ hi)
    rwa [hbit _ _ _ hi, hbit _ _ _ hi] at hk
  · rintro h _ (_ | @⟨_, _, a', _, b', ha, hb⟩) u u' hu hu' i hi
    rw [show (LogicInst.binary op a b).exec = op.exec a b from rfl, hexec] at hu
    rw [show (LogicInst.binary op a' b').exec = op.exec a' b' from rfl, hexec] at hu'
    obtain rfl := Option.some.inj hu
    obtain rfl := Option.some.inj hu'
    rw [hwidth] at hi
    rw [hbit _ _ _ hi, hbit _ _ _ (ha.width.symm ▸ hi)]
    exact (h b' hb i hi).trans (hkeeps a a' ha _ i)

theorem keeps_fromBool {p q : Bool} (h : p = q) : Keeps (.fromBool p) (.fromBool q) := by
  subst h
  exact fun _ _ _ => rfl

theorem keepsKnown_logAnd_iff (a b : PackedVec) :
    KeepsKnown (.binary .logAnd a b) ↔ Sound (.binary .logAnd a b) := by
  constructor
  · intro h
    by_contra hnot
    simp only [Sound, not_or, not_and, Bool.not_eq_true, Bool.not_eq_false] at hnot
    obtain ⟨hboth, ha, hb⟩ := hnot
    have hcan (v : PackedVec) (hv : v.isKnown = true → v.isTrue = true) :
        v.isTrue = true ∨ v.isKnown = false := by
      cases hk : v.isKnown with
      | false => exact Or.inr rfl
      | true => exact Or.inl (hv hk)
    obtain ⟨a', hra, hta⟩ := exists_true (hcan a ha)
    obtain ⟨b', hrb, htb⟩ := exists_true (hcan b hb)
    have hk := h _ (.binary .logAnd hra hrb) _ _ rfl rfl 0 (by simp)
    have hfalse : (a.isTrue && b.isTrue) = false := by
      cases hta : a.isTrue with
      | false => rfl
      | true => exact hboth hta
    rw [PackedVec.getBit_fromBool, PackedVec.getBit_fromBool, hfalse, hta, htb] at hk
    exact absurd (hk rfl) (by decide)
  · rintro h _ (_ | @⟨_, _, a', _, b', ha, hb⟩) u u' hu hu'
    obtain rfl := Option.some.inj hu
    obtain rfl := Option.some.inj hu'
    apply keeps_fromBool
    rcases h with ⟨hta, htb⟩ | ⟨hk, hf⟩ | ⟨hk, hf⟩
    · rw [hta, htb, ha.isTrue hta, hb.isTrue htb]
    · rw [ha.eq_of_known hk, hf]
      rfl
    · rw [hb.eq_of_known hk, hf, Bool.and_false, Bool.and_false]

theorem keepsKnown_logOr_iff (a b : PackedVec) :
    KeepsKnown (.binary .logOr a b) ↔ Sound (.binary .logOr a b) := by
  constructor
  · intro h
    by_contra hnot
    simp only [Sound, not_or, not_and, Bool.not_eq_true] at hnot
    obtain ⟨hfa, hfb, hknown⟩ := hnot
    have hfalse : (a.isTrue || b.isTrue) = false := by rw [hfa, hfb]; rfl
    have hrefined : ∃ a' b', Refines a a' ∧ Refines b b' ∧ (a'.isTrue || b'.isTrue) = true := by
      cases hk : a.isKnown with
      | false =>
        obtain ⟨a', hra, hta⟩ := exists_true (Or.inr hk)
        exact ⟨a', b, hra, .refl b, by rw [hta]; rfl⟩
      | true =>
        obtain ⟨b', hrb, htb⟩ := exists_true (Or.inr (hknown hk))
        exact ⟨a, b', .refl a, hrb, by rw [htb, Bool.or_true]⟩
    obtain ⟨a', b', hra, hrb, ht⟩ := hrefined
    have hk := h _ (.binary .logOr hra hrb) _ _ rfl rfl 0 (by simp)
    rw [PackedVec.getBit_fromBool, PackedVec.getBit_fromBool, hfalse, ht] at hk
    exact absurd (hk rfl) (by decide)
  · rintro h _ (_ | @⟨_, _, a', _, b', ha, hb⟩) u u' hu hu'
    obtain rfl := Option.some.inj hu
    obtain rfl := Option.some.inj hu'
    apply keeps_fromBool
    rcases h with hta | htb | ⟨hka, hkb⟩
    · rw [hta, ha.isTrue hta]
      rfl
    · rw [htb, hb.isTrue htb, Bool.or_true, Bool.or_true]
    · rw [ha.eq_of_known hka, hb.eq_of_known hkb]

theorem keepsKnown_partSelect_iff (a l r : PackedVec) :
    KeepsKnown (.partSelect a l r) ↔ Sound (.partSelect a l r) := by
  constructor
  · intro h l' r' hl hr i hi
    have hk := h _ (.partSelect (.refl a) hl hr) _ _ rfl rfl i hi
    rwa [getBit_selectLogic, getBit_selectLogic] at hk
  · rintro h _ (_ | _ | _ | @⟨_, a', _, l', _, r', ha, hl, hr⟩) u u' hu hu' i hi
    obtain rfl := Option.some.inj hu
    obtain rfl := Option.some.inj hu'
    rw [getBit_selectLogic, getBit_selectLogic]
    exact (h l' r' hl hr i hi).trans (keeps_selectBit ha _ _ i)

theorem keeps_zip {f : PackedVec → PackedVec → PackedVec} {g : Bit → Bit → Bit}
    (hwidth : ∀ v w, (f v w).width = max v.width w.width)
    (hbit : ∀ v w i, i < max v.width w.width → (f v w).getBit i = g (v.getBit i) (w.getBit i))
    (hg : ∀ a a' b b', KeepsBit a a' → KeepsBit b b' → KeepsBit (g a b) (g a' b'))
    {v v' w w' : PackedVec} (hv : Refines v v') (hw : Refines w w') :
    Keeps (f v w) (f v' w') := by
  intro i hi
  rw [hwidth] at hi
  rw [hbit _ _ _ hi, hbit _ _ _ (by rwa [hv.width, hw.width])]
  exact hg _ _ _ _ (hv.keeps i) (hw.keeps i)

theorem keepsKnown_binary_iff (op : BinaryInst) (a b : PackedVec) :
    KeepsKnown (.binary op a b) ↔ Sound (.binary op a b) := by
  by_cases hop : BinaryInst.IsStrict op
  · have hsound : Sound (.binary op a b) := by cases op <;> first | exact trivial | exact hop.elim
    refine ⟨fun _ => hsound, ?_⟩
    rintro - _ (_ | ⟨_, ha, hb⟩) u u' hu hu'
    exact keeps_strict (unknown_exec hop) ha hb hu hu'
  cases op with
  | and =>
    refine ⟨fun _ => trivial, ?_⟩
    rintro - _ (_ | ⟨_, ha, hb⟩) u u' hu hu'
    obtain rfl := Option.some.inj hu
    obtain rfl := Option.some.inj hu'
    exact keeps_zip PackedVec.width_bitand (fun _ _ _ hi => PackedVec.getBit_bitand _ _ hi)
      (fun _ _ _ _ => keeps_bitAnd) ha hb
  | or =>
    refine ⟨fun _ => trivial, ?_⟩
    rintro - _ (_ | ⟨_, ha, hb⟩) u u' hu hu'
    obtain rfl := Option.some.inj hu
    obtain rfl := Option.some.inj hu'
    exact keeps_zip PackedVec.width_bitor (fun _ _ _ hi => PackedVec.getBit_bitor _ _ hi)
      (fun _ _ _ _ => keeps_bitOr) ha hb
  | xor =>
    refine ⟨fun _ => trivial, ?_⟩
    rintro - _ (_ | ⟨_, ha, hb⟩) u u' hu hu'
    obtain rfl := Option.some.inj hu
    obtain rfl := Option.some.inj hu'
    exact keeps_zip PackedVec.width_bitxor (fun _ _ _ hi => PackedVec.getBit_bitxor _ _ hi)
      (fun _ _ _ _ => keeps_bitXor) ha hb
  | indexGet =>
    refine ⟨fun _ => trivial, ?_⟩
    rintro - _ (_ | ⟨_, ha, hb⟩) u u' hu hu'
    obtain rfl := Option.some.inj hu
    obtain rfl := Option.some.inj hu'
    exact keeps_indexLogic ha hb
  | logAnd => exact keepsKnown_logAnd_iff a b
  | logOr => exact keepsKnown_logOr_iff a b
  | shl =>
    exact keepsKnown_shift_iff (fun _ _ => rfl) PackedVec.width_shl
      (fun _ _ _ hi => PackedVec.getBit_shl _ hi) (fun _ _ h => keeps_shlBit h) a b
  | shr =>
    exact keepsKnown_shift_iff (fun _ _ => rfl) PackedVec.width_shr
      (fun _ _ _ hi => PackedVec.getBit_shr _ hi) (fun _ _ h => keeps_shrBit h) a b
  | ashr =>
    exact keepsKnown_shift_iff (fun _ _ => rfl) PackedVec.width_ashr
      (fun _ _ _ hi => PackedVec.getBit_ashr _ hi) (fun _ _ h => keeps_ashrBit h) a b
  | _ => exact absurd trivial hop

/-- An instruction keeps every known result bit under all refinements of its operands exactly
when it is sound there: always, except that `&&` and `||` read an unknown operand as false and
the shifts and the part-select read unknown amount and bound bits as 0. -/
theorem keepsKnown_iff (inst : LogicInst PackedVec) : KeepsKnown inst ↔ Sound inst := by
  cases inst with
  | unary op a =>
    refine ⟨fun _ => trivial, ?_⟩
    rintro - _ ⟨_, ha⟩ u u' hu hu'
    obtain rfl := Option.some.inj hu
    obtain rfl := Option.some.inj hu'
    exact keeps_unary op ha
  | binary op a b => exact keepsKnown_binary_iff op a b
  | select c t e =>
    refine ⟨fun _ => trivial, ?_⟩
    rintro - _ (_ | _ | ⟨hc, ht, he⟩) u u' hu hu'
    obtain rfl := Option.some.inj hu
    obtain rfl := Option.some.inj hu'
    exact keeps_conditional hc ht he
  | partSelect a l r => exact keepsKnown_partSelect_iff a l r
  | concat args =>
    refine ⟨fun _ => trivial, ?_⟩
    rintro - _ (_ | _ | _ | _ | h) u u' hu hu'
    obtain rfl := Option.some.inj hu
    obtain rfl := Option.some.inj hu'
    exact keeps_concatAll h
  | resize a width signed =>
    refine ⟨fun _ => trivial, ?_⟩
    rintro - _ (_ | _ | _ | _ | _ | ⟨ha, _, _⟩) u u' hu hu'
    obtain rfl := Option.some.inj hu
    obtain rfl := Option.some.inj hu'
    exact keeps_resize ha width signed

/-- `1'bx && 1'b1` is a known 0, `1'b1 && 1'b1` is 1. -/
theorem logAnd_drops_unknown : ¬ KeepsKnown (.binary .logAnd (.x 1) (.ones 1)) := by
  rw [keepsKnown_logAnd_iff]
  show ¬ Sound _
  unfold Sound
  decide

end Eevee.Ir.XSound
