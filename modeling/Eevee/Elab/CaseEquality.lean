/- The item that the code of a case statement takes, and the one that case equality selects. -/

import Mathlib.Data.List.Basic
import Mathlib.Tactic.Common
import Eevee.Elab.Callable
import Eevee.Elab.Hierarchy
import Eevee.Ir.XSound

set_option autoImplicit false
set_option relaxedAutoImplicit false

namespace Eevee.Elab.CaseEquality

open Eevee.Ast.Syntax
open Eevee.Ast.Stmts
open Eevee.Core.Logic
open Eevee.Ir.Inst
open Eevee.Ir.Values
open Eevee.Ir.Builder
open Eevee.Ir.Emission
open Eevee.Ir.Interp
open Eevee.Ir.XSound (eqLogical_unknown)
open Eevee.Lib.Machine
open Eevee.Elab.Generator
open Eevee.Elab.Evaluation
open Eevee.Elab.ExprCode
open Eevee.Elab.StmtCode
open Eevee.Elab.ControlFlow
open Eevee.Elab.Scoping
open Eevee.Elab.Callable
open Eevee.Elab.Hierarchy (labelMatches evaluateGenerateConstant)

/-! ### Case equality -/

/-- A bit of a value that is extended by its sign bit or by zeros. -/
def extendedBit (signed : Bool) (v : PackedVec) (i : Nat) : Bit :=
  if i < v.width then v.getBit i else if signed then v.getBit (v.width - 1) else .zero

/-- Equal bit for bit after extension to a width, an unknown bit only to one of its kind. -/
def caseEqual (signed : Bool) (width : Nat) (v w : PackedVec) : Bool :=
  (List.range width).all fun i => extendedBit signed v i == extendedBit signed w i

/-- The width of the widest of the selector and all labels. -/
def commonWidth (selector : PackedVec) (labels : List (List PackedVec)) : Nat :=
  labels.flatten.foldl (fun width label => max width label.width) selector.width

/-- The first item with a label that is case equal to the selector. -/
def equalItem (signed : Bool) (selector : PackedVec) (labels : List (List PackedVec)) :
    Option Nat :=
  labels.findIdx? (·.any (caseEqual signed (commonWidth selector labels) selector))

/-- The first item with a label whose comparison with the selector is true. -/
def takenItem (selector : PackedVec) (labels : List (List PackedVec)) : Option Nat :=
  labels.findIdx? (·.any fun label => (selector.eqLogical label).isTrue)

section Values

variable {signed : Bool} {width : Nat} {v w : PackedVec} {labels : List (List PackedVec)}

theorem caseEqual_iff : caseEqual signed width v w = true ↔
    ∀ i < width, extendedBit signed v i = extendedBit signed w i := by
  simp only [caseEqual, List.all_eq_true, List.mem_range, beq_iff_eq]

theorem extendedBit_of_lt {i : Nat} (h : i < v.width) : extendedBit signed v i = v.getBit i :=
  if_pos h

theorem extendedBit_zeros (v : PackedVec) (i : Nat) : extendedBit false v i = v.getBit i := by
  by_cases h : i < v.width
  · exact extendedBit_of_lt h
  · exact (if_neg h).trans (v.getBit_of_ge (Nat.le_of_not_lt h)).symm

theorem le_foldl_max (vs : List PackedVec) (n : Nat) :
    n ≤ vs.foldl (fun width label => max width label.width) n ∧
      ∀ v ∈ vs, v.width ≤ vs.foldl (fun width label => max width label.width) n := by
  induction vs generalizing n with
  | nil => exact ⟨Nat.le_refl n, fun _ h => nomatch h⟩
  | cons v vs ih =>
    obtain ⟨hle, hall⟩ := ih (max n v.width)
    refine ⟨Nat.le_trans (Nat.le_max_left _ _) hle, fun u hu => ?_⟩
    rcases List.mem_cons.mp hu with rfl | hu
    · exact Nat.le_trans (Nat.le_max_right _ _) hle
    · exact hall u hu

theorem selector_le_commonWidth (selector : PackedVec) (labels : List (List PackedVec)) :
    selector.width ≤ commonWidth selector labels := (le_foldl_max _ _).1

theorem label_le_commonWidth {selector label : PackedVec} {item : List PackedVec}
    (hitem : item ∈ labels) (hlabel : label ∈ item) :
    label.width ≤ commonWidth selector labels :=
  (le_foldl_max _ _).2 label (List.mem_flatten.mpr ⟨item, hitem, hlabel⟩)

/-- With a selector without unknown bits, a label that is equal to it has none. -/
theorem isKnown_of_caseEqual (hv : v.isKnown = true) (hww : w.width ≤ width)
    (h : caseEqual false width v w = true) : w.isKnown = true := by
  refine PackedVec.isKnown_iff.mpr fun i hi => ?_
  have hbit := caseEqual_iff.mp h i (Nat.lt_of_lt_of_le hi hww)
  rw [extendedBit_zeros, extendedBit_zeros] at hbit
  rw [← hbit]
  by_cases hiv : i < v.width
  · exact PackedVec.isKnown_iff.mp hv i hiv
  · rw [v.getBit_of_ge (Nat.le_of_not_lt hiv)]
    rfl

/-- Resized to a common width, values are the same if their bits are. -/
theorem resize_eqCase_iff (hvw : v.width ≤ width) (hww : w.width ≤ width) :
    (v.resize (max v.width w.width) false).eqCase (w.resize (max v.width w.width) false) = true ↔
      caseEqual false width v w = true := by
  rw [PackedVec.eqCase_iff, caseEqual_iff]
  constructor
  · intro h i _
    rw [extendedBit_zeros, extendedBit_zeros]
    by_cases hi : i < max v.width w.width
    · have hbit := congrArg (PackedVec.getBit · i) h
      simpa only [PackedVec.getBit_resize_unsigned, if_pos hi] using hbit
    · rw [v.getBit_of_ge (by omega), w.getBit_of_ge (by omega)]
  · intro h
    refine PackedVec.ext_bits (by simp only [PackedVec.width_resize]) fun i hi => ?_
    rw [PackedVec.width_resize] at hi
    have hbit := h i (by omega)
    rw [extendedBit_zeros, extendedBit_zeros] at hbit
    simp only [PackedVec.getBit_resize_unsigned, if_pos hi, hbit]

theorem eqLogical_of_known (hv : v.isKnown = true) (hw : w.isKnown = true) :
    v.eqLogical w = .fromBool
      ((v.resize (max v.width w.width) false).eqCase (w.resize (max v.width w.width) false)) := by
  have hv' : v.1.isKnown = true := hv
  have hw' : w.1.isKnown = true := hw
  refine Subtype.ext ?_
  show Core.Alu.eqLogical v.1 w.1 = _
  unfold Core.Alu.eqLogical
  rw [hv', hw']
  rfl

/-- The comparison that the code makes is true of values without unknown bits that are equal after
extension by zeros. -/
theorem isTrue_eqLogical (hvw : v.width ≤ width) (hww : w.width ≤ width) :
    (v.eqLogical w).isTrue = (v.isKnown && caseEqual false width v w) := by
  cases hv : v.isKnown with
  | false =>
    rw [eqLogical_unknown (.inl hv), Bool.false_and]
    decide
  | true =>
    rw [Bool.true_and]
    cases hw : w.isKnown with
    | false =>
      rw [eqLogical_unknown (.inr hw)]
      have hne : caseEqual false width v w = false := by
        rw [Bool.eq_false_iff]
        intro h
        rw [isKnown_of_caseEqual hv hww h] at hw
        cases hw
      rw [hne]
      decide
    | true =>
      rw [eqLogical_of_known hv hw, PackedVec.isTrue_fromBool]
      exact Bool.eq_iff_iff.mpr (resize_eqCase_iff hvw hww)

theorem any_congr_mem {p q : PackedVec → Bool} {item : List PackedVec}
    (h : ∀ label ∈ item, p label = q label) : item.any p = item.any q := by
  rw [Bool.eq_iff_iff, List.any_eq_true, List.any_eq_true]
  exact exists_congr fun label => and_congr_right fun hmem => by rw [h label hmem]

theorem findIdx?_congr_mem {p q : List PackedVec → Bool}
    (h : ∀ item ∈ labels, p item = q item) : labels.findIdx? p = labels.findIdx? q := by
  induction labels with
  | nil => rfl
  | cons item labels ih =>
    rw [List.findIdx?_cons, List.findIdx?_cons, h item List.mem_cons_self,
      ih fun item hitem => h item (List.mem_cons_of_mem _ hitem)]

/-- The code takes the item that is equal after extension by zeros, and none with an unknown bit in
the selector. -/
theorem takenItem_eq (selector : PackedVec) (labels : List (List PackedVec)) :
    takenItem selector labels =
      if selector.isKnown then equalItem false selector labels else none := by
  have hcongr : takenItem selector labels = labels.findIdx? (·.any fun label =>
      selector.isKnown && caseEqual false (commonWidth selector labels) selector label) :=
    findIdx?_congr_mem fun item hitem => any_congr_mem fun label hlabel =>
      isTrue_eqLogical (selector_le_commonWidth _ _) (label_le_commonWidth hitem hlabel)
  rw [hcongr]
  cases selector.isKnown with
  | true => rfl
  | false =>
    rw [if_neg Bool.false_ne_true, List.findIdx?_eq_none_iff]
    intro item _
    simp only [Bool.false_and, List.any_eq_false, Bool.false_eq_true, not_false_eq_true,
      implies_true]

theorem equalItem_eq_none {selector : PackedVec} : equalItem signed selector labels = none ↔
    ∀ item ∈ labels, ∀ label ∈ item,
      caseEqual signed (commonWidth selector labels) selector label = false := by
  simp only [equalItem, List.findIdx?_eq_none_iff, List.any_eq_false, Bool.not_eq_true]

/-- The item taken is the one selected if no unknown bit and no sign bit makes a difference. -/
theorem takenItem_eq_equalItem_iff {selector : PackedVec} :
    takenItem selector labels = equalItem signed selector labels ↔
      (selector.isKnown = true →
        equalItem false selector labels = equalItem signed selector labels) ∧
      (selector.isKnown = false → ∀ item ∈ labels, ∀ label ∈ item,
        caseEqual signed (commonWidth selector labels) selector label = false) := by
  rw [takenItem_eq, ← equalItem_eq_none]
  cases selector.isKnown with
  | true => simp
  | false => simp [eq_comm]

end Values

/-! ### The code of a case statement -/

section Code

variable {cg : CodeGen} {W : World} {σ : Store}

/-- The labels of an item evaluate to values. -/
def LabelValues (cg : CodeGen) (W : World) (σ : Store) (item : List Expr × Stmt)
    (values : List PackedVec) : Prop :=
  evalExprs cg W σ item.1 = some (values.map .logic)

theorem matchesLabel_values {selector : PackedVec} {exprs : List Expr} {values : List PackedVec}
    (h : evalExprs cg W σ exprs = some (values.map .logic)) :
    matchesLabel cg W σ (.logic selector) exprs =
      some (values.any fun label => (selector.eqLogical label).isTrue) := by
  induction exprs generalizing values with
  | nil =>
    cases values with
    | nil => rfl
    | cons value values => cases h
  | cons e exprs ih =>
    rw [evalExprs] at h
    obtain ⟨w, hw, h⟩ := Option.bind_eq_some_iff.mp h
    obtain ⟨ws, hws, h⟩ := Option.bind_eq_some_iff.mp h
    cases values with
    | nil => cases h
    | cons value values =>
      cases h
      rw [matchesLabel, hw, List.any_cons]
      show (if (selector.eqLogical value).isTrue then some true else _) = _
      rw [ih hws]
      cases (selector.eqLogical value).isTrue <;> rfl

variable {F : ProgramBuilder} {P : Program} {sel : Reg} {selector : PackedVec}

/-- The tests lead to the label of the item taken, or past them. -/
theorem runs_tests (hb : Built F P) {items : List (List Expr × Stmt)} {labels : List Label}
    {values : List (List PackedVec)} (hvalues : List.Forall₂ (LabelValues cg W σ) items values)
    {starts : List Nat} (hstarts : List.Forall₂ F.Bound labels starts)
    (hlen : labels.length = items.length) {pb pb' : ProgramBuilder} {f : Frame}
    (h : cg.genCaseTests sel items labels pb = some ((), pb')) (hw : Within cg pb.nRegs)
    (hx : Extends pb' F) (hsel : sel < pb.nRegs) (hf : Stands cg F pb.code.length σ f)
    (hv : f.regs[sel]? = some (.logic selector)) :
    ∃ n f' pc, Runs (step P W) n f f' ∧ Stands cg F pc σ f' ∧
      (takenItem selector values).elim (some pb'.code.length) (starts[·]?) = some pc := by
  induction hvalues generalizing labels starts pb f with
  | nil =>
    rw [CodeGen.genCaseTests] at h
    · obtain ⟨-, rfl⟩ := pure_eq_some.mp h
      exact ⟨0, f, _, .refl f, hf, rfl⟩
    · intro _ _ _ _ _ he
      cases he
  | @cons item vs items values hitem hvalues ih =>
    obtain ⟨exprs, body⟩ := item
    cases hstarts with
    | nil => cases hlen
    | @cons label start labels starts hl hstarts =>
      rw [CodeGen.genCaseTests] at h
      obtain ⟨⟨⟩, pb₁, htests, h⟩ := bind_eq_some.mp h
      have hg := grows_caseValues htests hw
      have hw₁ : Within cg pb₁.nRegs := hw.mono hg.nRegs
      have hx₁ : Extends pb₁ F := (grows_caseTests h hw₁).toExtends.trans hx
      have hchoice := chooses_values hb (W := W) hl htests hw hx₁ hsel hf hv
      rw [matchesLabel_values hitem] at hchoice
      obtain ⟨k, f₁, hrun, hf₁, hv₁⟩ := hchoice
      rw [takenItem, List.findIdx?_cons]
      cases hany : vs.any fun label => (selector.eqLogical label).isTrue with
      | true =>
        rw [hany] at hf₁
        exact ⟨k, f₁, start, hrun, hf₁, rfl⟩
      | false =>
        rw [hany] at hf₁
        obtain ⟨n, f', pc, hrun', hf', hpc⟩ := ih hstarts (Nat.succ.inj hlen) h hw₁
          (Nat.lt_of_lt_of_le hsel hg.nRegs) hf₁ hv₁
        refine ⟨k + n, f', pc, hrun.trans hrun', hf', ?_⟩
        rw [← hpc]
        show (Option.map (· + 1) (takenItem selector values)).elim _ _ = _
        cases takenItem selector values <;> rfl

/-- The bodies of the items begin one after the other. -/
theorem caseBodies_starts {items : List (List Expr × Stmt)} {labels : List Label} {done : Label}
    {loops loops' : LoopTargets} {pb pb' : ProgramBuilder}
    (h : cg.genCaseBodies items labels done loops pb = some (loops', pb'))
    (hw : Within cg pb.nRegs) (hn : labels.Nodup) (hu : ∀ l ∈ labels, pb.Unbound l)
    (hlen : labels.length = items.length) :
    ∃ starts, List.Forall₂ pb'.Bound labels starts ∧ starts.Pairwise (· < ·) ∧
      ∀ start ∈ starts, pb.code.length ≤ start ∧ start < pb'.code.length := by
  induction items generalizing labels pb loops with
  | nil =>
    rw [List.eq_nil_of_length_eq_zero hlen]
    exact ⟨[], .nil, .nil, fun _ h => nomatch h⟩
  | cons item items ih =>
    cases labels with
    | nil => cases hlen
    | cons label labels =>
      obtain ⟨exprs, body⟩ := item
      rw [CodeGen.genCaseBodies, bindLabel_bind] at h
      obtain ⟨loops₁, pb₁, hbody, h⟩ := bind_eq_some.mp h
      rw [jump_bind] at h
      have hul := hu label List.mem_cons_self
      obtain ⟨hnl, hnd⟩ := List.nodup_cons.mp hn
      obtain ⟨-, hg⟩ := keeps body hbody hw
      rw [length_bind] at hg
      have hu₁ : ∀ l ∈ labels, (pb₁.jump done).Unbound l := fun l hl => by
        have hne : label ≠ l := fun he => hnl (he ▸ hl)
        have hl' := hu l (List.mem_cons_of_mem _ hl)
        have h₁ : pb₁.Unbound l := unbound_keep (unbound_bind hl' hne) hg (lt_of_unbound hl')
        exact h₁
      have hw₁ : Within cg (pb₁.jump done).nRegs := hw.mono hg.nRegs
      have hx : Extends (pb₁.jump done) pb' :=
        ((caseBodies_spec h (fun item _ => keeps item.2) hw₁ hnd hu₁ (Nat.succ.inj hlen)).2.grows
          (n := 0) (fun _ _ => Nat.zero_le _) (Nat.zero_le _)).toExtends
      obtain ⟨starts, hbound, hincreasing, hrange⟩ := ih h hw₁ hnd hu₁ (Nat.succ.inj hlen)
      have hstart : pb'.Bound label pb.code.length :=
        hx.bound ((extends_emitTo _ _ _).bound (hg.bound (bound_bind hul)))
      have hlength : pb.code.length < (pb₁.jump done).code.length := by
        have hle : pb.code.length ≤ pb₁.code.length := hg.code.length_le
        have hjump : (pb₁.jump done).code.length = pb₁.code.length + 1 := List.length_append
        omega
      refine ⟨pb.code.length :: starts, .cons hstart hbound,
        List.pairwise_cons.mpr ⟨fun start hs => ?_, hincreasing⟩, fun start hs => ?_⟩
      · exact Nat.lt_of_lt_of_le hlength (hrange start hs).1
      · rcases List.mem_cons.mp hs with rfl | hs
        · exact ⟨Nat.le_refl _, Nat.lt_of_lt_of_le hlength hx.code.length_le⟩
        · exact ⟨Nat.le_trans (Nat.le_of_lt hlength) (hrange start hs).1, (hrange start hs).2⟩

/-- From a code position the machine does what a statement evaluates to, and then comes to
`last`. -/
def BodyAt (cg : CodeGen) (F : ProgramBuilder) (P : Program) (W : World) (loops : LoopTargets)
    (last start : Nat) (body : Stmt) : Prop :=
  ∀ fuel σ f, Stands cg F start σ f →
    Follows cg F P W (fuel - sizeOf body) loops last f (exec cg W fuel body σ)

/-- Where the bodies of a case statement are, in their order, and where the machine goes on if it
enters no item: at the default, or at the end. -/
structure CasePlaces (cg : CodeGen) (F : ProgramBuilder) (P : Program) (W : World)
    (loops : LoopTargets) (items : List (List Expr × Stmt)) (default : Option Stmt)
    (starts : List Nat) (past last : Nat) : Prop where
  bodies : List.Forall₂ (fun item start => BodyAt cg F P W loops last start item.2) items starts
  defaultBody : ∀ body ∈ default, BodyAt cg F P W loops last past body
  noDefault : default = none → past = last
  increasing : (starts ++ [past]).Pairwise (· < ·)

section Stages

variable {expr : Expr} {items : List (List Expr × Stmt)} {loops : LoopTargets}
  {pb : ProgramBuilder} {f : Frame}

theorem CaseCode.runs (k : CaseCode cg expr items loops pb) (hb : Built F P)
    (hw : Within cg pb.nRegs) (hx : Extends k.pb₅ F) {past : Nat} (hpast : F.Bound k.exit past)
    {values : List (List PackedVec)} (hexpr : evalExpr cg W σ expr = some (.logic selector))
    (hvalues : List.Forall₂ (LabelValues cg W σ) items values) {starts : List Nat}
    (hstarts : List.Forall₂ F.Bound k.labels starts) (hf : Stands cg F pb.code.length σ f) :
    ∃ n f' pc, Runs (step P W) n f f' ∧ Stands cg F pc σ f' ∧
      (takenItem selector values).elim (some past) (starts[·]?) = some pc := by
  have hk : ∀ item ∈ items, Keeps cg item.2 := fun item _ => keeps item.2
  have hxj : Extends (k.pb₄.jump k.exit) F := (k.grows_bodies hk hw).toExtends.trans hx
  have hx₄ : Extends k.pb₄ F := (extends_emitTo _ _ _).trans hxj
  have hx₁ : Extends k.pb₁ F := (k.extends_start.trans (k.grows_tests hw).toExtends).trans hx₄
  have hd := delivers_at hb (W := W) (generates_expr expr pb) k.selectorCode hw hx₁ hf trivial
  rw [hexpr] at hd
  obtain ⟨n, regs, hrun, hr, hs⟩ := hd
  have hf₃ : Stands cg F k.pb₃.code.length σ ⟨k.pb₁.code.length, regs⟩ :=
    ⟨by rw [k.code_start.1], Agrees.same hf.agrees hw hs, hs.length ▸ hf.room⟩
  have hsel : k.value < k.pb₃.nRegs := by
    rw [k.code_start.2]
    exact (k.grows_selector hw).2
  obtain ⟨m, f', pc, hrun', hf', hpc⟩ := runs_tests hb hvalues hstarts k.length_labels k.tests
    (hw.mono (k.grows_start hw).nRegs) hx₄ hsel hf₃ hr
  cases htaken : takenItem selector values with
  | some i =>
    rw [htaken] at hpc
    exact ⟨n + m, f', pc, hrun.trans hrun', hf', hpc⟩
  | none =>
    -- no comparison was true: the jump past the tests
    rw [htaken] at hpc
    cases hpc
    obtain ⟨n', f'', -, hrun'', hf''⟩ :=
      (hf'.arrives (P := P) (W := W)).goto fun _ => step_jump hb hxj hpast
    exact ⟨n + m + n', f'', past, (hrun.trans hrun').trans hrun'', hf'', rfl⟩

theorem CaseCode.starts (k : CaseCode cg expr items loops pb) (hw : Within cg pb.nRegs) :
    ∃ starts, List.Forall₂ k.pb₅.Bound k.labels starts ∧ starts.Pairwise (· < ·) ∧
      ∀ start ∈ starts, start < k.pb₅.code.length := by
  have hwb : Within cg (k.pb₄.jump k.exit).nRegs := hw.mono (k.grows_toBodies hw).nRegs
  have hu : ∀ l ∈ k.labels, (k.pb₄.jump k.exit).Unbound l := fun l hl => by
    have h₄ : k.pb₄.Unbound l := k.unbound_tests hw (k.unbound_start (k.spec.fresh l hl).2)
    exact h₄
  obtain ⟨starts, hbound, hincreasing, hrange⟩ :=
    caseBodies_starts k.bodies hwb k.spec.nodup hu k.length_labels
  exact ⟨starts, hbound, hincreasing, fun start hs => (hrange start hs).2⟩

theorem CaseCode.bodyAt (k : CaseCode cg expr items loops pb) (hb : Built F P) (hd : Distinct cg)
    (hw : Within cg pb.nRegs) (hx : Extends k.pb₅ F) {last : Nat} (hdone : F.Bound k.done last)
    {starts : List Nat} (hstarts : List.Forall₂ F.Bound k.labels starts) :
    List.Forall₂ (fun item start => BodyAt cg F P W loops last start item.2) items starts := by
  have hk : ∀ item ∈ items, Keeps cg item.2 := fun item _ => keeps item.2
  have hwb : Within cg (k.pb₄.jump k.exit).nRegs := hw.mono (k.grows_toBodies hw).nRegs
  have harms := (k.bodies_spec hk hw).2.arms
  have hlen : items.length = starts.length := k.length_labels.symm.trans hstarts.length_eq
  refine List.forall₂_iff_get.mpr ⟨hlen, fun i hi hi' fuel σ f hf => ?_⟩
  have hil : i < k.labels.length := hstarts.length_eq ▸ hi'
  have hmem : (items.get ⟨i, hi⟩, k.labels.get ⟨i, hil⟩) ∈ items.zip k.labels := by
    refine List.mem_iff_get.mpr ⟨⟨i, by rw [List.length_zip]; omega⟩, ?_⟩
    simp only [List.get_eq_getElem, List.getElem_zip]
  have harm := (harms _ _ hmem).extends hx (Nat.le_refl _)
  exact Arm.follows hb harm hwb (hstarts.get hil hi') hdone hf (simulates hb hd fuel _)
    (Nat.le_refl _)

/-- A case statement comes to the body of the item taken, or past the items, before it does anything
else. -/
theorem case_runs (hb : Built F P) (hd : Distinct cg) {default : Option Stmt} {loops' : LoopTargets}
    {pb' : ProgramBuilder} (h : cg.genStmt (.case expr items default) loops pb = some (loops', pb'))
    (hw : Within cg pb.nRegs) (hx : Extends pb' F) {values : List (List PackedVec)}
    (hexpr : evalExpr cg W σ expr = some (.logic selector))
    (hvalues : List.Forall₂ (LabelValues cg W σ) items values)
    (hf : Stands cg F pb.code.length σ f) :
    ∃ starts past, CasePlaces cg F P W loops items default starts past pb'.code.length ∧
      ∃ n f' pc, Runs (step P W) n f f' ∧ Stands cg F pc σ f' ∧
        (takenItem selector values).elim (some past) (starts[·]?) = some pc := by
  have hk : ∀ item ∈ items, Keeps cg item.2 := fun item _ => keeps item.2
  cases default with
  | none =>
    obtain ⟨k, hexit, rfl, rfl⟩ := caseCode h
    have hu : k.pb₅.Unbound k.done := by
      refine k.unbound_last hk hw k.unbound_done ?_
      exact fun hmem => Nat.lt_irrefl _ (k.lt_label hmem)
    have hdone : F.Bound k.done k.pb₅.code.length := hx.bound (bound_bind hu)
    have hpast : F.Bound k.exit k.pb₅.code.length := by
      rw [hexit]
      exact hdone
    have hx₅ : Extends k.pb₅ F := (extends_bind hu).trans hx
    obtain ⟨starts, hstarts, hincreasing, hrange⟩ := CaseCode.starts k hw
    have hstartsF := hstarts.imp fun _ _ => hx₅.bound
    refine ⟨starts, k.pb₅.code.length, ⟨CaseCode.bodyAt k hb hd hw hx₅ hdone hstartsF,
      fun _ => nofun, fun _ => rfl, ?_⟩,
      CaseCode.runs k hb hw hx₅ hpast hexpr hvalues hstartsF hf⟩
    refine List.pairwise_append.mpr ⟨hincreasing, List.pairwise_singleton _ _, fun s hs t ht => ?_⟩
    cases List.mem_singleton.mp ht
    exact hrange s hs
  | some body =>
    obtain ⟨k, loops₂, pb₆, hne, hcode, rfl, rfl⟩ := caseDefaultCode h
    have hdef : Keeps cg body := keeps body
    have hu := k.unbound_done' hk hdef hw hne hcode
    have hue := k.unbound_exit' hk hw
    have hx₆ : Extends pb₆ F := (extends_bind hu).trans hx
    have hxe : Extends (k.pb₅.bind k.exit) F :=
      (k.grows_default hk hdef hw hcode).2.toExtends.trans hx₆
    have hx₅ : Extends k.pb₅ F := (extends_bind hue).trans hxe
    have hpast : F.Bound k.exit k.pb₅.code.length := hxe.bound (bound_bind hue)
    have hdone : F.Bound k.done pb₆.code.length := hx.bound (bound_bind hu)
    have hwd : Within cg (k.pb₅.bind k.exit).nRegs := hw.mono (k.grows_toDefault hk hw).nRegs
    rw [(k.bodies_spec hk hw).1] at hcode
    obtain ⟨starts, hstarts, hincreasing, hrange⟩ := CaseCode.starts k hw
    have hstartsF := hstarts.imp fun _ _ => hx₅.bound
    refine ⟨starts, k.pb₅.code.length, ⟨CaseCode.bodyAt k hb hd hw hx₅ hdone hstartsF, ?_,
      nofun, ?_⟩, CaseCode.runs k hb hw hx₅ hpast hexpr hvalues hstartsF hf⟩
    · rintro _ ⟨⟩ fuel σ' f' hf'
      have hrun := simulates hb (W := W) hd fuel body hcode hwd hx₆ hf'
      exact hrun
    · refine List.pairwise_append.mpr ⟨hincreasing, List.pairwise_singleton _ _,
        fun s hs t ht => ?_⟩
      cases List.mem_singleton.mp ht
      exact hrange s hs

end Stages

end Code

/-! ### Generate-case constructs -/

section Generate

variable {B : Type} {consts : Const.Evaluators.Constants} {selector : PackedVec}

/-- The labels of an item of a generate-case construct evaluate to values. -/
def ConstantValues (consts : Const.Evaluators.Constants)
    (item : List Ast.Modules.ConstExpr × B) (values : List PackedVec) : Prop :=
  List.Forall₂ (fun label value => evaluateGenerateConstant consts label = some value) item.1 values

theorem labelMatches_eq {label : Ast.Modules.ConstExpr} {value : PackedVec} {width : Nat}
    (h : evaluateGenerateConstant consts label = some value) (hs : selector.width ≤ width)
    (hv : value.width ≤ width) :
    labelMatches consts selector label = caseEqual false width selector value := by
  unfold labelMatches
  rw [h]
  exact Bool.eq_iff_iff.mpr (resize_eqCase_iff hs hv)

theorem any_labelMatches {labels : List Ast.Modules.ConstExpr} {values : List PackedVec}
    {width : Nat}
    (h : List.Forall₂ (fun label value => evaluateGenerateConstant consts label = some value) labels
      values) (hs : selector.width ≤ width) (hv : ∀ value ∈ values, value.width ≤ width) :
    labels.any (labelMatches consts selector) = values.any (caseEqual false width selector) := by
  induction h with
  | nil => rfl
  | @cons label value labels values hvalue _ ih =>
    rw [List.any_cons, List.any_cons, labelMatches_eq hvalue hs (hv value List.mem_cons_self),
      ih fun value hmem => hv value (List.mem_cons_of_mem _ hmem)]

theorem findIdx?_labelMatches {items : List (List Ast.Modules.ConstExpr × B)}
    {values : List (List PackedVec)} {width : Nat}
    (h : List.Forall₂ (ConstantValues consts) items values) (hs : selector.width ≤ width)
    (hv : ∀ item ∈ values, ∀ value ∈ item, value.width ≤ width) :
    items.findIdx? (·.1.any (labelMatches consts selector)) =
      values.findIdx? (·.any (caseEqual false width selector)) := by
  induction h with
  | nil => rfl
  | @cons item vs items values hitem _ ih =>
    rw [List.findIdx?_cons, List.findIdx?_cons,
      any_labelMatches hitem hs (hv vs List.mem_cons_self),
      ih fun item hmem => hv item (List.mem_cons_of_mem _ hmem)]

/-- A generate-case construct selects the item that a case statement takes. -/
theorem generate_takenItem {expr : Ast.Modules.ConstExpr}
    {items : List (List Ast.Modules.ConstExpr × B)} {values : List (List PackedVec)}
    (hexpr : evaluateGenerateConstant consts expr = some selector)
    (hvalues : List.Forall₂ (ConstantValues consts) items values) :
    items.findIdx? (·.1.any (labelMatches consts selector)) = takenItem selector values := by
  have hknown : selector.isKnown = true := (Option.filter_eq_some_iff.mp hexpr).2
  rw [takenItem_eq, if_pos hknown]
  exact findIdx?_labelMatches hvalues (selector_le_commonWidth _ _) fun item hitem value hvalue =>
    label_le_commonWidth hitem hvalue

end Generate

/-- The code of a case statement enters the body of one item and executes it to the end of the
statement. It is the item that a generate-case construct selects. It is the one that case equality
selects if a known selector is equal to the same item after extension by zeros, and if an unknown
one is equal to no label. -/
theorem case_equality_iff {cg : CodeGen} {F : ProgramBuilder} {P : Program} {W : World} {σ : Store}
    (hb : Built F P) (hd : Distinct cg) {expr : Expr} {items : List (List Expr × Stmt)}
    {default : Option Stmt} {loops loops' : LoopTargets} {pb pb' : ProgramBuilder}
    (h : cg.genStmt (.case expr items default) loops pb = some (loops', pb'))
    (hw : Within cg pb.nRegs) (hx : Extends pb' F) {selector : PackedVec}
    {values : List (List PackedVec)} (hexpr : evalExpr cg W σ expr = some (.logic selector))
    (hvalues : List.Forall₂ (LabelValues cg W σ) items values) {f : Frame}
    (hf : Stands cg F pb.code.length σ f) (signed : Bool) :
    (∃ starts past, CasePlaces cg F P W loops items default starts past pb'.code.length ∧
      ∃ n f' pc, Runs (step P W) n f f' ∧ Stands cg F pc σ f' ∧
        (takenItem selector values).elim (some past) (starts[·]?) = some pc) ∧
    (∀ {B : Type} (consts : Const.Evaluators.Constants) (constant : Ast.Modules.ConstExpr)
      (constantItems : List (List Ast.Modules.ConstExpr × B)),
      evaluateGenerateConstant consts constant = some selector →
      List.Forall₂ (ConstantValues consts) constantItems values →
      constantItems.findIdx? (·.1.any (labelMatches consts selector)) =
        takenItem selector values) ∧
    (takenItem selector values = equalItem signed selector values ↔
      (selector.isKnown = true →
        equalItem false selector values = equalItem signed selector values) ∧
      (selector.isKnown = false → ∀ item ∈ values, ∀ label ∈ item,
        caseEqual signed (commonWidth selector values) selector label = false)) :=
  ⟨case_runs hb hd h hw hx hexpr hvalues hf, fun _ _ _ => generate_takenItem,
    takenItem_eq_equalItem_iff⟩

/-- Whether a value is the label of the first item. -/
def firstLabel (selector label : PackedVec) : FuncDecl where
  name := "first_label"
  params := []
  isVoid := false
  retWidth := 1
  retSigned := false
  body := .case (.literal selector) [([.literal label], .ret (some (.literal (.ones 1))))]
    (some (.ret (some (.literal (.zero 1)))))

theorem scoped_firstLabel (selector label : PackedVec) :
    Scoped (bodyScope emptyScope (firstLabel selector label)) false
      (firstLabel selector label).body := by
  refine .case (.literal _) (fun item hitem e he => ?_) (fun item hitem => ?_) fun body hbody => ?_
  · cases List.mem_singleton.mp hitem
    cases List.mem_singleton.mp he
    exact .literal _
  · cases List.mem_singleton.mp hitem
    refine .ret false fun e he => ?_
    cases he
    exact .literal _
  · cases hbody
    refine .ret false fun e he => ?_
    cases he
    exact .literal _

theorem case_equality_known :
    takenItem (.zero 1) [[.zero 2]] = equalItem false (.zero 1) [[.zero 2]] := by
  obtain ⟨P, -, ⟨k⟩⟩ := functionCode (scoped_firstLabel (.zero 1) (.zero 2))
  have hargs : ([] : List Value).length = (firstLabel (.zero 1) (.zero 2)).params.length := rfl
  obtain ⟨g, -, hg⟩ := k.enters ⟨fun _ => .zero 1, fun _ => .null⟩ hargs fun _ => .null
  have hvalues : List.Forall₂ (LabelValues (bodyScope emptyScope (firstLabel (.zero 1) (.zero 2)))
      ⟨fun _ => .zero 1, fun _ => .null⟩
        (entryStore (firstLabel (.zero 1) (.zero 2)) [] fun _ => .null))
      [([.literal (.zero 2)], .ret (some (.literal (.ones 1))))] [[.zero 2]] := .cons rfl .nil
  exact (case_equality_iff k.built (distinct_bodyScope _ _) k.body (within_bodyScope _ _)
    k.extends_last rfl hvalues hg false).2.2.mpr ⟨fun _ => rfl, by decide⟩

/-- A selector with an unknown bit leads to the default. -/
theorem exec_firstLabel (W : World) (σ : Store) {selector : PackedVec} (label : PackedVec)
    (hs : selector.isKnown = false) :
    exec (bodyScope emptyScope (firstLabel selector label)) W 2 (firstLabel selector label).body σ =
      some (.returned (some (.logic (.zero 1))) σ) := by
  have hfalse : (selector.eqLogical label).isTrue = false := by
    rw [eqLogical_unknown (.inl hs)]
    decide
  have hmatches : matchesLabel (bodyScope emptyScope (firstLabel selector label)) W σ
      (.logic selector) [.literal label] =
        some ([label].any fun label => (selector.eqLogical label).isTrue) :=
    matchesLabel_values rfl
  rw [List.any_cons, hfalse] at hmatches
  show onItem (selectItem _ W σ (.logic selector) _ [([.literal label], _)]) _ σ = _
  rw [selectItem, hmatches]
  rfl

theorem unknown_label_not_taken : ∃ P, emptyScope.genCallable (firstLabel (.x 1) (.x 1)) = some P ∧
    (∃ n last, Halts (step P ⟨fun _ => .zero 1, fun _ => .null⟩) n (callFrame P []) last
      (.returned (some (.logic (.zero 1))))) ∧
    equalItem false (.x 1) [[.x 1]] = some 0 := by
  obtain ⟨P, hP, ⟨k⟩⟩ := functionCode (scoped_firstLabel (.x 1) (.x 1))
  have hargs : ([] : List Value).length = (firstLabel (.x 1) (.x 1)).params.length := rfl
  obtain ⟨g, hrun, hg⟩ := k.enters ⟨fun _ => .zero 1, fun _ => .null⟩ hargs fun _ => .null
  have h := simulates k.built (W := ⟨fun _ => .zero 1, fun _ => .null⟩) (distinct_bodyScope _ _) 2 _
    k.body (within_bodyScope _ _) k.extends_last hg
  rw [exec_firstLabel _ _ _ (by decide)] at h
  refine ⟨P, hP, ?_, by decide⟩
  obtain ⟨n, last, hh, -⟩ := h
  exact ⟨1 + n, last, hh.prepend hrun⟩

end Eevee.Elab.CaseEquality
