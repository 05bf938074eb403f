/- Constant folding against the code of the same expression in an assignment. -/

import Mathlib.Tactic.Common
import Eevee.Const.Agreement
import Eevee.Elab.Narrowing

set_option autoImplicit false
set_option relaxedAutoImplicit false

namespace Eevee.Elab.ConstantFolding

open Eevee.Ast.Syntax
open Eevee.Const.Agreement
open Eevee.Const.Evaluators
open Eevee.Core.Logic (Bit PackedVec)
open Eevee.Core.Logic.PackedVec
open Eevee.Core.ResizedOperands
open Eevee.Ir.Inst
open Eevee.Ir.Values
open Eevee.Elab.Evaluation
open Eevee.Elab.Generator
open Eevee.Elab.Narrowing
open Eevee.Elab.Widening
open Eevee.Elab.Widths

/-- The named constants are in scope, as unsigned values. -/
structure ConstantScope (cg : CodeGen) (W : World) (σ : Store) (consts : Constants) : Prop where
  value : ∀ {name v}, consts name = some v → evalRef cg W σ name = some (.logic v)
  unsigned : ∀ {name v}, consts name = some v → cg.integralExprSigned (.ref name) = false

section Plain

variable (cg : CodeGen)

mutual

/-- The branches of a conditional have one width, and no arithmetic shift of a signed operand has an
unsigned amount. -/
def plain : Expr → Bool
  | .literal _ | .signedLiteral _ | .fill _ | .ref _ => true
  | .unary _ operand => plain operand
  | .binary op lhs rhs => plain lhs && plain rhs &&
    (op != .sar || !cg.integralExprSigned lhs || cg.integralExprSigned rhs)
  | .conditional condition whenTrue whenFalse =>
    plain condition && plain whenTrue && plain whenFalse &&
      ((exactWidth cg whenTrue).isSome && exactWidth cg whenTrue == exactWidth cg whenFalse)
  | .index base index => plain base && plain index
  | .partSelect base left right => plain base && plain left && plain right
  | .concat parts => plainParts parts

def plainParts : List Expr → Bool
  | [] => true
  | part :: parts => plain part && plainParts parts

end

end Plain

section

variable {cg : CodeGen} {W : World} {σ : Store} {consts : Constants}

/-! ### Values by themselves -/

theorem bothSigned_getD (left right : Option Bool) :
    (bothSigned left right).getD false = (left.getD false && right.getD false) := by
  cases left with
  | none => rfl
  | some l => cases l <;> rfl

/-- What folds has the same signedness for the code generator. -/
theorem signed_of_ok (hs : ConstantScope cg W σ consts) {e : Expr} {v : PackedVec}
    (h : Elab.tryConstEvalWith consts e = .ok v) : cg.integralExprSigned e = constSigned e := by
  induction e generalizing v with
  | literal | signedLiteral | fill | partSelect | concat | index => rfl
  | ref name =>
    rw [Elab.tryConstEvalWith] at h
    unfold Constants.get at h
    cases hc : consts name with
    | none =>
      rw [hc] at h
      cases h
    | some w => exact hs.unsigned hc
  | unary op operand ih =>
    rw [Elab.tryConstEvalWith] at h
    obtain ⟨w, hw, -⟩ := bind_eq_ok.mp h
    cases op with
    | bitNot | neg | plus => exact ih hw
    | logNot | reduceAnd | reduceOr | reduceXor => rfl
  | binary op lhs rhs ihl ihr =>
    rw [Elab.tryConstEvalWith] at h
    obtain ⟨l, hl, h⟩ := bind_eq_ok.mp h
    obtain ⟨r, hr, -⟩ := bind_eq_ok.mp h
    cases op with
    | add | sub | mul | and | or | xor =>
      show (cg.integralExprSigned lhs && cg.integralExprSigned rhs) =
        (bothSigned _ _).getD false
      rw [bothSigned_getD, ihl hl, ihr hr]
      rfl
    | shl | shr | sar => exact ihl hl
    | eq | neq | lt | gt | le | ge | logAnd | logOr => rfl
  | conditional c t f _ iht ihf =>
    rw [Elab.tryConstEvalWith] at h
    obtain ⟨tv, ht, h⟩ := bind_eq_ok.mp h
    obtain ⟨fv, hf, -⟩ := bind_eq_ok.mp h
    show (cg.integralExprSigned t && cg.integralExprSigned f) = (bothSigned _ _).getD false
    rw [bothSigned_getD, iht ht, ihf hf]
    rfl

/-- At its own width a value is taken as it is. -/
theorem atWidth_self {e : Expr} {v : PackedVec} (h : Elab.tryConstEvalWith consts e = .ok v)
    (s : Bool) (hs : ∀ c t f, e = .conditional c t f → s = false) :
    Elab.tryConstEvalAtWidth consts e v.width s = .ok v := by
  by_cases hl : widthLast e = true
  · rw [tryAtWidth_of_widthLast hl, h]
    exact congrArg Except.ok (PackedVec.resize_self v _)
  · cases e with
    | literal w | signedLiteral w =>
      rw [Elab.tryConstEvalWith] at h
      cases h
      rw [Elab.tryConstEvalAtWidth]
      exact congrArg Except.ok (PackedVec.resize_self v _)
    | fill bit =>
      rw [Elab.tryConstEvalWith] at h
      cases h
      rw [Elab.tryConstEvalAtWidth, PackedVec.width_filled]
    | conditional c t f =>
      obtain rfl := hs c t f rfl
      rw [Elab.tryConstEvalWith] at h
      obtain ⟨tv, ht, h⟩ := bind_eq_ok.mp h
      obtain ⟨fv, hf, h⟩ := bind_eq_ok.mp h
      obtain ⟨cv, hc, h⟩ := bind_eq_ok.mp h
      obtain ⟨tw, htw, h⟩ := bind_eq_ok.mp h
      obtain ⟨fw, hfw, h⟩ := bind_eq_ok.mp h
      cases h
      rw [PackedVec.width_conditional, width_atWidth htw, width_atWidth hfw, Nat.max_self,
        Elab.tryConstEvalAtWidth, hc, htw, hfw]
      rfl
    | _ => exact absurd rfl hl

theorem evalUnary_const (v : PackedVec) (op : UnaryOp) :
    evalUnary (.logic v) op = some (.logic (constUnary v op)) := by
  cases op <;> rfl

/-- The instruction for an operator computes what folding computes, but for a signed operand
shifted by an unsigned amount. -/
theorem evalBinary_const {ls rs : Bool} {l r v : PackedVec} {op : BinOp}
    (h : constBinary ls rs l r op = .ok v) (hop : op ≠ .sar ∨ ls = false ∨ rs = true) :
    evalBinary (ls && rs) op (.logic l) (.logic r) = some (.logic v) := by
  rw [evalBinary_logic]
  cases op with
  | mul =>
    simp only [constBinary, asserted] at h
    split at h
    · next w hw =>
      cases h
      exact congrArg (Option.map Value.logic) hw
    · cases h
  | sar =>
    cases h
    rcases hop with hop | rfl | rfl
    · exact absurd rfl hop
    · rfl
    · cases ls <;> rfl
  | lt | gt | le | ge =>
    cases h
    cases ls <;> cases rs <;> rfl
  | _ =>
    cases h
    rfl

theorem evalParts_const {parts : List Expr} {values : List PackedVec}
    (ih : ∀ e ∈ parts, ∀ v, plain cg e = true → Elab.tryConstEvalWith consts e = .ok v →
      evalExpr cg W σ e = some (.logic v)) (hp : plainParts cg parts = true)
    (h : Elab.tryConstEvalParts consts parts = .ok values) :
    evalExprs cg W σ parts = some (values.map .logic) := by
  induction parts generalizing values with
  | nil =>
    rw [Elab.tryConstEvalParts] at h
    cases h
    rfl
  | cons e parts ihp =>
    simp only [plainParts, Bool.and_eq_true] at hp
    rw [Elab.tryConstEvalParts] at h
    obtain ⟨v, hv, h⟩ := bind_eq_ok.mp h
    obtain ⟨vs, hvs, h⟩ := bind_eq_ok.mp h
    cases h
    simp only [evalExprs]
    rw [ih e List.mem_cons_self v hp.1 hv,
      ihp (fun e he => ih e (List.mem_cons_of_mem _ he)) hp.2 hvs]
    rfl

theorem evalConditional_const {c t f : PackedVec} (h : t.width = f.width) :
    evalConditional (some (.logic c)) (some (.logic t)) (some (.logic f)) =
      some (.logic (conditional c t f)) := by
  have hmax : max t.width f.width = t.width := by omega
  show (if c.isTrue then some (Value.logic t) else if c.isKnown then some (.logic f) else _) = _
  split_ifs with htrue hknown
  · rw [conditional_true htrue, hmax, PackedVec.resize_self]
  · rw [conditional_false (Bool.eq_false_iff.mpr htrue) hknown, hmax, h, PackedVec.resize_self]
  · rfl

/-- A plain expression folds to the value that its code computes. -/
theorem plain_eval (hv : Valuation cg W σ) (hs : ConstantScope cg W σ consts) {e : Expr}
    {v : PackedVec} (hp : plain cg e = true) (h : Elab.tryConstEvalWith consts e = .ok v) :
    evalExpr cg W σ e = some (.logic v) := by
  induction e generalizing v with
  | literal | signedLiteral | fill =>
    rw [Elab.tryConstEvalWith] at h
    cases h
    simp only [evalExpr]
  | ref name =>
    rw [Elab.tryConstEvalWith] at h
    unfold Constants.get at h
    cases hc : consts name with
    | none =>
      rw [hc] at h
      cases h
    | some w =>
      rw [hc] at h
      cases h
      simp only [evalExpr]
      exact hs.value hc
  | unary op operand ih =>
    simp only [plain] at hp
    rw [Elab.tryConstEvalWith] at h
    obtain ⟨w, hw, h⟩ := bind_eq_ok.mp h
    cases h
    simp only [evalExpr]
    rw [ih hp hw]
    exact evalUnary_const w op
  | binary op lhs rhs ihl ihr =>
    simp only [plain, Bool.and_eq_true, Bool.or_eq_true, Bool.not_eq_true', bne_iff_ne] at hp
    rw [Elab.tryConstEvalWith] at h
    obtain ⟨l, hl, h⟩ := bind_eq_ok.mp h
    obtain ⟨r, hr, h⟩ := bind_eq_ok.mp h
    rw [← signed_of_ok hs hl, ← signed_of_ok hs hr] at h
    simp only [evalExpr]
    rw [ihl hp.1.1 hl, ihr hp.1.2 hr]
    exact evalBinary_const h (or_assoc.mp hp.2)
  | conditional c t f ihc iht ihf =>
    simp only [plain, Bool.and_eq_true, beq_iff_eq] at hp
    obtain ⟨⟨⟨hpc, hpt⟩, hpf⟩, hsome, hwidth⟩ := hp
    rw [Elab.tryConstEvalWith] at h
    obtain ⟨tv, ht, h⟩ := bind_eq_ok.mp h
    obtain ⟨fv, hf, h⟩ := bind_eq_ok.mp h
    obtain ⟨cv, hc, h⟩ := bind_eq_ok.mp h
    obtain ⟨tw, htw, h⟩ := bind_eq_ok.mp h
    obtain ⟨fw, hfw, h⟩ := bind_eq_ok.mp h
    cases h
    have het := iht hpt ht
    have hef := ihf hpf hf
    obtain ⟨k, hk⟩ := Option.isSome_iff_exists.mp hsome
    have hkt : tv.width = k := by
      obtain ⟨w, hw, hwk⟩ := measured hv t _ het
      cases hw
      exact hwk k hk
    have hkf : fv.width = k := by
      obtain ⟨w, hw, hwk⟩ := measured hv f _ hef
      cases hw
      exact hwk k (hwidth.symm.trans hk)
    have hmax : max tv.width fv.width = k := by omega
    rw [hmax] at htw hfw
    have htself := atWidth_self ht false fun _ _ _ _ => rfl
    have hfself := atWidth_self hf false fun _ _ _ _ => rfl
    rw [hkt] at htself
    rw [hkf] at hfself
    cases htself.symm.trans htw
    cases hfself.symm.trans hfw
    simp only [evalExpr]
    rw [ihc hpc hc, het, hef]
    exact evalConditional_const (hkt.trans hkf.symm)
  | index base index =>
    rw [Elab.tryConstEvalWith] at h
    cases h
  | partSelect base left right ihb ihl ihr =>
    simp only [plain, Bool.and_eq_true] at hp
    rw [Elab.tryConstEvalWith] at h
    obtain ⟨b, hb, h⟩ := bind_eq_ok.mp h
    obtain ⟨l, hl, h⟩ := bind_eq_ok.mp h
    obtain ⟨r, hr, h⟩ := bind_eq_ok.mp h
    cases h
    simp only [evalExpr]
    rw [ihb hp.1.1 hb, ihl hp.1.2 hl, ihr hp.2 hr]
    rfl
  | concat parts ih =>
    simp only [plain] at hp
    rw [Elab.tryConstEvalWith] at h
    obtain ⟨vs, hvs, h⟩ := bind_eq_ok.mp h
    cases h
    simp only [evalExpr]
    rw [evalParts_const (fun e he v => ih e he) hp hvs]
    exact execValue_concat vs

end

/-! ### Assignments -/

section

variable (cg : CodeGen) (W : World) (σ : Store)

/-- In a context of `n` bits the value by itself is extended, by the signedness that folding takes,
or cut off. -/
def Resizes (n : Nat) (dest signed : Bool) (e : Expr) : Prop :=
  plain cg e = true ∧ ∃ k ext, exactWidth cg e = some k ∧
    settles cg e (max n k) signed ext = true ∧ Narrows cg W σ n (max n k) signed e ∧
    (n ≤ k ∨ ext = (constExprSignedness e).getD dest)

/-- Folding for a destination of `n` bits with the signedness `dest` is evaluation in a context with
the signedness of the expression. -/
def Foldable (n : Nat) (dest signed : Bool) : Expr → Prop
  | .fill _ => True
  | .literal v => n ≤ v.width ∨ signed = false
  | .signedLiteral v => n ≤ v.width ∨ signed = true
  | .conditional condition whenTrue whenFalse => plain cg condition = true ∧
    Foldable n dest signed whenTrue ∧ Foldable n dest signed whenFalse
  | .ref name => Resizes cg W σ n dest signed (.ref name)
  | .unary op operand => Resizes cg W σ n dest signed (.unary op operand)
  | .binary op lhs rhs => Resizes cg W σ n dest signed (.binary op lhs rhs)
  | .index base index => Resizes cg W σ n dest signed (.index base index)
  | .partSelect base left right => Resizes cg W σ n dest signed (.partSelect base left right)
  | .concat parts => Resizes cg W σ n dest signed (.concat parts)

end

section

variable {cg : CodeGen} {W : World} {σ : Store} {consts : Constants} {n : Nat} {dest s : Bool}

theorem resizes_eval (hv : Valuation cg W σ) (hs : ConstantScope cg W σ consts) {e : Expr}
    {v : PackedVec} (hl : widthLast e = true) (hr : Resizes cg W σ n dest s e)
    (h : Elab.tryConstEvalAtWidth consts e n dest = .ok v) :
    evalAtWidthWithSign cg W σ e n s = some (.logic v) := by
  obtain ⟨hp, k, ext, hk, hsettles, hnarrows, hext⟩ := hr
  rw [tryAtWidth_of_widthLast hl] at h
  obtain ⟨w, hw, h⟩ := bind_eq_ok.mp h
  cases h
  have hown := plain_eval hv hs hp hw
  have hwk : w.width = k := by
    obtain ⟨w', hw', hwidth⟩ := measured hv e _ hown
    cases hw'
    exact hwidth k hk
  have hwide := (settles_eval hv hsettles).eq
  rw [hown] at hwide
  have hnarrow := (narrows_eval hv (Nat.le_max_left n k) hnarrows).eq
  rw [hwide] at hnarrow
  rw [hnarrow]
  show some (Value.logic ((w.resize (max n k) ext).resize n false)) = _
  rw [resize_through (Nat.le_max_left n k)]
  rcases hext with hle | rfl
  · rw [resize_narrow (by omega) ext]
  · rfl

theorem literal_eval {e : Expr} {v : PackedVec} {r : Bool}
    (he : evalExpr cg W σ e = some (.logic v))
    (hw : cg.integralExprWidth e = some v.width) (hr : n ≤ v.width ∨ s = r) :
    evalResized cg W σ e n s = some (.logic (v.resize n r)) := by
  unfold evalResized
  rw [he, hw]
  show (if some v.width = some n then some (Value.logic v) else some (.logic (v.resize n s))) = _
  split_ifs with hn
  · rw [resize_of_width_eq (Option.some.inj hn)]
  · rcases hr with hle | rfl
    · rw [resize_narrow hle s r]
    · rfl

theorem foldable_eval (hv : Valuation cg W σ) (hs : ConstantScope cg W σ consts) {e : Expr}
    {v : PackedVec} (hf : Foldable cg W σ n dest s e)
    (h : Elab.tryConstEvalAtWidth consts e n dest = .ok v) :
    evalAtWidthWithSign cg W σ e n s = some (.logic v) := by
  induction e generalizing v with
  | literal w | signedLiteral w =>
    rw [Elab.tryConstEvalAtWidth] at h
    cases h
    simp only [Foldable] at hf
    simp only [evalAtWidthWithSign]
    exact literal_eval (by simp only [evalExpr]) rfl hf
  | fill bit =>
    rw [Elab.tryConstEvalAtWidth] at h
    cases h
    simp only [evalAtWidthWithSign]
  | conditional c t f _ iht ihf =>
    simp only [Foldable] at hf
    rw [Elab.tryConstEvalAtWidth] at h
    obtain ⟨cv, hc, h⟩ := bind_eq_ok.mp h
    obtain ⟨tv, ht, h⟩ := bind_eq_ok.mp h
    obtain ⟨fv, hf', h⟩ := bind_eq_ok.mp h
    cases h
    simp only [evalAtWidthWithSign]
    rw [plain_eval hv hs hf.1 hc, iht hf.2.1 ht, ihf hf.2.2 hf']
    exact evalConditional_const ((width_atWidth ht).trans (width_atWidth hf').symm)
  | ref | unary | binary | index | partSelect | concat =>
    simp only [Foldable] at hf
    exact resizes_eval hv hs rfl hf h

end

/-- What the elaborator folds for a destination is what the code of an assignment to it computes. -/
theorem constant_folding {cg : CodeGen} {W : World} {σ : Store} {consts : Constants}
    (hv : Valuation cg W σ) (hs : ConstantScope cg W σ consts) {e : Expr} {n : Nat} {dest : Bool}
    (hf : Foldable cg W σ n dest (cg.integralExprSigned e) e) {v : PackedVec}
    (h : Elab.tryConstEvalAtWidth consts e n dest = .ok v) :
    CodeComputes cg W σ (cg.genExprAtWidth e n) (some (.logic v)) := by
  have hcode : CodeComputes cg W σ (cg.genExprAtWidth e n) _ := code_atWidth e n
  unfold evalAtWidth at hcode
  rwa [foldable_eval hv hs hf h] at hcode

/-- A constant of eight bits. -/
def byteConstants : Constants := fun name => if name = "N" then some (.ones 8) else none

def byteScope : CodeGen := { nibbleScope with nets := fun _ => none, consts := byteConstants }

def byteWorld : World := ⟨fun _ => .zero 1, fun _ => .null⟩

theorem byteScope_evalRef {name : String} {value : Value}
    (h : evalRef byteScope byteWorld (fun _ => .null) name = some value) :
    name = "N" ∧ value = .logic (.ones 8) := by
  by_cases hname : name = "N"
  · subst hname
    cases h
    exact ⟨rfl, rfl⟩
  · simp [evalRef, byteScope, nibbleScope, byteConstants, hname] at h

theorem valuation_byte : Valuation byteScope byteWorld fun _ => .null where
  vector hr := ⟨_, (byteScope_evalRef hr).2⟩
  width hr hn := by
    obtain ⟨rfl, hv⟩ := byteScope_evalRef hr
    cases hv
    cases hn
    exact PackedVec.width_ones 8
  memory hm := by cases hm

theorem constantScope_byte : ConstantScope byteScope byteWorld (fun _ => .null) byteConstants where
  value {name v} hc := by
    by_cases hname : name = "N"
    · subst hname
      cases hc
      rfl
    · simp [byteConstants, hname] at hc
  unsigned _ := rfl

/-- `N ? N + 8'd0 : '1`. -/
def byteChoice : Expr :=
  .conditional (.ref "N") (.binary .add (.ref "N") (.literal (.zero 8))) (.fill .one)

theorem constant_folding_choice : CodeComputes byteScope byteWorld (fun _ => .null)
    (byteScope.genExprAtWidth byteChoice 8) (some (.logic (.ones 8))) := by
  have hf : Foldable byteScope byteWorld (fun _ => .null) 8 false
      (byteScope.integralExprSigned byteChoice) byteChoice :=
    ⟨rfl, ⟨rfl, 8, false, rfl, by decide, ⟨fun _ hn => hn, fun _ hn => hn, .inl rfl⟩, .inl le_rfl⟩,
      trivial⟩
  have h : Elab.tryConstEvalAtWidth byteConstants byteChoice 8 false = .ok (.ones 8) := by
    simp only [byteChoice, Elab.tryConstEvalAtWidth, Elab.tryConstEvalWith, Constants.get,
      byteConstants]
    decide +kernel
  exact @constant_folding _ _ _ _ valuation_byte constantScope_byte _ _ _ hf _ h

end Eevee.Elab.ConstantFolding
