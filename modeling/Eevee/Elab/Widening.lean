/- Expressions in a wider context: when the value there is the extended value by itself. -/

import Mathlib.Tactic.Common
import Eevee.Elab.Widths

set_option autoImplicit false
set_option relaxedAutoImplicit false

namespace Eevee.Elab.Widening

open Eevee.Ast.Syntax
open Eevee.Core.Logic (Bit PackedVec)
open Eevee.Core.Logic.PackedVec
open Eevee.Core.ResizedOperands
open Eevee.Ir.Builder
open Eevee.Ir.Emission
open Eevee.Ir.Inst
open Eevee.Ir.Interp
open Eevee.Ir.Values
open Eevee.Elab.Evaluation
open Eevee.Elab.ExprCode
open Eevee.Elab.Generator
open Eevee.Elab.Widths

/-! ### Settled expressions -/

section Settled

variable (cg : CodeGen)

/-- What is evaluated by itself is resized by the signedness of the context unless its declared
width is the one of the context. -/
def leafSettles (e : Expr) (width : Nat) (signed ext : Bool) : Bool :=
  match exactWidth cg e with
  | some n =>
    if cg.integralExprWidth e = some width then n == width
    else decide (n ≤ width) && (n == width || signed == ext)
  | none => false

/-- A shift to the right of a narrower operand is the shift of the wider one if zeros are appended
to both and the index sums do not wrap. -/
def shrSettles (lhs rhs : Expr) (width : Nat) (ext : Bool) : Bool :=
  exactWidth cg lhs == some width || !ext && (decide (width ≤ 64) || sumsFit cg width rhs)

/-- So is an arithmetic shift if copies of the sign are appended to both. -/
def ashrSettles (lhs rhs : Expr) (width : Nat) (ext : Bool) : Bool :=
  exactWidth cg lhs == some width ||
    ext && (exactWidth cg lhs).any (0 < ·) && sumsFit cg width rhs

/-- In a context of this width and signedness the value of the expression is its value by itself,
extended by zeros or, for `ext`, by copies of its sign. -/
def settles : Expr → Nat → Bool → Bool → Bool
  | .fill bit, width, _, ext =>
    decide (1 ≤ width) && (width == 1 || bit == .zero || ext && bit != .z)
  | .conditional _ whenTrue whenFalse, width, signed, ext =>
    settles whenTrue width signed ext && settles whenFalse width signed ext &&
      (!ext || (exactWidth cg whenTrue).isSome && exactWidth cg whenTrue == exactWidth cg whenFalse)
  | .unary op operand, width, signed, ext =>
    match op with
    | .plus => settles operand width signed ext
    | .bitNot =>
      settles operand width signed ext &&
        (exactWidth cg operand == some width || ext && (exactWidth cg operand).any (0 < ·))
    | .neg => settles operand width signed false && exactWidth cg operand == some width
    | .logNot | .reduceAnd | .reduceOr | .reduceXor =>
      leafSettles cg (.unary op operand) width signed ext
  | .binary op lhs rhs, width, signed, ext =>
    match op with
    | .add | .sub | .mul =>
      settles lhs width signed false && settles rhs width signed false &&
        (exactWidth cg lhs == some width || exactWidth cg rhs == some width)
    | .and | .or | .xor =>
      settles lhs width signed ext && settles rhs width signed ext &&
        (!ext || (exactWidth cg lhs).isSome && exactWidth cg lhs == exactWidth cg rhs)
    | .shl => settles lhs width signed false && exactWidth cg lhs == some width
    | .shr => settles lhs width signed false && shrSettles cg lhs rhs width ext
    | .sar =>
      (cg.integralExprSigned lhs && cg.integralExprSigned rhs) == signed &&
        settles lhs width signed signed &&
        if signed then ashrSettles cg lhs rhs width ext else shrSettles cg lhs rhs width ext
    | .eq | .neq =>
      let signed := cg.integralExprSigned lhs && cg.integralExprSigned rhs
      settles lhs (cg.operandWidth lhs rhs) signed false &&
        settles rhs (cg.operandWidth lhs rhs) signed false &&
        decide (1 ≤ width) && (width == 1 || !ext)
    | .lt | .gt | .le | .ge =>
      let signed := cg.integralExprSigned lhs && cg.integralExprSigned rhs
      settles lhs (cg.operandWidth lhs rhs) signed signed &&
        settles rhs (cg.operandWidth lhs rhs) signed signed &&
        decide (1 ≤ width) && (width == 1 || !ext)
    | .logAnd | .logOr => leafSettles cg (.binary op lhs rhs) width signed ext
  | .literal value, width, signed, ext => leafSettles cg (.literal value) width signed ext
  | .signedLiteral value, width, signed, ext =>
    leafSettles cg (.signedLiteral value) width signed ext
  | .ref name, width, signed, ext => leafSettles cg (.ref name) width signed ext
  | .index base index, width, signed, ext => leafSettles cg (.index base index) width signed ext
  | .partSelect base left right, width, signed, ext =>
    leafSettles cg (.partSelect base left right) width signed ext
  | .concat parts, width, signed, ext => leafSettles cg (.concat parts) width signed ext

end Settled

/-- The value by itself, none or a vector that fits, and the extended one. -/
inductive Extended (width : Nat) (ext : Bool) : Option Value → Option Value → Prop
  | fails : Extended width ext none none
  | vector {v : PackedVec} (h : v.width ≤ width) :
    Extended width ext (some (.logic v)) (some (.logic (v.resize width ext)))

section Extended

variable {cg : CodeGen} {W : World} {σ : Store} {n : Nat} {s ext : Bool}

theorem Extended.eq {own there : Option Value} (h : Extended n ext own there) :
    there = own.bind (resizedTo n ext) := by
  cases h <;> rfl

/-- At its own width a value is not extended at all. -/
theorem Extended.any {own there : Option Value} (h : Extended n ext own there)
    (hm : Measured (some n) own) (ext' : Bool) : Extended n ext' own there := by
  cases h with
  | fails => exact .fails
  | @vector v hv =>
    obtain ⟨w, hw, hwidth⟩ := hm _ rfl
    cases hw
    have hn := hwidth n rfl
    have heq : v.resize n ext = v.resize n ext' := resize_narrow (by omega) ext ext'
    rw [heq]
    exact .vector hv

theorem extended_leaf (hv : Valuation cg W σ) {e : Expr}
    (h : leafSettles cg e n s ext = true) :
    Extended n ext (evalExpr cg W σ e) (evalResized cg W σ e n s) := by
  have hm := measured hv e
  unfold leafSettles at h
  cases hwidth : exactWidth cg e with
  | none =>
    rw [hwidth] at h
    cases h
  | some m =>
    rw [hwidth] at h hm
    unfold evalResized
    cases he : evalExpr cg W σ e with
    | none => exact .fails
    | some u =>
      obtain ⟨v, rfl, hvm⟩ := hm u he
      have hvm := hvm m rfl
      dsimp only at h
      show Extended n ext _ (if _ then some (Value.logic v) else some (.logic (v.resize n s)))
      split_ifs at h ⊢ with hown
      · have hmn : m = n := by simpa using h
        have hid : v.resize n ext = v := resize_of_width_eq (hvm.trans hmn) ext
        have hres : Extended n ext (some (.logic v)) (some (.logic (v.resize n ext))) :=
          .vector (by omega)
        rwa [hid] at hres
      · simp only [Bool.and_eq_true, decide_eq_true_eq, Bool.or_eq_true, beq_iff_eq] at h
        rcases h with ⟨hle, hmn | rfl⟩
        · have hid : v.resize n s = v.resize n ext := resize_narrow (by omega) s ext
          rw [hid]
          exact .vector (by omega)
        · exact .vector (by omega)

theorem amount_le (hv : Valuation cg W σ) {e : Expr} {v : PackedVec}
    (he : evalExpr cg W σ e = some (.logic v)) : v.toU32 ≤ amountBound cg e := by
  have hlt : v.toU32 < 0x100000000 := Nat.mod_lt _ (by decide)
  unfold amountBound
  cases hl : CodeGen.literalValue e with
  | some value =>
    cases (literalValue_eval hl).symm.trans he
    exact le_rfl
  | none =>
    dsimp only
    cases hw : exactWidth cg e with
    | none => exact hlt.le
    | some width =>
      obtain ⟨w, hw', hwidth⟩ := measured hv e _ he
      cases hw'
      have hpow := Eevee.Core.Numeric.toNat_lt v
      rw [hwidth _ hw] at hpow
      have hmod : v.toU32 ≤ Eevee.Core.Numeric.toNat v := by
        rw [Eevee.Core.Numeric.toU32_eq]
        exact Nat.mod_le _ _
      exact Nat.le_min.mpr ⟨by omega, hlt.le⟩

/-- Two operands are extended, then the operation is applied to both or to the extended ones. -/
theorem Extended.binary {r : Bool} {m : Nat} {op : BinOp} {s' : Bool} {a a' b b' : Option Value}
    (ha : Extended m r a a') (hb : Extended m r b b')
    (h : ∀ v w : PackedVec, a = some (.logic v) → b = some (.logic w) → v.width ≤ m → w.width ≤ m →
      (CodeGen.binaryInst s op).exec (v.resize m r) (w.resize m r) =
        resized n ext ((CodeGen.binaryInst s' op).exec v w) ∧
      ∀ u, (CodeGen.binaryInst s' op).exec v w = some u → u.width ≤ n) :
    Extended n ext (do
        let a ← a
        let b ← b
        evalBinary s' op a b) (do
        let a ← a'
        let b ← b'
        evalBinary s op a b) := by
  cases ha with
  | fails => exact .fails
  | @vector v hv =>
    cases hb with
    | fails => exact .fails
    | @vector w hw =>
      obtain ⟨heq, hle⟩ := h v w rfl rfl hv hw
      show Extended n ext (evalBinary s' op (.logic v) (.logic w))
        (evalBinary s op (.logic (v.resize m r)) (.logic (w.resize m r)))
      rw [evalBinary_logic, evalBinary_logic, heq]
      cases hu : (CodeGen.binaryInst s' op).exec v w with
      | none => exact .fails
      | some u => exact .vector (hle u hu)

/-- One operand is extended; the other, a shift amount, is taken as it is. -/
theorem Extended.shift {r : Bool} {op : BinOp} {s' : Bool} {a a' b : Option Value}
    (ha : Extended n r a a') (hb : ∀ u, b = some u → ∃ w, u = .logic w)
    (h : ∀ v w : PackedVec, a = some (.logic v) → b = some (.logic w) → v.width ≤ n →
      (CodeGen.binaryInst s op).exec (v.resize n r) w =
        resized n ext ((CodeGen.binaryInst s' op).exec v w) ∧
      ∀ u, (CodeGen.binaryInst s' op).exec v w = some u → u.width ≤ n) :
    Extended n ext (do
        let a ← a
        let b ← b
        evalBinary s' op a b) (do
        let a ← a'
        let b ← b
        evalBinary s op a b) := by
  cases ha with
  | fails => exact .fails
  | @vector v hv =>
    cases hb' : b with
    | none => exact .fails
    | some u =>
      obtain ⟨w, rfl⟩ := hb u hb'
      obtain ⟨heq, hle⟩ := h v w rfl hb' hv
      show Extended n ext (evalBinary s' op (.logic v) (.logic w))
        (evalBinary s op (.logic (v.resize n r)) (.logic w))
      rw [evalBinary_logic, evalBinary_logic, heq]
      cases hu : (CodeGen.binaryInst s' op).exec v w with
      | none => exact .fails
      | some u => exact .vector (hle u hu)

/-- A result of one bit, to which the context appends zeros. -/
theorem Extended.compare {m : Nat} {r : Bool} {op : BinOp} {a a' b b' : Option Value}
    (ha : Extended m r a a') (hb : Extended m r b b') (hn : 1 ≤ n) (hext : n = 1 ∨ ext = false)
    (hop : ∀ v w, CodeGen.binaryWidth v w op = 1)
    (h : ∀ v w : PackedVec, v.width ≤ m → w.width ≤ m →
      (CodeGen.binaryInst s op).exec (v.resize m r) (w.resize m r) =
        (CodeGen.binaryInst s op).exec v w) :
    Extended n ext (do
        let a ← a
        let b ← b
        evalBinary s op a b) (do
        let a ← a'
        let b ← b'
        let result ← evalBinary s op a b
        if n = 1 then return result else resizedTo n false result) := by
  cases ha with
  | fails => exact .fails
  | @vector v hv =>
    cases hb with
    | fails => exact .fails
    | @vector w hw =>
      show Extended n ext (evalBinary s op (.logic v) (.logic w))
        ((evalBinary s op (.logic (v.resize m r)) (.logic (w.resize m r))).bind fun result =>
          if n = 1 then some result else resizedTo n false result)
      rw [evalBinary_logic, evalBinary_logic, h v w hv hw]
      cases hu : (CodeGen.binaryInst s op).exec v w with
      | none => exact .fails
      | some u =>
        have huw : u.width = 1 := (width_exec hu).trans (hop _ _)
        have hres : Extended n ext (some (.logic u)) (some (.logic (u.resize n ext))) :=
          .vector (by omega)
        show Extended n ext (some (.logic u))
          (if n = 1 then some (.logic u) else some (.logic (u.resize n false)))
        split_ifs with h1
        · rwa [resize_of_width_eq (huw.trans h1.symm) ext] at hres
        · obtain rfl := hext.resolve_left h1
          exact hres

theorem Extended.unary {r : Bool} (op : UnaryOp) {a a' : Option Value} {f : PackedVec → PackedVec}
    (ha : Extended n r a a')
    (hf : ∀ v : PackedVec, evalUnary (.logic v) op = some (.logic (f v)))
    (h : ∀ v : PackedVec, a = some (.logic v) → v.width ≤ n →
      f (v.resize n r) = (f v).resize n ext ∧ (f v).width ≤ v.width) :
    Extended n ext (do
        let a ← a
        evalUnary a op) (do
        let a ← a'
        evalUnary a op) := by
  cases ha with
  | fails => exact .fails
  | @vector v hv =>
    obtain ⟨heq, hle⟩ := h v rfl hv
    show Extended n ext (evalUnary (.logic v) op) (evalUnary (.logic (v.resize n r)) op)
    rw [hf, hf, heq]
    exact .vector (hle.trans hv)

theorem Extended.branches {c t t' f f' : Option Value} (ht : Extended n ext t t')
    (hf : Extended n ext f f') (hc : ∀ u, c = some u → ∃ v, u = .logic v)
    (hwidth : ∀ v w : PackedVec, t = some (.logic v) → f = some (.logic w) →
      ext = false ∨ v.width = w.width) :
    Extended n ext (evalConditional c t f) (evalConditional c t' f') := by
  cases hc' : c with
  | none => exact .fails
  | some u =>
    obtain ⟨v, rfl⟩ := hc u hc'
    show Extended n ext (if v.isTrue then t else if v.isKnown then f else _)
      (if v.isTrue then t' else if v.isKnown then f' else _)
    split_ifs with htrue hknown
    · exact ht
    · exact hf
    · cases ht with
      | fails => exact .fails
      | @vector a ha =>
        cases hf with
        | fails => exact .fails
        | @vector b hb =>
          have hz := (zips_conditional v).resize (n := n) (hwidth a b rfl rfl)
          show Extended n ext (some (.logic (conditional v a b)))
            (some (.logic (conditional v (a.resize n ext) (b.resize n ext))))
          rw [hz]
          exact .vector (by rw [PackedVec.width_conditional]; omega)

/-- At its own width a result does not depend on the signedness. -/
theorem resized_any {value : Option PackedVec} (h : ∀ u, value = some u → n ≤ u.width)
    (r r' : Bool) : resized n r value = resized n r' value := by
  cases value with
  | none => rfl
  | some u => exact congrArg some (resize_narrow (h u rfl) r r')

theorem settles_eval (hv : Valuation cg W σ) {e : Expr} (h : settles cg e n s ext = true) :
    Extended n ext (evalExpr cg W σ e) (evalAtWidthWithSign cg W σ e n s) := by
  have hvec (e : Expr) : ∀ u, evalExpr cg W σ e = some u → ∃ v, u = .logic v := fun u hu =>
    let ⟨v, hv, _⟩ := measured hv e u hu
    ⟨v, hv⟩
  have hexact {e : Expr} {m : Nat} {v : PackedVec} (hm : exactWidth cg e = some m)
      (he : evalExpr cg W σ e = some (.logic v)) : v.width = m := by
    obtain ⟨w, hw, hwidth⟩ := measured hv e _ he
    cases hw
    exact hwidth m hm
  have hpositive {e : Expr} {v : PackedVec} (h : (exactWidth cg e).any (0 < ·) = true)
      (he : evalExpr cg W σ e = some (.logic v)) : 0 < v.width := by
    cases hm : exactWidth cg e with
    | none =>
      rw [hm] at h
      cases h
    | some m =>
      rw [hm] at h
      rw [hexact hm he]
      simpa using h
  have hfits {e : Expr} {w : PackedVec} {n : Nat} (h : sumsFit cg n e = true)
      (he : evalExpr cg W σ e = some (.logic w)) : n + w.toU32 ≤ 0x100000000 :=
    Nat.le_trans (Nat.add_le_add_left (amount_le hv he) n) (of_decide_eq_true h)
  have hshr {lhs rhs : Expr} {v w : PackedVec} {n : Nat} {ext : Bool}
      (h : shrSettles cg lhs rhs n ext = true) (hl : evalExpr cg W σ lhs = some (.logic v))
      (hr : evalExpr cg W σ rhs = some (.logic w)) :
      v.width = n ∨ ext = false ∧ (n ≤ 64 ∨ n + w.toU32 ≤ 0x100000000) := by
    simp only [shrSettles, Bool.or_eq_true, Bool.and_eq_true, Bool.not_eq_true', beq_iff_eq,
      decide_eq_true_eq] at h
    exact h.imp (fun hm => hexact hm hl) fun h => ⟨h.1, h.2.imp_right fun hfit => hfits hfit hr⟩
  induction e generalizing n s ext with
  | literal | signedLiteral | ref | index | partSelect | concat =>
    simp only [settles] at h
    simp only [evalAtWidthWithSign]
    exact extended_leaf hv h
  | fill bit =>
    simp only [settles, Bool.and_eq_true, Bool.or_eq_true, decide_eq_true_eq, beq_iff_eq,
      bne_iff_ne] at h
    simp only [evalAtWidthWithSign, evalExpr]
    have hres : (PackedVec.filled bit 1).resize n ext = PackedVec.filled bit n := by
      refine filled_resize ?_
      rcases h.2 with (h1 | hz) | hs
      · exact .inl h1.le
      · exact .inr (.inl hz)
      · exact .inr (.inr hs)
    rw [← hres]
    exact .vector (by rw [PackedVec.width_filled]; exact h.1)
  | unary op operand ih =>
    cases op with
    | plus =>
      simp only [settles] at h
      simp only [evalAtWidthWithSign, evalExpr]
      exact (ih h).unary _ (fun _ => rfl) fun v _ _ => ⟨rfl, le_rfl⟩
    | bitNot =>
      simp only [settles, Bool.and_eq_true, Bool.or_eq_true, beq_iff_eq] at h
      simp only [evalAtWidthWithSign, evalExpr]
      refine (ih h.1).unary _ (fun _ => rfl) fun v hv' hle =>
        ⟨bitnot_resize ?_, (width_bitnot v).le⟩
      rcases h.2 with hm | ⟨hs, hpos⟩
      · exact .inl (hexact hm hv').ge
      · exact .inr ⟨hs, hpositive hpos hv'⟩
    | neg =>
      simp only [settles, Bool.and_eq_true, beq_iff_eq] at h
      simp only [evalAtWidthWithSign, evalExpr]
      refine (ih h.1).unary _ (fun _ => rfl) fun v hv' hle => ?_
      have hwidth := hexact h.2 hv'
      refine ⟨?_, (width_neg v).le⟩
      have hneg : (v.resize n false).neg = v.neg.resize n false := neg_resize (.inl (by omega))
      exact hneg.trans (resize_narrow (by rw [width_neg]; omega) false ext)
    | logNot | reduceAnd | reduceOr | reduceXor =>
      simp only [settles] at h
      simp only [evalAtWidthWithSign]
      exact extended_leaf hv h
  | binary op lhs rhs ihl ihr =>
    cases op with
    | add | sub | mul =>
      simp only [settles, Bool.and_eq_true, Bool.or_eq_true, beq_iff_eq] at h
      simp only [evalAtWidthWithSign, evalExpr]
      refine (ihl h.1.1).binary (ihr h.1.2) fun v w hv' hw' hvn hwn => ?_
      have hmax : n = max v.width w.width := by
        rcases h.2 with hm | hm
        · have := hexact hm hv'
          omega
        · have := hexact hm hw'
          omega
      refine ⟨(exec_arithmetic rfl (.inl hmax) fun _ => .inl hmax).trans
        (resized_any (fun u hu => ?_) false ext), fun u hu => (width_exec hu).trans_le hmax.ge⟩
      exact hmax.le.trans (width_exec hu).ge
    | and | or | xor =>
      simp only [settles, Bool.and_eq_true, Bool.or_eq_true, Bool.not_eq_true', beq_iff_eq] at h
      simp only [evalAtWidthWithSign, evalExpr]
      refine (ihl h.1.1).binary (ihr h.1.2) fun v w hv' hw' hvn hwn => ?_
      refine ⟨exec_bitwise rfl (h.2.imp_right ?_), fun u hu =>
        (width_exec hu).trans_le (Nat.max_le.mpr ⟨hvn, hwn⟩)⟩
      rintro ⟨hsome, heq⟩
      obtain ⟨m, hm⟩ := Option.isSome_iff_exists.mp hsome
      rw [hexact hm hv', hexact (heq.symm.trans hm) hw']
    | shl =>
      simp only [settles, Bool.and_eq_true, beq_iff_eq] at h
      simp only [evalAtWidthWithSign, evalExpr]
      refine (ihl h.1).shift (hvec rhs) fun v w hv' hw' hvn => ?_
      have hm := hexact h.2 hv'
      refine ⟨?_, fun u hu => (width_exec hu).trans_le hvn⟩
      rw [resize_narrow (by omega) false ext]
      exact congrArg some (shl_resize (by omega) _)
    | shr =>
      simp only [settles, Bool.and_eq_true] at h
      simp only [evalAtWidthWithSign, evalExpr]
      exact (ihl h.1).shift (hvec rhs) fun v w hv' hw' hvn =>
        ⟨exec_shr (.inl rfl) hvn (hshr h.2 hv' hw'), fun u hu => (width_exec hu).trans_le hvn⟩
    | sar =>
      simp only [settles, Bool.and_eq_true, beq_iff_eq] at h
      simp only [evalAtWidthWithSign, evalExpr]
      obtain ⟨⟨hsign, hl⟩, hshift⟩ := h
      rw [hsign]
      refine (ihl hl).shift (hvec rhs) fun v w hv' hw' hvn =>
        ⟨?_, fun u hu => (width_exec hu).trans_le hvn⟩
      cases s with
      | false => exact exec_shr (.inr ⟨rfl, rfl⟩) hvn (hshr hshift hv' hw')
      | true =>
        refine exec_ashr hvn ?_
        simp only [if_true, ashrSettles, Bool.or_eq_true, Bool.and_eq_true, beq_iff_eq] at hshift
        refine hshift.imp (fun hm => hexact hm hv') ?_
        rintro ⟨⟨hext, hpos⟩, hfit⟩
        exact ⟨hext, hpositive hpos hv', hfits hfit hw'⟩
    | eq | neq =>
      simp only [settles, Bool.and_eq_true, Bool.or_eq_true, Bool.not_eq_true', beq_iff_eq,
        decide_eq_true_eq] at h
      simp only [evalAtWidthWithSign, evalExpr]
      obtain ⟨⟨⟨hl, hr⟩, hn⟩, hext⟩ := h
      exact (ihl hl).compare (ihr hr) hn hext (fun _ _ => rfl) fun v w hvn hwn =>
        exec_equality (by simp) hvn hwn
    | lt | gt | le | ge =>
      simp only [settles, Bool.and_eq_true, Bool.or_eq_true, Bool.not_eq_true', beq_iff_eq,
        decide_eq_true_eq] at h
      simp only [evalAtWidthWithSign, evalExpr]
      obtain ⟨⟨⟨hl, hr⟩, hn⟩, hext⟩ := h
      exact (ihl hl).compare (ihr hr) hn hext (fun _ _ => rfl) fun v w hvn hwn =>
        exec_order rfl hvn hwn
    | logAnd | logOr =>
      simp only [settles] at h
      simp only [evalAtWidthWithSign]
      exact extended_leaf hv h
  | conditional c t f _ iht ihf =>
    simp only [settles, Bool.and_eq_true, Bool.or_eq_true, Bool.not_eq_true', beq_iff_eq] at h
    simp only [evalAtWidthWithSign, evalExpr]
    obtain ⟨⟨ht, hf⟩, hwidth⟩ := h
    refine (iht ht).branches (ihf hf) (hvec c) fun v w hv' hw' => hwidth.imp_right ?_
    rintro ⟨hsome, heq⟩
    obtain ⟨m, hm⟩ := Option.isSome_iff_exists.mp hsome
    rw [hexact hm hv', hexact (heq.symm.trans hm) hw']

end Extended

/-! ### The two compilers -/

/-- Wherever the code that `m` adds is placed, it computes the value, or panics without one. -/
def CodeComputes (cg : CodeGen) (W : World) (σ : Store) (m : Emit Reg)
    (value : Option Value) : Prop :=
  ∀ {pb a pb' F P}, m pb = some (a, pb') → Within cg pb.nRegs → Extends pb' F → Built F P →
    ∀ {regs}, Agrees cg σ regs → pb'.nRegs ≤ regs.length →
      Delivers P W ⟨pb.code.length, regs⟩ pb'.code.length pb.nRegs (Place.holds a) value

theorem code_expr {cg : CodeGen} {W : World} {σ : Store} (e : Expr) :
    CodeComputes cg W σ (cg.genExpr e) (evalExpr cg W σ e) :=
  fun hm hw hx hb _ ha hlen => (generates_expr e _).delivers hm hw hx hb ha trivial hlen

theorem code_atWidth {cg : CodeGen} {W : World} {σ : Store} (e : Expr) (n : Nat) :
    CodeComputes cg W σ (cg.genExprAtWidth e n) (evalAtWidth cg W σ e n) :=
  fun hm hw hx hb _ ha hlen => (generates_atWidth e n _).delivers hm hw hx hb ha trivial hlen

/-- An expression that is settled at its own width: both compilers emit code for the same value, a
vector of this width. -/
theorem compilers_agree {cg : CodeGen} {W : World} {σ : Store} (hv : Valuation cg W σ) {e : Expr}
    {n : Nat} (hn : exactWidth cg e = some n)
    (h : settles cg e n (cg.integralExprSigned e) false = true) :
    ∃ value : Option PackedVec, (∀ v ∈ value, v.width = n) ∧
      CodeComputes cg W σ (cg.genExpr e) (value.map .logic) ∧
      CodeComputes cg W σ (cg.genExprAtWidth e n) (value.map .logic) := by
  have hown : CodeComputes cg W σ (cg.genExpr e) _ := code_expr e
  have hthere : CodeComputes cg W σ (cg.genExprAtWidth e n) _ := code_atWidth e n
  unfold evalAtWidth at hthere
  rw [(settles_eval hv h).eq] at hthere
  cases he : evalExpr cg W σ e with
  | none =>
    rw [he] at hown hthere
    exact ⟨none, fun v hv => (by cases hv), hown, hthere⟩
  | some u =>
    obtain ⟨v, rfl, hwidth⟩ := measured hv e u he
    rw [he] at hown hthere
    have hid : resizedTo n false (.logic v) = some (.logic v) :=
      congrArg (fun v => some (Value.logic v)) (resize_of_width_eq (hwidth n hn) false)
    have hthere' : CodeComputes cg W σ (cg.genExprAtWidth e n) (some (.logic v)) := by
      rw [← hid]
      exact hthere
    exact ⟨some v, fun w hw => (by cases hw; exact hwidth n hn), hown, hthere'⟩

/-- A net of four bits. -/
def nibbleScope : CodeGen where
  locals _ := none
  localSigned _ := none
  vars _ := none
  varWidths _ := none
  varSigned _ := none
  consts _ := none
  memories _ := none
  nets name := if name = "a" then some (0, 4) else none
  netSigned _ := none
  returnType := none

theorem valuation_nibble {v : PackedVec} (h : v.width = 4) :
    Valuation nibbleScope ⟨fun _ => v, fun _ => .null⟩ fun _ => .null where
  vector {name value} hr := by
    by_cases hname : name = "a"
    · subst hname
      cases hr
      exact ⟨v, rfl⟩
    · simp [evalRef, nibbleScope, hname] at hr
  width {name w n} hr hn := by
    by_cases hname : name = "a"
    · subst hname
      cases hr
      cases hn
      exact h
    · simp [evalRef, nibbleScope, hname] at hr
  memory hm := by cases hm

/-- `a + 8'd0`. -/
def byteSum : Expr := .binary .add (.ref "a") (.literal (.zero 8))

theorem compilers_agree_sum : ∃ value : Option PackedVec, (∀ v ∈ value, v.width = 8) ∧
    CodeComputes nibbleScope ⟨fun _ => .x 4, fun _ => .null⟩ (fun _ => .null)
      (nibbleScope.genExpr byteSum) (value.map .logic) ∧
    CodeComputes nibbleScope ⟨fun _ => .x 4, fun _ => .null⟩ (fun _ => .null)
      (nibbleScope.genExprAtWidth byteSum 8) (value.map .logic) :=
  compilers_agree (valuation_nibble (PackedVec.width_x 4)) (by decide) (by decide)

end Eevee.Elab.Widening
