/- Expressions in a narrower context: when the low bits are all that is needed. -/

import Mathlib.Tactic.Common
import Eevee.Elab.Widening

set_option autoImplicit false
set_option relaxedAutoImplicit false

namespace Eevee.Elab.Narrowing

open Eevee.Ast.Syntax
open Eevee.Core.Logic (Bit PackedVec)
open Eevee.Core.Logic.PackedVec
open Eevee.Core.ResizedOperands
open Eevee.Core.Resizing
open Eevee.Ir.Inst
open Eevee.Ir.Values
open Eevee.Elab.Evaluation
open Eevee.Elab.ExprCode
open Eevee.Elab.Generator
open Eevee.Elab.Widening
open Eevee.Elab.Widths

section

variable (cg : CodeGen) (W : World) (σ : Store)

/-- The value of an expression in a context has no unknown bit. -/
def KnownThere (e : Expr) (width : Nat) (signed : Bool) : Prop :=
  ∀ v, evalAtWidthWithSign cg W σ e width signed = some (.logic v) → v.isKnown = true

/-- The declared width, if there is one, is the width of the value. -/
def Declared (e : Expr) : Prop :=
  ∀ n, cg.integralExprWidth e = some n → exactWidth cg e = some n

/-- Sums, products and shifts to the right look above the low `n` of `m` bits: the operands of the
former are known, the latter are not narrowed. -/
def Narrows (n m : Nat) (signed : Bool) : Expr → Prop
  | .fill _ => True
  | .conditional _ whenTrue whenFalse =>
    Narrows n m signed whenTrue ∧ Narrows n m signed whenFalse
  | .unary op operand =>
    match op with
    | .bitNot | .plus => Narrows n m signed operand
    | .neg => Narrows n m signed operand ∧ (n = m ∨ KnownThere cg W σ operand m signed)
    | .logNot | .reduceAnd | .reduceOr | .reduceXor => Declared cg (.unary op operand)
  | .binary op lhs rhs =>
    match op with
    | .add | .sub => Narrows n m signed lhs ∧ Narrows n m signed rhs ∧
      (n = m ∨ KnownThere cg W σ lhs m signed ∧ KnownThere cg W σ rhs m signed)
    | .mul => Narrows n m signed lhs ∧ Narrows n m signed rhs ∧
      (n = m ∨ m ≤ 64 ∧ KnownThere cg W σ lhs m signed ∧ KnownThere cg W σ rhs m signed)
    | .and | .or | .xor => Narrows n m signed lhs ∧ Narrows n m signed rhs
    | .shl => Narrows n m signed lhs
    | .shr | .sar => Narrows n m signed lhs ∧ n = m
    | .eq | .neq | .lt | .gt | .le | .ge => True
    | .logAnd | .logOr => Declared cg (.binary op lhs rhs)
  | .literal value => Declared cg (.literal value)
  | .signedLiteral value => Declared cg (.signedLiteral value)
  | .ref name => Declared cg (.ref name)
  | .index base index => Declared cg (.index base index)
  | .partSelect base left right => Declared cg (.partSelect base left right)
  | .concat parts => Declared cg (.concat parts)

end

/-- The value in a context of `m` bits, and its low `n` bits. -/
inductive Truncated (n m : Nat) : Option Value → Option Value → Prop
  | fails : Truncated n m none none
  | vector {v : PackedVec} (h : v.width = m) :
    Truncated n m (some (.logic v)) (some (.logic (v.resize n false)))

section

variable {cg : CodeGen} {W : World} {σ : Store} {n m : Nat} {s : Bool}

theorem Truncated.eq {wide narrow : Option Value} (h : Truncated n m wide narrow) :
    narrow = wide.bind (resizedTo n false) := by
  cases h <;> rfl

/-- Resizing to `m` and then dropping bits is resizing to `n`. -/
theorem resize_through (hnm : n ≤ m) (v : PackedVec) (s : Bool) :
    (v.resize m s).resize n false = v.resize n s := by
  rcases Nat.le_total v.width m with hle | hge
  · rcases Nat.le_total v.width n with hn | hn
    · have hwidth : n ≤ (v.resize m s).width := by rwa [width_resize]
      rw [resize_narrow hwidth false s, resize_extend hle]
    · have hwidth : n ≤ (v.resize m s).width := by rwa [width_resize]
      rw [resize_narrow hwidth false s, resize_extend hle]
  · rw [resize_truncate hge hnm s false s]

theorem truncated_leaf (hv : Valuation cg W σ) (hnm : n ≤ m) {e : Expr} (h : Declared cg e) :
    Truncated n m (evalResized cg W σ e m s) (evalResized cg W σ e n s) := by
  have hm := measured hv e
  unfold evalResized
  cases he : evalExpr cg W σ e with
  | none => exact .fails
  | some u =>
    obtain ⟨v, rfl, hwidth⟩ := hm u he
    have hwide : (if cg.integralExprWidth e = some m then some (Value.logic v) else
        resizedTo m s (.logic v)) = some (.logic (v.resize m s)) := by
      split_ifs with hown
      · rw [resize_of_width_eq (hwidth m (h m hown))]
      · rfl
    have hnarrow : (if cg.integralExprWidth e = some n then some (Value.logic v) else
        resizedTo n s (.logic v)) = some (.logic (v.resize n s)) := by
      split_ifs with hown
      · rw [resize_of_width_eq (hwidth n (h n hown))]
      · rfl
    show Truncated n m (if _ then some (Value.logic v) else _)
      (if _ then some (Value.logic v) else _)
    rw [hwide, hnarrow, ← resize_through hnm]
    exact .vector (width_resize v m s)

theorem Truncated.unary (op : UnaryOp) {a a' : Option Value} {f : PackedVec → PackedVec}
    (ha : Truncated n m a a')
    (hf : ∀ v : PackedVec, evalUnary (.logic v) op = some (.logic (f v)))
    (h : ∀ v : PackedVec, a = some (.logic v) → v.width = m →
      f (v.resize n false) = (f v).resize n false ∧ (f v).width = v.width) :
    Truncated n m (do
        let a ← a
        evalUnary a op) (do
        let a ← a'
        evalUnary a op) := by
  cases ha with
  | fails => exact .fails
  | @vector v hv =>
    obtain ⟨heq, hle⟩ := h v rfl hv
    show Truncated n m (evalUnary (.logic v) op) (evalUnary (.logic (v.resize n false)) op)
    rw [hf, hf, heq]
    exact .vector (hle.trans hv)

theorem Truncated.binary {op : BinOp} {a a' b b' : Option Value} (ha : Truncated n m a a')
    (hb : Truncated n m b b') (hop : ∀ n, CodeGen.binaryWidth n n op = n)
    (h : ∀ v w : PackedVec, a = some (.logic v) → b = some (.logic w) → v.width = m → w.width = m →
      (CodeGen.binaryInst s op).exec (v.resize n false) (w.resize n false) =
        resized n false ((CodeGen.binaryInst s op).exec v w)) :
    Truncated n m (do
        let a ← a
        let b ← b
        evalBinary s op a b) (do
        let a ← a'
        let b ← b'
        evalBinary s op a b) := by
  cases ha with
  | fails => exact .fails
  | @vector v hv =>
    cases hb with
    | fails => exact .fails
    | @vector w hw =>
      show Truncated n m (evalBinary s op (.logic v) (.logic w))
        (evalBinary s op (.logic (v.resize n false)) (.logic (w.resize n false)))
      rw [evalBinary_logic, evalBinary_logic, h v w rfl rfl hv hw]
      cases hu : (CodeGen.binaryInst s op).exec v w with
      | none => exact .fails
      | some u => exact .vector ((width_exec hu).trans (by rw [hv, hw, hop]))

theorem Truncated.shift {op : BinOp} {a a' b : Option Value} (ha : Truncated n m a a')
    (hb : ∀ u, b = some u → ∃ w, u = .logic w) (hop : ∀ n k, CodeGen.binaryWidth n k op = n)
    (h : ∀ v w : PackedVec, v.width = m → (CodeGen.binaryInst s op).exec (v.resize n false) w =
      resized n false ((CodeGen.binaryInst s op).exec v w)) :
    Truncated n m (do
        let a ← a
        let b ← b
        evalBinary s op a b) (do
        let a ← a'
        let b ← b
        evalBinary s op a b) := by
  cases ha with
  | fails => exact .fails
  | @vector v hv =>
    cases hb' : b with
    | none => exact .fails
    | some u =>
      obtain ⟨w, rfl⟩ := hb u hb'
      show Truncated n m (evalBinary s op (.logic v) (.logic w))
        (evalBinary s op (.logic (v.resize n false)) (.logic w))
      rw [evalBinary_logic, evalBinary_logic, h v w hv]
      cases hu : (CodeGen.binaryInst s op).exec v w with
      | none => exact .fails
      | some u => exact .vector ((width_exec hu).trans ((hop _ _).trans hv))

/-- The context only appends zeros to the result of a comparison. -/
theorem truncated_compare (hnm : n ≤ m) {op : BinOp} {a b : Option Value}
    (ha : ∀ u, a = some u → ∃ v, u = .logic v) (hb : ∀ u, b = some u → ∃ v, u = .logic v)
    (hop : ∀ n k, CodeGen.binaryWidth n k op = 1) :
    Truncated n m (do
        let a ← a
        let b ← b
        let result ← evalBinary s op a b
        if m = 1 then return result else resizedTo m false result) (do
        let a ← a
        let b ← b
        let result ← evalBinary s op a b
        if n = 1 then return result else resizedTo n false result) := by
  cases ha' : a with
  | none => exact .fails
  | some x =>
    cases hb' : b with
    | none => exact .fails
    | some y =>
      obtain ⟨v, rfl⟩ := ha x ha'
      obtain ⟨w, rfl⟩ := hb y hb'
      show Truncated n m ((evalBinary s op (.logic v) (.logic w)).bind _)
        ((evalBinary s op (.logic v) (.logic w)).bind _)
      rw [evalBinary_logic]
      cases hu : (CodeGen.binaryInst s op).exec v w with
      | none => exact .fails
      | some u =>
        have huw : u.width = 1 := (width_exec hu).trans (hop _ _)
        have hany : ∀ k, (if k = 1 then some (Value.logic u) else resizedTo k false (.logic u)) =
            some (.logic (u.resize k false)) := fun k => by
          split_ifs with h1
          · rw [resize_of_width_eq (huw.trans h1.symm)]
          · rfl
        show Truncated n m (if m = 1 then some (Value.logic u) else _)
          (if n = 1 then some (Value.logic u) else _)
        rw [hany, hany, ← resize_through hnm]
        exact .vector (width_resize u m false)

theorem Truncated.branches {c t t' f f' : Option Value} (ht : Truncated n m t t')
    (hf : Truncated n m f f') (hc : ∀ u, c = some u → ∃ v, u = .logic v) :
    Truncated n m (evalConditional c t f) (evalConditional c t' f') := by
  cases hc' : c with
  | none => exact .fails
  | some u =>
    obtain ⟨v, rfl⟩ := hc u hc'
    show Truncated n m (if v.isTrue then t else if v.isKnown then f else _)
      (if v.isTrue then t' else if v.isKnown then f' else _)
    split_ifs with htrue hknown
    · exact ht
    · exact hf
    · cases ht with
      | fails => exact .fails
      | @vector a ha =>
        cases hf with
        | fails => exact .fails
        | @vector b hb =>
          show Truncated n m (some (.logic (conditional v a b)))
            (some (.logic (conditional v (a.resize n false) (b.resize n false))))
          rw [conditional_resize]
          exact .vector (by rw [PackedVec.width_conditional, ha, hb, Nat.max_self])

/-- A vector, if there is a value. -/
def IsVector (value : Option Value) : Prop := ∀ u, value = some u → ∃ v, u = .logic v

theorem isVector_expr (hv : Valuation cg W σ) (e : Expr) : IsVector (evalExpr cg W σ e) :=
  fun u hu =>
    let ⟨v, hv, _⟩ := measured hv e u hu
    ⟨v, hv⟩

theorem isVector_resized (hv : Valuation cg W σ) (e : Expr) (n : Nat) (s : Bool) :
    IsVector (evalResized cg W σ e n s) := by
  intro u hu
  obtain ⟨a, ha, hu⟩ := Option.bind_eq_some_iff.mp hu
  split_ifs at hu
  · cases hu
    exact isVector_expr hv e _ ha
  · cases hu
    exact ⟨_, rfl⟩

theorem isVector_binary {op : BinOp} {a b : Option Value} (ha : IsVector a) (hb : IsVector b) :
    IsVector (do
      let a ← a
      let b ← b
      evalBinary s op a b) := by
  intro u hu
  obtain ⟨x, hx, hu⟩ := Option.bind_eq_some_iff.mp hu
  obtain ⟨y, hy, hu⟩ := Option.bind_eq_some_iff.mp hu
  obtain ⟨v, rfl⟩ := ha x hx
  obtain ⟨w, rfl⟩ := hb y hy
  rw [evalBinary_logic] at hu
  obtain ⟨r, -, rfl⟩ := Option.map_eq_some_iff.mp hu
  exact ⟨r, rfl⟩

theorem isVector_conditional {c t f : Option Value} (ht : IsVector t) (hf : IsVector f) :
    IsVector (evalConditional c t f) := by
  intro u hu
  obtain ⟨cond, -, hu⟩ := Option.bind_eq_some_iff.mp hu
  split_ifs at hu
  · exact ht u hu
  · exact hf u hu
  · obtain ⟨a, ha, hu⟩ := Option.bind_eq_some_iff.mp hu
    obtain ⟨b, hb, hu⟩ := Option.bind_eq_some_iff.mp hu
    obtain ⟨v, rfl⟩ := ht a ha
    obtain ⟨w, rfl⟩ := hf b hb
    cases hu
    exact ⟨_, rfl⟩

theorem isVector_atWidth (hv : Valuation cg W σ) (e : Expr) (n : Nat) (s : Bool) :
    IsVector (evalAtWidthWithSign cg W σ e n s) := by
  induction e generalizing n s with
  | literal | signedLiteral | ref | index | partSelect | concat =>
    simp only [evalAtWidthWithSign]
    exact isVector_resized hv _ n s
  | fill bit =>
    intro u hu
    simp only [evalAtWidthWithSign] at hu
    cases hu
    exact ⟨_, rfl⟩
  | conditional c t f _ iht ihf =>
    simp only [evalAtWidthWithSign]
    exact isVector_conditional (iht n s) (ihf n s)
  | unary op operand ih =>
    cases op with
    | bitNot | neg | plus =>
      intro u hu
      simp only [evalAtWidthWithSign] at hu
      obtain ⟨a, ha, hu⟩ := Option.bind_eq_some_iff.mp hu
      obtain ⟨v, rfl⟩ := ih n s a ha
      cases hu
      exact ⟨_, rfl⟩
    | logNot | reduceAnd | reduceOr | reduceXor =>
      simp only [evalAtWidthWithSign]
      exact isVector_resized hv _ n s
  | binary op lhs rhs ihl ihr =>
    cases op with
    | add | sub | mul | and | or | xor =>
      simp only [evalAtWidthWithSign]
      exact isVector_binary (ihl n s) (ihr n s)
    | shl | shr | sar =>
      simp only [evalAtWidthWithSign]
      exact isVector_binary (ihl n s) (isVector_expr hv rhs)
    | eq | neq | lt | gt | le | ge =>
      intro u hu
      simp only [evalAtWidthWithSign] at hu
      obtain ⟨x, hx, hu⟩ := Option.bind_eq_some_iff.mp hu
      obtain ⟨y, hy, hu⟩ := Option.bind_eq_some_iff.mp hu
      obtain ⟨r, hr, hu⟩ := Option.bind_eq_some_iff.mp hu
      obtain ⟨v, rfl⟩ := ihl _ _ x hx
      obtain ⟨w, rfl⟩ := ihr _ _ y hy
      rw [evalBinary_logic] at hr
      obtain ⟨z, -, rfl⟩ := Option.map_eq_some_iff.mp hr
      split_ifs at hu
      · cases hu
        exact ⟨z, rfl⟩
      · cases hu
        exact ⟨_, rfl⟩
    | logAnd | logOr =>
      simp only [evalAtWidthWithSign]
      exact isVector_resized hv _ n s

theorem narrows_eval (hv : Valuation cg W σ) (hnm : n ≤ m) {e : Expr}
    (h : Narrows cg W σ n m s e) :
    Truncated n m (evalAtWidthWithSign cg W σ e m s) (evalAtWidthWithSign cg W σ e n s) := by
  induction e with
  | literal | signedLiteral | ref | index | partSelect | concat =>
    simp only [Narrows] at h
    simp only [evalAtWidthWithSign]
    exact truncated_leaf hv hnm h
  | fill bit =>
    simp only [evalAtWidthWithSign]
    have hres : (PackedVec.filled bit m).resize n false = PackedVec.filled bit n := by
      refine PackedVec.ext_bits (by simp) fun i hi => ?_
      rw [width_resize] at hi
      rw [getBit_resize_unsigned, if_pos hi, getBit_filled, getBit_filled, if_pos hi,
        if_pos (by omega)]
    rw [← hres]
    exact .vector (PackedVec.width_filled bit m)
  | conditional c t f _ iht ihf =>
    simp only [Narrows] at h
    simp only [evalAtWidthWithSign]
    exact (iht h.1).branches (ihf h.2) (isVector_expr hv c)
  | unary op operand ih =>
    cases op with
    | bitNot =>
      simp only [Narrows] at h
      simp only [evalAtWidthWithSign]
      exact (ih h).unary _ (fun _ => rfl) fun v _ hvm =>
        ⟨bitnot_resize (.inl (by omega)), width_bitnot v⟩
    | plus =>
      simp only [Narrows] at h
      simp only [evalAtWidthWithSign]
      exact (ih h).unary _ (fun _ => rfl) fun v _ _ => ⟨rfl, rfl⟩
    | neg =>
      simp only [Narrows] at h
      simp only [evalAtWidthWithSign]
      refine (ih h.1).unary _ (fun _ => rfl) fun v hv' hvm => ⟨neg_resize ?_, width_neg v⟩
      unfold Arithmetic
      rw [Nat.max_self, hvm]
      exact h.2.imp id fun hk => ⟨hnm, hk v hv', hk v hv'⟩
    | logNot | reduceAnd | reduceOr | reduceXor =>
      simp only [Narrows] at h
      simp only [evalAtWidthWithSign]
      exact truncated_leaf hv hnm h
  | binary op lhs rhs ihl ihr =>
    cases op with
    | add | sub =>
      simp only [Narrows] at h
      simp only [evalAtWidthWithSign]
      refine (ihl h.1).binary (ihr h.2.1) (fun n => Nat.max_self n) fun v w hv' hw' hvm hwm =>
        exec_arithmetic rfl ?_ fun hop => (by cases hop)
      unfold Arithmetic
      rw [hvm, hwm, Nat.max_self]
      exact h.2.2.imp id fun hk => ⟨hnm, hk.1 v hv', hk.2 w hw'⟩
    | mul =>
      simp only [Narrows] at h
      simp only [evalAtWidthWithSign]
      refine (ihl h.1).binary (ihr h.2.1) (fun n => Nat.max_self n) fun v w hv' hw' hvm hwm =>
        exec_arithmetic rfl ?_ fun _ => ?_
      · unfold Arithmetic
        rw [hvm, hwm, Nat.max_self]
        exact h.2.2.imp id fun hk => ⟨hnm, hk.2.1 v hv', hk.2.2 w hw'⟩
      · rw [hvm, hwm, Nat.max_self]
        exact h.2.2.imp id fun hk => hk.1
    | and | or | xor =>
      simp only [Narrows] at h
      simp only [evalAtWidthWithSign]
      exact (ihl h.1).binary (ihr h.2) (fun n => Nat.max_self n) fun v w _ _ _ _ =>
        exec_bitwise rfl (.inl rfl)
    | shl =>
      simp only [Narrows] at h
      simp only [evalAtWidthWithSign]
      exact (ihl h).shift (isVector_expr hv rhs) (fun _ _ => rfl) fun v w hvm =>
        congrArg some (shl_resize (by omega) _)
    | shr | sar =>
      simp only [Narrows] at h
      simp only [evalAtWidthWithSign]
      obtain ⟨hl, rfl⟩ := h
      refine (ihl hl).shift (isVector_expr hv rhs) (fun _ _ => rfl) fun v w hvm => ?_
      rw [resize_of_width_eq hvm]
      cases hu : (CodeGen.binaryInst s _).exec v w with
      | none => rfl
      | some u =>
        exact congrArg some (resize_of_width_eq ((width_exec hu).trans hvm) false).symm
    | eq | neq | lt | gt | le | ge =>
      simp only [evalAtWidthWithSign]
      exact truncated_compare hnm (isVector_atWidth hv lhs _ _) (isVector_atWidth hv rhs _ _)
        fun _ _ => rfl
    | logAnd | logOr =>
      simp only [Narrows] at h
      simp only [evalAtWidthWithSign]
      exact truncated_leaf hv hnm h

end

/-- The code for a narrower context computes the low bits of what the code for a wider one computes,
for every expression whose sums, products and shifts to the right do not look at what is cut off. -/
theorem assignment_truncates {cg : CodeGen} {W : World} {σ : Store} (hv : Valuation cg W σ)
    {e : Expr} {n m : Nat} (hnm : n ≤ m) (h : Narrows cg W σ n m (cg.integralExprSigned e) e) :
    ∃ value : Option PackedVec, (∀ v ∈ value, v.width = m) ∧
      CodeComputes cg W σ (cg.genExprAtWidth e m) (value.map .logic) ∧
      CodeComputes cg W σ (cg.genExprAtWidth e n) ((resized n false value).map .logic) := by
  have heval := narrows_eval hv hnm h
  have hwide : CodeComputes cg W σ (cg.genExprAtWidth e m) _ := code_atWidth e m
  have hnarrow : CodeComputes cg W σ (cg.genExprAtWidth e n) _ := code_atWidth e n
  unfold evalAtWidth at hwide hnarrow
  generalize evalAtWidthWithSign cg W σ e m (cg.integralExprSigned e) = wide at heval hwide
  generalize evalAtWidthWithSign cg W σ e n (cg.integralExprSigned e) = narrow at heval hnarrow
  cases heval with
  | fails => exact ⟨none, fun v hv => (by cases hv), hwide, hnarrow⟩
  | @vector v hvm => exact ⟨some v, fun w hw => (by cases hw; exact hvm), hwide, hnarrow⟩

/-- `~a | 8'd0` in a context of two bits. -/
theorem assignment_truncates_complement : ∃ value : Option PackedVec, (∀ v ∈ value, v.width = 8) ∧
    CodeComputes nibbleScope ⟨fun _ => .x 4, fun _ => .null⟩ (fun _ => .null)
      (nibbleScope.genExprAtWidth (.binary .or (.unary .bitNot (.ref "a")) (.literal (.zero 8))) 8)
      (value.map .logic) ∧
    CodeComputes nibbleScope ⟨fun _ => .x 4, fun _ => .null⟩ (fun _ => .null)
      (nibbleScope.genExprAtWidth (.binary .or (.unary .bitNot (.ref "a")) (.literal (.zero 8))) 2)
      ((resized 2 false value).map .logic) := by
  refine assignment_truncates (valuation_nibble (PackedVec.width_x 4)) (by decide) ?_
  simp only [Narrows]
  exact ⟨fun n hn => hn, fun n hn => hn⟩

end Eevee.Elab.Narrowing
