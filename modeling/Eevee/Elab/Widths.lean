/- Instructions on resized operands, and the widths that the values of expressions have. -/

import Mathlib.Tactic.Common
import Eevee.Core.ResizedOperands
import Eevee.Elab.ExprCode

set_option autoImplicit false
set_option relaxedAutoImplicit false

namespace Eevee.Elab.Widths

open Eevee.Ast.Syntax
open Eevee.Core.Logic (PackedVec)
open Eevee.Core.Logic.PackedVec
open Eevee.Core.ResizedOperands
open Eevee.Ir.Inst
open Eevee.Ir.Values
open Eevee.Elab.Evaluation
open Eevee.Elab.Generator

/-! ### Instructions on resized operands -/

section Instructions

variable {v w : PackedVec} {n : Nat} {s r : Bool}

/-- Resize the result. -/
def resized (n : Nat) (r : Bool) (value : Option PackedVec) : Option PackedVec :=
  value.map (·.resize n r)

theorem evalBinary_logic (s : Bool) (op : BinOp) (v w : PackedVec) :
    evalBinary s op (.logic v) (.logic w) =
      ((CodeGen.binaryInst s op).exec v w).map .logic := by
  cases op <;> cases s <;> rfl

/-- And, or, xor. -/
def isBitwise : BinOp → Bool
  | .and | .or | .xor => true
  | .add | .sub | .mul | .eq | .neq | .lt | .gt | .le | .ge | .shl | .shr | .sar
  | .logAnd | .logOr => false

/-- Sums, differences and products. -/
def isArithmetic : BinOp → Bool
  | .add | .sub | .mul => true
  | .and | .or | .xor | .eq | .neq | .lt | .gt | .le | .ge | .shl | .shr | .sar
  | .logAnd | .logOr => false

/-- The comparisons that know of signs. -/
def isOrder : BinOp → Bool
  | .lt | .gt | .le | .ge => true
  | .add | .sub | .mul | .and | .or | .xor | .eq | .neq | .shl | .shr | .sar
  | .logAnd | .logOr => false

theorem exec_bitwise {op : BinOp} (hop : isBitwise op = true) (h : r = false ∨ v.width = w.width) :
    (CodeGen.binaryInst s op).exec (v.resize n r) (w.resize n r) =
      resized n r ((CodeGen.binaryInst s op).exec v w) := by
  cases op with
  | and => exact congrArg some (zips_bitand.resize h)
  | or => exact congrArg some (zips_bitor.resize h)
  | xor => exact congrArg some (zips_bitxor.resize h)
  | _ => cases hop

theorem exec_arithmetic {op : BinOp} (hop : isArithmetic op = true) (h : Arithmetic n v w)
    (h64 : op = .mul → n = max v.width w.width ∨ max v.width w.width ≤ 64) :
    (CodeGen.binaryInst s op).exec (v.resize n false) (w.resize n false) =
      resized n false ((CodeGen.binaryInst s op).exec v w) := by
  cases op with
  | add => exact congrArg some (add_resize h)
  | sub => exact congrArg some (sub_resize h)
  | mul => exact mul_resize h (h64 rfl)
  | _ => cases hop

theorem exec_order {op : BinOp} (hop : isOrder op = true) (hv : v.width ≤ n) (hw : w.width ≤ n) :
    (CodeGen.binaryInst s op).exec (v.resize n s) (w.resize n s) =
      (CodeGen.binaryInst s op).exec v w := by
  cases op with
  | lt =>
    have h := (compares_lt s).resize hv hw
    cases s <;> exact congrArg some h
  | gt =>
    have h := (compares_gt s).resize hv hw
    cases s <;> exact congrArg some h
  | le =>
    have h := (compares_le s).resize hv hw
    cases s <;> exact congrArg some h
  | ge =>
    have h := (compares_ge s).resize hv hw
    cases s <;> exact congrArg some h
  | _ => cases hop

theorem exec_shr {op : BinOp} {ext : Bool} (hop : op = .shr ∨ op = .sar ∧ s = false)
    (hv : v.width ≤ n)
    (h : v.width = n ∨ ext = false ∧ (n ≤ 64 ∨ n + w.toU32 ≤ 0x100000000)) :
    (CodeGen.binaryInst s op).exec (v.resize n false) w =
      resized n ext ((CodeGen.binaryInst s op).exec v w) := by
  have hshr : (v.resize n false).shr w.toU32 = (v.shr w.toU32).resize n ext := by
    rcases h with rfl | ⟨rfl, hb⟩
    · rw [PackedVec.resize_self]
      exact (resize_of_width_eq (width_shr v _) ext).symm
    · exact shr_resize hv hb
  rcases hop with rfl | ⟨rfl, rfl⟩ <;> exact congrArg some hshr

theorem exec_ashr {ext : Bool} (hv : v.width ≤ n)
    (h : v.width = n ∨ ext = true ∧ 0 < v.width ∧ n + w.toU32 ≤ 0x100000000) :
    (CodeGen.binaryInst true .sar).exec (v.resize n true) w =
      resized n ext ((CodeGen.binaryInst true .sar).exec v w) := by
  rcases h with rfl | ⟨rfl, hpos, hb⟩
  · rw [PackedVec.resize_self]
    exact congrArg some (resize_of_width_eq (width_ashr v _) ext).symm
  · exact congrArg some (ashr_resize hv hpos hb)

/-- Equality extends by zeros whatever the signedness. -/
theorem exec_equality {op : BinOp} (hop : op = .eq ∨ op = .neq) (hv : v.width ≤ n)
    (hw : w.width ≤ n) :
    (CodeGen.binaryInst s op).exec (v.resize n false) (w.resize n false) =
      (CodeGen.binaryInst s op).exec v w := by
  have h := compares_eqLogical.resize hv hw
  rcases hop with rfl | rfl
  · exact congrArg some h
  · exact congrArg (fun u => some (PackedVec.lognot u)) h

end Instructions

/-! ### Widths by themselves -/

section Widths

variable (cg : CodeGen)

/-- The bounds of a part select as the interpreter reads them. -/
def selectedWidth (left right : Expr) : Option Nat := do
  let left ← CodeGen.literalValue left
  let right ← CodeGen.literalValue right
  if left.toU64 < 0x100000000 ∧ right.toU64 < 0x100000000 then
    return max left.toU64 right.toU64 - min left.toU64 right.toU64 + 1
  else none

mutual

/-- The width that the value of an expression by itself always has. -/
def exactWidth : Expr → Option Nat
  | .literal value | .signedLiteral value => some value.width
  | .fill _ => some 1
  | .ref name => cg.refWidth name
  | .unary op operand =>
    match op with
    | .logNot | .reduceAnd | .reduceOr | .reduceXor => some 1
    | .bitNot | .neg | .plus => exactWidth operand
  | .binary op lhs rhs =>
    match op with
    | .eq | .neq | .lt | .gt | .le | .ge | .logAnd | .logOr => some 1
    | .shl | .shr | .sar => exactWidth lhs
    | .add | .sub | .mul | .and | .or | .xor => do
      let left ← exactWidth lhs
      let right ← exactWidth rhs
      return max left right
  | .conditional _ whenTrue whenFalse =>
    if exactWidth whenTrue = exactWidth whenFalse then exactWidth whenTrue else none
  | .index base _ => some (((cg.memoryOf base).map MemoryDef.elementWidth).getD 1)
  | .partSelect _ left right => selectedWidth left right
  | .concat parts => if parts.isEmpty then some 1 else exactTotal parts

def exactTotal : List Expr → Option Nat
  | [] => some 0
  | part :: parts => do
    let width ← exactWidth part
    let total ← exactTotal parts
    return width + total

end

/-- A bound on what a shift amount can be. -/
def amountBound (amount : Expr) : Nat :=
  match CodeGen.literalValue amount with
  | some value => value.toU32
  | none =>
    match exactWidth cg amount with
    | some width => min (2 ^ width) 0x100000000
    | none => 0x100000000

/-- The index sums of a shift at this width do not wrap. -/
def sumsFit (width : Nat) (amount : Expr) : Bool :=
  decide (width + amountBound cg amount ≤ 0x100000000)

end Widths

/-- What a name or a memory holds are vectors of the declared widths. -/
structure Valuation (cg : CodeGen) (W : World) (σ : Store) : Prop where
  vector : ∀ {name value}, evalRef cg W σ name = some value → ∃ v, value = .logic v
  width : ∀ {name v n}, evalRef cg W σ name = some (.logic v) → cg.refWidth name = some n →
    v.width = n
  memory : ∀ {name memory}, cg.memories name = some memory → ∀ index,
    (memoryRead W memory index).width = memory.elementWidth

section Values

variable {cg : CodeGen} {W : World} {σ : Store}

theorem width_exec {op : BinOp} {s : Bool} {v w u : PackedVec}
    (h : (CodeGen.binaryInst s op).exec v w = some u) :
    u.width = CodeGen.binaryWidth v.width w.width op := by
  cases op with
  | mul => exact width_mul h
  | lt | gt | le | ge | sar =>
    cases s
    · cases h
      simp [CodeGen.binaryWidth]
    · cases h
      simp [CodeGen.binaryWidth]
  | _ =>
    cases h
    simp [CodeGen.binaryWidth]

theorem width_unary (op : UnaryOp) (v : PackedVec) :
    ∃ u, evalUnary (.logic v) op = some (.logic u) ∧ (u.width = match op with
      | .logNot | .reduceAnd | .reduceOr | .reduceXor => 1
      | .bitNot | .neg | .plus => v.width) := by
  cases op with
  | bitNot => exact ⟨_, rfl, width_bitnot v⟩
  | neg => exact ⟨_, rfl, width_neg v⟩
  | plus => exact ⟨v, rfl, rfl⟩
  | logNot => exact ⟨_, rfl, width_lognot v⟩
  | reduceAnd | reduceOr | reduceXor => exact ⟨_, rfl, PackedVec.width_fromBit _⟩

/-- A vector of the exact width, if there is one. -/
def Measured (width : Option Nat) (value : Option Value) : Prop :=
  ∀ u, value = some u → ∃ v, u = .logic v ∧ ∀ n, width = some n → v.width = n

theorem measured_binary {s : Bool} {op : BinOp} {lhs rhs : Expr}
    (hl : Measured (exactWidth cg lhs) (evalExpr cg W σ lhs))
    (hr : Measured (exactWidth cg rhs) (evalExpr cg W σ rhs)) :
    Measured (exactWidth cg (.binary op lhs rhs)) (do
      let a ← evalExpr cg W σ lhs
      let b ← evalExpr cg W σ rhs
      evalBinary s op a b) := by
  intro u hu
  obtain ⟨a, ha, hu⟩ := Option.bind_eq_some_iff.mp hu
  obtain ⟨b, hb, hu⟩ := Option.bind_eq_some_iff.mp hu
  obtain ⟨v, rfl, hv⟩ := hl a ha
  obtain ⟨w, rfl, hw⟩ := hr b hb
  rw [evalBinary_logic] at hu
  obtain ⟨x, hx, rfl⟩ := Option.map_eq_some_iff.mp hu
  refine ⟨x, rfl, fun n hn => ?_⟩
  rw [width_exec hx]
  cases op with
  | eq | neq | lt | gt | le | ge | logAnd | logOr =>
    simp only [exactWidth] at hn
    exact Option.some.inj hn
  | shl | shr | sar =>
    simp only [exactWidth] at hn
    exact hv n hn
  | add | sub | mul | and | or | xor =>
    simp only [exactWidth] at hn
    obtain ⟨left, hleft, hn⟩ := Option.bind_eq_some_iff.mp hn
    obtain ⟨right, hright, hn⟩ := Option.bind_eq_some_iff.mp hn
    cases hn
    rw [hv _ hleft, hw _ hright]
    rfl

theorem measured_conditional {c t f : Expr}
    (ht : Measured (exactWidth cg t) (evalExpr cg W σ t))
    (hf : Measured (exactWidth cg f) (evalExpr cg W σ f)) :
    Measured (exactWidth cg (.conditional c t f))
      (evalConditional (evalExpr cg W σ c) (evalExpr cg W σ t) (evalExpr cg W σ f)) := by
  have hwidth : ∀ n, exactWidth cg (.conditional c t f) = some n →
      exactWidth cg t = some n ∧ exactWidth cg f = some n := by
    intro n hn
    simp only [exactWidth] at hn
    split_ifs at hn with heq
    exact ⟨hn, heq.symm.trans hn⟩
  intro u hu
  obtain ⟨cond, -, hu⟩ := Option.bind_eq_some_iff.mp hu
  split_ifs at hu
  · obtain ⟨v, rfl, hv⟩ := ht u hu
    exact ⟨v, rfl, fun n hn => hv n (hwidth n hn).1⟩
  · obtain ⟨v, rfl, hv⟩ := hf u hu
    exact ⟨v, rfl, fun n hn => hv n (hwidth n hn).2⟩
  · obtain ⟨a, ha, hu⟩ := Option.bind_eq_some_iff.mp hu
    obtain ⟨b, hb, hu⟩ := Option.bind_eq_some_iff.mp hu
    obtain ⟨v, rfl, hv⟩ := ht a ha
    obtain ⟨w, rfl, hw⟩ := hf b hb
    cases hu
    refine ⟨_, rfl, fun n hn => ?_⟩
    rw [PackedVec.width_conditional, hv n (hwidth n hn).1, hw n (hwidth n hn).2, Nat.max_self]

theorem width_selectLogic (v : PackedVec) (left right : Nat) :
    (selectLogic v left right).width = max left right - min left right + 1 := by
  unfold selectLogic
  split_ifs with h
  · rw [width_slice, Nat.max_eq_left h, Nat.min_eq_right h]
  · have hle : left ≤ right := by omega
    rw [PackedVec.width_writeBits, PackedVec.width_zero, Nat.max_eq_right hle,
      Nat.min_eq_left hle]

theorem literalValue_eval {e : Expr} {v : PackedVec} (h : CodeGen.literalValue e = some v) :
    evalExpr cg W σ e = some (.logic v) := by
  cases e with
  | literal value | signedLiteral value =>
    cases h
    simp only [evalExpr]
  | _ => cases h

theorem width_foldl_concat (vs : List PackedVec) (v : PackedVec) :
    (vs.foldl PackedVec.concat v).width = v.width + (vs.map PackedVec.width).sum := by
  induction vs generalizing v with
  | nil => rfl
  | cons w vs ih =>
    rw [List.foldl_cons, ih, PackedVec.width_concat, List.map_cons, List.sum_cons, Nat.add_assoc]

/-- The parts of a concatenation are vectors, with the total width if it is known. -/
theorem measured_parts {parts : List Expr}
    (h : ∀ e ∈ parts, Measured (exactWidth cg e) (evalExpr cg W σ e)) {values : List Value}
    (hvalues : evalExprs cg W σ parts = some values) :
    ∃ vs : List PackedVec, values = vs.map .logic ∧ vs.length = parts.length ∧
      ∀ n, exactTotal cg parts = some n → (vs.map PackedVec.width).sum = n := by
  induction parts generalizing values with
  | nil =>
    cases hvalues
    exact ⟨[], rfl, rfl, fun n hn => Option.some.inj hn⟩
  | cons e parts ih =>
    simp only [evalExprs] at hvalues
    obtain ⟨a, ha, hvalues⟩ := Option.bind_eq_some_iff.mp hvalues
    obtain ⟨rest, hrest, hvalues⟩ := Option.bind_eq_some_iff.mp hvalues
    cases hvalues
    obtain ⟨v, rfl, hv⟩ := h e List.mem_cons_self a ha
    obtain ⟨vs, rfl, hlen, hvs⟩ := ih (fun e he => h e (List.mem_cons_of_mem _ he)) hrest
    refine ⟨v :: vs, rfl, congrArg (· + 1) hlen, fun n hn => ?_⟩
    simp only [exactTotal] at hn
    obtain ⟨width, hwidth, hn⟩ := Option.bind_eq_some_iff.mp hn
    obtain ⟨total, htotal, hn⟩ := Option.bind_eq_some_iff.mp hn
    cases hn
    rw [List.map_cons, List.sum_cons, hv _ hwidth, hvs _ htotal]

theorem measured (hv : Valuation cg W σ) (e : Expr) :
    Measured (exactWidth cg e) (evalExpr cg W σ e) := by
  induction e with
  | literal value | signedLiteral value =>
    intro u hu
    simp only [evalExpr] at hu
    cases hu
    exact ⟨value, rfl, fun n hn => by simpa [exactWidth] using hn⟩
  | fill bit =>
    intro u hu
    simp only [evalExpr] at hu
    cases hu
    exact ⟨_, rfl, fun n hn => by
      simp only [exactWidth] at hn
      exact (PackedVec.width_filled bit 1).trans (Option.some.inj hn)⟩
  | ref name =>
    intro u hu
    simp only [evalExpr] at hu
    obtain ⟨v, rfl⟩ := hv.vector hu
    exact ⟨v, rfl, fun n hn => hv.width hu (by simpa only [exactWidth] using hn)⟩
  | unary op operand ih =>
    intro u hu
    simp only [evalExpr] at hu
    obtain ⟨a, ha, hu⟩ := Option.bind_eq_some_iff.mp hu
    obtain ⟨v, rfl, hwidth⟩ := ih a ha
    obtain ⟨x, hx, hxwidth⟩ := width_unary op v
    cases hx.symm.trans hu
    refine ⟨x, rfl, fun n hn => ?_⟩
    cases op with
    | logNot | reduceAnd | reduceOr | reduceXor =>
      simp only [exactWidth] at hn
      exact hxwidth.trans (Option.some.inj hn)
    | bitNot | neg | plus =>
      simp only [exactWidth] at hn
      exact hxwidth.trans (hwidth n hn)
  | binary op lhs rhs ihl ihr =>
    simp only [evalExpr]
    exact measured_binary ihl ihr
  | conditional c t f _ iht ihf =>
    simp only [evalExpr]
    exact measured_conditional iht ihf
  | index base index ihb ihi =>
    intro u hu
    simp only [evalExpr] at hu
    cases hm : cg.memoryOf base with
    | some memory =>
      rw [hm] at hu
      obtain ⟨a, -, hu⟩ := Option.bind_eq_some_iff.mp hu
      cases hu
      refine ⟨_, rfl, fun n hn => ?_⟩
      simp only [exactWidth, hm] at hn
      cases base with
      | ref name => exact (hv.memory hm a.asLogic).trans (Option.some.inj hn)
      | _ => cases hm
    | none =>
      rw [hm] at hu
      obtain ⟨a, ha, hu⟩ := Option.bind_eq_some_iff.mp hu
      obtain ⟨b, -, hu⟩ := Option.bind_eq_some_iff.mp hu
      obtain ⟨v, rfl, -⟩ := ihb a ha
      cases hu
      refine ⟨_, rfl, fun n hn => ?_⟩
      simp only [exactWidth, hm] at hn
      have hone : (indexLogic v b.asLogic).width = 1 := by
        unfold indexLogic
        split_ifs
        · exact PackedVec.width_fromBit _
        · exact PackedVec.width_x 1
      exact hone.trans (Option.some.inj hn)
  | partSelect base left right ihb _ _ =>
    intro u hu
    simp only [evalExpr] at hu
    obtain ⟨a, ha, hu⟩ := Option.bind_eq_some_iff.mp hu
    obtain ⟨l, hl, hu⟩ := Option.bind_eq_some_iff.mp hu
    obtain ⟨r, hr, hu⟩ := Option.bind_eq_some_iff.mp hu
    cases hu
    refine ⟨_, rfl, fun n hn => ?_⟩
    simp only [exactWidth, selectedWidth] at hn
    obtain ⟨lv, hlv, hn⟩ := Option.bind_eq_some_iff.mp hn
    obtain ⟨rv, hrv, hn⟩ := Option.bind_eq_some_iff.mp hn
    split_ifs at hn with hbound
    cases hn
    cases (literalValue_eval hlv).symm.trans hl
    cases (literalValue_eval hrv).symm.trans hr
    have hlu : lv.toU32 = lv.toU64 := Nat.mod_eq_of_lt hbound.1
    have hru : rv.toU32 = rv.toU64 := Nat.mod_eq_of_lt hbound.2
    rw [asLogic_logic, asLogic_logic, width_selectLogic, hlu, hru]
  | concat parts ih =>
    intro u hu
    simp only [evalExpr] at hu
    obtain ⟨values, hvalues, hu⟩ := Option.bind_eq_some_iff.mp hu
    obtain ⟨vs, rfl, hlen, htotal⟩ := measured_parts ih hvalues
    rw [execValue_concat] at hu
    cases hu
    refine ⟨_, rfl, fun n hn => ?_⟩
    simp only [exactWidth] at hn
    cases vs with
    | nil =>
      cases parts with
      | nil => exact Option.some.inj hn
      | cons => cases hlen
    | cons v vs =>
      cases parts with
      | nil => cases hlen
      | cons e parts => exact (width_foldl_concat vs v).trans (htotal n hn)

end Values

end Eevee.Elab.Widths
