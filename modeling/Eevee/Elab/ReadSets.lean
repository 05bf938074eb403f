/- The nets that an expression reads, and that its value depends on no others. -/

import Mathlib.Tactic.Common
import Eevee.Elab.ExprCode

set_option autoImplicit false
set_option relaxedAutoImplicit false

namespace Eevee.Elab.ReadSets

open Eevee.Ast.Syntax
open Eevee.Ir.Values
open Eevee.Elab.Evaluation
open Eevee.Elab.Generator

/-- A net is listed once. -/
def addRead (reads : List Nat) (net : Nat) : List Nat :=
  if net ∈ reads then reads else reads ++ [net]

section Collect

variable (cg : CodeGen)

mutual

/-- The nets that are named in the expression, all elements of an indexed memory. -/
def collectNetReads (reads : List Nat) : Expr → List Nat
  | .ref name =>
    match cg.nets name with
    | some (net, _) => addRead reads net
    | none => reads
  | .unary _ operand => collectNetReads reads operand
  | .binary _ lhs rhs => collectNetReads (collectNetReads reads lhs) rhs
  | .conditional condition whenTrue whenFalse =>
    collectNetReads (collectNetReads (collectNetReads reads condition) whenTrue) whenFalse
  | .index base index =>
    match cg.memoryOf base with
    | some memory => collectNetReads (memory.elements.foldl addRead reads) index
    | none => collectNetReads (collectNetReads reads base) index
  | .partSelect base left right =>
    collectNetReads (collectNetReads (collectNetReads reads base) left) right
  | .concat parts => collectAll reads parts
  | .literal _ | .signedLiteral _ | .fill _ => reads

def collectAll (reads : List Nat) : List Expr → List Nat
  | [] => reads
  | e :: es => collectAll (collectNetReads reads e) es

end

mutual

/-- No name refers to a package variable. -/
def netsOnly : Expr → Bool
  | .ref name => (cg.vars name).isNone
  | .unary _ operand => netsOnly operand
  | .binary _ lhs rhs => netsOnly lhs && netsOnly rhs
  | .conditional condition whenTrue whenFalse =>
    netsOnly condition && netsOnly whenTrue && netsOnly whenFalse
  | .index base index => ((cg.memoryOf base).isSome || netsOnly base) && netsOnly index
  | .partSelect base left right => netsOnly base && netsOnly left && netsOnly right
  | .concat parts => netsOnlyAll parts
  | .literal _ | .signedLiteral _ | .fill _ => true

def netsOnlyAll : List Expr → Bool
  | [] => true
  | e :: es => netsOnly e && netsOnlyAll es

end

end Collect

/-! ### Growing lists -/

theorem mem_addRead {reads : List Nat} {net n : Nat} :
    n ∈ addRead reads net ↔ n ∈ reads ∨ n = net := by
  unfold addRead
  split_ifs with h
  · exact ⟨.inl, fun hn => hn.elim id fun heq => heq ▸ h⟩
  · rw [List.mem_append, List.mem_singleton]

theorem mem_foldl_addRead {nets reads : List Nat} {n : Nat} :
    n ∈ nets.foldl addRead reads ↔ n ∈ reads ∨ n ∈ nets := by
  induction nets generalizing reads with
  | nil => simp
  | cons net nets ih => rw [List.foldl_cons, ih, mem_addRead, List.mem_cons, or_assoc]

section

variable {cg : CodeGen}

mutual

theorem subset_collect : ∀ (e : Expr) {reads : List Nat}, reads ⊆ collectNetReads cg reads e
  | .ref name, reads => by
    rw [collectNetReads]
    split
    · exact fun n hn => mem_addRead.mpr (.inl hn)
    · exact List.Subset.refl _
  | .unary _ operand, reads => by
    rw [collectNetReads]
    exact subset_collect operand
  | .binary _ lhs rhs, reads => by
    rw [collectNetReads]
    exact List.Subset.trans (subset_collect lhs) (subset_collect rhs)
  | .conditional c t f, reads => by
    rw [collectNetReads]
    exact List.Subset.trans (subset_collect c)
      (List.Subset.trans (subset_collect t) (subset_collect f))
  | .index base index, reads => by
    rw [collectNetReads]
    split
    · next memory _ =>
      have hsub : reads ⊆ memory.elements.foldl addRead reads :=
        fun n hn => mem_foldl_addRead.mpr (.inl hn)
      exact List.Subset.trans hsub (subset_collect index)
    · exact List.Subset.trans (subset_collect base) (subset_collect index)
  | .partSelect base left right, reads => by
    rw [collectNetReads]
    exact List.Subset.trans (subset_collect base)
      (List.Subset.trans (subset_collect left) (subset_collect right))
  | .concat parts, reads => by
    rw [collectNetReads]
    exact subset_collectAll parts
  | .literal _, reads | .signedLiteral _, reads | .fill _, reads => by
    rw [collectNetReads]
    exact List.Subset.refl _

theorem subset_collectAll : ∀ (es : List Expr) {reads : List Nat}, reads ⊆ collectAll cg reads es
  | [], reads => List.Subset.refl _
  | e :: es, reads => by
    rw [collectAll]
    exact List.Subset.trans (subset_collect e) (subset_collectAll es)

end

/-! ### Equal values -/

/-- The nets in the list have the same values. -/
def SameOn (reads : List Nat) (W W' : World) : Prop := ∀ n ∈ reads, W.nets n = W'.nets n

theorem SameOn.mono {reads reads' : List Nat} {W W' : World} (h : SameOn reads W W')
    (hs : reads' ⊆ reads) : SameOn reads' W W' := fun n hn => h n (hs hn)

variable {W W' : World} {σ : Store}

theorem evalRef_same {name : String} {reads : List Nat} (hn : netsOnly cg (.ref name) = true)
    (h : SameOn (collectNetReads cg reads (.ref name)) W W') :
    evalRef cg W σ name = evalRef cg W' σ name := by
  rw [netsOnly, Option.isNone_iff_eq_none] at hn
  rw [collectNetReads] at h
  unfold evalRef
  rw [hn]
  cases cg.locals name with
  | some => rfl
  | none =>
    cases cg.consts name with
    | some => rfl
    | none =>
      cases cg.memories name with
      | some => rfl
      | none =>
        cases hnet : cg.nets name with
        | none => rfl
        | some net =>
          rw [hnet] at h
          have hvalue := h net.1 (mem_addRead.mpr (.inr rfl))
          show some (Value.logic (W.nets net.1)) = some (.logic (W'.nets net.1))
          rw [hvalue]

/-- A memory is read at one of its elements. -/
theorem memoryRead_same {memory : MemoryDef} (h : SameOn memory.elements W W')
    (index : Core.Logic.PackedVec) : memoryRead W memory index = memoryRead W' memory index := by
  unfold memoryRead
  cases he : memoryElement memory index with
  | none => rfl
  | some net =>
    refine h net ?_
    unfold memoryElement at he
    obtain ⟨i, -, he⟩ := Option.bind_eq_some_iff.mp he
    split_ifs at he
    · exact List.mem_of_getElem? he
    · exact List.mem_of_getElem? he

mutual

/-- The value of an expression depends on the collected nets only. -/
theorem evalExpr_same : ∀ (e : Expr) {reads : List Nat}, netsOnly cg e = true →
    SameOn (collectNetReads cg reads e) W W' → evalExpr cg W σ e = evalExpr cg W' σ e
  | .literal _, _, _, _ | .signedLiteral _, _, _, _ | .fill _, _, _, _ => by
    simp only [evalExpr]
  | .ref name, reads, hn, h => by
    simp only [evalExpr]
    exact evalRef_same hn h
  | .unary op operand, reads, hn, h => by
    rw [netsOnly] at hn
    rw [collectNetReads] at h
    simp only [evalExpr, evalExpr_same operand hn h]
  | .binary op lhs rhs, reads, hn, h => by
    rw [netsOnly, Bool.and_eq_true] at hn
    rw [collectNetReads] at h
    simp only [evalExpr, evalExpr_same lhs hn.1 (h.mono (subset_collect rhs)),
      evalExpr_same rhs hn.2 h]
  | .conditional c t f, reads, hn, h => by
    rw [netsOnly, Bool.and_eq_true, Bool.and_eq_true] at hn
    rw [collectNetReads] at h
    have ht := h.mono (subset_collect f)
    simp only [evalExpr, evalExpr_same c hn.1.1 (ht.mono (subset_collect t)),
      evalExpr_same t hn.1.2 ht, evalExpr_same f hn.2 h]
  | .index base index, reads, hn, h => by
    rw [netsOnly, Bool.and_eq_true, Bool.or_eq_true] at hn
    rw [collectNetReads] at h
    rw [evalExpr, evalExpr]
    cases hm : cg.memoryOf base with
    | some memory =>
      rw [hm] at h
      have hread := memoryRead_same ((h.mono (subset_collect index)).mono fun n hn =>
        mem_foldl_addRead.mpr (.inr hn))
      simp only [evalExpr_same index hn.2 h, hread]
    | none =>
      rw [hm] at h hn
      have hbase := evalExpr_same base (hn.1.resolve_left (by simp))
        (h.mono (subset_collect index))
      simp only [hbase, evalExpr_same index hn.2 h]
  | .partSelect base left right, reads, hn, h => by
    rw [netsOnly, Bool.and_eq_true, Bool.and_eq_true] at hn
    rw [collectNetReads] at h
    have hl := h.mono (subset_collect right)
    simp only [evalExpr, evalExpr_same base hn.1.1 (hl.mono (subset_collect left)),
      evalExpr_same left hn.1.2 hl, evalExpr_same right hn.2 h]
  | .concat parts, reads, hn, h => by
    rw [netsOnly] at hn
    rw [collectNetReads] at h
    simp only [evalExpr, evalExprs_same parts hn h]

theorem evalExprs_same : ∀ (es : List Expr) {reads : List Nat}, netsOnlyAll cg es = true →
    SameOn (collectAll cg reads es) W W' → evalExprs cg W σ es = evalExprs cg W' σ es
  | [], _, _, _ => by simp only [evalExprs]
  | e :: es, reads, hn, h => by
    rw [netsOnlyAll, Bool.and_eq_true] at hn
    rw [collectAll] at h
    simp only [evalExprs, evalExpr_same e hn.1 (h.mono (subset_collectAll es)),
      evalExprs_same es hn.2 h]

end

theorem evalResized_same {e : Expr} {reads : List Nat} (hn : netsOnly cg e = true)
    (h : SameOn (collectNetReads cg reads e) W W') (n : Nat) (s : Bool) :
    evalResized cg W σ e n s = evalResized cg W' σ e n s := by
  unfold evalResized
  rw [evalExpr_same e hn h]

theorem evalAtWidthWithSign_same (e : Expr) {reads : List Nat} (hn : netsOnly cg e = true)
    (h : SameOn (collectNetReads cg reads e) W W') (n : Nat) (s : Bool) :
    evalAtWidthWithSign cg W σ e n s = evalAtWidthWithSign cg W' σ e n s := by
  induction e generalizing reads n s with
  | fill bit => simp only [evalAtWidthWithSign]
  | literal | signedLiteral | ref | index | partSelect | concat =>
    simp only [evalAtWidthWithSign]
    exact evalResized_same hn h n s
  | unary op operand ih =>
    have hoperand := h
    have hn' := hn
    rw [collectNetReads] at hoperand
    rw [netsOnly] at hn'
    cases op <;> simp only [evalAtWidthWithSign]
    case bitNot | neg | plus => rw [ih hn' hoperand]
    all_goals exact evalResized_same hn h n s
  | binary op lhs rhs ihl ihr =>
    have hrhs := h
    have hn' := hn
    rw [collectNetReads] at hrhs
    rw [netsOnly, Bool.and_eq_true] at hn'
    have hlhs := hrhs.mono (subset_collect rhs)
    cases op <;> simp only [evalAtWidthWithSign]
    case shl | shr | sar => rw [ihl hn'.1 hlhs, evalExpr_same rhs hn'.2 hrhs]
    case logAnd | logOr => exact evalResized_same hn h n s
    all_goals rw [ihl hn'.1 hlhs, ihr hn'.2 hrhs]
  | conditional c t f _ iht ihf =>
    rw [collectNetReads] at h
    rw [netsOnly, Bool.and_eq_true, Bool.and_eq_true] at hn
    have ht := h.mono (subset_collect f)
    simp only [evalAtWidthWithSign]
    rw [evalExpr_same c hn.1.1 (ht.mono (subset_collect t)), iht hn.1.2 ht, ihf hn.2 h]

/-- The value of an assigned expression depends on the collected nets only. -/
theorem evalAtWidth_same {e : Expr} (hn : netsOnly cg e = true)
    (h : SameOn (collectNetReads cg [] e) W W') (n : Nat) :
    evalAtWidth cg W σ e n = evalAtWidth cg W' σ e n :=
  evalAtWidthWithSign_same e hn h n _

end

end Eevee.Elab.ReadSets
