/- Where the constant evaluators of the front end and of the elaborator agree. -/

import Mathlib.Tactic.Common
import Mathlib.Tactic.SplitIfs
import Eevee.Const.Evaluators

set_option autoImplicit false
set_option relaxedAutoImplicit false

namespace Eevee.Const.Agreement

open Eevee.Ast.Syntax
open Eevee.Const.Evaluators
open Eevee.Core.Logic

/-! ### The condition -/

/-- The operators that both evaluators have. -/
def common : Expr → Bool
  | .literal _ | .signedLiteral _ | .fill _ | .ref _ => true
  | .unary _ operand => common operand
  | .binary _ lhs rhs => common lhs && common rhs
  | .conditional condition whenTrue whenFalse =>
    common condition && common whenTrue && common whenFalse
  | .index _ _ | .partSelect _ _ _ | .concat _ => false

/-- The self-determined width, where no fill takes part. -/
def constWidth (constants : Constants) : Expr → Option Nat
  | .literal value | .signedLiteral value => some value.width
  | .ref name => (constants name).map PackedVec.width
  | .unary .logNot _ | .unary .reduceAnd _ | .unary .reduceOr _ | .unary .reduceXor _ => some 1
  | .unary .bitNot operand | .unary .neg operand | .unary .plus operand =>
    constWidth constants operand
  | .binary .shl lhs _ | .binary .shr lhs _ | .binary .sar lhs _ => constWidth constants lhs
  | .binary .add lhs rhs | .binary .sub lhs rhs | .binary .mul lhs rhs | .binary .and lhs rhs
  | .binary .or lhs rhs | .binary .xor lhs rhs | .conditional _ lhs rhs => do
    return max (← constWidth constants lhs) (← constWidth constants rhs)
  | .binary .eq _ _ | .binary .neq _ _ | .binary .lt _ _ | .binary .gt _ _ | .binary .le _ _
  | .binary .ge _ _ | .binary .logAnd _ _ | .binary .logOr _ _ => some 1
  | .fill _ | .index _ _ | .partSelect _ _ _ | .concat _ => none

/-- The self-determined width is more than 64 bits; a fill of 32 bits or of one adds nothing. -/
def exceeds (constants : Constants) : Expr → Bool
  | .literal value | .signedLiteral value => 64 < value.width
  | .ref name => (constants name).any fun value => 64 < value.width
  | .unary .bitNot operand | .unary .neg operand | .unary .plus operand =>
    exceeds constants operand
  | .binary .shl lhs _ | .binary .shr lhs _ | .binary .sar lhs _ => exceeds constants lhs
  | .binary .add lhs rhs | .binary .sub lhs rhs | .binary .mul lhs rhs | .binary .and lhs rhs
  | .binary .or lhs rhs | .binary .xor lhs rhs | .conditional _ lhs rhs =>
    exceeds constants lhs || exceeds constants rhs
  | .unary _ _ | .binary _ _ _ | .fill _ | .index _ _ | .partSelect _ _ _ | .concat _ => false

/-- Every name has a value. -/
def resolved (constants : Constants) : Expr → Bool
  | .ref name => (constants name).isSome
  | .unary _ operand => resolved constants operand
  | .binary _ lhs rhs => resolved constants lhs && resolved constants rhs
  | .conditional condition whenTrue whenFalse => resolved constants condition &&
    resolved constants whenTrue && resolved constants whenFalse
  | .literal _ | .signedLiteral _ | .fill _ | .index _ _ | .partSelect _ _ _ | .concat _ => true

/-- No product has more than 64 bits. -/
def narrow (constants : Constants) : Expr → Bool
  | .unary _ operand => narrow constants operand
  | .binary op lhs rhs => narrow constants lhs && narrow constants rhs &&
    (op != .mul || !(exceeds constants lhs || exceeds constants rhs))
  | .conditional condition whenTrue whenFalse => narrow constants condition &&
    narrow constants whenTrue && narrow constants whenFalse
  | .literal _ | .signedLiteral _ | .fill _ | .ref _ | .index _ _ | .partSelect _ _ _
  | .concat _ => true

/-- A name without value ends the evaluation, in whatever order the operands are taken. -/
def missing (constants : Constants) (e : Expr) : Bool := narrow constants e && !resolved constants e

/-- Why the evaluation ends with the expression, if it does. -/
def stop (constants : Constants) (e : Expr) : Option Stop :=
  match FrontEnd.evalConstExpr constants e with
  | .ok _ => none
  | .error reason => some reason

/-- The evaluation goes on after the expression. -/
def yields (constants : Constants) (e : Expr) : Bool := (stop constants e).isNone

/-- Extended to the width without sign, every branch gets zeros. -/
def zeroExtends (constants : Constants) (width : Nat) : Expr → Bool
  | .signedLiteral value => width ≤ value.width || value.1.extension true == .zero
  | .conditional _ whenTrue whenFalse =>
    zeroExtends constants width whenTrue && zeroExtends constants width whenFalse
  | e => constExprSignedness e != some true || (constWidth constants e).all (width ≤ ·)

/-- Where the condition ends the evaluation, no branch, which the elaborator comes to first, does so
for another reason. -/
def endsAlike (constants : Constants) (condition whenTrue whenFalse : Expr) : Bool :=
  (stop constants condition).all fun reason =>
    ((stop constants whenTrue).or (stop constants whenFalse)).all (· = reason)

/-- Both branches are extended to their common width with zeros. -/
def mergesZeros (constants : Constants) (condition whenTrue whenFalse : Expr) : Bool :=
  (constWidth constants (.conditional condition whenTrue whenFalse)).all fun width =>
    zeroExtends constants width whenTrue && zeroExtends constants width whenFalse

/-- Self-determined, the evaluation takes one way in both evaluators: it does not come to a fill, a
conditional's operands end it for one reason or do not end it, and branches that it merges are
extended with zeros. -/
def selfAgrees (constants : Constants) : Expr → Bool
  | .literal _ | .signedLiteral _ | .ref _ => true
  | .fill _ => false
  | .unary _ operand => selfAgrees constants operand
  | .binary op lhs rhs => missing constants (.binary op lhs rhs) ||
    (selfAgrees constants lhs && (!yields constants lhs || selfAgrees constants rhs))
  | .conditional condition whenTrue whenFalse =>
    missing constants (.conditional condition whenTrue whenFalse) ||
    (selfAgrees constants condition && selfAgrees constants whenTrue &&
      (!yields constants whenTrue || selfAgrees constants whenFalse) &&
      endsAlike constants condition whenTrue whenFalse &&
      (!(yields constants condition && yields constants whenTrue && yields constants whenFalse) ||
        mergesZeros constants condition whenTrue whenFalse))
  | .index _ _ | .partSelect _ _ _ | .concat _ => false

/-- In the context of a width the branches of conditionals are fills or literals, or both evaluators
extend their values alike: they do not need it, or their signedness is unknown or the asked one. -/
def contextAgrees (constants : Constants) (width : Nat) (signed : Bool) : Expr → Bool
  | .literal _ | .signedLiteral _ | .fill _ => true
  | .conditional condition whenTrue whenFalse =>
    missing constants (.conditional condition whenTrue whenFalse) ||
    (selfAgrees constants condition && (!yields constants condition ||
      (contextAgrees constants width signed whenTrue && (!yields constants whenTrue ||
        contextAgrees constants width signed whenFalse))))
  | e => selfAgrees constants e && (!yields constants e ||
    ((constExprSignedness e).getD signed == signed || (constWidth constants e).all (width ≤ ·)))

/-! ### Extension -/

theorem bind_eq_ok {α β : Type} {x : Eval α} {f : α → Eval β} {b : β} :
    (x >>= f) = .ok b ↔ ∃ a, x = .ok a ∧ f a = .ok b := by
  cases x <;> simp [bind, Except.bind]

/-- Where nothing is added, or zeros are, the signedness does not matter. -/
theorem resize_signed {v : PackedVec} {n : Nat}
    (h : n ≤ v.width ∨ v.1.extension true = .zero) : v.resize n true = v.resize n false := by
  ext i hi
  · simp
  · have hn : i < n := by simpa using hi
    rw [PackedVec.getBit_resize _ _ _ hn, PackedVec.getBit_resize _ _ _ hn]
    rcases h with h | h
    · rw [if_pos (Nat.lt_of_lt_of_le hn h), if_pos (Nat.lt_of_lt_of_le hn h)]
    · rw [h]
      rfl

theorem resize_signedness {v : PackedVec} {n : Nat} {s s' : Bool} (h : s = s' ∨ n ≤ v.width) :
    v.resize n s = v.resize n s' := by
  rcases h with rfl | h
  · rfl
  · have heq := @resize_signed v n (.inl h)
    cases s <;> cases s' <;> simp [heq]

/-- The expressions to which both evaluators apply the width last. -/
def widthLast : Expr → Bool
  | .literal _ | .signedLiteral _ | .fill _ | .conditional _ _ _ => false
  | _ => true

theorem tryAtWidth_of_widthLast {consts : Constants} {e : Expr} (h : widthLast e = true)
    (width : Nat) (signed : Bool) : Elab.tryConstEvalAtWidth consts e width signed = (do
      let value ← Elab.tryConstEvalWith consts e
      return value.resize width ((constExprSignedness e).getD signed)) := by
  cases e with
  | literal | signedLiteral | fill | conditional => cases h
  | _ => rw [Elab.tryConstEvalAtWidth] <;> simp

theorem evalAtWidth_of_widthLast {constants : Constants} {e : Expr} (h : widthLast e = true)
    (width : Nat) (signed : Bool) : FrontEnd.evalConstExprAtWidth constants e width signed = (do
      let value ← FrontEnd.evalConstExpr constants e
      return value.resize width signed) := by
  cases e with
  | literal | signedLiteral | fill | conditional => cases h
  | _ => rfl

theorem zeroExtends_of_widthLast {constants : Constants} {e : Expr} (h : widthLast e = true)
    (width : Nat) : zeroExtends constants width e =
      (constExprSignedness e != some true || (constWidth constants e).all (width ≤ ·)) := by
  cases e with
  | literal | signedLiteral | fill | conditional => cases h
  | _ => rfl

theorem contextAgrees_of_widthLast {constants : Constants} {e : Expr} (h : widthLast e = true)
    (width : Nat) (signed : Bool) : contextAgrees constants width signed e =
      (selfAgrees constants e && (!yields constants e ||
        ((constExprSignedness e).getD signed == signed ||
          (constWidth constants e).all (width ≤ ·)))) := by
  cases e with
  | literal | signedLiteral | fill | conditional => cases h
  | _ => rfl

/-- The value at a width has the width. -/
theorem width_atWidth {consts : Constants} {e : Expr} {width : Nat} {signed : Bool}
    {v : PackedVec} (h : Elab.tryConstEvalAtWidth consts e width signed = .ok v) :
    v.width = width := by
  induction e generalizing v with
  | literal | signedLiteral | fill =>
    rw [Elab.tryConstEvalAtWidth] at h
    cases h
    simp
  | conditional c t f _ iht ihf =>
    rw [Elab.tryConstEvalAtWidth] at h
    obtain ⟨vc, -, h⟩ := bind_eq_ok.mp h
    obtain ⟨vt, ht, h⟩ := bind_eq_ok.mp h
    obtain ⟨vf, hf, h⟩ := bind_eq_ok.mp h
    cases h
    rw [PackedVec.width_conditional, iht ht, ihf hf, Nat.max_self]
  | _ =>
    rw [tryAtWidth_of_widthLast rfl] at h
    obtain ⟨u, -, h⟩ := bind_eq_ok.mp h
    cases h
    exact PackedVec.width_resize _ _ _

/-! ### Evaluations that a missing name ends -/

/-- There is a value, or a name is missing. -/
def Settles (x : Eval PackedVec) (resolved : Bool) : Prop :=
  if resolved then ∃ v, x = .ok v else x = .error .none

theorem Settles.ok (v : PackedVec) : Settles (.ok v) true := ⟨v, rfl⟩

theorem Settles.bind {x : Eval PackedVec} {f : PackedVec → Eval PackedVec} {known known' : Bool}
    (hx : Settles x known) (hf : ∀ v, x = .ok v → Settles (f v) known') :
    Settles (x >>= f) (known && known') := by
  cases known with
  | false =>
    have hx : x = .error .none := hx
    rw [hx]
    rfl
  | true =>
    obtain ⟨v, hv⟩ := hx
    have hrest := hf v hv
    rw [hv]
    exact hrest

theorem Settles.resolved {x : Eval PackedVec} {known : Bool} {v : PackedVec}
    (h : Settles x known) (hv : x = .ok v) : known = true := by
  cases known with
  | false => cases hv.symm.trans h
  | true => rfl

theorem Settles.of_missing {x : Eval PackedVec} {known : Bool} (h : Settles x known)
    (hknown : known = false) : x = .error .none := by
  subst hknown
  exact h

theorem mul_ne_none {v w : PackedVec} (h : max v.width w.width ≤ 64) : v.mul w ≠ none := by
  unfold PackedVec.mul
  split
  · next hm =>
    have hle : max v.1.width w.1.width ≤ 64 := h
    simp only [Core.Alu.mul, hle, if_true] at hm
    split_ifs at hm
  · simp

theorem constBinary_settles {s s' : Bool} {l r : PackedVec} {op : BinOp}
    (h : op = .mul → max l.width r.width ≤ 64) : Settles (constBinary s s' l r op) true := by
  cases op with
  | mul =>
    obtain ⟨v, hv⟩ := Option.ne_none_iff_exists'.mp (mul_ne_none (h rfl))
    simp only [constBinary, hv, asserted]
    exact .ok v
  | _ => exact .ok _

theorem width_constUnary (value : PackedVec) (op : UnaryOp) :
    (constUnary value op).width = match op with
      | .bitNot | .neg | .plus => value.width
      | .logNot | .reduceAnd | .reduceOr | .reduceXor => 1 := by
  cases op <;> simp [constUnary]

theorem width_constBinary {s s' : Bool} {left right value : PackedVec} {op : BinOp}
    (h : constBinary s s' left right op = .ok value) :
    value.width = match op with
      | .add | .sub | .mul | .and | .or | .xor => max left.width right.width
      | .shl | .shr | .sar => left.width
      | .eq | .neq | .lt | .gt | .le | .ge | .logAnd | .logOr => 1 := by
  cases op with
  | mul =>
    simp only [constBinary, asserted] at h
    split at h
    · next v hv =>
      obtain rfl := Except.ok.inj h
      exact PackedVec.width_mul hv
    · cases h
  | lt | gt | le | ge | sar =>
    obtain rfl := Except.ok.inj h
    dsimp only
    split_ifs <;> simp
  | _ =>
    obtain rfl := Except.ok.inj h
    simp

/-- A value of an expression that does not exceed 64 bits has at most 64. -/
def Fits (constants : Constants) (e : Expr) (v : PackedVec) : Prop :=
  exceeds constants e = false → v.width ≤ 64

section

variable {constants : Constants}

theorem fits_unary {op : UnaryOp} {operand : Expr} {v : PackedVec} (h : Fits constants operand v) :
    Fits constants (.unary op operand) (constUnary v op) := by
  intro hop
  rw [width_constUnary]
  cases op with
  | bitNot | neg | plus => exact h hop
  | _ => exact (by decide : 1 ≤ 64)

theorem fits_binary {op : BinOp} {lhs rhs : Expr} {l r v : PackedVec} {s s' : Bool}
    (hl : Fits constants lhs l) (hr : Fits constants rhs r)
    (h : constBinary s s' l r op = .ok v) : Fits constants (.binary op lhs rhs) v := by
  intro hop
  rw [width_constBinary h]
  cases op with
  | add | sub | mul | and | or | xor =>
    obtain ⟨hlhs, hrhs⟩ := Bool.or_eq_false_iff.mp hop
    exact Nat.max_le.mpr ⟨hl hlhs, hr hrhs⟩
  | shl | shr | sar => exact hl hop
  | _ => exact (by decide : 1 ≤ 64)

theorem fits_conditional {c t f : Expr} {vt vf v : PackedVec} (ht : Fits constants t vt)
    (hf : Fits constants f vf) (hv : v.width = max vt.width vf.width) :
    Fits constants (.conditional c t f) v := by
  intro h
  obtain ⟨htrue, hfalse⟩ := Bool.or_eq_false_iff.mp h
  rw [hv]
  exact Nat.max_le.mpr ⟨ht htrue, hf hfalse⟩

theorem fits_ref {name : String} {v : PackedVec} (h : constants.get name = .ok v) :
    Fits constants (.ref name) v := by
  intro hname
  simp only [Constants.get] at h
  split at h
  · next u hu =>
    obtain rfl := Except.ok.inj h
    simpa [exceeds, hu] using hname
  · cases h

theorem fits_literal (v : PackedVec) : Fits constants (.literal v) v ∧
    Fits constants (.signedLiteral v) v := by
  constructor <;> exact fun h => Nat.le_of_not_lt (of_decide_eq_false h)

theorem max_le_of_narrow {op : BinOp} {lhs rhs : Expr} {l r : PackedVec}
    (hn : (op != .mul || !(exceeds constants lhs || exceeds constants rhs)) = true)
    (hl : Fits constants lhs l) (hr : Fits constants rhs r) (hop : op = .mul) :
    max l.width r.width ≤ 64 := by
  subst hop
  obtain ⟨hlhs, hrhs⟩ := Bool.or_eq_false_iff.mp ((Bool.not_eq_true' _).mp hn)
  exact Nat.max_le.mpr ⟨hl hlhs, hr hrhs⟩

theorem get_settles (name : String) : Settles (constants.get name) (constants name).isSome := by
  cases h : constants name with
  | none =>
    show constants.get name = .error .none
    rw [Constants.get, h]
  | some v => exact ⟨v, by rw [Constants.get, h]⟩

end

section

variable {constants : Constants}

namespace FrontEnd

open Eevee.Const.Evaluators.FrontEnd

theorem fits {e : Expr} {v : PackedVec} (h : evalConstExpr constants e = .ok v) :
    Fits constants e v := by
  induction e generalizing v with
  | literal u =>
    obtain rfl := Except.ok.inj h
    exact (fits_literal u).1
  | signedLiteral u =>
    obtain rfl := Except.ok.inj h
    exact (fits_literal u).2
  | fill bit =>
    obtain rfl := Except.ok.inj h
    intro _
    rw [PackedVec.width_filled]
    decide
  | ref name => exact fits_ref h
  | unary op operand ih =>
    obtain ⟨u, hu, h⟩ := bind_eq_ok.mp h
    obtain rfl := Except.ok.inj h
    exact fits_unary (ih hu)
  | binary op lhs rhs ihl ihr =>
    obtain ⟨l, hl, h⟩ := bind_eq_ok.mp h
    obtain ⟨r, hr, h⟩ := bind_eq_ok.mp h
    exact fits_binary (ihl hl) (ihr hr) h
  | conditional c t f _ iht ihf =>
    obtain ⟨vc, -, h⟩ := bind_eq_ok.mp h
    obtain ⟨vt, ht, h⟩ := bind_eq_ok.mp h
    obtain ⟨vf, hf, h⟩ := bind_eq_ok.mp h
    obtain rfl := Except.ok.inj h
    exact fits_conditional (iht ht) (ihf hf) (PackedVec.width_conditional vc vt vf)
  | index | partSelect | concat => cases h

/-- In the front end a narrow expression has a value, or a name in it has none. -/
theorem settles {e : Expr} (hc : common e = true) (hn : narrow constants e = true) :
    Settles (evalConstExpr constants e) (resolved constants e) := by
  induction e with
  | literal u | signedLiteral u => exact .ok u
  | fill bit => exact .ok _
  | ref name => exact get_settles name
  | unary op operand ih =>
    rw [← Bool.and_true (resolved constants _)]
    exact (ih hc hn).bind fun v _ => .ok _
  | binary op lhs rhs ihl ihr =>
    simp only [common, narrow, Bool.and_eq_true] at hc hn
    rw [resolved, ← Bool.and_true (resolved constants rhs)]
    refine (ihl hc.1 hn.1.1).bind fun l hl => (ihr hc.2 hn.1.2).bind fun r hr => ?_
    exact constBinary_settles (max_le_of_narrow hn.2 (fits hl) (fits hr))
  | conditional c t f ihc iht ihf =>
    simp only [common, narrow, Bool.and_eq_true] at hc hn
    rw [resolved, ← Bool.and_true (resolved constants f), Bool.and_assoc]
    exact (ihc hc.1.1 hn.1.1).bind fun vc _ => (iht hc.1.2 hn.1.2).bind fun vt _ =>
      (ihf hc.2 hn.2).bind fun vf _ => .ok _
  | index | partSelect | concat => cases hc

theorem settlesAt {e : Expr} (hc : common e = true) (hn : narrow constants e = true) (width : Nat)
    (signed : Bool) :
    Settles (evalConstExprAtWidth constants e width signed) (resolved constants e) := by
  induction e with
  | literal u | signedLiteral u | fill => exact .ok _
  | conditional c t f _ iht ihf =>
    simp only [common, narrow, Bool.and_eq_true] at hc hn
    rw [resolved, ← Bool.and_true (resolved constants f), Bool.and_assoc]
    exact (settles hc.1.1 hn.1.1).bind fun vc _ => (iht hc.1.2 hn.1.2).bind fun vt _ =>
      (ihf hc.2 hn.2).bind fun vf _ => .ok _
  | index | partSelect | concat => cases hc
  | _ =>
    rw [evalAtWidth_of_widthLast rfl, ← Bool.and_true (resolved constants _)]
    exact (settles hc hn).bind fun v _ => .ok _

end FrontEnd

namespace Elab

open Eevee.Const.Evaluators.Elab

theorem fits {e : Expr} (hc : common e = true) {v : PackedVec}
    (h : tryConstEvalWith constants e = .ok v) : Fits constants e v := by
  induction e generalizing v with
  | literal u =>
    rw [tryConstEvalWith] at h
    obtain rfl := Except.ok.inj h
    exact (fits_literal u).1
  | signedLiteral u =>
    rw [tryConstEvalWith] at h
    obtain rfl := Except.ok.inj h
    exact (fits_literal u).2
  | fill bit =>
    rw [tryConstEvalWith] at h
    obtain rfl := Except.ok.inj h
    intro _
    rw [PackedVec.width_filled]
    decide
  | ref name =>
    rw [tryConstEvalWith] at h
    exact fits_ref h
  | unary op operand ih =>
    rw [tryConstEvalWith] at h
    obtain ⟨u, hu, h⟩ := bind_eq_ok.mp h
    obtain rfl := Except.ok.inj h
    exact fits_unary (ih hc hu)
  | binary op lhs rhs ihl ihr =>
    simp only [common, Bool.and_eq_true] at hc
    rw [tryConstEvalWith] at h
    obtain ⟨l, hl, h⟩ := bind_eq_ok.mp h
    obtain ⟨r, hr, h⟩ := bind_eq_ok.mp h
    exact fits_binary (ihl hc.1 hl) (ihr hc.2 hr) h
  | conditional c t f _ iht ihf =>
    simp only [common, Bool.and_eq_true] at hc
    rw [tryConstEvalWith] at h
    obtain ⟨vt, ht, h⟩ := bind_eq_ok.mp h
    obtain ⟨vf, hf, h⟩ := bind_eq_ok.mp h
    obtain ⟨vc, -, h⟩ := bind_eq_ok.mp h
    obtain ⟨wt, hwt, h⟩ := bind_eq_ok.mp h
    obtain ⟨wf, hwf, h⟩ := bind_eq_ok.mp h
    obtain rfl := Except.ok.inj h
    refine fits_conditional (iht hc.1.2 ht) (ihf hc.2 hf) ?_
    rw [PackedVec.width_conditional, width_atWidth hwt, width_atWidth hwf, Nat.max_self]
  | index | partSelect | concat => cases hc

/-- In the elaborator too, self-determined and at every width. -/
theorem settles {e : Expr} (hc : common e = true) (hn : narrow constants e = true) :
    Settles (tryConstEvalWith constants e) (resolved constants e) ∧ ∀ width signed,
      Settles (tryConstEvalAtWidth constants e width signed) (resolved constants e) := by
  have hlast {e : Expr} (hl : widthLast e = true)
      (hself : Settles (tryConstEvalWith constants e) (resolved constants e)) (width : Nat)
      (signed : Bool) :
      Settles (tryConstEvalAtWidth constants e width signed) (resolved constants e) := by
    rw [tryAtWidth_of_widthLast hl, ← Bool.and_true (resolved constants e)]
    exact hself.bind fun v _ => .ok _
  induction e with
  | literal u | signedLiteral u =>
    rw [tryConstEvalWith]
    refine ⟨.ok u, fun width signed => ?_⟩
    rw [tryConstEvalAtWidth]
    exact .ok _
  | fill bit =>
    rw [tryConstEvalWith]
    refine ⟨.ok _, fun width signed => ?_⟩
    rw [tryConstEvalAtWidth]
    exact .ok _
  | ref name =>
    have hself : Settles (tryConstEvalWith constants (.ref name))
        (resolved constants (.ref name)) := by
      rw [tryConstEvalWith]
      exact get_settles name
    exact ⟨hself, hlast rfl hself⟩
  | unary op operand ih =>
    have hself : Settles (tryConstEvalWith constants (.unary op operand))
        (resolved constants (.unary op operand)) := by
      rw [tryConstEvalWith, ← Bool.and_true (resolved constants _)]
      exact (ih hc hn).1.bind fun v _ => .ok _
    exact ⟨hself, hlast rfl hself⟩
  | binary op lhs rhs ihl ihr =>
    simp only [common, narrow, Bool.and_eq_true] at hc hn
    have hself : Settles (tryConstEvalWith constants (.binary op lhs rhs))
        (resolved constants (.binary op lhs rhs)) := by
      rw [tryConstEvalWith, resolved, ← Bool.and_true (resolved constants rhs)]
      refine (ihl hc.1 hn.1.1).1.bind fun l hl => (ihr hc.2 hn.1.2).1.bind fun r hr => ?_
      exact constBinary_settles (max_le_of_narrow hn.2 (fits hc.1 hl) (fits hc.2 hr))
    exact ⟨hself, hlast rfl hself⟩
  | conditional c t f ihc iht ihf =>
    simp only [common, narrow, Bool.and_eq_true] at hc hn
    obtain ⟨hcs, -⟩ := ihc hc.1.1 hn.1.1
    obtain ⟨hts, hta⟩ := iht hc.1.2 hn.1.2
    obtain ⟨hfs, hfa⟩ := ihf hc.2 hn.2
    constructor
    · have horder : resolved constants (.conditional c t f) =
          (resolved constants t && (resolved constants f && (resolved constants c &&
            (resolved constants t && (resolved constants f && true))))) := by
        rw [resolved]
        cases resolved constants c <;> cases resolved constants t <;>
          cases resolved constants f <;> rfl
      rw [tryConstEvalWith, horder]
      exact hts.bind fun vt _ => hfs.bind fun vf _ => hcs.bind fun vc _ =>
        (hta _ _).bind fun wt _ => (hfa _ _).bind fun wf _ => .ok _
    · intro width signed
      rw [tryConstEvalAtWidth, resolved, ← Bool.and_true (resolved constants f), Bool.and_assoc]
      exact hcs.bind fun vc _ => (hta width signed).bind fun vt _ =>
        (hfa width signed).bind fun vf _ => .ok _
  | index | partSelect | concat => cases hc

end Elab

end

/-! ### Agreement -/

section

variable {constants : Constants}

theorem stop_of_error {e : Expr} {reason : Stop}
    (h : FrontEnd.evalConstExpr constants e = .error reason) : stop constants e = some reason := by
  rw [stop, h]

theorem stop_of_ok {e : Expr} {v : PackedVec} (h : FrontEnd.evalConstExpr constants e = .ok v) :
    stop constants e = none := by
  rw [stop, h]

theorem yields_of_ok {e : Expr} {v : PackedVec} (h : FrontEnd.evalConstExpr constants e = .ok v) :
    yields constants e = true := by
  rw [yields, stop_of_ok h]
  rfl

theorem missing_cases {e : Expr} (h : missing constants e = true) :
    narrow constants e = true ∧ resolved constants e = false := by
  simpa only [missing, Bool.and_eq_true, Bool.not_eq_true'] using h

/-- With a missing name no evaluation has a value. -/
theorem evals_of_missing {e : Expr} (hc : common e = true) (h : missing constants e = true) :
    FrontEnd.evalConstExpr constants e = .error .none ∧
      Elab.tryConstEvalWith constants e = .error .none ∧ ∀ width signed,
        FrontEnd.evalConstExprAtWidth constants e width signed = .error .none ∧
        Elab.tryConstEvalAtWidth constants e width signed = .error .none := by
  obtain ⟨hn, hr⟩ := missing_cases h
  obtain ⟨hself, hat⟩ := Elab.settles hc hn
  exact ⟨(FrontEnd.settles hc hn).of_missing hr, hself.of_missing hr, fun width signed =>
    ⟨(FrontEnd.settlesAt hc hn width signed).of_missing hr, (hat width signed).of_missing hr⟩⟩

theorem not_missing {e : Expr} {v : PackedVec} (hc : common e = true)
    (h : FrontEnd.evalConstExpr constants e = .ok v) : missing constants e = false := by
  by_contra hm
  rw [Bool.not_eq_false] at hm
  cases h.symm.trans (evals_of_missing hc hm).1

/-- A value has the self-determined width. -/
theorem constWidth_of_eval {e : Expr} {v : PackedVec} (hc : common e = true)
    (ha : selfAgrees constants e = true) (h : FrontEnd.evalConstExpr constants e = .ok v) :
    constWidth constants e = some v.width := by
  have hm := not_missing hc h
  induction e generalizing v with
  | literal u | signedLiteral u =>
    obtain rfl := Except.ok.inj h
    rfl
  | fill bit => cases ha
  | ref name =>
    simp only [FrontEnd.evalConstExpr, Constants.get] at h
    split at h
    · next u hu =>
      obtain rfl := Except.ok.inj h
      simp [constWidth, hu]
    · cases h
  | unary op operand ih =>
    obtain ⟨u, hu, h⟩ := bind_eq_ok.mp h
    obtain rfl := Except.ok.inj h
    have hw := ih hc ha hu (not_missing hc hu)
    rw [width_constUnary]
    cases op <;> simp [constWidth, hw]
  | binary op lhs rhs ihl ihr =>
    simp only [common, Bool.and_eq_true] at hc
    obtain ⟨l, hl, h⟩ := bind_eq_ok.mp h
    obtain ⟨r, hr, h⟩ := bind_eq_ok.mp h
    simp only [selfAgrees, hm, yields_of_ok hl, Bool.false_or, Bool.not_true,
      Bool.and_eq_true] at ha
    have hwl := ihl hc.1 ha.1 hl (not_missing hc.1 hl)
    have hwr := ihr hc.2 ha.2 hr (not_missing hc.2 hr)
    rw [width_constBinary h]
    cases op <;> simp [constWidth, hwl, hwr]
  | conditional c t f _ iht ihf =>
    simp only [common, Bool.and_eq_true] at hc
    obtain ⟨vc, hvc, h⟩ := bind_eq_ok.mp h
    obtain ⟨vt, ht, h⟩ := bind_eq_ok.mp h
    obtain ⟨vf, hf, h⟩ := bind_eq_ok.mp h
    obtain rfl := Except.ok.inj h
    simp only [selfAgrees, hm, yields_of_ok ht, Bool.false_or, Bool.not_true,
      Bool.and_eq_true] at ha
    have hwt := iht hc.1.2 ha.1.1.1.2 ht (not_missing hc.1.2 ht)
    have hwf := ihf hc.2 ha.1.1.2 hf (not_missing hc.2 hf)
    simp [constWidth, hwt, hwf, PackedVec.width_conditional]
  | index | partSelect | concat => cases ha

/-- In an unsigned context the elaborator extends the front end's value with zeros. -/
def ExtendsZeros (constants : Constants) (e : Expr) : Prop :=
  ∀ v, FrontEnd.evalConstExpr constants e = .ok v → ∀ width, zeroExtends constants width e = true →
    Elab.tryConstEvalAtWidth constants e width false = .ok (v.resize width false)

theorem extendsZeros_of_widthLast {e : Expr} (hl : widthLast e = true) (hc : common e = true)
    (ha : selfAgrees constants e = true)
    (hself : Elab.tryConstEvalWith constants e = FrontEnd.evalConstExpr constants e) :
    ExtendsZeros constants e := by
  intro v hv width hz
  rw [zeroExtends_of_widthLast hl] at hz
  rw [tryAtWidth_of_widthLast hl, hself, hv]
  have hw := constWidth_of_eval hc ha hv
  have hcase : (constExprSignedness e).getD false = false ∨ width ≤ v.width := by
    rw [hw] at hz
    cases hs : constExprSignedness e with
    | none => exact .inl rfl
    | some signed => cases signed <;> simp_all
  exact congrArg Except.ok (resize_signedness hcase)

/-- Where no operand ends the evaluation, the merged branches are the same. -/
theorem conditional_merged {c t f : Expr} {vc vt vf : PackedVec}
    (hvc : Elab.tryConstEvalWith constants c = .ok vc)
    (hvt : Elab.tryConstEvalWith constants t = .ok vt)
    (hvf : Elab.tryConstEvalWith constants f = .ok vf)
    (ht : Elab.tryConstEvalAtWidth constants t (max vt.width vf.width) false =
      .ok (vt.resize (max vt.width vf.width) false))
    (hf : Elab.tryConstEvalAtWidth constants f (max vt.width vf.width) false =
      .ok (vf.resize (max vt.width vf.width) false)) :
    Elab.tryConstEvalWith constants (.conditional c t f) = .ok (.conditional vc vt vf) := by
  have hcond : PackedVec.conditional vc (vt.resize (max vt.width vf.width) false)
      (vf.resize (max vt.width vf.width) false) = .conditional vc vt vf := by
    rw [PackedVec.conditional_resize]
    exact PackedVec.resize_of_width_eq (PackedVec.width_conditional vc vt vf) false
  rw [Elab.tryConstEvalWith, hvt, hvf, hvc]
  simp only [bind, Except.bind, pure, Except.pure, ht, hf, hcond]

/-- Self-determined, both evaluators return the same. -/
theorem tryConstEvalWith_eq {e : Expr} (hc : common e = true)
    (ha : selfAgrees constants e = true) :
    Elab.tryConstEvalWith constants e = FrontEnd.evalConstExpr constants e ∧
      ExtendsZeros constants e := by
  induction e with
  | literal u =>
    refine ⟨by rw [Elab.tryConstEvalWith]; rfl, fun v hv width _ => ?_⟩
    obtain rfl := Except.ok.inj hv
    rw [Elab.tryConstEvalAtWidth]
  | signedLiteral u =>
    refine ⟨by rw [Elab.tryConstEvalWith]; rfl, fun v hv width hz => ?_⟩
    obtain rfl := Except.ok.inj hv
    rw [Elab.tryConstEvalAtWidth]
    simp only [zeroExtends, Bool.or_eq_true, decide_eq_true_eq, beq_iff_eq] at hz
    exact congrArg Except.ok (resize_signed hz)
  | ref name =>
    have hself : Elab.tryConstEvalWith constants (.ref name) =
        FrontEnd.evalConstExpr constants (.ref name) := by
      rw [Elab.tryConstEvalWith]
      rfl
    exact ⟨hself, extendsZeros_of_widthLast rfl hc ha hself⟩
  | unary op operand ih =>
    have hself : Elab.tryConstEvalWith constants (.unary op operand) =
        FrontEnd.evalConstExpr constants (.unary op operand) := by
      rw [Elab.tryConstEvalWith, (ih hc ha).1]
      rfl
    exact ⟨hself, extendsZeros_of_widthLast rfl hc ha hself⟩
  | binary op lhs rhs ihl ihr =>
    have hself : Elab.tryConstEvalWith constants (.binary op lhs rhs) =
        FrontEnd.evalConstExpr constants (.binary op lhs rhs) := by
      by_cases hm : missing constants (.binary op lhs rhs) = true
      · obtain ⟨hfront, helaborator, -⟩ := evals_of_missing hc hm
        rw [hfront, helaborator]
      rw [Bool.not_eq_true] at hm
      simp only [common, Bool.and_eq_true] at hc
      simp only [selfAgrees, hm, Bool.false_or, Bool.and_eq_true] at ha
      rw [Elab.tryConstEvalWith, (ihl hc.1 ha.1).1, FrontEnd.evalConstExpr]
      cases hl : FrontEnd.evalConstExpr constants lhs with
      | error reason => rfl
      | ok l =>
        rw [yields_of_ok hl] at ha
        rw [(ihr hc.2 ha.2).1]
    exact ⟨hself, extendsZeros_of_widthLast rfl hc ha hself⟩
  | conditional c t f ihc iht ihf =>
    by_cases hm : missing constants (.conditional c t f) = true
    · obtain ⟨hfront, helaborator, -⟩ := evals_of_missing hc hm
      exact ⟨helaborator.trans hfront.symm, fun v hv => by cases hv.symm.trans hfront⟩
    rw [Bool.not_eq_true] at hm
    have hparts := ha
    simp only [common, Bool.and_eq_true] at hc
    simp only [selfAgrees, hm, Bool.false_or, Bool.and_eq_true] at hparts
    obtain ⟨⟨⟨⟨hac, hat⟩, haf⟩, hends⟩, hmerge⟩ := hparts
    obtain ⟨hcs, -⟩ := ihc hc.1.1 hac
    obtain ⟨hts, htz⟩ := iht hc.1.2 hat
    constructor
    · cases ht : FrontEnd.evalConstExpr constants t with
      | error reason =>
        rw [Elab.tryConstEvalWith, hts, ht, FrontEnd.evalConstExpr]
        cases hvc : FrontEnd.evalConstExpr constants c with
        | error reason' =>
          rw [endsAlike, stop_of_error hvc, stop_of_error ht] at hends
          obtain rfl : reason = reason' := of_decide_eq_true hends
          rfl
        | ok vc => simp [ht, bind, Except.bind]
      | ok vt =>
        rw [yields_of_ok ht] at haf hmerge
        obtain ⟨hfs, hfz⟩ := ihf hc.2 haf
        cases hf : FrontEnd.evalConstExpr constants f with
        | error reason =>
          rw [Elab.tryConstEvalWith, hts, ht, hfs, hf, FrontEnd.evalConstExpr]
          cases hvc : FrontEnd.evalConstExpr constants c with
          | error reason' =>
            rw [endsAlike, stop_of_error hvc, stop_of_ok ht, stop_of_error hf] at hends
            obtain rfl : reason = reason' := of_decide_eq_true hends
            rfl
          | ok vc => simp [ht, hf, bind, Except.bind]
        | ok vf =>
          cases hvc : FrontEnd.evalConstExpr constants c with
          | error reason =>
            rw [Elab.tryConstEvalWith, hts, ht, hfs, hf, hcs, hvc, FrontEnd.evalConstExpr, hvc]
            rfl
          | ok vc =>
            have hw : constWidth constants (.conditional c t f) =
                some (max vt.width vf.width) := by
              simp [constWidth, constWidth_of_eval hc.1.2 hat ht, constWidth_of_eval hc.2 haf hf]
            rw [yields_of_ok hvc, yields_of_ok hf, mergesZeros, hw] at hmerge
            simp only [Bool.and_self, Bool.not_true, Bool.false_or, Option.all_some,
              Bool.and_eq_true] at hmerge
            rw [conditional_merged (hcs.trans hvc) (hts.trans ht) (hfs.trans hf)
              (htz vt ht _ hmerge.1) (hfz vf hf _ hmerge.2)]
            simp [FrontEnd.evalConstExpr, hvc, ht, hf, bind, Except.bind, pure, Except.pure]
    · intro v hv width hz
      obtain ⟨vc, hvc, hv⟩ := bind_eq_ok.mp hv
      obtain ⟨vt, ht, hv⟩ := bind_eq_ok.mp hv
      obtain ⟨vf, hf, hv⟩ := bind_eq_ok.mp hv
      obtain rfl := Except.ok.inj hv
      rw [yields_of_ok ht] at haf
      simp only [zeroExtends, Bool.and_eq_true] at hz
      rw [Elab.tryConstEvalAtWidth, hcs, hvc, htz vt ht width hz.1,
        (ihf hc.2 haf).2 vf hf width hz.2]
      simp [bind, Except.bind, pure, Except.pure, PackedVec.conditional_resize]
  | fill bit => cases ha
  | index | partSelect | concat => cases ha

variable {width : Nat} {signed : Bool}

theorem agree_of_widthLast {e : Expr} (hl : widthLast e = true) (hc : common e = true)
    (ha : contextAgrees constants width signed e = true) :
    FrontEnd.evalConstExprAtWidth constants e width signed =
      Elab.tryConstEvalAtWidth constants e width signed := by
  rw [contextAgrees_of_widthLast hl, Bool.and_eq_true] at ha
  obtain ⟨hself, hsign⟩ := ha
  rw [tryAtWidth_of_widthLast hl, evalAtWidth_of_widthLast hl, (tryConstEvalWith_eq hc hself).1]
  cases hv : FrontEnd.evalConstExpr constants e with
  | error stop => rfl
  | ok v =>
    rw [yields_of_ok hv, constWidth_of_eval hc hself hv] at hsign
    simp only [Bool.not_true, Bool.false_or, Bool.or_eq_true, Option.all_some,
      decide_eq_true_eq] at hsign
    have hcase : signed = (constExprSignedness e).getD signed ∨ width ≤ v.width :=
      hsign.imp_left fun h => (eq_of_beq h).symm
    exact congrArg Except.ok (resize_signedness hcase)

theorem ok_of_okAt {e : Expr} {v : PackedVec}
    (h : FrontEnd.evalConstExprAtWidth constants e width signed = .ok v) :
    ∃ u, FrontEnd.evalConstExpr constants e = .ok u := by
  induction e generalizing v with
  | literal | signedLiteral | fill => exact ⟨_, rfl⟩
  | conditional c t f _ iht ihf =>
    obtain ⟨vc, hc, h⟩ := bind_eq_ok.mp h
    obtain ⟨vt, ht, h⟩ := bind_eq_ok.mp h
    obtain ⟨vf, hf, -⟩ := bind_eq_ok.mp h
    obtain ⟨ut, hut⟩ := iht ht
    obtain ⟨uf, huf⟩ := ihf hf
    exact ⟨.conditional vc ut uf, by
      simp [FrontEnd.evalConstExpr, hc, hut, huf, bind, Except.bind, pure, Except.pure]⟩
  | _ =>
    rw [evalAtWidth_of_widthLast rfl] at h
    obtain ⟨u, hu, -⟩ := bind_eq_ok.mp h
    exact ⟨u, hu⟩

theorem agree_of_context {e : Expr} (hc : common e = true)
    (ha : contextAgrees constants width signed e = true) :
    FrontEnd.evalConstExprAtWidth constants e width signed =
      Elab.tryConstEvalAtWidth constants e width signed := by
  induction e with
  | literal v | signedLiteral v =>
    rw [Elab.tryConstEvalAtWidth]
    rfl
  | fill bit =>
    rw [Elab.tryConstEvalAtWidth]
    rfl
  | conditional c t f ihc iht ihf =>
    by_cases hm : missing constants (.conditional c t f) = true
    · obtain ⟨hfront, helaborator⟩ := (evals_of_missing hc hm).2.2 width signed
      rw [hfront, helaborator]
    rw [Bool.not_eq_true] at hm
    simp only [common, Bool.and_eq_true] at hc
    simp only [contextAgrees, hm, Bool.false_or, Bool.and_eq_true] at ha
    rw [Elab.tryConstEvalAtWidth, (tryConstEvalWith_eq hc.1.1 ha.1).1,
      FrontEnd.evalConstExprAtWidth]
    cases hvc : FrontEnd.evalConstExpr constants c with
    | error reason => rfl
    | ok vc =>
      simp only [yields_of_ok hvc, Bool.not_true, Bool.false_or, Bool.and_eq_true] at ha
      rw [← iht hc.1.2 ha.2.1]
      cases ht : FrontEnd.evalConstExprAtWidth constants t width signed with
      | error reason => simp only [bind, Except.bind]
      | ok vt =>
        obtain ⟨u, hu⟩ := ok_of_okAt ht
        simp only [yields_of_ok hu, Bool.not_true, Bool.false_or] at ha
        simp only [← ihf hc.2 ha.2.2, bind, Except.bind]
  | _ => exact agree_of_widthLast rfl hc ha

theorem selfAgrees_of_missing {e : Expr} (h : missing constants e = true) :
    selfAgrees constants e = true := by
  induction e with
  | fill | index | partSelect | concat => cases (missing_cases h).2
  | literal | signedLiteral | ref => rfl
  | unary op operand ih => exact ih h
  | binary | conditional => simp only [selfAgrees, h, Bool.true_or]

theorem contextAgrees_of_missing {e : Expr} (hc : common e = true)
    (h : missing constants e = true) : contextAgrees constants width signed e = true := by
  have hstop : yields constants e = false := by
    rw [yields, stop_of_error (evals_of_missing hc h).1]
    rfl
  by_cases hl : widthLast e = true
  · rw [contextAgrees_of_widthLast hl, selfAgrees_of_missing h, hstop]
    rfl
  · cases e with
    | literal | signedLiteral | fill => rfl
    | conditional => simp only [contextAgrees, h, Bool.true_or]
    | _ => exact absurd rfl hl

/-- In a context of a width and a signedness both evaluators return the same, where the evaluation
comes to no fill that the front end sizes itself, to no branch that it extends in a way of its own
and to no result that it does; without products of more than 64 bits that is so whenever one of them
returns no value. -/
theorem evaluators_agree {e : Expr} (hc : common e = true) :
    (contextAgrees constants width signed e = true →
      FrontEnd.evalConstExprAtWidth constants e width signed =
        Elab.tryConstEvalAtWidth constants e width signed) ∧
    (narrow constants e = true →
      FrontEnd.evalConstExprAtWidth constants e width signed = .error .none ∨
        Elab.tryConstEvalAtWidth constants e width signed = .error .none →
      contextAgrees constants width signed e = true) := by
  refine ⟨agree_of_context hc, fun hn hnone => contextAgrees_of_missing hc ?_⟩
  rw [missing, hn, Bool.true_and, Bool.not_eq_true', ← Bool.not_eq_true]
  intro hr
  have hfront := FrontEnd.settlesAt hc hn width signed
  have helaborator := (Elab.settles hc hn).2 width signed
  rw [hr] at hfront helaborator
  obtain ⟨v, hv⟩ := hfront
  obtain ⟨w, hw⟩ := helaborator
  rcases hnone with hnone | hnone
  · cases hv.symm.trans hnone
  · cases hw.symm.trans hnone

end

/-- A conditional over a fill, a name and a signed sum of the width asked for. -/
def agreeing : Expr :=
  .conditional (.binary .lt (.ref "N") (.literal (.ones 4))) (.fill .one)
    (.binary .add (.signedLiteral (.ones 8)) (.signedLiteral (.zero 8)))

theorem evaluators_agree_conditional :
    FrontEnd.evalConstExprAtWidth (fun _ => some (.zero 4)) agreeing 8 true =
        Elab.tryConstEvalAtWidth (fun _ => some (.zero 4)) agreeing 8 true ∧
      FrontEnd.evalConstExprAtWidth (fun _ => none) (.binary .add (.ref "N") (.fill .one)) 8 true =
        Elab.tryConstEvalAtWidth (fun _ => none) (.binary .add (.ref "N") (.fill .one)) 8 true :=
  ⟨(evaluators_agree (by decide)).1 (by decide +kernel),
    (evaluators_agree (by decide)).1 (by decide)⟩

/-- The front end compares a fill of 32 bits, the elaborator one of a single bit. -/
theorem evaluators_differ : FrontEnd.evalConstExprAtWidth (fun _ => none)
      (.binary .eq (.fill .one) (.literal (.ones 32))) 1 false ≠
    Elab.tryConstEvalAtWidth (fun _ => none)
      (.binary .eq (.fill .one) (.literal (.ones 32))) 1 false := by
  rw [Elab.tryConstEvalAtWidth, Elab.tryConstEvalWith, Elab.tryConstEvalWith,
    Elab.tryConstEvalWith]
  · decide
  all_goals simp

end Eevee.Const.Agreement
