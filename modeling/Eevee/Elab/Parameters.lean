/- The parameters of instances: which override is for which, in which scope, and with which sign. -/

import Mathlib.Data.List.Basic
import Mathlib.Data.List.Perm.Basic
import Mathlib.Tactic.Common
import Mathlib.Tactic.SplitIfs
import Eevee.Const.Agreement
import Eevee.Elab.Instantiation

set_option autoImplicit false
set_option relaxedAutoImplicit false

namespace Eevee.Elab.Parameters

open Eevee.Ast.Modules
open Eevee.Ast.Syntax
open Eevee.Const.Agreement (bind_eq_ok resize_signedness width_atWidth)
open Eevee.Const.Evaluators (Constants Eval bothSigned constExprSignedness)
open Eevee.Const.Evaluators.Elab (tryConstEvalWith tryConstEvalAtWidth)
open Eevee.Core.Logic
open Eevee.Elab.Hierarchy (Design Region Elaborated overriddenParameter resolveOverrides
  bindParameters bindModuleParameters bindInstancePorts Scope)
open Eevee.Elab.Instantiation (instanceTask subtasks)
open Eevee.Lib.Tables (Names)

/-! ### Values at the width of a parameter -/

/-- The signedness of an expression, by the declarations of the names in it. -/
def ownSigned (declared : String → Bool) : Expr → Bool
  | .signedLiteral _ => true
  | .literal _ | .fill _ | .concat _ | .index _ _ | .partSelect _ _ _ => false
  | .ref name => declared name
  | .unary op operand =>
    match op with
    | .bitNot | .neg | .plus => ownSigned declared operand
    | .logNot | .reduceAnd | .reduceOr | .reduceXor => false
  | .binary op lhs rhs =>
    match op with
    | .add | .sub | .mul | .and | .or | .xor => ownSigned declared lhs && ownSigned declared rhs
    | .shl | .shr | .sar => ownSigned declared lhs
    | .eq | .neq | .lt | .gt | .le | .ge | .logAnd | .logOr => false
  | .conditional _ whenTrue whenFalse =>
    ownSigned declared whenTrue && ownSigned declared whenFalse

/-- The value of an expression, coerced to a width by the signedness of the expression; a fill has
the width, and a conditional has the value of a branch. -/
def coerced (consts : Constants) (declared : String → Bool) : Expr → Nat → Eval PackedVec
  | .fill bit, width => .ok (.filled bit width)
  | .conditional c t f, width => do
    let condition ← tryConstEvalWith consts c
    let whenTrue ← coerced consts declared t width
    let whenFalse ← coerced consts declared f width
    return .conditional condition whenTrue whenFalse
  | e, width => do
    let value ← tryConstEvalWith consts e
    return value.resize width (ownSigned declared e)

/-- A branch whose condition is unknown gives the bits in which the branches agree. -/
def MergesAlike (consts : Constants) (declared : String → Bool) (signed : Bool) (width : Nat)
    (condition : PackedVec) (t f : Expr) : Prop :=
  ∀ vt vf wt wf, tryConstEvalAtWidth consts t width signed = .ok vt →
    tryConstEvalAtWidth consts f width signed = .ok vf → coerced consts declared t width = .ok wt →
    coerced consts declared f width = .ok wf →
    PackedVec.conditional condition vt vf = PackedVec.conditional condition wt wf

/-- An expression whose signedness comes from a name is extended with its own sign: it has that of
the parameter, or is not narrower, or has no bits to extend it with but zeros. -/
def ExtendsOwn (consts : Constants) (declared : String → Bool) (signed : Bool) (width : Nat) :
    Expr → Prop
  | .fill _ => True
  | .conditional c t f => ∀ vc, tryConstEvalWith consts c = .ok vc →
    (vc.isTrue = true → ExtendsOwn consts declared signed width t) ∧
    (vc.isTrue = false → vc.isKnown = true → ExtendsOwn consts declared signed width f) ∧
    (vc.isTrue = false → vc.isKnown = false → MergesAlike consts declared signed width vc t f)
  | e => constExprSignedness e = none → signed ≠ ownSigned declared e →
    ∀ v, tryConstEvalWith consts e = .ok v → width ≤ v.width ∨ v.1.extension true = .zero

section Coercion

variable {consts : Constants} {declared : String → Bool} {e : Expr} {signed : Bool} {width : Nat}
  {v w : PackedVec}

theorem both_of_known {a b : Option Bool} {s x y : Bool} (h : bothSigned a b = some s)
    (hx : ∀ s, a = some s → x = s) (hy : ∀ s, b = some s → y = s) : (x && y) = s := by
  cases a with
  | none => cases h
  | some left =>
    rw [hx left rfl]
    cases left with
    | false =>
      cases h
      rfl
    | true => exact hy s h

/-- What is known of the signedness without the names is right. -/
theorem ownSigned_of_known {s : Bool} (h : constExprSignedness e = some s) :
    ownSigned declared e = s := by
  induction e generalizing s with
  | literal | signedLiteral | fill | index | partSelect | concat =>
    cases h
    rfl
  | ref => cases h
  | unary op operand ih =>
    cases op with
    | bitNot | neg | plus => exact ih h
    | logNot | reduceAnd | reduceOr | reduceXor =>
      cases h
      rfl
  | binary op l r ihl ihr =>
    cases op with
    | add | sub | mul | and | or | xor =>
      have h' : bothSigned (constExprSignedness l) (constExprSignedness r) = some s := h
      exact both_of_known h' (fun _ => ihl) fun _ => ihr
    | shl | shr | sar => exact ihl h
    | eq | neq | lt | gt | le | ge | logAnd | logOr =>
      cases h
      rfl
  | conditional c t f ihc iht ihf =>
    have h' : bothSigned (constExprSignedness t) (constExprSignedness f) = some s := h
    exact both_of_known h' (fun _ => iht) fun _ => ihf

/-- Two signednesses extend a vector alike only where nothing is added, or zeros are. -/
theorem resize_eq_iff : v.resize width true = v.resize width false ↔
    width ≤ v.width ∨ v.1.extension true = .zero := by
  constructor
  · intro h
    by_contra hno
    rw [not_or, Nat.not_le] at hno
    have hbit := congrArg (fun u => PackedVec.getBit u v.width) h
    simp only [PackedVec.getBit_resize _ _ _ hno.1, Nat.lt_irrefl, if_false] at hbit
    exact hno.2 hbit
  · exact Const.Agreement.resize_signed

/-- The expressions that are extended as a whole. -/
def isWhole : Expr → Bool
  | .fill _ | .conditional _ _ _ => false
  | _ => true

theorem atWidth_whole (hwhole : isWhole e = true)
    (h : tryConstEvalAtWidth consts e width signed = .ok v) :
    ∃ u, tryConstEvalWith consts e = .ok u ∧
      v = u.resize width ((constExprSignedness e).getD signed) ∧
      coerced consts declared e width = .ok (u.resize width (ownSigned declared e)) := by
  cases e with
  | fill | conditional => cases hwhole
  | literal u =>
    rw [tryConstEvalAtWidth] at h
    cases h
    have hself : tryConstEvalWith consts (.literal u) = .ok u := by rw [tryConstEvalWith]
    refine ⟨u, hself, rfl, ?_⟩
    show (tryConstEvalWith consts (.literal u) >>= fun _ => _) = _
    rw [hself]
    rfl
  | signedLiteral u =>
    rw [tryConstEvalAtWidth] at h
    cases h
    have hself : tryConstEvalWith consts (.signedLiteral u) = .ok u := by rw [tryConstEvalWith]
    refine ⟨u, hself, rfl, ?_⟩
    show (tryConstEvalWith consts (.signedLiteral u) >>= fun _ => _) = _
    rw [hself]
    rfl
  | _ =>
    rw [Const.Agreement.tryAtWidth_of_widthLast rfl] at h
    obtain ⟨u, hu, h⟩ := bind_eq_ok.mp h
    cases h
    refine ⟨u, hu, rfl, ?_⟩
    show (tryConstEvalWith consts _ >>= fun _ => _) = _
    rw [hu]
    rfl

theorem extendsOwn_whole (hwhole : isWhole e = true) :
    ExtendsOwn consts declared signed width e ↔
      (constExprSignedness e = none → signed ≠ ownSigned declared e →
        ∀ v, tryConstEvalWith consts e = .ok v → width ≤ v.width ∨ v.1.extension true = .zero) := by
  cases e with
  | fill | conditional => cases hwhole
  | _ => exact Iff.rfl

theorem extension_iff {u : PackedVec} (hu : tryConstEvalWith consts e = .ok u) :
    u.resize width (ownSigned declared e) =
        u.resize width ((constExprSignedness e).getD signed) ↔
      (constExprSignedness e = none → signed ≠ ownSigned declared e →
        ∀ v, tryConstEvalWith consts e = .ok v →
          width ≤ v.width ∨ v.1.extension true = .zero) := by
  have hall : (∀ v, tryConstEvalWith consts e = .ok v →
      width ≤ v.width ∨ v.1.extension true = .zero) ↔
      width ≤ u.width ∨ u.1.extension true = .zero := by
    refine ⟨fun h => h u hu, fun h v hv => ?_⟩
    cases hu.symm.trans hv
    exact h
  rw [hall, ← resize_eq_iff]
  cases hs : constExprSignedness e with
  | some s => simp [ownSigned_of_known hs]
  | none =>
    generalize ownSigned declared e = own
    cases signed <;> cases own <;> simp [eq_comm]

theorem conditional_then {c : PackedVec} (hc : c.isTrue = true) (h : v.width = w.width) :
    PackedVec.conditional c v w = v := by
  rw [PackedVec.conditional_true hc, h, Nat.max_self, ← h, PackedVec.resize_self]

theorem conditional_else {c : PackedVec} (hc : c.isTrue = false) (hknown : c.isKnown = true)
    (h : v.width = w.width) : PackedVec.conditional c v w = w := by
  rw [PackedVec.conditional_false hc hknown, h, Nat.max_self, PackedVec.resize_self]

/-- What has a value at a width has one that is coerced to it. -/
theorem coerced_of_atWidth (h : tryConstEvalAtWidth consts e width signed = .ok v) :
    ∃ w, coerced consts declared e width = .ok w ∧ w.width = width := by
  induction e generalizing v with
  | fill bit => exact ⟨_, rfl, PackedVec.width_filled bit width⟩
  | conditional c t f ihc iht ihf =>
    rw [tryConstEvalAtWidth] at h
    obtain ⟨vc, hc, h⟩ := bind_eq_ok.mp h
    obtain ⟨vt, ht, h⟩ := bind_eq_ok.mp h
    obtain ⟨vf, hf, h⟩ := bind_eq_ok.mp h
    obtain ⟨wt, hwt, hwidth⟩ := iht ht
    obtain ⟨wf, hwf, hwidth'⟩ := ihf hf
    refine ⟨.conditional vc wt wf, ?_, by
      rw [PackedVec.width_conditional, hwidth, hwidth', Nat.max_self]⟩
    rw [coerced, hc, hwt, hwf]
    rfl
  | _ =>
    obtain ⟨u, -, -, hcoerced⟩ := atWidth_whole rfl h
    exact ⟨_, hcoerced, PackedVec.width_resize _ _ _⟩

/-- At the width of a parameter the evaluator coerces an expression by its own signedness exactly
when it extends it so. -/
theorem coerced_iff (h : tryConstEvalAtWidth consts e width signed = .ok v) :
    coerced consts declared e width = .ok v ↔ ExtendsOwn consts declared signed width e := by
  induction e generalizing v with
  | fill bit =>
    rw [tryConstEvalAtWidth] at h
    cases h
    exact iff_of_true rfl trivial
  | conditional c t f ihc iht ihf =>
    rw [tryConstEvalAtWidth] at h
    obtain ⟨vc, hc, h⟩ := bind_eq_ok.mp h
    obtain ⟨vt, ht, h⟩ := bind_eq_ok.mp h
    obtain ⟨vf, hf, h⟩ := bind_eq_ok.mp h
    cases h
    obtain ⟨wt, hwt, hwidth⟩ := coerced_of_atWidth ht
    obtain ⟨wf, hwf, hwidth'⟩ := coerced_of_atWidth hf
    have hvt := width_atWidth ht
    have hvf := width_atWidth hf
    have hcoerced : coerced consts declared (.conditional c t f) width =
        .ok (.conditional vc wt wf) := by
      rw [coerced, hc, hwt, hwf]
      rfl
    have hown : ExtendsOwn consts declared signed width (.conditional c t f) ↔
        (vc.isTrue = true → ExtendsOwn consts declared signed width t) ∧
        (vc.isTrue = false → vc.isKnown = true → ExtendsOwn consts declared signed width f) ∧
        (vc.isTrue = false → vc.isKnown = false →
          MergesAlike consts declared signed width vc t f) := by
      refine ⟨fun h => h vc hc, fun h vc' hc' => ?_⟩
      cases hc.symm.trans hc'
      exact h
    rw [hcoerced, hown, ← iht ht, ← ihf hf, hwt, hwf, Except.ok.injEq, Except.ok.injEq,
      Except.ok.injEq]
    cases htrue : vc.isTrue with
    | true => simp [conditional_then htrue (hwidth.trans hwidth'.symm),
        conditional_then htrue (hvt.trans hvf.symm)]
    | false =>
      cases hknown : vc.isKnown with
      | true => simp [conditional_else htrue hknown (hwidth.trans hwidth'.symm),
          conditional_else htrue hknown (hvt.trans hvf.symm)]
      | false =>
        have hmerges : MergesAlike consts declared signed width vc t f ↔
            PackedVec.conditional vc wt wf = PackedVec.conditional vc vt vf := by
          refine ⟨fun h => (h vt vf wt wf ht hf hwt hwf).symm, fun h vt' vf' wt' wf' ht' hf' hwt'
            hwf' => ?_⟩
          cases ht.symm.trans ht'
          cases hf.symm.trans hf'
          cases hwt.symm.trans hwt'
          cases hwf.symm.trans hwf'
          exact h.symm
        simp [hmerges]
  | _ =>
    obtain ⟨u, hu, rfl, hcoerced⟩ := atWidth_whole rfl h
    rw [hcoerced, extendsOwn_whole rfl, Except.ok.injEq]
    exact extension_iff hu


end Coercion

/-! ### Overrides -/

/-- An override names a parameter or is for the one at its position. -/
abbrev Override := Option String × ConstExpr

/-- The override for a parameter, in a list that starts at a position. -/
def overrideFor (parameters : List ModuleParameter) (name : String) :
    List Override → Nat → Option ConstExpr
  | [], _ => none
  | o :: overrides, position =>
    if (overriddenParameter parameters position o.1).any (·.name = name) then some o.2
    else overrideFor parameters name overrides (position + 1)

section Overrides

variable {parameters : List ModuleParameter} {parentConsts : Constants}
  {overrides : List Override} {position : Nat} {resolved r : Names PackedVec}

theorem mem_of_overridden {name : Option String} {p : ModuleParameter}
    (h : overriddenParameter parameters position name = some p) : p ∈ parameters := by
  cases name with
  | some name => exact List.mem_of_find?_eq_some h
  | none => exact List.mem_of_getElem? h

theorem ok_of_toOption {x : Eval PackedVec} {v : PackedVec} (h : x.toOption = some v) :
    x = .ok v := by
  cases x with
  | error => cases h
  | ok =>
    cases h
    rfl

/-- One override: its parameter and its value, for a parameter that has none so far. -/
theorem resolve_cons {o : Override}
    (h : resolveOverrides parameters parentConsts (o :: overrides) position resolved = some r) :
    ∃ p v, overriddenParameter parameters position o.1 = some p ∧
      tryConstEvalAtWidth parentConsts o.2 p.width p.signed = .ok v ∧ resolved p.name = none ∧
      resolveOverrides parameters parentConsts overrides (position + 1)
        (resolved.insert p.name v) = some r := by
  obtain ⟨p, hp, h⟩ := Option.bind_eq_some_iff.mp h
  obtain ⟨v, hv, h⟩ := Option.bind_eq_some_iff.mp h
  split_ifs at h with hsome
  exact ⟨p, v, hp, ok_of_toOption hv, Option.not_isSome_iff_eq_none.mp hsome, h⟩

/-- A parameter with a value is not overridden again. -/
theorem resolve_of_some {name : String} (hsome : (resolved name).isSome = true)
    (h : resolveOverrides parameters parentConsts overrides position resolved = some r) :
    overrideFor parameters name overrides position = none ∧ r name = resolved name := by
  induction overrides generalizing position resolved with
  | nil =>
    cases h
    exact ⟨rfl, rfl⟩
  | cons o overrides ih =>
    obtain ⟨p, v, hp, -, hnone, hrest⟩ := resolve_cons h
    have hne : name ≠ p.name := by
      rintro rfl
      rw [hnone] at hsome
      cases hsome
    obtain ⟨hlater, hr⟩ := ih (by rwa [Names.insert_of_ne _ hne]) hrest
    refine ⟨?_, hr.trans (Names.insert_of_ne _ hne _)⟩
    rw [overrideFor, hp, if_neg (by simpa using hne.symm), hlater]

/-- Each parameter gets the value of its override, in the scope of the instance. -/
theorem resolve_spec (hdistinct : (parameters.map ModuleParameter.name).Nodup)
    {p : ModuleParameter} (hp : p ∈ parameters)
    (h : resolveOverrides parameters parentConsts overrides position resolved = some r) :
    (∀ e, overrideFor parameters p.name overrides position = some e →
      ∃ v, tryConstEvalAtWidth parentConsts e p.width p.signed = .ok v ∧ r p.name = some v) ∧
    (overrideFor parameters p.name overrides position = none → r p.name = resolved p.name) := by
  induction overrides generalizing position resolved with
  | nil =>
    cases h
    refine ⟨fun e he => ?_, fun _ => rfl⟩
    cases he
  | cons o overrides ih =>
    obtain ⟨q, v, hq, hv, hnone, hrest⟩ := resolve_cons h
    rw [overrideFor, hq]
    by_cases hname : q.name = p.name
    · have hsame : q = p := List.inj_on_of_nodup_map hdistinct (mem_of_overridden hq) hp hname
      subst hsame
      have hkept := (resolve_of_some (by rw [Names.insert_self]; rfl) hrest).2
      rw [Names.insert_self] at hkept
      rw [if_pos (by simp)]
      refine ⟨fun e he => ?_, fun hno => by cases hno⟩
      cases he
      exact ⟨v, hv, hkept⟩
    · rw [if_neg (by simpa using hname)]
      obtain ⟨hsome, hnone'⟩ := ih hrest
      refine ⟨hsome, fun hno => (hnone' hno).trans ?_⟩
      exact Names.insert_of_ne _ (Ne.symm hname) _

end Overrides

/-! ### Permutations and positions -/

section Forms

variable {parameters : List ModuleParameter} {parentConsts : Constants}
  {overrides overrides' : List Override} {position : Nat} {resolved : Names PackedVec}

/-- The parameter and the value of an override by name. -/
def namedEntry (parameters : List ModuleParameter) (parentConsts : Constants) (name : String)
    (e : ConstExpr) : Option (ModuleParameter × PackedVec) :=
  (parameters.find? (·.name = name)).bind fun p =>
    (Hierarchy.tryConstEvalAtWidth parentConsts e p.width p.signed).map fun v => (p, v)

theorem resolve_named (name : String) (e : ConstExpr) :
    resolveOverrides parameters parentConsts ((some name, e) :: overrides) position resolved =
      (namedEntry parameters parentConsts name e).bind fun x =>
        if (resolved x.1.name).isSome then none
        else resolveOverrides parameters parentConsts overrides (position + 1)
          (resolved.insert x.1.name x.2) := by
  rw [resolveOverrides, overriddenParameter, namedEntry]
  cases parameters.find? (·.name = name) with
  | none => rfl
  | some p =>
    simp only [Option.bind_some]
    cases Hierarchy.tryConstEvalAtWidth parentConsts e p.width p.signed <;> rfl

theorem insert_comm {name name' : String} (hne : name ≠ name') (v v' : PackedVec) :
    (resolved.insert name v).insert name' v' = (resolved.insert name' v').insert name v := by
  funext other
  unfold Names.insert
  split_ifs with h h' <;> first | rfl | exact absurd (h'.symm.trans h) hne

/-- Overrides by name, in any order. -/
theorem resolve_perm (h : overrides.Perm overrides') (hnamed : ∀ o ∈ overrides, o.1.isSome = true)
    (position : Nat) (resolved : Names PackedVec) :
    resolveOverrides parameters parentConsts overrides position resolved =
      resolveOverrides parameters parentConsts overrides' position resolved := by
  induction h generalizing position resolved with
  | nil => rfl
  | @cons o l l' _ ih =>
    obtain ⟨name, e⟩ := o
    obtain ⟨name, rfl⟩ := Option.isSome_iff_exists.mp (hnamed _ List.mem_cons_self)
    have hrest : ∀ o ∈ l, o.1.isSome = true := fun o ho => hnamed o (List.mem_cons_of_mem _ ho)
    simp only [resolve_named, ih hrest (position + 1)]
  | @swap o o' l =>
    obtain ⟨name, e⟩ := o
    obtain ⟨name', e'⟩ := o'
    obtain ⟨name, rfl⟩ := Option.isSome_iff_exists.mp
      (hnamed _ (List.mem_cons_of_mem _ List.mem_cons_self))
    obtain ⟨name', rfl⟩ := Option.isSome_iff_exists.mp (hnamed _ List.mem_cons_self)
    simp only [resolve_named]
    cases namedEntry parameters parentConsts name e with
    | none => cases namedEntry parameters parentConsts name' e' <;> simp
    | some x =>
      cases namedEntry parameters parentConsts name' e' with
      | none => simp
      | some x' =>
        simp only [Option.bind_some]
        by_cases hname : x.1.name = x'.1.name
        · simp [hname]
        · rw [Names.insert_of_ne _ hname, Names.insert_of_ne _ (Ne.symm hname), insert_comm hname]
          cases (resolved x.1.name).isSome <;> cases (resolved x'.1.name).isSome <;> rfl
  | trans h _ ih ih' =>
    exact (ih hnamed position resolved).trans
      (ih' (fun o ho => hnamed o (h.mem_iff.mpr ho)) position resolved)

theorem find_name (hdistinct : (parameters.map ModuleParameter.name).Nodup) {p : ModuleParameter}
    (hp : p ∈ parameters) : parameters.find? (·.name = p.name) = some p := by
  have hfound : (parameters.find? (·.name = p.name)).isSome = true :=
    List.find?_isSome.mpr ⟨p, hp, decide_eq_true rfl⟩
  obtain ⟨q, hq⟩ := Option.isSome_iff_exists.mp hfound
  have hname : q.name = p.name := by simpa using List.find?_some hq
  rw [hq, List.inj_on_of_nodup_map hdistinct (List.mem_of_find?_eq_some hq) hp hname]

/-- Overrides by position are those of the names at the positions. -/
theorem resolve_positional (hdistinct : (parameters.map ModuleParameter.name).Nodup)
    (values : List ConstExpr) (hlength : position + values.length ≤ parameters.length) :
    resolveOverrides parameters parentConsts (values.map fun e => (none, e)) position resolved =
      resolveOverrides parameters parentConsts
        ((((parameters.map ModuleParameter.name).drop position).zip values).map fun x =>
          (some x.1, x.2)) position resolved := by
  induction values generalizing position resolved with
  | nil => simp
  | cons e values ih =>
    have hlt : position < parameters.length := by
      rw [List.length_cons] at hlength
      omega
    have hdrop : (parameters.map ModuleParameter.name).drop position =
        parameters[position].name :: (parameters.map ModuleParameter.name).drop (position + 1) := by
      rw [List.drop_eq_getElem_cons (by simpa using hlt), List.getElem_map]
    have hfind := find_name hdistinct (List.getElem_mem hlt)
    rw [hdrop, List.zip_cons_cons, List.map_cons, List.map_cons, resolveOverrides,
      resolveOverrides, overriddenParameter, overriddenParameter, hfind,
      List.getElem?_eq_getElem hlt]
    simp only [Option.bind_some]
    have hrest : position + 1 + values.length ≤ parameters.length := by
      rw [List.length_cons] at hlength
      omega
    simp only [ih hrest]

end Forms

/-! ### Binding -/

/-- The scope of the default of a parameter: the parameters before it, with their final values, and
what was there before. -/
def earlier (parameters : List ModuleParameter) (k : Nat) (consts base : Constants) : Constants :=
  fun name => if name ∈ (parameters.take k).map ModuleParameter.name then consts name else base name

section Binding

variable {parameters done : List ModuleParameter} {p : ModuleParameter}
  {resolved : Names PackedVec} {scope consts base : Constants}

theorem bind_cons (h : bindParameters resolved (p :: parameters) scope = some consts) :
    ∃ v, (resolved p.name).or
        (Hierarchy.tryConstEvalAtWidth scope p.default p.width p.signed) = some v ∧
      bindParameters resolved parameters
        (Names.insert scope p.name (v.resize p.width p.signed)) = some consts :=
  Option.bind_eq_some_iff.mp h

/-- Only parameters are bound. -/
theorem bind_other {name : String} (hname : name ∉ parameters.map ModuleParameter.name)
    (h : bindParameters resolved parameters scope = some consts) : consts name = scope name := by
  induction parameters generalizing scope with
  | nil =>
    cases h
    rfl
  | cons p parameters ih =>
    obtain ⟨v, -, hrest⟩ := bind_cons h
    rw [List.map_cons, List.mem_cons, not_or] at hname
    rw [ih hname.2 hrest, Names.insert_of_ne _ hname.1]

theorem bind_value (hdistinct : ((done ++ parameters).map ModuleParameter.name).Nodup)
    (hscope : ∀ name, name ∉ done.map ModuleParameter.name → scope name = base name)
    (h : bindParameters resolved parameters scope = some consts) {k : Nat}
    (hk : parameters[k]? = some p) :
    ∃ v, (resolved p.name).or (Hierarchy.tryConstEvalAtWidth
        (earlier (done ++ parameters) (done.length + k) consts base) p.default p.width
        p.signed) = some v ∧
      consts p.name = some (v.resize p.width p.signed) := by
  induction parameters generalizing done scope k with
  | nil => cases hk
  | cons q parameters ih =>
    obtain ⟨v, hv, hrest⟩ := bind_cons h
    have hdisjoint : ∀ name ∈ done.map ModuleParameter.name,
        name ∉ (q :: parameters).map ModuleParameter.name := by
      rw [List.map_append] at hdistinct
      exact fun name hname hname' => (List.nodup_append.mp hdistinct).2.2 name hname name hname' rfl
    have hlater : q.name ∉ parameters.map ModuleParameter.name := by
      rw [List.map_append, List.map_cons] at hdistinct
      exact (List.nodup_cons.mp (List.nodup_append.mp hdistinct).2.1).1
    cases k with
    | zero =>
      cases hk
      have hsame : earlier (done ++ p :: parameters) done.length consts base = scope := by
        funext name
        unfold earlier
        rw [List.take_left']
        · split_ifs with hname
          · exact bind_other (hdisjoint name hname) h
          · exact (hscope name hname).symm
        · rfl
      refine ⟨v, by rw [Nat.add_zero, hsame, hv], ?_⟩
      rw [bind_other hlater hrest, Names.insert_self]
    | succ k =>
      have happend : done ++ q :: parameters = (done ++ [q]) ++ parameters := by simp
      have hlength : done.length + (k + 1) = (done ++ [q]).length + k := by
        rw [List.length_append, List.length_singleton]
        omega
      rw [happend, hlength]
      rw [happend] at hdistinct
      refine ih hdistinct (fun name hname => ?_) hrest hk
      rw [List.map_append, List.mem_append, not_or, List.map_singleton, List.mem_singleton] at hname
      rw [Names.insert_of_ne _ hname.2, hscope name hname.1]

end Binding

/-! ### Instances -/

section Instances

variable {E : Type}

/-- What is instantiated: a module that no other instantiates, or an instance among the items of a
module or a generate block, with its overrides and the scope of these. -/
inductive Instantiated (d : Design E) : Module E → List Override → Constants → Prop
  | root {m : Module E} (hm : m ∈ d.modules) (hroot : m.name ∉ d.instantiated) :
    Instantiated d m [] d.consts
  | child {parent : Region E} {i : ModuleInstance} {m : Module E} (h : Elaborated d parent)
    (hitem : .instance i ∈ parent.items) (hchild : d.module i.moduleName = some m) :
    Instantiated d m i.parameters parent.consts

/-- The scopes in a module: its parameters, and variables of generate loops over these. -/
inductive InScope (d : Design E) (m : Module E) : Constants → Prop
  | parameters {overrides : List Override} {parentConsts consts : Constants}
    (h : bindModuleParameters m overrides parentConsts d.consts = some consts) :
    InScope d m consts
  | genvar {consts : Constants} {name : String} {value : PackedVec} (h : InScope d m consts) :
    InScope d m (Names.insert consts name value)

section

-- the signednesses that the names of the two scopes are declared with
variable (parameters : List ModuleParameter) (overrides : List Override) (parentConsts : Constants)
  (parentSigned childSigned : String → Bool)

/-- The value that a parameter is to have: that of its override in the scope of the instance, or of
its default in a scope of the child, coerced to its width. -/
def givenValue (scope : Constants) (p : ModuleParameter) : Option PackedVec :=
  ((overrideFor parameters p.name overrides 0).elim (coerced scope childSigned p.default p.width)
    fun e => coerced parentConsts parentSigned e p.width).toOption

/-- Every override, and every default that is not overridden, is extended with its own sign. -/
def KeepsSigns : List ModuleParameter → Constants → Prop
  | [], _ => True
  | p :: rest, scope =>
    ((overrideFor parameters p.name overrides 0).elim
      (ExtendsOwn scope childSigned p.signed p.width p.default)
      (ExtendsOwn parentConsts parentSigned p.signed p.width)) ∧
    ∀ v, givenValue parameters overrides parentConsts parentSigned childSigned scope p = some v →
      KeepsSigns rest (Names.insert scope p.name v)

end

/-- How the constants of an instance are to be bound. -/
structure BindsHygienically (d : Design E) (m : Module E) (overrides : List Override)
    (parentConsts consts : Constants) (parentSigned childSigned : String → Bool) : Prop where
  /-- The overrides are evaluated in a scope of the parent. -/
  scope : overrides = [] ∨ ∃ parent, Elaborated d parent ∧ parent.consts = parentConsts ∧
    InScope d parent.m parentConsts
  values : ∀ k p, m.parameters[k]? = some p → consts p.name =
    givenValue m.parameters overrides parentConsts parentSigned childSigned
      (earlier m.parameters k consts d.consts) p
  /-- Other names mean in the child what they mean in the packages. -/
  others : ∀ name, name ∉ m.parameters.map ModuleParameter.name → consts name = d.consts name
  permuted : ∀ overrides', (∀ o ∈ overrides, o.1.isSome = true) → overrides.Perm overrides' →
    bindModuleParameters m overrides' parentConsts d.consts = some consts
  positional : ∀ values : List ConstExpr, overrides = values.map (fun e => (none, e)) →
    bindModuleParameters m (((m.parameters.map ModuleParameter.name).zip values).map fun x =>
      (some x.1, x.2)) parentConsts d.consts = some consts
  /-- The ports are bound, and the items elaborated, with the same constants. -/
  ports : ∀ (path : List String) (scope : Scope) (i : ModuleInstance) (task : Instantiation.Task E),
    d.module i.moduleName = some m → i.parameters = overrides →
    instanceTask d path scope parentConsts i = some task →
    ∃ bindings, task = .instance m (path ++ [i.name]) bindings overrides parentConsts ∧
      bindInstancePorts m.ports scope consts i.connections 0 .empty = some bindings ∧
      ∀ inside, some inside ∈ subtasks d task →
        ∃ scope', inside = .items m false (path ++ [i.name]) scope' consts m.items

theorem inScope_of_elaborated {d : Design E} {r : Region E} (h : Elaborated d r) :
    InScope d r.m r.consts := by
  induction h with
  | root _ _ hconsts _ => exact .parameters hconsts
  | «instance» _ _ _ hconsts _ _ _ => exact .parameters hconsts
  | generate _ _ hselected _ ih =>
    cases hselected with
    | iteration => exact ih.genvar
    | _ => exact ih

section

variable {d : Design E} {m : Module E} {overrides : List Override}
  {parentConsts consts : Constants} {parentSigned childSigned : String → Bool}

theorem scope_of_instantiated (h : Instantiated d m overrides parentConsts) :
    overrides = [] ∨ ∃ parent, Elaborated d parent ∧ parent.consts = parentConsts ∧
      InScope d parent.m parentConsts := by
  cases h with
  | root => exact .inl rfl
  | child h => exact .inr ⟨_, h, rfl, inScope_of_elaborated h⟩

theorem length_of_positional {parameters : List ModuleParameter} {resolved r : Names PackedVec}
    {position : Nat} (hposition : position ≤ parameters.length) {values : List ConstExpr}
    (h : resolveOverrides parameters parentConsts (values.map fun e => (none, e)) position
      resolved = some r) : position + values.length ≤ parameters.length := by
  induction values generalizing position resolved with
  | nil => exact hposition
  | cons e values ih =>
    obtain ⟨p, v, hp, -, -, hrest⟩ := resolve_cons h
    have hlt : position < parameters.length := (List.getElem?_eq_some_iff.mp hp).1
    have hlength := ih hlt hrest
    rw [List.length_cons]
    omega

variable (hconsts : bindModuleParameters m overrides parentConsts d.consts = some consts)
include hconsts

theorem bind_permuted {overrides' : List Override} (hnamed : ∀ o ∈ overrides, o.1.isSome = true)
    (h : overrides.Perm overrides') :
    bindModuleParameters m overrides' parentConsts d.consts = some consts := by
  unfold bindModuleParameters at hconsts ⊢
  rwa [← resolve_perm h hnamed]

theorem bind_ports {path : List String} {scope : Scope} {i : ModuleInstance}
    {task : Instantiation.Task E} (hchild : d.module i.moduleName = some m)
    (hparameters : i.parameters = overrides)
    (htask : instanceTask d path scope parentConsts i = some task) :
    ∃ bindings, task = .instance m (path ++ [i.name]) bindings overrides parentConsts ∧
      bindInstancePorts m.ports scope consts i.connections 0 .empty = some bindings ∧
      ∀ inside, some inside ∈ subtasks d task →
        ∃ scope', inside = .items m false (path ++ [i.name]) scope' consts m.items := by
  subst hparameters
  obtain ⟨child, hchild', h⟩ := Option.bind_eq_some_iff.mp htask
  cases hchild.symm.trans hchild'
  obtain ⟨consts', hconsts', h⟩ := Option.bind_eq_some_iff.mp h
  cases hconsts.symm.trans hconsts'
  obtain ⟨bindings, hbindings, rfl⟩ := Option.map_eq_some_iff.mp h
  refine ⟨bindings, rfl, hbindings, fun inside hinside => ?_⟩
  rw [subtasks, hconsts] at hinside
  dsimp only at hinside
  split at hinside
  · simp at hinside
  · cases List.mem_singleton.mp hinside
    exact ⟨_, rfl⟩

variable (hdistinct : (m.parameters.map ModuleParameter.name).Nodup)
include hdistinct

theorem bind_positional {values : List ConstExpr}
    (h : overrides = values.map fun e => (none, e)) :
    bindModuleParameters m (((m.parameters.map ModuleParameter.name).zip values).map fun x =>
      (some x.1, x.2)) parentConsts d.consts = some consts := by
  subst h
  obtain ⟨resolved, hresolved, -⟩ := Option.bind_eq_some_iff.mp hconsts
  have hlength := length_of_positional (Nat.zero_le _) hresolved
  unfold bindModuleParameters at hconsts ⊢
  rw [resolve_positional hdistinct values hlength] at hconsts
  exact hconsts

/-- What a parameter is bound to: its override at its width, or else its default. -/
theorem bound_value {k : Nat} {p : ModuleParameter} (hk : m.parameters[k]? = some p) :
    ∃ v, consts p.name = some v ∧
      (∀ e, overrideFor m.parameters p.name overrides 0 = some e →
        tryConstEvalAtWidth parentConsts e p.width p.signed = .ok v) ∧
      (overrideFor m.parameters p.name overrides 0 = none →
        tryConstEvalAtWidth (earlier m.parameters k consts d.consts) p.default p.width p.signed =
          .ok v) := by
  obtain ⟨resolved, hresolved, hbind⟩ := Option.bind_eq_some_iff.mp hconsts
  have hvalue := @bind_value m.parameters [] p resolved d.consts consts d.consts hdistinct
    (fun _ _ => rfl) hbind k hk
  rw [List.nil_append, List.length_nil, Nat.zero_add] at hvalue
  obtain ⟨v, hv, hp⟩ := hvalue
  obtain ⟨hsome, hnone⟩ := resolve_spec hdistinct (List.mem_of_getElem? hk) hresolved
  cases ho : overrideFor m.parameters p.name overrides 0 with
  | some e =>
    obtain ⟨u, hu, hr⟩ := hsome e ho
    rw [hr] at hv
    cases hv
    rw [PackedVec.resize_of_width_eq (width_atWidth hu)] at hp
    refine ⟨_, hp, fun e' he' => ?_, fun hno => ?_⟩
    · cases he'
      exact hu
    · cases hno
  | none =>
    have hr : resolved p.name = none := hnone ho
    rw [hr] at hv
    have hok := ok_of_toOption hv
    rw [PackedVec.resize_of_width_eq (width_atWidth hok)] at hp
    refine ⟨v, hp, fun e he => ?_, fun _ => hok⟩
    cases he

omit hconsts hdistinct in
theorem earlier_zero : earlier m.parameters 0 consts d.consts = d.consts := by
  funext name
  exact if_neg (by simp)

omit hconsts hdistinct in
/-- The scope after a parameter. -/
theorem earlier_succ {k : Nat} {p : ModuleParameter} {v : PackedVec}
    (hk : m.parameters[k]? = some p) (hp : consts p.name = some v) :
    earlier m.parameters (k + 1) consts d.consts =
      Names.insert (earlier m.parameters k consts d.consts) p.name v := by
  funext name
  have hmem : name ∈ (m.parameters.take (k + 1)).map ModuleParameter.name ↔
      name ∈ (m.parameters.take k).map ModuleParameter.name ∨ name = p.name := by
    rw [List.take_add_one, hk, Option.toList_some, List.map_append, List.map_singleton,
      List.mem_append, List.mem_singleton]
  unfold earlier Names.insert
  by_cases hname : name = p.name
  · rw [if_pos (hmem.mpr (.inr hname)), if_pos hname, hname, hp]
  · simp only [hmem, hname, or_false, if_false]

/-- A parameter has its given value exactly when that is extended with its own sign. -/
theorem givenValue_iff {k : Nat} {p : ModuleParameter} (hk : m.parameters[k]? = some p) :
    consts p.name = givenValue m.parameters overrides parentConsts parentSigned childSigned
        (earlier m.parameters k consts d.consts) p ↔
      (overrideFor m.parameters p.name overrides 0).elim
        (ExtendsOwn (earlier m.parameters k consts d.consts) childSigned p.signed p.width p.default)
        (ExtendsOwn parentConsts parentSigned p.signed p.width) := by
  obtain ⟨v, hv, hsome, hnone⟩ := bound_value hconsts hdistinct hk
  rw [hv, givenValue]
  cases ho : overrideFor m.parameters p.name overrides 0 with
  | some e =>
    have hok := hsome e ho
    obtain ⟨w, hw, -⟩ := @coerced_of_atWidth _ parentSigned _ _ _ _ hok
    have hiff := @coerced_iff _ parentSigned _ _ _ _ hok
    simp only [Option.elim_some]
    rw [← hiff, hw]
    simp [Except.toOption, eq_comm]
  | none =>
    have hok := hnone ho
    obtain ⟨w, hw, -⟩ := @coerced_of_atWidth _ childSigned _ _ _ _ hok
    have hiff := @coerced_iff _ childSigned _ _ _ _ hok
    simp only [Option.elim_none]
    rw [← hiff, hw]
    simp [Except.toOption, eq_comm]

/-- All parameters from one on have their given values exactly when signs are kept. -/
theorem values_iff {rest : List ModuleParameter} {k : Nat} (hrest : m.parameters.drop k = rest) :
    (∀ j p, k ≤ j → m.parameters[j]? = some p → consts p.name =
        givenValue m.parameters overrides parentConsts parentSigned childSigned
          (earlier m.parameters j consts d.consts) p) ↔
      KeepsSigns m.parameters overrides parentConsts parentSigned childSigned rest
        (earlier m.parameters k consts d.consts) := by
  induction rest generalizing k with
  | nil =>
    have hlength : m.parameters.length ≤ k := List.drop_eq_nil_iff.mp hrest
    refine iff_of_true (fun j p hj hp => ?_) trivial
    have hlt := (List.getElem?_eq_some_iff.mp hp).1
    omega
  | cons p rest ih =>
    have hk : m.parameters[k]? = some p := by
      rw [← List.head?_drop, hrest, List.head?_cons]
    have hrest' : m.parameters.drop (k + 1) = rest := by
      rw [← List.tail_drop, hrest, List.tail_cons]
    obtain ⟨v, hv, -⟩ := bound_value hconsts hdistinct hk
    rw [KeepsSigns, ← givenValue_iff hconsts hdistinct hk]
    have hscope := @earlier_succ E d m consts k p v hk hv
    constructor
    · intro h
      have hp := h k p le_rfl hk
      refine ⟨hp, fun w hw => ?_⟩
      rw [← hp, hv] at hw
      cases hw
      rw [← hscope]
      exact (ih hrest').mp fun j q hj => h j q (Nat.le_of_succ_le hj)
    · rintro ⟨hp, hlater⟩ j q hj hq
      rcases Nat.lt_or_eq_of_le hj with hlt | rfl
      · have hkeeps := hlater v (hp.symm.trans hv)
        rw [← hscope] at hkeeps
        exact (ih hrest').mpr hkeeps j q hlt hq
      · cases hk.symm.trans hq
        exact hp

end

/-- The parameters of every instance are bound hygienically exactly when each override, and each
default that counts, is extended with its own sign. -/
theorem parameters_bind_iff {d : Design E} {m : Module E} {overrides : List Override}
    {parentConsts consts : Constants} (parentSigned childSigned : String → Bool)
    (h : Instantiated d m overrides parentConsts)
    (hdistinct : (m.parameters.map ModuleParameter.name).Nodup)
    (hconsts : bindModuleParameters m overrides parentConsts d.consts = some consts) :
    BindsHygienically d m overrides parentConsts consts parentSigned childSigned ↔
      KeepsSigns m.parameters overrides parentConsts parentSigned childSigned m.parameters
        d.consts := by
  have hvalues := @values_iff E d m overrides parentConsts consts parentSigned childSigned hconsts
    hdistinct m.parameters 0 List.drop_zero
  rw [earlier_zero] at hvalues
  rw [← hvalues]
  constructor
  · exact fun hbinds j p _ => hbinds.values j p
  · intro hgiven
    obtain ⟨resolved, -, hbind⟩ := Option.bind_eq_some_iff.mp hconsts
    exact ⟨scope_of_instantiated h, fun k p => hgiven k p (Nat.zero_le k),
      fun name hname => bind_other hname hbind, fun _ => bind_permuted hconsts,
      fun _ => bind_positional hconsts hdistinct, fun _ _ _ _ => bind_ports hconsts⟩

end Instances

/-! ### An unsigned parameter that overrides a signed one -/

def childModule : Module Unit := ⟨"child", [⟨"Q", 8, true, .literal (.zero 8)⟩], [], []⟩

def instanceC : ModuleInstance := ⟨"child", "c", [(some "Q", .ref "P")], []⟩

/-- The parent has a parameter of 4 bits, without a sign. -/
def parentModule (value : BitVec 64) : Module Unit :=
  ⟨"parent", [⟨"P", 4, false, .literal (.fromU64 value 4)⟩], [], [.instance instanceC]⟩

def overriding (value : BitVec 64) : Design Unit where
  modules := [parentModule value, childModule]
  consts := Names.empty
  globals _ := false

/-- The scope of the instance. -/
def parentScope (value : BitVec 64) : Constants :=
  Names.insert Names.empty "P" (.fromU64 value 4)

/-- The constants in the instance. -/
def childConsts (value : BitVec 64) : Constants :=
  Names.insert Names.empty "Q" ((PackedVec.fromU64 value 4).resize 8 true)

def declaredP (_ : String) : Bool := false

def declaredQ (_ : String) : Bool := true

theorem literal_atWidth (consts : Constants) (v : PackedVec) (width : Nat) (signed : Bool) :
    Hierarchy.tryConstEvalAtWidth consts (.literal v) width signed =
      some (v.resize width false) := by
  unfold Hierarchy.tryConstEvalAtWidth
  rw [tryConstEvalAtWidth]
  rfl

theorem ref_atWidth {consts : Constants} {name : String} {v : PackedVec}
    (h : consts name = some v) (width : Nat) (signed : Bool) :
    tryConstEvalAtWidth consts (.ref name) width signed = .ok (v.resize width signed) := by
  rw [Const.Agreement.tryAtWidth_of_widthLast rfl, tryConstEvalWith, Constants.get, h]
  rfl

theorem instantiated_child (value : BitVec 64) :
    Instantiated (overriding value) childModule [(some "Q", .ref "P")] (parentScope value) := by
  have hbind : bindModuleParameters (parentModule value) [] Names.empty Names.empty =
      some (parentScope value) := by
    simp [bindModuleParameters, resolveOverrides, bindParameters, parentModule, parentScope,
      literal_atWidth, PackedVec.resize_of_width_eq, Names.empty]
  have hroot : Elaborated (overriding value)
      ⟨parentModule value, false, [], parentScope value, .empty, (parentModule value).items⟩ := by
    refine .root List.mem_cons_self ?_ hbind rfl
    show "parent" ∉ ["child"]
    decide
  exact .child (i := instanceC) hroot List.mem_cons_self rfl

theorem bind_child (value : BitVec 64) :
    bindModuleParameters childModule [(some "Q", .ref "P")] (parentScope value) Names.empty =
      some (childConsts value) := by
  have hP : parentScope value "P" = some (.fromU64 value 4) := Names.insert_self _ _ _
  simp [bindModuleParameters, resolveOverrides, bindParameters, childModule, childConsts,
    overriddenParameter, Hierarchy.tryConstEvalAtWidth, ref_atWidth hP, Except.toOption,
    Names.empty, PackedVec.resize_of_width_eq]

theorem distinct_child : (childModule.parameters.map ModuleParameter.name).Nodup := by decide

/-- A parent's parameter without a sign in its top bit. -/
theorem parameters_bind_seven : BindsHygienically (overriding 7) childModule
    [(some "Q", .ref "P")] (parentScope 7) (childConsts 7) declaredP declaredQ := by
  refine (parameters_bind_iff declaredP declaredQ (instantiated_child 7) distinct_child
    (bind_child 7)).mpr ⟨?_, fun _ _ => trivial⟩
  intro _ _ v hv
  have hP : parentScope 7 "P" = some (.fromU64 7 4) := Names.insert_self _ _ _
  rw [tryConstEvalWith, Constants.get, hP] at hv
  cases hv
  exact .inr (by decide)

/-- The unsigned 15 of the parent becomes -1 in the child. -/
theorem unsigned_override_negative :
    childConsts 15 "Q" = some (.fromU64 255 8) ∧
      ¬ BindsHygienically (overriding 15) childModule [(some "Q", .ref "P")] (parentScope 15)
        (childConsts 15) declaredP declaredQ := by
  have hQ : childConsts 15 "Q" = some ((PackedVec.fromU64 15 4).resize 8 true) :=
    Names.insert_self _ _ _
  have hP : parentScope 15 "P" = some (.fromU64 15 4) := Names.insert_self _ _ _
  refine ⟨hQ.trans (congrArg some (Subtype.ext (by decide))), fun h => ?_⟩
  have hvalue := h.values 0 _ rfl
  have hself : tryConstEvalWith (parentScope 15) (.ref "P") = .ok (.fromU64 15 4) := by
    rw [tryConstEvalWith, Constants.get, hP]
  have hgiven : givenValue childModule.parameters [(some "Q", .ref "P")] (parentScope 15)
      declaredP declaredQ (earlier childModule.parameters 0 (childConsts 15) Names.empty)
      ⟨"Q", 8, true, .literal (.zero 8)⟩ = some ((PackedVec.fromU64 15 4).resize 8 false) := by
    show (tryConstEvalWith (parentScope 15) (.ref "P") >>= fun _ => _).toOption = _
    rw [hself]
    rfl
  have hsame := congrArg (Option.map PackedVec.toU64) (hQ.symm.trans (hvalue.trans hgiven))
  exact absurd hsame (by decide)

end Eevee.Elab.Parameters
