/- A specialization has its formals replaced exactly when its template uses them only where the
traversal of its body looks, and hides none of them there. -/

import Eevee.Classes.Substitution

set_option autoImplicit false
set_option relaxedAutoImplicit false

namespace Eevee.Classes.Formals

open Eevee.Ast.Classes
open Eevee.Classes.Declarations (TypeRef TypeAlias CollectionAlias ParamDecl)
open Eevee.Classes.Defaults
open Eevee.Classes.Occurrences
open Eevee.Classes.Specialization
open Eevee.Classes.Substitution
open Eevee.Lib.Tables

/-! ### What the traversal gets wrong -/

def Unbound (ctx : SubstCtx) (name : String) : Prop :=
  ctx.valueBindings name = none ∧ ctx.bindings name = none

/-- References to a formal without argument or to what hides a bound one, and types that stand for
the name of a formal or, behind their scopes, for another class than the traversal finds. -/
def strays (env : Env) (ctx : SubstCtx) (visible : String → Prop) : Marks where
  ref name := visible name ↔ Unbound ctx name
  type tr := ∃ s, Denotes env ctx tr s ∧ (visible s ∨ ¬ TypeBecomes env ctx visible tr (.mk s []))

/-- The resolution finds the class that a type reference stands for. -/
def Resolves (env : Env) (ctx : SubstCtx) (resolve : TypeRef → Build String) : Prop :=
  ∀ tr s m m', resolve tr m = some (s, m') → Denotes env ctx tr s

section

variable {a b r r' p : Prop} {before before' : Prop}

private theorem and_rest (hp : p) (h : ¬ a ∧ r ↔ ¬ before) : ¬ a ∧ p ∧ r ↔ ¬ before := by
  rw [and_iff_right hp, h]

private theorem both (h : ¬ a ∧ r ↔ ¬ before) (h' : ¬ b ∧ r' ↔ ¬ before') :
    ¬ (a ∨ b) ∧ r ∧ r' ↔ ¬ (before ∨ before') := by
  rw [not_or, not_or, ← h, ← h']
  exact and_and_and_comm

private theorem kept (h : ¬ a → r) : ¬ a ∧ r ↔ ¬ a := and_iff_left_of_imp h

private theorem nothing : ¬ False ∧ True ↔ ¬ False := iff_of_true ⟨not_false, trivial⟩ not_false

end

/-- A type that writes formals only where they are visible and bound goes astray by its name. -/
theorem strays_type_iff {env : Env} {ctx : SubstCtx} {visible : String → Prop} {tr : TypeRef}
    (h : typeScoped ctx visible tr) :
    (strays env ctx visible).type tr ↔ ∃ s, Denotes env ctx tr s ∧ visible s := by
  constructor
  · rintro ⟨s, hs, hname | hbecomes⟩
    · exact ⟨s, hs, hname⟩
    · exact absurd (.class (means_of_denotes tr hs h)) hbecomes
  · rintro ⟨s, hs, hname⟩
    exact ⟨s, hs, .inl hname⟩

private theorem argument_iff {ctx : SubstCtx} {visible : String → Prop} {name : String} {e : Expr}
    (he : Argument ctx name e) :
    ¬ inExpr (mentions visible) e ∧ RefBecomes ctx visible name e ↔
      ¬ (visible name ↔ Unbound ctx name) := by
  have hbound : ¬ Unbound ctx name := by
    rintro ⟨hval, htype⟩
    cases he with
    | value h _ => exact Option.some_ne_none _ (h.symm.trans hval)
    | type _ h => exact Option.some_ne_none _ (h.symm.trans htype)
  have hmentions : ¬ inExpr (mentions visible) e := by
    cases he with
    | value _ h => cases h <;> exact not_false
    | type _ _ => exact not_false
  rw [iff_false_right hbound, not_not, and_iff_right hmentions]
  refine ⟨fun h => ?_, fun h => .formal h he⟩
  cases h with
  | formal hname _ => exact hname
  | other _ =>
    cases he with
    | value _ h => cases h

section

variable {env : Env} {ctx : SubstCtx} {resolve : TypeRef → Build String} {visible : String → Prop}

theorem resolved_iff (hresolve : Resolves env ctx resolve) {tr : TypeRef} {s : String} {m m' : Mono}
    (h : resolve tr m = some (s, m')) :
    ¬ (mentions visible).type (.mk s []) ∧ TypeBecomes env ctx visible tr (.mk s []) ↔
      ¬ (strays env ctx visible).type tr := by
  have hs := hresolve tr s m m' h
  constructor
  · rintro ⟨hname, hbecomes⟩ ⟨s', hs', h'⟩
    cases hs.unique hs'
    rcases h' with h' | h'
    · exact hname (.inl h')
    · exact h' hbecomes
  · intro hstray
    refine ⟨?_, ?_⟩
    · rintro (h' | h')
      · exact hstray ⟨s, hs, .inl h'⟩
      · exact h'
    · by_contra hbecomes
      exact hstray ⟨s, hs, .inr hbecomes⟩

mutual

/-- A substituted expression is right where nothing of the original one goes astray. -/
theorem substExpr_iff (hresolve : Resolves env ctx resolve) (e : Expr) {e' : Expr} {m m' : Mono}
    (h : substExpr resolve ctx e m = some (e', m')) :
    ¬ inExpr (mentions visible) e' ∧ exprBecomes env ctx visible e e' ↔
      ¬ inExpr (strays env ctx visible) e := by
  cases e with
  | ref name =>
    cases hval : ctx.valueBindings name with
    | some val =>
      simp only [substExpr, hval] at h
      obtain ⟨rfl, -⟩ := pure_eq_some.mp h
      exact argument_iff (.value hval (rendered_valueToExpr val))
    | none =>
      cases htype : ctx.bindings name with
      | some typeName =>
        simp only [substExpr, hval, htype] at h
        obtain ⟨rfl, -⟩ := pure_eq_some.mp h
        exact argument_iff (.type hval htype)
      | none =>
        simp only [substExpr, hval, htype] at h
        obtain ⟨rfl, -⟩ := pure_eq_some.mp h
        have hunbound : Unbound ctx name := ⟨hval, htype⟩
        refine (kept (exprBecomes_self _)).trans (not_congr ?_)
        exact (iff_true_right hunbound).symm
  | unary op operand =>
    unfold substExpr at h
    obtain ⟨operand', _, hoperand, h⟩ := bind_eq_some.mp h
    obtain ⟨rfl, -⟩ := pure_eq_some.mp h
    exact and_rest rfl (substExpr_iff hresolve operand hoperand)
  | binary op lhs rhs =>
    unfold substExpr at h
    obtain ⟨lhs', _, hlhs, h⟩ := bind_eq_some.mp h
    obtain ⟨rhs', _, hrhs, h⟩ := bind_eq_some.mp h
    obtain ⟨rfl, -⟩ := pure_eq_some.mp h
    exact and_rest rfl (both (substExpr_iff hresolve lhs hlhs) (substExpr_iff hresolve rhs hrhs))
  | conditional condition whenTrue whenFalse =>
    unfold substExpr at h
    obtain ⟨condition', _, hcondition, h⟩ := bind_eq_some.mp h
    obtain ⟨whenTrue', _, htrue, h⟩ := bind_eq_some.mp h
    obtain ⟨whenFalse', _, hfalse, h⟩ := bind_eq_some.mp h
    obtain ⟨rfl, -⟩ := pure_eq_some.mp h
    exact both (substExpr_iff hresolve condition hcondition)
      (both (substExpr_iff hresolve whenTrue htrue) (substExpr_iff hresolve whenFalse hfalse))
  | call name args =>
    unfold substExpr at h
    obtain ⟨args', _, hargs, h⟩ := bind_eq_some.mp h
    obtain ⟨rfl, -⟩ := pure_eq_some.mp h
    exact and_rest rfl (substExprs_iff hresolve args hargs)
  | field obj field =>
    unfold substExpr at h
    obtain ⟨obj', _, hobj, h⟩ := bind_eq_some.mp h
    obtain ⟨rfl, -⟩ := pure_eq_some.mp h
    exact and_rest rfl (substExpr_iff hresolve obj hobj)
  | methodCall obj method args =>
    unfold substExpr at h
    obtain ⟨obj', _, hobj, h⟩ := bind_eq_some.mp h
    obtain ⟨args', _, hargs, h⟩ := bind_eq_some.mp h
    obtain ⟨rfl, -⟩ := pure_eq_some.mp h
    exact and_rest rfl (both (substExpr_iff hresolve obj hobj) (substExprs_iff hresolve args hargs))
  | staticCall className classArgs method args =>
    unfold substExpr at h
    obtain ⟨resolved, _, hclass, h⟩ := bind_eq_some.mp h
    obtain ⟨args', _, hargs, h⟩ := bind_eq_some.mp h
    obtain ⟨rfl, -⟩ := pure_eq_some.mp h
    exact and_rest rfl (both (resolved_iff hresolve hclass) (substExprs_iff hresolve args hargs))
  | staticRef className field =>
    unfold substExpr at h
    obtain ⟨resolved, _, hclass, h⟩ := bind_eq_some.mp h
    obtain ⟨rfl, -⟩ := pure_eq_some.mp h
    exact and_rest rfl (resolved_iff hresolve hclass)
  | index base index =>
    unfold substExpr at h
    obtain ⟨base', _, hbase, h⟩ := bind_eq_some.mp h
    obtain ⟨index', _, hindex, h⟩ := bind_eq_some.mp h
    obtain ⟨rfl, -⟩ := pure_eq_some.mp h
    exact both (substExpr_iff hresolve base hbase) (substExpr_iff hresolve index hindex)
  | partSelect base left right =>
    unfold substExpr at h
    obtain ⟨base', _, hbase, h⟩ := bind_eq_some.mp h
    obtain ⟨left', _, hleft, h⟩ := bind_eq_some.mp h
    obtain ⟨right', _, hright, h⟩ := bind_eq_some.mp h
    obtain ⟨rfl, -⟩ := pure_eq_some.mp h
    exact both (substExpr_iff hresolve base hbase)
      (both (substExpr_iff hresolve left hleft) (substExpr_iff hresolve right hright))
  | new args =>
    unfold substExpr at h
    obtain ⟨args', _, hargs, h⟩ := bind_eq_some.mp h
    obtain ⟨rfl, -⟩ := pure_eq_some.mp h
    exact substExprs_iff hresolve args hargs
  | concat parts =>
    unfold substExpr at h
    obtain ⟨parts', _, hparts, h⟩ := bind_eq_some.mp h
    obtain ⟨rfl, -⟩ := pure_eq_some.mp h
    exact substExprs_iff hresolve parts hparts
  | sysCall name args =>
    unfold substExpr at h
    obtain ⟨args', _, hargs, h⟩ := bind_eq_some.mp h
    obtain ⟨rfl, -⟩ := pure_eq_some.mp h
    exact and_rest rfl (substExprs_iff hresolve args hargs)
  | literal value | signedLiteral value | fill bit | str text | null =>
    unfold substExpr at h
    obtain ⟨rfl, -⟩ := pure_eq_some.mp h
    exact kept (exprBecomes_self _)
termination_by structural e

theorem substExprs_iff (hresolve : Resolves env ctx resolve) (es : List Expr) {es' : List Expr}
    {m m' : Mono}
    (h : substExprs resolve ctx es m = some (es', m')) :
    ¬ inExprs (mentions visible) es' ∧ exprsBecome env ctx visible es es' ↔
      ¬ inExprs (strays env ctx visible) es := by
  cases es with
  | nil =>
    unfold substExprs at h
    obtain ⟨rfl, -⟩ := pure_eq_some.mp h
    exact nothing
  | cons e es =>
    unfold substExprs at h
    obtain ⟨e', _, he, h⟩ := bind_eq_some.mp h
    obtain ⟨es', _, hes, h⟩ := bind_eq_some.mp h
    obtain ⟨rfl, -⟩ := pure_eq_some.mp h
    exact both (substExpr_iff hresolve e he) (substExprs_iff hresolve es hes)
termination_by structural es

end

theorem substOption_iff (hresolve : Resolves env ctx resolve) {e e' : Option Expr} {m m' : Mono}
    (h : substOption resolve ctx e m = some (e', m')) :
    ¬ inOption (mentions visible) e' ∧ optionBecomes env ctx visible e e' ↔
      ¬ inOption (strays env ctx visible) e := by
  cases e with
  | none =>
    obtain ⟨rfl, -⟩ := pure_eq_some.mp h
    exact nothing
  | some e =>
    obtain ⟨e', _, he, h⟩ := bind_eq_some.mp h
    obtain ⟨rfl, -⟩ := pure_eq_some.mp h
    exact substExpr_iff hresolve e he

theorem substKey_iff (hresolve : Resolves env ctx resolve) {key key' : Option String} {m m' : Mono}
    (h : substKey resolve key m = some (key', m')) :
    ¬ inName (mentions visible) key' ∧ nameBecomes env ctx visible key key' ↔
      ¬ inName (strays env ctx visible) key := by
  cases key with
  | none =>
    obtain ⟨rfl, -⟩ := pure_eq_some.mp h
    exact nothing
  | some key =>
    obtain ⟨key', _, hkey, h⟩ := bind_eq_some.mp h
    obtain ⟨rfl, -⟩ := pure_eq_some.mp h
    exact resolved_iff hresolve hkey

/-- A type in place keeps the arguments that stand for nothing, a base class loses them. -/
theorem substType_iff (hresolve : Resolves env ctx resolve) {name : Option String}
    {typeArgs args : List TypeRef}
    {type : Option String × List TypeRef} {m m' : Mono} (hargs : args = type.2 ∨ args = [])
    (h : substType resolve name typeArgs m = some (type, m')) :
    ¬ inType (mentions visible) type.1 args ∧
        typeBecomes env ctx visible (name, typeArgs) (type.1, args) ↔
      ¬ inType (strays env ctx visible) name typeArgs := by
  cases name with
  | none =>
    obtain ⟨rfl, -⟩ := pure_eq_some.mp h
    exact nothing
  | some name =>
    obtain ⟨resolved, _, hresolved, h⟩ := bind_eq_some.mp h
    obtain ⟨rfl, -⟩ := pure_eq_some.mp h
    obtain rfl : args = [] := hargs.elim (fun h => h) (fun h => h)
    exact resolved_iff hresolve hresolved

/-- Whatever becomes of its initializer, a declaration has its types resolved and the rest kept. -/
theorem substVardeclType_iff (hresolve : Resolves env ctx resolve) {v v' : VarDecl}
    {init : Option Expr} {before after : Prop}
    {m m' : Mono} (hinit : ¬ after ∧ optionBecomes env ctx visible v.init init ↔ ¬ before)
    (h : substVardeclType resolve v m = some (v', m')) :
    ¬ (inVisitedType (mentions visible) { v' with init := init } ∨ after ∨
          inSkippedType (mentions visible) { v' with init := init }) ∧
        varDeclBecomes env ctx visible v { v' with init := init } ↔
      ¬ (inVisitedType (strays env ctx visible) v ∨ before ∨
        inSkippedType (mentions visible) v) := by
  obtain ⟨type, _, htype, h⟩ := bind_eq_some.mp h
  obtain ⟨key, _, hkey, h⟩ := bind_eq_some.mp h
  obtain ⟨rfl, -⟩ := pure_eq_some.mp h
  refine and_rest rfl (both ?_ (both hinit ?_))
  · exact both (substType_iff hresolve (.inl rfl) htype) (substKey_iff hresolve hkey)
  · exact both (kept rangeBecomes_self) (both (kept rangeBecomes_self) (kept nameBecomes_self))

theorem substVardeclType_init {v v' : VarDecl} {m m' : Mono}
    (h : substVardeclType resolve v m = some (v', m')) : v'.init = v.init := by
  obtain ⟨type, _, htype, h⟩ := bind_eq_some.mp h
  obtain ⟨key, _, hkey, h⟩ := bind_eq_some.mp h
  obtain ⟨rfl, -⟩ := pure_eq_some.mp h
  rfl

theorem substEvents_iff (hresolve : Resolves env ctx resolve) {events events' : List EventExpr}
    {m m' : Mono}
    (h : substEvents resolve ctx events m = some (events', m')) :
    ¬ inEvents (mentions visible) events' ∧ eventsBecome env ctx visible events events' ↔
      ¬ inEvents (strays env ctx visible) events := by
  induction events generalizing events' m m' with
  | nil =>
    obtain ⟨rfl, -⟩ := pure_eq_some.mp h
    exact nothing
  | cons event events ih =>
    obtain ⟨e', _, he, h⟩ := bind_eq_some.mp h
    obtain ⟨events', _, hevents, h⟩ := bind_eq_some.mp h
    obtain ⟨rfl, -⟩ := pure_eq_some.mp h
    exact and_rest rfl (both (substExpr_iff hresolve event.expr he) (ih hevents))

theorem substControl_iff (hresolve : Resolves env ctx resolve) {control control' : TimingControl}
    {m m' : Mono}
    (h : substControl resolve ctx control m = some (control', m')) :
    ¬ inControl (mentions visible) control' ∧ controlBecomes env ctx visible control control' ↔
      ¬ inControl (strays env ctx visible) control := by
  cases control with
  | delay e | wait e =>
    obtain ⟨e', _, he, h⟩ := bind_eq_some.mp h
    obtain ⟨rfl, -⟩ := pure_eq_some.mp h
    exact substExpr_iff hresolve e he
  | event events =>
    obtain ⟨events', _, hevents, h⟩ := bind_eq_some.mp h
    obtain ⟨rfl, -⟩ := pure_eq_some.mp h
    exact substEvents_iff hresolve hevents

mutual

/-- Substitution keeps what a statement declares. -/
theorem substStmt_declared (s : Stmt) {s' : Stmt} {m m' : Mono}
    (h : substStmt resolve ctx s m = some (s', m')) :
    declaredName s' = declaredName s ∧ declared s' = declared s := by
  cases s with
  | varDecl v =>
    unfold substStmt at h
    obtain ⟨v', _, hv, h⟩ := bind_eq_some.mp h
    obtain ⟨init', _, hinit, h⟩ := bind_eq_some.mp h
    obtain ⟨rfl, -⟩ := pure_eq_some.mp h
    obtain ⟨type, _, htype, hv⟩ := bind_eq_some.mp hv
    obtain ⟨key, _, hkey, hv⟩ := bind_eq_some.mp hv
    obtain ⟨rfl, -⟩ := pure_eq_some.mp hv
    exact ⟨rfl, rfl⟩
  | block stmts =>
    unfold substStmt at h
    obtain ⟨stmts', _, hstmts, h⟩ := bind_eq_some.mp h
    obtain ⟨rfl, -⟩ := pure_eq_some.mp h
    exact ⟨rfl, congrArg declaredTogether (substStmts_declaredName stmts hstmts)⟩
  | breakLoop | continueLoop | null =>
    unfold substStmt at h
    obtain ⟨rfl, -⟩ := pure_eq_some.mp h
    exact ⟨rfl, rfl⟩
  | blocking _ _ | nonblocking _ _ | expr _ | trigger _ | ret _ | sysCall _ _ | fork _ _ =>
    unfold substStmt at h
    obtain ⟨_, _, _, h⟩ := bind_eq_some.mp h
    obtain ⟨rfl, -⟩ := pure_eq_some.mp h
    exact ⟨rfl, rfl⟩
  | timed _ _ | whileLoop _ _ | doWhile _ _ | foreachLoop _ _ _ =>
    unfold substStmt at h
    obtain ⟨_, _, _, h⟩ := bind_eq_some.mp h
    obtain ⟨_, _, _, h⟩ := bind_eq_some.mp h
    obtain ⟨rfl, -⟩ := pure_eq_some.mp h
    exact ⟨rfl, rfl⟩
  | ifElse _ _ _ | case _ _ _ =>
    unfold substStmt at h
    obtain ⟨_, _, _, h⟩ := bind_eq_some.mp h
    obtain ⟨_, _, _, h⟩ := bind_eq_some.mp h
    obtain ⟨_, _, _, h⟩ := bind_eq_some.mp h
    obtain ⟨rfl, -⟩ := pure_eq_some.mp h
    exact ⟨rfl, rfl⟩
termination_by structural s

theorem substStmts_declaredName (ss : List Stmt) {ss' : List Stmt} {m m' : Mono}
    (h : substStmts resolve ctx ss m = some (ss', m')) :
    ss'.map declaredName = ss.map declaredName := by
  cases ss with
  | nil =>
    unfold substStmts at h
    obtain ⟨rfl, -⟩ := pure_eq_some.mp h
    rfl
  | cons s ss =>
    unfold substStmts at h
    obtain ⟨s', _, hs, h⟩ := bind_eq_some.mp h
    obtain ⟨ss', _, hss, h⟩ := bind_eq_some.mp h
    obtain ⟨rfl, -⟩ := pure_eq_some.mp h
    rw [List.map_cons, List.map_cons, (substStmt_declared s hs).1, substStmts_declaredName ss hss]
termination_by structural ss

end

mutual

/-- A substituted statement is right where nothing of the original one goes astray and the targets
and types that the traversal leaves alone mention no formal. -/
theorem substStmt_iff (hresolve : Resolves env ctx resolve) (s : Stmt) {s' : Stmt} {m m' : Mono}
    (visible : String → Prop)
    (h : substStmt resolve ctx s m = some (s', m')) :
    ¬ inStmt mentions mentions visible s' ∧ stmtBecomes env ctx visible s s' ↔
      ¬ inStmt (strays env ctx) mentions visible s := by
  cases s with
  | block stmts =>
    unfold substStmt at h
    obtain ⟨stmts', _, hstmts, h⟩ := bind_eq_some.mp h
    obtain ⟨rfl, -⟩ := pure_eq_some.mp h
    exact substStmts_iff hresolve stmts visible hstmts
  | varDecl v =>
    unfold substStmt at h
    obtain ⟨v', _, hv, h⟩ := bind_eq_some.mp h
    obtain ⟨init', _, hinit, h⟩ := bind_eq_some.mp h
    obtain ⟨rfl, -⟩ := pure_eq_some.mp h
    have hinit' : v'.init = v.init := substVardeclType_init hv
    exact substVardeclType_iff hresolve (substOption_iff hresolve (hinit' ▸ hinit)) hv
  | timed control body =>
    unfold substStmt at h
    obtain ⟨control', _, hcontrol, h⟩ := bind_eq_some.mp h
    obtain ⟨body', _, hbody, h⟩ := bind_eq_some.mp h
    obtain ⟨rfl, -⟩ := pure_eq_some.mp h
    exact both (substControl_iff hresolve hcontrol)
      (substStmt_iff hresolve body visible hbody)
  | blocking lhs rhs | nonblocking lhs rhs =>
    unfold substStmt at h
    obtain ⟨rhs', _, hrhs, h⟩ := bind_eq_some.mp h
    obtain ⟨rfl, -⟩ := pure_eq_some.mp h
    exact both (kept lvalueBecomes_self) (substExpr_iff hresolve rhs hrhs)
  | ifElse cond thenBranch elseBranch =>
    unfold substStmt at h
    obtain ⟨cond', _, hcond, h⟩ := bind_eq_some.mp h
    obtain ⟨then', _, hthen, h⟩ := bind_eq_some.mp h
    obtain ⟨else', _, helse, h⟩ := bind_eq_some.mp h
    obtain ⟨rfl, -⟩ := pure_eq_some.mp h
    exact both (substExpr_iff hresolve cond hcond)
      (both (substStmt_iff hresolve thenBranch visible hthen)
        (substBranch_iff hresolve elseBranch visible helse))
  | whileLoop cond body | doWhile cond body =>
    unfold substStmt at h
    obtain ⟨cond', _, hcond, h⟩ := bind_eq_some.mp h
    obtain ⟨body', _, hbody, h⟩ := bind_eq_some.mp h
    obtain ⟨rfl, -⟩ := pure_eq_some.mp h
    exact both (substExpr_iff hresolve cond hcond)
      (substStmt_iff hresolve body visible hbody)
  | case selector items default =>
    unfold substStmt at h
    obtain ⟨selector', _, hselector, h⟩ := bind_eq_some.mp h
    obtain ⟨items', _, hitems, h⟩ := bind_eq_some.mp h
    obtain ⟨default', _, hdefault, h⟩ := bind_eq_some.mp h
    obtain ⟨rfl, -⟩ := pure_eq_some.mp h
    exact both (substExpr_iff hresolve selector hselector)
      (both (substItems_iff hresolve items visible hitems)
        (substBranch_iff hresolve default visible hdefault))
  | foreachLoop collection index body =>
    unfold substStmt at h
    obtain ⟨collection', _, hcollection, h⟩ := bind_eq_some.mp h
    obtain ⟨body', _, hbody, h⟩ := bind_eq_some.mp h
    obtain ⟨rfl, -⟩ := pure_eq_some.mp h
    exact and_rest rfl (both (substExpr_iff hresolve collection hcollection)
      (substStmt_iff hresolve body (hide [index] visible) hbody))
  | expr e | trigger e =>
    unfold substStmt at h
    obtain ⟨e', _, he, h⟩ := bind_eq_some.mp h
    obtain ⟨rfl, -⟩ := pure_eq_some.mp h
    exact substExpr_iff hresolve e he
  | ret value =>
    unfold substStmt at h
    obtain ⟨value', _, hvalue, h⟩ := bind_eq_some.mp h
    obtain ⟨rfl, -⟩ := pure_eq_some.mp h
    exact substOption_iff hresolve hvalue
  | sysCall name args =>
    unfold substStmt at h
    obtain ⟨args', _, hargs, h⟩ := bind_eq_some.mp h
    obtain ⟨rfl, -⟩ := pure_eq_some.mp h
    exact and_rest rfl (substExprs_iff hresolve args hargs)
  | breakLoop | continueLoop | null =>
    unfold substStmt at h
    obtain ⟨rfl, -⟩ := pure_eq_some.mp h
    exact nothing
  | fork branches join =>
    unfold substStmt at h
    obtain ⟨branches', _, hbranches, h⟩ := bind_eq_some.mp h
    obtain ⟨rfl, -⟩ := pure_eq_some.mp h
    exact and_rest rfl (substStmts_iff hresolve branches visible hbranches)
termination_by structural s

theorem substStmts_iff (hresolve : Resolves env ctx resolve) (ss : List Stmt) {ss' : List Stmt}
    {m m' : Mono}
    (visible : String → Prop) (h : substStmts resolve ctx ss m = some (ss', m')) :
    ¬ inStmts mentions mentions visible ss' ∧ stmtsBecome env ctx visible ss ss' ↔
      ¬ inStmts (strays env ctx) mentions visible ss := by
  cases ss with
  | nil =>
    unfold substStmts at h
    obtain ⟨rfl, -⟩ := pure_eq_some.mp h
    exact nothing
  | cons s ss =>
    unfold substStmts at h
    obtain ⟨s', _, hs, h⟩ := bind_eq_some.mp h
    obtain ⟨ss', _, hss, h⟩ := bind_eq_some.mp h
    obtain ⟨rfl, -⟩ := pure_eq_some.mp h
    refine both (substStmt_iff hresolve s visible hs) ?_
    rw [(substStmt_declared s hs).2]
    exact substStmts_iff hresolve ss (hide (declared s) visible) hss
termination_by structural ss

theorem substBranch_iff (hresolve : Resolves env ctx resolve) (branch : Option Stmt)
    {branch' : Option Stmt} {m m' : Mono}
    (visible : String → Prop) (h : substBranch resolve ctx branch m = some (branch', m')) :
    ¬ inBranch mentions mentions visible branch' ∧ branchBecomes env ctx visible branch branch' ↔
      ¬ inBranch (strays env ctx) mentions visible branch := by
  cases branch with
  | none =>
    unfold substBranch at h
    obtain ⟨rfl, -⟩ := pure_eq_some.mp h
    exact nothing
  | some s =>
    unfold substBranch at h
    obtain ⟨s', _, hs, h⟩ := bind_eq_some.mp h
    obtain ⟨rfl, -⟩ := pure_eq_some.mp h
    exact substStmt_iff hresolve s visible hs
termination_by structural branch

theorem substItems_iff (hresolve : Resolves env ctx resolve) (items : List (List Expr × Stmt))
    {items' : List (List Expr × Stmt)}
    {m m' : Mono} (visible : String → Prop)
    (h : substItems resolve ctx items m = some (items', m')) :
    ¬ inItems mentions mentions visible items' ∧ itemsBecome env ctx visible items items' ↔
      ¬ inItems (strays env ctx) mentions visible items := by
  cases items with
  | nil =>
    unfold substItems at h
    obtain ⟨rfl, -⟩ := pure_eq_some.mp h
    exact nothing
  | cons item items =>
    obtain ⟨values, body⟩ := item
    unfold substItems at h
    obtain ⟨values', _, hvalues, h⟩ := bind_eq_some.mp h
    obtain ⟨body', _, hbody, h⟩ := bind_eq_some.mp h
    obtain ⟨items', _, hitems, h⟩ := bind_eq_some.mp h
    obtain ⟨rfl, -⟩ := pure_eq_some.mp h
    have hbody := substStmt_iff hresolve body visible hbody
    have hitems := substItems_iff hresolve items visible hitems
    exact both (substExprs_iff hresolve values hvalues) (both hbody hitems)
termination_by structural items

end

theorem substParam_iff (hresolve : Resolves env ctx resolve) {p p' : Param} {m m' : Mono}
    (h : substParam resolve ctx p m = some (p', m')) :
    ¬ inParam mentions mentions visible p' ∧ paramBecomes env ctx visible p p' ↔
      ¬ inParam (strays env ctx) mentions visible p := by
  obtain ⟨type, _, htype, h⟩ := bind_eq_some.mp h
  obtain ⟨key, _, hkey, h⟩ := bind_eq_some.mp h
  obtain ⟨default', _, hdefault, h⟩ := bind_eq_some.mp h
  obtain ⟨rfl, -⟩ := pure_eq_some.mp h
  refine and_rest rfl (both (substType_iff hresolve (.inl rfl) htype) ?_)
  refine both (substKey_iff hresolve hkey) (both (substOption_iff hresolve hdefault) ?_)
  exact both (kept rangeBecomes_self) (kept nameBecomes_self)

theorem substParam_name {p p' : Param} {m m' : Mono}
    (h : substParam resolve ctx p m = some (p', m')) : p'.name = p.name := by
  obtain ⟨type, _, htype, h⟩ := bind_eq_some.mp h
  obtain ⟨key, _, hkey, h⟩ := bind_eq_some.mp h
  obtain ⟨default', _, hdefault, h⟩ := bind_eq_some.mp h
  obtain ⟨rfl, -⟩ := pure_eq_some.mp h
  rfl

end

/-! ### Lists of declarations -/

section

variable {α β : Type}

/-- The results are right where no element goes astray. -/
theorem mapM_iff {f : α → Build α} {becomes : α → α → Prop} {before after : α → Prop}
    {l l' : List α} {m m' : Mono} (h : l.mapM f m = some (l', m'))
    (hf : ∀ a a' m m', f a m = some (a', m') → (¬ after a' ∧ becomes a a' ↔ ¬ before a)) :
    ¬ (∃ a ∈ l', after a) ∧ List.Forall₂ becomes l l' ↔ ¬ ∃ a ∈ l, before a := by
  induction l generalizing l' m m' with
  | nil =>
    obtain ⟨rfl, -⟩ := pure_eq_some.mp h
    simp
  | cons a l ih =>
    rw [List.mapM_cons] at h
    obtain ⟨a', m₁, ha, h⟩ := bind_eq_some.mp h
    obtain ⟨l', m₂, hl, h⟩ := bind_eq_some.mp h
    obtain ⟨rfl, -⟩ := pure_eq_some.mp h
    simp only [List.mem_cons, exists_eq_or_imp, List.forall₂_cons]
    exact both (hf a a' m m₁ ha) (ih hl)

theorem mapM_map {f : α → Build α} {key : α → β} {l l' : List α} {m m' : Mono}
    (h : l.mapM f m = some (l', m')) (hf : ∀ a a' m m', f a m = some (a', m') → key a' = key a) :
    l'.map key = l.map key := by
  induction l generalizing l' m m' with
  | nil =>
    obtain ⟨rfl, -⟩ := pure_eq_some.mp h
    rfl
  | cons a l ih =>
    rw [List.mapM_cons] at h
    obtain ⟨a', m₁, ha, h⟩ := bind_eq_some.mp h
    obtain ⟨l', m₂, hl, h⟩ := bind_eq_some.mp h
    obtain ⟨rfl, -⟩ := pure_eq_some.mp h
    simp only [List.map_cons, hf a a' m m₁ ha, ih hl]

end

section

variable {env : Env} {ctx : SubstCtx} {resolve : TypeRef → Build String} {visible : String → Prop}

theorem substFunc_iff (hresolve : Resolves env ctx resolve) {f f' : FuncDecl} {m m' : Mono}
    (h : substFunc resolve ctx f m = some (f', m')) :
    ¬ inFunc mentions mentions visible f' ∧ funcBecomes env ctx visible f f' ↔
      ¬ inFunc (strays env ctx) mentions visible f := by
  obtain ⟨ret, _, hret, h⟩ := bind_eq_some.mp h
  obtain ⟨params, _, hparams, h⟩ := bind_eq_some.mp h
  obtain ⟨body, _, hbody, h⟩ := bind_eq_some.mp h
  obtain ⟨rfl, -⟩ := pure_eq_some.mp h
  have hnames : params.map Param.name = f.params.map Param.name :=
    mapM_map hparams fun _ _ _ _ h => substParam_name h
  refine and_rest rfl (both (substKey_iff hresolve hret) (both ?_ (both ?_ ?_)))
  · exact mapM_iff hparams fun _ _ _ _ h => substParam_iff hresolve h
  · simp only [hnames]
    exact substStmt_iff hresolve f.body _ hbody
  · exact kept rangeBecomes_self

theorem substField_iff (hresolve : Resolves env ctx resolve) {v v' : VarDecl} {m m' : Mono}
    (h : substVardeclType resolve v m = some (v', m')) :
    ¬ inField mentions mentions visible v' ∧ varDeclBecomes env ctx visible v v' ↔
      ¬ inField (strays env ctx) mentions visible v := by
  have hinit : ¬ inOption (mentions visible) v'.init ∧
      optionBecomes env ctx visible v.init v'.init ↔ ¬ inOption (mentions visible) v.init := by
    rw [substVardeclType_init h]
    exact kept optionBecomes_self
  exact substVardeclType_iff hresolve hinit h

theorem substTarget_iff (hresolve : Resolves env ctx resolve) {target target' : Option TypeRef}
    {m m' : Mono} (h : substTarget resolve target m = some (target', m')) :
    ¬ inTarget mentions visible target' ∧ targetBecomes env ctx visible target target' ↔
      ¬ inTarget (strays env ctx) visible target := by
  cases target with
  | none =>
    obtain ⟨rfl, -⟩ := pure_eq_some.mp h
    exact nothing
  | some target =>
    obtain ⟨resolved, _, hresolved, h⟩ := bind_eq_some.mp h
    obtain ⟨rfl, -⟩ := pure_eq_some.mp h
    exact resolved_iff hresolve hresolved

theorem substAlias_iff (hresolve : Resolves env ctx resolve) {a a' : TypeAlias} {m m' : Mono}
    (h : substAlias resolve a m = some (a', m')) :
    ¬ (mentions visible).type a'.target ∧ aliasBecomes env ctx visible a a' ↔
      ¬ (strays env ctx visible).type a.target := by
  obtain ⟨resolved, _, hresolved, h⟩ := bind_eq_some.mp h
  obtain ⟨rfl, -⟩ := pure_eq_some.mp h
  exact and_rest rfl (resolved_iff hresolve hresolved)

theorem substCollectionAlias_iff (hresolve : Resolves env ctx resolve) {a a' : CollectionAlias}
    {m m' : Mono} (h : substCollectionAlias resolve a m = some (a', m')) :
    ¬ (inTarget mentions visible a'.element ∨ inTarget mentions visible a'.key) ∧
        collectionAliasBecomes env ctx visible a a' ↔
      ¬ (inTarget (strays env ctx) visible a.element ∨
        inTarget (strays env ctx) visible a.key) := by
  obtain ⟨element, _, helement, h⟩ := bind_eq_some.mp h
  obtain ⟨key, _, hkey, h⟩ := bind_eq_some.mp h
  obtain ⟨rfl, -⟩ := pure_eq_some.mp h
  exact and_rest rfl (both (substTarget_iff hresolve helement) (substTarget_iff hresolve hkey))

theorem substConstructor_iff (hresolve : Resolves env ctx resolve) {ctor ctor' : Option FuncDecl}
    {m m' : Mono} (h : substConstructor resolve ctx ctor m = some (ctor', m')) :
    ¬ (∃ f ∈ ctor', inFunc mentions mentions visible f) ∧
        Option.Rel (funcBecomes env ctx visible) ctor ctor' ↔
      ¬ ∃ f ∈ ctor, inFunc (strays env ctx) mentions visible f := by
  cases ctor with
  | none =>
    obtain ⟨rfl, -⟩ := pure_eq_some.mp h
    simp
  | some ctor =>
    obtain ⟨ctor', _, hctor, h⟩ := bind_eq_some.mp h
    obtain ⟨rfl, -⟩ := pure_eq_some.mp h
    simpa using substFunc_iff hresolve hctor

theorem buildSpec_iff (hresolve : Resolves env ctx resolve) {tmpl spec : ClassDecl} {name : String}
    {m m' : Mono} (h : buildSpec resolve ctx tmpl name m = some (spec, m')) :
    ¬ inClass mentions mentions visible spec ∧ classBecomes env ctx visible tmpl spec ↔
      ¬ inClass (strays env ctx) mentions visible tmpl := by
  obtain ⟨base, _, hbase, h⟩ := bind_eq_some.mp h
  obtain ⟨fields, _, hfields, h⟩ := bind_eq_some.mp h
  obtain ⟨typeAliases, _, htypes, h⟩ := bind_eq_some.mp h
  obtain ⟨collectionAliases, _, hcollections, h⟩ := bind_eq_some.mp h
  obtain ⟨methods, _, hmethods, h⟩ := bind_eq_some.mp h
  obtain ⟨ctor, _, hctor, h⟩ := bind_eq_some.mp h
  obtain ⟨rfl, -⟩ := pure_eq_some.mp h
  refine and_rest ⟨rfl, rfl, rfl⟩ (both ?_ (both ?_ (both ?_ (both ?_ (both ?_ ?_)))))
  · exact substType_iff hresolve (.inr rfl) hbase
  · exact mapM_iff hfields fun _ _ _ _ h => substField_iff hresolve h
  · exact mapM_iff htypes fun _ _ _ _ h => substAlias_iff hresolve h
  · exact mapM_iff hcollections fun _ _ _ _ h => substCollectionAlias_iff hresolve h
  · exact mapM_iff hmethods fun _ _ _ _ h => substFunc_iff hresolve h
  · exact substConstructor_iff hresolve hctor

end

/-! ### Specializations -/

/-- The context in which the body of a specialization is built. -/
def specCtx (tmpl : ClassDecl) (argNames : List String) : SubstCtx :=
  bindAliases tmpl.typeAliases (bindFormals (withArgs tmpl.params argNames) SubstCtx.empty)

/-- The text of a formal's argument, else of its default. -/
def argumentText (p : ParamDecl × Option String) : String := (p.2.or p.1.fallback).getD ""

/-- The formals of a template that have a text, in order. -/
def given (tmpl : ClassDecl) (argNames : List String) : List (ParamDecl × String) :=
  (tmpl.params.zipIdx.map fun p => (p.1, argumentText (p.1, argNames[p.2]?))).filter
    fun p => p.2 ≠ ""

/-- What the names of a template stand for under its arguments; the last formal of a name counts. -/
def argumentCtx (tmpl : ClassDecl) (argNames : List String) : SubstCtx where
  bindings name := (lastNamed (fun p => p.1.name) (given tmpl argNames) name).map Prod.snd
  valueBindings name :=
    (lastNamed (fun p => p.1.name) ((given tmpl argNames).filter fun p => !p.1.isType) name).map
      Prod.snd
  aliases name := (lastNamed TypeAlias.name tmpl.typeAliases name).map TypeAlias.target

private theorem withArgs_eq (params : List ParamDecl) (all : List String) (k : Nat) :
    withArgs params (all.drop k) = (params.zipIdx k).map fun p => (p.1, all[p.2]?) := by
  induction params generalizing k with
  | nil => rfl
  | cons p params ih =>
    rw [List.zipIdx_cons, List.map_cons, ← ih]
    by_cases hk : k < all.length
    · rw [List.drop_eq_getElem_cons hk, withArgs, List.getElem?_eq_getElem hk]
    · have hnil : all.drop k = [] := List.drop_eq_nil_of_le (Nat.le_of_not_lt hk)
      have hnil' : all.drop (k + 1) = [] := List.drop_eq_nil_of_le (by omega)
      rw [hnil, hnil', withArgs, List.getElem?_eq_none (Nat.le_of_not_lt hk)]

private theorem bindFormals_cons (p : ParamDecl × Option String)
    (params : List (ParamDecl × Option String)) (ctx : SubstCtx) :
    bindFormals (p :: params) ctx = bindFormals params
      (if argumentText p = "" then ctx
        else
          { ctx with
            bindings := ctx.bindings.insert p.1.name (argumentText p)
            valueBindings :=
              if p.1.isType then ctx.valueBindings
              else ctx.valueBindings.insert p.1.name (argumentText p) }) := by
  rw [bindFormals, List.foldl_cons, ← bindFormals]
  simp only [String.isEmpty_iff]
  rfl

/-- The formals with a text, bound one after the other. -/
private theorem bindFormals_eq (params : List (ParamDecl × Option String)) (ctx : SubstCtx)
    {texts : List (ParamDecl × String)}
    (htexts : texts = (params.map fun p => (p.1, argumentText p)).filter fun p => p.2 ≠ "") :
    bindFormals params ctx =
      { ctx with
        bindings := texts.foldl (fun names p => names.insert p.1.name p.2) ctx.bindings
        valueBindings := (texts.filter fun p => !p.1.isType).foldl
          (fun names p => names.insert p.1.name p.2) ctx.valueBindings } := by
  induction params generalizing ctx texts with
  | nil =>
    subst htexts
    rfl
  | cons p params ih =>
    subst htexts
    rw [bindFormals_cons, ih _ rfl]
    by_cases hempty : argumentText p = ""
    · simp [hempty]
    · cases htype : p.1.isType <;> simp [hempty, htype]

/-- A specialization binds its formals to their arguments. -/
theorem specCtx_eq (tmpl : ClassDecl) (argNames : List String) :
    specCtx tmpl argNames = argumentCtx tmpl argNames := by
  have hargs := withArgs_eq tmpl.params argNames 0
  rw [List.drop_zero] at hargs
  have htexts : given tmpl argNames =
      ((withArgs tmpl.params argNames).map fun p => (p.1, argumentText p)).filter
        fun p => p.2 ≠ "" := by
    rw [hargs, List.map_map]
    rfl
  rw [specCtx, bindFormals_eq _ _ htexts]
  simp only [bindAliases, SubstCtx.empty, foldl_insert, argumentCtx]

/-- A specialization is recorded already, or its body is built after its name is reserved. -/
theorem specialize_cases {env : Env} {r : SubstCtx → TypeRef → Build String} {base s : String}
    {tmpl : ClassDecl} {argNames : List String} {m m' : Mono}
    (htmpl : env.templates base = some tmpl)
    (h : specialize env r base argNames m = some (s, m')) :
    (((m.index (mangle base tmpl.params argNames)).isSome ∨
        mangle base tmpl.params argNames ∈ m.inProgress) ∧ m' = m) ∨
      m.index (mangle base tmpl.params argNames) = none ∧
        ∃ spec m₂, buildSpec (r (specCtx tmpl argNames)) (specCtx tmpl argNames) tmpl
          (mangle base tmpl.params argNames)
          ⟨m.out ++ [stub (mangle base tmpl.params argNames)],
            m.index.insert (mangle base tmpl.params argNames) m.out.length,
            mangle base tmpl.params argNames :: m.inProgress⟩ = some (spec, m₂) ∧
        m' = ⟨m₂.out.set m.out.length spec, m₂.index,
          m₂.inProgress.erase (mangle base tmpl.params argNames)⟩ := by
  simp only [specialize, htmpl] at h
  obtain ⟨m₁, _, hget, h⟩ := bind_eq_some.mp h
  cases hget
  split at h
  · rename_i hrecorded
    exact .inl ⟨hrecorded, (pure_eq_some.mp h).2.symm⟩
  · rename_i hnew
    obtain ⟨_, _, hset, h⟩ := bind_eq_some.mp h
    obtain ⟨spec, m₂, hspec, h⟩ := bind_eq_some.mp h
    obtain ⟨_, _, hmodify, h⟩ := bind_eq_some.mp h
    cases hset
    cases hmodify
    obtain ⟨-, rfl⟩ := pure_eq_some.mp h
    exact .inr ⟨Option.not_isSome_iff_eq_none.mp (not_or.mp hnew).1, spec, m₂, hspec, rfl⟩

def formalsOf (tmpl : ClassDecl) : String → Prop :=
  fun name => name ∈ tmpl.params.map ParamDecl.name

/-- A built class is free of the names that are visible in its template, and each of their
occurrences gave way to the argument. -/
structure Substituted (env : Env) (ctx : SubstCtx) (visible : String → Prop)
    (tmpl spec : ClassDecl) : Prop where
  free : ¬ inClass mentions mentions visible spec
  replaced : classBecomes env ctx visible tmpl spec

/-- A field without a range. -/
def fieldOf (name : String) (className : Option String) (init : Option Expr) : VarDecl :=
  ⟨name, 32, none, none, true, className, none, [], false, false, none, none, false, init⟩

/-- A method without parameters that returns an integer. -/
def methodOf (name : String) (body : Stmt) : FuncDecl :=
  ⟨name, 32, true, false, none, none, none, none, false, false, [], body⟩

/-- `class stack #(type T, int N); T top; function int size(); return N; endfunction endclass`. -/
def stackTemplate : ClassDecl :=
  { stub "stack" with
    fields := [fieldOf "top" (some "T") none]
    methods := [methodOf "size" (.ret (some (.ref "N")))]
    params := [⟨"T", true, none⟩, ⟨"N", false, none⟩] }

/-- `class fifo #(int DEPTH); int limit = DEPTH; endclass`. -/
def fifoTemplate : ClassDecl :=
  { stub "fifo" with
    fields := [fieldOf "limit" none (some (.ref "DEPTH"))]
    params := [⟨"DEPTH", false, none⟩] }

/-- `class mask #(int N); function int get(); int N; return N; endfunction endclass`. -/
def maskBody : Stmt := .block [.varDecl (fieldOf "N" none none), .ret (some (.ref "N"))]

def maskTemplate : ClassDecl :=
  { stub "mask" with methods := [methodOf "get" maskBody], params := [⟨"N", false, none⟩] }

/-- The method returns the argument, not its local variable. -/
example : (substStmt (resolve ⟨Names.empty, Names.empty⟩ 1 (specCtx maskTemplate ["4"]))
    (specCtx maskTemplate ["4"]) maskBody Mono.empty).map Prod.fst =
    some (.block [.varDecl (fieldOf "N" none none), .ret (some (valueToExpr "4"))]) := rfl

end Eevee.Classes.Formals
