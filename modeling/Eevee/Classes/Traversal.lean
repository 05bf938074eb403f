/- The types that the traversal of a class resolves, and what holds of the traversal because it
holds of their resolution. -/

import Eevee.Classes.Defaults

set_option autoImplicit false
set_option relaxedAutoImplicit false

namespace Eevee.Classes.Traversal

open Eevee.Ast.Classes
open Eevee.Classes.Declarations (TypeRef TypeAlias CollectionAlias)
open Eevee.Classes.Specialization
open Eevee.Classes.Defaults

/-! ### Visited types -/

mutual

def exprTypes : Expr → List TypeRef
  | .staticCall className classArgs _ args => .mk className classArgs :: exprsTypes args
  | .staticRef className _ => [.mk className []]
  | .unary _ operand => exprTypes operand
  | .binary _ lhs rhs => exprTypes lhs ++ exprTypes rhs
  | .conditional condition whenTrue whenFalse =>
    exprTypes condition ++ (exprTypes whenTrue ++ exprTypes whenFalse)
  | .call _ args => exprsTypes args
  | .field obj _ => exprTypes obj
  | .methodCall obj _ args => exprTypes obj ++ exprsTypes args
  | .index base index => exprTypes base ++ exprTypes index
  | .partSelect base left right => exprTypes base ++ (exprTypes left ++ exprTypes right)
  | .new args => exprsTypes args
  | .concat parts => exprsTypes parts
  | .sysCall _ args => exprsTypes args
  | .ref _ => []
  | .literal _ => []
  | .signedLiteral _ => []
  | .fill _ => []
  | .str _ => []
  | .null => []

def exprsTypes : List Expr → List TypeRef
  | [] => []
  | e :: es => exprTypes e ++ exprsTypes es

end

def optionTypes : Option Expr → List TypeRef
  | none => []
  | some e => exprTypes e

def keyTypes : Option String → List TypeRef
  | none => []
  | some key => [.mk key []]

def namedTypes : Option String → List TypeRef → List TypeRef
  | none, _ => []
  | some name, typeArgs => [.mk name typeArgs]

def vardeclTypes (v : VarDecl) : List TypeRef :=
  namedTypes v.className v.typeArgs ++ keyTypes v.keyClassName

def eventsTypes : List EventExpr → List TypeRef
  | [] => []
  | event :: events => exprTypes event.expr ++ eventsTypes events

def controlTypes : TimingControl → List TypeRef
  | .delay amount => exprTypes amount
  | .wait condition => exprTypes condition
  | .event events => eventsTypes events

mutual

def stmtTypes : Stmt → List TypeRef
  | .block stmts => stmtsTypes stmts
  | .varDecl v => vardeclTypes v ++ optionTypes v.init
  | .timed control body => controlTypes control ++ stmtTypes body
  | .blocking _ rhs => exprTypes rhs
  | .nonblocking _ rhs => exprTypes rhs
  | .ifElse cond thenBranch elseBranch =>
    exprTypes cond ++ (stmtTypes thenBranch ++ branchTypes elseBranch)
  | .whileLoop cond body => exprTypes cond ++ stmtTypes body
  | .doWhile cond body => exprTypes cond ++ stmtTypes body
  | .case selector items default =>
    exprTypes selector ++ (itemsTypes items ++ branchTypes default)
  | .foreachLoop collection _ body => exprTypes collection ++ stmtTypes body
  | .expr e => exprTypes e
  | .trigger e => exprTypes e
  | .ret value => optionTypes value
  | .sysCall _ args => exprsTypes args
  | .breakLoop => []
  | .continueLoop => []
  | .null => []
  | .fork branches _ => stmtsTypes branches

def stmtsTypes : List Stmt → List TypeRef
  | [] => []
  | s :: ss => stmtTypes s ++ stmtsTypes ss

def branchTypes : Option Stmt → List TypeRef
  | none => []
  | some s => stmtTypes s

def itemsTypes : List (List Expr × Stmt) → List TypeRef
  | [] => []
  | (values, body) :: items => exprsTypes values ++ (stmtTypes body ++ itemsTypes items)

end

def paramTypes (p : Param) : List TypeRef :=
  namedTypes p.className p.typeArgs ++ (keyTypes p.keyClassName ++ optionTypes p.default)

def funcTypes (f : FuncDecl) : List TypeRef :=
  keyTypes f.retClass ++ (f.params.flatMap paramTypes ++ stmtTypes f.body)

def collectionTypes (a : CollectionAlias) : List TypeRef := a.element.toList ++ a.key.toList

/-- The types that `build_spec` resolves, in order. -/
def classTypes (c : ClassDecl) : List TypeRef :=
  namedTypes c.base c.baseArgs ++ (c.fields.flatMap vardeclTypes ++
    (c.typeAliases.map (fun a => a.target) ++ (c.collectionAliases.flatMap collectionTypes ++
      (c.methods.flatMap funcTypes ++ c.constructor.toList.flatMap funcTypes))))

/-! ### The rule of sequencing -/

/-- A property of steps that holds of results and is kept by sequencing. -/
structure Sequential (P : (α : Type) → Build α → Prop) : Prop where
  pure : ∀ {α : Type} (a : α), P α (pure a)
  bind : ∀ {α β : Type} {x : Build α} {f : α → Build β}, P α x →
    (∀ a, (∃ m m', x m = some (a, m')) → P β (f a)) → P β (x >>= f)

section

variable {P : (α : Type) → Build α → Prop} (hP : Sequential P)

include hP

theorem Sequential.seq {α β : Type} {x : Build α} {f : α → Build β} (hx : P α x)
    (hf : ∀ a, P β (f a)) : P β (x >>= f) :=
  hP.bind hx fun a _ => hf a

theorem Sequential.map {α β : Type} {x : Build α} (hx : P α x) (f : α → β) :
    P β (x >>= fun a => Pure.pure (f a)) :=
  hP.seq hx fun a => hP.pure (f a)

theorem Sequential.mapM {α β : Type} {f : α → Build β} {l : List α} (h : ∀ a ∈ l, P β (f a)) :
    P (List β) (l.mapM f) := by
  induction l with
  | nil => exact hP.pure []
  | cons a l ih =>
    obtain ⟨ha, hl⟩ := List.forall_mem_cons.mp h
    rw [List.mapM_cons]
    exact hP.seq ha fun b => hP.map (ih hl) _

theorem Sequential.forM {α : Type} {f : α → Build Unit} {l : List α}
    (h : ∀ a ∈ l, P Unit (f a)) : P PUnit (l.forM f) := by
  induction l with
  | nil => exact hP.pure ()
  | cons a l ih =>
    obtain ⟨ha, hl⟩ := List.forall_mem_cons.mp h
    exact hP.seq ha fun _ => ih hl

theorem Sequential.foldlM {α β : Type} {f : β → α → Build β} {l : List α}
    (h : ∀ a ∈ l, ∀ b, P β (f b a)) (b : β) : P β (l.foldlM f b) := by
  induction l generalizing b with
  | nil => exact hP.pure b
  | cons a l ih =>
    obtain ⟨ha, hl⟩ := List.forall_mem_cons.mp h
    rw [List.foldlM_cons]
    exact hP.seq (ha b) fun b' => ih hl b'

end

/-! ### Traversals -/

section

variable {P : (α : Type) → Build α → Prop} (hP : Sequential P) {resolve : TypeRef → Build String}
  {ctx : SubstCtx}

include hP

mutual

theorem substExpr_sequential (e : Expr) (h : ∀ tr ∈ exprTypes e, P String (resolve tr)) :
    P Expr (substExpr resolve ctx e) := by
  cases e with
  | ref name =>
    unfold substExpr
    cases ctx.valueBindings name <;> cases ctx.bindings name <;> exact hP.pure _
  | literal value | signedLiteral value | fill bit | str text | null => exact hP.pure _
  | unary op operand => exact hP.map (substExpr_sequential operand h) _
  | field obj field => exact hP.map (substExpr_sequential obj h) _
  | binary op lhs rhs | index lhs rhs =>
    obtain ⟨hl, hr⟩ := List.forall_mem_append.mp h
    exact hP.seq (substExpr_sequential lhs hl) fun _ => hP.map (substExpr_sequential rhs hr) _
  | conditional first second third | partSelect first second third =>
    obtain ⟨h₁, h⟩ := List.forall_mem_append.mp h
    obtain ⟨h₂, h₃⟩ := List.forall_mem_append.mp h
    exact hP.seq (substExpr_sequential first h₁) fun _ =>
      hP.seq (substExpr_sequential second h₂) fun _ => hP.map (substExpr_sequential third h₃) _
  | call name args | new args | concat args | sysCall name args =>
    exact hP.map (substExprs_sequential args h) _
  | methodCall obj method args =>
    obtain ⟨hobj, hargs⟩ := List.forall_mem_append.mp h
    exact hP.seq (substExpr_sequential obj hobj) fun _ =>
      hP.map (substExprs_sequential args hargs) _
  | staticCall className classArgs method args =>
    obtain ⟨hclass, hargs⟩ := List.forall_mem_cons.mp h
    exact hP.seq hclass fun _ => hP.map (substExprs_sequential args hargs) _
  | staticRef className field => exact hP.map (h _ (List.mem_singleton_self _)) _
termination_by structural e

theorem substExprs_sequential (es : List Expr) (h : ∀ tr ∈ exprsTypes es, P String (resolve tr)) :
    P (List Expr) (substExprs resolve ctx es) := by
  cases es with
  | nil => exact hP.pure _
  | cons e es =>
    obtain ⟨he, hes⟩ := List.forall_mem_append.mp h
    exact hP.seq (substExpr_sequential e he) fun _ => hP.map (substExprs_sequential es hes) _
termination_by structural es

end

theorem substOption_sequential {e : Option Expr} (h : ∀ tr ∈ optionTypes e, P String (resolve tr)) :
    P (Option Expr) (substOption resolve ctx e) := by
  cases e with
  | none => exact hP.pure _
  | some e => exact hP.map (substExpr_sequential hP e h) _

theorem substKey_sequential {key : Option String} (h : ∀ tr ∈ keyTypes key, P String (resolve tr)) :
    P (Option String) (substKey resolve key) := by
  cases key with
  | none => exact hP.pure _
  | some key => exact hP.map (h _ (List.mem_singleton_self _)) _

theorem substType_sequential {name : Option String} {typeArgs : List TypeRef}
    (h : ∀ tr ∈ namedTypes name typeArgs, P String (resolve tr)) :
    P (Option String × List TypeRef) (substType resolve name typeArgs) := by
  cases name with
  | none => exact hP.pure _
  | some name => exact hP.map (h _ (List.mem_singleton_self _)) _

theorem substVardeclType_sequential {v : VarDecl}
    (h : ∀ tr ∈ vardeclTypes v, P String (resolve tr)) :
    P VarDecl (substVardeclType resolve v) := by
  obtain ⟨htype, hkey⟩ := List.forall_mem_append.mp h
  exact hP.seq (substType_sequential hP htype) fun _ => hP.map (substKey_sequential hP hkey) _

omit hP in
theorem substVardeclType_init {v v' : VarDecl} {m m' : Mono}
    (h : substVardeclType resolve v m = some (v', m')) : v'.init = v.init := by
  obtain ⟨type, _, htype, h⟩ := bind_eq_some.mp h
  obtain ⟨key, _, hkey, h⟩ := bind_eq_some.mp h
  obtain ⟨rfl, -⟩ := pure_eq_some.mp h
  rfl

theorem substEvents_sequential {events : List EventExpr}
    (h : ∀ tr ∈ eventsTypes events, P String (resolve tr)) :
    P (List EventExpr) (substEvents resolve ctx events) := by
  induction events with
  | nil => exact hP.pure _
  | cons event events ih =>
    obtain ⟨hevent, hevents⟩ := List.forall_mem_append.mp h
    exact hP.seq (substExpr_sequential hP event.expr hevent) fun _ => hP.map (ih hevents) _

theorem substControl_sequential {control : TimingControl}
    (h : ∀ tr ∈ controlTypes control, P String (resolve tr)) :
    P TimingControl (substControl resolve ctx control) := by
  cases control with
  | delay e | wait e => exact hP.map (substExpr_sequential hP e h) _
  | event events => exact hP.map (substEvents_sequential hP h) _

mutual

theorem substStmt_sequential (s : Stmt) (h : ∀ tr ∈ stmtTypes s, P String (resolve tr)) :
    P Stmt (substStmt resolve ctx s) := by
  cases s with
  | block stmts | fork stmts join => exact hP.map (substStmts_sequential stmts h) _
  | varDecl v =>
    obtain ⟨htype, hinit⟩ := List.forall_mem_append.mp h
    refine hP.bind (substVardeclType_sequential hP htype) fun v' hv' => ?_
    obtain ⟨m, m', hv'⟩ := hv'
    rw [substVardeclType_init hv']
    exact hP.map (substOption_sequential hP hinit) _
  | timed control body =>
    obtain ⟨hcontrol, hbody⟩ := List.forall_mem_append.mp h
    exact hP.seq (substControl_sequential hP hcontrol) fun _ =>
      hP.map (substStmt_sequential body hbody) _
  | blocking lhs rhs | nonblocking lhs rhs => exact hP.map (substExpr_sequential hP rhs h) _
  | ifElse cond thenBranch elseBranch =>
    obtain ⟨hcond, h⟩ := List.forall_mem_append.mp h
    obtain ⟨hthen, helse⟩ := List.forall_mem_append.mp h
    exact hP.seq (substExpr_sequential hP cond hcond) fun _ =>
      hP.seq (substStmt_sequential thenBranch hthen) fun _ =>
        hP.map (substBranch_sequential elseBranch helse) _
  | whileLoop cond body | doWhile cond body =>
    obtain ⟨hcond, hbody⟩ := List.forall_mem_append.mp h
    exact hP.seq (substExpr_sequential hP cond hcond) fun _ =>
      hP.map (substStmt_sequential body hbody) _
  | case selector items default =>
    obtain ⟨hselector, h⟩ := List.forall_mem_append.mp h
    obtain ⟨hitems, hdefault⟩ := List.forall_mem_append.mp h
    exact hP.seq (substExpr_sequential hP selector hselector) fun _ =>
      hP.seq (substItems_sequential items hitems) fun _ =>
        hP.map (substBranch_sequential default hdefault) _
  | foreachLoop collection index body =>
    obtain ⟨hcollection, hbody⟩ := List.forall_mem_append.mp h
    exact hP.seq (substExpr_sequential hP collection hcollection) fun _ =>
      hP.map (substStmt_sequential body hbody) _
  | expr e | trigger e => exact hP.map (substExpr_sequential hP e h) _
  | ret value => exact hP.map (substOption_sequential hP h) _
  | sysCall name args => exact hP.map (substExprs_sequential hP args h) _
  | breakLoop | continueLoop | null => exact hP.pure _
termination_by structural s

theorem substStmts_sequential (ss : List Stmt) (h : ∀ tr ∈ stmtsTypes ss, P String (resolve tr)) :
    P (List Stmt) (substStmts resolve ctx ss) := by
  cases ss with
  | nil => exact hP.pure _
  | cons s ss =>
    obtain ⟨hs, hss⟩ := List.forall_mem_append.mp h
    exact hP.seq (substStmt_sequential s hs) fun _ => hP.map (substStmts_sequential ss hss) _
termination_by structural ss

theorem substBranch_sequential (branch : Option Stmt)
    (h : ∀ tr ∈ branchTypes branch, P String (resolve tr)) :
    P (Option Stmt) (substBranch resolve ctx branch) := by
  cases branch with
  | none => exact hP.pure _
  | some s => exact hP.map (substStmt_sequential s h) _
termination_by structural branch

theorem substItems_sequential (items : List (List Expr × Stmt))
    (h : ∀ tr ∈ itemsTypes items, P String (resolve tr)) :
    P (List (List Expr × Stmt)) (substItems resolve ctx items) := by
  cases items with
  | nil => exact hP.pure _
  | cons item items =>
    obtain ⟨values, body⟩ := item
    obtain ⟨hvalues, h⟩ := List.forall_mem_append.mp h
    obtain ⟨hbody, hitems⟩ := List.forall_mem_append.mp h
    exact hP.seq (substExprs_sequential hP values hvalues) fun _ =>
      hP.seq (substStmt_sequential body hbody) fun _ =>
        hP.map (substItems_sequential items hitems) _
termination_by structural items

end

theorem substParam_sequential {p : Param} (h : ∀ tr ∈ paramTypes p, P String (resolve tr)) :
    P Param (substParam resolve ctx p) := by
  obtain ⟨htype, h⟩ := List.forall_mem_append.mp h
  obtain ⟨hkey, hdefault⟩ := List.forall_mem_append.mp h
  exact hP.seq (substType_sequential hP htype) fun _ =>
    hP.seq (substKey_sequential hP hkey) fun _ => hP.map (substOption_sequential hP hdefault) _

theorem substFunc_sequential {f : FuncDecl} (h : ∀ tr ∈ funcTypes f, P String (resolve tr)) :
    P FuncDecl (substFunc resolve ctx f) := by
  obtain ⟨hret, h⟩ := List.forall_mem_append.mp h
  obtain ⟨hparams, hbody⟩ := List.forall_mem_append.mp h
  have hall : ∀ p ∈ f.params, P Param (substParam resolve ctx p) := fun p hp =>
    substParam_sequential hP fun tr htr => hparams tr (List.mem_flatMap.mpr ⟨p, hp, htr⟩)
  exact hP.seq (substKey_sequential hP hret) fun _ => hP.seq (hP.mapM hall) fun _ =>
    hP.map (substStmt_sequential hP f.body hbody) _

theorem substConstructor_sequential {ctor : Option FuncDecl}
    (h : ∀ tr ∈ ctor.toList.flatMap funcTypes, P String (resolve tr)) :
    P (Option FuncDecl) (substConstructor resolve ctx ctor) := by
  cases ctor with
  | none => exact hP.pure _
  | some f =>
    refine hP.map (substFunc_sequential hP fun tr htr => h tr ?_) _
    exact List.mem_flatMap.mpr ⟨f, List.mem_singleton_self _, htr⟩

theorem substTarget_sequential {target : Option TypeRef}
    (h : ∀ tr ∈ target.toList, P String (resolve tr)) :
    P (Option TypeRef) (substTarget resolve target) := by
  cases target with
  | none => exact hP.pure _
  | some target => exact hP.map (h target (List.mem_singleton_self _)) _

/-- What sequencing keeps holds of the body of a class if it holds of the resolution of each type
in it. -/
theorem buildSpec_sequential {tmpl : ClassDecl} (name : String)
    (h : ∀ tr ∈ classTypes tmpl, P String (resolve tr)) :
    P ClassDecl (buildSpec resolve ctx tmpl name) := by
  obtain ⟨hbase, h⟩ := List.forall_mem_append.mp h
  obtain ⟨hfields, h⟩ := List.forall_mem_append.mp h
  obtain ⟨htypes, h⟩ := List.forall_mem_append.mp h
  obtain ⟨hcollections, h⟩ := List.forall_mem_append.mp h
  obtain ⟨hmethods, hctor⟩ := List.forall_mem_append.mp h
  have hfields' : ∀ v ∈ tmpl.fields, P VarDecl (substVardeclType resolve v) := fun v hv =>
    substVardeclType_sequential hP fun tr htr => hfields tr (List.mem_flatMap.mpr ⟨v, hv, htr⟩)
  have htypes' : ∀ a ∈ tmpl.typeAliases, P TypeAlias (substAlias resolve a) := fun a ha =>
    hP.map (htypes a.target (List.mem_map.mpr ⟨a, ha, rfl⟩)) _
  have hcollections' : ∀ a ∈ tmpl.collectionAliases,
      P CollectionAlias (substCollectionAlias resolve a) := by
    intro a ha
    obtain ⟨helement, hkey⟩ := List.forall_mem_append.mp fun tr htr =>
      hcollections tr (List.mem_flatMap.mpr ⟨a, ha, htr⟩)
    exact hP.seq (substTarget_sequential hP helement) fun _ =>
      hP.map (substTarget_sequential hP hkey) _
  have hmethods' : ∀ f ∈ tmpl.methods, P FuncDecl (substFunc resolve ctx f) := fun f hf =>
    substFunc_sequential hP fun tr htr => hmethods tr (List.mem_flatMap.mpr ⟨f, hf, htr⟩)
  exact hP.seq (substType_sequential hP hbase) fun _ => hP.seq (hP.mapM hfields') fun _ =>
    hP.seq (hP.mapM htypes') fun _ => hP.seq (hP.mapM hcollections') fun _ =>
      hP.seq (hP.mapM hmethods') fun _ => hP.map (substConstructor_sequential hP hctor) _

end

end Eevee.Classes.Traversal
