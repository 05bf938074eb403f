/- The substitution of formals by their arguments, behind the scopes of local variables. -/

import Mathlib.Data.Int.Bitwise
import Eevee.Classes.Defaults
import Eevee.Classes.Occurrences
import Eevee.Core.Canonical

set_option autoImplicit false
set_option relaxedAutoImplicit false

namespace Eevee.Classes.Substitution

open Eevee.Ast.Classes
open Eevee.Classes.Declarations (TypeRef TypeAlias CollectionAlias)
open Eevee.Classes.Defaults
open Eevee.Classes.Occurrences
open Eevee.Classes.Specialization
open Eevee.Core.Alu
open Eevee.Core.Logic

/-! ### Arguments as expressions -/

/-- Decimal digits, the first one first. -/
def Numeral (digits : List Char) (k : Nat) : Prop :=
  digits ≠ [] ∧ (∀ c ∈ digits, c.isDigit) ∧ Nat.ofDigitChars 10 digits 0 = k

/-- A decimal number with an optional sign. -/
inductive Signed : List Char → Int → Prop
  | plain {digits : List Char} {k : Nat} (h : Numeral digits k) : Signed digits k
  | plus {digits : List Char} {k : Nat} (h : Numeral digits k) : Signed ('+' :: digits) k
  | minus {digits : List Char} {k : Nat} (h : Numeral digits k) : Signed ('-' :: digits) (-k)

/-- A text that is a number of 64 bits. -/
def IsNumber (text : String) (n : Int) : Prop := Signed text.toList n ∧ -2 ^ 63 ≤ n ∧ n < 2 ^ 63

/-- A vector of 32 bits with the low bits of a number. -/
def IsWord (v : LogicVec) (n : Int) : Prop :=
  v.width = 32 ∧ ∀ i < 32, v.getBit i = ofBool (n.testBit i)

/-- The argument of a value formal as an expression: a number where its text is one. -/
inductive Rendered (val : String) : Expr → Prop
  | number {n : Int} {v : LogicVec} (h : IsNumber val n) (hv : IsWord v n) :
      Rendered val (.literal v)
  | text (h : ∀ n, ¬ IsNumber val n) : Rendered val (.str val)

private theorem numeral_foldl {digits : List Char} (h : ∀ c ∈ digits, c.isDigit) (k : Nat) :
    digits.foldl (fun n c => 10 * n + ((c.toNat : Int) - '0'.toNat)) (k : Int) =
      (Nat.ofDigitChars 10 digits k : Nat) := by
  induction digits generalizing k with
  | nil => simp
  | cons c digits ih =>
    have hc : '0'.toNat ≤ c.toNat := by
      have hdigit := h c List.mem_cons_self
      simp only [Char.isDigit, Bool.and_eq_true, decide_eq_true_eq] at hdigit
      exact hdigit.1
    rw [List.foldl_cons, Nat.ofDigitChars_cons, ← ih fun c hc => h c (List.mem_cons_of_mem _ hc)]
    congr 1
    have hcast : ((c.toNat - '0'.toNat : Nat) : Int) = c.toNat - '0'.toNat := Int.ofNat_sub hc
    rw [← hcast]
    rfl

private theorem toInt_ofInt_iff (n : Int) :
    (BitVec.ofInt 64 n).toInt = n ↔ -2 ^ 63 ≤ n ∧ n < 2 ^ 63 := by
  rw [BitVec.toInt_ofInt, Int.bmod_def]
  split <;> omega

private theorem digits_eq_some (negative : Bool) {digits : List Char} {n : Int} :
    (if digits.isEmpty || !digits.all Char.isDigit then none
      else
        let k : Int := digits.foldl (fun n c => 10 * n + (c.toNat - '0'.toNat)) (0 : Int)
        let value := if negative then -k else k
        if (BitVec.ofInt 64 value).toInt = value then some value else none) = some n ↔
      (∃ k : Nat, Numeral digits k ∧ (if negative then -(k : Int) else k) = n) ∧
        -2 ^ 63 ≤ n ∧ n < 2 ^ 63 := by
  by_cases hdigits : digits ≠ [] ∧ ∀ c ∈ digits, c.isDigit
  · obtain ⟨hne, hall⟩ := hdigits
    have hread : (digits.isEmpty || !digits.all Char.isDigit) = false := by
      simp [hne, List.all_eq_true.mpr hall]
    have hvalue := numeral_foldl hall 0
    rw [Nat.cast_zero] at hvalue
    simp only [hread, hvalue, Bool.false_eq_true, if_false, Option.ite_none_right_eq_some,
      Option.some.injEq, toInt_ofInt_iff]
    constructor
    · rintro ⟨hrange, rfl⟩
      exact ⟨⟨_, ⟨hne, hall, rfl⟩, rfl⟩, hrange⟩
    · rintro ⟨⟨k, ⟨-, -, rfl⟩, rfl⟩, hrange⟩
      exact ⟨hrange, rfl⟩
  · have hread : (digits.isEmpty || !digits.all Char.isDigit) = true := by
      rw [not_and_or, not_not] at hdigits
      rcases hdigits with rfl | hdigits
      · rfl
      · rw [Bool.eq_false_iff.mpr fun h => hdigits (List.all_eq_true.mp h), Bool.not_false,
          Bool.or_true]
    rw [hread, if_pos rfl]
    refine iff_of_false (by simp) ?_
    rintro ⟨⟨k, ⟨hne, hall, -⟩, -⟩, -⟩
    exact hdigits ⟨hne, hall⟩

theorem parseI64_eq_some {text : String} {n : Int} : parseI64 text = some n ↔ IsNumber text n := by
  have hsign : ∀ {c : Char} {digits : List Char} {k : Nat}, c.isDigit = false →
      ¬ Numeral (c :: digits) k := by
    rintro c digits k hc ⟨-, hall, -⟩
    rw [hall c List.mem_cons_self] at hc
    cases hc
  unfold parseI64 IsNumber
  split
  rename_i negative digits hsplit
  split at hsplit
  · rename_i rest htext
    obtain ⟨rfl, rfl⟩ := Prod.mk.inj hsplit
    refine (digits_eq_some true).trans (and_congr_left fun _ => ?_)
    rw [htext]
    constructor
    · rintro ⟨k, hk, rfl⟩
      exact .minus hk
    · intro h
      cases h with
      | plain h => exact absurd h (hsign rfl)
      | minus h => exact ⟨_, h, rfl⟩
  · rename_i rest htext
    obtain ⟨rfl, rfl⟩ := Prod.mk.inj hsplit
    refine (digits_eq_some false).trans (and_congr_left fun _ => ?_)
    rw [htext]
    constructor
    · rintro ⟨k, hk, rfl⟩
      exact .plus hk
    · intro h
      cases h with
      | plain h => exact absurd h (hsign rfl)
      | plus h => exact ⟨_, h, rfl⟩
  · rename_i hminus hplus
    obtain ⟨rfl, rfl⟩ := Prod.mk.inj hsplit
    refine (digits_eq_some false).trans (and_congr_left fun _ => ?_)
    constructor
    · rintro ⟨k, hk, rfl⟩
      exact .plain hk
    · generalize htext : text.toList = cs at hminus hplus ⊢
      intro h
      cases h with
      | plain h => exact ⟨_, h, rfl⟩
      | plus h => exact absurd rfl (hplus _)
      | minus h => exact absurd rfl (hminus _)

theorem isWord_fromI64 (n : Int) : IsWord (fromI64 (BitVec.ofInt 64 n) 32) n := by
  refine ⟨rfl, fun i hi => ?_⟩
  have hi' : i < 64 := by omega
  refine (Core.Canonical.getBit_fromU64 (BitVec.ofInt 64 n) hi).trans (congrArg ofBool ?_)
  cases n with
  | ofNat n =>
    show (BitVec.ofInt 64 (n : Int)).getLsbD i = n.testBit i
    rw [BitVec.ofInt_natCast, BitVec.getLsbD_ofNat, decide_eq_true hi', Bool.true_and]
  | negSucc n =>
    show (BitVec.ofInt 64 (Int.negSucc n)).getLsbD i = !n.testBit i
    rw [BitVec.ofInt_negSucc_eq_not_ofNat, BitVec.getLsbD_not, BitVec.getLsbD_ofNat,
      decide_eq_true hi', Bool.true_and, Bool.true_and]

theorem rendered_valueToExpr (val : String) : Rendered val (valueToExpr val) := by
  unfold valueToExpr
  cases h : parseI64 val with
  | none =>
    refine .text fun n hn => ?_
    rw [parseI64_eq_some.mpr hn] at h
    cases h
  | some n => exact .number (parseI64_eq_some.mp h) (isWord_fromI64 n)

/-- What a bound name stands for in an expression: the argument of a value formal, the name of the
type that is the argument of a type formal. -/
inductive Argument (ctx : SubstCtx) (name : String) : Expr → Prop
  | value {val : String} {e : Expr} (h : ctx.valueBindings name = some val) (he : Rendered val e) :
    Argument ctx name e
  | type {typeName : String} (hval : ctx.valueBindings name = none)
    (h : ctx.bindings name = some typeName) : Argument ctx name (.str typeName)

/-! ### Types -/

section

variable (env : Env) (ctx : SubstCtx) (visible : String → Prop)

mutual

/-- The class that a type reference stands for when a name that it writes is a formal only where
the formal is visible. -/
inductive Means : TypeRef → String → Prop
  | formal {name s : String} {args : List TypeRef} (hname : visible name)
    (hbound : ctx.bindings name = some s) : Means (.mk name args) s
  | classAlias {name s : String} {args : List TypeRef} {target : TypeRef} (hname : ¬ visible name)
    (halias : ctx.aliases name = some target) (h : Denotes env ctx target s) :
    Means (.mk name args) s
  | globalAlias {name s : String} {target : TypeRef} (hname : ¬ visible name)
    (halias : ctx.aliases name = none) (hglobal : env.globalAliases name = some target)
    (h : Denotes env ctx target s) : Means (.mk name []) s
  | named {name : String} {args : List TypeRef} {argNames : List String} (hname : ¬ visible name)
    (halias : ctx.aliases name = none) (hglobal : args = [] → env.globalAliases name = none)
    (h : MeansAll args argNames) : Means (.mk name args) (classNamed env name argNames)

inductive MeansAll : List TypeRef → List String → Prop
  | nil : MeansAll [] []
  | cons {arg : TypeRef} {args : List TypeRef} {s : String} {names : List String}
    (h : Means arg s) (hrest : MeansAll args names) : MeansAll (arg :: args) (s :: names)

end

mutual

/-- Every name that a type writes is a visible formal or bound to nothing. -/
def typeScoped : TypeRef → Prop
  | .mk name args => (visible name ↔ ctx.bindings name ≠ none) ∧ typesScoped args

def typesScoped : List TypeRef → Prop
  | [] => True
  | arg :: args => typeScoped arg ∧ typesScoped args

end

/-- A type gives way to the class that it stands for; one without formals may stay as it is. -/
inductive TypeBecomes : TypeRef → TypeRef → Prop
  | class {tr : TypeRef} {s : String} (h : Means env ctx visible tr s) : TypeBecomes tr (.mk s [])
  | same {tr : TypeRef} (h : ¬ typeMentions visible tr) : TypeBecomes tr tr

/-! ### Expressions -/

/-- A visible formal gives way to its argument, another name stays. -/
inductive RefBecomes (name : String) : Expr → Prop
  | formal {e : Expr} (hname : visible name) (h : Argument ctx name e) : RefBecomes name e
  | other (hname : ¬ visible name) : RefBecomes name (.ref name)

mutual

def exprBecomes : Expr → Expr → Prop
  | .ref name, e => RefBecomes ctx visible name e
  | .staticCall className classArgs method args, .staticCall className' classArgs' method' args' =>
    method' = method ∧
      TypeBecomes env ctx visible (.mk className classArgs) (.mk className' classArgs') ∧
        exprsBecome args args'
  | .staticRef className field, .staticRef className' field' =>
    field' = field ∧ TypeBecomes env ctx visible (.mk className []) (.mk className' [])
  | .unary op operand, .unary op' operand' => op' = op ∧ exprBecomes operand operand'
  | .binary op lhs rhs, .binary op' lhs' rhs' =>
    op' = op ∧ exprBecomes lhs lhs' ∧ exprBecomes rhs rhs'
  | .conditional condition whenTrue whenFalse, .conditional condition' whenTrue' whenFalse' =>
    exprBecomes condition condition' ∧ exprBecomes whenTrue whenTrue' ∧
      exprBecomes whenFalse whenFalse'
  | .call name args, .call name' args' => name' = name ∧ exprsBecome args args'
  | .field obj field, .field obj' field' => field' = field ∧ exprBecomes obj obj'
  | .methodCall obj method args, .methodCall obj' method' args' =>
    method' = method ∧ exprBecomes obj obj' ∧ exprsBecome args args'
  | .index base index, .index base' index' => exprBecomes base base' ∧ exprBecomes index index'
  | .partSelect base left right, .partSelect base' left' right' =>
    exprBecomes base base' ∧ exprBecomes left left' ∧ exprBecomes right right'
  | .new args, .new args' => exprsBecome args args'
  | .concat parts, .concat parts' => exprsBecome parts parts'
  | .sysCall name args, .sysCall name' args' => name' = name ∧ exprsBecome args args'
  | .literal value, .literal value' => value' = value
  | .signedLiteral value, .signedLiteral value' => value' = value
  | .fill bit, .fill bit' => bit' = bit
  | .str text, .str text' => text' = text
  | .null, .null => True
  | _, _ => False

def exprsBecome : List Expr → List Expr → Prop
  | [], [] => True
  | e :: es, e' :: es' => exprBecomes e e' ∧ exprsBecome es es'
  | _, _ => False

end

def optionBecomes : Option Expr → Option Expr → Prop
  | none, none => True
  | some e, some e' => exprBecomes env ctx visible e e'
  | _, _ => False

def nameBecomes : Option String → Option String → Prop
  | none, none => True
  | some name, some name' => TypeBecomes env ctx visible (.mk name []) (.mk name' [])
  | _, _ => False

/-- A name with the arguments beside it; beside no name they stand for nothing. -/
def typeBecomes : Option String × List TypeRef → Option String × List TypeRef → Prop
  | (none, _), (none, _) => True
  | (some name, args), (some name', args') =>
    TypeBecomes env ctx visible (.mk name args) (.mk name' args')
  | _, _ => False

def rangeBecomes : Option PackedRange → Option PackedRange → Prop
  | none, none => True
  | some range, some range' =>
    exprBecomes env ctx visible range.left range'.left ∧
      exprBecomes env ctx visible range.right range'.right
  | _, _ => False

def lvalueBecomes (lhs lhs' : Lvalue) : Prop :=
  lhs'.name = lhs.name ∧ optionBecomes env ctx visible lhs.receiver lhs'.receiver ∧
    optionBecomes env ctx visible lhs.index lhs'.index ∧
      nameBecomes env ctx visible lhs.scope lhs'.scope

def eventsBecome : List EventExpr → List EventExpr → Prop
  | [], [] => True
  | event :: events, event' :: events' =>
    event'.edge = event.edge ∧ exprBecomes env ctx visible event.expr event'.expr ∧
      eventsBecome events events'
  | _, _ => False

def controlBecomes : TimingControl → TimingControl → Prop
  | .delay amount, .delay amount' => exprBecomes env ctx visible amount amount'
  | .wait condition, .wait condition' => exprBecomes env ctx visible condition condition'
  | .event events, .event events' => eventsBecome env ctx visible events events'
  | _, _ => False

/-- The types, the initializer and the ranges of a declaration; the rest of it stays. -/
def varDeclBecomes (v v' : VarDecl) : Prop :=
  { v' with
    className := v.className, typeArgs := v.typeArgs, keyClassName := v.keyClassName
    init := v.init, packedRange := v.packedRange, unpackedRange := v.unpackedRange
    typeScope := v.typeScope } = v ∧
    (typeBecomes env ctx visible (v.className, v.typeArgs) (v'.className, v'.typeArgs) ∧
      nameBecomes env ctx visible v.keyClassName v'.keyClassName) ∧
    optionBecomes env ctx visible v.init v'.init ∧
    rangeBecomes env ctx visible v.packedRange v'.packedRange ∧
    rangeBecomes env ctx visible v.unpackedRange v'.unpackedRange ∧
    nameBecomes env ctx visible v.typeScope v'.typeScope

end

/-! ### Statements and classes -/

section

variable (env : Env) (ctx : SubstCtx)

mutual

def stmtBecomes (visible : String → Prop) : Stmt → Stmt → Prop
  | .block stmts, .block stmts' => stmtsBecome visible stmts stmts'
  | .varDecl v, .varDecl v' => varDeclBecomes env ctx visible v v'
  | .timed control body, .timed control' body' =>
    controlBecomes env ctx visible control control' ∧ stmtBecomes visible body body'
  | .blocking lhs rhs, .blocking lhs' rhs' =>
    lvalueBecomes env ctx visible lhs lhs' ∧ exprBecomes env ctx visible rhs rhs'
  | .nonblocking lhs rhs, .nonblocking lhs' rhs' =>
    lvalueBecomes env ctx visible lhs lhs' ∧ exprBecomes env ctx visible rhs rhs'
  | .ifElse cond thenBranch elseBranch, .ifElse cond' thenBranch' elseBranch' =>
    exprBecomes env ctx visible cond cond' ∧ stmtBecomes visible thenBranch thenBranch' ∧
      branchBecomes visible elseBranch elseBranch'
  | .whileLoop cond body, .whileLoop cond' body' =>
    exprBecomes env ctx visible cond cond' ∧ stmtBecomes visible body body'
  | .doWhile cond body, .doWhile cond' body' =>
    exprBecomes env ctx visible cond cond' ∧ stmtBecomes visible body body'
  | .case selector items default, .case selector' items' default' =>
    exprBecomes env ctx visible selector selector' ∧ itemsBecome visible items items' ∧
      branchBecomes visible default default'
  | .foreachLoop collection index body, .foreachLoop collection' index' body' =>
    index' = index ∧ exprBecomes env ctx visible collection collection' ∧
      stmtBecomes (hide [index] visible) body body'
  | .expr e, .expr e' => exprBecomes env ctx visible e e'
  | .trigger e, .trigger e' => exprBecomes env ctx visible e e'
  | .ret value, .ret value' => optionBecomes env ctx visible value value'
  | .sysCall name args, .sysCall name' args' =>
    name' = name ∧ exprsBecome env ctx visible args args'
  | .breakLoop, .breakLoop => True
  | .continueLoop, .continueLoop => True
  | .null, .null => True
  | .fork branches join, .fork branches' join' =>
    join' = join ∧ stmtsBecome visible branches branches'
  | _, _ => False
termination_by structural s => s

def stmtsBecome (visible : String → Prop) : List Stmt → List Stmt → Prop
  | [], [] => True
  | s :: ss, s' :: ss' => stmtBecomes visible s s' ∧ stmtsBecome (hide (declared s) visible) ss ss'
  | _, _ => False
termination_by structural ss => ss

def branchBecomes (visible : String → Prop) : Option Stmt → Option Stmt → Prop
  | none, none => True
  | some s, some s' => stmtBecomes visible s s'
  | _, _ => False
termination_by structural branch => branch

def itemsBecome (visible : String → Prop) :
    List (List Expr × Stmt) → List (List Expr × Stmt) → Prop
  | [], [] => True
  | (values, body) :: items, (values', body') :: items' =>
    exprsBecome env ctx visible values values' ∧ stmtBecomes visible body body' ∧
      itemsBecome visible items items'
  | _, _ => False
termination_by structural items => items

end

variable (visible : String → Prop)

def paramBecomes (p p' : Param) : Prop :=
  { p' with
    className := p.className, typeArgs := p.typeArgs, keyClassName := p.keyClassName
    default := p.default, packedRange := p.packedRange, typeScope := p.typeScope } = p ∧
    typeBecomes env ctx visible (p.className, p.typeArgs) (p'.className, p'.typeArgs) ∧
    nameBecomes env ctx visible p.keyClassName p'.keyClassName ∧
    optionBecomes env ctx visible p.default p'.default ∧
    rangeBecomes env ctx visible p.packedRange p'.packedRange ∧
    nameBecomes env ctx visible p.typeScope p'.typeScope

/-- Parameters hide formals in the body. -/
def funcBecomes (f f' : FuncDecl) : Prop :=
  { f' with
    retClass := f.retClass, params := f.params, body := f.body
    retPackedRange := f.retPackedRange } = f ∧
    nameBecomes env ctx visible f.retClass f'.retClass ∧
    List.Forall₂ (paramBecomes env ctx visible) f.params f'.params ∧
    stmtBecomes env ctx (hide (f.params.map Param.name) visible) f.body f'.body ∧
    rangeBecomes env ctx visible f.retPackedRange f'.retPackedRange

def targetBecomes : Option TypeRef → Option TypeRef → Prop
  | none, none => True
  | some target, some target' => TypeBecomes env ctx visible target target'
  | _, _ => False

def aliasBecomes (a a' : TypeAlias) : Prop :=
  a'.name = a.name ∧ TypeBecomes env ctx visible a.target a'.target

def collectionAliasBecomes (a a' : CollectionAlias) : Prop :=
  { a' with element := a.element, key := a.key } = a ∧
    targetBecomes env ctx visible a.element a'.element ∧
      targetBecomes env ctx visible a.key a'.key

/-- A class gives way to one with its formals replaced and none of its own. -/
def classBecomes (c c' : ClassDecl) : Prop :=
  (c'.params = [] ∧ c'.consts = c.consts ∧ c'.isStruct = c.isStruct) ∧
    typeBecomes env ctx visible (c.base, c.baseArgs) (c'.base, c'.baseArgs) ∧
    List.Forall₂ (varDeclBecomes env ctx visible) c.fields c'.fields ∧
    List.Forall₂ (aliasBecomes env ctx visible) c.typeAliases c'.typeAliases ∧
    List.Forall₂ (collectionAliasBecomes env ctx visible) c.collectionAliases c'.collectionAliases ∧
    List.Forall₂ (funcBecomes env ctx visible) c.methods c'.methods ∧
    Option.Rel (funcBecomes env ctx visible) c.constructor c'.constructor

end

/-! ### What mentions no formal stays -/

section

variable {env : Env} {ctx : SubstCtx} {visible : String → Prop}

mutual

/-- Behind scopes that hide none of its names, a type stands for the same class. -/
theorem means_of_denotes (tr : TypeRef) {s : String} (h : Denotes env ctx tr s)
    (hscoped : typeScoped ctx visible tr) : Means env ctx visible tr s := by
  cases tr with
  | mk name args =>
    obtain ⟨hname, hargs⟩ := hscoped
    cases h with
    | bound hbound =>
      exact .formal (hname.mpr (Option.ne_none_iff_exists'.mpr ⟨_, hbound⟩)) hbound
    | classAlias hbound halias h => exact .classAlias (fun h => hname.mp h hbound) halias h
    | globalAlias hbound halias hglobal h =>
      exact .globalAlias (fun h => hname.mp h hbound) halias hglobal h
    | named hbound halias hglobal h =>
      have hall := meansAll_of_denotesAll args h hargs
      exact .named (fun h => hname.mp h hbound) halias hglobal hall
termination_by structural tr

theorem meansAll_of_denotesAll (args : List TypeRef) {names : List String}
    (h : DenotesAll env ctx args names) (hscoped : typesScoped ctx visible args) :
    MeansAll env ctx visible args names := by
  cases args with
  | nil =>
    cases h
    exact .nil
  | cons arg args =>
    obtain ⟨harg, hargs⟩ := hscoped
    cases h with
    | cons hs hrest =>
      exact .cons (means_of_denotes arg hs harg) (meansAll_of_denotesAll args hrest hargs)
termination_by structural args

end

mutual

theorem exprBecomes_self (e : Expr) (h : ¬ inExpr (mentions visible) e) :
    exprBecomes env ctx visible e e := by
  cases e with
  | ref name => exact .other h
  | staticCall className classArgs method args =>
    obtain ⟨htype, hargs⟩ := not_or.mp h
    exact ⟨rfl, .same htype, exprsBecome_self args hargs⟩
  | staticRef className field => exact ⟨rfl, .same h⟩
  | unary op operand => exact ⟨rfl, exprBecomes_self operand h⟩
  | binary op lhs rhs =>
    obtain ⟨hlhs, hrhs⟩ := not_or.mp h
    exact ⟨rfl, exprBecomes_self lhs hlhs, exprBecomes_self rhs hrhs⟩
  | conditional condition whenTrue whenFalse =>
    obtain ⟨hcondition, hbranches⟩ := not_or.mp h
    obtain ⟨htrue, hfalse⟩ := not_or.mp hbranches
    exact ⟨exprBecomes_self condition hcondition, exprBecomes_self whenTrue htrue,
      exprBecomes_self whenFalse hfalse⟩
  | call name args => exact ⟨rfl, exprsBecome_self args h⟩
  | field obj field => exact ⟨rfl, exprBecomes_self obj h⟩
  | methodCall obj method args =>
    obtain ⟨hobj, hargs⟩ := not_or.mp h
    exact ⟨rfl, exprBecomes_self obj hobj, exprsBecome_self args hargs⟩
  | index base index =>
    obtain ⟨hbase, hindex⟩ := not_or.mp h
    exact ⟨exprBecomes_self base hbase, exprBecomes_self index hindex⟩
  | partSelect base left right =>
    obtain ⟨hbase, hbounds⟩ := not_or.mp h
    obtain ⟨hleft, hright⟩ := not_or.mp hbounds
    exact ⟨exprBecomes_self base hbase, exprBecomes_self left hleft,
      exprBecomes_self right hright⟩
  | new args => exact exprsBecome_self args h
  | concat parts => exact exprsBecome_self parts h
  | sysCall name args => exact ⟨rfl, exprsBecome_self args h⟩
  | literal _ | signedLiteral _ | fill _ | str _ => exact rfl
  | null => exact trivial
termination_by structural e

theorem exprsBecome_self (es : List Expr) (h : ¬ inExprs (mentions visible) es) :
    exprsBecome env ctx visible es es := by
  cases es with
  | nil => exact trivial
  | cons e es =>
    obtain ⟨he, hes⟩ := not_or.mp h
    exact ⟨exprBecomes_self e he, exprsBecome_self es hes⟩
termination_by structural es

end

theorem optionBecomes_self {e : Option Expr} (h : ¬ inOption (mentions visible) e) :
    optionBecomes env ctx visible e e := by
  cases e with
  | none => exact trivial
  | some e => exact exprBecomes_self e h

theorem nameBecomes_self {name : Option String} (h : ¬ inName (mentions visible) name) :
    nameBecomes env ctx visible name name := by
  cases name with
  | none => exact trivial
  | some name => exact .same h

theorem rangeBecomes_self {range : Option PackedRange} (h : ¬ inRange (mentions visible) range) :
    rangeBecomes env ctx visible range range := by
  cases range with
  | none => exact trivial
  | some range =>
    obtain ⟨hleft, hright⟩ := not_or.mp h
    exact ⟨exprBecomes_self range.left hleft, exprBecomes_self range.right hright⟩

theorem lvalueBecomes_self {lhs : Lvalue} (h : ¬ inLvalue (mentions visible) lhs) :
    lvalueBecomes env ctx visible lhs lhs := by
  obtain ⟨hreceiver, hrest⟩ := not_or.mp h
  obtain ⟨hindex, hscope⟩ := not_or.mp hrest
  exact ⟨rfl, optionBecomes_self hreceiver, optionBecomes_self hindex, nameBecomes_self hscope⟩

end

end Eevee.Classes.Substitution
