/- Where formals occur in the declarations of a class, behind the scopes of its local variables. -/

import Mathlib.Data.List.ReduceOption
import Eevee.Ast.Classes

set_option autoImplicit false
set_option relaxedAutoImplicit false

namespace Eevee.Classes.Occurrences

open Eevee.Ast.Classes
open Eevee.Classes.Declarations (TypeRef)

/-! ### Occurrences -/

/-- The references and the types that count as occurrences. -/
structure Marks where
  ref : String → Prop
  type : TypeRef → Prop

/-- Names that are still visible behind local declarations. -/
def hide (names : List String) (visible : String → Prop) : String → Prop :=
  fun name => visible name ∧ name ∉ names

section

variable (marks : Marks)

mutual

def inExpr : Expr → Prop
  | .ref name => marks.ref name
  | .staticCall className classArgs _ args => marks.type (.mk className classArgs) ∨ inExprs args
  | .staticRef className _ => marks.type (.mk className [])
  | .unary _ operand => inExpr operand
  | .binary _ lhs rhs => inExpr lhs ∨ inExpr rhs
  | .conditional condition whenTrue whenFalse =>
    inExpr condition ∨ inExpr whenTrue ∨ inExpr whenFalse
  | .call _ args => inExprs args
  | .field obj _ => inExpr obj
  | .methodCall obj _ args => inExpr obj ∨ inExprs args
  | .index base index => inExpr base ∨ inExpr index
  | .partSelect base left right => inExpr base ∨ inExpr left ∨ inExpr right
  | .new args => inExprs args
  | .concat parts => inExprs parts
  | .sysCall _ args => inExprs args
  | .literal _ => False
  | .signedLiteral _ => False
  | .fill _ => False
  | .str _ => False
  | .null => False

def inExprs : List Expr → Prop
  | [] => False
  | e :: es => inExpr e ∨ inExprs es

end

def inOption : Option Expr → Prop
  | none => False
  | some e => inExpr marks e

def inName : Option String → Prop
  | none => False
  | some name => marks.type (.mk name [])

def inType : Option String → List TypeRef → Prop
  | none, _ => False
  | some name, args => marks.type (.mk name args)

def inRange : Option PackedRange → Prop
  | none => False
  | some range => inExpr marks range.left ∨ inExpr marks range.right

/-- The receiver, the index and the class of an assignment target. -/
def inLvalue (lhs : Lvalue) : Prop :=
  inOption marks lhs.receiver ∨ inOption marks lhs.index ∨ inName marks lhs.scope

def inEvents : List EventExpr → Prop
  | [] => False
  | event :: events => inExpr marks event.expr ∨ inEvents events

def inControl : TimingControl → Prop
  | .delay amount => inExpr marks amount
  | .wait condition => inExpr marks condition
  | .event events => inEvents marks events

/-- The types of a declaration that the traversal resolves. -/
def inVisitedType (v : VarDecl) : Prop :=
  inType marks v.className v.typeArgs ∨ inName marks v.keyClassName

/-- The other parts of a declaration's type. -/
def inSkippedType (v : VarDecl) : Prop :=
  inRange marks v.packedRange ∨ inRange marks v.unpackedRange ∨ inName marks v.typeScope

end

/-- The name of a single declaration. -/
def declaredName : Stmt → Option String
  | .varDecl v => some v.name
  | _ => none

/-- A declaration of several names is a block of their declarations. -/
def declaredTogether (names : List (Option String)) : List String :=
  if 2 ≤ names.length ∧ names.all Option.isSome then names.reduceOption else []

/-- The names that a statement declares for those after it. -/
def declared : Stmt → List String
  | .varDecl v => [v.name]
  | .block stmts => declaredTogether (stmts.map declaredName)
  | _ => []

section

-- What counts where the traversal looks, and where it does not, given the visible names.
variable (visited skipped : (String → Prop) → Marks)

mutual

def inStmt (visible : String → Prop) : Stmt → Prop
  | .block stmts => inStmts visible stmts
  | .varDecl v =>
    inVisitedType (visited visible) v ∨ inOption (visited visible) v.init ∨
      inSkippedType (skipped visible) v
  | .timed control body => inControl (visited visible) control ∨ inStmt visible body
  | .blocking lhs rhs => inLvalue (skipped visible) lhs ∨ inExpr (visited visible) rhs
  | .nonblocking lhs rhs => inLvalue (skipped visible) lhs ∨ inExpr (visited visible) rhs
  | .ifElse cond thenBranch elseBranch =>
    inExpr (visited visible) cond ∨ inStmt visible thenBranch ∨ inBranch visible elseBranch
  | .whileLoop cond body => inExpr (visited visible) cond ∨ inStmt visible body
  | .doWhile cond body => inExpr (visited visible) cond ∨ inStmt visible body
  | .case selector items default =>
    inExpr (visited visible) selector ∨ inItems visible items ∨ inBranch visible default
  | .foreachLoop collection index body =>
    inExpr (visited visible) collection ∨ inStmt (hide [index] visible) body
  | .expr e => inExpr (visited visible) e
  | .trigger e => inExpr (visited visible) e
  | .ret value => inOption (visited visible) value
  | .sysCall _ args => inExprs (visited visible) args
  | .breakLoop => False
  | .continueLoop => False
  | .null => False
  | .fork branches _ => inStmts visible branches

def inStmts (visible : String → Prop) : List Stmt → Prop
  | [] => False
  | s :: ss => inStmt visible s ∨ inStmts (hide (declared s) visible) ss

def inBranch (visible : String → Prop) : Option Stmt → Prop
  | none => False
  | some s => inStmt visible s

def inItems (visible : String → Prop) : List (List Expr × Stmt) → Prop
  | [] => False
  | (values, body) :: items =>
    inExprs (visited visible) values ∨ inStmt visible body ∨ inItems visible items

end

variable (visible : String → Prop)

def inParam (p : Param) : Prop :=
  inType (visited visible) p.className p.typeArgs ∨ inName (visited visible) p.keyClassName ∨
    inOption (visited visible) p.default ∨ inRange (skipped visible) p.packedRange ∨
      inName (skipped visible) p.typeScope

/-- Parameters hide formals in the body. -/
def inFunc (f : FuncDecl) : Prop :=
  inName (visited visible) f.retClass ∨ (∃ p ∈ f.params, inParam visited skipped visible p) ∨
    inStmt visited skipped (hide (f.params.map Param.name) visible) f.body ∨
      inRange (skipped visible) f.retPackedRange

/-- The initializer of a field is not visited. -/
def inField (v : VarDecl) : Prop :=
  inVisitedType (visited visible) v ∨ inOption (skipped visible) v.init ∨
    inSkippedType (skipped visible) v

def inTarget : Option TypeRef → Prop
  | none => False
  | some target => (visited visible).type target

/-- The constants of a class are values and mention nothing. -/
def inClass (c : ClassDecl) : Prop :=
  inType (visited visible) c.base c.baseArgs ∨ (∃ v ∈ c.fields, inField visited skipped visible v) ∨
    (∃ a ∈ c.typeAliases, (visited visible).type a.target) ∨
    (∃ a ∈ c.collectionAliases,
      inTarget visited visible a.element ∨ inTarget visited visible a.key) ∨
    (∃ f ∈ c.methods, inFunc visited skipped visible f) ∨
    (∃ f ∈ c.constructor, inFunc visited skipped visible f)

end

/-! ### Mentions and what remains of them -/

mutual

def typeMentions (visible : String → Prop) : TypeRef → Prop
  | .mk name args => visible name ∨ typesMention visible args

def typesMention (visible : String → Prop) : List TypeRef → Prop
  | [] => False
  | arg :: args => typeMentions visible arg ∨ typesMention visible args

end

/-- Every visible name counts. -/
def mentions (visible : String → Prop) : Marks := ⟨visible, typeMentions visible⟩

end Eevee.Classes.Occurrences
