/- Class declarations with the whole syntax of their expressions and statements. -/

import Eevee.Ast.Syntax
import Eevee.Classes.Declarations
import Eevee.Core.Alu

set_option autoImplicit false
set_option relaxedAutoImplicit false

namespace Eevee.Ast.Classes

open Eevee.Core.Logic
open Eevee.Ast.Syntax (UnaryOp BinOp)
open Eevee.Classes.Declarations (TypeRef CollKind TypeAlias CollectionAlias ParamDecl)

inductive Expr
  | literal (value : LogicVec)
  | signedLiteral (value : LogicVec)
  | fill (bit : Bit)
  | str (text : String)
  | ref (name : String)
  | unary (op : UnaryOp) (operand : Expr)
  | binary (op : BinOp) (lhs rhs : Expr)
  | conditional (condition whenTrue whenFalse : Expr)
  | call (name : String) (args : List Expr)
  | field (obj : Expr) (field : String)
  | methodCall (obj : Expr) (method : String) (args : List Expr)
  /-- The actual type arguments of the class stand beside its name. -/
  | staticCall (className : String) (classArgs : List TypeRef) (method : String)
      (args : List Expr)
  | staticRef (className : String) (field : String)
  | index (base index : Expr)
  | partSelect (base left right : Expr)
  | new (args : List Expr)
  | null
  | concat (parts : List Expr)
  | sysCall (name : String) (args : List Expr)

structure PackedRange where
  left : Expr
  right : Expr

/-- A variable, a class field or a local of a body. -/
structure VarDecl where
  name : String
  width : Nat
  packedRange : Option PackedRange
  unpackedRange : Option PackedRange
  signed : Bool
  className : Option String
  typeScope : Option String
  typeArgs : List TypeRef
  isString : Bool
  isEvent : Bool
  coll : Option CollKind
  keyClassName : Option String
  isStatic : Bool
  init : Option Expr

/-- An assignment target, with the receiver of an object field, the index of an element and the
class of a static field. -/
structure Lvalue where
  name : String
  receiver : Option Expr
  index : Option Expr
  scope : Option String

inductive Edge
  | posedge | negedge | anyChange
  deriving DecidableEq

structure EventExpr where
  edge : Edge
  expr : Expr

inductive TimingControl
  | delay (amount : Expr)
  | event (events : List EventExpr)
  | wait (condition : Expr)

inductive ForkJoin
  | all | any | none
  deriving DecidableEq

inductive Stmt
  | block (stmts : List Stmt)
  | varDecl (v : VarDecl)
  | timed (control : TimingControl) (body : Stmt)
  | blocking (lhs : Lvalue) (rhs : Expr)
  | nonblocking (lhs : Lvalue) (rhs : Expr)
  | ifElse (cond : Expr) (thenBranch : Stmt) (elseBranch : Option Stmt)
  | whileLoop (cond : Expr) (body : Stmt)
  | doWhile (cond : Expr) (body : Stmt)
  | case (selector : Expr) (items : List (List Expr × Stmt)) (default : Option Stmt)
  | foreachLoop (collection : Expr) (index : String) (body : Stmt)
  | sysCall (name : String) (args : List Expr)
  | expr (e : Expr)
  | trigger (e : Expr)
  | ret (value : Option Expr)
  | breakLoop
  | continueLoop
  | fork (branches : List Stmt) (join : ForkJoin)
  | null

inductive PortDir
  | input | output | inout | ref
  deriving DecidableEq

structure Param where
  name : String
  dir : PortDir
  width : Nat
  signed : Bool
  isString : Bool
  packedRange : Option PackedRange
  className : Option String
  typeScope : Option String
  typeArgs : List TypeRef
  coll : Option CollKind
  keyClassName : Option String
  default : Option Expr

structure FuncDecl where
  name : String
  retWidth : Nat
  retSigned : Bool
  retIsString : Bool
  retPackedRange : Option PackedRange
  retClass : Option String
  classScope : Option String
  dpiName : Option String
  isVoid : Bool
  isVirtual : Bool
  params : List Param
  body : Stmt

structure ClassDecl where
  name : String
  base : Option String
  fields : List VarDecl
  methods : List FuncDecl
  constructor : Option FuncDecl
  typeAliases : List TypeAlias
  collectionAliases : List CollectionAlias
  params : List ParamDecl
  /-- The actual arguments of the base class. -/
  baseArgs : List TypeRef
  consts : List (String × LogicVec)
  isStruct : Bool

end Eevee.Ast.Classes
