/- Specializations of parameterized classes: resolved type references and substituted bodies. -/

import Eevee.Ast.Classes

set_option autoImplicit false
set_option relaxedAutoImplicit false

namespace Eevee.Classes.Specialization

open Eevee.Ast.Classes
open Eevee.Classes.Declarations (TypeRef TypeAlias CollectionAlias ParamDecl)
open Eevee.Core.Alu
open Eevee.Lib.Tables

/-! ### Names -/

def isNameChar (c : Char) : Bool :=
  ('a' ≤ c && c ≤ 'z') || ('A' ≤ c && c ≤ 'Z') || ('0' ≤ c && c ≤ '9') || c = '_'

def sanitize (s : String) : String :=
  if s.toList.isEmpty then "_"
  else String.ofList (s.toList.map fun c => if isNameChar c then c else '_')

/-- The parts after the base of a mangled name. -/
def suffix (parts : List String) : String :=
  String.join (parts.map fun part => "__" ++ part)

/-- The part of one formal: its argument, else the text of its default, else a placeholder. -/
def partOf (p : ParamDecl) (arg : Option String) : String :=
  sanitize ((arg.or p.fallback).getD "_")

/-- The formals with their arguments, as many as there are. -/
def withArgs : List ParamDecl → List String → List (ParamDecl × Option String)
  | [], _ => []
  | p :: params, [] => (p, none) :: withArgs params []
  | p :: params, arg :: argNames => (p, some arg) :: withArgs params argNames

def mangle (base : String) (params : List ParamDecl) (argNames : List String) : String :=
  base ++ suffix ((withArgs params argNames).map fun p => partOf p.1 p.2)

/-- A decimal number in the range of `i64`. -/
def parseI64 (text : String) : Option Int :=
  let (negative, digits) :=
    match text.toList with
    | '-' :: digits => (true, digits)
    | '+' :: digits => (false, digits)
    | digits => (false, digits)
  if digits.isEmpty || !digits.all Char.isDigit then none
  else
    let n : Int := digits.foldl (fun n c => 10 * n + (c.toNat - '0'.toNat)) (0 : Int)
    let value := if negative then -n else n
    if (BitVec.ofInt 64 value).toInt = value then some value else none

/-- The literal that stands for a bound value. -/
def valueToExpr (val : String) : Expr :=
  match parseI64 val with
  | some n => .literal (fromI64 (BitVec.ofInt 64 n) 32)
  | none => .str val

/-! ### State -/

/-- What names mean in the class that is being built. -/
structure SubstCtx where
  bindings : Names String
  valueBindings : Names String
  aliases : Names TypeRef

def SubstCtx.empty : SubstCtx := ⟨Names.empty, Names.empty, Names.empty⟩

/-- The declarations the specializations are made from. -/
structure Env where
  templates : Names ClassDecl
  globalAliases : Names TypeRef

/-- The classes built so far. -/
structure Mono where
  out : List ClassDecl
  index : Names Nat
  inProgress : List String

def Mono.empty : Mono := ⟨[], Names.empty, []⟩

/-- Steps that change the classes built so far, or run out of fuel. -/
abbrev Build := StateT Mono Option

/-! ### Substitution -/

section

variable (resolve : TypeRef → Build String) (ctx : SubstCtx)

mutual

def substExpr : Expr → Build Expr
  | .ref name =>
    match ctx.valueBindings name, ctx.bindings name with
    | some val, _ => pure (valueToExpr val)
    | none, some typeName => pure (.str typeName)
    | none, none => pure (.ref name)
  | .staticCall className classArgs method args => do
    let resolved ← resolve (.mk className classArgs)
    return .staticCall resolved [] method (← substExprs args)
  | .staticRef className field => do
    return .staticRef (← resolve (.mk className [])) field
  | .unary op operand => return .unary op (← substExpr operand)
  | .binary op lhs rhs => return .binary op (← substExpr lhs) (← substExpr rhs)
  | .conditional condition whenTrue whenFalse =>
    return .conditional (← substExpr condition) (← substExpr whenTrue) (← substExpr whenFalse)
  | .call name args => return .call name (← substExprs args)
  | .field obj field => return .field (← substExpr obj) field
  | .methodCall obj method args => return .methodCall (← substExpr obj) method (← substExprs args)
  | .index base index => return .index (← substExpr base) (← substExpr index)
  | .partSelect base left right =>
    return .partSelect (← substExpr base) (← substExpr left) (← substExpr right)
  | .new args => return .new (← substExprs args)
  | .concat parts => return .concat (← substExprs parts)
  | .sysCall name args => return .sysCall name (← substExprs args)
  | .literal value => return .literal value
  | .signedLiteral value => return .signedLiteral value
  | .fill bit => return .fill bit
  | .str text => return .str text
  | .null => return .null

def substExprs : List Expr → Build (List Expr)
  | [] => return []
  | e :: es => return (← substExpr e) :: (← substExprs es)

end

def substOption : Option Expr → Build (Option Expr)
  | none => return none
  | some e => return some (← substExpr resolve ctx e)

/-- A key class is a plain name. -/
def substKey : Option String → Build (Option String)
  | none => return none
  | some keyClass => return some (← resolve (.mk keyClass []))

/-- A resolved type takes no arguments. -/
def substType : Option String → List TypeRef → Build (Option String × List TypeRef)
  | none, typeArgs => return (none, typeArgs)
  | some className, typeArgs => return (some (← resolve (.mk className typeArgs)), [])

/-- The types of a declaration, not its initializer. -/
def substVardeclType (v : VarDecl) : Build VarDecl := do
  let type ← substType resolve v.className v.typeArgs
  let keyClassName ← substKey resolve v.keyClassName
  return { v with className := type.1, typeArgs := type.2, keyClassName }

def substEvents : List EventExpr → Build (List EventExpr)
  | [] => return []
  | event :: events =>
    return { event with expr := ← substExpr resolve ctx event.expr } :: (← substEvents events)

def substControl : TimingControl → Build TimingControl
  | .delay amount => return .delay (← substExpr resolve ctx amount)
  | .wait condition => return .wait (← substExpr resolve ctx condition)
  | .event events => return .event (← substEvents resolve ctx events)

mutual

/-- Assignment targets stay as they are. -/
def substStmt : Stmt → Build Stmt
  | .block stmts => return .block (← substStmts stmts)
  | .varDecl v => do
    let v ← substVardeclType resolve v
    return .varDecl { v with init := ← substOption resolve ctx v.init }
  | .timed control body =>
    return .timed (← substControl resolve ctx control) (← substStmt body)
  | .blocking lhs rhs => return .blocking lhs (← substExpr resolve ctx rhs)
  | .nonblocking lhs rhs => return .nonblocking lhs (← substExpr resolve ctx rhs)
  | .ifElse cond thenBranch elseBranch =>
    return .ifElse (← substExpr resolve ctx cond) (← substStmt thenBranch)
      (← substBranch elseBranch)
  | .whileLoop cond body => return .whileLoop (← substExpr resolve ctx cond) (← substStmt body)
  | .doWhile cond body => return .doWhile (← substExpr resolve ctx cond) (← substStmt body)
  | .case selector items default =>
    return .case (← substExpr resolve ctx selector) (← substItems items) (← substBranch default)
  | .foreachLoop collection index body =>
    return .foreachLoop (← substExpr resolve ctx collection) index (← substStmt body)
  | .expr e => return .expr (← substExpr resolve ctx e)
  | .trigger e => return .trigger (← substExpr resolve ctx e)
  | .ret value => return .ret (← substOption resolve ctx value)
  | .sysCall name args => return .sysCall name (← substExprs resolve ctx args)
  | .breakLoop => return .breakLoop
  | .continueLoop => return .continueLoop
  | .null => return .null
  | .fork branches join => return .fork (← substStmts branches) join

def substStmts : List Stmt → Build (List Stmt)
  | [] => return []
  | s :: ss => return (← substStmt s) :: (← substStmts ss)

def substBranch : Option Stmt → Build (Option Stmt)
  | none => return none
  | some s => return some (← substStmt s)

def substItems : List (List Expr × Stmt) → Build (List (List Expr × Stmt))
  | [] => return []
  | (values, body) :: items => do
    let values ← substExprs resolve ctx values
    return (values, ← substStmt body) :: (← substItems items)

end

def substParam (p : Param) : Build Param := do
  let type ← substType resolve p.className p.typeArgs
  let keyClassName ← substKey resolve p.keyClassName
  let default ← substOption resolve ctx p.default
  return { p with className := type.1, typeArgs := type.2, keyClassName, default }

def substFunc (f : FuncDecl) : Build FuncDecl := do
  let retClass ← substKey resolve f.retClass
  let params ← f.params.mapM (substParam resolve ctx)
  let body ← substStmt resolve ctx f.body
  return { f with retClass, params, body }

def substConstructor : Option FuncDecl → Build (Option FuncDecl)
  | none => return none
  | some ctor => return some (← substFunc resolve ctx ctor)

/-- The alias of a type stands for its resolved target. -/
def substAlias (a : TypeAlias) : Build TypeAlias :=
  return ⟨a.name, .mk (← resolve a.target) []⟩

def substTarget : Option TypeRef → Build (Option TypeRef)
  | none => return none
  | some target => return some (.mk (← resolve target) [])

def substCollectionAlias (a : CollectionAlias) : Build CollectionAlias :=
  return ⟨a.name, a.kind, ← substTarget resolve a.element, ← substTarget resolve a.key⟩

/-- The base is resolved first, then the declarations in order. -/
def buildSpec (tmpl : ClassDecl) (name : String) : Build ClassDecl := do
  let base ← substType resolve tmpl.base tmpl.baseArgs
  let fields ← tmpl.fields.mapM (substVardeclType resolve)
  let typeAliases ← tmpl.typeAliases.mapM (substAlias resolve)
  let collectionAliases ← tmpl.collectionAliases.mapM (substCollectionAlias resolve)
  let methods ← tmpl.methods.mapM (substFunc resolve ctx)
  let constructor ← substConstructor resolve ctx tmpl.constructor
  return ⟨name, base.1, fields, methods, constructor, typeAliases, collectionAliases, [], [],
    tmpl.consts, tmpl.isStruct⟩

end

/-! ### Specialization -/

def stub (name : String) : ClassDecl := ⟨name, none, [], [], none, [], [], [], [], [], false⟩

/-- Formals with an empty argument or default stay unbound. -/
def bindFormals (params : List (ParamDecl × Option String)) (ctx : SubstCtx) : SubstCtx :=
  params.foldl
    (fun ctx p =>
      let val := (p.2.or p.1.fallback).getD ""
      if val.isEmpty then ctx
      else
        { ctx with
          bindings := ctx.bindings.insert p.1.name val
          valueBindings :=
            if p.1.isType then ctx.valueBindings else ctx.valueBindings.insert p.1.name val })
    ctx

def bindAliases (aliases : List TypeAlias) (ctx : SubstCtx) : SubstCtx :=
  { ctx with aliases := aliases.foldl (fun names a => names.insert a.name a.target) ctx.aliases }

section

variable (env : Env) (resolve : SubstCtx → TypeRef → Build String)

/-- A recorded class, or one whose body is being built, is not built again. -/
def specialize (base : String) (argNames : List String) : Build String :=
  match env.templates base with
  | none => pure base
  | some tmpl => do
    let mangled := mangle base tmpl.params argNames
    let m ← get
    if (m.index mangled).isSome ∨ mangled ∈ m.inProgress then return mangled
    let ctx := bindAliases tmpl.typeAliases
      (bindFormals (withArgs tmpl.params argNames) SubstCtx.empty)
    let slot := m.out.length
    set (⟨m.out ++ [stub mangled], m.index.insert mangled slot, mangled :: m.inProgress⟩ : Mono)
    let spec ← buildSpec (resolve ctx) ctx tmpl mangled
    modify fun m => ⟨m.out.set slot spec, m.index, m.inProgress.erase mangled⟩
    return mangled

end

section

variable (env : Env)

/-- The name of the class that a type reference stands for; the number bounds the nesting of
aliases, arguments and bodies. -/
def resolve : Nat → SubstCtx → TypeRef → Build String
  | 0, _, _ => fun _ => none
  | n + 1, ctx, .mk name args =>
    match ctx.bindings name with
    | some bound => pure bound
    | none =>
      match ctx.aliases name with
      | some target => resolve n ctx target
      | none =>
        -- A global alias names a full type, so it takes no arguments.
        match (if args.isEmpty then env.globalAliases name else none) with
        | some target => resolve n ctx target
        | none => do
          let argNames ← args.mapM fun arg => resolve n ctx arg
          if argNames.isEmpty ∧ (env.templates name).isNone then return name
          specialize env (fun ctx tr => resolve n ctx tr) name argNames

end

/-- Later classes of the same name replace earlier ones. -/
def record (name : String) (decl : ClassDecl) : Build Unit :=
  modify fun m =>
    match m.index name with
    | some slot => { m with out := m.out.set slot decl }
    | none => { m with out := m.out ++ [decl], index := m.index.insert name m.out.length }

/-- The classes without parameters are built in order, and with them what they refer to. -/
def buildConcrete (env : Env) (n : Nat) (classes : List ClassDecl) : Build Unit :=
  (classes.filter fun c => c.params.isEmpty).forM fun c => do
    let ctx := bindAliases c.typeAliases SubstCtx.empty
    let spec ← buildSpec (resolve env n ctx) ctx c c.name
    record c.name spec

def resolveAliases (env : Env) (n : Nat) (aliases : List TypeAlias) : Build (Names String) :=
  aliases.foldlM
    (fun names a => return names.insert a.name (← resolve env n SubstCtx.empty a.target))
    Names.empty

/-- The first template and the first global alias of a name count. -/
def envOf (classes : List ClassDecl) (globalAliases : List TypeAlias) : Env where
  templates := (classes.filter fun c => !c.params.isEmpty).foldl
    (fun names c => names.orInsert c.name c) Names.empty
  globalAliases := globalAliases.foldl (fun names a => names.orInsert a.name a.target) Names.empty

def monomorphize (n : Nat) (classes : List ClassDecl) (globalAliases : List TypeAlias) :
    Option (List ClassDecl × Names String) := do
  let env := envOf classes globalAliases
  let (_, m) ← buildConcrete env n classes Mono.empty
  let (names, m) ← resolveAliases env n globalAliases m
  return (m.out, names)

end Eevee.Classes.Specialization
