/- The declarations that the code generator's lookups of a name select. -/

import Mathlib.Data.List.Basic
import Eevee.Classes.Layout

set_option autoImplicit false
set_option relaxedAutoImplicit false

namespace Eevee.Elab.Names

open Eevee.Core.Logic
open Eevee.Lib.Tables
open Eevee.Classes.Declarations
open Eevee.Classes.Layout

/-! ### Declarations -/

/-- A variable with what the tables record of its type. -/
structure Variable where
  name : String
  /-- The register, the field slot or the number of the static variable. -/
  place : Nat
  width : Nat
  signed : Bool
  isString : Bool
  isEvent : Bool
  coll : Option CollInfo
  cls : Option ClassId
  enumTable : Option Nat
  /-- The index of a `foreach` loop, with the class of the keys if they are handles. -/
  isIndex : Bool
  deriving DecidableEq

/-- What the tables keep of a local variable when a later one has its name: an index takes the entry
of the handle, a collection the entry of the event. -/
def Variable.behind (v later : Variable) : Variable :=
  { v with
    cls := if later.isIndex then none else v.cls
    isEvent := v.isEvent && later.coll.isNone }

/-- The local variables of a name, latest first, as the tables have them. -/
def kept : List Variable → List Variable
  | [] => []
  | v :: vs => v :: (kept vs).map (·.behind v)

theorem kept_find (l : List Variable) :
    (kept l).find? (fun _ => true) = l.find? fun _ => true := by
  cases l <;> rfl

/-- The scopes of variables, innermost first. -/
inductive Scope
  | local | field | static | package
  deriving DecidableEq

structure Method where
  name : String
  fid : FuncId
  retClass : Option ClassId
  retIntegral : Option (Nat × Bool)
  deriving DecidableEq

structure Function where
  name : String
  fid : FuncId
  retIntegral : Option (Nat × Bool)
  deriving DecidableEq

inductive SignalKind
  | net (id width : Nat)
  | memory (elements : List Nat) (left right : Int) (elementWidth : Nat)
  deriving DecidableEq

def SignalKind.isNet : SignalKind → Bool
  | net _ _ => true
  | memory _ _ _ _ => false

/-- A net or a fixed memory of a module. -/
structure Signal where
  name : String
  signed : Bool
  kind : SignalKind
  deriving DecidableEq

/-- What a name can stand for. -/
inductive Decl
  | this
  | variable (scope : Scope) (v : Variable)
  | const (name : String)
  | method (m : Method)
  | function (f : Function)
  | signal (s : Signal)
  deriving DecidableEq

/-- The declarations in scope. Local variables, fields, static fields, methods and signals come
latest first; the lists of fields, static fields and methods are those of the class being
compiled with what it inherits, and empty outside classes. -/
structure Env where
  locals : List Variable
  fields : List Variable
  statics : List Variable
  /-- Of package variables with the same name the first counts. -/
  packageVars : Names Variable
  consts : Names PackedVec
  methods : List Method
  functions : List Function
  signals : List Signal
  /-- The static fields of the class that a class name resolves to. -/
  classStatics : Names (List Variable)
  distinct : functions.Nodup

namespace Env

variable (env : Env) (name : String)

/-! ### Tables -/

/-- The declarations of a name in a scope, latest first. -/
def named : Scope → List Variable
  | .local => kept (env.locals.filter (·.name = name))
  | .field => env.fields.filter (·.name = name)
  | .static => env.statics.filter (·.name = name)
  | .package => (env.packageVars name).toList

/-- The entry of a table that the declarations with a property enter: the latest one's. -/
def found (scope : Scope) (records : Variable → Bool) : Option Decl :=
  ((env.named name scope).find? records).map (.variable scope)

/-- The tables of the scopes, one after the other. -/
def chain (records : Scope → Variable → Bool) : Option Decl :=
  (env.found name .local (records .local)).or <|
    (env.found name .field (records .field)).or <|
      (env.found name .static (records .static)).or
        (env.found name .package (records .package))

def const : Option Decl := (env.consts name).map fun _ => .const name

/-- The method that the name calls on the current object. -/
def methodOfCtx : Option Decl := (env.methods.find? (·.name = name)).map .method

def net : Option Decl :=
  (env.signals.find? fun s => s.name = name ∧ s.kind.isNet).map .signal

def memory : Option Decl :=
  (env.signals.find? fun s => s.name = name ∧ ¬ s.kind.isNet).map .signal

/-- The table of signedness has an entry for nets and memories. -/
def netSigned : Option Decl := (env.signals.find? (·.name = name)).map .signal

/-! ### Lookups of a simple name -/

def anyVariable : Option Decl := env.chain name fun _ _ => true

/-- The value of the name as an expression. -/
def value : Option Decl :=
  if name = "this" then some .this
  else
    (env.anyVariable name).or <| (env.const name).or <| (env.methodOfCtx name).or <|
      (env.memory name).or (env.net name)

/-- The target of an assignment to the whole. -/
def wholeWrite : Option Decl := (env.anyVariable name).or (env.net name)

/-- The target of an assignment to an element or bit. -/
def indexWrite : Option Decl := (env.memory name).or <| (env.net name).or (env.value name)

/-- The base of an element or bit that is read. -/
def indexRead : Option Decl := (env.memory name).or (env.value name)

/-- A variable of a scope, unless the scope knows the name as a string. -/
def unlessString (scope : Scope) : Option Decl :=
  match env.found name scope (·.isString) with
  | some _ => none
  | none => env.found name scope fun _ => true

def width : Option Decl :=
  (env.unlessString name .local).or <| (env.net name).or <| (env.const name).or <|
    (env.unlessString name .field).or <| (env.unlessString name .static).or
      (env.unlessString name .package)

def signedness : Option Decl :=
  (env.found name .local fun _ => true).or <| (env.netSigned name).or <|
    (env.found name .field fun _ => true).or <| (env.found name .static fun _ => true).or
      (env.found name .package fun _ => true)

/-- The types without a width, as each scope records them. -/
def unsized : Scope → Variable → Bool
  | .local, v => v.cls.isSome || v.coll.isSome || v.enumTable.isSome || v.isEvent || v.isString
  | _, v => v.cls.isSome || v.coll.isSome || v.isString

def lvalueWidth : Option Decl := (env.chain name unsized).or (env.wholeWrite name)

def lvalueIndexWidth : Option Decl := (env.memory name).or (env.net name)

/-- The class of an object that is assigned to the name. -/
def newClass : Option Decl := env.chain name fun _ v => v.cls.isSome

def receiverClass : Option Decl :=
  if name = "this" then some .this else env.newClass name

def collection : Option Decl :=
  if name = "this" then none else env.chain name fun _ v => v.coll.isSome

def namedEvent : Option Decl :=
  (env.found name .local (·.isEvent)).or (env.found name .field (·.isEvent))

def stringReceiver : Option Decl :=
  (env.found name .local (·.isString)).or (env.found name .field (·.isString))

def enumTable : Option Decl := env.found name .local (·.enumTable.isSome)

/-- The nets that a continuous assignment or a wait listens to. -/
def sensitivity : Option Decl := env.net name

def indexSensitivity : Option Decl := (env.memory name).or (env.net name)

/-- What every lookup of a simple name selects. -/
def selections : List (Option Decl) :=
  [env.value name, env.wholeWrite name, env.indexWrite name, env.indexRead name, env.width name,
    env.signedness name, env.lvalueWidth name, env.lvalueIndexWidth name, env.newClass name,
    env.receiverClass name, env.collection name, env.namedEvent name, env.stringReceiver name,
    env.enumTable name, env.sensitivity name, env.indexSensitivity name]

/-! ### Calls and scoped references -/

/-- The first function of the name is called. -/
def functionNamed : Option Decl := (env.functions.find? (·.name = name)).map .function

/-- The last function of the name with an integral result gives its type. -/
def integralFunction : Option Decl :=
  (env.functions.reverse.find? fun f => f.name = name ∧ f.retIntegral.isSome).map .function

def callee : Option Decl := (env.methodOfCtx name).or (env.functionNamed name)

def callType : Option Decl :=
  if (env.methodOfCtx name).isSome then
    (env.methods.find? fun m => m.name = name ∧ m.retIntegral.isSome).map .method
  else env.integralFunction name

/-- The class of what a call returns; the results of free functions are no receivers. -/
def callClass : Option Decl :=
  if (env.methodOfCtx name).isSome then
    (env.methods.find? fun m => m.name = name ∧ m.retClass.isSome).map .method
  else none

def callSelections : List (Option Decl) :=
  [env.callee name, env.callType name, env.callClass name]

/-- The static field of a class that the name resolves to. -/
def scopedStatic (className : String) (records : Variable → Bool) : Option Decl :=
  (env.classStatics className).bind fun statics =>
    (statics.find? fun v => v.name = name ∧ records v).map (.variable .static)

def scopedValue (className : String) : Option Decl :=
  (env.found name .package fun _ => true).or <| (env.const name).or <|
    (env.scopedStatic name className fun _ => true).or <|
      (env.const className).or (env.value name)

def scopedWidth (className : String) : Option Decl :=
  if (env.scopedStatic name className (·.isString)).isSome then none
  else env.scopedStatic name className fun _ => true

def scopedSignedness (className : String) : Option Decl :=
  env.scopedStatic name className fun _ => true

def scopedWrite (className : String) : Option Decl :=
  env.scopedStatic name className fun _ => true

def scopedLvalueWidth (className : String) : Option Decl :=
  (env.scopedStatic name className (unsized .static)).or (env.scopedWrite name className)

def scopedSelections (className : String) : List (Option Decl) :=
  [env.scopedValue name className, env.scopedWidth name className,
    env.scopedSignedness name className, env.scopedWrite name className,
    env.scopedLvalueWidth name className]

end Env

/-! ### Agreement -/

/-- A use of a name. -/
inductive Use
  | simple (name : String)
  | call (name : String)
  | member (className name : String)

def Use.selections (env : Env) : Use → List (Option Decl)
  | simple name => env.selections name
  | call name => env.callSelections name
  | member className name => env.scopedSelections name className

/-- The lookups that select a declaration select the same one. -/
def SameDeclaration (selections : List (Option Decl)) : Prop :=
  ∃ d, ∀ selection ∈ selections, selection = none ∨ selection = some d

end Eevee.Elab.Names
