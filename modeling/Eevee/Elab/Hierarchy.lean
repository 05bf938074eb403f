/- The elaboration of a design from its root modules: scopes, generate constructs and instances. -/

import Mathlib.Data.List.Basic
import Eevee.Ast.Modules
import Eevee.Const.Evaluators
import Eevee.Lib.Tables

set_option autoImplicit false
set_option relaxedAutoImplicit false

namespace Eevee.Elab.Hierarchy

open Eevee.Ast.Modules
open Eevee.Const.Evaluators (Constants)
open Eevee.Core.Logic
open Eevee.Ir.Objects (toI64)
open Eevee.Lib.Tables (Names)

/-! ### Constants -/

def tryConstEvalWith (consts : Constants) (e : ConstExpr) : Option PackedVec :=
  (Const.Evaluators.Elab.tryConstEvalWith consts e).toOption

def tryConstEvalAtWidth (consts : Constants) (e : ConstExpr) (width : Nat) (signed : Bool) :
    Option PackedVec :=
  (Const.Evaluators.Elab.tryConstEvalAtWidth consts e width signed).toOption

/-- A constant without unknown bits; none where elaboration panics, as everywhere below. -/
def evaluateGenerateConstant (consts : Constants) (e : ConstExpr) : Option PackedVec :=
  (tryConstEvalWith consts e).filter PackedVec.isKnown

def resolveRangeBounds (range : PackedRange) (consts : Constants) : Option (Int × Int) :=
  (evaluateGenerateConstant consts range.left).bind fun left =>
    (evaluateGenerateConstant consts range.right).map fun right => (toI64 left, toI64 right)

def resolveDeclaredWidth (fallback : Nat) (packedRange : Option PackedRange) (consts : Constants) :
    Option Nat :=
  match packedRange with
  | none => some fallback
  | some range => (resolveRangeBounds range consts).bind fun (left, right) =>
    let width := (left - right).natAbs + 1
    if width < UInt32.size then some width else none

/-- The parameter that an override is for. -/
def overriddenParameter (parameters : List ModuleParameter) (position : Nat) :
    Option String → Option ModuleParameter
  | some name => parameters.find? (·.name = name)
  | none => parameters[position]?

/-- The values of the overrides, in the constants of the parent. -/
def resolveOverrides (parameters : List ModuleParameter) (parentConsts : Constants) :
    List (Option String × ConstExpr) → Nat → Names PackedVec → Option (Names PackedVec)
  | [], _, resolved => some resolved
  | (name, value) :: overrides, position, resolved =>
    (overriddenParameter parameters position name).bind fun parameter =>
      (tryConstEvalAtWidth parentConsts value parameter.width parameter.signed).bind fun value =>
        if (resolved parameter.name).isSome then none
        else resolveOverrides parameters parentConsts overrides (position + 1)
          (resolved.insert parameter.name value)

/-- The parameters in order; the defaults see those before. -/
def bindParameters (resolved : Names PackedVec) :
    List ModuleParameter → Constants → Option Constants
  | [], consts => some consts
  | p :: parameters, consts =>
    ((resolved p.name).or (tryConstEvalAtWidth consts p.default p.width p.signed)).bind fun value =>
      bindParameters resolved parameters
        (Names.insert consts p.name (value.resize p.width p.signed))

def bindModuleParameters {E : Type} (m : Module E) (overrides : List (Option String × ConstExpr))
    (parentConsts globalConsts : Constants) : Option Constants :=
  (resolveOverrides m.parameters parentConsts overrides 0 .empty).bind fun resolved =>
    bindParameters resolved m.parameters globalConsts

/-! ### Scopes -/

/-- A net of the scheduler. Those of declared nets and of ports of a net type have a kind, those of
variables have none. -/
structure SchedNet where
  path : List String
  kind : Option NetKind
  width : Nat
  deriving DecidableEq

structure MemoryInfo where
  left : Int
  right : Int
  elementWidth : Nat
  deriving DecidableEq

/-- What names of signals mean in the items of a module or a generate block. -/
structure Scope where
  /-- The scheduler net and the width. -/
  nets : Names (SchedNet × Nat)
  kinds : Names (Option NetKind)
  memories : Names MemoryInfo

namespace Scope

def empty : Scope := ⟨.empty, .empty, .empty⟩

def addSignal (s : Scope) (name : String) (net : SchedNet) (width : Nat)
    (kind : Option NetKind) : Scope :=
  { s with nets := s.nets.insert name (net, width), kinds := s.kinds.insert name kind }

def addMemory (s : Scope) (name : String) (memory : MemoryInfo) : Scope :=
  { s with memories := s.memories.insert name memory }

/-- The kind of a name that means a net. -/
def netKind (s : Scope) (name : String) : Option NetKind := (s.kinds name).join

end Scope

section

variable {E : Type} (path : List String) (consts : Constants)

def declareNets : List (ModuleItem E) → Scope → Option Scope
  | [], s => some s
  | .net n :: items, s => (resolveDeclaredWidth n.width n.packedRange consts).bind fun width =>
    declareNets items (s.addSignal n.name ⟨path ++ [n.name], some n.kind, width⟩ width n.kind)
  | _ :: items, s => declareNets items s

/-- A variable or a memory. -/
def declareVar (v : VarDecl E) (s : Scope) : Option Scope :=
  (resolveDeclaredWidth v.width v.packedRange consts).bind fun width =>
    match v.unpackedRange with
    | some range => (resolveRangeBounds range consts).map fun (left, right) =>
      s.addMemory v.name ⟨left, right, width⟩
    | none => some (s.addSignal v.name ⟨path ++ [v.name], none, width⟩ width none)

def declareVars : List (ModuleItem E) → Scope → Option Scope
  | [], s => some s
  | .var v :: items, s => (declareVar path consts v s).bind fun t => declareVars items t
  | _ :: items, s => declareVars items s

/-- The declarations of a list of items: the nets, then the variables. -/
def declare (items : List (ModuleItem E)) (s : Scope) : Option Scope :=
  (declareNets path consts items s).bind (declareVars path consts items)

end

/-! ### Ports -/

inductive PortConnectionMode
  | alias
  | inputBridge
  | outputBridge
  deriving DecidableEq

/-- What a port is bound to; a bridge is a process that drives one net with the value of the
other. -/
inductive PortBinding
  | alias (net : SchedNet)
  | inputBridge (source : SchedNet)
  | outputBridge (destination : SchedNet) (width : Nat)

def bridgeableResolution : NetKind → Bool
  | .wire | .wand | .wor => true
  | .tri0 | .tri1 | .supply0 | .supply1 => false

def portConnectionMode (port : Port) (actualKind : Option NetKind) : Option PortConnectionMode :=
  match port.netKind with
  | none => some .alias
  | some portKind =>
    if actualKind = some portKind then some .alias
    else
      match port.dir with
      | .input =>
        if bridgeableResolution portKind && actualKind.all bridgeableResolution then
          some .inputBridge
        else none
      | .output =>
        if bridgeableResolution portKind && actualKind.any bridgeableResolution then
          some .outputBridge
        else none
      | .inout | .ref => none

def PortConnectionMode.binding (net : SchedNet) (actualWidth : Nat) :
    PortConnectionMode → PortBinding
  | .alias => .alias net
  | .inputBridge => .inputBridge net
  | .outputBridge => .outputBridge net actualWidth

/-- Ports of another width than their signal are bridged. -/
def convertedMode (dir : PortDir) (mode : PortConnectionMode) (sameWidth : Bool) :
    Option PortConnectionMode :=
  if sameWidth then some mode
  else
    match dir with
    | .input => some .inputBridge
    | .output => some .outputBridge
    | .inout | .ref => none

def bindPort (port : Port) (actual : String) (parent : Scope) (childConsts : Constants) :
    Option PortBinding :=
  (parent.nets actual).bind fun (net, actualWidth) =>
    (resolveDeclaredWidth port.width port.packedRange childConsts).bind fun portWidth =>
      (portConnectionMode port (parent.netKind actual)).bind fun mode =>
        (convertedMode port.dir mode (actualWidth = portWidth)).map
          (PortConnectionMode.binding net actualWidth)

def connectedPort (ports : List Port) (position : Nat) : Option String → Option Port
  | some name => ports.find? (·.name = name)
  | none => ports[position]?

def bindInstancePorts (ports : List Port) (parent : Scope) (childConsts : Constants) :
    List (Option String × String) → Nat → Names PortBinding → Option (Names PortBinding)
  | [], _, bindings => some bindings
  | (name, actual) :: connections, position, bindings =>
    (connectedPort ports position name).bind fun port =>
      (bindPort port actual parent childConsts).bind fun binding =>
        bindInstancePorts ports parent childConsts connections (position + 1)
          (bindings.insert port.name binding)

/-- The net of a port: that of the parent, or its own. -/
def portNet (path : List String) (port : Port) (width : Nat) : Option PortBinding → SchedNet
  | some (.alias net) => net
  | _ => ⟨path ++ [port.name], port.netKind, width⟩

def portScope (path : List String) (consts : Constants) (bindings : Names PortBinding) :
    List Port → Scope → Option Scope
  | [], s => some s
  | port :: ports, s =>
    (resolveDeclaredWidth port.width port.packedRange consts).bind fun width =>
      portScope path consts bindings ports
        (s.addSignal port.name (portNet path port width (bindings port.name)) width port.netKind)

/-! ### Generate constructs -/

section

variable {E : Type}

/-- Whether the selector of a generate-case construct has the value of a label. -/
def labelMatches (consts : Constants) (selector : PackedVec) (label : ConstExpr) : Bool :=
  (evaluateGenerateConstant consts label).any fun value =>
    let width := max selector.width value.width
    (selector.resize width false).eqCase (value.resize width false)

/-- The values that the variable of a generate loop takes. -/
inductive Iteration (consts : Constants) (genvar : String) (initial condition step : ConstExpr) :
    PackedVec → Prop
  | first {value : PackedVec} (h : evaluateGenerateConstant consts initial = some value) :
    Iteration consts genvar initial condition step value
  | next {value going next : PackedVec} (h : Iteration consts genvar initial condition step value)
    (hcond : evaluateGenerateConstant (Names.insert consts genvar value) condition = some going)
    (htrue : going.isTrue = true)
    (hstep : evaluateGenerateConstant (Names.insert consts genvar value) step = some next)
    (hprogress : toI64 next ≠ toI64 value) : Iteration consts genvar initial condition step next

/-- The blocks that a generate construct selects, with the iteration of a loop and the constants in
the block. -/
inductive Selected (consts : Constants) :
    GenerateConstruct E → Option Int → Constants → GenerateBlock E → Prop
  | thenBlock {condition : ConstExpr} {block : GenerateBlock E} {other : Option (GenerateBlock E)}
    {value : PackedVec} (h : evaluateGenerateConstant consts condition = some value)
    (htrue : value.isTrue = true) :
    Selected consts (.ifElse condition block other) none consts block
  | elseBlock {condition : ConstExpr} {thenBlock block : GenerateBlock E} {value : PackedVec}
    (h : evaluateGenerateConstant consts condition = some value) (hfalse : value.isTrue = false) :
    Selected consts (.ifElse condition thenBlock (some block)) none consts block
  | caseItem {selector : ConstExpr} {items : List (List ConstExpr × GenerateBlock E)}
    {default : Option (GenerateBlock E)} {value : PackedVec} {labels : List ConstExpr}
    {block : GenerateBlock E} (h : evaluateGenerateConstant consts selector = some value)
    (hitem : items.find? (·.1.any (labelMatches consts value)) = some (labels, block)) :
    Selected consts (.case selector items default) none consts block
  | caseDefault {selector : ConstExpr} {items : List (List ConstExpr × GenerateBlock E)}
    {block : GenerateBlock E} {value : PackedVec}
    (h : evaluateGenerateConstant consts selector = some value)
    (hitems : items.find? (·.1.any (labelMatches consts value)) = none) :
    Selected consts (.case selector items (some block)) none consts block
  | iteration {genvar : String} {initial condition step : ConstExpr} {block : GenerateBlock E}
    {value going : PackedVec} (h : Iteration consts genvar initial condition step value)
    (hcond : evaluateGenerateConstant (Names.insert consts genvar value) condition = some going)
    (htrue : going.isTrue = true) :
    Selected consts (.loop genvar initial condition step block) (some (toI64 value))
      (Names.insert consts genvar value) block

/-- The part of the hierarchical name that a generate block adds. -/
def segment (name : String) : Option Int → String
  | some index => name ++ "[" ++ toString index ++ "]"
  | none => name

/-! ### Instances -/

mutual

/-- The modules that are instantiated by an item, by a generate construct or in a block. -/
def instantiatedItem : ModuleItem E → List String
  | .instance i => [i.moduleName]
  | .generate construct => instantiatedConstruct construct
  | _ => []

def instantiatedConstruct : GenerateConstruct E → List String
  | .ifElse _ thenBlock elseBlock => instantiatedBlock thenBlock ++ instantiatedDefault elseBlock
  | .case _ items default => instantiatedCases items ++ instantiatedDefault default
  | .loop _ _ _ _ block => instantiatedBlock block

def instantiatedBlock : GenerateBlock E → List String
  | .mk _ items => instantiatedItems items

def instantiatedItems : List (ModuleItem E) → List String
  | [] => []
  | item :: items => instantiatedItem item ++ instantiatedItems items

def instantiatedDefault : Option (GenerateBlock E) → List String
  | none => []
  | some block => instantiatedBlock block

def instantiatedCases : List (List ConstExpr × GenerateBlock E) → List String
  | [] => []
  | (_, block) :: items => instantiatedBlock block ++ instantiatedCases items

end

end

/-! ### Elaboration -/

structure Design (E : Type) where
  modules : List (Module E)
  /-- Constants of the packages. -/
  consts : Constants
  /-- The variables of the packages. -/
  globals : String → Bool

def Design.module {E : Type} (d : Design E) (name : String) : Option (Module E) :=
  d.modules.find? (·.name = name)

def Design.instantiated {E : Type} (d : Design E) : List String :=
  d.modules.flatMap fun m => instantiatedItems m.items

/-- An instance of a module, or a generate block in one: the names of signals in its items, after
its own declarations. -/
structure Region (E : Type) where
  m : Module E
  /-- Whether the items are those of a generate block. -/
  nested : Bool
  path : List String
  consts : Constants
  scope : Scope
  items : List (ModuleItem E)

def instanceScope {E : Type} (path : List String) (consts : Constants)
    (bindings : Names PortBinding) (m : Module E) : Option Scope :=
  (portScope path consts bindings m.ports .empty).bind (declare path consts m.items)

/-- What is elaborated from the modules that no module instantiates. -/
inductive Elaborated {E : Type} (d : Design E) : Region E → Prop
  | root {m : Module E} {consts : Constants} {scope : Scope} (hm : m ∈ d.modules)
    (hroot : m.name ∉ d.instantiated)
    (hconsts : bindModuleParameters m [] d.consts d.consts = some consts)
    (hscope : instanceScope [] consts .empty m = some scope) :
    Elaborated d ⟨m, false, [], consts, scope, m.items⟩
  | instance {parent : Region E} {i : ModuleInstance} {m : Module E} {consts : Constants}
    {bindings : Names PortBinding} {scope : Scope} (h : Elaborated d parent)
    (hitem : .instance i ∈ parent.items) (hchild : d.module i.moduleName = some m)
    (hconsts : bindModuleParameters m i.parameters parent.consts d.consts = some consts)
    (hbind : bindInstancePorts m.ports parent.scope consts i.connections 0 .empty = some bindings)
    (hscope : instanceScope (parent.path ++ [i.name]) consts bindings m = some scope) :
    Elaborated d ⟨m, false, parent.path ++ [i.name], consts, scope, m.items⟩
  | generate {parent : Region E} {construct : GenerateConstruct E} {index : Option Int}
    {consts : Constants} {block : GenerateBlock E} {scope : Scope} (h : Elaborated d parent)
    (hitem : .generate construct ∈ parent.items)
    (hselected : Selected parent.consts construct index consts block)
    (hscope : declare (parent.path ++ [segment block.name index]) consts block.items parent.scope =
      some scope) :
    Elaborated d ⟨parent.m, true, parent.path ++ [segment block.name index], consts, scope,
      block.items⟩

end Eevee.Elab.Hierarchy
