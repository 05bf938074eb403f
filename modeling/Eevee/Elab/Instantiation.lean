/- The check of the module hierarchy, and the recursion over instances and generate constructs. -/

import Mathlib.Data.List.Basic
import Mathlib.Logic.Relation
import Mathlib.Tactic.Common
import Eevee.Elab.Hierarchy
import Eevee.Lib.DepthFirst
import Eevee.Lib.TaskTree

set_option autoImplicit false
set_option relaxedAutoImplicit false

namespace Eevee.Elab.Instantiation

open Relation (TransGen)
open Eevee.Ast.Modules
open Eevee.Const.Evaluators (Constants)
open Eevee.Core.Logic
open Eevee.Elab.Hierarchy
open Eevee.Ir.Objects (toI64)
open Eevee.Lib.Tables (Names)
open Eevee.Lib

variable {E : Type}

/-! ### The check of the hierarchy -/

def declares (d : Design E) (name : String) : Bool := (d.module name).isSome

/-- The modules that a module instantiates, in any generate construct. -/
def children (d : Design E) (name : String) : List String :=
  ((d.module name).map fun m => instantiatedItems m.items).getD []

/-- The depth-first search over the instantiation graph. -/
def visitModule (d : Design E) :
    Nat → String → DepthFirst.Search String → DepthFirst.Outcome String :=
  DepthFirst.visit (declares d) (children d)

def failureMessage : DepthFirst.Failure String → String
  | .cycle path => "cyclic module hierarchy: " ++ " -> ".intercalate path
  | .undeclared name child =>
    "unknown module '" ++ child ++ "' instantiated within module '" ++ name ++ "'"

inductive Verdict
  | accepted
  | rejected (message : String)
  | timeout
  deriving DecidableEq

section

-- the checks of a module by itself, and of an instance against the module it instantiates
variable (checkModule : Module E → Except String Unit)
  (checkInstance : Module E → Module E → ModuleInstance → Except String Unit)

def checkModules : List (Module E) → List String → Except String Unit
  | [], _ => .ok ()
  | m :: rest, names =>
    if m.name ∈ names then .error ("duplicate module declaration '" ++ m.name ++ "'")
    else (checkModule m).bind fun _ => checkModules rest (m.name :: names)

def checkInstances (d : Design E) (m : Module E) : List (ModuleItem E) → Except String Unit
  | [] => .ok ()
  | .instance i :: rest =>
    match d.module i.moduleName with
    | none => .error
        ("unknown module '" ++ i.moduleName ++ "' instantiated as '" ++ m.name ++ "." ++
        i.name ++ "'")
    | some child => (checkInstance m child i).bind fun _ => checkInstances d m rest
  | _ :: rest => checkInstances d m rest

def checkAllInstances (d : Design E) : List (Module E) → Except String Unit
  | [] => .ok ()
  | m :: rest => (checkInstances checkInstance d m m.items).bind fun _ => checkAllInstances d rest

/-- The values and the keys of the table of modules come in any order. -/
def validateHierarchy (d : Design E) (values : List (Module E)) (keys : List String) : Verdict :=
  match (checkModules checkModule d.modules []).bind fun _ =>
      checkAllInstances checkInstance d values with
  | .error message => .rejected message
  | .ok _ =>
    match DepthFirst.visitRoots (declares d) (children d) (d.modules.length + 1) keys .start with
    | .ok _ => .accepted
    | .error failure => .rejected (failureMessage failure)
    | .timeout => .timeout

end

/-! ### The recursion of the elaboration -/

/-- What is elaborated by a call: an instance, items, a generate construct, a block of one. -/
inductive Task (E : Type)
  | instance (m : Module E) (path : List String) (bindings : Names PortBinding)
    (overrides : List (Option String × ConstExpr)) (parentConsts : Constants)
  | items (m : Module E) (nested : Bool) (path : List String) (scope : Scope) (consts : Constants)
    (items : List (ModuleItem E))
  | construct (m : Module E) (path : List String) (scope : Scope) (consts : Constants)
    (construct : GenerateConstruct E)
  | block (m : Module E) (path : List String) (scope : Scope) (consts : Constants)
    (index : Option Int) (block : GenerateBlock E)

/-- A child instance; none where elaboration panics. -/
def instanceTask (d : Design E) (path : List String) (scope : Scope) (consts : Constants)
    (i : ModuleInstance) : Option (Task E) :=
  (d.module i.moduleName).bind fun child =>
    (bindModuleParameters child i.parameters consts d.consts).bind fun childConsts =>
      (bindInstancePorts child.ports scope childConsts i.connections 0 .empty).map fun bindings =>
        .instance child (path ++ [i.name]) bindings i.parameters consts

/-- The generate constructs come first, then the instances. -/
def itemTasks (d : Design E) (m : Module E) (path : List String) (scope : Scope)
    (consts : Constants) (items : List (ModuleItem E)) : List (Option (Task E)) :=
  items.filterMap (fun
    | .generate construct => some (some (.construct m path scope consts construct))
    | _ => none) ++
  items.filterMap fun
    | .instance i => some (instanceTask d path scope consts i)
    | _ => none

/-- Whether one of the labels has the value of the selector; labels behind it are not evaluated. -/
def matchesLabel (consts : Constants) (selector : PackedVec) : List ConstExpr → Option Bool
  | [] => some false
  | label :: rest => (evaluateGenerateConstant consts label).bind fun _ =>
    if labelMatches consts selector label then some true else matchesLabel consts selector rest

def selectItem (consts : Constants) (selector : PackedVec) :
    List (List ConstExpr × GenerateBlock E) → Option (Option (GenerateBlock E))
  | [] => some none
  | (labels, block) :: rest => (matchesLabel consts selector labels).bind fun found =>
    if found then some (some block) else selectItem consts selector rest

def loopBound : Nat := 1000000

section

variable (m : Module E) (path : List String) (scope : Scope) (consts : Constants)

/-- The blocks of a generate loop from a value of its variable on. -/
def loopTasks (genvar : String) (condition step : ConstExpr) (block : GenerateBlock E) :
    Nat → PackedVec → List (Option (Task E))
  | 0, _ => [none]
  | n + 1, value =>
    let iterationConsts := Names.insert consts genvar value
    match evaluateGenerateConstant iterationConsts condition with
    | none => [none]
    | some going =>
      if going.isTrue then
        some (.block m path scope iterationConsts (some (toI64 value)) block) ::
          match evaluateGenerateConstant iterationConsts step with
          | none => [none]
          | some next =>
            if toI64 next = toI64 value then [none]
            else loopTasks genvar condition step block n next
      else []

def blockTasks (block : Option (GenerateBlock E)) : List (Option (Task E)) :=
  (block.map fun block => some (.block m path scope consts none block)).toList

def constructTasks : GenerateConstruct E → List (Option (Task E))
  | .ifElse condition thenBlock elseBlock =>
    match evaluateGenerateConstant consts condition with
    | none => [none]
    | some value =>
      blockTasks m path scope consts (if value.isTrue then some thenBlock else elseBlock)
  | .case selector items default =>
    match (evaluateGenerateConstant consts selector).bind fun value =>
        selectItem consts value items with
    | none => [none]
    | some selected => blockTasks m path scope consts (selected.or default)
  | .loop genvar initial condition step block =>
    match evaluateGenerateConstant consts initial with
    | none => [none]
    | some value => loopTasks m path scope consts genvar condition step block loopBound value

end

/-- The calls that a call makes, in order. -/
def subtasks (d : Design E) : Task E → List (Option (Task E))
  | .instance m path bindings overrides parentConsts =>
    match bindModuleParameters m overrides parentConsts d.consts with
    | none => [none]
    | some consts =>
      match portScope path consts bindings m.ports .empty with
      | none => [none]
      | some scope => [some (.items m false path scope consts m.items)]
  | .items m _ path scope consts items =>
    match declare path consts items scope with
    | none => [none]
    | some scope => itemTasks d m path scope consts items
  | .construct m path scope consts construct => constructTasks m path scope consts construct
  | .block m path scope consts index block =>
    [some (.items m true (path ++ [Hierarchy.segment block.name index]) scope consts block.items)]

/-- Elaborates an instance of a module with everything in it. -/
def elaborateModuleInstance (d : Design E) (fuel : Nat) (m : Module E) (path : List String)
    (bindings : Names PortBinding) (overrides : List (Option String × ConstExpr))
    (parentConsts : Constants) : TaskTree.Outcome (Task E) :=
  TaskTree.perform (subtasks d) fuel (.instance m path bindings overrides parentConsts)

/-! ### Accepted hierarchies -/

section

variable {checkModule : Module E → Except String Unit}
  {checkInstance : Module E → Module E → ModuleInstance → Except String Unit} {d : Design E}
  {values : List (Module E)} {keys : List String}

/-- An edge of the instantiation graph. -/
def Instantiates (d : Design E) (name child : String) : Prop :=
  ∃ m ∈ d.modules, m.name = name ∧ child ∈ instantiatedItems m.items

/-- The modules of the table and their names, in the orders in which it is walked. -/
structure Orders (d : Design E) (values : List (Module E)) (keys : List String) : Prop where
  values : values.Perm d.modules
  keys : keys.Perm (d.modules.map Module.name)

theorem distinct_of_checkModules {modules : List (Module E)} {names : List String}
    (h : checkModules checkModule modules names = .ok ()) :
    (modules.map Module.name).Nodup ∧ ∀ m ∈ modules, m.name ∉ names := by
  induction modules generalizing names with
  | nil => exact ⟨List.nodup_nil, fun _ hm => by cases hm⟩
  | cons m rest ih =>
    rw [checkModules] at h
    split_ifs at h with hname
    have hrest : checkModules checkModule rest (m.name :: names) = .ok () := by
      cases hm : checkModule m with
      | error message =>
        rw [hm] at h
        cases h
      | ok u =>
        rw [hm] at h
        exact h
    obtain ⟨hnodup, hfresh⟩ := ih hrest
    refine ⟨List.nodup_cons.mpr ⟨fun hmem => ?_, hnodup⟩, fun m' hm' => ?_⟩
    · obtain ⟨m', hm', heq⟩ := List.mem_map.mp hmem
      exact hfresh m' hm' (heq ▸ List.mem_cons_self)
    · rcases List.mem_cons.mp hm' with rfl | hm'
      · exact hname
      · exact fun hmem => hfresh m' hm' (List.mem_cons_of_mem _ hmem)

/-- Where names are different, each module is what its name stands for. -/
theorem module_of_mem (hnodup : (d.modules.map Module.name).Nodup) {m : Module E}
    (hm : m ∈ d.modules) : d.module m.name = some m := by
  unfold Design.module
  generalize d.modules = modules at hnodup hm
  induction modules with
  | nil => cases hm
  | cons first rest ih =>
    rw [List.map_cons, List.nodup_cons] at hnodup
    rw [List.find?_cons]
    rcases List.mem_cons.mp hm with rfl | hm
    · simp
    · have hne : first.name ≠ m.name := fun heq => hnodup.1 (heq ▸ List.mem_map_of_mem hm)
      simp only [hne, decide_false]
      exact ih hnodup.2 hm

theorem mem_of_declares {name : String} (h : declares d name = true) :
    name ∈ d.modules.map Module.name := by
  obtain ⟨m, hm⟩ := Option.isSome_iff_exists.mp h
  have hname := List.find?_some hm
  exact List.mem_map.mpr ⟨m, List.mem_of_find?_eq_some hm, by simpa using hname⟩

/-- The check of a hierarchy ends. -/
theorem validateHierarchy_ne_timeout (horders : Orders d values keys) :
    validateHierarchy checkModule checkInstance d values keys ≠ .timeout := by
  unfold validateHierarchy
  split
  · exact fun he => by cases he
  · have hroots : DepthFirst.visitRoots (declares d) (children d) (d.modules.length + 1) keys
        .start ≠ .timeout := by
      refine @DepthFirst.search_ne_timeout _ _ _ _ _ (d.modules.map Module.name).toFinset
        (fun b hb => List.mem_toFinset.mpr (mem_of_declares hb)) _
        (fun a ha => List.mem_toFinset.mpr (horders.keys.subset ha)) ?_
      have hcard := (d.modules.map Module.name).toFinset_card_le
      rw [List.length_map] at hcard
      exact Nat.lt_succ_of_le hcard
    split
    · exact fun he => by cases he
    · exact fun he => by cases he
    · next htimeout => exact absurd htimeout hroots

/-- What acceptance says: names are different, and every module is grounded. -/
theorem grounded_of_accepted (horders : Orders d values keys)
    (h : validateHierarchy checkModule checkInstance d values keys = .accepted) :
    (d.modules.map Module.name).Nodup ∧
      ∀ m ∈ d.modules, DepthFirst.Grounded (declares d) (children d) m.name := by
  unfold validateHierarchy at h
  split at h
  · cases h
  next u hchecks =>
  have hmodules : checkModules checkModule d.modules [] = .ok () := by
    cases hm : checkModules checkModule d.modules [] with
    | error message =>
      rw [hm] at hchecks
      cases hchecks
    | ok u => rfl
  refine ⟨(distinct_of_checkModules hmodules).1, fun m hm => ?_⟩
  split at h
  · next hroots =>
    exact DepthFirst.grounded_of_roots hroots m.name
      (horders.keys.symm.subset (List.mem_map_of_mem hm))
  · cases h
  · cases h

theorem children_of_mem (hnodup : (d.modules.map Module.name).Nodup) {m : Module E}
    (hm : m ∈ d.modules) : children d m.name = instantiatedItems m.items := by
  rw [children, module_of_mem hnodup hm]
  rfl

theorem child_of_instantiates (hnodup : (d.modules.map Module.name).Nodup) {name child : String}
    (h : Instantiates d name child) : DepthFirst.Child (children d) name child := by
  obtain ⟨m, hm, rfl, hchild⟩ := h
  rw [DepthFirst.Child, children_of_mem hnodup hm]
  exact hchild

/-- A cycle or an undeclared module is an error. -/
theorem rejected_of_bad (horders : Orders d values keys)
    (hbad : (∃ name, TransGen (Instantiates d) name name) ∨
      ∃ name child, Instantiates d name child ∧ d.module child = none) :
    ∃ message, validateHierarchy checkModule checkInstance d values keys = .rejected message := by
  cases h : validateHierarchy checkModule checkInstance d values keys with
  | rejected message => exact ⟨message, rfl⟩
  | timeout => exact absurd h (validateHierarchy_ne_timeout horders)
  | accepted =>
    obtain ⟨hnodup, hgrounded⟩ := grounded_of_accepted horders h
    rcases hbad with ⟨name, hcycle⟩ | ⟨name, child, hedge, hnone⟩
    · obtain ⟨first, ⟨m, hm, rfl, -⟩, -⟩ := TransGen.head'_iff.mp hcycle
      exact absurd (hcycle.lift id fun _ _ hedge => child_of_instantiates hnodup hedge)
        (hgrounded m hm).acyclic
    · obtain ⟨m, hm, rfl, hchild⟩ := hedge
      rw [← children_of_mem hnodup hm] at hchild
      cases hgrounded m hm with
      | intro _ hdeclared _ =>
        have hsome := hdeclared child hchild
        rw [declares, hnone] at hsome
        cases hsome

end

/-! ### The recursion ends -/

section

variable {d : Design E}

def constructBlocks : GenerateConstruct E → List (GenerateBlock E)
  | .ifElse _ thenBlock elseBlock => thenBlock :: elseBlock.toList
  | .case _ items default => items.map Prod.snd ++ default.toList
  | .loop _ _ _ _ block => [block]

theorem sizeOf_items (block : GenerateBlock E) : sizeOf block.items < sizeOf block := by
  cases block with
  | mk name items =>
    simp only [GenerateBlock.mk.sizeOf_spec, GenerateBlock.items]
    omega

theorem sizeOf_block {construct : GenerateConstruct E} {block : GenerateBlock E}
    (h : block ∈ constructBlocks construct) : sizeOf block.items < sizeOf construct := by
  have hitems := sizeOf_items block
  cases construct with
  | ifElse condition thenBlock elseBlock =>
    rw [GenerateConstruct.ifElse.sizeOf_spec]
    rcases List.mem_cons.mp h with rfl | h
    · omega
    · rw [Option.mem_toList] at h
      subst h
      simp only [Option.some.sizeOf_spec]
      omega
  | case selector items default =>
    rw [GenerateConstruct.case.sizeOf_spec]
    rcases List.mem_append.mp h with h | h
    · obtain ⟨⟨labels, block'⟩, hitem, rfl⟩ := List.mem_map.mp h
      have hlt := List.sizeOf_lt_of_mem hitem
      rw [Prod.mk.sizeOf_spec] at hlt
      dsimp only at hitems ⊢
      omega
    · rw [Option.mem_toList] at h
      subst h
      simp only [Option.some.sizeOf_spec]
      omega
  | loop genvar initial condition step block' =>
    rw [GenerateConstruct.loop.sizeOf_spec]
    cases List.mem_singleton.mp h
    omega

theorem sizeOf_construct {items : List (ModuleItem E)} {construct : GenerateConstruct E}
    (h : .generate construct ∈ items) : sizeOf construct < sizeOf items := by
  have hlt := List.sizeOf_lt_of_mem h
  simp only [ModuleItem.generate.sizeOf_spec] at hlt
  omega

theorem instantiated_item {items : List (ModuleItem E)} {item : ModuleItem E} (h : item ∈ items) :
    instantiatedItem item ⊆ instantiatedItems items := by
  induction items with
  | nil => cases h
  | cons first rest ih =>
    rw [instantiatedItems]
    rcases List.mem_cons.mp h with rfl | h
    · exact List.subset_append_left _ _
    · exact List.Subset.trans (ih h) (List.subset_append_right _ _)

theorem instantiated_case {items : List (List ConstExpr × GenerateBlock E)}
    {item : List ConstExpr × GenerateBlock E} (h : item ∈ items) :
    instantiatedBlock item.2 ⊆ instantiatedCases items := by
  induction items with
  | nil => cases h
  | cons first rest ih =>
    obtain ⟨labels, block⟩ := first
    rw [instantiatedCases]
    rcases List.mem_cons.mp h with rfl | h
    · exact List.subset_append_left _ _
    · exact List.Subset.trans (ih h) (List.subset_append_right _ _)

theorem instantiated_block {construct : GenerateConstruct E} {block : GenerateBlock E}
    (h : block ∈ constructBlocks construct) :
    instantiatedItems block.items ⊆ instantiatedConstruct construct := by
  have hblock : instantiatedItems block.items = instantiatedBlock block := by
    cases block
    rw [instantiatedBlock]
    rfl
  rw [hblock]
  cases construct with
  | ifElse condition thenBlock elseBlock =>
    rw [instantiatedConstruct]
    rcases List.mem_cons.mp h with rfl | h
    · exact List.subset_append_left _ _
    · rw [Option.mem_toList] at h
      subst h
      rw [instantiatedDefault]
      exact List.subset_append_right _ _
  | case selector items default =>
    rw [instantiatedConstruct]
    rcases List.mem_append.mp h with h | h
    · obtain ⟨item, hitem, rfl⟩ := List.mem_map.mp h
      exact List.Subset.trans (instantiated_case hitem) (List.subset_append_left _ _)
    · rw [Option.mem_toList] at h
      subst h
      rw [instantiatedDefault]
      exact List.subset_append_right _ _
  | loop genvar initial condition step block' =>
    rw [instantiatedConstruct, List.mem_singleton.mp h]
    exact List.Subset.refl _

theorem mem_blockTasks {m : Module E} {path : List String} {scope : Scope} {consts : Constants}
    {block : Option (GenerateBlock E)} {t : Task E}
    (h : some t ∈ blockTasks m path scope consts block) :
    ∃ selected, block = some selected ∧ t = .block m path scope consts none selected := by
  cases block with
  | none => cases h
  | some selected => exact ⟨selected, rfl, Option.some.inj (List.mem_singleton.mp h)⟩

/-- The blocks of a generate loop are those of its iterations. -/
theorem selected_of_loopTasks {m : Module E} {path : List String} {scope : Scope}
    {consts : Constants} {genvar : String} {initial condition step : ConstExpr}
    {block : GenerateBlock E} {n : Nat} {value : PackedVec} {t : Task E}
    (hvalue : Iteration consts genvar initial condition step value)
    (h : some t ∈ loopTasks m path scope consts genvar condition step block n value) :
    ∃ index consts', Selected consts (.loop genvar initial condition step block) index consts'
      block ∧ t = .block m path scope consts' index block := by
  induction n generalizing value with
  | zero => simp [loopTasks] at h
  | succ n ih =>
    rw [loopTasks] at h
    split at h
    · simp at h
    next going hgoing =>
    split_ifs at h with htrue
    · rcases List.mem_cons.mp h with heq | h
      · exact ⟨_, _, .iteration hvalue hgoing htrue, Option.some.inj heq⟩
      split at h
      · simp at h
      next next hnext =>
      split_ifs at h with hstays
      · simp at h
      · exact ih (.next hvalue hgoing htrue hnext hstays) h
    · cases h

theorem any_of_matchesLabel {consts : Constants} {selector : PackedVec} {labels : List ConstExpr}
    {found : Bool} (h : matchesLabel consts selector labels = some found) :
    labels.any (labelMatches consts selector) = found := by
  induction labels with
  | nil =>
    cases h
    rfl
  | cons label rest ih =>
    obtain ⟨value, -, h⟩ := Option.bind_eq_some_iff.mp h
    rw [List.any_cons]
    split_ifs at h with hmatch
    · cases h
      rw [hmatch, Bool.true_or]
    · rw [Bool.not_eq_true] at hmatch
      rw [hmatch, Bool.false_or, ih h]

theorem find_of_selectItem {consts : Constants} {selector : PackedVec}
    {items : List (List ConstExpr × GenerateBlock E)} {selected : Option (GenerateBlock E)}
    (h : selectItem consts selector items = some selected) :
    (items.find? (·.1.any (labelMatches consts selector))).map Prod.snd = selected := by
  induction items with
  | nil =>
    cases h
    rfl
  | cons first rest ih =>
    obtain ⟨labels, block⟩ := first
    obtain ⟨found, hfound, h⟩ := Option.bind_eq_some_iff.mp h
    rw [List.find?_cons]
    dsimp only
    rw [any_of_matchesLabel hfound]
    cases found with
    | true =>
      cases h
      rfl
    | false => exact ih h

/-- The blocks that are elaborated for a construct are those it selects. -/
theorem selected_of_constructTasks {m : Module E} {path : List String} {scope : Scope}
    {consts : Constants} {construct : GenerateConstruct E} {t : Task E}
    (h : some t ∈ constructTasks m path scope consts construct) :
    ∃ index consts' block, Selected consts construct index consts' block ∧
      t = .block m path scope consts' index block := by
  cases construct with
  | ifElse condition thenBlock elseBlock =>
    rw [constructTasks] at h
    split at h
    · simp at h
    next value hvalue =>
    obtain ⟨selected, hselected, rfl⟩ := mem_blockTasks h
    refine ⟨none, consts, selected, ?_, rfl⟩
    split_ifs at hselected with htrue
    · cases hselected
      exact .thenBlock hvalue htrue
    · subst hselected
      exact .elseBlock hvalue (Bool.not_eq_true _ ▸ htrue)
  | case selector items default =>
    rw [constructTasks] at h
    split at h
    · simp at h
    next chosen hchosen =>
    obtain ⟨selected, hselected, rfl⟩ := mem_blockTasks h
    obtain ⟨value, hvalue, hchosen⟩ := Option.bind_eq_some_iff.mp hchosen
    have hfind := find_of_selectItem hchosen
    refine ⟨none, consts, selected, ?_, rfl⟩
    cases chosen with
    | none =>
      subst hselected
      exact .caseDefault hvalue (Option.map_eq_none_iff.mp hfind)
    | some block =>
      cases hselected
      obtain ⟨⟨labels, block'⟩, hitem, rfl⟩ := Option.map_eq_some_iff.mp hfind
      exact .caseItem hvalue hitem
  | loop genvar initial condition step block =>
    rw [constructTasks] at h
    split at h
    · simp at h
    next value hvalue =>
    obtain ⟨index, consts', hselected, rfl⟩ := selected_of_loopTasks (.first hvalue) h
    exact ⟨index, consts', block, hselected, rfl⟩

theorem mem_blocks_of_selected {consts consts' : Constants} {construct : GenerateConstruct E}
    {index : Option Int} {block : GenerateBlock E}
    (h : Selected consts construct index consts' block) : block ∈ constructBlocks construct := by
  cases h with
  | thenBlock => exact List.mem_cons_self
  | elseBlock => exact List.mem_cons_of_mem _ (List.mem_singleton_self _)
  | caseItem _ hitem =>
    exact List.mem_append_left _ (List.mem_map_of_mem (List.mem_of_find?_eq_some hitem))
  | caseDefault => exact List.mem_append_right _ (List.mem_singleton_self _)
  | iteration => exact List.mem_singleton_self _

/-- The elaboration of items ends where that of every instance in them does. -/
theorem grounded_items (n : Nat) {items : List (ModuleItem E)} (hsize : sizeOf items < n)
    (hinstances : ∀ name ∈ instantiatedItems items, ∀ child, d.module name = some child →
      ∀ path bindings overrides parentConsts,
        TaskTree.Grounded (subtasks d) (.instance child path bindings overrides parentConsts))
    (m : Module E) (nested : Bool) (path : List String) (scope : Scope) (consts : Constants) :
    TaskTree.Grounded (subtasks d) (.items m nested path scope consts items) := by
  induction n generalizing items nested path scope consts with
  | zero => exact absurd hsize (Nat.not_lt_zero _)
  | succ n ih =>
    refine .intro _ fun t ht => ?_
    rw [subtasks] at ht
    cases hscope : declare path consts items scope with
    | none =>
      rw [hscope] at ht
      simp at ht
    | some scope' =>
      rw [hscope] at ht
      rcases List.mem_append.mp ht with ht | ht
      · obtain ⟨item, hitem, ht⟩ := List.mem_filterMap.mp ht
        cases item with
        | generate construct =>
          cases ht
          refine .intro _ fun t ht => ?_
          obtain ⟨index, consts', block, hselected, rfl⟩ := selected_of_constructTasks ht
          have hblock := mem_blocks_of_selected hselected
          refine .intro _ fun t ht => ?_
          cases List.mem_singleton.mp ht
          have hitems : instantiatedConstruct construct ⊆ instantiatedItems items := by
            have hsub := instantiated_item hitem
            rwa [instantiatedItem] at hsub
          have hconstruct := sizeOf_construct hitem
          have hsmaller := sizeOf_block hblock
          exact ih (by omega) (fun name hname => hinstances name
            (hitems (instantiated_block hblock hname))) _ _ _ _
        | _ => cases ht
      · obtain ⟨item, hitem, ht⟩ := List.mem_filterMap.mp ht
        cases item with
        | «instance» i =>
          obtain ⟨child, hchild, hbound⟩ := Option.bind_eq_some_iff.mp (Option.some.inj ht)
          obtain ⟨childConsts, -, hbound⟩ := Option.bind_eq_some_iff.mp hbound
          obtain ⟨bindings, -, rfl⟩ := Option.map_eq_some_iff.mp hbound
          have hname : i.moduleName ∈ instantiatedItems items := by
            refine instantiated_item hitem ?_
            rw [instantiatedItem]
            exact List.mem_singleton_self _
          exact hinstances i.moduleName hname child hchild _ _ _ _
        | _ => cases ht

/-- A grounded module is elaborated in finitely many steps, whatever its parameters are. -/
theorem grounded_instance {name : String}
    (h : DepthFirst.Grounded (declares d) (children d) name) {m : Module E}
    (hm : d.module name = some m) (path : List String) (bindings : Names PortBinding)
    (overrides : List (Option String × ConstExpr)) (parentConsts : Constants) :
    TaskTree.Grounded (subtasks d) (.instance m path bindings overrides parentConsts) := by
  induction h generalizing m path bindings overrides parentConsts with
  | intro name _ _ ih =>
    have hchildren : children d name = instantiatedItems m.items := by
      rw [children, hm]
      rfl
    rw [hchildren] at ih
    refine .intro _ fun t ht => ?_
    rw [subtasks] at ht
    split at ht
    · simp at ht
    split at ht
    · simp at ht
    cases List.mem_singleton.mp ht
    exact grounded_items _ (Nat.lt_succ_self _) (fun child hchild m' hm' => ih child hchild hm') _ _
      _ _ _

end

/-! ### What is elaborated -/

section

variable {d : Design E}

/-- What a call elaborates belongs to the elaborated design. -/
def Justified (d : Design E) : Task E → Prop
  | .instance m path bindings overrides parentConsts => ∀ consts scope,
    bindModuleParameters m overrides parentConsts d.consts = some consts →
    instanceScope path consts bindings m = some scope →
    Elaborated d ⟨m, false, path, consts, scope, m.items⟩
  | .items m nested path scope consts items => ∀ scope',
    declare path consts items scope = some scope' →
    Elaborated d ⟨m, nested, path, consts, scope', items⟩
  | .construct m path scope consts construct => ∃ nested items,
    Elaborated d ⟨m, nested, path, consts, scope, items⟩ ∧ .generate construct ∈ items
  | .block m path scope consts index block => ∀ scope',
    declare (path ++ [Hierarchy.segment block.name index]) consts block.items scope =
      some scope' →
    Elaborated d ⟨m, true, path ++ [Hierarchy.segment block.name index], consts, scope',
      block.items⟩

theorem justified_subtask {t t' : Task E} (h : Justified d t) (ht : some t' ∈ subtasks d t) :
    Justified d t' := by
  cases t with
  | «instance» m path bindings overrides parentConsts =>
    rw [subtasks] at ht
    split at ht
    · simp at ht
    next consts hconsts =>
    split at ht
    · simp at ht
    next scope hscope =>
    cases List.mem_singleton.mp ht
    intro scope' hdeclare
    refine h consts scope' hconsts ?_
    rw [instanceScope, hscope]
    exact hdeclare
  | items m nested path scope consts items =>
    rw [subtasks] at ht
    split at ht
    · simp at ht
    next scope' hscope =>
    have hregion := h scope' hscope
    rcases List.mem_append.mp ht with ht | ht
    · obtain ⟨item, hitem, ht⟩ := List.mem_filterMap.mp ht
      cases item with
      | generate construct =>
        cases ht
        exact ⟨nested, items, hregion, hitem⟩
      | _ => cases ht
    · obtain ⟨item, hitem, ht⟩ := List.mem_filterMap.mp ht
      cases item with
      | «instance» i =>
        obtain ⟨child, hchild, hbound⟩ := Option.bind_eq_some_iff.mp (Option.some.inj ht)
        obtain ⟨childConsts, hconsts, hbound⟩ := Option.bind_eq_some_iff.mp hbound
        obtain ⟨bindings, hbindings, rfl⟩ := Option.map_eq_some_iff.mp hbound
        intro consts' childScope hconsts' hchildScope
        cases hconsts.symm.trans hconsts'
        exact .instance hregion hitem hchild hconsts hbindings hchildScope
      | _ => cases ht
  | construct m path scope consts construct =>
    obtain ⟨nested, items, hregion, hitem⟩ := h
    obtain ⟨index, consts', block, hselected, rfl⟩ := selected_of_constructTasks ht
    exact fun scope' hscope => .generate hregion hitem hselected hscope
  | block m path scope consts index block =>
    cases List.mem_singleton.mp ht
    exact h

/-- Everything that is performed for a root module belongs to the elaborated design. -/
theorem justified_of_root {m : Module E} (hm : m ∈ d.modules) (hroot : m.name ∉ d.instantiated)
    {fuel : Nat} {performed : List (Task E)} {t : Task E}
    (h : elaborateModuleInstance d fuel m [] .empty [] d.consts = .done performed)
    (ht : t ∈ performed) : Justified d t :=
  TaskTree.holds_of_performed (fun _ _ => justified_subtask) h
    (fun _ _ hconsts hscope => .root hm hroot hconsts hscope) ht

end

/-! ### What the check is for -/

/-- The check of the hierarchy returns; it rejects cycles and undeclared modules; and where it
accepts, every instance of every module is elaborated in finitely many calls. -/
structure HierarchyChecked (checkModule : Module E → Except String Unit)
    (checkInstance : Module E → Module E → ModuleInstance → Except String Unit) (d : Design E) :
    Prop where
  returns : ∀ values keys, Orders d values keys →
    validateHierarchy checkModule checkInstance d values keys ≠ .timeout
  rejects : ∀ values keys, Orders d values keys →
    ((∃ name, TransGen (Instantiates d) name name) ∨
      ∃ name child, Instantiates d name child ∧ d.module child = none) →
    ∃ message, validateHierarchy checkModule checkInstance d values keys = .rejected message
  terminates : ∀ values keys, Orders d values keys →
    validateHierarchy checkModule checkInstance d values keys = .accepted →
    ∀ m ∈ d.modules, ∀ path bindings overrides parentConsts, ∃ fuel,
      elaborateModuleInstance d fuel m path bindings overrides parentConsts ≠ .timeout

theorem hierarchy_checked (checkModule : Module E → Except String Unit)
    (checkInstance : Module E → Module E → ModuleInstance → Except String Unit) (d : Design E) :
    HierarchyChecked checkModule checkInstance d where
  returns _ _ horders := validateHierarchy_ne_timeout horders
  rejects _ _ horders hbad := rejected_of_bad horders hbad
  terminates _ _ horders h m hm path bindings overrides parentConsts := by
    obtain ⟨hnodup, hgrounded⟩ := grounded_of_accepted horders h
    exact (grounded_instance (hgrounded m hm) (module_of_mem hnodup hm) path bindings overrides
      parentConsts).ends

end Eevee.Elab.Instantiation
