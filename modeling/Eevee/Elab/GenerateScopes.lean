/- Names in nested generate blocks: the tables that blocks copy, and the declarations in scope. -/

import Mathlib.Data.List.Basic
import Mathlib.Tactic.Common
import Mathlib.Tactic.SplitIfs
import Eevee.Elab.Instantiation
import Eevee.Ir.Values

set_option autoImplicit false
set_option relaxedAutoImplicit false

namespace Eevee.Elab.GenerateScopes

open Eevee.Ast.Modules
open Eevee.Const.Evaluators (Constants)
open Eevee.Core.Logic
open Eevee.Elab.Hierarchy
open Eevee.Ir.Objects (toI64)
open Eevee.Ir.Values (MemoryDef)
open Eevee.Lib.Tables (Names)

/-! ### Declarations -/

/-- A net, a variable or a port, with its net of the scheduler. -/
structure Signal where
  id : Nat
  width : Nat
  signed : Bool
  /-- None for a variable. -/
  kind : Option NetKind
  drivable : Bool
  deriving DecidableEq

/-- What a block or module declares. Parameters and genvars are constants; the type that they are
declared with is a width and a sign. -/
inductive Entity
  | signal (s : Signal)
  | memory (m : MemoryDef) (signed : Bool)
  | const (value : PackedVec) (width : Nat) (signed : Bool)

/-- A variable of a package, with its static. -/
structure PackageVar where
  id : Nat
  width : Nat
  signed : Bool
  isString : Bool
  /-- An object or a collection. -/
  isHandle : Bool
  deriving DecidableEq

/-- The tables of a block. -/
structure Tables where
  scope : Names (Nat × Nat)
  scopeKinds : Names (Option NetKind)
  scopeSigned : Names Bool
  drivable : Names Unit
  memories : Names MemoryDef
  consts : Constants

namespace Tables

def new (consts : Constants) : Tables := ⟨.empty, .empty, .empty, .empty, .empty, consts⟩

/-- A declaration enters the tables of its kind, and leaves the others. -/
def enter (T : Tables) (name : String) : Entity → Tables
  | .signal s =>
    { T with
      scope := T.scope.insert name (s.id, s.width)
      scopeKinds := T.scopeKinds.insert name s.kind
      scopeSigned := T.scopeSigned.insert name s.signed
      drivable := if s.drivable then T.drivable.insert name () else T.drivable }
  | .memory m signed =>
    { T with
      memories := T.memories.insert name m
      scopeSigned := T.scopeSigned.insert name signed }
  | .const value _ _ => { T with consts := Names.insert T.consts name value }

end Tables

/-! ### Uses of a name -/

/-- What a name is read as. -/
inductive Operand
  | package (id : Nat)
  | const (value : PackedVec)
  | net (id : Nat)

inductive Target
  | package (id : Nat)
  | net (id : Nat)

inductive IndexBase
  | memory (m : MemoryDef)
  | operand (o : Operand)

/-- The base of an element or bit that is written; of an operand a copy is. -/
inductive IndexTarget
  | memory (m : MemoryDef)
  | net (id : Nat)
  | operand (o : Operand)

/-- All that the code generator and the elaborator look up for a name in a module. None where they
panic, or where the name is not of the kind that they look for. -/
structure View where
  /-- `gen_expr` of the name, and of an element. -/
  read : Option Operand
  readIndex : Option IndexBase
  /-- `gen_assign`, and `gen_assign_lvalue` of an element. -/
  write : Option Target
  writeIndex : Option IndexTarget
  /-- `integral_expr_width` of the name and of an element, and `integral_expr_signed`. -/
  width : Option Nat
  indexWidth : Nat
  signed : Bool
  /-- `lvalue_width` of the name and of an element. -/
  lvalueWidth : Option Nat
  lvalueIndexWidth : Option Nat
  /-- The net of an event control, and `collect_net_reads` of the name and of an element. -/
  event : Option Nat
  reads : List Nat
  indexReads : List Nat
  /-- The target of a continuous assignment, with its width. -/
  continuous : Option (Nat × Nat)
  /-- The signal that a port is connected to. -/
  connection : Option (Nat × Nat × Option NetKind × Bool)
  /-- The value in constant expressions. -/
  constant : Option PackedVec

namespace Tables

variable (globals : Names PackageVar) (T : Tables) (name : String)

def net : Option Nat := (T.scope name).map (·.1)

def read : Option Operand :=
  match globals name, T.consts name, T.memories name with
  | some v, _, _ => some (.package v.id)
  | none, some value, _ => some (.const value)
  | none, none, some _ => none
  | none, none, none => (T.net name).map .net

/-- The signal that a port is connected to: its net, width, kind and sign. -/
def connection : Option (Nat × Nat × Option NetKind × Bool) :=
  (T.scope name).map fun (id, width) =>
    (id, width, (T.scopeKinds name).join, (T.scopeSigned name).getD false)

def view : View where
  read := T.read globals name
  readIndex := match T.memories name with
    | some m => some (.memory m)
    | none => (T.read globals name).map .operand
  write := match globals name with
    | some v => some (.package v.id)
    | none => (T.net name).map .net
  writeIndex := match T.memories name, T.net name with
    | some m, _ => some (.memory m)
    | none, some id => some (.net id)
    | none, none => (T.read globals name).map .operand
  width := ((T.scope name).map (·.2)).or
    (((T.consts name).map (·.width)).or
      ((globals name).bind fun v => if v.isString then none else some v.width))
  indexWidth := ((T.memories name).map (·.elementWidth)).getD 1
  signed := ((T.scopeSigned name).or ((globals name).map (·.signed))).getD false
  lvalueWidth := match globals name with
    | some v => if v.isString || v.isHandle then none else some v.width
    | none => (T.scope name).map (·.2)
  lvalueIndexWidth := match T.memories name with
    | some m => some m.elementWidth
    | none => (T.net name).map fun _ => 1
  event := T.net name
  reads := (T.net name).toList
  indexReads := match T.memories name with
    | some m => m.elements
    | none => (T.net name).toList
  continuous := (T.drivable name).bind fun _ => T.scope name
  connection := T.connection name
  constant := T.consts name

end Tables

/-- The uses of a name that denotes a declaration. -/
def Entity.view : Entity → View
  | .signal s =>
    { read := some (.net s.id)
      readIndex := some (.operand (.net s.id))
      write := some (.net s.id)
      writeIndex := some (.net s.id)
      width := some s.width
      indexWidth := 1
      signed := s.signed
      lvalueWidth := some s.width
      lvalueIndexWidth := some 1
      event := some s.id
      reads := [s.id]
      indexReads := [s.id]
      continuous := if s.drivable then some (s.id, s.width) else none
      connection := some (s.id, s.width, s.kind, s.signed)
      constant := none }
  | .memory m signed =>
    { read := none
      readIndex := some (.memory m)
      write := none
      writeIndex := some (.memory m)
      width := none
      indexWidth := m.elementWidth
      signed := signed
      lvalueWidth := none
      lvalueIndexWidth := some m.elementWidth
      event := none
      reads := []
      indexReads := m.elements
      continuous := none
      connection := none
      constant := none }
  | .const value width signed =>
    { read := some (.const value)
      readIndex := some (.operand (.const value))
      write := none
      writeIndex := some (.operand (.const value))
      width := some width
      indexWidth := 1
      signed := signed
      lvalueWidth := none
      lvalueIndexWidth := none
      event := none
      reads := []
      indexReads := []
      continuous := none
      connection := none
      constant := some value }

/-! ### The declarations in scope -/

/-- The declarations of the enclosing blocks and the module, innermost and latest first. -/
abbrev Env := List (String × Entity)

/-- The declarations of a name. -/
def declarations (env : Env) (name : String) : List Entity :=
  (env.filter (·.1 = name)).map (·.2)

/-- The tables of some declarations over the constants of the packages. -/
def tablesOf (consts : Constants) (env : Env) : Tables :=
  env.foldr (fun d T => T.enter d.1 d.2) (.new consts)

namespace Entity

def signal? : Entity → Option Signal
  | .signal s => some s
  | _ => none

def memory? : Entity → Option MemoryDef
  | .memory m _ => some m
  | _ => none

def value? : Entity → Option PackedVec
  | .const value _ _ => some value
  | _ => none

def sign? : Entity → Option Bool
  | .signal s => some s.signed
  | .memory _ signed => some signed
  | .const _ _ _ => none

end Entity

section

variable {consts : Constants} {env : Env} {name other : String} {e : Entity}

theorem declarations_cons_self :
    declarations ((name, e) :: env) name = e :: declarations env name := by
  simp [declarations]

theorem declarations_cons_of_ne (h : other ≠ name) :
    declarations ((other, e) :: env) name = declarations env name := by
  simp [declarations, h]

/-- What the tables of a list of declarations have for a name. -/
structure Holds (consts : Constants) (T : Tables) (name : String) (found : List Entity) : Prop where
  scope : T.scope name = (found.findSome? Entity.signal?).map fun s => (s.id, s.width)
  scopeKinds : T.scopeKinds name = (found.findSome? Entity.signal?).map (·.kind)
  scopeSigned : T.scopeSigned name = found.findSome? Entity.sign?
  drivable : (T.drivable name).isSome = true ↔ ∃ s, Entity.signal s ∈ found ∧ s.drivable = true
  memories : T.memories name = found.findSome? Entity.memory?
  consts : T.consts name = (found.findSome? Entity.value?).or (consts name)

theorem Holds.enter_self {T : Tables} {found : List Entity} (h : Holds consts T name found)
    (e : Entity) : Holds consts (T.enter name e) name (e :: found) := by
  cases e with
  | signal s =>
    refine ⟨Names.insert_self _ _ _, Names.insert_self _ _ _, Names.insert_self _ _ _, ?_,
      h.memories, h.consts⟩
    show ((if s.drivable = true then T.drivable.insert name () else T.drivable) name).isSome =
      true ↔ _
    split_ifs with hs
    · simp [hs]
    · rw [h.drivable]
      simp [hs]
  | memory m signed =>
    refine ⟨h.scope, h.scopeKinds, Names.insert_self _ _ _, ?_, Names.insert_self _ _ _, h.consts⟩
    show (T.drivable name).isSome = true ↔ _
    simpa using h.drivable
  | const value width signed =>
    refine ⟨h.scope, h.scopeKinds, h.scopeSigned, ?_, h.memories, Names.insert_self _ _ _⟩
    show (T.drivable name).isSome = true ↔ _
    simpa using h.drivable

theorem Holds.enter_ne {T : Tables} {found : List Entity} (h : Holds consts T name found)
    (hne : name ≠ other) (e : Entity) : Holds consts (T.enter other e) name found := by
  cases e with
  | signal s =>
    refine ⟨(Names.insert_of_ne _ hne _).trans h.scope,
      (Names.insert_of_ne _ hne _).trans h.scopeKinds,
      (Names.insert_of_ne _ hne _).trans h.scopeSigned, ?_, h.memories, h.consts⟩
    rw [← h.drivable]
    show ((if s.drivable = true then T.drivable.insert other () else T.drivable) name).isSome =
      true ↔ _
    split_ifs
    · rw [Names.insert_of_ne _ hne]
    · rfl
  | memory m signed =>
    exact ⟨h.scope, h.scopeKinds, (Names.insert_of_ne _ hne _).trans h.scopeSigned, h.drivable,
      (Names.insert_of_ne _ hne _).trans h.memories, h.consts⟩
  | const value width signed =>
    exact ⟨h.scope, h.scopeKinds, h.scopeSigned, h.drivable, h.memories,
      (Names.insert_of_ne _ hne _).trans h.consts⟩

/-- Each table has the latest declaration of its kind. -/
theorem holds_tablesOf (consts : Constants) (env : Env) (name : String) :
    Holds consts (tablesOf consts env) name (declarations env name) := by
  induction env with
  | nil =>
    exact ⟨rfl, rfl, rfl, by simp [tablesOf, Tables.new, Names.empty, declarations], rfl, rfl⟩
  | cons d env ih =>
    obtain ⟨other, e⟩ := d
    by_cases hname : other = name
    · subst hname
      rw [declarations_cons_self]
      exact ih.enter_self e
    · rw [declarations_cons_of_ne hname]
      exact ih.enter_ne (Ne.symm hname) e

end

/-! ### When a name denotes its declaration -/

/-- The newer declaration overwrites everything that the older one entered. -/
def Covers (newer older : Entity) : Prop :=
  match newer, older with
  | .signal s, .signal s' => s.drivable = true ∨ s'.drivable = false
  | .memory _ _, .memory _ _ => True
  | .const _ _ _, .const _ _ _ => True
  | .signal _, .memory _ _ | .signal _, .const _ _ _ | .memory _ _, .signal _
  | .memory _ _, .const _ _ _ | .const _ _ _, .signal _ | .const _ _ _, .memory _ _ => False

/-- A constant that is unsigned and as wide as its declaration. -/
def Entity.Plain : Entity → Prop
  | .const value width signed => value.width = width ∧ signed = false
  | .signal _ | .memory _ _ => True

/-- The declarations that the innermost one of a name hides, in other blocks and in packages, are of
its kind. -/
structure Alone (globals : Names PackageVar) (consts : Constants) (name : String) (e : Entity)
    (hidden : List Entity) : Prop where
  plain : e.Plain
  covers : ∀ older ∈ hidden, Covers e older
  globals : globals name = none
  consts : consts name = none ∨ e.value?.isSome = true

section

variable {globals : Names PackageVar} {consts : Constants} {T : Tables} {name : String} {e : Entity}
  {hidden : List Entity}

theorem findSome_none {α : Type} {f : Entity → Option α} :
    hidden.findSome? f = none ↔ ∀ older ∈ hidden, f older = none := List.findSome?_eq_none_iff

/-- The declaration of a name is used everywhere when it covers what it hides. -/
theorem view_of_alone (h : Holds consts T name (e :: hidden))
    (ha : Alone globals consts name e hidden) : T.view globals name = e.view := by
  obtain ⟨hplain, hcovers, hglobals, hconsts⟩ := ha
  obtain ⟨hscope, hkinds, hsigned, hdrivable, hmemories, hvalue⟩ := h
  cases e with
  | signal s =>
    have hmemory : hidden.findSome? Entity.memory? = none := findSome_none.mpr fun older hmem => by
      cases older with
      | memory => exact (hcovers _ hmem).elim
      | signal | const => rfl
    have hconst : hidden.findSome? Entity.value? = none := findSome_none.mpr fun older hmem => by
      cases older with
      | const => exact (hcovers _ hmem).elim
      | signal | memory => rfl
    have hnone : consts name = none := hconsts.resolve_right (by simp [Entity.value?])
    have hdriven : (T.drivable name).isSome = s.drivable := by
      cases hs : s.drivable with
      | true => exact hdrivable.mpr ⟨s, List.mem_cons_self, hs⟩
      | false =>
        rw [Bool.eq_false_iff, Ne, hdrivable]
        rintro ⟨s', hmem, hs'⟩
        rcases List.mem_cons.mp hmem with heq | hmem
        · cases heq
          rw [hs] at hs'
          cases hs'
        · rcases hcovers _ hmem with hd | hd
          · rw [hs] at hd
            cases hd
          · rw [hs'] at hd
            cases hd
    simp only [List.findSome?_cons, Entity.signal?, Entity.memory?, Entity.value?, Entity.sign?,
      hmemory, hconst, hnone] at hscope hkinds hsigned hmemories hvalue
    have hbind : ((T.drivable name).bind fun _ => some (s.id, s.width)) =
        if s.drivable then some (s.id, s.width) else none := by
      rw [← hdriven]
      cases T.drivable name <;> simp
    simp [Tables.view, Tables.read, Tables.net, Tables.connection, Entity.view, hglobals, hscope,
      hkinds, hsigned, hmemories, hvalue, hbind]
  | memory m signed =>
    have hsignal : hidden.findSome? Entity.signal? = none := findSome_none.mpr fun older hmem => by
      cases older with
      | signal => exact (hcovers _ hmem).elim
      | memory | const => rfl
    have hconst : hidden.findSome? Entity.value? = none := findSome_none.mpr fun older hmem => by
      cases older with
      | const => exact (hcovers _ hmem).elim
      | signal | memory => rfl
    have hnone : consts name = none := hconsts.resolve_right (by simp [Entity.value?])
    simp only [List.findSome?_cons, Entity.signal?, Entity.memory?, Entity.value?, Entity.sign?,
      hsignal, hconst, hnone] at hscope hkinds hsigned hmemories hvalue
    simp [Tables.view, Tables.read, Tables.net, Tables.connection, Entity.view, hglobals, hscope,
      hsigned, hmemories, hvalue]
  | const value width signed =>
    obtain ⟨hwidth, hsign⟩ := hplain
    have hall : ∀ older ∈ hidden, older.signal? = none ∧ older.memory? = none ∧
        older.sign? = none := by
      intro older hmem
      cases older with
      | signal | memory => exact (hcovers _ hmem).elim
      | const => exact ⟨rfl, rfl, rfl⟩
    have hsignal : hidden.findSome? Entity.signal? = none :=
      findSome_none.mpr fun older hmem => (hall older hmem).1
    have hmemory : hidden.findSome? Entity.memory? = none :=
      findSome_none.mpr fun older hmem => (hall older hmem).2.1
    have hnosign : hidden.findSome? Entity.sign? = none :=
      findSome_none.mpr fun older hmem => (hall older hmem).2.2
    simp only [List.findSome?_cons, Entity.signal?, Entity.memory?, Entity.value?, Entity.sign?,
      hsignal, hmemory, hnosign] at hscope hkinds hsigned hmemories hvalue
    simp [Tables.view, Tables.read, Tables.net, Tables.connection, Entity.view, hglobals, hscope,
      hsigned, hmemories, hvalue, hwidth, hsign]

/-- A declaration that hides one of another kind is not used everywhere. -/
theorem alone_of_view (h : Holds consts T name (e :: hidden))
    (hview : T.view globals name = e.view) : Alone globals consts name e hidden := by
  obtain ⟨hscope, hkinds, hsigned, hdrivable, hmemories, hvalue⟩ := h
  have hreadIndex := congrArg View.readIndex hview
  have hwrite := congrArg View.write hview
  have hconstant := congrArg View.constant hview
  simp only [Tables.view] at hreadIndex hwrite hconstant
  cases e with
  | signal s =>
    have hglobals : globals name = none := by
      cases hg : globals name with
      | none => rfl
      | some v => simp [hg, Entity.view] at hwrite
    -- a constant would be read, and a memory be indexed
    have hconst : T.consts name = none := hconstant
    have hmemory : T.memories name = none := by
      cases hm : T.memories name with
      | none => rfl
      | some m => simp [hm, Entity.view] at hreadIndex
    simp only [List.findSome?_cons, Entity.signal?, Entity.memory?,
      Entity.value?] at hscope hmemories hvalue
    obtain ⟨hnoValue, hnoConst⟩ := Option.or_eq_none_iff.mp (hvalue.symm.trans hconst)
    have hnoMemory := hmemories.symm.trans hmemory
    refine ⟨trivial, fun older hmem => ?_, hglobals, .inl hnoConst⟩
    cases older with
    | memory m signed => cases findSome_none.mp hnoMemory _ hmem
    | const value width signed => cases findSome_none.mp hnoValue _ hmem
    | signal s' =>
      by_contra hno
      obtain ⟨hs, hs'⟩ : s.drivable = false ∧ s'.drivable = true := by simpa [Covers] using hno
      have hdriven : (T.drivable name).isSome = true :=
        hdrivable.mpr ⟨s', List.mem_cons_of_mem _ hmem, hs'⟩
      obtain ⟨u, hu⟩ := Option.isSome_iff_exists.mp hdriven
      have hcontinuous := congrArg View.continuous hview
      simp [Tables.view, Entity.view, hu, hscope, hs] at hcontinuous
  | memory m signed =>
    have hglobals : globals name = none := by
      cases hg : globals name with
      | none => rfl
      | some v => simp [hg, Entity.view] at hwrite
    have hconst : T.consts name = none := hconstant
    -- a signal would be written as a whole
    have hnet : T.scope name = none := by
      cases hn : T.scope name with
      | none => rfl
      | some n => simp [hglobals, Tables.net, hn, Entity.view] at hwrite
    simp only [List.findSome?_cons, Entity.signal?, Entity.value?] at hscope hvalue
    obtain ⟨hnoValue, hnoConst⟩ := Option.or_eq_none_iff.mp (hvalue.symm.trans hconst)
    have hnoSignal := Option.map_eq_none_iff.mp (hscope.symm.trans hnet)
    refine ⟨trivial, fun older hmem => ?_, hglobals, .inl hnoConst⟩
    cases older with
    | memory => trivial
    | signal s => cases findSome_none.mp hnoSignal _ hmem
    | const value width signed => cases findSome_none.mp hnoValue _ hmem
  | const value width signed =>
    have hglobals : globals name = none := by
      cases hg : globals name with
      | none => rfl
      | some v => simp [hg, Entity.view] at hwrite
    have hnet : T.scope name = none := by
      cases hn : T.scope name with
      | none => rfl
      | some n => simp [hglobals, Tables.net, hn, Entity.view] at hwrite
    have hmemory : T.memories name = none := by
      cases hm : T.memories name with
      | none => rfl
      | some m => simp [hm, Entity.view] at hreadIndex
    simp only [List.findSome?_cons, Entity.signal?, Entity.memory?, Entity.value?,
      Entity.sign?] at hscope hmemories hvalue hsigned
    have hnoSignal := Option.map_eq_none_iff.mp (hscope.symm.trans hnet)
    have hnoMemory := hmemories.symm.trans hmemory
    have hcovers : ∀ older ∈ hidden, Covers (.const value width signed) older := by
      intro older hmem
      cases older with
      | const => trivial
      | signal s => cases findSome_none.mp hnoSignal _ hmem
      | memory m sign => cases findSome_none.mp hnoMemory _ hmem
    have hnoSign : T.scopeSigned name = none := by
      rw [hsigned]
      refine findSome_none.mpr fun older hmem => ?_
      cases older with
      | const => rfl
      | signal | memory => exact (hcovers _ hmem).elim
    have hwidth := congrArg View.width hview
    have hsign := congrArg View.signed hview
    simp [Tables.view, Entity.view, hnet, hvalue, hnoSign, hglobals] at hwidth hsign
    exact ⟨⟨hwidth, hsign⟩, hcovers, hglobals, .inr rfl⟩

end

/-! ### Elaboration -/

/-- The tables of a block with the declarations that they were built from. -/
structure Scoped (base : Constants) where
  tables : Tables
  env : Env
  built : tables = tablesOf base env

namespace Scoped

variable {base : Constants}

def new (base : Constants) : Scoped base := ⟨.new base, [], rfl⟩

def enter (sc : Scoped base) (name : String) (e : Entity) : Scoped base :=
  ⟨sc.tables.enter name e, (name, e) :: sc.env, by rw [sc.built]; rfl⟩

/-- The last of the declarations is entered first. -/
def enterAll (sc : Scoped base) (own : Env) : Scoped base :=
  own.foldr (fun d sc => sc.enter d.1 d.2) sc

theorem env_enterAll (sc : Scoped base) (own : Env) : (sc.enterAll own).env = own ++ sc.env := by
  induction own with
  | nil => rfl
  | cons d own ih => exact congrArg (d :: ·) ih

end Scoped

/-- An instance of a module or a generate block that was elaborated: the scope it was given, its own
declarations, and the number of nets before and after these. -/
structure Region (base : Constants) (E : Type) where
  path : List String
  outer : Scoped base
  own : Env
  items : List (ModuleItem E)
  first : Nat
  next : Nat

def Region.scope {base : Constants} {E : Type} (r : Region base E) : Scoped base :=
  r.outer.enterAll r.own

section

variable {E : Type} (consts : Constants)

def declareNets : List (ModuleItem E) → Env → Nat → Option (Env × Nat)
  | [], own, next => some (own, next)
  | .net n :: items, own, next =>
    (resolveDeclaredWidth n.width n.packedRange consts).bind fun width =>
    declareNets items ((n.name, .signal ⟨next, width, n.signed, some n.kind, true⟩) :: own)
      (next + 1)
  | _ :: items, own, next => declareNets items own next

/-- A variable, or a memory with a net for each element. -/
def declareVar (v : VarDecl E) (next : Nat) : Option (Entity × Nat) :=
  (resolveDeclaredWidth v.width v.packedRange consts).bind fun width =>
    match v.unpackedRange with
    | some range => (resolveRangeBounds range consts).bind fun (left, right) =>
      let count := (left - right).natAbs + 1
      if 0 ≤ left ∧ 0 ≤ right ∧ count ≤ 1000000 then
        some (.memory ⟨List.range' next count, left, right, width⟩ v.signed, next + count)
      else none
    | none => some (.signal ⟨next, width, v.signed, none, false⟩, next + 1)

def declareVars : List (ModuleItem E) → Env → Nat → Option (Env × Nat)
  | [], own, next => some (own, next)
  | .var v :: items, own, next => (declareVar consts v next).bind fun (e, next) =>
    declareVars items ((v.name, e) :: own) next
  | _ :: items, own, next => declareVars items own next

/-- The declarations of a list of items, latest first: the nets, then the variables. -/
def declare (items : List (ModuleItem E)) (next : Nat) : Option (Env × Nat) :=
  (declareNets consts items [] next).bind fun (own, next) => declareVars consts items own next

/-- A block to elaborate, with the variable of its loop. -/
structure Chosen (E : Type) where
  genvar : Option (String × PackedVec)
  block : GenerateBlock E

/-- The blocks of a generate loop, up to its bound; none where elaboration panics. -/
def loopBlocks (genvar : String) (condition step : ConstExpr) (block : GenerateBlock E) :
    Nat → PackedVec → Option (List (Chosen E))
  | 0, _ => none
  | n + 1, value =>
    let consts' := Names.insert consts genvar value
    (evaluateGenerateConstant consts' condition).bind fun going =>
      if going.isTrue then
        (evaluateGenerateConstant consts' step).bind fun next =>
          if toI64 next = toI64 value then none
          else
            (loopBlocks genvar condition step block n next).map (⟨some (genvar, value), block⟩ :: ·)
      else some []

def chooseBlocks : GenerateConstruct E → Option (List (Chosen E))
  | .ifElse condition thenBlock elseBlock =>
    (evaluateGenerateConstant consts condition).map fun value =>
      ((if value.isTrue then some thenBlock else elseBlock).map (⟨none, ·⟩)).toList
  | .case selector items default => (evaluateGenerateConstant consts selector).bind fun value =>
    (Instantiation.selectItem consts value items).map fun chosen =>
      ((chosen.or default).map (⟨none, ·⟩)).toList
  | .loop genvar initial condition step block =>
    (evaluateGenerateConstant consts initial).bind
      (loopBlocks consts genvar condition step block Instantiation.loopBound)

end

/-- The declaration of the variable of a loop in its block: a signed number of 32 bits. -/
def Chosen.env {E : Type} (chosen : Chosen E) : Env :=
  chosen.genvar.toList.map fun (name, value) => (name, .const value 32 true)

/-- The name of the block, with the iteration of a loop. -/
def Chosen.segment {E : Type} (chosen : Chosen E) : String :=
  Hierarchy.segment chosen.block.name (chosen.genvar.map fun (_, value) => toI64 value)

section

variable {base : Constants}

/-- `bind_module_parameters`, after the overrides are evaluated. -/
def enterParameters (resolved : Names PackedVec) :
    List ModuleParameter → Scoped base → Option (Scoped base)
  | [], sc => some sc
  | p :: parameters, sc =>
    ((resolved p.name).or (tryConstEvalAtWidth sc.tables.consts p.default p.width p.signed)).bind
      fun value => enterParameters resolved parameters
        (sc.enter p.name (.const (value.resize p.width p.signed) p.width p.signed))

/-- The net of the parent that a connected port shares, if it needs no bridge. -/
def bindPort (port : Port) (actual : String) (parent : Tables) (childConsts : Constants) :
    Option (Option Nat) :=
  (parent.connection actual).bind fun (net, actualWidth, actualKind, _) =>
    (resolveDeclaredWidth port.width port.packedRange childConsts).bind fun portWidth =>
      (portConnectionMode port actualKind).bind fun mode =>
        (convertedMode port.dir mode (actualWidth = portWidth)).map fun mode =>
          if mode = .alias then some net else none

def bindPorts (ports : List Port) (parent : Tables) (childConsts : Constants) :
    List (Option String × String) → Nat → Names (Option Nat) → Option (Names (Option Nat))
  | [], _, bindings => some bindings
  | (name, actual) :: connections, position, bindings =>
    (connectedPort ports position name).bind fun port =>
      (bindPort port actual parent childConsts).bind fun binding =>
        bindPorts ports parent childConsts connections (position + 1)
          (bindings.insert port.name binding)

def portDrivable (port : Port) : Bool :=
  port.netKind.isSome && (port.dir = .output || port.dir = .inout)

def enterPorts (bindings : Names (Option Nat)) :
    List Port → Scoped base → Nat → Option (Scoped base × Nat)
  | [], sc, next => some (sc, next)
  | port :: ports, sc, next =>
    (resolveDeclaredWidth port.width port.packedRange sc.tables.consts).bind fun width =>
      match (bindings port.name).join with
      | some net => enterPorts bindings ports (sc.enter port.name
          (.signal ⟨net, width, port.signed, port.netKind, portDrivable port⟩)) next
      | none => enterPorts bindings ports (sc.enter port.name
          (.signal ⟨next, width, port.signed, port.netKind, portDrivable port⟩)) (next + 1)

end

/-- A piece of elaboration: from the number of nets to what it elaborates and the number after. -/
abbrev Piece (base : Constants) (E : Type) := Nat → Option (List (Region base E) × Nat)

section

variable {base : Constants} {E : Type}

def inOrder {α : Type} (piece : α → Piece base E) : List α → Piece base E
  | [], next => some ([], next)
  | a :: rest, next => (piece a next).bind fun (regions, next) =>
    (inOrder piece rest next).map fun (later, next) => (regions ++ later, next)

def constructs (items : List (ModuleItem E)) : List (GenerateConstruct E) :=
  items.filterMap fun
    | .generate construct => some construct
    | _ => none

def instances (items : List (ModuleItem E)) : List ModuleInstance :=
  items.filterMap fun
    | .instance i => some i
    | _ => none

variable (d : Design E)
  (elaborateItems : List String → Scoped d.consts → List (ModuleItem E) → Piece d.consts E)

def elaborateBlock (path : List String) (sc : Scoped d.consts) (chosen : Chosen E) :
    Piece d.consts E :=
  elaborateItems (path ++ [chosen.segment]) (sc.enterAll chosen.env) chosen.block.items

def elaborateConstruct (path : List String) (sc : Scoped d.consts)
    (construct : GenerateConstruct E) : Piece d.consts E := fun next =>
  (chooseBlocks sc.tables.consts construct).bind fun chosen =>
    inOrder (elaborateBlock d elaborateItems path sc) chosen next

/-- A module with the values of its overrides and, for the ports that share one, the parent's
nets. -/
def elaborateModule (m : Module E) (path : List String) (resolved : Names PackedVec)
    (bindings : Constants → Option (Names (Option Nat))) : Piece d.consts E := fun next =>
  (enterParameters resolved m.parameters (.new d.consts)).bind fun sc =>
    (bindings sc.tables.consts).bind fun bindings =>
      (enterPorts bindings m.ports sc next).bind fun (sc, next) =>
        elaborateItems path sc m.items next

def elaborateInstance (path : List String) (sc : Scoped d.consts) (i : ModuleInstance) :
    Piece d.consts E := fun next =>
  (d.module i.moduleName).bind fun child =>
    (resolveOverrides child.parameters sc.tables.consts i.parameters 0 .empty).bind fun resolved =>
      elaborateModule d elaborateItems child (path ++ [i.name]) resolved
        (fun childConsts => bindPorts child.ports sc.tables childConsts i.connections 0 .empty) next

end

section

variable {E : Type} (d : Design E)

/-- `elaborate_module_items`; the fuel bounds the nesting of blocks and instances. -/
def elaborateItems : Nat → List String → Scoped d.consts → List (ModuleItem E) → Piece d.consts E
  | 0, _, _, _, _ => none
  | fuel + 1, path, sc, items, first =>
    (declare sc.tables.consts items first).bind fun (own, next) =>
      (inOrder (elaborateConstruct d (elaborateItems fuel) path (sc.enterAll own))
          (constructs items) next).bind fun (blocks, next₁) =>
        (inOrder (elaborateInstance d (elaborateItems fuel) path (sc.enterAll own))
            (instances items) next₁).map fun (children, next₂) =>
          (⟨path, sc, own, items, first, next⟩ :: (blocks ++ children), next₂)

/-- The modules that no module instantiates. -/
def elaborate (fuel : Nat) : Piece d.consts E :=
  inOrder (fun m => elaborateModule d (elaborateItems d fuel) m [] .empty fun _ => some .empty)
    (d.modules.filter fun m => m.name ∉ d.instantiated)

end

/-! ### The nets of a region -/

def Entity.nets : Entity → List Nat
  | .signal s => [s.id]
  | .memory m _ => m.elements
  | .const _ _ _ => []

/-- The nets of the region's own declarations. -/
def Region.nets {base : Constants} {E : Type} (r : Region base E) : List Nat :=
  r.own.flatMap fun d => d.2.nets

section

variable {E : Type} {consts : Constants} {items : List (ModuleItem E)} {own own' : Env}
  {first next last : Nat}

/-- All nets of the declarations are new. -/
def New (first next : Nat) (own : Env) : Prop :=
  first ≤ next ∧ ∀ d ∈ own, ∀ id ∈ d.2.nets, first ≤ id ∧ id < next

theorem New.cons (h : New first next own) (hle : next ≤ last) {d : String × Entity}
    (hd : ∀ id ∈ d.2.nets, next ≤ id ∧ id < last) : New first last (d :: own) := by
  refine ⟨h.1.trans hle, fun d' hd' id hid => ?_⟩
  rcases List.mem_cons.mp hd' with rfl | hd'
  · exact ⟨h.1.trans (hd id hid).1, (hd id hid).2⟩
  · obtain ⟨hlo, hhi⟩ := h.2 d' hd' id hid
    exact ⟨hlo, Nat.lt_of_lt_of_le hhi hle⟩

theorem new_declareNets (h : declareNets consts items own next = some (own', last))
    (hnew : New first next own) : New first last own' := by
  fun_induction declareNets consts items own next with
  | case1 own next =>
    cases h
    exact hnew
  | case2 own next n items ih =>
    obtain ⟨width, -, h⟩ := Option.bind_eq_some_iff.mp h
    refine ih width h (hnew.cons (Nat.le_succ _) fun id hid => ?_)
    rw [List.mem_singleton.mp hid]
    exact ⟨le_rfl, Nat.lt_succ_self _⟩
  | case3 own next item items hne ih => exact ih h hnew

theorem new_declareVar {v : VarDecl E} {e : Entity}
    (h : declareVar consts v next = some (e, last)) :
    next ≤ last ∧ ∀ id ∈ e.nets, next ≤ id ∧ id < last := by
  obtain ⟨width, -, h⟩ := Option.bind_eq_some_iff.mp h
  cases hrange : v.unpackedRange with
  | none =>
    rw [hrange] at h
    cases h
    refine ⟨Nat.le_succ _, fun id hid => ?_⟩
    rw [List.mem_singleton.mp hid]
    exact ⟨le_rfl, Nat.lt_succ_self _⟩
  | some range =>
    rw [hrange] at h
    obtain ⟨⟨left, right⟩, -, h⟩ := Option.bind_eq_some_iff.mp h
    dsimp only at h
    split_ifs at h
    cases h
    refine ⟨Nat.le_add_right _ _, fun id hid => ?_⟩
    have hmem : id ∈ List.range' next ((left - right).natAbs + 1) := hid
    rw [List.mem_range'_1] at hmem
    exact hmem

theorem new_declareVars (h : declareVars consts items own next = some (own', last))
    (hnew : New first next own) : New first last own' := by
  fun_induction declareVars consts items own next with
  | case1 own next =>
    cases h
    exact hnew
  | case2 own next v items ih =>
    obtain ⟨⟨e, next'⟩, he, h⟩ := Option.bind_eq_some_iff.mp h
    obtain ⟨hle, hids⟩ := new_declareVar he
    exact ih e next' h (hnew.cons hle hids)
  | case3 own next item items hne ih => exact ih h hnew

theorem new_declare (h : declare consts items first = some (own, next)) : New first next own := by
  obtain ⟨⟨nets, middle⟩, hnets, h⟩ := Option.bind_eq_some_iff.mp h
  have hnew := new_declareNets hnets ⟨le_refl first, fun d hd => by cases hd⟩
  exact new_declareVars h hnew

end

/-! ### Pieces in order -/

section

variable {base : Constants} {E : Type} {regions regions' : List (Region base E)}
  {first next last : Nat}

/-- The regions create their nets one after the other. -/
structure Spans (first last : Nat) (regions : List (Region base E)) : Prop where
  le : first ≤ last
  within : ∀ r ∈ regions, first ≤ r.first ∧ r.next ≤ last
  ordered : regions.Pairwise fun r r' => r.next ≤ r'.first

theorem Spans.nil (h : first ≤ last) : Spans first last ([] : List (Region base E)) :=
  ⟨h, fun _ hr => absurd hr List.not_mem_nil, .nil⟩

theorem Spans.append (h : Spans first next regions) (h' : Spans next last regions') :
    Spans first last (regions ++ regions') := by
  refine ⟨h.le.trans h'.le, fun r hr => ?_, List.pairwise_append.mpr ⟨h.ordered, h'.ordered, ?_⟩⟩
  · rcases List.mem_append.mp hr with hr | hr
    · exact ⟨(h.within r hr).1, (h.within r hr).2.trans h'.le⟩
    · exact ⟨h.le.trans (h'.within r hr).1, (h'.within r hr).2⟩
  · exact fun r hr r' hr' => (h.within r hr).2.trans (h'.within r' hr').1

theorem Spans.later (h : Spans next last regions) (hle : first ≤ next) : Spans first last regions :=
  ⟨hle.trans h.le, fun r hr => ⟨hle.trans (h.within r hr).1, (h.within r hr).2⟩, h.ordered⟩

theorem Spans.cons {r : Region base E} (h : Spans r.next last regions) (hle : r.first ≤ r.next) :
    Spans r.first last (r :: regions) :=
  have hone : Spans r.first r.next [r] := ⟨hle, fun r' hr' => by
    rw [List.mem_singleton.mp hr']
    exact ⟨le_rfl, le_rfl⟩, List.pairwise_singleton _ _⟩
  hone.append h

variable {α : Type} {piece : α → Piece base E} {l : List α}

theorem spans_inOrder (hpiece : ∀ a ∈ l, ∀ n rs n', piece a n = some (rs, n') → Spans n n' rs)
    (h : inOrder piece l first = some (regions, last)) : Spans first last regions := by
  induction l generalizing first regions with
  | nil =>
    cases h
    exact .nil le_rfl
  | cons a rest ih =>
    obtain ⟨⟨rs, n⟩, ha, h⟩ := Option.bind_eq_some_iff.mp h
    obtain ⟨⟨later, n'⟩, hrest, heq⟩ := Option.map_eq_some_iff.mp h
    cases heq
    exact (hpiece a List.mem_cons_self _ _ _ ha).append
      (ih (fun b hb => hpiece b (List.mem_cons_of_mem _ hb)) hrest)

/-- What is elaborated in order belongs to one of the pieces. -/
theorem mem_inOrder (h : inOrder piece l first = some (regions, last)) {r : Region base E}
    (hr : r ∈ regions) :
    ∃ a ∈ l, ∃ n rs n', piece a n = some (rs, n') ∧ r ∈ rs ∧ rs ⊆ regions := by
  induction l generalizing first regions with
  | nil =>
    cases h
    cases hr
  | cons a rest ih =>
    obtain ⟨⟨rs, n⟩, ha, h⟩ := Option.bind_eq_some_iff.mp h
    obtain ⟨⟨later, n'⟩, hrest, heq⟩ := Option.map_eq_some_iff.mp h
    cases heq
    rcases List.mem_append.mp hr with hr | hr
    · exact ⟨a, List.mem_cons_self, first, rs, n, ha, hr, List.subset_append_left _ _⟩
    · obtain ⟨b, hb, n₁, rs', n₂, hpiece, hr, hsub⟩ := ih hrest hr
      exact ⟨b, List.mem_cons_of_mem _ hb, n₁, rs', n₂, hpiece, hr,
        List.Subset.trans hsub (List.subset_append_right _ _)⟩

end

/-! ### Every region of a design -/

section

variable {E : Type} {d : Design E} {path : List String} {sc : Scoped d.consts}
  {items : List (ModuleItem E)} {regions : List (Region d.consts E)} {first last fuel : Nat}

/-- Where a region is: the whole of an instance, whose ports and parameters are declared around it,
or a block that another region selects, which sees what that region sees and the loop's variable. -/
inductive Placed (d : Design E) (regions : List (Region d.consts E)) (r : Region d.consts E) : Prop
  | instance {m : Module E} (hm : m ∈ d.modules) (hitems : r.items = m.items)
    (houter : ∀ x ∈ r.outer.env,
      x.1 ∈ m.ports.map Port.name ++ m.parameters.map ModuleParameter.name)
  | block {p : Region d.consts E} {construct : GenerateConstruct E} {blocks : List (Chosen E)}
    {chosen : Chosen E} (hp : p ∈ regions) (hitem : .generate construct ∈ p.items)
    (hblocks : chooseBlocks p.scope.tables.consts construct = some blocks)
    (hchosen : chosen ∈ blocks)
    (hitems : r.items = chosen.block.items) (houter : r.outer.env = chosen.env ++ p.scope.env)

theorem Placed.mono {more : List (Region d.consts E)} {r : Region d.consts E}
    (h : Placed d regions r) (hsub : regions ⊆ more) : Placed d more r := by
  cases h with
  | «instance» hm hitems houter => exact .instance hm hitems houter
  | block hp hitem hblocks hchosen hitems houter =>
    exact .block (hsub hp) hitem hblocks hchosen hitems houter

/-- The region has the declarations of its items. -/
def Declares (r : Region d.consts E) : Prop :=
  declare r.outer.tables.consts r.items r.first = some (r.own, r.next)

theorem mem_constructs {construct : GenerateConstruct E} (h : construct ∈ constructs items) :
    .generate construct ∈ items := by
  obtain ⟨item, hitem, h⟩ := List.mem_filterMap.mp h
  cases item with
  | generate c =>
    cases h
    exact hitem
  | _ => cases h

theorem env_enterParameters {base : Constants} {resolved : Names PackedVec}
    {parameters : List ModuleParameter} {sc sc' : Scoped base}
    (h : enterParameters resolved parameters sc = some sc') {x : String × Entity}
    (hx : x ∈ sc'.env) : x ∈ sc.env ∨ x.1 ∈ parameters.map ModuleParameter.name := by
  induction parameters generalizing sc with
  | nil =>
    cases h
    exact .inl hx
  | cons p parameters ih =>
    obtain ⟨value, -, h⟩ := Option.bind_eq_some_iff.mp h
    rcases ih h with hx | hx
    · rcases List.mem_cons.mp hx with rfl | hx
      · exact .inr List.mem_cons_self
      · exact .inl hx
    · exact .inr (List.mem_cons_of_mem _ hx)

theorem enterPorts_spec {base : Constants} {bindings : Names (Option Nat)} {ports : List Port}
    {sc sc' : Scoped base} (h : enterPorts bindings ports sc first = some (sc', last)) :
    first ≤ last ∧ ∀ x ∈ sc'.env, x ∈ sc.env ∨ x.1 ∈ ports.map Port.name := by
  induction ports generalizing sc first with
  | nil =>
    cases h
    exact ⟨le_rfl, fun x hx => .inl hx⟩
  | cons port ports ih =>
    obtain ⟨width, -, h⟩ := Option.bind_eq_some_iff.mp h
    have hnames {e : Entity} {x : String × Entity}
        (hx : x ∈ (sc.enter port.name e).env ∨ x.1 ∈ ports.map Port.name) :
        x ∈ sc.env ∨ x.1 ∈ (port :: ports).map Port.name := by
      rcases hx with hx | hx
      · rcases List.mem_cons.mp hx with rfl | hx
        · exact .inr List.mem_cons_self
        · exact .inl hx
      · exact .inr (List.mem_cons_of_mem _ hx)
    split at h
    · obtain ⟨hle, henv⟩ := ih h
      exact ⟨hle, fun x hx => hnames (henv x hx)⟩
    · obtain ⟨hle, henv⟩ := ih h
      exact ⟨(Nat.le_succ first).trans hle, fun x hx => hnames (henv x hx)⟩

/-- An instance is elaborated as its items, in the scope of its ports and parameters. -/
theorem elaborateModule_spec {elaborateItems : List String → Scoped d.consts →
    List (ModuleItem E) → Piece d.consts E} {m : Module E} {resolved : Names PackedVec}
    {bindings : Constants → Option (Names (Option Nat))}
    (h : elaborateModule d elaborateItems m path resolved bindings first = some (regions, last)) :
    ∃ sc n, first ≤ n ∧ elaborateItems path sc m.items n = some (regions, last) ∧
      ∀ x ∈ sc.env, x.1 ∈ m.ports.map Port.name ++ m.parameters.map ModuleParameter.name := by
  obtain ⟨sc₁, hparameters, h⟩ := Option.bind_eq_some_iff.mp h
  obtain ⟨bound, -, h⟩ := Option.bind_eq_some_iff.mp h
  obtain ⟨⟨sc, n⟩, hports, h⟩ := Option.bind_eq_some_iff.mp h
  obtain ⟨hle, henv⟩ := enterPorts_spec hports
  refine ⟨sc, n, hle, h, fun x hx => ?_⟩
  rcases henv x hx with hx | hx
  · rcases env_enterParameters hparameters hx with hx | hx
    · cases hx
    · exact List.mem_append_right _ hx
  · exact List.mem_append_left _ hx

theorem elaborateInstance_spec {elaborateItems : List String → Scoped d.consts →
    List (ModuleItem E) → Piece d.consts E} {i : ModuleInstance}
    (h : elaborateInstance d elaborateItems path sc i first = some (regions, last)) :
    ∃ m ∈ d.modules, ∃ resolved bindings, elaborateModule d elaborateItems m (path ++ [i.name])
      resolved bindings first = some (regions, last) := by
  obtain ⟨m, hm, h⟩ := Option.bind_eq_some_iff.mp h
  obtain ⟨resolved, -, h⟩ := Option.bind_eq_some_iff.mp h
  exact ⟨m, List.mem_of_find?_eq_some hm, resolved, _, h⟩

/-- What an elaboration of items makes: the region of the items, then those in it. -/
structure Elaborates (d : Design E) (sc : Scoped d.consts) (items : List (ModuleItem E))
    (first last : Nat) (regions : List (Region d.consts E)) : Prop where
  spans : Spans first last regions
  declares : ∀ r ∈ regions, Declares r
  head : ∃ r rest, regions = r :: rest ∧ r.outer = sc ∧ r.items = items ∧
    ∀ r' ∈ rest, Placed d regions r'

/-- What a piece of the elaboration of a region makes. -/
structure Inside (d : Design E) (p : Region d.consts E) (first last : Nat)
    (regions : List (Region d.consts E)) : Prop where
  spans : Spans first last regions
  declares : ∀ r ∈ regions, Declares r
  placed : ∀ r ∈ regions, Placed d (p :: regions) r

variable {p : Region d.consts E}

theorem Inside.append {middle : Nat} {more : List (Region d.consts E)}
    (h : Inside d p first middle regions) (h' : Inside d p middle last more) :
    Inside d p first last (regions ++ more) := by
  refine ⟨h.spans.append h'.spans, fun r hr => ?_, fun r hr => ?_⟩
  · exact (List.mem_append.mp hr).elim (h.declares r) (h'.declares r)
  · rcases List.mem_append.mp hr with hr | hr
    · exact (h.placed r hr).mono (List.cons_subset_cons _ (List.subset_append_left _ _))
    · exact (h'.placed r hr).mono (List.cons_subset_cons _ (List.subset_append_right _ _))

theorem inside_inOrder {α : Type} {piece : α → Piece d.consts E} {l : List α}
    (hpiece : ∀ a ∈ l, ∀ n rs n', piece a n = some (rs, n') → Inside d p n n' rs)
    (h : inOrder piece l first = some (regions, last)) : Inside d p first last regions := by
  refine ⟨spans_inOrder (fun a ha n rs n' ha' => (hpiece a ha n rs n' ha').spans) h,
    fun r hr => ?_, fun r hr => ?_⟩
  · obtain ⟨a, ha, n, rs, n', ha', hr, -⟩ := mem_inOrder h hr
    exact (hpiece a ha n rs n' ha').declares r hr
  · obtain ⟨a, ha, n, rs, n', ha', hr, hsub⟩ := mem_inOrder h hr
    exact ((hpiece a ha n rs n' ha').placed r hr).mono (List.cons_subset_cons _ hsub)

section

variable {elabItems : List String → Scoped d.consts → List (ModuleItem E) → Piece d.consts E}
  (hitems : ∀ {path sc items first regions last},
    elabItems path sc items first = some (regions, last) →
      Elaborates d sc items first last regions)

include hitems

theorem inside_construct {construct : GenerateConstruct E} (hscope : p.scope = sc)
    (hp : .generate construct ∈ p.items)
    (h : elaborateConstruct d elabItems path sc construct first = some (regions, last)) :
    Inside d p first last regions := by
  obtain ⟨blocks, hblocks, h⟩ := Option.bind_eq_some_iff.mp h
  refine inside_inOrder (fun chosen hchosen n rs n' hb => ?_) h
  have hscopes := hitems hb
  refine ⟨hscopes.spans, hscopes.declares, fun r hr => ?_⟩
  obtain ⟨r₀, rest, rfl, houter, hitems', hrest⟩ := hscopes.head
  rcases List.mem_cons.mp hr with rfl | hr
  · refine .block List.mem_cons_self hp (hscope ▸ hblocks) hchosen hitems' ?_
    rw [houter, Scoped.env_enterAll, hscope]
  · exact (hrest r hr).mono (List.subset_cons_self _ _)

theorem inside_module {m : Module E} (hm : m ∈ d.modules) {resolved : Names PackedVec}
    {bindings : Constants → Option (Names (Option Nat))}
    (h : elaborateModule d elabItems m path resolved bindings first = some (regions, last)) :
    Spans first last regions ∧ (∀ r ∈ regions, Declares r) ∧
      ∀ r ∈ regions, Placed d regions r := by
  obtain ⟨sc', n, hle, h, henv⟩ := elaborateModule_spec h
  have hscopes := hitems h
  refine ⟨hscopes.spans.later hle, hscopes.declares, fun r hr => ?_⟩
  obtain ⟨r₀, rest, rfl, houter, hitems', hrest⟩ := hscopes.head
  rcases List.mem_cons.mp hr with rfl | hr
  · exact .instance hm hitems' (houter ▸ henv)
  · exact hrest r hr

theorem inside_instance {i : ModuleInstance}
    (h : elaborateInstance d elabItems path sc i first = some (regions, last)) :
    Inside d p first last regions := by
  obtain ⟨m, hm, resolved, bindings, h⟩ := elaborateInstance_spec h
  obtain ⟨hspans, hdeclares, hplaced⟩ := inside_module hitems hm h
  exact ⟨hspans, hdeclares, fun r hr => (hplaced r hr).mono (List.subset_cons_self _ _)⟩

end

/-- By induction on the nesting. -/
theorem elaborates_items (h : elaborateItems d fuel path sc items first = some (regions, last)) :
    Elaborates d sc items first last regions := by
  induction fuel generalizing path sc items first last regions with
  | zero => cases h
  | succ fuel ih =>
    obtain ⟨⟨own, next⟩, hown, h⟩ := Option.bind_eq_some_iff.mp h
    obtain ⟨⟨blocks, next₁⟩, hblocks, h⟩ := Option.bind_eq_some_iff.mp h
    obtain ⟨⟨children, next₂⟩, hchildren, heq⟩ := Option.map_eq_some_iff.mp h
    cases heq
    let r : Region d.consts E := ⟨path, sc, own, items, first, next⟩
    have hblocks' : Inside d r next next₁ blocks := inside_inOrder
      (fun construct hc _ _ _ hpiece =>
        inside_construct ih (show r.scope = sc.enterAll own from rfl) (mem_constructs hc) hpiece)
      hblocks
    have hchildren' : Inside d r next₁ last children := inside_inOrder
      (fun _ _ _ _ _ hpiece => inside_instance ih hpiece) hchildren
    have hinside := hblocks'.append hchildren'
    refine ⟨hinside.spans.cons (r := r) (new_declare hown).1, fun r' hr' => ?_,
      r, _, rfl, rfl, rfl, hinside.placed⟩
    rcases List.mem_cons.mp hr' with rfl | hr'
    · exact hown
    · exact hinside.declares r' hr'

/-- The regions of a whole design. -/
theorem regions_of_elaborate (h : elaborate d fuel first = some (regions, last)) :
    Spans first last regions ∧ (∀ r ∈ regions, Declares r) ∧
      ∀ r ∈ regions, Placed d regions r := by
  have hmodule (m : Module E) (hm : m ∈ d.modules.filter fun m => m.name ∉ d.instantiated)
      (n : Nat) (rs : List (Region d.consts E)) (n' : Nat)
      (hpiece : elaborateModule d (elaborateItems d fuel) m [] .empty (fun _ => some .empty) n =
        some (rs, n')) := inside_module elaborates_items (List.mem_filter.mp hm).1 hpiece
  refine ⟨?_, fun r hr => ?_, fun r hr => ?_⟩
  · exact spans_inOrder (fun m hm n rs n' hpiece => (hmodule m hm n rs n' hpiece).1) h
  · obtain ⟨m, hm, n, rs, n', hpiece, hr, -⟩ := mem_inOrder h hr
    exact (hmodule m hm n rs n' hpiece).2.1 r hr
  · obtain ⟨m, hm, n, rs, n', hpiece, hr, hsub⟩ := mem_inOrder h hr
    exact ((hmodule m hm n rs n' hpiece).2.2 r hr).mono hsub

/-! ### Lexical scopes -/

/-- The regions are nested as the blocks are; a name denotes the innermost of its declarations that
are around it; and no net is declared by two regions, such as two iterations of a loop. -/
structure LexicalScopes (d : Design E) (globals : Names PackageVar)
    (regions : List (Region d.consts E)) : Prop where
  placed : ∀ r ∈ regions, Placed d regions r
  declares : ∀ r ∈ regions, Declares r
  denotes : ∀ r ∈ regions, ∀ name e hidden, declarations r.scope.env name = e :: hidden →
    r.scope.tables.view globals name = e.view
  distinct : regions.Pairwise fun r r' => ∀ id ∈ r.nets, id ∉ r'.nets

theorem mem_nets {r : Region d.consts E} (h : Declares r) {id : Nat} (hid : id ∈ r.nets) :
    r.first ≤ id ∧ id < r.next := by
  obtain ⟨x, hx, hid⟩ := List.mem_flatMap.mp hid
  exact (new_declare h).2 x hx id hid

theorem view_iff (globals : Names PackageVar) (r : Region d.consts E) {name : String} {e : Entity}
    {hidden : List Entity} (h : declarations r.scope.env name = e :: hidden) :
    r.scope.tables.view globals name = e.view ↔ Alone globals d.consts name e hidden := by
  have hholds := holds_tablesOf d.consts r.scope.env name
  rw [h, ← r.scope.built] at hholds
  exact ⟨alone_of_view hholds, view_of_alone hholds⟩

/-- Generate scopes are lexical exactly when no declaration hides one of another kind. -/
theorem lexical_scopes_iff (d : Design E) (globals : Names PackageVar) (fuel first last : Nat)
    (regions : List (Region d.consts E)) (h : elaborate d fuel first = some (regions, last)) :
    LexicalScopes d globals regions ↔
      ∀ r ∈ regions, ∀ name e hidden, declarations r.scope.env name = e :: hidden →
        Alone globals d.consts name e hidden := by
  obtain ⟨hspans, hdeclares, hplaced⟩ := regions_of_elaborate h
  constructor
  · intro hlexical r hr name e hidden hname
    exact (view_iff globals r hname).mp (hlexical.denotes r hr name e hidden hname)
  · intro halone
    refine ⟨hplaced, hdeclares, fun r hr name e hidden hname => (view_iff globals r hname).mpr
      (halone r hr name e hidden hname), ?_⟩
    refine hspans.ordered.imp_of_mem fun hr hr' hle id hid hid' => ?_
    have hlo := mem_nets (hdeclares _ hr') hid'
    have hhi := mem_nets (hdeclares _ hr) hid
    omega

end

/-! ### A block with a name of the module -/

theorem evaluate_literal (consts : Constants) {v : PackedVec} (h : v.isKnown = true) :
    evaluateGenerateConstant consts (.literal v) = some v := by
  unfold evaluateGenerateConstant Hierarchy.tryConstEvalWith
  rw [Const.Evaluators.Elab.tryConstEvalWith]
  simp [Except.toOption, h]

def wireA : ModuleItem Unit := .net ⟨"a", 1, none, false, .wire⟩

def blockB : ModuleItem Unit := .generate (.ifElse (.literal (.ones 1)) (.mk "b" [wireA]) none)

/-- The block declares a name of the module again, as a wire. -/
def shadowing (outer : ModuleItem Unit) : Design Unit where
  modules := [⟨"top", [], [], [outer, blockB]⟩]
  consts := Names.empty
  globals _ := false

def memoryA : ModuleItem Unit :=
  .var ⟨"a", 1, none, some ⟨.literal (.zero 1), .literal (.zero 1)⟩, false, false, true, none⟩

def wire (id : Nat) : Entity := .signal ⟨id, 1, false, some .wire, true⟩

/-- The module and the block, with what each of them declares. -/
def twoRegions (item : ModuleItem Unit) (outer : Entity) : List (Region Names.empty Unit) :=
  [⟨[], .new _, [("a", outer)], [item, blockB], 0, 1⟩,
    ⟨["b"], (Scoped.new _).enterAll [("a", outer)], [("a", wire 1)], [wireA], 1, 2⟩]

theorem chooseBlocks_ones (consts : Constants) (block : GenerateBlock Unit) :
    chooseBlocks consts (.ifElse (.literal (.ones 1)) block none) = some [⟨none, block⟩] := by
  have hknown : (PackedVec.ones 1).isKnown = true := by decide
  simp only [chooseBlocks, evaluate_literal consts hknown]
  rfl

/-- The module is elaborated with the block in it. -/
theorem elaborate_shadowing {item : ModuleItem Unit} {e : Entity}
    (hitem : instantiatedItem item = [])
    (hdeclare : declare Names.empty [item, blockB] 0 = some ([("a", e)], 1))
    (hconstructs : constructs [item, blockB] =
      [.ifElse (.literal (.ones 1)) (.mk "b" [wireA]) none])
    (hinstances : instances [item, blockB] = []) :
    elaborate (shadowing item) 2 0 = some (twoRegions item e, 2) := by
  have hroots : (shadowing item).modules.filter
      (fun m => m.name ∉ (shadowing item).instantiated) = (shadowing item).modules := by
    simp [Design.instantiated, shadowing, blockB, wireA, instantiatedItems, instantiatedItem, hitem,
      instantiatedConstruct, instantiatedBlock, instantiatedDefault]
  have hdeclare' : declare (Scoped.new Names.empty).tables.consts [item, blockB] 0 =
      some ([("a", e)], 1) := hdeclare
  have hblock (T : Tables) : declare T.consts [wireA] 1 = some ([("a", wire 1)], 2) := rfl
  unfold elaborate
  rw [hroots]
  simp [shadowing, inOrder, elaborateModule, enterParameters, enterPorts, elaborateItems,
    hdeclare', hblock, hconstructs, hinstances, elaborateConstruct, chooseBlocks_ones,
    elaborateBlock, Chosen.segment, Chosen.env, GenerateBlock.items, GenerateBlock.name,
    Hierarchy.segment, twoRegions]
  rfl

theorem elaborate_wire : elaborate (shadowing wireA) 2 0 = some (twoRegions wireA (wire 0), 2) :=
  elaborate_shadowing rfl rfl rfl rfl

theorem elaborate_memory : elaborate (shadowing memoryA) 2 0 =
    some (twoRegions memoryA (.memory ⟨[0], 0, 0, 1⟩ false), 2) := by
  have hzero := evaluate_literal Names.empty (show (PackedVec.zero 1).isKnown = true by decide)
  have hindex : toI64 (PackedVec.zero 1) = 0 := by decide
  refine elaborate_shadowing rfl ?_ rfl rfl
  simp [declare, declareNets, declareVars, declareVar, memoryA, blockB, resolveRangeBounds,
    resolveDeclaredWidth, hzero, hindex]

theorem lexical_wire : LexicalScopes (shadowing wireA) .empty (twoRegions wireA (wire 0)) := by
  refine (lexical_scopes_iff _ .empty 2 0 2 _ elaborate_wire).mpr fun r hr name e hidden hname => ?_
  have hall : ∀ d ∈ r.scope.env, ∃ id, d.2 = wire id := by
    rcases List.mem_cons.mp hr with rfl | hr
    · intro d hd
      rw [List.mem_singleton.mp hd]
      exact ⟨0, rfl⟩
    · rw [List.mem_singleton.mp hr]
      intro d hd
      rcases List.mem_cons.mp hd with rfl | hd
      · exact ⟨1, rfl⟩
      · rw [List.mem_singleton.mp hd]
        exact ⟨0, rfl⟩
  have hwire : ∀ x ∈ e :: hidden, ∃ id, x = wire id := by
    rw [← hname]
    intro x hx
    obtain ⟨d, hd, rfl⟩ := List.mem_map.mp hx
    exact hall d (List.mem_filter.mp hd).1
  obtain ⟨id, rfl⟩ := hwire e List.mem_cons_self
  refine ⟨trivial, fun older hmem => ?_, rfl, .inl rfl⟩
  obtain ⟨id', rfl⟩ := hwire older (List.mem_cons_of_mem _ hmem)
  exact .inl rfl

/-- An element of the memory is read in the block that declares a wire of the name. -/
theorem memory_in_block : ¬ ∀ (d : Design Unit) (globals : Names PackageVar)
    (fuel first last : Nat) (regions : List (Region d.consts Unit)),
    elaborate d fuel first = some (regions, last) → LexicalScopes d globals regions := by
  intro hclaim
  have hlexical := hclaim (shadowing memoryA) .empty 2 0 2 _ elaborate_memory
  have hview := hlexical.denotes _ (List.mem_cons_of_mem _ List.mem_cons_self) "a" (wire 1)
    [.memory ⟨[0], 0, 0, 1⟩ false] rfl
  have hread := congrArg View.readIndex hview
  have hread : some (IndexBase.memory ⟨[0], 0, 0, 1⟩) = some (IndexBase.operand (.net 1)) := hread
  cases hread

end Eevee.Elab.GenerateScopes
