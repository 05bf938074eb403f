/- A blocking assignment stores where it is meant to exactly when its lookups lead there. -/

import Mathlib.Data.List.Basic
import Eevee.Elab.Stores

set_option autoImplicit false
set_option relaxedAutoImplicit false

namespace Eevee.Elab.Blocking

open Eevee.Core.Logic
open Eevee.Ir.Values (MemoryDef memoryElement)
open Eevee.Ir.Objects
open Eevee.Ir.Locations
open Eevee.Classes.Declarations
open Eevee.Elab.Names
open Eevee.Elab.Targets
open Eevee.Elab.Resolution (found_scope)
open Eevee.Elab.Assignments
open Eevee.Elab.Stores

variable {E : Type} {ctx : Context E}

/-! ### Where an assignment is meant to store -/

section

variable {lhs : Lvalue E} {s : State} {h : Heap} {v₀ v obj idx : Val} {w : Write}

theorem baseOf_at {d : Decl} {l : Location} (hbase : baseOf ctx s d = .at l) :
    ctx.place s d = some l := by
  rw [baseOf] at hbase
  cases hmemory : memoryOf d with
  | some m =>
    rw [hmemory] at hbase
    cases hbase
  | none =>
    cases hplace : ctx.place s d with
    | none =>
      rw [hmemory, hplace] at hbase
      cases hbase
    | some l' =>
      rw [hmemory, hplace] at hbase
      cases hbase
      rfl

/-- Places are visible unless they are registers of no variable. -/
theorem visible_of_place {d : Decl} {l : Location} (hplace : ctx.place s d = some l)
    (hlocal : ∀ w, d = .variable .local w → w.place < ctx.temps) : Visible ctx l := by
  cases d with
  | this | const | method | function => cases hplace
  | signal sig =>
    obtain ⟨id, width, -, rfl⟩ := ctx.place_signal hplace
    trivial
  | «variable» scope w =>
    cases scope with
    | «local» =>
      cases hplace
      exact hlocal w rfl
    | field =>
      obtain ⟨id, -, rfl⟩ := ctx.place_field hplace
      trivial
    | static | package =>
      cases hplace
      trivial

theorem visible_of_denotedBase {l : Location} (hbase : denotedBase ctx lhs s obj = some (.at l)) :
    Visible ctx l := by
  obtain ⟨name, receiver, index, scope⟩ := lhs
  cases scope with
  | some scope =>
    rw [denotedBase, Option.map_eq_some_iff] at hbase
    obtain ⟨d, hd, hbase⟩ := hbase
    refine visible_of_place (baseOf_at hbase) fun w hw => ?_
    subst hw
    have hd' : scopedBase ctx name scope = some (.variable .local w) := hd
    rw [scopedBase] at hd'
    cases hclass : ctx.env.classStatics scope with
    | some statics =>
      rw [hclass] at hd'
      obtain ⟨_, heq⟩ := scopedStatic_scope hd'
      cases heq
    | none =>
      rw [hclass] at hd'
      obtain ⟨_, -, heq⟩ := found_scope hd'
      cases heq
  | none =>
    cases receiver with
    | some receiver =>
      have hmember : member ctx receiver name obj = some (.at l) := hbase
      rw [member, Option.bind_eq_some_iff] at hmember
      obtain ⟨info, -, hmember⟩ := hmember
      cases hslot : info.fieldSlot name with
      | some slot =>
        rw [hslot] at hmember
        cases obj with
        | obj id =>
          cases hmember
          trivial
        | null | logic | str | queue | assoc | event => cases hmember
      | none =>
        rw [hslot] at hmember
        cases hstatic : info.staticFields name with
        | some id =>
          rw [hstatic] at hmember
          cases hmember
          trivial
        | none =>
          rw [hstatic] at hmember
          cases hmember
    | none =>
      rw [denotedBase, Option.map_eq_some_iff] at hbase
      obtain ⟨d, hd, hbase⟩ := hbase
      refine visible_of_place (baseOf_at hbase) fun w hw => ?_
      subst hw
      have hd' : declaredBase ctx name = some (.variable .local w) := hd
      rw [declaredBase] at hd'
      split at hd'
      · cases hd'
      · rw [Option.or_eq_some_iff] at hd'
        rcases hd' with hany | ⟨-, hsignal⟩
        · exact local_lt (by rw [Env.wholeWrite, hany, Option.some_or])
        · obtain ⟨_, heq⟩ := signal_of_lvalueIndexWidth hsignal
          cases heq

/-- What is meant to be written is a copy, or there are no copies. -/
structure Meant (ctx : Context E) (s : State) (h : Heap) (v : Val) (w : Write) : Prop where
  placed : Placed ctx s w
  value : ∀ place value, w = some (place, value) → value = v ∨ h = s.heap

theorem meant_none : Meant ctx s h v none :=
  ⟨⟨fun _ _ heq => (by cases heq), fun _ _ heq => (by cases heq)⟩, fun _ _ heq => by cases heq⟩

theorem meant_some {l : Location} {value : Val} (hvis : Visible ctx l)
    (halloc : Allocated s.heap l) (hvalue : value = v ∨ h = s.heap) :
    Meant ctx s h v (some (l, value)) := by
  refine ⟨⟨fun _ _ heq => ?_, fun _ _ heq => ?_⟩, fun _ _ heq => ?_⟩
  · cases heq
    exact hvis
  · cases heq
    exact halloc
  · cases heq
    exact hvalue

/-- A write that comes about only at some indices. -/
theorem meant_bind {α : Type} {o : Option α} {f : α → Write} (hf : ∀ a, Meant ctx s h v (f a)) :
    Meant ctx s h v (o.bind f) := by
  cases o with
  | none => exact meant_none
  | some a => exact hf a

theorem meant_part {l : Location} (hsound : Sound s)
    (hcopy : assignmentCopy s.heap v₀ = some (h, v)) (hvis : Visible ctx l)
    (halloc : Allocated s.heap l) (hpart : denotedPart l (read s l) idx v = some w) :
    Meant ctx s h v w := by
  cases hcontent : read s l with
  | queue id =>
    rw [hcontent] at hpart
    have hid := hsound.queues l id hcontent
    cases Option.some.inj hpart
    rw [Option.map_eq_bind]
    exact meant_bind fun i => meant_some trivial hid (.inl rfl)
  | assoc id =>
    rw [hcontent] at hpart
    have hid := hsound.assocs l id hcontent
    cases Option.some.inj hpart
    split
    · exact meant_some trivial hid (.inl rfl)
    · exact meant_none
  | logic old =>
    rw [hcontent] at hpart
    obtain ⟨bits, hbits, rfl⟩ := Option.map_eq_some_iff.mp hpart
    refine meant_bind fun i => ?_
    split
    · exact meant_some hvis halloc (.inr (copy_of_asLogic hcopy hbits))
    · exact meant_none
  | str text =>
    rw [hcontent] at hpart
    obtain ⟨bits, hbits, rfl⟩ := Option.map_eq_some_iff.mp hpart
    refine meant_bind fun i => ?_
    split
    · exact meant_some hvis halloc (.inr (copy_of_asLogic hcopy hbits))
    · exact meant_none
  | null | obj | event =>
    rw [hcontent] at hpart
    cases Option.some.inj hpart
    exact meant_none

theorem meant_whole {l : Location} (hcopy : assignmentCopy s.heap v₀ = some (h, v))
    (hvis : Visible ctx l) (halloc : Allocated s.heap l) (hwhole : wholeWrite l v = some w) :
    Meant ctx s h v w := by
  cases l with
  | net id =>
    rw [wholeWrite, Option.map_eq_some_iff] at hwhole
    obtain ⟨bits, hbits, rfl⟩ := hwhole
    exact meant_some hvis halloc (.inr (copy_of_asLogic hcopy hbits))
  | register | field | static | element | entry =>
    cases hwhole
    exact meant_some hvis halloc (.inl rfl)

theorem meant_element {m : MemoryDef} (hcopy : assignmentCopy s.heap v₀ = some (h, v))
    (helement : elementWrite m idx v = some w) : Meant ctx s h v w := by
  rw [elementWrite, Option.bind_eq_some_iff] at helement
  obtain ⟨index, -, helement⟩ := helement
  cases hnet : memoryElement m index with
  | none =>
    rw [hnet] at helement
    cases helement
    exact meant_none
  | some net =>
    rw [hnet] at helement
    obtain ⟨bits, hbits, rfl⟩ := Option.map_eq_some_iff.mp helement
    exact meant_some trivial trivial (.inr (copy_of_asLogic hcopy hbits))

/-- An assignment is meant to write to a place that exists and is visible. -/
theorem meant_of_denoted (hsound : Sound s) (hcopy : assignmentCopy s.heap v₀ = some (h, v))
    (hdenoted : denoted ctx lhs s obj idx v = some w) : Meant ctx s h v w := by
  rw [denoted, Option.bind_eq_some_iff] at hdenoted
  obtain ⟨base, hbase, hdenoted⟩ := hdenoted
  by_cases hindex : lhs.index.isSome = true
  · rw [if_pos hindex] at hdenoted
    cases base with
    | nowhere =>
      cases hdenoted
      exact meant_none
    | memory m => exact meant_element hcopy hdenoted
    | «at» l =>
      obtain ⟨halloc, hpart⟩ := (Option.ite_none_right_eq_some).mp hdenoted
      exact meant_part hsound hcopy (visible_of_denotedBase hbase) halloc hpart
  · rw [if_neg hindex] at hdenoted
    cases base with
    | nowhere =>
      cases hdenoted
      exact meant_none
    | memory m => cases hdenoted
    | «at» l =>
      obtain ⟨halloc, hwhole⟩ := (Option.ite_none_right_eq_some).mp hdenoted
      exact meant_whole hcopy (visible_of_denotedBase hbase) halloc hwhole

end

theorem stores_of_phases {lhs : Lvalue E} {next : Reg} {rhs : Rhs E} {p : Phases}
    {s₁ s₂ : State} {h : Heap} {v : Val} {w : Write} (hnext : ctx.temps ≤ next)
    (hp : phases ctx lhs next rhs = some p) (hsound : Sound s₂)
    (hrun : runCode s₁ p.index = some s₂)
    (hcopy : assignmentCopy s₂.heap (s₂.regs p.src) = some (h, v))
    (hdenoted : denoted ctx lhs s₂ (s₁.regs p.obj) (s₂.regs p.idx) v = some w) :
    (∃ t, runCode s₂ p.write = some t ∧ Performs ctx s₂ h t w) ↔
      ∃ e, reached ctx lhs (isNew rhs) s₁ s₂ (s₁.regs p.obj) (s₂.regs p.idx) v = some e ∧
        SameEffect s₂ e w := by
  have hmeant := meant_of_denoted hsound hcopy hdenoted
  have hbase : (denotedBase ctx lhs s₂ (s₁.regs p.obj)).isSome = true := by
    rw [denoted, Option.bind_eq_some_iff] at hdenoted
    obtain ⟨base, hbase, -⟩ := hdenoted
    rw [hbase]
    rfl
  exact does_iff hsound hcopy (does_write hnext hp hsound hrun hcopy hbase) hmeant.placed
    hmeant.value

theorem same_self {s : State} (w : Write) : SameEffect s w w := by
  cases w with
  | none => trivial
  | some e => exact .inl ⟨rfl, rfl⟩

theorem memoryOf_memory {name : String} {d : Decl} (hd : ctx.env.memory name = some d) :
    ∃ m, memoryOf d = some m := by
  rw [Env.memory, Option.map_eq_some_iff] at hd
  obtain ⟨⟨_, _, kind⟩, hfound, rfl⟩ := hd
  have hboth := List.find?_some hfound
  have hkind : ¬ kind.isNet = true := (of_decide_eq_true hboth).2
  cases kind with
  | net => exact absurd rfl hkind
  | memory elements left right width => exact ⟨_, rfl⟩

/-- A scoped name that is assigned to is a static field. -/
theorem scoped_of_phases {lhs : Lvalue E} {q : Piece} {p : Phases} (hindex : lhs.index = none)
    (hp : valuePhases ctx lhs q = some p) (scope : String) (hscope : lhs.scope = some scope) :
    (ctx.env.scopedWrite lhs.name scope).isSome = true := by
  obtain ⟨name, receiver, index, scope'⟩ := lhs
  cases hindex
  cases hscope
  rw [valuePhases] at hp
  have hp' : ((ctx.env.scopedWrite name scope).bind (ctx.genWrite q.reg)).map (fun write =>
    (⟨[.piece q], [], write, q.reg, ctx.thisReg, q.reg⟩ : Phases)) = some p := hp
  obtain ⟨write, hwrite, -⟩ := Option.map_eq_some_iff.mp hp'
  obtain ⟨d, hd, -⟩ := Option.bind_eq_some_iff.mp hwrite
  exact Option.isSome_of_eq_some hd

/-- Without an index the lookups lead where the left-hand side denotes. -/
theorem reached_of_denoted {lhs : Lvalue E} {s₁ s₂ : State} {obj idx v : Val} {w : Write}
    (hindex : lhs.index = none)
    (hscope : ∀ scope, lhs.scope = some scope → (ctx.env.scopedWrite lhs.name scope).isSome = true)
    (hdenoted : denoted ctx lhs s₂ obj idx v = some w) :
    reached ctx lhs false s₁ s₂ obj idx v = some w := by
  obtain ⟨name, receiver, index, scope⟩ := lhs
  cases hindex
  rw [denoted, if_neg (by simp)] at hdenoted
  rw [reached]
  cases scope with
  | some scope =>
    have hclass : scopedBase ctx name scope = ctx.env.scopedWrite name scope := by
      have hwrite : (ctx.env.scopedWrite name scope).isSome = true := hscope scope rfl
      rw [scopedBase]
      cases hstatics : ctx.env.classStatics scope with
      | some statics => rfl
      | none =>
        rw [Env.scopedWrite, Env.scopedStatic, hstatics] at hwrite
        cases hwrite
    have hwrite : ((scopedBase ctx name scope).map (baseOf ctx s₂)).bind (storeWhole s₂ v) =
      some w := hdenoted
    rw [hclass, Option.bind_map] at hwrite
    exact hwrite
  | none =>
    cases receiver with
    | some receiver => exact hdenoted
    | none =>
      have hwrite : ((declaredBase ctx name).map (baseOf ctx s₂)).bind (storeWhole s₂ v) =
        some w := hdenoted
      show (ctx.env.wholeWrite name).bind (reachedWhole ctx s₂ · v) = some w
      rw [declaredBase] at hwrite
      split at hwrite
      · cases hwrite
      · rw [Env.wholeWrite]
        cases hany : ctx.env.anyVariable name with
        | some d =>
          rw [hany] at hwrite
          exact hwrite
        | none =>
          rw [hany, Option.none_or] at hwrite
          rw [Option.none_or]
          cases hmemory : ctx.env.memory name with
          | some d =>
            rw [hmemory] at hwrite
            obtain ⟨m, hm⟩ := memoryOf_memory hmemory
            have hnone : storeWhole s₂ v (baseOf ctx s₂ d) = some w := hwrite
            rw [baseOf, hm] at hnone
            cases hnone
          | none =>
            rw [hmemory, Option.none_or, Option.bind_map] at hwrite
            exact hwrite

/-- A value that is assigned to a whole variable, field or net is stored there. -/
theorem whole_stores {lhs : Lvalue E} {next : Reg} {e : E} {code : Code}
    (hindex : lhs.index = none) (hnext : ctx.temps ≤ next)
    (hgen : ctx.genBlocking lhs next (.value e) = some code) :
    ∃ p, phases ctx lhs next (.value e) = some p ∧ code = p.code ∧
      ∀ (s₀ s₁ s₂ : State) (h : Heap) (v : Val) (w : Write), runCode s₀ p.value = some s₁ →
        runCode s₁ p.index = some s₂ → Sound s₂ →
        assignmentCopy s₂.heap (s₂.regs p.src) = some (h, v) →
        denoted ctx lhs s₂ (s₁.regs p.obj) (s₂.regs p.idx) v = some w →
        ∃ t, runCode s₀ code = some t ∧ Performs ctx s₂ h t w := by
  rw [genBlocking_eq, Option.map_eq_some_iff] at hgen
  obtain ⟨p, hp, rfl⟩ := hgen
  refine ⟨p, hp, rfl, fun s₀ s₁ s₂ h v w hvalue hrun hsound hcopy hdenoted => ?_⟩
  have hreached : reached ctx lhs false s₁ s₂ (s₁.regs p.obj) (s₂.regs p.idx) v = some w :=
    reached_of_denoted hindex (scoped_of_phases hindex hp) hdenoted
  obtain ⟨t, hwrite, hperf⟩ := (stores_of_phases hnext hp hsound hrun hcopy hdenoted).mpr
    ⟨w, hreached, same_self w⟩
  refine ⟨t, ?_, hperf⟩
  rw [Phases.code, runCode_append, hvalue, Option.bind_some, runCode_append, hrun,
    Option.bind_some]
  exact hwrite

/-! ### A bit of a field -/

/-- A method of a class with the one field `bit [7:0] flags`. -/
def flagsEnv : Env where
  locals := []
  fields := [⟨"flags", 0, 8, false, false, false, none, none, none, false⟩]
  statics := []
  packageVars := .empty
  consts := .empty
  methods := []
  functions := []
  signals := []
  classStatics := .empty
  distinct := List.nodup_nil

def flagsContext : Context Unit :=
  Resolution.constContext flagsEnv 1 Nat.one_pos fun _ h => (by cases h)

/-- `flags[0]`. -/
def flagsBit : Lvalue Unit := ⟨"flags", none, some (), none⟩

/-- An object whose flags are all set. -/
def flagsState : State where
  regs := fun r => if r = 0 then .obj 0 else .null
  statics := fun _ => .null
  nets := fun _ => .zero 1
  heap := ⟨[⟨0, [.logic (.ones 8)]⟩], [], []⟩

/-- The state in which the cleared bit, the flags and the index are in registers. -/
def flagsEvaluated : State :=
  ((flagsState.setReg 1 (.logic (.zero 1))).setReg 2 (.logic (.ones 8))).setReg 3
    (.logic (.zero 1))

theorem flagsEvaluated_flat (l : Location) :
    (∀ id, read flagsEvaluated l ≠ .queue id) ∧ ∀ id, read flagsEvaluated l ≠ .assoc id := by
  cases l with
  | register r =>
    show (∀ id, flagsEvaluated.regs r ≠ .queue id) ∧ ∀ id, flagsEvaluated.regs r ≠ .assoc id
    simp only [flagsEvaluated, flagsState, State.setReg, Function.update_apply]
    split_ifs <;> simp
  | static | net | element | entry =>
    simp [Ir.Locations.read, flagsEvaluated, flagsState, State.setReg]
  | field id slot =>
    cases id with
    | zero =>
      cases slot with
      | zero => simp [Ir.Locations.read, flagsEvaluated, flagsState, State.setReg]
      | succ slot => simp [Ir.Locations.read, flagsEvaluated, flagsState, State.setReg]
    | succ id => simp [Ir.Locations.read, flagsEvaluated, flagsState, State.setReg]

theorem flagsEvaluated_sound : Sound flagsEvaluated :=
  ⟨fun l id hl => absurd hl ((flagsEvaluated_flat l).1 id),
    fun l id hl => absurd hl ((flagsEvaluated_flat l).2 id)⟩

/-- The code of `flags[0] = 0`. -/
def flagsPhases : Phases where
  value := [.piece (Resolution.constPiece 1)]
  index := [.inst (.getField 2 0 0), .piece (Resolution.constPiece 3)]
  write := [.inst (.indexSet 2 3 1)]
  src := 1
  obj := 0
  idx := 3

theorem flags_compiled :
    flagsContext.genBlocking flagsBit 1 (.value ()) = some flagsPhases.code := rfl

/-- The first bit of the flags is meant to be cleared. -/
def flagsCleared : Write := some (.field 0 0, .logic ((PackedVec.ones 8).setBit 0 .zero))

theorem flags_denoted :
    denoted flagsContext flagsBit flagsEvaluated (.obj 0) (.logic (.zero 1)) (.logic (.zero 1)) =
      some flagsCleared := by
  decide

end Eevee.Elab.Blocking
