/- Actions that emit code, and what they keep of the builder. -/

import Mathlib.Data.List.Basic
import Mathlib.Tactic.Common
import Eevee.Ir.Builder

set_option autoImplicit false
set_option relaxedAutoImplicit false

namespace Eevee.Ir.Emission

open Eevee.Core.Logic
open Eevee.Ir.Inst
open Eevee.Ir.Values
open Eevee.Ir.Builder

/-- An action on the program under construction; it fails where the elaborator panics. -/
abbrev Emit := StateT ProgramBuilder Option

def newReg : Emit Reg := fun pb => some pb.newReg

def konstLogic (v : PackedVec) : Emit Nat := fun pb => some (pb.konstLogic v)

def memory (def_ : MemoryDef) : Emit Nat := fun pb => some (pb.memory def_)

def arglist (regs : List Reg) : Emit Nat := fun pb => some (pb.arglist regs)

def newLabel : Emit Label := fun pb => some pb.newLabel

def bindLabel (l : Label) : Emit Unit := fun pb => some ((), pb.bind l)

def emit (inst : Inst) : Emit Unit := fun pb => some ((), pb.emit inst)

def jump (l : Label) : Emit Unit := fun pb => some ((), pb.jump l)

def branchFalse (cond : Reg) (l : Label) : Emit Unit := fun pb => some ((), pb.branchFalse cond l)

def branchTrue (cond : Reg) (l : Label) : Emit Unit := fun pb => some ((), pb.branchTrue cond l)

/-- An instruction with a new destination register. -/
def emitNew (inst : Reg → Inst) : Emit Reg := do
  let dst ← newReg
  emit (inst dst)
  return dst

section Running

variable {α β : Type} {m : Emit α} {f : α → Emit β} {pb pb' : ProgramBuilder} {b : β}

theorem bind_eq_some : (m >>= f) pb = some (b, pb') ↔
    ∃ a pb₁, m pb = some (a, pb₁) ∧ f a pb₁ = some (b, pb') := by
  show (m pb).bind (fun p => f p.1 p.2) = _ ↔ _
  rw [Option.bind_eq_some_iff]
  exact ⟨fun ⟨p, h⟩ => ⟨p.1, p.2, h⟩, fun ⟨a, pb₁, h⟩ => ⟨(a, pb₁), h⟩⟩

theorem bind_run {a : α} {pb₁ : ProgramBuilder} (h : m pb = some (a, pb₁)) :
    (m >>= f) pb = f a pb₁ := by
  show (m pb).bind (fun p => f p.1 p.2) = _
  rw [h]
  rfl

theorem pure_eq_some {a : α} {a' : α} :
    (pure a : Emit α) pb = some (a', pb') ↔ a = a' ∧ pb = pb' := by
  show some (a, pb) = _ ↔ _
  simp

theorem newReg_bind {f : Reg → Emit β} : (newReg >>= f) pb = f pb.nRegs pb.newReg.2 := bind_run rfl

theorem konstLogic_bind {f : Nat → Emit β} {v : PackedVec} :
    (konstLogic v >>= f) pb = f pb.consts.length (pb.konstLogic v).2 := bind_run rfl

theorem memory_bind {f : Nat → Emit β} {def_ : MemoryDef} :
    (memory def_ >>= f) pb = f pb.memories.length (pb.memory def_).2 := bind_run rfl

theorem arglist_bind {f : Nat → Emit β} {regs : List Reg} :
    (arglist regs >>= f) pb = f pb.arglists.length (pb.arglist regs).2 := bind_run rfl

theorem newLabel_bind {f : Label → Emit β} :
    (newLabel >>= f) pb = f pb.labels.length pb.newLabel.2 :=
  bind_run rfl

theorem bindLabel_bind {f : Unit → Emit β} {l : Label} :
    (bindLabel l >>= f) pb = f () (pb.bind l) :=
  bind_run rfl

theorem emit_bind {f : Unit → Emit β} {inst : Inst} : (emit inst >>= f) pb = f () (pb.emit inst) :=
  bind_run rfl

theorem jump_bind {f : Unit → Emit β} {l : Label} : (jump l >>= f) pb = f () (pb.jump l) :=
  bind_run rfl

theorem branchFalse_bind {f : Unit → Emit β} {c : Reg} {l : Label} :
    (branchFalse c l >>= f) pb = f () (pb.branchFalse c l) := bind_run rfl

theorem branchTrue_bind {f : Unit → Emit β} {c : Reg} {l : Label} :
    (branchTrue c l >>= f) pb = f () (pb.branchTrue c l) := bind_run rfl

theorem emitNew_run (inst : Reg → Inst) :
    emitNew inst pb = some (pb.nRegs, pb.newReg.2.emit (inst pb.nRegs)) := rfl

end Running

/-! ### Actions that succeed -/

/-- From every builder the action succeeds, with a result of the given kind. -/
def Gives {α : Type} (m : Emit α) (post : α → Prop) : Prop :=
  ∀ pb, ∃ a pb', m pb = some (a, pb') ∧ post a

namespace Gives

variable {α β : Type} {m : Emit α} {f : α → Emit β} {post : α → Prop} {post' : β → Prop}

theorem pure {a : α} (h : post a) : Gives (pure a) post := fun pb => ⟨a, pb, rfl, h⟩

theorem bind (h : Gives m post) (hf : ∀ a, post a → Gives (f a) post') : Gives (m >>= f) post' := by
  intro pb
  obtain ⟨a, pb₁, hm, ha⟩ := h pb
  obtain ⟨b, pb', hk, hb⟩ := hf a ha pb₁
  exact ⟨b, pb', bind_eq_some.mpr ⟨a, pb₁, hm, hk⟩, hb⟩

theorem emitNew (inst : Reg → Inst) : Gives (emitNew inst) fun _ => True :=
  fun _ => ⟨_, _, emitNew_run inst, trivial⟩

theorem newReg : Gives newReg fun _ => True := fun _ => ⟨_, _, rfl, trivial⟩

theorem konstLogic (v : PackedVec) : Gives (konstLogic v) fun _ => True :=
  fun _ => ⟨_, _, rfl, trivial⟩

theorem memory (def_ : MemoryDef) :
    Gives (memory def_) fun _ => True := fun _ => ⟨_, _, rfl, trivial⟩

theorem arglist (regs : List Reg) : Gives (arglist regs) fun _ => True :=
  fun _ => ⟨_, _, rfl, trivial⟩

theorem newLabel : Gives newLabel fun _ => True := fun _ => ⟨_, _, rfl, trivial⟩

theorem bindLabel (l : Label) : Gives (bindLabel l) fun _ => True := fun _ => ⟨_, _, rfl, trivial⟩

theorem emit (inst : Inst) : Gives (emit inst) fun _ => True := fun _ => ⟨_, _, rfl, trivial⟩

theorem jump (l : Label) : Gives (jump l) fun _ => True := fun _ => ⟨_, _, rfl, trivial⟩

theorem branchFalse (c : Reg) (l : Label) : Gives (branchFalse c l) fun _ => True :=
  fun _ => ⟨_, _, rfl, trivial⟩

theorem branchTrue (c : Reg) (l : Label) : Gives (branchTrue c l) fun _ => True :=
  fun _ => ⟨_, _, rfl, trivial⟩

end Gives

/-! ### Extension -/

/-- Nothing that was emitted, interned or bound has changed. -/
structure Extends (pb pb' : ProgramBuilder) : Prop where
  code : pb.code <+: pb'.code
  consts : pb.consts <+: pb'.consts
  memories : pb.memories <+: pb'.memories
  arglists : pb.arglists <+: pb'.arglists
  nRegs : pb.nRegs ≤ pb'.nRegs
  labels : pb.labels.length ≤ pb'.labels.length
  bound : ∀ {l target}, pb.Bound l target → pb'.Bound l target
  patches : ∀ {p}, p ∈ pb.patches → p ∈ pb'.patches

theorem Extends.refl (pb : ProgramBuilder) : Extends pb pb :=
  ⟨List.prefix_refl _, List.prefix_refl _, List.prefix_refl _, List.prefix_refl _, Nat.le_refl _,
    Nat.le_refl _, id, id⟩

theorem Extends.trans {a b c : ProgramBuilder} (h : Extends a b) (h' : Extends b c) : Extends a c :=
  ⟨h.code.trans h'.code, h.consts.trans h'.consts, h.memories.trans h'.memories,
    h.arglists.trans h'.arglists, Nat.le_trans h.nRegs h'.nRegs, Nat.le_trans h.labels h'.labels,
    h'.bound ∘ h.bound, h'.patches ∘ h.patches⟩

theorem bound_append {pb : ProgramBuilder} {l : Label} {target : Nat} (h : pb.Bound l target) :
    pb.newLabel.2.Bound l target := by
  have hlt : l < pb.labels.length := (List.getElem?_eq_some_iff.mp h).1
  show (pb.labels ++ [none])[l]? = _
  rw [List.getElem?_append_left hlt]
  exact h

section Primitives

variable (pb : ProgramBuilder)

theorem extends_newReg : Extends pb pb.newReg.2 :=
  { Extends.refl pb with nRegs := Nat.le_succ _ }

theorem extends_konstLogic (v : PackedVec) : Extends pb (pb.konstLogic v).2 :=
  { Extends.refl pb with consts := List.prefix_append _ _ }

theorem extends_memory (def_ : MemoryDef) : Extends pb (pb.memory def_).2 :=
  { Extends.refl pb with memories := List.prefix_append _ _ }

theorem extends_arglist (regs : List Reg) : Extends pb (pb.arglist regs).2 :=
  { Extends.refl pb with arglists := List.prefix_append _ _ }

theorem extends_newLabel : Extends pb pb.newLabel.2 :=
  { Extends.refl pb with
    labels := by
      show pb.labels.length ≤ (pb.labels ++ [none]).length
      simp
    bound := bound_append }

theorem extends_emit (inst : Inst) : Extends pb (pb.emit inst) :=
  { Extends.refl pb with code := List.prefix_append _ _ }

theorem extends_emitTo (inst : Inst) (l : Label) : Extends pb (pb.emitTo inst l) :=
  { Extends.refl pb with
    code := List.prefix_append _ _
    patches := List.mem_append_left _ }

theorem extends_bind {pb : ProgramBuilder} {l : Label} (h : pb.Unbound l) :
    Extends pb (pb.bind l) :=
  { Extends.refl pb with
    labels := by
      show pb.labels.length ≤ (pb.labels.set l _).length
      exact Nat.le_of_eq List.length_set.symm
    bound := by
      intro l' target hb
      have hne : l ≠ l' := by
        rintro rfl
        exact Option.noConfusion rfl (heq_of_eq (Option.some.inj (h.symm.trans hb)))
      show (pb.labels.set l _)[l']? = _
      rw [List.getElem?_set_ne hne]
      exact hb }

end Primitives

/-! ### Code that is added -/

/-- The labels below `n` are kept, and every new jump goes to a bound label or to one of `outs`. -/
structure Grows (n : Nat) (outs : List Label) (pb pb' : ProgramBuilder) : Prop
    extends Extends pb pb' where
  wf : pb.Wf → pb'.Wf
  kept : ∀ {l}, l < n → pb'.labels[l]? = pb.labels[l]?
  targets : ∀ {p}, p ∈ pb'.patches →
    p ∈ pb.patches ∨ p.2 ∈ outs ∨ ∃ target, pb'.Bound p.2 target

namespace Grows

variable {n : Nat} {outs : List Label} {pb pb' : ProgramBuilder}

theorem refl (n : Nat) (outs : List Label) (pb : ProgramBuilder) : Grows n outs pb pb :=
  ⟨Extends.refl pb, id, fun _ => rfl, Or.inl⟩

theorem trans {a b c : ProgramBuilder} (h : Grows n outs a b) (h' : Grows n outs b c) :
    Grows n outs a c where
  toExtends := h.toExtends.trans h'.toExtends
  wf := h'.wf ∘ h.wf
  kept hl := (h'.kept hl).trans (h.kept hl)
  targets hp := by
    rcases h'.targets hp with hp | hp
    · rcases h.targets hp with hp | hp | ⟨target, hb⟩
      · exact .inl hp
      · exact .inr (.inl hp)
      · exact .inr (.inr ⟨target, h'.bound hb⟩)
    · exact .inr hp

theorem mono {n' : Nat} {outs' : List Label} (h : Grows n' outs' pb pb') (hn : n ≤ n')
    (ho : ∀ l ∈ outs', l ∈ outs) : Grows n outs pb pb' where
  toExtends := h.toExtends
  wf := h.wf
  kept hl := h.kept (Nat.lt_of_lt_of_le hl hn)
  targets hp := (h.targets hp).imp_right (Or.imp_left (ho _))

/-- A label that is bound in the end is no way out. -/
theorem close {ls : List Label} (h : Grows n (ls ++ outs) pb pb')
    (hb : ∀ l ∈ ls, ∃ target, pb'.Bound l target) : Grows n outs pb pb' where
  toExtends := h.toExtends
  wf := h.wf
  kept := h.kept
  targets {p} hp := by
    rcases h.targets hp with hp | hp | hp
    · exact .inl hp
    · rcases List.mem_append.mp hp with hp | hp
      · exact .inr (.inr (hb _ hp))
      · exact .inr (.inl hp)
    · exact .inr (.inr hp)

/-- Of a builder with the same code, labels and patches. -/
theorem of_same (h : Extends pb pb') (hc : pb'.code = pb.code) (hl : pb'.labels = pb.labels)
    (hp : pb'.patches = pb.patches) : Grows n outs pb pb' where
  toExtends := h
  wf hw := by
    refine ⟨?_, ?_, ?_, ?_⟩
    · rw [hc, hp]
      exact hw.patched
    · rw [hc, hp]
      exact hw.jumps
    · rw [hp]
      exact hw.distinct
    · intro l target hb
      rw [hc]
      apply hw.within (l := l)
      rwa [ProgramBuilder.Bound, hl] at hb
  kept _ := by rw [hl]
  targets h := .inl (hp ▸ h)

end Grows

section Primitives

variable (n : Nat) (outs : List Label) (pb : ProgramBuilder)

theorem grows_newReg : Grows n outs pb pb.newReg.2 :=
  .of_same (extends_newReg pb) rfl rfl rfl

theorem grows_konstLogic (v : PackedVec) : Grows n outs pb (pb.konstLogic v).2 :=
  .of_same (extends_konstLogic pb v) rfl rfl rfl

theorem grows_memory (def_ : MemoryDef) : Grows n outs pb (pb.memory def_).2 :=
  .of_same (extends_memory pb def_) rfl rfl rfl

theorem grows_arglist (regs : List Reg) : Grows n outs pb (pb.arglist regs).2 :=
  .of_same (extends_arglist pb regs) rfl rfl rfl

theorem getElem?_snoc_lt {α : Type} {l : List α} {a b : α} {i : Nat}
    (h : (l ++ [a])[i]? = some b) : l[i]? = some b ∨ i = l.length ∧ a = b := by
  rcases Nat.lt_trichotomy i l.length with hlt | rfl | hgt
  · rw [List.getElem?_append_left hlt] at h
    exact .inl h
  · rw [List.getElem?_concat_length] at h
    exact .inr ⟨rfl, Option.some.inj h⟩
  · rw [List.getElem?_eq_none (by simp; omega)] at h
    cases h

theorem getElem?_snoc {α : Type} {l : List α} {a b : α} {i : Nat} (h : l[i]? = some b) :
    (l ++ [a])[i]? = some b := by
  rw [List.getElem?_append_left (List.getElem?_eq_some_iff.mp h).1]
  exact h

theorem bound_newLabel {pb : ProgramBuilder} {l : Label} {target : Nat}
    (h : pb.newLabel.2.Bound l target) : pb.Bound l target := by
  rcases getElem?_snoc_lt h with h | ⟨-, h⟩
  · exact h
  · cases h

theorem grows_newLabel {n : Nat} {pb : ProgramBuilder} (hn : n ≤ pb.labels.length) :
    Grows n outs pb pb.newLabel.2 where
  toExtends := extends_newLabel pb
  wf hw := ⟨hw.patched, hw.jumps, hw.distinct, fun hb => hw.within (bound_newLabel hb)⟩
  kept hl := List.getElem?_append_left (Nat.lt_of_lt_of_le hl hn)
  targets := .inl

theorem grows_emit {inst : Inst} (hplain : inst.isPlain = true) :
    Grows n outs pb (pb.emit inst) where
  toExtends := extends_emit pb inst
  wf hw := by
    refine ⟨?_, ?_, hw.distinct, fun hb => ?_⟩
    · intro p hp
      obtain ⟨inst', hi, hj⟩ := hw.patched p hp
      exact ⟨inst', getElem?_snoc hi, hj⟩
    · intro i inst' hi hj
      rcases getElem?_snoc_lt hi with hi | ⟨-, rfl⟩
      · exact hw.jumps hi hj
      · exact Bool.noConfusion (hplain.symm.trans hj)
    · have hle := hw.within hb
      show _ ≤ (pb.code ++ [inst]).length
      rw [List.length_append]
      exact Nat.le_add_right_of_le hle
  kept _ := rfl
  targets := .inl

theorem grows_emitTo {outs : List Label} {inst : Inst} {l : Label} (hjump : inst.isPlain = false)
    (hl : l ∈ outs) : Grows n outs pb (pb.emitTo inst l) where
  toExtends := extends_emitTo pb inst l
  wf hw := by
    have hpast : ∀ p ∈ pb.patches, p.1 < pb.code.length := fun p hp =>
      let ⟨_, hi, _⟩ := hw.patched p hp
      (List.getElem?_eq_some_iff.mp hi).1
    refine ⟨?_, ?_, ?_, fun hb => ?_⟩
    · intro p hp
      rcases List.mem_append.mp hp with hp | hp
      · obtain ⟨inst', hi, hj⟩ := hw.patched p hp
        exact ⟨inst', getElem?_snoc hi, hj⟩
      · rw [List.mem_singleton.mp hp]
        exact ⟨inst, List.getElem?_concat_length .., hjump⟩
    · intro i inst' hi hj
      rcases getElem?_snoc_lt hi with hi | ⟨rfl, -⟩
      · obtain ⟨l', hp⟩ := hw.jumps hi hj
        exact ⟨l', List.mem_append_left _ hp⟩
      · exact ⟨l, List.mem_append_right _ List.mem_cons_self⟩
    · show ((pb.patches ++ [(pb.code.length, l)]).map Prod.fst).Nodup
      rw [List.map_append, List.nodup_append]
      refine ⟨hw.distinct, List.nodup_singleton _, ?_⟩
      intro i hi j hj
      obtain ⟨p, hp, rfl⟩ := List.mem_map.mp hi
      rw [List.mem_singleton.mp hj]
      exact Nat.ne_of_lt (hpast p hp)
    · have hle := hw.within hb
      show _ ≤ (pb.code ++ [inst]).length
      rw [List.length_append]
      exact Nat.le_add_right_of_le hle
  kept _ := rfl
  targets hp := by
    rcases List.mem_append.mp hp with hp | hp
    · exact .inl hp
    · rw [List.mem_singleton.mp hp]
      exact .inr (.inl hl)

theorem bound_bind {pb : ProgramBuilder} {l : Label} (h : pb.Unbound l) :
    (pb.bind l).Bound l pb.code.length :=
  List.getElem?_set_self (List.getElem?_eq_some_iff.mp h).1

theorem grows_bind {n : Nat} {pb : ProgramBuilder} {l : Label} (h : pb.Unbound l) (hn : n ≤ l) :
    Grows n outs pb (pb.bind l) where
  toExtends := extends_bind h
  wf hw := by
    refine ⟨hw.patched, hw.jumps, hw.distinct, ?_⟩
    intro l' target hb
    by_cases he : l = l'
    · subst he
      rw [ProgramBuilder.Bound.unique hb (bound_bind h)]
      exact Nat.le_refl _
    · have hb' : (pb.labels.set l _)[l']? = some (some target) := hb
      rw [List.getElem?_set_ne he] at hb'
      exact hw.within hb'
  kept hl := List.getElem?_set_ne (Nat.ne_of_gt (Nat.lt_of_lt_of_le hl hn))
  targets := .inl

end Primitives

section Unbound

variable {pb pb' : ProgramBuilder} {l : Label}

theorem unbound_newLabel (pb : ProgramBuilder) : pb.newLabel.2.Unbound pb.labels.length :=
  List.getElem?_concat_length ..

theorem unbound_keep {n : Nat} {outs : List Label} (h : pb.Unbound l) (hg : Grows n outs pb pb')
    (hl : l < n) : pb'.Unbound l := (hg.kept hl).trans h

theorem unbound_bind {l' : Label} (h : pb.Unbound l) (hne : l' ≠ l) : (pb.bind l').Unbound l :=
  (List.getElem?_set_ne hne).trans h

end Unbound

/-! ### The built program -/

theorem getElem?_of_prefix {α : Type} {l l' : List α} (h : l <+: l') {i : Nat} {a : α}
    (ha : l[i]? = some a) : l'[i]? = some a := by
  obtain ⟨rest, rfl⟩ := h
  rw [List.getElem?_append_left (List.getElem?_eq_some_iff.mp ha).1]
  exact ha

/-- The program that is built in the end. -/
structure Built (F : ProgramBuilder) (P : Program) : Prop where
  wf : F.Wf
  build : F.build = some P

/-- The tables of the program begin with those of the builder. -/
structure Tables (pb : ProgramBuilder) (P : Program) : Prop where
  consts : pb.consts <+: P.consts
  memories : pb.memories <+: P.memories
  arglists : pb.arglists <+: P.arglists

namespace Built

variable {F pb : ProgramBuilder} {P : Program} (h : Built F P)
include h

theorem tables (hx : Extends pb F) : Tables pb P := by
  obtain ⟨-, hc, hm, ha, -⟩ := ProgramBuilder.build_eq_some.mp h.build
  exact ⟨hc ▸ hx.consts, hm ▸ hx.memories, ha ▸ hx.arglists⟩

/-- An emitted instruction stands where it was emitted. -/
theorem code_emit {inst : Inst} (hx : Extends (pb.emit inst) F) (hplain : inst.isPlain = true) :
    P.code[pb.code.length]? = some inst := by
  apply F.build_plain h.wf h.build ?_ hplain
  exact getElem?_of_prefix hx.code (List.getElem?_concat_length ..)

theorem code_emitTo {inst : Inst} {l : Label} {target : Nat} (hx : Extends (pb.emitTo inst l) F)
    (hl : F.Bound l target) : P.code[pb.code.length]? = inst.retarget target := by
  have hp : (pb.code.length, l) ∈ F.patches :=
    hx.patches (List.mem_append_right _ List.mem_cons_self)
  have hi : F.code[pb.code.length]? = some inst :=
    getElem?_of_prefix hx.code (List.getElem?_concat_length ..)
  obtain ⟨target', hl', hcode⟩ := F.build_jump h.wf h.build hi hp
  rwa [hl'.unique hl] at hcode

end Built

end Eevee.Ir.Emission
