/- Programs, their instructions, and the builder that patches jumps once labels are bound. -/

import Mathlib.Data.List.Basic
import Mathlib.Data.List.Nodup
import Mathlib.Tactic.Common
import Mathlib.Tactic.SplitIfs
import Eevee.Ir.Values

set_option autoImplicit false
set_option relaxedAutoImplicit false

namespace Eevee.Ir.Builder

open Eevee.Core.Logic
open Eevee.Ir.Inst
open Eevee.Ir.Values

abbrev Reg := Nat

abbrev Label := Nat

/-- Operands are registers, net and package variable numbers, indices into the tables of the
program, and code positions. -/
inductive Inst
  | loadConst (dst : Reg) (k : Nat)
  | mov (dst src : Reg)
  | assign (dst src : Reg)
  | netRead (dst : Reg) (net : Nat)
  | staticGet (dst : Reg) (id : Nat)
  | memoryRead (dst : Reg) (memory : Nat) (index : Reg)
  | isKnown (dst a : Reg)
  | logic (dst : Reg) (op : LogicInst Reg)
  | concat (dst : Reg) (args : Nat)
  | jump (target : Nat)
  | branchFalse (cond : Reg) (target : Nat)
  | branchTrue (cond : Reg) (target : Nat)
  | ret (value : Reg)
  | returnVoid
  | finish

namespace Inst

/-- The instruction with another jump target; none for an instruction without one. -/
def retarget (target : Nat) : Inst → Option Inst
  | .jump _ => some (.jump target)
  | .branchFalse cond _ => some (.branchFalse cond target)
  | .branchTrue cond _ => some (.branchTrue cond target)
  | _ => none

/-- An instruction without a jump target. -/
def isPlain : Inst → Bool
  | .jump _ | .branchFalse _ _ | .branchTrue _ _ => false
  | _ => true

theorem retarget_eq_none {target : Nat} {inst : Inst} (h : inst.isPlain = true) :
    inst.retarget target = none := by
  cases inst <;> first | rfl | cases h

theorem exists_retarget (target : Nat) {inst : Inst} (h : inst.isPlain = false) :
    ∃ inst', inst.retarget target = some inst' := by
  cases inst <;> first | exact ⟨_, rfl⟩ | cases h

end Inst

/-- An immutable program. -/
structure Program where
  code : List Inst
  consts : List PackedVec
  memories : List MemoryDef
  arglists : List (List Reg)
  nRegs : Nat

/-- A program under construction: an unbound label has no position, and a patch names the code
position of a jump and its label. -/
structure ProgramBuilder where
  code : List Inst
  consts : List PackedVec
  memories : List MemoryDef
  arglists : List (List Reg)
  nRegs : Nat
  labels : List (Option Nat)
  patches : List (Nat × Label)

namespace ProgramBuilder

def new : ProgramBuilder := ⟨[], [], [], [], 0, [], []⟩

def newReg (pb : ProgramBuilder) : Reg × ProgramBuilder :=
  (pb.nRegs, { pb with nRegs := pb.nRegs + 1 })

def konstLogic (pb : ProgramBuilder) (v : PackedVec) : Nat × ProgramBuilder :=
  (pb.consts.length, { pb with consts := pb.consts ++ [v] })

def memory (pb : ProgramBuilder) (def_ : MemoryDef) : Nat × ProgramBuilder :=
  (pb.memories.length, { pb with memories := pb.memories ++ [def_] })

def arglist (pb : ProgramBuilder) (regs : List Reg) : Nat × ProgramBuilder :=
  (pb.arglists.length, { pb with arglists := pb.arglists ++ [regs] })

def newLabel (pb : ProgramBuilder) : Label × ProgramBuilder :=
  (pb.labels.length, { pb with labels := pb.labels ++ [none] })

/-- Bind a label to the current code position. -/
def bind (pb : ProgramBuilder) (l : Label) : ProgramBuilder :=
  { pb with labels := pb.labels.set l (some pb.code.length) }

def emit (pb : ProgramBuilder) (inst : Inst) : ProgramBuilder :=
  { pb with code := pb.code ++ [inst] }

/-- A jump with the placeholder target zero, and its patch. -/
def emitTo (pb : ProgramBuilder) (inst : Inst) (l : Label) : ProgramBuilder :=
  { pb with patches := pb.patches ++ [(pb.code.length, l)], code := pb.code ++ [inst] }

def jump (pb : ProgramBuilder) (l : Label) : ProgramBuilder := pb.emitTo (.jump 0) l

def branchFalse (pb : ProgramBuilder) (cond : Reg) (l : Label) : ProgramBuilder :=
  pb.emitTo (.branchFalse cond 0) l

def branchTrue (pb : ProgramBuilder) (cond : Reg) (l : Label) : ProgramBuilder :=
  pb.emitTo (.branchTrue cond 0) l

/-- None where the label is unbound or the position holds no jump. -/
def patch (labels : List (Option Nat)) (code : List Inst) (p : Nat × Label) :
    Option (List Inst) := do
  let target ← labels[p.2]?.join
  let inst ← code[p.1]?
  let inst ← inst.retarget target
  return code.set p.1 inst

/-- Resolve the labels. -/
def build (pb : ProgramBuilder) : Option Program := do
  let code ← pb.patches.foldlM (patch pb.labels) pb.code
  return ⟨code, pb.consts, pb.memories, pb.arglists, pb.nRegs⟩

/-- The label is bound to the position. -/
def Bound (pb : ProgramBuilder) (l : Label) (target : Nat) : Prop :=
  pb.labels[l]? = some (some target)

def Unbound (pb : ProgramBuilder) (l : Label) : Prop := pb.labels[l]? = some none

theorem Bound.unique {pb : ProgramBuilder} {l : Label} {i j : Nat} (h : pb.Bound l i)
    (h' : pb.Bound l j) : i = j := Option.some.inj (Option.some.inj (h.symm.trans h'))

/-! ### Building -/

/-- The jumps are the instructions with a patch, each has one, and no label points past the code. -/
structure Wf (pb : ProgramBuilder) : Prop where
  patched : ∀ p ∈ pb.patches, ∃ inst, pb.code[p.1]? = some inst ∧ inst.isPlain = false
  jumps : ∀ {i inst}, pb.code[i]? = some inst → inst.isPlain = false → ∃ l, (i, l) ∈ pb.patches
  distinct : (pb.patches.map Prod.fst).Nodup
  within : ∀ {l target}, pb.Bound l target → target ≤ pb.code.length

theorem wf_new : new.Wf where
  patched _ hp := nomatch hp
  jumps h := nomatch h
  distinct := List.nodup_nil
  within h := nomatch h

theorem patch_eq_some {labels : List (Option Nat)} {code code' : List Inst} {p : Nat × Label} :
    patch labels code p = some code' ↔ ∃ target inst inst', labels[p.2]? = some (some target) ∧
      code[p.1]? = some inst ∧ inst.retarget target = some inst' ∧ code' = code.set p.1 inst' := by
  unfold patch
  cases hl : labels[p.2]? with
  | none => simp
  | some target =>
    cases target with
    | none => simp
    | some target =>
      cases hc : code[p.1]? with
      | none => simp
      | some inst =>
        cases hr : inst.retarget target with
        | none => simp [hr]
        | some inst' => simp [hr, eq_comm]

/-- Patching changes the patched positions only. -/
theorem patches_frame {labels : List (Option Nat)} {patches : List (Nat × Label)}
    {code code' : List Inst} (h : patches.foldlM (patch labels) code = some code') {i : Nat}
    (hi : i ∉ patches.map Prod.fst) : code'[i]? = code[i]? := by
  induction patches generalizing code with
  | nil =>
    cases h
    rfl
  | cons p patches ih =>
    rw [List.foldlM_cons] at h
    obtain ⟨code₁, hp, hrest⟩ := Option.bind_eq_some_iff.mp h
    obtain ⟨target, inst, inst', -, -, -, rfl⟩ := patch_eq_some.mp hp
    rw [List.map_cons, List.mem_cons, not_or] at hi
    rw [ih hrest hi.2, List.getElem?_set_ne (Ne.symm hi.1)]

/-- A patched position holds its jump with the position of the label. -/
theorem patches_target {labels : List (Option Nat)} {patches : List (Nat × Label)}
    {code code' : List Inst} (h : patches.foldlM (patch labels) code = some code')
    (hd : (patches.map Prod.fst).Nodup) {i : Nat} {l : Label} (hp : (i, l) ∈ patches) :
    ∃ target inst, labels[l]? = some (some target) ∧ code[i]? = some inst ∧
      code'[i]? = inst.retarget target := by
  induction patches generalizing code with
  | nil => cases hp
  | cons p patches ih =>
    rw [List.foldlM_cons] at h
    obtain ⟨code₁, hp₁, hrest⟩ := Option.bind_eq_some_iff.mp h
    obtain ⟨target, inst, inst', hl, hc, hr, rfl⟩ := patch_eq_some.mp hp₁
    rw [List.map_cons, List.nodup_cons] at hd
    rcases List.mem_cons.mp hp with rfl | hmem
    · refine ⟨target, inst, hl, hc, ?_⟩
      have hlt : i < code.length := (List.getElem?_eq_some_iff.mp hc).1
      rw [patches_frame hrest hd.1, List.getElem?_set_self hlt, hr]
    · obtain ⟨target', inst₁, hl', hc', hres⟩ := ih hrest hd.2 hmem
      have hne : p.1 ≠ i := fun he => hd.1 (he ▸ List.mem_map.mpr ⟨(i, l), hmem, rfl⟩)
      rw [List.getElem?_set_ne hne] at hc'
      exact ⟨target', inst₁, hl', hc', hres⟩

theorem patches_succeed {labels : List (Option Nat)} {patches : List (Nat × Label)}
    {code : List Inst} (hcode : ∀ p ∈ patches, ∃ inst, code[p.1]? = some inst ∧
      inst.isPlain = false) (hlabel : ∀ p ∈ patches, ∃ target, labels[p.2]? = some (some target)) :
    ∃ code', patches.foldlM (patch labels) code = some code' := by
  induction patches generalizing code with
  | nil => exact ⟨code, rfl⟩
  | cons p patches ih =>
    obtain ⟨inst, hc, hplain⟩ := hcode p List.mem_cons_self
    obtain ⟨target, hl⟩ := hlabel p List.mem_cons_self
    obtain ⟨inst', hr⟩ := Inst.exists_retarget target hplain
    have hp : patch labels code p = some (code.set p.1 inst') :=
      patch_eq_some.mpr ⟨target, inst, inst', hl, hc, hr, rfl⟩
    have hkept : ∀ q ∈ patches, ∃ i, (code.set p.1 inst')[q.1]? = some i ∧ i.isPlain = false := by
      intro q hq
      by_cases he : p.1 = q.1
      · have hlt : p.1 < code.length := (List.getElem?_eq_some_iff.mp hc).1
        refine ⟨inst', by rw [← he, List.getElem?_set_self hlt], ?_⟩
        cases inst <;> cases hr <;> rfl
      · rw [List.getElem?_set_ne he]
        exact hcode q (List.mem_cons_of_mem _ hq)
    obtain ⟨code', hrest⟩ := ih hkept fun q hq => hlabel q (List.mem_cons_of_mem _ hq)
    exact ⟨code', by rw [List.foldlM_cons, hp]; exact hrest⟩

theorem build_eq_some {pb : ProgramBuilder} {P : Program} : pb.build = some P ↔
    pb.patches.foldlM (patch pb.labels) pb.code = some P.code ∧ P.consts = pb.consts ∧
      P.memories = pb.memories ∧ P.arglists = pb.arglists ∧ P.nRegs = pb.nRegs := by
  unfold build
  rw [Option.bind_eq_bind, Option.bind_eq_some_iff]
  constructor
  · rintro ⟨code, h, hP⟩
    cases hP
    exact ⟨h, rfl, rfl, rfl, rfl⟩
  · rintro ⟨h, hc, hm, ha, hn⟩
    rw [← hc, ← hm, ← ha, ← hn]
    exact ⟨P.code, h, rfl⟩

theorem length_patches {labels : List (Option Nat)} {patches : List (Nat × Label)}
    {code code' : List Inst} (h : patches.foldlM (patch labels) code = some code') :
    code'.length = code.length := by
  induction patches generalizing code with
  | nil =>
    cases h
    rfl
  | cons p patches ih =>
    rw [List.foldlM_cons] at h
    obtain ⟨code₁, hp, hrest⟩ := Option.bind_eq_some_iff.mp h
    obtain ⟨target, inst, inst', -, -, -, rfl⟩ := patch_eq_some.mp hp
    rw [ih hrest, List.length_set]

theorem length_build {pb : ProgramBuilder} {P : Program} (h : pb.build = some P) :
    P.code.length = pb.code.length := by
  rw [build_eq_some] at h
  exact length_patches h.1

/-- An instruction without a target is built as it was emitted. -/
theorem build_plain {pb : ProgramBuilder} {P : Program} (hw : pb.Wf) (h : pb.build = some P)
    {i : Nat} {inst : Inst} (hi : pb.code[i]? = some inst) (hplain : inst.isPlain = true) :
    P.code[i]? = some inst := by
  rw [build_eq_some] at h
  rw [← hi]
  apply patches_frame h.1
  intro hmem
  obtain ⟨p, hp, rfl⟩ := List.mem_map.mp hmem
  obtain ⟨inst', hi', hjump⟩ := hw.patched p hp
  cases hi.symm.trans hi'
  exact Bool.noConfusion (hplain.symm.trans hjump)

/-- A jump is built with the position of its label. -/
theorem build_jump {pb : ProgramBuilder} {P : Program} (hw : pb.Wf) (h : pb.build = some P)
    {i : Nat} {inst : Inst} {l : Label} (hi : pb.code[i]? = some inst) (hp : (i, l) ∈ pb.patches) :
    ∃ target, pb.Bound l target ∧ P.code[i]? = inst.retarget target := by
  rw [build_eq_some] at h
  obtain ⟨target, inst', hl, hc, hres⟩ := patches_target h.1 hw.distinct hp
  cases hi.symm.trans hc
  exact ⟨target, hl, hres⟩

theorem build_succeeds {pb : ProgramBuilder} (hw : pb.Wf)
    (h : ∀ p ∈ pb.patches, ∃ target, pb.Bound p.2 target) : ∃ P, pb.build = some P := by
  obtain ⟨code, hcode⟩ := patches_succeed hw.patched h
  refine ⟨⟨code, pb.consts, pb.memories, pb.arglists, pb.nRegs⟩, ?_⟩
  rw [build_eq_some]
  exact ⟨hcode, rfl, rfl, rfl, rfl⟩

end ProgramBuilder

end Eevee.Ir.Builder
