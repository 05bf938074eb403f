/- The code of an expression computes its value. -/

import Mathlib.Data.List.Basic
import Mathlib.Tactic.Common
import Eevee.Elab.Evaluation
import Eevee.Ir.Interp

set_option autoImplicit false
set_option relaxedAutoImplicit false

namespace Eevee.Elab.ExprCode

open Eevee.Ast.Syntax
open Eevee.Core.Logic
open Eevee.Ir.Inst
open Eevee.Ir.Values
open Eevee.Ir.Builder
open Eevee.Ir.Emission
open Eevee.Ir.Interp
open Eevee.Lib.Machine
open Eevee.Elab.Generator
open Eevee.Elab.Evaluation

/-- A place that the code generator knows, and what it means that it holds a value. -/
class Place (α : Type) (β : outParam Type) where
  below : α → Nat → Prop
  holds : α → List Value → β → Prop
  below_mono : ∀ {a n m}, below a n → n ≤ m → below a m
  holds_same : ∀ {a n regs regs' v}, below a n → SameBelow n regs regs' → holds a regs v →
    holds a regs' v

instance : Place Reg Value where
  below r n := r < n
  holds r regs v := regs[r]? = some v
  below_mono h hle := Nat.lt_of_lt_of_le h hle
  holds_same h hs hv := (hs.get _ h).trans hv

instance : Place (List Reg) (List Value) where
  below rs n := ∀ r ∈ rs, r < n
  holds rs regs vs := rs.mapM (regs[·]?) = some vs
  below_mono h hle r hr := Nat.lt_of_lt_of_le (h r hr) hle
  holds_same {rs n regs regs' vs} h hs hv := by
    rw [← hv]
    clear hv
    induction rs with
    | nil => rfl
    | cons r rs ih =>
      rw [List.mapM_cons, List.mapM_cons, hs.get r (h r List.mem_cons_self),
        ih fun r hr => h r (List.mem_cons_of_mem _ hr)]

/-- The local variables have registers below `n`. -/
def Within (cg : CodeGen) (n : Nat) : Prop :=
  ∀ {name reg width}, cg.locals name = some (reg, width) → reg < n

/-- The registers of the local variables hold their values. -/
def Agrees (cg : CodeGen) (σ : Store) (regs : List Value) : Prop :=
  ∀ {name reg width}, cg.locals name = some (reg, width) → regs[reg]? = some (σ name)

theorem Within.mono {cg : CodeGen} {n m : Nat} (h : Within cg n) (hle : n ≤ m) : Within cg m :=
  fun hl => Nat.lt_of_lt_of_le (h hl) hle

theorem Agrees.same {cg : CodeGen} {σ : Store} {n : Nat} {regs regs' : List Value}
    (h : Agrees cg σ regs) (hw : Within cg n) (hs : SameBelow n regs regs') : Agrees cg σ regs' :=
  fun hl => (hs.get _ (hw hl)).trans (h hl)

/-- What holds of the registers depends on those below `n` only. -/
def Stable (n : Nat) (pre : List Value → Prop) : Prop :=
  ∀ {regs regs'}, SameBelow n regs regs' → pre regs → pre regs'

/-- Two local variables never share a register. -/
def Distinct (cg : CodeGen) : Prop :=
  ∀ {name name' reg width width'}, cg.locals name = some (reg, width) →
    cg.locals name' = some (reg, width') → name = name'

theorem Agrees.assign {cg : CodeGen} {σ : Store} {regs : List Value} {name : String} {reg : Reg}
    {width : Nat} (h : Agrees cg σ regs) (hd : Distinct cg)
    (hl : cg.locals name = some (reg, width))
    (v : Value) : Agrees cg (Function.update σ name v) (regs.set reg v) := by
  intro name' reg' width' hl'
  by_cases hn : name' = name
  · subst hn
    cases hl.symm.trans hl'
    have hlt : reg < regs.length := (List.getElem?_eq_some_iff.mp (h hl)).1
    rw [Function.update_self, List.getElem?_set_self hlt]
  · have hr : reg ≠ reg' := by
      rintro rfl
      exact hn (hd hl' hl)
    rw [Function.update_of_ne hn, List.getElem?_set_ne hr]
    exact h hl'

variable {α α' β β' : Type} [Place α β] [Place α' β']

/-- From registers with `pre`, the code that `m` adds to `pb` computes the value. -/
structure Generates (cg : CodeGen) (pb : ProgramBuilder) (pre : List Value → Prop) (m : Emit α)
    (value : World → Store → Option β) : Prop where
  grows : ∀ {a pb'}, m pb = some (a, pb') → Within cg pb.nRegs →
    Grows pb.labels.length [] pb pb' ∧ Place.below a pb'.nRegs
  delivers : ∀ {a pb' F P}, m pb = some (a, pb') → Within cg pb.nRegs → Extends pb' F →
    Built F P → ∀ {W σ regs}, Agrees cg σ regs → pre regs → pb'.nRegs ≤ regs.length →
      Delivers P W ⟨pb.code.length, regs⟩ pb'.code.length pb.nRegs (Place.holds a) (value W σ)

namespace Generates

variable {cg : CodeGen} {pb : ProgramBuilder} {pre : List Value → Prop} {m : Emit α}
  {value : World → Store → Option β}

theorem weaken {pre' : List Value → Prop} (h : Generates cg pb pre m value)
    (hpre : ∀ {regs}, pre' regs → pre regs) : Generates cg pb pre' m value where
  grows := h.grows
  delivers hm hw hx hb _ _ _ ha hp hlen := h.delivers hm hw hx hb ha (hpre hp) hlen

/-- The places that hold values stay so while the next value is computed. -/
theorem bind [Inhabited β] {k : α → Emit α'} {next : β → World → Store → Option β'}
    (h : Generates cg pb pre m value) (hpre : Stable pb.nRegs pre)
    (hk : ∀ a v pb₁, Place.below a pb₁.nRegs → Extends pb pb₁ →
      Stable pb₁.nRegs (fun regs => pre regs ∧ Place.holds a regs v) →
      Generates cg pb₁ (fun regs => pre regs ∧ Place.holds a regs v) (k a) (next v)) :
    Generates cg pb pre (m >>= k) (fun W σ => (value W σ).bind (next · W σ)) where
  grows hm hw := by
    obtain ⟨a, pb₁, hm₁, hk₁⟩ := bind_eq_some.mp hm
    obtain ⟨hg, hbelow⟩ := h.grows hm₁ hw
    have hstable : Stable pb₁.nRegs (fun regs => pre regs ∧ Place.holds a regs default) :=
      fun hs hp => ⟨hpre (hs.mono hg.nRegs) hp.1, Place.holds_same hbelow hs hp.2⟩
    obtain ⟨hg', hbelow'⟩ :=
      (hk a default pb₁ hbelow hg.toExtends hstable).grows hk₁ (hw.mono hg.nRegs)
    exact ⟨hg.trans (hg'.mono hg.labels fun _ hl => hl), hbelow'⟩
  delivers {a' pb' F P} hm hw hx hb W σ regs ha hp hlen := by
    obtain ⟨a, pb₁, hm₁, hk₁⟩ := bind_eq_some.mp hm
    obtain ⟨hg, hbelow⟩ := h.grows hm₁ hw
    have hstable : ∀ v, Stable pb₁.nRegs (fun regs => pre regs ∧ Place.holds a regs v) :=
      fun v _ _ hs hp => ⟨hpre (hs.mono hg.nRegs) hp.1, Place.holds_same hbelow hs hp.2⟩
    have hnext := fun v => hk a v pb₁ hbelow hg.toExtends (hstable v)
    have hg' := ((hnext default).grows hk₁ (hw.mono hg.nRegs)).1
    have hfirst := h.delivers hm₁ hw (hg'.toExtends.trans hx) hb (W := W) ha hp
      (Nat.le_trans hg'.nRegs hlen)
    apply hfirst.bind (Nat.le_refl _)
    intro v regs₁ hv hs
    have hlen₁ : pb'.nRegs ≤ regs₁.length := hs.length ▸ hlen
    exact ((hnext v).delivers hk₁ (hw.mono hg.nRegs) hx hb (ha.same hw hs) ⟨hpre hs hp, hv⟩
      hlen₁).mono hg.nRegs

/-- One instruction that reads places with known values. -/
theorem instruction {inst : Reg → Inst} {value : World → Store → Option Value}
    (hplain : ∀ dst, (inst dst).isPlain = true)
    (hc : ∀ {P}, Tables pb P → ∀ {regs}, pre regs → ∀ W σ dst,
      computed P W regs (inst dst) = some (dst, value W σ)) :
    Generates cg pb pre (emitNew inst) value where
  grows hm _ := by
    rw [emitNew_run] at hm
    cases hm
    exact ⟨(grows_newReg _ _ pb).trans (grows_emit _ _ _ (hplain _)), Nat.lt_succ_self _⟩
  delivers hm _ hx hb W σ regs _ hp hlen := by
    rw [emitNew_run] at hm
    cases hm
    have hi := hb.code_emit hx (hplain _)
    have hlen' : pb.nRegs < regs.length := hlen
    have htables : Tables pb _ :=
      hb.tables (((extends_newReg pb).trans (extends_emit _ _)).trans hx)
    have h := Delivers.computed (f := ⟨pb.code.length, regs⟩) (n := pb.nRegs) hi
      (hc htables hp W σ _) (Nat.le_refl _) hlen'
    have hcode : (pb.newReg.2.emit (inst pb.nRegs)).code.length = pb.code.length + 1 :=
      List.length_append
    rw [hcode]
    exact h

end Generates

section Leaves

variable {cg : CodeGen} {pb : ProgramBuilder} {pre : List Value → Prop}

theorem genConst_run (v : PackedVec) : CodeGen.genConst v pb =
    some (pb.nRegs, (pb.newReg.2.konstLogic v).2.emit (.loadConst pb.nRegs pb.consts.length)) := rfl

theorem generates_const (v : PackedVec) :
    Generates cg pb pre (CodeGen.genConst v) fun _ _ => some (.logic v) where
  grows hm _ := by
    rw [genConst_run] at hm
    cases hm
    exact ⟨((grows_newReg _ _ pb).trans (grows_konstLogic _ _ _ v)).trans (grows_emit _ _ _ rfl),
      Nat.lt_succ_self _⟩
  delivers {r pb' F P} hm _ hx hb W σ regs _ _ hlen := by
    rw [genConst_run] at hm
    cases hm
    have hi := hb.code_emit hx rfl
    have hk := (hb.tables ((extends_emit _ _).trans hx)).consts
    have hlen' : pb.nRegs < regs.length := hlen
    have hget : P.consts[pb.consts.length]? = some v :=
      getElem?_of_prefix hk (List.getElem?_concat_length ..)
    have hc : computed P W regs (.loadConst pb.nRegs pb.consts.length) =
        some (pb.nRegs, some (.logic v)) := by
      show some (pb.nRegs, Option.map _ _) = _
      rw [hget]
      rfl
    have h := Delivers.computed (f := ⟨pb.code.length, regs⟩) (n := pb.nRegs) hi hc
      (Nat.le_refl _) hlen'
    have hcode : ((pb.newReg.2.konstLogic v).2.emit
        (.loadConst pb.nRegs pb.consts.length)).code.length = pb.code.length + 1 :=
      List.length_append
    rw [hcode]
    exact h

/-- Places that hold their values already. -/
theorem generates_pure {α β : Type} [Place α β] {a : α} {value : World → Store → Option β}
    (ha : Within cg pb.nRegs → Place.below a pb.nRegs)
    (hv : ∀ {W σ regs}, Agrees cg σ regs → pre regs →
      ∃ v, value W σ = some v ∧ Place.holds a regs v) :
    Generates cg pb pre (pure a : Emit α) value where
  grows hm hw := by
    cases hm
    exact ⟨Grows.refl _ _ _, ha hw⟩
  delivers hm _ _ _ W σ regs hagree hp _ := by
    cases hm
    obtain ⟨v, hv, hholds⟩ := hv (W := W) hagree hp
    rw [hv]
    exact ⟨0, regs, .refl _, hholds, .refl _ _⟩

theorem generates_failure {α β : Type} [Place α β] {value : World → Store → Option β} :
    Generates cg pb pre (failure : Emit α) value where
  grows hm _ := nomatch hm
  delivers hm _ := nomatch hm

/-- Interning a memory adds no code. -/
theorem generates_memory {α β : Type} [Place α β] {def_ : MemoryDef} {k : Nat → Emit α}
    {value : World → Store → Option β}
    (h : Generates cg (pb.memory def_).2 pre (k pb.memories.length) value) :
    Generates cg pb pre (memory def_ >>= k) value where
  grows hm hw := by
    rw [memory_bind] at hm
    obtain ⟨hg, hbelow⟩ := h.grows hm hw
    exact ⟨(grows_memory _ _ pb def_).trans hg, hbelow⟩
  delivers hm hw hx hb _ _ _ ha hp hlen := h.delivers hm hw hx hb ha hp hlen

theorem generates_arglist {α β : Type} [Place α β] {rs : List Reg} {k : Nat → Emit α}
    {value : World → Store → Option β}
    (h : Generates cg (pb.arglist rs).2 pre (k pb.arglists.length) value) :
    Generates cg pb pre (arglist rs >>= k) value where
  grows hm hw := by
    rw [arglist_bind] at hm
    obtain ⟨hg, hbelow⟩ := h.grows hm hw
    exact ⟨(grows_arglist _ _ pb rs).trans hg, hbelow⟩
  delivers hm hw hx hb _ _ _ ha hp hlen := h.delivers hm hw hx hb ha hp hlen

end Leaves

/-! ### Conditionals -/

/-- The builder after the two branches on a condition in register `c`. -/
def split (pb : ProgramBuilder) (c : Reg) : ProgramBuilder :=
  let pb₁ := pb.newLabel.2.newLabel.2.newLabel.2.newReg.2.branchTrue c pb.labels.length
  (pb₁.newReg.2.emit (.isKnown pb₁.nRegs c)).branchTrue pb₁.nRegs (pb.labels.length + 1)

/-- The builder after a branch has ended with `inst` and the next one begins at label `l`. -/
def endArm (pb : ProgramBuilder) (inst : Inst) (done l : Label) : ProgramBuilder :=
  ((pb.emit inst).jump done).bind l

/-- The stages of the code of a conditional: the condition in `rc`, both branches for a merge, the
true branch, the false branch. -/
structure ConditionalCode (c t f : Emit Reg) (pb : ProgramBuilder) (dst : Reg)
    (pb' : ProgramBuilder) where
  (rc rt rf rt' rf' : Reg)
  (pb₁ pb₂ pb₃ pb₄ pb₅ : ProgramBuilder)
  condition : c pb = some (rc, pb₁)
  dst_eq : dst = pb₁.nRegs
  mergeTrue : t (split pb₁ rc) = some (rt, pb₂)
  mergeFalse : f pb₂ = some (rf, pb₃)
  whenTrue : t (endArm pb₃ (.logic dst (.select rc rt rf)) (pb₁.labels.length + 2)
    pb₁.labels.length) = some (rt', pb₄)
  whenFalse : f (endArm pb₄ (.mov dst rt') (pb₁.labels.length + 2) (pb₁.labels.length + 1)) =
    some (rf', pb₅)
  last : pb' = (pb₅.emit (.mov dst rf')).bind (pb₁.labels.length + 2)

theorem conditionalCode {c t f : Emit Reg} {pb pb' : ProgramBuilder} {dst : Reg}
    (h : CodeGen.genConditionalOf c t f pb = some (dst, pb')) :
    Nonempty (ConditionalCode c t f pb dst pb') := by
  obtain ⟨rc, pb₁, hc, h⟩ := bind_eq_some.mp h
  have hone : pb₁.newLabel.2.labels.length = pb₁.labels.length + 1 := List.length_append
  have htwo : pb₁.newLabel.2.newLabel.2.labels.length = pb₁.labels.length + 2 := by
    show (pb₁.newLabel.2.labels ++ [none]).length = _
    rw [List.length_append, hone]
    rfl
  simp only [newLabel_bind, newReg_bind, branchTrue_bind, hone, htwo] at h
  rw [bind_run (emitNew_run _), branchTrue_bind] at h
  obtain ⟨rt, pb₂, ht, h⟩ := bind_eq_some.mp h
  obtain ⟨rf, pb₃, hf, h⟩ := bind_eq_some.mp h
  simp only [emit_bind, jump_bind, bindLabel_bind] at h
  obtain ⟨rt', pb₄, ht', h⟩ := bind_eq_some.mp h
  simp only [emit_bind, jump_bind, bindLabel_bind] at h
  obtain ⟨rf', pb₅, hf', h⟩ := bind_eq_some.mp h
  simp only [emit_bind, bindLabel_bind] at h
  obtain ⟨hdst, hpb⟩ := pure_eq_some.mp h
  have hdst' : dst = pb₁.nRegs := hdst.symm
  subst hdst'
  exact ⟨rc, rt, rf, rt', rf', pb₁, pb₂, pb₃, pb₄, pb₅, hc, rfl, ht, hf, ht', hf', hpb.symm⟩

/-- The labels of a conditional are its own. -/
theorem labels_split (pb : ProgramBuilder) (c : Reg) :
    (split pb c).labels = pb.labels ++ [none] ++ [none] ++ [none] := rfl

theorem grows_split {n : Nat} {pb : ProgramBuilder} (hn : n ≤ pb.labels.length) (c : Reg) :
    Grows n [pb.labels.length, pb.labels.length + 1, pb.labels.length + 2] pb (split pb c) := by
  have h₁ : n ≤ pb.newLabel.2.labels.length := Nat.le_trans hn (extends_newLabel pb).labels
  have h₂ : n ≤ pb.newLabel.2.newLabel.2.labels.length :=
    Nat.le_trans h₁ (extends_newLabel _).labels
  refine (grows_newLabel _ hn).trans <| (grows_newLabel _ h₁).trans <|
    (grows_newLabel _ h₂).trans <| (grows_newReg _ _ _).trans <|
    (grows_emitTo _ _ rfl List.mem_cons_self).trans <| (grows_newReg _ _ _).trans <|
    (grows_emit _ _ _ rfl).trans <| grows_emitTo _ _ rfl ?_
  exact List.mem_cons_of_mem _ List.mem_cons_self

theorem grows_endArm {n : Nat} {outs : List Label} {pb : ProgramBuilder} {inst : Inst}
    {done l : Label} (hplain : inst.isPlain = true) (hdone : done ∈ outs) (hl : pb.Unbound l)
    (hn : n ≤ l) : Grows n outs pb (endArm pb inst done l) :=
  ((grows_emit _ _ _ hplain).trans (grows_emitTo _ _ rfl hdone)).trans (grows_bind _ hl hn)

theorem bound_endArm {pb : ProgramBuilder} {inst : Inst} {done l : Label} (hl : pb.Unbound l) :
    (endArm pb inst done l).Bound l (endArm pb inst done l).code.length :=
  bound_bind hl

theorem extends_endArm {pb : ProgramBuilder} {inst : Inst} {done l : Label} (hl : pb.Unbound l) :
    Extends ((pb.emit inst).jump done) (endArm pb inst done l) := extends_bind hl

theorem unbound_endArm {pb : ProgramBuilder} {inst : Inst} {done l l' : Label} (hl : pb.Unbound l')
    (hne : l ≠ l') : (endArm pb inst done l).Unbound l' := unbound_bind hl hne

/-- What the parts of a conditional compute. -/
structure Parts (cg : CodeGen) (c t f : Emit Reg)
    (valueC valueT valueF : World → Store → Option Value) :
    Prop where
  condition : ∀ pb, Generates cg pb (fun _ => True) c valueC
  whenTrue : ∀ pb, Generates cg pb (fun _ => True) t valueT
  whenFalse : ∀ pb, Generates cg pb (fun _ => True) f valueF

namespace ConditionalCode

variable {cg : CodeGen} {c t f : Emit Reg} {valueC valueT valueF : World → Store → Option Value}
  {pb pb' : ProgramBuilder} {dst : Reg} (k : ConditionalCode c t f pb dst pb')

/-- The builder where the true branch begins. -/
def atTrue : ProgramBuilder :=
  endArm k.pb₃ (.logic dst (.select k.rc k.rt k.rf)) (k.pb₁.labels.length + 2) k.pb₁.labels.length

/-- The builder where the false branch begins. -/
def atFalse : ProgramBuilder :=
  endArm k.pb₄ (.mov dst k.rt') (k.pb₁.labels.length + 2) (k.pb₁.labels.length + 1)

/-- The labels of the branches and of the end. -/
def outs : List Label :=
  [k.pb₁.labels.length, k.pb₁.labels.length + 1, k.pb₁.labels.length + 2]

variable (H : Parts cg c t f valueC valueT valueF) (hw : Within cg pb.nRegs)
include H hw

theorem grows_condition : Grows pb.labels.length [] pb k.pb₁ ∧ k.rc < k.pb₁.nRegs :=
  (H.condition pb).grows k.condition hw

theorem grows_toSplit : Grows pb.labels.length k.outs pb (split k.pb₁ k.rc) := by
  obtain ⟨h, -⟩ := k.grows_condition H hw
  exact (h.mono (Nat.le_refl _) (by simp)).trans (grows_split h.labels k.rc)

theorem grows_mergeTrue :
    Grows (k.pb₁.labels.length + 3) [] (split k.pb₁ k.rc) k.pb₂ ∧ k.rt < k.pb₂.nRegs := by
  have h := (H.whenTrue _).grows k.mergeTrue (hw.mono (k.grows_toSplit H hw).nRegs)
  have hl : (split k.pb₁ k.rc).labels.length = k.pb₁.labels.length + 3 := by
    rw [labels_split]
    simp
  rwa [hl] at h

theorem grows_toMerge : Grows pb.labels.length k.outs pb k.pb₂ := by
  have h := k.grows_toSplit H hw
  have h' := (k.grows_mergeTrue H hw).1
  refine h.trans (h'.mono ?_ (by simp))
  exact Nat.le_trans (k.grows_condition H hw).1.labels (Nat.le_add_right _ _)

theorem grows_mergeFalse :
    Grows (k.pb₁.labels.length + 3) [] k.pb₂ k.pb₃ ∧ k.rf < k.pb₃.nRegs := by
  obtain ⟨h, hr⟩ := (H.whenFalse _).grows k.mergeFalse (hw.mono (k.grows_toMerge H hw).nRegs)
  have hl := (k.grows_mergeTrue H hw).1.labels
  rw [labels_split] at hl
  exact ⟨h.mono (by simpa using hl) (by simp), hr⟩

theorem unbound_merged {l : Nat} (hlo : k.pb₁.labels.length ≤ l)
    (hhi : l < k.pb₁.labels.length + 3) : k.pb₃.Unbound l := by
  have hl : (split k.pb₁ k.rc).Unbound l := by
    show (k.pb₁.labels ++ [none] ++ [none] ++ [none])[l]? = some none
    rw [List.append_assoc, List.append_assoc, List.getElem?_append_right hlo]
    have h3 : l - k.pb₁.labels.length < 3 := by omega
    rcases Nat.lt_or_ge (l - k.pb₁.labels.length) 1 with h | h
    · rw [Nat.lt_one_iff.mp h]
      rfl
    · rcases Nat.lt_or_ge (l - k.pb₁.labels.length) 2 with h' | h'
      · rw [Nat.le_antisymm (Nat.le_of_lt_succ h') h]
        rfl
      · rw [Nat.le_antisymm (Nat.le_of_lt_succ h3) h']
        rfl
  exact unbound_keep (unbound_keep hl (k.grows_mergeTrue H hw).1 hhi)
    (k.grows_mergeFalse H hw).1 hhi

theorem grows_toTrue : Grows pb.labels.length k.outs pb k.atTrue := by
  have hle := (k.grows_condition H hw).1.labels
  have h := (k.grows_toMerge H hw).trans
    ((k.grows_mergeFalse H hw).1.mono (Nat.le_trans hle (Nat.le_add_right _ _)) (by simp))
  refine h.trans (grows_endArm rfl (by simp [outs]) ?_ hle)
  exact k.unbound_merged H hw (Nat.le_refl _) (by omega)

theorem unbound_second : k.atTrue.Unbound (k.pb₁.labels.length + 1) := by
  have h : k.pb₃.Unbound (k.pb₁.labels.length + 1) :=
    k.unbound_merged H hw (Nat.le_add_right _ _)
      (Nat.add_lt_add_left (Nat.lt_succ_of_lt Nat.one_lt_two) _)
  exact unbound_endArm h (Nat.ne_of_lt (Nat.lt_succ_self _))

theorem unbound_third : k.atTrue.Unbound (k.pb₁.labels.length + 2) := by
  have h : k.pb₃.Unbound (k.pb₁.labels.length + 2) :=
    k.unbound_merged H hw (Nat.le_add_right _ _) (Nat.lt_succ_self _)
  exact unbound_endArm h (Nat.ne_of_lt (Nat.lt_add_of_pos_right Nat.two_pos))

theorem grows_whenTrue :
    Grows (k.pb₁.labels.length + 3) [] k.atTrue k.pb₄ ∧ k.rt' < k.pb₄.nRegs := by
  obtain ⟨h, hr⟩ := (H.whenTrue _).grows k.whenTrue (hw.mono (k.grows_toTrue H hw).nRegs)
  have hlt : k.pb₁.labels.length + 2 < k.atTrue.labels.length :=
    (List.getElem?_eq_some_iff.mp (k.unbound_third H hw)).1
  exact ⟨h.mono hlt (by simp), hr⟩

theorem unbound_afterTrue : k.pb₄.Unbound (k.pb₁.labels.length + 1) :=
  unbound_keep (k.unbound_second H hw) (k.grows_whenTrue H hw).1
    (Nat.add_lt_add_left (Nat.lt_succ_of_lt Nat.one_lt_two) _)

theorem grows_endTrue : Grows pb.labels.length k.outs k.pb₄ k.atFalse := by
  have hle := (k.grows_condition H hw).1.labels
  exact grows_endArm rfl (by simp [outs]) (k.unbound_afterTrue H hw)
    (Nat.le_trans hle (Nat.le_add_right _ _))

theorem grows_toFalse : Grows pb.labels.length k.outs pb k.atFalse := by
  have hle := (k.grows_condition H hw).1.labels
  have h : Grows pb.labels.length k.outs k.atTrue k.pb₄ :=
    (k.grows_whenTrue H hw).1.mono (Nat.le_trans hle (Nat.le_add_right _ _)) (by simp)
  exact (k.grows_toTrue H hw).trans (h.trans (k.grows_endTrue H hw))

theorem unbound_atFalse : k.atFalse.Unbound (k.pb₁.labels.length + 2) := by
  have hu : k.pb₄.Unbound (k.pb₁.labels.length + 2) :=
    unbound_keep (k.unbound_third H hw) (k.grows_whenTrue H hw).1 (Nat.lt_succ_self _)
  exact unbound_endArm hu (Nat.ne_of_lt (Nat.lt_succ_self _))

theorem grows_whenFalse :
    Grows (k.pb₁.labels.length + 3) [] k.atFalse k.pb₅ ∧ k.rf' < k.pb₅.nRegs := by
  obtain ⟨h, hr⟩ := (H.whenFalse _).grows k.whenFalse (hw.mono (k.grows_toFalse H hw).nRegs)
  have hlt : k.pb₁.labels.length + 2 < k.atFalse.labels.length :=
    (List.getElem?_eq_some_iff.mp (k.unbound_atFalse H hw)).1
  exact ⟨h.mono hlt (by simp), hr⟩

theorem unbound_last : (k.pb₅.emit (.mov dst k.rf')).Unbound (k.pb₁.labels.length + 2) :=
  have h : k.pb₅.Unbound (k.pb₁.labels.length + 2) :=
    unbound_keep (k.unbound_atFalse H hw) (k.grows_whenFalse H hw).1 (Nat.lt_succ_self _)
  h

theorem grows_endFalse : Grows pb.labels.length k.outs k.pb₅ pb' := by
  have hle := (k.grows_condition H hw).1.labels
  have hbind := grows_bind (n := pb.labels.length) k.outs (k.unbound_last H hw)
    (Nat.le_trans hle (Nat.le_add_right _ _))
  have hlast := k.last
  rw [← hlast] at hbind
  exact (grows_emit _ _ _ rfl).trans hbind

theorem grows_fromFalse : Grows pb.labels.length k.outs k.atFalse pb' := by
  have hle := (k.grows_condition H hw).1.labels
  have h : Grows pb.labels.length k.outs k.atFalse k.pb₅ :=
    (k.grows_whenFalse H hw).1.mono (Nat.le_trans hle (Nat.le_add_right _ _)) (by simp)
  exact h.trans (k.grows_endFalse H hw)

theorem grows_fromTrue : Grows pb.labels.length k.outs k.atTrue pb' := by
  have hle := (k.grows_condition H hw).1.labels
  have h : Grows pb.labels.length k.outs k.atTrue k.pb₄ :=
    (k.grows_whenTrue H hw).1.mono (Nat.le_trans hle (Nat.le_add_right _ _)) (by simp)
  exact h.trans ((k.grows_endTrue H hw).trans (k.grows_fromFalse H hw))

theorem bound_true : pb'.Bound k.pb₁.labels.length k.atTrue.code.length :=
  (k.grows_fromTrue H hw).bound
    (bound_endArm (k.unbound_merged H hw (Nat.le_refl _) (Nat.lt_add_of_pos_right (by simp))))

theorem bound_false : pb'.Bound (k.pb₁.labels.length + 1) k.atFalse.code.length := by
  apply (k.grows_fromFalse H hw).bound
  exact bound_endArm (k.unbound_afterTrue H hw)

theorem bound_done : pb'.Bound (k.pb₁.labels.length + 2) pb'.code.length := by
  have h := bound_bind (k.unbound_last H hw)
  rw [← k.last] at h
  have hcode : pb'.code = (k.pb₅.emit (.mov dst k.rf')).code :=
    (congrArg ProgramBuilder.code k.last).trans rfl
  rw [hcode]
  exact h

include k in
theorem grows : Grows pb.labels.length [] pb pb' := by
  have h : Grows pb.labels.length (k.outs ++ []) pb pb' := by
    rw [List.append_nil]
    exact (k.grows_toTrue H hw).trans (k.grows_fromTrue H hw)
  refine h.close ?_
  intro l hl
  simp only [outs, List.mem_cons, List.not_mem_nil, or_false] at hl
  rcases hl with rfl | rfl | rfl
  · exact ⟨_, k.bound_true H hw⟩
  · exact ⟨_, k.bound_false H hw⟩
  · exact ⟨_, k.bound_done H hw⟩

theorem extends_merge : Extends ((k.pb₃.emit (.logic dst (.select k.rc k.rt k.rf))).jump
    (k.pb₁.labels.length + 2)) pb' :=
  (extends_endArm (k.unbound_merged H hw (Nat.le_refl _) (Nat.lt_add_of_pos_right (by simp)))).trans
    (k.grows_fromTrue H hw).toExtends

theorem extends_true : Extends ((k.pb₄.emit (.mov dst k.rt')).jump (k.pb₁.labels.length + 2)) pb' :=
  (extends_endArm (k.unbound_afterTrue H hw)).trans (k.grows_fromFalse H hw).toExtends

theorem extends_false : Extends (k.pb₅.emit (.mov dst k.rf')) pb' := by
  have h := extends_bind (k.unbound_last H hw)
  rwa [← k.last] at h

omit H hw in
theorem dst_split : dst < (split k.pb₁ k.rc).nRegs :=
  Nat.lt_of_le_of_lt (Nat.le_of_eq k.dst_eq) (Nat.lt_succ_of_lt (Nat.lt_succ_self _))

include k in
theorem le_dst : pb.nRegs ≤ dst :=
  Nat.le_trans (k.grows_condition H hw).1.nRegs (Nat.le_of_eq k.dst_eq.symm)

end ConditionalCode

section Running

variable {cg : CodeGen} {F pb pb' : ProgramBuilder} {P : Program} {W : World} {σ : Store}
  (hw : Within cg pb.nRegs) (hb : Built F P) (hx : Extends pb' F)
include hw hb hx

/-- A branch that moves its value to the common register. -/
theorem delivers_arm {dst : Reg} {q q₁ : ProgramBuilder} {m : Emit Reg}
    {value : World → Store → Option Value} {r : Reg} {regs : List Value}
    (hm : ∀ pb, Generates cg pb (fun _ => True) m value) (hr : m q = some (r, q₁))
    (hq : dst < q.nRegs) (hpb : pb.nRegs ≤ dst) (hext : Extends (q₁.emit (.mov dst r)) pb')
    (hagree : Agrees cg σ regs) (hlen : pb'.nRegs ≤ regs.length) :
    Delivers P W ⟨q.code.length, regs⟩ (q₁.code.length + 1) pb.nRegs
      (fun regs v => regs[dst]? = some v) (value W σ) := by
  have hpq : pb.nRegs ≤ q.nRegs := Nat.le_trans hpb (Nat.le_of_lt hq)
  obtain ⟨hg, -⟩ := (hm q).grows hr (hw.mono hpq)
  have hemit : q₁.nRegs ≤ pb'.nRegs := hext.nRegs
  have hvalue := (hm q).delivers hr (hw.mono hpq) ((extends_emit _ _).trans (hext.trans hx)) hb
    (W := W) hagree trivial (Nat.le_trans hemit hlen)
  have hid : (value W σ).bind some = value W σ := by cases value W σ <;> rfl
  rw [← hid]
  apply hvalue.bind hpq
  intro v regs₁ hv hs
  have hlt : dst < regs₁.length :=
    Nat.lt_of_lt_of_le (Nat.lt_of_lt_of_le hq hg.nRegs) (hs.length ▸ Nat.le_trans hemit hlen)
  have hc : computed P W regs₁ (.mov dst r) = some (dst, some v) := by
    show some (dst, regs₁[r]?) = _
    rw [show regs₁[r]? = some v from hv]
  exact Delivers.computed (f := ⟨q₁.code.length, regs₁⟩) (hb.code_emit (hext.trans hx) rfl) hc hpb
    hlt

/-- The merge of both branches in the common register. -/
theorem delivers_merge {c t f : Emit Reg} {valueC valueT valueF : World → Store → Option Value}
    {dst : Reg} (k : ConditionalCode c t f pb dst pb') (H : Parts cg c t f valueC valueT valueF)
    {regs : List Value} {v : Value} (hagree : Agrees cg σ regs) (hlen : pb'.nRegs ≤ regs.length)
    (hc : regs[k.rc]? = some v) :
    Delivers P W ⟨(split k.pb₁ k.rc).code.length, regs⟩ (k.pb₃.code.length + 1) pb.nRegs
      (fun regs v => regs[dst]? = some v) ((valueT W σ).bind fun vt => (valueF W σ).bind fun vf =>
        some (Value.select v.asLogic vt vf)) := by
  have hmerge := k.extends_merge H hw
  obtain ⟨hgc, hrc⟩ := k.grows_condition H hw
  have hsplit := k.grows_toSplit H hw
  obtain ⟨hgt, hrt⟩ := k.grows_mergeTrue H hw
  obtain ⟨hgf, hrf⟩ := k.grows_mergeFalse H hw
  have h₃ : Extends k.pb₃ pb' := ((extends_emit _ _).trans (extends_emitTo _ _ _)).trans hmerge
  have h₂ : Extends k.pb₂ pb' := hgf.toExtends.trans h₃
  have hrc' : k.rc < (split k.pb₁ k.rc).nRegs :=
    Nat.lt_of_lt_of_le hrc (Nat.le_trans (Nat.le_succ _) (Nat.le_succ _))
  have htrue := (H.whenTrue _).delivers k.mergeTrue (hw.mono hsplit.nRegs) (h₂.trans hx) hb (W := W)
    hagree trivial (Nat.le_trans h₂.nRegs hlen)
  apply htrue.bind hsplit.nRegs
  intro vt regs₁ hvt hs
  have hto := k.grows_toMerge H hw
  have hlen₁ : k.pb₃.nRegs ≤ regs₁.length := hs.length ▸ Nat.le_trans h₃.nRegs hlen
  have hagree₁ : Agrees cg σ regs₁ := hagree.same (hw.mono hsplit.nRegs) hs
  have hfalse := (H.whenFalse _).delivers k.mergeFalse (hw.mono hto.nRegs) (h₃.trans hx) hb (W := W)
    hagree₁ trivial hlen₁
  apply hfalse.bind hto.nRegs
  intro vf regs₂ hvf hs₂
  have hc₂ : regs₂[k.rc]? = some v := by
    rw [hs₂.get _ (Nat.lt_of_lt_of_le hrc' hgt.nRegs), hs.get _ hrc', hc]
  have ht₂ : regs₂[k.rt]? = some vt := (hs₂.get _ hrt).trans hvt
  have hf₂ : regs₂[k.rf]? = some vf := hvf
  have hcomp : computed P W regs₂ (.logic dst (.select k.rc k.rt k.rf)) =
      some (dst, some (Value.select v.asLogic vt vf)) := by
    simp [computed, operands, hc₂, ht₂, hf₂, execValue]
  have hlt : dst < regs₂.length := by
    have hpos := Nat.lt_of_lt_of_le k.dst_split (Nat.le_trans hgt.nRegs hgf.nRegs)
    exact Nat.lt_of_lt_of_le hpos (hs₂.length ▸ hlen₁)
  exact Delivers.computed (f := ⟨k.pb₃.code.length, regs₂⟩)
    (hb.code_emit ((extends_emitTo _ _ _).trans (hmerge.trans hx)) rfl) hcomp (k.le_dst H hw) hlt

omit hw hx in
theorem step_split {q : ProgramBuilder} {c target : Nat} {v : Value} {regs : List Value}
    (hs : Extends (split q c) F) (hl : F.Bound q.labels.length target) (hc : regs[c]? = some v) :
    step P W ⟨q.code.length, regs⟩ =
      .next ⟨if v.truthy then target else q.code.length + 1, regs⟩ := by
  have hext : Extends (q.newLabel.2.newLabel.2.newLabel.2.newReg.2.branchTrue c q.labels.length)
      (split q c) := (extends_newReg _).trans ((extends_emit _ _).trans (extends_emitTo _ _ _))
  have hstep := step_branchTrue hb (W := W) (hext.trans hs) hl hc
  exact hstep

omit hw hx in
/-- The second branch, on whether the condition is known. -/
theorem runs_split {q : ProgramBuilder} {c target : Nat} {v : Value} {regs : List Value}
    (hs : Extends (split q c) F) (hl : F.Bound (q.labels.length + 1) target)
    (hc : regs[c]? = some v) (hlen : (split q c).nRegs ≤ regs.length) :
    ∃ k regs', SameBelow (q.nRegs + 1) regs regs' ∧ Runs (step P W) k ⟨q.code.length + 1, regs⟩
      ⟨if v.isKnown then target else (split q c).code.length, regs'⟩ := by
  generalize hq : q.newLabel.2.newLabel.2.newLabel.2.newReg.2.branchTrue c q.labels.length = q₁
  have hsplit : split q c = (q₁.newReg.2.emit (.isKnown q₁.nRegs c)).branchTrue q₁.nRegs
      (q.labels.length + 1) := by
    rw [← hq]
    rfl
  have hcode : q₁.code.length = q.code.length + 1 := by
    rw [← hq]
    exact List.length_append
  have hregs : q₁.nRegs = q.nRegs + 1 := by
    rw [← hq]
    rfl
  rw [hsplit] at hs hlen ⊢
  have hlt : q₁.nRegs < regs.length := hlen
  have hcomp : computed P W regs (.isKnown q₁.nRegs c) =
      some (q₁.nRegs, some (.logic (.fromBool v.isKnown))) := by
    simp [computed, hc]
  have hi : P.code[q₁.code.length]? = some (.isKnown q₁.nRegs c) := by
    have hemit : Extends (q₁.newReg.2.emit (.isKnown q₁.nRegs c)) F :=
      (extends_emitTo _ _ _).trans hs
    have hcode := hb.code_emit hemit rfl
    exact hcode
  obtain ⟨k, regs', hrun, hknown, hsame⟩ :=
    Delivers.computed (f := ⟨q₁.code.length, regs⟩) (n := q₁.nRegs) hi hcomp (Nat.le_refl _) hlt
  have hstep := step_branchTrue hb (W := W) hs hl hknown
  have hlen₂ : (q₁.newReg.2.emit (.isKnown q₁.nRegs c)).code.length = q₁.code.length + 1 :=
    List.length_append
  have hend : ((q₁.newReg.2.emit (.isKnown q₁.nRegs c)).branchTrue q₁.nRegs
      (q.labels.length + 1)).code.length = q₁.code.length + 1 + 1 := by
    rw [← hlen₂]
    exact List.length_append
  rw [hlen₂] at hstep
  rw [truthy_logic, PackedVec.isTrue_fromBool] at hstep
  rw [hend, ← hcode]
  exact ⟨k + 1, regs', hregs ▸ hsame, hrun.trans (.single hstep)⟩

/-- Both branches on the condition lead to the code for its value. -/
theorem delivers_conditional {c t f : Emit Reg}
    {valueC valueT valueF : World → Store → Option Value}
    {dst : Reg} (k : ConditionalCode c t f pb dst pb') (H : Parts cg c t f valueC valueT valueF)
    {regs : List Value} (hagree : Agrees cg σ regs) (hlen : pb'.nRegs ≤ regs.length) :
    Delivers P W ⟨pb.code.length, regs⟩ pb'.code.length pb.nRegs (fun regs v => regs[dst]? = some v)
      (evalConditional (valueC W σ) (valueT W σ) (valueF W σ)) := by
  have hsplit : Extends (split k.pb₁ k.rc) pb' :=
    (k.grows_mergeTrue H hw).1.toExtends.trans <| (k.grows_mergeFalse H hw).1.toExtends.trans <|
      ((extends_emit _ _).trans (extends_emitTo _ _ _)).trans (k.extends_merge H hw)
  have hext₁ : Extends k.pb₁ pb' := (grows_split (Nat.zero_le _) _).toExtends.trans hsplit
  have hdst : dst < k.atTrue.nRegs :=
    Nat.lt_of_lt_of_le k.dst_split (Nat.le_trans (k.grows_mergeTrue H hw).1.nRegs
      (k.grows_mergeFalse H hw).1.nRegs)
  have hdst' : dst < k.atFalse.nRegs :=
    Nat.lt_of_lt_of_le hdst (k.grows_whenTrue H hw).1.nRegs
  have hdone := hx.bound (k.bound_done H hw)
  have hcond := (H.condition _).delivers k.condition hw (hext₁.trans hx) hb (W := W) hagree trivial
    (Nat.le_trans hext₁.nRegs hlen)
  apply hcond.bind (Nat.le_refl _)
  intro v regs₁ hv hs
  have hlen₁ : pb'.nRegs ≤ regs₁.length := hs.length ▸ hlen
  have hstep := step_split hb (W := W) (hsplit.trans hx) (hx.bound (k.bound_true H hw)) hv
  have hgc := (k.grows_condition H hw).1.nRegs
  by_cases htruthy : v.truthy = true
  · rw [if_pos htruthy] at hstep ⊢
    have harm := delivers_arm hw hb hx (W := W) H.whenTrue k.whenTrue hdst (k.le_dst H hw)
      ((extends_emitTo _ _ _).trans (k.extends_true H hw)) (hagree.same hw hs) hlen₁
    refine Delivers.prepend (.single hstep) (.refl _ _) (harm.goto fun regs => ?_)
    have hcode : (k.pb₄.emit (.mov dst k.rt')).code.length = k.pb₄.code.length + 1 :=
      List.length_append
    rw [← hcode]
    exact step_jump hb ((k.extends_true H hw).trans hx) hdone
  · rw [if_neg htruthy] at hstep ⊢
    obtain ⟨j, regs₂, hsame, hrun⟩ := runs_split hb (W := W) (hsplit.trans hx)
      (hx.bound (k.bound_false H hw)) hv (Nat.le_trans hsplit.nRegs hlen₁)
    have hs₂ : SameBelow pb.nRegs regs regs₂ := hs.trans (hsame.mono (Nat.le_succ_of_le hgc))
    have hlen₂ : pb'.nRegs ≤ regs₂.length := hs₂.length ▸ hlen
    refine Delivers.prepend ((Runs.single hstep).trans hrun)
      (hsame.mono (Nat.le_succ_of_le hgc)) ?_
    by_cases hknown : v.isKnown = true
    · rw [if_pos hknown, if_pos hknown]
      have harm := delivers_arm hw hb hx (W := W) H.whenFalse k.whenFalse hdst' (k.le_dst H hw)
        (k.extends_false H hw) (hagree.same hw hs₂) hlen₂
      have hend : pb'.code.length = k.pb₅.code.length + 1 :=
        (congrArg (fun q => q.code.length) k.last).trans List.length_append
      rw [hend]
      exact harm
    · rw [if_neg hknown, if_neg hknown]
      have hc₂ : regs₂[k.rc]? = some v := by
        rw [hsame.get _ (Nat.lt_succ_of_lt (k.grows_condition H hw).2)]
        exact hv
      have hmerge := delivers_merge hw hb hx (W := W) k H (hagree.same hw hs₂) hlen₂ hc₂
      refine hmerge.goto fun regs => ?_
      have hcode : (k.pb₃.emit (.logic dst (.select k.rc k.rt k.rf))).code.length =
          k.pb₃.code.length + 1 := List.length_append
      rw [← hcode]
      exact step_jump hb ((k.extends_merge H hw).trans hx) hdone

end Running

variable {cg : CodeGen} {c t f : Emit Reg} {valueC valueT valueF : World → Store → Option Value}

theorem generates_conditional (H : Parts cg c t f valueC valueT valueF) (pb : ProgramBuilder) :
    Generates cg pb (fun _ => True) (CodeGen.genConditionalOf c t f)
      fun W σ => evalConditional (valueC W σ) (valueT W σ) (valueF W σ) where
  grows {dst pb'} hm hw := by
    obtain ⟨k⟩ := conditionalCode hm
    have hg := k.grows H hw
    refine ⟨hg, ?_⟩
    exact Nat.lt_of_lt_of_le k.dst_split (Nat.le_trans (k.grows_mergeTrue H hw).1.nRegs
      (Nat.le_trans (k.grows_mergeFalse H hw).1.nRegs (k.grows_fromTrue H hw).nRegs))
  delivers hm hw hx hb _ _ _ hagree _ hlen := by
    obtain ⟨k⟩ := conditionalCode hm
    exact delivers_conditional hw hb hx k H hagree hlen

/-! ### Expressions -/

theorem stable_true (n : Nat) : Stable n fun _ => True := fun _ _ => trivial

instance : Inhabited Value := ⟨.null⟩

section Expressions

variable {cg : CodeGen}

theorem isPlain_unaryInst (dst a : Reg) (op : UnaryOp) :
    (CodeGen.unaryInst dst a op).isPlain = true := by
  cases op <;> rfl

theorem computed_unaryInst {P : Program} {W : World} {regs : List Value} {dst a : Reg} {v : Value}
    (op : UnaryOp) (ha : regs[a]? = some v) :
    computed P W regs (CodeGen.unaryInst dst a op) = some (dst, evalUnary v op) := by
  cases op <;> simp [computed, CodeGen.unaryInst, operands, evalUnary, ha]

theorem computed_binary {P : Program} {W : World} {regs : List Value} {dst a b : Reg} {v w : Value}
    (op : BinaryInst) (ha : regs[a]? = some v) (hb : regs[b]? = some w) :
    computed P W regs (.logic dst (.binary op a b)) = some (dst, execValue (.binary op v w)) := by
  simp [computed, operands, ha, hb]

theorem computed_resize {P : Program} {W : World} {regs : List Value} {dst a : Reg} {v : Value}
    (width : Nat) (signed : Bool) (ha : regs[a]? = some v) :
    computed P W regs (.logic dst (.resize a width signed)) =
      some (dst, resizedTo width signed v) := by
  simp [computed, operands, resizedTo, ha]

theorem generates_ref (name : String) (pb : ProgramBuilder) :
    Generates cg pb (fun _ => True) (cg.genRef name) fun W σ => evalRef cg W σ name := by
  unfold CodeGen.genRef evalRef
  cases hl : cg.locals name with
  | some entry =>
    exact generates_pure (fun hw => hw hl) fun {_ σ _} hagree _ => ⟨σ name, rfl, hagree hl⟩
  | none =>
    cases cg.vars name with
    | some id => exact .instruction (fun _ => rfl) fun _ _ _ _ _ _ => rfl
    | none =>
      cases cg.consts name with
      | some value => exact generates_const value
      | none =>
        cases cg.memories name with
        | some memory => exact generates_failure
        | none =>
          cases cg.nets name with
          | some entry => exact .instruction (fun _ => rfl) fun _ _ _ _ _ _ => rfl
          | none => exact generates_failure

/-- An operation on two operands that are compiled by `m` and `m'`. -/
theorem generates_operation {m m' : Emit Reg} {value value' : World → Store → Option Value}
    (op : BinaryInst) (h : ∀ pb, Generates cg pb (fun _ => True) m value)
    (h' : ∀ pb, Generates cg pb (fun _ => True) m' value') (pb : ProgramBuilder) :
    Generates cg pb (fun _ => True)
      (do
        let a ← m
        let b ← m'
        emitNew (.logic · (.binary op a b)))
      (fun W σ => do
        let a ← value W σ
        let b ← value' W σ
        execValue (.binary op a b)) := by
  refine (h pb).bind (stable_true _) fun a v pb₁ _ _ hst => ?_
  refine ((h' pb₁).weaken fun _ => trivial).bind hst fun b w pb₂ _ _ _ => ?_
  exact .instruction (fun _ => rfl) fun _ _ hp _ _ _ => computed_binary _ hp.1.2 hp.2

theorem holds_cons {r : Reg} {rs : List Reg} {regs : List Value} {v : Value} {vs : List Value}
    (h : Place.holds r regs v) (hs : Place.holds rs regs vs) :
    Place.holds (r :: rs) regs (v :: vs) := by
  show (r :: rs).mapM (regs[·]?) = some (v :: vs)
  have h' : regs[r]? = some v := h
  have hs' : rs.mapM (regs[·]?) = some vs := hs
  rw [List.mapM_cons, h', hs']
  rfl

theorem computed_partSelect {P : Program} {W : World} {regs : List Value} {dst a b c : Reg}
    {v w u : Value} (ha : regs[a]? = some v) (hb : regs[b]? = some w) (hc : regs[c]? = some u) :
    computed P W regs (.logic dst (.partSelect a b c)) =
      some (dst, execValue (.partSelect v w u)) := by
  simp [computed, operands, ha, hb, hc]

theorem computed_memoryRead {P : Program} {W : World} {regs : List Value} {dst a : Reg} {k : Nat}
    {memory : MemoryDef} {v : Value} (hk : P.memories[k]? = some memory) (ha : regs[a]? = some v) :
    computed P W regs (.memoryRead dst k a) =
      some (dst, some (.logic (memoryRead W memory v.asLogic))) := by
  simp [computed, hk, ha]

theorem computed_concat {P : Program} {W : World} {regs : List Value} {dst : Reg} {k : Nat}
    {rs : List Reg} {vs : List Value} (hk : P.arglists[k]? = some rs)
    (hr : rs.mapM (regs[·]?) = some vs) :
    computed P W regs (.concat dst k) = some (dst, execValue (.concat vs)) := by
  simp [computed, hk, hr]

theorem generates_exprs {es : List Expr}
    (h : ∀ e ∈ es, ∀ pb, Generates cg pb (fun _ => True) (cg.genExpr e) fun W σ =>
    evalExpr cg W σ e)
    (pb : ProgramBuilder) :
    Generates cg pb (fun _ => True) (cg.genExprs es) fun W σ => evalExprs cg W σ es := by
  induction es generalizing pb with
  | nil =>
    rw [CodeGen.genExprs]
    simp only [evalExprs]
    exact generates_pure (fun _ _ hr => nomatch hr) fun _ _ => ⟨[], rfl, rfl⟩
  | cons e es ih =>
    rw [CodeGen.genExprs]
    simp only [evalExprs]
    refine (h e List.mem_cons_self pb).bind (stable_true _) fun r v pb₁ hr _ hst => ?_
    refine ((ih (fun e he => h e (List.mem_cons_of_mem _ he)) pb₁).weaken fun _ => trivial).bind hst
      fun rs vs pb₂ hrs hx _ => ?_
    refine generates_pure (fun _ r' hr' => ?_) fun _ hp => ⟨v :: vs, rfl, ?_⟩
    · rcases List.mem_cons.mp hr' with rfl | hr'
      · exact Nat.lt_of_lt_of_le hr hx.nRegs
      · exact hrs r' hr'
    · exact holds_cons hp.1.2 hp.2

theorem generates_expr (e : Expr) (pb : ProgramBuilder) :
    Generates cg pb (fun _ => True) (cg.genExpr e) fun W σ => evalExpr cg W σ e := by
  induction e generalizing pb with
  | literal value =>
    simp only [CodeGen.genExpr, evalExpr]
    exact generates_const value
  | signedLiteral value =>
    simp only [CodeGen.genExpr, evalExpr]
    exact generates_const value
  | fill bit =>
    simp only [CodeGen.genExpr, evalExpr]
    exact generates_const _
  | ref name =>
    simp only [CodeGen.genExpr, evalExpr]
    exact generates_ref name pb
  | unary op operand ih =>
    simp only [CodeGen.genExpr, evalExpr]
    refine (ih pb).bind (stable_true _) fun a v pb₁ _ _ _ => ?_
    exact .instruction (fun dst => isPlain_unaryInst dst a op) fun _ _ hp _ _ _ =>
      computed_unaryInst op hp.2
  | binary op lhs rhs ihl ihr =>
    simp only [CodeGen.genExpr, evalExpr]
    exact generates_operation _ ihl ihr pb
  | conditional condition whenTrue whenFalse ihc iht ihf =>
    simp only [CodeGen.genExpr, evalExpr]
    exact generates_conditional ⟨ihc, iht, ihf⟩ pb
  | index base index ihb ihi =>
    simp only [CodeGen.genExpr, evalExpr]
    cases cg.memoryOf base with
    | some memory =>
      refine generates_memory ((ihi _).bind (stable_true _) fun a v pb₁ _ hx _ => ?_)
      refine .instruction (fun _ => rfl) fun ht _ hp _ _ _ => computed_memoryRead ?_ hp.2
      exact getElem?_of_prefix (hx.memories.trans ht.memories) (List.getElem?_concat_length ..)
    | none => exact generates_operation .indexGet ihb ihi pb
  | partSelect base left right ihb ihl ihr =>
    simp only [CodeGen.genExpr, evalExpr]
    refine (ihb pb).bind (stable_true _) fun a v pb₁ _ _ hst => ?_
    refine ((ihl pb₁).weaken fun _ => trivial).bind hst fun b w pb₂ _ _ hst₂ => ?_
    refine ((ihr pb₂).weaken fun _ => trivial).bind hst₂ fun c u pb₃ _ _ _ => ?_
    exact .instruction (fun _ => rfl) fun _ _ hp _ _ _ =>
      computed_partSelect hp.1.1.2 hp.1.2 hp.2
  | concat parts ih =>
    simp only [CodeGen.genExpr, evalExpr]
    refine (generates_exprs ih pb).bind (stable_true _) fun rs vs pb₁ _ _ _ => ?_
    refine generates_arglist
      (.instruction (fun _ => rfl) fun ht _ hp _ _ _ => computed_concat ?_ hp.2)
    exact getElem?_of_prefix ht.arglists (List.getElem?_concat_length ..)

theorem generates_resized (e : Expr) (width : Nat) (signed : Bool) (pb : ProgramBuilder) :
    Generates cg pb (fun _ => True) (cg.genResized e width signed)
      fun W σ => evalResized cg W σ e width signed := by
  unfold CodeGen.genResized evalResized
  refine (generates_expr e pb).bind (stable_true _) fun a v pb₁ ha _ _ => ?_
  by_cases hw : cg.integralExprWidth e = some width
  · simp only [if_pos hw]
    exact generates_pure (fun _ => ha) fun _ hp => ⟨v, rfl, hp.2⟩
  · simp only [if_neg hw]
    exact .instruction (fun _ => rfl) fun _ _ hp _ _ _ => computed_resize _ _ hp.2

theorem generates_atWidthWithSign (e : Expr) (width : Nat) (signed : Bool) (pb : ProgramBuilder) :
    Generates cg pb (fun _ => True) (cg.genExprAtWidthWithSign e width signed)
      fun W σ => evalAtWidthWithSign cg W σ e width signed := by
  induction e generalizing width signed pb with
  | literal | signedLiteral | ref | index | partSelect | concat =>
    simp only [CodeGen.genExprAtWidthWithSign, evalAtWidthWithSign]
    exact generates_resized _ width signed pb
  | fill bit =>
    simp only [CodeGen.genExprAtWidthWithSign, evalAtWidthWithSign]
    exact generates_const _
  | conditional condition whenTrue whenFalse _ iht ihf =>
    simp only [CodeGen.genExprAtWidthWithSign, evalAtWidthWithSign]
    exact generates_conditional ⟨generates_expr condition, iht width signed, ihf width signed⟩ pb
  | unary op operand ih =>
    cases op with
    | bitNot | neg | plus =>
      simp only [CodeGen.genExprAtWidthWithSign, evalAtWidthWithSign]
      refine (ih width signed pb).bind (stable_true _) fun a v pb₁ _ _ _ => ?_
      exact .instruction (fun dst => isPlain_unaryInst dst a _) fun _ _ hp _ _ _ =>
        computed_unaryInst _ hp.2
    | logNot | reduceAnd | reduceOr | reduceXor =>
      simp only [CodeGen.genExprAtWidthWithSign, evalAtWidthWithSign]
      exact generates_resized _ width signed pb
  | binary op lhs rhs ihl ihr =>
    cases op with
    | add | sub | mul | and | or | xor =>
      simp only [CodeGen.genExprAtWidthWithSign, evalAtWidthWithSign]
      exact generates_operation _ (ihl width signed) (ihr width signed) pb
    | shl | shr | sar =>
      simp only [CodeGen.genExprAtWidthWithSign, evalAtWidthWithSign]
      exact generates_operation _ (ihl width signed) (generates_expr rhs) pb
    | eq | neq | lt | gt | le | ge =>
      simp only [CodeGen.genExprAtWidthWithSign, evalAtWidthWithSign]
      refine (ihl _ _ pb).bind (stable_true _) fun a v pb₁ _ _ hst => ?_
      refine ((ihr _ _ pb₁).weaken fun _ => trivial).bind hst fun b w pb₂ _ _ hst₂ => ?_
      refine Generates.bind (Generates.instruction (fun _ => rfl) fun _ _ hp _ _ _ =>
        computed_binary _ hp.1.2 hp.2) hst₂ fun r u pb₃ hr _ _ => ?_
      by_cases hw : width = 1
      · simp only [if_pos hw]
        exact generates_pure (fun _ => hr) fun _ hp => ⟨u, rfl, hp.2⟩
      · simp only [if_neg hw]
        exact .instruction (fun _ => rfl) fun _ _ hp _ _ _ => computed_resize _ _ hp.2
    | logAnd | logOr =>
      simp only [CodeGen.genExprAtWidthWithSign, evalAtWidthWithSign]
      exact generates_resized _ width signed pb

theorem generates_atWidth (e : Expr) (width : Nat) (pb : ProgramBuilder) :
    Generates cg pb (fun _ => True) (cg.genExprAtWidth e width)
      fun W σ => evalAtWidth cg W σ e width :=
  generates_atWidthWithSign e width _ pb

theorem generates_assignmentRhs (lhs : String) (rhs : Expr) (pb : ProgramBuilder) :
    Generates cg pb (fun _ => True) (cg.genAssignmentRhs lhs rhs)
      fun W σ => evalAssignmentRhs cg W σ lhs rhs := by
  unfold CodeGen.genAssignmentRhs evalAssignmentRhs
  cases cg.lvalueWidth lhs with
  | some width => exact generates_atWidth rhs width pb
  | none => exact generates_expr rhs pb

theorem generates_returnValue (e : Expr) (pb : ProgramBuilder) :
    Generates cg pb (fun _ => True) (cg.genReturnValue e) fun W σ => evalReturnValue cg W σ e := by
  unfold CodeGen.genReturnValue evalReturnValue
  cases cg.returnType with
  | some entry => exact generates_atWidth e entry.1 pb
  | none => exact generates_expr e pb

end Expressions

end Eevee.Elab.ExprCode
