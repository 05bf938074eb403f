/- Dynamic casts: the class test, and what is assigned to the destination. -/

import Mathlib.Data.List.Basic
import Eevee.Classes.Dispatch
import Eevee.Elab.Blocking
import Eevee.Elab.CallSites
import Eevee.Elab.Selection
import Eevee.Ir.Collections
import Eevee.Lib.Ancestry

set_option autoImplicit false
set_option relaxedAutoImplicit false

namespace Eevee.Elab.Casts

open Eevee.Core.Logic
open Eevee.Ir.Objects
open Eevee.Ir.Locations
open Eevee.Ir.Collections (truthy)
open Eevee.Lib.Ancestry (meets meets_iff)
open Eevee.Classes.Declarations
open Eevee.Classes.Layout
open Eevee.Classes.Dispatch (BaseOf Ancestor)
open Eevee.Elab.Names
open Eevee.Elab.Targets
open Eevee.Elab.CallSites (CallContext)
open Eevee.Elab.Assignments
open Eevee.Elab.Stores

/-! ### The class test -/

/-- The walk up the bases, at most as many steps as there are classes; none where an index is out of
bounds. -/
def classIsA (classes : ClassId → Option ClassInfo) : Nat → ClassId → ClassId → Option Bool
  | 0, _, _ => some false
  | n + 1, actual, target =>
    if actual = target then some true
    else (classes actual).bind fun info =>
      match info.base with
      | some base => classIsA classes n base target
      | none => some false

/-- Null is of every class; what is no object of none. -/
def castSucceeds (classes : ClassId → Option ClassInfo) (n : Nat) (h : Heap) (value : Val)
    (target : ClassId) : Option Bool :=
  match value with
  | .obj id => h.objs[id]?.bind fun data => classIsA classes n data.cls target
  | .null => some true
  | _ => some false

/-- `n` classes without a cycle of bases. -/
structure ClassTable (classes : ClassId → Option ClassInfo) (n : Nat) : Prop where
  known : ∀ c < n, (classes c).isSome = true
  base : ∀ c b, BaseOf classes c b → b < n
  acyclic : ∀ c, ¬ Relation.TransGen (BaseOf classes) c c

section

variable {classes : ClassId → Option ClassInfo} {n : Nat}

def baseClass (classes : ClassId → Option ClassInfo) (c : ClassId) : Option ClassId :=
  (classes c).bind (·.base)

theorem step_baseClass : Lib.Ancestry.Step (baseClass classes) = BaseOf classes := by
  funext c b
  exact propext Option.bind_eq_some_iff

theorem ClassTable.ancestry (h : ClassTable classes n) :
    Lib.Ancestry.Acyclic (baseClass classes) (List.range n) where
  closed c _ b hb := by
    rw [List.mem_range]
    refine h.base c b ?_
    rw [← step_baseClass]
    exact hb
  acyclic := step_baseClass ▸ h.acyclic

theorem classIsA_eq (h : ClassTable classes n) (target : ClassId) (k : Nat) {c : ClassId}
    (hc : c < n) : classIsA classes k c target = some (meets (baseClass classes) k c target) := by
  induction k generalizing c with
  | zero => rfl
  | succ k ih =>
    obtain ⟨info, hinfo⟩ := Option.isSome_iff_exists.mp (h.known c hc)
    have hbase : baseClass classes c = info.base := by rw [baseClass, hinfo, Option.bind_some]
    rw [classIsA, meets, hinfo, Option.bind_some, hbase]
    split_ifs with heq
    · rfl
    · cases hb : info.base with
      | none => rfl
      | some b => exact ih (h.base c b ⟨info, hinfo, hb⟩)

/-- The walk finds every ancestor, and nothing else. -/
theorem classIsA_iff (h : ClassTable classes n) {c : ClassId} (hc : c < n) (target : ClassId) :
    ∃ b, classIsA classes n c target = some b ∧ (b = true ↔ Ancestor classes c target) := by
  refine ⟨_, classIsA_eq h target n hc, ?_⟩
  have hmeets : meets (baseClass classes) (List.range n).length c target = true ↔
      Relation.ReflTransGen (Lib.Ancestry.Step (baseClass classes)) c target :=
    meets_iff h.ancestry (List.mem_range.mpr hc)
  rw [List.length_range, step_baseClass] at hmeets
  exact hmeets

end

/-! ### The code of a cast -/

/-- A step of the code of a cast; `guarded` is a branch over the body when the condition fails. -/
inductive CastStep
  | step (s : Step)
  | classCast (dst src : Reg) (cls : ClassId)
  | guarded (cond : Reg) (body : Code)

variable {E : Type}

section

variable (ctx : CallContext E) (n : Nat)

def CastStep.run (s : State) : CastStep → Option State
  | .step i => i.run s
  | .classCast dst src cls =>
    (castSucceeds ctx.classes n s.heap (s.regs src) cls).map fun b =>
      s.setReg dst (.logic (.fromBool b))
  | .guarded cond body => if truthy (s.regs cond) then runCode s body else some s

def runCast (s : State) : List CastStep → Option State
  | [] => some s
  | step :: rest => (step.run ctx n s).bind (runCast · rest)

/-- The class of a name as a receiver. -/
def tryClassOf (name : String) : Option ClassId :=
  if name = "this" then ctx.classCtx else ctx.classOfName name

/-- `$cast(dst, src)` and the register of its result. Only a destination that is a plain name is
assigned to. -/
def genCast (dst : Lvalue E) (src : E) (next : Reg) : Option (List CastStep × Reg) :=
  let p := ctx.genExpr src next
  let success := p.next
  match dst.scope, dst.receiver, dst.index with
  | none, none, none =>
    match tryClassOf ctx dst.name with
    | some cls => (ctx.genAssign dst.name p.reg).map fun assign =>
      ([.step (.piece p), .classCast success p.reg cls, .guarded success assign], success)
    | none => (ctx.genAssign dst.name p.reg).map fun assign =>
      (.step (.piece p) :: assign.map .step ++
        [.step (.inst (.loadConst success (.logic (.fromBool true))))], success)
  | _, _, _ =>
    some ([.step (.piece p), .step (.inst (.loadConst success (.logic (.fromBool false))))],
      success)

end

/-! ### What a cast is meant to do -/

section

variable (ctx : CallContext E)

/-- The class of a variable. -/
def classOfDecl : Decl → Option ClassId
  | .variable _ v => v.cls
  | _ => none

/-- The declared class of a destination. -/
def declaredClass (dst : Lvalue E) : Option ClassId :=
  match dst.scope, dst.receiver with
  | some scope, _ => (scopedBase ctx.toContext dst.name scope).bind classOfDecl
  | none, some receiver => ((ctx.receiverClass receiver).bind ctx.classes).bind fun info =>
    if (info.fieldSlot dst.name).isSome then info.fieldClass dst.name
    else info.staticFieldClass dst.name
  | none, none => (declaredBase ctx.toContext dst.name).bind classOfDecl

/-- A handle may be cast to a class: it is null, or its object is of the class or of a class that
derives from it. -/
def Castable (h : Heap) (value : Val) (target : ClassId) : Prop :=
  value = .null ∨ ∃ id data, value = .obj id ∧ h.objs[id]? = some data ∧
    Ancestor ctx.classes data.cls target

/-- Null, or a handle of an object of one of the `n` classes. -/
def Handle (n : Nat) (h : Heap) (value : Val) : Prop :=
  value = .null ∨ ∃ id data, value = .obj id ∧ h.objs[id]? = some data ∧ data.cls < n

/-- From a state in which the source is evaluated, the cast returns whether it succeeds; then the
destination holds the source, else it is unchanged. All other places are unchanged. -/
structure CastsTo (s t : State) (result : Reg) (value : Val) (place : Location) (target : ClassId) :
    Prop where
  returns : (t.regs result = .logic (.fromBool true) ∧ Castable ctx s.heap value target) ∨
    (t.regs result = .logic (.fromBool false) ∧ ¬ Castable ctx s.heap value target)
  succeeds : Castable ctx s.heap value target → read t place = value
  fails : ¬ Castable ctx s.heap value target → read t place = read s place
  frame : ∀ l, l ≠ place → Visible ctx.toContext l → Allocated s.heap l → read t l = read s l

/-- A destination that is a plain name. -/
def IsName (dst : Lvalue E) : Prop :=
  dst.scope = none ∧ dst.receiver = none ∧ dst.index = none

end

/-! ### The destination of a plain name -/

section

variable {ctx : CallContext E} {n : Nat} {dst : Lvalue E} {target : ClassId}

/-- The class that is looked up for a plain name is that of the variable in scope, which is the one
assigned to. -/
theorem tryClassOf_name (hname : IsName dst) (hclass : declaredClass ctx dst = some target) :
    tryClassOf ctx dst.name = some target ∧
      ∃ scope w, declaredBase ctx.toContext dst.name = some (.variable scope w) ∧
        ctx.env.wholeWrite dst.name = some (.variable scope w) := by
  rw [declaredClass, hname.1, hname.2.1] at hclass
  obtain ⟨d, hd, hcls⟩ := Option.bind_eq_some_iff.mp hclass
  have hbase := hd
  rw [declaredBase] at hd
  split_ifs at hd with hthis
  cases d with
  | this | const | method | function | signal => cases hcls
  | «variable» scope w =>
    have hcls' : w.cls = some target := hcls
    have hany : ctx.env.anyVariable dst.name = some (.variable scope w) := by
      rcases Option.or_eq_some_iff.mp hd with hany | ⟨-, hsignal⟩
      · exact hany
      · rcases Option.or_eq_some_iff.mp hsignal with hmem | ⟨-, hnet⟩
        · obtain ⟨_, -, heq⟩ := Option.map_eq_some_iff.mp hmem
          cases heq
        · obtain ⟨_, -, heq⟩ := Option.map_eq_some_iff.mp hnet
          cases heq
    refine ⟨?_, scope, w, hbase, by rw [Env.wholeWrite, hany, Option.some_or]⟩
    have hnew : ctx.env.newClass dst.name = some (.variable scope w) := by
      rw [Env.anyVariable, Env.chain_eq] at hany
      rw [Env.newClass, Env.chain_eq]
      cases hdeclared : ctx.env.declared dst.name with
      | nil =>
        rw [hdeclared] at hany
        cases hany
      | cons first rest =>
        rw [hdeclared] at hany
        cases hany
        rw [List.find?_cons_of_pos (by rw [hcls']; rfl)]
        rfl
    rw [tryClassOf, if_neg hthis, Context.classOfName, hnew]
    exact hcls'

theorem castSucceeds_iff (htable : ClassTable ctx.classes n) {h : Heap} {value : Val}
    (hvalue : Handle n h value) (target : ClassId) :
    ∃ b, castSucceeds ctx.classes n h value target = some b ∧
      (b = true ↔ Castable ctx h value target) := by
  rcases hvalue with rfl | ⟨id, data, rfl, hdata, hcls⟩
  · exact ⟨true, rfl, iff_of_true rfl (.inl rfl)⟩
  · obtain ⟨b, hb, hiff⟩ := classIsA_iff htable hcls target
    refine ⟨b, ?_, hiff.trans ⟨fun h => .inr ⟨id, data, rfl, hdata, h⟩, ?_⟩⟩
    · rw [castSucceeds, hdata, Option.bind_some]
      exact hb
    · rintro (hnull | ⟨id', data', heq, hdata', hanc⟩)
      · cases hnull
      · cases heq
        cases hdata.symm.trans hdata'
        exact hanc

/-- A handle is its own copy. -/
theorem copy_handle {h : Heap} {value : Val} (hvalue : Handle n h value) :
    assignmentCopy h value = some (h, value) := by
  rcases hvalue with rfl | ⟨id, data, rfl, -, -⟩
  · rfl
  · rfl

/-- The assignment of a handle to a variable. -/
theorem runs_assign {s : State} {scope : Scope} {w : Variable} {src : Reg} {place : Location}
    {value : Val} (hsrc : s.regs src = value) (hvalue : Handle n s.heap value)
    (hplace : ctx.place s (.variable scope w) = some place) (halloc : Allocated s.heap place) :
    ∃ code t, ctx.genWrite src (.variable scope w) = some code ∧ runCode s code = some t ∧
      ∀ l, Allocated s.heap l → read t l = if l = place then value else read s l := by
  have hcopy : assignmentCopy s.heap (s.regs src) = some (s.heap, value) := by
    rw [hsrc]
    exact copy_handle hvalue
  cases scope with
  | «local» =>
    cases hplace
    exact ⟨_, _, rfl, (runCode_single _ _).trans (updates_assign hcopy).1,
      fun l hl => (updates_assign hcopy).2 l hl⟩
  | field =>
    obtain ⟨id, hthis, rfl⟩ := ctx.place_field hplace
    obtain ⟨h', hexec, -, hupdates⟩ := updates_setField hthis halloc hcopy
    exact ⟨_, _, rfl, (runCode_single _ _).trans hexec, fun l hl => hupdates l hl⟩
  | static | package =>
    cases hplace
    exact ⟨_, _, rfl, (runCode_single _ _).trans (updates_staticSet hcopy).1,
      fun l hl => (updates_staticSet hcopy).2 l hl⟩

/-- After the result register is written, a place that is no temporary is where it was. -/
theorem place_setReg {s : State} {d : Decl} {r : Reg} (hr : ctx.temps ≤ r) (value : Val) :
    ctx.place (s.setReg r value) d = ctx.place s d := by
  cases d with
  | this | const | method | function | signal => rfl
  | «variable» scope w =>
    cases scope with
    | «local» | static | package => rfl
    | field =>
      have hne : ctx.thisReg ≠ r := Nat.ne_of_lt (Nat.lt_of_lt_of_le ctx.this_lt hr)
      have hthis : (s.setReg r value).regs ctx.thisReg = s.regs ctx.thisReg :=
        Function.update_of_ne hne _ _
      rw [Context.place, Context.place, hthis]

theorem ne_register {l : Location} {r : Reg} (hr : ctx.temps ≤ r)
    (hl : Visible ctx.toContext l) : l ≠ .register r := by
  rintro rfl
  exact absurd hl (Nat.not_lt.mpr hr)

theorem read_setReg_visible {s : State} {l : Location} {r : Reg} (hr : ctx.temps ≤ r)
    (hl : Visible ctx.toContext l) (value : Val) : read (s.setReg r value) l = read s l := by
  rw [read_setReg, if_neg (ne_register hr hl)]

/-- The cast to a plain name. -/
theorem casts_name (htable : ClassTable ctx.classes n) {src : E} {next : Reg}
    (hnext : ctx.temps ≤ next) {s₀ s : State} (hrun : (ctx.genExpr src next).run s₀ = some s)
    (hreg : (ctx.genExpr src next).reg < (ctx.genExpr src next).next)
    (hname : IsName dst) (hclass : declaredClass ctx dst = some target) {place : Location}
    {obj : Val}
    (hplace : denotedBase ctx.toContext dst s obj = some (.at place))
    (halloc : Allocated s.heap place)
    (hvalue : Handle n s.heap (s.regs (ctx.genExpr src next).reg)) :
    ∃ code result t, genCast ctx dst src next = some (code, result) ∧
      runCast ctx n s₀ code = some t ∧
      CastsTo ctx s t result (s.regs (ctx.genExpr src next).reg) place target := by
  have hsuccess : ctx.temps ≤ (ctx.genExpr src next).next :=
    Nat.le_trans hnext (ctx.fresh src next hnext).next
  have hvisible : Visible ctx.toContext place := Blocking.visible_of_denotedBase hplace
  obtain ⟨htry, scope, w, hbase, hwrite⟩ := tryClassOf_name hname hclass
  have hwhere : ctx.place s (.variable scope w) = some place := by
    rw [denotedBase, hname.1, hname.2.1, Option.map_eq_some_iff] at hplace
    obtain ⟨d, hd, hplace⟩ := hplace
    cases hbase.symm.trans hd
    exact Blocking.baseOf_at hplace
  obtain ⟨b, hb, hcastable⟩ := castSucceeds_iff htable hvalue target
  generalize hvalue' : s.regs (ctx.genExpr src next).reg = value at *
  generalize hp : ctx.genExpr src next = p at *
  -- the state after the class test
  have htest : (CastStep.classCast p.next p.reg target).run ctx n s =
      some (s.setReg p.next (.logic (.fromBool b))) := by
    rw [CastStep.run, hvalue', hb]
    rfl
  have hsrc : (s.setReg p.next (.logic (.fromBool b))).regs p.reg = value := by
    rw [← hvalue']
    exact Function.update_of_ne (Nat.ne_of_lt hreg) _ _
  obtain ⟨assign, t, hassign, hrunAssign, hread⟩ :=
    runs_assign hsrc hvalue ((place_setReg hsuccess _).trans hwhere) halloc
  have hgen : ctx.genAssign dst.name p.reg = some assign := by
    rw [Context.genAssign, hwrite, Option.bind_some, hassign]
  have hcode : genCast ctx dst src next = some ([.step (.piece p), .classCast p.next p.reg target,
      .guarded p.next assign], p.next) := by
    rw [genCast, hname.1, hname.2.1, hname.2.2, htry]
    dsimp only
    rw [hp, hgen]
    rfl
  have hguard : truthy ((s.setReg p.next (.logic (.fromBool b))).regs p.next) = b := by
    have hregs : (s.setReg p.next (.logic (.fromBool b))).regs p.next = .logic (.fromBool b) :=
      Function.update_self _ _ _
    rw [hregs]
    exact PackedVec.isTrue_fromBool b
  have hstart : runCast ctx n s₀ [.step (.piece p), .classCast p.next p.reg target,
      .guarded p.next assign] =
      if b then runCode (s.setReg p.next (.logic (.fromBool b))) assign
      else some (s.setReg p.next (.logic (.fromBool b))) := by
    show (p.run s₀).bind _ = _
    rw [hrun, Option.bind_some, runCast, htest, Option.bind_some, runCast, CastStep.run, hguard]
    cases b with
    | true => cases runCode (s.setReg p.next (.logic (.fromBool true))) assign <;> rfl
    | false => rfl
  cases b with
  | true =>
    have hcast := hcastable.mp rfl
    refine ⟨_, _, t, hcode, hstart.trans hrunAssign, .inl ⟨?_, hcast⟩, fun _ => ?_,
      fun hnot => absurd hcast hnot, fun l hl hvis hall => ?_⟩
    · have hresult := hread (.register p.next) trivial
      have hne := ne_register hsuccess hvisible
      rw [if_neg fun heq => hne heq.symm, read_setReg, if_pos rfl] at hresult
      exact hresult
    · rw [hread place halloc, if_pos rfl]
    · rw [hread l hall, if_neg hl, read_setReg_visible hsuccess hvis]
  | false =>
    have hcast : ¬ Castable ctx s.heap value target := fun h => Bool.noConfusion (hcastable.mpr h)
    refine ⟨_, _, _, hcode, hstart, .inr ⟨Function.update_self _ _ _, hcast⟩,
      fun h => absurd h hcast, fun _ => read_setReg_visible hsuccess hvisible _,
      fun l _ hvis _ => read_setReg_visible hsuccess hvis _⟩

/-- The cast to any other destination assigns nothing. -/
theorem genCast_other {src : E} {next : Reg} (hname : ¬ IsName dst) :
    genCast ctx dst src next = some ([.step (.piece (ctx.genExpr src next)),
      .step (.inst (.loadConst (ctx.genExpr src next).next (.logic (.fromBool false))))],
      (ctx.genExpr src next).next) := by
  unfold genCast
  cases hscope : dst.scope with
  | some scope => rfl
  | none =>
    cases hreceiver : dst.receiver with
    | some receiver => rfl
    | none =>
      cases hindex : dst.index with
      | some index => rfl
      | none => exact absurd ⟨hscope, hreceiver, hindex⟩ hname

/-- A dynamic cast does what it is meant to do if the destination is a plain name: a local variable,
a field of this object, a static variable or a package variable. To a field of an object or to a
variable of a class or package that is named, it only does so where it has to fail. -/
theorem dynamic_cast_iff (htable : ClassTable ctx.classes n) {src : E} {next : Reg}
    (hnext : ctx.temps ≤ next) {s₀ s : State} (hrun : (ctx.genExpr src next).run s₀ = some s)
    (hreg : (ctx.genExpr src next).reg < (ctx.genExpr src next).next)
    (hclass : declaredClass ctx dst = some target) {place : Location} {obj : Val}
    (hplace : denotedBase ctx.toContext dst s obj = some (.at place))
    (halloc : Allocated s.heap place)
    (hvalue : Handle n s.heap (s.regs (ctx.genExpr src next).reg)) :
    (∃ code result t, genCast ctx dst src next = some (code, result) ∧
      runCast ctx n s₀ code = some t ∧
      CastsTo ctx s t result (s.regs (ctx.genExpr src next).reg) place target) ↔
    (IsName dst ∨ ¬ Castable ctx s.heap (s.regs (ctx.genExpr src next).reg) target) := by
  have hsuccess : ctx.temps ≤ (ctx.genExpr src next).next :=
    Nat.le_trans hnext (ctx.fresh src next hnext).next
  by_cases hname : IsName dst
  · exact iff_of_true (casts_name htable hnext hrun hreg hname hclass hplace halloc hvalue)
      (.inl hname)
  have hrunCast : runCast ctx n s₀ [.step (.piece (ctx.genExpr src next)),
      .step (.inst (.loadConst (ctx.genExpr src next).next (.logic (.fromBool false))))] =
      some (s.setReg (ctx.genExpr src next).next (.logic (.fromBool false))) := by
    show ((ctx.genExpr src next).run s₀).bind _ = _
    rw [hrun]
    rfl
  constructor
  · rintro ⟨code, result, t, hcode, ht, hcasts⟩
    cases (genCast_other hname).symm.trans hcode
    cases hrunCast.symm.trans ht
    rcases hcasts.returns with ⟨hresult, -⟩ | ⟨-, hnot⟩
    · have hval : Val.logic (.fromBool false) = .logic (.fromBool true) :=
        (Function.update_self _ _ _).symm.trans hresult
      exact absurd (Val.logic.inj hval) (by decide)
    · exact .inr hnot
  · rintro (hname' | hnot)
    · exact absurd hname' hname
    · have hvisible : Visible ctx.toContext place := Blocking.visible_of_denotedBase hplace
      exact ⟨_, _, _, genCast_other hname, hrunCast, .inr ⟨Function.update_self _ _ _, hnot⟩,
        fun h => absurd h hnot, fun _ => read_setReg_visible hsuccess hvisible _,
        fun l _ hvis _ => read_setReg_visible hsuccess hvis _⟩

end

/-! ### A cast in a class with a field of its own type -/

/-- A method of a class with the one field `node next` and with a local variable `node other`. -/
def nodeEnv : Env where
  locals := [⟨"other", 1, 0, false, false, false, none, some 0, none, false⟩]
  fields := [⟨"next", 0, 0, false, false, false, none, some 0, none, false⟩]
  statics := []
  packageVars := .empty
  consts := .empty
  methods := []
  functions := []
  signals := []
  classStatics := .empty
  distinct := List.nodup_nil

def nodeClasses (c : ClassId) : Option ClassInfo :=
  if c = 0 then
    some { ClassInfo.empty with
      fieldSlot := fun name => if name = "next" then some (0, 0) else none
      fieldClass := fun name => if name = "next" then some 0 else none }
  else none

theorem nodeTable : ClassTable nodeClasses 1 := by
  have hbase : ∀ c b, ¬ BaseOf nodeClasses c b := by
    rintro c b ⟨info, hinfo, hb⟩
    unfold nodeClasses at hinfo
    split_ifs at hinfo
    cases hinfo
    cases hb
  refine ⟨fun c hc => ?_, fun c b hb => absurd hb (hbase c b), fun c hcycle => ?_⟩
  · rw [Nat.lt_one_iff.mp hc]
    rfl
  · obtain ⟨b, hb, -⟩ := Relation.TransGen.head'_iff.mp hcycle
    exact hbase c b hb

/-- The local variable is the only expression. -/
def otherPiece (start : Reg) : Piece := ⟨some, 1, start⟩

theorem otherPiece_fresh (temps start : Reg) : (otherPiece start).Fresh temps start := by
  refine ⟨Nat.le_refl start, fun s t hrun r _ _ => ?_⟩
  cases hrun
  rfl

def nodeContext : CallContext Unit where
  env := nodeEnv
  thisReg := 0
  classes := nodeClasses
  receiverClass _ := some 0
  genExpr _ := otherPiece
  genMethodOnThis _ := otherPiece
  genAssignmentRhs _ _ := otherPiece
  genConstruct _ _ := otherPiece
  temps := 2
  this_lt := Nat.two_pos
  locals_lt := by decide
  fresh _ start _ := otherPiece_fresh 2 start
  fresh_this _ start _ := otherPiece_fresh 2 start
  fresh_rhs _ _ start _ := otherPiece_fresh 2 start
  fresh_construct _ _ start _ := otherPiece_fresh 2 start
  funcs := .empty
  classCtx := some 0
  resolveClass := .empty

/-- An object that is its own next one, and no other. -/
def nodeState : State where
  regs := fun r => if r = 0 then .obj 0 else .null
  statics := fun _ => .null
  nets := fun _ => .zero 1
  heap := ⟨[⟨0, [.obj 0]⟩], [], []⟩

theorem nodeState_allocated : Allocated nodeState.heap (.field 0 0) :=
  ⟨⟨0, [.obj 0]⟩, rfl, by decide⟩

/-- `$cast(next, other)`. -/
theorem dynamic_cast_next : ∃ code result t,
    genCast nodeContext ⟨"next", none, none, none⟩ () 2 = some (code, result) ∧
    runCast nodeContext 1 nodeState code = some t ∧
    CastsTo nodeContext nodeState t result .null (.field 0 0) 0 := by
  have hclass : declaredClass nodeContext ⟨"next", none, none, none⟩ = some 0 := rfl
  have hplace : denotedBase nodeContext.toContext ⟨"next", none, none, none⟩ nodeState .null =
      some (.at (.field 0 0)) := rfl
  have hrun : (nodeContext.genExpr () 2).run nodeState = some nodeState := rfl
  exact (dynamic_cast_iff nodeTable (Nat.le_refl 2) hrun (by decide) hclass hplace
    nodeState_allocated (.inl rfl)).mpr (.inl ⟨rfl, rfl, rfl⟩)

/-- `$cast(this.next, other)` returns 0 and assigns nothing, with null as the source. -/
theorem cast_to_member_fails :
    declaredClass nodeContext ⟨"next", some (), none, none⟩ = some 0 ∧
    denotedBase nodeContext.toContext ⟨"next", some (), none, none⟩ nodeState (.obj 0) =
      some (.at (.field 0 0)) ∧
    Castable nodeContext nodeState.heap (nodeState.regs 1) 0 ∧
    ∃ code t, genCast nodeContext ⟨"next", some (), none, none⟩ () 2 = some (code, 2) ∧
      runCast nodeContext 1 nodeState code = some t ∧ t.regs 2 = .logic (.fromBool false) ∧
      read t (.field 0 0) ≠ nodeState.regs 1 := by
  refine ⟨rfl, rfl, .inl rfl, _, nodeState.setReg 2 (.logic (.fromBool false)), rfl, rfl, ?_, ?_⟩
  · exact Function.update_self 2 _ nodeState.regs
  · decide

end Eevee.Elab.Casts
