/- When all lookups of a use of a name agree and what is assigned to it is read back. -/

import Mathlib.Data.List.Basic
import Eevee.Elab.Selection
import Eevee.Elab.Targets

set_option autoImplicit false
set_option relaxedAutoImplicit false

namespace Eevee.Elab.Resolution

open Eevee.Core.Logic
open Eevee.Lib.Tables
open Eevee.Ir.Objects
open Eevee.Ir.Locations
open Eevee.Classes.Declarations
open Eevee.Elab.Names
open Eevee.Elab.Targets

/-! ### Calls and scoped references -/

/-- The functions that may share the name of a called one. -/
structure CallApart (env : Env) (name : String) : Prop where
  /-- The method that is called has the result of any other method of the name. -/
  integral : ∀ m, env.methods.find? (·.name = name) = some m → ∀ other ∈ env.methods,
    other.name = name → other.retIntegral.isSome = true → m.retIntegral.isSome = true
  handle : ∀ m, env.methods.find? (·.name = name) = some m → ∀ other ∈ env.methods,
    other.name = name → other.retClass.isSome = true → m.retClass.isSome = true
  /-- Only the function that is called has an integral result. -/
  functions : env.methods.find? (·.name = name) = none → ∀ f,
    env.functions.find? (·.name = name) = some f → ∀ other ∈ env.functions,
      other.name = name → other.retIntegral.isSome = true → other = f

/-- What may share the name of a static field that is reached by its class. -/
structure MemberApart (env : Env) (name className : String) : Prop where
  outside : env.scopedStatic name className (fun _ => true) ≠ none →
    env.packageVars name = none ∧ env.consts name = none
  unsized : ∀ statics, env.classStatics className = some statics → ∀ v,
    statics.find? (·.name = name) = some v → ∀ other ∈ statics,
      other.name = name → Env.unsized .static other = true → Env.unsized .static v = true

theorem map_selects {α : Type} {f : α → Decl} (hf : ∀ a b, f a = f b → a = b) {o : Option α}
    {a : α} : (o.map f = none ∨ o.map f = some (f a)) ↔ (o = none ∨ o = some a) := by
  cases o with
  | none => simp
  | some b => simpa using ⟨fun h => hf b a h, fun h => congrArg f h⟩

variable {env : Env} {name className : String}

theorem methodOfCtx_of_some {m : Method} (h : env.methods.find? (·.name = name) = some m) :
    env.methodOfCtx name = some (.method m) := by
  rw [Env.methodOfCtx, h]
  rfl

theorem methodOfCtx_of_none (h : env.methods.find? (·.name = name) = none) :
    env.methodOfCtx name = none := by
  rw [Env.methodOfCtx, h]
  rfl

/-- A search among the methods of a name finds nothing or the one that is called. -/
theorem method_selects {m : Method} (h : env.methods.find? (·.name = name) = some m)
    (records : Method → Bool) :
    let found := (env.methods.find? fun m => m.name = name ∧ records m).map Decl.method
    (found = none ∨ found = some (.method m)) ↔
      ∀ other ∈ env.methods, other.name = name → records other = true → records m = true := by
  intro found
  have hname : m.name = name := by simpa using List.find?_some h
  rw [map_selects (fun a b hab => by cases hab; rfl), find?_narrow_iff (by simp +contextual) h]
  simp [hname]

theorem call_agree_of_method {m : Method} (h : env.methods.find? (·.name = name) = some m) :
    SameDeclaration (env.callSelections name) ↔ CallApart env name := by
  have hmethod := methodOfCtx_of_some h
  have hcallee : env.callee name = some (.method m) := by rw [Env.callee, hmethod, Option.some_or]
  have hint := method_selects h (·.retIntegral.isSome)
  have hcls := method_selects h (·.retClass.isSome)
  simp only [SameDeclaration, Env.callSelections, Env.callType, Env.callClass, hcallee, hmethod,
    Option.isSome_some, if_true, List.mem_cons, List.not_mem_nil, or_false, forall_eq_or_imp,
    forall_eq]
  constructor
  · rintro ⟨d, hd, htype, hclass⟩
    cases hd.resolve_left (by simp)
    refine ⟨fun m' hm' => ?_, fun m' hm' => ?_, fun hnone => ?_⟩
    · cases h.symm.trans hm'
      exact hint.mp htype
    · cases h.symm.trans hm'
      exact hcls.mp hclass
    · rw [h] at hnone
      cases hnone
  · intro hapart
    exact ⟨.method m, .inr rfl, hint.mpr (hapart.integral m h), hcls.mpr (hapart.handle m h)⟩

theorem call_agree_of_function (h : env.methods.find? (·.name = name) = none) :
    SameDeclaration (env.callSelections name) ↔ CallApart env name := by
  have hmethod := methodOfCtx_of_none h
  have hcallee : env.callee name = env.functionNamed name := by
    rw [Env.callee, hmethod, Option.none_or]
  simp only [SameDeclaration, Env.callSelections, Env.callType, Env.callClass, hcallee, hmethod,
    Option.isSome_none, Bool.false_eq_true, if_false, List.mem_cons, List.not_mem_nil, or_false,
    forall_eq_or_imp, forall_eq, true_or, and_true]
  cases hf : env.functions.find? (·.name = name) with
  | none =>
    have hnone : env.integralFunction name = none := by
      rw [Env.integralFunction, Option.map_eq_none_iff, List.find?_eq_none]
      intro f hmem hfun
      have hother := List.find?_eq_none.mp hf f (List.mem_reverse.mp hmem)
      simp_all
    refine ⟨fun _ => ⟨fun m hm => ?_, fun m hm => ?_, fun _ f hf' => ?_⟩,
      fun _ => ⟨.this, .inl ?_, .inl hnone⟩⟩
    · rw [h] at hm
      cases hm
    · rw [h] at hm
      cases hm
    · rw [hf] at hf'
      cases hf'
    · rw [Env.functionNamed, hf]
      rfl
  | some f =>
    have hname : f.name = name := by simpa using List.find?_some hf
    have hnamed : env.functionNamed name = some (.function f) := by
      rw [Env.functionNamed, hf]
      rfl
    have hint : (env.integralFunction name = none ∨
        env.integralFunction name = some (.function f)) ↔ ∀ other ∈ env.functions,
          other.name = name → other.retIntegral.isSome = true → other = f := by
      rw [Env.integralFunction, map_selects (fun a b hab => by cases hab; rfl),
        find?_reverse_narrow_iff env.distinct (by simp +contextual) hf]
      simp
    rw [hnamed]
    constructor
    · rintro ⟨d, hd, htype⟩
      cases hd.resolve_left (by simp)
      refine ⟨fun m hm => ?_, fun m hm => ?_, fun _ f' hf' => ?_⟩
      · rw [h] at hm
        cases hm
      · rw [h] at hm
        cases hm
      · cases hf.symm.trans hf'
        exact hint.mp htype
    · intro hapart
      exact ⟨.function f, .inr rfl, hint.mpr (hapart.functions h f hf)⟩

/-- The lookups of a called name agree exactly when its functions stand apart. -/
theorem call_agree_iff : SameDeclaration (env.callSelections name) ↔ CallApart env name := by
  cases h : env.methods.find? (·.name = name) with
  | some m => exact call_agree_of_method h
  | none => exact call_agree_of_function h

theorem scopedStatic_of_some {statics : List Variable} {v : Variable}
    (hclass : env.classStatics className = some statics)
    (hv : statics.find? (·.name = name) = some v) :
    env.scopedStatic name className (fun _ => true) = some (.variable .static v) := by
  rw [Env.scopedStatic, hclass, Option.bind_some]
  simp [hv]

theorem member_agree_of_static {statics : List Variable} {v : Variable}
    (hclass : env.classStatics className = some statics)
    (hv : statics.find? (·.name = name) = some v) :
    SameDeclaration (env.scopedSelections name className) ↔ MemberApart env name className := by
  have hstatic := scopedStatic_of_some hclass hv
  have hname : v.name = name := by simpa using List.find?_some hv
  have hunsized : (env.scopedStatic name className (Env.unsized .static) = none ∨
      env.scopedStatic name className (Env.unsized .static) = some (.variable .static v)) ↔
        ∀ other ∈ statics, other.name = name → Env.unsized .static other = true →
          Env.unsized .static v = true := by
    rw [Env.scopedStatic, hclass, Option.bind_some,
      map_selects (fun a b hab => by cases hab; rfl), find?_narrow_iff (by simp +contextual) hv]
    simp [hname]
  have hlvalue : (env.scopedLvalueWidth name className = none ∨
      env.scopedLvalueWidth name className = some (.variable .static v)) ↔
        (env.scopedStatic name className (Env.unsized .static) = none ∨
          env.scopedStatic name className (Env.unsized .static) = some (.variable .static v)) := by
    rw [Env.scopedLvalueWidth, Env.scopedWrite, hstatic]
    cases env.scopedStatic name className (Env.unsized .static) <;> simp
  have hwidth : env.scopedWidth name className = none ∨
      env.scopedWidth name className = some (.variable .static v) := by
    rw [Env.scopedWidth, hstatic]
    split
    · exact .inl rfl
    · exact .inr rfl
  simp only [SameDeclaration, Env.scopedSelections, List.mem_cons, List.not_mem_nil, or_false,
    forall_eq_or_imp, forall_eq]
  constructor
  · rintro ⟨d, hvalue, -, hsigned, -, hl⟩
    rw [Env.scopedSignedness, hstatic] at hsigned
    cases hsigned.resolve_left (by simp)
    refine ⟨fun _ => ?_, fun statics' hclass' v' hv' => ?_⟩
    · rw [Env.scopedValue] at hvalue
      have hpackage : env.packageVars name = none := by
        cases hp : env.packageVars name with
        | none => rfl
        | some w =>
          have hfound : env.found name .package (fun _ => true) =
              some (.variable .package w) := by
            rw [Env.found, Env.named, hp]
            rfl
          rw [hfound, Option.some_or] at hvalue
          cases hvalue.resolve_left (by simp)
      refine ⟨hpackage, ?_⟩
      cases hc : env.consts name with
      | none => rfl
      | some c =>
        have hfound : env.found name .package (fun _ => true) = none := by
          rw [Env.found, Env.named, hpackage]
          rfl
        rw [hfound, Option.none_or, Env.const, hc, Option.map_some, Option.some_or] at hvalue
        cases hvalue.resolve_left (by simp)
    · cases hclass.symm.trans hclass'
      cases hv.symm.trans hv'
      exact hunsized.mp (hlvalue.mp hl)
  · intro hapart
    obtain ⟨hpackage, hconst⟩ := hapart.outside (by rw [hstatic]; simp)
    have hvalue : env.scopedValue name className = some (.variable .static v) := by
      rw [Env.scopedValue, Env.found, Env.named, hpackage, Env.const, hconst, hstatic]
      rfl
    exact ⟨.variable .static v, .inr hvalue, hwidth, .inr hstatic, .inr hstatic,
      hlvalue.mpr (hunsized.mpr (hapart.unsized statics hclass v hv))⟩

theorem scopedStatic_of_none {records : Variable → Bool}
    (h : env.scopedStatic name className (fun _ => true) = none) :
    env.scopedStatic name className records = none := by
  rw [Env.scopedStatic] at h ⊢
  cases hclass : env.classStatics className with
  | none => rfl
  | some statics =>
    rw [hclass, Option.bind_some, Option.map_eq_none_iff, List.find?_eq_none] at h
    rw [Option.bind_some, Option.map_eq_none_iff, List.find?_eq_none]
    intro v hmem hv
    exact h v hmem (by simpa using (of_decide_eq_true hv).1)

/-- The lookups of a scoped name agree exactly when nothing hides the static field. -/
theorem member_agree_iff :
    SameDeclaration (env.scopedSelections name className) ↔ MemberApart env name className := by
  cases hstatic : env.scopedStatic name className fun _ => true with
  | some d =>
    have hstatic' := hstatic
    rw [Env.scopedStatic, Option.bind_eq_some_iff] at hstatic'
    obtain ⟨statics, hclass, hfind⟩ := hstatic'
    rw [Option.map_eq_some_iff] at hfind
    obtain ⟨v, hv, -⟩ := hfind
    exact member_agree_of_static hclass (by simpa using hv)
  | none =>
    have hwidth : env.scopedWidth name className = none := by
      rw [Env.scopedWidth, hstatic]
      split <;> rfl
    have hlvalue : env.scopedLvalueWidth name className = none := by
      rw [Env.scopedLvalueWidth, Env.scopedWrite, hstatic, scopedStatic_of_none hstatic]
      rfl
    refine ⟨fun _ => ⟨fun hsome => absurd hstatic hsome, fun statics hclass v hv => ?_⟩,
      fun _ => ⟨(env.scopedValue name className).getD .this, ?_⟩⟩
    · rw [scopedStatic_of_some hclass hv] at hstatic
      cases hstatic
    · simp only [Env.scopedSelections, List.mem_cons, List.not_mem_nil, or_false,
        forall_eq_or_imp, forall_eq]
      refine ⟨?_, .inl hwidth, .inl hstatic, .inl hstatic, .inl hlvalue⟩
      cases env.scopedValue name className <;> simp

/-! ### Reading back -/

/-- The declarations that hold a vector. -/
def Packed : Decl → Prop
  | .variable _ v => v.coll = none ∧ v.cls = none ∧ v.isString = false ∧ v.isEvent = false
  | .signal _ => True
  | _ => False

/-- The width of a variable or net. -/
def declaredWidth : Decl → Option Nat
  | .variable _ v => some v.width
  | .signal s =>
    match s.kind with
    | .net _ width => some width
    | .memory _ _ _ _ => none
  | _ => none

/-- What an assignment to a use writes. -/
def target (env : Env) : Use → Option Decl
  | .simple name => env.wholeWrite name
  | .call _ => none
  | .member className name => env.scopedWrite name className

section

variable {E : Type}

def lvalue (index : Option E) : Use → Option (Lvalue E)
  | .simple name => some ⟨name, none, index, none⟩
  | .call _ => none
  | .member className name => some ⟨name, none, index, some className⟩

def readUse (ctx : Context E) (next : Reg) : Use → Option Generated
  | .simple name => ctx.genRef name next
  | .call _ => none
  | .member className name => ctx.genStaticRef className name next

/-- An index without side effects, which has a value in a state whatever the temporaries hold. -/
def Evaluates (ctx : Context E) (e : E) (s : State) (index : PackedVec) : Prop :=
  ∀ (start : Reg) (s' : State), ctx.temps ≤ start → s'.statics = s.statics → s'.nets = s.nets →
    s'.heap = s.heap → (∀ r < ctx.temps, s'.regs r = s.regs r) →
    ∃ t, (ctx.genExpr e start).run s' = some t ∧
      t.regs (ctx.genExpr e start).reg = .logic index ∧ t.statics = s'.statics ∧
      t.nets = s'.nets ∧ t.heap = s'.heap ∧ ∀ r < start, t.regs r = s'.regs r

end

/-- A whole assignment to the use followed by a read gives the copy that was assigned. -/
def WholeReadsBack (env : Env) (use : Use) : Prop :=
  ∀ (E : Type) (ctx : Context E), ctx.env = env →
    ∀ (d : Decl) (lhs : Lvalue E) (s : State) (h : Heap) (v : Val) (l : Location) (src next : Reg),
      ctx.temps ≤ next → target env use = some d → lvalue none use = some lhs →
      ctx.place s d = some l → Allocated s.heap l → (Packed d → ∃ b, s.regs src = .logic b) →
      assignmentCopy s.heap (s.regs src) = some (h, v) →
      ∃ write t g u, ctx.genAssignLvalue lhs src next = some write ∧ runCode s write = some t ∧
        readUse ctx next use = some g ∧ runCode t g.code = some u ∧ u.regs g.reg = v

/-- An assignment to a bit of a vector followed by a read gives the vector with this bit. -/
def BitReadsBack (env : Env) (use : Use) : Prop :=
  ∀ (E : Type) (ctx : Context E), ctx.env = env →
    ∀ (d : Decl) (lhs : Lvalue E) (s : State) (e : E) (old index bits : PackedVec) (l : Location)
      (src next : Reg),
      ctx.temps ≤ next → src < next → target env use = some d → Packed d →
      lvalue (some e) use = some lhs → ctx.place s d = some l → Allocated s.heap l →
      read s l = .logic old → declaredWidth d = some old.width → Evaluates ctx e s index →
      index.isKnown = true → index.toU64 < old.width → s.regs src = .logic bits →
      ∃ write t g u, ctx.genAssignLvalue lhs src next = some write ∧ runCode s write = some t ∧
        readUse ctx next use = some g ∧ runCode t g.code = some u ∧
        u.regs g.reg = .logic (old.setBit index.toU64 (bits.getBit 0))

/-- A vector with bits is a local variable or a net. -/
def InPlace (env : Env) (use : Use) : Prop :=
  ∀ scope v, target env use = some (.variable scope v) → Packed (.variable scope v) →
    0 < v.width → scope = .local

/-- The declarations of the name of a use that may stand beside each other. -/
def DeclaredApart (env : Env) : Use → Prop
  | .simple name => env.Apart name
  | .call name => CallApart env name
  | .member className name => MemberApart env name className

theorem agree_iff (env : Env) (use : Use) :
    SameDeclaration (use.selections env) ↔ DeclaredApart env use := by
  cases use with
  | simple name => exact Env.agree_iff
  | call name => exact call_agree_iff
  | member className name => exact member_agree_iff

/-- What the code generator finds where the declarations of a name stand apart. -/
structure Finds {E : Type} (ctx : Context E) (use : Use) (d : Decl) : Prop where
  write : ∀ (lhs : Lvalue E) (src next : Reg), lvalue none use = some lhs →
    ctx.genAssignLvalue lhs src next = ctx.genWrite src d
  read : ∀ next, readUse ctx next use = ctx.genDecl next d
  /-- A bit of a variable is written to what a read of the variable gives. -/
  bit : ∀ scope v, d = .variable scope v → ∀ (lhs : Lvalue E) (e : E) (src next : Reg),
    lvalue (some e) use = some lhs → ctx.genAssignLvalue lhs src next =
      (ctx.genDecl next d).map fun base => ctx.genIndexSet base e src
  net : ∀ sig, d = .signal sig → ∀ (lhs : Lvalue E) (e : E) (src next : Reg) (id width : Nat),
    sig.kind = .net id width → lvalue (some e) use = some lhs →
    ctx.genAssignLvalue lhs src next = some [.inst (.netRead next id),
      .piece (ctx.genExpr e (next + 1)),
      .inst (.indexSet next (ctx.genExpr e (next + 1)).reg src), .inst (.blockingWrite id next)]

theorem finds_member {E : Type} {ctx : Context E} {className name : String} {d : Decl}
    (hapart : MemberApart ctx.env name className)
    (htarget : target ctx.env (.member className name) = some d) :
    Finds ctx (.member className name) d := by
  have hstatic : ctx.env.scopedStatic name className (fun _ => true) = some d := htarget
  obtain ⟨hpackage, hconst⟩ := hapart.outside (by rw [hstatic]; simp)
  have hread : ∀ next, ctx.genStaticRef className name next = ctx.genDecl next d := by
    intro next
    have hnone : ctx.env.found name .package (fun _ => true) = none := by
      rw [Env.found, Env.named, hpackage]
      rfl
    rw [Context.genStaticRef, hnone, Env.const, hconst, hstatic]
    rfl
  have hvariable : ∀ sig, d ≠ .signal sig := by
    rintro sig rfl
    rw [Env.scopedStatic, Option.bind_eq_some_iff] at hstatic
    obtain ⟨statics, -, hfind⟩ := hstatic
    rw [Option.map_eq_some_iff] at hfind
    obtain ⟨v, -, hv⟩ := hfind
    cases hv
  refine ⟨fun lhs src next hlhs => ?_, hread, fun scope v hd lhs e src next hlhs => ?_,
    fun sig hd => absurd hd (hvariable sig)⟩
  · cases hlhs
    show (ctx.env.scopedWrite name className).bind _ = _
    rw [show ctx.env.scopedWrite name className = some d from htarget, Option.bind_some]
  · cases hlhs
    rw [Context.genAssignLvalue_index rfl, Context.genAssignIndexed_base
      (by rw [Context.indexedSignal, if_neg (by simp)])]
    show (ctx.genStaticRef className name next).map _ = _
    rw [hread]

theorem finds_simple {E : Type} {ctx : Context E} {name : String} {d : Decl}
    (hapart : ctx.env.Apart name) (htarget : target ctx.env (.simple name) = some d) :
    Finds ctx (.simple name) d := by
  have hwrite : ctx.env.wholeWrite name = some d := htarget
  have hfacts : ctx.env.value name = some d ∧ ctx.env.memory name = none ∧
      ((∃ scope v, d = .variable scope v) → ctx.env.net name = none) ∧
      ((∃ sig, d = .signal sig) → ctx.env.net name = some d) := by
    cases hdeclared : ctx.env.declared name with
    | cons first rest =>
      have hsigned : ctx.env.netSigned name = none := by
        by_contra hs
        rw [(hapart.signal hs).2.1] at hdeclared
        cases hdeclared
      obtain ⟨hnet, hmemory⟩ := Env.signals_of_netSigned hsigned
      have hthis : name ≠ "this" := fun hname => by
        rw [hapart.this hname] at hdeclared
        cases hdeclared
      have hany := Env.anyVariable_of_cons hdeclared
      rw [Env.wholeWrite, hany, Option.some_or] at hwrite
      cases hwrite
      refine ⟨?_, hmemory, fun _ => hnet, ?_⟩
      · rw [Env.value, if_neg hthis, hany, Option.some_or]
      · rintro ⟨sig, hd⟩
        cases hd
    | nil =>
      rw [Env.wholeWrite_of_nil hdeclared] at hwrite
      have hmemory : ctx.env.memory name = none :=
        hapart.memory.resolve_right (by rw [hwrite]; simp)
      have hsigned : ctx.env.netSigned name ≠ none := by
        rw [Env.netSigned_of_memory hmemory, hwrite]
        simp
      obtain ⟨hthis, -, hconst, hmethod⟩ := hapart.signal hsigned
      refine ⟨?_, hmemory, ?_, fun _ => hwrite⟩
      · rw [Env.value, if_neg hthis, Env.anyVariable_of_nil hdeclared, hconst, hmethod, hmemory,
          hwrite]
        rfl
      · rintro ⟨scope, v, rfl⟩
        rw [Env.net, Option.map_eq_some_iff] at hwrite
        obtain ⟨sig, -, hsig⟩ := hwrite
        cases hsig
  obtain ⟨hvalue, hmemory, hvariable, hnet⟩ := hfacts
  have hread : ∀ next, ctx.genRef name next = ctx.genDecl next d := by
    intro next
    rw [Context.genRef, hvalue, Option.bind_some]
  refine ⟨fun lhs src next hlhs => ?_, hread, fun scope v hd lhs e src next hlhs => ?_,
    fun sig hd lhs e src next id width hkind hlhs => ?_⟩
  · cases hlhs
    show ctx.genAssign name src = _
    rw [Context.genAssign, hwrite, Option.bind_some]
  · cases hlhs
    have hnone : ctx.indexedSignal ⟨name, none, some e, none⟩ = none := by
      rw [Context.indexedSignal, if_pos (by simp), Env.lvalueIndexWidth, hmemory,
        hvariable ⟨scope, v, hd⟩]
      rfl
    rw [Context.genAssignLvalue_index rfl, Context.genAssignIndexed_base hnone]
    show (ctx.genRef name next).map _ = _
    rw [hread]
  · cases hlhs
    have hsignal : ctx.env.lvalueIndexWidth name = some (.signal sig) := by
      rw [Env.lvalueIndexWidth, hmemory, hnet ⟨sig, hd⟩, hd]
      rfl
    have hkind' : ctx.indexedSignal ⟨name, none, some e, none⟩ = some (.net id width) :=
      (Context.indexedSignal_of_signal rfl rfl hsignal).trans (congrArg some hkind)
    rw [Context.genAssignLvalue_index rfl, Context.genAssignIndexed_net hkind']

theorem exec_getField {s : State} {obj dst slot : Nat} {id : Nat} {v : Val}
    (hobj : s.regs obj = .obj id) (hv : (s.heap.objs[id]?.bind (·.fields[slot]?)) = some v) :
    exec s (.getField dst obj slot) = some (s.setReg dst v) := by
  rw [exec, hobj]
  show (s.heap.objs[id]?.bind _).map _ = _
  rw [hv]
  rfl

/-- What is written to a declaration is read from it. -/
theorem genWrite_reads_back {E : Type} {ctx : Context E} {d : Decl} {s : State} {h : Heap}
    {v : Val} {l : Location} {src : Reg} (next : Reg) (hplace : ctx.place s d = some l)
    (hl : Allocated s.heap l) (hpacked : Packed d → ∃ b, s.regs src = .logic b)
    (hcopy : assignmentCopy s.heap (s.regs src) = some (h, v)) :
    ∃ write t g u, ctx.genWrite src d = some write ∧ runCode s write = some t ∧
      ctx.genDecl next d = some g ∧ runCode t g.code = some u ∧ u.regs g.reg = v := by
  cases d with
  | this | const | method | function => cases hplace
  | signal sig =>
    obtain ⟨id, width, hkind, rfl⟩ := ctx.place_signal hplace
    obtain ⟨b, hb⟩ := hpacked trivial
    rw [hb, assignmentCopy_logic] at hcopy
    cases hcopy
    refine ⟨[.inst (.blockingWrite id src)], s.setNet id b,
      ⟨[.inst (.netRead next id)], next, next + 1⟩, (s.setNet id b).setReg next (.logic b), ?_,
      runCode_inst (updates_blockingWrite (by rw [hb]; rfl)).1 [], ?_, ?_,
      Function.update_self _ _ _⟩
    · rw [Context.genWrite, hkind]
    · rw [Context.genDecl, hkind]
    · refine runCode_inst ?_ []
      rw [exec]
      show some ((s.setNet id b).setReg next (.logic (Function.update s.nets id b id))) = _
      rw [Function.update_self]
  | «variable» scope w =>
    cases scope with
    | «local» =>
      exact ⟨[.inst (.assign w.place src)], _, ⟨[], w.place, next⟩, _, rfl,
        runCode_inst (updates_assign hcopy).1 [], rfl, rfl, Function.update_self _ _ _⟩
    | field =>
      obtain ⟨id, hthis, rfl⟩ := ctx.place_field hplace
      obtain ⟨h', hexec, hset, -⟩ := updates_setField hthis hl hcopy
      have hthis' : (s.setHeap h').regs ctx.thisReg = .obj id := hthis
      exact ⟨[.inst (.setField ctx.thisReg w.place src)], s.setHeap h',
        ⟨[.inst (.getField next ctx.thisReg w.place)], next, next + 1⟩,
        (s.setHeap h').setReg next v, rfl, runCode_inst hexec [], rfl,
        runCode_inst (exec_getField hthis' (field_setField hset)) [], Function.update_self _ _ _⟩
    | static | package =>
      refine ⟨[.inst (.staticSet w.place src)], _,
        ⟨[.inst (.staticGet next w.place)], next, next + 1⟩,
        ((s.setHeap h).setStatic w.place v).setReg next v, rfl,
        runCode_inst (updates_staticSet hcopy).1 [], rfl, runCode_inst ?_ [],
        Function.update_self _ _ _⟩
      rw [exec]
      show some (((s.setHeap h).setStatic w.place v).setReg next
        (Function.update s.statics w.place v w.place)) = _
      rw [Function.update_self]

theorem finds_of_apart {E : Type} {ctx : Context E} {use : Use} {d : Decl}
    (hapart : DeclaredApart ctx.env use) (htarget : target ctx.env use = some d) :
    Finds ctx use d := by
  cases use with
  | simple name => exact finds_simple hapart htarget
  | call name => cases htarget
  | member className name => exact finds_member hapart htarget

theorem whole_of_apart {env : Env} {use : Use} (hapart : DeclaredApart env use) :
    WholeReadsBack env use := by
  intro E ctx henv d lhs s h v l src next _ htarget hlhs hplace hl hpacked hcopy
  subst henv
  have hfinds := finds_of_apart hapart htarget
  rw [hfinds.write lhs src next hlhs, hfinds.read next]
  exact genWrite_reads_back next hplace hl hpacked hcopy

theorem found_scope {env : Env} {name : String} {scope : Scope} {records : Variable → Bool}
    {d : Decl} (h : env.found name scope records = some d) :
    ∃ v ∈ env.named name scope, d = .variable scope v := by
  rw [Env.found, Option.map_eq_some_iff] at h
  obtain ⟨v, hv, rfl⟩ := h
  exact ⟨v, List.mem_of_find?_eq_some hv, rfl⟩

/-- A local variable that is written to is one of the local variables. -/
theorem mem_of_target {env : Env} {use : Use} {v : Variable}
    (h : target env use = some (.variable .local v)) : v ∈ env.locals := by
  cases use with
  | simple name =>
    have hwrite : env.wholeWrite name = some (.variable .local v) := h
    have hnet : ∀ w, env.net name ≠ some (.variable .local w) := by
      intro w hw
      rw [Env.net, Option.map_eq_some_iff] at hw
      obtain ⟨_, -, heq⟩ := hw
      cases heq
    have hfind : env.found name .local (fun _ => true) = some (.variable .local v) := by
      simp only [Env.wholeWrite, Env.anyVariable, Env.chain, Option.or_eq_some_iff] at hwrite
      rcases hwrite with (hlocal | ⟨-, hfield | ⟨-, hstatic | ⟨-, hpackage⟩⟩⟩) | ⟨-, hn⟩
      · exact hlocal
      · obtain ⟨_, -, heq⟩ := found_scope hfield
        cases heq
      · obtain ⟨_, -, heq⟩ := found_scope hstatic
        cases heq
      · obtain ⟨_, -, heq⟩ := found_scope hpackage
        cases heq
      · exact absurd hn (hnet v)
    rw [Env.found, Env.named, kept_find, Option.map_eq_some_iff] at hfind
    obtain ⟨w, hw, heq⟩ := hfind
    cases heq
    exact (List.mem_filter.mp (List.mem_of_find?_eq_some hw)).1
  | call name => cases h
  | member className name =>
    have hstatic : env.scopedStatic name className (fun _ => true) = some (.variable .local v) := h
    rw [Env.scopedStatic, Option.bind_eq_some_iff] at hstatic
    obtain ⟨statics, -, hfind⟩ := hstatic
    rw [Option.map_eq_some_iff] at hfind
    obtain ⟨_, -, heq⟩ := hfind
    cases heq

/-- A bit is set in the register that holds the vector. -/
theorem bit_of_local {E : Type} {ctx : Context E} {use : Use} {v : Variable} {lhs : Lvalue E}
    {s : State} {e : E} {old index bits : PackedVec} {src next : Reg}
    (hfinds : Finds ctx use (.variable .local v)) (hv : v.place < ctx.temps)
    (hnext : ctx.temps ≤ next) (hsrc : src < next) (hlhs : lvalue (some e) use = some lhs)
    (hold : s.regs v.place = .logic old) (hindex : Evaluates ctx e s index)
    (hknown : index.isKnown = true) (hlt : index.toU64 < old.width)
    (hbits : s.regs src = .logic bits) :
    ∃ write t g u, ctx.genAssignLvalue lhs src next = some write ∧ runCode s write = some t ∧
      readUse ctx next use = some g ∧ runCode t g.code = some u ∧
      u.regs g.reg = .logic (old.setBit index.toU64 (bits.getBit 0)) := by
  obtain ⟨s₁, hrun, hidx, -, -, -, hregs⟩ := hindex next s hnext rfl rfl rfl fun _ _ => rfl
  have hbase : s₁.regs v.place = .logic old :=
    (hregs _ (Nat.lt_of_lt_of_le hv hnext)).trans hold
  have hvalue : s₁.regs src = .logic bits := (hregs _ hsrc).trans hbits
  obtain ⟨t, hexec, ht⟩ := updates_setBit hbase hidx ⟨hknown, hlt⟩
    (by rw [hvalue]; exact assignmentCopy_logic _ _) (by rw [hvalue]; rfl)
  rw [hfinds.bit .local v rfl lhs e src next hlhs, hfinds.read next]
  refine ⟨_, t, ⟨[], v.place, next⟩, t, rfl, ?_, rfl, rfl, ?_⟩
  · exact (runCode_piece hrun _).trans (runCode_inst hexec [])
  · rw [ht]
    exact Function.update_self _ _ _

/-- A bit of a net is set in a copy, which is then written back. -/
theorem bit_of_net {E : Type} {ctx : Context E} {use : Use} {sig : Signal} {lhs : Lvalue E}
    {s : State} {e : E} {index bits : PackedVec} {src next id width : Nat}
    (hfinds : Finds ctx use (.signal sig)) (hkind : sig.kind = .net id width)
    (hnext : ctx.temps ≤ next) (hsrc : src < next) (hlhs : lvalue (some e) use = some lhs)
    (hindex : Evaluates ctx e s index) (hknown : index.isKnown = true)
    (hlt : index.toU64 < (s.nets id).width) (hbits : s.regs src = .logic bits) :
    ∃ write t g u, ctx.genAssignLvalue lhs src next = some write ∧ runCode s write = some t ∧
      readUse ctx next use = some g ∧ runCode t g.code = some u ∧
      u.regs g.reg = .logic ((s.nets id).setBit index.toU64 (bits.getBit 0)) := by
  obtain ⟨s₁, hrun, hidx, -, -, -, hregs⟩ := hindex (next + 1)
    (s.setReg next (.logic (s.nets id))) (Nat.le_succ_of_le hnext) rfl rfl rfl
    fun r hr => Function.update_of_ne (Nat.ne_of_lt (Nat.lt_of_lt_of_le hr hnext)) _ _
  have hbase : s₁.regs next = .logic (s.nets id) :=
    (hregs _ (Nat.lt_succ_self _)).trans (Function.update_self _ _ _)
  have hvalue : s₁.regs src = .logic bits := (hregs _ (Nat.lt_succ_of_lt hsrc)).trans
    ((Function.update_of_ne (Nat.ne_of_lt hsrc) _ _).trans hbits)
  obtain ⟨s₂, hexec, hs₂⟩ := updates_setBit hbase hidx ⟨hknown, hlt⟩
    (by rw [hvalue]; exact assignmentCopy_logic _ _) (by rw [hvalue]; rfl)
  have hresult : s₂.regs next =
      .logic ((s.nets id).setBit index.toU64 (bits.getBit 0)) := by
    rw [hs₂]
    exact Function.update_self _ _ _
  have hwrite : exec s₂ (.blockingWrite id next) =
      some (s₂.setNet id ((s.nets id).setBit index.toU64 (bits.getBit 0))) :=
    (updates_blockingWrite (by rw [hresult]; rfl)).1
  rw [hfinds.net sig rfl lhs e src next id width hkind hlhs, hfinds.read next, Context.genDecl,
    hkind]
  refine ⟨_, s₂.setNet id ((s.nets id).setBit index.toU64 (bits.getBit 0)),
    ⟨[.inst (.netRead next id)], next, next + 1⟩, _, rfl, ?_, rfl, runCode_inst rfl [], ?_⟩
  · refine (runCode_inst rfl _).trans ((runCode_piece hrun _).trans ?_)
    exact (runCode_inst hexec _).trans (runCode_inst hwrite [])
  · exact (Function.update_self _ _ _).trans (congrArg Val.logic (Function.update_self _ _ _))

/-- Bits are read back where the declarations of the name stand apart and are in place. -/
theorem bit_of_inPlace {env : Env} {use : Use} (hapart : DeclaredApart env use)
    (hplace : InPlace env use) : BitReadsBack env use := by
  intro E ctx henv d lhs s e old index bits l src next hnext hsrc htarget hpacked hlhs hl _ hold
    hwidth hindex hknown hlt hbits
  subst henv
  have hfinds := finds_of_apart hapart htarget
  cases d with
  | this | const | method | function => cases hpacked
  | signal sig =>
    obtain ⟨id, width, hkind, rfl⟩ := ctx.place_signal hl
    cases hold
    exact bit_of_net hfinds hkind hnext hsrc hlhs hindex hknown hlt hbits
  | «variable» scope v =>
    have hwidth' : v.width = old.width := Option.some.inj hwidth
    cases hplace scope v htarget hpacked (hwidth' ▸ Nat.lt_of_le_of_lt (Nat.zero_le _) hlt)
    cases hl
    exact bit_of_local hfinds (ctx.locals_lt v (mem_of_target htarget)) hnext hsrc hlhs hold
      hindex hknown hlt hbits

/-! ### Bits that are lost -/

/-- A variable outside the registers is read into a temporary. -/
theorem genDecl_remote {E : Type} {ctx : Context E} {scope : Scope} {v : Variable} {s : State}
    {l : Location} (next : Reg) (hscope : scope ≠ .local)
    (hplace : ctx.place s (.variable scope v) = some l) (hl : Allocated s.heap l) :
    ∃ i, ctx.genDecl next (.variable scope v) = some ⟨[.inst i], next, next + 1⟩ ∧
      exec s i = some (s.setReg next (read s l)) := by
  cases scope with
  | «local» => exact absurd rfl hscope
  | field =>
    obtain ⟨id, hthis, rfl⟩ := ctx.place_field hplace
    obtain ⟨data, hdata, hslot⟩ := hl
    have hvalue : (s.heap.objs[id]?.bind (·.fields[v.place]?)) = some data.fields[v.place] := by
      rw [hdata, Option.bind_some, List.getElem?_eq_getElem hslot]
    refine ⟨_, rfl, ?_⟩
    rw [exec_getField hthis hvalue]
    show _ = some (s.setReg next ((s.heap.objs[id]?.bind (·.fields[v.place]?)).getD .null))
    rw [hvalue]
    rfl
  | static | package =>
    cases hplace
    exact ⟨_, rfl, rfl⟩

/-- An expression that is a known bit. -/
def constPiece (start : Reg) : Piece :=
  ⟨fun s => some (s.setReg start (.logic (.zero 1))), start, start + 1⟩

theorem constPiece_fresh (temps start : Reg) : (constPiece start).Fresh temps start := by
  refine ⟨Nat.le_succ start, fun s t hrun r _ hr => ?_⟩
  cases hrun
  exact Function.update_of_ne (Nat.ne_of_lt hr) _ _

/-- A context with constants as its only expressions. -/
def constContext (env : Env) (temps : Reg) (hpos : 0 < temps)
    (hlocals : ∀ v ∈ env.locals, v.place < temps) : Context Unit where
  env := env
  thisReg := 0
  classes := fun _ => none
  receiverClass := fun _ => none
  genExpr := fun _ => constPiece
  genMethodOnThis := fun _ => constPiece
  genAssignmentRhs := fun _ _ => constPiece
  genConstruct := fun _ _ => constPiece
  temps := temps
  this_lt := hpos
  locals_lt := hlocals
  fresh := fun _ start _ => constPiece_fresh temps start
  fresh_this := fun _ start _ => constPiece_fresh temps start
  fresh_rhs := fun _ _ start _ => constPiece_fresh temps start
  fresh_construct := fun _ _ start _ => constPiece_fresh temps start

/-- A state with an object in the first register and vectors without ones everywhere else. -/
def zeroState (width slots : Nat) : State where
  regs := fun r => if r = 0 then .obj 0 else .logic (.ones 1)
  statics := fun _ => .logic (.zero width)
  nets := fun _ => .zero width
  heap := ⟨[⟨0, List.replicate slots (.logic (.zero width))⟩], [], []⟩

theorem exists_bound (l : List Variable) : ∃ n, 0 < n ∧ ∀ v ∈ l, v.place < n := by
  induction l with
  | nil => exact ⟨1, Nat.one_pos, by simp⟩
  | cons w ws ih =>
    obtain ⟨n, hn, hws⟩ := ih
    refine ⟨n + w.place + 1, Nat.succ_pos _, fun v hv => ?_⟩
    rcases List.mem_cons.mp hv with rfl | hv
    · omega
    · have := hws v hv
      omega

theorem place_zeroState {env : Env} {temps : Reg} {hpos : 0 < temps}
    {hlocals : ∀ v ∈ env.locals, v.place < temps} {scope : Scope} {v : Variable}
    (hscope : scope ≠ .local) (width : Nat) :
    ∃ l, (constContext env temps hpos hlocals).place (zeroState width (v.place + 1))
        (.variable scope v) = some l ∧
      Allocated (zeroState width (v.place + 1)).heap l ∧
      read (zeroState width (v.place + 1)) l = .logic (.zero width) := by
  cases scope with
  | «local» => exact absurd rfl hscope
  | field =>
    refine ⟨.field 0 v.place, rfl, ⟨_, rfl, ?_⟩, ?_⟩
    · simp
    · show ((List.replicate (v.place + 1) (Val.logic (.zero width)))[v.place]?).getD .null = _
      simp
  | static | package => exact ⟨.static v.place, rfl, trivial, rfl⟩

/-- Variables outside the registers are where they were after the registers have changed. -/
theorem remote_same {E : Type} {ctx : Context E} {scope : Scope} {v : Variable} {s t : State}
    {l : Location} (hscope : scope ≠ .local) (hplace : ctx.place s (.variable scope v) = some l)
    (hthis : t.regs ctx.thisReg = s.regs ctx.thisReg) (hstatics : t.statics = s.statics)
    (hheap : t.heap = s.heap) :
    ctx.place t (.variable scope v) = some l ∧ read t l = read s l := by
  cases scope with
  | «local» => exact absurd rfl hscope
  | field =>
    obtain ⟨id, hobj, rfl⟩ := ctx.place_field hplace
    refine ⟨?_, ?_⟩
    · rw [Context.place, hthis, hobj]
    · show (t.heap.objs[id]?.bind _).getD _ = _
      rw [hheap]
      rfl
  | static | package =>
    cases hplace
    exact ⟨rfl, congrFun hstatics _⟩

/-- A bit is set in the temporary only: the variable is read as it was. -/
theorem bit_of_remote {E : Type} {ctx : Context E} {use : Use} {scope : Scope} {v : Variable}
    {lhs : Lvalue E} {s t u : State} {l : Location} {e : E} {old index bits : PackedVec}
    {src next : Reg} {write : Code} {g : Generated} (hfinds : Finds ctx use (.variable scope v))
    (hscope : scope ≠ .local) (hnext : ctx.temps ≤ next) (hsrc : src < next)
    (hlhs : lvalue (some e) use = some lhs) (hplace : ctx.place s (.variable scope v) = some l)
    (hl : Allocated s.heap l) (hold : read s l = .logic old) (hindex : Evaluates ctx e s index)
    (hknown : index.isKnown = true) (hlt : index.toU64 < old.width)
    (hbits : s.regs src = .logic bits) (hwrite : ctx.genAssignLvalue lhs src next = some write)
    (hrun : runCode s write = some t) (hg : readUse ctx next use = some g)
    (hu : runCode t g.code = some u) : u.regs g.reg = .logic old := by
  obtain ⟨i, hi, hexec⟩ := genDecl_remote next hscope hplace hl
  rw [hold] at hexec
  rw [hfinds.bit scope v rfl lhs e src next hlhs, hi] at hwrite
  cases hwrite
  have hbelow : ∀ r < next, (s.setReg next (.logic old)).regs r = s.regs r :=
    fun r hr => Function.update_of_ne (Nat.ne_of_lt hr) _ _
  obtain ⟨s₁, hrun₁, hidx, hstatics, -, hheap, hregs⟩ := hindex (next + 1)
    (s.setReg next (.logic old)) (Nat.le_succ_of_le hnext) rfl rfl rfl
    fun r hr => hbelow r (Nat.lt_of_lt_of_le hr hnext)
  have hvalue : s₁.regs src = .logic bits :=
    (hregs _ (Nat.lt_succ_of_lt hsrc)).trans ((hbelow src hsrc).trans hbits)
  have hbase : s₁.regs next = .logic old :=
    (hregs _ (Nat.lt_succ_self _)).trans (Function.update_self _ _ _)
  obtain ⟨t', hset, ht'⟩ := updates_setBit hbase hidx ⟨hknown, hlt⟩
    (by rw [hvalue]; exact assignmentCopy_logic _ _) (by rw [hvalue]; rfl)
  have ht : t = t' := Option.some.inj (hrun.symm.trans ((runCode_inst hexec _).trans
    ((runCode_piece hrun₁ _).trans (runCode_inst hset []))))
  have hthis : t.regs ctx.thisReg = s.regs ctx.thisReg := by
    have hlt' := Nat.lt_of_lt_of_le ctx.this_lt hnext
    rw [ht, ht']
    exact (Function.update_of_ne (Nat.ne_of_lt hlt') _ _).trans
      ((hregs _ (Nat.lt_succ_of_lt hlt')).trans (hbelow _ hlt'))
  have hstatics' : t.statics = s.statics := by
    rw [ht, ht']
    exact hstatics
  have hheap' : t.heap = s.heap := by
    rw [ht, ht']
    exact hheap
  obtain ⟨hplace', hread'⟩ := remote_same hscope hplace hthis hstatics' hheap'
  obtain ⟨i', hi', hexec'⟩ := genDecl_remote next hscope hplace' (hheap' ▸ hl)
  rw [hfinds.read next, hi'] at hg
  cases hg
  cases hu.symm.trans (runCode_inst hexec' [])
  rw [hread', hold]
  exact Function.update_self _ _ _

theorem exists_lvalue {env : Env} {use : Use} {d : Decl} (h : target env use = some d) :
    ∃ lhs : Lvalue Unit, lvalue (some ()) use = some lhs := by
  cases use with
  | simple name => exact ⟨_, rfl⟩
  | call name => cases h
  | member className name => exact ⟨_, rfl⟩

/-- A bit that is set in a temporary is not read back. -/
theorem inPlace_of_bit {env : Env} {use : Use} (hapart : DeclaredApart env use)
    (hbit : BitReadsBack env use) : InPlace env use := by
  intro scope v htarget hpacked hwidth
  by_contra hscope
  obtain ⟨temps, hpos, hlocals⟩ := exists_bound env.locals
  have hfinds : Finds (constContext env temps hpos hlocals) use (.variable scope v) :=
    finds_of_apart hapart htarget
  obtain ⟨lhs, hlhs⟩ := exists_lvalue htarget
  obtain ⟨l, hplace, hl, hread⟩ := place_zeroState hscope v.width
  have hindex : Evaluates (constContext env temps hpos hlocals) ()
      (zeroState v.width (v.place + 1)) (.zero 1) := by
    intro start s' _ _ _ _ _
    exact ⟨_, rfl, Function.update_self _ _ _, rfl, rfl, rfl,
      fun r hr => Function.update_of_ne (Nat.ne_of_lt hr) _ _⟩
  have hzero : (PackedVec.zero v.width).width = v.width := PackedVec.width_zero _
  have hlt : (PackedVec.zero 1).toU64 < (PackedVec.zero v.width).width := by
    rw [hzero]
    exact hwidth
  have hsrc : (zeroState v.width (v.place + 1)).regs temps = .logic (.ones 1) :=
    if_neg (Nat.ne_of_gt hpos)
  obtain ⟨write, t, g, u, hwrite, hrun, hg, hu, hresult⟩ := hbit Unit _ rfl _ lhs _ ()
    (.zero v.width) (.zero 1) (.ones 1) l temps (temps + 1) (Nat.le_succ temps)
    (Nat.lt_succ_self temps) htarget hpacked hlhs hplace hl hread (congrArg some hzero.symm)
    hindex rfl hlt hsrc
  have hlost := bit_of_remote hfinds hscope (Nat.le_succ temps) (Nat.lt_succ_self temps) hlhs
    hplace hl hread hindex rfl hlt hsrc hwrite hrun hg hu
  have hbits := congrArg (PackedVec.getBit · 0) (Val.logic.inj (hresult.symm.trans hlost))
  rw [PackedVec.getBit_setBit, if_pos ⟨rfl, hlt⟩] at hbits
  exact absurd (hbits.trans (getBit_zero v.width 0)) (by decide)

/-- A process with a variable of its own that has the name of a net of the module. -/
def shadowedNet : Env where
  locals := [⟨"data", 1, 8, false, false, false, none, none, none, false⟩]
  fields := []
  statics := []
  packageVars := .empty
  consts := .empty
  methods := []
  functions := []
  signals := [⟨"data", false, .net 0 4⟩]
  classStatics := .empty
  distinct := List.nodup_nil

end Eevee.Elab.Resolution
