/- When the code generator's lookups of a name select the same declaration. -/

import Mathlib.Data.List.Find
import Eevee.Elab.Names

set_option autoImplicit false
set_option relaxedAutoImplicit false

namespace Eevee.Elab.Names

/-! ### When the lookups of a simple name agree -/

namespace Env

variable (env : Env) (name : String)

/-- All variables of a name, the one in scope first. -/
def declared : List (Scope × Variable) :=
  (env.named name .local).map (Scope.local, ·) ++ ((env.named name .field).map (Scope.field, ·) ++
    ((env.named name .static).map (Scope.static, ·) ++
      (env.named name .package).map (Scope.package, ·)))

/-- The type facts that a lookup asks for by name. -/
inductive Fact
  | handle | coll | event | string | enum | unsized

/-- Whether a declaration records a fact where lookups ask for it. -/
def Fact.recorded : Fact → Scope → Variable → Bool
  | handle, _, v => v.cls.isSome
  | coll, _, v => v.coll.isSome
  | event, .local, v | event, .field, v => v.isEvent
  | string, .local, v | string, .field, v => v.isString
  | enum, .local, v => v.enumTable.isSome
  | unsized, scope, v => Env.unsized scope v
  | _, _, _ => false

/-- The declarations of a name that may stand beside each other. -/
structure Apart : Prop where
  memory : env.memory name = none ∨ env.net name = none
  /-- A signal is neither a variable, a constant nor a method. -/
  signal : env.netSigned name ≠ none →
    name ≠ "this" ∧ env.declared name = [] ∧ env.const name = none ∧ env.methodOfCtx name = none
  /-- Only a local variable that is no string may hide a constant. -/
  const : env.const name ≠ none → name ≠ "this" ∧
    ∀ first rest, env.declared name = first :: rest →
      first.1 = .local ∧ env.found name .local (·.isString) = none
  this : name = "this" → env.declared name = []
  /-- What the tables keep of a hidden declaration, the one in scope records too. -/
  facts : ∀ first rest, env.declared name = first :: rest → ∀ fact : Fact, ∀ hidden ∈ rest,
    fact.recorded hidden.1 hidden.2 = true → fact.recorded first.1 first.2 = true
  /-- A scope with a string of the name hides only such scopes. -/
  strings : ∀ first rest, env.declared name = first :: rest →
    env.found name first.1 (·.isString) ≠ none →
    ∀ scope, env.named name scope ≠ [] → env.found name scope (·.isString) ≠ none

variable {env name}

theorem find_scope (scope : Scope) (records : Scope → Variable → Bool) (l : List Variable) :
    ((l.map (scope, ·)).find? fun e => records e.1 e.2).map (fun e => Decl.variable e.1 e.2) =
      (l.find? (records scope)).map (.variable scope) := by
  rw [List.find?_map, Option.map_map]
  rfl

theorem chain_eq (records : Scope → Variable → Bool) : env.chain name records =
    ((env.declared name).find? fun e => records e.1 e.2).map fun e => .variable e.1 e.2 := by
  simp only [declared, List.find?_append, Option.map_or, find_scope]
  rfl

theorem chain_of_nil (h : env.declared name = []) (records : Scope → Variable → Bool) :
    env.chain name records = none := by
  rw [chain_eq, h]
  rfl

theorem anyVariable_of_cons {first : Scope × Variable} {rest : List (Scope × Variable)}
    (h : env.declared name = first :: rest) :
    env.anyVariable name = some (.variable first.1 first.2) := by
  rw [anyVariable, chain_eq, h]
  rfl

/-- A table of a fact has nothing but the first declaration's entry. -/
theorem chain_selects_iff {first : Scope × Variable} {rest : List (Scope × Variable)}
    (h : env.declared name = first :: rest) (records : Scope → Variable → Bool) :
    (env.chain name records = none ∨
        env.chain name records = some (.variable first.1 first.2)) ↔
      ∀ hidden ∈ rest, records hidden.1 hidden.2 = true → records first.1 first.2 = true := by
  rw [chain_eq, h, List.find?_cons]
  by_cases hfirst : records first.1 first.2 = true
  · simp [hfirst]
  · have hskip : (if records first.1 first.2 = true then some first
        else rest.find? fun e => records e.1 e.2) = rest.find? fun e => records e.1 e.2 :=
      if_neg hfirst
    constructor
    · intro hsel hidden hmem hrec
      cases hfind : rest.find? fun e => records e.1 e.2 with
      | none => exact absurd hrec (by simpa using List.find?_eq_none.mp hfind hidden hmem)
      | some e =>
        have hrec' : records e.1 e.2 = true := by simpa using List.find?_some hfind
        simp only [hfirst, hfind, Option.map_some, reduceCtorEq, false_or, Option.some.injEq,
          Decl.variable.injEq] at hsel
        rw [hsel.1, hsel.2] at hrec'
        exact hrec'
    · intro hkeeps
      have hnone : rest.find? (fun e => records e.1 e.2) = none := by
        refine List.find?_eq_none.mpr fun e he hrec => hfirst (hkeeps e he hrec)
      simp [hfirst, hnone]

/-- The lookup that asks for a fact. -/
def lookup (env : Env) (name : String) : Fact → Option Decl
  | .handle => env.newClass name
  | .coll => env.chain name fun _ v => v.coll.isSome
  | .event => env.namedEvent name
  | .string => env.stringReceiver name
  | .enum => env.enumTable name
  | .unsized => env.chain name unsized

theorem found_never (scope : Scope) : env.found name scope (fun _ => false) = none := by
  simp [found]

theorem chain_recorded (fact : Fact) :
    env.chain name fact.recorded = env.lookup name fact := by
  cases fact with
  | handle | coll | unsized => rfl
  | event | string =>
    rw [chain, show Fact.recorded _ .static = fun _ => false from rfl,
      show Fact.recorded _ .package = fun _ => false from rfl, found_never, found_never,
      Option.or_none, Option.or_none]
    rfl
  | enum =>
    rw [chain, show Fact.recorded _ .field = fun _ => false from rfl,
      show Fact.recorded _ .static = fun _ => false from rfl,
      show Fact.recorded _ .package = fun _ => false from rfl, found_never, found_never,
      found_never, Option.or_none, Option.or_none, Option.or_none]
    rfl

theorem signals_of_netSigned (h : env.netSigned name = none) :
    env.net name = none ∧ env.memory name = none := by
  rw [netSigned, Option.map_eq_none_iff, List.find?_eq_none] at h
  simp only [net, memory, Option.map_eq_none_iff, List.find?_eq_none]
  exact ⟨fun s hs hp => h s hs (by simp_all), fun s hs hp => h s hs (by simp_all)⟩

theorem netSigned_of_signals (hnet : env.net name = none) (hmemory : env.memory name = none) :
    env.netSigned name = none := by
  simp only [net, memory, Option.map_eq_none_iff, List.find?_eq_none] at hnet hmemory
  rw [netSigned, Option.map_eq_none_iff, List.find?_eq_none]
  intro s hs hp
  cases hkind : s.kind.isNet with
  | true => exact hnet s hs (by simp_all)
  | false => exact hmemory s hs (by simp_all)

/-- Without a net of the name the latest signal is a memory, and the other way around. -/
theorem netSigned_of_net (h : env.net name = none) : env.netSigned name = env.memory name := by
  simp only [net, Option.map_eq_none_iff, List.find?_eq_none] at h
  rw [netSigned, memory]
  refine congrArg (Option.map _) (List.find?_congr fun s hs => ?_)
  have hs := h s hs
  cases hkind : s.kind.isNet <;> simp_all

theorem netSigned_of_memory (h : env.memory name = none) : env.netSigned name = env.net name := by
  simp only [memory, Option.map_eq_none_iff, List.find?_eq_none] at h
  rw [netSigned, net]
  refine congrArg (Option.map _) (List.find?_congr fun s hs => ?_)
  have hs := h s hs
  cases hkind : s.kind.isNet <;> simp_all

/-- A net is no memory. -/
theorem apart_kinds {d : Decl} (hnet : env.net name = some d) (hmemory : env.memory name = some d) :
    False := by
  rw [net, Option.map_eq_some_iff] at hnet
  rw [memory, Option.map_eq_some_iff] at hmemory
  obtain ⟨s, hs, rfl⟩ := hnet
  obtain ⟨s', hs', heq⟩ := hmemory
  cases heq
  have hnet := List.find?_some hs
  have hmemory := List.find?_some hs'
  simp_all

theorem found_of_nil {scope : Scope} (h : env.named name scope = [])
    (records : Variable → Bool) : env.found name scope records = none := by
  rw [found, h]
  rfl

theorem unlessString_of_nil {scope : Scope} (h : env.named name scope = []) :
    env.unlessString name scope = none := by
  rw [unlessString, found_of_nil h, found_of_nil h]

theorem unlessString_of_string {scope : Scope}
    (h : env.found name scope (·.isString) ≠ none) : env.unlessString name scope = none := by
  obtain ⟨d, hd⟩ := Option.ne_none_iff_exists'.mp h
  rw [unlessString, hd]

theorem unlessString_of_other {scope : Scope}
    (h : env.found name scope (·.isString) = none) :
    env.unlessString name scope = env.found name scope fun _ => true := by
  rw [unlessString, h]

/-- The scopes before the first declaration know nothing of the name. -/
inductive Leads (env : Env) (name : String) : Scope × Variable → Prop
  | local (v : Variable) (h : env.found name .local (fun _ => true) = some (.variable .local v)) :
      Leads env name (.local, v)
  | field (v : Variable) (hlocal : env.named name .local = [])
      (h : env.found name .field (fun _ => true) = some (.variable .field v)) :
      Leads env name (.field, v)
  | static (v : Variable) (hlocal : env.named name .local = [])
      (hfield : env.named name .field = [])
      (h : env.found name .static (fun _ => true) = some (.variable .static v)) :
      Leads env name (.static, v)
  | package (v : Variable) (hlocal : env.named name .local = [])
      (hfield : env.named name .field = []) (hstatic : env.named name .static = [])
      (h : env.found name .package (fun _ => true) = some (.variable .package v)) :
      Leads env name (.package, v)

theorem leads_of_cons {first : Scope × Variable} {rest : List (Scope × Variable)}
    (h : env.declared name = first :: rest) : Leads env name first := by
  have hfound : ∀ {scope v vs}, env.named name scope = v :: vs →
      env.found name scope (fun _ => true) = some (.variable scope v) := by
    intro scope v vs hv
    rw [found, hv]
    rfl
  rw [declared] at h
  cases hlocal : env.named name .local with
  | cons v vs =>
    rw [hlocal] at h
    cases h
    exact .local v (hfound hlocal)
  | nil =>
    cases hfield : env.named name .field with
    | cons v vs =>
      rw [hlocal, hfield] at h
      cases h
      exact .field v hlocal (hfound hfield)
    | nil =>
      cases hstatic : env.named name .static with
      | cons v vs =>
        rw [hlocal, hfield, hstatic] at h
        cases h
        exact .static v hlocal hfield (hfound hstatic)
      | nil =>
        cases hpackage : env.named name .package with
        | cons v vs =>
          rw [hlocal, hfield, hstatic, hpackage] at h
          cases h
          exact .package v hlocal hfield hstatic (hfound hpackage)
        | nil =>
          rw [hlocal, hfield, hstatic, hpackage] at h
          cases h

theorem Leads.anyVariable {first : Scope × Variable} (h : Leads env name first) :
    env.found name first.1 (fun _ => true) = some (.variable first.1 first.2) := by
  cases h <;> assumption

theorem width_of_apart (h : env.Apart name) {first : Scope × Variable}
    {rest : List (Scope × Variable)} (hdeclared : env.declared name = first :: rest)
    (hnet : env.net name = none) : env.width name = none ∨
      env.width name = some (.variable first.1 first.2) := by
  have hlater : env.found name first.1 (·.isString) ≠ none → ∀ scope,
      env.unlessString name scope = none := by
    intro hstring scope
    by_cases hnil : env.named name scope = []
    · exact unlessString_of_nil hnil
    · exact unlessString_of_string (h.strings first rest hdeclared hstring scope hnil)
  have hconst : env.const name ≠ none → first.1 = .local ∧
      env.found name .local (·.isString) = none := fun hc => (h.const hc).2 first rest hdeclared
  by_cases hstring : env.found name first.1 (·.isString) = none
  · right
    have hfirst := unlessString_of_other hstring
    have hlead := leads_of_cons hdeclared
    cases hlead with
    | «local» v hv => rw [width, hfirst, hv, Option.some_or]
    | field v hlocal hv =>
      have hc : env.const name = none := by
        by_contra hc
        exact absurd (hconst hc).1 (by simp)
      rw [width, unlessString_of_nil hlocal, hnet, hc, hfirst, hv]
      rfl
    | static v hlocal hfield hv =>
      have hc : env.const name = none := by
        by_contra hc
        exact absurd (hconst hc).1 (by simp)
      rw [width, unlessString_of_nil hlocal, hnet, hc, unlessString_of_nil hfield, hfirst, hv]
      rfl
    | package v hlocal hfield hstatic hv =>
      have hc : env.const name = none := by
        by_contra hc
        exact absurd (hconst hc).1 (by simp)
      rw [width, unlessString_of_nil hlocal, hnet, hc, unlessString_of_nil hfield,
        unlessString_of_nil hstatic, hfirst, hv]
      rfl
  · left
    have hc : env.const name = none := by
      by_contra hc
      obtain ⟨hlocal, hnone⟩ := hconst hc
      exact hstring (hlocal ▸ hnone)
    rw [width, hlater hstring, hlater hstring, hlater hstring, hlater hstring, hnet, hc]
    rfl

theorem signedness_of_netSigned (h : env.netSigned name = none) :
    env.signedness name = env.anyVariable name := by
  rw [signedness, h, Option.none_or]
  rfl

theorem agree_of_cons (h : env.Apart name) {first : Scope × Variable}
    {rest : List (Scope × Variable)} (hdeclared : env.declared name = first :: rest) :
    ∀ selection ∈ env.selections name,
      selection = none ∨ selection = some (.variable first.1 first.2) := by
  have hthis : name ≠ "this" := fun hname => by
    rw [h.this hname] at hdeclared
    cases hdeclared
  have hsigned : env.netSigned name = none := by
    by_contra hs
    rw [(h.signal hs).2.1] at hdeclared
    cases hdeclared
  obtain ⟨hnet, hmemory⟩ := signals_of_netSigned hsigned
  have hany := anyVariable_of_cons hdeclared
  have hvalue : env.value name = some (.variable first.1 first.2) := by
    rw [value, if_neg hthis, hany, Option.some_or]
  have hwrite : env.wholeWrite name = some (.variable first.1 first.2) := by
    rw [wholeWrite, hany, Option.some_or]
  have hfact : ∀ fact, env.lookup name fact = none ∨
      env.lookup name fact = some (.variable first.1 first.2) := by
    intro fact
    rw [← chain_recorded]
    exact (chain_selects_iff hdeclared fact.recorded).mpr
      fun hidden hmem => h.facts first rest hdeclared fact hidden hmem
  have hlvalue : env.lvalueWidth name = none ∨
      env.lvalueWidth name = some (.variable first.1 first.2) := by
    right
    rw [lvalueWidth, hwrite]
    rcases hfact .unsized with hnone | hsome
    · rw [show env.chain name unsized = none from hnone, Option.none_or]
    · rw [show env.chain name unsized = _ from hsome, Option.some_or]
  simp only [selections, List.mem_cons, List.not_mem_nil, or_false, forall_eq_or_imp, forall_eq]
  refine ⟨.inr hvalue, .inr hwrite, .inr ?_, .inr ?_, width_of_apart h hdeclared hnet, .inr ?_,
    hlvalue, .inl ?_, hfact .handle, ?_, ?_, hfact .event, hfact .string, hfact .enum, .inl hnet,
    .inl ?_⟩
  · rw [indexWrite, hmemory, hnet, hvalue]
    rfl
  · rw [indexRead, hmemory, hvalue]
    rfl
  · rw [signedness_of_netSigned hsigned, hany]
  · rw [lvalueIndexWidth, hmemory, hnet]
    rfl
  · rw [receiverClass, if_neg hthis]
    exact hfact .handle
  · rw [collection, if_neg hthis]
    exact hfact .coll
  · rw [indexSensitivity, hmemory, hnet]
    rfl

theorem named_of_nil (h : env.declared name = []) (scope : Scope) : env.named name scope = [] := by
  simp only [declared, List.append_eq_nil_iff, List.map_eq_nil_iff] at h
  cases scope with
  | «local» => exact h.1
  | field => exact h.2.1
  | static => exact h.2.2.1
  | package => exact h.2.2.2

theorem width_of_nil (h : env.declared name = []) :
    env.width name = (env.net name).or (env.const name) := by
  simp only [width, unlessString_of_nil (named_of_nil h _), Option.none_or, Option.or_none]

theorem signedness_of_nil (h : env.declared name = []) :
    env.signedness name = env.netSigned name := by
  simp only [signedness, found_of_nil (named_of_nil h _), Option.none_or, Option.or_none]

theorem anyVariable_of_nil (h : env.declared name = []) : env.anyVariable name = none :=
  chain_of_nil h _

theorem wholeWrite_of_nil (h : env.declared name = []) : env.wholeWrite name = env.net name := by
  rw [wholeWrite, anyVariable_of_nil h, Option.none_or]

theorem lvalueWidth_of_nil (h : env.declared name = []) : env.lvalueWidth name = env.net name := by
  rw [lvalueWidth, chain_of_nil h, wholeWrite_of_nil h, Option.none_or]

theorem lookup_of_nil (h : env.declared name = []) (fact : Fact) :
    env.lookup name fact = none := by
  rw [← chain_recorded, chain_of_nil h]

/-- The selections of a name without variables. -/
theorem selections_of_nil (h : env.declared name = []) (d : Decl) :
    (∀ selection ∈ env.selections name, selection = none ∨ selection = some d) ↔
      (env.value name = none ∨ env.value name = some d) ∧
        (env.net name = none ∨ env.net name = some d) ∧
        (env.memory name = none ∨ env.memory name = some d) ∧
        (env.net name ≠ none ∨ env.const name = none ∨ env.const name = some d) := by
  have hreceiver : env.receiverClass name = none ∨ env.receiverClass name = env.value name := by
    by_cases hthis : name = "this"
    · right
      rw [receiverClass, value, if_pos hthis, if_pos hthis]
    · left
      rw [receiverClass, if_neg hthis]
      exact lookup_of_nil h .handle
  have hcollection : env.collection name = none := by
    by_cases hthis : name = "this"
    · rw [collection, if_pos hthis]
    · rw [collection, if_neg hthis]
      exact chain_of_nil h _
  simp only [selections, List.mem_cons, List.not_mem_nil, or_false, forall_eq_or_imp, forall_eq]
  rw [wholeWrite_of_nil h, width_of_nil h, signedness_of_nil h, lvalueWidth_of_nil h, hcollection,
    show env.newClass name = none from lookup_of_nil h .handle,
    show env.namedEvent name = none from lookup_of_nil h .event,
    show env.stringReceiver name = none from lookup_of_nil h .string,
    show env.enumTable name = none from lookup_of_nil h .enum]
  constructor
  · rintro ⟨hvalue, hnet, -, -, hwidth, -, -, hindex, -⟩
    refine ⟨hvalue, hnet, ?_, ?_⟩
    · rw [lvalueIndexWidth] at hindex
      cases hm : env.memory name with
      | none => exact .inl rfl
      | some m =>
        rw [hm, Option.some_or] at hindex
        exact hindex
    · cases hn : env.net name with
      | some n => exact .inl (by simp)
      | none =>
        rw [hn, Option.none_or] at hwidth
        exact .inr hwidth
  · rintro ⟨hvalue, hnet, hmemory, hconst⟩
    have either : ∀ {a b : Option Decl}, (a = none ∨ a = some d) → (b = none ∨ b = some d) →
        (a.or b = none ∨ a.or b = some d) := by
      rintro a b (rfl | rfl) hb
      · exact hb
      · exact .inr rfl
    have hsigned : env.netSigned name = none ∨ env.netSigned name = some d := by
      by_cases hn : env.net name = none
      · rw [netSigned_of_net hn]
        exact hmemory
      · by_cases hm : env.memory name = none
        · rw [netSigned_of_memory hm]
          exact hnet
        · exact absurd (apart_kinds (hnet.resolve_left hn) (hmemory.resolve_left hm)) id
    have hwidth : (env.net name).or (env.const name) = none ∨
        (env.net name).or (env.const name) = some d := by
      rcases hconst with hn | hc
      · rw [hnet.resolve_left hn, Option.some_or]
        exact .inr rfl
      · exact either hnet hc
    exact ⟨hvalue, hnet, either hmemory (either hnet hvalue), either hmemory hvalue, hwidth,
      hsigned, hnet, either hmemory hnet, .inl rfl, hreceiver.elim .inl fun he => he ▸ hvalue,
      .inl rfl, .inl rfl, .inl rfl, .inl rfl, hnet, either hmemory hnet⟩

theorem agree_of_nil (h : env.Apart name) (hdeclared : env.declared name = []) :
    SameDeclaration (env.selections name) := by
  have hany := anyVariable_of_nil hdeclared
  by_cases hsigned : env.netSigned name = none
  · obtain ⟨hnet, hmemory⟩ := signals_of_netSigned hsigned
    refine ⟨(env.value name).getD .this, (selections_of_nil hdeclared _).mpr
      ⟨?_, .inl hnet, .inl hmemory, .inr ?_⟩⟩
    · cases env.value name <;> simp
    · by_cases hc : env.const name = none
      · exact .inl hc
      · obtain ⟨c, hconst⟩ := Option.ne_none_iff_exists'.mp hc
        rw [value, if_neg (h.const hc).1, hany, hconst]
        exact .inr rfl
  · obtain ⟨hthis, -, hconst, hmethod⟩ := h.signal hsigned
    have hvalue : env.value name = (env.memory name).or (env.net name) := by
      rw [value, if_neg hthis, hany, hconst, hmethod]
      rfl
    rcases h.memory with hmemory | hnet
    · rw [netSigned_of_memory hmemory] at hsigned
      obtain ⟨d, hd⟩ := Option.ne_none_iff_exists'.mp hsigned
      refine ⟨d, (selections_of_nil hdeclared d).mpr
        ⟨.inr ?_, .inr hd, .inl hmemory, .inl hsigned⟩⟩
      rw [hvalue, hmemory, hd]
      rfl
    · rw [netSigned_of_net hnet] at hsigned
      obtain ⟨d, hd⟩ := Option.ne_none_iff_exists'.mp hsigned
      refine ⟨d, (selections_of_nil hdeclared d).mpr
        ⟨.inr ?_, .inl hnet, .inr hd, .inr (.inl hconst)⟩⟩
      rw [hvalue, hd]
      rfl

theorem net_ne_const {d : Decl} (hnet : env.net name = some d) :
    d ≠ .this ∧ env.const name ≠ some d ∧ env.methodOfCtx name ≠ some d := by
  rw [net, Option.map_eq_some_iff] at hnet
  obtain ⟨s, -, rfl⟩ := hnet
  simp [const, methodOfCtx]

theorem memory_ne_const {d : Decl} (hmemory : env.memory name = some d) :
    d ≠ .this ∧ env.const name ≠ some d ∧ env.methodOfCtx name ≠ some d := by
  rw [memory, Option.map_eq_some_iff] at hmemory
  obtain ⟨s, -, rfl⟩ := hmemory
  simp [const, methodOfCtx]

theorem apart_of_nil (hdeclared : env.declared name = [])
    (h : SameDeclaration (env.selections name)) : env.Apart name := by
  obtain ⟨d, hd⟩ := h
  obtain ⟨hvalue, hnet, hmemory, hconst⟩ := (selections_of_nil hdeclared d).mp hd
  have hany := anyVariable_of_nil hdeclared
  -- a signal that is selected has to be the value as well
  have hsignal : d ≠ .this ∧ env.const name ≠ some d ∧ env.methodOfCtx name ≠ some d →
      name ≠ "this" ∧ env.declared name = [] ∧ env.const name = none ∧
        env.methodOfCtx name = none := by
    rintro ⟨hthis, hc, hm⟩
    rw [value] at hvalue
    by_cases hname : name = "this"
    · rw [if_pos hname] at hvalue
      exact absurd (Option.some.inj (hvalue.resolve_left (by simp))).symm hthis
    · rw [if_neg hname, hany, Option.none_or] at hvalue
      cases hconst' : env.const name with
      | some c =>
        rw [hconst', Option.some_or] at hvalue
        exact absurd (hconst'.trans (hvalue.resolve_left (by simp))) hc
      | none =>
        rw [hconst', Option.none_or] at hvalue
        cases hmethod : env.methodOfCtx name with
        | some m =>
          rw [hmethod, Option.some_or] at hvalue
          exact absurd (hmethod.trans (hvalue.resolve_left (by simp))) hm
        | none => exact ⟨hname, hdeclared, rfl, rfl⟩
  refine ⟨?_, fun hsigned => ?_, fun hc => ⟨?_, fun first rest hcons => ?_⟩, fun _ => hdeclared,
    fun first rest hcons => ?_, fun first rest hcons => ?_⟩
  · by_contra hboth
    rw [not_or] at hboth
    exact apart_kinds (hnet.resolve_left hboth.2) (hmemory.resolve_left hboth.1)
  · by_cases hn : env.net name = none
    · rw [netSigned_of_net hn] at hsigned
      exact hsignal (memory_ne_const (hmemory.resolve_left hsigned))
    · exact hsignal (net_ne_const (hnet.resolve_left hn))
  · rintro hthis
    rw [value, if_pos hthis] at hvalue
    have hd := Option.some.inj (hvalue.resolve_left (by simp))
    subst hd
    rcases hconst with hn | hnone | hsome
    · exact (net_ne_const (hnet.resolve_left hn)).1 rfl
    · exact hc hnone
    · rw [const, Option.map_eq_some_iff] at hsome
      obtain ⟨-, -, heq⟩ := hsome
      cases heq
  all_goals
    rw [hdeclared] at hcons
    cases hcons

theorem unlessString_scope {scope : Scope} {d : Decl} (h : env.unlessString name scope = some d) :
    ∃ v, d = .variable scope v := by
  unfold unlessString at h
  split at h
  · cases h
  · rw [found, Option.map_eq_some_iff] at h
    obtain ⟨v, -, rfl⟩ := h
    exact ⟨v, rfl⟩

theorem apart_of_cons {first : Scope × Variable} {rest : List (Scope × Variable)}
    (hdeclared : env.declared name = first :: rest)
    (h : SameDeclaration (env.selections name)) : env.Apart name := by
  obtain ⟨d, hd⟩ := h
  simp only [selections, List.mem_cons, List.not_mem_nil, or_false, forall_eq_or_imp,
    forall_eq] at hd
  obtain ⟨hvalue, hwrite, -, -, hwidth, -, hlvalue, hindexWidth, hnew, -, hcoll, hevent, hstring,
    henum, hnet, -⟩ := hd
  have hany := anyVariable_of_cons hdeclared
  rw [wholeWrite, hany, Option.some_or] at hwrite
  have hfirst : Decl.variable first.1 first.2 = d :=
    Option.some.inj (hwrite.resolve_left (by simp))
  have hthis : name ≠ "this" := by
    rintro hname
    rw [value, if_pos hname] at hvalue
    rw [← Option.some.inj (hvalue.resolve_left (by simp))] at hfirst
    cases hfirst
  have hnet' : env.net name = none := by
    refine hnet.resolve_right fun hn => ?_
    rw [sensitivity, net, Option.map_eq_some_iff] at hn
    obtain ⟨s, -, heq⟩ := hn
    rw [← heq] at hfirst
    cases hfirst
  have hmemory : env.memory name = none := by
    rw [lvalueIndexWidth, hnet', Option.or_none] at hindexWidth
    refine hindexWidth.resolve_right fun hm => ?_
    rw [memory, Option.map_eq_some_iff] at hm
    obtain ⟨s, -, heq⟩ := hm
    rw [← heq] at hfirst
    cases hfirst
  have hsigned := netSigned_of_signals hnet' hmemory
  rw [width, hnet', Option.none_or] at hwidth
  subst hfirst
  have hconst : env.const name ≠ none → env.unlessString name .local ≠ none := by
    intro hc hlocal
    obtain ⟨c, hc⟩ := Option.ne_none_iff_exists'.mp hc
    rw [hlocal, hc] at hwidth
    rw [const, Option.map_eq_some_iff] at hc
    obtain ⟨-, -, rfl⟩ := hc
    exact absurd hwidth (by simp)
  have hlead := leads_of_cons hdeclared
  have hunsized : env.lookup name .unsized = none ∨
      env.lookup name .unsized = some (.variable first.1 first.2) := by
    rw [lvalueWidth] at hlvalue
    cases hu : env.chain name unsized with
    | none => exact .inl hu
    | some e =>
      rw [hu, Option.some_or] at hlvalue
      exact .inr (hu.trans (hlvalue.resolve_left (by simp)))
  refine ⟨.inl hmemory, fun hs => absurd hsigned hs, fun hc => ⟨hthis, ?_⟩,
    fun hname => absurd hname hthis, ?_, ?_⟩
  · intro first' rest' hcons
    cases hdeclared.symm.trans hcons
    have hlocal := hconst hc
    have hstr : env.found name .local (·.isString) = none := by
      by_contra hs
      exact hlocal (unlessString_of_string hs)
    refine ⟨?_, hstr⟩
    cases hlead with
    | «local» => rfl
    | field v hnil => exact absurd (unlessString_of_nil hnil) hlocal
    | static v hnil => exact absurd (unlessString_of_nil hnil) hlocal
    | package v hnil => exact absurd (unlessString_of_nil hnil) hlocal
  · intro first' rest' hcons fact
    cases hdeclared.symm.trans hcons
    refine (chain_selects_iff hdeclared fact.recorded).mp ?_
    rw [chain_recorded]
    cases fact with
    | handle => exact hnew
    | coll =>
      rw [collection, if_neg hthis] at hcoll
      exact hcoll
    | event => exact hevent
    | string => exact hstring
    | enum => exact henum
    | unsized => exact hunsized
  · intro first' rest' hcons hknown scope hnil hnone
    cases hdeclared.symm.trans hcons
    have hskip := unlessString_of_string hknown
    have hc : env.const name = none := by
      by_contra hc
      have hlocal := hconst hc
      cases hlead with
      | «local» => exact hlocal hskip
      | field v hnil => exact hlocal (unlessString_of_nil hnil)
      | static v hnil => exact hlocal (unlessString_of_nil hnil)
      | package v hnil => exact hlocal (unlessString_of_nil hnil)
    rw [hc, Option.none_or] at hwidth
    -- the walk can only find the first declaration, whose scope it has skipped
    have hall : ∀ scope' more, (env.unlessString name scope').or more = none ∨
        (env.unlessString name scope').or more = some (.variable first.1 first.2) →
        env.unlessString name scope' = none := by
      intro scope' more hsel
      cases hu : env.unlessString name scope' with
      | none => rfl
      | some e =>
        obtain ⟨v, rfl⟩ := unlessString_scope hu
        rw [hu, Option.some_or] at hsel
        have heq := Option.some.inj (hsel.resolve_left (by simp))
        simp only [Decl.variable.injEq] at heq
        rw [heq.1, hskip] at hu
        cases hu
    have hlocal := hall .local _ hwidth
    rw [hlocal, Option.none_or] at hwidth
    have hfield := hall .field _ hwidth
    rw [hfield, Option.none_or] at hwidth
    have hstatic := hall .static _ hwidth
    rw [hstatic, Option.none_or, ← Option.or_none (o := env.unlessString name .package)] at hwidth
    have hpackage := hall .package _ hwidth
    have hnever : env.unlessString name scope = none := by
      cases scope <;> assumption
    rw [unlessString_of_other hnone, found, Option.map_eq_none_iff, List.find?_eq_none] at hnever
    exact hnil (List.eq_nil_iff_forall_not_mem.mpr fun v hv => hnever v hv rfl)

/-- The lookups of a simple name select one declaration exactly when its declarations stand
apart. -/
theorem agree_iff : SameDeclaration (env.selections name) ↔ env.Apart name := by
  cases hdeclared : env.declared name with
  | nil => exact ⟨apart_of_nil hdeclared, fun h => agree_of_nil h hdeclared⟩
  | cons first rest =>
    exact ⟨apart_of_cons hdeclared, fun h => ⟨_, agree_of_cons h hdeclared⟩⟩

/-- `event x; int x[$];`: the queue has taken the entry of the event. -/
example :
    let event : Variable := ⟨"x", 1, 1, false, false, true, none, none, none, false⟩
    let queue : Variable :=
      ⟨"x", 2, 32, true, false, false, some ⟨.queue, none, none⟩, none, none, false⟩
    ∀ selection ∈ selections ⟨[queue, event], [], [], .empty, .empty, [], [], [], .empty,
        List.nodup_nil⟩ "x",
      selection = none ∨ selection = some (.variable .local queue) := by decide

end Env

end Eevee.Elab.Names
