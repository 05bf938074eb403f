/- Monomorphization returns when it reaches finitely many instantiations and no alias cycle. -/

import Mathlib.Data.Finset.Card
import Mathlib.Data.Set.Finite.List
import Mathlib.Order.Filter.AtTopBot.Basic
import Mathlib.Order.Filter.Finite
import Eevee.Classes.Formals
import Eevee.Classes.Traversal

set_option autoImplicit false
set_option relaxedAutoImplicit false

namespace Eevee.Classes.Termination

open Filter
open Eevee.Ast.Classes
open Eevee.Classes.Declarations (TypeRef TypeAlias CollectionAlias ParamDecl)
open Eevee.Classes.Defaults
open Eevee.Classes.Formals
open Eevee.Classes.Specialization
open Eevee.Classes.Traversal
open Eevee.Lib.Tables

/-! ### Steps that return -/

/-- The names of a list that are not recorded yet. -/
def remaining (names : Finset String) (m : Mono) : Finset String :=
  names.filter fun s => m.index s = none

/-- Recorded names stay recorded. -/
def Grows (m m' : Mono) : Prop := ∀ s, m'.index s = none → m.index s = none

theorem Grows.refl (m : Mono) : Grows m m := fun _ h => h

theorem Grows.trans {m₁ m₂ m₃ : Mono} (h : Grows m₁ m₂) (h' : Grows m₂ m₃) : Grows m₁ m₃ :=
  fun s hs => h s (h' s hs)

section

variable {names : Finset String}

theorem Grows.remaining {m m' : Mono} (h : Grows m m') :
    (remaining names m').card ≤ (remaining names m).card :=
  Finset.card_le_card (Finset.monotone_filter_right names fun s _ hs => h s hs)

variable (names)

/-- From every state with at most so many names left, the step returns. -/
def Total {α : Type} (k : Nat) (x : Build α) : Prop :=
  ∀ m, (remaining names m).card ≤ k → ∃ a m', x m = some (a, m') ∧ Grows m m'

variable {names} {α β : Type} {k : Nat}

theorem eventually_all_list {ι : Type} {l : List ι} {p : ι → Nat → Prop} :
    (∀ᶠ n in atTop, ∀ i ∈ l, p i n) ↔ ∀ i ∈ l, ∀ᶠ n in atTop, p i n :=
  eventually_all_finite (List.finite_toSet l)

theorem total_sequential : Sequential fun _ => Total names k where
  pure a m _ := ⟨a, m, rfl, Grows.refl m⟩
  bind := by
    intro α β x f hx hf m hm
    obtain ⟨a, m₁, hx, hgrows⟩ := hx m hm
    obtain ⟨b, m₂, hfa, hgrows'⟩ := hf a ⟨m, m₁, hx⟩ m₁ (hgrows.remaining.trans hm)
    exact ⟨b, m₂, bind_eq_some.mpr ⟨a, m₁, hx, hfa⟩, hgrows.trans hgrows'⟩

/-- With enough fuel for each type of a class there is enough for all of them. -/
theorem buildSpec_total {resolve : Nat → TypeRef → Build String} {ctx : SubstCtx}
    {tmpl : ClassDecl} (name : String)
    (h : ∀ tr ∈ classTypes tmpl, ∀ᶠ n in atTop, Total names k (resolve n tr)) :
    ∀ᶠ n in atTop, Total names k (buildSpec (resolve n) ctx tmpl name) := by
  filter_upwards [eventually_all_list.mpr h] with n hn
  exact buildSpec_sequential total_sequential name hn

end

/-! ### References that settle -/

section

variable (env : Env) (S : List (String × List String)) (ctx : SubstCtx)

/-- The aliases of a reference and of its arguments come to an end, and what it instantiates is on
the list. -/
inductive Settles : TypeRef → Prop
  | bound {name bound : String} {args : List TypeRef} (h : ctx.bindings name = some bound) :
    Settles (.mk name args)
  | classAlias {name : String} {args : List TypeRef} {target : TypeRef}
    (hbound : ctx.bindings name = none) (halias : ctx.aliases name = some target)
    (h : Settles target) : Settles (.mk name args)
  | globalAlias {name : String} {target : TypeRef} (hbound : ctx.bindings name = none)
    (halias : ctx.aliases name = none) (hglobal : env.globalAliases name = some target)
    (h : Settles target) : Settles (.mk name [])
  | named {name : String} {args : List TypeRef} (hbound : ctx.bindings name = none)
    (halias : ctx.aliases name = none) (hglobal : args = [] → env.globalAliases name = none)
    (hargs : ∀ arg ∈ args, Settles arg)
    (hlisted : ∀ argNames, DenotesAll env ctx args argNames → (env.templates name).isSome →
      (name, argNames) ∈ S) : Settles (.mk name args)

end

/-- A list of instantiations that the concrete classes, the global aliases and the bodies of the
listed instantiations do not leave. -/
structure Closed (classes : List ClassDecl) (globalAliases : List TypeAlias)
    (S : List (String × List String)) : Prop where
  concrete : ∀ c ∈ classes, c.params = [] →
    ∀ tr ∈ classTypes c,
      Settles (envOf classes globalAliases) S (bindAliases c.typeAliases SubstCtx.empty) tr
  aliases : ∀ a ∈ globalAliases, Settles (envOf classes globalAliases) S SubstCtx.empty a.target
  bodies : ∀ i ∈ S, ∀ tmpl, (envOf classes globalAliases).templates i.1 = some tmpl →
    ∀ tr ∈ classTypes tmpl, Settles (envOf classes globalAliases) S (specCtx tmpl i.2) tr

section

variable {env : Env} {S : List (String × List String)}

/-- The names of the listed instantiations. -/
def namesOf (env : Env) (S : List (String × List String)) : Finset String :=
  (S.map fun i => classNamed env i.1 i.2).toFinset

private theorem eventually_succ {P Q : Nat → Prop} (h : ∀ᶠ n in atTop, P n)
    (hPQ : ∀ n, P n → Q (n + 1)) : ∀ᶠ n in atTop, Q n := by
  obtain ⟨N, hN⟩ := eventually_atTop.mp h
  refine eventually_atTop.mpr ⟨N + 1, fun n hn => ?_⟩
  obtain ⟨n, rfl⟩ : ∃ n', n = n' + 1 := ⟨n - 1, by omega⟩
  exact hPQ n (hN n (by omega))

/-- Inserting a listed name leaves fewer of them. -/
theorem remaining_insert {names : Finset String} {m m' : Mono} {s : String} {slot : Nat}
    (hs : s ∈ names) (hnew : m.index s = none) (hm' : m'.index = m.index.insert s slot) :
    (remaining names m').card < (remaining names m).card := by
  refine Finset.card_lt_card (Finset.ssubset_iff_of_subset ?_ |>.mpr ⟨s, ?_, ?_⟩)
  · intro other hother
    simp only [remaining, Finset.mem_filter] at hother ⊢
    refine ⟨hother.1, ?_⟩
    by_cases hother' : other = s
    · exact hother' ▸ hnew
    · rw [← hother.2, hm', Names.insert_of_ne _ hother']
  · exact Finset.mem_filter.mpr ⟨hs, hnew⟩
  · simp [remaining, hm']

theorem specialize_total {k : Nat} {name : String} {argNames : List String}
    {r : Nat → SubstCtx → TypeRef → Build String}
    (hlisted : (env.templates name).isSome → (name, argNames) ∈ S)
    (hbody : ∀ tmpl, env.templates name = some tmpl → ∀ k' < k, ∀ᶠ n in atTop,
      Total (namesOf env S) k' (buildSpec (r n (specCtx tmpl argNames)) (specCtx tmpl argNames) tmpl
        (mangle name tmpl.params argNames))) :
    ∀ᶠ n in atTop, Total (namesOf env S) k (specialize env (r n) name argNames) := by
  cases htmpl : env.templates name with
  | none =>
    refine Eventually.of_forall fun n => ?_
    simp only [specialize, htmpl]
    exact total_sequential.pure name
  | some tmpl =>
    have hmem : mangle name tmpl.params argNames ∈ namesOf env S := by
      refine List.mem_toFinset.mpr
        (List.mem_map.mpr ⟨(name, argNames), hlisted (by simp [htmpl]), ?_⟩)
      simp only [classNamed, htmpl]
    have hstep : ∀ n, (∀ k', k = k' + 1 → Total (namesOf env S) k' (buildSpec
        (r n (specCtx tmpl argNames)) (specCtx tmpl argNames) tmpl
          (mangle name tmpl.params argNames))) →
        Total (namesOf env S) k (specialize env (r n) name argNames) := by
      intro n hbuild m hm
      by_cases hrecorded : (m.index (mangle name tmpl.params argNames)).isSome ∨
          mangle name tmpl.params argNames ∈ m.inProgress
      · refine ⟨mangle name tmpl.params argNames, m, ?_, Grows.refl m⟩
        simp only [specialize, htmpl]
        refine bind_eq_some.mpr ⟨m, m, rfl, ?_⟩
        rw [if_pos hrecorded]
        rfl
      · have hnew : m.index (mangle name tmpl.params argNames) = none :=
          Option.not_isSome_iff_eq_none.mp (not_or.mp hrecorded).1
        -- The reserved slot takes one name off the list before the body is built.
        let m₁ : Mono := ⟨m.out ++ [stub (mangle name tmpl.params argNames)],
          m.index.insert (mangle name tmpl.params argNames) m.out.length,
          mangle name tmpl.params argNames :: m.inProgress⟩
        have hlt : (remaining (namesOf env S) m₁).card < (remaining (namesOf env S) m).card :=
          remaining_insert hmem hnew rfl
        obtain ⟨k', rfl⟩ : ∃ k', k = k' + 1 := ⟨k - 1, by omega⟩
        obtain ⟨spec, m₂, hspec, hgrows⟩ := hbuild k' rfl m₁ (by omega)
        refine ⟨mangle name tmpl.params argNames, ⟨m₂.out.set m.out.length spec, m₂.index,
          m₂.inProgress.erase (mangle name tmpl.params argNames)⟩, ?_, ?_⟩
        · simp only [specialize, htmpl]
          refine bind_eq_some.mpr ⟨m, m, rfl, ?_⟩
          rw [if_neg hrecorded]
          refine bind_eq_some.mpr ⟨(), m₁, rfl, bind_eq_some.mpr ⟨spec, m₂, hspec, ?_⟩⟩
          exact bind_eq_some.mpr ⟨(), _, rfl, rfl⟩
        · intro s hs
          have hs' : m.index.insert (mangle name tmpl.params argNames) m.out.length s = none :=
            hgrows s hs
          by_cases hname : s = mangle name tmpl.params argNames
          · exact hname ▸ hnew
          · rwa [Names.insert_of_ne _ hname] at hs'
    cases k with
    | zero => exact Eventually.of_forall fun n => hstep n fun k' h => by omega
    | succ k =>
      filter_upwards [hbody tmpl htmpl k (Nat.lt_succ_self k)] with n hbuild
      refine hstep n fun k' h => ?_
      obtain rfl : k = k' := by omega
      exact hbuild

variable {classes : List ClassDecl} {globalAliases : List TypeAlias}

/-- With so many listed names left, a reference that settles resolves: by induction on their
number, and for one number on the way the reference settles. -/
theorem settles_total (hclosed : Closed classes globalAliases S) (k : Nat) :
    ∀ ctx tr, Settles (envOf classes globalAliases) S ctx tr →
      ∀ᶠ n in atTop, Total (namesOf (envOf classes globalAliases) S) k
        (resolve (envOf classes globalAliases) n ctx tr) := by
  induction k using Nat.strong_induction_on with
  | h k ihk =>
    intro ctx tr h
    induction h with
    | bound hbound =>
      refine eventually_succ (Eventually.of_forall fun _ => trivial) fun n (_ : True) => ?_
      simp only [resolve, hbound]
      exact total_sequential.pure _
    | classAlias hbound halias _ ih =>
      refine eventually_succ ih fun n hn => ?_
      simp only [resolve, hbound, halias]
      exact hn
    | globalAlias hbound halias hglobal _ ih =>
      refine eventually_succ ih fun n hn => ?_
      simp only [resolve, hbound, halias, List.isEmpty_nil, if_true, hglobal]
      exact hn
    | @named name args hbound halias hglobal hargs hlisted ih =>
      have hnone :
          (if args.isEmpty then (envOf classes globalAliases).globalAliases name else none) =
            none := by
        split
        · rename_i hempty
          exact hglobal (List.isEmpty_iff.mp hempty)
        · rfl
      have hspecialize : ∀ᶠ n in atTop, ∀ argNames,
          DenotesAll (envOf classes globalAliases) ctx args argNames →
            Total (namesOf (envOf classes globalAliases) S) k
              (specialize (envOf classes globalAliases)
                (fun ctx tr => resolve (envOf classes globalAliases) n ctx tr) name argNames) := by
        by_cases hdenotes : ∃ argNames, DenotesAll (envOf classes globalAliases) ctx args argNames
        · obtain ⟨argNames, hdenotes⟩ := hdenotes
          have hbody : ∀ tmpl, (envOf classes globalAliases).templates name = some tmpl →
              ∀ k' < k, ∀ᶠ n in atTop, Total (namesOf (envOf classes globalAliases) S) k'
                (buildSpec (resolve (envOf classes globalAliases) n (specCtx tmpl argNames))
                  (specCtx tmpl argNames) tmpl (mangle name tmpl.params argNames)) :=
            fun tmpl htmpl k' hk' => buildSpec_total _ fun tr htr =>
              ihk k' hk' (specCtx tmpl argNames) tr (hclosed.bodies (name, argNames)
                (hlisted argNames hdenotes (by simp [htmpl])) tmpl htmpl tr htr)
          filter_upwards [specialize_total (hlisted argNames hdenotes) hbody] with n hn argNames' h'
          exact hdenotes.unique h' ▸ hn
        · exact Eventually.of_forall fun n argNames h => absurd ⟨argNames, h⟩ hdenotes
      have hargs' := eventually_all_list.mpr ih
      refine eventually_succ (hargs'.and hspecialize) fun n hn => ?_
      simp only [resolve, hbound, halias, hnone]
      refine total_sequential.bind (total_sequential.mapM hn.1) fun argNames hrun => ?_
      obtain ⟨m, m', hrun⟩ := hrun
      split
      · exact total_sequential.pure name
      · exact hn.2 argNames (resolveAll_denotes (fun _ _ _ _ h => resolve_denotes h) hrun)

/-! ### Whole programs -/

theorem total_record {names : Finset String} {k : Nat} (name : String) (decl : ClassDecl) :
    Total names k (record name decl) := by
  intro m _
  refine ⟨(), _, rfl, fun s hs => ?_⟩
  cases hslot : m.index name with
  | some slot =>
    simp only [hslot] at hs
    exact hs
  | none =>
    simp only [hslot] at hs
    by_cases hname : s = name
    · exact hname ▸ hslot
    · rwa [Names.insert_of_ne _ hname] at hs

theorem buildConcrete_total (hclosed : Closed classes globalAliases S) (k : Nat) :
    ∀ᶠ n in atTop, Total (namesOf (envOf classes globalAliases) S) k
      (buildConcrete (envOf classes globalAliases) n classes) := by
  have hall : ∀ c ∈ classes.filter fun c => c.params.isEmpty, ∀ᶠ n in atTop,
      Total (namesOf (envOf classes globalAliases) S) k
        (buildSpec (resolve (envOf classes globalAliases) n
          (bindAliases c.typeAliases SubstCtx.empty)) (bindAliases c.typeAliases SubstCtx.empty) c
            c.name) := by
    intro c hc
    obtain ⟨hc, hparams⟩ := List.mem_filter.mp hc
    exact buildSpec_total c.name fun tr htr =>
      settles_total hclosed k _ tr (hclosed.concrete c hc (List.isEmpty_iff.mp hparams) tr htr)
  filter_upwards [eventually_all_list.mpr hall] with n hn
  exact total_sequential.forM fun c hc =>
    total_sequential.seq (hn c hc) fun spec => total_record c.name spec

theorem resolveAliases_total (hclosed : Closed classes globalAliases S) (k : Nat) :
    ∀ᶠ n in atTop, Total (namesOf (envOf classes globalAliases) S) k
      (resolveAliases (envOf classes globalAliases) n globalAliases) := by
  have hall : ∀ a ∈ globalAliases, ∀ᶠ n in atTop, Total (namesOf (envOf classes globalAliases) S) k
      (resolve (envOf classes globalAliases) n SubstCtx.empty a.target) := fun a ha =>
    settles_total hclosed k _ _ (hclosed.aliases a ha)
  filter_upwards [eventually_all_list.mpr hall] with n hn
  exact total_sequential.foldlM (fun a ha names => total_sequential.map (hn a ha) _) _

/-- Where finitely many instantiations are reached and no alias leads back to itself,
monomorphization returns. -/
theorem monomorphize_returns (hclosed : Closed classes globalAliases S) :
    ∃ n result, monomorphize n classes globalAliases = some result := by
  let names := namesOf (envOf classes globalAliases) S
  obtain ⟨n, hclasses, haliases⟩ := ((buildConcrete_total hclosed names.card).and
    (resolveAliases_total hclosed names.card)).exists
  obtain ⟨_, m, hm, hgrows⟩ := hclasses Mono.empty (Finset.card_filter_le _ _)
  obtain ⟨aliasNames, m', hm', -⟩ := haliases m
    (hgrows.remaining.trans (Finset.card_filter_le _ _))
  refine ⟨n, (m'.out, aliasNames), ?_⟩
  simp only [monomorphize, hm, hm', Option.bind_eq_bind, Option.bind_some, Option.pure_def]

end

/-! ### A list that instantiates itself -/

/-- A field whose class has arguments. -/
def fieldWith (name className : String) (typeArgs : List TypeRef) : VarDecl :=
  { fieldOf name (some className) none with typeArgs }

/-- `class node #(type T); node#(T) next; endclass`. -/
def nodeTemplate : ClassDecl :=
  { stub "node" with
    fields := [fieldWith "next" "node" [.mk "T" []]]
    params := [⟨"T", true, none⟩] }

/-- `class main; node#(int) head; endclass`. -/
def nodeMain : ClassDecl :=
  { stub "main" with fields := [fieldWith "head" "node" [.mk "int" []]] }

private theorem denotes_int {ctx : SubstCtx} {argNames : List String}
    (hbound : ctx.bindings "int" = none) (halias : ctx.aliases "int" = none)
    (h : DenotesAll (envOf [nodeTemplate, nodeMain] []) ctx [.mk "int" []] argNames) :
    argNames = ["int"] :=
  h.unique (.cons (.named hbound halias (fun _ => rfl) .nil) .nil)

private theorem forall_types_fieldWith {settles : TypeRef → Prop} {name field className : String}
    {typeArgs : List TypeRef} {params : List ParamDecl} (h : settles (.mk className typeArgs)) :
    ∀ tr ∈ classTypes { stub name with fields := [fieldWith field className typeArgs], params },
      settles tr := by
  intro tr htr
  obtain rfl : tr = .mk className typeArgs := List.mem_singleton.mp htr
  exact h

private theorem node_closed :
    Closed [nodeTemplate, nodeMain] [] [("node", ["int"])] where
  concrete c hc hparams := by
    rcases List.mem_pair.mp hc with rfl | rfl
    · cases hparams
    · refine forall_types_fieldWith
        (.named rfl rfl (fun h => absurd h (List.cons_ne_nil _ _)) (fun arg harg => ?_) ?_)
      · obtain rfl := List.mem_singleton.mp harg
        refine .named rfl rfl (fun _ => rfl) (fun arg harg => absurd harg List.not_mem_nil) ?_
        intro argNames _ htemplate
        cases htemplate
      · intro argNames hargs _
        rw [denotes_int rfl rfl hargs]
        exact List.mem_singleton_self _
  aliases a ha := absurd ha List.not_mem_nil
  bodies i hi tmpl htmpl := by
    obtain rfl := List.mem_singleton.mp hi
    cases htmpl
    refine forall_types_fieldWith
      (.named rfl rfl (fun h => absurd h (List.cons_ne_nil _ _)) (fun arg harg => ?_) ?_)
    · obtain rfl := List.mem_singleton.mp harg
      exact .bound rfl
    · intro argNames hargs _
      rw [hargs.unique (.cons (.bound rfl) .nil)]
      exact List.mem_singleton_self _

theorem monomorphize_returns_node :
    ∃ n result, monomorphize n [nodeTemplate, nodeMain] [] = some result :=
  monomorphize_returns node_closed

/-! ### Inputs that do not return -/

/-- `class box #(type T); endclass`. -/
def boxDecl : ClassDecl := { stub "box" with params := [⟨"T", true, none⟩] }

/-- `class grow #(type T); grow#(box#(T)) next; endclass`. -/
def growTemplate : ClassDecl :=
  { stub "grow" with
    fields := [fieldWith "next" "grow" [.mk "box" [.mk "T" []]]]
    params := [⟨"T", true, none⟩] }

/-- `class main; grow#(int) root; endclass`. -/
def growMain : ClassDecl :=
  { stub "main" with fields := [fieldWith "root" "grow" [.mk "int" []]] }

def growEnv : Env := envOf [boxDecl, growTemplate, growMain] []

/-- All recorded names and names in progress are short. -/
private def Short (length : Nat) (m : Mono) : Prop :=
  ∀ s, (m.index s).isSome ∨ s ∈ m.inProgress → s.length ≤ length

private theorem self_alias_diverges (n : Nat) (m : Mono) :
    resolve (envOf [] [⟨"A", .mk "A" []⟩]) n SubstCtx.empty (.mk "A" []) m = none := by
  induction n with
  | zero => rfl
  | succ n ih => exact ih

private theorem length_sanitize {s : String} (hs : s ≠ "") : (sanitize s).length = s.length := by
  have hlist : s.toList.isEmpty = false := by
    rw [List.isEmpty_eq_false_iff]
    exact fun h => hs (String.toList_injective h)
  simp [sanitize, hlist, String.length_toList]

private theorem length_mangle {base arg : String} {p : ParamDecl} (harg : arg ≠ "") :
    (mangle base [p] [arg]).length = base.length + 2 + arg.length := by
  simp only [mangle, withArgs, List.map_cons, List.map_nil, suffix, partOf, Option.some_or,
    Option.getD_some, String.join_cons, String.join_nil, String.length_append, length_sanitize harg,
    String.append_empty]
  have hseparator : "__".length = 2 := by decide
  omega

private theorem length_box {s : String} (hs : s ≠ "") :
    (mangle "box" boxDecl.params [s]).length = 5 + s.length := by
  rw [show boxDecl.params = [⟨"T", true, none⟩] from rfl, length_mangle hs,
    show "box".length = 3 by decide]

private theorem length_grow {s : String} (hs : s ≠ "") :
    (mangle "grow" growTemplate.params [s]).length = 6 + s.length := by
  rw [show growTemplate.params = [⟨"T", true, none⟩] from rfl, length_mangle hs,
    show "grow".length = 4 by decide]

private theorem short_reserve {length : Nat} {name : String} {m : Mono} (out : List ClassDecl)
    (slot : Nat) (hshort : Short length m) (hname : name.length ≤ length) :
    Short length ⟨out, m.index.insert name slot, name :: m.inProgress⟩ := by
  rintro other (hother | hother)
  · by_cases h : other = name
    · exact h ▸ hname
    · simp only [Names.insert_of_ne _ h] at hother
      exact hshort other (.inl hother)
  · rcases List.mem_cons.mp hother with rfl | hother
    · exact hname
    · exact hshort other (.inr hother)

private theorem specCtx_grow {b : String} (hb : b ≠ "") :
    specCtx growTemplate [b] = ⟨Names.empty.insert "T" b, Names.empty, Names.empty⟩ := by
  simp [specCtx, bindAliases, bindFormals, growTemplate, stub, withArgs, SubstCtx.empty, hb]

/-- The body of `box` refers to nothing, so only its own name is recorded. -/
private theorem short_box {r : SubstCtx → TypeRef → Build String} {s b : String} {m m' : Mono}
    (hs : s ≠ "") (h : specialize growEnv r "box" [s] m = some (b, m'))
    (hshort : Short (6 + s.length) m) : Short (6 + s.length) m' := by
  have htmpl : growEnv.templates "box" = some boxDecl := rfl
  rcases specialize_cases htmpl h with ⟨-, rfl⟩ | ⟨-, spec, m₂, hspec, rfl⟩
  · exact hshort
  · obtain ⟨-, rfl⟩ := Prod.mk.inj (Option.some.inj hspec)
    have hlength : (mangle "box" boxDecl.params [s]).length ≤ 6 + s.length := by
      rw [length_box hs]
      omega
    have hreserved := short_reserve m.out m.out.length hshort hlength
    rintro name (hname | hname)
    · exact hreserved name (.inl hname)
    · exact hreserved name (.inr (List.mem_of_mem_erase hname))

private theorem short_args {n : Nat} {ctx : SubstCtx} {s : String} {argNames : List String}
    {m m' : Mono} (hs : s ≠ "") (hT : ctx.bindings "T" = some s) (hbox : ctx.bindings "box" = none)
    (haliases : ctx.aliases = Names.empty) (hshort : Short (6 + s.length) m)
    (h : [TypeRef.mk "box" [.mk "T" []]].mapM (fun arg => resolve growEnv n ctx arg) m =
      some (argNames, m')) : Short (6 + s.length) m' := by
  have hnone : ∀ name, ctx.aliases name = none := fun name => haliases ▸ rfl
  rw [List.mapM_cons] at h
  obtain ⟨b, m₁, hb, h⟩ := bind_eq_some.mp h
  obtain ⟨_, _, hnil, h⟩ := bind_eq_some.mp h
  obtain ⟨-, rfl⟩ := pure_eq_some.mp hnil
  obtain ⟨-, rfl⟩ := pure_eq_some.mp h
  cases n with
  | zero => cases hb
  | succ n =>
    simp only [resolve, hbox, hnone] at hb
    obtain ⟨names, m₂, hnames, hb⟩ := bind_eq_some.mp hb
    rw [List.mapM_cons] at hnames
    obtain ⟨t, m₃, ht, hnames⟩ := bind_eq_some.mp hnames
    obtain ⟨_, _, hnil, hnames⟩ := bind_eq_some.mp hnames
    obtain ⟨rfl, rfl⟩ := pure_eq_some.mp hnil
    obtain ⟨rfl, rfl⟩ := pure_eq_some.mp hnames
    cases n with
    | zero => cases ht
    | succ n =>
      simp only [resolve, hT] at ht
      obtain ⟨rfl, rfl⟩ := pure_eq_some.mp ht
      rw [if_neg (by simp)] at hb
      exact short_box hs hb hshort

/-- The class of a long argument is new, and its body asks for a longer one. -/
private theorem grow_new {n : Nat} {b result : String} {m m' : Mono} (hb : b ≠ "")
    (hshort : Short (5 + b.length) m)
    (hbody : ∀ m, Short (6 + b.length) m → resolve growEnv n (specCtx growTemplate [b])
      (.mk "grow" [.mk "box" [.mk "T" []]]) m = none)
    (h : specialize growEnv (fun ctx tr => resolve growEnv n ctx tr) "grow" [b] m =
      some (result, m')) : False := by
  have htmpl : growEnv.templates "grow" = some growTemplate := rfl
  rcases specialize_cases htmpl h with ⟨hrecorded, -⟩ | ⟨-, spec, m₂, hspec, -⟩
  · have hle := hshort _ hrecorded
    rw [length_grow hb] at hle
    omega
  · obtain ⟨base, _, hbase, hspec⟩ := bind_eq_some.mp hspec
    obtain ⟨-, rfl⟩ := pure_eq_some.mp hbase
    obtain ⟨fields, _, hfields, -⟩ := bind_eq_some.mp hspec
    rw [show growTemplate.fields = [fieldWith "next" "grow" [.mk "box" [.mk "T" []]]] from rfl,
      List.mapM_cons] at hfields
    obtain ⟨field, _, hfield, -⟩ := bind_eq_some.mp hfields
    obtain ⟨type, _, htype, -⟩ := bind_eq_some.mp hfield
    obtain ⟨resolved, _, hresolved, -⟩ := bind_eq_some.mp htype
    have hlonger : Short (6 + b.length) m := fun name hname => (hshort name hname).trans (by omega)
    cases (hbody _ (short_reserve _ _ hlonger (length_grow hb).le)).symm.trans hresolved

private theorem grow_diverges (n : Nat) : ∀ (s : String) (ctx : SubstCtx) (m : Mono), s ≠ "" →
    ctx.bindings "T" = some s → ctx.bindings "grow" = none → ctx.bindings "box" = none →
    ctx.aliases = Names.empty → Short (6 + s.length) m →
    resolve growEnv n ctx (.mk "grow" [.mk "box" [.mk "T" []]]) m = none := by
  induction n with
  | zero => exact fun _ _ _ _ _ _ _ _ _ => rfl
  | succ n ih =>
    intro s ctx m hs hT hgrow hbox haliases hshort
    by_contra hsome
    obtain ⟨⟨result, m'⟩, h⟩ := Option.ne_none_iff_exists'.mp hsome
    have hnone : ∀ name, ctx.aliases name = none := fun name => haliases ▸ rfl
    have hargs : DenotesAll growEnv ctx [.mk "box" [.mk "T" []]]
        [mangle "box" boxDecl.params [s]] :=
      .cons (.named hbox (hnone "box") (fun h => absurd h (List.cons_ne_nil _ _))
        (.cons (.bound hT) .nil)) .nil
    simp only [resolve, hgrow, hnone] at h
    obtain ⟨argNames, m₁, hrun, h⟩ := bind_eq_some.mp h
    have hshort₁ := short_args hs hT hbox haliases hshort hrun
    obtain rfl := (resolveAll_denotes (fun _ _ _ _ h => resolve_denotes h) hrun).unique hargs
    rw [if_neg (by simp)] at h
    have hlength := length_box hs
    have hb : mangle "box" boxDecl.params [s] ≠ "" := by
      intro h
      rw [h] at hlength
      simp at hlength
      omega
    have hctx := specCtx_grow hb
    refine grow_new hb (fun name hname => (hshort₁ name hname).trans (by omega)) (fun m hm => ?_) h
    exact ih _ _ m hb (by simp [hctx]) (by rw [hctx]; rfl) (by rw [hctx]; rfl) (by rw [hctx]) hm

private theorem grow_int_diverges (n : Nat) :
    resolve growEnv n SubstCtx.empty (.mk "grow" [.mk "int" []]) Mono.empty = none := by
  by_contra hsome
  obtain ⟨⟨result, m'⟩, h⟩ := Option.ne_none_iff_exists'.mp hsome
  cases n with
  | zero => cases h
  | succ n =>
    cases n with
    | zero => cases h
    | succ n =>
      have hctx := specCtx_grow (show "int" ≠ "" by decide)
      refine grow_new (by decide) ?_ (fun m hm => ?_)
        (show specialize growEnv (fun ctx tr => resolve growEnv (n + 1) ctx tr) "grow" ["int"]
          Mono.empty = some (result, m') from h)
      · rintro name (hname | hname) <;> cases hname
      · exact grow_diverges _ _ _ m (by decide) (by rw [hctx]; rfl) (by rw [hctx]; rfl)
          (by rw [hctx]; rfl) (by rw [hctx]) hm

/-- Neither an alias of itself nor a template whose arguments grow is cut. -/
theorem monomorphize_diverges :
    (¬ ∃ n result, monomorphize n [] [⟨"A", .mk "A" []⟩] = some result) ∧
      ¬ ∃ n result, monomorphize n [boxDecl, growTemplate, growMain] [] = some result := by
  constructor
  · rintro ⟨n, result, h⟩
    simp only [monomorphize, Option.bind_eq_bind, Option.bind_eq_some_iff] at h
    obtain ⟨⟨_, m⟩, hm, ⟨aliases, m'⟩, hm', _⟩ := h
    obtain ⟨_, _, hresolve, _⟩ := bind_eq_some.mp hm'
    obtain ⟨_, _, hresolve, _⟩ := bind_eq_some.mp hresolve
    rw [self_alias_diverges] at hresolve
    cases hresolve
  · rintro ⟨n, result, h⟩
    simp only [monomorphize, Option.bind_eq_bind, Option.bind_eq_some_iff] at h
    obtain ⟨⟨_, m⟩, hm, -⟩ := h
    obtain ⟨_, _, hmain, -⟩ := bind_eq_some.mp hm
    obtain ⟨spec, _, hspec, -⟩ := bind_eq_some.mp hmain
    obtain ⟨base, _, hbase, hspec⟩ := bind_eq_some.mp hspec
    obtain ⟨-, rfl⟩ := pure_eq_some.mp hbase
    obtain ⟨fields, _, hfields, -⟩ := bind_eq_some.mp hspec
    rw [show growMain.fields = [fieldWith "root" "grow" [.mk "int" []]] from rfl,
      List.mapM_cons] at hfields
    obtain ⟨field, _, hfield, -⟩ := bind_eq_some.mp hfields
    obtain ⟨type, _, htype, -⟩ := bind_eq_some.mp hfield
    obtain ⟨resolved, _, hresolved, -⟩ := bind_eq_some.mp htype
    cases (grow_int_diverges n).symm.trans hresolved

end Eevee.Classes.Termination
