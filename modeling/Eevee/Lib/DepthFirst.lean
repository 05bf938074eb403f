/- Depth-first search with two marks: what it leaves has no cycle and nothing undeclared below
it. -/

import Mathlib.Data.Finset.Card
import Mathlib.Data.List.Basic
import Mathlib.Logic.Function.Basic
import Mathlib.Logic.Relation
import Mathlib.Tactic.Common
import Mathlib.Tactic.SplitIfs

set_option autoImplicit false
set_option relaxedAutoImplicit false

namespace Eevee.Lib.DepthFirst

universe u

variable {α : Type u}

inductive Mark
  | entered
  | left
  deriving DecidableEq

/-- The marks, and the nodes from the root to the one that is visited. -/
structure Search (α : Type u) where
  marks : α → Option Mark
  stack : List α

def Search.start : Search α := ⟨fun _ => none, []⟩

/-- A path that comes back to its last node, or a child of a node that is not declared. -/
inductive Failure (α : Type u)
  | cycle (path : List α)
  | undeclared (node child : α)

inductive Outcome (α : Type u)
  | ok (s : Search α)
  | error (failure : Failure α)
  | timeout

def Outcome.bind (o : Outcome α) (f : Search α → Outcome α) : Outcome α :=
  match o with
  | .ok s => f s
  | .error failure => .error failure
  | .timeout => .timeout

theorem Outcome.bind_eq_ok {o : Outcome α} {f : Search α → Outcome α} {s : Search α} :
    o.bind f = .ok s ↔ ∃ t, o = .ok t ∧ f t = .ok s := by
  cases o <;> simp [Outcome.bind]

theorem Outcome.bind_ne_timeout {o : Outcome α} {f : Search α → Outcome α} (h : o ≠ .timeout)
    (hf : ∀ t, o = .ok t → f t ≠ .timeout) : o.bind f ≠ .timeout := by
  cases o with
  | ok t => exact hf t rfl
  | error failure => exact fun he => by cases he
  | timeout => exact absurd rfl h

/-! ### Grounded nodes -/

section

variable {declared : α → Bool} {children : α → List α} {a b : α}

/-- All nodes below are declared, and every way down ends. -/
inductive Grounded (declared : α → Bool) (children : α → List α) : α → Prop
  | intro (a : α) (hdeclared : ∀ b ∈ children a, declared b = true)
      (h : ∀ b ∈ children a, Grounded declared children b) : Grounded declared children a

/-- One step down. -/
def Child (children : α → List α) (a b : α) : Prop := b ∈ children a

/-- No grounded node is below itself. -/
theorem Grounded.acyclic (h : Grounded declared children a) :
    ¬ Relation.TransGen (Child children) a a := by
  induction h with
  | intro a _ _ ih =>
    intro hcycle
    obtain ⟨b, hstep, hrest⟩ := Relation.TransGen.head'_iff.mp hcycle
    exact ih b hstep (Relation.TransGen.tail' hrest hstep)

end

/-! ### Marks -/

section

variable {s t : Search α}

/-- Marks stay, and nodes that were left stay so. -/
structure Extends (s t : Search α) : Prop where
  left : ∀ a, s.marks a = some .left → t.marks a = some .left
  marked : ∀ a, s.marks a ≠ none → t.marks a ≠ none

theorem Extends.refl (s : Search α) : Extends s s := ⟨fun _ h => h, fun _ h => h⟩

theorem Extends.trans {r : Search α} (h : Extends s t) (h' : Extends t r) : Extends s r :=
  ⟨fun a ha => h'.left a (h.left a ha), fun a ha => h'.marked a (h.marked a ha)⟩

def unmarked (all : Finset α) (s : Search α) : Nat := (all.filter fun a => s.marks a = none).card

theorem unmarked_mono {all : Finset α} (h : Extends s t) : unmarked all t ≤ unmarked all s := by
  refine Finset.card_le_card fun a ha => ?_
  rw [Finset.mem_filter] at ha ⊢
  refine ⟨ha.1, ?_⟩
  by_contra hne
  exact h.marked a hne ha.2

end

variable [DecidableEq α]

def Search.enter (s : Search α) (a : α) : Search α :=
  ⟨Function.update s.marks a (some .entered), s.stack ++ [a]⟩

def Search.leave (s : Search α) (a : α) : Search α :=
  ⟨Function.update s.marks a (some .left), s.stack.dropLast⟩

theorem marks_enter (s : Search α) (a b : α) :
    (s.enter a).marks b = if b = a then some .entered else s.marks b :=
  Function.update_apply _ _ _ _

theorem marks_leave (s : Search α) (a b : α) :
    (s.leave a).marks b = if b = a then some .left else s.marks b :=
  Function.update_apply _ _ _ _

variable (declared : α → Bool) (children : α → List α)

/-- Visits the children of a node in order. -/
def visitChildren (visit : α → Search α → Outcome α) (a : α) :
    List α → Search α → Outcome α
  | [], s => .ok s
  | child :: rest, s =>
    if declared child then (visit child s).bind (visitChildren visit a rest)
    else .error (.undeclared a child)

def visit : Nat → α → Search α → Outcome α
  | 0, _, _ => .timeout
  | fuel + 1, a, s =>
    match s.marks a with
    | some .left => .ok s
    | some .entered => .error (.cycle (s.stack.drop ((s.stack.idxOf? a).getD 0) ++ [a]))
    | none => (visitChildren declared (visit fuel) a (children a) (s.enter a)).bind fun t =>
      .ok (t.leave a)

/-- Visits the roots in order. -/
def visitRoots (fuel : Nat) : List α → Search α → Outcome α
  | [], s => .ok s
  | root :: rest, s => (visit declared children fuel root s).bind (visitRoots fuel rest)

/-! ### Soundness -/

section

variable {declared : α → Bool} {children : α → List α} {fuel : Nat} {a : α} {s t : Search α}

/-- Every node that was left is grounded. -/
def Sound (declared : α → Bool) (children : α → List α) (s : Search α) : Prop :=
  ∀ a, s.marks a = some .left → Grounded declared children a

theorem extends_enter (h : s.marks a = none) : Extends s (s.enter a) := by
  constructor <;> intro b hb <;> rw [marks_enter]
  · rwa [if_neg]
    rintro rfl
    rw [h] at hb
    cases hb
  · split_ifs
    · exact Option.some_ne_none _
    · exact hb

theorem extends_leave (s : Search α) (a : α) : Extends s (s.leave a) := by
  constructor <;> intro b hb <;> rw [marks_leave] <;> split_ifs
  · rfl
  · exact hb
  · exact Option.some_ne_none _
  · exact hb

theorem sound_enter (hs : Sound declared children s) : Sound declared children (s.enter a) := by
  intro b hb
  rw [marks_enter] at hb
  split_ifs at hb with heq
  · cases hb
  · exact hs b hb

/-- What a visit that ends well has done. -/
structure Visited (declared : α → Bool) (children : α → List α) (a : α) (s t : Search α) :
    Prop where
  mono : Extends s t
  sound : Sound declared children s → Sound declared children t
  left : t.marks a = some .left

omit [DecidableEq α] in
theorem visited_children {visitOne : α → Search α → Outcome α}
    (ih : ∀ b s t, visitOne b s = .ok t → Visited declared children b s t) {nodes : List α}
    (h : visitChildren declared visitOne a nodes s = .ok t) :
    Extends s t ∧ (Sound declared children s → Sound declared children t) ∧
      ∀ b ∈ nodes, declared b = true ∧ t.marks b = some .left := by
  induction nodes generalizing s with
  | nil =>
    cases h
    exact ⟨.refl _, id, fun _ hb => by cases hb⟩
  | cons b rest ihrest =>
    rw [visitChildren] at h
    split_ifs at h with hdeclared
    obtain ⟨r, hr, hrest⟩ := Outcome.bind_eq_ok.mp h
    have hb := ih b s r hr
    obtain ⟨hmono, hsound, hleft⟩ := ihrest hrest
    refine ⟨hb.mono.trans hmono, fun hs => hsound (hb.sound hs), fun c hc => ?_⟩
    rcases List.mem_cons.mp hc with rfl | hc
    · exact ⟨hdeclared, hmono.left _ hb.left⟩
    · exact hleft c hc

theorem visited_of_visit (h : visit declared children fuel a s = .ok t) :
    Visited declared children a s t := by
  induction fuel generalizing a s t with
  | zero => cases h
  | succ fuel ih =>
    rw [visit] at h
    cases hmark : s.marks a with
    | some mark =>
      cases mark with
      | left =>
        rw [hmark] at h
        cases h
        exact ⟨.refl _, id, hmark⟩
      | entered =>
        rw [hmark] at h
        cases h
    | none =>
      rw [hmark] at h
      obtain ⟨r, hr, hleave⟩ := Outcome.bind_eq_ok.mp h
      cases hleave
      obtain ⟨hmono, hsound, hleft⟩ := visited_children (fun b s t hb => ih hb) hr
      refine ⟨((extends_enter hmark).trans hmono).trans (extends_leave r a), fun hs b hb => ?_,
        (marks_leave r a a).trans (if_pos rfl)⟩
      have hr' := hsound (sound_enter hs)
      rw [marks_leave] at hb
      split_ifs at hb with heq
      · subst heq
        exact .intro b (fun c hc => (hleft c hc).1) fun c hc => hr' c (hleft c hc).2
      · exact hr' b hb

theorem visited_roots {roots : List α} (h : visitRoots declared children fuel roots s = .ok t) :
    Extends s t ∧ (Sound declared children s → Sound declared children t) ∧
      ∀ a ∈ roots, t.marks a = some .left := by
  induction roots generalizing s with
  | nil =>
    cases h
    exact ⟨.refl _, id, fun _ ha => by cases ha⟩
  | cons root rest ih =>
    obtain ⟨r, hr, hrest⟩ := Outcome.bind_eq_ok.mp h
    have hroot := visited_of_visit hr
    obtain ⟨hmono, hsound, hleft⟩ := ih hrest
    refine ⟨hroot.mono.trans hmono, fun hs => hsound (hroot.sound hs), fun a ha => ?_⟩
    rcases List.mem_cons.mp ha with rfl | ha
    · exact hmono.left _ hroot.left
    · exact hleft a ha

/-- All roots of a search that ends well are grounded. -/
theorem grounded_of_roots {roots : List α}
    (h : visitRoots declared children fuel roots .start = .ok t) :
    ∀ a ∈ roots, Grounded declared children a := by
  obtain ⟨-, hsound, hleft⟩ := visited_roots h
  exact fun a ha => hsound (fun _ hnone => by cases hnone) a (hleft a ha)

/-! ### Termination -/

theorem unmarked_enter {all : Finset α} (ha : a ∈ all) (h : s.marks a = none) :
    unmarked all (s.enter a) < unmarked all s := by
  refine Finset.card_lt_card ⟨fun b hb => ?_, fun hsub => ?_⟩
  · rw [Finset.mem_filter] at hb ⊢
    refine ⟨hb.1, ?_⟩
    by_contra hne
    exact (extends_enter h).marked b hne hb.2
  · have hmem := (Finset.mem_filter.mp (hsub (Finset.mem_filter.mpr ⟨ha, h⟩))).2
    rw [marks_enter, if_pos rfl] at hmem
    cases hmem

theorem children_ne_timeout {all : Finset α} (hall : ∀ b, declared b = true → b ∈ all)
    (ih : ∀ b ∈ all, ∀ r : Search α, unmarked all r < fuel →
      visit declared children fuel b r ≠ .timeout) {nodes : List α} (hs : unmarked all s < fuel) :
    visitChildren declared (visit declared children fuel) a nodes s ≠ .timeout := by
  induction nodes generalizing s with
  | nil => exact fun he => by cases he
  | cons b rest ihrest =>
    rw [visitChildren]
    split_ifs with hdeclared
    · refine Outcome.bind_ne_timeout (ih b (hall b hdeclared) s hs) fun t ht => ?_
      exact ihrest (Nat.lt_of_le_of_lt (unmarked_mono (visited_of_visit ht).mono) hs)
    · exact fun he => by cases he

/-- A visit takes a step for each unmarked node at most. -/
theorem visit_ne_timeout {all : Finset α} (hall : ∀ b, declared b = true → b ∈ all) (ha : a ∈ all)
    (hs : unmarked all s < fuel) : visit declared children fuel a s ≠ .timeout := by
  induction fuel generalizing a s with
  | zero => exact absurd hs (Nat.not_lt_zero _)
  | succ fuel ih =>
    rw [visit]
    cases hmark : s.marks a with
    | some mark => cases mark <;> exact fun he => by cases he
    | none =>
      have henter : unmarked all (s.enter a) < fuel :=
        Nat.lt_of_lt_of_le (unmarked_enter ha hmark) (Nat.le_of_lt_succ hs)
      refine Outcome.bind_ne_timeout (children_ne_timeout hall (fun b hb r hr => ih hb hr) henter)
        fun t _ he => ?_
      cases he

theorem roots_ne_timeout {all : Finset α} (hall : ∀ b, declared b = true → b ∈ all)
    {roots : List α} (hroots : ∀ a ∈ roots, a ∈ all) (hs : unmarked all s < fuel) :
    visitRoots declared children fuel roots s ≠ .timeout := by
  induction roots generalizing s with
  | nil => exact fun he => by cases he
  | cons root rest ih =>
    refine Outcome.bind_ne_timeout (visit_ne_timeout hall (hroots root List.mem_cons_self) hs)
      fun t ht => ?_
    exact ih (fun a ha => hroots a (List.mem_cons_of_mem _ ha))
      (Nat.lt_of_le_of_lt (unmarked_mono (visited_of_visit ht).mono) hs)

/-- With fuel for each declared node and one more, a search ends. -/
theorem search_ne_timeout {all : Finset α} (hall : ∀ b, declared b = true → b ∈ all)
    {roots : List α} (hroots : ∀ a ∈ roots, a ∈ all) (hfuel : all.card < fuel) :
    visitRoots declared children fuel roots .start ≠ .timeout :=
  roots_ne_timeout hall hroots (Nat.lt_of_le_of_lt (Finset.card_filter_le _ _) hfuel)

end

end Eevee.Lib.DepthFirst
