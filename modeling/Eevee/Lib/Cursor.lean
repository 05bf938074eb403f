/- Walks over an unordered list in the order of its members: least first, then what follows. -/

import Mathlib.Data.List.Basic
import Mathlib.Data.List.Perm.Basic
import Mathlib.Tactic.Common

set_option autoImplicit false
set_option relaxedAutoImplicit false

namespace Eevee.Lib.Cursor

universe u

variable {α : Type u}

/-- A strict total order as a test. -/
structure Ordered (lt : α → α → Bool) : Prop where
  irrefl : ∀ a, lt a a = false
  trans : ∀ a b c, lt a b = true → lt b c = true → lt a c = true
  total : ∀ a b, lt a b = true ∨ a = b ∨ lt b a = true

theorem Ordered.flip {lt : α → α → Bool} (h : Ordered lt) : Ordered fun a b => lt b a where
  irrefl := h.irrefl
  trans a b c hab hbc := h.trans c b a hbc hab
  total a b := (h.total a b).elim (fun hab => .inr (.inr hab)) fun hba =>
    hba.elim (fun heq => .inr (.inl heq)) .inl

/-- The first of the members in the order. -/
def least (lt : α → α → Bool) : List α → Option α
  | [] => none
  | a :: as =>
    match least lt as with
    | none => some a
    | some m => some (if lt a m then a else m)

/-- The first of the members above `a`. -/
def following (lt : α → α → Bool) (as : List α) (a : α) : Option α := least lt (as.filter (lt a))

/-- The values that a walk yields, from where it stands. -/
inductive Visits (next : α → Option α) : Option α → List α → Prop
  | stop : Visits next none []
  | visit {a : α} {l : List α} (rest : Visits next (next a) l) : Visits next (some a) (a :: l)

section

variable {lt : α → α → Bool} {as : List α}

theorem least_eq_none : least lt as = none ↔ as = [] := by
  cases as with
  | nil => exact iff_of_true rfl rfl
  | cons a as =>
    refine iff_of_false (fun h => ?_) (List.cons_ne_nil _ _)
    rw [least] at h
    cases hm : least lt as <;> simp [hm] at h

/-- The first member is a member, and every other one is above it. -/
theorem least_spec (h : Ordered lt) {m : α} (hm : least lt as = some m) :
    m ∈ as ∧ ∀ a ∈ as, a = m ∨ lt m a = true := by
  induction as generalizing m with
  | nil => cases hm
  | cons b bs ih =>
    rw [least] at hm
    cases hbs : least lt bs with
    | none =>
      rw [hbs] at hm
      obtain rfl : b = m := Option.some.inj hm
      obtain rfl := least_eq_none.mp hbs
      exact ⟨List.mem_singleton_self _, fun a ha => .inl (List.mem_singleton.mp ha)⟩
    | some c =>
      rw [hbs] at hm
      obtain ⟨hmem, hall⟩ := ih hbs
      have hmin : (if lt b c then b else c) = m := Option.some.inj hm
      by_cases hbc : lt b c = true
      · rw [if_pos hbc] at hmin
        subst hmin
        refine ⟨List.mem_cons_self, fun a ha => ?_⟩
        rcases List.mem_cons.mp ha with rfl | ha'
        · exact .inl rfl
        · exact .inr ((hall a ha').elim (fun heq => heq ▸ hbc) fun hca => h.trans _ _ _ hbc hca)
      · rw [if_neg hbc] at hmin
        subst hmin
        refine ⟨List.mem_cons_of_mem _ hmem, fun a ha => ?_⟩
        rcases List.mem_cons.mp ha with rfl | ha'
        · exact (h.total a c).elim (fun hac => absurd hac hbc) fun hor =>
            hor.elim .inl .inr
        · exact hall a ha'

/-- A walk over what is above a bound visits it in order. -/
theorem visits_filter (h : Ordered lt) (n : Nat) (p : α → Bool)
    (hup : ∀ a ∈ as, ∀ b, p b = true → lt b a = true → p a = true)
    (hn : (as.filter p).length ≤ n) :
    ∃ l, Visits (following lt as) (least lt (as.filter p)) l ∧ l.Pairwise (lt · · = true) ∧
      ∀ a, a ∈ l ↔ a ∈ as ∧ p a = true := by
  induction n generalizing p with
  | zero =>
    have hnil : as.filter p = [] := List.eq_nil_of_length_eq_zero (Nat.le_zero.mp hn)
    rw [hnil]
    refine ⟨[], .stop, .nil, fun a => ?_⟩
    rw [← List.mem_filter, hnil]
  | succ n ih =>
    cases hleast : least lt (as.filter p) with
    | none =>
      have hnil := least_eq_none.mp hleast
      refine ⟨[], .stop, .nil, fun a => ?_⟩
      rw [← List.mem_filter, hnil]
    | some m =>
      obtain ⟨hmem, hall⟩ := least_spec h hleast
      obtain ⟨hm, hpm⟩ := List.mem_filter.mp hmem
      have hsub : ∀ a ∈ as, lt m a = true → p a = true := fun a ha hlt => hup a ha m hpm hlt
      have hshort : (as.filter (lt m)).length < (as.filter p).length := by
        have hperm : as.filter (lt m) = (as.filter p).filter (lt m) := by
          rw [List.filter_filter]
          apply List.filter_congr
          intro a ha
          by_cases hlt : lt m a = true
          · simp [hlt, hsub a ha hlt]
          · simp [hlt]
        rw [hperm]
        exact List.length_filter_lt_length_iff_exists.mpr ⟨m, hmem, by simp [h.irrefl m]⟩
      obtain ⟨l, hvisits, hsorted, hl⟩ := ih (lt m) (fun a _ b hb hba => h.trans _ _ _ hb hba)
        (by omega)
      refine ⟨m :: l, .visit hvisits,
        List.pairwise_cons.mpr ⟨fun a ha => ((hl a).mp ha).2, hsorted⟩,
        fun a => ?_⟩
      rw [List.mem_cons, hl]
      constructor
      · rintro (rfl | ⟨ha, hlt⟩)
        · exact ⟨hm, hpm⟩
        · exact ⟨ha, hsub a ha hlt⟩
      · rintro ⟨ha, hp⟩
        exact (hall a (List.mem_filter.mpr ⟨ha, hp⟩)).imp id fun hlt => ⟨ha, hlt⟩

/-- A walk from the first member on visits every member once, in increasing order. -/
theorem visits_least (h : Ordered lt) (as : List α) :
    ∃ l, Visits (following lt as) (least lt as) l ∧ l.Pairwise (lt · · = true) ∧
      ∀ a, a ∈ l ↔ a ∈ as := by
  have hall := @visits_filter _ lt as h as.length (fun _ => true) (fun _ _ _ _ _ => rfl)
    (List.length_filter_le _ _)
  simpa using hall

/-- Lists in order with the same members are the same. -/
theorem eq_of_ordered (h : Ordered lt) {l l' : List α} (hl : l.Pairwise (lt · · = true))
    (hl' : l'.Pairwise (lt · · = true)) (hmem : ∀ a, a ∈ l ↔ a ∈ l') : l = l' := by
  have hne : ∀ {a b : α}, lt a b = true → a ≠ b := fun hlt heq => by
    rw [heq, h.irrefl] at hlt
    cases hlt
  have hperm : l.Perm l' :=
    (List.perm_ext_iff_of_nodup (hl.imp hne) (hl'.imp hne)).mpr hmem
  refine List.Perm.eq_of_pairwise (fun a b _ _ hab hba => ?_) hl hl' hperm
  have hloop := h.trans _ _ _ hab hba
  rw [h.irrefl] at hloop
  cases hloop

end

end Eevee.Lib.Cursor
