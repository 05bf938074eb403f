/- Unique readability: words joined by a doubled separator, and trees written in prefix order. -/

import Mathlib.Data.List.Infix
import Mathlib.Tactic.Common

set_option autoImplicit false
set_option relaxedAutoImplicit false

namespace Eevee.Lib.Readable

universe u

variable {α : Type u}

/-! ### Words and separators -/

section

variable (sep : α)

/-- A word neither begins nor ends with the separator and has no two of them in a row. -/
structure Plain (word : List α) : Prop where
  nonempty : word ≠ []
  head : word.head? ≠ some sep
  last : word.getLast? ≠ some sep
  inner : ¬ [sep, sep] <:+: word

/-- A plain word, or the separator alone as a placeholder. -/
def Token (word : List α) : Prop := Plain sep word ∨ word = [sep]

/-- Every word after a doubled separator. -/
def joined (words : List (List α)) : List α := words.flatMap fun word => sep :: sep :: word

variable {sep}

theorem joined_cons (word : List α) (words : List (List α)) :
    joined sep (word :: words) = sep :: sep :: (word ++ joined sep words) := rfl

theorem joined_cases (words : List (List α)) :
    joined sep words = [] ∨ ∃ rest, joined sep words = sep :: sep :: rest := by
  cases words with
  | nil => exact .inl rfl
  | cons word words => exact .inr ⟨word ++ joined sep words, rfl⟩

private theorem plain_extend {word more rest : List α} (h : Plain sep (word ++ more))
    (hrest : more ++ rest = [] ∨ ∃ r, more ++ rest = sep :: sep :: r) : more = [] := by
  cases more with
  | nil => rfl
  | cons x more =>
    obtain ⟨r, hr⟩ := hrest.resolve_left (by simp)
    obtain ⟨rfl, hr⟩ := List.cons.inj hr
    cases more with
    | nil => exact absurd (by simp) h.last
    | cons y more =>
      obtain ⟨rfl, -⟩ := List.cons.inj hr
      exact absurd ⟨word, more, by simp⟩ h.inner

private theorem plain_cut {word word' rest rest' : List α} (h : Plain sep word)
    (h' : Plain sep word') (hrest : rest = [] ∨ ∃ r, rest = sep :: sep :: r)
    (hrest' : rest' = [] ∨ ∃ r, rest' = sep :: sep :: r) (heq : word ++ rest = word' ++ rest') :
    word = word' ∧ rest = rest' := by
  rcases List.append_eq_append_iff.mp heq with ⟨more, rfl, rfl⟩ | ⟨more, rfl, rfl⟩
  · obtain rfl := plain_extend h' hrest
    simp
  · obtain rfl := plain_extend h hrest'
    simp

private theorem plain_ne {word rest rest' : List α} (h : Plain sep word) :
    word ++ rest ≠ [sep] ++ rest' := by
  intro heq
  obtain ⟨x, word, rfl⟩ := List.exists_cons_of_ne_nil h.nonempty
  obtain ⟨rfl, -⟩ := List.cons.inj heq
  exact h.head rfl

/-- The first word is read off up to the first doubled separator. -/
theorem token_cut {word word' : List α} {words words' : List (List α)} (h : Token sep word)
    (h' : Token sep word') (heq : word ++ joined sep words = word' ++ joined sep words') :
    word = word' ∧ joined sep words = joined sep words' := by
  rcases h with h | rfl <;> rcases h' with h' | rfl
  · exact plain_cut h h' (joined_cases words) (joined_cases words') heq
  · exact absurd heq (plain_ne h)
  · exact absurd heq.symm (plain_ne h')
  · exact ⟨rfl, List.append_cancel_left heq⟩

theorem joined_injective {words words' : List (List α)} (h : ∀ w ∈ words, Token sep w)
    (h' : ∀ w ∈ words', Token sep w) (heq : joined sep words = joined sep words') :
    words = words' := by
  induction words generalizing words' with
  | nil =>
    cases words' with
    | nil => rfl
    | cons word' words' => cases heq
  | cons word words ih =>
    cases words' with
    | nil => cases heq
    | cons word' words' =>
      obtain ⟨hw, hws⟩ := List.forall_mem_cons.mp h
      obtain ⟨hw', hws'⟩ := List.forall_mem_cons.mp h'
      have htail : word ++ joined sep words = word' ++ joined sep words' :=
        (List.cons.inj (List.cons.inj heq).2).2
      obtain ⟨rfl, hrest⟩ := token_cut hw hw' htail
      rw [ih hws hws' hrest]

end

/-- Two lists of words that differ at most in where their words end: the separator stands within a
word of one where the other's word ends, or half of it ends a word of one and begins the next word
of the other. -/
inductive Overlaid (sep : α) : List (List α) → List (List α) → Prop
  | nil : Overlaid sep [] []
  | same {ws ws' : List (List α)} (w : List α) (h : Overlaid sep ws ws') :
    Overlaid sep (w :: ws) (w :: ws')
  | inside {ws ws' : List (List α)} {more : List α} (w : List α)
      (h : Overlaid sep (more :: ws) ws') :
    Overlaid sep ((w ++ sep :: sep :: more) :: ws) (w :: ws')
  | across {ws ws' : List (List α)} {more more' : List α} (w : List α)
    (h : Overlaid sep (more :: ws) (more' :: ws')) :
    Overlaid sep ((w ++ [sep]) :: more :: ws) (w :: (sep :: more') :: ws')
  | symm {ws ws' : List (List α)} (h : Overlaid sep ws ws') : Overlaid sep ws' ws

section

variable {sep : α}

theorem joined_eq_cons {w w' : List α} {ws ws' : List (List α)} :
    joined sep (w :: ws) = joined sep (w' :: ws') ↔ w ++ joined sep ws = w' ++ joined sep ws' := by
  simp only [joined_cons, List.cons.injEq, true_and]

theorem Overlaid.joined_eq {ws ws' : List (List α)} (h : Overlaid sep ws ws') :
    joined sep ws = joined sep ws' := by
  induction h with
  | nil => rfl
  | same w _ ih => exact congrArg (sep :: sep :: w ++ ·) ih
  | inside w _ ih =>
    rw [joined_eq_cons, ← ih, joined_cons]
    simp only [List.append_assoc, List.cons_append]
  | across w _ ih =>
    rw [joined_eq_cons] at ih ⊢
    simp only [joined_cons, List.append_assoc, List.cons_append, List.nil_append, ih]
  | symm _ ih => exact ih.symm

/-- Where one word goes on past the other, it does so with the separator and what follows it, or
with half of it, the other half beginning the next word of the other list. -/
private theorem overlaid_of_longer {n : Nat} {w more : List α} {ws ws' : List (List α)}
    (ih : ∀ {ws ws' : List (List α)}, (joined sep ws).length < n →
      (∀ v ∈ ws.tail, v ≠ []) → (∀ v ∈ ws'.tail, v ≠ []) →
      joined sep ws = joined sep ws' → Overlaid sep ws ws')
    (hn : (joined sep ws).length < n) (h : ∀ v ∈ ws, v ≠ []) (h' : ∀ v ∈ ws', v ≠ [])
    (heq : joined sep ws = more ++ joined sep ws') :
    Overlaid sep (w :: ws) ((w ++ more) :: ws') := by
  cases more with
  | nil =>
    rw [List.append_nil]
    exact .same w (ih hn (fun v hv => h v (List.mem_of_mem_tail hv))
      (fun v hv => h' v (List.mem_of_mem_tail hv)) heq)
  | cons c more =>
    cases ws with
    | nil => cases heq
    | cons x ws =>
      have htail : ∀ v ∈ ws, v ≠ [] := fun v hv => h v (List.mem_cons_of_mem x hv)
      simp only [joined_cons, List.cons_append, List.cons.injEq] at heq
      obtain ⟨rfl, heq⟩ := heq
      cases more with
      | nil =>
        cases ws' with
        | nil => cases heq
        | cons y ws' =>
          obtain ⟨d, x, rfl⟩ := List.exists_cons_of_ne_nil (h x List.mem_cons_self)
          simp only [joined_cons, List.nil_append, List.cons_append, List.cons.injEq, true_and]
            at heq
          obtain ⟨rfl, heq⟩ := heq
          have hlt : (joined d (x :: ws)).length < n := by
            simp only [joined_cons, List.length_cons, List.length_append] at hn ⊢
            omega
          have hrest : Overlaid d (x :: ws) (y :: ws') :=
            ih hlt htail (fun v hv => h' v (List.mem_cons_of_mem y hv)) (joined_eq_cons.mpr heq)
          exact .symm (.across w hrest.symm)
      | cons d more =>
        simp only [List.cons_append, List.cons.injEq] at heq
        obtain ⟨rfl, heq⟩ := heq
        have hrest : Overlaid sep (x :: ws) (more :: ws') :=
          ih hn htail h' (joined_eq_cons.mpr heq)
        exact .symm (.inside w hrest.symm)

theorem overlaid_of_joined_eq {ws ws' : List (List α)} (h : ∀ w ∈ ws.tail, w ≠ [])
    (h' : ∀ w ∈ ws'.tail, w ≠ []) (heq : joined sep ws = joined sep ws') :
    Overlaid sep ws ws' := by
  induction hn : (joined sep ws).length using Nat.strong_induction_on generalizing ws ws' with
  | _ n ih =>
    subst hn
    cases ws with
    | nil =>
      cases ws' with
      | nil => exact .nil
      | cons w' ws' => cases heq
    | cons w ws =>
      cases ws' with
      | nil => cases heq
      | cons w' ws' =>
        have hlt : (joined sep ws).length < (joined sep (w :: ws)).length := by
          simp only [joined_cons, List.length_cons, List.length_append]
          omega
        have hlt' : (joined sep ws').length < (joined sep (w :: ws)).length := by
          rw [heq]
          simp only [joined_cons, List.length_cons, List.length_append]
          omega
        have hshorter : ∀ {vs vs' : List (List α)},
            (joined sep vs).length < (joined sep (w :: ws)).length →
            (∀ v ∈ vs.tail, v ≠ []) → (∀ v ∈ vs'.tail, v ≠ []) →
            joined sep vs = joined sep vs' → Overlaid sep vs vs' :=
          fun hlt h h' heq => ih _ hlt h h' heq rfl
        rcases List.append_eq_append_iff.mp (joined_eq_cons.mp heq) with
          ⟨more, rfl, hmore⟩ | ⟨more, rfl, hmore⟩
        · exact overlaid_of_longer hshorter hlt h h' hmore
        · exact .symm (overlaid_of_longer hshorter hlt' h' h hmore)

/-- Joined words are one text exactly if the words can be laid over each other. -/
theorem joined_eq_iff {ws ws' : List (List α)} (h : ∀ w ∈ ws.tail, w ≠ [])
    (h' : ∀ w ∈ ws'.tail, w ≠ []) : joined sep ws = joined sep ws' ↔ Overlaid sep ws ws' :=
  ⟨overlaid_of_joined_eq h h', Overlaid.joined_eq⟩

end

/-! ### Trees in prefix order -/

inductive LabelTree (α : Type u)
  | node (label : α) (children : List (LabelTree α))

mutual

/-- The labels, each before those of its children. -/
def labels : LabelTree α → List α
  | .node label children => label :: allLabels children

def allLabels : List (LabelTree α) → List α
  | [] => []
  | t :: ts => labels t ++ allLabels ts

end

section

variable (arity : α → Nat)

mutual

/-- Every label has as many children as it takes. -/
def WellFormed : LabelTree α → Prop
  | .node label children => children.length = arity label ∧ AllWellFormed children

def AllWellFormed : List (LabelTree α) → Prop
  | [] => True
  | t :: ts => WellFormed t ∧ AllWellFormed ts

end

variable {arity}

mutual

theorem labels_cut (t : LabelTree α) {t' : LabelTree α} {rest rest' : List α}
    (h : WellFormed arity t)
    (h' : WellFormed arity t') (heq : labels t ++ rest = labels t' ++ rest') :
    t = t' ∧ rest = rest' := by
  cases t with
  | node label children =>
    cases t' with
    | node label' children' =>
      obtain ⟨hlabel, hchildren⟩ := List.cons.inj heq
      subst hlabel
      obtain ⟨rfl, hrest⟩ := allLabels_cut children h.2 h'.2 (h.1.trans h'.1.symm) hchildren
      exact ⟨rfl, hrest⟩
termination_by structural t

theorem allLabels_cut (ts : List (LabelTree α)) {ts' : List (LabelTree α)} {rest rest' : List α}
    (h : AllWellFormed arity ts) (h' : AllWellFormed arity ts') (hlength : ts.length = ts'.length)
    (heq : allLabels ts ++ rest = allLabels ts' ++ rest') : ts = ts' ∧ rest = rest' := by
  cases ts with
  | nil =>
    obtain rfl := List.length_eq_zero_iff.mp hlength.symm
    exact ⟨rfl, heq⟩
  | cons t ts =>
    cases ts' with
    | nil => cases hlength
    | cons t' ts' =>
      simp only [allLabels, List.append_assoc] at heq
      obtain ⟨rfl, htail⟩ := labels_cut t h.1 h'.1 heq
      obtain ⟨rfl, hrest⟩ := allLabels_cut ts h.2 h'.2 (Nat.succ.inj hlength) htail
      exact ⟨rfl, hrest⟩
termination_by structural ts

end

/-- A well-formed tree is determined by its labels in prefix order. -/
theorem labels_injective {t t' : LabelTree α} (h : WellFormed arity t) (h' : WellFormed arity t')
    (heq : labels t = labels t') : t = t' :=
  (labels_cut t h h' (congrArg (· ++ []) heq)).1

end

end Eevee.Lib.Readable
