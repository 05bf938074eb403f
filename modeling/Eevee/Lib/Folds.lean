/- Left folds: invariants over the consumed prefix, values fixed by one absorbing element. -/

import Mathlib.Data.List.Basic
import Mathlib.Data.List.Perm.Basic
import Mathlib.Tactic.Common

set_option autoImplicit false
set_option relaxedAutoImplicit false

namespace Eevee.Lib.Folds

universe u v

variable {α : Type u} {β : Type v}

/-- An invariant relating the consumed prefix to the accumulator holds at the end. -/
theorem foldl_invariant (f : β → α → β) (P : List α → β → Prop) (L : List α) (b : β)
    (h0 : P [] b) (step : ∀ T a S v, L = T ++ a :: S → P T v → P (T ++ [a]) (f v a)) :
    P L (L.foldl f b) := by
  have run : ∀ (S T : List α) (v : β), L = T ++ S → P T v → P L (S.foldl f v) := by
    intro S
    induction S with
    | nil =>
      intro T v hL hv
      simpa [hL] using hv
    | cons a S ih =>
      intro T v hL hv
      have hstep := step T a S v hL hv
      exact ih (T ++ [a]) (f v a) (by simpa using hL) hstep
  exact run L [] b rfl h0

/-- What every step keeps is the same at the end. -/
theorem foldl_same {γ : Type*} (f : β → α → β) (p : β → γ) (h : ∀ s a, p (f s a) = p s)
    (l : List α) (s : β) : p (l.foldl f s) = p s :=
  foldl_invariant f (fun _ s' => p s' = p s) l s rfl fun _ a _ s' _ hs => (h s' a).trans hs

/-- A property that `a` establishes and every element keeps holds once `a` has been consumed. -/
theorem foldl_absorb (f : β → α → β) (P : List α → β → Prop) (Q : β → Prop) (L : List α) (b : β)
    {a : α} (ha : a ∈ L) (h0 : P [] b)
    (step : ∀ T c S v, L = T ++ c :: S → P T v → P (T ++ [c]) (f v c))
    (establish : ∀ T S v, L = T ++ a :: S → P T v → Q (f v a))
    (keep : ∀ T c S v, L = T ++ c :: S → P T v → a ∈ T → Q v → Q (f v c)) :
    Q (L.foldl f b) := by
  have h := foldl_invariant f (fun T v => P T v ∧ (a ∈ T → Q v)) L b ⟨h0, by simp⟩ ?_
  · exact h.2 ha
  · intro T c S v hL hv
    refine ⟨step T c S v hL hv.1, fun hmem => ?_⟩
    by_cases hT : a ∈ T
    · exact keep T c S v hL hv.1 hT (hv.2 hT)
    · have hc : a = c := by simpa [hT] using hmem
      subst hc
      exact establish T S v hL hv.1

/-- A permutation of an image is the image of a permutation. -/
theorem exists_perm_map (g : α → β) {L : List α} {M : List β} (h : M.Perm (L.map g)) :
    ∃ L' : List α, L'.Perm L ∧ L'.map g = M := by
  induction L generalizing M with
  | nil =>
    have hM : M = [] := by simpa using h
    exact ⟨[], List.Perm.refl [], by simp [hM]⟩
  | cons a L ih =>
    rw [List.map_cons] at h
    have hmem : g a ∈ M := h.mem_iff.mpr (by simp)
    obtain ⟨M₁, M₂, rfl⟩ := List.append_of_mem hmem
    have htail : (M₁ ++ M₂).Perm (L.map g) :=
      (List.perm_middle.symm.trans h).cons_inv
    obtain ⟨L', hL', hmap⟩ := ih htail
    obtain ⟨L₁, L₂, rfl, h₁, h₂⟩ := List.map_eq_append_iff.mp hmap
    exact ⟨L₁ ++ a :: L₂, List.perm_middle.trans (hL'.cons a), by simp [h₁, h₂]⟩

end Eevee.Lib.Folds
