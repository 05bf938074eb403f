/- Scanning a vector with swap-removal: the last element takes the place of a removed one. -/

import Mathlib.Data.List.Basic
import Mathlib.Data.List.Perm.Basic
import Mathlib.Tactic.Common

set_option autoImplicit false
set_option relaxedAutoImplicit false

namespace Eevee.Lib.SwapScan

universe u v

variable {α : Type u} {σ : Type v}

/-- What is left behind the scan position when the element there is swap-removed. -/
def lastToFront (tail : List α) : List α :=
  match tail.getLast? with
  | none => []
  | some a => a :: tail.dropLast

theorem lastToFront_perm (tail : List α) : (lastToFront tail).Perm tail := by
  unfold lastToFront
  cases h : tail.getLast? with
  | none => simp [List.getLast?_eq_none_iff.mp h]
  | some a =>
    obtain ⟨init, rfl⟩ := List.getLast?_eq_some_iff.mp h
    simpa using @List.perm_append_comm _ [a] init

@[simp] theorem length_lastToFront (tail : List α) : (lastToFront tail).length = tail.length :=
  (lastToFront_perm tail).length_eq

/-- `visit` keeps the element, possibly changed, or removes it. The counter is the number of
elements not visited yet. -/
def swapScan (visit : σ → α → σ × Option α) : Nat → σ → List α → List α → σ × List α
  | 0, s, kept, rest => (s, kept ++ rest)
  | _ + 1, s, kept, [] => (s, kept)
  | n + 1, s, kept, a :: tail =>
    match visit s a with
    | (s', some a') => swapScan visit n s' (kept ++ [a']) tail
    | (s', none) => swapScan visit n s' kept (lastToFront tail)

/-- Scan a whole vector. -/
def scan (visit : σ → α → σ × Option α) (s : σ) (xs : List α) : σ × List α :=
  swapScan visit xs.length s [] xs

/-- A property of state, kept prefix and rest that every visit preserves holds at the end, where
the rest is empty. -/
theorem scan_induction (visit : σ → α → σ × Option α) (P : σ → List α → List α → Prop)
    (s : σ) (xs : List α) (h0 : P s [] xs)
    (keep : ∀ s kept a tail s' a', P s kept (a :: tail) → visit s a = (s', some a') →
      P s' (kept ++ [a']) tail)
    (remove : ∀ s kept a tail s', P s kept (a :: tail) → visit s a = (s', none) →
      P s' kept (lastToFront tail)) :
    P (scan visit s xs).1 (scan visit s xs).2 [] := by
  have go : ∀ (n : Nat) (s : σ) (kept rest : List α), rest.length = n → P s kept rest →
      P (swapScan visit n s kept rest).1 (swapScan visit n s kept rest).2 [] := by
    intro n
    induction n with
    | zero =>
      intro s kept rest hn hP
      obtain rfl : rest = [] := List.length_eq_zero_iff.mp hn
      simpa [swapScan] using hP
    | succ n ih =>
      intro s kept rest hn hP
      cases rest with
      | nil => simp at hn
      | cons a tail =>
        have hlen : tail.length = n := by simpa using hn
        unfold swapScan
        rcases hv : visit s a with ⟨s', _ | a'⟩
        · exact ih s' kept (lastToFront tail) (by simpa using hlen) (remove s kept a tail s' hP hv)
        · exact ih s' (kept ++ [a']) tail hlen (keep s kept a tail s' a' hP hv)
  exact go xs.length s [] xs rfl h0

/-- A scan whose visits do not look at the state does to each element what the visit of that
element alone does, in some order. -/
theorem scan_perm {β : Type v} {visit : List β → α → List β × Option α} {out : α → List β}
    {left : α → Option α} (hv : ∀ s a, visit s a = (s ++ out a, left a)) (s : List β)
    (xs : List α) :
    (scan visit s xs).1.Perm (s ++ xs.flatMap out) ∧
      (scan visit s xs).2.Perm (xs.filterMap left) := by
  have h := scan_induction visit (fun s' kept rest =>
    (s' ++ rest.flatMap out).Perm (s ++ xs.flatMap out) ∧
      (kept ++ rest.filterMap left).Perm (xs.filterMap left)) s xs ⟨.refl _, .refl _⟩ ?_ ?_
  · simpa using h
  · rintro s' kept a tail s'' a' ⟨h₁, h₂⟩ hva
    rw [hv] at hva
    obtain ⟨rfl, hleft⟩ := Prod.mk.inj hva
    exact ⟨by simpa using h₁, by simpa [hleft] using h₂⟩
  · rintro s' kept a tail s'' ⟨h₁, h₂⟩ hva
    rw [hv] at hva
    obtain ⟨rfl, hleft⟩ := Prod.mk.inj hva
    have hout : ((lastToFront tail).flatMap out).Perm (tail.flatMap out) :=
      (lastToFront_perm tail).flatMap_right out
    have hrest : ((lastToFront tail).filterMap left).Perm (tail.filterMap left) :=
      (lastToFront_perm tail).filterMap left
    refine ⟨?_, ?_⟩
    · exact (hout.append_left _).trans (by simpa using h₁)
    · exact (hrest.append_left kept).trans (by simpa [hleft] using h₂)

end Eevee.Lib.SwapScan
