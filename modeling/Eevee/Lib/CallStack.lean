/- Steps that keep, extend or shorten a stack, and what stays below during a run. -/

import Mathlib.Data.List.Infix
import Mathlib.Logic.Relation
import Mathlib.Tactic.Common

set_option autoImplicit false
set_option relaxedAutoImplicit false

namespace Eevee.Lib.CallStack

universe u v

variable {σ : Type u} {φ : Type v} {step : σ → σ → Prop} {stack : σ → List φ} {P : σ → Prop}

/-- A stack stays as it is, or one entry is pushed or popped. -/
inductive Moves : List φ → List φ → Prop
  | keep (entries : List φ) : Moves entries entries
  | push (entry : φ) (entries : List φ) : Moves entries (entry :: entries)
  | pop (entry : φ) (entries : List φ) : Moves (entry :: entries) entries

/-- Every step moves the stack by one entry at most. -/
def Stepwise (step : σ → σ → Prop) (stack : σ → List φ) : Prop :=
  ∀ s t, step s t → Moves (stack s) (stack t)

/-- A run through states with a property. -/
inductive Within (step : σ → σ → Prop) (P : σ → Prop) : σ → σ → Prop
  | refl {s : σ} (hs : P s) : Within step P s s
  | tail {s t t' : σ} (run : Within step P s t) (hstep : step t t') (ht : P t') :
    Within step P s t'

theorem Moves.map {ψ : Type*} {l l' : List φ} (h : Moves l l') (f : φ → ψ) :
    Moves (l.map f) (l'.map f) := by
  cases h with
  | keep => exact .keep _
  | push => exact .push _ _
  | pop => exact .pop _ _

/-- What is below the lowest height stays. -/
theorem Moves.suffix {base l l' : List φ} (h : Moves l l') (hbase : base <:+ l)
    (hlen : base.length ≤ l'.length) : base <:+ l' := by
  cases h with
  | keep => exact hbase
  | push entry => exact hbase.trans (List.suffix_cons entry l)
  | pop entry =>
    rcases List.suffix_cons_iff.mp hbase with rfl | hsuffix
    · exact absurd hlen (Nat.not_succ_le_self _)
    · exact hsuffix

namespace Within

theorem last {s t : σ} (h : Within step P s t) : P t := by
  cases h with
  | refl hs => exact hs
  | tail _ _ ht => exact ht

theorem first {s t : σ} (h : Within step P s t) : P s := by
  induction h with
  | refl hs => exact hs
  | tail _ _ _ ih => exact ih

theorem suffix (hstep : Stepwise step stack) {base : List φ}
    (hP : ∀ s, P s → base.length ≤ (stack s).length) {s t : σ} (h : Within step P s t)
    (hbase : base <:+ stack s) : base <:+ stack t := by
  induction h with
  | refl _ => exact hbase
  | tail _ hs ht ih => exact (hstep _ _ hs).suffix ih (hP _ ht)

/-- Back at the height of its start, the stack is what it was there. -/
theorem unchanged (hstep : Stepwise step stack) {s t : σ}
    (hP : ∀ r, P r → (stack s).length ≤ (stack r).length) (h : Within step P s t)
    (hlen : (stack t).length = (stack s).length) : stack t = stack s :=
  ((h.suffix hstep hP (List.suffix_refl _)).eq_of_length hlen.symm).symm

end Within

/-- A run that ends above a height it starts at or below has a last step that rises above it. -/
theorem exists_rise (hstep : Stepwise step stack) {n : Nat} {s t : σ}
    (h : Relation.ReflTransGen step s t) (hs : (stack s).length ≤ n) (ht : n < (stack t).length) :
    ∃ p p', Relation.ReflTransGen step s p ∧ step p p' ∧ (stack p).length = n ∧
      Within step (fun r => n < (stack r).length) p' t := by
  induction h with
  | refl => exact absurd ht (Nat.not_lt.mpr hs)
  | @tail t t' hrun hlast ih =>
    by_cases habove : n < (stack t).length
    · obtain ⟨p, p', hp, hrise, hlen, hwithin⟩ := ih habove
      exact ⟨p, p', hp, hrise, hlen, hwithin.tail hlast ht⟩
    · have hle : (stack t').length ≤ (stack t).length + 1 := by
        have hmoves := hstep t t' hlast
        generalize stack t = l at hmoves ⊢
        generalize stack t' = l' at hmoves ⊢
        cases hmoves with
        | keep => exact Nat.le_succ _
        | push => exact Nat.le_refl _
        | pop => exact Nat.le_succ_of_le (Nat.le_succ _)
      exact ⟨t, t', hrun, hlast, by omega, .refl ht⟩

end Eevee.Lib.CallStack
