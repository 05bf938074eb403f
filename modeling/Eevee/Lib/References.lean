/- Places that hold references: what is reached from where, and through which place. -/

import Mathlib.Logic.Relation
import Mathlib.Tactic.Common

set_option autoImplicit false
set_option relaxedAutoImplicit false

namespace Eevee.Lib.References

universe u v

variable {Place : Type u} {Ref : Type v} {owner : Place → Ref} {held : Place → Option Ref}

/-- A place of the first reference holds the second one. -/
def Holds (owner : Place → Ref) (held : Place → Option Ref) (a b : Ref) : Prop :=
  ∃ p, owner p = a ∧ held p = some b

/-- The second reference is found from the first one, in any number of steps. -/
def Reaches (owner : Place → Ref) (held : Place → Option Ref) : Ref → Ref → Prop :=
  Relation.ReflTransGen (Holds owner held)

/-- A set that its own places do not lead out of. -/
def Inside (owner : Place → Ref) (held : Place → Option Ref) (S : Ref → Prop) : Prop :=
  ∀ p b, S (owner p) → held p = some b → S b

theorem Inside.reaches {S : Ref → Prop} (h : Inside owner held S) {a b : Ref} (ha : S a)
    (hreach : Reaches owner held a b) : S b := by
  induction hreach with
  | refl => exact ha
  | tail _ hstep ih =>
    obtain ⟨p, rfl, hp⟩ := hstep
    exact h p _ ih hp

/-- Nothing in both sets is reached from both. -/
theorem apart_of_inside {S T : Ref → Prop} (hS : Inside owner held S) (hT : Inside owner held T)
    {a b c : Ref} (ha : S a) (hb : T b) (hapart : ¬ (S c ∧ T c))
    (hreach : Reaches owner held a c) : ¬ Reaches owner held b c :=
  fun hreach' => hapart ⟨hS.reaches ha hreach, hT.reaches hb hreach'⟩

/-- What one place alone holds is reached through the owner of that place. -/
theorem reaches_owner {p : Place} {a b : Ref} (hsole : ∀ p', held p' = some b → p' = p)
    (hne : a ≠ b) (hreach : Reaches owner held a b) : Reaches owner held a (owner p) := by
  cases hreach with
  | refl => exact absurd rfl hne
  | tail hreach hstep =>
    obtain ⟨p', rfl, hp'⟩ := hstep
    rw [← hsole p' hp']
    exact hreach

/-- What no place holds is reached from nowhere else. -/
theorem eq_of_unheld {a b : Ref} (hunheld : ∀ p, held p ≠ some b)
    (hreach : Reaches owner held a b) : a = b := by
  cases hreach with
  | refl => rfl
  | tail _ hstep =>
    obtain ⟨p, -, hp⟩ := hstep
    exact absurd hp (hunheld p)

end Eevee.Lib.References
