/- Walks along a partial function that never comes back to where it was. -/

import Mathlib.Data.List.Perm.Subperm
import Mathlib.Logic.Relation

set_option autoImplicit false
set_option relaxedAutoImplicit false

namespace Eevee.Lib.Ancestry

variable {α : Type} [DecidableEq α]

/-- One step of a partial function. -/
def Step (up : α → Option α) (a b : α) : Prop := up a = some b

/-- Whether one of the first `n` places of a walk is the target. -/
def meets (up : α → Option α) : Nat → α → α → Bool
  | 0, _, _ => false
  | n + 1, a, target =>
    if a = target then true
    else
      match up a with
      | some b => meets up n b target
      | none => false

/-- A finite set of places that a partial function does not leave and in which it has no cycle. -/
structure Acyclic (up : α → Option α) (all : List α) : Prop where
  closed : ∀ a ∈ all, ∀ b, up a = some b → b ∈ all
  acyclic : ∀ a, ¬ Relation.TransGen (Step up) a a

variable {up : α → Option α} {all : List α} {a target : α}

theorem reaches_of_meets {n : Nat} (h : meets up n a target = true) :
    Relation.ReflTransGen (Step up) a target := by
  induction n generalizing a with
  | zero => cases h
  | succ n ih =>
    rw [meets] at h
    split_ifs at h with heq
    · exact heq ▸ .refl
    · cases hup : up a with
      | none =>
        rw [hup] at h
        cases h
      | some b =>
        rw [hup] at h
        exact .head hup (ih h)

/-- The places that the walk has passed are different, so it meets what it reaches before it has
been everywhere. -/
theorem meets_of_reaches (h : Acyclic up all) {visited : List α} (hnodup : visited.Nodup)
    (hvisited : ∀ b ∈ visited, b ∈ all ∧ Relation.TransGen (Step up) b a) (ha : a ∈ all) {n : Nat}
    (hn : all.length ≤ visited.length + n) (hreach : Relation.ReflTransGen (Step up) a target) :
    meets up n a target = true := by
  induction n generalizing visited a with
  | zero =>
    have hcons : (a :: visited).Nodup := by
      refine List.nodup_cons.mpr ⟨fun hmem => ?_, hnodup⟩
      exact h.acyclic a (hvisited a hmem).2
    have hsub : a :: visited ⊆ all := fun b hb =>
      (List.mem_cons.mp hb).elim (fun heq => heq ▸ ha) fun hb => (hvisited b hb).1
    have hle := (List.subperm_of_subset hcons hsub).length_le
    rw [List.length_cons] at hle
    omega
  | succ n ih =>
    rw [meets]
    split_ifs with heq
    · rfl
    · rcases hreach.cases_head with heq' | ⟨b, hstep, hrest⟩
      · exact absurd heq' heq
      · have hup : up a = some b := hstep
        rw [hup]
        have hnodup' : (a :: visited).Nodup :=
          List.nodup_cons.mpr ⟨fun hmem => h.acyclic a (hvisited a hmem).2, hnodup⟩
        refine ih hnodup' (fun c hc => ?_) (h.closed a ha b hup) ?_ hrest
        · rcases List.mem_cons.mp hc with rfl | hc
          · exact ⟨ha, .single hstep⟩
          · exact ⟨(hvisited c hc).1, (hvisited c hc).2.tail hstep⟩
        · rw [List.length_cons]
          omega

/-- A walk with a step for each place meets exactly what it reaches. -/
theorem meets_iff (h : Acyclic up all) (ha : a ∈ all) :
    meets up all.length a target = true ↔ Relation.ReflTransGen (Step up) a target :=
  ⟨reaches_of_meets, meets_of_reaches h List.nodup_nil (fun _ hb => nomatch hb) ha (by simp)⟩

end Eevee.Lib.Ancestry
