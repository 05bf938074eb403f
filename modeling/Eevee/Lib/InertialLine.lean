/- Inertial delay lines: a value that follows its last request after a delay, one update in
   flight at most, and transition systems that such lines track. -/

import Mathlib.Data.List.Basic
import Mathlib.Tactic.Common
import Mathlib.Tactic.SplitIfs
import Eevee.Lib.Transition

set_option autoImplicit false
set_option relaxedAutoImplicit false

namespace Eevee.Lib.InertialLine

open Eevee.Lib.Transition

universe u v w

/-- A value, the value requested last and the updates in flight with their deadlines. -/
@[ext] structure Line (α : Type u) where
  value : α
  request : α
  pending : List (Nat × α)

variable {α : Type u} {β : Type v}

/-- The line has reached its request, or exactly one update in flight will take it there. -/
def Coherent (L : Line α) : Prop :=
  (L.value = L.request ∧ L.pending = []) ∨
    (L.value ≠ L.request ∧ ∃ t, L.pending = [(t, L.request)])

/-- At most one update is in flight, and it takes the line to its request. -/
def Committed (L : Line α) : Prop := L.pending = [] ∨ ∃ t, L.pending = [(t, L.request)]

theorem Coherent.committed {L : Line α} (h : Coherent L) : Committed L :=
  h.imp And.right And.right

/-- The line after it has reached its request. -/
def settled (a : α) : Line α := ⟨a, a, []⟩

theorem coherent_settled (a : α) : Coherent (settled a) := Or.inl ⟨rfl, rfl⟩

/-- Some update in flight has one of the given deadlines. -/
def Due (due : Nat → Prop) (L : Line α) : Prop := ∃ p ∈ L.pending, due p.1

instance (due : Nat → Prop) [DecidablePred due] (L : Line α) : Decidable (Due due L) := by
  unfold Due
  infer_instance

/-- Perform the update in flight when its deadline has come. -/
def fire (due : Nat → Prop) [DecidablePred due] (L : Line α) : Line α :=
  if Due due L then settled L.request else L

section Ask

variable [DecidableEq α] (after : Nat → Nat → Nat) (delay : α → α → Nat)

/-- A request that differs from the last one cancels the update in flight and starts its own,
unless the value is already there or the transition takes no time. -/
def ask (now : Nat) (a : α) (L : Line α) : Line α :=
  if L.request = a then L
  else if L.value = a ∨ delay L.value a = 0 then settled a
  else ⟨L.value, a, [(after now (delay L.value a), a)]⟩

theorem coherent_ask {L : Line α} (h : Coherent L) (now : Nat) (a : α) :
    Coherent (ask after delay now a L) := by
  unfold ask
  split_ifs with hr hv
  · exact h
  · exact coherent_settled a
  · apply Or.inr
    exact ⟨fun he => hv (Or.inl he), _, rfl⟩

/-- A request together with its time; `early` says that it overtakes an update which is due at
that very time. -/
structure Ask (α : Type u) where
  time : Nat
  early : Bool
  value : α
  deriving DecidableEq

/-- Let the updates of earlier times happen, those of the same time too unless the request
overtakes them, and make the request. -/
def serve (L : Line α) (r : Ask α) : Line α :=
  ask after delay r.time r.value
    (if r.early then fire (· < r.time) L else fire (· ≤ r.time) L)

/-- The line after a history of requests. -/
def replay (L : Line α) (asks : List (Ask α)) : Line α := asks.foldl (serve after delay) L

end Ask

/-! ### Firing -/

theorem coherent_fire {L : Line α} (h : Coherent L) (due : Nat → Prop) [DecidablePred due] :
    Coherent (fire due L) := by
  unfold fire
  split_ifs
  · exact coherent_settled _
  · exact h

theorem fire_of_not_due {due : Nat → Prop} [DecidablePred due] {L : Line α} (h : ¬ Due due L) :
    fire due L = L := if_neg h

theorem due_mono {due due' : Nat → Prop} (hsub : ∀ t, due t → due' t) {L : Line α}
    (h : Due due L) : Due due' L := by
  obtain ⟨p, hp, ht⟩ := h
  exact ⟨p, hp, hsub p.1 ht⟩

@[simp] theorem fire_settled (due : Nat → Prop) [DecidablePred due] (a : α) :
    fire due (settled a) = settled a := by
  apply fire_of_not_due
  rintro ⟨p, hp, -⟩
  simp [settled] at hp

theorem fire_fire {due due' : Nat → Prop} [DecidablePred due] [DecidablePred due']
    (hsub : ∀ t, due t → due' t) (L : Line α) : fire due' (fire due L) = fire due' L := by
  by_cases h : Due due L
  · have h' : Due due' L := due_mono hsub h
    have hfire : fire due L = settled L.request := if_pos h
    rw [hfire, fire_settled]
    exact (if_pos h').symm
  · rw [fire_of_not_due h]

/-! ### Slices -/

section Slice

variable [DecidableEq β] (get : α → β)

/-- One component of a line of composite values. -/
def slice (L : Line α) : Line β :=
  ⟨get L.value, get L.request,
    if get L.value = get L.request then [] else L.pending.map fun p => (p.1, get p.2)⟩

theorem slice_settled (a : α) : slice get (settled a) = settled (get a) := by
  simp [slice, settled]

theorem due_of_due_slice {due : Nat → Prop} {L : Line α} (h : Due due (slice get L)) :
    Due due L := by
  obtain ⟨p, hp, ht⟩ := h
  unfold slice at hp
  dsimp only at hp
  split_ifs at hp
  · simp at hp
  · obtain ⟨q, hq, rfl⟩ := List.mem_map.mp hp
    exact ⟨q, hq, ht⟩

theorem slice_fire {due : Nat → Prop} [DecidablePred due] (L : Line α) :
    slice get (fire due L) = fire due (slice get L) := by
  by_cases h : Due due L
  · have hl : slice get (fire due L) = settled (get L.request) := by
      simp [fire, h, slice, settled]
    rw [hl]
    by_cases he : get L.value = get L.request
    · have hs : slice get L = settled (get L.request) := by
        simp [slice, he, settled]
      rw [hs, fire_settled]
    · have hd : Due due (slice get L) := by
        obtain ⟨p, hp, ht⟩ := h
        refine ⟨(p.1, get p.2), ?_, ht⟩
        simp only [slice, if_neg he]
        exact List.mem_map_of_mem hp
      rw [fire, if_pos hd]
      rfl
  · rw [fire_of_not_due h, fire_of_not_due fun hd => h (due_of_due_slice get hd)]

variable [DecidableEq α] (after : Nat → Nat → Nat)

/-- A request of the composite value is a request of each component, when every component that is
still in flight is requested anew, or would be due after the same delay anyway. -/
theorem slice_ask {L : Line α} (hc : Coherent L) {delay : α → α → Nat} {delay' : β → β → Nat}
    {d now : Nat} (hd : ∀ a b, delay a b = d) (hd' : ∀ a b, a ≠ b → delay' a b = d)
    (hnow : ∀ p ∈ L.pending, p.1 ≠ after now 0) {a : α}
    (hall : L.request ≠ a → get L.value ≠ get L.request → get L.request = get a →
      ∀ p ∈ L.pending, p.1 = after now d) :
    slice get (ask after delay now a L) = ask after delay' now (get a) (slice get L) := by
  by_cases hr : L.request = a
  · subst hr
    simp [ask, slice]
  by_cases hg : get L.request = get a
  · -- the component keeps its request, so it keeps its update in flight
    have hright : ask after delay' now (get a) (slice get L) = slice get L := by
      simp [ask, slice, hg]
    rw [hright]
    by_cases hv : get L.value = get L.request
    · have hs : slice get L = settled (get a) := by
        simp [slice, settled, hv, hg]
      rw [hs]
      unfold ask
      rw [if_neg hr]
      split_ifs
      · simp [slice, settled]
      · simp [slice, settled, hv, hg]
    · rcases hc with ⟨he, -⟩ | ⟨-, t, ht⟩
      · exact absurd (congrArg get he) hv
      · have hat := hall hr hv hg (t, L.request) (by simp [ht])
        have hd0 : d ≠ 0 := by
          rintro rfl
          exact hnow (t, L.request) (by simp [ht]) hat
        have hva : L.value ≠ a := by
          rintro rfl
          exact hv hg.symm
        simp only [ask, hr, if_false, hva, hd, hd0, or_self, slice, ht, ← hg, hv]
        simp only [List.map_cons, List.map_nil, ← hg]
        rw [← hat]
  · have hright : ask after delay' now (get a) (slice get L) =
        if get L.value = get a ∨ d = 0 then settled (get a)
        else ⟨get L.value, get a, [(after now d, get a)]⟩ := by
      by_cases hv : get L.value = get a
      · simp [ask, slice, hg, hv]
      · simp [ask, slice, hg, hv, hd' _ _ hv]
    rw [hright]
    by_cases hva : L.value = a
    · simp [ask, hr, hva, slice, settled]
    · by_cases hd0 : d = 0
      · simp [ask, hr, hd, hd0, slice, settled]
      · by_cases hv : get L.value = get a
        · simp [ask, hr, hva, hd, hd0, slice, hv, settled]
        · simp [ask, hr, hva, hd, hd0, slice, hv]

end Slice

/-! ### Tracking -/

/-- The line is where the replayed requests put it at the current time, or has not yet performed
the update that is due now. -/
structure Tracked (now : Nat) (L R : Line α) : Prop where
  fired : fire (· ≤ now) L = fire (· ≤ now) R
  unfired : Due (· ≤ now) L → L = fire (· < now) R

theorem Tracked.of_eq {now : Nat} {L : Line α} (hle : ∀ p ∈ L.pending, now ≤ p.1) :
    Tracked now L L := by
  refine ⟨rfl, fun _ => ?_⟩
  symm
  apply fire_of_not_due
  rintro ⟨p, hp, hlt⟩
  exact Nat.not_lt.mpr (hle p hp) hlt

theorem Tracked.settled {now : Nat} {L R : Line α} (h : Tracked now L R)
    (hquiet : ¬ Due (· ≤ now) L) : L = fire (· ≤ now) R :=
  (fire_of_not_due hquiet).symm.trans h.fired

/-- Once everything due by some later time has happened, the line is what the replay says. -/
theorem Tracked.applied {now t : Nat} {L R : Line α} (h : Tracked now L R) (hle : now ≤ t)
    (hquiet : ¬ Due (· ≤ t) L) : L = fire (· ≤ t) R := by
  have hmono (t' : Nat) (ht : t' ≤ now) : t' ≤ t := Nat.le_trans ht hle
  calc L = fire (· ≤ t) L := (fire_of_not_due hquiet).symm
    _ = fire (· ≤ t) (fire (· ≤ now) L) := (fire_fire hmono L).symm
    _ = fire (· ≤ t) (fire (· ≤ now) R) := by rw [h.fired]
    _ = fire (· ≤ t) R := fire_fire hmono R

section Track

variable [DecidableEq α] (after : Nat → Nat → Nat) (delay : α → α → Nat)

/-- What one step of a system may do to a line, with the request it makes and the time after it:
nothing, let time pass while no update is due, make a request, or perform the update that is
due. -/
inductive Follows (now : Nat) (L : Line α) : List (Ask α) → Nat → Line α → Prop
  | stay : Follows now L [] now L
  | wait {now' : Nat} (hle : now ≤ now') (hquiet : ¬ Due (· ≤ now) L) : Follows now L [] now' L
  | ask (a : α) : Follows now L [⟨now, decide (Due (· ≤ now) L), a⟩] now (ask after delay now a L)
  | fire : Follows now L [] now (fire (· ≤ now) L)

theorem Follows.coherent {now now' : Nat} {L L' : Line α} {asks : List (Ask α)}
    (h : Follows after delay now L asks now' L') (hc : Coherent L) : Coherent L' := by
  cases h with
  | stay => exact hc
  | wait hle hquiet => exact hc
  | ask a => exact coherent_ask after delay hc now a
  | fire => exact coherent_fire hc _

/-- Following a line is following each of its components. -/
theorem Follows.slice [DecidableEq β] (get : α → β) {delay : α → α → Nat} {delay' : β → β → Nat}
    {d now now' : Nat} {L L' : Line α} {asks : List (Ask α)}
    (h : Follows after delay now L asks now' L') (hc : Coherent L)
    (hd : ∀ a b, delay a b = d) (hd' : ∀ a b, a ≠ b → delay' a b = d)
    (hnow : asks ≠ [] → ∀ p ∈ L.pending, p.1 ≠ after now 0)
    (hquiet : asks ≠ [] → ¬ Due (· ≤ now) L)
    (hall : ∀ r ∈ asks, L.request ≠ r.value → get L.value ≠ get L.request →
      get L.request = get r.value → ∀ p ∈ L.pending, p.1 = after now d) :
    Follows after delay' now (slice get L) (asks.map fun r => ⟨r.time, r.early, get r.value⟩) now'
      (slice get L') := by
  cases h with
  | stay => exact .stay
  | wait hle hq => exact .wait hle fun hd => hq (due_of_due_slice get hd)
  | ask a =>
    have hq := hquiet (by simp)
    have hq' : ¬ Due (· ≤ now) (InertialLine.slice get L) := fun hd => hq (due_of_due_slice get hd)
    have hcond := hall ⟨now, decide (Due (· ≤ now) L), a⟩ (List.mem_singleton.mpr rfl)
    rw [slice_ask get after hc hd hd' (hnow (by simp)) hcond]
    have hstep : Follows after delay' now (InertialLine.slice get L)
        [⟨now, decide (Due (· ≤ now) (InertialLine.slice get L)), get a⟩] now _ := .ask (get a)
    simpa [hq, hq'] using hstep
  | fire =>
    rw [slice_fire]
    exact .fire

/-- One more step is one more replayed request. -/
theorem Tracked.step {now now' : Nat} {L L' R : Line α} {asks : List (Ask α)}
    (h : Tracked now L R) (hs : Follows after delay now L asks now' L')
    (hle : ∀ p ∈ L'.pending, now' ≤ p.1) :
    Tracked now' L' (asks.foldl (serve after delay) R) := by
  cases hs with
  | stay => exact h
  | @wait now' hnow hquiet =>
    have hL := h.settled hquiet
    have hmono (t : Nat) (ht : t ≤ now) : t ≤ now' := Nat.le_trans ht hnow
    refine ⟨?_, fun hd => ?_⟩
    · calc fire (· ≤ now') L = fire (· ≤ now') (fire (· ≤ now) L) := (fire_fire hmono L).symm
        _ = fire (· ≤ now') (fire (· ≤ now) R) := by rw [h.fired]
        _ = fire (· ≤ now') R := fire_fire hmono R
    · -- what is due now was not due before, so `R` had not performed it either
      have hR : ¬ Due (· ≤ now) R := by
        intro hdR
        obtain ⟨p, hp, -⟩ := hd
        rw [hL, fire, if_pos hdR] at hp
        simp [InertialLine.settled] at hp
      rw [fire_of_not_due hR] at hL
      subst hL
      exact (Tracked.of_eq hle).unfired hd
  | ask a =>
    have hserve : serve after delay R ⟨now, decide (Due (· ≤ now) L), a⟩ =
        InertialLine.ask after delay now a L := by
      by_cases hd : Due (· ≤ now) L
      · simp only [serve, hd, decide_true, if_true, ← h.unfired hd]
      · simp only [serve, hd, decide_false, Bool.false_eq_true, if_false, ← h.settled hd]
    rw [List.foldl_cons, List.foldl_nil, hserve]
    exact Tracked.of_eq hle
  | fire =>
    refine ⟨(fire_fire (fun _ ht => ht) L).trans h.fired, fun hd => ?_⟩
    exfalso
    obtain ⟨p, hp, ht⟩ := hd
    unfold InertialLine.fire at hp
    split_ifs at hp with hdue
    · simp [InertialLine.settled] at hp
    · exact hdue ⟨p, hp, ht⟩

/-- A run each of whose steps follows a line, from the step that makes the line on, is tracked by
the replay of its requests. -/
theorem tracked_run {S : Type v} {M : Type w} {step : M → S → Option S} {s₀ s : S} {ls : List M}
    (hrun : run step s₀ ls = some s) (ok : S → M → Prop) (hok : Along step ok s₀ ls)
    (I : S → Prop) (hI₀ : I s₀) (hI : ∀ t m t', I t → ok t m → step m t = some t' → I t')
    (time : S → Nat) (line : S → Line α) (asked : S → M → List (Ask α)) (alive : S → Prop)
    (start : Line α) (h₀ : ¬ alive s₀)
    (hborn : ∀ t m t', I t → ok t m → step m t = some t' → ¬ alive t →
      asked t m = [] ∧ (alive t' → line t' = start))
    (hlive : ∀ t m t', I t → ok t m → step m t = some t' → alive t →
      alive t' ∧ Follows after delay (time t) (line t) (asked t m) (time t') (line t'))
    (hle : ∀ t, I t → alive t → ∀ p ∈ (line t).pending, time t ≤ p.1) (hs : alive s) :
    Tracked (time s) (line s) (replay after delay start (trace step asked s₀ ls)) := by
  have h := run_induction_where ok (fun h t => I t ∧
    (¬ alive t → (h.flatMap fun x => asked x.1 x.2) = []) ∧
    (alive t → Tracked (time t) (line t)
      (replay after delay start (h.flatMap fun x => asked x.1 x.2)))) hrun hok ?_ ?_
  · exact h.2.2 hs
  · exact ⟨hI₀, fun _ => rfl, fun ha => absurd ha h₀⟩
  · rintro h t m t' ⟨hIt, hdead, halive⟩ hm hstep
    have hIt' := hI t m t' hIt hm hstep
    simp only [List.flatMap_append, List.flatMap_cons, List.flatMap_nil, List.append_nil]
    refine ⟨hIt', fun ha' => ?_, fun ha' => ?_⟩
    · by_cases ha : alive t
      · exact absurd (hlive t m t' hIt hm hstep ha).1 ha'
      · rw [hdead ha, (hborn t m t' hIt hm hstep ha).1, List.append_nil]
    · by_cases ha : alive t
      · have hnext := (halive ha).step after delay (hlive t m t' hIt hm hstep ha).2
          (hle t' hIt' ha')
        simpa [replay, List.foldl_append] using hnext
      · obtain ⟨hnone, hline⟩ := hborn t m t' hIt hm hstep ha
        have hstart := hle t' hIt' ha'
        rw [hdead ha, hnone, List.append_nil]
        rw [hline ha'] at hstart ⊢
        exact Tracked.of_eq hstart

end Track

end Eevee.Lib.InertialLine
