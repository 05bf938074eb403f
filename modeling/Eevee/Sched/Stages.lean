/- The inertial stages of the kernel: each bit of a driver or of a delayed net is a delay line. -/

import Mathlib.Data.List.Basic
import Mathlib.Data.List.Perm.Basic
import Mathlib.Tactic.Common
import Mathlib.Tactic.SplitIfs
import Eevee.Lib.InertialLine
import Eevee.Sched.Layout
import Eevee.Sched.Wheel

set_option autoImplicit false
set_option relaxedAutoImplicit false

namespace Eevee.Sched.Stages

open Eevee.Core.Logic
open Eevee.Lib.Folds
open Eevee.Lib.InertialLine
open Eevee.Sched.Frames
open Eevee.Sched.Layout
open Eevee.Sched.Nets
open Eevee.Sched.Resolution
open Eevee.Sched.Scheduler
open Eevee.Sched.Simulation
open Eevee.Sched.Wheel

/-- A driver with transition delays, or a net with declaration delays. -/
inductive Stage
  | driver (d : DriverId)
  | net (n : NetId)
  deriving DecidableEq

namespace Stage

def value (k : Kernel) : Stage → PackedVec
  | .driver d => k.driverValue d
  | .net n => k.netValue n

def request (k : Kernel) : Stage → PackedVec
  | .driver d => k.driverRequest d
  | .net n => (k.net n).delayRequest

def generations (k : Kernel) : Stage → List Generation
  | .driver d => k.bitGenerations d
  | .net n => (k.net n).delayGenerations

def action : Stage → List BitDrive → TimedAction
  | .driver d => .driveBits d
  | .net n => .netBits n

/-- The bit updates that a timed action holds for the stage. -/
def updates : Stage → TimedAction → List BitDrive
  | .driver d, .driveBits d' us => if d' = d then us else []
  | .net n, .netBits n' us => if n' = n then us else []
  | _, _ => []

end Stage

/-- The updates of one bit that carry a generation. -/
def carrying (bit : Nat) (generation : Generation) (time : SimTime) (us : List BitDrive) :
    List (SimTime × Bit) :=
  (us.filter fun u => u.bit = bit ∧ u.generation = generation).map fun u => (time, u.value)

/-- The updates of one bit of the stage on the wheel that carry a generation. -/
def inFlight (st : Stage) (bit : Nat) (generation : Generation) (timed : List TimedEvent) :
    List (SimTime × Bit) :=
  timed.flatMap fun ev => carrying bit generation ev.time (st.updates ev.action)

/-- One bit of a stage, with its live updates. -/
def bitLine (st : Stage) (k : Kernel) (bit : Nat) : Line Bit where
  value := (st.value k).getBit bit
  request := (st.request k).getBit bit
  pending := inFlight st bit ((st.generations k).getD bit 0) k.timed

/-- The timed action belongs to the stage. -/
def Owns : Stage → TimedAction → Prop
  | .driver d => OfDriver d
  | .net n => OfNet n

instance (st : Stage) (action : TimedAction) : Decidable (Owns st action) := by
  cases st <;> cases action <;> unfold Owns <;> first
    | exact inferInstanceAs (Decidable (_ = _))
    | exact inferInstanceAs (Decidable False)

/-- The generation of the whole-vector drives; a net has none. -/
def wholeGeneration (k : Kernel) : Stage → Generation
  | .driver d => (k.driver d).generation
  | .net _ => 0

/-- No update on the wheel carries the next generation of its bit. -/
def Unused (st : Stage) (k : Kernel) : Prop :=
  ∀ ev ∈ k.timed, ∀ u ∈ st.updates ev.action,
    u.generation ≠ (st.generations k).getD u.bit 0 + 1

instance (st : Stage) (k : Kernel) : Decidable (Unused st k) := by
  unfold Unused
  infer_instance

/-! ### The wheel -/

theorem flatMap_push {β : Type} (f : TimedEvent → List β) (k : Kernel) (time : SimTime)
    (region : Region) (action : TimedAction) :
    ((k.pushTimedAction time region action).timed.flatMap f).Perm
      (f ⟨time, region, k.seq + 1, action⟩ ++ k.timed.flatMap f) := by
  have h := (List.perm_orderedInsert TimedEvent.before
    ⟨time, region, k.seq + 1, action⟩ k.timed).flatMap_right f
  rwa [List.flatMap_cons] at h

/-- An event that shows nothing is not seen on the wheel. -/
theorem flatMap_push_nil {β : Type} (f : TimedEvent → List β) (k : Kernel) (time : SimTime)
    (region : Region) (action : TimedAction) (h : f ⟨time, region, k.seq + 1, action⟩ = []) :
    (k.pushTimedAction time region action).timed.flatMap f = k.timed.flatMap f := by
  unfold Kernel.pushTimedAction
  dsimp only
  rw [List.orderedInsert_eq_take_drop, List.flatMap_append, List.flatMap_cons, h, List.nil_append,
    ← List.flatMap_append, List.takeWhile_append_dropWhile]

theorem inFlight_pushDelayed (st : Stage) (bit : Nat) (generation : Generation)
    (delayed : List (Nat × List BitDrive)) (k : Kernel) :
    (inFlight st bit generation (k.pushDelayed st.action delayed).timed).Perm
      ((delayed.flatMap fun g => carrying bit generation (saturatingAddFs k.time g.1) g.2) ++
        inFlight st bit generation k.timed) := by
  unfold Kernel.pushDelayed inFlight
  induction delayed generalizing k with
  | nil => exact List.Perm.refl _
  | cons g delayed ih =>
    have hupdates : st.updates (st.action g.2) = g.2 := by
      cases st <;> simp [Stage.updates, Stage.action]
    have hpush := flatMap_push
      (fun ev => carrying bit generation ev.time (st.updates ev.action)) k
      (saturatingAddFs k.time g.1) .active (st.action g.2)
    rw [hupdates] at hpush
    rw [List.foldl_cons, List.flatMap_cons]
    refine (ih _).trans ?_
    refine (hpush.append_left _).trans ?_
    rw [← List.append_assoc]
    exact List.perm_append_comm.append_right _

/-- Pushed actions that show nothing are not seen on the wheel. -/
theorem flatMap_pushDelayed_nil {β : Type} (f : TimedEvent → List β)
    {action : List BitDrive → TimedAction}
    (hf : ∀ time seq us, f ⟨time, .active, seq, action us⟩ = [])
    (delayed : List (Nat × List BitDrive)) (k : Kernel) :
    (k.pushDelayed action delayed).timed.flatMap f = k.timed.flatMap f := by
  unfold Kernel.pushDelayed
  induction delayed generalizing k with
  | nil => rfl
  | cons g delayed ih =>
    rw [List.foldl_cons, ih]
    exact flatMap_push_nil f k _ _ _ (hf _ _ _)

theorem pushDelayed_frame (action : List BitDrive → TimedAction)
    (delayed : List (Nat × List BitDrive)) (k : Kernel) :
    ∃ timed seq, k.pushDelayed action delayed = { k with timed := timed, seq := seq } := by
  unfold Kernel.pushDelayed
  induction delayed generalizing k with
  | nil => exact ⟨k.timed, k.seq, rfl⟩
  | cons g delayed ih =>
    obtain ⟨timed, seq, h⟩ := ih
      (k.pushTimedAction (saturatingAddFs k.time g.1) .active (action g.2))
    exact ⟨timed, seq, h⟩

/-! ### The bit loop -/

theorem carrying_append (bit : Nat) (generation : Generation) (time : SimTime)
    (us vs : List BitDrive) : carrying bit generation time (us ++ vs) =
      carrying bit generation time us ++ carrying bit generation time vs := by
  simp [carrying]

theorem carrying_singleton (bit : Nat) (generation : Generation) (time : SimTime) (u : BitDrive) :
    carrying bit generation time [u] =
      if u.bit = bit ∧ u.generation = generation then [(time, u.value)] else [] := by
  by_cases h : u.bit = bit ∧ u.generation = generation <;> simp [carrying, h]

theorem flatMap_addDelayed (bit : Nat) (generation : Generation) (now : SimTime)
    (delayed : List (Nat × List BitDrive)) (delayFs : Nat) (u : BitDrive) :
    ((Kernel.addDelayed delayed delayFs u).flatMap fun g =>
      carrying bit generation (saturatingAddFs now g.1) g.2).Perm
      (carrying bit generation (saturatingAddFs now delayFs) [u] ++
        delayed.flatMap fun g => carrying bit generation (saturatingAddFs now g.1) g.2) := by
  induction delayed with
  | nil => exact List.Perm.refl _
  | cons g delayed ih =>
    unfold Kernel.addDelayed
    split_ifs with h
    · rw [List.flatMap_cons, List.flatMap_cons, carrying_append, h, ← List.append_assoc]
      exact List.perm_append_comm.append_right _
    · rw [List.flatMap_cons, List.flatMap_cons]
      refine (ih.append_left _).trans ?_
      rw [← List.append_assoc, ← List.append_assoc]
      exact List.perm_append_comm.append_right _

private theorem eq_of_perm_ite {β : Type} {p : Prop} [Decidable p] {l : List β} {x : β}
    (h : l.Perm (if p then [x] else [])) : l = if p then [x] else [] := by
  split_ifs at h ⊢
  · exact List.perm_singleton.mp h
  · exact List.perm_nil.mp h

/-- What the bit loop has done to one bit: whether it has changed the request of the bit, and what
follows from that. -/
structure Visited (current value : PackedVec) (delay : Bit → Bit → Nat)
    (generations : List Generation) (now : SimTime) (bit : Nat) (changed : Bool)
    (s : Kernel.Transitions) : Prop where
  generation : s.generations.getD bit 0 =
    if changed then generations.getD bit 0 + 1 else generations.getD bit 0
  immediate : s.immediate.getBit bit =
    if changed ∧ delay (current.getBit bit) (value.getBit bit) = 0 then value.getBit bit
    else current.getBit bit
  delayed : ∀ γ, (s.delayed.flatMap fun g => carrying bit γ (saturatingAddFs now g.1) g.2) =
    if changed ∧ current.getBit bit ≠ value.getBit bit ∧
        delay (current.getBit bit) (value.getBit bit) ≠ 0 ∧ γ = generations.getD bit 0 + 1 then
      [(saturatingAddFs now (delay (current.getBit bit) (value.getBit bit)), value.getBit bit)]
    else []

theorem getD_modify (gs : List Generation) (b i : Nat) :
    (gs.modify b (· + 1)).getD i 0 =
      if i = b ∧ b < gs.length then gs.getD i 0 + 1 else gs.getD i 0 := by
  simp only [List.getD_eq_getElem?_getD, List.getElem?_modify]
  by_cases h : i = b
  · subst h
    by_cases hlt : i < gs.length
    · simp [hlt]
    · simp [hlt]
  · simp [h, Ne.symm h]

section BitLoop

variable {previous current value : PackedVec} {delay : Bit → Bit → Nat}
  {generations : List Generation} {now : SimTime} {bit : Nat} {changed : Bool}
  {s : Kernel.Transitions}

/-- Visiting one bit leaves the others alone. -/
theorem Visited.other {b : Nat}
    (h : Visited current value delay generations now bit changed s) (hb : bit ≠ b) :
    Visited current value delay generations now bit changed
      (Kernel.transitionBit previous current value delay s b) := by
  have hgen : (s.generations.modify b (· + 1)).getD bit 0 = s.generations.getD bit 0 := by
    rw [getD_modify, if_neg fun hc => hb hc.1]
  unfold Kernel.transitionBit
  split_ifs
  · exact h
  · exact ⟨hgen.trans h.generation, h.immediate, h.delayed⟩
  · refine ⟨hgen.trans h.generation, ?_, h.delayed⟩
    rw [PackedVec.getBit_setBit, if_neg fun hc => hb hc.1]
    exact h.immediate
  · refine ⟨hgen.trans h.generation, h.immediate, fun γ => eq_of_perm_ite ?_⟩
    have hadd := flatMap_addDelayed bit γ now s.delayed
      (delay (current.getBit b) (value.getBit b))
      ⟨b, value.getBit b, s.generations.getD b 0 + 1⟩
    have hnil : ∀ time,
        carrying bit γ time [⟨b, value.getBit b, s.generations.getD b 0 + 1⟩] = [] :=
      fun time => by simp [carrying, Ne.symm hb]
    rw [hnil, List.nil_append, h.delayed γ] at hadd
    exact hadd

/-- Visiting an unvisited bit. -/
theorem Visited.own (h : Visited current value delay generations now bit false s)
    (hwidth : bit < s.immediate.width) (hlen : bit < s.generations.length) :
    Visited current value delay generations now bit
      (previous.getBit bit ≠ value.getBit bit)
      (Kernel.transitionBit previous current value delay s bit) := by
  have hgen : (s.generations.modify bit (· + 1)).getD bit 0 = generations.getD bit 0 + 1 := by
    rw [getD_modify, if_pos ⟨rfl, hlen⟩, h.generation]
    rfl
  have himm : s.immediate.getBit bit = current.getBit bit := by
    rw [h.immediate]
    simp
  have hdel (γ : Generation) :
      (s.delayed.flatMap fun g => carrying bit γ (saturatingAddFs now g.1) g.2) = [] := by
    rw [h.delayed]
    simp
  unfold Kernel.transitionBit
  split_ifs with hp hc hz
  · simpa [hp] using h
  · refine ⟨?_, ?_, fun γ => ?_⟩
    · simpa [hp] using hgen
    · rw [himm, hc]
      split_ifs <;> rfl
    · rw [hdel]
      simp [hc]
  · refine ⟨?_, ?_, fun γ => ?_⟩
    · simpa [hp] using hgen
    · rw [PackedVec.getBit_setBit, if_pos ⟨rfl, hwidth⟩]
      simp [hp, hz]
    · rw [hdel]
      simp [hz]
  · refine ⟨?_, ?_, fun γ => eq_of_perm_ite ?_⟩
    · simpa [hp] using hgen
    · rw [himm]
      simp [hz]
    · have hadd := flatMap_addDelayed bit γ now s.delayed
        (delay (current.getBit bit) (value.getBit bit))
        ⟨bit, value.getBit bit, s.generations.getD bit 0 + 1⟩
      rw [hdel, List.append_nil] at hadd
      refine hadd.trans (List.Perm.of_eq ?_)
      have hg : s.generations.getD bit 0 = generations.getD bit 0 := by
        rw [h.generation]
        rfl
      rw [carrying_singleton, hg]
      generalize generations.getD bit 0 + 1 = g
      by_cases hγ : γ = g
      · simp [hγ, hp, hc, hz]
      · simp [hγ, Ne.symm hγ]

end BitLoop

theorem visited_transitions {width : Nat} (previous : PackedVec) {current : PackedVec}
    (value : PackedVec) (delay : Bit → Bit → Nat) {generations : List Generation} (now : SimTime)
    (hc : current.width = width) (hg : generations.length = width) {bit : Nat}
    (hbit : bit < width) :
    Visited current value delay generations now bit (previous.getBit bit ≠ value.getBit bit)
      (Kernel.transitions width previous current value delay generations) := by
  have h := foldl_invariant (Kernel.transitionBit previous current value delay)
    (fun T s => s.immediate.width = width ∧ s.generations.length = width ∧
      Visited current value delay generations now bit
        (bit ∈ T ∧ previous.getBit bit ≠ value.getBit bit) s) (List.range width)
    ⟨generations, current, false, []⟩ ?_ ?_
  · have hmem : bit ∈ List.range width := List.mem_range.mpr hbit
    have hv := h.2.2
    simp only [hmem, true_and] at hv
    exact hv
  · refine ⟨hc, hg, ?_, ?_, fun γ => ?_⟩ <;> simp
  · rintro T b S s hsplit ⟨hw, hl, hv⟩
    have hw' : (Kernel.transitionBit previous current value delay s b).immediate.width = width := by
      unfold Kernel.transitionBit
      split_ifs
      · exact hw
      · exact hw
      · exact (PackedVec.width_setBit _ _ _).trans hw
      · exact hw
    have hl' : (Kernel.transitionBit previous current value delay s b).generations.length =
        width := by
      unfold Kernel.transitionBit
      split_ifs
      · exact hl
      all_goals exact (List.length_modify _ _ _).trans hl
    refine ⟨hw', hl', ?_⟩
    by_cases hb : bit = b
    · subst hb
      have hnodup : (List.range width).Nodup := List.nodup_range
      have hnot : bit ∉ T := by
        rw [hsplit] at hnodup
        intro hmem
        exact (List.disjoint_of_nodup_append hnodup) hmem List.mem_cons_self
      have hfalse : Visited current value delay generations now bit false s := by
        simpa [hnot] using hv
      have hown : Visited current value delay generations now bit
          (previous.getBit bit ≠ value.getBit bit)
          (Kernel.transitionBit previous current value delay s bit) :=
        hfalse.own (hw.symm ▸ hbit) (hl.symm ▸ hbit)
      simpa using hown
    · have hmem : bit ∈ T ++ [b] ↔ bit ∈ T := by simp [hb]
      simp only [hmem]
      exact hv.other hb

/-- Without an undelayed bit the value is the old one. -/
theorem immediate_transitions (width : Nat) (previous current value : PackedVec)
    (delay : Bit → Bit → Nat) (generations : List Generation)
    (h : (Kernel.transitions width previous current value delay generations).hasImmediate = false) :
    (Kernel.transitions width previous current value delay generations).immediate = current := by
  have hinv := foldl_invariant (Kernel.transitionBit previous current value delay)
    (fun _ s => s.hasImmediate = false → s.immediate = current) (List.range width)
    ⟨generations, current, false, []⟩ (fun _ => rfl) ?_
  · exact hinv h
  · intro T b S s hsplit hs
    unfold Kernel.transitionBit
    split_ifs
    · exact hs
    · exact hs
    · intro hf
      exact absurd hf (by simp)
    · exact hs

/-- A request makes each bit of the stage do what its delay line does. -/
theorem bitLine_request {st : Stage} {k k' : Kernel} {w : Nat} {v : PackedVec}
    {delay : Bit → Bit → Nat} (hvalue : (st.value k).width = w)
    (hgenerations : (st.generations k).length = w) (hunused : Unused st k)
    (hvalue' : st.value k' =
      (Kernel.transitions w (st.request k) (st.value k) v delay (st.generations k)).immediate)
    (hrequest' : st.request k' = v)
    (hgenerations' : st.generations k' =
      (Kernel.transitions w (st.request k) (st.value k) v delay (st.generations k)).generations)
    (htimed : ∀ bit γ, (inFlight st bit γ k'.timed).Perm
      (((Kernel.transitions w (st.request k) (st.value k) v delay
          (st.generations k)).delayed.flatMap
        fun g => carrying bit γ (saturatingAddFs k.time g.1) g.2) ++ inFlight st bit γ k.timed))
    {bit : Nat} (hbit : bit < w) (hcom : Committed (bitLine st k bit)) :
    bitLine st k' bit =
      ask saturatingAddFs delay k.time (v.getBit bit) (bitLine st k bit) := by
  have hs := visited_transitions (st.request k) v delay k.time hvalue hgenerations hbit
  generalize Kernel.transitions w (st.request k) (st.value k) v delay (st.generations k) = s
    at hs hvalue' hgenerations' htimed
  have hpending := htimed bit ((st.generations k').getD bit 0)
  rw [hs.delayed] at hpending
  by_cases hp : (st.request k).getBit bit = v.getBit bit
  · -- the request of this bit is the old one
    have hgen : (st.generations k').getD bit 0 = (st.generations k).getD bit 0 := by
      rw [hgenerations', hs.generation]
      simp only [hp, ne_eq, not_true_eq_false, decide_false, Bool.false_eq_true, if_false]
    have hval : (st.value k').getBit bit = (st.value k).getBit bit := by
      rw [hvalue', hs.immediate]
      simp only [hp, ne_eq, not_true_eq_false, decide_false, Bool.false_eq_true, false_and,
        if_false]
    have hsame : inFlight st bit ((st.generations k').getD bit 0) k'.timed =
        inFlight st bit ((st.generations k).getD bit 0) k.timed := by
      simp only [hp, ne_eq, not_true_eq_false, decide_false, Bool.false_eq_true, false_and,
        if_false, List.nil_append] at hpending
      rw [hgen] at hpending ⊢
      rcases hcom with hnil | ⟨t, hone⟩
      · have hnil' : inFlight st bit ((st.generations k).getD bit 0) k.timed = [] := hnil
        rw [hnil'] at hpending ⊢
        exact List.perm_nil.mp hpending
      · have hone' : inFlight st bit ((st.generations k).getD bit 0) k.timed = [(t, _)] := hone
        rw [hone'] at hpending ⊢
        exact List.perm_singleton.mp hpending
    have hask : ask saturatingAddFs delay k.time (v.getBit bit) (bitLine st k bit) =
        bitLine st k bit := if_pos hp
    rw [hask]
    apply Line.ext
    · exact hval
    · show (st.request k').getBit bit = (st.request k).getBit bit
      rw [hrequest', hp]
    · exact hsame
  · have hgen : (st.generations k').getD bit 0 = (st.generations k).getD bit 0 + 1 := by
      rw [hgenerations', hs.generation]
      simp only [hp, ne_eq, not_false_eq_true, decide_true, if_true]
    -- no update left on the wheel becomes live again
    have hold : inFlight st bit ((st.generations k').getD bit 0) k.timed = [] := by
      rw [hgen]
      unfold inFlight carrying
      simp only [List.flatMap_eq_nil_iff, List.map_eq_nil_iff, List.filter_eq_nil_iff,
        decide_eq_true_eq]
      rintro ev hev u hu ⟨rfl, hug⟩
      exact hunused ev hev u hu hug
    rw [hold, List.append_nil] at hpending
    have hne : (bitLine st k bit).request ≠ v.getBit bit := hp
    unfold ask
    rw [if_neg hne]
    by_cases hr : (st.value k).getBit bit = v.getBit bit ∨
        delay ((st.value k).getBit bit) (v.getBit bit) = 0
    · have hr' : (bitLine st k bit).value = v.getBit bit ∨
          delay (bitLine st k bit).value (v.getBit bit) = 0 := hr
      rw [if_pos hr']
      apply Line.ext
      · show (st.value k').getBit bit = v.getBit bit
        rw [hvalue', hs.immediate]
        rcases hr with hr | hr
        · rw [hr]
          split_ifs <;> rfl
        · simp only [hp, hr, ne_eq, not_false_eq_true, decide_true, and_self, if_true]
      · show (st.request k').getBit bit = v.getBit bit
        rw [hrequest']
      · show inFlight st bit ((st.generations k').getD bit 0) k'.timed = []
        have hcond : ¬ ((decide ((st.request k).getBit bit ≠ v.getBit bit)) = true ∧
            (st.value k).getBit bit ≠ v.getBit bit ∧
            delay ((st.value k).getBit bit) (v.getBit bit) ≠ 0 ∧
            (st.generations k').getD bit 0 = (st.generations k).getD bit 0 + 1) := by
          rintro ⟨-, h1, h2, -⟩
          exact hr.elim h1 h2
        rw [if_neg hcond] at hpending
        exact List.perm_nil.mp hpending
    · have hr' : ¬ ((bitLine st k bit).value = v.getBit bit ∨
          delay (bitLine st k bit).value (v.getBit bit) = 0) := hr
      rw [if_neg hr']
      rw [not_or] at hr
      apply Line.ext
      · show (st.value k').getBit bit = (st.value k).getBit bit
        rw [hvalue', hs.immediate]
        simp only [hr.2, and_false, if_false]
      · show (st.request k').getBit bit = v.getBit bit
        rw [hrequest']
      · show inFlight st bit ((st.generations k').getD bit 0) k'.timed = _
        have hcond : (decide ((st.request k).getBit bit ≠ v.getBit bit)) = true ∧
            (st.value k).getBit bit ≠ v.getBit bit ∧
            delay ((st.value k).getBit bit) (v.getBit bit) ≠ 0 ∧
            (st.generations k').getD bit 0 = (st.generations k).getD bit 0 + 1 :=
          ⟨by simpa using hp, hr.1, hr.2, hgen⟩
        rw [if_pos hcond] at hpending
        exact List.perm_singleton.mp hpending

/-! ### Due updates -/

theorem liveUpdates_spec (generations : List Generation) {v : PackedVec} (us : List BitDrive)
    {bit : Nat} (hbit : bit < v.width) :
    (Kernel.liveUpdates generations v us).1.getBit bit =
        (((carrying bit (generations.getD bit 0) 0 us).map Prod.snd).getLast?).getD
          (v.getBit bit) ∧
      ((Kernel.liveUpdates generations v us).2 = false →
        (Kernel.liveUpdates generations v us).1 = v ∧
          ∀ b, carrying b (generations.getD b 0) 0 us = []) := by
  have h := foldl_invariant (fun (s : PackedVec × Bool) (u : BitDrive) =>
      if generations.getD u.bit 0 = u.generation then (s.1.setBit u.bit u.value, true) else s)
    (fun T s => s.1.width = v.width ∧ s.1.getBit bit =
        (((carrying bit (generations.getD bit 0) 0 T).map Prod.snd).getLast?).getD
          (v.getBit bit) ∧
      (s.2 = false → s.1 = v ∧ ∀ b, carrying b (generations.getD b 0) 0 T = []))
    us (v, false) ⟨rfl, by simp [carrying], fun _ => ⟨rfl, fun b => rfl⟩⟩ ?_
  · exact h.2
  · rintro T u S s hsplit ⟨hw, hval, hnone⟩
    by_cases hg : generations.getD u.bit 0 = u.generation
    · rw [if_pos hg]
      refine ⟨(PackedVec.width_setBit _ _ _).trans hw, ?_, fun hf => absurd hf (by simp)⟩
      rw [PackedVec.getBit_setBit, carrying_append, carrying_singleton]
      by_cases hb : u.bit = bit
      · subst hb
        simp only [hw, hbit, and_self, if_true, hg]
        simp
      · rw [if_neg fun hc => hb hc.1.symm, if_neg fun hc => hb hc.1, List.append_nil]
        exact hval
    · rw [if_neg hg]
      have hnil (b : Nat) : carrying b (generations.getD b 0) 0 [u] = [] := by
        rw [carrying_singleton, if_neg]
        rintro ⟨rfl, hug⟩
        exact hg hug.symm
      refine ⟨hw, ?_, fun hf => ⟨(hnone hf).1, fun b => ?_⟩⟩
      · rw [carrying_append, hnil, List.append_nil]
        exact hval
      · rw [carrying_append, hnil, List.append_nil]
        exact (hnone hf).2 b

theorem carrying_time (bit : Nat) (generation : Generation) (time : SimTime) (us : List BitDrive) :
    carrying bit generation time us =
      (carrying bit generation 0 us).map fun p => (time, p.2) := by
  simp [carrying]

/-- When an event of the stage happens, each bit stays as it is or performs its due update. -/
theorem bitLine_dispatch {st : Stage} {k k' : Kernel} {ev : TimedEvent} {rest : List TimedEvent}
    (ht : k.timed = ev :: rest) (hd : ev.time = k.time)
    (hvalue : st.value k' = (Kernel.liveUpdates (st.generations k) (st.value k)
      (st.updates ev.action)).1) (hrequest : st.request k' = st.request k)
    (hgenerations : st.generations k' = st.generations k)
    (hrest : ∀ bit γ, inFlight st bit γ k'.timed = inFlight st bit γ rest) {bit : Nat}
    (hbit : bit < (st.value k).width) (hcom : Committed (bitLine st k bit)) :
    bitLine st k' bit = bitLine st k bit ∨
      bitLine st k' bit = fire (· ≤ k.time) (bitLine st k bit) := by
  have hlive := (liveUpdates_spec (st.generations k) (st.updates ev.action) hbit).1
  rw [← hvalue] at hlive
  have hpending : (bitLine st k bit).pending =
      (carrying bit ((st.generations k).getD bit 0) 0 (st.updates ev.action)).map
        (fun p => (ev.time, p.2)) ++ inFlight st bit ((st.generations k).getD bit 0) rest := by
    show inFlight st bit _ k.timed = _
    rw [← carrying_time, ht]
    rfl
  have hpending' : (bitLine st k' bit).pending =
      inFlight st bit ((st.generations k).getD bit 0) rest := by
    show inFlight st bit _ k'.timed = _
    rw [hrest, hgenerations]
  have hreq : (bitLine st k' bit).request = (bitLine st k bit).request := by
    show (st.request k').getBit bit = _
    rw [hrequest]
    rfl
  generalize carrying bit ((st.generations k).getD bit 0) 0 (st.updates ev.action) = cs
    at hlive hpending
  generalize inFlight st bit ((st.generations k).getD bit 0) rest = later at hpending hpending'
  -- the event holds no live update of the bit, or its only one
  cases cs with
  | nil =>
    apply Or.inl
    apply Line.ext
    · exact hlive
    · exact hreq
    · rw [hpending', hpending]
      rfl
  | cons c cs =>
    rcases hcom with hnil | ⟨t, hone⟩
    · rw [hnil] at hpending
      exact absurd hpending (by simp)
    · rw [hone] at hpending
      rw [List.map_cons, List.cons_append] at hpending
      obtain ⟨hc, hnil⟩ := List.cons.inj hpending
      obtain ⟨rfl, hcr⟩ := Prod.mk.inj hc
      obtain ⟨hcs, rfl⟩ := List.append_eq_nil_iff.mp hnil.symm
      obtain rfl := List.map_eq_nil_iff.mp hcs
      have hdue : Due (· ≤ k.time) (bitLine st k bit) :=
        ⟨_, by rw [hone]; exact List.mem_singleton.mpr rfl, Nat.le_of_eq hd⟩
      apply Or.inr
      rw [fire, if_pos hdue]
      apply Line.ext
      · show (st.value k').getBit bit = (bitLine st k bit).request
        rw [hlive, hcr]
        rfl
      · exact hreq
      · exact hpending'

/-- An event whose updates are all stale changes no bit. -/
theorem bitLine_dispatch_stale {st : Stage} {k k' : Kernel} {ev : TimedEvent}
    {rest : List TimedEvent} (ht : k.timed = ev :: rest)
    (hstale : ∀ bit, carrying bit ((st.generations k).getD bit 0) ev.time
      (st.updates ev.action) = [])
    (hvalue : st.value k' = st.value k) (hrequest : st.request k' = st.request k)
    (hgenerations : st.generations k' = st.generations k) (hrest : k'.timed = rest) (bit : Nat) :
    bitLine st k' bit = bitLine st k bit := by
  apply Line.ext
  · show (st.value k').getBit bit = (st.value k).getBit bit
    rw [hvalue]
  · show (st.request k').getBit bit = (st.request k).getBit bit
    rw [hrequest]
  · show inFlight st bit _ k'.timed = inFlight st bit _ k.timed
    rw [hgenerations, hrest, ht]
    unfold inFlight
    rw [List.flatMap_cons, hstale, List.nil_append]

theorem carrying_of_stale {st : Stage} {k : Kernel} {ev : TimedEvent}
    (h : k.staleAction ev.action) (bit : Nat) :
    carrying bit ((st.generations k).getD bit 0) ev.time (st.updates ev.action) = [] := by
  have hall (us : List BitDrive)
      (hus : us.all fun u => (st.generations k).getD u.bit 0 ≠ u.generation) :
      carrying bit ((st.generations k).getD bit 0) ev.time us = [] := by
    unfold carrying
    simp only [List.map_eq_nil_iff, List.filter_eq_nil_iff, decide_eq_true_eq]
    rintro u hu ⟨rfl, hug⟩
    have hne := List.all_eq_true.mp hus u hu
    exact (of_decide_eq_true hne) hug.symm
  unfold Kernel.staleAction at h
  cases st with
  | driver d =>
    cases ha : ev.action with
    | driveBits d' us =>
      rw [ha] at h
      by_cases hd : d' = d
      · subst hd
        simpa [Stage.updates] using hall us h
      · simp [Stage.updates, hd, carrying]
    | _ => simp [Stage.updates, carrying]
  | net n =>
    cases ha : ev.action with
    | netBits n' us =>
      rw [ha] at h
      by_cases hn : n' = n
      · subst hn
        simpa [Stage.updates] using hall us h
      · simp [Stage.updates, hn, carrying]
    | _ => simp [Stage.updates, carrying]

/-- Discarding stale events keeps what every view shows that does not see them. -/
theorem flatMap_discard {β : Type} (f : TimedEvent → List β) (k : Kernel)
    (hf : ∀ ev, k.staleAction ev.action → f ev = []) :
    k.discardStaleTimedActions.timed.flatMap f = k.timed.flatMap f := by
  show (k.timed.dropWhile fun ev => k.staleAction ev.action).flatMap f = k.timed.flatMap f
  generalize k.timed = timed
  induction timed with
  | nil => rfl
  | cons ev timed ih =>
    rw [List.dropWhile_cons]
    split_ifs with hs
    · rw [ih, List.flatMap_cons, hf ev hs, List.nil_append]
    · rfl

theorem bitLine_discard (st : Stage) (k : Kernel) (t : SimTime) (bit : Nat) :
    bitLine st { k.discardStaleTimedActions with time := t } bit = bitLine st k bit := by
  have hpending : inFlight st bit ((st.generations k).getD bit 0)
      k.discardStaleTimedActions.timed =
      inFlight st bit ((st.generations k).getD bit 0) k.timed :=
    flatMap_discard _ k fun ev hs => carrying_of_stale hs bit
  cases st <;> exact Line.ext rfl rfl hpending

/-! ### Frames -/

/-- Nothing of the stage has changed. -/
structure SameStage (st : Stage) (k k' : Kernel) : Prop where
  value : st.value k' = st.value k
  request : st.request k' = st.request k
  generations : st.generations k' = st.generations k
  whole : wholeGeneration k' st = wholeGeneration k st
  wheel : k'.timed.filter (fun ev => Owns st ev.action) =
    k.timed.filter fun ev => Owns st ev.action

theorem SameStage.refl (st : Stage) (k : Kernel) : SameStage st k k := ⟨rfl, rfl, rfl, rfl, rfl⟩

theorem SameStage.trans {st : Stage} {k₁ k₂ k₃ : Kernel} (h : SameStage st k₁ k₂)
    (h' : SameStage st k₂ k₃) : SameStage st k₁ k₃ :=
  ⟨h'.value.trans h.value, h'.request.trans h.request, h'.generations.trans h.generations,
    h'.whole.trans h.whole, h'.wheel.trans h.wheel⟩

theorem updates_of_not_owns {st : Stage} {action : TimedAction} (h : ¬ Owns st action) :
    st.updates action = [] := by
  cases st with
  | driver d =>
    cases action with
    | driveBits d' us => exact if_neg h
    | _ => rfl
  | net n =>
    cases action with
    | netBits n' us => exact if_neg h
    | _ => rfl

/-- What a view of the stage's own events shows of the wheel. -/
theorem flatMap_of_owns {β : Type} {st : Stage} {f : TimedEvent → List β}
    (hf : ∀ ev, ¬ Owns st ev.action → f ev = []) (timed : List TimedEvent) :
    timed.flatMap f = (timed.filter fun ev => Owns st ev.action).flatMap f := by
  induction timed with
  | nil => rfl
  | cons ev timed ih =>
    rw [List.flatMap_cons, List.filter_cons]
    by_cases ho : Owns st ev.action
    · simp only [ho, decide_true, if_true, List.flatMap_cons, ih]
    · simp only [ho, decide_false, Bool.false_eq_true, if_false, hf ev ho, List.nil_append, ih]

theorem SameStage.flatMap {β : Type} {st : Stage} {k k' : Kernel} (h : SameStage st k k')
    {f : TimedEvent → List β} (hf : ∀ ev, ¬ Owns st ev.action → f ev = []) :
    k'.timed.flatMap f = k.timed.flatMap f := by
  rw [flatMap_of_owns hf, h.wheel, ← flatMap_of_owns hf]

theorem SameStage.inFlight {st : Stage} {k k' : Kernel} (h : SameStage st k k') (bit : Nat)
    (γ : Generation) : inFlight st bit γ k'.timed = Stages.inFlight st bit γ k.timed :=
  h.flatMap fun ev ho => by
    rw [updates_of_not_owns ho]
    rfl

theorem SameStage.bitLine {st : Stage} {k k' : Kernel} (h : SameStage st k k') (bit : Nat) :
    bitLine st k' bit = Stages.bitLine st k bit := by
  apply Line.ext
  · show (st.value k').getBit bit = (st.value k).getBit bit
    rw [h.value]
  · show (st.request k').getBit bit = (st.request k).getBit bit
    rw [h.request]
  · show Stages.inFlight st bit _ k'.timed = Stages.inFlight st bit _ k.timed
    rw [h.inFlight, h.generations]

theorem filter_push {k : Kernel} {time : SimTime} {region : Region} {action : TimedAction}
    {st : Stage} (h : ¬ Owns st action) :
    ((k.pushTimedAction time region action).timed.filter fun ev => Owns st ev.action) =
      k.timed.filter fun ev => Owns st ev.action := by
  unfold Kernel.pushTimedAction
  dsimp only
  rw [List.orderedInsert_eq_take_drop, List.filter_append, List.filter_cons]
  simp only [h, decide_false, Bool.false_eq_true, if_false]
  rw [← List.filter_append, List.takeWhile_append_dropWhile]

theorem driverValue_of_net {k k' : Kernel} {d : DriverId}
    (hdriver : k'.driver d = k.driver d)
    (hnet : (k'.net (k.driver d).net).driverValues = (k.net (k.driver d).net).driverValues) :
    k'.driverValue d = k.driverValue d := by
  unfold Kernel.driverValue
  rw [hdriver, hnet]

theorem SameStage.of_calm {k k' : Kernel} (h : Calm k k') (st : Stage) : SameStage st k k' := by
  have hnet {β : Type} (f : Net → β) (hf : ∀ net, f (signals net) = f net) (n : NetId) :
      f (k'.net n) = f (k.net n) := by
    rw [← hf (k'.net n), h.signals, hf]
  have hwheel : k'.timed.filter (fun ev => Owns st ev.action) =
      k.timed.filter fun ev => Owns st ev.action := by rw [h.timed]
  cases st with
  | driver d =>
    have hdriver : k'.driver d = k.driver d := by
      unfold Kernel.driver
      rw [h.drivers]
    refine ⟨driverValue_of_net hdriver (hnet Net.driverValues (fun _ => rfl) _), ?_, ?_, ?_, hwheel⟩
    · show k'.driverRequest d = k.driverRequest d
      unfold Kernel.driverRequest
      rw [h.driverRequests]
    · show k'.bitGenerations d = k.bitGenerations d
      unfold Kernel.bitGenerations
      rw [h.driverBitGenerations]
    · show (k'.driver d).generation = (k.driver d).generation
      rw [hdriver]
  | net n =>
    exact ⟨hnet Net.value (fun _ => rfl) n, hnet Net.delayRequest (fun _ => rfl) n,
      hnet Net.delayGenerations (fun _ => rfl) n, rfl, hwheel⟩

/-- A change of one net that leaves its driver values alone is seen by that net only. -/
theorem sameStage_modifyNet {k : Kernel} {n : NetId} {f : Net → Net}
    (hf : ∀ net, (f net).driverValues = net.driverValues) {st : Stage} (hst : st ≠ .net n) :
    SameStage st k (k.modifyNet n f) := by
  cases st with
  | driver d =>
    refine ⟨driverValue_of_net rfl ?_, rfl, rfl, rfl, rfl⟩
    rw [Kernel.net_modifyNet]
    split_ifs
    · exact hf _
    · rfl
  | net m =>
    have hm : (k.modifyNet n f).net m = k.net m := by
      rw [Kernel.net_modifyNet, if_neg]
      rintro ⟨rfl, -⟩
      exact hst rfl
    refine ⟨?_, ?_, ?_, rfl, rfl⟩
    · exact congrArg Net.value hm
    · exact congrArg Net.delayRequest hm
    · exact congrArg Net.delayGenerations hm

theorem sameStage_writeNet (k : Kernel) {n : NetId} (v : PackedVec) {st : Stage}
    (hst : st ≠ .net n) : SameStage st k (k.writeNet n v) := by
  have hset : SameStage st k (k.setValue n v) := by
    apply sameStage_modifyNet _ hst
    exact fun _ => rfl
  exact hset.trans (.of_calm (wakes_writeNet k n v).toCalm st)

theorem sameStage_netTouch {n : NetId} {k k' : Kernel} (h : NetTouch n k k') {st : Stage}
    (hst : st ≠ .net n) : SameStage st k k' := by
  cases h with
  | writeNet v hv => exact sameStage_writeNet k v hst
  | setDelayRequest v generations hv hg =>
    apply sameStage_modifyNet _ hst
    exact fun _ => rfl
  | @push delayFs action hpos ha =>
    have hnot : ¬ Owns st action := by
      intro ho
      cases action with
      | netBits m us =>
        obtain rfl : m = n := ha
        cases st with
        | driver d => exact ho
        | net m' => exact hst (congrArg Stage.net (Eq.symm ho))
      | _ => exact ha
    cases st <;> exact ⟨rfl, rfl, rfl, rfl, filter_push hnot⟩

theorem sameStage_netTouches {n : NetId} {k k' : Kernel} (h : NetTouches n k k') {st : Stage}
    (hst : st ≠ .net n) : SameStage st k k' :=
  keeps_sequence (SameStage.refl st) SameStage.trans (fun ht => sameStage_netTouch ht hst) h

/-- The driver's own slot is touched by its own requests only. -/
theorem driverValue_setDriverValue {k : Kernel} (hk : Wired k) {d d' : DriverId} (v : PackedVec)
    (hd : d < k.drivers.length) (hd' : d' < k.drivers.length) :
    (k.setDriverValue d v).driverValue d' = if d' = d then v else k.driverValue d' := by
  unfold Kernel.driverValue
  show
    ((k.setDriverValue d v).net (k.driver d').net).driverValues.getD (k.driver d').slot default = _
  unfold Kernel.setDriverValue
  rw [Kernel.net_modifyNet]
  by_cases hdd : d' = d
  · subst hdd
    rw [if_pos ⟨rfl, hk.net_lt d' hd'⟩, if_pos rfl]
    have hslot := hk.slot_lt d' hd'
    simp [List.getD_eq_getElem?_getD, hslot]
  · rw [if_neg hdd]
    split_ifs with hn
    · have hslot := hk.distinct d' hd' d hd hdd hn.1
      simp [List.getD_eq_getElem?_getD, Ne.symm hslot]
    · rfl

theorem sameStage_touch {d : DriverId} {n : NetId} {k k' : Kernel} (h : Touch d n k k')
    (hk : Wired k) (hd : d < k.drivers.length) {st : Stage} (hn : st ≠ .net n)
    (hst : st ≠ .driver d) (hlt : ∀ d', st = .driver d' → d' < k.drivers.length) :
    SameStage st k k' := by
  cases h with
  | net h => exact sameStage_netTouch h hn
  | setDriverValue v hdn hv =>
    cases st with
    | driver d' =>
      refine ⟨?_, rfl, rfl, rfl, rfl⟩
      have hne : d' ≠ d := fun he => hst (congrArg Stage.driver he)
      exact (driverValue_setDriverValue hk v hd (hlt d' rfl)).trans (if_neg hne)
    | net m =>
      have hm : (k.setDriverValue d v).net m = k.net m := by
        unfold Kernel.setDriverValue
        rw [Kernel.net_modifyNet, if_neg]
        rintro ⟨rfl, -⟩
        exact hn (congrArg Stage.net hdn)
      exact ⟨congrArg Net.value hm, congrArg Net.delayRequest hm,
        congrArg Net.delayGenerations hm, rfl, rfl⟩
  | setDriverRequest v generations hv hg =>
    cases st with
    | driver d' =>
      have hne : d' ≠ d := fun he => hst (congrArg Stage.driver he)
      have hdriver : (k.setDriverRequest d v generations).driver d' = k.driver d' := by
        rw [driver_setDriverRequest, if_neg fun hc => hne hc.1]
      refine ⟨driverValue_of_net hdriver rfl, ?_, ?_, ?_, rfl⟩
      · show (k.setDriverRequest d v generations).driverRequest d' = k.driverRequest d'
        rw [driverRequest_setDriverRequest, if_neg fun hc => hne hc.1]
      · show (k.setDriverRequest d v generations).bitGenerations d' = k.bitGenerations d'
        rw [bitGenerations_setDriverRequest, if_neg fun hc => hne hc.1]
      · show ((k.setDriverRequest d v generations).driver d').generation = _
        rw [hdriver]
        rfl
    | net m => exact ⟨rfl, rfl, rfl, rfl, rfl⟩
  | @push delayFs action hpos ha =>
    have hnot : ¬ Owns st action := by
      intro ho
      cases st with
      | driver d' =>
        apply hst
        cases action with
        | drive d'' v generation => exact congrArg Stage.driver (Eq.trans (Eq.symm ho) ha)
        | driveBits d'' us => exact congrArg Stage.driver (Eq.trans (Eq.symm ho) ha)
        | _ => exact absurd ha id
      | net m =>
        cases action with
        | netBits m' us => exact ha
        | _ => exact ho
    cases st <;> exact ⟨rfl, rfl, rfl, rfl, filter_push hnot⟩

theorem sameStage_touches {d : DriverId} {n : NetId} {k k' : Kernel} (h : Touches d n k k')
    (hk : Wired k) (hd : d < k.drivers.length) (hnet : n < k.nets.length) {st : Stage}
    (hn : st ≠ .net n) (hst : st ≠ .driver d)
    (hlt : ∀ d', st = .driver d' → d' < k.drivers.length) : SameStage st k k' := by
  induction h with
  | refl => exact .refl st k
  | tail h₁ h₂ ih =>
    have hs := sameWiring_touches h₁
    refine ih.trans (sameStage_touch h₂ (wired_touches h₁ hd hnet hk) (hs.drivers ▸ hd) hn hst ?_)
    intro d' he
    rw [hs.drivers]
    exact hlt d' he

end Eevee.Sched.Stages
