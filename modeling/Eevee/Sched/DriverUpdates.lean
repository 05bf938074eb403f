/- No request of a driver is lost, unless transition delays overtake a drive of the whole vector. -/

import Mathlib.Data.List.Basic
import Mathlib.Tactic.Common
import Mathlib.Tactic.SplitIfs
import Eevee.Sched.Drivers

set_option autoImplicit false
set_option relaxedAutoImplicit false

namespace Eevee.Sched.DriverUpdates

open Eevee.Core.Logic
open Eevee.Lib.InertialLine
open Eevee.Lib.Transition
open Eevee.Sched.Drivers
open Eevee.Sched.Frames
open Eevee.Sched.Layout
open Eevee.Sched.Nets
open Eevee.Sched.Scheduler
open Eevee.Sched.Simulation
open Eevee.Sched.Stages

/-- The live actions that will write one bit of the driver: its bit updates and the drives of the
whole vector. -/
def livePending (d : DriverId) (k : Kernel) (bit : Nat) : List (SimTime × Bit) :=
  (bitLine (.driver d) k bit).pending ++ (driveLine d k).pending.map fun p => (p.1, p.2.getBit bit)

/-- Every bit has reached the last request or exactly one live action will take it there, no live
action carries anything else, and without live actions the value is the last request. -/
structure Served (d : DriverId) (k : Kernel) : Prop where
  bits : ∀ bit < (k.driverValue d).width,
    (k.driverValue d).getBit bit = (k.driverRequest d).getBit bit ∨
      ∃ t, livePending d k bit = [(t, (k.driverRequest d).getBit bit)]
  last : ∀ bit < (k.driverValue d).width, ∀ p ∈ livePending d k bit,
    p.2 = (k.driverRequest d).getBit bit
  quiet : (∀ bit < (k.driverValue d).width, livePending d k bit = []) →
    k.driverValue d = k.driverRequest d

/-- No action on the wheel carries the generations that the next request of the driver gives. -/
def Fresh (d : DriverId) (k : Kernel) : Prop := Unused (.driver d) k ∧ UnusedWhole d k

instance (d : DriverId) (k : Kernel) : Decidable (Fresh d k) := by
  unfold Fresh
  infer_instance

/-- Net `n` keeps `w` bits, generations are not reused, and a request with transition delays that
cancels a drive of the whole vector changes every bit that is still on its way. -/
def Overlaps (d : DriverId) (n : NetId) (w : Nat) (s : Sim) (l : Label) : Prop :=
  Steady n w s.kernel l ∧
    match l with
    | .call (.driveNet d' _) => d' = d → Fresh d s.kernel
    | .call (.scheduleDrive d' v _) => d' = d →
      s.kernel.driverRequest d ≠ v.resize w false → Fresh d s.kernel
    | .call (.scheduleDriveTransitions d' v _) => d' = d →
      s.kernel.driverRequest d ≠ v.resize w false → Fresh d s.kernel ∧
        ((driveLine d s.kernel).pending ≠ [] → ∀ bit < w,
          (s.kernel.driverRequest d).getBit bit = (v.resize w false).getBit bit →
          (s.kernel.driverValue d).getBit bit = (s.kernel.driverRequest d).getBit bit)
    | _ => True

instance (d : DriverId) (n : NetId) (w : Nat) (s : Sim) : (l : Label) →
    Decidable (Overlaps d n w s l)
  | .call (.driveNet d' v) =>
    inferInstanceAs (Decidable (Steady n w s.kernel (.call (.driveNet d' v)) ∧
      (d' = d → Fresh d s.kernel)))
  | .call (.scheduleDrive d' v delayFs) =>
    inferInstanceAs (Decidable (Steady n w s.kernel (.call (.scheduleDrive d' v delayFs)) ∧
      (d' = d → s.kernel.driverRequest d ≠ v.resize w false → Fresh d s.kernel)))
  | .call (.scheduleDriveTransitions d' v delays) =>
    inferInstanceAs (Decidable (
      Steady n w s.kernel (.call (.scheduleDriveTransitions d' v delays)) ∧
      (d' = d → s.kernel.driverRequest d ≠ v.resize w false → Fresh d s.kernel ∧
        ((driveLine d s.kernel).pending ≠ [] → ∀ bit < w,
          (s.kernel.driverRequest d).getBit bit = (v.resize w false).getBit bit →
          (s.kernel.driverValue d).getBit bit = (s.kernel.driverRequest d).getBit bit))))
  | .call (.newNet i r delay) =>
    inferInstanceAs (Decidable (Steady n w s.kernel (.call (.newNet i r delay)) ∧ True))
  | .call (.writeNet m v) =>
    inferInstanceAs (Decidable (Steady n w s.kernel (.call (.writeNet m v)) ∧ True))
  | .call (.scheduleNba m v) =>
    inferInstanceAs (Decidable (Steady n w s.kernel (.call (.scheduleNba m v)) ∧ True))
  | .call (.newDriver _ _ _) | .call .requestStop | .call .notifyRuntimeChange
  | .call (.triggerEvent _) | .addProcess | .runUntil _ | .resume | .suspend _ | .promote
  | .drainNba | .advance | .dispatch | .settle => .isTrue ⟨trivial, trivial⟩

/-! ### The invariant -/

/-- Either the bits are inertial lines of their own, or one drive of the whole vector is pending
and no bit update is. -/
def Orderly (d : DriverId) (w : Nat) (k : Kernel) : Prop :=
  ((driveLine d k).pending = [] ∧ ∀ bit < w, Coherent (bitLine (.driver d) k bit)) ∨
    (∃ t, (driveLine d k).pending = [(t, k.driverRequest d)]) ∧
      ∀ bit < w, (bitLine (.driver d) k bit).pending = []

theorem Orderly.committed {d : DriverId} {w : Nat} {k : Kernel} (h : Orderly d w k) :
    ∀ bit < w, Committed (bitLine (.driver d) k bit) := by
  intro bit hbit
  rcases h with ⟨-, hc⟩ | ⟨-, hp⟩
  · exact (hc bit hbit).committed
  · exact Or.inl (hp bit hbit)

theorem Orderly.served {d : DriverId} {w : Nat} {k : Kernel} (h : Orderly d w k)
    (hv : (k.driverValue d).width = w) (hr : (k.driverRequest d).width = w) : Served d k := by
  have hlast : ∀ bit < w, ∀ p ∈ livePending d k bit, p.2 = (k.driverRequest d).getBit bit := by
    intro bit hbit p hp
    unfold livePending at hp
    rcases h with ⟨hnone, hc⟩ | ⟨⟨t, hone⟩, hnone⟩
    · rw [hnone, List.map_nil, List.append_nil] at hp
      rcases hc bit hbit with ⟨-, hnil⟩ | ⟨-, t, hone⟩
      · simp [hnil] at hp
      · rw [hone, List.mem_singleton] at hp
        rw [hp]
        rfl
    · rw [hnone bit hbit, hone] at hp
      obtain rfl := List.mem_singleton.mp hp
      rfl
  have hbits : ∀ bit < w, (k.driverValue d).getBit bit = (k.driverRequest d).getBit bit ∨
      ∃ t, livePending d k bit = [(t, (k.driverRequest d).getBit bit)] := by
    intro bit hbit
    unfold livePending
    rcases h with ⟨hnone, hc⟩ | ⟨⟨t, hone⟩, hnone⟩
    · rcases hc bit hbit with ⟨heq, -⟩ | ⟨-, t, hone⟩
      · exact Or.inl heq
      · refine Or.inr ⟨t, ?_⟩
        rw [hnone, hone]
        rfl
    · refine Or.inr ⟨t, ?_⟩
      rw [hnone bit hbit, hone]
      rfl
  refine ⟨hv.symm ▸ hbits, hv.symm ▸ hlast, fun hquiet => ?_⟩
  apply PackedVec.ext_bits (hv.trans hr.symm)
  intro bit hbit
  rcases hbits bit (hv ▸ hbit) with heq | ⟨t, hone⟩
  · exact heq
  · simp [hquiet bit hbit] at hone

/-- Each bit of the driver stays as it is or reaches the last request. -/
def Advances (d : DriverId) (w : Nat) (k k' : Kernel) : Prop :=
  ∀ bit < w, (k'.driverValue d).getBit bit = (k.driverValue d).getBit bit ∨
    (k'.driverValue d).getBit bit = (k'.driverRequest d).getBit bit

section Step

variable {d : DriverId} {n : NetId} {w : Nat} {k : Kernel}

private theorem advances_of_lines {k' : Kernel}
    (h : ∀ bit < w, (bitLine (.driver d) k' bit).value = (bitLine (.driver d) k bit).value ∨
      (bitLine (.driver d) k' bit).value = (bitLine (.driver d) k' bit).request) :
    Advances d w k k' := h

theorem orderly_of_lines {k' : Kernel} (h : Orderly d w k)
    (hdrive : driveLine d k' = driveLine d k)
    (hbits : ∀ bit, bitLine (.driver d) k' bit = bitLine (.driver d) k bit) :
    Orderly d w k' ∧ Advances d w k k' := by
  have hreq : k'.driverRequest d = k.driverRequest d := congrArg Line.request hdrive
  refine ⟨?_, advances_of_lines fun bit _ => Or.inl (congrArg Line.value (hbits bit))⟩
  unfold Orderly
  rw [hdrive, hreq]
  simp only [hbits]
  exact h

theorem orderly_driveNet (hk : Wired k) (hd : d < k.drivers.length) (hn : (k.driver d).net = n)
    (hs : Shape n w k) (hfresh : Fresh d k) (v : PackedVec) :
    Orderly d w (k.driveNet d v) ∧ Advances d w k (k.driveNet d v) := by
  obtain ⟨hdrive, hbits⟩ := driveNet_lines hk hd hn hs hfresh.1 hfresh.2 v
  refine ⟨Or.inl ⟨congrArg Line.pending hdrive, fun bit hbit => ?_⟩,
    advances_of_lines fun bit hbit => Or.inr ?_⟩
  · rw [hbits bit hbit]
    exact coherent_settled _
  · rw [hbits bit hbit]
    rfl

theorem orderly_scheduleDrive (hk : Wired k) (hd : d < k.drivers.length)
    (hn : (k.driver d).net = n) (hs : Shape n w k) (v : PackedVec) (delayFs : Nat)
    (hfresh : k.driverRequest d ≠ v.resize w false → Fresh d k) (h : Orderly d w k) :
    Orderly d w (k.scheduleDrive d v delayFs) ∧ Advances d w k (k.scheduleDrive d v delayFs) := by
  obtain ⟨hdrive, hbits⟩ := scheduleDrive_lines hk hd hn hs v delayFs hfresh
  by_cases hreq : k.driverRequest d = v.resize w false
  · have hline : driveLine d (k.scheduleDrive d v delayFs) = driveLine d k :=
      hdrive.trans (if_pos hreq)
    simp only [hreq, if_true] at hbits
    refine ⟨?_, advances_of_lines fun bit hbit => Or.inl (congrArg Line.value (hbits bit hbit))⟩
    rcases h with ⟨hnone, hc⟩ | ⟨⟨t, hone⟩, hnone⟩
    · refine Or.inl ⟨(congrArg Line.pending hline).trans hnone, fun bit hbit => ?_⟩
      rw [hbits bit hbit]
      exact hc bit hbit
    · refine Or.inr ⟨⟨t, ?_⟩, fun bit hbit => ?_⟩
      · rw [congrArg Line.pending hline, hone]
        exact congrArg (fun r => [(t, r)]) (congrArg Line.request hline).symm
      · rw [hbits bit hbit]
        exact hnone bit hbit
  simp only [hreq, if_false] at hbits
  have hask : driveLine d (k.scheduleDrive d v delayFs) =
      if k.driverValue d = v.resize w false ∨ delayFs = 0 then settled (v.resize w false)
      else ⟨k.driverValue d, v.resize w false,
        [(saturatingAddFs k.time delayFs, v.resize w false)]⟩ := hdrive.trans (if_neg hreq)
  by_cases hnow : k.driverValue d = v.resize w false ∨ delayFs = 0
  · rw [if_pos hnow] at hask
    rw [hask] at hbits
    refine ⟨Or.inl ⟨congrArg Line.pending hask, fun bit hbit => ?_⟩,
      advances_of_lines fun bit hbit => Or.inr ?_⟩
    · rw [hbits bit hbit]
      exact coherent_settled _
    · rw [hbits bit hbit]
      rfl
  · rw [if_neg hnow] at hask
    rw [hask] at hbits
    refine ⟨Or.inr ⟨⟨saturatingAddFs k.time delayFs, ?_⟩, fun bit hbit => ?_⟩,
      advances_of_lines fun bit hbit => Or.inl ?_⟩
    · rw [congrArg Line.pending hask]
      exact congrArg (fun r => [(_, r)]) (congrArg Line.request hask).symm
    · rw [hbits bit hbit]
    · rw [hbits bit hbit]
      rfl

theorem orderly_scheduleDriveTransitions (hk : Wired k) (hd : d < k.drivers.length)
    (hn : (k.driver d).net = n) (hs : Shape n w k) (v : PackedVec) (delays : DriveDelay)
    (hfresh : k.driverRequest d ≠ v.resize w false → Fresh d k)
    (hlate : k.driverRequest d ≠ v.resize w false → (driveLine d k).pending ≠ [] → ∀ bit < w,
      (k.driverRequest d).getBit bit = (v.resize w false).getBit bit →
      (k.driverValue d).getBit bit = (k.driverRequest d).getBit bit)
    (h : Orderly d w k) : Orderly d w (k.scheduleDriveTransitions d v delays) ∧
      Advances d w k (k.scheduleDriveTransitions d v delays) := by
  obtain ⟨hdrive, hbits⟩ :=
    scheduleDriveTransitions_lines hk hd hn hs v delays hfresh h.committed
  have hadv : Advances d w k (k.scheduleDriveTransitions d v delays) := by
    apply advances_of_lines
    intro bit hbit
    rw [hbits bit hbit]
    unfold ask
    split_ifs
    · exact Or.inl rfl
    · exact Or.inr rfl
    · exact Or.inl rfl
  refine ⟨?_, hadv⟩
  by_cases hreq : k.driverRequest d = v.resize w false
  · rw [if_pos hreq] at hdrive
    have hsame (bit : Nat) (hbit : bit < w) :
        bitLine (.driver d) (k.scheduleDriveTransitions d v delays) bit =
          bitLine (.driver d) k bit :=
      (hbits bit hbit).trans (if_pos (congrArg (PackedVec.getBit · bit) hreq))
    rcases h with ⟨hnone, hc⟩ | ⟨⟨t, hone⟩, hnone⟩
    · refine Or.inl ⟨(congrArg Line.pending hdrive).trans hnone, fun bit hbit => ?_⟩
      rw [hsame bit hbit]
      exact hc bit hbit
    · refine Or.inr ⟨⟨t, ?_⟩, fun bit hbit => ?_⟩
      · rw [congrArg Line.pending hdrive, hone]
        exact congrArg (fun r => [(t, r)]) (congrArg Line.request hdrive).symm
      · rw [hsame bit hbit]
        exact hnone bit hbit
  · rw [if_neg hreq] at hdrive
    refine Or.inl ⟨congrArg Line.pending hdrive, fun bit hbit => ?_⟩
    rw [hbits bit hbit]
    rcases h with ⟨hnone, hc⟩ | ⟨⟨t, hone⟩, hnone⟩
    · exact coherent_ask _ _ (hc bit hbit) _ _
    · -- a bit whose request stays must have reached it, its drive is cancelled
      have hpending : (driveLine d k).pending ≠ [] := by simp [hone]
      have hline : (bitLine (.driver d) k bit).pending = [] := hnone bit hbit
      unfold ask
      split_ifs with hb hv
      · exact Or.inl ⟨hlate hreq hpending bit hbit hb, hline⟩
      · exact coherent_settled _
      · exact Or.inr ⟨fun he => hv (Or.inl he), _, rfl⟩

theorem orderly_fired {k' : Kernel} (h : Orderly d w k) (hf : Fired d w k k')
    (hr : (k.driverRequest d).width = w) : Orderly d w k' ∧ Advances d w k k' := by
  cases hf with
  | whole v hpending hvalue hrequest hbits =>
    rcases h with ⟨hnone, -⟩ | ⟨⟨t, hone⟩, hnone⟩
    · rw [hnone] at hpending
      exact absurd hpending (by simp)
    · rw [hone] at hpending
      obtain ⟨hp, hnil⟩ := List.cons.inj hpending
      obtain ⟨-, hv⟩ := Prod.mk.inj hp
      rw [← hv, PackedVec.resize_of_width_eq hr] at hvalue hbits
      refine ⟨Or.inl ⟨hnil.symm, fun bit hbit => ?_⟩, fun bit hbit => Or.inr ?_⟩
      · rw [hbits bit]
        exact Or.inl ⟨rfl, hnone bit hbit⟩
      · rw [hvalue, hrequest]
  | bits hpending hrequest hbits =>
    have hadv : Advances d w k k' := by
      apply advances_of_lines
      intro bit hbit
      rcases hbits bit hbit with he | he
      · exact Or.inl (congrArg Line.value he)
      · rw [he]
        unfold fire
        split_ifs
        · exact Or.inr rfl
        · exact Or.inl rfl
    refine ⟨?_, hadv⟩
    rcases h with ⟨hnone, hc⟩ | ⟨⟨t, hone⟩, hnone⟩
    · refine Or.inl ⟨hpending.trans hnone, fun bit hbit => ?_⟩
      rcases hbits bit hbit with he | he
      · rw [he]
        exact hc bit hbit
      · rw [he]
        exact coherent_fire (hc bit hbit) _
    · refine Or.inr ⟨⟨t, ?_⟩, fun bit hbit => ?_⟩
      · rw [hpending, hone, hrequest]
      · rcases hbits bit hbit with he | he
        · rw [he]
          exact hnone bit hbit
        · rw [he, fire_of_not_due]
          · exact hnone bit hbit
          · rintro ⟨p, hp, -⟩
            simp [hnone bit hbit] at hp

/-- One step, when its calls overlap as they should. -/
theorem orderly_effect {s : Sim} {l : Label} {k' : Kernel} (he : DriverEffect d l s.kernel k')
    (hk : Wired s.kernel) (hd : d < s.kernel.drivers.length) (hn : (s.kernel.driver d).net = n)
    (hs : Shape n w s.kernel) (hl : Overlaps d n w s l) (h : Orderly d w s.kernel) :
    Orderly d w k' ∧ Advances d w s.kernel k' := by
  cases he with
  | same hsame ht => exact orderly_of_lines h (driveLine_of_same hsame) hsame.bitLine
  | @drive k c m hc =>
    obtain ⟨-, hl⟩ := hl
    cases c with
    | driveNet d' v =>
      obtain rfl : d' = d := (Prod.mk.inj (Option.some.inj hc)).1
      exact orderly_driveNet hk hd hn hs (hl rfl) v
    | scheduleDrive d' v delayFs =>
      obtain rfl : d' = d := (Prod.mk.inj (Option.some.inj hc)).1
      exact orderly_scheduleDrive hk hd hn hs v delayFs (hl rfl) h
    | scheduleDriveTransitions d' v delays =>
      obtain rfl : d' = d := (Prod.mk.inj (Option.some.inj hc)).1
      exact orderly_scheduleDriveTransitions hk hd hn hs v delays (fun hr => (hl rfl hr).1)
        (fun hr => (hl rfl hr).2) h
    | _ => simp [Call.target] at hc
  | advance =>
    exact orderly_of_lines h (driveLine_discard d _ _) fun bit => bitLine_discard _ _ _ bit
  | dispatch ht hdue ho =>
    exact orderly_fired h (fired_dispatch hk hd hn hs ht hdue ho h.committed)
      (hs.driverRequests d hd hn)

end Step

/-- What holds of a driver throughout a run. -/
structure Kept (d : DriverId) (n : NetId) (w : Nat) (k : Kernel) : Prop where
  wired : Wired k
  shape : Shape n w k
  orderly : d < k.drivers.length → (k.driver d).net = n → Orderly d w k

theorem kept_step {d : DriverId} {n : NetId} {w : Nat} {s s' : Sim} {l : Label}
    (hs : step l s = some s') (hl : Overlaps d n w s l) (h : Kept d n w s.kernel) :
    Kept d n w s'.kernel := by
  have he := effect_of_step hs
  refine ⟨wired_effect he h.wired, shape_effect he h.wired h.shape hl.1, fun hd' hn' => ?_⟩
  by_cases hd : d < s.kernel.drivers.length
  · have hn : (s.kernel.driver d).net = n := (driver_effect he hd).2.symm.trans hn'
    exact (orderly_effect (driverEffect_of_effect he h.wired hd) h.wired hd hn h.shape hl
      (h.orderly hd hn)).1
  · obtain ⟨m, zero, one, hm, rfl, -, hk'⟩ := driver_born he hd hd'
    obtain ⟨hdrive, hbits⟩ := newDriver_lines h.wired hm zero one
    rw [hk']
    refine Or.inl ⟨congrArg Line.pending hdrive, fun bit _ => ?_⟩
    rw [hbits bit]
    exact coherent_settled _

/-- In every run whose requests overlap as they should, no update of the driver is lost, and each
further step leaves a bit alone or takes it to the request made last. -/
theorem no_lost_update {labels : List Label} {s : Sim} {d : DriverId} {n : NetId} {w : Nat}
    (hr : Runs labels s) (hok : Along step (Overlaps d n w) Sim.new labels)
    (hd : d < s.kernel.drivers.length) (hn : (s.kernel.driver d).net = n) :
    Served d s.kernel ∧ ∀ l s', step l s = some s' → Overlaps d n w s l →
      Advances d w s.kernel s'.kernel := by
  have h : Kept d n w s.kernel := by
    apply run_invariant_where (Overlaps d n w) (fun s => Kept d n w s.kernel) hr hok
    · exact ⟨wired_new, shape_new n w, fun hd => absurd hd (Nat.not_lt_zero d)⟩
    · exact fun _ _ _ hk hl hs => kept_step hs hl hk
  refine ⟨(h.orderly hd hn).served (width_driverValue h.wired hd hn h.shape)
    (h.shape.driverRequests d hd hn), fun l s' hs hl => ?_⟩
  exact (orderly_effect (driverEffect_of_effect (effect_of_step hs) h.wired hd) h.wired hd hn
    h.shape hl (h.orderly hd hn)).2

/-- A two-bit driver: a whole-vector drive, overtaken by transition delays of both bits. -/
def overtakingRun : List Label :=
  [.call (.newNet (.z 2) .wire none), .call (.newDriver 0 .strong .strong),
    .call (.scheduleDrive 0 (.ones 2) 5),
    .call (.scheduleDriveTransitions 0 (.zero 2) ⟨5, 5, 5⟩)]

theorem no_lost_update_overtaken : ∃ s, Runs overtakingRun s ∧ Served 0 s.kernel := by
  have hr : Runs overtakingRun ((run step Sim.new overtakingRun).get rfl) := rfl
  have hok : Along step (Overlaps 0 0 2) Sim.new overtakingRun := by
    unfold Along
    decide
  exact ⟨_, hr, (no_lost_update hr hok (by decide) rfl).1⟩

/-- Only bit 0 of the pending drive changes again: the update of bit 1 is lost. -/
def losingRun : List Label :=
  [.call (.newNet (.z 2) .wire none), .call (.newDriver 0 .strong .strong),
    .call (.scheduleDrive 0 (.ones 2) 5),
    .call (.scheduleDriveTransitions 0 ((PackedVec.ones 2).setBit 0 .zero) ⟨5, 5, 5⟩)]

theorem no_lost_update_broken : ∃ s, Runs losingRun s ∧ 0 < s.kernel.drivers.length ∧
    ¬ Served 0 s.kernel := by
  refine ⟨(run step Sim.new losingRun).get rfl, rfl, by decide, fun h => ?_⟩
  rcases h.bits 1 (by decide) with heq | ⟨t, hone⟩
  · exact absurd heq (by decide)
  · exact absurd hone (List.cons_ne_nil _ _).symm

end Eevee.Sched.DriverUpdates
