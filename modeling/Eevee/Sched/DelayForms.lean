/- A drive of the whole vector after one delay and one of its bits with three equal delays. -/

import Mathlib.Data.List.Basic
import Mathlib.Tactic.Common
import Mathlib.Tactic.SplitIfs
import Eevee.Sched.BitSlices

set_option autoImplicit false
set_option relaxedAutoImplicit false

namespace Eevee.Sched.DelayForms

open Eevee.Core.Logic
open Eevee.Lib.InertialLine
open Eevee.Lib.Transition
open Eevee.Sched.BitSlices
open Eevee.Sched.Clock
open Eevee.Sched.Deadlines
open Eevee.Sched.Drivers
open Eevee.Sched.DriverUpdates (Fresh)
open Eevee.Sched.Frames
open Eevee.Sched.Layout
open Eevee.Sched.Nets
open Eevee.Sched.Scheduler
open Eevee.Sched.Simulation
open Eevee.Sched.Stages
open Eevee.Sched.Wheel

/-- `assign #(d, d, d)`. -/
def equalDelays (delayFs : Nat) : DriveDelay := ⟨delayFs, delayFs, delayFs⟩

/-- A request that overtakes a pending drive which is due at another time changes every bit that
the drive was to change. -/
def ChangesPending (d : DriverId) (w : Nat) (delayFs : Nat) (k : Kernel) (v : PackedVec) : Prop :=
  ∀ p ∈ (driveLine d k).pending, p.1 ≠ saturatingAddFs k.time delayFs → ∀ bit < w,
    (k.driverValue d).getBit bit ≠ (k.driverRequest d).getBit bit →
    (k.driverRequest d).getBit bit ≠ v.getBit bit

instance (d : DriverId) (w : Nat) (delayFs : Nat) (k : Kernel) (v : PackedVec) :
    Decidable (ChangesPending d w delayFs k v) := by
  unfold ChangesPending
  infer_instance

/-- The driver is made for net `n`, which keeps `w` bits, and is updated as a whole with this delay
only, by requests that change every pending bit. No action on the wheel carries the generation of
its next request. -/
def WholeOnly (d : DriverId) (n : NetId) (w : Nat) (delayFs : Nat) (s : Sim) (l : Label) : Prop :=
  Steady n w s.kernel l ∧
    match l with
    | .call (.newDriver m _ _) => s.kernel.drivers.length = d → m = n
    | .call (.driveNet d' _) => d' ≠ d
    | .call (.scheduleDriveTransitions d' _ _) => d' ≠ d
    | .call (.scheduleDrive d' v delayFs') => d' = d → delayFs' = delayFs ∧
      (s.kernel.driverRequest d ≠ v.resize w false →
        Fresh d s.kernel ∧ ChangesPending d w delayFs s.kernel (v.resize w false))
    | _ => True

instance (d : DriverId) (n : NetId) (w : Nat) (delayFs : Nat) (s : Sim) :
    (l : Label) → Decidable (WholeOnly d n w delayFs s l)
  | .call (.newDriver m zero one) =>
    inferInstanceAs (Decidable (Steady n w s.kernel (.call (.newDriver m zero one)) ∧
      (s.kernel.drivers.length = d → m = n)))
  | .call (.driveNet d' v) =>
    inferInstanceAs (Decidable (Steady n w s.kernel (.call (.driveNet d' v)) ∧ d' ≠ d))
  | .call (.scheduleDriveTransitions d' v delays) =>
    inferInstanceAs (Decidable (
      Steady n w s.kernel (.call (.scheduleDriveTransitions d' v delays)) ∧ d' ≠ d))
  | .call (.scheduleDrive d' v delayFs') =>
    inferInstanceAs (Decidable (
      Steady n w s.kernel (.call (.scheduleDrive d' v delayFs')) ∧
      (d' = d → delayFs' = delayFs ∧ (s.kernel.driverRequest d ≠ v.resize w false →
        Fresh d s.kernel ∧ ChangesPending d w delayFs s.kernel (v.resize w false)))))
  | .call (.newNet i r delay) =>
    inferInstanceAs (Decidable (Steady n w s.kernel (.call (.newNet i r delay)) ∧ True))
  | .call (.writeNet m v) =>
    inferInstanceAs (Decidable (Steady n w s.kernel (.call (.writeNet m v)) ∧ True))
  | .call (.scheduleNba m v) =>
    inferInstanceAs (Decidable (Steady n w s.kernel (.call (.scheduleNba m v)) ∧ True))
  | .call .requestStop | .call .notifyRuntimeChange | .call (.triggerEvent _) | .addProcess
  | .runUntil _ | .resume | .suspend _ | .promote | .drainNba | .advance | .dispatch | .settle =>
    .isTrue ⟨trivial, trivial⟩

/-- Such a step, at a time that does not saturate and with no limit in the past. -/
def SoleWhole (d : DriverId) (n : NetId) (w : Nat) (delayFs : Nat) (s : Sim) (l : Label) : Prop :=
  LimitAhead s l ∧ s.kernel.time < maxTime ∧ WholeOnly d n w delayFs s l

instance (d : DriverId) (n : NetId) (w : Nat) (delayFs : Nat) (s : Sim) (l : Label) :
    Decidable (SoleWhole d n w delayFs s l) :=
  inferInstanceAs (Decidable (_ ∧ _ ∧ _))

/-! ### The whole vector -/

/-- What a run keeps of a driver that is updated as a whole only. -/
structure Whole (d : DriverId) (n : NetId) (w : Nat) (s : Sim) : Prop where
  wired : Wired s.kernel
  shape : Shape n w s.kernel
  ordered : Ordered s.kernel
  ahead : Ahead s
  net : d < s.kernel.drivers.length → (s.kernel.driver d).net = n
  line : d < s.kernel.drivers.length → Coherent (driveLine d s.kernel)
  bits : d < s.kernel.drivers.length → ∀ bit < w, (bitLine (.driver d) s.kernel bit).pending = []

def wholeAsks (d : DriverId) (w : Nat) (s : Sim) (l : Label) : List (Ask PackedVec) :=
  (requests d w s l).map fun r => ⟨r.1, false, r.2⟩

section

variable {d : DriverId} {n : NetId} {w delayFs : Nat}

theorem requests_scheduleDrive (d : DriverId) (w : Nat) (s : Sim) (v : PackedVec) (delayFs : Nat) :
    requests d w s (.call (.scheduleDrive d v delayFs)) = [(s.kernel.time, v.resize w false)] :=
  if_pos rfl

/-- A due drive takes the whole vector to its request, if there is one. -/
theorem follows_fired {k k' : Kernel} (hf : Fired d w k k') (hline : Coherent (driveLine d k))
    (hbits : ∀ bit < w, (bitLine (.driver d) k bit).pending = [])
    (hvalue : (k.driverValue d).width = w) (hrequest : (k.driverRequest d).width = w)
    (hvalue' : (k'.driverValue d).width = w) :
    Follows saturatingAddFs (fun _ _ => delayFs) k.time (driveLine d k) [] k.time (driveLine d k') ∧
      ∀ bit < w, (bitLine (.driver d) k' bit).pending = [] := by
  cases hf with
  | whole v hwhole hset hsame hlines =>
    rcases hline with ⟨-, hnil⟩ | ⟨-, t, hone⟩
    · rw [hnil] at hwhole
      cases hwhole
    rw [hone] at hwhole
    obtain ⟨hhead, hrest⟩ := List.cons.inj hwhole
    obtain ⟨rfl, hv⟩ := Prod.mk.inj hhead
    have hdue : Due (· ≤ k.time) (driveLine d k) :=
      ⟨_, by rw [hone]; exact List.mem_singleton.mpr rfl, Nat.le_refl _⟩
    have hreached : k'.driverValue d = k.driverRequest d := by
      rw [hset, ← hv]
      exact PackedVec.resize_of_width_eq hrequest false
    have hfire : driveLine d k' = fire (· ≤ k.time) (driveLine d k) := by
      rw [fire, if_pos hdue]
      exact Line.ext hreached hsame hrest.symm
    rw [hfire]
    refine ⟨.fire, fun bit hbit => ?_⟩
    rw [hlines bit]
    exact hbits bit hbit
  | bits hwhole hsame hlines =>
    have hstay (bit : Nat) (hbit : bit < w) :
        bitLine (.driver d) k' bit = bitLine (.driver d) k bit := by
      rcases hlines bit hbit with heq | hfire
      · exact heq
      · rw [hfire]
        apply fire_of_not_due
        rintro ⟨p, hp, -⟩
        rw [hbits bit hbit] at hp
        exact absurd hp List.not_mem_nil
    have hkept : k'.driverValue d = k.driverValue d := by
      apply PackedVec.ext_bits (hvalue'.trans hvalue.symm)
      intro bit hbit
      exact congrArg Line.value (hstay bit (hvalue' ▸ hbit))
    have heq : driveLine d k' = driveLine d k := Line.ext hkept hsame hwhole
    rw [heq]
    refine ⟨.stay, fun bit hbit => ?_⟩
    rw [hstay bit hbit]
    exact hbits bit hbit

/-- A step that requests nothing of the driver. -/
theorem follows_unasked {s : Sim} {l : Label} {k' : Kernel} (he : DriverEffect d l s.kernel k')
    (h : Whole d n w s) (hd : d < s.kernel.drivers.length)
    (htime : l ≠ .advance → k'.time = s.kernel.time) (hforward : s.kernel.time ≤ k'.time)
    (hlater : l = .advance → Later s.kernel) (hvalue' : (k'.driverValue d).width = w)
    (hnone : ∀ c m, l = .call c → Call.target s.kernel c ≠ some (d, m)) :
    Follows saturatingAddFs (fun _ _ => delayFs) s.kernel.time (driveLine d s.kernel) []
        k'.time (driveLine d k') ∧
      ∀ bit < w, (bitLine (.driver d) k' bit).pending = [] := by
  have hbits := h.bits hd
  cases he with
  | same hsame ht =>
    rw [driveLine_of_same hsame, ht]
    refine ⟨.stay, fun bit hbit => ?_⟩
    rw [hsame.bitLine]
    exact hbits bit hbit
  | drive hc => exact absurd hc (hnone _ _ rfl)
  | advance =>
    rw [driveLine_discard]
    refine ⟨.wait hforward (quiet_driveLine (hlater rfl) d), fun bit hbit => ?_⟩
    rw [bitLine_discard]
    exact hbits bit hbit
  | dispatch ht hdue ho =>
    rw [htime (by simp)]
    have hfired := fired_dispatch h.wired hd (h.net hd) h.shape ht hdue ho
      fun bit hbit => .inl (hbits bit hbit)
    exact follows_fired hfired (h.line hd) hbits (width_driverValue h.wired hd (h.net hd) h.shape)
      (h.shape.driverRequests d hd (h.net hd)) hvalue'

/-- One step: the driver does what its requests make of it. -/
theorem follows_whole {s s' : Sim} {l : Label} (hs : step l s = some s')
    (hok : SoleWhole d n w delayFs s l) (h : Whole d n w s) (hd : d < s.kernel.drivers.length) :
    Follows saturatingAddFs (fun _ _ => delayFs) s.kernel.time (driveLine d s.kernel)
        (wholeAsks d w s l) s'.kernel.time (driveLine d s'.kernel) ∧
      ∀ bit < w, (bitLine (.driver d) s'.kernel bit).pending = [] := by
  obtain ⟨hlimit, -, hsteady, hl⟩ := hok
  have he := effect_of_step hs
  have htime (hne : l ≠ .advance) := (scheduled_step hs hne).time
  by_cases hreq : ∃ v delayFs', l = .call (.scheduleDrive d v delayFs')
  · obtain ⟨v, delayFs', rfl⟩ := hreq
    obtain ⟨rfl, hfresh⟩ := hl rfl
    have hk : s'.kernel = s.kernel.scheduleDrive d v delayFs' := by
      cases stepped_of_step hs
      rfl
    obtain ⟨hdrive, hbits⟩ := scheduleDrive_lines h.wired hd (h.net hd) h.shape v delayFs'
      fun hne => (hfresh hne).1
    rw [htime (by simp), hk]
    refine ⟨?_, fun bit hbit => ?_⟩
    · have hquiet := quiet_driveLine (later_of_call hs h.ahead) d
      have hask : wholeAsks d w s (.call (.scheduleDrive d v delayFs')) =
          [⟨s.kernel.time, decide (Due (· ≤ s.kernel.time) (driveLine d s.kernel)),
            v.resize w false⟩] := by
        rw [decide_eq_false hquiet, wholeAsks, requests_scheduleDrive]
        rfl
      rw [hask, hdrive]
      exact .ask _
    · rw [hbits bit hbit]
      split_ifs
      · exact h.bits hd bit hbit
      · rfl
  · have hnone (c : Call) (m : NetId) (hc : l = .call c) :
        Call.target s.kernel c ≠ some (d, m) := by
      rintro htarget
      subst hc
      cases c with
      | driveNet d' v => exact hl (Prod.mk.inj (Option.some.inj htarget)).1
      | scheduleDriveTransitions d' v delays => exact hl (Prod.mk.inj (Option.some.inj htarget)).1
      | scheduleDrive d' v delayFs' =>
        obtain rfl := (Prod.mk.inj (Option.some.inj htarget)).1
        exact hreq ⟨v, delayFs', rfl⟩
      | _ => simp [Call.target] at htarget
    have hnil : requests d w s l = [] :=
      requests_nil hs fun c m hc htarget => absurd htarget (hnone c m hc)
    obtain ⟨hd', hn'⟩ := driver_effect he hd
    have hwidth := width_driverValue (wired_effect he h.wired) hd' (hn'.trans (h.net hd))
      (shape_effect he h.wired h.shape hsteady)
    unfold wholeAsks
    rw [hnil]
    exact follows_unasked (driverEffect_of_effect he h.wired hd) h hd htime
      ((step_forward h.ordered hs).mpr hlimit)
      (fun hadvance => later_of_advance (hadvance ▸ hs) h.ahead) hwidth hnone

/-- A driver starts out with nothing pending, as high impedance. -/
theorem whole_made {s s' : Sim} {l : Label} (hs : step l s = some s')
    (hok : SoleWhole d n w delayFs s l) (h : Whole d n w s) (hd : ¬ d < s.kernel.drivers.length)
    (hd' : d < s'.kernel.drivers.length) :
    (s'.kernel.driver d).net = n ∧ driveLine d s'.kernel = settled (.z w) ∧
      ∀ bit < w, (bitLine (.driver d) s'.kernel bit).pending = [] := by
  obtain ⟨m, zero, one, hm, rfl, rfl, hk⟩ := driver_born (effect_of_step hs) hd hd'
  obtain rfl : m = n := hok.2.2.2 rfl
  obtain ⟨hdrive, hbits⟩ := newDriver_lines h.wired hm zero one
  rw [hk]
  refine ⟨?_, ?_, fun bit hbit => congrArg Line.pending (hbits bit)⟩
  · rw [driver_newDriver, if_pos rfl]
  · rw [hdrive, h.shape.value hm]

theorem whole_step {s s' : Sim} {l : Label} (hs : step l s = some s')
    (hok : SoleWhole d n w delayFs s l) (h : Whole d n w s) : Whole d n w s' := by
  have he := effect_of_step hs
  have hwired := wired_effect he h.wired
  have hshape := shape_effect he h.wired h.shape hok.2.2.1
  have hordered := ordered_step hs h.ordered
  have hahead := ahead_step hs h.ordered hok.2.1 h.ahead
  by_cases hd : d < s.kernel.drivers.length
  · obtain ⟨hline, hbits⟩ := follows_whole hs hok h hd
    exact ⟨hwired, hshape, hordered, hahead, fun _ => (driver_effect he hd).2.trans (h.net hd),
      fun _ => hline.coherent _ _ (h.line hd), fun _ => hbits⟩
  · refine ⟨hwired, hshape, hordered, hahead, fun hd' => (whole_made hs hok h hd hd').1,
      fun hd' => ?_, fun hd' => (whole_made hs hok h hd hd').2.2⟩
    rw [(whole_made hs hok h hd hd').2.1]
    exact coherent_settled _

theorem whole_new (d : DriverId) (n : NetId) (w : Nat) : Whole d n w Sim.new :=
  ⟨wired_new, shape_new n w, ⟨Nat.zero_le _, fun _ h => absurd h List.not_mem_nil, .nil⟩, ahead_new,
    fun h => absurd h (Nat.not_lt_zero d), fun h => absurd h (Nat.not_lt_zero d),
    fun h => absurd h (Nat.not_lt_zero d)⟩

/-! ### One bit of the vector -/

theorem forTransition_equal (delayFs : Nat) {a b : Bit} (h : a ≠ b) :
    (equalDelays delayFs).forTransition a b = delayFs := by
  cases b with
  | x => cases a with
    | x => exact absurd rfl h
    | _ => exact Nat.min_self delayFs
  | _ => rfl

/-- Only a call asks anything of the driver. -/
theorem asked_whole {s s' : Sim} {l : Label} (hs : step l s = some s')
    (hok : SoleWhole d n w delayFs s l) (h : Ahead s) {r : Ask PackedVec}
    (hr : r ∈ wholeAsks d w s l) :
    Later s.kernel ∧ ∃ v, l = .call (.scheduleDrive d v delayFs) ∧ r.value = v.resize w false := by
  obtain ⟨-, -, -, hl⟩ := hok
  obtain ⟨q, hq, rfl⟩ := List.mem_map.mp hr
  unfold requests at hq
  split at hq
  · next d' v delayFs' =>
    split_ifs at hq with hd
    · subst hd
      obtain ⟨rfl, -⟩ := hl rfl
      rw [List.mem_singleton.mp hq]
      exact ⟨later_of_call hs h, v, rfl, rfl⟩
    · cases hq
  · next d' v delays =>
    split_ifs at hq with hd
    · exact absurd hd hl
    · cases hq
  · cases hq

/-- One step, seen at one bit: what the bit would do on its own with three equal delays. -/
theorem follows_slice {s s' : Sim} {l : Label} (hs : step l s = some s')
    (hok : SoleWhole d n w delayFs s l) (h : Whole d n w s) (hd : d < s.kernel.drivers.length)
    {i : Nat} (hi : i < w) :
    Follows saturatingAddFs (equalDelays delayFs).forTransition s.kernel.time
      (slice (PackedVec.getBit · i) (driveLine d s.kernel)) (driverAsks d w i s l) s'.kernel.time
      (slice (PackedVec.getBit · i) (driveLine d s'.kernel)) := by
  have hfollows := (follows_whole hs hok h hd).1
  have hmap : (wholeAsks d w s l).map (fun r => (⟨r.time, r.early, r.value.getBit i⟩ : Ask Bit)) =
      driverAsks d w i s l := List.map_map ..
  rw [← hmap]
  have hlater (hne : wholeAsks d w s l ≠ []) : Later s.kernel := by
    obtain ⟨r, hr⟩ := List.exists_mem_of_ne_nil _ hne
    exact (asked_whole hs hok h.ahead hr).1
  refine hfollows.slice _ (PackedVec.getBit · i) (h.line hd) (fun _ _ => rfl)
    (fun _ _ => forTransition_equal delayFs) (fun hne p hp heq => ?_)
    (fun hne => quiet_driveLine (hlater hne) d) ?_
  · refine quiet_driveLine (hlater hne) d ⟨p, hp, ?_⟩
    rw [heq]
    exact Nat.min_le_left _ _
  · intro r hr hne hpending hsame p hp
    obtain ⟨-, v, rfl, hv⟩ := asked_whole hs hok h.ahead hr
    by_contra hother
    rw [hv] at hne hsame
    exact ((hok.2.2.2 rfl).2 hne).2 p hp hother i hi hpending hsame

/-- A bit of the driver is where the replay of its requests with three equal delays puts it. -/
theorem tracked_whole {labels : List Label} {s : Sim} (hr : Runs labels s)
    (hok : Along step (SoleWhole d n w delayFs) Sim.new labels)
    (hd : d < s.kernel.drivers.length) {i : Nat} (hi : i < w) :
    Tracked s.kernel.time (slice (PackedVec.getBit · i) (driveLine d s.kernel))
      (replay saturatingAddFs (equalDelays delayFs).forTransition (settled .z)
        (trace step (driverAsks d w i) Sim.new labels)) := by
  refine tracked_run _ _ hr _ hok (Whole d n w) (whole_new d n w)
    (fun _ _ _ h hl hs => whole_step hs hl h) (fun s => s.kernel.time)
    (fun s => slice (PackedVec.getBit · i) (driveLine d s.kernel)) (driverAsks d w i)
    (fun s => d < s.kernel.drivers.length) (settled .z) (Nat.not_lt_zero d)
    (fun t l t' h hl hs hnot => ⟨?_, fun hmade => ?_⟩) (fun t l t' h hl hs halive => ⟨?_, ?_⟩)
    (fun t h _ p hp => ?_) hd
  · unfold driverAsks
    rw [requests_nil hs fun _ _ _ _ => hnot]
    rfl
  · rw [(whole_made hs hl h hnot hmade).2.1, slice_settled, PackedVec.getBit_z, if_pos hi]
  · exact (driver_effect (effect_of_step hs) halive).1
  · exact follows_slice hs hl h halive hi
  · unfold slice at hp
    dsimp only at hp
    split_ifs at hp
    · exact absurd hp List.not_mem_nil
    · obtain ⟨q, hq, rfl⟩ := List.mem_map.mp hp
      exact le_pending_driveLine h.ordered hq

theorem width_whole {labels : List Label} {s : Sim} (hr : Runs labels s)
    (hok : Along step (SoleWhole d n w delayFs) Sim.new labels)
    (hd : d < s.kernel.drivers.length) : (s.kernel.driverValue d).width = w := by
  have h : Whole d n w s := run_invariant_where _ _ hr hok (whole_new d n w)
    fun _ _ _ h hl hs => whole_step hs hl h
  exact width_driverValue h.wired hd (h.net hd) h.shape

end

/-- The bits of a request are those of its vector. -/
theorem trace_driverAsks (d : DriverId) (w i : Nat) (labels : List Label) :
    trace step (driverAsks d w i) Sim.new labels =
      (trace step (requests d w) Sim.new labels).map fun r => ⟨r.1, false, r.2.getBit i⟩ := by
  unfold trace driverAsks
  rw [List.map_flatMap]

/-- Two drivers that are requested the same vectors at the same times have the same value at every
time, one updated as a whole after a delay, the other one in its bits with three equal delays. -/
theorem delay_forms_agree {d d' : DriverId} {n n' : NetId} {w delayFs : Nat}
    {labels labels' : List Label} {s s' : Sim} {t : SimTime} (hr : Runs labels s)
    (hr' : Runs labels' s') (hok : Along step (SoleWhole d n w delayFs) Sim.new labels)
    (hok' : Along step (Sole n' w (equalDelays delayFs) (.driver d')) Sim.new labels')
    (hd : d < s.kernel.drivers.length) (hd' : d' < s'.kernel.drivers.length)
    (hrequests : trace step (requests d w) Sim.new labels =
      trace step (requests d' w) Sim.new labels')
    (ht : s.kernel.time ≤ t) (hdue : ¬ Due (· ≤ t) (driveLine d s.kernel))
    (happlied : ∀ i < w, Applied (.driver d') i t s'.kernel) :
    s.kernel.driverValue d = s'.kernel.driverValue d' := by
  have hwidth := width_whole hr hok hd
  have hwidth' := width_sliced hr' hok' hd'
  apply PackedVec.ext_bits (hwidth.trans hwidth'.symm)
  intro i hi
  have hiw : i < w := hwidth ▸ hi
  have hline := (tracked_whole hr hok hd hiw).applied ht
    fun h => hdue (due_of_due_slice (PackedVec.getBit · i) h)
  have hline' := (tracked_driver hr' hok' hd' hiw).applied (happlied i hiw).1 (happlied i hiw).2
  rw [trace_driverAsks, ← hrequests, ← trace_driverAsks] at hline'
  exact congrArg Line.value (hline.trans hline'.symm)

/-- A process makes a request at 0 and another one at 3. -/
def overlapping (first second : Call) : List Label :=
  [.call (.newNet (.z 2) .wire none), .call (.newDriver 0 .strong .strong), .addProcess,
    .runUntil none, .resume, .call first, .suspend (.delay 3), .advance, .dispatch, .settle,
    .resume, .call second]

def wholeRun (v : PackedVec) : List Label :=
  overlapping (.scheduleDrive 0 (.ones 2) 5) (.scheduleDrive 0 v 5)

def bitsRun (v : PackedVec) : List Label :=
  overlapping (.scheduleDriveTransitions 0 (.ones 2) (equalDelays 5))
    (.scheduleDriveTransitions 0 v (equalDelays 5))

/-- The second request changes both bits. -/
theorem delay_forms_overlap : ∃ s s', Runs (wholeRun (.zero 2)) s ∧ Runs (bitsRun (.zero 2)) s' ∧
    s.kernel.driverValue 0 = s'.kernel.driverValue 0 := by
  have hr : Runs (wholeRun (.zero 2)) ((run step Sim.new (wholeRun (.zero 2))).get rfl) := rfl
  have hr' : Runs (bitsRun (.zero 2)) ((run step Sim.new (bitsRun (.zero 2))).get rfl) := rfl
  have hok : Along step (SoleWhole 0 0 2 5) Sim.new (wholeRun (.zero 2)) := by
    unfold Along
    decide
  have hok' : Along step (Sole 0 2 (equalDelays 5) (.driver 0)) Sim.new (bitsRun (.zero 2)) := by
    unfold Along
    decide
  have hrequests : trace step (requests 0 2) Sim.new (wholeRun (.zero 2)) =
      trace step (requests 0 2) Sim.new (bitsRun (.zero 2)) := rfl
  exact ⟨_, _, hr, hr', @delay_forms_agree 0 0 0 0 2 5 _ _ _ _ 5 hr hr' hok hok' (by decide)
    (by decide) hrequests (by decide) (by decide) (by decide)⟩

/-- The second request changes bit 0 only, and the drive of bit 1 starts anew. -/
theorem delay_forms_differ : ∃ s s', Runs (wholeRun ((PackedVec.ones 2).setBit 0 .zero)) s ∧
    Runs (bitsRun ((PackedVec.ones 2).setBit 0 .zero) ++ [.suspend .finished, .advance, .dispatch])
      s' ∧
    trace step (requests 0 2) Sim.new (wholeRun ((PackedVec.ones 2).setBit 0 .zero)) =
      trace step (requests 0 2) Sim.new (bitsRun ((PackedVec.ones 2).setBit 0 .zero) ++
        [.suspend .finished, .advance, .dispatch]) ∧
    s.kernel.time ≤ 5 ∧ ¬ Due (· ≤ 5) (driveLine 0 s.kernel) ∧
    (∀ i < 2, Applied (.driver 0) i 5 s'.kernel) ∧
    s.kernel.driverValue 0 ≠ s'.kernel.driverValue 0 :=
  ⟨(run step Sim.new (wholeRun ((PackedVec.ones 2).setBit 0 .zero))).get rfl,
    (run step Sim.new (bitsRun ((PackedVec.ones 2).setBit 0 .zero) ++
      [.suspend .finished, .advance, .dispatch])).get rfl,
    rfl, rfl, rfl, by decide, by decide, by decide, by decide⟩

end Eevee.Sched.DelayForms
