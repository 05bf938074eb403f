/- Each bit of a driver with transition delays, or of a delayed net, follows its own requests. -/

import Mathlib.Data.List.Basic
import Mathlib.Tactic.Common
import Mathlib.Tactic.SplitIfs
import Eevee.Sched.Deadlines
import Eevee.Sched.DriverUpdates
import Eevee.Sched.NetCoherence

set_option autoImplicit false
set_option relaxedAutoImplicit false

namespace Eevee.Sched.BitSlices

open Eevee.Core.Logic
open Eevee.Lib.InertialLine
open Eevee.Lib.Transition
open Eevee.Sched.Clock
open Eevee.Sched.Deadlines
open Eevee.Sched.Drivers
open Eevee.Sched.DriverUpdates (Fresh)
open Eevee.Sched.Frames
open Eevee.Sched.Layout
open Eevee.Sched.NetCoherence
open Eevee.Sched.NetLines
open Eevee.Sched.Nets
open Eevee.Sched.Resolution
open Eevee.Sched.Scheduler
open Eevee.Sched.Simulation
open Eevee.Sched.Stages
open Eevee.Sched.Wheel

/-! ### Requests -/

/-- The vectors that are requested of a driver with a delay, and when. -/
def requests (d : DriverId) (w : Nat) (s : Sim) : Label → List (SimTime × PackedVec)
  | .call (.scheduleDrive d' v _) => if d' = d then [(s.kernel.time, v.resize w false)] else []
  | .call (.scheduleDriveTransitions d' v _) =>
    if d' = d then [(s.kernel.time, v.resize w false)] else []
  | _ => []

def driverAsks (d : DriverId) (w i : Nat) (s : Sim) (l : Label) : List (Ask Bit) :=
  (requests d w s l).map fun r => ⟨r.1, false, r.2.getBit i⟩

/-- The changes of one bit of the resolution of a net. A driver may make one before an update of
the bit that is due at the same time. -/
def netAsks (n : NetId) (i : Nat) (s : Sim) (l : Label) : List (Ask Bit) :=
  match step l s with
  | none => []
  | some s' =>
    if n < s.kernel.nets.length ∧ (s.kernel.resolved n).getBit i ≠ (s'.kernel.resolved n).getBit i
    then [⟨s.kernel.time, decide (Due (· ≤ s.kernel.time) (bitLine (.net n) s.kernel i)),
      (s'.kernel.resolved n).getBit i⟩]
    else []

/-- What is requested of bit `i` of a stage of `w` bits. -/
def asks (w i : Nat) : Stage → Sim → Label → List (Ask Bit)
  | .driver d => driverAsks d w i
  | .net n => netAsks n i

/-- The driver is made for net `n`, which keeps `w` bits, and is updated with these transition
delays only. No update on the wheel carries the generation of its next request. -/
def TransitionsOnly (d : DriverId) (n : NetId) (w : Nat) (delays : DriveDelay) (s : Sim)
    (l : Label) : Prop :=
  Steady n w s.kernel l ∧
    match l with
    | .call (.newDriver m _ _) => s.kernel.drivers.length = d → m = n
    | .call (.driveNet d' _) => d' ≠ d
    | .call (.scheduleDrive d' _ _) => d' ≠ d
    | .call (.scheduleDriveTransitions d' v delays') => d' = d →
      delays' = delays ∧ (s.kernel.driverRequest d ≠ v.resize w false → Fresh d s.kernel)
    | _ => True

def declared (delays : DriveDelay) : NetDelay :=
  ⟨delays.riseFs, delays.fallFs, delays.turnOffFs⟩

/-- Net `n` is made with these declaration delays. -/
def DelayedBy (n : NetId) (delays : DriveDelay) (k : Kernel) : Label → Prop
  | .call (.newNet _ _ delay) => k.nets.length = n → delay = some (declared delays)
  | _ => True

instance (n : NetId) (delays : DriveDelay) (k : Kernel) :
    (l : Label) → Decidable (DelayedBy n delays k l)
  | .call (.newNet _ _ delay) =>
    inferInstanceAs (Decidable (k.nets.length = n → delay = some (declared delays)))
  | .call (.newDriver _ _ _) | .call (.driveNet _ _) | .call (.scheduleDrive _ _ _)
  | .call (.scheduleDriveTransitions _ _ _) | .call (.writeNet _ _) | .call (.scheduleNba _ _)
  | .call .requestStop | .call .notifyRuntimeChange | .call (.triggerEvent _) | .addProcess
  | .runUntil _ | .resume | .suspend _ | .promote | .drainNba | .advance | .dispatch | .settle =>
    .isTrue trivial

/-- The net is made with `w` high-impedance bits and these declaration delays, and is updated
through its drivers only. No update on the wheel carries the generation of its next request. -/
def DriversOnly (n : NetId) (w : Nat) (delays : DriveDelay) (s : Sim) (l : Label) : Prop :=
  Driven n w s l ∧ DelayedBy n delays s.kernel l

instance (n : NetId) (w : Nat) (delays : DriveDelay) (s : Sim) (l : Label) :
    Decidable (DriversOnly n w delays s l) :=
  inferInstanceAs (Decidable ((_ ∧ _) ∧ _))

/-- A step that updates the stage in no other way, at a time that does not saturate and with no
limit in the past. A driver is one of net `n`. -/
def Sole (n : NetId) (w : Nat) (delays : DriveDelay) (st : Stage) (s : Sim) (l : Label) : Prop :=
  LimitAhead s l ∧ s.kernel.time < maxTime ∧
    match st with
    | .driver d => TransitionsOnly d n w delays s l
    | .net m => DriversOnly m w delays s l

instance (d : DriverId) (n : NetId) (w : Nat) (delays : DriveDelay) (s : Sim) :
    (l : Label) → Decidable (TransitionsOnly d n w delays s l)
  | .call (.newDriver m zero one) =>
    inferInstanceAs (Decidable (Steady n w s.kernel (.call (.newDriver m zero one)) ∧
      (s.kernel.drivers.length = d → m = n)))
  | .call (.driveNet d' v) =>
    inferInstanceAs (Decidable (Steady n w s.kernel (.call (.driveNet d' v)) ∧ d' ≠ d))
  | .call (.scheduleDrive d' v delayFs) =>
    inferInstanceAs (Decidable (Steady n w s.kernel (.call (.scheduleDrive d' v delayFs)) ∧ d' ≠ d))
  | .call (.scheduleDriveTransitions d' v delays') =>
    inferInstanceAs (Decidable (
      Steady n w s.kernel (.call (.scheduleDriveTransitions d' v delays')) ∧
      (d' = d → delays' = delays ∧
        (s.kernel.driverRequest d ≠ v.resize w false → Fresh d s.kernel))))
  | .call (.newNet i r delay) =>
    inferInstanceAs (Decidable (Steady n w s.kernel (.call (.newNet i r delay)) ∧ True))
  | .call (.writeNet m v) =>
    inferInstanceAs (Decidable (Steady n w s.kernel (.call (.writeNet m v)) ∧ True))
  | .call (.scheduleNba m v) =>
    inferInstanceAs (Decidable (Steady n w s.kernel (.call (.scheduleNba m v)) ∧ True))
  | .call .requestStop | .call .notifyRuntimeChange | .call (.triggerEvent _) | .addProcess
  | .runUntil _ | .resume | .suspend _ | .promote | .drainNba | .advance | .dispatch | .settle =>
    .isTrue ⟨trivial, trivial⟩

instance (n : NetId) (w : Nat) (delays : DriveDelay) (s : Sim) (l : Label) :
    (st : Stage) → Decidable (Sole n w delays st s l)
  | .driver d =>
    inferInstanceAs (Decidable (LimitAhead s l ∧ s.kernel.time < maxTime ∧
      TransitionsOnly d n w delays s l))
  | .net m =>
    inferInstanceAs (Decidable (LimitAhead s l ∧ s.kernel.time < maxTime ∧
      DriversOnly m w delays s l))

/-- The stage has been made. -/
def Made (k : Kernel) : Stage → Prop
  | .driver d => d < k.drivers.length
  | .net n => n < k.nets.length

instance (k : Kernel) : (st : Stage) → Decidable (Made k st)
  | .driver d => inferInstanceAs (Decidable (d < _))
  | .net n => inferInstanceAs (Decidable (n < _))

/-- At time `t` every update of the bit that is due has been applied. -/
def Applied (st : Stage) (i : Nat) (t : SimTime) (k : Kernel) : Prop :=
  k.time ≤ t ∧ ¬ Due (· ≤ t) (bitLine st k i)

instance (st : Stage) (i : Nat) (t : SimTime) (k : Kernel) : Decidable (Applied st i t k) :=
  inferInstanceAs (Decidable (_ ∧ _))

/-! ### Drivers -/

/-- What a run keeps of a driver that is updated with transition delays only. -/
structure Sliced (d : DriverId) (n : NetId) (w : Nat) (s : Sim) : Prop where
  wired : Wired s.kernel
  shape : Shape n w s.kernel
  ordered : Ordered s.kernel
  ahead : Ahead s
  net : d < s.kernel.drivers.length → (s.kernel.driver d).net = n
  whole : d < s.kernel.drivers.length → (driveLine d s.kernel).pending = []
  bits : d < s.kernel.drivers.length → ∀ bit < w, Coherent (bitLine (.driver d) s.kernel bit)

section Driver

variable {d : DriverId} {n : NetId} {w : Nat} {delays : DriveDelay}

theorem sliced_new (d : DriverId) (n : NetId) (w : Nat) : Sliced d n w Sim.new :=
  ⟨wired_new, shape_new n w, ⟨Nat.zero_le _, fun _ h => absurd h List.not_mem_nil, .nil⟩, ahead_new,
    fun h => absurd h (Nat.not_lt_zero d), fun h => absurd h (Nat.not_lt_zero d),
    fun h => absurd h (Nat.not_lt_zero d)⟩

theorem requests_transitions (d : DriverId) (w : Nat) (s : Sim) (v : PackedVec)
    (delays : DriveDelay) : requests d w s (.call (.scheduleDriveTransitions d v delays)) =
      [(s.kernel.time, v.resize w false)] := if_pos rfl

/-- A request is a call for an existing driver. -/
theorem requests_nil {s s' : Sim} {l : Label} (hs : step l s = some s')
    (hnone : ∀ c m, l = .call c → Call.target s.kernel c = some (d, m) →
      ¬ d < s.kernel.drivers.length) : requests d w s l = [] := by
  unfold requests
  split
  · next d' v delayFs =>
    split_ifs with hd
    · subst hd
      cases stepped_of_step hs with
      | call hm hv => exact absurd hv (hnone _ _ rfl rfl)
    · rfl
  · next d' v delays =>
    split_ifs with hd
    · subst hd
      cases stepped_of_step hs with
      | call hm hv => exact absurd hv (hnone _ _ rfl rfl)
    · rfl
  · rfl

/-- A step that requests nothing of the driver. -/
theorem follows_rest {s : Sim} {l : Label} {k' : Kernel} (he : DriverEffect d l s.kernel k')
    (h : Sliced d n w s) (hd : d < s.kernel.drivers.length)
    (htime : l ≠ .advance → k'.time = s.kernel.time) (hforward : s.kernel.time ≤ k'.time)
    (hlater : l = .advance → Later s.kernel)
    (hnone : ∀ c m, l = .call c → Call.target s.kernel c ≠ some (d, m)) :
    (driveLine d k').pending = [] ∧ ∀ bit < w,
      Follows saturatingAddFs delays.forTransition s.kernel.time (bitLine (.driver d) s.kernel bit)
        [] k'.time (bitLine (.driver d) k' bit) := by
  have hpending := h.whole hd
  cases he with
  | same hsame ht =>
    rw [driveLine_of_same hsame, ht]
    refine ⟨hpending, fun bit hbit => ?_⟩
    rw [hsame.bitLine]
    exact .stay
  | drive hc => exact absurd hc (hnone _ _ rfl)
  | advance =>
    refine ⟨(congrArg Line.pending (driveLine_discard d s.kernel _)).trans hpending,
      fun bit hbit => ?_⟩
    rw [bitLine_discard]
    exact .wait hforward (quiet_bitLine (hlater rfl) _ _)
  | dispatch ht hdue ho =>
    rw [htime (by simp)]
    have hcom (bit : Nat) (hbit : bit < w) := (h.bits hd bit hbit).committed
    cases fired_dispatch h.wired hd (h.net hd) h.shape ht hdue ho hcom with
    | whole v hwhole hvalue hrequest hbits =>
      rw [hpending] at hwhole
      cases hwhole
    | bits hwhole hrequest hbits =>
      refine ⟨hwhole.trans hpending, fun bit hbit => ?_⟩
      rcases hbits bit hbit with hsame | hfire
      · rw [hsame]
        exact .stay
      · rw [hfire]
        exact .fire

/-- One step: the bits of the driver do what their requests make of them. -/
theorem follows_driver {s s' : Sim} {l : Label} (hs : step l s = some s')
    (hok : Sole n w delays (.driver d) s l) (h : Sliced d n w s)
    (hd : d < s.kernel.drivers.length) :
    (driveLine d s'.kernel).pending = [] ∧ ∀ bit < w,
      Follows saturatingAddFs delays.forTransition s.kernel.time (bitLine (.driver d) s.kernel bit)
        (driverAsks d w bit s l) s'.kernel.time (bitLine (.driver d) s'.kernel bit) := by
  obtain ⟨hlimit, -, -, hl⟩ := hok
  have htime (hne : l ≠ .advance) := (scheduled_step hs hne).time
  by_cases hreq : ∃ v delays', l = .call (.scheduleDriveTransitions d v delays')
  · obtain ⟨v, delays', rfl⟩ := hreq
    obtain ⟨rfl, hfresh⟩ := hl rfl
    have hk : s'.kernel = s.kernel.scheduleDriveTransitions d v delays' := by
      cases stepped_of_step hs
      rfl
    obtain ⟨hdrive, hbits⟩ := scheduleDriveTransitions_lines h.wired hd (h.net hd) h.shape v
      delays' hfresh fun bit hbit => (h.bits hd bit hbit).committed
    rw [htime (by simp), hk]
    refine ⟨?_, fun bit hbit => ?_⟩
    · rw [hdrive]
      split_ifs
      · exact h.whole hd
      · rfl
    · rw [hbits bit hbit]
      have hquiet := quiet_bitLine (later_of_call hs h.ahead) (.driver d) bit
      have hask : driverAsks d w bit s (.call (.scheduleDriveTransitions d v delays')) =
          [⟨s.kernel.time, decide (Due (· ≤ s.kernel.time) (bitLine (.driver d) s.kernel bit)),
            (v.resize w false).getBit bit⟩] := by
        rw [decide_eq_false hquiet, driverAsks, requests_transitions]
        rfl
      rw [hask]
      exact .ask _
  · have hnone (c : Call) (m : NetId) (hc : l = .call c) :
        Call.target s.kernel c ≠ some (d, m) := by
      rintro htarget
      subst hc
      cases c with
      | driveNet d' v => exact hl (Prod.mk.inj (Option.some.inj htarget)).1
      | scheduleDrive d' v delayFs => exact hl (Prod.mk.inj (Option.some.inj htarget)).1
      | scheduleDriveTransitions d' v delays' =>
        obtain rfl := (Prod.mk.inj (Option.some.inj htarget)).1
        exact hreq ⟨v, delays', rfl⟩
      | _ => simp [Call.target] at htarget
    have hnil : requests d w s l = [] :=
      requests_nil hs fun c m hc htarget => absurd htarget (hnone c m hc)
    unfold driverAsks
    rw [hnil]
    exact follows_rest (driverEffect_of_effect (effect_of_step hs) h.wired hd) h hd htime
      ((step_forward h.ordered hs).mpr hlimit)
        (fun hadvance => later_of_advance (hadvance ▸ hs) h.ahead)
      hnone

/-- A driver starts out with nothing pending, its bits as high impedance. -/
theorem driver_made {s s' : Sim} {l : Label} (hs : step l s = some s')
    (hok : Sole n w delays (.driver d) s l) (h : Sliced d n w s)
    (hd : ¬ d < s.kernel.drivers.length) (hd' : d < s'.kernel.drivers.length) :
    (s'.kernel.driver d).net = n ∧ (driveLine d s'.kernel).pending = [] ∧
      ∀ bit < w, bitLine (.driver d) s'.kernel bit = settled .z := by
  obtain ⟨m, zero, one, hm, rfl, rfl, hk⟩ := driver_born (effect_of_step hs) hd hd'
  obtain rfl : m = n := hok.2.2.2 rfl
  obtain ⟨hdrive, hbits⟩ := newDriver_lines h.wired hm zero one
  rw [hk]
  refine ⟨?_, congrArg Line.pending hdrive, fun bit hbit => ?_⟩
  · rw [driver_newDriver, if_pos rfl]
  · rw [hbits bit, PackedVec.getBit_z, h.shape.value hm, if_pos hbit]

theorem sliced_step {s s' : Sim} {l : Label} (hs : step l s = some s')
    (hok : Sole n w delays (.driver d) s l) (h : Sliced d n w s) : Sliced d n w s' := by
  have he := effect_of_step hs
  have hwired := wired_effect he h.wired
  have hshape := shape_effect he h.wired h.shape hok.2.2.1
  have hordered := ordered_step hs h.ordered
  have hahead := ahead_step hs h.ordered hok.2.1 h.ahead
  by_cases hd : d < s.kernel.drivers.length
  · obtain ⟨hwhole, hbits⟩ := follows_driver hs hok h hd
    exact ⟨hwired, hshape, hordered, hahead, fun _ => (driver_effect he hd).2.trans (h.net hd),
      fun _ => hwhole, fun _ bit hbit => (hbits bit hbit).coherent _ _ (h.bits hd bit hbit)⟩
  · refine ⟨hwired, hshape, hordered, hahead, fun hd' => (driver_made hs hok h hd hd').1,
      fun hd' => (driver_made hs hok h hd hd').2.1, fun hd' bit hbit => ?_⟩
    rw [(driver_made hs hok h hd hd').2.2 bit hbit]
    exact coherent_settled _

theorem width_sliced {labels : List Label} {s : Sim} (hr : Runs labels s)
    (hok : Along step (Sole n w delays (.driver d)) Sim.new labels)
    (hd : d < s.kernel.drivers.length) : (s.kernel.driverValue d).width = w := by
  have h : Sliced d n w s := run_invariant_where _ _ hr hok (sliced_new d n w)
    fun _ _ _ h hl hs => sliced_step hs hl h
  exact width_driverValue h.wired hd (h.net hd) h.shape

/-- The bits of a driver are where the replay of their requests puts them. -/
theorem tracked_driver {labels : List Label} {s : Sim} (hr : Runs labels s)
    (hok : Along step (Sole n w delays (.driver d)) Sim.new labels)
    (hd : d < s.kernel.drivers.length) {i : Nat} (hi : i < w) :
    Tracked s.kernel.time (bitLine (.driver d) s.kernel i) (replay saturatingAddFs
      delays.forTransition (settled .z) (trace step (driverAsks d w i) Sim.new labels)) := by
  refine tracked_run _ _ hr _ hok (Sliced d n w) (sliced_new d n w)
    (fun _ _ _ h hl hs => sliced_step hs hl h) (fun s => s.kernel.time)
    (fun s => bitLine (.driver d) s.kernel i) (driverAsks d w i)
    (fun s => d < s.kernel.drivers.length) (settled .z) (Nat.not_lt_zero d)
    (fun t l t' h hl hs hnot => ⟨?_, fun hmade => ?_⟩) (fun t l t' h hl hs halive => ⟨?_, ?_⟩)
    (fun t h _ p hp => le_pending_bitLine h.ordered hp) hd
  · unfold driverAsks
    rw [requests_nil hs fun _ _ _ _ => hnot]
    rfl
  · exact (driver_made hs hl h hnot hmade).2.2 i hi
  · exact (driver_effect (effect_of_step hs) halive).1
  · exact (follows_driver hs hl h halive).2 i hi

end Driver

/-! ### Nets -/

/-- What a run keeps of a net that is written through its drivers only. -/
structure NetSliced (n : NetId) (w : Nat) (delays : DriveDelay) (s : Sim) : Prop where
  kept : Kept n w s.kernel
  ordered : Ordered s.kernel
  ahead : Ahead s
  delay : n < s.kernel.nets.length → (s.kernel.net n).delay = some (declared delays)

section Net

variable {n p : NetId} {w : Nat} {delays : DriveDelay}

theorem netAsks_of_step {s s' : Sim} {l : Label} (hs : step l s = some s') (i : Nat)
    (hn : n < s.kernel.nets.length) : netAsks n i s l =
      if (s.kernel.resolved n).getBit i ≠ (s'.kernel.resolved n).getBit i then
        [⟨s.kernel.time, decide (Due (· ≤ s.kernel.time) (bitLine (.net n) s.kernel i)),
          (s'.kernel.resolved n).getBit i⟩]
      else [] := by
  unfold netAsks
  rw [hs]
  simp only [hn, true_and]

theorem netAsks_of_same {s s' : Sim} {l : Label} (hs : step l s = some s') (i : Nat)
    (h : s'.kernel.resolved n = s.kernel.resolved n) : netAsks n i s l = [] := by
  unfold netAsks
  rw [hs]
  dsimp only
  rw [h]
  exact if_neg fun hc => hc.2 rfl

/-- One step: the bits of a delayed net do what the changes of its resolution make of them. -/
theorem follows_net {s s' : Sim} {l : Label} (hs : step l s = some s')
    (hok : Sole p w delays (.net n) s l) (h : NetSliced n w delays s)
    (hn : n < s.kernel.nets.length) :
    (s'.kernel.net n).delay = some (declared delays) ∧ ∀ bit < w,
      Follows saturatingAddFs delays.forTransition s.kernel.time (bitLine (.net n) s.kernel bit)
        (netAsks n bit s l) s'.kernel.time (bitLine (.net n) s'.kernel bit) := by
  obtain ⟨hlimit, -, ⟨hdriven, hunused⟩, -⟩ := hok
  have hdelay := h.delay hn
  have hlines := h.kept.lines hn
  have hcom := hlines.committed
  obtain ⟨hrequest, hcoherent⟩ := hlines.delayed _ hdelay
  have he := effect_of_step hs
  have hforward := (step_forward h.ordered hs).mpr hlimit
  cases netEffect_of_effect he h.kept.wired h.kept.shape hn hdriven h.kept.nba hunused hcom with
  | same ht hstage hresolved hsame =>
    refine ⟨hsame.trans hdelay, fun bit hbit => ?_⟩
    rw [netAsks_of_same hs bit hresolved, ht, hstage.bitLine]
    exact .stay
  | resolve hr =>
    refine ⟨hr.delay.trans hdelay, fun bit hbit => ?_⟩
    have hline : bitLine (.net n) s'.kernel bit = ask saturatingAddFs delays.forTransition
        s.kernel.time ((s'.kernel.resolved n).getBit bit) (bitLine (.net n) s.kernel bit) :=
      (hr.delayed _ hdelay).2 bit hbit
    rw [netAsks_of_step hs bit hn, hr.time]
    split_ifs with hchange
    · rw [hline]
      exact .ask _
    · -- the bit is requested what it has been requested before
      have hsame : (bitLine (.net n) s.kernel bit).request = (s'.kernel.resolved n).getBit bit := by
        rw [← not_not.mp hchange, ← hrequest]
        rfl
      rw [hline, ask, if_pos hsame]
      exact .stay
  | advance t hk =>
    have hresolved : s'.kernel.resolved n = s.kernel.resolved n := by
      rw [hk]
      rfl
    refine ⟨?_, fun bit hbit => ?_⟩
    · rw [hk]
      exact hdelay
    · have hline : bitLine (.net n) s'.kernel bit = bitLine (.net n) s.kernel bit := by
        rw [hk]
        exact bitLine_discard _ _ t bit
      rw [netAsks_of_same hs bit hresolved, hline]
      by_cases hl : l = .advance
      · exact .wait hforward (quiet_bitLine (later_of_advance (hl ▸ hs) h.ahead) _ _)
      · rw [(scheduled_step hs hl).time]
        exact .stay
  | fire ev rest ht hdue ho hk =>
    have hf := fires_dispatch hn (h.kept.shape.value hn) hcom ht hdue ho
    rw [← hk] at hf
    refine ⟨hf.delay.trans hdelay, fun bit hbit => ?_⟩
    rw [netAsks_of_same hs bit hf.resolved, hf.time]
    rcases hf.bits bit hbit with hsame | hfire
    · rw [hsame]
      exact .stay
    · rw [hfire]
      exact .fire

theorem lt_of_delay {k : Kernel} {delay : NetDelay} (h : (k.net n).delay = some delay) :
    n < k.nets.length := by
  by_contra hn
  rw [Kernel.net_of_ge (Nat.le_of_not_lt hn)] at h
  cases h

/-- A delayed net starts out as high impedance, with nothing pending. -/
theorem net_made {s s' : Sim} {l : Label} (hs : step l s = some s')
    (hok : Sole p w delays (.net n) s l) (h : NetSliced n w delays s)
    (hn : ¬ n < s.kernel.nets.length) (hn' : n < s'.kernel.nets.length) :
    (s'.kernel.net n).delay = some (declared delays) ∧
      ∀ bit < w, bitLine (.net n) s'.kernel bit = settled .z := by
  obtain ⟨initial, resolution, delay, hlen, rfl, hk⟩ := net_born (effect_of_step hs) hn hn'
  obtain rfl : initial = .z w := hok.2.2.1.1 hlen.symm
  obtain rfl : delay = some (declared delays) := hok.2.2.2 hlen.symm
  have hlines : Lines n w s'.kernel := hk ▸ lines_newNet h.kept.wired hlen resolution _
  have hnet : s'.kernel.net n = .withResolution (.z w) resolution (some (declared delays)) := by
    rw [hk, net_newNet, if_pos hlen]
  have hdelay : (s'.kernel.net n).delay = some (declared delays) := congrArg Net.delay hnet
  refine ⟨hdelay, fun bit hbit => ?_⟩
  have hbitz : PackedVec.getBit (.z w) bit = .z := (PackedVec.getBit_z w bit).trans (if_pos hbit)
  have hvalue : (bitLine (.net n) s'.kernel bit).value = .z :=
    (congrArg (fun net => net.value.getBit bit) hnet).trans hbitz
  have hrequest : (bitLine (.net n) s'.kernel bit).request = .z :=
    (congrArg (fun net => net.delayRequest.getBit bit) hnet).trans hbitz
  rcases (hlines.delayed _ hdelay).2 bit hbit with ⟨-, hpending⟩ | ⟨hne, -⟩
  · exact Line.ext hvalue hrequest hpending
  · exact absurd (hvalue.trans hrequest.symm) hne

theorem netSliced_step {s s' : Sim} {l : Label} (hs : step l s = some s')
    (hok : Sole p w delays (.net n) s l) (h : NetSliced n w delays s) :
    NetSliced n w delays s' := by
  refine ⟨kept_step hs hok.2.2.1 h.kept, ordered_step hs h.ordered,
    ahead_step hs h.ordered hok.2.1 h.ahead, fun hn' => ?_⟩
  by_cases hn : n < s.kernel.nets.length
  · exact (follows_net hs hok h hn).1
  · exact (net_made hs hok h hn hn').1

theorem netSliced_new (n : NetId) (w : Nat) (delays : DriveDelay) :
    NetSliced n w delays Sim.new :=
  ⟨⟨wired_new, shape_new n w, fun _ hu => absurd hu List.not_mem_nil,
    fun h => absurd h (Nat.not_lt_zero n)⟩,
    ⟨Nat.zero_le _, fun _ h => absurd h List.not_mem_nil, .nil⟩, ahead_new,
    fun h => absurd h (Nat.not_lt_zero n)⟩

/-- The bits of a delayed net are where the replay of the changes of its resolution puts them. -/
theorem tracked_net {labels : List Label} {s : Sim} (hr : Runs labels s)
    (hok : Along step (Sole p w delays (.net n)) Sim.new labels)
    (hn : n < s.kernel.nets.length) {i : Nat} (hi : i < w) :
    Tracked s.kernel.time (bitLine (.net n) s.kernel i) (replay saturatingAddFs
      delays.forTransition (settled .z) (trace step (netAsks n i) Sim.new labels)) := by
  refine tracked_run _ _ hr _ hok (NetSliced n w delays) (netSliced_new n w delays)
    (fun _ _ _ h hl hs => netSliced_step hs hl h) (fun s => s.kernel.time)
    (fun s => bitLine (.net n) s.kernel i) (netAsks n i)
    (fun s => n < s.kernel.nets.length) (settled .z) (Nat.not_lt_zero n)
    (fun t l t' h hl hs hnot => ⟨?_, fun hmade => ?_⟩) (fun t l t' h hl hs halive => ⟨?_, ?_⟩)
    (fun t h _ p hp => le_pending_bitLine h.ordered hp) hn
  · unfold netAsks
    rw [hs]
    exact if_neg fun hc => hnot hc.1
  · exact (net_made hs hl h hnot hmade).2 i hi
  · exact lt_of_delay (follows_net hs hl h halive).1
  · exact (follows_net hs hl h halive).2 i hi

end Net

theorem tracked_stage {st : Stage} {n : NetId} {w : Nat} {delays : DriveDelay}
    {labels : List Label} {s : Sim} (hr : Runs labels s)
    (hok : Along step (Sole n w delays st) Sim.new labels) (hm : Made s.kernel st) {i : Nat}
    (hi : i < w) : Tracked s.kernel.time (bitLine st s.kernel i) (replay saturatingAddFs
      delays.forTransition (settled .z) (trace step (asks w i st) Sim.new labels)) := by
  cases st with
  | driver d => exact tracked_driver hr hok hm hi
  | net m => exact tracked_net hr hok hm hi

/-- Two stages with the same delays, of which one bit each is requested the same at the same times,
have the same value in these bits at every time; in particular, a bit of a stage does what a stage
of one bit does. -/
theorem bit_slices_agree {st st' : Stage} {n n' : NetId} {w w' : Nat} {delays : DriveDelay}
    {labels labels' : List Label} {s s' : Sim} {i i' : Nat} {t : SimTime}
    (hr : Runs labels s) (hr' : Runs labels' s')
    (hok : Along step (Sole n w delays st) Sim.new labels)
    (hok' : Along step (Sole n' w' delays st') Sim.new labels')
    (hm : Made s.kernel st) (hm' : Made s'.kernel st') (hi : i < w) (hi' : i' < w')
    (hasks : trace step (asks w i st) Sim.new labels = trace step (asks w' i' st') Sim.new labels')
    (ht : Applied st i t s.kernel) (ht' : Applied st' i' t s'.kernel) :
    (st.value s.kernel).getBit i = (st'.value s'.kernel).getBit i' := by
  have hline := (tracked_stage hr hok hm hi).applied ht.1 ht.2
  have hline' := (tracked_stage hr' hok' hm' hi').applied ht'.1 ht'.2
  rw [← hasks] at hline'
  exact congrArg Line.value (hline.trans hline'.symm)

/-- Two bits that rise after 5. -/
def pairRun : List Label :=
  [.call (.newNet (.z 2) .wire none), .call (.newDriver 0 .strong .strong),
    .call (.scheduleDriveTransitions 0 (.ones 2) ⟨5, 3, 7⟩), .runUntil none, .advance, .dispatch]

/-- A net that is requested to rise and resolves its driver at once. -/
def singleRun : List Label :=
  [.call (.newNet (.z 1) .wire (some ⟨5, 3, 7⟩)), .call (.newDriver 0 .strong .strong),
    .call (.driveNet 0 (.ones 1)), .runUntil none, .advance, .dispatch]

theorem bit_slices_rise : ∃ s s', Runs pairRun s ∧ Runs singleRun s' ∧
    (Stage.value s.kernel (.driver 0)).getBit 1 = (Stage.value s'.kernel (.net 0)).getBit 0 := by
  have hr : Runs pairRun ((run step Sim.new pairRun).get rfl) := rfl
  have hr' : Runs singleRun ((run step Sim.new singleRun).get rfl) := rfl
  have hok : Along step (Sole 0 2 ⟨5, 3, 7⟩ (.driver 0)) Sim.new pairRun := by
    unfold Along
    decide
  have hok' : Along step (Sole 0 1 ⟨5, 3, 7⟩ (.net 0)) Sim.new singleRun := by
    unfold Along
    decide
  exact ⟨_, _, hr, hr', @bit_slices_agree (.driver 0) (.net 0) 0 0 2 1 ⟨5, 3, 7⟩ _ _ _ _ 1 0 5
    hr hr' hok hok' (by decide) (by decide) (by decide) (by decide) (by decide) (by decide)
    (by decide)⟩

/-! ### Without the conditions -/

/-- The requests without their place among the updates of the same time. -/
def timesOf (as : List (Ask Bit)) : List (SimTime × Bit) := as.map fun r => (r.time, r.value)

/-- Two nets of one bit with the same delays, written through their drivers only and requested the
same at the same times, which differ at time `t`. -/
structure Disagree (labels labels' : List Label) (s s' : Sim) (t : SimTime) : Prop where
  runs : Runs labels s ∧ Runs labels' s'
  driven : Along step (fun s l => DrivenOnly 0 1 s.kernel l) Sim.new labels ∧
    Along step (fun s l => DrivenOnly 0 1 s.kernel l) Sim.new labels'
  delay : (s.kernel.net 0).delay = (s'.kernel.net 0).delay
  asks : timesOf (trace step (asks 1 0 (.net 0)) Sim.new labels) =
    timesOf (trace step (asks 1 0 (.net 0)) Sim.new labels')
  applied : Applied (.net 0) 0 t s.kernel ∧ Applied (.net 0) 0 t s'.kernel
  value : (s.kernel.netValue 0).getBit 0 ≠ (s'.kernel.netValue 0).getBit 0

/-- At 5 a second driver contends before the bit has risen. -/
def contendedRun : List Label :=
  [.call (.newNet (.z 1) .wire (some ⟨5, 5, 5⟩)), .call (.newDriver 0 .strong .strong),
    .call (.newDriver 0 .strong .strong), .call (.scheduleDrive 1 (.zero 1) 5),
    .call (.driveNet 0 (.ones 1)), .runUntil none, .advance, .dispatch, .dispatch]

/-- The same after the bit has risen. -/
def risenRun : List Label :=
  [.call (.newNet (.z 1) .wire (some ⟨5, 5, 5⟩)), .call (.newDriver 0 .strong .strong),
    .call (.newDriver 0 .strong .strong), .call (.driveNet 0 (.ones 1)),
    .call (.scheduleDrive 1 (.zero 1) 5), .runUntil none, .advance, .dispatch, .dispatch]

theorem disagree_order : ∃ s s', Disagree contendedRun risenRun s s' 5 := by
  refine ⟨(run step Sim.new contendedRun).get rfl, (run step Sim.new risenRun).get rfl,
    ⟨rfl, rfl⟩, ⟨?_, ?_⟩, by decide, by decide, ⟨by decide, by decide⟩, by decide⟩
  · unfold Along
    decide
  · unfold Along
    decide

/-- The host runs to 7 and then to 3. -/
def rewoundRun : List Label :=
  [.call (.newNet (.z 1) .wire (some ⟨5, 5, 5⟩)), .call (.newDriver 0 .strong .strong),
    .call (.driveNet 0 (.ones 1)), .addProcess, .runUntil (some 7), .resume, .suspend (.delay 20),
    .advance, .dispatch, .settle, .advance, .runUntil (some 3), .advance]

def straightRun : List Label :=
  [.call (.newNet (.z 1) .wire (some ⟨5, 5, 5⟩)), .call (.newDriver 0 .strong .strong),
    .call (.driveNet 0 (.ones 1)), .addProcess, .runUntil (some 3), .resume, .suspend (.delay 20),
    .advance]

theorem disagree_rewound : ∃ s s', Disagree rewoundRun straightRun s s' 3 := by
  refine ⟨(run step Sim.new rewoundRun).get rfl, (run step Sim.new straightRun).get rfl,
    ⟨rfl, rfl⟩, ⟨?_, ?_⟩, by decide, by decide, ⟨by decide, by decide⟩, by decide⟩
  · unfold Along
    decide
  · unfold Along
    decide

/-- A released bit of a net that delays rising bits only. -/
def heldAt (g : Generation) (timed : List TimedEvent) : Sim :=
  ⟨bench (rising .z .z .z g) (oneBit .z) g timed, [], .idle⟩

/-- A driven bit that takes no time is one change of the resolution. -/
theorem times_drive (g : Generation) {b c : Bit} (hbc : b ≠ c)
    (hdelay : transitionDelay b c 5 0 0 = 0) (timed : List TimedEvent) :
    timesOf (netAsks 0 0 ⟨bench (rising b b b g) (oneBit b) g timed, [], .idle⟩
      (.call (.driveNet 0 (oneBit c)))) = [(0, c)] := by
  have hs := step_driveNet (rising b b b g) (oneBit b) g timed (oneBit c)
  rw [drive_rising g hbc hdelay timed] at hs
  have hresolved (b : Bit) (g : Generation) :
      ((bench (rising b b b g) (oneBit b) g timed).resolved 0).getBit 0 = b := by
    show (resolveDrivers [oneBit b] [⟨.strong, .strong⟩] (oneBit b).width .wire).getBit 0 = b
    rw [width_oneBit, resolved_oneBit, getBit_oneBit]
  rw [netAsks_of_step hs 0 Nat.one_pos, hresolved, hresolved, if_pos hbc]
  rfl

theorem pulse_held (g : Generation) (timed : List TimedEvent) :
    run step (heldAt g timed) pulse = some (heldAt (g + 1 + 1) timed) := by
  refine run_cons.mpr ⟨_, step_driveNet _ _ _ _ _, ?_⟩
  rw [drive_rising g (by decide) rfl]
  refine run_cons.mpr ⟨_, step_driveNet _ _ _ _ _, ?_⟩
  rw [drive_rising (g + 1) (by decide) rfl]
  rfl

theorem timesOf_append (as bs : List (Ask Bit)) : timesOf (as ++ bs) = timesOf as ++ timesOf bs :=
  List.map_append

theorem times_pulse (g : Generation) (timed : List TimedEvent) :
    timesOf (trace step (netAsks 0 0) (heldAt g timed) pulse) = [(0, .zero), (0, .z)] := by
  have hdown : Bit.z ≠ .zero := by decide
  have hup : Bit.zero ≠ .z := by decide
  have hs : run step (heldAt g timed) [.call (.driveNet 0 (oneBit .zero))] =
      some ⟨bench (rising .zero .zero .zero (g + 1)) (oneBit .zero) (g + 1) timed, [], .idle⟩ := by
    rw [← drive_rising g hdown rfl]
    exact run_cons.mpr ⟨_, step_driveNet _ _ _ _ _, rfl⟩
  have hpulse : pulse = [.call (.driveNet 0 (oneBit .zero))] ++ [.call (.driveNet 0 (oneBit .z))] :=
    rfl
  have hfirst : timesOf (netAsks 0 0 (heldAt g timed) (.call (.driveNet 0 (oneBit .zero)))) =
      [(0, .zero)] := times_drive g hdown rfl timed
  rw [hpulse, trace_append hs, timesOf_append, trace_singleton, trace_singleton, hfirst,
    times_drive (g + 1) hup rfl timed]
  rfl

/-- So many pulses are so many changes, whatever is on the wheel. -/
theorem times_pulses (n : Nat) (g : Generation) (timed : List TimedEvent) :
    timesOf (trace step (netAsks 0 0) (heldAt g timed) (List.replicate n pulse).flatten) =
      (List.replicate n [(0, .zero), (0, .z)]).flatten := by
  induction n generalizing g with
  | zero => rfl
  | succ n ih =>
    rw [List.replicate_succ, List.flatten_cons, List.replicate_succ, List.flatten_cons,
      trace_append (pulse_held g timed), timesOf_append, times_pulse, ih]

/-- The bit is released, its stale update discarded, and the pulses follow. -/
def discardedRun (n : Nat) : List Label :=
  releasedRun ++ ([.runUntil none, .advance] ++ ((List.replicate n pulse).flatten ++
    [.call (.driveNet 0 (oneBit .zero))]))

def pulledDown : Sim := ⟨bench (rising .zero .zero .zero 1) (oneBit .zero) 1 [], [], .idle⟩

theorem pulses_held {n : Nat} (hn : 2 + BitVec.ofNat 64 (2 * n) = (0 : Generation))
    (timed : List TimedEvent) :
    run step (heldAt 2 timed) (List.replicate n pulse).flatten = some (heldAt 0 timed) := by
  have hpulses := run_replicate (fun g => pulse_held g timed) n 2
  rwa [iterate_generation, hn] at hpulses

theorem discarded_run : run step (releasedAt 2) [.runUntil none, .advance] = some (heldAt 2 []) :=
  rfl

theorem pull_run : run step (heldAt 0 []) [.call (.driveNet 0 (oneBit .zero))] = some pulledDown :=
  rfl

theorem disagree_wrapped : ∃ n s s', Disagree (pulsesRun n) (discardedRun n) s s' 5 := by
  have hn : 2 + BitVec.ofNat 64 (2 * 9223372036854775807) = (0 : Generation) := by decide
  generalize 9223372036854775807 = n at hn
  have hdropped : run step (releasedAt 2) ([.runUntil none, .advance] ++
      ((List.replicate n pulse).flatten ++ [.call (.driveNet 0 (oneBit .zero))])) =
      some pulledDown :=
    run_append.mpr ⟨_, discarded_run, run_append.mpr ⟨_, pulses_held hn [], pull_run⟩⟩
  refine ⟨n, risen, pulledDown, ⟨pulses_run hn, run_append.mpr ⟨_, released_run, hdropped⟩⟩,
    ⟨along_of_forall (pulses_drivenOnly n) _, along_of_forall (fun l hl => ?_) _⟩, rfl, ?_,
    ⟨by decide, by decide⟩, by decide⟩
  · refine pulses_drivenOnly n l ?_
    rcases List.mem_append.mp hl with hl | hl
    · exact List.mem_append_left _ hl
    refine List.mem_append_right _ ?_
    rcases List.mem_append.mp hl with hl | hl
    · refine List.mem_append_right _ (List.mem_cons_of_mem _ ?_)
      simp only [List.mem_cons, List.not_mem_nil, or_false] at hl
      rcases hl with rfl | rfl <;> simp
    rcases List.mem_append.mp hl with hl | hl
    · exact List.mem_append_left _ hl
    · rw [List.mem_singleton.mp hl]
      exact List.mem_append_right _ List.mem_cons_self
  · have htail : trace step (netAsks 0 0) (heldAt 0 [staleRise])
        [.call (.driveNet 0 (oneBit .zero)), .runUntil none, .advance, .dispatch] =
        [⟨0, false, .zero⟩] := rfl
    have htail' : trace step (netAsks 0 0) (heldAt 0 [])
        [.call (.driveNet 0 (oneBit .zero))] = [⟨0, false, .zero⟩] := rfl
    have hdiscard : trace step (netAsks 0 0) (releasedAt 2) [.runUntil none, .advance] = [] := rfl
    show timesOf (trace step (netAsks 0 0) _ _) = timesOf (trace step (netAsks 0 0) _ _)
    unfold pulsesRun discardedRun
    have hheld : releasedAt 2 = heldAt 2 [staleRise] := rfl
    rw [trace_append released_run, trace_append released_run, trace_append discarded_run,
      trace_append (pulses_held hn []), hdiscard, List.nil_append, htail', hheld,
      trace_append (pulses_held hn [staleRise]), htail]
    simp only [timesOf_append, times_pulses]

/-- Their order within one time, a clock that is set back, and generations that come again make a
difference. -/
theorem bit_slices_disagree : (∃ s s', Disagree contendedRun risenRun s s' 5) ∧
    (∃ s s', Disagree rewoundRun straightRun s s' 3) ∧
    ∃ n s s', Disagree (pulsesRun n) (discardedRun n) s s' 5 :=
  ⟨disagree_order, disagree_rewound, disagree_wrapped⟩

end Eevee.Sched.BitSlices
