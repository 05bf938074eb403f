/- A net that is written through its drivers only is what they make it, after its delay. -/

import Mathlib.Data.List.Basic
import Mathlib.Tactic.Common
import Mathlib.Tactic.SplitIfs
import Eevee.Sched.NetLines

set_option autoImplicit false
set_option relaxedAutoImplicit false

namespace Eevee.Sched.NetCoherence

open Eevee.Core.Logic
open Eevee.Lib.InertialLine
open Eevee.Lib.Transition
open Eevee.Sched.Frames
open Eevee.Sched.Layout
open Eevee.Sched.NetLines
open Eevee.Sched.Nets
open Eevee.Sched.Resolution
open Eevee.Sched.Scheduler
open Eevee.Sched.Simulation
open Eevee.Sched.Stages

/-- The live updates of one bit of a delayed net. -/
def livePending (n : NetId) (k : Kernel) (bit : Nat) : List (SimTime × Bit) :=
  (bitLine (.net n) k bit).pending

/-- The net, or the request of a delayed net, is the resolution of its drivers, and every bit of a
delayed net has reached the request or exactly one live update will take it there. -/
structure Coheres (n : NetId) (k : Kernel) : Prop where
  plain : (k.net n).delay = none → k.netValue n = k.resolved n
  request : (k.net n).delay ≠ none → (k.net n).delayRequest = k.resolved n
  bits : (k.net n).delay ≠ none → ∀ bit < (k.netValue n).width,
    (k.netValue n).getBit bit = (k.net n).delayRequest.getBit bit ∨
      ∃ t, livePending n k bit = [(t, (k.net n).delayRequest.getBit bit)]
  quiet : (∀ bit < (k.netValue n).width, livePending n k bit = []) → k.netValue n = k.resolved n

/-! ### The invariant -/

/-- The bits of a delayed net are inertial lines; nothing is on the wheel for another net. -/
structure Lines (n : NetId) (w : Nat) (k : Kernel) : Prop where
  plain : (k.net n).delay = none → k.netValue n = k.resolved n ∧
    k.timed.filter (fun ev => Owns (.net n) ev.action) = []
  delayed : ∀ delays, (k.net n).delay = some delays →
    (k.net n).delayRequest = k.resolved n ∧ ∀ bit < w, Coherent (bitLine (.net n) k bit)

section Lines

variable {n : NetId} {w : Nat} {k k' : Kernel}

/-- Without events of the stage nothing is pending. -/
theorem pending_of_no_events {st : Stage}
    (h : k.timed.filter (fun ev => Owns st ev.action) = []) (bit : Nat) :
    (bitLine st k bit).pending = [] := by
  show inFlight st bit _ k.timed = []
  have hf (ev : TimedEvent) (ho : ¬ Owns st ev.action) :
      carrying bit ((st.generations k).getD bit 0) ev.time (st.updates ev.action) = [] := by
    rw [updates_of_not_owns ho]
    rfl
  unfold inFlight
  rw [flatMap_of_owns hf, h]
  rfl

theorem Lines.committed (h : Lines n w k) : ∀ bit < w, Committed (bitLine (.net n) k bit) := by
  intro bit hbit
  cases hd : (k.net n).delay with
  | none => exact Or.inl (pending_of_no_events (h.plain hd).2 bit)
  | some delays => exact ((h.delayed delays hd).2 bit hbit).committed

theorem Lines.coheres (h : Lines n w k) (hw : (k.netValue n).width = w) : Coheres n k := by
  have hresolved : (k.resolved n).width = w := (width_resolved k n).trans hw
  refine ⟨fun hp => (h.plain hp).1, fun hd => ?_, fun hd bit hbit => ?_, fun hquiet => ?_⟩
  · obtain ⟨delays, hsome⟩ := Option.ne_none_iff_exists'.mp hd
    exact (h.delayed delays hsome).1
  · obtain ⟨delays, hsome⟩ := Option.ne_none_iff_exists'.mp hd
    rcases (h.delayed delays hsome).2 bit (hw ▸ hbit) with ⟨heq, -⟩ | ⟨-, t, hone⟩
    · exact Or.inl heq
    · exact Or.inr ⟨t, hone⟩
  · cases hd : (k.net n).delay with
    | none => exact (h.plain hd).1
    | some delays =>
      obtain ⟨hrequest, hbits⟩ := h.delayed delays hd
      apply PackedVec.ext_bits (hw.trans hresolved.symm)
      intro bit hbit
      rcases hbits bit (hw ▸ hbit) with ⟨heq, -⟩ | ⟨-, t, hone⟩
      · rw [← hrequest]
        exact heq
      · have hnil : (bitLine (.net n) k bit).pending = [] := hquiet bit hbit
        rw [hone] at hnil
        exact absurd hnil (List.cons_ne_nil _ _)

/-- A step that does not concern the net. -/
theorem Lines.of_same (h : Lines n w k) (hs : SameStage (.net n) k k')
    (hresolved : k'.resolved n = k.resolved n) (hdelay : (k'.net n).delay = (k.net n).delay) :
    Lines n w k' := by
  refine ⟨fun hp => ?_, fun delays hd => ?_⟩
  · obtain ⟨hvalue, hwheel⟩ := h.plain (hdelay.symm.trans hp)
    rw [hresolved, ← hvalue]
    exact ⟨hs.value, hs.wheel.trans hwheel⟩
  · obtain ⟨hrequest, hbits⟩ := h.delayed delays (hdelay.symm.trans hd)
    rw [hresolved, ← hrequest]
    exact ⟨hs.request, fun bit hbit => (hs.bitLine bit).symm ▸ hbits bit hbit⟩

theorem Lines.resolve (h : Lines n w k) (hr : Resolves n w k k') : Lines n w k' := by
  refine ⟨fun hp => ?_, fun delays hd => ?_⟩
  · have hp₀ := hr.delay.symm.trans hp
    obtain ⟨hvalue, hwheel⟩ := hr.plain hp₀
    exact ⟨hvalue, hwheel.trans (h.plain hp₀).2⟩
  · have hd₀ := hr.delay.symm.trans hd
    obtain ⟨hrequest, hbits⟩ := hr.delayed delays hd₀
    refine ⟨hrequest, fun bit hbit => ?_⟩
    rw [hbits bit hbit]
    exact coherent_ask _ _ ((h.delayed delays hd₀).2 bit hbit) _ _

theorem Lines.discard (h : Lines n w k) (t : SimTime) :
    Lines n w { k.discardStaleTimedActions with time := t } := by
  refine ⟨fun hp => ⟨(h.plain hp).1, ?_⟩, fun delays hd =>
    ⟨(h.delayed delays hd).1, fun bit hbit => ?_⟩⟩
  · have hsub : (k.timed.dropWhile fun ev => k.staleAction ev.action).Sublist k.timed :=
      List.dropWhile_sublist _
    have hnil := hsub.filter fun ev => decide (Owns (.net n) ev.action)
    rw [(h.plain hp).2] at hnil
    exact List.sublist_nil.mp hnil
  · rw [bitLine_discard]
    exact (h.delayed delays hd).2 bit hbit

theorem Lines.fire (h : Lines n w k) (hf : Fires n w k k') {ev : TimedEvent}
    {rest : List TimedEvent} (ht : k.timed = ev :: rest) (ho : OfNet n ev.action) :
    Lines n w k' := by
  refine ⟨fun hp => ?_, fun delays hd => ?_⟩
  · have hnil := (h.plain (hf.delay.symm.trans hp)).2
    have hown : Owns (.net n) ev.action := ho
    rw [ht, List.filter_cons, if_pos (decide_eq_true hown)] at hnil
    exact absurd hnil (List.cons_ne_nil _ _)
  · obtain ⟨hrequest, hbits⟩ := h.delayed delays (hf.delay.symm.trans hd)
    refine ⟨hf.request.trans (hrequest.trans hf.resolved.symm), fun bit hbit => ?_⟩
    rcases hf.bits bit hbit with he | he
    · rw [he]
      exact hbits bit hbit
    · rw [he]
      exact coherent_fire (hbits bit hbit) _

/-- A new net starts out as high impedance, with nothing pending. -/
theorem lines_newNet (hk : Wired k) (hn : n = k.nets.length) (resolution : NetResolution)
    (delay : Option NetDelay) :
    Lines n w (k.newNetWithResolutionAndDelay (.z w) resolution delay) := by
  have hnet := (net_newNet k (.z w) resolution delay n).trans (if_pos hn)
  have hwheel : (k.newNetWithResolutionAndDelay (.z w) resolution delay).timed.filter
      (fun ev => Owns (.net n) ev.action) = [] := by
    rw [List.filter_eq_nil_iff]
    intro ev hev ho
    have ha := hk.aims ev hev
    have hown := of_decide_eq_true ho
    cases haction : ev.action with
    | netBits m us =>
      rw [haction] at ha hown
      exact Nat.lt_irrefl _ (hn ▸ (show m = n from hown) ▸ ha)
    | _ =>
      rw [haction] at hown
      exact hown
  have hresolved : (k.newNetWithResolutionAndDelay (.z w) resolution delay).resolved n = .z w := by
    unfold Kernel.resolved Kernel.netValue
    rw [hnet]
    exact (resolveDrivers_nil _ _).trans (congrArg PackedVec.z (PackedVec.width_z w))
  have hvalue : (k.newNetWithResolutionAndDelay (.z w) resolution delay).netValue n = .z w :=
    congrArg Net.value hnet
  have hrequest : ((k.newNetWithResolutionAndDelay (.z w) resolution delay).net n).delayRequest =
      .z w := congrArg Net.delayRequest hnet
  refine ⟨fun _ => ⟨hvalue.trans hresolved.symm, hwheel⟩, fun delays _ =>
    ⟨hrequest.trans hresolved.symm, fun bit _ => Or.inl ⟨?_, pending_of_no_events hwheel bit⟩⟩⟩
  exact congrArg (PackedVec.getBit · bit) (hvalue.trans hrequest.symm)

end Lines

/-- What holds of a net throughout a run. -/
structure Kept (n : NetId) (w : Nat) (k : Kernel) : Prop where
  wired : Wired k
  shape : Shape n w k
  nba : ∀ u ∈ k.nba, u.1 ≠ n
  lines : n < k.nets.length → Lines n w k

/-- The net is written through its drivers only, and no update of it that is still on the wheel
carries the generation that the next request would give. -/
def Driven (n : NetId) (w : Nat) (s : Sim) (l : Label) : Prop :=
  DrivenOnly n w s.kernel l ∧ Unused (.net n) s.kernel

/-- No one schedules a nonblocking update of the net. -/
theorem nba_effect {n : NetId} {w : Nat} {l : Label} {k k' : Kernel} (he : Effect l k k')
    (hl : DrivenOnly n w k l) (h : ∀ u ∈ k.nba, u.1 ≠ n) : ∀ u ∈ k'.nba, u.1 ≠ n := by
  cases he with
  | calm hc hn =>
    rcases hn with hn | ⟨m, v, rfl, hn⟩
    · exact hn ▸ h
    · rw [hn]
      intro u hu
      rcases List.mem_append.mp hu with hu | hu
      · exact h u hu
      · rw [List.mem_singleton.mp hu]
        exact hl
  | delayed hw => exact hw.nba ▸ h
  | newNet initial resolution delay => exact h
  | newDriver hn hw => exact h
  | drive hc hd => exact (nba_touches (touches_call hc)).symm ▸ h
  | write hn => exact (wakes_writeNet k _ _).nba ▸ h
  | drain =>
    rw [nba_drainNba]
    exact fun u hu => absurd hu List.not_mem_nil
  | advance => exact h
  | @dispatch _ ev rest ht hdue =>
    by_cases ha : ∃ p, ev.action = .resume p
    · obtain ⟨p, ha⟩ := ha
      unfold Kernel.dispatchEvent
      rw [ha]
      dsimp only
      split <;> exact h
    · obtain ⟨d, m, htouch⟩ := @touches_dispatchEvent { k with timed := rest } ev
        fun p hp => ha ⟨p, hp⟩
      exact (nba_touches htouch).symm ▸ h

/-- A net comes into being by `new_net` only. -/
theorem net_born {l : Label} {k k' : Kernel} (he : Effect l k k') {n : NetId}
    (hn : ¬ n < k.nets.length) (hn' : n < k'.nets.length) :
    ∃ initial resolution delay, n = k.nets.length ∧
      l = .call (.newNet initial resolution delay) ∧
      k' = k.newNetWithResolutionAndDelay initial resolution delay := by
  have same {k₁ : Kernel} (hs : SameWiring k₁ k') (hn : ¬ n < k₁.nets.length) : False :=
    hn (hs.nets ▸ hn')
  cases he with
  | calm hc _ => exact absurd hn' fun _ => same (.of_calm hc) hn
  | @delayed _ k₁ fs pid hw =>
    have hlen : k₁.nets.length = k.nets.length := (SameWiring.of_calm hw.toCalm).nets
    exact absurd (hlen ▸ hn') hn
  | newNet initial resolution delay =>
    refine ⟨initial, resolution, delay, ?_, rfl, rfl⟩
    unfold Kernel.newNetWithResolutionAndDelay at hn'
    rw [List.length_append] at hn'
    exact (Nat.lt_succ_iff_lt_or_eq.mp hn').resolve_left hn
  | newDriver hm hw =>
    unfold Kernel.newDriverWithStrengths Kernel.addDriverSlot Kernel.modifyNet at hn'
    rw [List.length_modify] at hn'
    exact absurd hn' hn
  | drive hc hd => exact absurd hn' fun _ => same (sameWiring_touches (touches_call hc)) hn
  | write _ => exact absurd hn' fun _ => same (sameWiring_writeNet k _ _) hn
  | drain => exact absurd hn' fun _ => same (sameWiring_drainNba k) hn
  | advance => exact absurd hn' hn
  | @dispatch _ ev rest ht hdue =>
    have hrest : ¬ n < { k with timed := rest }.nets.length := hn
    by_cases ha : ∃ p, ev.action = .resume p
    · obtain ⟨p, ha⟩ := ha
      unfold Kernel.dispatchEvent at hn'
      rw [ha] at hn'
      dsimp only at hn'
      split at hn' <;> exact absurd hn' hn
    · obtain ⟨d, m, htouch⟩ := @touches_dispatchEvent { k with timed := rest } ev
        fun p hp => ha ⟨p, hp⟩
      exact absurd hn' fun _ => @same { k with timed := rest } (sameWiring_touches htouch) hrest

theorem lines_effect {n : NetId} {w : Nat} {k k' : Kernel} (he : NetEffect n w k k')
    (hn : n < k.nets.length) (hs : Shape n w k) (h : Lines n w k) : Lines n w k' := by
  cases he with
  | same ht hstage hresolved hdelay => exact h.of_same hstage hresolved hdelay
  | resolve hr => exact h.resolve hr
  | advance t hk' => exact hk' ▸ h.discard t
  | fire ev rest ht hd ho hk' =>
    exact hk' ▸ h.fire (fires_dispatch hn (hs.value hn) h.committed ht hd ho) ht ho

theorem kept_step {n : NetId} {w : Nat} {s s' : Sim} {l : Label} (hs : step l s = some s')
    (hl : Driven n w s l) (h : Kept n w s.kernel) : Kept n w s'.kernel := by
  have he := effect_of_step hs
  refine ⟨wired_effect he h.wired, shape_effect he h.wired h.shape hl.1.steady,
    nba_effect he hl.1 h.nba, fun hn' => ?_⟩
  by_cases hn : n < s.kernel.nets.length
  · have hlines := h.lines hn
    exact lines_effect (netEffect_of_effect he h.wired h.shape hn hl.1 h.nba hl.2 hlines.committed)
      hn h.shape hlines
  · obtain ⟨initial, resolution, delay, hlen, rfl, hk'⟩ := net_born he hn hn'
    obtain rfl : initial = .z w := hl.1 hlen.symm
    exact hk' ▸ lines_newNet h.wired hlen resolution delay

theorem kept_run {n : NetId} {w : Nat} {labels : List Label} {s : Sim} (hr : Runs labels s)
    (hok : Along step (Driven n w) Sim.new labels) : Kept n w s.kernel :=
  run_invariant_where (Driven n w) (fun s => Kept n w s.kernel) hr hok
    ⟨wired_new, shape_new n w, fun _ hu => absurd hu List.not_mem_nil,
      fun hn => absurd hn (Nat.not_lt_zero n)⟩
    fun _ _ _ hk hl hs => kept_step hs hl hk

/-- In every run that writes the net through its drivers only and does not reuse a generation that
is still on the wheel, the net is what its drivers make it, after its delay. -/
theorem net_coheres {n : NetId} {w : Nat} {labels : List Label} {s : Sim} (hr : Runs labels s)
    (hok : Along step (Driven n w) Sim.new labels) (hn : n < s.kernel.nets.length) :
    Coheres n s.kernel := by
  have h := kept_run hr hok
  exact (h.lines hn).coheres (h.shape.value hn)

/-- A net with three delays follows its driver: a rising bit is requested and becomes due. -/
def delayedRun : List Label :=
  [.call (.newNet (.z 2) .wire (some ⟨5, 3, 7⟩)), .call (.newDriver 0 .strong .strong),
    .call (.driveNet 0 (.ones 2)), .runUntil none, .advance, .dispatch]

theorem net_coheres_delayed : ∃ s, Runs delayedRun s ∧ Coheres 0 s.kernel := by
  have hr : Runs delayedRun ((run step Sim.new delayedRun).get rfl) := rfl
  have hok : Along step (Driven 0 2) Sim.new delayedRun := by
    unfold Along Driven
    decide
  exact ⟨_, hr, net_coheres hr hok (by decide)⟩

/-! ### Generations wrap -/

/-- One bit. -/
def oneBit (b : Bit) : PackedVec := (PackedVec.zero 1).setBit 0 b

/-- A kernel with one driver of one net; its generations are the same. -/
def bench (net : Net) (request : PackedVec) (g : Generation) (timed : List TimedEvent) : Kernel :=
  { Kernel.new with
    nets := [net]
    drivers := [⟨0, 0, g⟩]
    driverRequests := [request]
    driverBitGenerations := [[g]]
    timed := timed
    seq := 1 }

/-- A net that delays rising bits only, at one bit. -/
def rising (value request driven : Bit) (g : Generation) : Net :=
  ⟨oneBit value, .wire, some ⟨5, 0, 0⟩, oneBit request, [g], [oneBit driven],
    [⟨.strong, .strong⟩], []⟩

theorem width_oneBit (b : Bit) : (oneBit b).width = 1 := PackedVec.width_setBit _ _ _

theorem resize_oneBit (b : Bit) : (oneBit b).resize 1 false = oneBit b :=
  PackedVec.resize_of_width_eq (width_oneBit b) false

theorem resolved_oneBit (b : Bit) :
    resolveDrivers [oneBit b] [⟨.strong, .strong⟩] 1 .wire = oneBit b := by
  cases b <;> decide

theorem getBit_oneBit (b : Bit) : (oneBit b).getBit 0 = b := by cases b <;> decide

theorem transitions_oneBit {b c : Bit} (hbc : b ≠ c) {delay : Bit → Bit → Nat} (h : delay b c = 0)
    (g : Generation) : Kernel.transitions 1 (oneBit b) (oneBit b) (oneBit c) delay [g] =
      ⟨[g + 1], oneBit c, true, []⟩ := by
  show Kernel.transitionBit (oneBit b) (oneBit b) (oneBit c) delay ⟨[g], oneBit b, false, []⟩ 0 = _
  unfold Kernel.transitionBit
  rw [getBit_oneBit, getBit_oneBit, if_neg hbc, if_neg hbc, if_pos h]
  have hset : (oneBit b).setBit 0 c = oneBit c := by cases b <;> cases c <;> decide
  rw [hset]
  rfl

/-- Driving an undelayed bit takes no time and moves on to the next generation. -/
theorem drive_rising (g : Generation) {b c : Bit} (hbc : b ≠ c)
    (hdelay : transitionDelay b c 5 0 0 = 0) (timed : List TimedEvent) :
    (bench (rising b b b g) (oneBit b) g timed).driveNet 0 (oneBit c) =
      bench (rising c c c (g + 1)) (oneBit c) (g + 1) timed := by
  have hw : (bench (rising b b b g) (oneBit b) g timed).driverWidth 0 = 1 := width_oneBit b
  unfold Kernel.driveNet
  rw [hw, resize_oneBit]
  dsimp only
  have hrequest : (bench (rising b b b g) (oneBit b) g timed).supersede 0 (oneBit c) =
      bench (rising b b b g) (oneBit c) (g + 1) timed := rfl
  have hw : (bench (rising b b b g) (oneBit c) (g + 1) timed).driverWidth 0 = 1 := width_oneBit b
  rw [hrequest]
  unfold Kernel.applyDrive
  rw [hw, resize_oneBit]
  dsimp only
  have hvalue : (bench (rising b b b g) (oneBit c) (g + 1) timed).setDriverValue 0 (oneBit c) =
      bench (rising b b c g) (oneBit c) (g + 1) timed := rfl
  have hresolved : (bench (rising b b c g) (oneBit c) (g + 1) timed).resolved 0 = oneBit c := by
    show resolveDrivers [oneBit c] [⟨.strong, .strong⟩] (oneBit b).width .wire = _
    rw [width_oneBit, resolved_oneBit]
  have hne : ¬ (oneBit b).eqCase (oneBit c) = true := by
    rw [PackedVec.eqCase_iff]
    intro he
    exact hbc (by rw [← getBit_oneBit b, he, getBit_oneBit])
  rw [hvalue]
  show Kernel.applyResolvedNet _ 0
    ((bench (rising b b c g) (oneBit c) (g + 1) timed).resolved 0) = _
  rw [hresolved]
  show (if (oneBit b).eqCase ((oneBit c).resize (oneBit b).width false) = true then
    bench (rising b b c g) (oneBit c) (g + 1) timed else
    (bench (rising b b c g) (oneBit c) (g + 1) timed).requestNet 0
      ((oneBit c).resize (oneBit b).width false) ⟨5, 0, 0⟩) = _
  rw [width_oneBit, resize_oneBit, if_neg hne]
  unfold Kernel.requestNet
  have htr : Kernel.transitions ((bench (rising b b c g) (oneBit c) (g + 1) timed).netValue 0).width
      ((bench (rising b b c g) (oneBit c) (g + 1) timed).net 0).delayRequest
      ((bench (rising b b c g) (oneBit c) (g + 1) timed).netValue 0) (oneBit c)
      (NetDelay.forTransition ⟨5, 0, 0⟩)
      ((bench (rising b b c g) (oneBit c) (g + 1) timed).net 0).delayGenerations =
      ⟨[g + 1], oneBit c, true, []⟩ := by
    show Kernel.transitions (oneBit b).width (oneBit b) (oneBit b) (oneBit c) _ [g] = _
    rw [width_oneBit]
    exact transitions_oneBit hbc hdelay g
  rw [htr]
  dsimp only
  show Kernel.writeNet (bench (rising b c c (g + 1)) (oneBit c) (g + 1) timed) 0 (oneBit c) = _
  rw [writeNet_unwatched rfl rfl]
  rfl

/-- A bit is asked to rise and then released at once. -/
def releasedRun : List Label :=
  [.call (.newNet (.z 1) .wire (some ⟨5, 0, 0⟩)), .call (.newDriver 0 .strong .strong),
    .call (.driveNet 0 (oneBit .one)), .call (.driveNet 0 (oneBit .z))]

/-- The update that takes the bit to one after all, when its generation is the current one. -/
def staleRise : TimedEvent := ⟨5, .active, 1, .netBits 0 [⟨0, .one, 1⟩]⟩

def releasedAt (g : Generation) : Sim :=
  ⟨bench (rising .z .z .z g) (oneBit .z) g [staleRise], [], .idle⟩

theorem released_run : run step Sim.new releasedRun = some (releasedAt 2) := rfl

/-- The bit is pulled down and released, without a delay. -/
def pulse : List Label := [.call (.driveNet 0 (oneBit .zero)), .call (.driveNet 0 (oneBit .z))]

theorem step_driveNet (net : Net) (request : PackedVec) (g : Generation)
    (timed : List TimedEvent) (v : PackedVec) :
    step (.call (.driveNet 0 v)) ⟨bench net request g timed, [], .idle⟩ =
      some ⟨(bench net request g timed).driveNet 0 v, [], .idle⟩ := by
  have hd : (Call.driveNet 0 v).Valid (bench net request g timed) := Nat.one_pos
  show (if (Call.driveNet 0 v).Valid (bench net request g timed) then _ else none) = _
  rw [if_pos hd]
  rfl

theorem pulse_run (g : Generation) :
    run step (releasedAt g) pulse = some (releasedAt (g + 1 + 1)) := by
  refine run_cons.mpr ⟨_, step_driveNet _ _ _ _ _, ?_⟩
  rw [drive_rising g (by decide) rfl]
  refine run_cons.mpr ⟨_, step_driveNet _ _ _ _ _, ?_⟩
  rw [drive_rising (g + 1) (by decide) rfl]
  rfl

theorem iterate_generation (g : Generation) (n : Nat) :
    (fun g : Generation => g + 1 + 1)^[n] g = g + BitVec.ofNat 64 (2 * n) := by
  induction n generalizing g with
  | zero => exact (BitVec.add_zero g).symm
  | succ n ih =>
    rw [Function.iterate_succ_apply, ih, Nat.mul_succ, BitVec.add_assoc, BitVec.add_assoc]
    congr 1
    rw [Nat.add_comm (2 * n) 2, BitVec.ofNat_add, ← BitVec.add_assoc]
    rfl

/-- So many pulses, one more pull, and the time of the stale update. -/
def pulsesRun (n : Nat) : List Label :=
  releasedRun ++ ((List.replicate n pulse).flatten ++
    [.call (.driveNet 0 (oneBit .zero)), .runUntil none, .advance, .dispatch])

/-- The bit has risen although its driver holds it down. -/
def risen : Sim :=
  ⟨{ bench (rising .one .zero .zero 1) (oneBit .zero) 1 [] with time := 5 }, [], .dispatching none⟩

theorem pulses_run {n : Nat} (hn : 2 + BitVec.ofNat 64 (2 * n) = (0 : Generation)) :
    Runs (pulsesRun n) risen := by
  have hpulses := run_replicate pulse_run n 2
  rw [iterate_generation, hn] at hpulses
  refine run_append.mpr ⟨_, released_run, run_append.mpr ⟨_, hpulses, ?_⟩⟩
  refine run_cons.mpr ⟨_, step_driveNet _ _ _ _ _, ?_⟩
  rw [drive_rising 0 (by decide) rfl]
  rfl

theorem pulses_drivenOnly (n : Nat) : ∀ l ∈ pulsesRun n, ∀ s : Sim, DrivenOnly 0 1 s.kernel l := by
  have hdrive (v : PackedVec) (s : Sim) : DrivenOnly 0 1 s.kernel (.call (.driveNet 0 v)) := trivial
  intro l hl s
  rcases List.mem_append.mp hl with hl | hl
  · simp only [releasedRun, List.mem_cons, List.not_mem_nil, or_false] at hl
    rcases hl with rfl | rfl | rfl | rfl
    · exact fun _ => rfl
    · trivial
    · exact hdrive _ s
    · exact hdrive _ s
  rcases List.mem_append.mp hl with hl | hl
  · obtain ⟨ls, hls, hl⟩ := List.mem_flatten.mp hl
    obtain rfl := (List.mem_replicate.mp hls).2
    simp only [pulse, List.mem_cons, List.not_mem_nil, or_false] at hl
    rcases hl with rfl | rfl
    · exact hdrive _ s
    · exact hdrive _ s
  · simp only [List.mem_cons, List.not_mem_nil, or_false] at hl
    rcases hl with rfl | rfl | rfl | rfl
    · exact hdrive _ s
    all_goals trivial

/-- After 2 to the 63 minus 1 pulses the stale update is live again. -/
theorem net_coheres_wrapped : ∃ n s, Runs (pulsesRun n) s ∧
    Along step (fun s l => DrivenOnly 0 1 s.kernel l) Sim.new (pulsesRun n) ∧
    0 < s.kernel.nets.length ∧ ¬ Coheres 0 s.kernel := by
  refine ⟨9223372036854775807, risen, pulses_run (by decide),
    along_of_forall (pulses_drivenOnly _) _, Nat.one_pos, fun h => ?_⟩
  have hdelay : (risen.kernel.net 0).delay ≠ none := Option.some_ne_none _
  rcases h.bits hdelay 0 (by decide) with heq | ⟨t, hone⟩
  · exact absurd heq (by decide)
  · have hnone : livePending 0 risen.kernel 0 = [] := rfl
    exact absurd (hnone.symm.trans hone) (List.cons_ne_nil _ _).symm

end Eevee.Sched.NetCoherence
