/- What each step does to one net: its drivers, its value and its bits as delay lines. -/

import Mathlib.Data.List.Basic
import Mathlib.Tactic.Common
import Mathlib.Tactic.SplitIfs
import Eevee.Sched.Drivers

set_option autoImplicit false
set_option relaxedAutoImplicit false

namespace Eevee.Sched.NetLines

open Eevee.Core.Logic
open Eevee.Lib.InertialLine
open Eevee.Sched.Drivers
open Eevee.Sched.Frames
open Eevee.Sched.Layout
open Eevee.Sched.Nets
open Eevee.Sched.Resolution
open Eevee.Sched.Scheduler
open Eevee.Sched.Simulation
open Eevee.Sched.Stages

/-! ### Frames -/

/-- Neither the net nor what is on the wheel for it has changed. -/
structure SameNet (n : NetId) (k k' : Kernel) : Prop where
  net : signals (k'.net n) = signals (k.net n)
  wheel : k'.timed.filter (fun ev => Owns (.net n) ev.action) =
    k.timed.filter fun ev => Owns (.net n) ev.action

namespace SameNet

variable {n : NetId} {k k' k'' : Kernel}

theorem refl (n : NetId) (k : Kernel) : SameNet n k k := ⟨rfl, rfl⟩

theorem trans (h : SameNet n k k') (h' : SameNet n k' k'') : SameNet n k k'' :=
  ⟨h'.net.trans h.net, h'.wheel.trans h.wheel⟩

/-- Whatever does not look at the sensitivity list is the same. -/
theorem view {β : Type} (h : SameNet n k k') (f : Net → β) (hf : ∀ net, f (signals net) = f net) :
    f (k'.net n) = f (k.net n) := by
  rw [← hf (k'.net n), h.net, hf]

theorem stage (h : SameNet n k k') : SameStage (.net n) k k' :=
  ⟨h.view Net.value fun _ => rfl, h.view Net.delayRequest fun _ => rfl,
    h.view Net.delayGenerations fun _ => rfl, rfl, h.wheel⟩

theorem resolved (h : SameNet n k k') : k'.resolved n = k.resolved n :=
  h.view (fun net => resolveDrivers net.driverValues net.driverStrengths net.value.width
    net.resolution) fun _ => rfl

theorem delay (h : SameNet n k k') : (k'.net n).delay = (k.net n).delay :=
  h.view Net.delay fun _ => rfl

theorem of_calm (h : Calm k k') (n : NetId) : SameNet n k k' := ⟨h.signals n, by rw [h.timed]⟩

end SameNet

theorem sameNet_modifyNet (k : Kernel) {n m : NetId} (f : Net → Net) (hm : m ≠ n) :
    SameNet n k (k.modifyNet m f) := by
  refine ⟨?_, rfl⟩
  rw [Kernel.net_modifyNet, if_neg fun hc => hm hc.1.symm]

theorem sameNet_writeNet (k : Kernel) {n m : NetId} (v : PackedVec) (hm : m ≠ n) :
    SameNet n k (k.writeNet m v) := by
  have hset : SameNet n k (k.setValue m v) := sameNet_modifyNet k _ hm
  exact hset.trans (.of_calm (wakes_writeNet k m v).toCalm n)

theorem sameNet_push {k : Kernel} {n : NetId} {action : TimedAction} (h : ¬ Owns (.net n) action)
    (time : SimTime) (region : Region) : SameNet n k (k.pushTimedAction time region action) :=
  ⟨rfl, filter_push h⟩

theorem not_owns_of_driver {d : DriverId} {action : TimedAction} (h : OfDriver d action)
    (n : NetId) : ¬ Owns (.net n) action := by
  intro ho
  cases action with
  | netBits m us => exact h
  | _ => exact ho

theorem sameNet_netTouch {n m : NetId} {k k' : Kernel} (h : NetTouch m k k') (hm : m ≠ n) :
    SameNet n k k' := by
  cases h with
  | writeNet v hv => exact sameNet_writeNet k v hm
  | setDelayRequest v generations hv hg => exact sameNet_modifyNet k _ hm
  | @push delayFs action hpos ha =>
    apply sameNet_push
    intro ho
    cases action with
    | netBits m' us => exact hm (Eq.trans (Eq.symm ha) ho)
    | _ => exact ha

theorem sameNet_setDriverRequest (k : Kernel) (d : DriverId) (v : PackedVec)
    (generations : List Generation) (n : NetId) :
    SameNet n k (k.setDriverRequest d v generations) := ⟨rfl, rfl⟩

/-- A driver of another net does nothing to this one. -/
theorem sameNet_touches {d : DriverId} {n m : NetId} {k k' : Kernel} (h : Touches d m k k')
    (hm : m ≠ n) : SameNet n k k' := by
  refine keeps_sequence (SameNet.refl n) SameNet.trans (fun ht => ?_) h
  cases ht with
  | net ht => exact sameNet_netTouch ht hm
  | setDriverValue v hd hv => exact sameNet_modifyNet _ _ fun he => hm (hd.symm.trans he)
  | setDriverRequest v generations hv hg => exact sameNet_setDriverRequest _ _ _ _ _
  | push hpos ha => exact sameNet_push (not_owns_of_driver ha n) _ _

theorem sameNet_pushDelayed {action : List BitDrive → TimedAction} {n : NetId}
    (h : ∀ us, ¬ Owns (.net n) (action us)) (delayed : List (Nat × List BitDrive)) (k : Kernel) :
    SameNet n k (k.pushDelayed action delayed) :=
  keeps_sequence (T := SameNet n) (SameNet.refl n) SameNet.trans id
    (sequence_pushDelayed (fun g _ _ => sameNet_push (h g.2) _ _) k)

/-! ### A new resolved value -/

/-- Resolving a net does not touch what its drivers contribute. -/
theorem driverValues_netTouch {n : NetId} {k k' : Kernel} (h : NetTouch n k k') :
    (k'.net n).driverValues = (k.net n).driverValues := by
  cases h with
  | writeNet v hv =>
    have hsig := congrArg Net.driverValues (signals_writeNet k n n v)
    rw [apply_ite Net.driverValues] at hsig
    simpa [signals] using hsig
  | setDelayRequest v generations hv hg =>
    unfold Kernel.setDelayRequest
    rw [Kernel.net_modifyNet]
    split_ifs <;> rfl
  | push hpos ha => rfl

theorem driverValues_netTouches {n : NetId} {k k' : Kernel} (h : NetTouches n k k') :
    (k'.net n).driverValues = (k.net n).driverValues :=
  keeps_sequence (R := fun k k' => (k'.net n).driverValues = (k.net n).driverValues)
    (fun _ => rfl) (fun h h' => h'.trans h) driverValues_netTouch h

theorem width_netTouches {n : NetId} {k k' : Kernel} (h : NetTouches n k k') :
    (k'.netValue n).width = (k.netValue n).width := by
  refine keeps_sequence (R := fun k k' => (k'.netValue n).width = (k.netValue n).width)
    (fun _ => rfl) (fun h h' => h'.trans h) (fun ht => ?_) h
  cases ht with
  | writeNet v hv =>
    rw [netValue_writeNet]
    split_ifs
    · exact hv
    · rfl
  | setDelayRequest v generations hv hg => rw [netValue_setDelayRequest]
  | push hpos ha => rfl

theorem resolved_netTouches {n : NetId} {k k' : Kernel} (h : NetTouches n k k') :
    k'.resolved n = k.resolved n := by
  have hs : SameWiring k k' := sameWiring_touches (touches_of_net h 0)
  unfold Kernel.resolved
  rw [driverValues_netTouches h, hs.strengths, hs.resolution, width_netTouches h]

section Resolved

variable {k : Kernel} {n : NetId} {w : Nat} {v : PackedVec}

theorem netValue_writeImmediate (hn : n < k.nets.length) {s : Kernel.Transitions}
    (hs : s.hasImmediate = false → s.immediate = k.netValue n) :
    (k.writeImmediate n s).netValue n = s.immediate := by
  unfold Kernel.writeImmediate
  split_ifs with hi
  · rw [netValue_writeNet, if_pos ⟨rfl, hn⟩]
  · exact (hs (Bool.eq_false_iff.mpr hi)).symm

/-- Writing the undelayed bits changes nothing of the stage but its value. -/
theorem writeImmediate_stage (k : Kernel) (n : NetId) (s : Kernel.Transitions) :
    ((k.writeImmediate n s).net n).delayRequest = (k.net n).delayRequest ∧
      ((k.writeImmediate n s).net n).delayGenerations = (k.net n).delayGenerations ∧
      (k.writeImmediate n s).timed = k.timed ∧ (k.writeImmediate n s).time = k.time := by
  unfold Kernel.writeImmediate
  split_ifs
  · have hsig := signals_writeNet k n n s.immediate
    have hw := wakes_writeNet k n s.immediate
    refine ⟨?_, ?_, hw.timed, hw.time⟩
    · have h := congrArg Net.delayRequest hsig
      rw [apply_ite Net.delayRequest] at h
      simpa [signals] using h
    · have h := congrArg Net.delayGenerations hsig
      rw [apply_ite Net.delayGenerations] at h
      simpa [signals] using h
  · exact ⟨rfl, rfl, rfl, rfl⟩

theorem netValue_applyResolvedNet (hn : n < k.nets.length) (hdelay : (k.net n).delay = none)
    (v : PackedVec) : (k.applyResolvedNet n v).netValue n = v := by
  unfold Kernel.applyResolvedNet
  rw [hdelay]
  dsimp only
  rw [netValue_writeNet, if_pos ⟨rfl, hn⟩]

/-- A new resolved value of a delayed net is a request of each of its bits. -/
theorem applyResolvedNet_lines (hn : n < k.nets.length) (hwidth : (k.netValue n).width = w)
    (hlen : (k.net n).delayGenerations.length = w) {delays : NetDelay}
    (hdelay : (k.net n).delay = some delays) (hv : v.width = w)
    (hunused : (k.net n).delayRequest ≠ v → Unused (.net n) k)
    (hcom : ∀ bit < w, Committed (bitLine (.net n) k bit)) :
    ((k.applyResolvedNet n v).net n).delayRequest = v ∧
      ∀ bit < w, bitLine (.net n) (k.applyResolvedNet n v) bit =
        ask saturatingAddFs delays.forTransition k.time (v.getBit bit)
          (bitLine (.net n) k bit) := by
  unfold Kernel.applyResolvedNet
  rw [hdelay]
  dsimp only
  rw [hwidth, PackedVec.resize_of_width_eq hv]
  by_cases hreq : (k.net n).delayRequest = v
  · rw [if_pos (PackedVec.eqCase_iff.mpr hreq)]
    refine ⟨hreq, fun bit hbit => ?_⟩
    symm
    exact if_pos (congrArg (PackedVec.getBit · bit) hreq)
  rw [if_neg fun he => hreq (PackedVec.eqCase_iff.mp he)]
  unfold Kernel.requestNet
  rw [hwidth]
  dsimp only
  have himm := immediate_transitions w (k.net n).delayRequest (k.netValue n) v
    delays.forTransition (k.net n).delayGenerations
  generalize htr : Kernel.transitions w (k.net n).delayRequest (k.netValue n) v
    delays.forTransition (k.net n).delayGenerations = s at himm ⊢
  have hlt : n < (k.setDelayRequest n v s.generations).nets.length := by
    unfold Kernel.setDelayRequest Kernel.modifyNet
    rwa [List.length_modify]
  have hset : (k.setDelayRequest n v s.generations).net n =
      { k.net n with delayRequest := v, delayGenerations := s.generations } := by
    unfold Kernel.setDelayRequest
    rw [Kernel.net_modifyNet, if_pos ⟨rfl, hn⟩]
  have hvalue := netValue_writeImmediate hlt fun hi =>
    (himm hi).trans (netValue_setDelayRequest k n n v s.generations).symm
  obtain ⟨hrequest, hgen, htimed, htime⟩ :=
    writeImmediate_stage (k.setDelayRequest n v s.generations) n s
  rw [hset] at hrequest hgen
  have htimed₁ : (k.setDelayRequest n v s.generations).timed = k.timed := rfl
  have htime₁ : (k.setDelayRequest n v s.generations).time = k.time := rfl
  rw [htimed₁] at htimed
  rw [htime₁] at htime
  generalize (k.setDelayRequest n v s.generations).writeImmediate n s = k₂
    at hvalue hrequest hgen htimed htime ⊢
  have hinFlight (bit : Nat) (γ : Generation) := inFlight_pushDelayed (.net n) bit γ s.delayed k₂
  obtain ⟨timed, seq, hk₃⟩ := pushDelayed_frame (.netBits n) s.delayed k₂
  have hk₃' : k₂.pushDelayed (Stage.action (.net n)) s.delayed = _ := hk₃
  simp only [hk₃'] at hinFlight
  rw [hk₃]
  refine ⟨hrequest, fun bit hbit => ?_⟩
  refine @bitLine_request (.net n) k { k₂ with timed := timed, seq := seq } w v
    delays.forTransition hwidth hlen (hunused hreq) ?_ hrequest ?_ ?_ bit hbit (hcom bit hbit)
  · exact hvalue.trans (congrArg _ htr.symm)
  · exact hgen.trans (congrArg Kernel.Transitions.generations htr.symm)
  · intro b γ
    refine (hinFlight b γ).trans (List.Perm.of_eq ?_)
    rw [htimed, htime]
    exact congrArg (fun s => (List.flatMap _ (Kernel.Transitions.delayed s)) ++ _) htr.symm

end Resolved

/-! ### Drivers of the net -/

/-- The net has taken the resolution of its drivers: at once, or as a request of its bits. -/
structure Resolves (n : NetId) (w : Nat) (k k' : Kernel) : Prop where
  time : k'.time = k.time
  delay : (k'.net n).delay = (k.net n).delay
  plain : (k.net n).delay = none → k'.netValue n = k'.resolved n ∧
    k'.timed.filter (fun ev => Owns (.net n) ev.action) =
      k.timed.filter fun ev => Owns (.net n) ev.action
  delayed : ∀ delays, (k.net n).delay = some delays →
    (k'.net n).delayRequest = k'.resolved n ∧ ∀ bit < w, bitLine (.net n) k' bit =
      ask saturatingAddFs delays.forTransition k.time ((k'.resolved n).getBit bit)
        (bitLine (.net n) k bit)

theorem Resolves.of_same {n : NetId} {w : Nat} {k k₁ k₂ k' : Kernel} (h : Resolves n w k₁ k₂)
    (h₁ : SameNet n k k₁) (ht₁ : k₁.time = k.time) (h₂ : SameNet n k₂ k')
    (ht₂ : k'.time = k₂.time) : Resolves n w k k' := by
  refine ⟨ht₂.trans (h.time.trans ht₁), h₂.delay.trans (h.delay.trans h₁.delay), fun hp => ?_,
    fun delays hd => ?_⟩
  · obtain ⟨hvalue, hwheel⟩ := h.plain (h₁.delay.trans hp)
    rw [h₂.resolved, ← hvalue, h₂.wheel, hwheel, h₁.wheel]
    exact ⟨h₂.stage.value, rfl⟩
  · obtain ⟨hrequest, hbits⟩ := h.delayed delays (h₁.delay.trans hd)
    rw [h₂.resolved, ← hrequest]
    refine ⟨h₂.stage.request, fun bit hbit => ?_⟩
    rw [h₂.stage.bitLine, hbits bit hbit, h₁.stage.bitLine, ht₁, hrequest]

/-- One value of a driver of the net. -/
theorem resolves_applyDrive {k : Kernel} {d : DriverId} {n : NetId} {w : Nat}
    (hn : n < k.nets.length) (hd : (k.driver d).net = n) (hwidth : (k.netValue n).width = w)
    (hlen : (k.net n).delayGenerations.length = w) (hunused : Unused (.net n) k)
    (hcom : ∀ bit < w, Committed (bitLine (.net n) k bit)) (v : PackedVec) :
    Resolves n w k (k.applyDrive d v) := by
  have hset : (k.setDriverValue d (v.resize (k.driverWidth d) false)).net n =
      { k.net n with
        driverValues := (k.net n).driverValues.set (k.driver d).slot
          (v.resize (k.driverWidth d) false) } := by
    unfold Kernel.setDriverValue
    rw [hd, Kernel.net_modifyNet, if_pos ⟨rfl, hn⟩]
  have hlt : n < (k.setDriverValue d (v.resize (k.driverWidth d) false)).nets.length := by
    unfold Kernel.setDriverValue Kernel.modifyNet
    rwa [List.length_modify]
  have htime : (k.setDriverValue d (v.resize (k.driverWidth d) false)).time = k.time := rfl
  have htimed : (k.setDriverValue d (v.resize (k.driverWidth d) false)).timed = k.timed := rfl
  unfold Kernel.applyDrive
  dsimp only
  rw [hd]
  generalize k.setDriverValue d (v.resize (k.driverWidth d) false) = k₁ at hset hlt htime htimed ⊢
  have hview {β : Type} (f : Net → β) (hf : ∀ net values, f { net with driverValues := values } =
      f net) : f (k₁.net n) = f (k.net n) := by
    rw [hset]
    exact hf _ _
  have hstage : SameStage (.net n) k k₁ :=
    ⟨hview Net.value fun _ _ => rfl, hview Net.delayRequest fun _ _ => rfl,
      hview Net.delayGenerations fun _ _ => rfl, rfl, by rw [htimed]⟩
  have hdelay : (k₁.net n).delay = (k.net n).delay := hview Net.delay fun _ _ => rfl
  have hw : (k₁.netValue n).width = w := (congrArg PackedVec.width hstage.value).trans hwidth
  have htouch := touches_applyResolvedNet n k₁ (width_resolved k₁ n)
  have hs : SameWiring k₁ (k₁.applyResolvedNet n (k₁.resolved n)) :=
    sameWiring_touches (touches_of_net htouch 0)
  refine ⟨(time_touches (touches_of_net htouch 0)).trans htime, (hs.delay n).trans hdelay,
    fun hp => ?_, fun delays hsome => ?_⟩
  · have hp₁ : (k₁.net n).delay = none := hdelay.trans hp
    refine ⟨(netValue_applyResolvedNet hlt hp₁ _).trans (resolved_netTouches htouch).symm, ?_⟩
    unfold Kernel.applyResolvedNet
    rw [hp₁]
    dsimp only
    rw [(wakes_writeNet k₁ n _).timed]
    exact hstage.wheel
  · have hunused₁ : Unused (.net n) k₁ := by
      unfold Unused at hunused ⊢
      rw [htimed, hstage.generations]
      exact hunused
    obtain ⟨hrequest, hbits⟩ := applyResolvedNet_lines hlt hw
      ((congrArg List.length hstage.generations).trans hlen) (hdelay.trans hsome)
      ((width_resolved k₁ n).trans hw) (fun _ => hunused₁) fun bit hbit =>
        (hstage.bitLine bit).symm ▸ hcom bit hbit
    rw [resolved_netTouches htouch]
    refine ⟨hrequest, fun bit hbit => ?_⟩
    rw [hbits bit hbit, hstage.bitLine, htime]

/-- A driver of the net has done nothing to it, or has applied one value; `k₁` is the kernel just
before that. -/
inductive Drives (d : DriverId) (n : NetId) (k k' : Kernel) : Prop
  | quiet (h : SameNet n k k')
  | apply (k₁ : Kernel) (v : PackedVec) (hs : SameWiring k k₁) (h₁ : SameNet n k k₁)
      (ht : k₁.time = k.time) (h₂ : SameNet n (k₁.applyDrive d v) k')

theorem drives_driveNet (k : Kernel) (d : DriverId) (n : NetId) (v : PackedVec) :
    Drives d n k (k.driveNet d v) :=
  .apply _ _ (sameWiring_setDriverRequest k d _ _) (sameNet_setDriverRequest k d _ _ n) rfl
    (.refl n _)

theorem drives_scheduleDrive (k : Kernel) (d : DriverId) (n : NetId) (v : PackedVec)
    (delayFs : Nat) : Drives d n k (k.scheduleDrive d v delayFs) := by
  unfold Kernel.scheduleDrive
  dsimp only
  split_ifs
  · exact .quiet (.refl n k)
  · unfold Kernel.startDrive
    split_ifs
    · exact .quiet (sameNet_setDriverRequest k d _ _ n)
    · exact .apply _ _ (sameWiring_setDriverRequest k d _ _) (sameNet_setDriverRequest k d _ _ n)
        rfl (.refl n _)
    · exact .quiet ((sameNet_setDriverRequest k d _ _ n).trans (sameNet_push id _ _))

theorem drives_scheduleDriveTransitions (k : Kernel) (d : DriverId) (n : NetId) (v : PackedVec)
    (delays : DriveDelay) : Drives d n k (k.scheduleDriveTransitions d v delays) := by
  have hpush (s : Kernel.Transitions) (k₁ : Kernel) :
      SameNet n k₁ (k₁.pushDelayed (.driveBits d) s.delayed) :=
    sameNet_pushDelayed (fun _ => id) s.delayed k₁
  unfold Kernel.scheduleDriveTransitions
  dsimp only
  split_ifs
  · exact .quiet (.refl n k)
  · unfold Kernel.requestDriver
    dsimp only
    unfold Kernel.driveImmediate
    split_ifs
    · exact .apply _ _ (sameWiring_setDriverRequest k d _ _) (sameNet_setDriverRequest k d _ _ n)
        rfl (hpush _ _)
    · exact .quiet ((sameNet_setDriverRequest k d _ _ n).trans (hpush _ _))

theorem drives_call {k : Kernel} {c : Call} {d : DriverId} {m : NetId}
    (hc : Call.target k c = some (d, m)) (n : NetId) : Drives d n k (c.exec k) := by
  cases c with
  | driveNet d' v =>
    obtain rfl : d' = d := (Prod.mk.inj (Option.some.inj hc)).1
    exact drives_driveNet k d' n v
  | scheduleDrive d' v delayFs =>
    obtain rfl : d' = d := (Prod.mk.inj (Option.some.inj hc)).1
    exact drives_scheduleDrive k d' n v delayFs
  | scheduleDriveTransitions d' v delays =>
    obtain rfl : d' = d := (Prod.mk.inj (Option.some.inj hc)).1
    exact drives_scheduleDriveTransitions k d' n v delays
  | _ => simp [Call.target] at hc

/-! ### Steps -/

/-- Net `n` is made with `w` high-impedance bits and from then on written through its drivers
only. -/
def DrivenOnly (n : NetId) (w : Nat) (k : Kernel) : Label → Prop
  | .call (.newNet initial _ _) => k.nets.length = n → initial = .z w
  | .call (.writeNet m _) | .call (.scheduleNba m _) => m ≠ n
  | _ => True

instance (n : NetId) (w : Nat) (k : Kernel) : (l : Label) → Decidable (DrivenOnly n w k l)
  | .call (.newNet initial _ _) =>
    inferInstanceAs (Decidable (k.nets.length = n → initial = .z w))
  | .call (.writeNet m _) | .call (.scheduleNba m _) => inferInstanceAs (Decidable (m ≠ n))
  | .call (.newDriver _ _ _) | .call (.driveNet _ _) | .call (.scheduleDrive _ _ _)
  | .call (.scheduleDriveTransitions _ _ _) | .call .requestStop | .call .notifyRuntimeChange
  | .call (.triggerEvent _) | .addProcess | .runUntil _ | .resume | .suspend _ | .promote
  | .drainNba | .advance | .dispatch | .settle => .isTrue trivial

theorem DrivenOnly.steady {n : NetId} {w : Nat} {k : Kernel} {l : Label}
    (h : DrivenOnly n w k l) : Steady n w k l := by
  cases l with
  | call c => cases c with
    | newNet initial resolution delay =>
      exact fun hn => (congrArg PackedVec.width (h hn)).trans (PackedVec.width_z w)
    | writeNet m v => exact fun hm => absurd hm h
    | scheduleNba m v => exact fun hm => absurd hm h
    | _ => trivial
  | _ => trivial

/-- What a step can do to a net that is written through its drivers only. -/
inductive NetEffect (n : NetId) (w : Nat) (k k' : Kernel) : Prop
  | same (ht : k'.time = k.time) (hstage : SameStage (.net n) k k')
      (hresolved : k'.resolved n = k.resolved n) (hdelay : (k'.net n).delay = (k.net n).delay)
  | resolve (h : Resolves n w k k')
  | advance (t : SimTime) (h : k' = { k.discardStaleTimedActions with time := t })
  | fire (ev : TimedEvent) (rest : List TimedEvent) (ht : k.timed = ev :: rest)
      (hd : ev.time = k.time) (ho : OfNet n ev.action)
      (h : k' = { k with timed := rest }.dispatchEvent ev)

section Effect

variable {n : NetId} {w : Nat} {k k' : Kernel}

theorem NetEffect.of_same (h : SameNet n k k') (ht : k'.time = k.time) : NetEffect n w k k' :=
  .same ht h.stage h.resolved h.delay

/-- Nothing has become due again on a wheel that still shows the same. -/
theorem unused_of_same {st : Stage} (h : SameStage st k k') (hunused : Unused st k) :
    Unused st k' := by
  intro ev hev u hu
  rw [h.generations]
  by_cases ho : Owns st ev.action
  · have hmem : ev ∈ k'.timed.filter fun ev => Owns st ev.action :=
      List.mem_filter.mpr ⟨hev, decide_eq_true ho⟩
    rw [h.wheel] at hmem
    exact hunused ev (List.mem_filter.mp hmem).1 u hu
  · rw [updates_of_not_owns ho] at hu
    exact absurd hu List.not_mem_nil

/-- A driver of the net, seen from before the step. -/
theorem effect_of_drives {k₁ : Kernel} {d : DriverId} (hn : n < k.nets.length) (hs : Shape n w k)
    (hunused : Unused (.net n) k) (hcom : ∀ bit < w, Committed (bitLine (.net n) k bit))
    (h₁ : SameNet n k k₁) (hnets : k₁.nets.length = k.nets.length) (ht₁ : k₁.time = k.time)
    (hd : (k₁.driver d).net = n) (v : PackedVec) (h₂ : SameNet n (k₁.applyDrive d v) k')
    (ht₂ : k'.time = (k₁.applyDrive d v).time) : NetEffect n w k k' := by
  have hresolves := resolves_applyDrive (hnets.symm ▸ hn) hd
    ((congrArg PackedVec.width h₁.stage.value).trans (hs.value hn))
    ((congrArg List.length h₁.stage.generations).trans (hs.generations hn))
    (unused_of_same h₁.stage hunused)
    (fun bit hbit => (h₁.stage.bitLine bit).symm ▸ hcom bit hbit) v
  exact .resolve (hresolves.of_same h₁ ht₁ h₂ ht₂)

theorem effect_of_newDriver (hk : Wired k) {m : NetId} (hm : m < k.nets.length)
    (zero one : DriveStrength) (hw : ∀ i < (k.netValue n).width,
      PackedVec.getBit (.z (k.netValue n).width) i = .z) :
    NetEffect n w k (k.newDriverWithStrengths m zero one) := by
  have hnet : (k.newDriverWithStrengths m zero one).net n = (k.addDriverSlot m zero one).net n :=
    rfl
  by_cases hmn : m = n
  · subst hmn
    have hslot := (net_addDriverSlot k m m zero one).trans (if_pos ⟨rfl, hm⟩)
    have hview {β : Type} (f : Net → β) (hf : ∀ net values strengths,
        f { net with driverValues := values, driverStrengths := strengths } = f net) :
        f ((k.newDriverWithStrengths m zero one).net m) = f (k.net m) := by
      rw [hnet, hslot]
      exact hf _ _ _
    have hvalue : (k.newDriverWithStrengths m zero one).netValue m = k.netValue m :=
      hview Net.value fun _ _ _ => rfl
    refine .same rfl ⟨hvalue, hview Net.delayRequest fun _ _ _ => rfl,
      hview Net.delayGenerations fun _ _ _ => rfl, rfl, rfl⟩ ?_ (hview Net.delay fun _ _ _ => rfl)
    unfold Kernel.resolved
    rw [hvalue, hview Net.resolution fun _ _ _ => rfl, hnet, hslot]
    dsimp only
    rw [resolveDrivers_eq_iff]
    exact fun i hi => resolveBit_append_z (hk.strengths m) (hw i hi) _ _
  · refine .of_same ⟨?_, rfl⟩ rfl
    rw [hnet, net_addDriverSlot, if_neg fun hc => hmn hc.1.symm]

theorem sameNet_drainNba (hnba : ∀ u ∈ k.nba, u.1 ≠ n) : SameNet n k k.drainNba :=
  drainNba_keeps (SameNet.refl n) SameNet.trans ⟨rfl, rfl⟩
    (fun u hu k₁ => sameNet_writeNet k₁ u.2 (hnba u hu)) fun _ => ⟨rfl, rfl⟩

theorem effect_of_dispatch (hs : Shape n w k) (hn : n < k.nets.length)
    (hunused : Unused (.net n) k) (hcom : ∀ bit < w, Committed (bitLine (.net n) k bit))
    {ev : TimedEvent} {rest : List TimedEvent} (ht : k.timed = ev :: rest)
    (hdue : ev.time = k.time) :
    NetEffect n w k ({ k with timed := rest }.dispatchEvent ev) := by
  have hpop (ho : ¬ Owns (.net n) ev.action) : SameNet n k { k with timed := rest } := by
    refine ⟨rfl, ?_⟩
    rw [ht, List.filter_cons]
    simp only [ho, decide_false, Bool.false_eq_true, if_false]
  have drives (d : DriverId) (v : PackedVec) (ho : ¬ Owns (.net n) ev.action) :
      NetEffect n w k ({ k with timed := rest }.applyDrive d v) := by
    have htouch := touches_applyDrive { k with timed := rest } d v
    by_cases hd : (k.driver d).net = n
    · exact effect_of_drives hn hs hunused hcom (hpop ho) rfl rfl hd v (.refl _ _) rfl
    · have htime := @time_touches _ _ { k with timed := rest } _ htouch
      exact .of_same ((hpop ho).trans (sameNet_touches htouch hd)) htime
  unfold Kernel.dispatchEvent
  cases ha : ev.action with
  | resume p =>
    have hsame := hpop (ha ▸ id)
    dsimp only
    split
    · exact .of_same ⟨hsame.net, hsame.wheel⟩ rfl
    · exact .of_same ⟨hsame.net, hsame.wheel⟩ rfl
  | drive d v generation =>
    dsimp only
    split_ifs
    · exact drives d v (ha ▸ id)
    · exact .of_same (hpop (ha ▸ id)) rfl
  | driveBits d us =>
    dsimp only
    split_ifs
    · exact drives d _ (ha ▸ id)
    · exact .of_same (hpop (ha ▸ id)) rfl
  | netBits m us =>
    by_cases hm : m = n
    · refine .fire ev rest ht hdue ?_ ?_
      · rw [ha]
        exact hm
      · unfold Kernel.dispatchEvent
        rw [ha]
    · have ho : ¬ Owns (.net n) ev.action := fun ho => hm (by rwa [ha] at ho)
      dsimp only
      split_ifs
      · exact .of_same ((hpop ho).trans (sameNet_writeNet _ _ hm)) (wakes_writeNet _ m _).time
      · exact .of_same (hpop ho) rfl

theorem netEffect_of_effect {l : Label} (he : Effect l k k') (hk : Wired k) (hs : Shape n w k)
    (hn : n < k.nets.length) (hl : DrivenOnly n w k l) (hnba : ∀ u ∈ k.nba, u.1 ≠ n)
    (hunused : Unused (.net n) k) (hcom : ∀ bit < w, Committed (bitLine (.net n) k bit)) :
    NetEffect n w k k' := by
  cases he with
  | calm hc hnba' => exact .of_same (.of_calm hc n) hc.time
  | @delayed _ k₁ fs pid hc =>
    exact .of_same ((SameNet.of_calm hc.toCalm n).trans (sameNet_push id _ _)) hc.time
  | newNet initial resolution delay =>
    refine .of_same ⟨?_, rfl⟩ rfl
    rw [net_newNet, if_neg (Nat.ne_of_lt hn)]
  | newDriver hm hw =>
    exact effect_of_newDriver hk hm _ _ fun i hi => by rw [PackedVec.getBit_z, if_pos hi]
  | @drive _ c d m hc hd =>
    have htime : (c.exec k).time = k.time := time_touches (touches_call hc)
    by_cases hm : m = n
    · subst hm
      cases drives_call hc m with
      | quiet h => exact .of_same h htime
      | apply k₁ v hsw h₁ ht h₂ =>
        have happly : (k₁.applyDrive d v).time = k₁.time := time_touches (touches_applyDrive k₁ d v)
        exact effect_of_drives hn hs hunused hcom h₁ hsw.nets ht
          ((hsw.net d).trans (target_spec hc))
          v h₂ (htime.trans (ht.symm.trans happly.symm))
    · exact .of_same (sameNet_touches (touches_call hc) hm) htime
  | write hm => exact .of_same (sameNet_writeNet k _ hl) (wakes_writeNet k _ _).time
  | drain => exact .of_same (sameNet_drainNba hnba) (time_drainNba k)
  | advance => exact .advance _ rfl
  | dispatch ht hd => exact effect_of_dispatch hs hn hunused hcom ht hd

/-- A due event of the net: a bit stays as it is or reaches its request. -/
structure Fires (n : NetId) (w : Nat) (k k' : Kernel) : Prop where
  time : k'.time = k.time
  delay : (k'.net n).delay = (k.net n).delay
  resolved : k'.resolved n = k.resolved n
  request : (k'.net n).delayRequest = (k.net n).delayRequest
  bits : ∀ bit < w, bitLine (.net n) k' bit = bitLine (.net n) k bit ∨
    bitLine (.net n) k' bit = fire (· ≤ k.time) (bitLine (.net n) k bit)

theorem fires_dispatch (hn : n < k.nets.length) (hwidth : (k.netValue n).width = w)
    (hcom : ∀ bit < w, Committed (bitLine (.net n) k bit)) {ev : TimedEvent}
    {rest : List TimedEvent} (ht : k.timed = ev :: rest) (hdue : ev.time = k.time)
    (ho : OfNet n ev.action) : Fires n w k ({ k with timed := rest }.dispatchEvent ev) := by
  unfold Kernel.dispatchEvent
  cases ha : ev.action with
  | netBits m us =>
    rw [ha] at ho
    obtain rfl : m = n := ho
    have hus : Stage.updates (.net m) ev.action = us := by
      rw [ha]
      exact if_pos rfl
    dsimp only
    split_ifs with hl
    · have hlw := width_liveUpdates (k.net m).delayGenerations (k.netValue m) us
      have hvalue := netValue_writeNet { k with timed := rest } m m
        (Kernel.liveUpdates (k.net m).delayGenerations (k.netValue m) us).1
      rw [if_pos ⟨rfl, hn⟩] at hvalue
      have hsig := signals_writeNet { k with timed := rest } m m
        (Kernel.liveUpdates (k.net m).delayGenerations (k.netValue m) us).1
      rw [if_pos ⟨rfl, hn⟩] at hsig
      have hw := wakes_writeNet { k with timed := rest } m
        (Kernel.liveUpdates (k.net m).delayGenerations (k.netValue m) us).1
      have hwiring := sameWiring_writeNet { k with timed := rest } m
        (Kernel.liveUpdates (k.net m).delayGenerations (k.netValue m) us).1
      have hresolved :=
        @resolved_netTouches m { k with timed := rest } _ (.single (.writeNet _ hlw))
      have hrequest := congrArg Net.delayRequest hsig
      have hgen := congrArg Net.delayGenerations hsig
      refine ⟨hw.time, hwiring.delay m, hresolved, hrequest, fun bit hbit => ?_⟩
      refine @bitLine_dispatch (.net m) k _ ev rest ht hdue ?_ hrequest hgen (fun b γ => ?_) bit
        (hwidth.symm ▸ hbit) (hcom bit hbit)
      · rw [hus]
        exact hvalue
      · rw [hw.timed]
        rfl
    · refine ⟨rfl, rfl, rfl, rfl, fun bit hbit => .inl ?_⟩
      refine @bitLine_dispatch_stale (.net m) k { k with timed := rest } ev rest ht ?_ rfl rfl rfl
        rfl bit
      intro b
      have hdead := ((liveUpdates_spec (k.net m).delayGenerations us (hwidth.symm ▸ hbit)).2
        (Bool.eq_false_iff.mpr hl)).2 b
      rw [hus, carrying_time]
      exact List.map_eq_nil_iff.mpr hdead
  | _ =>
    rw [ha] at ho
    exact absurd ho id

end Effect

end Eevee.Sched.NetLines
