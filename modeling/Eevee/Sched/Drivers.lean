/- What each step does to one driver: its bits and its whole-vector drives. -/

import Mathlib.Data.List.Basic
import Mathlib.Tactic.Common
import Mathlib.Tactic.SplitIfs
import Eevee.Sched.Stages

set_option autoImplicit false
set_option relaxedAutoImplicit false

namespace Eevee.Sched.Drivers

open Eevee.Core.Logic
open Eevee.Lib.InertialLine
open Eevee.Sched.Frames
open Eevee.Sched.Layout
open Eevee.Sched.Nets
open Eevee.Sched.Scheduler
open Eevee.Sched.Simulation
open Eevee.Sched.Stages

/-- The whole-vector drive of one driver that an event holds, if it carries the generation. -/
def driveOf (d : DriverId) (generation : Generation) (ev : TimedEvent) :
    List (SimTime × PackedVec) :=
  match ev.action with
  | .drive d' v g => if d' = d ∧ g = generation then [(ev.time, v)] else []
  | _ => []

/-- The driver as one line of vectors, with its live whole-vector drives. -/
def driveLine (d : DriverId) (k : Kernel) : Line PackedVec where
  value := k.driverValue d
  request := k.driverRequest d
  pending := k.timed.flatMap (driveOf d (k.driver d).generation)

/-- No drive on the wheel carries the next generation of the driver. -/
def UnusedWhole (d : DriverId) (k : Kernel) : Prop :=
  ∀ ev ∈ k.timed, driveOf d ((k.driver d).generation + 1) ev = []

instance (d : DriverId) (k : Kernel) : Decidable (UnusedWhole d k) := by
  unfold UnusedWhole
  infer_instance

theorem driveOf_of_not_owns {d : DriverId} {generation : Generation} {ev : TimedEvent}
    (h : ¬ Owns (.driver d) ev.action) : driveOf d generation ev = [] := by
  unfold driveOf
  cases ha : ev.action with
  | drive d' v g =>
    rw [ha] at h
    exact if_neg fun hc => h hc.1
  | _ => rfl

theorem driveLine_of_same {d : DriverId} {k k' : Kernel} (h : SameStage (.driver d) k k') :
    driveLine d k' = driveLine d k := by
  have hwhole : (k'.driver d).generation = (k.driver d).generation := h.whole
  apply Line.ext
  · exact h.value
  · exact h.request
  · show k'.timed.flatMap _ = k.timed.flatMap _
    rw [hwhole]
    exact h.flatMap fun ev ho => driveOf_of_not_owns ho

theorem driveLine_discard (d : DriverId) (k : Kernel) (t : SimTime) :
    driveLine d { k.discardStaleTimedActions with time := t } = driveLine d k := by
  refine Line.ext rfl rfl (flatMap_discard _ k fun ev hs => ?_)
  unfold driveOf
  unfold Kernel.staleAction at hs
  cases ha : ev.action with
  | drive d' v g =>
    rw [ha] at hs
    apply if_neg
    rintro ⟨rfl, hg⟩
    exact (of_decide_eq_true hs) hg.symm
  | _ => rfl

/-! ### Steps that concern the driver -/

/-- A step either leaves the driver alone, requests something of it, lets time pass or performs
an event of it. -/
inductive DriverEffect (d : DriverId) : Label → Kernel → Kernel → Prop
  | same {l : Label} {k k' : Kernel} (h : SameStage (.driver d) k k') (ht : k'.time = k.time) :
      DriverEffect d l k k'
  | drive {k : Kernel} {c : Call} {n : NetId} (hc : Call.target k c = some (d, n)) :
      DriverEffect d (.call c) k (c.exec k)
  | advance {k : Kernel} {t : SimTime} :
      DriverEffect d .advance k { k.discardStaleTimedActions with time := t }
  | dispatch {k : Kernel} {ev : TimedEvent} {rest : List TimedEvent} (ht : k.timed = ev :: rest)
      (hd : ev.time = k.time) (ho : OfDriver d ev.action) :
      DriverEffect d .dispatch k ({ k with timed := rest }.dispatchEvent ev)

theorem time_touches {d : DriverId} {n : NetId} {k k' : Kernel} (h : Touches d n k k') :
    k'.time = k.time := by
  refine keeps_sequence (R := fun k k' => k'.time = k.time) (fun _ => rfl)
    (fun h h' => h'.trans h) (fun ht => ?_) h
  cases ht with
  | net ht => cases ht with
    | writeNet v hv => exact (wakes_writeNet _ n v).time
    | _ => rfl
  | _ => rfl

theorem sameStage_drainNba (d : DriverId) (k : Kernel) :
    SameStage (.driver d) k k.drainNba := by
  have tables (k k' : Kernel) (hk : Calm k k') : SameStage (.driver d) k k' := .of_calm hk _
  apply drainNba_keeps (SameStage.refl _) SameStage.trans
  · exact tables _ _ ⟨rfl, rfl, fun _ => rfl, rfl, rfl, rfl, rfl, rfl⟩
  · exact fun u _ k₁ => sameStage_writeNet k₁ u.2 (by simp)
  · exact fun k₁ => tables _ _ ⟨rfl, rfl, fun _ => rfl, rfl, rfl, rfl, rfl, rfl⟩

theorem time_drainNba (k : Kernel) : k.drainNba.time = k.time :=
  drainNba_keeps (R := fun k k' => k'.time = k.time) (fun _ => rfl) (fun h h' => h'.trans h) rfl
    (fun u _ k₁ => (wakes_writeNet k₁ u.1 u.2).time) fun _ => rfl

theorem sameStage_newNet {k : Kernel} (hk : Wired k) {d : DriverId} (hd : d < k.drivers.length)
    (initial : PackedVec) (resolution : NetResolution) (delay : Option NetDelay) :
    SameStage (.driver d) k (k.newNetWithResolutionAndDelay initial resolution delay) := by
  refine ⟨driverValue_of_net rfl ?_, rfl, rfl, rfl, rfl⟩
  rw [net_newNet, if_neg (Nat.ne_of_lt (hk.net_lt d hd))]

theorem sameStage_newDriver {k : Kernel} (hk : Wired k) {d : DriverId} (hd : d < k.drivers.length)
    (n : NetId) (zero one : DriveStrength) :
    SameStage (.driver d) k (k.newDriverWithStrengths n zero one) := by
  have hdriver : (k.newDriverWithStrengths n zero one).driver d = k.driver d := by
    rw [driver_newDriver, if_neg (Nat.ne_of_lt hd)]
  refine ⟨?_, ?_, ?_, ?_, rfl⟩
  · show (k.newDriverWithStrengths n zero one).driverValue d = k.driverValue d
    unfold Kernel.driverValue
    rw [hdriver]
    show ((k.addDriverSlot n zero one).net _).driverValues.getD _ _ = _
    rw [net_addDriverSlot]
    split_ifs
    · have hslot := hk.slot_lt d hd
      simp [List.getD_eq_getElem?_getD, List.getElem?_append_left hslot]
    · rfl
  · show (k.newDriverWithStrengths n zero one).driverRequest d = k.driverRequest d
    unfold Kernel.driverRequest Kernel.newDriverWithStrengths
    simp only [List.getD_eq_getElem?_getD]
    rw [List.getElem?_append_left (hk.requests.symm ▸ hd)]
  · show (k.newDriverWithStrengths n zero one).bitGenerations d = k.bitGenerations d
    unfold Kernel.bitGenerations Kernel.newDriverWithStrengths
    simp only [List.getD_eq_getElem?_getD]
    rw [List.getElem?_append_left (hk.generations.symm ▸ hd)]
  · show ((k.newDriverWithStrengths n zero one).driver d).generation = _
    rw [hdriver]
    rfl

/-- An event of another owner. -/
theorem sameStage_dispatch {k : Kernel} (hk : Wired k) {d : DriverId} (hd : d < k.drivers.length)
    {ev : TimedEvent} {rest : List TimedEvent} (ht : k.timed = ev :: rest)
    (ho : ¬ OfDriver d ev.action) :
    SameStage (.driver d) k ({ k with timed := rest }.dispatchEvent ev) ∧
      ({ k with timed := rest }.dispatchEvent ev).time = k.time := by
  have hpop : SameStage (.driver d) k { k with timed := rest } := by
    refine ⟨rfl, rfl, rfl, rfl, ?_⟩
    have hnot : ¬ Owns (.driver d) ev.action := ho
    rw [ht, List.filter_cons]
    simp only [hnot, decide_false, Bool.false_eq_true, if_false]
  have hrest : Wired { k with timed := rest } :=
    hk.timed (fun ev' hev => ht ▸ List.mem_cons_of_mem _ hev) k.time
  have haims : Aims k ev.action := hk.aims ev (ht ▸ List.mem_cons_self)
  have htouched {d' : DriverId} {n : NetId} {k' : Kernel}
      (htouch : Touches d' n { k with timed := rest } k') : k'.time = k.time :=
    @time_touches _ _ { k with timed := rest } _ htouch
  unfold Kernel.dispatchEvent
  cases ha : ev.action with
  | resume p =>
    dsimp only
    split
    · exact ⟨hpop.trans ⟨rfl, rfl, rfl, rfl, rfl⟩, rfl⟩
    · exact ⟨hpop.trans ⟨rfl, rfl, rfl, rfl, rfl⟩, rfl⟩
  | drive d' v generation =>
    rw [ha] at ho haims
    dsimp only
    split_ifs
    · have htouch := touches_applyDrive { k with timed := rest } d' v
      refine ⟨hpop.trans (sameStage_touches htouch hrest haims (hrest.net_lt d' haims) (by simp)
        ?_ ?_), htouched htouch⟩
      · exact fun he => ho (Stage.driver.inj he).symm
      · rintro d'' he
        exact Stage.driver.inj he ▸ hd
    · exact ⟨hpop, rfl⟩
  | driveBits d' us =>
    rw [ha] at ho haims
    dsimp only
    split_ifs
    · have htouch := touches_applyDrive { k with timed := rest } d' (Kernel.liveUpdates
        ({ k with timed := rest }.bitGenerations d') ({ k with timed := rest }.driverValue d') us).1
      refine ⟨hpop.trans (sameStage_touches htouch hrest haims (hrest.net_lt d' haims) (by simp)
        ?_ ?_), htouched htouch⟩
      · exact fun he => ho (Stage.driver.inj he).symm
      · rintro d'' he
        exact Stage.driver.inj he ▸ hd
    · exact ⟨hpop, rfl⟩
  | netBits n us =>
    dsimp only
    split_ifs
    · exact ⟨hpop.trans (sameStage_writeNet _ _ (by simp)), (wakes_writeNet _ n _).time⟩
    · exact ⟨hpop, rfl⟩

theorem driverEffect_of_effect {l : Label} {k k' : Kernel} (he : Effect l k k') (hk : Wired k)
    {d : DriverId} (hd : d < k.drivers.length) : DriverEffect d l k k' := by
  cases he with
  | calm hc hn => exact .same (.of_calm hc _) hc.time
  | @delayed _ k₁ fs pid hw =>
    refine .same ((SameStage.of_calm hw.toCalm _).trans ?_) hw.time
    exact ⟨rfl, rfl, rfl, rfl, filter_push id⟩
  | newNet initial resolution delay => exact .same (sameStage_newNet hk hd _ _ _) rfl
  | newDriver hn hw => exact .same (sameStage_newDriver hk hd _ _ _) rfl
  | @drive _ c d' n hc hd' =>
    by_cases hdd : d' = d
    · subst hdd
      exact .drive hc
    · have htouch := touches_call hc
      refine .same (sameStage_touches htouch hk hd' (target_spec hc ▸ hk.net_lt d' hd') (by simp)
        ?_ ?_) (time_touches htouch)
      · exact fun he => hdd (Stage.driver.inj he).symm
      · rintro d'' he
        exact Stage.driver.inj he ▸ hd
  | write hn => exact .same (sameStage_writeNet k _ (by simp)) (wakes_writeNet k _ _).time
  | drain => exact .same (sameStage_drainNba d k) (time_drainNba k)
  | advance => exact .advance
  | @dispatch _ ev rest ht hdue =>
    by_cases ho : OfDriver d ev.action
    · exact .dispatch ht hdue ho
    · obtain ⟨hs, htime⟩ := sameStage_dispatch hk hd ht ho
      exact .same hs htime

/-! ### Requests -/

/-- The driver takes a value; its request and its pending actions stay. -/
structure Sets (d : DriverId) (v : PackedVec) (k k' : Kernel) : Prop where
  value : k'.driverValue d = v
  request : k'.driverRequest d = k.driverRequest d
  generations : k'.bitGenerations d = k.bitGenerations d
  whole : (k'.driver d).generation = (k.driver d).generation
  wheel : k'.timed.filter (fun ev => Owns (.driver d) ev.action) =
    k.timed.filter fun ev => Owns (.driver d) ev.action

theorem sets_applyDrive {k : Kernel} (hk : Wired k) {d : DriverId} (hd : d < k.drivers.length)
    (v : PackedVec) : Sets d (v.resize (k.driverWidth d) false) k (k.applyDrive d v) := by
  have hset := driverValue_setDriverValue hk (v.resize (k.driverWidth d) false) hd hd
  have htouch := touches_applyResolvedNet (k.driver d).net
    (k.setDriverValue d (v.resize (k.driverWidth d) false)) (width_resolved _ _)
  have hne : Stage.driver d ≠ .net (k.driver d).net := by simp
  have hnet := sameStage_netTouches htouch hne
  rw [if_pos rfl] at hset
  exact ⟨hnet.value.trans hset, hnet.request, hnet.generations, hnet.whole, hnet.wheel⟩

/-- The driver after a new request has been recorded. -/
theorem setDriverRequest_own {k : Kernel} (hk : Wired k) {d : DriverId}
    (hd : d < k.drivers.length) (v : PackedVec) (generations : List Generation) :
    (k.setDriverRequest d v generations).driverValue d = k.driverValue d ∧
      (k.setDriverRequest d v generations).driverRequest d = v ∧
      (k.setDriverRequest d v generations).bitGenerations d = generations ∧
      ((k.setDriverRequest d v generations).driver d).generation = (k.driver d).generation + 1 ∧
      (k.setDriverRequest d v generations).driverWidth d = k.driverWidth d := by
  have hs := sameWiring_setDriverRequest k d v generations
  refine ⟨?_, ?_, ?_, ?_, ?_⟩
  · unfold Kernel.driverValue
    rw [hs.net, hs.slot]
    rfl
  · rw [driverRequest_setDriverRequest, if_pos ⟨rfl, hk.requests ▸ hd⟩]
  · rw [bitGenerations_setDriverRequest, if_pos ⟨rfl, hk.generations ▸ hd⟩]
  · rw [driver_setDriverRequest, if_pos ⟨rfl, hd⟩]
  · unfold Kernel.driverWidth
    rw [hs.net]
    rfl

theorem wired_setDriverRequest {k : Kernel} (hk : Wired k) (d : DriverId) (v : PackedVec)
    (generations : List Generation) : Wired (k.setDriverRequest d v generations) :=
  hk.of_same (sameWiring_setDriverRequest k d v generations) fun ev hev =>
    (sameWiring_setDriverRequest k d v generations).aims (hk.aims ev hev)

section Requested

variable {k : Kernel} {d : DriverId} {n : NetId} {w : Nat}

theorem driveLine_setDriverRequest (hk : Wired k) (hd : d < k.drivers.length)
    (hunused : UnusedWhole d k) (v : PackedVec) (generations : List Generation) :
    driveLine d (k.setDriverRequest d v generations) = ⟨k.driverValue d, v, []⟩ := by
  obtain ⟨hvalue, hrequest, -, hwhole, -⟩ := setDriverRequest_own hk hd v generations
  apply Line.ext
  · exact hvalue
  · exact hrequest
  · show k.timed.flatMap (driveOf d _) = []
    rw [hwhole, List.flatMap_eq_nil_iff]
    exact hunused

theorem bitLine_supersede (hk : Wired k) (hd : d < k.drivers.length)
    (hlen : (k.bitGenerations d).length = w) (hunused : Unused (.driver d) k) (v : PackedVec)
    {bit : Nat} (hbit : bit < w) : bitLine (.driver d) (k.supersede d v) bit =
      ⟨(k.driverValue d).getBit bit, v.getBit bit, []⟩ := by
  obtain ⟨hvalue, hrequest, hgen, -, -⟩ :=
    setDriverRequest_own hk hd v ((k.bitGenerations d).map (· + 1))
  have hnext : ((k.bitGenerations d).map (· + 1)).getD bit 0 =
      (k.bitGenerations d).getD bit 0 + 1 := by
    simp [List.getD_eq_getElem?_getD, hlen ▸ hbit]
  apply Line.ext
  · exact congrArg (PackedVec.getBit · bit) hvalue
  · exact congrArg (PackedVec.getBit · bit) hrequest
  · show inFlight (.driver d) bit (((k.supersede d v).bitGenerations d).getD bit 0) k.timed = []
    unfold Kernel.supersede
    rw [hgen, hnext]
    unfold inFlight carrying
    simp only [List.flatMap_eq_nil_iff, List.map_eq_nil_iff, List.filter_eq_nil_iff,
      decide_eq_true_eq]
    rintro ev hev u hu ⟨rfl, hug⟩
    exact hunused ev hev u hu hug

theorem Sets.flatMap {β : Type} {k' : Kernel} {v : PackedVec} (h : Sets d v k k')
    {f : TimedEvent → List β} (hf : ∀ ev, ¬ Owns (.driver d) ev.action → f ev = []) :
    k'.timed.flatMap f = k.timed.flatMap f := by
  rw [flatMap_of_owns hf, h.wheel, ← flatMap_of_owns hf]

theorem Sets.inFlight {k' : Kernel} {v : PackedVec} (h : Sets d v k k') (bit : Nat)
    (γ : Generation) :
    inFlight (.driver d) bit γ k'.timed = Stages.inFlight (.driver d) bit γ k.timed := by
  apply h.flatMap
  intro ev ho
  rw [updates_of_not_owns ho]
  rfl

theorem Sets.bitLine {k' : Kernel} {v : PackedVec} (h : Sets d v k k') (bit : Nat) :
    bitLine (.driver d) k' bit = ⟨v.getBit bit, (Stages.bitLine (.driver d) k bit).request,
      (Stages.bitLine (.driver d) k bit).pending⟩ := by
  apply Line.ext
  · exact congrArg (PackedVec.getBit · bit) h.value
  · exact congrArg (PackedVec.getBit · bit) h.request
  · show Stages.inFlight (.driver d) bit ((k'.bitGenerations d).getD bit 0) k'.timed = _
    rw [h.generations, h.inFlight]
    rfl

theorem Sets.driveLine {k' : Kernel} {v : PackedVec} (h : Sets d v k k') :
    driveLine d k' = ⟨v, (Drivers.driveLine d k).request, (Drivers.driveLine d k).pending⟩ := by
  apply Line.ext
  · exact h.value
  · exact h.request
  · show k'.timed.flatMap (driveOf d _) = k.timed.flatMap (driveOf d _)
    rw [h.whole]
    exact h.flatMap fun ev ho => driveOf_of_not_owns ho

theorem driveLine_pushDrive {value v : PackedVec} (h : driveLine d k = ⟨value, v, []⟩)
    (t : SimTime) :
    driveLine d (k.pushTimedAction t .active (.drive d v (k.driver d).generation)) =
      ⟨value, v, [(t, v)]⟩ := by
  have hvalue : k.driverValue d = value := congrArg Line.value h
  have hrequest : k.driverRequest d = v := congrArg Line.request h
  apply Line.ext
  · exact hvalue
  · exact hrequest
  · have hpush := flatMap_push (driveOf d (k.driver d).generation) k t .active
      (.drive d v (k.driver d).generation)
    have hold : k.timed.flatMap (driveOf d (k.driver d).generation) = [] :=
      congrArg Line.pending h
    have hone (seq : Nat) : driveOf d (k.driver d).generation
        ⟨t, .active, seq, .drive d v (k.driver d).generation⟩ = [(t, v)] := if_pos ⟨rfl, rfl⟩
    rw [hold, List.append_nil, hone] at hpush
    exact List.perm_singleton.mp hpush

theorem bitLine_pushDrive (k : Kernel) (d : DriverId) (v : PackedVec) (t : SimTime) (bit : Nat) :
    bitLine (.driver d) (k.pushTimedAction t .active (.drive d v (k.driver d).generation)) bit =
      bitLine (.driver d) k bit := by
  apply Line.ext
  · rfl
  · rfl
  · exact flatMap_push_nil _ _ _ _ _ rfl

/-! ### The three requests -/

variable (hk : Wired k) (hd : d < k.drivers.length) (hn : (k.driver d).net = n)
  (hs : Shape n w k)

include hk hd hn hs

theorem driverWidth_of_shape : k.driverWidth d = w := by
  unfold Kernel.driverWidth
  rw [hn]
  exact hs.value (hn ▸ hk.net_lt d hd)

theorem width_driverValue : (k.driverValue d).width = w := by
  apply hs.driverValues
  unfold Kernel.driverValue
  have hslot := hk.slot_lt d hd
  rw [List.getD_eq_getElem?_getD, List.getElem?_eq_getElem hslot, Option.getD_some, ← hn]
  exact List.getElem_mem hslot

/-- The value of the driver after a request of `v` has taken effect at once. -/
theorem sets_supersede_applyDrive (v : PackedVec) (generations : List Generation) :
    Sets d (v.resize w false) (k.setDriverRequest d (v.resize w false) generations)
      ((k.setDriverRequest d (v.resize w false) generations).applyDrive d (v.resize w false)) := by
  have hw := wired_setDriverRequest hk d (v.resize w false) generations
  have hd' : d < (k.setDriverRequest d (v.resize w false) generations).drivers.length := by
    rw [(sameWiring_setDriverRequest k d _ _).drivers]
    exact hd
  have hset := sets_applyDrive hw hd' (v.resize w false)
  rw [(setDriverRequest_own hk hd _ _).2.2.2.2, driverWidth_of_shape hk hd hn hs] at hset
  rwa [PackedVec.resize_of_width_eq (v := v.resize w false) (PackedVec.width_resize ..)] at hset

/-- The undelayed bits of a request with transition delays. -/
theorem sets_driveImmediate (v : PackedVec) (delays : DriveDelay) :
    let s := Kernel.transitions w (k.driverRequest d) (k.driverValue d) (v.resize w false)
      delays.forTransition (k.bitGenerations d)
    let k₁ := k.setDriverRequest d (v.resize w false) s.generations
    Sets d s.immediate k₁ (k₁.driveImmediate d s) := by
  intro s k₁
  have hk₁ : Wired k₁ := wired_setDriverRequest hk d _ _
  have hd₁ : d < k₁.drivers.length := by
    rw [(sameWiring_setDriverRequest k d _ _).drivers]
    exact hd
  obtain ⟨hvalue, -, -, -, hwidth⟩ := setDriverRequest_own hk hd (v.resize w false) s.generations
  unfold Kernel.driveImmediate
  split_ifs with hi
  · have hset := sets_applyDrive hk₁ hd₁ s.immediate
    have himm : s.immediate.width = k₁.driverWidth d := by
      rw [hwidth, driverWidth_of_shape hk hd hn hs, (shape_transitions ..).1,
        width_driverValue hk hd hn hs]
    rwa [PackedVec.resize_of_width_eq himm] at hset
  · have himm : s.immediate = k.driverValue d :=
      immediate_transitions _ _ _ _ _ _ (Bool.eq_false_iff.mpr hi)
    exact ⟨hvalue.trans himm.symm, rfl, rfl, rfl, rfl⟩

theorem driveNet_lines (hunused : Unused (.driver d) k) (hwhole : UnusedWhole d k)
    (v : PackedVec) :
    driveLine d (k.driveNet d v) = settled (v.resize w false) ∧
      ∀ bit < w, bitLine (.driver d) (k.driveNet d v) bit =
        settled ((v.resize w false).getBit bit) := by
  have hlen := hs.bitGenerations d hd hn
  have hset := sets_supersede_applyDrive hk hd hn hs v ((k.bitGenerations d).map (· + 1))
  unfold Kernel.driveNet
  rw [driverWidth_of_shape hk hd hn hs]
  refine ⟨?_, fun bit hbit => ?_⟩
  · refine hset.driveLine.trans ?_
    rw [driveLine_setDriverRequest hk hd hwhole]
    rfl
  · refine (hset.bitLine bit).trans ?_
    have hline := bitLine_supersede hk hd hlen hunused (v.resize w false) hbit
    unfold Kernel.supersede at hline
    rw [hline]
    rfl

/-- A drive of the whole vector: at once, or pending as the only live action. -/
theorem scheduleDrive_lines (v : PackedVec) (delayFs : Nat)
    (hfresh : k.driverRequest d ≠ v.resize w false → Unused (.driver d) k ∧ UnusedWhole d k) :
    driveLine d (k.scheduleDrive d v delayFs) = ask saturatingAddFs (fun _ _ => delayFs) k.time
        (v.resize w false) (driveLine d k) ∧
      ∀ bit < w, bitLine (.driver d) (k.scheduleDrive d v delayFs) bit =
        if k.driverRequest d = v.resize w false then bitLine (.driver d) k bit
        else ⟨(driveLine d (k.scheduleDrive d v delayFs)).value.getBit bit,
          (v.resize w false).getBit bit, []⟩ := by
  have hlen := hs.bitGenerations d hd hn
  unfold Kernel.scheduleDrive
  rw [driverWidth_of_shape hk hd hn hs]
  dsimp only
  by_cases hreq : k.driverRequest d = v.resize w false
  · have hask : ask saturatingAddFs (fun _ _ => delayFs) k.time (v.resize w false) (driveLine d k) =
        driveLine d k := if_pos hreq
    rw [if_pos (PackedVec.eqCase_iff.mpr hreq), hask]
    exact ⟨rfl, fun bit hbit => (if_pos hreq).symm⟩
  obtain ⟨hunused, hwhole⟩ := hfresh hreq
  have hcase : ¬ (k.driverRequest d).eqCase (v.resize w false) = true := fun he =>
    hreq (PackedVec.eqCase_iff.mp he)
  rw [if_neg hcase]
  have hset := sets_supersede_applyDrive hk hd hn hs v ((k.bitGenerations d).map (· + 1))
  have hdrive := driveLine_setDriverRequest hk hd hwhole (v.resize w false)
    ((k.bitGenerations d).map (· + 1))
  have hbits {bit : Nat} (hbit : bit < w) :=
    bitLine_supersede hk hd hlen hunused (v.resize w false) hbit
  have hvalue := (setDriverRequest_own hk hd (v.resize w false)
    ((k.bitGenerations d).map (· + 1))).1
  unfold Kernel.supersede at hbits ⊢
  unfold Kernel.startDrive
  rw [hvalue]
  have hask : ask saturatingAddFs (fun _ _ => delayFs) k.time (v.resize w false) (driveLine d k) =
      if k.driverValue d = v.resize w false ∨ delayFs = 0 then settled (v.resize w false)
      else ⟨k.driverValue d, v.resize w false,
        [(saturatingAddFs k.time delayFs, v.resize w false)]⟩ := if_neg hreq
  rw [hask]
  simp only [if_neg hreq]
  by_cases hv : k.driverValue d = v.resize w false
  · rw [if_pos (PackedVec.eqCase_iff.mpr hv), if_pos (Or.inl hv), hdrive, hv]
    exact ⟨rfl, fun bit hbit => by rw [hbits hbit, hv]⟩
  rw [if_neg fun he => hv (PackedVec.eqCase_iff.mp he)]
  by_cases hz : delayFs = 0
  · rw [if_pos hz, if_pos (Or.inr hz), hset.driveLine, hdrive]
    refine ⟨rfl, fun bit hbit => ?_⟩
    rw [hset.bitLine, hbits hbit]
  · rw [if_neg hz, if_neg (not_or.mpr ⟨hv, hz⟩)]
    refine ⟨driveLine_pushDrive hdrive _, fun bit hbit => ?_⟩
    refine (bitLine_pushDrive _ _ _ _ _).trans ((hbits hbit).trans ?_)
    rw [congrArg Line.value (driveLine_pushDrive hdrive _)]

/-- Transition delays cancel the pending drive of the whole vector, whatever bits change. -/
theorem scheduleDriveTransitions_lines (v : PackedVec) (delays : DriveDelay)
    (hfresh : k.driverRequest d ≠ v.resize w false → Unused (.driver d) k ∧ UnusedWhole d k)
    (hcom : ∀ bit < w, Committed (bitLine (.driver d) k bit)) :
    driveLine d (k.scheduleDriveTransitions d v delays) =
        (if k.driverRequest d = v.resize w false then driveLine d k
        else ⟨(k.scheduleDriveTransitions d v delays).driverValue d, v.resize w false, []⟩) ∧
      ∀ bit < w, bitLine (.driver d) (k.scheduleDriveTransitions d v delays) bit =
        ask saturatingAddFs delays.forTransition k.time ((v.resize w false).getBit bit)
          (bitLine (.driver d) k bit) := by
  unfold Kernel.scheduleDriveTransitions
  rw [driverWidth_of_shape hk hd hn hs]
  dsimp only
  by_cases hreq : k.driverRequest d = v.resize w false
  · rw [if_pos (PackedVec.eqCase_iff.mpr hreq), if_pos hreq]
    refine ⟨rfl, fun bit hbit => ?_⟩
    symm
    exact if_pos (congrArg (PackedVec.getBit · bit) hreq)
  obtain ⟨hunused, hwhole⟩ := hfresh hreq
  rw [if_neg fun he => hreq (PackedVec.eqCase_iff.mp he), if_neg hreq]
  unfold Kernel.requestDriver
  rw [driverWidth_of_shape hk hd hn hs]
  dsimp only
  have hwidth := width_driverValue hk hd hn hs
  have hlen := hs.bitGenerations d hd hn
  have hset := sets_driveImmediate hk hd hn hs v delays
  dsimp only at hset
  generalize htr : Kernel.transitions w (k.driverRequest d) (k.driverValue d) (v.resize w false)
    delays.forTransition (k.bitGenerations d) = s at hset ⊢
  obtain ⟨-, hrequest, hgen, -, -⟩ := setDriverRequest_own hk hd (v.resize w false) s.generations
  have hdrive := driveLine_setDriverRequest hk hd hwhole (v.resize w false) s.generations
  have htime : ((k.setDriverRequest d (v.resize w false) s.generations).driveImmediate d s).time =
      k.time :=
    (time_touches (touches_driveImmediate (k.setDriverRequest d _ s.generations) d s)).trans rfl
  have htimed₁ : (k.setDriverRequest d (v.resize w false) s.generations).timed = k.timed := rfl
  generalize k.setDriverRequest d (v.resize w false) s.generations = k₁
    at hset hrequest hgen hdrive htime htimed₁ ⊢
  generalize k₁.driveImmediate d s = k₂ at hset htime ⊢
  have hinFlight (bit : Nat) (γ : Generation) := inFlight_pushDelayed (.driver d) bit γ s.delayed k₂
  have hwheel := @flatMap_pushDelayed_nil _ (driveOf d (k₂.driver d).generation) (.driveBits d)
    (fun _ _ _ => rfl) s.delayed k₂
  obtain ⟨timed, seq, hk₃⟩ := pushDelayed_frame (.driveBits d) s.delayed k₂
  have hk₃' : k₂.pushDelayed (Stage.action (.driver d)) s.delayed = _ := hk₃
  simp only [hk₃'] at hinFlight
  rw [hk₃] at hwheel ⊢
  refine ⟨Line.ext rfl (hset.request.trans hrequest) ?_, fun bit hbit => ?_⟩
  · refine hwheel.trans ?_
    rw [hset.whole, hset.flatMap fun ev ho => driveOf_of_not_owns ho]
    exact congrArg Line.pending hdrive
  · refine @bitLine_request (.driver d) k { k₂ with timed := timed, seq := seq } w _
      delays.forTransition hwidth hlen hunused ?_ (hset.request.trans hrequest) ?_ ?_ bit hbit
      (hcom bit hbit)
    · exact hset.value.trans (congrArg _ htr.symm)
    · exact (hset.generations.trans hgen).trans (congrArg _ htr.symm)
    · intro b γ
      refine (hinFlight b γ).trans (List.Perm.of_eq ?_)
      rw [hset.inFlight, htimed₁, htime]
      exact congrArg (fun s => (List.flatMap _ (Kernel.Transitions.delayed s)) ++ _) htr.symm

end Requested

/-! ### Due events -/

/-- What an event of the driver does to it when its time has come: a live drive takes the whole
vector to its value, and live bit updates take their bits there. -/
inductive Fired (d : DriverId) (w : Nat) (k k' : Kernel) : Prop
  | whole (v : PackedVec) (hpending : (driveLine d k).pending =
        (k.time, v) :: (driveLine d k').pending)
      (hvalue : k'.driverValue d = v.resize w false)
      (hrequest : k'.driverRequest d = k.driverRequest d)
      (hbits : ∀ bit, bitLine (.driver d) k' bit =
        { bitLine (.driver d) k bit with value := (v.resize w false).getBit bit })
  | bits (hpending : (driveLine d k').pending = (driveLine d k).pending)
      (hrequest : k'.driverRequest d = k.driverRequest d)
      (hbits : ∀ bit < w, bitLine (.driver d) k' bit = bitLine (.driver d) k bit ∨
        bitLine (.driver d) k' bit = fire (· ≤ k.time) (bitLine (.driver d) k bit))

theorem fired_dispatch {k : Kernel} {d : DriverId} {n : NetId} {w : Nat} {ev : TimedEvent}
    {rest : List TimedEvent} (hk : Wired k) (hd : d < k.drivers.length)
    (hn : (k.driver d).net = n) (hs : Shape n w k) (ht : k.timed = ev :: rest)
    (hdue : ev.time = k.time) (ho : OfDriver d ev.action)
    (hcom : ∀ bit < w, Committed (bitLine (.driver d) k bit)) :
    Fired d w k ({ k with timed := rest }.dispatchEvent ev) := by
  have hrest : Wired { k with timed := rest } :=
    hk.timed (fun ev' hev => ht ▸ List.mem_cons_of_mem _ hev) k.time
  have hwidth := driverWidth_of_shape hk hd hn hs
  have hwidth' : { k with timed := rest }.driverWidth d = w := hwidth
  have hset (v : PackedVec) := @sets_applyDrive { k with timed := rest } hrest d hd v
  simp only [hwidth'] at hset
  have hline : (driveLine d k).pending =
      driveOf d (k.driver d).generation ev ++ rest.flatMap (driveOf d (k.driver d).generation) := by
    show k.timed.flatMap _ = _
    rw [ht, List.flatMap_cons]
  unfold Kernel.dispatchEvent
  cases ha : ev.action with
  | drive d' v generation =>
    rw [ha] at ho
    obtain rfl : d' = d := ho
    have hbits (bit : Nat) : bitLine (.driver d') { k with timed := rest } bit =
        bitLine (.driver d') k bit := by
      apply Line.ext
      · rfl
      · rfl
      · show inFlight _ bit _ rest = inFlight _ bit _ k.timed
        rw [ht]
        unfold inFlight
        rw [List.flatMap_cons, ha]
        rfl
    dsimp only
    split_ifs with hg
    · have hone : driveOf d' (k.driver d').generation ev = [(k.time, v)] := by
        unfold driveOf
        rw [ha, ← hdue]
        exact if_pos ⟨rfl, hg.symm⟩
      refine .whole v ?_ (hset v).value (hset v).request fun bit => ?_
      · rw [hline, hone, (hset v).driveLine]
        rfl
      · rw [(hset v).bitLine, hbits]
    · have hnone : driveOf d' (k.driver d').generation ev = [] := by
        unfold driveOf
        rw [ha]
        exact if_neg fun hc => hg hc.2.symm
      refine .bits ?_ rfl fun bit hbit => Or.inl (hbits bit)
      rw [hline, hnone]
      rfl
  | driveBits d' us =>
    rw [ha] at ho
    obtain rfl : d' = d := ho
    have hnone : driveOf d' (k.driver d').generation ev = [] := by
      unfold driveOf
      rw [ha]
    have hus : Stage.updates (.driver d') ev.action = us := by
      rw [ha]
      exact if_pos rfl
    have hvalue := width_driverValue hk hd hn hs
    dsimp only
    split_ifs with hl
    · have hlive := hset (Kernel.liveUpdates ({ k with timed := rest }.bitGenerations d')
        ({ k with timed := rest }.driverValue d') us).1
      have hlw : (Kernel.liveUpdates (k.bitGenerations d') (k.driverValue d') us).1.width = w :=
        (width_liveUpdates _ _ _).trans hvalue
      refine .bits ?_ hlive.request fun bit hbit => ?_
      · rw [hline, hnone, hlive.driveLine]
        rfl
      · refine @bitLine_dispatch (.driver d') k _ ev rest ht hdue ?_ hlive.request
          hlive.generations (fun b γ => hlive.inFlight b γ) bit (hvalue.symm ▸ hbit)
          (hcom bit hbit)
        rw [hus]
        exact hlive.value.trans (PackedVec.resize_of_width_eq hlw false)
    · refine .bits ?_ rfl fun bit hbit => Or.inl ?_
      · rw [hline, hnone]
        rfl
      · refine @bitLine_dispatch_stale (.driver d') k { k with timed := rest } ev rest ht ?_ rfl
          rfl rfl rfl bit
        intro b
        have hbit' : bit < (k.driverValue d').width := hvalue.symm ▸ hbit
        have hdead := ((liveUpdates_spec (k.bitGenerations d') us hbit').2
          (Bool.eq_false_iff.mpr hl)).2 b
        rw [hus, carrying_time]
        exact List.map_eq_nil_iff.mpr hdead
  | _ =>
    rw [ha] at ho
    exact absurd ho id

/-! ### The life of a driver -/

/-- A driver stays on its net. -/
theorem driver_effect {l : Label} {k k' : Kernel} (he : Effect l k k') {d : DriverId}
    (hd : d < k.drivers.length) :
    d < k'.drivers.length ∧ (k'.driver d).net = (k.driver d).net := by
  have same {k₁ k₂ : Kernel} (hs : SameWiring k₁ k₂) (hd : d < k₁.drivers.length) :
      d < k₂.drivers.length ∧ (k₂.driver d).net = (k₁.driver d).net :=
    ⟨hs.drivers.symm ▸ hd, hs.net d⟩
  cases he with
  | calm hc hn => exact same (.of_calm hc) hd
  | @delayed _ k₁ fs pid hw =>
    have h₁ : d < k₁.drivers.length ∧ (k₁.driver d).net = (k.driver d).net :=
      same (.of_calm hw.toCalm) hd
    exact h₁
  | newNet initial resolution delay => exact ⟨hd, rfl⟩
  | @newDriver _ n zero one hn hw =>
    refine ⟨?_, ?_⟩
    · simp only [Kernel.newDriverWithStrengths, List.length_append]
      exact Nat.lt_add_right _ hd
    · rw [driver_newDriver, if_neg (Nat.ne_of_lt hd)]
  | drive hc hd' => exact same (sameWiring_touches (touches_call hc)) hd
  | write hn => exact same (sameWiring_writeNet k _ _) hd
  | drain => exact same (sameWiring_drainNba k) hd
  | advance => exact ⟨hd, rfl⟩
  | @dispatch _ ev rest ht hdue =>
    have hd' : d < { k with timed := rest }.drivers.length := hd
    by_cases ha : ∃ p, ev.action = .resume p
    · obtain ⟨p, ha⟩ := ha
      unfold Kernel.dispatchEvent
      rw [ha]
      dsimp only
      split <;> exact ⟨hd, rfl⟩
    · obtain ⟨d', n, htouch⟩ := @touches_dispatchEvent { k with timed := rest } ev
        fun p hp => ha ⟨p, hp⟩
      exact @same { k with timed := rest } _ (sameWiring_touches htouch) hd'

/-- A driver comes into being by `new_driver` only. -/
theorem driver_born {l : Label} {k k' : Kernel} (he : Effect l k k') {d : DriverId}
    (hd : ¬ d < k.drivers.length) (hd' : d < k'.drivers.length) :
    ∃ n zero one, n < k.nets.length ∧ d = k.drivers.length ∧
      l = .call (.newDriver n zero one) ∧ k' = k.newDriverWithStrengths n zero one := by
  have same {k₁ : Kernel} (hs : SameWiring k₁ k') (hd : ¬ d < k₁.drivers.length) : False :=
    hd (hs.drivers ▸ hd')
  cases he with
  | calm hc hn => exact absurd hd' fun _ => same (.of_calm hc) hd
  | @delayed _ k₁ fs pid hw =>
    have hdrivers : k₁.drivers.length = k.drivers.length := (SameWiring.of_calm hw.toCalm).drivers
    exact absurd (hdrivers ▸ hd') hd
  | newNet initial resolution delay => exact absurd hd' hd
  | @newDriver _ n zero one hn hw =>
    refine ⟨n, zero, one, hn, ?_, rfl, rfl⟩
    simp only [Kernel.newDriverWithStrengths, List.length_append, List.length_singleton] at hd'
    exact (Nat.lt_succ_iff_lt_or_eq.mp hd').resolve_left hd
  | drive hc hd'' => exact absurd hd' fun _ => same (sameWiring_touches (touches_call hc)) hd
  | write hn => exact absurd hd' fun _ => same (sameWiring_writeNet k _ _) hd
  | drain => exact absurd hd' fun _ => same (sameWiring_drainNba k) hd
  | advance => exact absurd hd' hd
  | @dispatch _ ev rest ht hdue =>
    have hrest : ¬ d < { k with timed := rest }.drivers.length := hd
    by_cases ha : ∃ p, ev.action = .resume p
    · obtain ⟨p, ha⟩ := ha
      unfold Kernel.dispatchEvent at hd'
      rw [ha] at hd'
      dsimp only at hd'
      split at hd' <;> exact absurd hd' hd
    · obtain ⟨d', n, htouch⟩ := @touches_dispatchEvent { k with timed := rest } ev
        fun p hp => ha ⟨p, hp⟩
      exact absurd hd' fun _ => @same { k with timed := rest } (sameWiring_touches htouch) hrest

/-- A new driver starts out as high impedance, with nothing pending. -/
theorem newDriver_lines {k : Kernel} (hk : Wired k) {n : NetId} (hn : n < k.nets.length)
    (zero one : DriveStrength) :
    driveLine k.drivers.length (k.newDriverWithStrengths n zero one) =
        settled (.z (k.netValue n).width) ∧
      ∀ bit, bitLine (.driver k.drivers.length) (k.newDriverWithStrengths n zero one) bit =
        settled (PackedVec.getBit (.z (k.netValue n).width) bit) := by
  have hdriver := driver_newDriver k n zero one k.drivers.length
  rw [if_pos rfl] at hdriver
  have hvalue : (k.newDriverWithStrengths n zero one).driverValue k.drivers.length =
      .z (k.netValue n).width := by
    unfold Kernel.driverValue
    rw [hdriver]
    show ((k.addDriverSlot n zero one).net n).driverValues.getD _ _ = _
    rw [net_addDriverSlot, if_pos ⟨rfl, hn⟩]
    simp [List.getD_eq_getElem?_getD]
  have hrequest : (k.newDriverWithStrengths n zero one).driverRequest k.drivers.length =
      .z (k.netValue n).width := by
    simp [Kernel.driverRequest, Kernel.newDriverWithStrengths, ← hk.requests]
  -- every event on the wheel aims at an older driver
  have hother (ev : TimedEvent) (hev : ev ∈ k.timed) :
      ¬ Owns (.driver k.drivers.length) ev.action := by
    intro ho
    have ha := hk.aims ev hev
    cases haction : ev.action with
    | drive d v generation =>
      rw [haction] at ho ha
      exact Nat.lt_irrefl _ (Nat.lt_of_lt_of_eq ha (Eq.symm ho))
    | driveBits d us =>
      rw [haction] at ho ha
      exact Nat.lt_irrefl _ (Nat.lt_of_lt_of_eq ha (Eq.symm ho))
    | _ =>
      rw [haction] at ho
      exact ho
  refine ⟨Line.ext hvalue hrequest ?_, fun bit => ?_⟩
  · apply List.flatMap_eq_nil_iff.mpr
    exact fun ev hev => driveOf_of_not_owns (hother ev hev)
  · apply Line.ext
    · exact congrArg (PackedVec.getBit · bit) hvalue
    · exact congrArg (PackedVec.getBit · bit) hrequest
    · apply List.flatMap_eq_nil_iff.mpr
      intro ev hev
      rw [updates_of_not_owns (hother ev hev)]
      rfl

end Eevee.Sched.Drivers
