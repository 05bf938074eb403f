/- How drivers and nets are wired up, and the widths their vectors keep. -/

import Mathlib.Data.List.Basic
import Mathlib.Tactic.Common
import Mathlib.Tactic.SplitIfs
import Eevee.Sched.Frames

set_option autoImplicit false
set_option relaxedAutoImplicit false

namespace Eevee.Sched.Layout

open Eevee.Core.Logic
open Eevee.Lib.Transition
open Eevee.Sched.Frames
open Eevee.Sched.Nets
open Eevee.Sched.Resolution
open Eevee.Sched.Scheduler
open Eevee.Sched.Simulation

/-! ### Wiring -/

/-- The action belongs to an existing driver or net. -/
def Aims (k : Kernel) : TimedAction → Prop
  | .drive d _ _ => d < k.drivers.length
  | .driveBits d _ => d < k.drivers.length
  | .netBits n _ => n < k.nets.length
  | .resume _ => True

/-- Every driver has a request, bit generations and a slot of its own in an existing net. -/
structure Wired (k : Kernel) : Prop where
  requests : k.driverRequests.length = k.drivers.length
  generations : k.driverBitGenerations.length = k.drivers.length
  net_lt : ∀ d < k.drivers.length, (k.driver d).net < k.nets.length
  slot_lt : ∀ d < k.drivers.length,
    (k.driver d).slot < (k.net (k.driver d).net).driverValues.length
  distinct : ∀ d < k.drivers.length, ∀ d' < k.drivers.length, d ≠ d' →
    (k.driver d).net = (k.driver d').net → (k.driver d).slot ≠ (k.driver d').slot
  strengths : ∀ n, (k.net n).driverStrengths.length = (k.net n).driverValues.length
  aims : ∀ ev ∈ k.timed, Aims k ev.action

/-- The wiring is the same; values, requests and generations may differ. -/
structure SameWiring (k k' : Kernel) : Prop where
  nets : k'.nets.length = k.nets.length
  drivers : k'.drivers.length = k.drivers.length
  net : ∀ d, (k'.driver d).net = (k.driver d).net
  slot : ∀ d, (k'.driver d).slot = (k.driver d).slot
  requests : k'.driverRequests.length = k.driverRequests.length
  generations : k'.driverBitGenerations.length = k.driverBitGenerations.length
  values : ∀ n, (k'.net n).driverValues.length = (k.net n).driverValues.length
  strengths : ∀ n, (k'.net n).driverStrengths = (k.net n).driverStrengths
  delay : ∀ n, (k'.net n).delay = (k.net n).delay
  resolution : ∀ n, (k'.net n).resolution = (k.net n).resolution

theorem SameWiring.refl (k : Kernel) : SameWiring k k :=
  ⟨rfl, rfl, fun _ => rfl, fun _ => rfl, rfl, rfl, fun _ => rfl, fun _ => rfl, fun _ => rfl,
    fun _ => rfl⟩

theorem SameWiring.trans {k₁ k₂ k₃ : Kernel} (h : SameWiring k₁ k₂) (h' : SameWiring k₂ k₃) :
    SameWiring k₁ k₃ :=
  ⟨h'.nets.trans h.nets, h'.drivers.trans h.drivers, fun d => (h'.net d).trans (h.net d),
    fun d => (h'.slot d).trans (h.slot d), h'.requests.trans h.requests,
    h'.generations.trans h.generations, fun n => (h'.values n).trans (h.values n),
    fun n => (h'.strengths n).trans (h.strengths n), fun n => (h'.delay n).trans (h.delay n),
    fun n => (h'.resolution n).trans (h.resolution n)⟩

theorem SameWiring.of_calm {k k' : Kernel} (h : Calm k k') : SameWiring k k' := by
  have hdriver (d : DriverId) : k'.driver d = k.driver d := by
    unfold Kernel.driver
    rw [h.drivers]
  have hnet {β : Type} (f : Net → β) (hf : ∀ net, f (signals net) = f net) (n : NetId) :
      f (k'.net n) = f (k.net n) := by
    rw [← hf (k'.net n), h.signals, hf]
  exact ⟨h.length, by rw [h.drivers], fun d => by rw [hdriver], fun d => by rw [hdriver],
    by rw [h.driverRequests], by rw [h.driverBitGenerations],
    hnet (fun net => net.driverValues.length) fun _ => rfl, hnet Net.driverStrengths fun _ => rfl,
    hnet Net.delay fun _ => rfl, hnet Net.resolution fun _ => rfl⟩

/-- Changing the signals of one net but not its wiring. -/
theorem sameWiring_modifyNet (k : Kernel) (n : NetId) {f : Net → Net}
    (hv : ∀ net, (f net).driverValues.length = net.driverValues.length)
    (hs : ∀ net, (f net).driverStrengths = net.driverStrengths)
    (hd : ∀ net, (f net).delay = net.delay) (hr : ∀ net, (f net).resolution = net.resolution) :
    SameWiring k (k.modifyNet n f) := by
  have hnet {β : Type} (g : Net → β) (hg : ∀ net, g (f net) = g net) (m : NetId) :
      g ((k.modifyNet n f).net m) = g (k.net m) := by
    rw [Kernel.net_modifyNet]
    split_ifs
    · exact hg _
    · rfl
  exact ⟨List.length_modify _ _ _, rfl, fun _ => rfl, fun _ => rfl, rfl, rfl,
    hnet (fun net => net.driverValues.length) hv, hnet Net.driverStrengths hs, hnet Net.delay hd,
    hnet Net.resolution hr⟩

theorem sameWiring_writeNet (k : Kernel) (n : NetId) (v : PackedVec) :
    SameWiring k (k.writeNet n v) := by
  have hset : SameWiring k (k.setValue n v) := by
    apply sameWiring_modifyNet <;> intro net <;> rfl
  exact hset.trans (.of_calm (wakes_writeNet k n v).toCalm)

theorem driver_setDriverRequest (k : Kernel) (d d' : DriverId) (v : PackedVec)
    (generations : List Generation) :
    (k.setDriverRequest d v generations).driver d' =
      if d' = d ∧ d < k.drivers.length then
        { k.driver d' with generation := (k.driver d').generation + 1 }
      else k.driver d' := by
  unfold Kernel.driver Kernel.setDriverRequest
  simp only [List.getD_eq_getElem?_getD, List.getElem?_modify]
  by_cases hd : d' = d
  · subst hd
    by_cases hlt : d' < k.drivers.length
    · simp [hlt]
    · simp [hlt]
  · simp [hd, Ne.symm hd]

theorem sameWiring_setDriverRequest (k : Kernel) (d : DriverId) (v : PackedVec)
    (generations : List Generation) : SameWiring k (k.setDriverRequest d v generations) := by
  refine ⟨rfl, List.length_modify _ _ _, fun d' => ?_, fun d' => ?_, List.length_set,
    List.length_set, fun _ => rfl, fun _ => rfl, fun _ => rfl, fun _ => rfl⟩
  · rw [driver_setDriverRequest]
    split_ifs <;> rfl
  · rw [driver_setDriverRequest]
    split_ifs <;> rfl

theorem sameWiring_touch {d : DriverId} {n : NetId} {k k' : Kernel} (h : Touch d n k k') :
    SameWiring k k' := by
  cases h with
  | net h => cases h with
    | writeNet v hv => exact sameWiring_writeNet k n v
    | setDelayRequest v generations hv hg =>
      apply sameWiring_modifyNet <;> intro net <;> rfl
    | push hpos ha => exact ⟨rfl, rfl, fun _ => rfl, fun _ => rfl, rfl, rfl, fun _ => rfl,
        fun _ => rfl, fun _ => rfl, fun _ => rfl⟩
  | setDriverValue v hd hv =>
    refine sameWiring_modifyNet k _ (fun net => ?_) ?_ ?_ ?_
    · exact List.length_set
    all_goals
      intro net
      rfl
  | setDriverRequest v generations hv hg => exact sameWiring_setDriverRequest k d v generations
  | push hpos ha => exact ⟨rfl, rfl, fun _ => rfl, fun _ => rfl, rfl, rfl, fun _ => rfl,
      fun _ => rfl, fun _ => rfl, fun _ => rfl⟩

theorem sameWiring_touches {d : DriverId} {n : NetId} {k k' : Kernel} (h : Touches d n k k') :
    SameWiring k k' := keeps_sequence SameWiring.refl SameWiring.trans sameWiring_touch h

theorem SameWiring.aims {k k' : Kernel} (h : SameWiring k k') {action : TimedAction}
    (ha : Aims k action) : Aims k' action := by
  cases action with
  | drive d v generation => exact Nat.lt_of_lt_of_eq ha h.drivers.symm
  | driveBits d updates => exact Nat.lt_of_lt_of_eq ha h.drivers.symm
  | netBits n updates => exact Nat.lt_of_lt_of_eq ha h.nets.symm
  | resume p => trivial

theorem Wired.of_same {k k' : Kernel} (h : Wired k) (hs : SameWiring k k')
    (haims : ∀ ev ∈ k'.timed, Aims k' ev.action) : Wired k' := by
  refine ⟨?_, ?_, ?_, ?_, ?_, ?_, haims⟩
  · rw [hs.requests, hs.drivers, h.requests]
  · rw [hs.generations, hs.drivers, h.generations]
  · intro d hd
    rw [hs.net, hs.nets]
    exact h.net_lt d (hs.drivers ▸ hd)
  · intro d hd
    rw [hs.net, hs.slot, hs.values]
    exact h.slot_lt d (hs.drivers ▸ hd)
  · intro d hd d' hd'
    rw [hs.net, hs.net, hs.slot, hs.slot]
    exact h.distinct d (hs.drivers ▸ hd) d' (hs.drivers ▸ hd')
  · intro n
    rw [hs.strengths, hs.values]
    exact h.strengths n

/-- A request of an existing driver schedules updates of existing drivers and nets only. -/
theorem aims_touches {d : DriverId} {n : NetId} {k k' : Kernel} (ht : Touches d n k k')
    (hd : d < k.drivers.length) (hn : n < k.nets.length)
    (haims : ∀ ev ∈ k.timed, Aims k ev.action) : ∀ ev ∈ k'.timed, Aims k' ev.action := by
  induction ht with
  | refl => exact haims
  | @tail k₁ k₂ h₁ h₂ ih =>
    have hs := sameWiring_touches h₁
    intro ev hev
    apply (sameWiring_touch h₂).aims
    cases h₂ with
    | net h₂ => cases h₂ with
      | writeNet v hv => exact ih ev ((wakes_writeNet k₁ n v).timed ▸ hev)
      | setDelayRequest v generations hv hg => exact ih ev hev
      | @push delayFs action hpos ha =>
        rcases (List.mem_orderedInsert _).mp hev with rfl | hev
        · cases action with
          | netBits n' updates =>
            obtain rfl : n' = n := ha
            exact Nat.lt_of_lt_of_eq hn hs.nets.symm
          | _ => exact absurd ha id
        · exact ih ev hev
    | @push delayFs action hpos ha =>
      rcases (List.mem_orderedInsert _).mp hev with rfl | hev
      · cases action with
        | drive d' v generation =>
          obtain rfl : d' = d := ha
          exact Nat.lt_of_lt_of_eq hd hs.drivers.symm
        | driveBits d' updates =>
          obtain rfl : d' = d := ha
          exact Nat.lt_of_lt_of_eq hd hs.drivers.symm
        | _ => exact absurd ha id
      · exact ih ev hev
    | _ => exact ih ev hev

theorem wired_touches {d : DriverId} {n : NetId} {k k' : Kernel} (ht : Touches d n k k')
    (hd : d < k.drivers.length) (hn : n < k.nets.length) (h : Wired k) : Wired k' :=
  h.of_same (sameWiring_touches ht) (aims_touches ht hd hn h.aims)

theorem Wired.timed {k : Kernel} (h : Wired k) {timed : List TimedEvent}
    (ht : ∀ ev ∈ timed, ev ∈ k.timed) (t : SimTime) :
    Wired { k with timed := timed, time := t } :=
  h.of_same ⟨rfl, rfl, fun _ => rfl, fun _ => rfl, rfl, rfl, fun _ => rfl, fun _ => rfl,
    fun _ => rfl, fun _ => rfl⟩ fun ev hev => h.aims ev (ht ev hev)

/-! ### New nets and drivers -/

theorem net_newNet (k : Kernel) (initial : PackedVec) (resolution : NetResolution)
    (delay : Option NetDelay) (m : NetId) :
    (k.newNetWithResolutionAndDelay initial resolution delay).net m =
      if m = k.nets.length then .withResolution initial resolution delay else k.net m := by
  unfold Kernel.net Kernel.newNetWithResolutionAndDelay
  simp only [List.getD_eq_getElem?_getD]
  rcases Nat.lt_trichotomy m k.nets.length with hm | hm | hm
  · rw [List.getElem?_append_left hm, if_neg (Nat.ne_of_lt hm)]
  · subst hm
    simp
  · rw [List.getElem?_eq_none (by simpa using Nat.succ_le_of_lt hm),
      List.getElem?_eq_none (Nat.le_of_lt hm),
      if_neg (Nat.ne_of_gt hm)]

theorem wired_newNet {k : Kernel} (h : Wired k) (initial : PackedVec)
    (resolution : NetResolution) (delay : Option NetDelay) :
    Wired (k.newNetWithResolutionAndDelay initial resolution delay) := by
  have hlen : (k.newNetWithResolutionAndDelay initial resolution delay).nets.length =
      k.nets.length + 1 := by simp [Kernel.newNetWithResolutionAndDelay]
  refine ⟨h.requests, h.generations, ?_, ?_, h.distinct, ?_, ?_⟩
  · intro d hd
    rw [hlen]
    exact Nat.lt_succ_of_lt (h.net_lt d hd)
  · intro d hd
    have hne : (k.driver d).net ≠ k.nets.length := Nat.ne_of_lt (h.net_lt d hd)
    have hslot := h.slot_lt d hd
    show (k.driver d).slot < ((k.newNetWithResolutionAndDelay initial resolution delay).net
      (k.driver d).net).driverValues.length
    rwa [net_newNet, if_neg hne]
  · intro n
    rw [net_newNet]
    split_ifs
    · rfl
    · exact h.strengths n
  · intro ev hev
    have ha := h.aims ev hev
    cases haction : ev.action with
    | netBits n updates =>
      rw [haction] at ha
      show n < _
      rw [hlen]
      exact Nat.lt_succ_of_lt ha
    | _ =>
      rw [haction] at ha
      exact ha

theorem net_addDriverSlot (k : Kernel) (n m : NetId) (zero one : DriveStrength) :
    (k.addDriverSlot n zero one).net m =
      if m = n ∧ n < k.nets.length then
        { k.net m with
          driverValues := (k.net m).driverValues ++ [.z (k.netValue m).width]
          driverStrengths := (k.net m).driverStrengths ++ [⟨zero, one⟩] }
      else k.net m := by
  unfold Kernel.addDriverSlot
  rw [Kernel.net_modifyNet]
  split_ifs with h
  · rw [h.1]
  · rfl

theorem driver_newDriver (k : Kernel) (n : NetId) (zero one : DriveStrength) (d : DriverId) :
    (k.newDriverWithStrengths n zero one).driver d =
      if d = k.drivers.length then ⟨n, (k.net n).driverValues.length, 0⟩ else k.driver d := by
  unfold Kernel.driver Kernel.newDriverWithStrengths
  simp only [List.getD_eq_getElem?_getD]
  rcases Nat.lt_trichotomy d k.drivers.length with hd | hd | hd
  · rw [List.getElem?_append_left hd, if_neg (Nat.ne_of_lt hd)]
  · subst hd
    simp
  · rw [List.getElem?_eq_none (by simpa using Nat.succ_le_of_lt hd),
      List.getElem?_eq_none (Nat.le_of_lt hd),
      if_neg (Nat.ne_of_gt hd)]

theorem wired_newDriver {k : Kernel} (h : Wired k) {n : NetId} (hn : n < k.nets.length)
    (zero one : DriveStrength) : Wired (k.newDriverWithStrengths n zero one) := by
  have hlen : (k.newDriverWithStrengths n zero one).drivers.length = k.drivers.length + 1 := by
    simp [Kernel.newDriverWithStrengths]
  have hnets : (k.newDriverWithStrengths n zero one).nets.length = k.nets.length :=
    List.length_modify _ _ _
  have hnet (m : NetId) : (k.newDriverWithStrengths n zero one).net m =
      (k.addDriverSlot n zero one).net m := rfl
  have hvalues (m : NetId) : (k.net m).driverValues.length ≤
      ((k.newDriverWithStrengths n zero one).net m).driverValues.length := by
    rw [hnet, net_addDriverSlot]
    split_ifs
    · simp
    · exact Nat.le_refl _
  have hold {d : DriverId} (hd : d < k.drivers.length) :
      (k.newDriverWithStrengths n zero one).driver d = k.driver d := by
    rw [driver_newDriver, if_neg (Nat.ne_of_lt hd)]
  have hnew : (k.newDriverWithStrengths n zero one).driver k.drivers.length =
      ⟨n, (k.net n).driverValues.length, 0⟩ := by
    rw [driver_newDriver, if_pos rfl]
  have cases_lt {d : DriverId} (hd : d < (k.newDriverWithStrengths n zero one).drivers.length) :
      d < k.drivers.length ∨ d = k.drivers.length := by
    rw [hlen] at hd
    exact Nat.lt_succ_iff_lt_or_eq.mp hd
  refine ⟨?_, ?_, ?_, ?_, ?_, ?_, ?_⟩
  · rw [hlen]
    simp [Kernel.newDriverWithStrengths, h.requests]
  · rw [hlen]
    simp [Kernel.newDriverWithStrengths, h.generations]
  · intro d hd
    rw [hnets]
    rcases cases_lt hd with hd | rfl
    · rw [hold hd]
      exact h.net_lt d hd
    · rw [hnew]
      exact hn
  · intro d hd
    rcases cases_lt hd with hd | rfl
    · rw [hold hd]
      exact Nat.lt_of_lt_of_le (h.slot_lt d hd) (hvalues _)
    · rw [hnew, hnet, net_addDriverSlot, if_pos ⟨rfl, hn⟩]
      simp
  · intro d hd d' hd' hne hsame
    rcases cases_lt hd with hd | rfl <;> rcases cases_lt hd' with hd' | rfl
    · rw [hold hd, hold hd'] at hsame ⊢
      exact h.distinct d hd d' hd' hne hsame
    · rw [hold hd, hnew] at hsame ⊢
      have hlt := h.slot_lt d hd
      rw [hsame] at hlt
      exact Nat.ne_of_lt hlt
    · rw [hold hd', hnew] at hsame ⊢
      have hlt := h.slot_lt d' hd'
      rw [← hsame] at hlt
      exact Nat.ne_of_gt hlt
    · exact absurd rfl hne
  · intro m
    rw [hnet, net_addDriverSlot]
    split_ifs
    · simp [h.strengths m]
    · exact h.strengths m
  · intro ev hev
    have ha := h.aims ev hev
    cases haction : ev.action with
    | resume p => trivial
    | netBits m updates =>
      rw [haction] at ha
      show m < _
      rw [hnets]
      exact ha
    | _ =>
      rw [haction] at ha
      show _ < _
      rw [hlen]
      exact Nat.lt_succ_of_lt ha

/-! ### Steps -/

theorem target_spec {k : Kernel} {c : Call} {d : DriverId} {n : NetId}
    (hc : Call.target k c = some (d, n)) : (k.driver d).net = n := by
  cases c with
  | driveNet d' v =>
    exact (Prod.mk.inj (Option.some.inj hc)).1 ▸ (Prod.mk.inj (Option.some.inj hc)).2
  | scheduleDrive d' v delayFs =>
    exact (Prod.mk.inj (Option.some.inj hc)).1 ▸ (Prod.mk.inj (Option.some.inj hc)).2
  | scheduleDriveTransitions d' v delays =>
    exact (Prod.mk.inj (Option.some.inj hc)).1 ▸ (Prod.mk.inj (Option.some.inj hc)).2
  | _ => simp [Call.target] at hc

theorem wired_writeNet {k : Kernel} (h : Wired k) (n : NetId) (v : PackedVec) :
    Wired (k.writeNet n v) := by
  have hs := sameWiring_writeNet k n v
  exact h.of_same hs fun ev hev => hs.aims (h.aims ev ((wakes_writeNet k n v).timed ▸ hev))

theorem wired_dispatchEvent {k : Kernel} (h : Wired k) {ev : TimedEvent}
    (ha : Aims k ev.action) : Wired (k.dispatchEvent ev) := by
  unfold Kernel.dispatchEvent
  cases haction : ev.action with
  | resume p =>
    dsimp only
    split
    · exact h.of_same ⟨rfl, rfl, fun _ => rfl, fun _ => rfl, rfl, rfl, fun _ => rfl, fun _ => rfl,
        fun _ => rfl, fun _ => rfl⟩ h.aims
    · exact h.of_same ⟨rfl, rfl, fun _ => rfl, fun _ => rfl, rfl, rfl, fun _ => rfl, fun _ => rfl,
        fun _ => rfl, fun _ => rfl⟩ h.aims
  | drive d v generation =>
    rw [haction] at ha
    dsimp only
    split_ifs
    · exact wired_touches (touches_applyDrive k d v) ha (h.net_lt d ha) h
    · exact h
  | driveBits d updates =>
    rw [haction] at ha
    dsimp only
    split_ifs
    · exact wired_touches (touches_applyDrive k d _) ha (h.net_lt d ha) h
    · exact h
  | netBits n updates =>
    dsimp only
    split_ifs
    · exact wired_writeNet h n _
    · exact h

theorem sameWiring_drainNba (k : Kernel) : SameWiring k k.drainNba := by
  have same (k k' : Kernel) (hk : Calm k k') : SameWiring k k' := .of_calm hk
  apply drainNba_keeps SameWiring.refl SameWiring.trans
  · exact same _ _ ⟨rfl, rfl, fun _ => rfl, rfl, rfl, rfl, rfl, rfl⟩
  · exact fun u _ k₁ => sameWiring_writeNet k₁ u.1 u.2
  · exact fun k₁ => same _ _ ⟨rfl, rfl, fun _ => rfl, rfl, rfl, rfl, rfl, rfl⟩

theorem timed_drainNba (k : Kernel) : k.drainNba.timed = k.timed :=
  drainNba_keeps (R := fun k k' => k'.timed = k.timed) (fun _ => rfl) (fun h h' => h'.trans h) rfl
    (fun u _ k₁ => (wakes_writeNet k₁ u.1 u.2).timed) fun _ => rfl

theorem wired_effect {l : Label} {k k' : Kernel} (he : Effect l k k') (h : Wired k) :
    Wired k' := by
  cases he with
  | calm hk hn =>
    have hs := SameWiring.of_calm hk
    exact h.of_same hs fun ev hev => hs.aims (h.aims ev (hk.timed ▸ hev))
  | @delayed _ k₁ fs pid hk =>
    have hs := SameWiring.of_calm hk.toCalm
    have h₁ : Wired k₁ := h.of_same hs fun ev hev => hs.aims (h.aims ev (hk.timed ▸ hev))
    refine h₁.of_same ⟨rfl, rfl, fun _ => rfl, fun _ => rfl, rfl, rfl, fun _ => rfl, fun _ => rfl,
      fun _ => rfl, fun _ => rfl⟩ fun ev hev => ?_
    rcases (List.mem_orderedInsert _).mp hev with rfl | hev
    · trivial
    · exact h₁.aims ev hev
  | newNet initial resolution delay => exact wired_newNet h initial resolution delay
  | newDriver hn hw => exact wired_newDriver h hn _ _
  | @drive _ c d n hc hd =>
    have hn : n < k.nets.length := target_spec hc ▸ h.net_lt d hd
    exact wired_touches (touches_call hc) hd hn h
  | write hn => exact wired_writeNet h _ _
  | drain =>
    have hs := sameWiring_drainNba k
    exact h.of_same hs fun ev hev => hs.aims (h.aims ev (timed_drainNba k ▸ hev))
  | advance => exact h.timed (fun ev hev => (List.dropWhile_sublist _).subset hev) _
  | @dispatch _ ev rest ht hd =>
    have hrest : Wired { k with timed := rest } :=
      h.timed (fun ev' hev => ht ▸ List.mem_cons_of_mem _ hev) k.time
    exact wired_dispatchEvent hrest (h.aims ev (ht ▸ List.mem_cons_self))

theorem wired_new : Wired Kernel.new := by
  refine ⟨rfl, rfl, ?_, ?_, ?_, fun n => rfl, ?_⟩
  · exact fun d hd => absurd hd (Nat.not_lt_zero d)
  · exact fun d hd => absurd hd (Nat.not_lt_zero d)
  · exact fun d hd => absurd hd (Nat.not_lt_zero d)
  · exact fun ev hev => absurd hev List.not_mem_nil

/-! ### Widths -/

/-- Net `n` is made with `w` bits, and whoever writes it directly writes `w` bits. -/
def Steady (n : NetId) (w : Nat) (k : Kernel) : Label → Prop
  | .call (.newNet initial _ _) => k.nets.length = n → initial.width = w
  | .call (.writeNet m v) => m = n → v.width = w
  | .call (.scheduleNba m v) => m = n → v.width = w
  | _ => True

instance (n : NetId) (w : Nat) (k : Kernel) : (l : Label) → Decidable (Steady n w k l)
  | .call (.newNet initial _ _) =>
    inferInstanceAs (Decidable (k.nets.length = n → initial.width = w))
  | .call (.writeNet m v) => inferInstanceAs (Decidable (m = n → v.width = w))
  | .call (.scheduleNba m v) => inferInstanceAs (Decidable (m = n → v.width = w))
  | .call (.newDriver _ _ _) | .call (.driveNet _ _) | .call (.scheduleDrive _ _ _)
  | .call (.scheduleDriveTransitions _ _ _) | .call .requestStop | .call .notifyRuntimeChange
  | .call (.triggerEvent _) | .addProcess | .runUntil _ | .resume | .suspend _ | .promote
  | .drainNba | .advance | .dispatch | .settle => .isTrue trivial

/-- Every vector of net `n` and of its drivers has `w` bits. -/
structure Shape (n : NetId) (w : Nat) (k : Kernel) : Prop where
  value : n < k.nets.length → (k.netValue n).width = w
  request : n < k.nets.length → (k.net n).delayRequest.width = w
  generations : n < k.nets.length → (k.net n).delayGenerations.length = w
  driverValues : ∀ v ∈ (k.net n).driverValues, v.width = w
  driverRequests : ∀ d < k.drivers.length, (k.driver d).net = n → (k.driverRequest d).width = w
  bitGenerations : ∀ d < k.drivers.length, (k.driver d).net = n → (k.bitGenerations d).length = w
  nba : ∀ u ∈ k.nba, u.1 = n → u.2.width = w

theorem driverRequest_setDriverRequest (k : Kernel) (d d' : DriverId) (v : PackedVec)
    (generations : List Generation) :
    (k.setDriverRequest d v generations).driverRequest d' =
      if d' = d ∧ d < k.driverRequests.length then v else k.driverRequest d' := by
  unfold Kernel.driverRequest Kernel.setDriverRequest
  simp only [List.getD_eq_getElem?_getD, List.getElem?_set]
  by_cases hd : d' = d
  · subst hd
    by_cases hlt : d' < k.driverRequests.length
    · simp [hlt]
    · simp [hlt]
  · simp [hd, Ne.symm hd]

theorem bitGenerations_setDriverRequest (k : Kernel) (d d' : DriverId) (v : PackedVec)
    (generations : List Generation) :
    (k.setDriverRequest d v generations).bitGenerations d' =
      if d' = d ∧ d < k.driverBitGenerations.length then generations
      else k.bitGenerations d' := by
  unfold Kernel.bitGenerations Kernel.setDriverRequest
  simp only [List.getD_eq_getElem?_getD, List.getElem?_set]
  by_cases hd : d' = d
  · subst hd
    by_cases hlt : d' < k.driverBitGenerations.length
    · simp [hlt]
    · simp [hlt]
  · simp [hd, Ne.symm hd]

/-- A change that leaves the requests of the drivers alone. -/
theorem Shape.of_net {n : NetId} {w : Nat} {k k' : Kernel} (h : Shape n w k)
    (hs : SameWiring k k')
    (hnet : n < k.nets.length → (k'.netValue n).width = w ∧ (k'.net n).delayRequest.width = w ∧
      (k'.net n).delayGenerations.length = w)
    (hvalues : ∀ v ∈ (k'.net n).driverValues, v.width = w)
    (hreq : k'.driverRequests = k.driverRequests)
    (hgen : k'.driverBitGenerations = k.driverBitGenerations)
    (hnba : ∀ u ∈ k'.nba, u.1 = n → u.2.width = w) : Shape n w k' := by
  refine ⟨fun hn => (hnet (hs.nets ▸ hn)).1, fun hn => (hnet (hs.nets ▸ hn)).2.1,
    fun hn => (hnet (hs.nets ▸ hn)).2.2, hvalues, fun d hd hdn => ?_, fun d hd hdn => ?_, hnba⟩
  · unfold Kernel.driverRequest
    rw [hreq]
    exact h.driverRequests d (hs.drivers ▸ hd) (hs.net d ▸ hdn)
  · unfold Kernel.bitGenerations
    rw [hgen]
    exact h.bitGenerations d (hs.drivers ▸ hd) (hs.net d ▸ hdn)

theorem Shape.of_calm {n : NetId} {w : Nat} {k k' : Kernel} (h : Shape n w k) (hk : Calm k k')
    (hnba : ∀ u ∈ k'.nba, u.1 = n → u.2.width = w) : Shape n w k' := by
  have hnet {β : Type} (f : Net → β) (hf : ∀ net, f (signals net) = f net) :
      f (k'.net n) = f (k.net n) := by
    rw [← hf (k'.net n), hk.signals, hf]
  refine h.of_net (.of_calm hk) (fun hn => ?_) ?_ hk.driverRequests hk.driverBitGenerations hnba
  · refine ⟨?_, ?_, ?_⟩
    · unfold Kernel.netValue
      rw [hnet Net.value fun _ => rfl]
      exact h.value hn
    · rw [hnet Net.delayRequest fun _ => rfl]
      exact h.request hn
    · rw [hnet Net.delayGenerations fun _ => rfl]
      exact h.generations hn
  · rw [hnet Net.driverValues fun _ => rfl]
    exact h.driverValues

theorem Shape.writeNet {n : NetId} {w : Nat} {k : Kernel} (h : Shape n w k) {m : NetId}
    {v : PackedVec} (hv : m = n → v.width = w) : Shape n w (k.writeNet m v) := by
  have hnet (f : Net → Nat) (hf : ∀ net u, f { signals net with value := u } = f net) :
      f ((k.writeNet m v).net n) = f (k.net n) := by
    have hsig : f (signals ((k.writeNet m v).net n)) = f ((k.writeNet m v).net n) := hf _ _
    rw [← hsig, signals_writeNet]
    split_ifs
    · exact hf _ _
    · exact hf _ _
  have hvals : ((k.writeNet m v).net n).driverValues = (k.net n).driverValues := by
    have hsig := congrArg Net.driverValues (signals_writeNet k m n v)
    rw [apply_ite Net.driverValues] at hsig
    simpa [signals] using hsig
  have hw := wakes_writeNet k m v
  refine h.of_net (sameWiring_writeNet k m v) (fun hn => ⟨?_, ?_, ?_⟩) ?_ hw.driverRequests
    hw.driverBitGenerations ?_
  · rw [netValue_writeNet]
    split_ifs with hm
    · exact hv hm.1.symm
    · exact h.value hn
  · rw [hnet (fun net => net.delayRequest.width) fun _ _ => rfl]
    exact h.request hn
  · rw [hnet (fun net => net.delayGenerations.length) fun _ _ => rfl]
    exact h.generations hn
  · rw [hvals]
    exact h.driverValues
  · rw [hw.nba]
    exact h.nba

theorem shape_touch {n : NetId} {w : Nat} {d : DriverId} {m : NetId} {k k' : Kernel}
    (ht : Touch d m k k') (hlt : ∀ d < k.drivers.length, (k.driver d).net < k.nets.length)
    (h : Shape n w k) : Shape n w k' := by
  cases ht with
  | net ht => cases ht with
    | writeNet v hv =>
      by_cases hn : n < k.nets.length
      · apply h.writeNet
        rintro rfl
        exact hv.trans (h.value hn)
      · -- a net that does not exist yet cannot be written
        refine h.of_net (sameWiring_writeNet k m v) (fun hn' => absurd hn' hn) ?_
          (wakes_writeNet k m v).driverRequests (wakes_writeNet k m v).driverBitGenerations ?_
        · have hsig := congrArg Net.driverValues (signals_writeNet k m n v)
          rw [apply_ite Net.driverValues] at hsig
          have heq : ((k.writeNet m v).net n).driverValues = (k.net n).driverValues := by
            simpa [signals] using hsig
          rw [heq]
          exact h.driverValues
        · rw [(wakes_writeNet k m v).nba]
          exact h.nba
    | setDelayRequest v generations hv hg =>
      have hs := @sameWiring_touch d m _ _ (.net (.setDelayRequest v generations hv hg))
      refine h.of_net hs (fun hn => ?_) ?_ rfl rfl h.nba
      · refine ⟨?_, ?_, ?_⟩
        · rw [netValue_setDelayRequest]
          exact h.value hn
        · unfold Kernel.setDelayRequest
          rw [Kernel.net_modifyNet]
          split_ifs with hm
          · rw [← hm.1] at hv
            exact hv.trans (h.value hn)
          · exact h.request hn
        · unfold Kernel.setDelayRequest
          rw [Kernel.net_modifyNet]
          split_ifs with hm
          · rw [← hm.1] at hg
            exact hg.trans (h.generations hn)
          · exact h.generations hn
      · unfold Kernel.setDelayRequest
        rw [Kernel.net_modifyNet]
        split_ifs
        · exact h.driverValues
        · exact h.driverValues
    | push hpos ha =>
      exact ⟨h.value, h.request, h.generations, h.driverValues, h.driverRequests, h.bitGenerations,
        h.nba⟩
  | setDriverValue v hd hv =>
    have hs := sameWiring_touch (Touch.setDriverValue v hd hv)
    refine h.of_net hs (fun hn => ?_) ?_ rfl rfl h.nba
    · unfold Kernel.netValue Kernel.setDriverValue
      rw [Kernel.net_modifyNet]
      split_ifs
      · exact ⟨h.value hn, h.request hn, h.generations hn⟩
      · exact ⟨h.value hn, h.request hn, h.generations hn⟩
    · unfold Kernel.setDriverValue
      rw [Kernel.net_modifyNet]
      split_ifs with hm
      · intro u hu
        rcases List.mem_or_eq_of_mem_set hu with hu | rfl
        · exact h.driverValues u hu
        · have hnm : n = m := hm.1.trans hd
          rw [hv, ← hnm]
          exact h.value (hm.1 ▸ hm.2)
      · exact h.driverValues
  | setDriverRequest v generations hv hg =>
    have hs := sameWiring_setDriverRequest k d v generations
    refine ⟨h.value, h.request, h.generations, h.driverValues, fun d' hd' hn => ?_,
      fun d' hd' hn => ?_, h.nba⟩
    · rw [hs.drivers] at hd'
      rw [hs.net] at hn
      rw [driverRequest_setDriverRequest]
      split_ifs with hdd
      · rw [hdd.1] at hn hd'
        rw [hv]
        unfold Kernel.driverWidth
        rw [hn]
        exact h.value (hn ▸ hlt d hd')
      · exact h.driverRequests d' hd' hn
    · rw [hs.drivers] at hd'
      rw [hs.net] at hn
      rw [bitGenerations_setDriverRequest]
      split_ifs with hdd
      · rw [hdd.1] at hn hd'
        rw [hg]
        exact h.bitGenerations d hd' hn
      · exact h.bitGenerations d' hd' hn
  | push hpos ha =>
    exact ⟨h.value, h.request, h.generations, h.driverValues, h.driverRequests, h.bitGenerations,
      h.nba⟩

theorem shape_touches {n : NetId} {w : Nat} {d : DriverId} {m : NetId} {k k' : Kernel}
    (ht : Touches d m k k') (hlt : ∀ d < k.drivers.length, (k.driver d).net < k.nets.length)
    (h : Shape n w k) : Shape n w k' := by
  induction ht with
  | refl => exact h
  | tail h₁ h₂ ih =>
    have hs := sameWiring_touches h₁
    refine shape_touch h₂ (fun d hd => ?_) ih
    rw [hs.net, hs.nets]
    exact hlt d (hs.drivers ▸ hd)

theorem shape_dispatchEvent {n : NetId} {w : Nat} {k : Kernel} (hk : Wired k) (h : Shape n w k)
    (ev : TimedEvent) : Shape n w (k.dispatchEvent ev) := by
  by_cases ha : ∃ p, ev.action = .resume p
  · obtain ⟨p, ha⟩ := ha
    unfold Kernel.dispatchEvent
    rw [ha]
    dsimp only
    split
    · exact h.of_calm ⟨rfl, rfl, fun _ => rfl, rfl, rfl, rfl, rfl, rfl⟩ h.nba
    · exact h.of_calm ⟨rfl, rfl, fun _ => rfl, rfl, rfl, rfl, rfl, rfl⟩ h.nba
  · obtain ⟨d, m, ht⟩ := touches_dispatchEvent fun p hp => ha ⟨p, hp⟩
    exact shape_touches ht hk.net_lt h

theorem shape_drainNba {n : NetId} {w : Nat} {k : Kernel} (h : Shape n w k) :
    Shape n w k.drainNba := by
  have hclear : Shape n w { k with nba := [] } :=
    h.of_calm ⟨rfl, rfl, fun _ => rfl, rfl, rfl, rfl, rfl, rfl⟩ (by simp)
  refine drainNba_keeps (R := fun k k' => Shape n w k → Shape n w k') (fun _ h => h)
    (fun h₁ h₂ h => h₂ (h₁ h)) (fun _ => hclear) (fun u hu k₁ h₁ => h₁.writeNet (h.nba u hu))
    (fun k₁ h₁ => ?_) h
  exact h₁.of_calm ⟨rfl, rfl, fun _ => rfl, rfl, rfl, rfl, rfl, rfl⟩ h₁.nba

theorem shape_newNet {n : NetId} {w : Nat} {k : Kernel} (h : Shape n w k)
    (initial : PackedVec) (resolution : NetResolution) (delay : Option NetDelay)
    (hw : k.nets.length = n → initial.width = w) :
    Shape n w (k.newNetWithResolutionAndDelay initial resolution delay) := by
  have hlen : (k.newNetWithResolutionAndDelay initial resolution delay).nets.length =
      k.nets.length + 1 := by simp [Kernel.newNetWithResolutionAndDelay]
  have hold (hn : n < (k.newNetWithResolutionAndDelay initial resolution delay).nets.length)
      (hne : n ≠ k.nets.length) : n < k.nets.length := by
    rw [hlen] at hn
    exact (Nat.lt_succ_iff_lt_or_eq.mp hn).resolve_right hne
  refine ⟨fun hn => ?_, fun hn => ?_, fun hn => ?_, ?_, h.driverRequests, h.bitGenerations, h.nba⟩
  · unfold Kernel.netValue
    rw [net_newNet]
    split_ifs with he
    · exact hw he.symm
    · exact h.value (hold hn he)
  · rw [net_newNet]
    split_ifs with he
    · exact hw he.symm
    · exact h.request (hold hn he)
  · rw [net_newNet]
    split_ifs with he
    · exact (List.length_replicate ..).trans (hw he.symm)
    · exact h.generations (hold hn he)
  · rw [net_newNet]
    split_ifs with he
    · simp [Net.withResolution]
    · exact h.driverValues

theorem shape_newDriver {n : NetId} {w : Nat} {k : Kernel} (hk : Wired k) (h : Shape n w k)
    {m : NetId} (hm : m < k.nets.length) (zero one : DriveStrength) :
    Shape n w (k.newDriverWithStrengths m zero one) := by
  have hnets : (k.newDriverWithStrengths m zero one).nets.length = k.nets.length :=
    List.length_modify _ _ _
  have hnet : (k.newDriverWithStrengths m zero one).net n = (k.addDriverSlot m zero one).net n :=
    rfl
  have hlen : (k.newDriverWithStrengths m zero one).drivers.length = k.drivers.length + 1 := by
    simp [Kernel.newDriverWithStrengths]
  have hwidth (hmn : m = n) : (k.netValue m).width = w := by
    subst hmn
    exact h.value hm
  refine ⟨fun hn => ?_, fun hn => ?_, fun hn => ?_, ?_, fun d hd hdn => ?_, fun d hd hdn => ?_,
    h.nba⟩
  · unfold Kernel.netValue
    rw [hnet, net_addDriverSlot]
    split_ifs <;> exact h.value (hnets ▸ hn)
  · rw [hnet, net_addDriverSlot]
    split_ifs <;> exact h.request (hnets ▸ hn)
  · rw [hnet, net_addDriverSlot]
    split_ifs <;> exact h.generations (hnets ▸ hn)
  · rw [hnet, net_addDriverSlot]
    split_ifs with hc
    · intro u hu
      rcases List.mem_append.mp hu with hu | hu
      · exact h.driverValues u hu
      · rw [List.mem_singleton.mp hu, PackedVec.width_z]
        exact h.value (hc.1 ▸ hm)
    · exact h.driverValues
  · rw [hlen] at hd
    rw [driver_newDriver] at hdn
    rcases Nat.lt_succ_iff_lt_or_eq.mp hd with hd | rfl
    · rw [if_neg (Nat.ne_of_lt hd)] at hdn
      have hreq : (k.newDriverWithStrengths m zero one).driverRequest d = k.driverRequest d := by
        unfold Kernel.driverRequest Kernel.newDriverWithStrengths
        simp only [List.getD_eq_getElem?_getD]
        rw [List.getElem?_append_left (hk.requests.symm ▸ hd)]
      rw [hreq]
      exact h.driverRequests d hd hdn
    · rw [if_pos rfl] at hdn
      have hreq : (k.newDriverWithStrengths m zero one).driverRequest k.drivers.length =
          .z (k.netValue m).width := by
        simp [Kernel.driverRequest, Kernel.newDriverWithStrengths, ← hk.requests]
      rw [hreq, PackedVec.width_z]
      exact hwidth hdn
  · rw [hlen] at hd
    rw [driver_newDriver] at hdn
    rcases Nat.lt_succ_iff_lt_or_eq.mp hd with hd | rfl
    · rw [if_neg (Nat.ne_of_lt hd)] at hdn
      have hgen : (k.newDriverWithStrengths m zero one).bitGenerations d = k.bitGenerations d := by
        unfold Kernel.bitGenerations Kernel.newDriverWithStrengths
        simp only [List.getD_eq_getElem?_getD]
        rw [List.getElem?_append_left (hk.generations.symm ▸ hd)]
      rw [hgen]
      exact h.bitGenerations d hd hdn
    · rw [if_pos rfl] at hdn
      have hgen : (k.newDriverWithStrengths m zero one).bitGenerations k.drivers.length =
          List.replicate (k.netValue m).width 0 := by
        simp [Kernel.bitGenerations, Kernel.newDriverWithStrengths, ← hk.generations]
      rw [hgen, List.length_replicate]
      exact hwidth hdn

theorem shape_effect {n : NetId} {w : Nat} {l : Label} {k k' : Kernel} (he : Effect l k k')
    (hk : Wired k) (h : Shape n w k) (hl : Steady n w k l) : Shape n w k' := by
  cases he with
  | calm hc hn =>
    refine h.of_calm hc ?_
    rcases hn with hn | ⟨m, v, rfl, hn⟩
    · exact hn ▸ h.nba
    · rw [hn]
      intro u hu hun
      rcases List.mem_append.mp hu with hu | hu
      · exact h.nba u hu hun
      · obtain rfl := List.mem_singleton.mp hu
        exact hl hun
  | @delayed _ k₁ fs pid hc =>
    have h₁ := h.of_calm hc.toCalm (hc.nba ▸ h.nba)
    exact ⟨h₁.value, h₁.request, h₁.generations, h₁.driverValues, h₁.driverRequests,
      h₁.bitGenerations, h₁.nba⟩
  | newNet initial resolution delay => exact shape_newNet h initial resolution delay hl
  | newDriver hn hw => exact shape_newDriver hk h hn _ _
  | drive hc hd => exact shape_touches (touches_call hc) hk.net_lt h
  | write hn => exact h.writeNet hl
  | drain => exact shape_drainNba h
  | advance =>
    exact ⟨h.value, h.request, h.generations, h.driverValues, h.driverRequests, h.bitGenerations,
      h.nba⟩
  | @dispatch _ ev rest ht hd =>
    have hrest : Shape n w { k with timed := rest } := ⟨h.value, h.request, h.generations,
      h.driverValues, h.driverRequests, h.bitGenerations, h.nba⟩
    exact shape_dispatchEvent (hk.timed (fun ev' hev => ht ▸ List.mem_cons_of_mem _ hev) k.time)
      hrest ev

theorem shape_new (n : NetId) (w : Nat) : Shape n w Kernel.new := by
  refine ⟨fun hn => ?_, fun hn => ?_, fun hn => ?_, ?_, fun d hd => ?_, fun d hd => ?_, ?_⟩
  · exact absurd hn (Nat.not_lt_zero n)
  · exact absurd hn (Nat.not_lt_zero n)
  · exact absurd hn (Nat.not_lt_zero n)
  · exact fun v hv => absurd hv List.not_mem_nil
  · exact absurd hd (Nat.not_lt_zero d)
  · exact absurd hd (Nat.not_lt_zero d)
  · exact fun u hu => absurd hu List.not_mem_nil

end Eevee.Sched.Layout
