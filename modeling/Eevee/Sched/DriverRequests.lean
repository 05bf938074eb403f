/- The last request of a driver, and the value of a driver without delays. -/

import Mathlib.Tactic.Common
import Mathlib.Tactic.SplitIfs
import Eevee.Sched.Drivers

set_option autoImplicit false
set_option relaxedAutoImplicit false

namespace Eevee.Sched.DriverRequests

open Eevee.Core.Logic
open Eevee.Core.Logic.PackedVec (width_resize resize_of_width_eq eqCase_iff)
open Eevee.Sched.Drivers
open Eevee.Sched.Frames
open Eevee.Sched.Layout
open Eevee.Sched.Nets
open Eevee.Sched.Scheduler
open Eevee.Sched.Simulation
open Eevee.Sched.Stages

/-- No event on the wheel belongs to the driver. -/
def Undelayed (k : Kernel) (d : DriverId) : Prop := ∀ ev ∈ k.timed, ¬ OfDriver d ev.action

theorem undelayed_of_wheel {k k' : Kernel} {d : DriverId}
    (h : k'.timed.filter (fun ev => Owns (.driver d) ev.action) =
      k.timed.filter fun ev => Owns (.driver d) ev.action) (hu : Undelayed k d) :
    Undelayed k' d := by
  intro ev hev ho
  have hmem : ev ∈ k'.timed.filter fun ev => Owns (.driver d) ev.action :=
    List.mem_filter.mpr ⟨hev, decide_eq_true ho⟩
  rw [h] at hmem
  exact hu ev (List.mem_filter.mp hmem).1 ho

/-! ### Steps that request nothing of the driver -/

section

variable {k k' : Kernel} {l : Label} {d : DriverId}

theorem request_dispatchEvent (hk : Wired k) {ev : TimedEvent} {rest : List TimedEvent}
    (ht : k.timed = ev :: rest) (ho : OfDriver d ev.action) :
    ({ k with timed := rest }.dispatchEvent ev).driverRequest d = k.driverRequest d := by
  have hrest : Wired { k with timed := rest } :=
    hk.timed (fun ev' hev => ht ▸ List.mem_cons_of_mem _ hev) k.time
  have haims : Aims k ev.action := hk.aims ev (ht ▸ List.mem_cons_self)
  have hset (hd : d < k.drivers.length) (v : PackedVec) :
      ({ k with timed := rest }.applyDrive d v).driverRequest d = k.driverRequest d :=
    (@sets_applyDrive { k with timed := rest } hrest d hd v).request
  unfold Kernel.dispatchEvent
  cases ha : ev.action with
  | drive d' v generation =>
    rw [ha] at ho haims
    obtain rfl : d' = d := ho
    dsimp only
    split_ifs
    · exact hset haims _
    · rfl
  | driveBits d' us =>
    rw [ha] at ho haims
    obtain rfl : d' = d := ho
    dsimp only
    split_ifs
    · exact hset haims _
    · rfl
  | resume | netBits =>
    rw [ha] at ho
    exact absurd ho id

/-- The request stays; without events on the wheel the value stays too. -/
theorem request_kept (he : Effect l k k') (hk : Wired k) (hd : d < k.drivers.length)
    (hl : ∀ c n, l = .call c → Call.target k c ≠ some (d, n)) :
    k'.driverRequest d = k.driverRequest d ∧
      (Undelayed k d → Undelayed k' d ∧ k'.driverValue d = k.driverValue d) := by
  cases driverEffect_of_effect he hk hd with
  | same h ht => exact ⟨h.request, fun hu => ⟨undelayed_of_wheel h.wheel hu, h.value⟩⟩
  | drive hc => exact absurd hc (hl _ _ rfl)
  | advance =>
    exact ⟨rfl, fun hu => ⟨fun ev hev => hu ev ((List.dropWhile_sublist _).subset hev), rfl⟩⟩
  | dispatch ht hdue ho =>
    exact ⟨request_dispatchEvent hk ht ho, fun hu => absurd ho (hu _ (ht ▸ List.mem_cons_self))⟩

end

/-! ### Requests -/

section

variable {k : Kernel} {d : DriverId}

theorem driverRequest_pushDelayed (k : Kernel) (delayed : List (Nat × List BitDrive)) :
    (k.pushDelayed (.driveBits d) delayed).driverRequest d = k.driverRequest d := by
  obtain ⟨timed, seq, h⟩ := pushDelayed_frame (.driveBits d) delayed k
  rw [h]
  rfl

/-- After a request of a value the request of the driver is this value in its width. -/
theorem request_call (hk : Wired k) (hd : d < k.drivers.length) {v : PackedVec} {c : Call}
    (hc : c = .driveNet d v ∨ (∃ fs, c = .scheduleDrive d v fs) ∨
      ∃ delays, c = .scheduleDriveTransitions d v delays) :
    (c.exec k).driverRequest d = v.resize (k.driverWidth d) false := by
  have hset {generations : List Generation} (u : PackedVec) :
      ((k.setDriverRequest d (v.resize (k.driverWidth d) false) generations).applyDrive d
        u).driverRequest d = v.resize (k.driverWidth d) false := by
    have hd' : d < (k.setDriverRequest d (v.resize (k.driverWidth d) false)
        generations).drivers.length := by
      rwa [(sameWiring_setDriverRequest k d _ _).drivers]
    rw [(sets_applyDrive (wired_setDriverRequest hk d _ _) hd' _).request]
    exact (setDriverRequest_own hk hd _ _).2.1
  have hrequest (generations : List Generation) :
      (k.setDriverRequest d (v.resize (k.driverWidth d) false) generations).driverRequest d =
        v.resize (k.driverWidth d) false := (setDriverRequest_own hk hd _ _).2.1
  rcases hc with rfl | ⟨fs, rfl⟩ | ⟨delays, rfl⟩
  · exact hset _
  · show (k.scheduleDrive d v fs).driverRequest d = _
    unfold Kernel.scheduleDrive Kernel.startDrive
    dsimp only
    split_ifs with heq
    · exact eqCase_iff.mp heq
    · exact hrequest ((k.bitGenerations d).map (· + 1))
    · exact hset _
    · exact hrequest ((k.bitGenerations d).map (· + 1))
  · show (k.scheduleDriveTransitions d v delays).driverRequest d = _
    unfold Kernel.scheduleDriveTransitions Kernel.requestDriver Kernel.driveImmediate
    dsimp only
    split_ifs with heq
    · exact eqCase_iff.mp heq
    · rw [driverRequest_pushDelayed]
      exact hset _
    · rw [driverRequest_pushDelayed]
      exact hrequest _

/-- Without a delay the driver takes the value at once, and nothing of it is left on the wheel. -/
theorem value_driveNet (hk : Wired k) (hd : d < k.drivers.length) (hu : Undelayed k d)
    (v : PackedVec) : (k.driveNet d v).driverValue d = v.resize (k.driverWidth d) false ∧
      Undelayed (k.driveNet d v) d := by
  have hk' := wired_setDriverRequest hk d (v.resize (k.driverWidth d) false)
    ((k.bitGenerations d).map (· + 1))
  have hd' : d < (k.supersede d (v.resize (k.driverWidth d) false)).drivers.length := by
    unfold Kernel.supersede
    rwa [(sameWiring_setDriverRequest k d _ _).drivers]
  have hset := sets_applyDrive hk' hd' (v.resize (k.driverWidth d) false)
  refine ⟨hset.value.trans ?_, undelayed_of_wheel hset.wheel hu⟩
  rw [(setDriverRequest_own hk hd _ _).2.2.2.2]
  exact resize_of_width_eq (width_resize ..) false

end

end Eevee.Sched.DriverRequests
