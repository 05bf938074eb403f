/- Continuous assignments and port bridges are settled whenever the active queue is empty. -/

import Mathlib.Tactic.Common
import Mathlib.Tactic.SplitIfs
import Eevee.Elab.Continuous
import Eevee.Sched.DriverRequests
import Eevee.Sched.Observers

set_option autoImplicit false
set_option relaxedAutoImplicit false

namespace Eevee.Elab.Quiescence

open Eevee.Core.Logic
open Eevee.Ir.Interp (Frame)
open Eevee.Ir.Values (Value)
open Eevee.Lib.Transition
open Eevee.Elab.Continuous
open Eevee.Elab.Processes (Process resume)
open Eevee.Elab.Callable (emptyScope)
open Eevee.Elab.Evaluation
open Eevee.Elab.Generator (CodeGen)
open Eevee.Elab.ReadSets
open Eevee.Sched.DriverRequests
open Eevee.Sched.Drivers
open Eevee.Sched.ForkJoin (length_procs_step)
open Eevee.Sched.Frames
open Eevee.Sched.Layout
open Eevee.Sched.Nets
open Eevee.Sched.Observers
open Eevee.Sched.Scheduler
open Eevee.Sched.Simulation (Call Label Runs Sim Stepped stepped_of_step)
open Eevee.Sched.Stages
open Eevee.Sched.Wakeup

/-! ### The processes -/

/-- The process of an assignment or of a bridge, with its driver. -/
structure Task where
  proc : ProcId
  driver : DriverId
  source : Source
  plain : source.Plain
  process : Process
  made : source.program driver = some process
  frame : Frame

/-- The simulation with the assignments and bridges of the design; all other processes are
arbitrary. -/
structure World where
  sim : Sim
  tasks : List Task

namespace World

def new : World := ⟨.new, []⟩

/-- The assignment or bridge whose process runs. -/
def running (w : World) : Option Task :=
  (current w.sim).bind fun p => w.tasks.find? (·.proc = p)

/-- The step is a request of the driver. -/
def requests (k : Kernel) (d : DriverId) : Label → Bool
  | .call c => (Call.target k c).any (·.1 = d)
  | _ => false

end World

/-- What happens, one thing at a time: the scheduler or any other process takes a step; elaboration
makes a driver and the process of an assignment to a net that the assignment does not read; or the
process of an assignment runs until it suspends, with these values of the package variables. -/
inductive Act
  | sched (l : Label)
  | elaborate (source : Source) (h : source.Plain) (net : NetId) (zero one : DriveStrength)
  | activate (statics : Nat → Value) (fuel : Nat)

/-- The process of an assignment in the tables of the simulation. -/
def World.add (w : World) (source : Source) (h : source.Plain) (net : NetId)
    (zero one : DriveStrength) : Option World :=
  (Eevee.Sched.Simulation.step (.call (.newDriver net zero one)) w.sim).bind fun sim =>
    (Eevee.Sched.Simulation.step .addProcess sim).bind fun sim' =>
      match hp : source.program w.sim.kernel.drivers.length with
      | some process => some ⟨sim', w.tasks ++ [⟨w.sim.procs.length, w.sim.kernel.drivers.length,
          source, h, process, hp, ⟨0, List.replicate process.body.nRegs .null⟩⟩]⟩
      | none => none

def step (act : Act) (w : World) : Option World :=
  match act with
  | .sched l =>
    if w.running.isNone && w.tasks.all fun t => !World.requests w.sim.kernel t.driver l then
      (Eevee.Sched.Simulation.step l w.sim).map fun sim => { w with sim }
    else none
  | .elaborate source h net zero one =>
    if net ∈ source.reads then none else w.add source h net zero one
  | .activate statics fuel => w.running.bind fun t =>
    (resume t.process statics fuel w.sim t.frame).map fun (sim, frame) =>
      ⟨sim, w.tasks.map fun u => if u.proc = t.proc then { u with frame } else u⟩

/-! ### Settled assignments -/

/-- What the right-hand side is worth on the current nets. -/
def Task.value (t : Task) (k : Kernel) : Option Value := t.source.value ⟨k.netValue, fun _ => .null⟩

/-- The driver has been asked for the value of the right-hand side on the current nets, in the width
of the driver; without a delay it has this value. -/
structure Settled (t : Task) (k : Kernel) : Prop where
  request : ∃ v, t.value k = some v ∧
    k.driverRequest t.driver = v.asLogic.resize (k.driverRequest t.driver).width false
  value : t.source.delay = none → k.driverValue t.driver = k.driverRequest t.driver

/-- The package variables do not matter, nor do nets that are not read. -/
theorem value_same {source : Source} (h : source.Plain) {W W' : Ir.Values.World}
    (hw : SameOn source.reads W W') : source.value W = source.value W' := by
  cases source with
  | assign cg rhs width delay => exact evalAtWidth_same h.2 hw width
  | bridge net signed width =>
    have hnet : W.nets net = W'.nets net := hw net List.mem_cons_self
    unfold Source.value
    dsimp only
    rw [hnet]

/-- What holds of each task between two steps. -/
structure Sound (s : Sim) (t : Task) : Prop where
  proc : t.proc < s.procs.length
  driver : t.driver < s.kernel.drivers.length
  apart : (s.kernel.driver t.driver).net ∉ t.source.reads
  starts : s.lastWait t.proc ≠ some .finished → Generated.Starts t.source t.process t.frame
  undelayed : t.source.delay = none → Undelayed s.kernel t.driver
  wait : current s ≠ some t.proc → t.proc ∉ s.kernel.active → s.lastWait t.proc = some t.source.wait
  settled : current s ≠ some t.proc → t.proc ∉ s.kernel.active → Settled t s.kernel

section

variable {s s' : Sim} {l : Label} {t : Task}

/-- A step of others that requests nothing of the driver. -/
theorem sound_bystander {labels : List Label} (hr : Runs labels s) (hw : Wired s.kernel)
    (h : Sound s t) (hs : Eevee.Sched.Simulation.step l s = some s')
    (hcur : current s ≠ some t.proc)
    (hl : ∀ c n, l = .call c → Call.target s.kernel c ≠ some (t.driver, n)) : Sound s' t := by
  have hheld := held_run hr
  have heffect := effect_of_step hs
  obtain ⟨hdriver, hnet⟩ := driver_effect heffect h.driver
  obtain ⟨hrequest, hvalue⟩ := request_kept heffect hw h.driver hl
  have hproc : t.proc < s'.procs.length := Nat.lt_of_lt_of_le h.proc (length_procs_step hs)
  have hidle (hcur' : current s' ≠ some t.proc) (hactive : t.proc ∉ s'.kernel.active) :
      Bystander s s' t.proc ∧ t.proc ∉ s.kernel.active := by
    have hby := bystander_step hheld hs hcur hcur'
    exact ⟨hby, fun hmem => hactive ((hby.attends []).active hmem)⟩
  refine ⟨hproc, hdriver, hnet.symm ▸ h.apart, fun hfin => h.starts fun hfin' =>
    hfin (finished_step hheld hs hfin'), fun hdelay => (hvalue (h.undelayed hdelay)).1,
    fun hcur' hactive => ?_, fun hcur' hactive => ?_⟩
  · obtain ⟨hby, hactive⟩ := hidle hcur' hactive
    exact hby.lastWait.trans (h.wait hcur hactive)
  · obtain ⟨hby, hqueued⟩ := hidle hcur' hactive
    obtain ⟨⟨v, hv, hreq⟩, hnow⟩ := h.settled hcur hqueued
    have hsame : SameOn t.source.reads ⟨s.kernel.netValue, fun _ => .null⟩
        ⟨s'.kernel.netValue, fun _ => .null⟩ := by
      intro n hn
      have hwait := h.wait hcur hqueued
      unfold Source.wait at hwait
      rw [if_neg (List.ne_nil_of_mem hn)] at hwait
      have hwatching :=
        ((attentive_run hr).watching t.proc h.proc hcur _ hwait).resolve_left hqueued
      obtain ⟨-, hvalues⟩ := ((hby.attends t.source.reads).watching hwatching).resolve_left hactive
      exact (hvalues n hn).symm
    refine ⟨⟨v, (value_same t.plain hsame).symm.trans hv, ?_⟩, fun hdelay => ?_⟩
    · rw [hrequest]
      exact hreq
    · rw [hrequest, (hvalue (h.undelayed hdelay)).2]
      exact hnow hdelay

theorem target_call (source : Source) (d : DriverId) (v : PackedVec) (k : Kernel) :
    Call.target k (source.call d v) = some (d, (k.driver d).net) := by
  unfold Source.call
  cases source.delay with
  | none => rfl
  | some delay => cases delay <;> rfl

/-- The call of an assignment records its request; without a delay the driver has the value. -/
theorem request_assignment {k : Kernel} {d : DriverId} {source : Source} (hk : Wired k)
    (hd : d < k.drivers.length) (v : PackedVec) :
    ((source.call d v).exec k).driverRequest d = v.resize (k.driverWidth d) false ∧
      (source.delay = none → Undelayed k d → Undelayed ((source.call d v).exec k) d ∧
        ((source.call d v).exec k).driverValue d = v.resize (k.driverWidth d) false) := by
  unfold Source.call
  cases source.delay with
  | none =>
    obtain ⟨hvalue, hundelayed⟩ : _ ∧ (Undelayed k d → _) :=
      ⟨fun hu => (value_driveNet hk hd hu v).1, fun hu => (value_driveNet hk hd hu v).2⟩
    exact ⟨request_call hk hd (.inl rfl), fun _ hu => ⟨hundelayed hu, hvalue hu⟩⟩
  | some delay =>
    refine ⟨?_, fun h => by cases h⟩
    cases delay with
    | single fs => exact request_call hk hd (.inr (.inl ⟨fs, rfl⟩))
    | transitions delays => exact request_call hk hd (.inr (.inr ⟨delays, rfl⟩))

/-- A request of a driver changes its own net only. -/
theorem netValue_request {k : Kernel} {d : DriverId} {c : Call} {n m : NetId} (hk : Wired k)
    (hd : d < k.drivers.length) (hc : Call.target k c = some (d, n)) (hm : m ≠ n) :
    (c.exec k).netValue m = k.netValue m := by
  have hstage : SameStage (.net m) k (c.exec k) :=
    sameStage_touches (touches_call hc) hk hd (target_spec hc ▸ hk.net_lt d hd) (by simpa using hm)
      (by simp) (by simp)
  exact hstage.value

theorem current_suspend {wait : Wait}
    (hs : Eevee.Sched.Simulation.step (.suspend wait) s = some s') :
    current s' = none := by
  cases stepped_of_step hs with
  | suspend hm hn =>
    unfold current
    split_ifs <;> rfl

theorem netValue_suspend {wait : Wait}
    (hs : Eevee.Sched.Simulation.step (.suspend wait) s = some s') (n : NetId) :
    s'.kernel.netValue n = s.kernel.netValue n := by
  cases stepped_of_step hs with
  | @suspend _ limit pid wait hm hn => exact netValue_park s pid wait n

theorem current_call {c : Call} (hs : Eevee.Sched.Simulation.step (.call c) s = some s') :
    s' = { s with kernel := c.exec s.kernel } := by
  cases stepped_of_step hs with
  | call hm hv => rfl

/-- The running assignment has driven its value and waits for the nets that it has read. -/
theorem sound_activation {labels : List Label} {statics : Nat → Value} {fuel : Nat} {frame : Frame}
    (hr : Runs labels s) (hw : Wired s.kernel) (h : Sound s t) (hcur : current s = some t.proc)
    (hres : resume t.process statics fuel s t.frame = some (s', frame)) :
    ∃ v s₁, Eevee.Sched.Simulation.step (.call (t.source.call t.driver v)) s = some s₁ ∧
      Eevee.Sched.Simulation.step (.suspend t.source.wait) s₁ = some s' ∧
      Sound s' { t with frame } := by
  have hheld := held_run hr
  obtain ⟨k⟩ := generated t.made
  have hstarts := h.starts (by rw [(hheld.running t.proc hcur).2]; simp)
  obtain ⟨v, s₁, hv, hcall, hsuspend, hrestarts⟩ := k.activation_spec t.plain hstarts hres
  refine ⟨v.asLogic, s₁, hcall, hsuspend, ?_⟩
  have hs₁ := current_call hcall
  have hheld₁ := held_step hheld hcall
  have hcur₁ : current s₁ = some t.proc := by
    rw [hs₁]
    exact hcur
  have hw₁ : Wired s₁.kernel := wired_effect (effect_of_step hcall) hw
  obtain ⟨hdriver₁, hnet₁⟩ := driver_effect (effect_of_step hcall) h.driver
  obtain ⟨hdriver', hnet'⟩ := driver_effect (effect_of_step hsuspend) hdriver₁
  obtain ⟨hrequest', hvalue'⟩ := request_kept (effect_of_step hsuspend) hw₁ hdriver₁
    fun c n hc => by cases hc
  have hassigned := @request_assignment s.kernel t.driver t.source hw h.driver v.asLogic
  rw [hs₁] at hrequest' hvalue'
  have hlast (hcur' : current s' ≠ some t.proc) :
      s'.lastWait t.proc = some t.source.wait := by
    obtain ⟨wait, heq, hlast, -⟩ := parks hheld₁ hsuspend hcur₁ hcur'
    cases heq
    exact hlast
  have hcur' : current s' ≠ some t.proc := by
    rw [current_suspend hsuspend]
    simp
  refine ⟨?_, hdriver', ?_, ?_, ?_, fun _ _ => hlast hcur', fun _ _ => ⟨⟨v, ?_, ?_⟩, ?_⟩⟩
  · exact Nat.lt_of_lt_of_le h.proc ((length_procs_step hcall).trans (length_procs_step hsuspend))
  · rw [hnet', hnet₁]
    exact h.apart
  · intro hfin
    refine hrestarts fun hnil => hfin ?_
    rw [hlast hcur', Source.wait, if_pos hnil]
  · exact fun hdelay => (hvalue' (hassigned.2 hdelay (h.undelayed hdelay)).1).1
  · refine Eq.trans (value_same t.plain fun n hn => ?_) hv
    have hne : n ≠ (s.kernel.driver t.driver).net := fun heq => h.apart (heq ▸ hn)
    show s'.kernel.netValue n = s.kernel.netValue n
    rw [netValue_suspend hsuspend, hs₁]
    exact netValue_request hw h.driver (target_call t.source t.driver v.asLogic s.kernel) hne
  · rw [hrequest', hassigned.1, PackedVec.width_resize]
  · intro hdelay
    obtain ⟨hundelayed, hvalue⟩ := hassigned.2 hdelay (h.undelayed hdelay)
    rw [(hvalue' hundelayed).2, hrequest', hvalue, hassigned.1]

/-- The process of a new task is queued; its driver is the next one. -/
theorem sound_new {source : Source} {h : source.Plain} {process : Process} {net : NetId}
    {zero one : DriveStrength} {s₁ : Sim} (hw : Wired s.kernel) (hnet : net ∉ source.reads)
    (hp : source.program s.kernel.drivers.length = some process)
    (hdriver : Eevee.Sched.Simulation.step (.call (.newDriver net zero one)) s = some s₁)
    (hproc : Eevee.Sched.Simulation.step .addProcess s₁ = some s') :
    Sound s' ⟨s.procs.length, s.kernel.drivers.length, source, h, process, hp,
      ⟨0, List.replicate process.body.nRegs .null⟩⟩ := by
  obtain rfl := current_call hdriver
  have hactive : s.procs.length ∈ s'.kernel.active := by
    cases stepped_of_step hproc with
    | addProcess hm => exact List.mem_append_right _ List.mem_cons_self
  cases stepped_of_step hproc with
  | addProcess hm =>
    have hdrivers : s.kernel.drivers.length <
        (s.kernel.newDriverWithStrengths net zero one).drivers.length := by
      simp [Kernel.newDriverWithStrengths]
    refine ⟨by simp [Sim.addProcess], hdrivers, ?_, fun _ => ⟨by simp, .inl rfl⟩, fun _ => ?_,
      fun _ hidle => absurd hactive hidle, fun _ hidle => absurd hactive hidle⟩
    · show ((s.kernel.newDriverWithStrengths net zero one).driver s.kernel.drivers.length).net ∉ _
      rw [driver_newDriver, if_pos rfl]
      exact hnet
    · intro ev hev ho
      have haims : Aims s.kernel ev.action := hw.aims ev hev
      cases ha : ev.action with
      | drive d v generation =>
        rw [ha] at ho haims
        obtain rfl : d = s.kernel.drivers.length := ho
        exact Nat.lt_irrefl _ haims
      | driveBits d us =>
        rw [ha] at ho haims
        obtain rfl : d = s.kernel.drivers.length := ho
        exact Nat.lt_irrefl _ haims
      | resume | netBits =>
        rw [ha] at ho
        exact ho

end

/-! ### Whole runs -/

/-- The simulation is reached by steps of its own; the tasks have processes and drivers of their
own, and each of them is sound. -/
structure Maintained (w : World) : Prop where
  reached : ∃ labels, Runs labels w.sim
  procs : (w.tasks.map (·.proc)).Nodup
  drivers : (w.tasks.map (·.driver)).Nodup
  sound : ∀ t ∈ w.tasks, Sound w.sim t

theorem Maintained.wired {w : World} (h : Maintained w) : Wired w.sim.kernel := by
  obtain ⟨labels, hr⟩ := h.reached
  exact run_invariant (fun s => Wired s.kernel) hr wired_new
    fun _ _ _ hw hs => wired_effect (effect_of_step hs) hw

theorem runs_snoc {labels : List Label} {s s' : Sim} {l : Label} (hr : Runs labels s)
    (hs : Eevee.Sched.Simulation.step l s = some s') : Runs (labels ++ [l]) s' :=
  run_append.mpr ⟨s, hr, run_cons.mpr ⟨s', hs, rfl⟩⟩

theorem nodup_snoc {f : Task → Nat} {tasks : List Task} {t : Task} (h : (tasks.map f).Nodup)
    (hlt : ∀ u ∈ tasks, f u < f t) : ((tasks ++ [t]).map f).Nodup := by
  rw [List.map_append, List.map_singleton]
  refine h.append (List.nodup_singleton _) fun n hn hn' => ?_
  obtain ⟨u, hu, rfl⟩ := List.mem_map.mp hn
  exact Nat.ne_of_lt (hlt u hu) (List.mem_singleton.mp hn')

section

variable {w w' : World}

theorem maintained_sched {l : Label} (h : Maintained w) (hs : step (.sched l) w = some w') :
    Maintained w' := by
  unfold step at hs
  dsimp only at hs
  split_ifs at hs with hguard
  obtain ⟨hrun, hrequests⟩ := Bool.and_eq_true_iff.mp hguard
  obtain ⟨s', hs', rfl⟩ := Option.map_eq_some_iff.mp hs
  obtain ⟨labels, hr⟩ := h.reached
  refine ⟨⟨_, runs_snoc hr hs'⟩, h.procs, h.drivers, fun t ht => ?_⟩
  refine sound_bystander hr h.wired (h.sound t ht) hs' (fun hcur => ?_) fun c n hl htarget => ?_
  · rw [World.running, hcur, Option.isNone_iff_eq_none, Option.bind_some,
      List.find?_eq_none] at hrun
    simpa using hrun t ht
  · have hno := List.all_eq_true.mp hrequests t ht
    rw [hl] at hno
    simp [World.requests, htarget] at hno

theorem maintained_elaborate {source : Source} {hplain : source.Plain} {net : NetId}
    {zero one : DriveStrength} (h : Maintained w)
    (hs : step (.elaborate source hplain net zero one) w = some w') : Maintained w' := by
  unfold step at hs
  dsimp only at hs
  split_ifs at hs with hnet
  obtain ⟨s₁, hdriver, hs⟩ := Option.bind_eq_some_iff.mp hs
  obtain ⟨s₂, hproc, hs⟩ := Option.bind_eq_some_iff.mp hs
  split at hs
  case h_2 => cases hs
  case h_1 process hp =>
    cases hs
    obtain ⟨labels, hr⟩ := h.reached
    have hr₁ := runs_snoc hr hdriver
    have hidle : current w.sim = none := by
      have hs₁ := current_call hdriver
      cases stepped_of_step hproc with
      | addProcess hm =>
        rw [hs₁] at hm
        unfold current
        rw [show w.sim.mode = .idle from hm]
    refine ⟨⟨_, runs_snoc hr₁ hproc⟩, ?_, ?_, fun t ht => ?_⟩
    · exact nodup_snoc h.procs fun u hu => (h.sound u hu).proc
    · exact nodup_snoc h.drivers fun u hu => (h.sound u hu).driver
    · rcases List.mem_append.mp ht with ht | ht
      · have hcur₁ : current s₁ = none := by
          rw [current_call hdriver]
          exact hidle
        have hsound₁ := sound_bystander hr h.wired (h.sound t ht) hdriver
          (by rw [hidle]; simp) fun c n hl htarget => by
            cases hl
            cases htarget
        refine sound_bystander hr₁ (wired_effect (effect_of_step hdriver) h.wired) hsound₁ hproc
          (by rw [hcur₁]; simp) fun c n hl => by cases hl
      · obtain rfl := List.mem_singleton.mp ht
        exact sound_new h.wired hnet hp hdriver hproc

theorem maintained_activate {statics : Nat → Value} {fuel : Nat} (h : Maintained w)
    (hs : step (.activate statics fuel) w = some w') : Maintained w' := by
  obtain ⟨t, hrun, hs⟩ := Option.bind_eq_some_iff.mp hs
  obtain ⟨⟨s', frame⟩, hres, rfl⟩ := Option.map_eq_some_iff.mp hs
  obtain ⟨p, hcur, hfind⟩ := Option.bind_eq_some_iff.mp hrun
  have ht := List.mem_of_find?_eq_some hfind
  obtain rfl : t.proc = p := by simpa using List.find?_some hfind
  obtain ⟨labels, hr⟩ := h.reached
  obtain ⟨v, s₁, hcall, hsuspend, hsound⟩ :=
    sound_activation hr h.wired (h.sound t ht) hcur hres
  have hr₁ := runs_snoc hr hcall
  have hproc (u : Task) : (if u.proc = t.proc then { u with frame } else u).proc = u.proc := by
    split_ifs <;> rfl
  have hdriver (u : Task) :
      (if u.proc = t.proc then { u with frame } else u).driver = u.driver := by
    split_ifs <;> rfl
  refine ⟨⟨_, runs_snoc hr₁ hsuspend⟩, ?_, ?_, fun u hu => ?_⟩
  · rw [List.map_map]
    exact (List.map_congr_left fun u _ => hproc u) ▸ h.procs
  · rw [List.map_map]
    exact (List.map_congr_left fun u _ => hdriver u) ▸ h.drivers
  · obtain ⟨u, hmem, rfl⟩ := List.mem_map.mp hu
    split_ifs with heq
    · obtain rfl := List.inj_on_of_nodup_map h.procs hmem ht heq
      exact hsound
    · have hne : u.driver ≠ t.driver := fun hd =>
        heq (List.inj_on_of_nodup_map h.drivers hmem ht hd ▸ rfl)
      have hcur₁ : current s₁ = some t.proc := by
        rw [current_call hcall]
        exact hcur
      have hsound₁ := sound_bystander hr h.wired (h.sound u hmem) hcall
        (by rw [hcur]; simpa using Ne.symm heq) fun c n hl htarget => by
          cases hl
          rw [target_call] at htarget
          exact hne (congrArg Prod.fst (Option.some.inj htarget)).symm
      exact sound_bystander hr₁ (wired_effect (effect_of_step hcall) h.wired) hsound₁ hsuspend
        (by rw [hcur₁]; simpa using Ne.symm heq) fun c n hl => by cases hl

theorem maintained_step {act : Act} (h : Maintained w) (hs : step act w = some w') :
    Maintained w' := by
  cases act with
  | sched l => exact maintained_sched h hs
  | elaborate source hplain net zero one => exact maintained_elaborate h hs
  | activate statics fuel => exact maintained_activate h hs

theorem maintained_run {acts : List Act} (hr : run step World.new acts = some w) : Maintained w :=
  run_invariant Maintained hr
    ⟨⟨[], rfl⟩, List.nodup_nil, List.nodup_nil, fun _ ht => absurd ht List.not_mem_nil⟩
    fun _ _ _ => maintained_step

/-- Every assignment and every bridge has driven the value that its right-hand side has now, unless
its process runs or is queued. -/
theorem settled_unless_queued {acts : List Act} (hr : run step World.new acts = some w) {t : Task}
    (ht : t ∈ w.tasks) (hcur : current w.sim ≠ some t.proc)
    (hactive : t.proc ∉ w.sim.kernel.active) : Settled t w.sim.kernel :=
  ((maintained_run hr).sound t ht).settled hcur hactive

end

/-- `a` is a net with four bits. -/
def inverterScope : CodeGen :=
  { emptyScope with nets := fun name => if name = "a" then some (0, 4) else none }

/-- `assign y = ~a;`. -/
def inverter : Source := .assign inverterScope (.unary .bitNot (.ref "a")) 4 none

theorem plain_inverter : inverter.Plain := ⟨fun _ => rfl, by decide⟩

/-- The nets `a`, `y` and `z` of a design, its inverter, and a bridge from `y` to `z`. -/
def inverterDesign : List Act :=
  [.sched (.call (.newNet (.fromU64 5 4) .wire none)), .sched (.call (.newNet (.x 4) .wire none)),
    .sched (.call (.newNet (.x 4) .wire none)),
    .elaborate inverter plain_inverter 1 .strong .strong,
    .elaborate (.bridge 1 false 4) trivial 2 .strong .strong]

/-- Both processes have run, and the bridge once more. -/
def inverterRun : List Act :=
  inverterDesign ++ [.sched (.runUntil none), .sched .resume, .activate (fun _ => .null) 10,
    .sched .resume, .activate (fun _ => .null) 10]

/-- Nothing is queued or runs, and both have processes. -/
def atRest (w : World) : Bool :=
  current w.sim = none && w.sim.kernel.active = [] && w.tasks.map (·.proc) = [0, 1]

theorem settled_inverter : ∃ w : World, run step World.new inverterRun = some w ∧
    w.tasks.map (·.proc) = [0, 1] ∧ ∀ t ∈ w.tasks, Settled t w.sim.kernel := by
  have hend : (run step World.new inverterRun).any atRest = true := by decide +kernel
  obtain ⟨w, hw, hrest⟩ := (Option.any_eq_true _ _).mp hend
  obtain ⟨⟨hcur, hactive⟩, hprocs⟩ : (current w.sim = none ∧ w.sim.kernel.active = []) ∧
      w.tasks.map (·.proc) = [0, 1] := by simpa [atRest] using hrest
  refine ⟨w, hw, hprocs, fun t ht => settled_unless_queued hw ht ?_ ?_⟩
  · rw [hcur]
    simp
  · rw [hactive]
    exact List.not_mem_nil

section

variable {w w' : World}

theorem step_suspend {limit : Option SimTime} {pid : ProcId} {wait : Wait} {s : Sim}
    (hm : s.mode = .resuming limit pid)
    (hn : ∀ n ∈ Kernel.waitNets wait, n < s.kernel.nets.length) :
    ∃ s', Eevee.Sched.Simulation.step (.suspend wait) s = some s' := by
  unfold Eevee.Sched.Simulation.step
  rw [hm]
  exact ⟨_, if_pos hn⟩

theorem step_assignment {limit : Option SimTime} {pid : ProcId} {source : Source} {d : DriverId}
    {s : Sim} (hm : s.mode = .resuming limit pid) (hd : d < s.kernel.drivers.length)
    (v : PackedVec) : Eevee.Sched.Simulation.step (.call (source.call d v)) s =
      some { s with kernel := (source.call d v).exec s.kernel } := by
  have hvalid : (source.call d v).Valid s.kernel := by
    unfold Source.call
    cases source.delay with
    | none => exact hd
    | some delay => cases delay <;> exact hd
  unfold Eevee.Sched.Simulation.step
  rw [hm]
  exact if_pos hvalid

/-- The process of an assignment that runs comes to its wait if and only if the right-hand side has
a value. -/
theorem activation_ends_iff {acts : List Act} (hr : run step World.new acts = some w) {t : Task}
    (hrun : w.running = some t) (hreads : ∀ n ∈ t.source.reads, n < w.sim.kernel.nets.length)
    (statics : Nat → Value) :
    (∃ fuel w', step (.activate statics fuel) w = some w') ↔ (t.value w.sim.kernel).isSome := by
  obtain ⟨p, hcur, hfind⟩ := Option.bind_eq_some_iff.mp hrun
  have ht := List.mem_of_find?_eq_some hfind
  obtain rfl : t.proc = p := by simpa using List.find?_some hfind
  have hm := maintained_run hr
  have hsound := hm.sound t ht
  obtain ⟨labels, hruns⟩ := hm.reached
  have hstarts := hsound.starts (by rw [((held_run hruns).running t.proc hcur).2]; simp)
  have hsame : t.source.value ⟨w.sim.kernel.netValue, statics⟩ = t.value w.sim.kernel :=
    value_same t.plain fun n _ => rfl
  obtain ⟨k⟩ := generated t.made
  constructor
  · rintro ⟨fuel, w', hs⟩
    obtain ⟨u, hu, hs⟩ := Option.bind_eq_some_iff.mp hs
    obtain rfl : t = u := Option.some.inj (hrun.symm.trans hu)
    obtain ⟨⟨s', frame⟩, hres, -⟩ := Option.map_eq_some_iff.mp hs
    obtain ⟨v, -, hv, -⟩ := k.activation_spec t.plain hstarts hres
    rw [← hsame, hv]
    rfl
  · intro hsome
    obtain ⟨v, hv⟩ := Option.isSome_iff_exists.mp hsome
    obtain ⟨limit, hmode⟩ : ∃ limit, w.sim.mode = .resuming limit t.proc := by
      unfold current at hcur
      split at hcur
      · cases hcur
        exact ⟨_, ‹_›⟩
      · cases hcur
    have hcall :=
      @step_assignment limit t.proc t.source t.driver w.sim hmode hsound.driver v.asLogic
    obtain ⟨s', hsuspend⟩ := @step_suspend limit t.proc t.source.wait
      { w.sim with kernel := (t.source.call t.driver v.asLogic).exec w.sim.kernel } hmode (by
        intro n hn
        unfold Source.wait at hn
        split_ifs at hn with he
        · cases hn
        · have hnets := (sameWiring_touches (touches_call
            (target_call t.source t.driver v.asLogic w.sim.kernel))).nets
          exact Nat.lt_of_lt_of_eq (hreads n hn) hnets.symm)
    obtain ⟨fuel, frame, hres⟩ := k.activates t.plain hstarts (hsame.trans hv) hcall hsuspend
    refine ⟨fuel, ⟨s', w.tasks.map fun u => if u.proc = t.proc then { u with frame } else u⟩, ?_⟩
    unfold step
    dsimp only
    rw [hrun, Option.bind_some, hres]
    rfl

end

/-- An assignment or a bridge runs; its nets exist and its right-hand side has a value. -/
def evaluable (w : World) : Bool :=
  w.running.any fun t => t.source.reads.all (· < w.sim.kernel.nets.length) &&
    (t.value w.sim.kernel).isSome

theorem activation_inverter : ∃ w : World, ∃ t, w.running = some t ∧
    run step World.new (inverterDesign ++ [.sched (.runUntil none), .sched .resume]) = some w ∧
    ∃ fuel w', step (.activate (fun _ => .null) fuel) w = some w' := by
  have hend : (run step World.new
      (inverterDesign ++ [.sched (.runUntil none), .sched .resume])).any evaluable = true := by
    decide +kernel
  obtain ⟨w, hw, hevaluable⟩ := (Option.any_eq_true _ _).mp hend
  obtain ⟨t, hrun, ht⟩ := (Option.any_eq_true _ _).mp hevaluable
  obtain ⟨hreads, hv⟩ := Bool.and_eq_true_iff.mp ht
  refine ⟨w, t, hrun, hw, (activation_ends_iff hw hrun (fun n hn => ?_) fun _ => .null).mpr hv⟩
  simpa using List.all_eq_true.mp hreads n hn

end Eevee.Elab.Quiescence
