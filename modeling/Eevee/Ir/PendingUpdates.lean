/- Nonblocking assignments to variables: what the interpreter queues and what the standard asks. -/

import Mathlib.Data.List.Basic
import Mathlib.Data.List.Nodup
import Mathlib.Logic.Function.Basic
import Mathlib.Tactic.Common
import Mathlib.Tactic.SplitIfs
import Eevee.Ir.Calls
import Eevee.Lib.Transition

set_option autoImplicit false
set_option relaxedAutoImplicit false

namespace Eevee.Ir.PendingUpdates

open Eevee.Core.Logic
open Eevee.Ir.Calls
open Eevee.Ir.Objects
open Eevee.Lib.Transition

/-! ### Updates -/

abbrev Updates := List (Reg × Val)

/-- `NbaAssign` replaces an earlier update of the variable. -/
def queueUpdate (dst : Reg) (value : Val) : Updates → Updates
  | [] => [(dst, value)]
  | u :: rest => if u.1 = dst then (dst, value) :: rest else u :: queueUpdate dst value rest

/-- The updates in the order in which they were scheduled. -/
def schedule (dst : Reg) (value : Val) (updates : Updates) : Updates := updates ++ [(dst, value)]

def applied (updates : Updates) (regs : Reg → Val) : Reg → Val :=
  updates.foldl (fun regs u => Function.update regs u.1 u.2) regs

/-- Scheduled updates as the interpreter queues them. -/
def merged (updates : Updates) : Updates :=
  updates.foldl (fun queued u => queueUpdate u.1 u.2 queued) []

theorem merged_schedule (dst : Reg) (value : Val) (updates : Updates) :
    merged (schedule dst value updates) = queueUpdate dst value (merged updates) :=
  List.foldl_append

theorem applied_schedule (dst : Reg) (value : Val) (updates : Updates) (regs : Reg → Val) :
    applied (schedule dst value updates) regs =
      Function.update (applied updates regs) dst value :=
  List.foldl_append

theorem mem_queueUpdate {dst r : Reg} {value : Val} {updates : Updates} :
    r ∈ (queueUpdate dst value updates).map Prod.fst ↔ r = dst ∨ r ∈ updates.map Prod.fst := by
  induction updates with
  | nil => simp [queueUpdate]
  | cons u updates ih =>
    unfold queueUpdate
    split_ifs with hu
    · simp [hu]
    · rw [List.map_cons, List.mem_cons, ih, List.map_cons, List.mem_cons]
      tauto

theorem nodup_queueUpdate {dst : Reg} {value : Val} {updates : Updates}
    (h : (updates.map Prod.fst).Nodup) : ((queueUpdate dst value updates).map Prod.fst).Nodup := by
  induction updates with
  | nil => simp [queueUpdate]
  | cons u updates ih =>
    rw [List.map_cons, List.nodup_cons] at h
    unfold queueUpdate
    split_ifs with hu
    · rw [List.map_cons, List.nodup_cons]
      exact ⟨hu ▸ h.1, h.2⟩
    · rw [List.map_cons, List.nodup_cons, mem_queueUpdate]
      exact ⟨fun hor => hor.elim hu h.1, ih h.2⟩

/-- Updates of other variables do not touch this one. -/
theorem applied_update {dst : Reg} {value : Val} {updates : Updates}
    (h : dst ∉ updates.map Prod.fst) (regs : Reg → Val) :
    applied updates (Function.update regs dst value) =
      Function.update (applied updates regs) dst value := by
  induction updates generalizing regs with
  | nil => rfl
  | cons u updates ih =>
    rw [List.map_cons, List.mem_cons, not_or] at h
    show applied updates (Function.update (Function.update regs dst value) u.1 u.2) =
      Function.update (applied updates (Function.update regs u.1 u.2)) dst value
    rw [Function.update_comm h.1, ih h.2]

theorem applied_queueUpdate {dst : Reg} {value : Val} {updates : Updates}
    (h : (updates.map Prod.fst).Nodup) (regs : Reg → Val) :
    applied (queueUpdate dst value updates) regs =
      Function.update (applied updates regs) dst value := by
  induction updates generalizing regs with
  | nil => rfl
  | cons u updates ih =>
    rw [List.map_cons, List.nodup_cons] at h
    unfold queueUpdate
    split_ifs with hu
    · show applied updates (Function.update regs dst value) =
        Function.update (applied updates (Function.update regs u.1 u.2)) dst value
      rw [applied_update (hu ▸ h.1), applied_update h.1, hu, Function.update_idem]
    · exact ih h.2 _

theorem nodup_merged (updates : Updates) : ((merged updates).map Prod.fst).Nodup := by
  induction updates using List.reverseRecOn with
  | nil => exact List.nodup_nil
  | append_singleton updates u ih =>
    show ((merged (schedule u.1 u.2 updates)).map Prod.fst).Nodup
    rw [merged_schedule]
    exact nodup_queueUpdate ih

/-- The queue does what the scheduled updates do, the last of each variable deciding. -/
theorem applied_merged (updates : Updates) (regs : Reg → Val) :
    applied (merged updates) regs = applied updates regs := by
  induction updates using List.reverseRecOn with
  | nil => rfl
  | append_singleton updates u ih =>
    show applied (merged (schedule u.1 u.2 updates)) regs = applied (schedule u.1 u.2 updates) regs
    rw [merged_schedule, applied_queueUpdate (nodup_merged _), applied_schedule, ih]

theorem mem_merged {r : Reg} {updates : Updates} :
    r ∈ (merged updates).map Prod.fst ↔ r ∈ updates.map Prod.fst := by
  induction updates using List.reverseRecOn with
  | nil => rfl
  | append_singleton updates u ih =>
    show r ∈ (merged (schedule u.1 u.2 updates)).map Prod.fst ↔ _
    rw [merged_schedule, mem_queueUpdate, ih]
    simp [or_comm]

theorem any_merged (r : Reg) (updates : Updates) :
    (merged updates).any (·.1 == r) = updates.any (·.1 == r) := by
  have hmem (l : Updates) : l.any (·.1 == r) = true ↔ r ∈ l.map Prod.fst := by
    simp [List.any_eq_true]
  rw [Bool.eq_iff_iff, hmem, hmem]
  exact mem_merged

theorem merged_eq_nil {updates : Updates} (h : merged updates = []) : updates = [] := by
  cases updates with
  | nil => rfl
  | cons u updates =>
    have hmem : u.1 ∈ (merged (u :: updates)).map Prod.fst := mem_merged.mpr List.mem_cons_self
    rw [h] at hmem
    cases hmem

/-! ### Processes -/

/-- The other instructions: nonblocking assignments to a local variable, to a field and to a static
or a package global, an event control on a value, any other wait, and what only works on registers
and on what all processes share. -/
inductive Extra
  | nbaAssign (dst src : Reg)
  | nbaField (obj : Reg) (slot : Nat) (src : Reg)
  | nbaStatic (id : Nat) (src : Reg)
  | waitChange (value : Reg)
  | wait
  | work (f : Nat → Nat → State → Option (Nat × State))

/-- What they do. A nonblocking assignment to a field or a static is compiled as a blocking one. -/
def other (queue : Reg → Val → Updates → Updates) :
    Extra → Nat → Activation → Shared → Option Outcome
  | .nbaAssign dst src, _, act, shared =>
    (assignmentCopy shared.heap (act.regs src)).map fun (heap, value) =>
      .next { act with pendingNba := queue dst value act.pendingNba } { shared with heap }
  | .nbaField obj slot src, _, act, shared =>
    (exec (shared.withRegs act.regs) (.setField obj slot src)).map fun s =>
      .next { act with regs := s.regs } (.ofState s)
  | .nbaStatic id src, _, act, shared =>
    (exec (shared.withRegs act.regs) (.staticSet id src)).map fun s =>
      .next { act with regs := s.regs } (.ofState s)
  | .waitChange value, _, act, shared =>
    some (.wait (act.pendingNba.any (·.1 == value)) act shared)
  | .wait, _, act, shared => some (.wait false act shared)
  | .work f, args, act, shared =>
    (f args act.pc (shared.withRegs act.regs)).map fun (pc, s) =>
      .next { act with pc, regs := s.regs } (.ofState s)

/-- The functions and the implementations of virtual methods of a design. -/
structure Design where
  funcs : FuncId → Option (Program Extra)
  vtable : Nat → Nat → Option FuncId

def Design.linkage (D : Design) (queue : Reg → Val → Updates → Updates) : Linkage Extra :=
  ⟨D.funcs, D.vtable, other queue⟩

/-- Where a process stands between two instructions. -/
inductive Phase
  | running
  /-- Suspended until the NBA region, or by any other wait. -/
  | waiting (nba : Bool)
  /-- In the active queue. -/
  | ready
  deriving DecidableEq

/-- What happens: the process runs an instruction; the NBA region of the time slot is executed, when
nothing is active; the wait of the process ends; it resumes; other processes change what is
shared. -/
inductive Act
  | run
  | region
  | wake
  | resume
  | others (shared : Shared)

structure World where
  proc : IrProcess Extra
  phase : Phase

def suspended (waits : Bool) (q : IrProcess Extra) : Phase :=
  if waits then .waiting q.applyPendingNba else .running

/-- A step of the code. The NBA region resumes who waits for it, and a process that resumes applies
the updates of its running frame. -/
def step (D : Design) (act : Act) (w : World) : Option World :=
  match act, w.phase with
  | .run, .running =>
    (w.proc.step (D.linkage queueUpdate)).map fun (waits, q) => ⟨q, suspended waits q⟩
  | .region, .waiting nba => some { w with phase := if nba then .ready else .waiting false }
  | .wake, .waiting false => some { w with phase := .ready }
  | .resume, .ready => some ⟨w.proc.resume w.proc.shared, .running⟩
  | .others shared, .waiting _ | .others shared, .ready =>
    some { w with proc := { w.proc with shared } }
  | _, _ => none

theorem step_run {D : Design} {w : World} (h : w.phase = .running) : step D .run w =
    (w.proc.step (D.linkage queueUpdate)).map fun (waits, q) => ⟨q, suspended waits q⟩ := by
  simp only [step, h]

/-! ### The standard -/

inductive Place
  | field (id slot : Nat)
  | static (id : Nat)

/-- A process as the standard has it, with the updates scheduled for what all processes share. Those
of local variables are scheduled in their frames. -/
structure Standard where
  proc : IrProcess Extra
  phase : Phase
  scheduled : List (Place × Val)

def Shared.store (shared : Shared) (u : Place × Val) : Shared :=
  match u.1 with
  | .field id slot =>
    { shared with heap := (shared.heap.setField id slot u.2).getD shared.heap }
  | .static id => { shared with statics := Function.update shared.statics id u.2 }

/-- All updates of the frame take effect. -/
def settleFrame (f : Frame Extra) : Frame Extra :=
  f.setAct { f.act with regs := applied f.act.pendingNba f.act.regs, pendingNba := [] }

def settle (p : IrProcess Extra) : IrProcess Extra :=
  { p with frame := settleFrame p.frame, callers := p.callers.map settleFrame }

/-- A nonblocking assignment to what all processes share: the place and the value. -/
def Standard.schedules (t : Standard) (src : Reg) (place : Option Place) : Option Standard :=
  (assignmentCopy t.proc.shared.heap (t.proc.frame.act.regs src)).map fun (heap, value) =>
    { t with
      proc := { t.proc with frame := t.proc.frame.advance, shared := { t.proc.shared with heap } }
      scheduled := t.scheduled ++ (place.map (·, value)).toList }

def fieldPlace (obj : Val) (slot : Nat) : Option Place :=
  match obj with
  | .obj id => some (.field id slot)
  | _ => none

/-- A step of the standard: in the NBA region every update scheduled in the time slot takes effect,
the last one of each variable deciding. -/
def Standard.step (D : Design) (act : Act) (t : Standard) : Option Standard :=
  match act, t.phase with
  | .run, .running =>
    match t.proc.inst with
    | some (.other (.nbaField obj slot src)) =>
      t.schedules src (fieldPlace (t.proc.frame.act.regs obj) slot)
    | some (.other (.nbaStatic id src)) => t.schedules src (some (.static id))
    | _ => (t.proc.step (D.linkage schedule)).map fun (waits, q) =>
      { t with proc := q, phase := suspended waits q }
  | .region, .waiting nba => some
    { proc := { settle t.proc with shared := t.scheduled.foldl Shared.store t.proc.shared }
      phase := if nba then .ready else .waiting false
      scheduled := [] }
  | .wake, .waiting false => some { t with phase := .ready }
  | .resume, .ready => some
    { t with proc := { t.proc with applyPendingNba := false }, phase := .running }
  | .others shared, .waiting _ | .others shared, .ready =>
    some { t with proc := { t.proc with shared } }
  | _, _ => none

/-! ### The condition -/

/-- A nonblocking assignment to a field or a static. -/
def Extra.toShared : Extra → Bool
  | .nbaField _ _ _ | .nbaStatic _ _ => true
  | .nbaAssign _ _ | .waitChange _ | .wait | .work _ => false

/-- The process executes no nonblocking assignment to a field, a static or a package global. In the
NBA region no caller has updates, and if the running frame has any the process waits for the
region. -/
def Timely (w : World) : Act → Prop
  | .run => ∀ e, w.proc.inst = some (.other e) → e.toShared = false
  | .region => (∀ f ∈ w.proc.callers, f.act.pendingNba = []) ∧
    (w.proc.frame.act.pendingNba = [] ∨ w.phase = .waiting true)
  | .wake | .resume | .others _ => True

/-! ### The interpreter merges updates -/

def mergeFrame (f : Frame Extra) : Frame Extra :=
  f.setAct { f.act with pendingNba := merged f.act.pendingNba }

def merge (p : IrProcess Extra) : IrProcess Extra :=
  { p with frame := mergeFrame p.frame, callers := p.callers.map mergeFrame }

theorem leave_merge (p : IrProcess Extra) (val : Option Val) :
    (merge p).leave val = (p.leave val).map merge := by
  unfold IrProcess.leave
  have hcallers : (merge p).callers = p.callers.map mergeFrame := rfl
  cases h : p.callers with
  | nil =>
    rw [hcallers, h]
    rfl
  | cons caller callers =>
    rw [hcallers, h]
    rfl

def mergeOutcome : Outcome → Outcome
  | .next act shared => .next { act with pendingNba := merged act.pendingNba } shared
  | .wait nba act shared => .wait nba { act with pendingNba := merged act.pendingNba } shared

theorem other_merge (e : Extra) (args : Nat) (act : Activation) (shared : Shared) :
    other queueUpdate e args { act with pendingNba := merged act.pendingNba } shared =
      (other schedule e args act shared).map mergeOutcome := by
  cases e with
  | nbaAssign dst src =>
    show (assignmentCopy shared.heap (act.regs src)).map _ =
      ((assignmentCopy shared.heap (act.regs src)).map _).map mergeOutcome
    cases assignmentCopy shared.heap (act.regs src) with
    | none => rfl
    | some copy =>
      obtain ⟨heap, value⟩ := copy
      show some (Outcome.next { act with pendingNba := queueUpdate dst value _ } _) =
        some (Outcome.next { act with pendingNba := merged (schedule dst value _) } _)
      rw [merged_schedule]
  | nbaField obj slot src =>
    show (exec _ (.setField obj slot src)).map _ = ((exec _ (.setField obj slot src)).map _).map _
    rw [Option.map_map]
    rfl
  | nbaStatic id src =>
    show (exec _ (.staticSet id src)).map _ = ((exec _ (.staticSet id src)).map _).map _
    rw [Option.map_map]
    rfl
  | work f =>
    show (f args act.pc _).map _ = ((f args act.pc _).map _).map _
    rw [Option.map_map]
    rfl
  | waitChange value =>
    show some (Outcome.wait ((merged act.pendingNba).any (·.1 == value)) _ _) = _
    rw [any_merged]
    rfl
  | wait => rfl

/-- The code runs as the standard does, with the updates of its frames merged. -/
theorem step_merge (D : Design) (p : IrProcess Extra) :
    (merge p).step (D.linkage queueUpdate) =
      (p.step (D.linkage schedule)).map (Prod.map id merge) := by
  have hinst : (merge p).inst = p.inst := rfl
  unfold IrProcess.step
  rw [hinst]
  cases p.inst with
  | none => rfl
  | some i =>
    show (merge p).perform (D.linkage queueUpdate) i =
      (p.perform (D.linkage schedule) i).map (Prod.map id merge)
    cases i with
    | data i =>
      show (exec p.state i).map _ = ((exec p.state i).map _).map _
      rw [Option.map_map]
      rfl
    | call func args ret =>
      show (D.funcs func).map _ = ((D.funcs func).map _).map _
      rw [Option.map_map]
      rfl
    | callVirtual obj vslot args ret =>
      show ((p.resolve (D.linkage schedule) obj vslot).bind D.funcs).map _ =
        (((p.resolve (D.linkage schedule) obj vslot).bind D.funcs).map _).map _
      rw [Option.map_map]
      rfl
    | ret value =>
      show ((merge p).leave _).map _ = ((p.leave _).map _).map _
      rw [leave_merge, Option.map_map, Option.map_map]
      rfl
    | returnVoid =>
      show ((merge p).leave _).map _ = ((p.leave _).map _).map _
      rw [leave_merge, Option.map_map, Option.map_map]
      rfl
    | other e =>
      have hother := other_merge e p.frame.providedArgs
        { p.frame.act with pc := p.frame.act.pc + 1 } p.shared
      refine (congrArg (Option.map (merge p).carryOn) hother).trans ?_
      show _ = ((other schedule e p.frame.providedArgs
        { p.frame.act with pc := p.frame.act.pc + 1 } p.shared).map _).map _
      rw [Option.map_map, Option.map_map]
      congr 1
      funext o
      cases o <;> rfl

/-! ### The code follows the standard -/

/-- The process has been resumed by the NBA region and has not applied its updates yet. -/
def due (w : World) : Prop := w.phase = .ready ∧ w.proc.applyPendingNba = true

/-- What a timely run keeps: the same state but for the merged updates, or, between the NBA region
and the next instruction, the state that the process will have when it resumes. -/
structure Follows (w : World) (t : Standard) : Prop where
  phase : t.phase = w.phase
  scheduled : t.scheduled = []
  shared : t.proc.shared = w.proc.shared
  same : ¬ due w → w.proc = merge t.proc
  late : due w → w.proc.resume w.proc.shared =
    merge { t.proc with applyPendingNba := false }
  running : w.phase = .running → w.proc.applyPendingNba = false
  waiting : ∀ nba, w.phase = .waiting nba → w.proc.applyPendingNba = nba

section

variable {D : Design} {w w' : World} {t : Standard} {act : Act}

theorem applyPendingNba_step {p q : IrProcess Extra} {waits : Bool}
    {queue : Reg → Val → Updates → Updates} (h : p.step (D.linkage queue) = some (waits, q)) :
    waits = false → q.applyPendingNba = p.applyPendingNba := by
  rintro rfl
  obtain ⟨i, -, h⟩ := Option.bind_eq_some_iff.mp h
  cases i with
  | data i =>
    obtain ⟨s, -, heq⟩ := Option.map_eq_some_iff.mp h
    cases heq
    rfl
  | call | callVirtual =>
    obtain ⟨callee, -, heq⟩ := Option.map_eq_some_iff.mp h
    cases heq
    rfl
  | ret | returnVoid =>
    obtain ⟨q', hleave, heq⟩ := Option.map_eq_some_iff.mp h
    cases heq
    unfold IrProcess.leave at hleave
    split at hleave <;> cases hleave
    rfl
  | other e =>
    obtain ⟨o, -, heq⟩ := Option.map_eq_some_iff.mp h
    cases o <;> cases heq
    rfl

/-- Whatever is shared when a process resumes, its registers are the same. -/
theorem resume_shared (p : IrProcess Extra) (shared : Shared) :
    ({ p with shared } : IrProcess Extra).resume shared =
      { p.resume p.shared with shared } := by
  unfold IrProcess.resume
  dsimp only
  split <;> rfl

theorem resume_of_not_due {p : IrProcess Extra} (h : p.applyPendingNba = false) :
    p.resume p.shared = p := by
  unfold IrProcess.resume
  rw [if_neg (by simp [h])]

/-- Frames without updates are as they were. -/
theorem settleFrame_of_nil {f : Frame Extra} (h : f.act.pendingNba = []) : settleFrame f = f := by
  obtain ⟨prog, ⟨pc, regs, updates⟩, link, args⟩ := f
  obtain rfl : updates = [] := h
  rfl

theorem settle_callers {p : IrProcess Extra}
    (h : ∀ f ∈ (merge p).callers, f.act.pendingNba = []) :
    p.callers.map settleFrame = p.callers := by
  refine (List.map_congr_left fun f hf => ?_).trans (List.map_id _)
  exact settleFrame_of_nil (merged_eq_nil (h _ (List.mem_map_of_mem hf)))

/-- A process that waits for the NBA region, and whose callers have no updates, will be in the
state in which the standard has it after the region. -/
theorem resume_merge {p : IrProcess Extra} (hflag : p.applyPendingNba = true)
    (h : ∀ f ∈ (merge p).callers, f.act.pendingNba = []) :
    (merge p).resume p.shared = merge { settle p with applyPendingNba := false } := by
  have hcallers := settle_callers h
  obtain ⟨⟨prog, ⟨pc, regs, updates⟩, link, args⟩, flag, callers, shared⟩ := p
  obtain rfl : flag = true := hflag
  show IrProcess.mk ⟨prog, ⟨pc, applied (merged updates) regs, []⟩, link, args⟩ false
      (callers.map mergeFrame) shared =
    ⟨⟨prog, ⟨pc, applied updates regs, []⟩, link, args⟩, false,
      (callers.map settleFrame).map mergeFrame, shared⟩
  rw [applied_merged, hcallers]

theorem settle_of_nil {p : IrProcess Extra}
    (h : ∀ f ∈ (merge p).callers, f.act.pendingNba = [])
    (hframe : (merge p).frame.act.pendingNba = []) : settle p = p := by
  unfold settle
  rw [settle_callers h, settleFrame_of_nil (merged_eq_nil hframe)]

theorem follows_run (hf : Follows w t) (hphase : w.phase = .running) (hok : Timely w .run)
    (h : step D .run w = some w') : ∃ t', t.step D .run = some t' ∧ Follows w' t' := by
  have hp : w.proc = merge t.proc := hf.same fun hd => by
    cases hphase.symm.trans hd.1
  rw [step_run hphase, hp, step_merge, Option.map_map] at h
  obtain ⟨⟨waits, q⟩, hq, rfl⟩ := Option.map_eq_some_iff.mp h
  have hinst : t.proc.inst = w.proc.inst := by
    rw [hp]
    rfl
  unfold Standard.step
  rw [hf.phase, hphase]
  dsimp only
  split
  · rename_i hi
    cases hok _ (hinst.symm.trans hi)
  · rename_i hi
    cases hok _ (hinst.symm.trans hi)
  · rw [hq]
    refine ⟨_, rfl, rfl, hf.scheduled, rfl, fun _ => rfl, fun hd => ?_, fun hr => ?_,
      fun nba hn => ?_⟩
    · cases waits <;> cases hd.1
    · cases waits with
      | true => cases hr
      | false =>
        have hflag := applyPendingNba_step hq rfl
        have hflag' : t.proc.applyPendingNba = w.proc.applyPendingNba := by
          rw [hp]
          rfl
        exact hflag.trans (hflag'.trans (hf.running hphase))
    · cases waits with
      | true => exact Phase.waiting.inj hn
      | false => cases hn

theorem follows_region (hf : Follows w t) {nba : Bool} (hphase : w.phase = .waiting nba)
    (hok : Timely w .region) (h : step D .region w = some w') :
    ∃ t', t.step D .region = some t' ∧ Follows w' t' := by
  have hp : w.proc = merge t.proc := hf.same fun hd => by
    cases hphase.symm.trans hd.1
  have hflag : t.proc.applyPendingNba = nba := by
    rw [← hf.waiting nba hphase, hp]
    rfl
  obtain ⟨hcallers, hframe⟩ := hok
  rw [hp] at hcallers hframe
  simp only [step, hphase] at h
  cases h
  have hsettle : t.step D .region = some
      ⟨{ settle t.proc with shared := w.proc.shared },
        if nba then .ready else .waiting false, []⟩ := by
    unfold Standard.step
    rw [hf.phase, hphase, hf.scheduled]
    exact congrArg some
      (congrArg (fun s => Standard.mk { settle t.proc with shared := s } _ _) hf.shared)
  have hshared : { settle t.proc with shared := w.proc.shared } = settle t.proc := by
    rw [← hf.shared]
    rfl
  rw [hshared] at hsettle
  refine ⟨_, hsettle, ?_⟩
  cases nba with
  | true =>
    have hlate : w.proc.resume w.proc.shared =
        merge { settle t.proc with applyPendingNba := false } := by
      rw [← hf.shared, hp]
      exact resume_merge hflag hcallers
    exact ⟨rfl, rfl, hf.shared, fun hd => absurd ⟨rfl, hf.waiting true hphase⟩ hd, fun _ => hlate,
      fun hr => (by cases hr), fun nba hn => (by cases hn)⟩
  | false =>
    have hnone : (merge t.proc).frame.act.pendingNba = [] :=
      hframe.resolve_right fun hw => by cases hphase.symm.trans hw
    rw [settle_of_nil hcallers hnone]
    exact ⟨rfl, rfl, hf.shared, fun _ => hp, fun hd => (by cases hd.1), fun hr => (by cases hr),
      fun nba hn => (hf.waiting false hphase).trans (Phase.waiting.inj hn)⟩

theorem follows_wake (hf : Follows w t) (hphase : w.phase = .waiting false)
    (h : step D .wake w = some w') : ∃ t', t.step D .wake = some t' ∧ Follows w' t' := by
  have hp : w.proc = merge t.proc := hf.same fun hd => by
    cases hphase.symm.trans hd.1
  have hflag := hf.waiting false hphase
  simp only [step, hphase] at h
  cases h
  refine ⟨{ t with phase := .ready }, ?_, rfl, hf.scheduled, hf.shared, fun _ => hp, fun hd => ?_,
    fun hr => (by cases hr), fun nba hn => (by cases hn)⟩
  · simp only [Standard.step, hf.phase, hphase]
  · cases hflag.symm.trans hd.2

theorem follows_resume (hf : Follows w t) (hphase : w.phase = .ready)
    (h : step D .resume w = some w') : ∃ t', t.step D .resume = some t' ∧ Follows w' t' := by
  simp only [step, hphase] at h
  cases h
  have hresumed : w.proc.resume w.proc.shared = merge { t.proc with applyPendingNba := false } := by
    by_cases hflag : w.proc.applyPendingNba = true
    · exact hf.late ⟨hphase, hflag⟩
    · have hp := hf.same fun hd => hflag hd.2
      rw [Bool.not_eq_true] at hflag
      have hflag' : t.proc.applyPendingNba = false := by
        rw [← hflag, hp]
        rfl
      rw [resume_of_not_due hflag, hp, ← hflag']
  refine ⟨{ t with proc := { t.proc with applyPendingNba := false }, phase := .running }, ?_, rfl,
    hf.scheduled, ?_, fun _ => hresumed, fun hd => (by cases hd.1), fun _ => ?_,
    fun nba hn => (by cases hn)⟩
  · simp only [Standard.step, hf.phase, hphase]
  · exact (congrArg IrProcess.shared hresumed).symm
  · exact congrArg IrProcess.applyPendingNba hresumed

theorem follows_others (hf : Follows w t) {shared : Shared} (hphase : w.phase ≠ .running)
    (h : step D (.others shared) w = some w') :
    ∃ t', t.step D (.others shared) = some t' ∧ Follows w' t' := by
  have hw : w' = { w with proc := { w.proc with shared } } := by
    cases hw : w.phase with
    | running => exact absurd hw hphase
    | waiting nba =>
      simp only [step, hw] at h
      exact (Option.some.inj h).symm
    | ready =>
      simp only [step, hw] at h
      exact (Option.some.inj h).symm
  have ht : t.step D (.others shared) = some { t with proc := { t.proc with shared } } := by
    unfold Standard.step
    rw [hf.phase]
    cases hw : w.phase with
    | running => exact absurd hw hphase
    | waiting | ready => rfl
  subst hw
  refine ⟨_, ht, hf.phase, hf.scheduled, rfl, fun hd => ?_, fun hd => ?_, hf.running, hf.waiting⟩
  · show { w.proc with shared } = { merge t.proc with shared }
    rw [hf.same hd]
  · show ({ w.proc with shared } : IrProcess Extra).resume shared =
      { merge { t.proc with applyPendingNba := false } with shared }
    rw [resume_shared, hf.late hd]

theorem follows_step (hf : Follows w t) (hok : Timely w act) (h : step D act w = some w') :
    ∃ t', t.step D act = some t' ∧ Follows w' t' := by
  cases act with
  | run =>
    cases hphase : w.phase with
    | running => exact follows_run hf hphase hok h
    | waiting | ready => simp [step, hphase] at h
  | region =>
    cases hphase : w.phase with
    | waiting nba => exact follows_region hf hphase hok h
    | running | ready => simp [step, hphase] at h
  | wake =>
    cases hphase : w.phase with
    | waiting nba =>
      cases nba with
      | false => exact follows_wake hf hphase h
      | true => simp [step, hphase] at h
    | running | ready => simp [step, hphase] at h
  | resume =>
    cases hphase : w.phase with
    | ready => exact follows_resume hf hphase h
    | running | waiting => simp [step, hphase] at h
  | others shared =>
    refine follows_others hf (fun hphase => ?_) h
    simp [step, hphase] at h

end

/-! ### Runs -/

/-- The process starts with no updates. -/
structure Fresh (p : IrProcess Extra) : Prop where
  flag : p.applyPendingNba = false
  frames : ∀ f ∈ p.frame :: p.callers, f.act.pendingNba = []

/-- What all processes share is as the standard has it, and so are all variables of the process when
it runs. -/
structure Agrees (w : World) (t : Standard) : Prop where
  shared : w.proc.shared = t.proc.shared
  locals : w.phase = .running →
    (w.proc.frame :: w.proc.callers).map (·.act.regs) =
      (t.proc.frame :: t.proc.callers).map (·.act.regs)

theorem merge_of_fresh {p : IrProcess Extra} (h : Fresh p) : merge p = p := by
  have hframe {f : Frame Extra} (hf : f.act.pendingNba = []) : mergeFrame f = f := by
    obtain ⟨prog, ⟨pc, regs, updates⟩, link, args⟩ := f
    obtain rfl : updates = [] := hf
    rfl
  have hcallers : p.callers.map mergeFrame = p.callers :=
    (List.map_congr_left fun f hf => hframe (h.frames f (List.mem_cons_of_mem _ hf))).trans
      (List.map_id _)
  unfold merge
  rw [hcallers, hframe (h.frames _ List.mem_cons_self)]

theorem follows_fresh {p : IrProcess Extra} (h : Fresh p) :
    Follows ⟨p, .running⟩ ⟨p, .running, []⟩ :=
  ⟨rfl, rfl, rfl, fun _ => (merge_of_fresh h).symm, fun hd => (by cases hd.1), fun _ => h.flag,
    fun nba hn => (by cases hn)⟩

theorem agrees_of_follows {w : World} {t : Standard} (hf : Follows w t) : Agrees w t := by
  refine ⟨hf.shared.symm, fun hrunning => ?_⟩
  have hp := hf.same fun hd => by cases hrunning.symm.trans hd.1
  rw [hp]
  show (mergeFrame t.proc.frame :: t.proc.callers.map mergeFrame).map _ = _
  rw [← List.map_cons, List.map_map]
  rfl

/-- `a <= b; b <= a; @(a);` -/
def swapCode : Program Extra where
  code := [.other (.nbaAssign 0 1), .other (.nbaAssign 1 0), .other (.waitChange 0)]
  nRegs := 2
  argModes := []
  formals := Nat.zero_le _

/-- `a <= b; #1;` -/
def delayCode : Program Extra where
  code := [.other (.nbaAssign 0 1), .other .wait]
  nRegs := 2
  argModes := []
  formals := Nat.zero_le _

/-- A process at its first instruction; `b` is 1. -/
def started (prog : Program Extra) : IrProcess Extra where
  frame := ⟨prog, ⟨0, Function.update (fun _ => .null) 1 (.logic (.ones 1)), []⟩, ⟨0, []⟩, 0⟩
  applyPendingNba := false
  callers := []
  shared := ⟨fun _ => .null, fun _ => .zero 1, ⟨[], [], []⟩⟩

def noDesign : Design := ⟨fun _ => none, fun _ _ => none⟩

theorem fresh_started (prog : Program Extra) : Fresh (started prog) :=
  ⟨rfl, fun f hf => by rw [List.mem_singleton.mp hf]; rfl⟩

def swapRun : List Act := [.run, .run, .run, .region, .resume]

theorem swapRun_isSome : (run (step noDesign) ⟨started swapCode, .running⟩ swapRun).isSome = true :=
  rfl

def delayRun : List Act := [.run, .run, .region, .wake, .resume]

theorem delayRun_isSome :
    (run (step noDesign) ⟨started delayCode, .running⟩ delayRun).isSome = true := rfl

end Eevee.Ir.PendingUpdates
