/- A write of a net wakes exactly the processes that asked for its edge, whatever its origin. -/

import Mathlib.Data.List.Count
import Mathlib.Data.List.Perm.Basic
import Mathlib.Tactic.Common
import Mathlib.Tactic.SplitIfs
import Eevee.Sched.Wakeup

set_option autoImplicit false
set_option relaxedAutoImplicit false

namespace Eevee.Sched.EdgeWakeups

open Eevee.Core.Logic
open Eevee.Lib.SwapScan
open Eevee.Lib.Transition
open Eevee.Sched.Frames
open Eevee.Sched.Nets
open Eevee.Sched.Scheduler
open Eevee.Sched.Simulation
open Eevee.Sched.Wakeup

/-! ### What a registration asks for -/

/-- The event control of the standard on a transition of the whole vector: edges look at bit 0
only. -/
def Matches (old new : PackedVec) : EdgeKind → Prop
  | .anyChange => old.width ≠ new.width ∨ ∃ i < old.width, old.getBit i ≠ new.getBit i
  | .posedge => old.getBit 0 = .zero ∧ new.getBit 0 ≠ .zero ∨
      old.getBit 0 ≠ .one ∧ new.getBit 0 = .one
  | .negedge => old.getBit 0 = .one ∧ new.getBit 0 ≠ .one ∨
      old.getBit 0 ≠ .zero ∧ new.getBit 0 = .zero

/-- The process is registered on the net for that edge, under its current epoch. -/
def Live (k : Kernel) (n : NetId) (p : ProcId) (edge : EdgeKind) : Prop :=
  ∃ w ∈ (k.net n).waiters, w.proc = p ∧ w.edge = edge ∧ w.epoch = (k.waitEpochs p).getD 0

/-- Writing the value makes an edge that a live registration of the process asks for. -/
def Asked (k : Kernel) (n : NetId) (v : PackedVec) (p : ProcId) : Prop :=
  ∃ edge, Live k n p edge ∧ Matches (k.netValue n) v edge

/-- The entries of the process in the sensitivity list of one net. -/
def entries (k : Kernel) (n : NetId) (p : ProcId) : List Waiter :=
  (k.net n).waiters.filter (·.proc = p)

/-- The write moves exactly the asking processes out of net waits and queues each once; the
others keep their registrations on every net. -/
structure Exact (k : Kernel) (n : NetId) (v : PackedVec) (k' : Kernel) : Prop where
  moved : ∀ p, (k.netWaits p ≠ none ∧ k'.netWaits p = none) ↔ Asked k n v p
  queue : ∃ procs : List ProcId, procs.Nodup ∧ (∀ p, p ∈ procs ↔ Asked k n v p) ∧
    k'.active = k.active ++ (if k.netValue n = v then [] else k.runtimeWaiters) ++ procs
  once : ∀ p, Asked k n v p → k.active.count p = 0 ∧ k'.active.count p = 1 ∧
    ∀ m, entries k' m p = []
  others : ∀ p, ¬ Asked k n v p → k'.netWaits p = k.netWaits p ∧
    k'.waitEpochs p = k.waitEpochs p ∧ (∀ m, (entries k' m p).Perm (entries k m p)) ∧
    ∀ m edge, Live k' m p edge ↔ Live k m p edge

theorem matches_anyChange (old new : PackedVec) : Matches old new .anyChange ↔ old ≠ new := by
  constructor
  · rintro (hw | ⟨i, -, hi⟩) rfl
    · exact hw rfl
    · exact hi rfl
  · intro hne
    by_contra hno
    simp only [Matches, not_or, not_exists, not_and, not_not] at hno
    exact hne (PackedVec.ext_bits hno.1 hno.2)

/-- The edge detector decides the event control. -/
theorem fires_detectEdge (old new : PackedVec) (edge : EdgeKind) :
    (detectEdge old new).fires edge = true ↔ Matches old new edge := by
  by_cases h : old = new
  · subst h
    have hno : (detectEdge old old).changed = false := by
      rw [Bool.eq_false_iff]
      intro hc
      exact (detectEdge_changed old old).mp hc rfl
    rw [detectEdge_unchanged hno]
    cases edge with
    | anyChange => simp [matches_anyChange]
    | posedge => cases hb : old.getBit 0 <;> simp [Matches, hb]
    | negedge => cases hb : old.getBit 0 <;> simp [Matches, hb]
  · have hc : old.eqCase new = false := by
      rw [Bool.eq_false_iff]
      intro he
      exact h (PackedVec.eqCase_iff.mp he)
    cases edge with
    | anyChange => simp [detectEdge, hc, Edges.fires, matches_anyChange, h]
    | posedge =>
      simp only [detectEdge, hc, Bool.not_false, if_true, Edges.fires, Matches]
      cases old.getBit 0 <;> cases new.getBit 0 <;> simp [isPosedge]
    | negedge =>
      simp only [detectEdge, hc, Bool.not_false, if_true, Edges.fires, Matches]
      cases old.getBit 0 <;> cases new.getBit 0 <;> simp [isNegedge]

/-! ### The scan of one list -/

/-- Where a scan of a list of live entries stands: only non-matching entries were kept, the woken
ones had a matching entry, and nobody else lost one. -/
structure Scanning (edges : Edges) (waiters : List Waiter) (procs : List ProcId)
    (kept rest : List Waiter) : Prop where
  quiet : ∀ w ∈ kept, edges.fires w.edge = false
  woken : ∀ p ∈ procs, ∃ w ∈ waiters, w.proc = p ∧ edges.fires w.edge = true
  others : ∀ p, p ∉ procs →
    ((kept ++ rest).filter (·.proc = p)).Perm (waiters.filter (·.proc = p))

theorem perm_filter_removed {p : ProcId} {kept tail waiters : List Waiter} {w : Waiter}
    (hw : w.proc ≠ p)
    (h : ((kept ++ w :: tail).filter (·.proc = p)).Perm (waiters.filter (·.proc = p))) :
    ((kept ++ lastToFront tail).filter (·.proc = p)).Perm (waiters.filter (·.proc = p)) := by
  have htail : ((kept ++ lastToFront tail).filter (·.proc = p)).Perm
      ((kept ++ tail).filter (·.proc = p)) :=
    ((lastToFront_perm tail).append_left kept).filter _
  have hdrop : (kept ++ w :: tail).filter (·.proc = p) = (kept ++ tail).filter (·.proc = p) := by
    simp [List.filter_append, hw]
  exact htail.trans (hdrop ▸ h)

/-- A scan wakes exactly the processes with a matching entry, and leaves the entries of all
others. -/
theorem scan_exact (k : Kernel) (edges : Edges) (waiters : List Waiter)
    (hlive : ∀ w ∈ waiters, w.epoch = (k.waitEpochs w.proc).getD 0) :
    let s := scan (Kernel.visitWaiter edges) ⟨k.waitEpochs, []⟩ waiters
    (∀ p, p ∈ s.1.procs ↔ ∃ w ∈ waiters, w.proc = p ∧ edges.fires w.edge = true) ∧
      ∀ p, p ∉ s.1.procs → (s.2.filter (·.proc = p)).Perm (waiters.filter (·.proc = p)) := by
  intro s
  have h := scan_induction (Kernel.visitWaiter edges) (fun s kept rest =>
    Scanned k waiters s ∧ Scanning edges waiters s.procs kept rest ∧ ∀ w ∈ rest, w ∈ waiters)
    ⟨k.waitEpochs, []⟩ waiters
    ⟨⟨List.nodup_nil, by simp, by simp, fun _ _ => rfl⟩,
      ⟨by simp, by simp, fun p _ => .refl _⟩, fun _ hw => hw⟩ ?_ ?_
  · obtain ⟨-, hs, -⟩ := h
    have hothers : ∀ p, p ∉ s.1.procs →
        (s.2.filter (·.proc = p)).Perm (waiters.filter (·.proc = p)) := by
      intro p hp
      simpa using hs.others p hp
    refine ⟨fun p => ⟨hs.woken p, ?_⟩, hothers⟩
    rintro ⟨w, hw, rfl, hfire⟩
    by_contra hp
    -- an entry that stayed does not match
    have hmem : w ∈ s.2.filter (·.proc = w.proc) :=
      (hothers w.proc hp).mem_iff.mpr (List.mem_filter.mpr ⟨hw, by simp⟩)
    have hquiet := hs.quiet w (List.mem_filter.mp hmem).1
    simp [hfire] at hquiet
  · rintro s kept w tail s' w' ⟨hs, hg, hr⟩ hv
    unfold Kernel.visitWaiter at hv
    split_ifs at hv with hstale hfire
    · simp at hv
    · simp at hv
    · obtain ⟨rfl, rfl⟩ : s = s' ∧ w = w' := by simpa using hv
      refine ⟨hs, ⟨fun v hv => ?_, hg.woken, fun p hp => ?_⟩,
        fun v hv => hr v (List.mem_cons_of_mem _ hv)⟩
      · rcases List.mem_append.mp hv with hv | hv
        · exact hg.quiet v hv
        · obtain rfl := List.mem_singleton.mp hv
          simpa using hfire
      · simpa [List.append_assoc] using hg.others p hp
  · rintro s kept w tail s' ⟨hs, hg, hr⟩ hv
    have hw := hr w List.mem_cons_self
    have htail : ∀ v ∈ lastToFront tail, v ∈ waiters := fun v hv =>
      hr v (List.mem_cons_of_mem _ ((lastToFront_perm tail).mem_iff.mp hv))
    have hscanned := scanned_visit hlive hs hw hv
    refine ⟨hscanned, ?_, htail⟩
    unfold Kernel.visitWaiter at hv
    split_ifs at hv with hstale hfire
    · obtain rfl : s = s' := by simpa using hv
      -- a stale entry is one of a process woken in this scan
      have hwoken : w.proc ∈ s.procs := by
        by_contra hnot
        exact hstale (by rw [hlive w hw, hs.others _ hnot])
      refine ⟨hg.quiet, hg.woken, fun p hp => ?_⟩
      exact perm_filter_removed (fun he => hp (he ▸ hwoken)) (hg.others p hp)
    · obtain rfl := (Prod.mk.inj hv).1.symm
      refine ⟨hg.quiet, fun p hp => ?_, fun p hp => ?_⟩
      · rcases List.mem_append.mp hp with hp | hp
        · exact hg.woken p hp
        · exact ⟨w, hw, (List.mem_singleton.mp hp).symm, hfire⟩
      · simp only [List.mem_append, List.mem_singleton, not_or] at hp
        exact perm_filter_removed (Ne.symm hp.2) (hg.others p hp.1)
    · simp at hv

/-! ### One write -/

/-- Clearing the registrations of other processes leaves the entries of `p` alone. -/
theorem entries_clearAll {p : ProcId} {procs : List ProcId} (hp : p ∉ procs) (k : Kernel)
    (m : NetId) : entries (procs.foldl Kernel.clearNetWaiters k) m p = entries k m p := by
  induction procs generalizing k with
  | nil => rfl
  | cons q procs ih =>
    simp only [List.mem_cons, not_or] at hp
    rw [List.foldl_cons, ih hp.2]
    unfold entries
    rw [Kernel.net_clearNetWaiters]
    split_ifs
    · simp only [Kernel.Net.forget, List.filter_filter]
      apply List.filter_congr
      intro w _
      by_cases hw : w.proc = p
      · simp [hw, hp.1]
      · simp [hw]
    · rfl

theorem entries_storeScan (k : Kernel) (n : NetId) (s : Kernel.Woken × List Waiter) (m : NetId)
    (p : ProcId) (hs : (s.2.filter (·.proc = p)).Perm ((k.net n).waiters.filter (·.proc = p))) :
    (entries (k.storeScan n s) m p).Perm (entries k m p) := by
  have hnet : (k.storeScan n s).net m =
      (k.modifyNet n fun net => { net with waiters := s.2 }).net m := rfl
  unfold entries
  rw [hnet, Kernel.net_modifyNet]
  split_ifs with hm
  · obtain ⟨rfl, -⟩ := hm
    exact hs
  · exact .refl _

theorem live_of_perm {k k' : Kernel} {p : ProcId} (he : k'.waitEpochs p = k.waitEpochs p)
    {m : NetId} (h : (entries k' m p).Perm (entries k m p)) (edge : EdgeKind) :
    Live k' m p edge ↔ Live k m p edge := by
  have hmem (w : Waiter) : w ∈ (k'.net m).waiters ∧ w.proc = p ↔
      w ∈ (k.net m).waiters ∧ w.proc = p := by
    simpa [entries] using @List.Perm.mem_iff _ w _ _ h
  constructor
  · rintro ⟨w, hw, hp, hk, hepoch⟩
    exact ⟨w, ((hmem w).mp ⟨hw, hp⟩).1, hp, hk, he ▸ hepoch⟩
  · rintro ⟨w, hw, hp, hk, hepoch⟩
    exact ⟨w, ((hmem w).mpr ⟨hw, hp⟩).1, hp, hk, he ▸ hepoch⟩

/-- What waking one list does, process by process. -/
structure Woke (k : Kernel) (n : NetId) (edges : Edges) (k' : Kernel)
    (procs : List ProcId) : Prop where
  nodup : procs.Nodup
  mem : ∀ p, p ∈ procs ↔ ∃ w ∈ (k.net n).waiters, w.proc = p ∧ edges.fires w.edge = true
  active : k'.active = k.active ++ procs
  netWaits : ∀ p, k'.netWaits p = if p ∈ procs then none else k.netWaits p
  epochs : ∀ p, p ∉ procs → k'.waitEpochs p = k.waitEpochs p
  entries : ∀ p, p ∉ procs → ∀ m, (entries k' m p).Perm (entries k m p)

theorem woke_wakeWaiters {k : Kernel} (hr : Registered k) (n : NetId) (edges : Edges) :
    ∃ procs, Woke k n edges (k.wakeWaiters n edges) procs := by
  have hlive : ∀ w ∈ (k.net n).waiters, w.epoch = (k.waitEpochs w.proc).getD 0 := by
    intro w hw
    obtain ⟨waited, -, -, he⟩ := hr n w hw
    exact he
  obtain ⟨hs, -⟩ := scanned_scan k edges (k.net n).waiters hlive
  obtain ⟨hmem, hperm⟩ := scan_exact k edges (k.net n).waiters hlive
  unfold Kernel.wakeWaiters
  dsimp only
  generalize scan (Kernel.visitWaiter edges) ⟨k.waitEpochs, []⟩ (k.net n).waiters = s
    at hs hmem hperm ⊢
  obtain ⟨nets, netWaits, hk⟩ := clearAll_frame s.1.procs (k.storeScan n s)
  refine ⟨s.1.procs, hs.nodup, hmem, ?_, fun p => ?_, fun p hp => ?_, fun p hp m => ?_⟩
  · rw [hk]
    rfl
  · exact netWaits_clearAll s.1.procs (k.storeScan n s) p
  · rw [hk]
    exact hs.others p hp
  · rw [entries_clearAll hp]
    exact entries_storeScan k n s m p (hperm p hp)

theorem asked_iff {k : Kernel} (hr : Registered k) (n : NetId) (v : PackedVec) (p : ProcId) :
    Asked k n v p ↔ ∃ w ∈ (k.net n).waiters, w.proc = p ∧
      (detectEdge (k.netValue n) v).fires w.edge = true := by
  constructor
  · rintro ⟨edge, ⟨w, hw, hp, rfl, -⟩, hmatch⟩
    exact ⟨w, hw, hp, (fires_detectEdge _ _ _).mpr hmatch⟩
  · rintro ⟨w, hw, rfl, hfire⟩
    obtain ⟨waited, -, -, he⟩ := hr n w hw
    exact ⟨w.edge, ⟨w, hw, rfl, rfl, he⟩, (fires_detectEdge _ _ _).mp hfire⟩

theorem waiters_setValue (k : Kernel) (n : NetId) (v : PackedVec) (m : NetId) :
    ((k.setValue n v).net m).waiters = (k.net m).waiters := by
  unfold Kernel.setValue
  rw [Kernel.net_modifyNet]
  split_ifs <;> rfl

theorem registered_setValue {k : Kernel} (hr : Registered k) (n : NetId) (v : PackedVec) :
    Registered (k.setValue n v) := by
  have h : Keeps k (k.setValue n v) := keeps_modifyNet k n fun _ => rfl
  exact (h hr).1

/-- What a write does: nothing if the value stays, else the runtime waiters are queued and then
the asking processes. -/
theorem woke_writeNet {k : Kernel} (hr : Registered k) (n : NetId) (v : PackedVec) :
    ∃ procs : List ProcId, procs.Nodup ∧ (∀ p, p ∈ procs ↔ Asked k n v p) ∧
      (k.writeNet n v).active =
        k.active ++ (if k.netValue n = v then [] else k.runtimeWaiters) ++ procs ∧
      (∀ p, (k.writeNet n v).netWaits p = if p ∈ procs then none else k.netWaits p) ∧
      (∀ p, p ∉ procs → (k.writeNet n v).waitEpochs p = k.waitEpochs p) ∧
      ∀ p, p ∉ procs → ∀ m, (entries (k.writeNet n v) m p).Perm (entries k m p) := by
  have hentries (m : NetId) (p : ProcId) : entries (k.setValue n v) m p = entries k m p := by
    unfold entries
    rw [waiters_setValue]
  unfold Kernel.writeNet
  dsimp only
  by_cases hc : (detectEdge (k.netValue n) v).changed = true
  · have hne : k.netValue n ≠ v := (detectEdge_changed _ _).mp hc
    obtain ⟨procs, h⟩ := @woke_wakeWaiters (k.setValue n v).notifyRuntimeChange
      (registered_setValue hr n v) n (detectEdge (k.netValue n) v)
    rw [if_pos hc, if_neg hne]
    refine ⟨procs, h.nodup, fun p => ?_, h.active, h.netWaits, h.epochs, fun p hp m => ?_⟩
    · rw [h.mem, asked_iff hr]
      have hw : ((k.setValue n v).notifyRuntimeChange.net n).waiters = (k.net n).waiters :=
        waiters_setValue k n v n
      rw [hw]
    · exact hentries m p ▸ h.entries p hp m
  · have heq : k.netValue n = v := by
      by_contra hne
      exact hc ((detectEdge_changed _ _).mpr hne)
    have hno : (detectEdge (k.netValue n) v).changed = false := by simpa using hc
    rw [if_neg hc, if_pos heq]
    refine ⟨[], List.nodup_nil, fun p => ?_, by simp [Kernel.setValue, Kernel.modifyNet],
      fun p => rfl, fun p _ => rfl, fun p _ m => .of_eq (hentries m p)⟩
    rw [asked_iff hr]
    simp [detectEdge_unchanged hno]

/-- In a kernel whose processes have one wakeup source at most, every write is exact. -/
theorem exact_writeNet {k : Kernel} (hr : Registered k) (hone : ∀ p, sources k p ≤ 1) (n : NetId)
    (v : PackedVec) : Exact k n v (k.writeNet n v) := by
  obtain ⟨procs, hnodup, hmem, hactive, hwaits, hepochs, hperm⟩ := woke_writeNet hr n v
  obtain ⟨hr', hsources⟩ := keeps_writeNet k n v hr
  have hwaiting (p : ProcId) (hp : Asked k n v p) : k.netWaits p ≠ none := by
    obtain ⟨w, hw, rfl, -⟩ := (asked_iff hr n v p).mp hp
    obtain ⟨waited, hreg, -⟩ := hr n w hw
    simp [hreg]
  refine ⟨fun p => ⟨fun h => ?_, fun h => ⟨hwaiting p h, ?_⟩⟩, ⟨procs, hnodup, hmem, hactive⟩,
    fun p hp => ⟨?_, ?_, fun m => ?_⟩, fun p hp => ?_⟩
  · by_contra hno
    rw [hwaits, if_neg (fun hp => hno ((hmem p).mp hp))] at h
    exact h.1 h.2
  · rw [hwaits, if_pos ((hmem p).mpr h)]
  · have hle := hone p
    have hsome := Option.isSome_iff_ne_none.mpr (hwaiting p hp)
    simp only [sources, hsome, Bool.toNat_true] at hle
    omega
  · -- one source before, hence one after, and the new queue slot is one
    have hle := hsources p
    have hle' := hone p
    have hpos : 0 < (k.writeNet n v).active.count p := by
      rw [List.count_pos_iff, hactive]
      exact List.mem_append_right _ ((hmem p).mpr hp)
    simp only [sources] at hle hle'
    omega
  · have hnone : (k.writeNet n v).netWaits p = none := by
      rw [hwaits, if_pos ((hmem p).mpr hp)]
    rw [entries, List.filter_eq_nil_iff]
    intro w hw hwp
    exact registered_of_unwaited hr' hnone m hw (by simpa using hwp)
  · have hnot : p ∉ procs := fun h => hp ((hmem p).mp h)
    have hep := hepochs p hnot
    exact ⟨by rw [hwaits, if_neg hnot], hep, hperm p hnot,
      fun m edge => live_of_perm hep (hperm p hnot m) edge⟩

/-! ### The writes of a step -/

/-- A write of a net, with the kernel it finds. -/
structure Write where
  kernel : Kernel
  net : NetId
  value : PackedVec

/-- Nobody enters or leaves a net wait or a join, the active queue only grows, and the nets keep
their values. -/
structure Quiet (k k' : Kernel) : Prop where
  keeps : Keeps k k'
  joinWatches : k'.joinWatches = k.joinWatches
  active : ∃ woken, k'.active = k.active ++ woken
  netWaits : k'.netWaits = k.netWaits
  waitEpochs : k'.waitEpochs = k.waitEpochs
  waiters : ∀ n, (k'.net n).waiters = (k.net n).waiters
  values : ∀ n < k.nets.length, k'.netValue n = k.netValue n

/-- The second kernel comes from the first by these writes and quiet updates alone. -/
inductive Performs : Kernel → List Write → Kernel → Prop
  | done (k : Kernel) : Performs k [] k
  | quiet {k k₁ k₂ : Kernel} {ws : List Write} (h : Quiet k k₁) (hrest : Performs k₁ ws k₂) :
      Performs k ws k₂
  | write {k k₂ : Kernel} (n : NetId) (v : PackedVec) {ws : List Write}
      (hrest : Performs (k.writeNet n v) ws k₂) : Performs k (⟨k, n, v⟩ :: ws) k₂

theorem Performs.trans {k₁ k₂ k₃ : Kernel} {ws ws' : List Write} (h : Performs k₁ ws k₂)
    (h' : Performs k₂ ws' k₃) : Performs k₁ (ws ++ ws') k₃ := by
  induction h with
  | done k => exact h'
  | quiet hq hrest ih => exact .quiet hq (ih h')
  | write n v hrest ih => exact .write n v (ih h')

theorem Quiet.performs {k k' : Kernel} (h : Quiet k k') : Performs k [] k' := .quiet h (.done k')

theorem performs_write (k : Kernel) (n : NetId) (v : PackedVec) :
    Performs k [⟨k, n, v⟩] (k.writeNet n v) := .write n v (.done _)

theorem quiet_of_same {k k' : Kernel} (h : SameWakeups k k')
    (hv : ∀ n < k.nets.length, k'.netValue n = k.netValue n) : Quiet k k' :=
  ⟨h.keeps, h.joinWatches, ⟨[], by rw [h.active, List.append_nil]⟩, h.netWaits, h.waitEpochs,
    h.waiters, hv⟩

theorem quiet_modifyNet (k : Kernel) (n : NetId) {f : Net → Net}
    (hf : ∀ net, (f net).waiters = net.waiters) (hv : ∀ net, (f net).value = net.value) :
    Quiet k (k.modifyNet n f) := by
  refine ⟨keeps_modifyNet k n hf, rfl, ⟨[], (List.append_nil _).symm⟩, rfl, rfl, fun m => ?_,
    fun m _ => ?_⟩
  · rw [Kernel.net_modifyNet]
    split_ifs
    · exact hf _
    · rfl
  · unfold Kernel.netValue
    rw [Kernel.net_modifyNet]
    split_ifs
    · exact hv _
    · rfl

theorem quiet_pushTimedAction (k : Kernel) (time : SimTime) (region : Region)
    {action : TimedAction} (ha : ∀ p, action ≠ .resume p) :
    Quiet k (k.pushTimedAction time region action) :=
  quiet_of_same (sameWakeups_pushTimedAction k time region ha) fun _ _ => rfl

theorem performs_touch {d : DriverId} {n : NetId} {k k' : Kernel} (h : Touch d n k k') :
    ∃ ws, Performs k ws k' := by
  cases h with
  | net h => cases h with
    | writeNet v hv => exact ⟨_, performs_write k n v⟩
    | setDelayRequest v generations hv hg =>
      have hquiet : Quiet k (k.setDelayRequest n v generations) :=
        quiet_modifyNet k n (fun _ => rfl) fun _ => rfl
      exact ⟨[], hquiet.performs⟩
    | push hpos ha =>
      refine ⟨[], (quiet_pushTimedAction k _ .active ?_).performs⟩
      rintro p rfl
      exact ha
  | setDriverValue v hd hv =>
    have hquiet : Quiet k (k.setDriverValue d v) :=
      quiet_modifyNet k _ (fun _ => rfl) fun _ => rfl
    exact ⟨[], hquiet.performs⟩
  | setDriverRequest v generations hv hg =>
    have hsame : SameWakeups k (k.setDriverRequest d v generations) :=
      ⟨rfl, rfl, fun _ => rfl, rfl, rfl, rfl, rfl, rfl, rfl, fun _ => rfl⟩
    exact ⟨[], (quiet_of_same hsame fun _ _ => rfl).performs⟩
  | push hpos ha =>
    refine ⟨[], (quiet_pushTimedAction k _ .active ?_).performs⟩
    rintro p rfl
    exact ha

theorem performs_touches {d : DriverId} {n : NetId} {k k' : Kernel} (h : Touches d n k k') :
    ∃ ws, Performs k ws k' := by
  induction h with
  | refl => exact ⟨[], .done _⟩
  | tail _ ht ih =>
    obtain ⟨ws, hws⟩ := ih
    obtain ⟨ws', hws'⟩ := performs_touch ht
    exact ⟨ws ++ ws', hws.trans hws'⟩

theorem performs_batch (batch : List (NetId × PackedVec)) (k : Kernel) :
    ∃ ws, Performs k ws (batch.foldl (fun (k : Kernel) u => k.writeNet u.1 u.2) k) ∧
      ws.map (fun w => (w.net, w.value)) = batch := by
  induction batch generalizing k with
  | nil => exact ⟨[], .done k, rfl⟩
  | cons u batch ih =>
    obtain ⟨ws, hws, hmap⟩ := ih (k.writeNet u.1 u.2)
    exact ⟨⟨k, u.1, u.2⟩ :: ws, .write u.1 u.2 hws, by rw [List.map_cons, hmap]⟩

theorem quiet_newNet (k : Kernel) (initial : PackedVec) (resolution : NetResolution)
    (delay : Option NetDelay) :
    Quiet k (k.newNetWithResolutionAndDelay initial resolution delay) := by
  refine quiet_of_same (sameWakeups_newNet k initial resolution delay) fun n hn => ?_
  simp [Kernel.netValue, Kernel.net, Kernel.newNetWithResolutionAndDelay,
    List.getD_eq_getElem?_getD, List.getElem?_append, hn]

theorem performs_newDriver (k : Kernel) (n : NetId) (zero one : DriveStrength) :
    Performs k [] (k.newDriverWithStrengths n zero one) := by
  have hslot : Quiet k (k.addDriverSlot n zero one) :=
    quiet_modifyNet k n (fun _ => rfl) fun _ => rfl
  have hsame : SameWakeups (k.addDriverSlot n zero one) (k.newDriverWithStrengths n zero one) :=
    ⟨rfl, rfl, fun _ => rfl, rfl, rfl, rfl, rfl, rfl, rfl, fun _ => rfl⟩
  exact .quiet hslot (quiet_of_same hsame fun _ _ => rfl).performs

/-- What is known of the writes of a step: the blocking one and the batch are the requested
ones. -/
def Requested (k : Kernel) (ws : List Write) : Label → Prop
  | .call (.writeNet n v) => ws.map (fun w => (w.net, w.value)) = [(n, v)]
  | .drainNba => ws.map (fun w => (w.net, w.value)) = k.nba
  | _ => True

/-- The steps that write nets. -/
def Writing : Label → Prop
  | .call _ | .drainNba | .dispatch => True
  | _ => False

theorem performs_call (k : Kernel) (c : Call) :
    ∃ ws, Performs k ws (c.exec k) ∧ Requested k ws (.call c) := by
  have touched {d : DriverId} {n : NetId} {k' : Kernel} (h : Touches d n k k')
      (hreq : ∀ ws, Requested k ws (.call c)) :
      ∃ ws, Performs k ws k' ∧ Requested k ws (.call c) := by
    obtain ⟨ws, hws⟩ := performs_touches h
    exact ⟨ws, hws, hreq ws⟩
  cases c with
  | newNet initial resolution delay =>
    exact ⟨[], (quiet_newNet k initial resolution delay).performs, trivial⟩
  | newDriver n zero one => exact ⟨[], performs_newDriver k n zero one, trivial⟩
  | writeNet n v => exact ⟨[⟨k, n, v⟩], performs_write k n v, rfl⟩
  | scheduleNba n v =>
    have hsame : SameWakeups k (k.scheduleNba n v) :=
      ⟨rfl, rfl, fun _ => rfl, rfl, rfl, rfl, rfl, rfl, rfl, fun _ => rfl⟩
    exact ⟨[], (quiet_of_same hsame fun _ _ => rfl).performs, trivial⟩
  | requestStop =>
    have hsame : SameWakeups k k.requestStop :=
      ⟨rfl, rfl, fun _ => rfl, rfl, rfl, rfl, rfl, rfl, rfl, fun _ => rfl⟩
    exact ⟨[], (quiet_of_same hsame fun _ _ => rfl).performs, trivial⟩
  | notifyRuntimeChange =>
    have hquiet : Quiet k k.notifyRuntimeChange :=
      ⟨keeps_notifyRuntimeChange k, rfl, ⟨_, rfl⟩, rfl, rfl, fun _ => rfl, fun _ _ => rfl⟩
    exact ⟨[], hquiet.performs, trivial⟩
  | triggerEvent event =>
    have hquiet : Quiet k (k.triggerEvent event) :=
      ⟨keeps_triggerEvent k event, rfl, ⟨_, rfl⟩, rfl, rfl, fun _ => rfl, fun _ _ => rfl⟩
    exact ⟨[], hquiet.performs, trivial⟩
  | driveNet d v => exact touched (touches_driveNet k d v) fun _ => trivial
  | scheduleDrive d v delayFs =>
    exact touched (touches_scheduleDrive k d v delayFs) fun _ => trivial
  | scheduleDriveTransitions d v delays =>
    exact touched (touches_scheduleDriveTransitions k d v delays) fun _ => trivial

theorem performs_drainNba (k : Kernel) :
    ∃ ws, Performs k ws k.drainNba ∧ Requested k ws .drainNba := by
  obtain ⟨ws, hws, hmap⟩ := performs_batch k.nba { k with nba := [] }
  have hclear : Quiet k { k with nba := [] } :=
    ⟨keeps_clearNba k, rfl, ⟨[], (List.append_nil _).symm⟩, rfl, rfl, fun _ => rfl, fun _ _ => rfl⟩
  have hwake (k' : Kernel) : Quiet k' k'.wakeNbaWaiters :=
    ⟨keeps_wakeNbaWaiters k', rfl, ⟨_, rfl⟩, rfl, rfl, fun _ => rfl, fun _ _ => rfl⟩
  have hrest := hws.trans (hwake _).performs
  rw [List.append_nil] at hrest
  exact ⟨ws, .quiet hclear hrest, hmap⟩

theorem performs_dispatch (k : Kernel) {ev : TimedEvent} {rest : List TimedEvent}
    (ht : k.timed = ev :: rest) :
    ∃ ws, Performs k ws ({ k with timed := rest }.dispatchEvent ev) := by
  by_cases ha : ∃ q, ev.action = .resume q
  · refine ⟨[], Quiet.performs ?_⟩
    have hkeeps := keeps_dispatch k ht
    obtain ⟨q, ha⟩ := ha
    revert hkeeps
    unfold Kernel.dispatchEvent
    rw [ha]
    intro hkeeps
    dsimp only at hkeeps ⊢
    split at hkeeps
    · exact ⟨hkeeps, rfl, ⟨[], (List.append_nil _).symm⟩, rfl, rfl, fun _ => rfl, fun _ _ => rfl⟩
    · exact ⟨hkeeps, rfl, ⟨_, rfl⟩, rfl, rfl, fun _ => rfl, fun _ _ => rfl⟩
  · have hne : ∀ p, ev.action ≠ .resume p := fun p he => ha ⟨p, he⟩
    have hpop : Quiet k { k with timed := rest } :=
      ⟨keeps_pop k ht hne, rfl, ⟨[], (List.append_nil _).symm⟩, rfl, rfl, fun _ => rfl,
        fun _ _ => rfl⟩
    obtain ⟨d, n, htouch⟩ := touches_dispatchEvent hne
    obtain ⟨ws, hws⟩ := performs_touches htouch
    exact ⟨ws, .quiet hpop hws⟩

/-- Every write on the way is exact. -/
theorem exact_performs {k k' : Kernel} {ws : List Write} (h : Performs k ws k')
    (hr : Registered k) (hone : ∀ p, sources k p ≤ 1) :
    ∀ w ∈ ws, Exact w.kernel w.net w.value (w.kernel.writeNet w.net w.value) := by
  induction h with
  | done k => simp
  | quiet hq hrest ih =>
    obtain ⟨hr', hs⟩ := hq.keeps hr
    exact ih hr' fun p => (hs p).symm ▸ hone p
  | @write k k₂ n v ws hrest ih =>
    obtain ⟨hr', hs⟩ := keeps_writeNet k n v hr
    intro w hw
    rcases List.mem_cons.mp hw with rfl | hw
    · exact exact_writeNet hr hone n v
    · exact ih hr' (fun p => (hs p).symm ▸ hone p) w hw

theorem joinWatches_writeNet (k : Kernel) (n : NetId) (v : PackedVec) :
    (k.writeNet n v).joinWatches = k.joinWatches := by
  unfold Kernel.writeNet
  dsimp only
  split_ifs
  · unfold Kernel.wakeWaiters
    dsimp only
    generalize scan _ _ _ = s
    obtain ⟨nets, netWaits, hk⟩ := clearAll_frame s.1.procs
      ((k.setValue n v).notifyRuntimeChange.storeScan n s)
    rw [hk]
    rfl
  · rfl

/-- Writes and quiet updates leave the joins alone and take nobody out of the active queue. -/
theorem Performs.frame {k k' : Kernel} {ws : List Write} (h : Performs k ws k') :
    k'.joinWatches = k.joinWatches ∧ ∃ woken, k'.active = k.active ++ woken := by
  have hwrite (k : Kernel) (n : NetId) (v : PackedVec) :
      ∃ woken, (k.writeNet n v).active = k.active ++ woken := (wakes_writeNet k n v).active
  induction h with
  | done k => exact ⟨rfl, [], (List.append_nil _).symm⟩
  | quiet hq hrest ih =>
    obtain ⟨woken, hw⟩ := hq.active
    obtain ⟨hj, woken', hw'⟩ := ih
    exact ⟨hj.trans hq.joinWatches, woken ++ woken', by rw [hw', hw, List.append_assoc]⟩
  | @write k k₂ n v ws hrest ih =>
    obtain ⟨woken, hw⟩ := hwrite k n v
    obtain ⟨hj, woken', hw'⟩ := ih
    exact ⟨hj.trans (joinWatches_writeNet k n v), woken ++ woken', by
      rw [hw', hw, List.append_assoc]⟩

theorem netValue_of_calm {k k' : Kernel} (h : Calm k k') (n : NetId) :
    k'.netValue n = k.netValue n := by
  have hv : (signals (k'.net n)).value = (signals (k.net n)).value := by rw [h.signals n]
  exact hv

/-- Steps other than calls, batches and timed events write no net. -/
theorem netValue_step {l : Label} {s s' : Sim} (hs : step l s = some s') (hl : ¬ Writing l)
    (n : NetId) : s'.kernel.netValue n = s.kernel.netValue n := by
  have heffect := effect_of_step hs
  generalize s'.kernel = k' at heffect ⊢
  generalize s.kernel = k at heffect ⊢
  cases heffect with
  | calm h hn => exact netValue_of_calm h n
  | delayed h => exact netValue_of_calm h.toCalm n
  | advance => rfl
  | _ => exact absurd trivial hl

/-- The writes of a writing step. -/
theorem performs_step {l : Label} {s s' : Sim} (hs : step l s = some s') (hl : Writing l) :
    ∃ ws, Performs s.kernel ws s'.kernel ∧ Requested s.kernel ws l := by
  cases stepped_of_step hs with
  | call hm hv => exact performs_call s.kernel _
  | drainNba hm ha hi hp hn => exact performs_drainNba s.kernel
  | dispatch hm ht hd =>
    obtain ⟨ws, hws⟩ := performs_dispatch s.kernel ht
    exact ⟨ws, hws, trivial⟩
  | _ => exact absurd hl id

/-- In every reachable state a write of any net wakes exactly the processes whose live
registration asks for the edge it makes, each once, and leaves all other registrations; and a
step changes nets by such writes alone: a blocking one, the writes of a batch in order, or those
of a driver or of a delayed update. -/
theorem edge_wakeups_exact {labels : List Label} {s : Sim} (hr : Runs labels s) :
    (∀ n v, Exact s.kernel n v (s.kernel.writeNet n v)) ∧
    ∀ l s', step l s = some s' →
      (Writing l → ∃ ws, Performs s.kernel ws s'.kernel ∧ Requested s.kernel ws l ∧
        ∀ w ∈ ws, Exact w.kernel w.net w.value (w.kernel.writeNet w.net w.value)) ∧
      (¬ Writing l → ∀ n, s'.kernel.netValue n = s.kernel.netValue n) := by
  have hheld := held_run hr
  have hone (p : ProcId) : sources s.kernel p ≤ 1 := by
    rw [hheld.sources]
    split_ifs <;> omega
  refine ⟨exact_writeNet hheld.registered hone, fun l s' hs => ⟨fun hl => ?_, netValue_step hs⟩⟩
  obtain ⟨ws, hws, hreq⟩ := performs_step hs hl
  exact ⟨ws, hws, hreq, exact_performs hws hheld.registered hone⟩

/-- The two waiting processes of this run ask for different edges of one net. -/
def edgesRun : List Label :=
  [.call (.newNet (.zero 1) .wire none), .addProcess, .addProcess, .addProcess, .runUntil none,
    .resume, .suspend (.sensitivity [(0, .posedge), (0, .anyChange)]), .resume,
    .suspend (.edge 0 .negedge), .resume]

theorem edgesRun_isSome : (run step Sim.new edgesRun).isSome = true := rfl

/-- A rising edge wakes the first of them once and leaves the second registered. -/
theorem edge_wakeups_exact_rising : ∃ s, Runs edgesRun s ∧
    Exact s.kernel 0 (.ones 1) (s.kernel.writeNet 0 (.ones 1)) ∧
    (s.kernel.writeNet 0 (.ones 1)).active = [0] ∧
    entries (s.kernel.writeNet 0 (.ones 1)) 0 1 = [⟨1, .negedge, 1⟩] := by
  have hr : Runs edgesRun ((run step Sim.new edgesRun).get edgesRun_isSome) :=
    (Option.some_get edgesRun_isSome).symm
  exact ⟨_, hr, (edge_wakeups_exact hr).1 0 (.ones 1), rfl, rfl⟩

end Eevee.Sched.EdgeWakeups
