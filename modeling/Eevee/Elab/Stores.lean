/- The last phase of a blocking assignment does what its lookups lead to. -/

import Mathlib.Data.List.Basic
import Eevee.Elab.Assignments

set_option autoImplicit false
set_option relaxedAutoImplicit false

namespace Eevee.Elab.Stores

open Eevee.Core.Logic
open Eevee.Ir.Values (MemoryDef memoryElement)
open Eevee.Ir.Objects
open Eevee.Ir.Locations
open Eevee.Classes.Declarations
open Eevee.Elab.Names
open Eevee.Elab.Targets
open Eevee.Elab.Resolution (exec_getField genDecl_remote found_scope mem_of_target)
open Eevee.Elab.Assignments

variable {E : Type} {ctx : Context E}

/-! ### Effects -/

/-- What running some code does: a write to a place that exists, or a panic. -/
structure Does (ctx : Context E) (s : State) (h : Heap) (run : Option State) (r : Option Write) :
    Prop where
  writes : ∀ w, r = some w → Placed ctx s w ∧ ∃ t, run = some t ∧ Performs ctx s h t w
  panics : r = none → run = none

theorem at_self {place : Location} {value : Val} (old : Val) :
    Write.at (some (place, value)) place old = value := if_pos rfl

/-- Writing what is there changes nothing. -/
theorem at_unchanged {s : State} {place : Location} {value : Val} (h : read s place = value)
    (l : Location) : Write.at (some (place, value)) l (read s l) = read s l := by
  show (if l = place then value else read s l) = read s l
  split
  · rename_i hl
    rw [hl, h]
  · rfl

theorem at_of_same {s : State} {w w' : Write} (hsame : SameEffect s w w') (l : Location) :
    w.at l (read s l) = w'.at l (read s l) := by
  cases w with
  | none =>
    cases w' with
    | none => rfl
    | some e' => exact (at_unchanged hsame.1 l).symm
  | some e =>
    cases w' with
    | none => exact at_unchanged hsame.1 l
    | some e' =>
      obtain ⟨place, value⟩ := e
      obtain ⟨place', value'⟩ := e'
      rcases hsame with ⟨rfl, rfl⟩ | ⟨hplace, hplace'⟩
      · rfl
      · exact (at_unchanged hplace.1 l).trans (at_unchanged hplace'.1 l).symm

theorem made_of_holds {s : State} {place l : Location} {value : Val} (h : Holds s place value) :
    (Present s.heap l ∨ Makes place l) ↔ Present s.heap l :=
  or_iff_left_of_imp fun hmakes => present_of_makes hmakes h.2

theorem made_of_same {s : State} {w w' : Write} (hsame : SameEffect s w w') (l : Location) :
    (Present s.heap l ∨ w.makes l) ↔ (Present s.heap l ∨ w'.makes l) := by
  cases w with
  | none =>
    cases w' with
    | none => exact Iff.rfl
    | some e' => exact (or_iff_left id).trans (made_of_holds hsame).symm
  | some e =>
    cases w' with
    | none => exact (made_of_holds hsame).trans (or_iff_left id).symm
    | some e' =>
      obtain ⟨place, value⟩ := e
      obtain ⟨place', value'⟩ := e'
      rcases hsame with ⟨rfl, rfl⟩ | ⟨hplace, hplace'⟩
      · exact Iff.rfl
      · exact (made_of_holds hplace).trans (made_of_holds hplace').symm

/-- Of two places that are brought about together, each is there already or is the other. -/
theorem present_of_made {h : Heap} {place place' : Location} (hne : place ≠ place')
    (hplace : Present h place ∨ Makes place' place)
    (hplace' : Present h place' ∨ Makes place place') : Present h place := by
  rcases hplace with hplace | hmakes
  · exact hplace
  · rcases hplace' with hplace' | hmakes'
    · exact present_of_makes hmakes hplace'
    · exact absurd (makes_antisymm hmakes' hmakes) hne

/-- Two writes that one state is the result of have the same effect. -/
theorem same_of_performs {s t : State} {h : Heap} {w w' : Write}
    (hw : Placed ctx s w) (hw' : Placed ctx s w') (hperf : Performs ctx s h t w)
    (hperf' : Performs ctx s h t w') : SameEffect s w w' := by
  have hboth : ∀ l, Visible ctx l → Allocated s.heap l →
      w.at l (read s l) = w'.at l (read s l) := fun l hvis halloc =>
    (hperf.places l hvis halloc).symm.trans (hperf'.places l hvis halloc)
  have hmade : ∀ l, Visible ctx l → Allocated s.heap l →
      ((Present s.heap l ∨ w.makes l) ↔ (Present s.heap l ∨ w'.makes l)) := fun l hvis halloc =>
    (hperf.present l hvis halloc).symm.trans (hperf'.present l hvis halloc)
  cases w with
  | none =>
    cases w' with
    | none => trivial
    | some e' =>
      have hvis := hw'.visible _ _ rfl
      have halloc := hw'.allocated _ _ rfl
      have heq := hboth e'.1 hvis halloc
      have hpresent := (hmade e'.1 hvis halloc).mpr (.inr (makes_self e'.1))
      exact ⟨heq.trans (at_self _), (or_iff_left id).mp hpresent⟩
  | some e =>
    have hvis := hw.visible _ _ rfl
    have halloc := hw.allocated _ _ rfl
    have heq := hboth e.1 hvis halloc
    have hpresent := (hmade e.1 hvis halloc).mp (.inr (makes_self e.1))
    rw [at_self] at heq
    cases w' with
    | none => exact ⟨heq.symm, (or_iff_left id).mp hpresent⟩
    | some e' =>
      have hvis' := hw'.visible _ _ rfl
      have halloc' := hw'.allocated _ _ rfl
      have heq' := hboth e'.1 hvis' halloc'
      have hpresent' := (hmade e'.1 hvis' halloc').mpr (.inr (makes_self e'.1))
      rw [at_self] at heq'
      by_cases hplace : e.1 = e'.1
      · refine .inl ⟨hplace, ?_⟩
        rw [hplace, at_self] at heq
        exact heq
      · refine .inr ⟨⟨?_, present_of_made hplace hpresent hpresent'⟩,
          ?_, present_of_made (Ne.symm hplace) hpresent' hpresent⟩
        · exact (heq.trans (if_neg hplace)).symm
        · exact (if_neg (Ne.symm hplace)).symm.trans heq'

/-- Code performs a write exactly when the write that it makes has the same effect. -/
theorem does_iff {s : State} {h : Heap} {v₀ v : Val} {run : Option State} {r : Option Write}
    {w : Write} (hsound : Sound s) (hcopy : assignmentCopy s.heap v₀ = some (h, v))
    (hdoes : Does ctx s h run r) (hw : Placed ctx s w)
    (hvalue : ∀ place value, w = some (place, value) → value = v ∨ h = s.heap) :
    (∃ t, run = some t ∧ Performs ctx s h t w) ↔ ∃ e, r = some e ∧ SameEffect s e w := by
  constructor
  · rintro ⟨t, ht, hperf⟩
    cases hr : r with
    | none =>
      rw [hdoes.panics hr] at ht
      cases ht
    | some e =>
      obtain ⟨hplaced, t', ht', hperf'⟩ := hdoes.writes e hr
      cases ht.symm.trans ht'
      exact ⟨e, rfl, same_of_performs hplaced hw hperf' hperf⟩
  · rintro ⟨e, hr, hsame⟩
    obtain ⟨-, t, ht, hperf⟩ := hdoes.writes e hr
    refine ⟨t, ht, fun l hvis halloc => ?_,
      fun l hvis halloc => (hperf.present l hvis halloc).trans (made_of_same hsame l),
      fun hsome l halloc hnew => ?_⟩
    · rw [hperf.places l hvis halloc, at_of_same hsame]
    · cases e with
      | some e => exact hperf.copies rfl l halloc hnew
      | none =>
        cases w with
        | none => cases hsome
        | some e' =>
          -- the value is there already, so it is no new storage
          have hold : read s e'.1 = e'.2 := hsame.1
          have hheap : h = s.heap := by
            rcases hvalue _ _ rfl with hv | hheap
            · rw [hv] at hold
              rcases fresh_assignmentCopy hcopy with hheap | ⟨id, rfl, hid⟩ | ⟨id, rfl, hid⟩
              · exact hheap
              · exact absurd (hsound.queues _ _ hold) (Nat.not_lt.mpr hid)
              · exact absurd (hsound.assocs _ _ hold) (Nat.not_lt.mpr hid)
            · exact hheap
          rw [hheap] at halloc
          exact absurd halloc hnew

/-! ### Whole places -/

section

variable {s : State} {h : Heap} {v : Val} {src : Reg}

theorem does_of_updates {run : Option State} {t : State} {l : Location} {value : Val}
    (hvis : Visible ctx l) (halloc : Allocated s.heap l) (hcopy : Extends s.heap h)
    (hrun : run = some t) (hupdates : ∀ l', Visible ctx l' → Allocated h l' →
      read t l' = if l' = l then value else read (s.setHeap h) l')
    (hpresent : ∀ l', Present t.heap l' ↔ Present h l' ∨ Makes l l') :
    Does ctx s h run (some (some (l, value))) := by
  refine ⟨fun w hw => ?_, fun hnone => by cases hnone⟩
  cases hw
  refine ⟨⟨fun place x heq => ?_, fun place x heq => ?_⟩, t, hrun, fun l' hvis' halloc' => ?_,
    fun l' _ halloc' => ?_, fun _ l' halloc' hnew => ⟨?_, ?_⟩⟩
  · cases heq
    exact hvis
  · cases heq
    exact halloc
  · rw [hupdates l' hvis' (allocated_of_extends hcopy halloc'), read_setHeap hcopy halloc']
    rfl
  · rw [hpresent l', present_of_extends hcopy halloc']
    rfl
  · -- only storage can be new, and storage is visible
    have hvis' : Visible ctx l' := by
      cases l' with
      | register r => exact absurd trivial hnew
      | field | static | net | element | entry => trivial
    rw [hupdates l' hvis' halloc', if_neg]
    rintro rfl
    exact hnew halloc
  · rw [hpresent l', or_iff_left]
    exact fun hmakes => hnew (allocated_of_makes hmakes halloc)

/-- A place that is not in an array brings about nothing. -/
theorem present_of_plain {l l' : Location} (hmakes : Makes l l' → l' = l) (hl : Present h l) :
    Present h l' ↔ Present h l' ∨ Makes l l' :=
  (or_iff_left_of_imp fun hm => hmakes hm ▸ hl).symm

/-- Code that only leaves copies and temporaries writes nothing. -/
theorem does_nothing {run : Option State} {t : State} (hrun : run = some t)
    (hread : ∀ l, Visible ctx l → Allocated s.heap l → read t l = read s l)
    (hcopy : Extends s.heap t.heap) : Does ctx s h run (some none) := by
  refine ⟨fun w hw => ?_, fun hnone => by cases hnone⟩
  cases hw
  exact ⟨⟨fun place x heq => (by cases heq), fun place x heq => (by cases heq)⟩, t, hrun, hread,
    fun l _ hl => (present_of_extends hcopy hl).trans (or_iff_left id).symm,
    fun hsome => (by cases hsome)⟩

theorem does_panic {run : Option State} (hrun : run = none) : Does ctx s h run none :=
  ⟨fun w hw => (by cases hw), fun _ => hrun⟩

/-- Only vectors and null are vectors, and they are their own copies. -/
theorem copy_of_asLogic {h₀ : Heap} {value : Val} {bits : PackedVec}
    (hcopy : assignmentCopy h₀ value = some (h, v)) (hv : v.asLogic = some bits) : h = h₀ := by
  have hvalue := (asLogic_of_copy hcopy).symm.trans hv
  cases value with
  | null | logic =>
    cases hcopy
    rfl
  | str | obj | queue | assoc | event => cases hvalue

theorem does_assign {dst : Reg} (hdst : dst < ctx.temps)
    (hcopy : assignmentCopy s.heap (s.regs src) = some (h, v)) :
    Does ctx s h (exec s (.assign dst src)) (wholeWrite (.register dst) v) :=
  does_of_updates hdst trivial (extends_assignmentCopy hcopy) (updates_assign hcopy).1
    (fun l _ => (updates_assign hcopy).2 l) fun _ => present_of_plain (fun hmakes => hmakes) trivial

theorem does_staticSet {id : Nat} (hcopy : assignmentCopy s.heap (s.regs src) = some (h, v)) :
    Does ctx s h (exec s (.staticSet id src)) (wholeWrite (.static id) v) :=
  does_of_updates trivial trivial (extends_assignmentCopy hcopy) (updates_staticSet hcopy).1
    (fun l _ => (updates_staticSet hcopy).2 l) fun _ =>
    present_of_plain (fun hmakes => hmakes) trivial

theorem does_blockingWrite {net : NetId}
    (hcopy : assignmentCopy s.heap (s.regs src) = some (h, v)) :
    Does ctx s h (exec s (.blockingWrite net src)) (wholeWrite (.net net) v) := by
  have hlogic := asLogic_of_copy hcopy
  rw [wholeWrite]
  cases hv : v.asLogic with
  | none =>
    refine does_panic ?_
    rw [exec, ← hlogic, hv]
    rfl
  | some bits =>
    have hexec : exec s (.blockingWrite net src) = some (s.setNet net bits) ∧
        Updates s (s.setNet net bits) (.net net) (.logic bits) :=
      updates_blockingWrite (hlogic.symm.trans hv)
    have hheap := copy_of_asLogic hcopy hv
    subst hheap
    exact does_of_updates trivial trivial (Extends.refl _) hexec.1 (fun l _ => hexec.2 l)
      fun _ => present_of_plain (fun hmakes => hmakes) trivial

theorem does_setField {obj slot id : Nat} (hobj : s.regs obj = .obj id)
    (hcopy : assignmentCopy s.heap (s.regs src) = some (h, v)) :
    Does ctx s h (exec s (.setField obj slot src))
      (if Allocated s.heap (.field id slot) then wholeWrite (.field id slot) v else none) := by
  by_cases halloc : Allocated s.heap (.field id slot)
  · obtain ⟨h', hexec, hset, hupdates⟩ := updates_setField hobj halloc hcopy
    have hextends := extends_assignmentCopy hcopy
    rw [if_pos halloc]
    refine does_of_updates trivial halloc hextends hexec (fun l _ => hupdates l) fun l => ?_
    exact (present_setField hset l).trans
      (present_of_plain (fun hmakes => hmakes) (allocated_of_extends hextends halloc))
  · rw [if_neg halloc]
    refine does_panic ?_
    have hset : h.setField id slot v = none := by
      rw [Heap.setField, (extends_assignmentCopy hcopy).objs]
      cases hdata : s.heap.objs[id]? with
      | none => rfl
      | some data => exact if_neg fun hslot => halloc ⟨data, hdata, hslot⟩
    rw [exec, hcopy, Option.bind_some, hobj]
    show (h.setField id slot v).map _ = _
    rw [hset]
    rfl

theorem does_setField_null {obj slot : Nat} (hobj : ∀ id, s.regs obj ≠ .obj id)
    (hcopy : assignmentCopy s.heap (s.regs src) = some (h, v)) :
    Does ctx s h (exec s (.setField obj slot src)) (some none) :=
  does_nothing (setField_of_null hobj hcopy)
    (fun _ _ hl => read_setHeap (extends_assignmentCopy hcopy) hl) (extends_assignmentCopy hcopy)

theorem memoryOf_net {sig : Signal} {id : NetId} {width : Nat}
    (hkind : sig.kind = .net id width) : memoryOf (.signal sig) = none := by
  obtain ⟨name, isSigned, kind⟩ := sig
  cases hkind
  rfl

theorem reachedWhole_at {d : Decl} {l : Location} (hmemory : memoryOf d = none)
    (hplace : ctx.place s d = some l) :
    reachedWhole ctx s d v = if Allocated s.heap l then wholeWrite l v else none := by
  rw [reachedWhole, baseOf, hmemory, hplace]
  rfl

theorem reachedWhole_nowhere {d : Decl} (hmemory : memoryOf d = none)
    (hplace : ctx.place s d = none) : reachedWhole ctx s d v = some none := by
  rw [reachedWhole, baseOf, hmemory, hplace]
  rfl

/-- Writing to a declaration does what is reached. -/
theorem does_genWrite {d : Decl} {write : Code}
    (hlocal : ∀ w, d = .variable .local w → w.place < ctx.temps)
    (hwrite : ctx.genWrite src d = some write)
    (hcopy : assignmentCopy s.heap (s.regs src) = some (h, v)) :
    Does ctx s h (runCode s write) (reachedWhole ctx s d v) := by
  cases d with
  | this | const | method | function => cases hwrite
  | «variable» scope w =>
    cases scope with
    | «local» =>
      cases hwrite
      rw [runCode_single]
      exact does_assign (hlocal w rfl) hcopy
    | field =>
      cases hwrite
      rw [runCode_single]
      by_cases hobj : ∃ id, s.regs ctx.thisReg = .obj id
      · obtain ⟨id, hobj⟩ := hobj
        have hplace : ctx.place s (.variable .field w) = some (.field id w.place) := by
          rw [Context.place, hobj]
        rw [reachedWhole_at rfl hplace]
        exact does_setField hobj hcopy
      · have hnull : ∀ id, s.regs ctx.thisReg ≠ .obj id := fun id hid => hobj ⟨id, hid⟩
        have hplace : ctx.place s (.variable .field w) = none := by
          rw [Context.place]
          cases hthis : s.regs ctx.thisReg with
          | obj id => exact absurd hthis (hnull id)
          | null | logic | str | queue | assoc | event => rfl
        rw [reachedWhole_nowhere rfl hplace]
        exact does_setField_null hnull hcopy
    | static | package =>
      cases hwrite
      rw [runCode_single]
      exact does_staticSet hcopy
  | signal sig =>
    rw [Context.genWrite] at hwrite
    cases hkind : sig.kind with
    | memory elements left right width =>
      rw [hkind] at hwrite
      cases hwrite
    | net id width =>
      rw [hkind] at hwrite
      cases hwrite
      have hplace : ctx.place s (.signal sig) = some (.net id) := by
        rw [Context.place, hkind]
      rw [runCode_single, reachedWhole_at (memoryOf_net hkind) hplace]
      exact does_blockingWrite hcopy

/-! ### Elements and bits -/

/-- Writing an element or bit of a register does what is reached: a bit of a temporary is lost. -/
theorem does_indexSet {base idx : Reg} {inPlace : Option Location} (hsound : Sound s)
    (hin : (base < ctx.temps ∧ inPlace = some (.register base)) ∨
      (ctx.temps ≤ base ∧ inPlace = none))
    (hcopy : assignmentCopy s.heap (s.regs src) = some (h, v)) :
    Does ctx s h (exec s (.indexSet base idx src))
      (reachedPart inPlace (s.regs base) (s.regs idx) v) := by
  have hextends := extends_assignmentCopy hcopy
  have hkeeps : ∀ l, Visible ctx l → Allocated s.heap l → read (s.setHeap h) l = read s l :=
    fun l _ hl => read_setHeap hextends hl
  rw [exec_indexSet hcopy]
  cases hbase : s.regs base with
  | queue id =>
    have hid : id < s.heap.queues.length := hsound.queues (.register base) id hbase
    rw [indexSet_queue (show (s.setHeap h).regs base = _ from hbase)]
    show Does ctx s h _ ((queueIndex (valueToKey (s.regs idx))).map _)
    cases hindex : queueIndex (valueToKey (s.regs idx)) with
    | none => exact does_panic rfl
    | some i =>
      have hid' := Nat.lt_of_lt_of_le hid hextends.queues.length_le
      exact does_of_updates trivial hid hextends rfl (fun l _ _ => read_setElement hid' v l)
        (present_setElement hid' i v)
  | assoc id =>
    have hid : id < s.heap.assocs.length := hsound.assocs (.register base) id hbase
    rw [indexSet_assoc (show (s.setHeap h).regs base = _ from hbase)]
    have hid' := Nat.lt_of_lt_of_le hid hextends.assocs.length_le
    exact does_of_updates trivial hid hextends rfl (fun l _ _ => read_setEntry hid' v l)
      (present_setEntry hid' v)
  | logic old =>
    cases hidx : s.regs idx with
    | logic index =>
      rw [indexSet_logic (show (s.setHeap h).regs base = _ from hbase)]
      show Does ctx s h _ (if index.isKnown = true ∧ index.toU64 < old.width then _ else _)
      by_cases hlt : index.isKnown = true ∧ index.toU64 < old.width
      · rw [if_pos hlt, if_pos hlt]
        cases hv : v.asLogic with
        | none => exact does_panic rfl
        | some bits =>
          rcases hin with ⟨hlt', rfl⟩ | ⟨hge, rfl⟩
          · exact does_of_updates hlt' trivial hextends rfl (fun l _ _ => read_setReg base _ l)
              fun _ => present_of_plain (fun hmakes => hmakes) trivial
          · refine does_nothing rfl (fun l hvis hl => ?_) hextends
            rw [read_setReg, if_neg, hkeeps l hvis hl]
            rintro rfl
            exact absurd hvis (Nat.not_lt.mpr hge)
      · rw [if_neg hlt, if_neg hlt]
        exact does_nothing rfl hkeeps hextends
    | null | str | obj | queue | assoc | event =>
      rw [indexSet_key (show (s.setHeap h).regs base = _ from hbase) (fun index => by simp)]
      exact does_nothing rfl hkeeps hextends
  | null | str | obj | event =>
    have hsame : indexSet (s.setHeap h) base (s.regs idx) v = some (s.setHeap h) := by
      unfold indexSet
      rw [show (s.setHeap h).regs base = _ from hbase]
    rw [hsame]
    exact does_nothing rfl hkeeps hextends

/-- Writing an element of a memory. -/
theorem does_memoryWrite {m : MemoryDef} {idx : Reg}
    (hcopy : assignmentCopy s.heap (s.regs src) = some (h, v)) :
    Does ctx s h (exec s (.blockingMemoryWrite m idx src)) (elementWrite m (s.regs idx) v) := by
  have hlogic := asLogic_of_copy hcopy
  rw [exec, elementWrite]
  cases (s.regs idx).asLogic with
  | none => exact does_panic rfl
  | some index =>
    rw [Option.bind_some, Option.bind_some]
    cases memoryElement m index with
    | none => exact does_nothing rfl (fun _ _ _ => rfl) (Extends.refl _)
    | some net =>
      rw [← hlogic]
      cases hv : v.asLogic with
      | none => exact does_panic rfl
      | some bits =>
        have hheap := copy_of_asLogic hcopy hv
        subst hheap
        exact does_of_updates trivial trivial (Extends.refl _) rfl
          (fun l _ _ => read_setNet net _ l) fun _ =>
            present_of_plain (fun hmakes => hmakes) trivial

/-- A bit of a net is written by way of a temporary that holds the net as it was read. -/
theorem does_netWrite {id tmp idx : Nat} {old : PackedVec} (htmp : ctx.temps ≤ tmp)
    (hold : s.regs tmp = .logic old) (hcopy : assignmentCopy s.heap (s.regs src) = some (h, v)) :
    Does ctx s h (runCode s [.inst (.indexSet tmp idx src), .inst (.blockingWrite id tmp)])
      (reachedNet id old (s.regs idx) v) := by
  have hextends := extends_assignmentCopy hcopy
  have hold' : (s.setHeap h).regs tmp = .logic old := hold
  have hskip : ∀ l, Visible ctx l → l ≠ .register tmp := by
    rintro l hvis rfl
    exact absurd hvis (Nat.not_lt.mpr htmp)
  have hrun : runCode s [.inst (.indexSet tmp idx src), .inst (.blockingWrite id tmp)] =
      (indexSet (s.setHeap h) tmp (s.regs idx) v).bind fun t => exec t (.blockingWrite id tmp) := by
    rw [← exec_indexSet hcopy]
    exact congrArg _ (funext fun t => runCode_single t _)
  rw [hrun]
  cases hidx : s.regs idx with
  | logic index =>
    rw [indexSet_logic hold']
    show Does ctx s h _ (if index.isKnown = true ∧ index.toU64 < old.width then _ else _)
    by_cases hlt : index.isKnown = true ∧ index.toU64 < old.width
    · rw [if_pos hlt, if_pos hlt]
      cases hv : v.asLogic with
      | none => exact does_panic rfl
      | some bits =>
        have hnew : ((s.setHeap h).setReg tmp
            (.logic (old.setBit index.toU64 (bits.getBit 0)))).regs tmp =
            .logic (old.setBit index.toU64 (bits.getBit 0)) := Function.update_self _ _ _
        refine does_of_updates trivial trivial hextends
          (updates_blockingWrite (by rw [hnew]; rfl)).1 (fun l hvis _ => ?_)
          fun _ => present_of_plain (fun hmakes => hmakes) trivial
        rw [read_setNet, read_setReg, if_neg (hskip l hvis)]
    · rw [if_neg hlt, if_neg hlt]
      exact does_of_updates trivial trivial hextends
        (updates_blockingWrite (by rw [hold']; rfl)).1 (fun l _ _ => read_setNet id old l)
        fun _ => present_of_plain (fun hmakes => hmakes) trivial
  | null | str | obj | queue | assoc | event =>
    rw [indexSet_key hold' (fun index => by simp)]
    exact does_of_updates trivial trivial hextends
      (updates_blockingWrite (by rw [hold']; rfl)).1 (fun l _ _ => read_setNet id old l)
      fun _ => present_of_plain (fun hmakes => hmakes) trivial

end

/-! ### Bases -/

section

variable {s₁ s₂ : State} {n : Reg} {e : E}

/-- Code that reads into the next register, followed by the code of an index. -/
theorem regs_of_read {i : Inst} (hn : ctx.temps ≤ n)
    (hrun : runCode s₁ ([.inst i] ++ [.piece (ctx.genExpr e (n + 1))]) = some s₂) :
    ∃ m, exec s₁ i = some m ∧ s₂.regs n = m.regs n := by
  rw [runCode_append, runCode_single, Option.bind_eq_some_iff] at hrun
  obtain ⟨m, hexec, hpiece⟩ := hrun
  have hpiece' : ((ctx.genExpr e (n + 1)).run m).bind (fun t => some t) = some s₂ := hpiece
  rw [Option.bind_eq_some_iff] at hpiece'
  obtain ⟨t, ht, hts⟩ := hpiece'
  cases hts
  exact ⟨m, hexec, (ctx.fresh e (n + 1) (Nat.le_succ_of_le hn)).keeps m s₂ ht n hn
    (Nat.lt_succ_self n)⟩

theorem read_getField {obj slot : Nat} {m : State}
    (hexec : exec s₁ (.getField n obj slot) = some m) :
    (∀ id, s₁.regs obj = .obj id → m.regs n = read s₁ (.field id slot)) ∧
      ((∀ id, s₁.regs obj ≠ .obj id) → m.regs n = .null) := by
  rw [exec] at hexec
  constructor
  · intro id hid
    rw [hid] at hexec
    have hexec' : (s₁.heap.objs[id]?.bind (·.fields[slot]?)).map (fun v => s₁.setReg n v) =
        some m := hexec
    rw [Option.map_eq_some_iff] at hexec'
    obtain ⟨v, hv, rfl⟩ := hexec'
    show Function.update s₁.regs n v n = (s₁.heap.objs[id]?.bind (·.fields[slot]?)).getD .null
    rw [Function.update_self, hv]
    rfl
  · intro hnull
    cases hval : s₁.regs obj with
    | obj id => exact absurd hval (hnull id)
    | null | logic | str | queue | assoc | event =>
      rw [hval] at hexec
      cases hexec
      exact Function.update_self _ _ _

/-- The register of a base holds what the declaration does. -/
theorem base_content {d : Decl} {base : Generated} (hn : ctx.temps ≤ n)
    (hlocal : ∀ w, d = .variable .local w → w.place < ctx.temps)
    (hd : (∃ scope w, d = .variable scope w) ∨ ∃ c, d = .const c)
    (hgen : ctx.genDecl n d = some base)
    (hrun : runCode s₁ (base.code ++ [.piece (ctx.genExpr e base.next)]) = some s₂) :
    s₂.regs base.reg = contentOf ctx s₁ s₂ d ∧
      ((base.reg < ctx.temps ∧ inPlace d = some (.register base.reg)) ∨
        (ctx.temps ≤ base.reg ∧ inPlace d = none)) := by
  rcases hd with ⟨scope, w, rfl⟩ | ⟨c, rfl⟩
  · cases scope with
    | «local» =>
      cases hgen
      exact ⟨rfl, .inl ⟨hlocal w rfl, rfl⟩⟩
    | field =>
      cases hgen
      obtain ⟨m, hexec, hregs⟩ := regs_of_read hn hrun
      refine ⟨?_, .inr ⟨hn, rfl⟩⟩
      rw [hregs, contentOf]
      obtain ⟨hobj, hnull⟩ := read_getField hexec
      cases hthis : s₁.regs ctx.thisReg with
      | obj id => exact hobj id hthis
      | null | logic | str | queue | assoc | event =>
        exact hnull fun id => by rw [hthis]; simp
    | static | package =>
      cases hgen
      obtain ⟨m, hexec, hregs⟩ := regs_of_read hn hrun
      cases hexec
      exact ⟨hregs.trans (Function.update_self _ _ _), .inr ⟨hn, rfl⟩⟩
  · rw [Context.genDecl, Option.map_eq_some_iff] at hgen
    obtain ⟨value, hvalue, rfl⟩ := hgen
    obtain ⟨m, hexec, hregs⟩ := regs_of_read hn hrun
    cases hexec
    refine ⟨?_, .inr ⟨hn, rfl⟩⟩
    rw [contentOf, hvalue]
    exact hregs.trans (Function.update_self _ _ _)

/-- The register of a member holds what the member does. -/
theorem member_content {receiver : E} {name : String} {obj : Reg} {base : Generated}
    (hn : ctx.temps ≤ n) (hgen : ctx.genMember receiver obj name n = some base)
    (hrun : runCode s₁ (base.code ++ [.piece (ctx.genExpr e base.next)]) = some s₂) :
    ∃ b, member ctx receiver name (s₁.regs obj) = some b ∧
      s₂.regs base.reg = baseContent s₁ b ∧ ctx.temps ≤ base.reg := by
  rw [Context.genMember, Option.bind_eq_some_iff] at hgen
  obtain ⟨info, hinfo, hgen⟩ := hgen
  rw [member, hinfo, Option.bind_some]
  cases hslot : info.fieldSlot name with
  | some slot =>
    rw [hslot] at hgen
    cases hgen
    obtain ⟨m, hexec, hregs⟩ := regs_of_read hn hrun
    obtain ⟨hobj, hnull⟩ := read_getField hexec
    cases hval : s₁.regs obj with
    | obj id => exact ⟨_, rfl, hregs.trans (hobj id hval), hn⟩
    | null | logic | str | queue | assoc | event =>
      exact ⟨_, rfl, hregs.trans (hnull fun id => by rw [hval]; simp), hn⟩
  | none =>
    rw [hslot] at hgen
    cases hstatic : info.staticFields name with
    | some id =>
      rw [hstatic] at hgen
      cases hgen
      obtain ⟨m, hexec, hregs⟩ := regs_of_read hn hrun
      cases hexec
      exact ⟨_, rfl, hregs.trans (Function.update_self _ _ _), hn⟩
    | none =>
      rw [hstatic] at hgen
      cases hgen

end

/-! ### Which declarations the lookups find -/

theorem anyVariable_scope {env : Env} {name : String} {d : Decl}
    (h : env.anyVariable name = some d) : ∃ scope w, d = .variable scope w := by
  rw [Env.anyVariable, Env.chain_eq, Option.map_eq_some_iff] at h
  obtain ⟨e, -, rfl⟩ := h
  exact ⟨_, _, rfl⟩

/-- The register of a local variable is one of the variables' registers. -/
theorem local_lt {name : String} {w : Variable}
    (h : ctx.env.wholeWrite name = some (.variable .local w)) : w.place < ctx.temps :=
  ctx.locals_lt w (mem_of_target (show Resolution.target ctx.env (.simple name) = _ from h))

theorem scopedStatic_scope {env : Env} {name className : String} {records : Variable → Bool}
    {d : Decl} (h : env.scopedStatic name className records = some d) :
    ∃ w, d = .variable .static w := by
  rw [Env.scopedStatic, Option.bind_eq_some_iff] at h
  obtain ⟨statics, -, hfind⟩ := h
  rw [Option.map_eq_some_iff] at hfind
  obtain ⟨w, -, rfl⟩ := hfind
  exact ⟨w, rfl⟩

theorem signal_of_lvalueIndexWidth {env : Env} {name : String} {d : Decl}
    (h : env.lvalueIndexWidth name = some d) : ∃ sig, d = .signal sig := by
  rw [Env.lvalueIndexWidth, Option.or_eq_some_iff, Env.memory, Env.net] at h
  rcases h with h | ⟨-, h⟩
  · rw [Option.map_eq_some_iff] at h
    obtain ⟨sig, -, rfl⟩ := h
    exact ⟨sig, rfl⟩
  · rw [Option.map_eq_some_iff] at h
    obtain ⟨sig, -, rfl⟩ := h
    exact ⟨sig, rfl⟩

/-- Without a memory or net of the name an assignable name is a variable. -/
theorem value_of_declared {name : String} (hdeclared : (declaredBase ctx name).isSome = true)
    (hsignal : ctx.env.lvalueIndexWidth name = none) :
    ∃ scope w, ctx.env.value name = some (.variable scope w) ∧
      ctx.env.wholeWrite name = some (.variable scope w) := by
  rw [declaredBase] at hdeclared
  have hnone : (ctx.env.memory name).or (ctx.env.net name) = none := hsignal
  split at hdeclared
  · cases hdeclared
  · rename_i hthis
    rw [hnone, Option.or_none] at hdeclared
    obtain ⟨d, hd⟩ := Option.isSome_iff_exists.mp hdeclared
    obtain ⟨scope, w, rfl⟩ := anyVariable_scope hd
    refine ⟨scope, w, ?_, ?_⟩
    · rw [Env.value, if_neg hthis, hd, Option.some_or]
    · rw [Env.wholeWrite, hd, Option.some_or]

theorem value_of_anyVariable {name : String} {d : Decl} (hthis : name ≠ "this")
    (h : ctx.env.anyVariable name = some d) : ctx.env.value name = some d ∧
      ctx.env.wholeWrite name = some d := by
  refine ⟨?_, ?_⟩
  · rw [Env.value, if_neg hthis, h, Option.some_or]
  · rw [Env.wholeWrite, h, Option.some_or]

/-- A collection is a variable. -/
theorem value_of_collection {name : String} {c : ClassId} (h : ctx.collElemClass name = some c) :
    ∃ scope w, ctx.env.value name = some (.variable scope w) ∧
      ctx.env.wholeWrite name = some (.variable scope w) := by
  rw [Context.collElemClass] at h
  cases hcoll : ctx.env.collection name with
  | none =>
    rw [hcoll] at h
    cases h
  | some d =>
    rw [Env.collection] at hcoll
    split at hcoll
    · cases hcoll
    · rename_i hthis
      have hany : (ctx.env.anyVariable name).isSome = true := by
        rw [Env.chain_eq, Option.map_eq_some_iff] at hcoll
        obtain ⟨e, he, -⟩ := hcoll
        rw [Env.anyVariable, Env.chain_eq, Option.isSome_map, List.find?_isSome]
        exact ⟨e, List.mem_of_find?_eq_some he, rfl⟩
      obtain ⟨d', hd'⟩ := Option.isSome_iff_exists.mp hany
      obtain ⟨scope, w, rfl⟩ := anyVariable_scope hd'
      exact ⟨scope, w, value_of_anyVariable hthis hd'⟩

/-- The declaration that a scoped base is read from, where the scope has the name at all. -/
theorem genStaticRef_of_scoped {name scope : String} {n : Reg}
    (h : (scopedBase ctx name scope).isSome = true) :
    ∃ d, ctx.env.scopedValue name scope = some d ∧
      ctx.genStaticRef scope name n = ctx.genDecl n d ∧
      ((∃ scope w, d = .variable scope w) ∨ ∃ c, d = .const c) ∧
      ∀ w, d ≠ .variable .local w := by
  rw [Env.scopedValue, Context.genStaticRef]
  cases hpackage : ctx.env.found name .package fun _ => true with
  | some d =>
    obtain ⟨w, -, rfl⟩ := found_scope hpackage
    exact ⟨_, rfl, rfl, .inl ⟨_, _, rfl⟩, fun w hw => by cases hw⟩
  | none =>
    cases hconst : ctx.env.const name with
    | some d =>
      rw [Env.const, Option.map_eq_some_iff] at hconst
      obtain ⟨c, -, rfl⟩ := hconst
      exact ⟨_, rfl, rfl, .inr ⟨_, rfl⟩, fun w hw => by cases hw⟩
    | none =>
      rw [scopedBase] at h
      cases hclass : ctx.env.classStatics scope with
      | none =>
        rw [hclass, hpackage] at h
        cases h
      | some statics =>
        rw [hclass] at h
        obtain ⟨d, hd⟩ := Option.isSome_iff_exists.mp h
        have hstatic : ctx.env.scopedStatic name scope (fun _ => true) = some d := hd
        obtain ⟨w, rfl⟩ := scopedStatic_scope hstatic
        rw [hstatic]
        exact ⟨_, rfl, rfl, .inl ⟨_, _, rfl⟩, fun w hw => by cases hw⟩

/-! ### The write of each kind of assignment -/

section

variable {lhs : Lvalue E} {next : Reg} {s₁ s₂ : State} {h : Heap} {v : Val} {p : Phases}

theorem does_indexedDecl {value : Code} {src obj n : Reg} {base : Generated} {index : E} {d : Decl}
    (hn : ctx.temps ≤ n) (hlocal : ∀ w, d = .variable .local w → w.place < ctx.temps)
    (hd : (∃ scope w, d = .variable scope w) ∨ ∃ c, d = .const c)
    (hgen : ctx.genDecl n d = some base) (hsound : Sound s₂)
    (hrun : runCode s₁ (indexedPhases ctx value src obj base index).index = some s₂)
    (hcopy : assignmentCopy s₂.heap (s₂.regs src) = some (h, v)) :
    Does ctx s₂ h (runCode s₂ (indexedPhases ctx value src obj base index).write)
      (reachedIndexed ctx s₁ s₂ d
        (s₂.regs (indexedPhases ctx value src obj base index).idx) v) := by
  obtain ⟨hregs, hin⟩ := base_content hn hlocal hd hgen hrun
  have hdoes : Does ctx s₂ h
      (exec s₂ (.indexSet base.reg (ctx.genExpr index base.next).reg src)) _ :=
    does_indexSet hsound hin hcopy
  rw [hregs] at hdoes
  exact (runCode_single s₂ _).symm ▸ hdoes

theorem does_indexedMember {value : Code} {src n obj : Reg} {base : Generated} {receiver index : E}
    {name : String} (hn : ctx.temps ≤ n) (hgen : ctx.genMember receiver obj name n = some base)
    (hsound : Sound s₂)
    (hrun : runCode s₁ (indexedPhases ctx value src obj base index).index = some s₂)
    (hcopy : assignmentCopy s₂.heap (s₂.regs src) = some (h, v)) :
    Does ctx s₂ h (runCode s₂ (indexedPhases ctx value src obj base index).write)
      ((member ctx receiver name (s₁.regs obj)).bind fun b =>
        reachedPart none (baseContent s₁ b)
          (s₂.regs (indexedPhases ctx value src obj base index).idx) v) := by
  obtain ⟨b, hmember, hregs, hreg⟩ := member_content hn hgen hrun
  have hdoes : Does ctx s₂ h
      (exec s₂ (.indexSet base.reg (ctx.genExpr index base.next).reg src)) _ :=
    does_indexSet hsound (.inr ⟨hreg, rfl⟩) hcopy
  rw [hregs] at hdoes
  rw [hmember]
  exact (runCode_single s₂ _).symm ▸ hdoes

/-- The write to an element or bit, of a value that is no new object. -/
theorem does_valueIndexed {q : Piece} {index : E} (hindex : lhs.index = some index)
    (hq : ctx.temps ≤ q.next) (hp : valuePhases ctx lhs q = some p) (hsound : Sound s₂)
    (hrun : runCode s₁ p.index = some s₂)
    (hcopy : assignmentCopy s₂.heap (s₂.regs p.src) = some (h, v))
    (hdenoted : (denotedBase ctx lhs s₂ (s₁.regs p.obj)).isSome = true) :
    Does ctx s₂ h (runCode s₂ p.write)
      (reached ctx lhs false s₁ s₂ (s₁.regs p.obj) (s₂.regs p.idx) v) := by
  obtain ⟨name, receiver, index', scope⟩ := lhs
  cases hindex
  rw [valuePhases] at hp
  rw [reached]
  cases hsignal : ctx.indexedSignal ⟨name, receiver, some index, scope⟩ with
  | some kind =>
    rw [hsignal] at hp
    cases kind with
    | memory elements left right width =>
      cases hp
      exact (runCode_single s₂ _).symm ▸ does_memoryWrite hcopy
    | net id width =>
      cases hp
      obtain ⟨m, hexec, hregs⟩ := regs_of_read hq hrun
      cases hexec
      exact does_netWrite hq (hregs.trans (Function.update_self _ _ _)) hcopy
  | none =>
    rw [hsignal] at hp
    cases scope with
    | some scope =>
      have hscoped : (scopedBase ctx name scope).isSome = true := by
        rw [denotedBase, Option.isSome_map] at hdenoted
        exact hdenoted
      obtain ⟨d, hvalue, hgen, hd, hlocal⟩ := genStaticRef_of_scoped (n := q.next) hscoped
      have hp' : (ctx.genStaticRef scope name q.next).map (fun base =>
        indexedPhases ctx [.piece q] q.reg ctx.thisReg base index) = some p := hp
      rw [hgen, Option.map_eq_some_iff] at hp'
      obtain ⟨base, hbase, rfl⟩ := hp'
      have hdoes :=
        does_indexedDecl hq (fun w hw => absurd hw (hlocal w)) hd hbase hsound hrun hcopy
      show Does ctx s₂ h _ ((ctx.env.scopedValue name scope).bind _)
      rw [hvalue]
      exact hdoes
    | none =>
      cases receiver with
      | some receiver =>
        have hp' : (ctx.genMember receiver (ctx.genExpr receiver q.next).reg name
          (ctx.genExpr receiver q.next).next).map (fun base => indexedPhases ctx
            [.piece q, .piece (ctx.genExpr receiver q.next)] q.reg
            (ctx.genExpr receiver q.next).reg base index) = some p := hp
        rw [Option.map_eq_some_iff] at hp'
        obtain ⟨base, hbase, rfl⟩ := hp'
        exact does_indexedMember (Nat.le_trans hq (ctx.fresh receiver q.next hq).next) hbase hsound
          hrun hcopy
      | none =>
        have hdeclared : (declaredBase ctx name).isSome = true := by
          rw [denotedBase, Option.isSome_map] at hdenoted
          exact hdenoted
        have hnone : ctx.env.lvalueIndexWidth name = none := by
          cases hd : ctx.env.lvalueIndexWidth name with
          | none => rfl
          | some d =>
            obtain ⟨sig, rfl⟩ := signal_of_lvalueIndexWidth hd
            rw [Context.indexedSignal_of_signal rfl rfl hd] at hsignal
            cases hsignal
        obtain ⟨w₁, w, hvalue, hwrite⟩ := value_of_declared hdeclared hnone
        have hp' : (ctx.genRef name q.next).map (fun base =>
          indexedPhases ctx [.piece q] q.reg ctx.thisReg base index) = some p := hp
        rw [Context.genRef, hvalue, Option.bind_some, Option.map_eq_some_iff] at hp'
        obtain ⟨base, hbase, rfl⟩ := hp'
        have hdoes := does_indexedDecl hq
          (fun w' hw' => local_lt (hwrite.trans (congrArg some hw')))
            (.inl ⟨_, _, rfl⟩) hbase hsound
          hrun hcopy
        show Does ctx s₂ h _ ((ctx.env.value name).bind _)
        rw [hvalue]
        exact hdoes

/-- The write to the whole of a name. -/
theorem does_wholeName {name : String} {src : Reg} {write : Code}
    (hwrite : ctx.genAssign name src = some write)
    (hcopy : assignmentCopy s₂.heap (s₂.regs src) = some (h, v)) :
    Does ctx s₂ h (runCode s₂ write)
      ((ctx.env.wholeWrite name).bind fun d => reachedWhole ctx s₂ d v) := by
  rw [Context.genAssign, Option.bind_eq_some_iff] at hwrite
  obtain ⟨d, hd, hwrite⟩ := hwrite
  rw [hd]
  exact does_genWrite (fun w hw => local_lt (hd.trans (congrArg some hw))) hwrite hcopy

theorem does_valueWhole {q : Piece} (hindex : lhs.index = none)
    (hp : valuePhases ctx lhs q = some p) (hrun : runCode s₁ p.index = some s₂)
    (hcopy : assignmentCopy s₂.heap (s₂.regs p.src) = some (h, v)) :
    Does ctx s₂ h (runCode s₂ p.write)
      (reached ctx lhs false s₁ s₂ (s₁.regs p.obj) (s₂.regs p.idx) v) := by
  obtain ⟨name, receiver, index, scope⟩ := lhs
  cases hindex
  rw [valuePhases] at hp
  rw [reached]
  cases scope with
  | some scope =>
    have hp' : ((ctx.env.scopedWrite name scope).bind (ctx.genWrite q.reg)).map (fun write =>
      (⟨[.piece q], [], write, q.reg, ctx.thisReg, q.reg⟩ : Phases)) = some p := hp
    rw [Option.map_eq_some_iff] at hp'
    obtain ⟨write, hwrite, rfl⟩ := hp'
    rw [Option.bind_eq_some_iff] at hwrite
    obtain ⟨d, hd, hwrite⟩ := hwrite
    obtain ⟨w, rfl⟩ := scopedStatic_scope hd
    show Does ctx s₂ h _ ((ctx.env.scopedWrite name scope).bind _)
    rw [hd]
    exact does_genWrite (fun w hw => by cases hw) hwrite hcopy
  | none =>
    cases receiver with
    | some receiver =>
      have hp' : (((ctx.receiverClass receiver).bind ctx.classes).bind (·.fieldSlot name)).map
        (fun slot => (⟨[.piece q, .piece (ctx.genExpr receiver q.next)], [],
          [.inst (.setField (ctx.genExpr receiver q.next).reg slot.1 q.reg)], q.reg,
          (ctx.genExpr receiver q.next).reg, q.reg⟩ : Phases)) = some p := hp
      rw [Option.map_eq_some_iff] at hp'
      obtain ⟨slot, hslot, rfl⟩ := hp'
      rw [Option.bind_eq_some_iff] at hslot
      obtain ⟨info, hinfo, hslot⟩ := hslot
      cases hrun
      show Does ctx s₁ h _ ((member ctx receiver name _).bind _)
      rw [member, hinfo, Option.bind_some, hslot, runCode_single]
      cases hobj : s₁.regs (ctx.genExpr receiver q.next).reg with
      | obj id => exact does_setField hobj hcopy
      | null | logic | str | queue | assoc | event =>
        exact does_setField_null (fun id => by rw [hobj]; simp) hcopy
    | none =>
      have hp' : (ctx.genAssign name q.reg).map (fun write =>
        (⟨[.piece q], [], write, q.reg, ctx.thisReg, q.reg⟩ : Phases)) = some p := hp
      rw [Option.map_eq_some_iff] at hp'
      obtain ⟨write, hwrite, rfl⟩ := hp'
      exact does_wholeName hwrite hcopy

/-- A new object goes where the name alone leads. -/
theorem does_new {q : Piece} {c : ClassId} (hclass : newClassOf ctx lhs = some c)
    (hq : ctx.temps ≤ q.next) (hp : newPhases ctx lhs q = some p) (hsound : Sound s₂)
    (hrun : runCode s₁ p.index = some s₂)
    (hcopy : assignmentCopy s₂.heap (s₂.regs p.src) = some (h, v)) :
    Does ctx s₂ h (runCode s₂ p.write)
      (reached ctx lhs true s₁ s₂ (s₁.regs p.obj) (s₂.regs p.idx) v) := by
  obtain ⟨name, receiver, index, scope⟩ := lhs
  rw [newPhases] at hp
  rw [reached]
  cases index with
  | none =>
    have hp' : (ctx.genAssign name q.reg).map (fun write =>
      (⟨[.piece q], [], write, q.reg, ctx.thisReg, q.reg⟩ : Phases)) = some p := hp
    rw [Option.map_eq_some_iff] at hp'
    obtain ⟨write, hwrite, rfl⟩ := hp'
    exact does_wholeName hwrite hcopy
  | some index =>
    obtain ⟨scope', w, hvalue, hwrite⟩ := value_of_collection (show ctx.collElemClass name = _
      from hclass)
    have hp' : (ctx.genRef name q.next).map (fun base =>
      indexedPhases ctx [.piece q] q.reg ctx.thisReg base index) = some p := hp
    rw [Context.genRef, hvalue, Option.bind_some, Option.map_eq_some_iff] at hp'
    obtain ⟨base, hbase, rfl⟩ := hp'
    have hdoes := does_indexedDecl hq
      (fun w' hw' => local_lt (hwrite.trans (congrArg some hw'))) (.inl ⟨_, _, rfl⟩) hbase hsound
      hrun hcopy
    show Does ctx s₂ h _ ((ctx.env.value name).bind _)
    rw [hvalue]
    exact hdoes

/-- The last phase of an assignment does what the lookups lead to. -/
theorem does_write {rhs : Rhs E} (hnext : ctx.temps ≤ next) (hp : phases ctx lhs next rhs = some p)
    (hsound : Sound s₂) (hrun : runCode s₁ p.index = some s₂)
    (hcopy : assignmentCopy s₂.heap (s₂.regs p.src) = some (h, v))
    (hdenoted : (denotedBase ctx lhs s₂ (s₁.regs p.obj)).isSome = true) :
    Does ctx s₂ h (runCode s₂ p.write)
      (reached ctx lhs (isNew rhs) s₁ s₂ (s₁.regs p.obj) (s₂.regs p.idx) v) := by
  cases rhs with
  | value e =>
    have hq := Nat.le_trans hnext (ctx.fresh_rhs lhs e next hnext).next
    cases hindex : lhs.index with
    | none => exact does_valueWhole hindex hp hrun hcopy
    | some index => exact does_valueIndexed hindex hq hp hsound hrun hcopy hdenoted
  | new args =>
    rw [phases, Option.bind_eq_some_iff] at hp
    obtain ⟨c, hclass, hp⟩ := hp
    have hq := Nat.le_trans hnext (ctx.fresh_construct c args next hnext).next
    exact does_new hclass hq hp hsound hrun hcopy

end

end Eevee.Elab.Stores
