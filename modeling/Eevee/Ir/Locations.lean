/- The places that hold values, and the one place that each writing instruction changes. -/

import Mathlib.Data.List.Infix
import Mathlib.Data.List.Basic
import Mathlib.Data.List.Find
import Mathlib.Tactic.Common
import Eevee.Ir.Objects

set_option autoImplicit false
set_option relaxedAutoImplicit false

namespace Eevee.Ir.Locations

open Eevee.Core.Logic
open Eevee.Ir.Objects
open Eevee.Ir.Values (MemoryDef memoryElement)

/-- A place that holds a value. Elements and entries belong to the storage of an array, whoever
refers to it. -/
inductive Location
  | register (r : Reg)
  | field (id slot : Nat)
  | static (id : Nat)
  | net (id : NetId)
  | element (id i : Nat)
  | entry (id : Nat) (key : Key)
  deriving DecidableEq

/-- The value at a place; an element that is missing reads as null. -/
def read (s : State) : Location → Val
  | .register r => s.regs r
  | .field id slot => (s.heap.objs[id]?.bind (·.fields[slot]?)).getD .null
  | .static id => s.statics id
  | .net id => .logic (s.nets id)
  | .element id i => (s.heap.queues[id]?.bind (·[i]?)).getD .null
  | .entry id key => (s.heap.assocs[id]?.bind (lookupEntry · key)).getD .null

/-- Whether the object or array of a place exists. -/
def Allocated (h : Heap) : Location → Prop
  | .register _ | .static _ | .net _ => True
  | .field id slot => ∃ data, h.objs[id]? = some data ∧ slot < data.fields.length
  | .element id _ => id < h.queues.length
  | .entry id _ => id < h.assocs.length

theorem allocated_field_iff {h : Heap} {id slot : Nat} :
    slot < (h.objs[id]?.map (·.fields.length)).getD 0 ↔ Allocated h (.field id slot) := by
  cases hdata : h.objs[id]? <;> simp [Allocated, hdata]

instance (h : Heap) : (l : Location) → Decidable (Allocated h l)
  | .register _ | .static _ | .net _ => .isTrue trivial
  | .field _ _ => decidable_of_iff _ allocated_field_iff
  | .element id _ => inferInstanceAs (Decidable (id < h.queues.length))
  | .entry id _ => inferInstanceAs (Decidable (id < h.assocs.length))

/-- Whether a place is there: the elements of a queue and the entries of an associative array come
with writes. -/
def Present (h : Heap) : Location → Prop
  | .element id i => ∃ values, h.queues[id]? = some values ∧ i < values.length
  | .entry id key =>
    ∃ entries, h.assocs[id]? = some entries ∧ (lookupEntry entries key).isSome = true
  | l => Allocated h l

/-- The places that a write brings about: a queue grows up to the element. -/
def Makes : Location → Location → Prop
  | .element id i, l => ∃ j ≤ i, l = .element id j
  | place, l => l = place

theorem makes_self (l : Location) : Makes l l := by
  cases l with
  | element id i => exact ⟨i, Nat.le_refl i, rfl⟩
  | register | field | static | net | entry => rfl

theorem makes_antisymm {l l' : Location} (h : Makes l l') (h' : Makes l' l) : l = l' := by
  cases l with
  | element id i =>
    obtain ⟨j, hj, rfl⟩ := h
    obtain ⟨k, hk, heq⟩ := h'
    cases heq
    rw [Nat.le_antisymm hj hk]
  | register | field | static | net | entry => exact h.symm

theorem allocated_of_makes {h : Heap} {place l : Location} (hmakes : Makes place l)
    (hplace : Allocated h place) : Allocated h l := by
  cases place with
  | element id i =>
    obtain ⟨j, -, rfl⟩ := hmakes
    exact hplace
  | register | field | static | net | entry =>
    cases hmakes
    exact hplace

theorem present_of_makes {h : Heap} {place l : Location} (hmakes : Makes place l)
    (hplace : Present h place) : Present h l := by
  cases place with
  | element id i =>
    obtain ⟨j, hj, rfl⟩ := hmakes
    obtain ⟨values, hvalues, hi⟩ := hplace
    exact ⟨values, hvalues, Nat.lt_of_le_of_lt hj hi⟩
  | register | field | static | net | entry =>
    cases hmakes
    exact hplace

/-- One place that exists receives a value, and all others keep theirs. -/
def Updates (s t : State) (place : Location) (value : Val) : Prop :=
  ∀ l, Allocated s.heap l → read t l = if l = place then value else read s l

/-- Handles refer to arrays that exist. -/
structure Sound (s : State) : Prop where
  queues : ∀ l id, read s l = .queue id → id < s.heap.queues.length
  assocs : ∀ l id, read s l = .assoc id → id < s.heap.assocs.length

/-! ### Copies -/

/-- What copying does to the heap: new arrays behind the ones there are. -/
structure Extends (h h' : Heap) : Prop where
  objs : h'.objs = h.objs
  queues : h.queues <+: h'.queues
  assocs : h.assocs <+: h'.assocs

theorem Extends.refl (h : Heap) : Extends h h :=
  ⟨rfl, List.prefix_refl _, List.prefix_refl _⟩

theorem Extends.trans {h₁ h₂ h₃ : Heap} (h : Extends h₁ h₂) (h' : Extends h₂ h₃) :
    Extends h₁ h₃ :=
  ⟨h'.objs.trans h.objs, h.queues.trans h'.queues, h.assocs.trans h'.assocs⟩

theorem extends_addQueue (h : Heap) (values : List Val) : Extends h (h.addQueue values).1 :=
  ⟨rfl, List.prefix_append _ _, List.prefix_refl _⟩

theorem extends_addAssoc (h : Heap) (entries : List (Key × Val)) :
    Extends h (h.addAssoc entries).1 :=
  ⟨rfl, List.prefix_refl _, List.prefix_append _ _⟩

theorem extends_copyEach {copy : Heap → Val → Option (Heap × Val)}
    (hcopy : ∀ h v h' v', copy h v = some (h', v') → Extends h h') {values : List Val}
    {h h' : Heap}
    {values' : List Val} (heq : copyEach copy h values = some (h', values')) :
    Extends h h' := by
  induction values generalizing h values' with
  | nil =>
    cases heq
    exact Extends.refl _
  | cons v vs ih =>
    rw [copyEach, Option.bind_eq_some_iff] at heq
    obtain ⟨⟨h₁, v₁⟩, hv, hvs⟩ := heq
    rw [Option.map_eq_some_iff] at hvs
    obtain ⟨⟨h₂, vs₂⟩, hvs, heq⟩ := hvs
    cases heq
    exact (hcopy _ v h₁ v₁ hv).trans (ih hvs)

theorem extends_copyAt (fuel : Nat) : ∀ {h h' : Heap} {v v' : Val},
    copyAt fuel h v = some (h', v') → Extends h h' := by
  induction fuel with
  | zero =>
    intro h h' v v' heq
    cases heq
  | succ fuel ih =>
    intro h h' v v' heq
    cases v with
    | queue id =>
      rw [copyAt, Option.bind_eq_some_iff] at heq
      obtain ⟨values, -, heq⟩ := heq
      rw [Option.map_eq_some_iff] at heq
      obtain ⟨⟨h₁, values'⟩, hvs, heq⟩ := heq
      cases heq
      exact (extends_copyEach (fun _ _ _ _ => ih) hvs).trans (extends_addQueue h₁ values')
    | assoc id =>
      rw [copyAt, Option.bind_eq_some_iff] at heq
      obtain ⟨entries, -, heq⟩ := heq
      rw [Option.map_eq_some_iff] at heq
      obtain ⟨⟨h₁, values'⟩, hvs, heq⟩ := heq
      cases heq
      exact (extends_copyEach (fun _ _ _ _ => ih) hvs).trans (extends_addAssoc h₁ _)
    | null | logic | str | obj | event =>
      cases heq
      exact Extends.refl h

theorem extends_assignmentCopy {h h' : Heap} {v v' : Val}
    (heq : assignmentCopy h v = some (h', v')) : Extends h h' := extends_copyAt _ heq

theorem length_le_copyEach {fuel : Nat} {h h' : Heap} {values values' : List Val}
    (heq : copyEach (copyAt fuel) h values = some (h', values')) :
    h.queues.length ≤ h'.queues.length ∧ h.assocs.length ≤ h'.assocs.length :=
  have hextends := extends_copyEach (fun _ _ _ _ => extends_copyAt fuel) heq
  ⟨hextends.queues.length_le, hextends.assocs.length_le⟩

/-- A copy that needs new storage is a handle to it. -/
theorem fresh_assignmentCopy {h h' : Heap} {v v' : Val}
    (heq : assignmentCopy h v = some (h', v')) :
    h' = h ∨ (∃ id, v' = .queue id ∧ h.queues.length ≤ id) ∨
      ∃ id, v' = .assoc id ∧ h.assocs.length ≤ id := by
  cases v with
  | queue id =>
    rw [assignmentCopy, copyAt, Option.bind_eq_some_iff] at heq
    obtain ⟨values, -, heq⟩ := heq
    rw [Option.map_eq_some_iff] at heq
    obtain ⟨⟨h₁, values'⟩, hvs, heq⟩ := heq
    cases heq
    exact .inr (.inl ⟨_, rfl, (length_le_copyEach hvs).1⟩)
  | assoc id =>
    rw [assignmentCopy, copyAt, Option.bind_eq_some_iff] at heq
    obtain ⟨entries, -, heq⟩ := heq
    rw [Option.map_eq_some_iff] at heq
    obtain ⟨⟨h₁, values'⟩, hvs, heq⟩ := heq
    cases heq
    exact .inr (.inr ⟨_, rfl, (length_le_copyEach hvs).2⟩)
  | null | logic | str | obj | event =>
    cases heq
    exact .inl rfl

/-- A vector is its own copy. -/
@[simp]
theorem assignmentCopy_logic (h : Heap) (value : PackedVec) :
    assignmentCopy h (.logic value) = some (h, .logic value) := rfl

theorem asLogic_of_copy {h h' : Heap} {v v' : Val} (heq : assignmentCopy h v = some (h', v')) :
    v'.asLogic = v.asLogic := by
  cases v with
  | queue id =>
    rw [assignmentCopy, copyAt, Option.bind_eq_some_iff] at heq
    obtain ⟨values, -, heq⟩ := heq
    rw [Option.map_eq_some_iff] at heq
    obtain ⟨_, -, heq⟩ := heq
    cases heq
    rfl
  | assoc id =>
    rw [assignmentCopy, copyAt, Option.bind_eq_some_iff] at heq
    obtain ⟨values, -, heq⟩ := heq
    rw [Option.map_eq_some_iff] at heq
    obtain ⟨_, -, heq⟩ := heq
    cases heq
    rfl
  | null | logic | str | obj | event =>
    cases heq
    rfl

/-! ### What the instructions write -/

variable {s t : State} {h : Heap}

theorem getElem?_of_initial {α : Type} {l l' : List α} (hl : l <+: l') {i : Nat}
    (hi : i < l.length) : l'[i]? = l[i]? := by
  rw [List.prefix_iff_getElem?.mp hl i hi, List.getElem?_eq_getElem hi]

theorem allocated_of_extends (hh : Extends s.heap h) {l : Location} (hl : Allocated s.heap l) :
    Allocated h l := by
  cases l with
  | register | static | net => trivial
  | field id slot =>
    obtain ⟨data, hdata, hslot⟩ := hl
    exact ⟨data, hh.objs ▸ hdata, hslot⟩
  | element id i => exact Nat.lt_of_lt_of_le hl hh.queues.length_le
  | entry id key => exact Nat.lt_of_lt_of_le hl hh.assocs.length_le

theorem read_setHeap (hh : Extends s.heap h) {l : Location} (hl : Allocated s.heap l) :
    read (s.setHeap h) l = read s l := by
  cases l with
  | register | static | net => rfl
  | field id slot =>
    show ((h.objs[id]?).bind _).getD _ = _
    rw [hh.objs]
    rfl
  | element id i =>
    show ((h.queues[id]?).bind _).getD _ = ((s.heap.queues[id]?).bind _).getD _
    rw [getElem?_of_initial hh.queues hl]
  | entry id key =>
    show ((h.assocs[id]?).bind _).getD _ = ((s.heap.assocs[id]?).bind _).getD _
    rw [getElem?_of_initial hh.assocs hl]

theorem present_of_extends {h h' : Heap} (hh : Extends h h') {l : Location}
    (hl : Allocated h l) : Present h' l ↔ Present h l := by
  cases l with
  | register | static | net => exact Iff.rfl
  | field id slot =>
    simp only [Present, Allocated, hh.objs]
  | element id i =>
    simp only [Present, getElem?_of_initial hh.queues hl]
  | entry id key =>
    simp only [Present, getElem?_of_initial hh.assocs hl]

theorem read_setReg (r : Reg) (v : Val) (l : Location) :
    read (s.setReg r v) l = if l = .register r then v else read s l := by
  cases l with
  | register r' =>
    show Function.update s.regs r v r' = _
    by_cases hr : r' = r
    · subst hr
      simp
    · rw [Function.update_of_ne hr, if_neg (by simpa using hr)]
      rfl
  | field | static | net | element | entry => rfl

theorem read_setStatic (id : Nat) (v : Val) (l : Location) :
    read (s.setStatic id v) l = if l = .static id then v else read s l := by
  cases l with
  | static id' =>
    show Function.update s.statics id v id' = _
    by_cases hid : id' = id
    · subst hid
      simp
    · rw [Function.update_of_ne hid, if_neg (by simpa using hid)]
      rfl
  | field | register | net | element | entry => rfl

theorem read_setNet (id : NetId) (v : PackedVec) (l : Location) :
    read (s.setNet id v) l = if l = .net id then .logic v else read s l := by
  cases l with
  | net id' =>
    show Val.logic (Function.update s.nets id v id') = _
    by_cases hid : id' = id
    · subst hid
      simp
    · rw [Function.update_of_ne hid, if_neg (by simpa using hid)]
      rfl
  | field | register | static | element | entry => rfl

theorem read_setField {h' : Heap} {id slot : Nat} {v : Val} (heq : h.setField id slot v = some h')
    (l : Location) :
    read (s.setHeap h') l = if l = .field id slot then v else read (s.setHeap h) l := by
  rw [Heap.setField, Option.bind_eq_some_iff] at heq
  obtain ⟨data, hdata, heq⟩ := heq
  split at heq
  · rename_i hslot
    cases heq
    cases l with
    | field id' slot' =>
      show (((h.objs.set id _)[id']?).bind _).getD _ = _
      by_cases hid : id' = id
      · subst hid
        have hlt := (List.getElem?_eq_some_iff.mp hdata).1
        rw [List.getElem?_set_self hlt, Option.bind_some]
        by_cases hs : slot' = slot
        · subst hs
          simp [hslot]
        · rw [List.getElem?_set_ne (Ne.symm hs), if_neg (by simpa using hs)]
          show _ = ((h.objs[id']?).bind _).getD _
          rw [hdata, Option.bind_some]
      · rw [List.getElem?_set_ne (Ne.symm hid), if_neg (by simp [hid])]
        rfl
    | register | net | static | element | entry => rfl
  · cases heq

theorem present_setField {h' : Heap} {id slot : Nat} {v : Val}
    (heq : h.setField id slot v = some h') (l : Location) : Present h' l ↔ Present h l := by
  rw [Heap.setField, Option.bind_eq_some_iff] at heq
  obtain ⟨data, hdata, heq⟩ := heq
  split at heq
  · cases heq
    cases l with
    | field id' slot' =>
      by_cases hid : id' = id
      · subst hid
        have hlt := (List.getElem?_eq_some_iff.mp hdata).1
        simp only [Present, Allocated, List.getElem?_set_self hlt, hdata, Option.some.injEq,
          exists_eq_left', List.length_set]
      · simp only [Present, Allocated, List.getElem?_set_ne (Ne.symm hid)]
    | register | net | static | element | entry => exact Iff.rfl
  · cases heq

/-- What is read back from a field. -/
theorem field_setField {h' : Heap} {id slot : Nat} {v : Val}
    (heq : h.setField id slot v = some h') :
    (h'.objs[id]?.bind (·.fields[slot]?)) = some v := by
  rw [Heap.setField, Option.bind_eq_some_iff] at heq
  obtain ⟨data, hdata, heq⟩ := heq
  split at heq
  · rename_i hslot
    cases heq
    rw [List.getElem?_set_self (List.getElem?_eq_some_iff.mp hdata).1, Option.bind_some]
    exact List.getElem?_set_self hslot
  · cases heq

theorem getD_setElement (values : List Val) (i : Nat) (v : Val) (j : Nat) :
    ((setElement values i v)[j]?).getD .null = if j = i then v else (values[j]?).getD .null := by
  unfold setElement
  by_cases hi : i < values.length
  · rw [if_pos hi, List.getElem?_set]
    by_cases hj : i = j
    · subst hj
      simp [hi]
    · rw [if_neg hj, if_neg (Ne.symm hj)]
  · rw [if_neg hi]
    simp only [List.getElem?_append, List.length_append, List.length_replicate,
      List.getElem?_replicate]
    by_cases hj : j = i
    · subst hj
      have : values.length + (j - values.length) = j := by omega
      simp [this]
    · rw [if_neg hj]
      by_cases hlt : j < values.length
      · simp [hlt, show j < values.length + (i - values.length) by omega]
      · by_cases hlt' : j < values.length + (i - values.length)
        · simp [hlt, hlt', show j - values.length < i - values.length by omega]
        · have hpos : j - (values.length + (i - values.length)) ≠ 0 := by omega
          simp [hlt, hlt', hpos]

theorem read_setElement {id i : Nat} (hid : id < h.queues.length) (v : Val) (l : Location) :
    read (s.setHeap (h.setElement id i v)) l =
      if l = .element id i then v else read (s.setHeap h) l := by
  cases l with
  | element id' j =>
    show (((h.queues.modify id _)[id']?).bind _).getD _ = _
    by_cases heq : id = id'
    · subst heq
      have hget := getD_setElement h.queues[id] i v j
      rw [List.getElem?_modify_eq, List.getElem?_eq_getElem hid]
      show ((setElement h.queues[id] i v)[j]?).getD _ = _
      rw [hget]
      by_cases hj : j = i
      · rw [if_pos hj, if_pos (by rw [hj])]
      · rw [if_neg hj, if_neg (by simpa using hj)]
        show _ = ((h.queues[id]?).bind _).getD _
        rw [List.getElem?_eq_getElem hid]
        rfl
    · rw [List.getElem?_modify_ne _ _ heq, if_neg (by simp [Ne.symm heq])]
      rfl
  | register | net | static | field | entry => rfl

theorem length_setElement (values : List Val) (i : Nat) (v : Val) :
    (setElement values i v).length = max values.length (i + 1) := by
  unfold setElement
  split
  · rw [List.length_set]
    omega
  · simp only [List.length_append, List.length_replicate, List.length_singleton]
    omega

theorem present_setElement {id : Nat} (hid : id < h.queues.length) (i : Nat) (v : Val)
    (l : Location) :
    Present (h.setElement id i v) l ↔ Present h l ∨ Makes (.element id i) l := by
  cases l with
  | element id' j =>
    by_cases heq : id = id'
    · subst heq
      simp only [Present, Makes, Heap.setElement, List.getElem?_modify_eq,
        List.getElem?_eq_getElem hid, Option.map_eq_map, Option.map_some, Option.some.injEq,
        exists_eq_left', length_setElement, Location.element.injEq, true_and]
      constructor
      · intro hj
        by_cases hlt : j < h.queues[id].length
        · exact .inl hlt
        · exact .inr ⟨j, by omega, rfl⟩
      · rintro (hj | ⟨k, hk, rfl⟩) <;> omega
    · simp only [Present, Makes, Heap.setElement, List.getElem?_modify_ne _ _ heq,
        Location.element.injEq, Ne.symm heq, false_and, and_false, exists_false, or_false]
  | register | net | static | field | entry =>
    simp only [Makes, reduceCtorEq, and_false, exists_false, or_false]
    exact Iff.rfl

theorem lookupEntry_insertEntry (entries : List (Key × Val)) (key : Key) (v : Val) (key' : Key) :
    lookupEntry (insertEntry entries key v) key' =
      if key' = key then some v else lookupEntry entries key' := by
  unfold lookupEntry insertEntry
  by_cases hkey : key' = key
  · subst hkey
    simp
  · have hfilter : (entries.filter fun e => decide (e.1 ≠ key)).find?
        (fun e => decide (e.1 = key')) = entries.find? fun e => decide (e.1 = key') := by
      rw [List.find?_filter]
      refine List.find?_congr fun e _ => ?_
      by_cases he : e.1 = key'
      · simp [he, hkey]
      · simp [he]
    rw [if_neg hkey, List.find?_cons_of_neg (by simpa using Ne.symm hkey), hfilter]

theorem read_setEntry {id : Nat} {key : Key} (hid : id < h.assocs.length) (v : Val)
    (l : Location) : read (s.setHeap (h.setEntry id key v)) l =
      if l = .entry id key then v else read (s.setHeap h) l := by
  cases l with
  | entry id' key' =>
    show (((h.assocs.modify id _)[id']?).bind _).getD _ = _
    by_cases heq : id = id'
    · subst heq
      rw [List.getElem?_modify_eq, List.getElem?_eq_getElem hid]
      show (lookupEntry (insertEntry h.assocs[id] key v) key').getD _ = _
      rw [lookupEntry_insertEntry]
      by_cases hkey : key' = key
      · rw [if_pos hkey, if_pos (by rw [hkey])]
        rfl
      · rw [if_neg hkey, if_neg (by simpa using hkey)]
        show _ = ((h.assocs[id]?).bind _).getD _
        rw [List.getElem?_eq_getElem hid]
        rfl
    · rw [List.getElem?_modify_ne _ _ heq, if_neg (by simp [Ne.symm heq])]
      rfl
  | register | net | static | field | element => rfl

theorem present_setEntry {id : Nat} {key : Key} (hid : id < h.assocs.length) (v : Val)
    (l : Location) : Present (h.setEntry id key v) l ↔ Present h l ∨ Makes (.entry id key) l := by
  cases l with
  | entry id' key' =>
    by_cases heq : id = id'
    · subst heq
      simp only [Present, Makes, Heap.setEntry, List.getElem?_modify_eq,
        List.getElem?_eq_getElem hid, Option.map_eq_map, Option.map_some, Option.some.injEq,
        exists_eq_left', lookupEntry_insertEntry, Location.entry.injEq, true_and]
      by_cases hkey : key' = key <;> simp [hkey]
    · simp only [Present, Makes, Heap.setEntry, List.getElem?_modify_ne _ _ heq,
        Location.entry.injEq, Ne.symm heq, false_and, or_false]
  | register | net | static | field | element =>
    simp only [Makes, reduceCtorEq, or_false]
    exact Iff.rfl

/-! ### The place of a write -/

theorem updates_assign {dst src : Reg} {v : Val}
    (hcopy : assignmentCopy s.heap (s.regs src) = some (h, v)) :
    exec s (.assign dst src) = some ((s.setHeap h).setReg dst v) ∧
      Updates (s.setHeap h) ((s.setHeap h).setReg dst v) (.register dst) v :=
  ⟨by rw [exec, hcopy]; rfl, fun l _ => read_setReg dst v l⟩

theorem updates_staticSet {id : Nat} {src : Reg} {v : Val}
    (hcopy : assignmentCopy s.heap (s.regs src) = some (h, v)) :
    exec s (.staticSet id src) = some ((s.setHeap h).setStatic id v) ∧
      Updates (s.setHeap h) ((s.setHeap h).setStatic id v) (.static id) v :=
  ⟨by rw [exec, hcopy]; rfl, fun l _ => read_setStatic id v l⟩

theorem updates_blockingWrite {net : NetId} {src : Reg} {v : PackedVec}
    (hsrc : (s.regs src).asLogic = some v) :
    exec s (.blockingWrite net src) = some (s.setNet net v) ∧
      Updates s (s.setNet net v) (.net net) (.logic v) :=
  ⟨by rw [exec, hsrc]; rfl, fun l _ => read_setNet net v l⟩

theorem updates_setField {obj src : Reg} {id slot : Nat} {v : Val}
    (hobj : s.regs obj = .obj id) (hslot : Allocated s.heap (.field id slot))
    (hcopy : assignmentCopy s.heap (s.regs src) = some (h, v)) :
    ∃ h', exec s (.setField obj slot src) = some (s.setHeap h') ∧
      h.setField id slot v = some h' ∧ Updates (s.setHeap h) (s.setHeap h') (.field id slot) v := by
  have hextends := extends_assignmentCopy hcopy
  obtain ⟨data, hdata, hlt⟩ := hslot
  have hset : ∃ h', h.setField id slot v = some h' := by
    rw [Heap.setField, hextends.objs, hdata, Option.bind_some, if_pos hlt]
    exact ⟨_, rfl⟩
  obtain ⟨h', hset⟩ := hset
  refine ⟨h', ?_, hset, fun l _ => read_setField hset l⟩
  rw [exec, hcopy, Option.bind_some, hobj]
  show (h.setField id slot v).map _ = _
  rw [hset]
  rfl

/-- Without an object only copies remain. -/
theorem setField_of_null {obj src : Reg} {slot : Nat} {v : Val}
    (hobj : ∀ id, s.regs obj ≠ .obj id)
    (hcopy : assignmentCopy s.heap (s.regs src) = some (h, v)) :
    exec s (.setField obj slot src) = some (s.setHeap h) := by
  rw [exec, hcopy, Option.bind_some]
  cases hval : s.regs obj with
  | obj id => exact absurd hval (hobj id)
  | null | logic | str | queue | assoc | event => rfl

theorem indexSet_queue {base : Reg} {id : Nat} (hbase : s.regs base = .queue id) (idx v : Val) :
    indexSet s base idx v =
      (queueIndex (valueToKey idx)).map fun i => s.setHeap (s.heap.setElement id i v) := by
  unfold indexSet
  rw [hbase]

theorem indexSet_assoc {base : Reg} {id : Nat} (hbase : s.regs base = .assoc id) (idx v : Val) :
    indexSet s base idx v = some (s.setHeap (s.heap.setEntry id (valueToKey idx) v)) := by
  unfold indexSet
  rw [hbase]

theorem indexSet_logic {base : Reg} {old index : PackedVec} (hbase : s.regs base = .logic old)
    (v : Val) : indexSet s base (.logic index) v =
      if index.isKnown ∧ index.toU64 < old.width then
        v.asLogic.map fun bits =>
          s.setReg base (.logic (old.setBit index.toU64 (bits.getBit 0)))
      else some s := by
  unfold indexSet
  rw [hbase]

/-- An index that is no vector writes no bit. -/
theorem indexSet_key {base : Reg} {old : PackedVec} (hbase : s.regs base = .logic old) {idx : Val}
    (hidx : ∀ index, idx ≠ .logic index) (v : Val) : indexSet s base idx v = some s := by
  unfold indexSet
  rw [hbase]
  cases idx with
  | logic index => exact absurd rfl (hidx index)
  | null | str | obj | queue | assoc | event => rfl

theorem exec_indexSet {src : Reg} {v : Val}
    (hcopy : assignmentCopy s.heap (s.regs src) = some (h, v)) (base idx : Reg) :
    exec s (.indexSet base idx src) = indexSet (s.setHeap h) base (s.regs idx) v := by
  rw [exec, hcopy]
  rfl

theorem updates_setBit {base idx src : Reg} {old index bits : PackedVec} {v : Val}
    (hbase : s.regs base = .logic old) (hidx : s.regs idx = .logic index)
    (hindex : index.isKnown = true ∧ index.toU64 < old.width)
    (hcopy : assignmentCopy s.heap (s.regs src) = some (h, v))
    (hbits : (s.regs src).asLogic = some bits) :
    ∃ t, exec s (.indexSet base idx src) = some t ∧
      t = (s.setHeap h).setReg base (.logic (old.setBit index.toU64 (bits.getBit 0))) := by
  refine ⟨_, ?_, rfl⟩
  rw [exec_indexSet hcopy, hidx, indexSet_logic (show (s.setHeap h).regs base = _ from hbase),
    if_pos hindex, asLogic_of_copy hcopy, hbits]
  rfl

end Eevee.Ir.Locations
