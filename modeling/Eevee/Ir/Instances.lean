/- New objects: fresh storage for collections, events and structs, each held in one place. -/

import Mathlib.Data.List.Basic
import Mathlib.Logic.Relation
import Mathlib.Tactic.Common
import Mathlib.Tactic.SplitIfs
import Eevee.Ir.Collections
import Eevee.Lib.References

set_option autoImplicit false
set_option relaxedAutoImplicit false

namespace Eevee.Ir.Instances

open Eevee.Ir.Objects
open Eevee.Ir.Collections (keyToValue)
open Eevee.Ir.Locations (getElem?_of_initial)
open Eevee.Lib.References

/-- What an object of a class starts with: a default for each slot, and the slots that get storage
of their own. -/
structure ClassDef where
  fieldDefaults : List Val
  /-- With whether the collection is associative. -/
  collFields : List (Nat × Bool)
  eventFields : List Nat
  structFields : List (Nat × Nat)

/-- The heap and the counter of events, which all of the program shares. -/
structure Memory where
  heap : Heap
  nextEvent : Nat

namespace Memory

variable (m : Memory)

def newColl (isAssoc : Bool) : Memory × Val :=
  if isAssoc then ({ m with heap := (m.heap.addAssoc []).1 }, (m.heap.addAssoc []).2)
  else ({ m with heap := (m.heap.addQueue []).1 }, (m.heap.addQueue []).2)

def newEvent : Memory × Val := ({ m with nextEvent := m.nextEvent + 1 }, .event m.nextEvent)

def newObj (data : ObjData) : Memory × Val :=
  ({ m with heap := { m.heap with objs := m.heap.objs ++ [data] } }, .obj m.heap.objs.length)

end Memory

/-- A slot that does not exist is an error. -/
def setSlot (fields : List Val) (slot : Nat) (value : Val) : Option (List Val) :=
  if slot < fields.length then some (fields.set slot value) else none

/-- Each listed slot gets a value made for it, in the order of the list. -/
def fillSlots {κ : Type} (make : Memory → κ → Option (Memory × Val)) :
    List (Nat × κ) → Memory × List Val → Option (Memory × List Val)
  | [], state => some state
  | (slot, kind) :: rest, (m, fields) =>
    (make m kind).bind fun made =>
      (setSlot fields slot made.2).bind fun fields => fillSlots make rest (made.1, fields)

/-- A new object of a class. The depth bounds the nesting of structs in structs. -/
def newInstance (classes : Nat → Option ClassDef) : Nat → Memory → Nat → Option (Memory × Val)
  | 0, _, _ => none
  | depth + 1, m, cls =>
    (classes cls).bind fun defn =>
      (fillSlots (fun m isAssoc => some (m.newColl isAssoc)) defn.collFields
        (m, defn.fieldDefaults)).bind fun state =>
      (fillSlots (newInstance classes depth) defn.structFields state).bind fun state =>
      (fillSlots (fun m (_ : Unit) => some m.newEvent) (defn.eventFields.map (·, ()))
        state).map fun state =>
        state.1.newObj ⟨cls, state.2⟩

/-! ### Growth -/

/-- Storage is added, none is changed. -/
structure Extends (m m' : Memory) : Prop where
  objs : m.heap.objs <+: m'.heap.objs
  queues : m.heap.queues <+: m'.heap.queues
  assocs : m.heap.assocs <+: m'.heap.assocs
  events : m.nextEvent ≤ m'.nextEvent

namespace Extends

variable {m m' m'' : Memory}

theorem refl (m : Memory) : Extends m m :=
  ⟨List.prefix_rfl, List.prefix_rfl, List.prefix_rfl, Nat.le_refl _⟩

theorem trans (h : Extends m m') (h' : Extends m' m'') : Extends m m'' :=
  ⟨h.objs.trans h'.objs, h.queues.trans h'.queues, h.assocs.trans h'.assocs,
    h.events.trans h'.events⟩

theorem obj (h : Extends m m') {id : Nat} {data : ObjData}
    (hobj : m.heap.objs[id]? = some data) : m'.heap.objs[id]? = some data :=
  (getElem?_of_initial h.objs (List.getElem?_eq_some_iff.mp hobj).1).trans hobj

theorem queue (h : Extends m m') {id : Nat} {values : List Val}
    (hqueue : m.heap.queues[id]? = some values) : m'.heap.queues[id]? = some values :=
  (getElem?_of_initial h.queues (List.getElem?_eq_some_iff.mp hqueue).1).trans hqueue

theorem assoc (h : Extends m m') {id : Nat} {entries : List (Key × Val)}
    (hassoc : m.heap.assocs[id]? = some entries) : m'.heap.assocs[id]? = some entries :=
  (getElem?_of_initial h.assocs (List.getElem?_eq_some_iff.mp hassoc).1).trans hassoc

end Extends

theorem extends_newColl (m : Memory) (isAssoc : Bool) (m' : Memory) (value : Val)
    (h : some (m.newColl isAssoc) = some (m', value)) : Extends m m' := by
  have hm : (m.newColl isAssoc).1 = m' := congrArg Prod.fst (Option.some.inj h)
  subst hm
  cases isAssoc
  · exact ⟨List.prefix_rfl, List.prefix_append _ _, List.prefix_rfl, Nat.le_refl _⟩
  · exact ⟨List.prefix_rfl, List.prefix_rfl, List.prefix_append _ _, Nat.le_refl _⟩

theorem extends_newEvent (m : Memory) (_ : Unit) (m' : Memory) (value : Val)
    (h : some m.newEvent = some (m', value)) : Extends m m' := by
  have hm : m.newEvent.1 = m' := congrArg Prod.fst (Option.some.inj h)
  subst hm
  exact ⟨List.prefix_rfl, List.prefix_rfl, List.prefix_rfl, Nat.le_succ _⟩

theorem extends_newObj (m : Memory) (data : ObjData) : Extends m (m.newObj data).1 :=
  ⟨List.prefix_append _ _, List.prefix_rfl, List.prefix_rfl, Nat.le_refl _⟩

section

variable {κ : Type} {make : Memory → κ → Option (Memory × Val)}

theorem fillSlots_cons {slot : Nat} {kind : κ} {rest : List (Nat × κ)} {m m' : Memory}
    {fields fields' : List Val}
    (h : fillSlots make ((slot, kind) :: rest) (m, fields) = some (m', fields')) :
    ∃ m₁ value, make m kind = some (m₁, value) ∧ slot < fields.length ∧
      fillSlots make rest (m₁, fields.set slot value) = some (m', fields') := by
  rw [fillSlots] at h
  obtain ⟨⟨m₁, value⟩, hmade, h⟩ := Option.bind_eq_some_iff.mp h
  obtain ⟨fields₁, hset, h⟩ := Option.bind_eq_some_iff.mp h
  unfold setSlot at hset
  split_ifs at hset with hslot
  cases hset
  exact ⟨m₁, value, hmade, hslot, h⟩

/-- What each value that is made keeps, and storing it, holds after all slots are filled. -/
theorem fillSlots_invariant (P : Memory → List Val → Prop)
    (step : ∀ m fields kind m₁ value slot, P m fields → make m kind = some (m₁, value) →
      slot < fields.length → P m₁ (fields.set slot value))
    {entries : List (Nat × κ)} {m m' : Memory} {fields fields' : List Val} (h₀ : P m fields)
    (h : fillSlots make entries (m, fields) = some (m', fields')) : P m' fields' := by
  induction entries generalizing m fields with
  | nil =>
    cases h
    exact h₀
  | cons entry rest ih =>
    obtain ⟨m₁, value, hmade, hslot, h⟩ := fillSlots_cons h
    exact ih (step m fields entry.2 m₁ value entry.1 h₀ hmade hslot) h

theorem extends_fillSlots
    (hmake : ∀ m kind m₁ value, make m kind = some (m₁, value) → Extends m m₁)
    {entries : List (Nat × κ)} {m m' : Memory} {fields fields' : List Val}
    (h : fillSlots make entries (m, fields) = some (m', fields')) :
    Extends m m' ∧ fields'.length = fields.length := by
  refine fillSlots_invariant (fun m₁ fields₁ => Extends m m₁ ∧ fields₁.length = fields.length)
    (fun m₁ fields₁ kind m₂ value slot h₁ hmade _ => ?_) ⟨.refl m, rfl⟩ h
  exact ⟨h₁.1.trans (hmake _ _ _ _ hmade), (List.length_set).trans h₁.2⟩

/-- A slot holds what was made for it, or what it held before if it is not listed. -/
theorem fillSlots_slot
    (hmake : ∀ m kind m₁ value, make m kind = some (m₁, value) → Extends m m₁)
    {entries : List (Nat × κ)} {m m' : Memory} {fields fields' : List Val}
    (h : fillSlots make entries (m, fields) = some (m', fields')) {i : Nat} {value : Val}
    (hvalue : fields'[i]? = some value) :
    (fields[i]? = some value ∧ ∀ kind, (i, kind) ∉ entries) ∨
      ∃ kind m₁ m₂, (i, kind) ∈ entries ∧ make m₁ kind = some (m₂, value) ∧
        Extends m m₁ ∧ Extends m₂ m' := by
  induction entries generalizing m fields with
  | nil =>
    cases h
    exact .inl ⟨hvalue, fun _ hmem => by cases hmem⟩
  | cons entry rest ih =>
    obtain ⟨m₁, made, hmade, hslot, h⟩ := fillSlots_cons h
    have hext := hmake _ _ _ _ hmade
    rcases ih h with ⟨hkept, hrest⟩ | ⟨kind, m₂, m₃, hmem, hlater, hext₂, hext₃⟩
    · by_cases hi : entry.1 = i
      · subst hi
        rw [List.getElem?_set_self hslot] at hkept
        cases hkept
        exact .inr ⟨entry.2, m, m₁, List.mem_cons_self, hmade, .refl m,
          (extends_fillSlots hmake h).1⟩
      · rw [List.getElem?_set_ne hi] at hkept
        refine .inl ⟨hkept, fun kind hmem => ?_⟩
        rcases List.mem_cons.mp hmem with heq | hmem
        · exact hi (congrArg Prod.fst heq).symm
        · exact hrest kind hmem
    · exact .inr ⟨kind, m₂, m₃, List.mem_cons_of_mem _ hmem, hlater, hext.trans hext₂, hext₃⟩

end

theorem extends_newInstance (classes : Nat → Option ClassDef) (depth : Nat) :
    ∀ m cls m' value, newInstance classes depth m cls = some (m', value) → Extends m m' := by
  induction depth with
  | zero => exact fun _ _ _ _ h => by cases h
  | succ depth ih =>
    intro m cls m' value h
    rw [newInstance] at h
    obtain ⟨defn, -, h⟩ := Option.bind_eq_some_iff.mp h
    obtain ⟨⟨m₁, fields₁⟩, hcolls, h⟩ := Option.bind_eq_some_iff.mp h
    obtain ⟨⟨m₂, fields₂⟩, hstructs, h⟩ := Option.bind_eq_some_iff.mp h
    obtain ⟨⟨m₃, fields₃⟩, hevents, h⟩ := Option.map_eq_some_iff.mp h
    cases h
    have h₁ := (extends_fillSlots extends_newColl hcolls).1
    have h₂ := (extends_fillSlots ih hstructs).1
    have h₃ := (extends_fillSlots extends_newEvent hevents).1
    exact ((h₁.trans h₂).trans h₃).trans (extends_newObj _ _)

/-! ### What a slot holds -/

/-- The value of a slot of a new object: events are made last, and over what the slot had before. -/
inductive SlotMade (classes : Nat → Option ClassDef) (depth : Nat) (defn : ClassDef)
    (m m' : Memory) (i : Nat) : Val → Prop
  | event {m₁ m₂ : Memory} {value : Val} (hmem : i ∈ defn.eventFields)
      (hmade : m₁.newEvent = (m₂, value)) (hbefore : Extends m m₁) (hafter : Extends m₂ m') :
      SlotMade classes depth defn m m' i value
  | struct {m₁ m₂ : Memory} {value : Val} {cls : Nat} (hevent : i ∉ defn.eventFields)
      (hmem : (i, cls) ∈ defn.structFields)
      (hmade : newInstance classes depth m₁ cls = some (m₂, value)) (hbefore : Extends m m₁)
      (hafter : Extends m₂ m') : SlotMade classes depth defn m m' i value
  | coll {m₁ m₂ : Memory} {value : Val} {isAssoc : Bool} (hevent : i ∉ defn.eventFields)
      (hstruct : ∀ cls, (i, cls) ∉ defn.structFields) (hmem : (i, isAssoc) ∈ defn.collFields)
      (hmade : m₁.newColl isAssoc = (m₂, value)) (hbefore : Extends m m₁)
      (hafter : Extends m₂ m') : SlotMade classes depth defn m m' i value
  | default {value : Val} (hevent : i ∉ defn.eventFields)
      (hstruct : ∀ cls, (i, cls) ∉ defn.structFields)
      (hcoll : ∀ isAssoc, (i, isAssoc) ∉ defn.collFields)
      (hvalue : defn.fieldDefaults[i]? = some value) : SlotMade classes depth defn m m' i value

/-- A creation that succeeds puts an object of its class behind all that existed. -/
theorem newInstance_slots {classes : Nat → Option ClassDef} {depth cls : Nat} {m m' : Memory}
    {value : Val} (h : newInstance classes (depth + 1) m cls = some (m', value)) :
    ∃ defn fields id, classes cls = some defn ∧ value = .obj id ∧
      m'.heap.objs[id]? = some ⟨cls, fields⟩ ∧ m.heap.objs.length ≤ id ∧
      fields.length = defn.fieldDefaults.length ∧
      ∀ i w, fields[i]? = some w → SlotMade classes depth defn m m' i w := by
  rw [newInstance] at h
  obtain ⟨defn, hdefn, h⟩ := Option.bind_eq_some_iff.mp h
  obtain ⟨⟨m₁, fields₁⟩, hcolls, h⟩ := Option.bind_eq_some_iff.mp h
  obtain ⟨⟨m₂, fields₂⟩, hstructs, h⟩ := Option.bind_eq_some_iff.mp h
  obtain ⟨⟨m₃, fields₃⟩, hevents, h⟩ := Option.map_eq_some_iff.mp h
  cases h
  have hstructExt := extends_newInstance classes depth
  obtain ⟨h₁, hlen₁⟩ := extends_fillSlots extends_newColl hcolls
  obtain ⟨h₂, hlen₂⟩ := extends_fillSlots hstructExt hstructs
  obtain ⟨h₃, hlen₃⟩ := extends_fillSlots extends_newEvent hevents
  have hobj := extends_newObj m₃ ⟨cls, fields₃⟩
  refine ⟨defn, fields₃, m₃.heap.objs.length, hdefn, rfl, List.getElem?_concat_length, ?_,
    (hlen₃.trans hlen₂).trans hlen₁, fun i w hw => ?_⟩
  · exact ((h₁.trans h₂).trans h₃).objs.length_le
  have hlisted :
      ∀ kind : Unit, (i, kind) ∈ defn.eventFields.map (·, ()) ↔ i ∈ defn.eventFields := by
    simp
  rcases fillSlots_slot extends_newEvent hevents hw with
    ⟨hw, hevent⟩ | ⟨_, n₁, n₂, hmem, hmade, hb, ha⟩
  · have hevent : i ∉ defn.eventFields := fun hmem => hevent () ((hlisted ()).mpr hmem)
    rcases fillSlots_slot hstructExt hstructs hw with
      ⟨hw, hstruct⟩ | ⟨_, n₁, n₂, hmem, hmade, hb, ha⟩
    · rcases fillSlots_slot extends_newColl hcolls hw with
        ⟨hw, hcoll⟩ | ⟨_, n₁, n₂, hmem, hmade, hb, ha⟩
      · exact .default hevent hstruct hcoll hw
      · exact .coll hevent hstruct hmem (Option.some.inj hmade) hb
          (((ha.trans h₂).trans h₃).trans hobj)
    · exact .struct hevent hmem hmade (h₁.trans hb) ((ha.trans h₃).trans hobj)
  · exact .event ((hlisted ()).mp hmem) (Option.some.inj hmade) ((h₁.trans h₂).trans hb)
      (ha.trans hobj)

/-! ### Who holds what -/

/-- Where the heap holds values. -/
inductive Place
  | field (obj slot : Nat)
  | element (queue i : Nat)
  | entry (assoc i : Nat)
  | key (assoc i : Nat)

def Place.owner : Place → Val
  | .field obj _ => .obj obj
  | .element queue _ => .queue queue
  | .entry assoc _ | .key assoc _ => .assoc assoc

def Memory.held (m : Memory) : Place → Option Val
  | .field obj slot => m.heap.objs[obj]?.bind fun data => data.fields[slot]?
  | .element queue i => m.heap.queues[queue]?.bind fun values => values[i]?
  | .entry assoc i => m.heap.assocs[assoc]?.bind fun entries => entries[i]?.map (·.2)
  | .key assoc i => m.heap.assocs[assoc]?.bind fun entries => entries[i]?.map (keyToValue ·.1)

/-- The storage a value refers to exists. -/
def Within (m : Memory) : Val → Prop
  | .obj id => id < m.heap.objs.length
  | .queue id => id < m.heap.queues.length
  | .assoc id => id < m.heap.assocs.length
  | .event id => id < m.nextEvent
  | .null | .logic _ | .str _ => True

/-- A value without storage, or an event from before a bound. -/
def Early (n : Nat) : Val → Prop
  | .obj _ | .queue _ | .assoc _ => False
  | .event id => id < n
  | .null | .logic _ | .str _ => True

/-- No handle dangles. -/
def Closed (m : Memory) : Prop := ∀ p value, m.held p = some value → Within m value

variable {m m' m₀ : Memory} {n : Nat} {value : Val}

theorem Within.extend (h : Within m value) (hext : Extends m m') : Within m' value := by
  cases value with
  | obj id => exact Nat.lt_of_lt_of_le h hext.objs.length_le
  | queue id => exact Nat.lt_of_lt_of_le h hext.queues.length_le
  | assoc id => exact Nat.lt_of_lt_of_le h hext.assocs.length_le
  | event id => exact Nat.lt_of_lt_of_le h hext.events
  | null => trivial
  | logic => trivial
  | str => trivial

theorem Early.within (h : Early n value) (hn : n ≤ m.nextEvent) : Within m value := by
  cases value with
  | obj => cases h
  | queue => cases h
  | assoc => cases h
  | event => exact Nat.lt_of_lt_of_le h hn
  | null => trivial
  | logic => trivial
  | str => trivial

/-- What existed keeps its values. -/
theorem held_old (hext : Extends m m') {p : Place} (howner : Within m p.owner) :
    m'.held p = m.held p := by
  cases p with
  | field obj slot =>
    show m'.heap.objs[obj]?.bind _ = _
    rw [getElem?_of_initial hext.objs howner]
    rfl
  | element queue i =>
    show m'.heap.queues[queue]?.bind _ = _
    rw [getElem?_of_initial hext.queues howner]
    rfl
  | entry assoc i =>
    show m'.heap.assocs[assoc]?.bind _ = _
    rw [getElem?_of_initial hext.assocs howner]
    rfl
  | key assoc i =>
    show m'.heap.assocs[assoc]?.bind _ = _
    rw [getElem?_of_initial hext.assocs howner]
    rfl

/-- What existed leads to what existed only. -/
theorem inside_old (hclosed : Closed m) (hext : Extends m m') :
    Inside Place.owner m'.held (Within m) := by
  intro p w howner hp
  rw [held_old hext howner] at hp
  exact hclosed p w hp

theorem held_newObj {data : ObjData} {p : Place} (h : (m.newObj data).1.held p = some value) :
    m.held p = some value ∨
      ∃ slot, p = .field m.heap.objs.length slot ∧ data.fields[slot]? = some value := by
  cases p with
  | field obj slot =>
    obtain ⟨found, hfound, hslot⟩ := Option.bind_eq_some_iff.mp h
    rcases Nat.lt_trichotomy obj m.heap.objs.length with hlt | rfl | hlt
    · exact .inl (Option.bind_eq_some_iff.mpr
        ⟨found, (List.getElem?_append_left hlt).symm.trans hfound, hslot⟩)
    · cases List.getElem?_concat_length.symm.trans hfound
      exact .inr ⟨slot, rfl, hslot⟩
    · have hend : obj < (m.heap.objs ++ [data]).length := (List.getElem?_eq_some_iff.mp hfound).1
      rw [List.length_append, List.length_singleton] at hend
      omega
  | element => exact .inl h
  | entry => exact .inl h
  | key => exact .inl h

/-- What an empty list behind a heap's lists holds is held without it. -/
theorem held_concat_nil {α β : Type} {lists : List (List α)} {f : α → β} {j i : Nat} {found : β}
    (h : ((lists ++ [[]])[j]?.bind fun values => values[i]?.map f) = some found) :
    (lists[j]?.bind fun values => values[i]?.map f) = some found := by
  obtain ⟨values, hvalues, hi⟩ := Option.bind_eq_some_iff.mp h
  rcases Nat.lt_trichotomy j lists.length with hlt | rfl | hlt
  · exact Option.bind_eq_some_iff.mpr
      ⟨values, (List.getElem?_append_left hlt).symm.trans hvalues, hi⟩
  · cases List.getElem?_concat_length.symm.trans hvalues
    cases hi
  · have hend := (List.getElem?_eq_some_iff.mp hvalues).1
    rw [List.length_append, List.length_singleton] at hend
    omega

/-- A new collection is empty. -/
theorem held_newColl {isAssoc : Bool} {p : Place}
    (h : (m.newColl isAssoc).1.held p = some value) : m.held p = some value := by
  cases isAssoc with
  | false =>
    cases p with
    | field => exact h
    | element queue i =>
      have := @held_concat_nil _ _ m.heap.queues id queue i value
      simp only [Option.map_id, id] at this
      exact this h
    | entry => exact h
    | key => exact h
  | true =>
    cases p with
    | field => exact h
    | element => exact h
    | entry => exact held_concat_nil h
    | key => exact held_concat_nil h

/-- One creation: what is new is held in one place, what is made is held in none. -/
structure Creates (n : Nat) (m m' : Memory) (value : Val) : Prop where
  grows : Extends m m'
  new : ¬ Within m value
  within : Within m' value
  closed : Closed m'
  held : ∀ p w, m'.held p = some w → m.held p = some w ∨ ¬ Within m w ∨ Early n w
  sole : ∀ p p' w, m'.held p = some w → m'.held p' = some w → ¬ Within m w → p = p'
  unheld : ∀ p, m'.held p ≠ some value

/-- An object under construction: its slots are like places, but not in the heap yet. -/
structure Filling (n : Nat) (m₀ m : Memory) (fields : List Val) : Prop where
  grows : Extends m₀ m
  closed : Closed m
  held : ∀ p w, m.held p = some w → m₀.held p = some w ∨ ¬ Within m₀ w ∨ Early n w
  slots : ∀ (slot : Nat) (w : Val), fields[slot]? = some w →
    Within m w ∧ (¬ Within m₀ w ∨ Early n w)
  sole : ∀ p p' w, m.held p = some w → m.held p' = some w → ¬ Within m₀ w → p = p'
  soleSlot : ∀ (slot slot' : Nat) (w : Val), fields[slot]? = some w → fields[slot']? = some w →
    ¬ Within m₀ w → slot = slot'
  apart : ∀ (p : Place) (slot : Nat) (w : Val), m.held p = some w → fields[slot]? = some w →
    Within m₀ w

theorem creates_newColl (hclosed : Closed m) (isAssoc : Bool) :
    Creates n m (m.newColl isAssoc).1 (m.newColl isAssoc).2 := by
  have hext := extends_newColl m isAssoc _ _ rfl
  have hnew : ¬ Within m (m.newColl isAssoc).2 := by
    cases isAssoc <;> exact Nat.lt_irrefl _
  have hlen : ∀ {α : Type} (l : List (List α)), l.length < (l ++ [[]]).length := by
    intro α l
    rw [List.length_append]
    exact Nat.lt_succ_self _
  refine ⟨hext, hnew, ?_, fun p w hp => (hclosed p w (held_newColl hp)).extend hext,
    fun p w hp => .inl (held_newColl hp),
    fun p p' w hp _ hw => absurd (hclosed p w (held_newColl hp)) hw,
    fun p hp => hnew (hclosed p _ (held_newColl hp))⟩
  cases isAssoc with
  | false => exact hlen m.heap.queues
  | true => exact hlen m.heap.assocs

theorem creates_newEvent (hclosed : Closed m) : Creates n m m.newEvent.1 m.newEvent.2 := by
  have hext := extends_newEvent m () _ _ rfl
  have hnew : ¬ Within m m.newEvent.2 := Nat.lt_irrefl _
  have hsame : ∀ p, m.newEvent.1.held p = m.held p := by
    intro p
    cases p <;> rfl
  refine ⟨hext, hnew, Nat.lt_succ_self _, fun p w hp => ?_, fun p w hp => .inl (hsame p ▸ hp),
    fun p p' w hp _ hw => ?_, fun p hp => ?_⟩
  · exact (hclosed p w (hsame p ▸ hp)).extend hext
  · exact absurd (hclosed p w (hsame p ▸ hp)) hw
  · exact hnew (hclosed p _ (hsame p ▸ hp))

theorem Filling.start {fields : List Val} (hclosed : Closed m) (hn : n ≤ m.nextEvent)
    (hearly : ∀ w ∈ fields, Early n w) : Filling n m m fields where
  grows := .refl m
  closed := hclosed
  held _ _ hp := .inl hp
  slots slot w hw := by
    have h := hearly w (List.mem_of_getElem? hw)
    exact ⟨h.within hn, .inr h⟩
  sole p _ w hp _ hw := absurd (hclosed p w hp) hw
  soleSlot slot _ w hw _ hnew :=
    absurd ((hearly w (List.mem_of_getElem? hw)).within hn) hnew
  apart p _ w hp _ := hclosed p w hp

/-- A value that was made is stored in a slot. -/
theorem Filling.step {fields : List Val} {slot : Nat} (h : Filling n m₀ m fields)
    (hn : n ≤ m₀.nextEvent) (hmade : Creates n m m' value) (hslot : slot < fields.length) :
    Filling n m₀ m' (fields.set slot value) := by
  have hnew₀ : ¬ Within m₀ value := fun hw => hmade.new (hw.extend h.grows)
  -- what is held now and existed before is held at the same place before
  have old : ∀ p w, m'.held p = some w → Within m w → ¬ Within m₀ w → m.held p = some w := by
    intro p w hp hw hw₀
    rcases hmade.held p w hp with hp | hnew | hearly
    · exact hp
    · exact absurd hw hnew
    · exact absurd (hearly.within hn) hw₀
  have slots : ∀ (other : Nat) (w : Val), (fields.set slot value)[other]? = some w →
      other = slot ∧ w = value ∨ fields[other]? = some w := by
    intro other w hw
    by_cases heq : slot = other
    · subst heq
      rw [List.getElem?_set_self hslot] at hw
      cases hw
      exact .inl ⟨rfl, rfl⟩
    · rw [List.getElem?_set_ne heq] at hw
      exact .inr hw
  refine ⟨h.grows.trans hmade.grows, hmade.closed, fun p w hp => ?_, fun other w hw => ?_,
    fun p p' w hp hp' hw => ?_, fun other other' w hw hw' hnew => ?_, fun p other w hp hw => ?_⟩
  · rcases hmade.held p w hp with hp | hnew | hearly
    · exact h.held p w hp
    · exact .inr (.inl fun hw => hnew (hw.extend h.grows))
    · exact .inr (.inr hearly)
  · rcases slots other w hw with ⟨-, rfl⟩ | hw
    · exact ⟨hmade.within, .inl hnew₀⟩
    · obtain ⟨hwithin, hfresh⟩ := h.slots other w hw
      exact ⟨hwithin.extend hmade.grows, hfresh⟩
  · by_cases hwm : Within m w
    · exact h.sole p p' w (old p w hp hwm hw) (old p' w hp' hwm hw) hw
    · exact hmade.sole p p' w hp hp' hwm
  · rcases slots other w hw with ⟨rfl, rfl⟩ | hold <;>
      rcases slots other' w hw' with ⟨rfl, heq⟩ | hold'
    · rfl
    · exact absurd (h.slots other' _ hold').1 hmade.new
    · exact absurd (heq ▸ (h.slots other w hold).1) hmade.new
    · exact h.soleSlot other other' w hold hold' hnew
  · rcases slots other w hw with ⟨-, rfl⟩ | hw
    · exact absurd hp (hmade.unheld p)
    · by_contra hw₀
      exact hw₀ (h.apart p other w (old p w hp (h.slots other w hw).1 hw₀) hw)

theorem Filling.finish {fields : List Val} {cls : Nat} (h : Filling n m₀ m fields) :
    Creates n m₀ (m.newObj ⟨cls, fields⟩).1 (m.newObj ⟨cls, fields⟩).2 := by
  have hext := extends_newObj m ⟨cls, fields⟩
  have hlen : m.heap.objs.length < (m.newObj ⟨cls, fields⟩).1.heap.objs.length := by
    show _ < (m.heap.objs ++ [_]).length
    rw [List.length_append]
    exact Nat.lt_succ_self _
  refine ⟨h.grows.trans hext, ?_, hlen, fun p w hp => ?_, fun p w hp => ?_,
    fun p p' w hp hp' hw => ?_, fun p hp => ?_⟩
  · exact Nat.not_lt_of_le h.grows.objs.length_le
  · rcases held_newObj hp with hp | ⟨slot, -, hslot⟩
    · exact (h.closed p w hp).extend hext
    · exact (h.slots slot w hslot).1.extend hext
  · rcases held_newObj hp with hp | ⟨slot, -, hslot⟩
    · exact h.held p w hp
    · exact .inr (h.slots slot w hslot).2
  · rcases held_newObj hp with hp | ⟨slot, rfl, hslot⟩ <;>
      rcases held_newObj hp' with hp' | ⟨slot', rfl, hslot'⟩
    · exact h.sole p p' w hp hp' hw
    · exact absurd (h.apart p slot' w hp hslot') hw
    · exact absurd (h.apart p' slot w hp' hslot) hw
    · rw [h.soleSlot slot slot' w hslot hslot' hw]
  · rcases held_newObj hp with hp | ⟨slot, -, hslot⟩
    · exact Nat.lt_irrefl _ (h.closed p _ hp)
    · exact Nat.lt_irrefl _ (h.slots slot _ hslot).1

/-- Storage made for an object is held in one place, at any depth of structs in structs. -/
theorem newInstance_creates {classes : Nat → Option ClassDef}
    (hearly : ∀ cls defn, classes cls = some defn → ∀ w ∈ defn.fieldDefaults, Early n w)
    (depth : Nat) : ∀ {m cls m' value}, Closed m → n ≤ m.nextEvent →
      newInstance classes depth m cls = some (m', value) → Creates n m m' value := by
  induction depth with
  | zero => exact fun _ _ h => by cases h
  | succ depth ih =>
    intro m cls m' value hclosed hn h
    rw [newInstance] at h
    obtain ⟨defn, hdefn, h⟩ := Option.bind_eq_some_iff.mp h
    obtain ⟨⟨m₁, fields₁⟩, hcolls, h⟩ := Option.bind_eq_some_iff.mp h
    obtain ⟨⟨m₂, fields₂⟩, hstructs, h⟩ := Option.bind_eq_some_iff.mp h
    obtain ⟨⟨m₃, fields₃⟩, hevents, h⟩ := Option.map_eq_some_iff.mp h
    cases h
    have h₁ : Filling n m m₁ fields₁ := by
      refine fillSlots_invariant (Filling n m)
        (fun m₀ fields kind m' value slot hf hmade hslot => ?_)
        (.start hclosed hn (hearly cls defn hdefn)) hcolls
      obtain ⟨rfl, rfl⟩ := Prod.mk.inj (Option.some.inj hmade)
      exact hf.step hn (creates_newColl hf.closed kind) hslot
    have h₂ : Filling n m m₂ fields₂ := by
      refine fillSlots_invariant (Filling n m)
        (fun m₀ fields kind m' value slot hf hmade hslot => ?_)
        h₁ hstructs
      exact hf.step hn (ih hf.closed (hn.trans hf.grows.events) hmade) hslot
    have h₃ : Filling n m m₃ fields₃ := by
      refine fillSlots_invariant (Filling n m)
        (fun m₀ fields kind m' value slot hf hmade hslot => ?_)
        h₂ hevents
      obtain ⟨rfl, rfl⟩ := Prod.mk.inj (Option.some.inj hmade)
      exact hf.step hn (creates_newEvent hf.closed) hslot
    exact h₃.finish

end Eevee.Ir.Instances
