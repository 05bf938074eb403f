/- Tables by name, and lists in which the last entry of a name counts. -/

import Mathlib.Data.List.Basic
import Mathlib.Data.List.Infix
import Mathlib.Tactic.Common

set_option autoImplicit false
set_option relaxedAutoImplicit false

namespace Eevee.Lib.Tables

universe u v

variable {α : Type u} {β : Type v}

/-- A hash table with names as keys. -/
abbrev Names (α : Type u) := String → Option α

namespace Names

def empty : Names α := fun _ => none

/-- A second insertion replaces the first. -/
def insert (names : Names α) (name : String) (value : α) : Names α :=
  fun other => if other = name then some value else names other

/-- A second insertion is ignored. -/
def orInsert (names : Names α) (name : String) (value : α) : Names α :=
  if (names name).isSome then names else names.insert name value

@[simp]
theorem insert_self (names : Names α) (name : String) (value : α) :
    names.insert name value name = some value := if_pos rfl

@[simp]
theorem insert_of_ne (names : Names α) {name other : String} (h : other ≠ name) (value : α) :
    names.insert name value other = names other := if_neg h

end Names

/-! ### Last entries -/

section

variable (named : α → String)

/-- The last entry of a name. -/
def lastNamed (entries : List α) (name : String) : Option α :=
  entries.reverse.find? fun entry => named entry = name

variable {named} {entries rest : List α} {entry : α} {name : String}

@[simp]
theorem lastNamed_nil : lastNamed named [] name = none := rfl

theorem lastNamed_append : lastNamed named (entries ++ rest) name =
    (lastNamed named rest name).or (lastNamed named entries name) := by
  simp [lastNamed]

theorem lastNamed_push : lastNamed named (entries ++ [entry]) name =
    if named entry = name then some entry else lastNamed named entries name := by
  rw [lastNamed_append]
  by_cases h : named entry = name <;> simp [lastNamed, h]

theorem lastNamed_cons : lastNamed named (entry :: rest) name =
    (lastNamed named rest name).or (if named entry = name then some entry else none) := by
  rw [← List.nil_append (entry :: rest), List.append_cons, lastNamed_append, lastNamed_push,
    lastNamed_nil]

/-- Entries that are inserted in order leave the last one of each name. -/
theorem foldl_insert {value : α → β} (entries : List α) :
    entries.foldl (fun names entry => names.insert (named entry) (value entry)) Names.empty =
      fun name => (lastNamed named entries name).map value := by
  have hfold : ∀ (names : Names β) (name : String),
      entries.foldl (fun names entry => names.insert (named entry) (value entry)) names name =
        ((lastNamed named entries name).map value).or (names name) := by
    induction entries with
    | nil => simp
    | cons entry entries ih =>
      intro names name
      rw [List.foldl_cons, ih, lastNamed_cons]
      cases lastNamed named entries name with
      | some other => simp
      | none => by_cases hname : name = named entry <;> simp [Names.insert, eq_comm, hname]
  exact funext fun name => (hfold Names.empty name).trans Option.or_none

theorem lastNamed_skip (h : named entry ≠ name) : lastNamed named (entries ++ entry :: rest) name =
    (lastNamed named rest name).or (lastNamed named entries name) := by
  rw [List.append_cons, lastNamed_append, lastNamed_push, if_neg h]

theorem lastNamed_eq_none :
    lastNamed named entries name = none ↔ ∀ entry ∈ entries, named entry ≠ name := by
  simp [lastNamed]

/-- The entry at a place is the last of its name when no later one has the name. -/
def LastAt (named : α → String) (entries : List α) (name : String) (i : Nat) : Prop :=
  ∃ entry, entries[i]? = some entry ∧ named entry = name ∧
    ∀ j other, i < j → entries[j]? = some other → named other ≠ name

theorem LastAt.lt {i : Nat} (h : LastAt named entries name i) : i < entries.length := by
  obtain ⟨entry, hi, -⟩ := h
  exact (List.getElem?_eq_some_iff.mp hi).1

theorem LastAt.push_self : LastAt named (entries ++ [entry]) (named entry) entries.length := by
  refine ⟨entry, List.getElem?_concat_length, rfl, fun j other hj hother => ?_⟩
  have hlt := (List.getElem?_eq_some_iff.mp hother).1
  rw [List.length_append, List.length_singleton] at hlt
  omega

theorem LastAt.push_ne {i : Nat} (h : LastAt named entries name i) (hne : named entry ≠ name) :
    LastAt named (entries ++ [entry]) name i := by
  have hi := h.lt
  obtain ⟨found, hfound, hname, hlater⟩ := h
  refine ⟨found, (List.getElem?_append_left hi).trans hfound, hname, fun j other hj hother => ?_⟩
  by_cases hlt : j < entries.length
  · rw [List.getElem?_append_left hlt] at hother
    exact hlater j other hj hother
  · have heq : j = entries.length := by
      have hend := (List.getElem?_eq_some_iff.mp hother).1
      rw [List.length_append, List.length_singleton] at hend
      omega
    subst heq
    rw [List.getElem?_concat_length] at hother
    cases hother
    exact hne

theorem LastAt.of_push_ne {i : Nat} (h : LastAt named (entries ++ [entry]) name i)
    (hne : named entry ≠ name) : LastAt named entries name i := by
  have hi := h.lt
  rw [List.length_append, List.length_singleton] at hi
  obtain ⟨found, hfound, hname, hlater⟩ := h
  have hlt : i < entries.length := by
    refine Nat.lt_of_le_of_ne (Nat.le_of_lt_succ hi) fun heq => ?_
    subst heq
    rw [List.getElem?_concat_length] at hfound
    cases hfound
    exact hne hname
  rw [List.getElem?_append_left hlt] at hfound
  refine ⟨found, hfound, hname, fun j other hj hother => hlater j other hj ?_⟩
  exact (List.getElem?_append_left (List.getElem?_eq_some_iff.mp hother).1).trans hother

theorem split_at {i : Nat} (h : entries[i]? = some entry) :
    entries = entries.take i ++ entry :: entries.drop (i + 1) := by
  rw [← (List.getElem?_eq_some_iff.mp h).2, ← List.drop_eq_getElem_cons,
    List.take_append_drop]

/-- An entry that replaces one of its own name leaves every name where it was. -/
theorem LastAt.set {i k : Nat} {other : String} {old : α} (h : LastAt named entries name i)
    (hold : entries[k]? = some old) (hname : named old = other) (hentry : named entry = other) :
    LastAt named (entries.set k entry) name i := by
  have keeps : ∀ (j : Nat) (found : α), (entries.set k entry)[j]? = some found →
      ∃ before : α, entries[j]? = some before ∧ named before = named found := by
    intro j found hj
    by_cases hk : k = j
    · subst hk
      rw [List.getElem?_set_self (List.getElem?_eq_some_iff.mp hold).1] at hj
      cases hj
      exact ⟨old, hold, hname.trans hentry.symm⟩
    · rw [List.getElem?_set_ne hk] at hj
      exact ⟨found, hj, rfl⟩
  have hi := h.lt
  obtain ⟨found, hfound, hfoundName, hlater⟩ := h
  have hlen : i < (entries.set k entry).length := by
    rw [List.length_set]
    exact hi
  have hset := List.getElem?_eq_getElem hlen
  obtain ⟨before, hbefore, hsame⟩ := keeps i _ hset
  refine ⟨_, hset, ?_, fun j found hj hfound => ?_⟩
  · rw [← hsame]
    cases hbefore.symm.trans hfound
    exact hfoundName
  · obtain ⟨before, hbefore, hsame⟩ := keeps j found hfound
    exact hsame ▸ hlater j before hj hbefore

theorem LastAt.lastNamed {i : Nat} (h : LastAt named entries name i) :
    lastNamed named entries name = entries[i]? := by
  have hi := h.lt
  obtain ⟨entry, hentry, hname, hlater⟩ := h
  have hsplit := split_at hentry
  have hrest : Tables.lastNamed named (entries.drop (i + 1)) name = none := by
    refine lastNamed_eq_none.mpr fun later hmem => ?_
    obtain ⟨j, hj⟩ := List.mem_iff_getElem?.mp hmem
    rw [List.getElem?_drop] at hj
    exact hlater (i + 1 + j) later (by omega) hj
  rw [hentry, hsplit, List.append_cons, lastNamed_append, hrest, lastNamed_push, if_pos hname]
  rfl

theorem lastNamed_set_self {i : Nat} (h : LastAt named entries name i)
    (hname : named entry = name) :
    Tables.lastNamed named (entries.set i entry) name = some entry := by
  have hi := h.lt
  obtain ⟨old, hold, holdName, -⟩ := id h
  rw [(h.set hold holdName hname).lastNamed, List.getElem?_set_self hi]

theorem lastNamed_set_ne {i : Nat} {old : α} (hold : entries[i]? = some old)
    (hname : named entry = named old) (hne : named old ≠ name) :
    Tables.lastNamed named (entries.set i entry) name = Tables.lastNamed named entries name := by
  have hi := (List.getElem?_eq_some_iff.mp hold).1
  have hset : entries.set i entry = entries.take i ++ entry :: entries.drop (i + 1) :=
    List.set_eq_take_append_cons_drop.trans (if_pos hi)
  rw [hset]
  conv_rhs => rw [split_at hold]
  rw [lastNamed_skip hne, lastNamed_skip (hname ▸ hne)]

end

/-! ### Latest values -/

section

variable (named : α → String) (value : α → Option β)

/-- What the last entry of a name with a value has. -/
def latest (entries : List α) (name : String) : Option β :=
  entries.foldl (fun found entry =>
    if named entry = name then (value entry).or found else found) none

variable {named value} {entries : List α} {entry : α} {name : String}

theorem latest_push : latest named value (entries ++ [entry]) name =
    if named entry = name then (value entry).or (latest named value entries name)
    else latest named value entries name := by
  rw [latest, List.foldl_append]
  rfl

theorem exists_of_latest {found : β} (h : latest named value entries name = some found) :
    ∃ entry ∈ entries, named entry = name ∧ value entry = some found := by
  induction entries using List.reverseRecOn with
  | nil => cases h
  | append_singleton entries entry ih =>
    rw [latest_push] at h
    have before (h : latest named value entries name = some found) :
        ∃ other ∈ entries ++ [entry], named other = name ∧ value other = some found := by
      obtain ⟨other, hmem, hother⟩ := ih h
      exact ⟨other, List.mem_append_left _ hmem, hother⟩
    by_cases hname : named entry = name
    · rw [if_pos hname] at h
      cases hvalue : value entry with
      | none =>
        rw [hvalue, Option.none_or] at h
        exact before h
      | some own =>
        rw [hvalue, Option.some_or] at h
        cases h
        exact ⟨entry, List.mem_append_right _ (List.mem_singleton_self _), hname, hvalue⟩
    · rw [if_neg hname] at h
      exact before h

theorem latest_isSome {found : β} (hmem : entry ∈ entries) (hname : named entry = name)
    (hvalue : value entry = some found) : (latest named value entries name).isSome = true := by
  induction entries using List.reverseRecOn with
  | nil => cases hmem
  | append_singleton entries other ih =>
    rw [latest_push]
    rcases List.mem_append.mp hmem with hmem | hmem
    · split_ifs
      · cases value other with
        | none => exact ih hmem
        | some _ => rfl
      · exact ih hmem
    · cases List.mem_singleton.mp hmem
      rw [if_pos hname, hvalue]
      rfl

theorem LastAt.latest {i : Nat} (h : LastAt named entries name i)
    (hentry : entries[i]? = some entry)
    {found : β} (hvalue : value entry = some found) :
    latest named value entries name = some found := by
  induction entries using List.reverseRecOn with
  | nil => cases hentry
  | append_singleton entries other ih =>
    obtain ⟨_, hi, hname, hlater⟩ := h
    cases hentry.symm.trans hi
    rw [latest_push]
    rcases Nat.lt_or_ge i entries.length with hlt | hge
    · have hne := hlater entries.length other hlt List.getElem?_concat_length
      rw [if_neg hne]
      rw [List.getElem?_append_left hlt] at hentry
      refine ih ⟨entry, hentry, hname, fun j later hj hlaterAt => ?_⟩ hentry
      exact hlater j later hj ((List.getElem?_append_left
        (List.getElem?_eq_some_iff.mp hlaterAt).1).trans hlaterAt)
    · have hlt := (List.getElem?_eq_some_iff.mp hentry).1
      rw [List.length_append, List.length_singleton] at hlt
      obtain rfl : i = entries.length := by omega
      rw [List.getElem?_concat_length] at hentry
      cases hentry
      rw [if_pos hname, hvalue, Option.some_or]

/-- A name has one last place. -/
theorem LastAt.unique {i j : Nat} (h : LastAt named entries name i)
    (h' : LastAt named entries name j) : i = j := by
  obtain ⟨entry, hi, hname, hlater⟩ := h
  obtain ⟨entry', hj, hname', hlater'⟩ := h'
  rcases Nat.lt_trichotomy i j with hlt | heq | hlt
  · exact absurd hname' (hlater j entry' hlt hj)
  · exact heq
  · exact absurd hname (hlater' i entry hlt hi)

end

/-! ### Searches for less -/

section

variable {l : List α} {p r : α → Bool} {a : α}

/-- What a narrower search finds is the first find of the wider one. -/
theorem find?_narrow_iff (hsub : ∀ x, r x = true → p x = true) (h : l.find? p = some a) :
    (l.find? r = none ∨ l.find? r = some a) ↔ ∀ b ∈ l, r b = true → r a = true := by
  constructor
  · rintro (hnone | hsome) b hb hrb
    · exact absurd hrb (List.find?_eq_none.mp hnone b hb)
    · exact List.find?_some hsome
  · intro hkeeps
    obtain ⟨-, before, after, hl, hbefore⟩ := List.find?_eq_some_iff_append.mp h
    cases hfind : l.find? r with
    | none => exact .inl rfl
    | some b =>
      have hra := hkeeps b (List.mem_of_find?_eq_some hfind) (List.find?_some hfind)
      have hskip : before.find? r = none := by
        refine List.find?_eq_none.mpr fun x hx hrx => ?_
        have := hbefore x hx
        rw [hsub x hrx] at this
        cases this
      rw [hl, List.find?_append, hskip, List.find?_cons_of_pos hra] at hfind
      exact .inr hfind.symm

/-- The last find of the narrower search is the first find of the wider one. -/
theorem find?_reverse_narrow_iff (hdistinct : l.Nodup) (hsub : ∀ x, r x = true → p x = true)
    (h : l.find? p = some a) :
    (l.reverse.find? r = none ∨ l.reverse.find? r = some a) ↔ ∀ b ∈ l, r b = true → b = a := by
  constructor
  · rintro (hnone | hsome) b hb hrb
    · exact absurd hrb (List.find?_eq_none.mp hnone b (List.mem_reverse.mpr hb))
    · obtain ⟨-, before, after, hl, hbefore⟩ := List.find?_eq_some_iff_append.mp h
      obtain ⟨-, later, earlier, hl', hlater⟩ := List.find?_eq_some_iff_append.mp hsome
      have hsplit : l = earlier.reverse ++ a :: later.reverse := by
        rw [← List.reverse_reverse l, hl']
        simp
      rw [hl, List.nodup_append, List.nodup_cons] at hdistinct
      have hnot : a ∉ before := fun hmem => hdistinct.2.2 a hmem a (by simp) rfl
      -- the only place of the entry cuts the list into the same two parts
      obtain ⟨rfl, -, rfl⟩ := (List.append_cons_inj_of_notMem hnot hdistinct.2.1.1).mp
        (hl.symm.trans hsplit)
      rw [hl, List.mem_append, List.mem_cons] at hb
      rcases hb with hb | rfl | hb
      · have := hbefore b hb
        rw [hsub b hrb] at this
        cases this
      · rfl
      · have := hlater b (List.mem_reverse.mp hb)
        rw [hrb] at this
        cases this
  · intro honly
    cases hfind : l.reverse.find? r with
    | none => exact .inl rfl
    | some b =>
      rw [honly b (List.mem_reverse.mp (List.mem_of_find?_eq_some hfind)) (List.find?_some hfind)]
      exact .inr rfl

end

end Eevee.Lib.Tables
