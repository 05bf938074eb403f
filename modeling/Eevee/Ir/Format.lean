/- Formatted output: conversions, the arguments they take, and the numbers they print. -/

import Mathlib.Data.List.Basic
import Mathlib.Tactic.Common
import Mathlib.Tactic.SplitIfs
import Eevee.Core.Display
import Eevee.Core.Numeric
import Eevee.Ir.Objects

set_option autoImplicit false
set_option relaxedAutoImplicit false

namespace Eevee.Ir.Format

open Eevee.Core.Alu
open Eevee.Core.Logic
open Eevee.Core.Numeric
open Eevee.Ir.Objects

/-! ### The formatter -/

/-- A vector goes through its low word. -/
def fmtRadix (arg : Option Val) (radix : Nat) : List Char :=
  match arg with
  | some (.logic v) => Nat.toDigits radix v.toU64
  | _ => ['?']

def fmtString (arg : Option Val) : List Char :=
  match arg with
  | some (.str text) => text.toList
  | some (.logic v) => Core.Display.display v.1
  | _ => ['?']

/-- The letters that format the next argument. -/
def convert (letter : Char) (arg : Option Val) : Option (List Char) :=
  if letter = 'd' ∨ letter = 'D' then some (fmtRadix arg 10)
  else if letter = 'h' ∨ letter = 'H' ∨ letter = 'x' ∨ letter = 'X' then some (fmtRadix arg 16)
  else if letter = 'o' ∨ letter = 'O' then some (fmtRadix arg 8)
  else if letter = 'b' ∨ letter = 'B' then some (fmtRadix arg 2)
  else if letter = 's' ∨ letter = 'S' then some (fmtString arg)
  else if letter = 't' ∨ letter = 'T' then some (fmtRadix arg 10)
  else none

/-- The letters of conversions; any other one is kept and takes no argument. -/
def takesArg (letter : Char) : Bool := (convert letter none).isSome

section

variable (args : List Reg) (regs : Reg → Val)

def nextArg (ai : Nat) : Option Val := args[ai]?.map regs

/-- The loop over the characters; behind a percent sign digits are skipped. -/
def formatFrom : Bool → List Char → Nat → List Char
  | false, [], _ => []
  | true, [], _ => ['%']
  | false, c :: rest, ai =>
    if c = '%' then formatFrom true rest ai else c :: formatFrom false rest ai
  | true, c :: rest, ai =>
    if c.isDigit then formatFrom true rest ai
    else if c = '%' then '%' :: formatFrom false rest ai
    else match convert c (nextArg args regs ai) with
      | some text => text ++ formatFrom false rest (ai + 1)
      | none => '%' :: c :: formatFrom false rest ai

def formatDisplay (fmt : List Char) : List Char := formatFrom args regs false fmt 0

/-! ### Segments -/

/-- A part of the output: the letter of the conversion it comes from and the argument that the
conversion takes. -/
structure Segment where
  letter : Option Char
  arg : Option Nat
  text : List Char
  deriving DecidableEq

def Segment.plain (text : List Char) : Segment := ⟨none, none, text⟩

def Segment.conversion (letter : Char) (ai : Nat) : Segment :=
  match convert letter (nextArg args regs ai) with
  | some text => ⟨some letter, some ai, text⟩
  | none => ⟨some letter, none, ['%', letter]⟩

def segmentsFrom : Bool → List Char → Nat → List Segment
  | false, [], _ => []
  | true, [], _ => [.plain ['%']]
  | false, c :: rest, ai =>
    if c = '%' then segmentsFrom true rest ai else .plain [c] :: segmentsFrom false rest ai
  | true, c :: rest, ai =>
    if c.isDigit then segmentsFrom true rest ai
    else if c = '%' then .plain ['%'] :: segmentsFrom false rest ai
    else .conversion args regs c ai ::
      segmentsFrom false rest (if takesArg c then ai + 1 else ai)

/-- The parts of the output that come from conversions. -/
def conversions (fmt : List Char) : List Segment :=
  (segmentsFrom args regs false fmt 0).filter fun segment => segment.letter.isSome

end

/-- The letters of the conversions of a format. -/
def lettersFrom : Bool → List Char → List Char
  | _, [] => []
  | false, c :: rest => lettersFrom (c == '%') rest
  | true, c :: rest =>
    if c.isDigit then lettersFrom true rest
    else if c = '%' then lettersFrom false rest
    else c :: lettersFrom false rest

def letters (fmt : List Char) : List Char := lettersFrom false fmt

/-! ### What a conversion should print -/

/-- The base of a conversion to a number. -/
def numberBase (letter : Char) : Option Nat :=
  if letter = 'd' ∨ letter = 'D' then some 10
  else if letter = 'h' ∨ letter = 'H' ∨ letter = 'x' ∨ letter = 'X' then some 16
  else if letter = 'o' ∨ letter = 'O' then some 8
  else if letter = 'b' ∨ letter = 'B' then some 2
  else none

def readNumber (radix : Nat) (text : List Char) : Option Nat :=
  if text = [] then none
  else text.foldlM (fun n c => (toDigit radix c).map (n * radix + ·)) 0

def readInt (radix : Nat) (text : List Char) : Option Int :=
  if text.head? = some '-' then (readNumber radix text.tail).map fun n => -(n : Int)
  else (readNumber radix text).map fun n => (n : Int)

/-- A decimal conversion of a signed expression prints the signed value. -/
def expected (letter : Char) (signed : Bool) (v : PackedVec) : Int :=
  if (letter = 'd' ∨ letter = 'D') ∧ signed then toInt v else toNat v

/-- The text reads as the value of a known vector, and shows the unknown bits of another one. -/
def Shows (letter : Char) (radix : Nat) (signed : Bool) (v : PackedVec) (text : List Char) : Prop :=
  if v.isKnown then readInt radix text = some (expected letter signed v)
  else ∃ c ∈ text, c.toLower = 'x' ∨ c.toLower = 'z'

/-- The conversions take the arguments in order and show the vectors among them. -/
structure Formats (fmt : List Char) (args : List Reg) (regs : Reg → Val) (signed : Nat → Bool) :
    Prop where
  output : formatDisplay args regs fmt =
    (segmentsFrom args regs false fmt 0).flatMap Segment.text
  consumes : ∀ (k : Nat) (segment : Segment), (conversions args regs fmt)[k]? = some segment →
    segment.arg = some k
  shows : ∀ (k : Nat) (segment : Segment) (letter : Char) (radix : Nat) (v : PackedVec),
    (conversions args regs fmt)[k]? = some segment → segment.letter = some letter →
    numberBase letter = some radix → args[k]?.map regs = some (.logic v) →
    Shows letter radix (signed k) v segment.text

/-! ### Segments and letters -/

theorem isSome_convert (letter : Char) (arg : Option Val) :
    (convert letter arg).isSome = takesArg letter := by
  unfold takesArg convert
  split_ifs <;> rfl

section

variable (args : List Reg) (regs : Reg → Val)

theorem conversion_of_takesArg {letter : Char} (h : takesArg letter = true) (ai : Nat) :
    ∃ text, convert letter (nextArg args regs ai) = some text ∧
      Segment.conversion args regs letter ai = ⟨some letter, some ai, text⟩ := by
  rw [← isSome_convert letter (nextArg args regs ai)] at h
  obtain ⟨text, htext⟩ := Option.isSome_iff_exists.mp h
  refine ⟨text, htext, ?_⟩
  unfold Segment.conversion
  rw [htext]

theorem conversion_of_not {letter : Char} (h : ¬ takesArg letter = true) (ai : Nat) :
    convert letter (nextArg args regs ai) = none ∧
      Segment.conversion args regs letter ai = ⟨some letter, none, ['%', letter]⟩ := by
  rw [← isSome_convert letter (nextArg args regs ai), Option.not_isSome_iff_eq_none] at h
  refine ⟨h, ?_⟩
  unfold Segment.conversion
  rw [h]

variable {args} {regs}

theorem letter_conversion (letter : Char) (ai : Nat) :
    (Segment.conversion args regs letter ai).letter = some letter := by
  by_cases h : takesArg letter = true
  · obtain ⟨text, -, heq⟩ := conversion_of_takesArg args regs h ai
    rw [heq]
  · rw [(conversion_of_not args regs h ai).2]

theorem isSome_letter (letter : Char) (ai : Nat) :
    (Segment.conversion args regs letter ai).letter.isSome = true := by
  rw [letter_conversion]
  rfl

/-- The output is what the segments print. -/
theorem formatFrom_eq (behind : Bool) (fmt : List Char) (ai : Nat) :
    formatFrom args regs behind fmt ai =
      (segmentsFrom args regs behind fmt ai).flatMap Segment.text := by
  induction fmt generalizing behind ai with
  | nil => cases behind <;> rfl
  | cons c rest ih =>
    cases behind with
    | false =>
      unfold formatFrom segmentsFrom
      split_ifs with hc
      · exact ih true ai
      · rw [List.flatMap_cons, ← ih false ai]
        rfl
    | true =>
      unfold formatFrom segmentsFrom
      split_ifs with hd hc htakes
      · exact ih true ai
      · rw [List.flatMap_cons, ← ih false ai]
        rfl
      · obtain ⟨text, htext, hsegment⟩ := conversion_of_takesArg args regs htakes ai
        rw [List.flatMap_cons, ← ih false (ai + 1), hsegment, htext]
      · obtain ⟨hnone, hsegment⟩ := conversion_of_not args regs htakes ai
        rw [List.flatMap_cons, ← ih false ai, hsegment, hnone]
        rfl

theorem formatDisplay_eq (fmt : List Char) :
    formatDisplay args regs fmt = (segmentsFrom args regs false fmt 0).flatMap Segment.text :=
  formatFrom_eq false fmt 0

/-- The conversions of the letters, from an argument on. -/
def assigned (args : List Reg) (regs : Reg → Val) : List Char → Nat → List Segment
  | [], _ => []
  | letter :: rest, ai => .conversion args regs letter ai ::
    assigned args regs rest (if takesArg letter then ai + 1 else ai)

theorem filter_segmentsFrom (behind : Bool) (fmt : List Char) (ai : Nat) :
    (segmentsFrom args regs behind fmt ai).filter (fun segment => segment.letter.isSome) =
      assigned args regs (lettersFrom behind fmt) ai := by
  induction fmt generalizing behind ai with
  | nil => cases behind <;> rfl
  | cons c rest ih =>
    cases behind with
    | false =>
      unfold segmentsFrom lettersFrom
      by_cases hc : c = '%'
      · rw [if_pos hc, hc]
        exact ih true ai
      · have hplain : (Segment.plain [c]).letter.isSome = false := rfl
        rw [if_neg hc, List.filter_cons, hplain, beq_false_of_ne hc]
        exact ih false ai
    | true =>
      unfold segmentsFrom lettersFrom
      split_ifs with hd hc htakes
      · exact ih true ai
      · have hplain : (Segment.plain ['%']).letter.isSome = false := rfl
        rw [List.filter_cons, hplain]
        exact ih false ai
      · rw [List.filter_cons, isSome_letter, if_pos rfl, ih false (ai + 1), assigned, if_pos htakes]
      · rw [List.filter_cons, isSome_letter, if_pos rfl, ih false ai, assigned, if_neg htakes]

theorem conversions_eq (fmt : List Char) :
    conversions args regs fmt = assigned args regs (letters fmt) 0 := filter_segmentsFrom _ _ _

/-- Conversions that all take an argument take them in order. -/
theorem getElem_assigned {ls : List Char} (h : ∀ l ∈ ls, takesArg l = true) (ai k : Nat) :
    (assigned args regs ls ai)[k]? =
      ls[k]?.map fun l => Segment.conversion args regs l (ai + k) := by
  induction ls generalizing ai k with
  | nil => rfl
  | cons l ls ih =>
    rw [assigned, if_pos (h l List.mem_cons_self)]
    cases k with
    | zero => rfl
    | succ k =>
      rw [List.getElem?_cons_succ, List.getElem?_cons_succ,
        ih (fun l' hl' => h l' (List.mem_cons_of_mem l hl')), Nat.add_right_comm, Nat.add_assoc]

theorem takesArg_of_assigned {ls : List Char} (ai : Nat)
    (h : ∀ (k : Nat) (segment : Segment), (assigned args regs ls ai)[k]? = some segment →
      segment.arg = some (ai + k)) : ∀ l ∈ ls, takesArg l = true := by
  induction ls generalizing ai with
  | nil => exact fun l hl => absurd hl List.not_mem_nil
  | cons l ls ih =>
    have htakes : takesArg l = true := by
      by_contra hnot
      have hfirst := h 0 _ rfl
      rw [(conversion_of_not args regs hnot ai).2] at hfirst
      cases hfirst
    intro l' hl'
    rcases List.mem_cons.mp hl' with rfl | hl'
    · exact htakes
    · refine ih (ai + 1) (fun k segment hk => ?_) l' hl'
      have hnext := h (k + 1) segment (by
        rw [assigned, if_pos htakes, List.getElem?_cons_succ]
        exact hk)
      rw [hnext]
      congr 1
      omega

end

/-! ### Numbers -/

theorem toDigit_digitChar {radix d : Nat} (hradix : radix ≤ 16) (hd : d < radix) :
    toDigit radix d.digitChar = some d := by
  have hsixteen : ∀ d < 16, toDigit 16 (Nat.digitChar d) = some d := by decide
  have hread := hsixteen d (by omega)
  unfold toDigit at hread ⊢
  rw [Option.filter_eq_some_iff] at hread ⊢
  exact ⟨hread.1, decide_eq_true hd⟩

/-- By induction on the digits, the last one being read last. -/
theorem readNumber_toDigits {radix : Nat} (hlo : 1 < radix) (hhi : radix ≤ 16) (n : Nat) :
    readNumber radix (Nat.toDigits radix n) = some n := by
  unfold readNumber
  rw [if_neg Nat.toDigits_ne_nil]
  induction n using Nat.strongRecOn with
  | ind n ih =>
    by_cases hn : n < radix
    · rw [Nat.toDigits_of_lt_base hn, List.foldlM_cons, toDigit_digitChar hhi hn]
      simp
    · have hlt : n / radix < n := Nat.div_lt_self (by omega) hlo
      have hmod : n % radix < radix := Nat.mod_lt n (by omega)
      rw [Nat.toDigits_of_base_le hlo (Nat.not_lt.mp hn), List.foldlM_append, ih _ hlt,
        Option.bind_eq_bind, Option.bind_some, List.foldlM_cons, toDigit_digitChar hhi hmod]
      simp [Nat.div_add_mod']

theorem mem_toDigits {radix : Nat} (hlo : 1 < radix) {c : Char} {n : Nat}
    (h : c ∈ Nat.toDigits radix n) : ∃ d < radix, c = d.digitChar := by
  induction n using Nat.strongRecOn with
  | ind n ih =>
    by_cases hn : n < radix
    · rw [Nat.toDigits_of_lt_base hn, List.mem_singleton] at h
      exact ⟨n, hn, h⟩
    · rw [Nat.toDigits_of_base_le hlo (Nat.not_lt.mp hn), List.mem_append,
        List.mem_singleton] at h
      rcases h with h | h
      · exact ih _ (Nat.div_lt_self (by omega) hlo) h
      · exact ⟨n % radix, Nat.mod_lt n (by omega), h⟩

theorem readInt_toDigits {radix : Nat} (hlo : 1 < radix) (hhi : radix ≤ 16) (n : Nat) :
    readInt radix (Nat.toDigits radix n) = some (n : Int) := by
  have hminus : ¬ (Nat.toDigits radix n).head? = some '-' := by
    intro h
    obtain ⟨d, hd, heq⟩ := mem_toDigits hlo (List.mem_of_mem_head? h)
    have hall : ∀ d < 16, Nat.digitChar d ≠ '-' := by decide
    exact hall d (by omega) heq.symm
  unfold readInt
  rw [if_neg hminus, readNumber_toDigits hlo hhi]
  rfl

theorem numberBase_bounds {letter : Char} {radix : Nat} (h : numberBase letter = some radix) :
    1 < radix ∧ radix ≤ 16 := by
  unfold numberBase at h
  split_ifs at h
  all_goals
    cases h
    decide

theorem convert_number {letter : Char} {radix : Nat} (h : numberBase letter = some radix)
    (v : PackedVec) :
    convert letter (some (.logic v)) = some (Nat.toDigits radix v.toU64) := by
  unfold numberBase at h
  unfold convert
  split_ifs at h ⊢
  all_goals
    cases h
    rfl

theorem expected_eq_iff (letter : Char) (signed : Bool) (v : PackedVec) :
    (v.toU64 : Int) = expected letter signed v ↔
      toNat v < 2 ^ 64 ∧ ((letter = 'd' ∨ letter = 'D') ∧ signed = true → 0 ≤ toInt v) := by
  have hword : v.toU64 = toNat v % 2 ^ 64 := toU64_eq v
  have hlow : ((v.toU64 : Nat) : Int) = (toNat v : Int) ↔ toNat v < 2 ^ 64 := by
    omega
  have hsign : 0 ≤ toInt v → toInt v = toNat v := by
    intro h
    have hlt := toNat_lt v
    unfold toInt at h ⊢
    split_ifs at h ⊢
    · have hpow : ((2 ^ v.width : Nat) : Int) = (2 : Int) ^ v.width := by simp
      omega
    · rfl
  unfold expected
  split_ifs with hsigned
  · constructor
    · intro heq
      have hnonneg : 0 ≤ toInt v := by
        rw [← heq]
        exact Int.natCast_nonneg _
      rw [hsign hnonneg] at heq
      exact ⟨hlow.mp heq, fun _ => hnonneg⟩
    · rintro ⟨hlt, hnonneg⟩
      rw [hsign (hnonneg hsigned)]
      exact hlow.mpr hlt
  · rw [hlow]
    exact ⟨fun h => ⟨h, fun hc => absurd hc hsigned⟩, fun h => h.1⟩

/-- The low word shows a vector that is known, fits a word and is not negative. -/
theorem shows_iff {letter : Char} {radix : Nat} (h : numberBase letter = some radix) (signed : Bool)
    (v : PackedVec) : Shows letter radix signed v (Nat.toDigits radix v.toU64) ↔
      v.isKnown = true ∧ toNat v < 2 ^ 64 ∧
        ((letter = 'd' ∨ letter = 'D') ∧ signed = true → 0 ≤ toInt v) := by
  obtain ⟨hlo, hhi⟩ := numberBase_bounds h
  unfold Shows
  split_ifs with hknown
  · rw [readInt_toDigits hlo hhi, Option.some_inj, expected_eq_iff]
    exact ⟨fun heq => ⟨hknown, heq⟩, fun heq => heq.2⟩
  · refine iff_of_false ?_ fun heq => hknown heq.1
    rintro ⟨c, hc, hletter⟩
    obtain ⟨d, hd, rfl⟩ := mem_toDigits hlo hc
    have hall : ∀ d < 16, ¬ ((Nat.digitChar d).toLower = 'x' ∨
        (Nat.digitChar d).toLower = 'z') := by
      decide
    exact hall d (by omega) hletter

/-- The conversions are right exactly if each has a letter that takes an argument, and every number
has a known vector of one word that is not negative where it is signed. -/
theorem formats_iff (fmt : List Char) (args : List Reg) (regs : Reg → Val) (signed : Nat → Bool) :
    Formats fmt args regs signed ↔ (∀ letter ∈ letters fmt, takesArg letter = true) ∧
      ∀ (k : Nat) (letter : Char) (radix : Nat) (v : PackedVec), (letters fmt)[k]? = some letter →
        numberBase letter = some radix → args[k]?.map regs = some (.logic v) →
        v.isKnown = true ∧ toNat v < 2 ^ 64 ∧
          ((letter = 'd' ∨ letter = 'D') ∧ signed k = true → 0 ≤ toInt v) := by
  have hsegment : (∀ letter ∈ letters fmt, takesArg letter = true) →
      ∀ (k : Nat) (letter : Char) (radix : Nat) (v : PackedVec), (letters fmt)[k]? = some letter →
        numberBase letter = some radix → args[k]?.map regs = some (.logic v) →
        (conversions args regs fmt)[k]? =
          some ⟨some letter, some k, Nat.toDigits radix v.toU64⟩ := by
    intro hall k letter radix v hk hradix hv
    obtain ⟨text, htext, heq⟩ := conversion_of_takesArg args regs
      (hall letter (List.mem_of_getElem? hk)) k
    have hnext : nextArg args regs k = some (.logic v) := hv
    rw [hnext, convert_number hradix, Option.some_inj] at htext
    rw [conversions_eq, getElem_assigned hall, hk, Option.map_some, Nat.zero_add, heq, htext]
  constructor
  · intro h
    have horder : ∀ (k : Nat) (segment : Segment),
        (assigned args regs (letters fmt) 0)[k]? = some segment → segment.arg = some (0 + k) := by
      intro k segment hk
      rw [Nat.zero_add]
      exact h.consumes k segment (by rwa [conversions_eq])
    have hall := takesArg_of_assigned 0 horder
    refine ⟨hall, fun k letter radix v hk hradix hv => ?_⟩
    have hshows := h.shows k _ letter radix v (hsegment hall k letter radix v hk hradix hv) rfl
      hradix hv
    exact (shows_iff hradix (signed k) v).mp hshows
  · rintro ⟨hall, hnumbers⟩
    refine ⟨formatDisplay_eq fmt, ?_, ?_⟩
    · intro k segment hk
      rw [conversions_eq, getElem_assigned hall, Nat.zero_add] at hk
      obtain ⟨letter, hletter, rfl⟩ := Option.map_eq_some_iff.mp hk
      obtain ⟨text, -, heq⟩ := conversion_of_takesArg args regs
        (hall letter (List.mem_of_getElem? hletter)) k
      rw [heq]
    · intro k segment letter radix v hk hsegmentLetter hradix hv
      have hletter : (letters fmt)[k]? = some letter := by
        rw [conversions_eq, getElem_assigned hall] at hk
        obtain ⟨letter', hletter', rfl⟩ := Option.map_eq_some_iff.mp hk
        rw [letter_conversion] at hsegmentLetter
        rw [hletter', hsegmentLetter]
      rw [hsegment hall k letter radix v hletter hradix hv] at hk
      rw [← Option.some.inj hk]
      exact (shows_iff hradix (signed k) v).mpr (hnumbers k letter radix v hletter hradix hv)

/-- An unknown bit is printed as 0. -/
theorem unknown_bit_not_shown : ¬ Formats ['%', 'b'] [0] (fun _ => .logic (.fromBit .x))
    fun _ => false := by
  intro h
  have hsegment : (conversions [0] (fun _ => Val.logic (.fromBit .x)) ['%', 'b'])[0]? =
      some ⟨some 'b', some 0, ['0']⟩ := by
    decide
  have hshows := h.shows 0 _ 'b' 2 (.fromBit .x) hsegment rfl rfl rfl
  obtain ⟨c, hc, hletter⟩ := hshows
  rw [List.mem_singleton.mp hc] at hletter
  revert hletter
  decide

end Eevee.Ir.Format
