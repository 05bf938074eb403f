/- Sized literals: the grammar, the value, and where the parser agrees with both. -/

import Mathlib.Data.List.GetD
import Mathlib.Data.List.Induction
import Mathlib.Data.List.TakeWhile
import Mathlib.Tactic.Common
import Mathlib.Tactic.SplitIfs
import Eevee.Core.Canonical

set_option autoImplicit false
set_option relaxedAutoImplicit false

namespace Eevee.Core.SizedLiterals

open Eevee.Core.Logic
open Eevee.Core.Alu
open Eevee.Core.Canonical

/-! ### Decimal digits -/

theorem isDigit_iff (c : Char) : c.isDigit = true ↔ '0' ≤ c ∧ c ≤ '9' := by
  unfold Char.isDigit
  rw [Bool.and_eq_true, decide_eq_true_eq, decide_eq_true_eq]
  exact Iff.rfl

theorem toDigit_ten (c : Char) :
    toDigit 10 c = if c.isDigit then some (c.toNat - '0'.toNat) else none := by
  unfold toDigit
  by_cases hd : c.isDigit = true
  · have hrange := (isDigit_iff c).mp hd
    have hle : c.toNat ≤ 57 := hrange.2
    have hlt : c.toNat - '0'.toNat < 10 := by
      show c.toNat - 48 < 10
      omega
    simp only [if_pos hrange, if_pos hd, Option.filter_some, hlt, decide_true, if_true]
  · have hrange : ¬ ('0' ≤ c ∧ c ≤ '9') := fun h => hd ((isDigit_iff c).mpr h)
    rw [if_neg hrange, if_neg hd]
    split_ifs <;> simp

/-- The digits of a number make the number; another character makes none. -/
theorem foldlM_toDigit (digits : List Char) (n : Nat) :
    digits.foldlM (fun n c => (toDigit 10 c).map (n * 10 + ·)) n =
      if digits.all Char.isDigit then some (Nat.ofDigitChars 10 digits n) else none := by
  induction digits generalizing n with
  | nil => simp
  | cons c digits ih =>
    rw [List.foldlM_cons, toDigit_ten, List.all_cons]
    by_cases hc : c.isDigit = true
    · simp only [hc, if_true, Option.map_some, Bool.true_and]
      show digits.foldlM _ (n * 10 + (c.toNat - '0'.toNat)) = _
      rw [ih, Nat.ofDigitChars_cons, Nat.mul_comm]
    · simp [hc]

/-- The text after an optional plus sign. -/
def afterPlus (s : List Char) : List Char := if s.head? = some '+' then s.tail else s

theorem parseUnsigned_eq (bound : Nat) (s : List Char) : parseUnsigned bound s =
    if afterPlus s ≠ [] ∧ (afterPlus s).all Char.isDigit ∧
        Nat.ofDigitChars 10 (afterPlus s) 0 < bound
    then some (Nat.ofDigitChars 10 (afterPlus s) 0) else none := by
  have hdigits : ∀ t : List Char, (if t = [] then none else
      (t.foldlM (fun n c => (toDigit 10 c).map (n * 10 + ·)) 0).filter (· < bound)) =
      if t ≠ [] ∧ t.all Char.isDigit ∧ Nat.ofDigitChars 10 t 0 < bound
      then some (Nat.ofDigitChars 10 t 0) else none := by
    intro t
    by_cases hnil : t = []
    · simp [hnil]
    · rw [if_neg hnil, foldlM_toDigit]
      by_cases hall : t.all Char.isDigit = true
      · by_cases hlt : Nat.ofDigitChars 10 t 0 < bound
        · rw [if_pos hall, if_pos ⟨hnil, hall, hlt⟩, Option.filter_some, decide_eq_true hlt,
            if_pos rfl]
        · rw [if_pos hall, if_neg (fun h => hlt h.2.2), Option.filter_some, decide_eq_false hlt]
          rfl
      · rw [if_neg hall, if_neg (fun h => hall h.2.1)]
        rfl
  unfold parseUnsigned
  split
  · next rest =>
    exact hdigits rest
  · next hplus =>
    have hafter : afterPlus s = s := by
      unfold afterPlus
      cases s with
      | nil => rfl
      | cons c s =>
        have hc : ¬ (c :: s).head? = some '+' := fun h => hplus s (by rw [Option.some.inj h])
        rw [if_neg hc]
    rw [hafter]
    exact hdigits s

/-! ### Digits with bits of their own -/

/-- A digit that the parser reads in any base: hexadecimal, or unknown. -/
def isBitDigit (c : Char) : Bool :=
  c.toLower = 'x' || c.toLower = 'z' || c.toLower = '?' || (toDigit 16 c.toLower).isSome

/-- What an unknown digit stands for. -/
def unknownBit (c : Char) : Option Bit :=
  if c.toLower = 'x' then some .x
  else if c.toLower = 'z' ∨ c.toLower = '?' then some .z
  else none

def bitOf (c : Char) (k : Nat) : Bit :=
  (unknownBit c).getD (ofBool (((toDigit 16 c.toLower).getD 0).testBit k))

theorem digitBit_eq (c : Char) (k : Nat) :
    digitBit c.toLower k = if isBitDigit c then some (bitOf c k) else none := by
  unfold digitBit isBitDigit bitOf unknownBit
  by_cases hx : c.toLower = 'x'
  · simp [hx]
  by_cases hz : c.toLower = 'z' ∨ c.toLower = '?'
  · rcases hz with hz | hz <;> simp [hz]
  · obtain ⟨hz, hq⟩ := not_or.mp hz
    cases hd : toDigit 16 c.toLower <;> simp [hx, hz, hq]

/-! ### Writing digits -/

section

variable {w n : Nat} {v : LogicVec} {pos : Nat}

/-- One digit goes into the next bits, as far as the width has room for them. -/
theorem writeDigit_eq (hn : 0 < n) (hw : v.width = w) (c : Char) : writeDigit n (v, pos) c =
    if w ≤ pos then some (v, pos)
    else if isBitDigit c then
      some (v.writeBits (min n (w - pos)) (pos + ·) (bitOf c), pos + min n (w - pos))
    else none := by
  have hwidth : ∀ k, (v.writeBits k (pos + ·) (bitOf c)).width = w := fun k => by
    rw [width_writeBits, hw]
  have hread : w ≤ pos ∨ isBitDigit c = true → ∀ m, (List.range m).foldlM (fun s k =>
      if s.2 ≥ s.1.width then some s
      else (digitBit c.toLower k).map fun b => (s.1.setBit s.2 b, s.2 + 1)) (v, pos) =
      some (v.writeBits (min m (w - pos)) (pos + ·) (bitOf c), pos + min m (w - pos)) := by
    intro hc m
    induction m with
    | zero => simp [LogicVec.writeBits]
    | succ m ih =>
      rw [List.range_succ, List.foldlM_append, ih, Option.bind_eq_bind, Option.bind_some,
        List.foldlM_cons]
      dsimp only
      rw [hwidth]
      by_cases hm : m < w - pos
      · have hlt : ¬ pos + min m (w - pos) ≥ w := by omega
        have hdigit : isBitDigit c = true := hc.resolve_left (by omega)
        have hmin : min m (w - pos) = m := by omega
        have hmin' : min (m + 1) (w - pos) = m + 1 := by omega
        rw [if_neg hlt, digitBit_eq, if_pos hdigit, hmin, hmin', writeBits_succ]
        rfl
      · have hge : pos + min m (w - pos) ≥ w ∨ w ≤ pos := by omega
        have hge' : pos + min m (w - pos) ≥ w := by omega
        have hmin : min (m + 1) (w - pos) = min m (w - pos) := by omega
        rw [if_pos hge', hmin]
        rfl
  unfold writeDigit
  by_cases hpos : w ≤ pos
  · have hzero : min n (w - pos) = 0 := by omega
    rw [hread (.inl hpos) n, if_pos hpos, hzero]
    rfl
  · rw [if_neg hpos]
    by_cases hc : isBitDigit c = true
    · rw [hread (.inr hc) n, if_pos hc]
    · obtain ⟨m, rfl⟩ : ∃ m, n = m + 1 := ⟨n - 1, by omega⟩
      have hlt : ¬ (v, pos).2 ≥ (v, pos).1.width := by
        rw [hw]
        exact hpos
      rw [List.range_succ_eq_map, List.foldlM_cons, if_neg hlt, digitBit_eq, if_neg hc, if_neg hc]
      rfl

/-- Every digit that has a place in the width is readable; the last digit comes first. -/
def Readable (n w : Nat) (digits : List Char) : Prop :=
  ∀ j < digits.length, n * j < w → isBitDigit (digits.getD j '0') = true

theorem readable_snoc {digits : List Char} {c : Char} : Readable n w (digits ++ [c]) ↔
    Readable n w digits ∧ (n * digits.length < w → isBitDigit c = true) := by
  constructor
  · intro h
    refine ⟨fun j hj hlt => ?_, fun hlt => ?_⟩
    · have hc := h j (by rw [List.length_append]; omega) hlt
      rwa [List.getD_append _ _ _ _ hj] at hc
    · have hc := h digits.length (by simp) hlt
      rwa [List.getD_append_right _ _ _ _ (Nat.le_refl _), Nat.sub_self] at hc
  · rintro ⟨hinit, hlast⟩ j hj hlt
    by_cases hlen : j < digits.length
    · rw [List.getD_append _ _ _ _ hlen]
      exact hinit j hlen hlt
    · have heq : j = digits.length := by
        rw [List.length_append, List.length_singleton] at hj
        omega
      subst heq
      rw [List.getD_append_right _ _ _ _ (Nat.le_refl _), Nat.sub_self]
      exact hlast hlt

/-- The bits that the digits give, and zeros above them. -/
structure Written (n w : Nat) (digits : List Char) (v : LogicVec) : Prop where
  canonical : Canonical v
  width : v.width = w
  bits : ∀ i < w, v.getBit i =
    if i < n * digits.length then bitOf (digits.getD (i / n) '0') (i % n) else .zero

/-- By induction on the digits read so far. -/
theorem exists_written (hn : 0 < n) {digits : List Char} (h : Readable n w digits) :
    ∃ v, digits.foldlM (writeDigit n) (LogicVec.zero w, 0) =
      some (v, min w (n * digits.length)) ∧ Written n w digits v := by
  induction digits using List.reverseRecOn with
  | nil =>
    refine ⟨LogicVec.zero w, ?_, canonical_zero w, width_zero w, fun i _ => ?_⟩
    · rw [List.length_nil, Nat.mul_zero, Nat.min_zero]
      rfl
    · rw [getBit_zero, List.length_nil, Nat.mul_zero, if_neg (Nat.not_lt_zero i)]
  | append_singleton digits c ih =>
    obtain ⟨hinit, hlast⟩ := readable_snoc.mp h
    obtain ⟨v, hfold, hv⟩ := ih hinit
    have hlength : n * (digits ++ [c]).length = n * digits.length + n := by
      rw [List.length_append, List.length_singleton, Nat.mul_add, Nat.mul_one]
    rw [List.foldlM_append, hfold, hlength, Option.bind_eq_bind, Option.bind_some,
      List.foldlM_cons, writeDigit_eq hn hv.width]
    by_cases hfull : w ≤ n * digits.length
    · have hmin : min w (n * digits.length) = w := by omega
      have hmin' : min w (n * digits.length + n) = w := by omega
      refine ⟨v, ?_, hv.canonical, hv.width, fun i hi => ?_⟩
      · rw [if_pos (by omega), hmin, hmin']
        rfl
      · rw [hv.bits i hi, hlength, if_pos (by omega), if_pos (by omega), List.getD_append]
        exact (Nat.div_lt_iff_lt_mul hn).mpr (by rw [Nat.mul_comm]; omega)
    · have hpos : min w (n * digits.length) = n * digits.length := by omega
      rw [hpos, if_neg hfull, if_pos (hlast (by omega))]
      refine ⟨v.writeBits (min n (w - n * digits.length)) (n * digits.length + ·) (bitOf c), ?_,
        canonical_writeBits hv.canonical _ _ _, ?_, fun i hi => ?_⟩
      · have hmin : n * digits.length + min n (w - n * digits.length) =
            min w (n * digits.length + n) := by omega
        rw [hmin]
        rfl
      · rw [width_writeBits, hv.width]
      · rw [getBit_writeBits hv.canonical, hv.width, hlength]
        by_cases hlow : i < n * digits.length
        · have hdiv : i / n < digits.length :=
            (Nat.div_lt_iff_lt_mul hn).mpr (by rw [Nat.mul_comm]; exact hlow)
          rw [if_neg (by omega), hv.bits i hi, if_pos hlow, if_pos (by omega),
            List.getD_append _ _ _ _ hdiv]
        · by_cases hin : i < n * digits.length + n
          · have hdiv : i / n = digits.length := by
              apply Nat.div_eq_of_lt_le
              · rw [Nat.mul_comm]
                omega
              · rw [Nat.mul_comm, Nat.mul_add, Nat.mul_one]
                omega
            have hmod : i % n = i - n * digits.length := by
              have h := Nat.div_add_mod i n
              rw [hdiv] at h
              omega
            rw [if_pos (by omega), if_pos hin, hdiv, hmod,
              List.getD_append_right _ _ _ _ (Nat.le_refl _), Nat.sub_self]
            rfl
          · rw [if_neg (by omega), hv.bits i hi, if_neg hlow, if_neg hin]

/-- An unreadable digit that has a place in the width is an error. -/
theorem foldlM_unreadable (hn : 0 < n) {digits : List Char} (h : ¬ Readable n w digits) :
    digits.foldlM (writeDigit n) (LogicVec.zero w, 0) = none := by
  induction digits using List.reverseRecOn with
  | nil => exact absurd (fun j hj => absurd hj (Nat.not_lt_zero j)) h
  | append_singleton digits c ih =>
    rw [readable_snoc, not_and_or] at h
    rw [List.foldlM_append]
    by_cases hinit : Readable n w digits
    · obtain ⟨hlt, hc⟩ : n * digits.length < w ∧ ¬ isBitDigit c = true := by
        simpa using h.resolve_left (not_not_intro hinit)
      obtain ⟨v, hfold, hv⟩ := exists_written hn hinit
      rw [hfold, Option.bind_eq_bind, Option.bind_some, List.foldlM_cons,
        writeDigit_eq hn hv.width, if_neg (by omega), if_neg hc]
      rfl
    · rw [ih hinit]
      rfl

end

/-! ### Literals -/

/-- Width, base in lower case, and digits. -/
structure Literal where
  width : Nat
  base : Char
  digits : List Char
  deriving DecidableEq

def radix (base : Char) : Option Nat :=
  if base = 'b' then some 2
  else if base = 'o' then some 8
  else if base = 'h' then some 16
  else none

namespace Literal

variable (l : Literal)

/-- Digits of the base or unknown ones; a decimal is all digits or a single unknown one. -/
def Legal : Prop :=
  if l.base = 'd' then
    l.digits.all Char.isDigit ∨ ∃ c, l.digits = [c] ∧ (unknownBit c).isSome
  else ∃ r, radix l.base = some r ∧
    ∀ c ∈ l.digits, (unknownBit c).isSome ∨ (toDigit r c.toLower).isSome

/-- What the leftmost digit stands for if it is unknown. -/
def leftmostUnknown : Option Bit := l.digits.head?.bind unknownBit

def bitsPer : Nat := (bitsPerDigit l.base).getD 0

/-- The bits that the literal states, with the fill above its digits. -/
def bit (i : Nat) : Bit :=
  if l.base = 'd' then
    l.leftmostUnknown.getD (ofBool ((Nat.ofDigitChars 10 l.digits 0).testBit i))
  else if i < l.bitsPer * l.digits.length then
    bitOf (l.digits.reverse.getD (i / l.bitsPer) '0') (i % l.bitsPer)
  else l.leftmostUnknown.getD .zero

/-- The vector of the literal's width with the literal's bits. -/
structure Denotes (v : LogicVec) : Prop where
  canonical : Canonical v
  width : v.width = l.width
  bits : ∀ i < l.width, v.getBit i = l.bit i

/-- A decimal is known and fits a word; the digits of another base reach the width if the leftmost
one is unknown. -/
def Covered : Prop :=
  if l.base = 'd' then
    l.digits.all Char.isDigit ∧ Nat.ofDigitChars 10 l.digits 0 < 0x10000000000000000
  else l.leftmostUnknown.isSome → l.width ≤ l.bitsPer * l.digits.length

/-- The parser reads the digits: of a decimal blanks and a plus sign are dropped, in another base
any hexadecimal digits will do, and only those with a place in the width are looked at. -/
def ReadableDigits : Prop :=
  if l.base = 'd' then
    afterPlus (trim l.digits) ≠ [] ∧ (afterPlus (trim l.digits)).all Char.isDigit ∧
      Nat.ofDigitChars 10 (afterPlus (trim l.digits)) 0 < 0x10000000000000000
  else ∃ n, bitsPerDigit l.base = some n ∧ Readable n l.width l.digits.reverse

end Literal

def apostrophe : Char := Char.ofNat 39

/-- The text is a well-formed sized literal: a positive size, a base with an optional sign marker,
and legal digits, with underscores anywhere. -/
structure IsLiteral (s : List Char) (l : Literal) : Prop where
  spelled : ∃ (size marker : List Char) (base : Char),
    s.filter (· ≠ '_') = size ++ apostrophe :: (marker ++ base :: l.digits) ∧
      size ≠ [] ∧ size.all Char.isDigit ∧ Nat.ofDigitChars 10 size 0 = l.width ∧
      (marker = [] ∨ marker = ['s'] ∨ marker = ['S']) ∧ base.toLower = l.base
  positive : 0 < l.width
  nonempty : l.digits ≠ []
  legal : l.Legal

/-- The parser yields a vector exactly for the well-formed literals, and the one they denote. -/
structure ParsesExactly (s : List Char) : Prop where
  sound : ∀ v, parseSized s = some v → ∃ l, IsLiteral s l ∧ l.Denotes v
  complete : (∃ l, IsLiteral s l) → (parseSized s).isSome

/-! ### What the parser takes apart -/

/-- The base in lower case, after an optional sign marker, and what follows it. -/
def baseAndDigits (rest : List Char) : Option (Char × List Char) :=
  let rest := if rest.head?.map Char.toLower = some 's' then rest.tail else rest
  rest.head?.map fun base => (base.toLower, rest.tail)

/-- Width below a bound, base and digits; blanks around the size and behind the apostrophe are
dropped, and the size may have a plus sign. -/
def header (bound : Nat) (s : List Char) : Option Literal :=
  (splitOnce apostrophe (s.filter (· ≠ '_'))).bind fun parts =>
    (parseUnsigned bound (trim parts.1)).bind fun width =>
      if width = 0 then none
      else (baseAndDigits (trim parts.2)).map fun part => ⟨width, part.1, part.2⟩

theorem parseSized_eq (s : List Char) : parseSized s =
    (header 0x100000000 s).bind fun l => parseDigits l.width l.base l.digits := by
  unfold parseSized header apostrophe
  cases splitOnce (Char.ofNat 39) (s.filter (· ≠ '_')) with
  | none => rfl
  | some parts =>
    obtain ⟨widthText, rest⟩ := parts
    dsimp only [Option.bind_some]
    cases parseUnsigned 0x100000000 (trim widthText) with
    | none => rfl
    | some width =>
      dsimp only [Option.bind_some]
      cases trim rest with
      | nil => split_ifs <;> rfl
      | cons base digits =>
        dsimp only
        by_cases hwidth : width = 0
        · rw [if_pos hwidth, if_pos hwidth]
          rfl
        · rw [if_neg hwidth, if_neg hwidth]
          unfold baseAndDigits
          by_cases hs : base.toLower = 's'
          · have hmarker : (base :: digits).head?.map Char.toLower = some 's' := congrArg some hs
            rw [if_pos hs, if_pos hmarker]
            cases digits <;> rfl
          · have hmarker : ¬ (base :: digits).head?.map Char.toLower = some 's' :=
              fun h => hs (Option.some.inj h)
            rw [if_neg hs, if_neg hmarker]
            rfl

/-! ### Literals are taken apart as they are spelled -/

theorem isSpace_iff (c : Char) : isSpace c = true ↔
    9 ≤ c.toNat ∧ c.toNat ≤ 13 ∨ 0x2000 ≤ c.toNat ∧ c.toNat ≤ 0x200A ∨ c.toNat = 0x20 ∨
      c.toNat = 0x85 ∨ c.toNat = 0xA0 ∨ c.toNat = 0x1680 ∨ c.toNat = 0x2028 ∨ c.toNat = 0x2029 ∨
      c.toNat = 0x202F ∨ c.toNat = 0x205F ∨ c.toNat = 0x3000 := by
  simp [isSpace, or_assoc]

theorem isSpace_toLower {c : Char} (h : isSpace c.toLower = false) : isSpace c = false := by
  rw [Bool.eq_false_iff] at h ⊢
  intro hc
  refine h ?_
  have hlower : c.toLower = c := by
    unfold Char.toLower
    rw [dif_neg]
    rintro ⟨hlo, hhi⟩
    have h₁ : 65 ≤ c.toNat := hlo
    have h₂ : c.toNat ≤ 90 := hhi
    have h₃ := (isSpace_iff c).mp hc
    omega
  rwa [hlower]

theorem isSpace_of_isDigit {c : Char} (h : c.isDigit = true) : isSpace c = false := by
  rw [Bool.eq_false_iff]
  intro hc
  have hrange := (isDigit_iff c).mp h
  have h₁ : 48 ≤ c.toNat := hrange.1
  have h₂ : c.toNat ≤ 57 := hrange.2
  have h₃ := (isSpace_iff c).mp hc
  omega

theorem isSpace_of_toDigit {r : Nat} {c : Char} (h : (toDigit r c).isSome) : isSpace c = false := by
  rw [Bool.eq_false_iff]
  intro hc
  have h₃ := (isSpace_iff c).mp hc
  unfold toDigit at h
  split_ifs at h with h₀ h₁ h₂
  · have hlo : 48 ≤ c.toNat := h₀.1
    have hhi : c.toNat ≤ 57 := h₀.2
    omega
  · have hlo : 97 ≤ c.toNat := h₁.1
    have hhi : c.toNat ≤ 122 := h₁.2
    omega
  · have hlo : 65 ≤ c.toNat := h₂.1
    have hhi : c.toNat ≤ 90 := h₂.2
    omega
  · cases h

theorem isSpace_of_unknown {c : Char} (h : (unknownBit c).isSome) : isSpace c = false := by
  apply isSpace_toLower
  unfold unknownBit at h
  split_ifs at h with hx hz
  · rw [hx]
    rfl
  · rcases hz with hz | hz <;> (rw [hz]; rfl)
  · cases h

/-- A text without blanks is trimmed already. -/
theorem trim_of_nonspace {s : List Char} (h : ∀ c ∈ s, isSpace c = false) : trim s = s := by
  have hdrop : ∀ {t : List Char}, (∀ c ∈ t, isSpace c = false) → t.dropWhile isSpace = t := by
    intro t ht
    cases t with
    | nil => rfl
    | cons c t => rw [List.dropWhile_cons, ht c List.mem_cons_self, if_neg Bool.false_ne_true]
  unfold trim
  rw [hdrop h, hdrop (fun c hc => h c (List.mem_reverse.mp hc)), List.reverse_reverse]

theorem splitOnce_append {sep : Char} {first rest : List Char} (h : sep ∉ first) :
    splitOnce sep (first ++ sep :: rest) = some (first, rest) := by
  have hall : ∀ c ∈ first, decide (c ≠ sep) = true :=
    fun c hc => decide_eq_true fun heq => h (heq ▸ hc)
  unfold splitOnce
  rw [List.dropWhile_append_of_pos hall, List.takeWhile_append_of_pos hall]
  simp

theorem afterPlus_of_isDigit {s : List Char} (h : s.all Char.isDigit = true) : afterPlus s = s := by
  unfold afterPlus
  cases s with
  | nil => rfl
  | cons c s =>
    rw [List.all_cons, Bool.and_eq_true] at h
    rw [if_neg]
    intro hplus
    rw [Option.some.inj hplus] at h
    cases h.1

theorem parseUnsigned_digits {s : List Char} (hnil : s ≠ []) (h : s.all Char.isDigit = true)
    (bound : Nat) : parseUnsigned bound (trim s) =
      if Nat.ofDigitChars 10 s 0 < bound then some (Nat.ofDigitChars 10 s 0) else none := by
  rw [trim_of_nonspace fun c hc => isSpace_of_isDigit (List.all_eq_true.mp h c hc),
    parseUnsigned_eq, afterPlus_of_isDigit h]
  by_cases hlt : Nat.ofDigitChars 10 s 0 < bound
  · rw [if_pos ⟨hnil, h, hlt⟩, if_pos hlt]
  · rw [if_neg (fun hc => hlt hc.2.2), if_neg hlt]

namespace Literal

variable {l : Literal}

theorem Legal.base (h : l.Legal) : l.base = 'd' ∨ ∃ r, radix l.base = some r := by
  unfold Legal at h
  split_ifs at h with hd
  · exact .inl hd
  · obtain ⟨r, hr, -⟩ := h
    exact .inr ⟨r, hr⟩

theorem Legal.nonspace (h : l.Legal) : ∀ c ∈ l.digits, isSpace c = false := by
  intro c hc
  unfold Legal at h
  split_ifs at h with hd
  · rcases h with hall | ⟨c', heq, hunknown⟩
    · exact isSpace_of_isDigit (List.all_eq_true.mp hall c hc)
    · rw [heq, List.mem_singleton] at hc
      rw [hc]
      exact isSpace_of_unknown hunknown
  · obtain ⟨r, -, hdigits⟩ := h
    rcases hdigits c hc with hunknown | hdigit
    · exact isSpace_of_unknown hunknown
    · exact isSpace_toLower (isSpace_of_toDigit hdigit)

theorem Legal.base_ne_s (h : l.Legal) : l.base ≠ 's' ∧ isSpace l.base = false := by
  rcases h.base with hd | ⟨r, hr⟩
  · rw [hd]
    exact ⟨by decide, rfl⟩
  · unfold radix at hr
    split_ifs at hr with hb ho hh
    · rw [hb]
      exact ⟨by decide, rfl⟩
    · rw [ho]
      exact ⟨by decide, rfl⟩
    · rw [hh]
      exact ⟨by decide, rfl⟩

end Literal

theorem baseAndDigits_eq {marker digits : List Char} {base : Char}
    (hmarker : marker = [] ∨ marker = ['s'] ∨ marker = ['S']) (hbase : base.toLower ≠ 's') :
    baseAndDigits (marker ++ base :: digits) = some (base.toLower, digits) := by
  unfold baseAndDigits
  rcases hmarker with rfl | rfl | rfl
  · have hno : ¬ ([] ++ base :: digits).head?.map Char.toLower = some 's' :=
      fun h => hbase (Option.some.inj h)
    rw [if_neg hno]
    rfl
  · rfl
  · rfl

/-- A literal whose size is below the bound has the width, base and digits that it spells. -/
theorem IsLiteral.header_eq {s : List Char} {l : Literal} (h : IsLiteral s l) {bound : Nat}
    (hlt : l.width < bound) : header bound s = some l := by
  obtain ⟨size, marker, base, htext, hsize, hdigits, hwidth, hmarker, hbase⟩ := h.spelled
  have happ : apostrophe ∉ size := fun hmem => by
    have hdigit := List.all_eq_true.mp hdigits _ hmem
    cases hdigit
  obtain ⟨hs, hspace⟩ := h.legal.base_ne_s
  have hrest : trim (marker ++ base :: l.digits) = marker ++ base :: l.digits := by
    apply trim_of_nonspace
    intro c hc
    rcases List.mem_append.mp hc with hc | hc
    · rcases hmarker with rfl | rfl | rfl
      · cases hc
      · rw [List.mem_singleton.mp hc]
        rfl
      · rw [List.mem_singleton.mp hc]
        rfl
    · rcases List.mem_cons.mp hc with rfl | hc
      · apply isSpace_toLower
        rw [hbase]
        exact hspace
      · exact h.legal.nonspace c hc
  unfold header
  rw [htext, splitOnce_append happ]
  dsimp only [Option.bind_some]
  rw [parseUnsigned_digits hsize hdigits, hwidth, if_pos hlt]
  dsimp only [Option.bind_some]
  rw [if_neg (Nat.ne_of_gt h.positive), hrest, baseAndDigits_eq hmarker (by rw [hbase]; exact hs),
    hbase]
  rfl

/-- A size that does not fit is no header. -/
theorem IsLiteral.header_none {s : List Char} {l : Literal} (h : IsLiteral s l) {bound : Nat}
    (hle : bound ≤ l.width) : header bound s = none := by
  obtain ⟨size, marker, base, htext, hsize, hdigits, hwidth, -⟩ := h.spelled
  have happ : apostrophe ∉ size := fun hmem => by
    have hdigit := List.all_eq_true.mp hdigits _ hmem
    cases hdigit
  unfold header
  rw [htext, splitOnce_append happ]
  dsimp only [Option.bind_some]
  rw [parseUnsigned_digits hsize hdigits, hwidth, if_neg (Nat.not_lt.mpr hle)]
  rfl

theorem IsLiteral.unique {s : List Char} {l l' : Literal} (h : IsLiteral s l)
    (h' : IsLiteral s l') : l = l' := by
  have heq : header (l.width + l'.width + 1) s = some l := h.header_eq (by omega)
  rw [h'.header_eq (by omega)] at heq
  exact (Option.some.inj heq).symm

/-! ### What the digits give -/

theorem bitsPerDigit_pos {base : Char} {n : Nat} (h : bitsPerDigit base = some n) : 0 < n := by
  unfold bitsPerDigit at h
  split_ifs at h
  all_goals
    cases h
    decide

/-- A digit of a smaller base is a hexadecimal one. -/
theorem toDigit_sixteen {r : Nat} (hr : r ≤ 16) {c : Char} (h : (toDigit r c).isSome) :
    (toDigit 16 c).isSome := by
  have hfilter :
      ∀ d : Nat, ((some d).filter (· < r)).isSome → ((some d).filter (· < 16)).isSome := by
    intro d hd
    have hlt : d < r := by
      rw [Option.filter_some] at hd
      split_ifs at hd with hc
      · exact of_decide_eq_true hc
      · cases hd
    rw [Option.filter_some, decide_eq_true (Nat.lt_of_lt_of_le hlt hr)]
    rfl
  unfold toDigit at h ⊢
  split_ifs at h ⊢
  · exact hfilter _ h
  · exact hfilter _ h
  · exact hfilter _ h
  · cases h

theorem isBitDigit_of_unknown {c : Char} (h : (unknownBit c).isSome) : isBitDigit c = true := by
  unfold unknownBit at h
  unfold isBitDigit
  split_ifs at h with hx hz
  · simp [hx]
  · rcases hz with hz | hz <;> simp [hz]
  · cases h

theorem parseDigits_of_ne {width : Nat} {base : Char} {digits : List Char} {n : Nat}
    (hd : base ≠ 'd') (hn : bitsPerDigit base = some n) (h : Readable n width digits.reverse) :
    ∃ v, parseDigits width base digits = some v ∧ Written n width digits.reverse v := by
  obtain ⟨v, hfold, hv⟩ := exists_written (bitsPerDigit_pos hn) h
  refine ⟨v, ?_, hv⟩
  unfold parseDigits
  rw [if_neg hd, hn, Option.bind_some, hfold]
  rfl

theorem parseDigits_decimal (width : Nat) (digits : List Char) : parseDigits width 'd' digits =
    if afterPlus (trim digits) ≠ [] ∧ (afterPlus (trim digits)).all Char.isDigit ∧
        Nat.ofDigitChars 10 (afterPlus (trim digits)) 0 < 0x10000000000000000
    then some (LogicVec.fromU64
      (BitVec.ofNat 64 (Nat.ofDigitChars 10 (afterPlus (trim digits)) 0)) width)
    else none := by
  unfold parseDigits
  rw [if_pos rfl, parseUnsigned_eq]
  split_ifs <;> rfl

namespace Literal

variable {l : Literal}

theorem isSome_parseDigits : (parseDigits l.width l.base l.digits).isSome ↔ l.ReadableDigits := by
  unfold ReadableDigits
  by_cases hd : l.base = 'd'
  · rw [if_pos hd, hd, parseDigits_decimal]
    split_ifs with h
    · exact iff_of_true rfl h
    · exact iff_of_false Bool.false_ne_true h
  · rw [if_neg hd]
    constructor
    · intro h
      unfold parseDigits at h
      rw [if_neg hd] at h
      cases hn : bitsPerDigit l.base with
      | none =>
        rw [hn] at h
        cases h
      | some n =>
        refine ⟨n, rfl, ?_⟩
        by_contra hread
        rw [hn, Option.bind_some, foldlM_unreadable (bitsPerDigit_pos hn) hread] at h
        cases h
    · rintro ⟨n, hn, hread⟩
      obtain ⟨v, hv, -⟩ := parseDigits_of_ne hd hn hread
      rw [hv]
      rfl

/-- Legal digits of a base other than ten are readable, and the base has its bits per digit. -/
theorem Legal.readable (h : l.Legal) (hd : l.base ≠ 'd') :
    bitsPerDigit l.base = some l.bitsPer ∧ Readable l.bitsPer l.width l.digits.reverse := by
  unfold Legal at h
  rw [if_neg hd] at h
  obtain ⟨r, hr, hdigits⟩ := h
  have hbase : bitsPerDigit l.base = some l.bitsPer ∧ r ≤ 16 := by
    unfold bitsPer bitsPerDigit
    unfold radix at hr
    split_ifs at hr ⊢ with hb ho hh
    all_goals
      cases hr
      exact ⟨rfl, by decide⟩
  refine ⟨hbase.1, fun j hj _ => ?_⟩
  have hmem : l.digits.reverse.getD j '0' ∈ l.digits := by
    rw [List.getD_eq_getElem _ _ hj]
    exact List.mem_reverse.mp (List.getElem_mem hj)
  rcases hdigits _ hmem with hunknown | hdigit
  · exact isBitDigit_of_unknown hunknown
  · have hsixteen := toDigit_sixteen hbase.2 hdigit
    unfold isBitDigit
    rw [hsixteen, Bool.or_true]

/-- The written bits are those of the literal if an unknown leftmost digit has no bits to fill. -/
theorem denotes_of_written {v : LogicVec} (hd : l.base ≠ 'd')
    (hv : Written l.bitsPer l.width l.digits.reverse v) : l.Denotes v ↔ l.Covered := by
  have hlength : l.digits.reverse.length = l.digits.length := List.length_reverse
  unfold Covered
  rw [if_neg hd]
  constructor
  · intro h hleft
    by_contra hshort
    have hbit := h.bits (l.bitsPer * l.digits.length) (by omega)
    rw [hv.bits _ (by omega), hlength, if_neg (Nat.lt_irrefl _)] at hbit
    unfold bit at hbit
    rw [if_neg hd, if_neg (Nat.lt_irrefl _)] at hbit
    unfold leftmostUnknown at hbit hleft
    cases hhead : l.digits.head? with
    | none =>
      rw [hhead] at hleft
      cases hleft
    | some c =>
      rw [hhead, Option.bind_some] at hbit hleft
      unfold unknownBit at hbit hleft
      split_ifs at hbit hleft
      · cases hbit
      · cases hbit
      · cases hleft
  · intro hcovered
    refine ⟨hv.canonical, hv.width, fun i hi => ?_⟩
    rw [hv.bits i hi, hlength]
    unfold bit
    rw [if_neg hd]
    by_cases hlow : i < l.bitsPer * l.digits.length
    · rw [if_pos hlow, if_pos hlow]
    · rw [if_neg hlow, if_neg hlow]
      cases hleft : l.leftmostUnknown with
      | none => rfl
      | some b =>
        have hle := hcovered (by rw [hleft]; rfl)
        omega

/-- A known decimal that fits a word gives its value modulo the width. -/
theorem denotes_fromU64 (hd : l.base = 'd') (hall : l.digits.all Char.isDigit = true)
    (hlt : Nat.ofDigitChars 10 l.digits 0 < 0x10000000000000000) :
    l.Denotes (LogicVec.fromU64 (BitVec.ofNat 64 (Nat.ofDigitChars 10 l.digits 0)) l.width) := by
  refine ⟨canonical_fromU64 _ _, width_fromU64 _ _, fun i hi => ?_⟩
  have hknown : l.leftmostUnknown = none := by
    unfold leftmostUnknown
    cases hdigits : l.digits with
    | nil => rfl
    | cons c digits =>
      rw [hdigits, List.all_cons, Bool.and_eq_true] at hall
      have hrange := (isDigit_iff c).mp hall.1
      have hle : c.toNat ≤ 57 := hrange.2
      have hlower : c.toLower = c := by
        unfold Char.toLower
        rw [dif_neg]
        rintro ⟨hlo, -⟩
        have h₁ : 65 ≤ c.toNat := hlo
        omega
      show unknownBit c = none
      unfold unknownBit
      rw [hlower]
      split_ifs with hx hz
      · rw [hx] at hall
        cases hall.1
      · rcases hz with hz | hz
        · rw [hz] at hall
          cases hall.1
        · rw [hz] at hall
          cases hall.1
      · rfl
  rw [getBit_fromU64 _ hi]
  unfold bit
  rw [if_pos hd, hknown, BitVec.getLsbD_ofNat]
  by_cases hword : i < 64
  · rw [decide_eq_true hword, Bool.true_and]
    rfl
  · have hbit : (Nat.ofDigitChars 10 l.digits 0).testBit i = false := by
      apply Nat.testBit_lt_two_pow
      calc Nat.ofDigitChars 10 l.digits 0 < 2 ^ 64 := hlt
        _ ≤ 2 ^ i := Nat.pow_le_pow_right (by decide) (by omega)
    rw [decide_eq_false hword, Bool.false_and, hbit]
    rfl

/-- The digits of a literal give what it denotes exactly when it is covered. -/
theorem exists_denotes (hlegal : l.Legal) (hnil : l.digits ≠ []) :
    (∃ v, parseDigits l.width l.base l.digits = some v ∧ l.Denotes v) ↔ l.Covered := by
  by_cases hd : l.base = 'd'
  · have hcovered : l.Covered ↔ l.digits.all Char.isDigit ∧
        Nat.ofDigitChars 10 l.digits 0 < 0x10000000000000000 := by
      unfold Covered
      rw [if_pos hd]
    rw [hcovered, hd, parseDigits_decimal, trim_of_nonspace hlegal.nonspace]
    constructor
    · rintro ⟨v, hv, -⟩
      split_ifs at hv with hparse
      · unfold Legal at hlegal
        rw [if_pos hd] at hlegal
        have hall : l.digits.all Char.isDigit = true := by
          rcases hlegal with hall | ⟨c, hc, hunknown⟩
          · exact hall
          · have hplus : c ≠ '+' := fun heq => by
              rw [heq] at hunknown
              cases hunknown
            have hafter : afterPlus l.digits = l.digits := by
              have hno : ¬ [c].head? = some '+' := fun heq => hplus (Option.some.inj heq)
              unfold afterPlus
              rw [hc, if_neg hno]
            rw [hafter] at hparse
            exact hparse.2.1
        rw [afterPlus_of_isDigit hall] at hparse
        exact ⟨hall, hparse.2.2⟩
    · rintro ⟨hall, hlt⟩
      rw [afterPlus_of_isDigit hall, if_pos ⟨hnil, hall, hlt⟩]
      exact ⟨_, rfl, denotes_fromU64 hd hall hlt⟩
  · obtain ⟨hn, hread⟩ := hlegal.readable hd
    obtain ⟨v, hparse, hwritten⟩ := parseDigits_of_ne hd hn hread
    rw [← denotes_of_written hd hwritten]
    constructor
    · rintro ⟨v', hparse', hv'⟩
      rw [hparse] at hparse'
      rwa [Option.some.inj hparse']
    · intro hv
      exact ⟨v, hparse, hv⟩

end Literal

/-- A covered literal whose size fits a word is parsed to what it denotes. -/
theorem IsLiteral.exists_parse {s : List Char} {l : Literal} (h : IsLiteral s l)
    (hlt : l.width < 0x100000000) (hcovered : l.Covered) :
    ∃ v, parseSized s = some v ∧ l.Denotes v := by
  rw [parseSized_eq, h.header_eq hlt, Option.bind_some]
  exact (Literal.exists_denotes h.legal h.nonempty).mpr hcovered

theorem IsLiteral.parse_none {s : List Char} {l : Literal} (h : IsLiteral s l)
    (hle : 0x100000000 ≤ l.width) : parseSized s = none := by
  rw [parseSized_eq, h.header_none hle]
  rfl

/-- A literal is parsed exactly when its size fits a word and its digits cover its bits; another
text when it has no header or a digit that the parser does not read. -/
theorem parsesExactly_iff (s : List Char) : ParsesExactly s ↔
    (∃ l, IsLiteral s l ∧ l.width < 0x100000000 ∧ l.Covered) ∨
      (¬ ∃ l, IsLiteral s l) ∧ ∀ l, header 0x100000000 s = some l → ¬ l.ReadableDigits := by
  by_cases hs : ∃ l, IsLiteral s l
  · obtain ⟨l, hl⟩ := hs
    have hexact : ParsesExactly s ↔ ∃ v, parseSized s = some v ∧ l.Denotes v := by
      constructor
      · intro h
        obtain ⟨v, hv⟩ := Option.isSome_iff_exists.mp (h.complete ⟨l, hl⟩)
        obtain ⟨l', hl', hdenotes⟩ := h.sound v hv
        rw [hl'.unique hl] at hdenotes
        exact ⟨v, hv, hdenotes⟩
      · rintro ⟨v, hv, hdenotes⟩
        refine ⟨fun v' hv' => ?_, fun _ => by rw [hv]; rfl⟩
        rw [hv] at hv'
        rw [← Option.some.inj hv']
        exact ⟨l, hl, hdenotes⟩
    have hcondition : ((∃ l, IsLiteral s l ∧ l.width < 0x100000000 ∧ l.Covered) ∨
        (¬ ∃ l, IsLiteral s l) ∧ ∀ l, header 0x100000000 s = some l → ¬ l.ReadableDigits) ↔
        l.width < 0x100000000 ∧ l.Covered := by
      constructor
      · rintro (⟨l', hl', h⟩ | ⟨hno, -⟩)
        · rwa [hl'.unique hl] at h
        · exact absurd ⟨l, hl⟩ hno
      · intro h
        exact .inl ⟨l, hl, h⟩
    rw [hexact, hcondition, parseSized_eq]
    by_cases hlt : l.width < 0x100000000
    · rw [hl.header_eq hlt, Option.bind_some, Literal.exists_denotes hl.legal hl.nonempty]
      exact ⟨fun h => ⟨hlt, h⟩, fun h => h.2⟩
    · rw [hl.header_none (Nat.not_lt.mp hlt)]
      constructor
      · rintro ⟨v, hv, -⟩
        cases hv
      · rintro ⟨h, -⟩
        exact absurd h hlt
  · have hrejected : ParsesExactly s ↔ parseSized s = none := by
      constructor
      · intro h
        cases hparse : parseSized s with
        | none => rfl
        | some v =>
          obtain ⟨l, hl, -⟩ := h.sound v hparse
          exact absurd ⟨l, hl⟩ hs
      · intro h
        refine ⟨fun v hv => ?_, fun hl => absurd hl hs⟩
        rw [h] at hv
        cases hv
    rw [hrejected, parseSized_eq]
    constructor
    · intro h
      refine .inr ⟨hs, fun l hl hread => ?_⟩
      rw [hl, Option.bind_some] at h
      rw [← Literal.isSome_parseDigits, h] at hread
      cases hread
    · rintro (⟨l, hl, -⟩ | ⟨-, h⟩)
      · exact absurd ⟨l, hl⟩ hs
      · cases hheader : header 0x100000000 s with
        | none => rfl
        | some l =>
          have hnot := h l hheader
          rw [← Literal.isSome_parseDigits, Option.not_isSome_iff_eq_none] at hnot
          exact hnot

/-- A lone unknown digit is not extended to the size. -/
theorem unknown_digit_not_extended : ¬ ParsesExactly ['8', apostrophe, 'b', 'x'] := by
  intro h
  have hparse : ∃ v, parseSized ['8', apostrophe, 'b', 'x'] = some v ∧ v.getBit 7 = .zero := by
    decide
  have hliteral : IsLiteral ['8', apostrophe, 'b', 'x'] ⟨8, 'b', ['x']⟩ := by
    refine ⟨⟨['8'], [], 'b', rfl, List.cons_ne_nil _ _, rfl, rfl, .inl rfl, rfl⟩, by decide,
      List.cons_ne_nil _ _, 2, rfl, fun c hc => ?_⟩
    rw [List.mem_singleton.mp hc]
    exact .inl rfl
  obtain ⟨v, hv, hbit⟩ := hparse
  obtain ⟨l, hl, hdenotes⟩ := h.sound v hv
  rw [hl.unique hliteral] at hdenotes
  have hx := hdenotes.bits 7 (by decide)
  rw [hbit] at hx
  cases hx

end Eevee.Core.SizedLiterals
