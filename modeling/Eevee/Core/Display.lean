/- Printed vectors and sized binary literals are inverse to each other. -/

import Eevee.Core.SizedLiterals

set_option autoImplicit false
set_option relaxedAutoImplicit false

namespace Eevee.Core.Display

open Eevee.Core.Logic
open Eevee.Core.Alu
open Eevee.Core.SizedLiterals

def toChar : Bit → Char
  | .zero => '0'
  | .one => '1'
  | .x => 'x'
  | .z => 'z'

/-- The bits of a vector in print, the highest first. -/
def bitChars (v : LogicVec) : List Char :=
  (List.range v.width).reverse.map fun i => toChar (v.getBit i)

/-- Width, apostrophe, base and bits. -/
def display (v : LogicVec) : List Char :=
  (Nat.repr v.width).toList ++ apostrophe :: 'b' :: bitChars v

/-- A sized binary literal with as many digits as its size says. -/
structure BinaryLiteral (s size digits : List Char) : Prop where
  spelled : ∃ (marker : List Char) (base : Char),
    s.filter (· ≠ '_') = size ++ apostrophe :: (marker ++ base :: digits) ∧
      (marker = [] ∨ marker = ['s'] ∨ marker = ['S']) ∧ base.toLower = 'b'
  size_nonempty : size ≠ []
  size_digits : size.all Char.isDigit
  positive : 0 < Nat.ofDigitChars 10 size 0
  length : digits.length = Nat.ofDigitChars 10 size 0
  legal : ∀ c ∈ digits, (unknownBit c).isSome ∨ (toDigit 2 c.toLower).isSome

/-- The literal in lower case, without underscores or sign marker. -/
def spelling (size digits : List Char) : List Char :=
  size ++ apostrophe :: 'b' :: digits.map Char.toLower

/-- A digit as it is printed. -/
def printed (c : Char) : Char := if c.toLower = '?' then 'z' else c.toLower

/-! ### Single digits -/

theorem bitOf_toChar (b : Bit) : bitOf (toChar b) 0 = b := by
  cases b <;> decide

theorem legal_toChar (b : Bit) :
    (unknownBit (toChar b)).isSome ∨ (toDigit 2 (toChar b).toLower).isSome := by
  cases b <;> decide

theorem toDigit_two {c : Char} (h : (toDigit 2 c).isSome) : c = '0' ∨ c = '1' := by
  have hfilter : ∀ d : Nat, ((some d).filter (· < 2)).isSome → d < 2 := by
    intro d hd
    rw [Option.filter_some] at hd
    split_ifs at hd with hlt
    · exact of_decide_eq_true hlt
    · cases hd
  unfold toDigit at h
  split_ifs at h with hd hl hu
  · have hlt : c.toNat - 48 < 2 := hfilter _ h
    have hlo : 48 ≤ c.toNat := hd.1
    have hc : c.toNat = 48 ∨ c.toNat = 49 := by omega
    rcases hc with hc | hc
    · exact .inl (Char.toNat_inj.mp hc)
    · exact .inr (Char.toNat_inj.mp hc)
  · have hlt := hfilter _ h
    omega
  · have hlt := hfilter _ h
    omega
  · cases h

theorem isSome_unknownBit {c : Char} (h : (unknownBit c).isSome) :
    c.toLower = 'x' ∨ c.toLower = 'z' ∨ c.toLower = '?' := by
  unfold unknownBit at h
  split_ifs at h with hx hz
  · exact .inl hx
  · exact .inr hz
  · cases h

/-- A legal binary digit gives the bit that is printed as it. -/
theorem toChar_bitOf {c : Char} (h : (unknownBit c).isSome ∨ (toDigit 2 c.toLower).isSome) :
    toChar (bitOf c 0) = printed c := by
  unfold printed bitOf unknownBit
  rcases h with hunknown | hdigit
  · rcases isSome_unknownBit hunknown with hc | hc | hc <;> (rw [hc]; rfl)
  · rcases toDigit_two hdigit with hc | hc <;> (rw [hc]; rfl)

/-! ### Literals of one digit for each bit -/

theorem length_bitChars (v : LogicVec) : (bitChars v).length = v.width := by
  rw [bitChars, List.length_map, List.length_reverse, List.length_range]

theorem getElem_bitChars (v : LogicVec) {i : Nat} (hi : i < (bitChars v).length) :
    (bitChars v)[i] = toChar (v.getBit (v.width - 1 - i)) := by
  simp [bitChars]

theorem bit_binary {width : Nat} {digits : List Char} {i : Nat} (hi : i < digits.length) :
    (Literal.mk width 'b' digits).bit i = bitOf (digits.reverse.getD i '0') 0 := by
  have hper : (Literal.mk width 'b' digits).bitsPer = 1 := rfl
  unfold Literal.bit
  rw [hper, Nat.one_mul, if_neg (by decide : ¬ 'b' = 'd'), if_pos hi, Nat.div_one, Nat.mod_one]

theorem covered_binary {width : Nat} {digits : List Char} (h : digits.length = width) :
    (Literal.mk width 'b' digits).Covered := by
  unfold Literal.Covered
  rw [if_neg (by decide : ¬ 'b' = 'd')]
  intro _
  show width ≤ 1 * digits.length
  omega

theorem BinaryLiteral.isLiteral {s size digits : List Char} (h : BinaryLiteral s size digits) :
    IsLiteral s ⟨Nat.ofDigitChars 10 size 0, 'b', digits⟩ := by
  obtain ⟨marker, base, htext, hmarker, hbase⟩ := h.spelled
  refine ⟨⟨size, marker, base, htext, h.size_nonempty, h.size_digits, rfl, hmarker, hbase⟩,
    h.positive, ?_, 2, rfl, h.legal⟩
  intro hnil
  have hlength := h.length
  rw [show digits = [] from hnil, List.length_nil] at hlength
  have hpos := h.positive
  omega

/-- The literal is printed with the size as a plain number. -/
theorem BinaryLiteral.display_eq {s size digits : List Char} (h : BinaryLiteral s size digits)
    {v : LogicVec} (hv : (Literal.mk (Nat.ofDigitChars 10 size 0) 'b' digits).Denotes v) :
    display v = (Nat.repr (Nat.ofDigitChars 10 size 0)).toList ++
      apostrophe :: 'b' :: digits.map printed := by
  have hwidth : v.width = digits.length := by
    rw [hv.width, h.length]
  have hbits : bitChars v = digits.map printed := by
    apply List.ext_getElem
    · rw [length_bitChars, List.length_map, hwidth]
    intro i hi hi'
    rw [getElem_bitChars, List.getElem_map]
    rw [length_bitChars] at hi
    have hbit := hv.bits (v.width - 1 - i) (by rw [← hv.width]; omega)
    rw [bit_binary (by omega), List.getD_eq_getElem _ _ (by rw [List.length_reverse]; omega),
      List.getElem_reverse] at hbit
    have hindex : digits.length - 1 - (v.width - 1 - i) = i := by omega
    simp only [hindex] at hbit
    rw [hbit, toChar_bitOf (h.legal _ (List.getElem_mem _))]
  unfold display
  rw [hbits, hv.width]

/-! ### Printed vectors -/

theorem binaryLiteral_display {v : LogicVec} (hpos : 0 < v.width) :
    BinaryLiteral (display v) (Nat.repr v.width).toList (bitChars v) := by
  have hvalue : Nat.ofDigitChars 10 (Nat.repr v.width).toList 0 = v.width := by
    rw [Nat.toList_repr, Nat.ofDigitChars_ten_toDigits]
  have hplain : ∀ c ∈ display v, decide (c ≠ '_') = true := by
    intro c hc
    apply decide_eq_true
    rintro rfl
    unfold display at hc
    rcases List.mem_append.mp hc with hc | hc
    · rw [Nat.toList_repr] at hc
      exact Nat.underscore_not_in_toDigits hc
    · rw [List.mem_cons, List.mem_cons] at hc
      rcases hc with hc | hc | hc
      · cases hc
      · cases hc
      · obtain ⟨i, -, hi⟩ := List.mem_map.mp hc
        cases hb : v.getBit i <;> (rw [hb] at hi; cases hi)
  refine ⟨⟨[], 'b', ?_, .inl rfl, rfl⟩, ?_, ?_, ?_, ?_, fun c hc => ?_⟩
  · rw [List.filter_eq_self.mpr hplain]
    rfl
  · rw [Nat.toList_repr]
    exact Nat.toDigits_ne_nil
  · rw [Nat.toList_repr, List.all_eq_true]
    exact fun c hc => Nat.isDigit_of_mem_toDigits (by decide) (by decide) hc
  · rw [hvalue]
    exact hpos
  · rw [hvalue, length_bitChars]
  · obtain ⟨i, -, rfl⟩ := List.mem_map.mp hc
    exact legal_toChar _

theorem denotes_display {v : LogicVec} (hv : Canonical v) :
    (Literal.mk v.width 'b' (bitChars v)).Denotes v := by
  refine ⟨hv, rfl, fun i hi => ?_⟩
  have hlength := length_bitChars v
  have hi' : i < v.width := hi
  rw [bit_binary (by omega), List.getD_eq_getElem _ _ (by rw [List.length_reverse]; omega),
    List.getElem_reverse, getElem_bitChars, bitOf_toChar]
  congr 1
  omega

/-- The parser reads a printed vector back. -/
theorem parse_display {v : LogicVec} (hv : Canonical v) (hpos : 0 < v.width)
    (hlt : v.width < 0x100000000) : parseSized (display v) = some v := by
  have hliteral := (binaryLiteral_display hpos).isLiteral
  rw [Nat.toList_repr, Nat.ofDigitChars_ten_toDigits] at hliteral
  obtain ⟨w, hw, hdenotes⟩ := hliteral.exists_parse hlt (covered_binary (length_bitChars v))
  have hv' := denotes_display hv
  have heq : w = v := canonical_ext hdenotes.canonical hv
    (by rw [hdenotes.width, hv'.width]) fun i hi => by
      have hi' : i < v.width := by
        rw [hdenotes.width] at hi
        exact hi
      rw [hdenotes.bits i hi', hv'.bits i hi']
  rw [hw, heq]

/-- Printing and parsing are inverse; an unknown digit is printed as the bit it stands for and the
size without leading zeros. -/
theorem display_inverse_parse :
    (∀ v : LogicVec, Canonical v → 0 < v.width → v.width < 0x100000000 →
      ∃ w, parseSized (display v) = some w ∧ w.eqCase v = true) ∧
    ∀ s size digits : List Char, BinaryLiteral s size digits →
      ((parseSized s).isSome ↔ Nat.ofDigitChars 10 size 0 < 0x100000000) ∧
      ∀ v, parseSized s = some v → display v =
        (Nat.repr (Nat.ofDigitChars 10 size 0)).toList ++
          apostrophe :: 'b' :: digits.map printed := by
  constructor
  · intro v hv hpos hlt
    exact ⟨v, parse_display hv hpos hlt, (eqCase_iff hv hv).mpr rfl⟩
  · intro s size digits h
    have hliteral := h.isLiteral
    by_cases hlt : Nat.ofDigitChars 10 size 0 < 0x100000000
    · obtain ⟨v, hv, hdenotes⟩ := hliteral.exists_parse hlt (covered_binary h.length)
      rw [hv]
      refine ⟨iff_of_true rfl hlt, fun v' hv' => ?_⟩
      rw [← Option.some.inj hv']
      exact h.display_eq hdenotes
    · rw [hliteral.parse_none (Nat.not_lt.mp hlt)]
      refine ⟨iff_of_false Bool.false_ne_true hlt, fun v hv => ?_⟩
      cases hv

theorem display_inverse_parse_across_words :
    (∃ w, parseSized (display (LogicVec.zero 65)) = some w ∧ w.eqCase (LogicVec.zero 65) = true) ∧
    ((parseSized ['0', '2', apostrophe, 'S', 'B', '_', 'X', '?']).isSome ↔
      Nat.ofDigitChars 10 ['0', '2'] 0 < 0x100000000) := by
  have hzero : (LogicVec.zero 65).width = 65 := width_zero 65
  refine ⟨display_inverse_parse.1 _ (canonical_zero 65) (by rw [hzero]; decide)
    (by rw [hzero]; decide), (display_inverse_parse.2 _ ['0', '2'] ['X', '?'] ?_).1⟩
  refine ⟨⟨['S'], 'B', rfl, .inr (.inr rfl), rfl⟩, List.cons_ne_nil _ _, rfl, by decide, rfl,
    fun c hc => .inl ?_⟩
  rcases List.mem_cons.mp hc with rfl | hc
  · rfl
  · rw [List.mem_singleton.mp hc]
    rfl

/-- A question mark is not given back. -/
theorem question_mark_not_displayed : ¬ ∀ (s size digits : List Char) (v : LogicVec),
    BinaryLiteral s size digits → parseSized s = some v → display v = spelling size digits := by
  intro h
  have hliteral : BinaryLiteral ['1', apostrophe, 'b', '?'] ['1'] ['?'] :=
    ⟨⟨[], 'b', rfl, .inl rfl, rfl⟩, List.cons_ne_nil _ _, rfl, by decide, rfl, fun c hc => .inl (by
      rw [List.mem_singleton.mp hc]
      rfl)⟩
  have hz : ∃ v, parseSized ['1', apostrophe, 'b', '?'] = some v ∧
      display v ≠ spelling ['1'] ['?'] := by
    decide
  obtain ⟨v, hv, hne⟩ := hz
  exact hne (h _ _ _ v hliteral hv)

end Eevee.Core.Display
