/- Strings: length and index count bytes, substrings count characters. -/

import Mathlib.Data.List.Basic
import Mathlib.Tactic.Common
import Mathlib.Tactic.SplitIfs
import Eevee.Core.Numeric
import Eevee.Ir.Objects

set_option autoImplicit false
set_option relaxedAutoImplicit false

namespace Eevee.Ir.Strings

open Eevee.Core.Logic
open Eevee.Core.Numeric
open Eevee.Ir.Objects

/-! ### The instructions -/

/-- The characters of a string; any other value counts as the empty string. -/
def chars : Val → List Char
  | .str text => text.toList
  | _ => []

def utf8 (text : List Char) : List UInt8 := text.flatMap String.utf8EncodeChar

/-- The number of bytes, in 32 bits. -/
def stringLen (src : Val) : PackedVec := .fromU64 (BitVec.ofNat 64 (utf8 (chars src)).length) 32

/-- The byte at the index, or 0. -/
def stringIndex (src : Val) (idx : PackedVec) : PackedVec :=
  .fromU64 (BitVec.ofNat 64 ((utf8 (chars src))[idx.toU64]?.getD 0).toNat) 8

/-- The increment of a word; none if it overflows. -/
def increment (n : Nat) : Option Nat := if n + 1 < 2 ^ 64 then some (n + 1) else none

/-- The characters from `lo` to `hi`, as far as there are any; none if the bound overflows. -/
def stringSub (src : Val) (lo hi : PackedVec) : Option Val :=
  (increment hi.toU64).map fun next =>
    let lo := min lo.toU64 (chars src).length
    let hi := min next (chars src).length
    .str (String.ofList (((chars src).take (max hi lo)).drop lo))

/-! ### Agreement -/

/-- A position as an index vector. -/
def position (n : Nat) : PackedVec := .fromU64 (BitVec.ofNat 64 n) 64

/-- Length, index and substring agree on the positions of a string, at two index vectors. -/
structure Agrees (s : String) (i j : PackedVec) : Prop where
  length : toNat (stringLen (.str s)) = s.toList.length
  index : ∀ (k : PackedVec) (c : Char), s.toList[toNat k]? = some c →
    toNat (stringIndex (.str s) k) = c.toNat
  outside : s.toList.length ≤ toNat i → toNat (stringIndex (.str s) i) = 0
  sub : toNat i ≤ toNat j → toNat j < s.toList.length →
    ∃ t, stringSub (.str s) i j = some (.str t) ∧
      toNat (stringLen (.str t)) = toNat j - toNat i + 1 ∧
      t.toList.map Char.toNat = (List.range (toNat j - toNat i + 1)).map fun n =>
        toNat (stringIndex (.str s) (position (toNat i + n)))
  total : (stringSub (.str s) i j).isSome

/-- All characters have one byte, and their number fits the length. -/
structure Ascii (text : List Char) : Prop where
  chars : ∀ c ∈ text, c.toNat < 128
  length : text.length < 2 ^ 32

/-! ### Bytes -/

theorem utf8_cons (c : Char) (text : List Char) :
    utf8 (c :: text) = String.utf8EncodeChar c ++ utf8 text := List.flatMap_cons

theorem utf8Size_eq_one (c : Char) : c.utf8Size = 1 ↔ c.toNat < 128 := by
  rw [Char.utf8Size_eq_one_iff, UInt32.le_iff_toNat_le]
  have hval : c.toNat = c.val.toNat := rfl
  have hbound : (127 : UInt32).toNat = 127 := rfl
  omega

theorem utf8Size_le_two {c : Char} (h : c.toNat < 256) : c.utf8Size ≤ 2 := by
  by_cases hone : c.utf8Size = 1
  · omega
  · have htwo : c.utf8Size = 2 := by
      rw [utf8Size_eq_one] at hone
      rw [Char.utf8Size_eq_two_iff, UInt32.le_iff_toNat_le, UInt32.lt_iff_toNat_lt]
      have hval : c.toNat = c.val.toNat := rfl
      have hlo : (127 : UInt32).toNat = 127 := rfl
      have hhi : (0x7ff : UInt32).toNat = 0x7ff := rfl
      omega
    omega

/-- The bytes of ASCII characters are their codes. -/
theorem utf8_ascii {text : List Char} (h : ∀ c ∈ text, c.toNat < 128) :
    utf8 text = text.map fun c => UInt8.ofNat c.toNat := by
  induction text with
  | nil => rfl
  | cons c text ih =>
    have hc := (utf8Size_eq_one c).mpr (h c List.mem_cons_self)
    rw [utf8_cons, String.utf8EncodeChar_eq_singleton hc, List.map_cons,
      ih fun d hd => h d (List.mem_cons_of_mem c hd)]
    rfl

/-- Characters of at most two bytes give at most twice as many bytes, and as many only if each has
one. -/
theorem length_utf8 {text : List Char} (h : ∀ c ∈ text, c.toNat < 256) :
    (utf8 text).length ≤ 2 * text.length ∧ text.length ≤ (utf8 text).length ∧
      ((utf8 text).length = text.length → ∀ c ∈ text, c.toNat < 128) := by
  induction text with
  | nil => exact ⟨Nat.le_refl _, Nat.le_refl _, fun _ c hc => absurd hc List.not_mem_nil⟩
  | cons c text ih =>
    obtain ⟨hle, hge, hall⟩ := ih fun d hd => h d (List.mem_cons_of_mem c hd)
    have hsize := utf8Size_le_two (h c List.mem_cons_self)
    have hpos := c.utf8Size_pos
    rw [utf8_cons, List.length_append, String.length_utf8EncodeChar, List.length_cons]
    refine ⟨by omega, by omega, fun heq d hd => ?_⟩
    rcases List.mem_cons.mp hd with rfl | hd
    · exact (utf8Size_eq_one d).mp (by omega)
    · exact hall (by omega) d hd

/-! ### What the instructions yield -/

theorem toNat_stringLen (src : Val) :
    toNat (stringLen src) = (utf8 (chars src)).length % 2 ^ 32 := by
  unfold stringLen
  rw [toNat_fromU64, BitVec.toNat_ofNat]
  exact Nat.mod_mod_of_dvd _ (by decide)

theorem toNat_stringIndex (src : Val) (idx : PackedVec) :
    toNat (stringIndex src idx) = ((utf8 (chars src))[toNat idx % 2 ^ 64]?.getD 0).toNat := by
  unfold stringIndex
  rw [toNat_fromU64, BitVec.toNat_ofNat, toU64_eq]
  have hlt := ((utf8 (chars src))[toNat idx % 2 ^ 64]?.getD 0).toNat_lt
  omega

theorem toNat_position {n : Nat} (h : n < 2 ^ 64) : toNat (position n) = n := by
  unfold position
  rw [toNat_fromU64, BitVec.toNat_ofNat]
  omega

theorem isSome_stringSub (src : Val) (lo hi : PackedVec) :
    (stringSub src lo hi).isSome ↔ toNat hi % 2 ^ 64 ≠ 2 ^ 64 - 1 := by
  unfold stringSub increment
  rw [Option.isSome_map, toU64_eq]
  have hlt := Nat.mod_lt (toNat hi) (Nat.two_pow_pos 64)
  split_ifs with h
  · exact iff_of_true rfl (by omega)
  · exact iff_of_false Bool.false_ne_true (by omega)

/-- Below the length and the largest word a substring has all its characters. -/
theorem stringSub_eq {s : String} {lo hi : PackedVec} (hle : toNat lo ≤ toNat hi)
    (hlt : toNat hi < s.toList.length) (hword : toNat hi < 2 ^ 64 - 1) :
    stringSub (.str s) lo hi = some (.str (String.ofList
      ((s.toList.drop (toNat lo)).take (toNat hi - toNat lo + 1)))) := by
  unfold stringSub increment chars
  rw [toU64_eq, toU64_eq, Nat.mod_eq_of_lt (by omega), Nat.mod_eq_of_lt (by omega),
    if_pos (by omega), Option.map_some]
  have hlo : min (toNat lo) s.toList.length = toNat lo := by omega
  have hhi : min (toNat hi + 1) s.toList.length = toNat hi + 1 := by omega
  have hmax : max (toNat hi + 1) (toNat lo) = toNat hi + 1 := by omega
  have hcount : toNat hi + 1 - toNat lo = toNat hi - toNat lo + 1 := by omega
  dsimp only
  rw [hlo, hhi, hmax, List.drop_take, hcount]

section

variable {s : String}

/-- An index in an ASCII string is read modulo the word size. -/
theorem stringIndex_ascii (h : ∀ c ∈ s.toList, c.toNat < 128) (k : PackedVec) :
    toNat (stringIndex (.str s) k) =
      (s.toList[toNat k % 2 ^ 64]?.map Char.toNat).getD 0 := by
  rw [toNat_stringIndex]
  unfold chars
  rw [utf8_ascii h, List.getElem?_map]
  cases hc : s.toList[toNat k % 2 ^ 64]? with
  | none => rfl
  | some c =>
    have hlt := h c (List.mem_of_getElem? hc)
    show (UInt8.ofNat c.toNat).toNat = c.toNat
    rw [UInt8.toNat_ofNat']
    omega

theorem stringLen_ascii (h : Ascii s.toList) :
    toNat (stringLen (.str s)) = s.toList.length := by
  rw [toNat_stringLen]
  unfold chars
  rw [utf8_ascii h.chars, List.length_map, Nat.mod_eq_of_lt h.length]

/-- Length and index agree on all positions of ASCII strings only. -/
theorem ascii_of_positions (hlength : toNat (stringLen (.str s)) = s.toList.length)
    (hindex : ∀ (k : PackedVec) (c : Char), s.toList[toNat k]? = some c →
      toNat (stringIndex (.str s) k) = c.toNat) : Ascii s.toList := by
  have hlt : s.toList.length < 2 ^ 32 := by
    rw [← hlength, toNat_stringLen]
    exact Nat.mod_lt _ (Nat.two_pow_pos 32)
  have hbyte : ∀ c ∈ s.toList, c.toNat < 256 := by
    intro c hc
    obtain ⟨n, hn, hget⟩ := List.getElem_of_mem hc
    have hread := hindex (position n) c (by
      rw [toNat_position (by omega), List.getElem?_eq_getElem hn, hget])
    rw [← hread, toNat_stringIndex]
    exact UInt8.toNat_lt _
  obtain ⟨hle, hge, hall⟩ := length_utf8 hbyte
  refine ⟨hall ?_, hlt⟩
  rw [toNat_stringLen] at hlength
  have hmod : (utf8 s.toList).length % 2 ^ 32 = s.toList.length := hlength
  omega

/-- In an ASCII string a substring consists of what its indices read. -/
theorem sub_ascii (h : Ascii s.toList) {i j : PackedVec} (hle : toNat i ≤ toNat j)
    (hlt : toNat j < s.toList.length) :
    ∃ t, stringSub (.str s) i j = some (.str t) ∧
      toNat (stringLen (.str t)) = toNat j - toNat i + 1 ∧
      t.toList.map Char.toNat = (List.range (toNat j - toNat i + 1)).map fun n =>
        toNat (stringIndex (.str s) (position (toNat i + n))) := by
  have hbound := h.length
  have hsub : Ascii ((s.toList.drop (toNat i)).take (toNat j - toNat i + 1)) :=
    ⟨fun c hc => h.chars c (List.mem_of_mem_drop (List.mem_of_mem_take hc)), by
      rw [List.length_take, List.length_drop]
      omega⟩
  refine ⟨_, stringSub_eq hle hlt (by omega), ?_, ?_⟩
  · rw [stringLen_ascii (by rwa [String.toList_ofList]), String.toList_ofList, List.length_take,
      List.length_drop]
    omega
  · rw [String.toList_ofList]
    apply List.ext_getElem
    · rw [List.length_map, List.length_map, List.length_take, List.length_drop, List.length_range]
      omega
    intro n hn hn'
    rw [List.length_map, List.length_range] at hn'
    rw [List.getElem_map, List.getElem_map, List.getElem_range, stringIndex_ascii h.chars,
      toNat_position (by omega), Nat.mod_eq_of_lt (by omega), List.getElem_take,
      List.getElem_drop, List.getElem?_eq_getElem (by omega)]
    rfl

end

/-- The operations agree on ASCII strings whose length fits 32 bits; an index of more than 64 bits
must not come back into the string, and the upper bound must not be the largest word. -/
theorem agrees_iff (s : String) (i j : PackedVec) : Agrees s i j ↔
    Ascii s.toList ∧
      (toNat i < 2 ^ 64 ∨ ∀ c, s.toList[toNat i % 2 ^ 64]? = some c → c.toNat = 0) ∧
      toNat j % 2 ^ 64 ≠ 2 ^ 64 - 1 := by
  constructor
  · intro h
    have hascii := ascii_of_positions h.length h.index
    refine ⟨hascii, ?_, (isSome_stringSub _ i j).mp h.total⟩
    by_cases hword : toNat i < 2 ^ 64
    · exact .inl hword
    · refine .inr fun c hc => ?_
      have hlength := hascii.length
      have hzero := h.outside (by omega)
      rw [stringIndex_ascii hascii.chars, hc] at hzero
      exact hzero
  · rintro ⟨hascii, houtside, hbound⟩
    have hlength := hascii.length
    refine ⟨stringLen_ascii hascii, fun k c hc => ?_, fun hge => ?_, fun hle hlt => ?_,
      (isSome_stringSub _ i j).mpr hbound⟩
    · have hk := (List.getElem?_eq_some_iff.mp hc).1
      rw [stringIndex_ascii hascii.chars, Nat.mod_eq_of_lt (by omega), hc]
      rfl
    · rw [stringIndex_ascii hascii.chars]
      rcases houtside with hword | hnul
      · rw [Nat.mod_eq_of_lt hword, List.getElem?_eq_none hge]
        rfl
      · cases hc : s.toList[toNat i % 2 ^ 64]? with
        | none => rfl
        | some c => exact hnul c hc
    · exact sub_ascii hascii hle hlt

/-- One character of two bytes has length 2. -/
theorem length_of_accented :
    ¬ Agrees (String.ofList [Char.ofNat 0xE9]) (position 0) (position 0) := by
  intro h
  have hlength := h.length
  rw [toNat_stringLen] at hlength
  unfold chars at hlength
  rw [String.toList_ofList] at hlength
  cases hlength

end Eevee.Ir.Strings
