/- The arguments of a macro call: pieces between the separators outside groups and strings. -/

import Mathlib.Data.List.Basic
import Mathlib.Tactic.Common
import Eevee.Fe.Literals
import Eevee.Fe.Prefixes

set_option autoImplicit false
set_option relaxedAutoImplicit false

namespace Eevee.Fe.Splitting

open Eevee.Fe.Scanning
open Eevee.Fe.Literals
open Eevee.Fe.Prefixes

/-! ### Readings -/

inductive Bracket
  | paren | square | brace
  deriving DecidableEq

def Bracket.opening : Bracket → Char
  | paren => '('
  | square => '['
  | brace => '{'

def Bracket.closing : Bracket → Char
  | paren => ')'
  | square => ']'
  | brace => '\x7d'

/-- A character that neither opens nor closes a group and starts no string. -/
def isPlain (c : Char) : Bool := c ≠ '"' && !opensGroup c && !closesGroup c

/-- A text read as string literals, groups in matching brackets and other characters. -/
inductive Reading
  | nil
  | char (c : Char) (plain : isPlain c = true) (rest : Reading)
  | literal (mid : Text) (content : Content mid) (rest : Reading)
  | group (bracket : Bracket) (inner rest : Reading)

namespace Reading

def text : Reading → Text
  | nil => []
  | char c _ rest => c :: rest.text
  | literal mid _ rest => '"' :: mid ++ '"' :: rest.text
  | group bracket inner rest => bracket.opening :: inner.text ++ bracket.closing :: rest.text

/-- Puts something before the first piece. -/
def atFirst (f : Reading → Reading) : List Reading → List Reading
  | [] => []
  | piece :: pieces => f piece :: pieces

/-- Cut at the separators that stand outside literals and groups. -/
def pieces (sep : Char) : Reading → List Reading
  | nil => [nil]
  | char c plain rest =>
    if c = sep then nil :: rest.pieces sep else atFirst (char c plain) (rest.pieces sep)
  | literal mid content rest => atFirst (literal mid content) (rest.pieces sep)
  | group bracket inner rest => atFirst (group bracket inner) (rest.pieces sep)

/-- No separator outside literals and groups. -/
def Whole (sep : Char) : Reading → Prop
  | nil => True
  | char c _ rest => c ≠ sep ∧ rest.Whole sep
  | literal _ _ rest => rest.Whole sep
  | group _ _ rest => rest.Whole sep

/-- Literals and groups are never cut, and every separator outside them is a cut. -/
theorem whole_pieces (sep : Char) (r : Reading) : ∀ piece ∈ r.pieces sep, piece.Whole sep := by
  have hfirst :
    ∀ {f : Reading → Reading}, (∀ piece : Reading, piece.Whole sep → (f piece).Whole sep) →
      ∀ {rs : List Reading}, (∀ piece ∈ rs, piece.Whole sep) →
        ∀ piece ∈ atFirst f rs, piece.Whole sep := by
    intro f hf rs h piece hmem
    cases rs with
    | nil => cases hmem
    | cons first others =>
      rcases List.mem_cons.mp hmem with rfl | hmem
      · exact hf first (h first List.mem_cons_self)
      · exact h piece (List.mem_cons_of_mem _ hmem)
  induction r with
  | nil =>
    intro piece hmem
    rw [List.mem_singleton.mp hmem]
    trivial
  | char c plain rest ih =>
    rw [pieces]
    split
    · intro piece hmem
      rcases List.mem_cons.mp hmem with rfl | hmem
      · trivial
      · exact ih piece hmem
    · next hne => exact hfirst (f := char c plain) (fun piece h => ⟨hne, h⟩) ih
  | literal mid content rest ih => exact hfirst (f := literal mid content) (fun piece h => h) ih
  | group bracket inner rest _ ih => exact hfirst (f := group bracket inner) (fun piece h => h) ih

end Reading

/-! ### Splitting a text that has a reading -/

section

variable (sep : Char) (piece rest : Text)

theorem topLevelPieces_plain {c : Char} (h : isPlain c = true) (depth : Int) :
    topLevelPieces sep depth false piece (c :: rest) =
      if c = sep ∧ depth = 0 then piece.reverse :: topLevelPieces sep depth false [] rest
      else topLevelPieces sep depth false (c :: piece) rest := by
  simp only [isPlain, Bool.and_eq_true, Bool.not_eq_true', decide_eq_true_eq] at h
  obtain ⟨⟨hquote, hopen⟩, hclose⟩ := h
  rw [topLevelPieces, if_neg hquote, hopen, hclose]
  rfl

theorem topLevelPieces_opening (bracket : Bracket) (depth : Int) :
    topLevelPieces sep depth false piece (bracket.opening :: rest) =
      topLevelPieces sep (depth + 1) false (bracket.opening :: piece) rest := by
  cases bracket <;> rfl

theorem topLevelPieces_closing (bracket : Bracket) (depth : Int) :
    topLevelPieces sep depth false piece (bracket.closing :: rest) =
      topLevelPieces sep (depth - 1) false (bracket.closing :: piece) rest := by
  cases bracket <;> rfl

/-- A group is passed over. -/
theorem topLevelPieces_inside (r : Reading) {depth : Int} (hdepth : 0 < depth) :
    topLevelPieces sep depth false piece (r.text ++ rest) =
      topLevelPieces sep depth false (r.text.reverse ++ piece) rest := by
  induction r generalizing depth piece rest with
  | nil => rfl
  | char c plain r ih =>
    have hnot : ¬ (c = sep ∧ depth = 0) := fun h => by omega
    rw [Reading.text, List.cons_append, topLevelPieces_plain _ _ _ plain, if_neg hnot,
      ih _ _ hdepth]
    simp
  | literal mid content r ih =>
    have htext : (Reading.literal mid content r).text ++ rest =
        '"' :: mid ++ '"' :: (r.text ++ rest) := by simp [Reading.text]
    rw [htext, topLevelPieces_literal content, ih _ _ hdepth]
    simp [Reading.text]
  | group bracket inner r ihinner ih =>
    have htext : (Reading.group bracket inner r).text ++ rest =
        bracket.opening :: (inner.text ++ bracket.closing :: (r.text ++ rest)) := by
      simp [Reading.text]
    rw [htext, topLevelPieces_opening, ihinner _ _ (by omega), topLevelPieces_closing,
      Int.add_sub_cancel, ih _ _ hdepth]
    simp [Reading.text]

theorem topLevelPieces_group (bracket : Bracket) (inner : Reading) :
    topLevelPieces sep 0 false piece
        (bracket.opening :: inner.text ++ bracket.closing :: rest) =
      topLevelPieces sep 0 false
        ((bracket.opening :: inner.text ++ [bracket.closing]).reverse ++ piece) rest := by
  rw [List.cons_append, topLevelPieces_opening, topLevelPieces_inside _ _ _ _ (by omega),
    topLevelPieces_closing]
  simp

end

/-- The first piece with what was read before it. -/
def prepend (before : Text) : List Text → List Text
  | [] => []
  | first :: others => (before ++ first) :: others

theorem prepend_atFirst {f : Reading → Reading} {t : Text}
    (hf : ∀ r : Reading, (f r).text = t ++ r.text) (before : Text) (rs : List Reading) :
    prepend before ((Reading.atFirst f rs).map Reading.text) =
      prepend (before ++ t) (rs.map Reading.text) := by
  cases rs with
  | nil => rfl
  | cons first others =>
    simp only [Reading.atFirst, List.map_cons, prepend]
    rw [hf, List.append_assoc]

theorem prepend_nil {texts : List Text} : prepend [] texts = texts := by
  cases texts <;> rfl

theorem topLevelPieces_reading (sep : Char) (piece : Text) (r : Reading) :
    topLevelPieces sep 0 false piece r.text =
      prepend piece.reverse ((r.pieces sep).map Reading.text) := by
  induction r generalizing piece with
  | nil => simp [Reading.text, Reading.pieces, topLevelPieces, prepend]
  | char c plain r ih =>
    rw [Reading.text, topLevelPieces_plain _ _ _ plain, Reading.pieces]
    by_cases hsep : c = sep
    · rw [if_pos ⟨hsep, rfl⟩, if_pos hsep, ih, List.reverse_nil, prepend_nil]
      simp [prepend, Reading.text]
    · rw [if_neg (fun h => hsep h.1), if_neg hsep, ih, List.reverse_cons,
        prepend_atFirst (t := [c]) (fun r => by simp [Reading.text])]
  | literal mid content r ih =>
    rw [Reading.text, topLevelPieces_literal content, ih, Reading.pieces,
      prepend_atFirst (t := '"' :: mid ++ ['"']) (fun r => by simp [Reading.text])]
    congr 1
    simp
  | group bracket inner r _ ih =>
    rw [Reading.text, topLevelPieces_group, ih, Reading.pieces,
      prepend_atFirst (t := bracket.opening :: inner.text ++ [bracket.closing])
        (fun r => by simp [Reading.text])]
    congr 1
    simp

theorem splitTopLevel_reading (sep : Char) (r : Reading) :
    splitTopLevel r.text sep = (r.pieces sep).map Reading.text := by
  unfold splitTopLevel
  rw [topLevelPieces_reading, List.reverse_nil, prepend_nil]

/-! ### Joining the pieces -/

theorem intercalate_cons {sep : Char} {first : Text} {others : List Text} (h : others ≠ []) :
    [sep].intercalate (first :: others) = first ++ sep :: [sep].intercalate others := by
  obtain ⟨second, others, rfl⟩ := List.exists_cons_of_ne_nil h
  simp [List.intercalate_cons_cons]

theorem topLevelPieces_ne_nil (sep : Char) (depth : Int) (inStr : Bool) (piece text : Text) :
    topLevelPieces sep depth inStr piece text ≠ [] := by
  induction depth, inStr, piece, text using topLevelPieces.induct sep with
  | case1 => simp [topLevelPieces]
  | case2 depth piece c rest ih =>
    rw [topLevelPieces]
    exact ih
  | case3 depth piece c rest hescape ih =>
    rw [topLevelPieces]
    · exact ih
    · exact hescape
  | case4 depth piece rest ih =>
    rw [topLevelPieces, if_pos rfl]
    exact ih
  | case5 depth piece c rest hquote hopen ih =>
    rw [topLevelPieces, if_neg hquote, if_pos hopen]
    exact ih
  | case6 depth piece c rest hquote hopen hclose ih =>
    rw [topLevelPieces, if_neg hquote, if_neg hopen, if_pos hclose]
    exact ih
  | case7 depth piece c rest hquote hopen hclose hsep ih =>
    rw [topLevelPieces, if_neg hquote, if_neg hopen, if_neg hclose, if_pos hsep]
    exact List.cons_ne_nil _ _
  | case8 depth piece c rest hquote hopen hclose hsep ih =>
    rw [topLevelPieces, if_neg hquote, if_neg hopen, if_neg hclose, if_neg hsep]
    exact ih

/-- Nothing is lost: the piece being read and the rest of the text come back. -/
theorem intercalate_topLevelPieces (sep : Char) (depth : Int) (inStr : Bool) (piece text : Text) :
    [sep].intercalate (topLevelPieces sep depth inStr piece text) = piece.reverse ++ text := by
  induction depth, inStr, piece, text using topLevelPieces.induct sep with
  | case1 => simp [topLevelPieces]
  | case2 depth piece c rest ih =>
    rw [topLevelPieces, ih]
    simp
  | case3 depth piece c rest hescape ih =>
    rw [topLevelPieces, ih]
    · simp
    · exact hescape
  | case4 depth piece rest ih =>
    rw [topLevelPieces, if_pos rfl, ih]
    simp
  | case5 depth piece c rest hquote hopen ih =>
    rw [topLevelPieces, if_neg hquote, if_pos hopen, ih]
    simp
  | case6 depth piece c rest hquote hopen hclose ih =>
    rw [topLevelPieces, if_neg hquote, if_neg hopen, if_pos hclose, ih]
    simp
  | case7 depth piece c rest hquote hopen hclose hsep ih =>
    rw [topLevelPieces, if_neg hquote, if_neg hopen, if_neg hclose, if_pos hsep,
      intercalate_cons (topLevelPieces_ne_nil _ _ _ _ _), ih, hsep.1]
    rfl
  | case8 depth piece c rest hquote hopen hclose hsep ih =>
    rw [topLevelPieces, if_neg hquote, if_neg hopen, if_neg hclose, if_neg hsep, ih]
    simp

/-! ### Balanced texts -/

/-- The text ends inside a string literal, read from inside one or not. -/
def endsInString : Bool → Text → Bool
  | inStr, [] => inStr
  | true, '\\' :: _ :: rest => endsInString true rest
  | true, c :: rest => endsInString (c ≠ '"') rest
  | false, c :: rest => endsInString (c = '"') rest

/-- The bracket that a character opens. -/
def bracketOf (c : Char) : Option Bracket :=
  if c = '(' then some .paren else if c = '[' then some .square
  else if c = '\x7b' then some .brace else none

/-- The brackets outside string literals close in the order they were opened; the stack holds those
still open, innermost first. -/
def balanced : List Bracket → Bool → Text → Bool
  | stack, _, [] => stack.isEmpty
  | stack, true, '\\' :: _ :: rest => balanced stack true rest
  | stack, true, c :: rest => balanced stack (c ≠ '"') rest
  | stack, false, c :: rest =>
    if c = '"' then balanced stack true rest
    else if (bracketOf c).isSome then balanced ((bracketOf c).toList ++ stack) false rest
    else if closesGroup c then
      (stack.head?.map Bracket.closing = some c) && balanced stack.tail false rest
    else balanced stack false rest

/-- What ends outside a string literal has the quote that closes it. -/
theorem exists_literal {text : Text} (h : endsInString true text = false) :
    ∃ mid rest, Content mid ∧ text = mid ++ '"' :: rest ∧ endsInString false rest = false ∧
      ∀ stack, balanced stack true text = balanced stack false rest := by
  generalize hmode : true = inStr at h
  induction inStr, text using endsInString.induct with
  | case1 inStr =>
    rw [endsInString] at h
    rw [h] at hmode
    cases hmode
  | case2 c rest ih =>
    rw [endsInString] at h
    obtain ⟨mid, rest, hmid, rfl, hend, hbal⟩ := ih rfl h
    refine ⟨'\\' :: c :: mid, rest, .escape c hmid, rfl, hend, fun stack => ?_⟩
    rw [balanced]
    exact hbal stack
  | case3 c rest hescape ih =>
    rw [endsInString] at h
    · by_cases hquote : c = '"'
      · subst hquote
        refine ⟨[], rest, .nil, rfl, h, fun stack => ?_⟩
        rw [balanced]
        · rfl
        · exact hescape
      · have hstr : decide (c ≠ '"') = true := decide_eq_true hquote
        rw [hstr] at h ih
        obtain ⟨mid, rest, hmid, rfl, hend, hbal⟩ := ih rfl h
        have hback : c ≠ '\\' := by
          intro hback
          obtain ⟨d, more, hmore⟩ := List.exists_cons_of_ne_nil
            (show mid ++ '"' :: rest ≠ [] by simp)
          exact hescape d more hback hmore
        refine ⟨c :: mid, rest, .char hquote hback hmid, rfl, hend, fun stack => ?_⟩
        rw [balanced, hstr]
        · exact hbal stack
        · exact hescape
    · exact hescape
  | case4 => cases hmode

/-- The parenthesis that a scan closes does not stand in a string literal. -/
theorem endsInString_of_closes {depth offset : Nat} {inStr : Bool} {text post : Text}
    (h : matchingParen depth offset inStr (text ++ ')' :: post) = some (offset + text.length)) :
    endsInString inStr text = false := by
  induction inStr, text using endsInString.induct generalizing depth offset with
  | case1 inStr =>
    cases inStr with
    | false => rfl
    | true =>
      rw [List.nil_append, matchingParen] at h
      · have hle := (matchingParen_spec h).1.1
        rw [List.length_nil] at hle
        omega
      · simp
      · simp
  | case2 c rest ih =>
    rw [endsInString]
    rw [List.cons_append, List.cons_append, matchingParen] at h
    have hlength : offset + ('\\' :: c :: rest).length = offset + 2 + rest.length := by
      simp only [List.length_cons]
      omega
    rw [hlength] at h
    exact ih h
  | case3 c rest hescape ih =>
    have hlength : offset + (c :: rest).length = offset + 1 + rest.length := by
      rw [List.length_cons]
      omega
    rw [endsInString]
    · by_cases hback : c = '\\'
      · have hrest : rest = [] := by
          cases rest with
          | nil => rfl
          | cons d rest => exact absurd rfl (hescape d rest hback)
        rw [hback, hrest, List.cons_append, List.nil_append, matchingParen] at h
        have hle := (matchingParen_spec h).1.1
        rw [List.length_singleton] at hle
        omega
      · rw [hlength] at h
        by_cases hquote : c = '"'
        · subst hquote
          rw [List.cons_append, matchingParen] at h
          exact ih h
        · have hstr : decide (c ≠ '"') = true := decide_eq_true hquote
          rw [List.cons_append, matchingParen] at h
          · rw [hstr] at ih ⊢
            exact ih h
          · intro d more hc _
            exact hback hc
          · exact hquote
    · exact hescape
  | case4 c rest ih =>
    have hlength : offset + (c :: rest).length = offset + 1 + rest.length := by
      rw [List.length_cons]
      omega
    rw [endsInString]
    rw [hlength, List.cons_append] at h
    by_cases hquote : c = '"'
    · subst hquote
      rw [matchingParen] at h
      exact ih h
    · have hstr : decide (c = '"') = false := decide_eq_false hquote
      rw [hstr] at ih ⊢
      by_cases hopen : c = '('
      · subst hopen
        rw [matchingParen] at h
        exact ih h
      by_cases hclose : c = ')'
      · subst hclose
        rw [matchingParen] at h
        split at h
        · have hoff := Option.some.inj h
          omega
        · exact ih h
      · rw [matchingParen] at h
        · exact ih h
        · exact hquote
        · exact hopen
        · exact hclose

/-! ### Texts between parentheses -/

theorem bracketOf_eq_some {c : Char} {bracket : Bracket} (h : bracketOf c = some bracket) :
    c = bracket.opening := by
  unfold bracketOf at h
  split_ifs at h <;> (obtain rfl := Option.some.inj h; assumption)

theorem isPlain_of {c : Char} (hquote : c ≠ '"') (hopen : bracketOf c = none)
    (hclose : closesGroup c = false) : isPlain c = true := by
  have hno : opensGroup c = false := by
    unfold bracketOf at hopen
    unfold opensGroup
    split_ifs at hopen with h₁ h₂ h₃
    simp [h₁, h₂, h₃]
  simp [isPlain, hquote, hno, hclose]

/-- What remains after the innermost open bracket is closed. -/
def Closed (stack : List Bracket) (text : Text) : Prop :=
  match stack with
  | [] => ∃ r : Reading, r.text = text
  | bracket :: stack => ∃ (r : Reading) (rest : Text), text = r.text ++ bracket.closing :: rest ∧
      endsInString false rest = false ∧ balanced stack false rest = true

/-- Something that is read as a whole in front of a closed text. -/
theorem Closed.cons {stack : List Bracket} {text t : Text} {f : Reading → Reading}
    (hf : ∀ r : Reading, (f r).text = t ++ r.text) (h : Closed stack text) :
    Closed stack (t ++ text) := by
  cases stack with
  | nil =>
    obtain ⟨r, rfl⟩ := h
    exact ⟨f r, hf r⟩
  | cons bracket stack =>
    obtain ⟨r, rest, rfl, hrest⟩ := h
    exact ⟨f r, rest, by rw [hf, List.append_assoc], hrest⟩

/-- By induction on the length: a balanced text is read up to the bracket that closes the innermost
open one, or to its end. -/
theorem closed_of_balanced (n : Nat) : ∀ (stack : List Bracket) (text : Text), text.length < n →
    endsInString false text = false → balanced stack false text = true → Closed stack text := by
  induction n with
  | zero => exact fun _ _ hlt => absurd hlt (Nat.not_lt_zero _)
  | succ n ih =>
    intro stack text hlt hend hbal
    cases text with
    | nil =>
      rw [balanced, List.isEmpty_iff] at hbal
      subst hbal
      exact ⟨.nil, rfl⟩
    | cons c text =>
      have hlength : text.length < n := by
        rw [List.length_cons] at hlt
        omega
      rw [endsInString] at hend
      rw [balanced] at hbal
      by_cases hquote : c = '"'
      · subst hquote
        rw [if_pos rfl] at hbal
        obtain ⟨mid, rest, hmid, rfl, hend, hstack⟩ := exists_literal hend
        rw [hstack] at hbal
        have hrest : rest.length < n := by
          rw [List.length_append, List.length_cons] at hlength
          omega
        have hclosed := (ih stack rest hrest hend hbal).cons (f := .literal mid hmid)
          (t := '"' :: mid ++ ['"']) fun r => by simp [Reading.text]
        rwa [List.append_assoc, List.singleton_append] at hclosed
      · rw [decide_eq_false hquote] at hend
        rw [if_neg hquote] at hbal
        cases hopen : bracketOf c with
        | some bracket =>
          rw [hopen, if_pos Option.isSome_some] at hbal
          obtain ⟨inner, rest, rfl, hend, hbal⟩ := ih (bracket :: stack) text hlength hend hbal
          have hrest : rest.length < n := by
            rw [List.length_append, List.length_cons] at hlength
            omega
          have hclosed := (ih stack rest hrest hend hbal).cons (f := .group bracket inner)
            (t := bracket.opening :: inner.text ++ [bracket.closing])
            fun r => by simp [Reading.text]
          rwa [List.append_assoc, List.singleton_append, ← bracketOf_eq_some hopen] at hclosed
        | none =>
          rw [hopen, if_neg (by simp)] at hbal
          by_cases hclose : closesGroup c = true
          · rw [if_pos hclose] at hbal
            rw [Bool.and_eq_true, decide_eq_true_eq] at hbal
            cases stack with
            | nil => cases hbal.1
            | cons bracket stack =>
              have hc : bracket.closing = c := Option.some.inj hbal.1
              exact ⟨.nil, text, by rw [← hc]; rfl, hend, hbal.2⟩
          · rw [if_neg hclose] at hbal
            have hplain := isPlain_of hquote hopen (Bool.eq_false_iff.mpr hclose)
            exact (ih stack text hlength hend hbal).cons (f := .char c hplain) (t := [c])
              fun r => rfl

/-- Joining the pieces gives the text back. A balanced text between a parenthesis and the one that
the scan for arguments finds can be read as literals, groups and other characters, and read so the
pieces are those between the separators among the other characters. -/
theorem split_respects_nesting (text : Text) (sep : Char) :
    [sep].intercalate (splitTopLevel text sep) = text ∧
    ∀ post, findMatchingParen ('(' :: text ++ ')' :: post) = some (text.length + 1) →
      balanced [] false text = true →
        (∃ r : Reading, r.text = text) ∧ ∀ r : Reading, r.text = text →
          splitTopLevel text sep = (r.pieces sep).map Reading.text ∧
            ∀ piece ∈ r.pieces sep, piece.Whole sep := by
  refine ⟨intercalate_topLevelPieces sep 0 false [] text, fun post hclose hbal => ⟨?_, ?_⟩⟩
  · have hscan : matchingParen 1 1 false (text ++ ')' :: post) = some (1 + text.length) := by
      rw [Nat.add_comm]
      exact hclose
    exact closed_of_balanced (text.length + 1) [] text (Nat.lt_succ_self _)
      (endsInString_of_closes hscan) hbal
  · rintro r rfl
    exact ⟨splitTopLevel_reading sep r, Reading.whole_pieces sep r⟩

/-- A separator in a string literal inside a group. -/
theorem split_respects_nesting_call :
    [','].intercalate (splitTopLevel "f(x,\",\"),[y]".toList ',') = "f(x,\",\"),[y]".toList ∧
    ∃ r : Reading, r.text = "f(x,\",\"),[y]".toList ∧
      splitTopLevel "f(x,\",\"),[y]".toList ',' = (r.pieces ',').map Reading.text := by
  obtain ⟨hjoin, hread⟩ := split_respects_nesting "f(x,\",\"),[y]".toList ','
  obtain ⟨⟨r, hr⟩, hpieces⟩ := hread ";".toList (by decide) (by decide)
  exact ⟨hjoin, r, hr, (hpieces r hr).1⟩

example : splitTopLevel "f(x,\",\"),[y]".toList ',' =
    ["f(x,\",\")".toList, "[y]".toList] := by decide

end Eevee.Fe.Splitting
