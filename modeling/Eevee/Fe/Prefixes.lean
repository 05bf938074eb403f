/- How the scanners of a source read a text that goes on: each part is read by itself. -/

import Mathlib.Data.List.Basic
import Mathlib.Data.List.TakeWhile
import Mathlib.Tactic.Common
import Eevee.Fe.Literals

set_option autoImplicit false
set_option relaxedAutoImplicit false

namespace Eevee.Fe.Prefixes

open Eevee.Fe.Scanning
open Eevee.Fe.Preprocess
open Eevee.Fe.Literals

/-! ### The passes before the lines -/

theorem normalizeNewlines_append {before : Text} (h : before.getLast? ≠ some '\r') (after : Text) :
    normalizeNewlines (before ++ after) = normalizeNewlines before ++ normalizeNewlines after := by
  induction before using normalizeNewlines.induct with
  | case1 rest ih =>
    have hrest : rest.getLast? ≠ some '\r' := by
      cases rest with
      | nil => simp
      | cons c rest => simpa [List.getLast?_cons_cons] using h
    simp only [List.cons_append, normalizeNewlines, ih hrest]
  | case2 rest hne ih =>
    cases rest with
    | nil => exact absurd rfl h
    | cons c rest =>
      have hc : c ≠ '\n' := fun hc => hne rest (hc ▸ rfl)
      rw [List.getLast?_cons_cons] at h
      have hr := ih h
      rw [List.cons_append, List.cons_append, normalizeNewlines, normalizeNewlines]
      · rw [List.cons_append] at hr
        rw [hr]
        rfl
      · rintro _ ⟨⟩
        exact hc rfl
      · rintro _ ⟨⟩
        exact hc rfl
  | case3 c rest hcrlf hcr ih =>
    have hc : c ≠ '\r' := by
      rintro rfl
      exact hcr rfl
    have hrest : rest.getLast? ≠ some '\r' := by
      cases rest with
      | nil => simp
      | cons d rest => simpa [List.getLast?_cons_cons] using h
    rw [List.cons_append, normalizeNewlines, normalizeNewlines, ih hrest]
    · rfl
    all_goals simp [hc]
  | case4 => rfl

theorem joinContinuations_append {before : Text} (h : before.getLast? ≠ some '\\') (after : Text) :
    joinContinuations (before ++ after) = joinContinuations before ++ joinContinuations after := by
  induction before using joinContinuations.induct with
  | case1 rest ih =>
    have hrest : rest.getLast? ≠ some '\\' := by
      cases rest with
      | nil => simp
      | cons c rest => simpa [List.getLast?_cons_cons] using h
    simp only [List.cons_append, joinContinuations, ih hrest]
  | case2 c rest hne ih =>
    have hrest : rest.getLast? ≠ some '\\' := by
      cases rest with
      | nil => simp
      | cons d rest => simpa [List.getLast?_cons_cons] using h
    have hjoin : ∀ more, c = '\\' → rest ++ after ≠ '\n' :: more := by
      rintro more rfl hmore
      cases rest with
      | nil => exact h rfl
      | cons d rest =>
        obtain ⟨rfl, -⟩ := List.cons.inj hmore
        exact hne rest rfl rfl
    rw [List.cons_append, joinContinuations, joinContinuations, ih hrest]
    · rfl
    · exact fun more hc hmore => hne more hc hmore
    · exact fun more hc hmore => hjoin more hc hmore
  | case3 => rfl

/-- The scan of comments stands in code between the two texts, and the place is in no comment
mark. -/
def BetweenCode : Mode → Text → Text → Prop
  | .code, [], _ => True
  | _, [], _ => False
  | .str, '\\' :: _ :: rest, after => BetweenCode .str rest after
  | .str, '"' :: rest, after => BetweenCode .code rest after
  | .str, _ :: rest, after => BetweenCode .str rest after
  | .code, '"' :: rest, after => BetweenCode .str rest after
  | .code, '/' :: '/' :: rest, after => BetweenCode .line rest after
  | .code, '/' :: '*' :: rest, after => BetweenCode .block rest after
  | .code, ['/'], after => after.head? ≠ some '/' ∧ after.head? ≠ some '*'
  | .code, _ :: rest, after => BetweenCode .code rest after
  | .line, '\n' :: rest, after => BetweenCode .code rest after
  | .line, _ :: rest, after => BetweenCode .line rest after
  | .block, '*' :: '/' :: rest, after => BetweenCode .code rest after
  | .block, _ :: rest, after => BetweenCode .block rest after

theorem stripComments_append {mode : Mode} {before after : Text}
    (h : BetweenCode mode before after) : stripComments mode (before ++ after) =
      stripComments mode before ++ stripComments .code after := by
  induction mode, before, after using BetweenCode.induct with
  | case1 after => rw [stripComments]; rfl
  | case2 mode after hmode =>
    cases mode with
    | code => exact absurd rfl hmode
    | str | line | block => cases h
  | case3 c rest after ih =>
    rw [BetweenCode] at h
    simp [stripComments, ih h]
  | case4 rest after ih =>
    rw [BetweenCode] at h
    simp [stripComments, ih h]
  | case5 c rest after hescape hquote ih =>
    have hrest : BetweenCode .str rest after := by
      rw [BetweenCode] at h
      · exact h
      · exact hescape
      · exact hquote
    cases rest with
    | nil => cases hrest
    | cons d rest =>
      have hc : c ≠ '\\' := fun hc => hescape d rest hc rfl
      rw [List.cons_append] at ih
      simp [stripComments, hc, ih hrest]
  | case6 rest after ih =>
    rw [BetweenCode] at h
    simp [stripComments, ih h]
  | case7 rest after ih =>
    rw [BetweenCode] at h
    simp [stripComments, ih h]
  | case8 rest after ih =>
    rw [BetweenCode] at h
    simp [stripComments, ih h]
  | case9 after =>
    obtain ⟨hslash, hstar⟩ := h
    cases after with
    | nil => rfl
    | cons c after =>
      have hc : c ≠ '/' := fun hc => hslash (hc ▸ rfl)
      have hc' : c ≠ '*' := fun hc => hstar (hc ▸ rfl)
      simp [stripComments, hc, hc']
  | case10 c rest after hquote hline hblock hlast ih =>
    have hrest : BetweenCode .code rest after := by
      rw [BetweenCode] at h
      · exact h
      all_goals assumption
    cases rest with
    | nil =>
      have hc : c ≠ '/' := fun hc => hlast hc rfl
      rw [List.nil_append] at ih
      simp [stripComments, hc]
    | cons d rest =>
      have hd : c = '/' → d ≠ '/' := by
        rintro hc rfl
        exact hline rest hc rfl
      have hd' : c = '/' → d ≠ '*' := by
        rintro hc rfl
        exact hblock rest hc rfl
      have hstep : ∀ tail, stripComments .code (c :: d :: tail) =
          c :: stripComments .code (d :: tail) := by
        intro tail
        rw [stripComments]
        all_goals grind
      have hi := ih hrest
      rw [List.cons_append] at hi
      rw [List.cons_append, List.cons_append, hstep, hstep, hi]
      rfl
  | case11 rest after ih =>
    rw [BetweenCode] at h
    simp [stripComments, ih h]
  | case12 c rest after hline ih =>
    rw [BetweenCode] at h
    · simp [stripComments, ih h]
    · exact hline
  | case13 rest after ih =>
    rw [BetweenCode] at h
    simp [stripComments, ih h]
  | case14 c rest after hend ih =>
    have hrest : BetweenCode .block rest after := by
      rw [BetweenCode] at h
      · exact h
      · exact hend
    cases rest with
    | nil => cases hrest
    | cons d rest =>
      have hd : c = '*' → d ≠ '/' := by
        rintro hc rfl
        exact hend rest hc rfl
      have hstep : ∀ tail, stripComments .block (c :: d :: tail) =
          (if c = '\n' then '\n' else ' ') :: stripComments .block (d :: tail) := by
        intro tail
        by_cases hc : c = '\n'
        · subst hc
          rw [stripComments]
          rfl
        · rw [stripComments, if_neg hc]
          all_goals grind
      have hi := ih hrest
      rw [List.cons_append] at hi
      rw [List.cons_append, List.cons_append, hstep, hstep, hi]
      rfl

theorem splitLines_ne_nil (text : Text) : splitLines text ≠ [] := by
  cases text with
  | nil => simp [splitLines]
  | cons c rest =>
    rw [splitLines]
    split_ifs
    · exact List.cons_ne_nil _ _
    · split <;> exact List.cons_ne_nil _ _

theorem exists_lines (text : Text) : ∃ lines last, splitLines text = lines ++ [last] := by
  have hsplit := List.dropLast_append_getLast (splitLines_ne_nil text)
  exact ⟨_, _, hsplit.symm⟩

/-- The last line of the first text goes on in the first line of the second. -/
theorem splitLines_append {before after : Text} {lines : List Text} {last : Text}
    (h : splitLines before = lines ++ [last]) {first : Text} {more : List Text}
    (hafter : splitLines after = first :: more) :
    splitLines (before ++ after) = lines ++ (last ++ first) :: more := by
  induction before generalizing lines last with
  | nil =>
    obtain ⟨rfl, hlast⟩ := List.append_eq_singleton_iff.mp h.symm |>.resolve_right (by simp)
    cases hlast
    exact hafter
  | cons c rest ih =>
    rw [splitLines] at h
    rw [List.cons_append, splitLines]
    by_cases hc : c = '\n'
    · rw [if_pos hc] at h ⊢
      cases lines with
      | nil =>
        obtain ⟨-, hnil⟩ := List.cons.inj h
        exact absurd hnil (splitLines_ne_nil rest)
      | cons line lines =>
        obtain ⟨rfl, hrest⟩ := List.cons.inj h
        rw [ih hrest]
        rfl
    · rw [if_neg hc] at h ⊢
      obtain ⟨lines', last', hrest⟩ := exists_lines rest
      rw [ih hrest]
      rw [hrest] at h
      cases lines' with
      | nil =>
        cases lines with
        | nil =>
          obtain ⟨rfl, -⟩ := List.cons.inj h
          rfl
        | cons line lines =>
          obtain ⟨-, hnil⟩ := List.cons.inj h
          simp at hnil
      | cons line' lines' =>
        cases lines with
        | nil =>
          obtain ⟨-, hnil⟩ := List.cons.inj h
          simp at hnil
        | cons line lines =>
          obtain ⟨rfl, htail⟩ := List.cons.inj h
          obtain ⟨rfl, hlast⟩ := List.append_inj' htail rfl
          cases hlast
          rfl

/-! ### Parentheses and names -/

/-- A parenthesis that is closed in a text is closed there in every longer one. -/
theorem matchingParen_spec {text : Text} {depth offset close : Nat} {inStr : Bool}
    (h : matchingParen depth offset inStr text = some close) :
    (offset ≤ close ∧ close < offset + text.length) ∧
      ∀ more, matchingParen depth offset inStr (text ++ more) = some close := by
  induction depth, offset, inStr, text using matchingParen.induct with
  | case1 => cases h
  | case2 depth offset c rest ih =>
    rw [matchingParen] at h
    obtain ⟨hlt, hmore⟩ := ih h
    refine ⟨by simp only [List.length_cons]; omega, fun more => ?_⟩
    simpa [matchingParen] using hmore more
  | case3 depth offset rest ih =>
    rw [matchingParen] at h
    obtain ⟨hlt, hmore⟩ := ih h
    refine ⟨by simp only [List.length_cons]; omega, fun more => ?_⟩
    simpa [matchingParen] using hmore more
  | case4 depth offset c rest hescape hquote ih =>
    rw [matchingParen] at h
    · obtain ⟨hlt, hmore⟩ := ih h
      refine ⟨by simp only [List.length_cons]; omega, fun more => ?_⟩
      have hrest : rest ≠ [] := by
        rintro rfl
        cases h
      have hc : c ≠ '\\' := by
        intro hc
        obtain ⟨d, rest, rfl⟩ := List.exists_cons_of_ne_nil hrest
        exact hescape d rest hc rfl
      simpa [matchingParen, hc, hquote] using hmore more
    · exact hescape
    · exact hquote
  | case5 depth offset rest ih =>
    rw [matchingParen] at h
    obtain ⟨hlt, hmore⟩ := ih h
    refine ⟨by simp only [List.length_cons]; omega, fun more => ?_⟩
    simpa [matchingParen] using hmore more
  | case6 depth offset rest ih =>
    rw [matchingParen] at h
    obtain ⟨hlt, hmore⟩ := ih h
    refine ⟨by simp only [List.length_cons]; omega, fun more => ?_⟩
    simpa [matchingParen] using hmore more
  | case7 offset rest =>
    rw [matchingParen, if_pos rfl] at h
    cases h
    exact ⟨by simp, fun more => by simp [matchingParen]⟩
  | case8 depth offset rest hdepth ih =>
    rw [matchingParen, if_neg hdepth] at h
    obtain ⟨hlt, hmore⟩ := ih h
    refine ⟨by simp only [List.length_cons]; omega, fun more => ?_⟩
    simpa [matchingParen, hdepth] using hmore more
  | case9 depth offset c rest hquote hopen hclose ih =>
    rw [matchingParen] at h
    · obtain ⟨hlt, hmore⟩ := ih h
      refine ⟨by simp only [List.length_cons]; omega, fun more => ?_⟩
      simpa [matchingParen, hquote, hopen, hclose] using hmore more
    · exact hquote
    · exact hopen
    · exact hclose

/-- A parenthesis that a text leaves open is closed behind the text, if at all. -/
theorem le_of_matchingParen_none {text more : Text} {depth offset close : Nat} {inStr : Bool}
    (h : matchingParen depth offset inStr text = none)
    (hmore : matchingParen depth offset inStr (text ++ more) = some close) :
    offset + text.length ≤ close := by
  induction depth, offset, inStr, text using matchingParen.induct with
  | case1 => exact (matchingParen_spec hmore).1.1
  | case2 depth offset c rest ih =>
    simp only [matchingParen, List.cons_append] at h hmore
    have hle := ih h hmore
    simp only [List.length_cons]
    omega
  | case3 depth offset rest ih =>
    simp only [matchingParen, List.cons_append] at h hmore
    have hle := ih h hmore
    simp only [List.length_cons]
    omega
  | case4 depth offset c rest hescape hquote ih =>
    rw [matchingParen] at h
    · cases rest with
      | nil =>
        -- a backslash at the end takes the first character behind the text with it
        by_cases hc : c = '\\'
        · subst hc
          cases more with
          | nil => simp [matchingParen] at hmore
          | cons d more =>
            have hskip : matchingParen depth (offset + 2) true more = some close := by
              simpa [matchingParen] using hmore
            have hle := (matchingParen_spec hskip).1.1
            simp only [List.length_cons, List.length_nil]
            omega
        · have hskip : matchingParen depth (offset + 1) true more = some close := by
            simpa [matchingParen, hc, hquote] using hmore
          exact (matchingParen_spec hskip).1.1
      | cons d rest =>
        have hc : c ≠ '\\' := fun hc => hescape d rest hc rfl
        have hle := ih h (by simpa [matchingParen, hc, hquote] using hmore)
        simp only [List.length_cons] at hle ⊢
        omega
    · exact hescape
    · exact hquote
  | case5 depth offset rest ih =>
    simp only [matchingParen, List.cons_append] at h hmore
    have hle := ih h hmore
    simp only [List.length_cons]
    omega
  | case6 depth offset rest ih =>
    simp only [matchingParen, List.cons_append] at h hmore
    have hle := ih h hmore
    simp only [List.length_cons]
    omega
  | case7 offset rest =>
    rw [matchingParen, if_pos rfl] at h
    cases h
  | case8 depth offset rest hdepth ih =>
    simp only [matchingParen, List.cons_append, if_neg hdepth] at h hmore
    have hle := ih h hmore
    simp only [List.length_cons]
    omega
  | case9 depth offset c rest hquote hopen hclose ih =>
    rw [matchingParen] at h
    · have hle := ih h (by simpa [matchingParen, hquote, hopen, hclose] using hmore)
      simp only [List.length_cons]
      omega
    · exact hquote
    · exact hopen
    · exact hclose

theorem takeWhile_append_of_dropWhile {α : Type} {p : α → Bool} {l : List α}
    (h : l.dropWhile p ≠ []) (more : List α) :
    (l ++ more).takeWhile p = l.takeWhile p ∧ (l ++ more).dropWhile p = l.dropWhile p ++ more := by
  induction l with
  | nil => exact absurd rfl h
  | cons a l ih =>
    cases hp : p a with
    | false => simp [hp]
    | true =>
      rw [List.dropWhile_cons_of_pos hp] at h
      obtain ⟨htake, hdrop⟩ := ih h
      simp [hp, htake, hdrop]

theorem takeIdent_parts (text : Text) : (takeIdent text).1 ++ (takeIdent text).2 = text := by
  cases text with
  | nil => rfl
  | cons c rest =>
    rw [takeIdent]
    split_ifs
    · exact congrArg (c :: ·) (List.takeWhile_append_dropWhile)
    · rfl

/-- A run that ends in a list ends there in every longer one. -/
theorem takeWhile_of_append {α : Type} {p : α → Bool} {l more : List α}
    (h : ((l ++ more).takeWhile p).length < l.length) :
    (l ++ more).takeWhile p = l.takeWhile p ∧ (l ++ more).dropWhile p = l.dropWhile p ++ more := by
  refine takeWhile_append_of_dropWhile (fun hnil => ?_) more
  have hall : ∀ a ∈ l, p a = true := List.dropWhile_eq_nil_iff.mp hnil
  rw [List.takeWhile_append_of_pos hall, List.length_append] at h
  omega

theorem takeIdent_append {text : Text} (h : (takeIdent text).2 ≠ []) (more : Text) :
    takeIdent (text ++ more) = ((takeIdent text).1, (takeIdent text).2 ++ more) := by
  cases text with
  | nil => exact absurd rfl h
  | cons c rest =>
    rw [List.cons_append, takeIdent, takeIdent]
    rw [takeIdent] at h
    split_ifs at h ⊢
    · obtain ⟨htake, hdrop⟩ := takeWhile_append_of_dropWhile h more
      rw [htake, hdrop]
    · rfl

theorem takeIdent_of_append {text more : Text}
    (h : (takeIdent (text ++ more)).1.length < text.length) :
    takeIdent (text ++ more) = ((takeIdent text).1, (takeIdent text).2 ++ more) := by
  refine takeIdent_append (fun hnil => ?_) more
  cases text with
  | nil => simp at h
  | cons c rest =>
    rw [List.cons_append, takeIdent] at h
    rw [takeIdent] at hnil
    split_ifs at h hnil
    have hall : ∀ a ∈ rest, isIdentCont a = true := List.dropWhile_eq_nil_iff.mp hnil
    rw [List.takeWhile_append_of_pos hall, List.length_cons, List.length_append,
      List.length_cons] at h
    omega

/-- The name a text begins with is the same in a longer text that does not make it longer. -/
theorem takeIdent_fst_of_append {text more : Text}
    (h : (takeIdent (text ++ more)).1.length ≤ text.length) :
    (takeIdent text).1 = (takeIdent (text ++ more)).1 := by
  rcases Nat.lt_or_eq_of_le h with hlt | heq
  · rw [takeIdent_of_append hlt]
  · by_cases hrest : (takeIdent text).2 = []
    · have hparts := takeIdent_parts text
      have hwhole := takeIdent_parts (text ++ more)
      rw [hrest, List.append_nil] at hparts
      rw [hparts]
      exact (List.append_inj_left hwhole heq).symm
    · rw [takeIdent_append hrest]

/-- A name ends before a backtick. -/
theorem length_takeIdent_le (text rest : Text) :
    (takeIdent (text ++ '\x60' :: rest)).1.length ≤ text.length := by
  have htick : isIdentCont '\x60' = false := by decide
  cases text with
  | nil =>
    have hstart : isIdentStart '\x60' = false := by decide
    simp [takeIdent, hstart]
  | cons c text =>
    rw [List.cons_append, takeIdent]
    split_ifs
    · refine Nat.succ_le_succ ?_
      induction text with
      | nil => simp [htick]
      | cons d text ih =>
        rw [List.cons_append, List.takeWhile_cons]
        split_ifs
        · exact Nat.succ_le_succ ih
        · exact Nat.zero_le _
    · exact Nat.zero_le _

end Eevee.Fe.Prefixes
