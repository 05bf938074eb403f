/- Macro calls and line layout: a call that a line break is put into is not expanded. -/

import Mathlib.Data.List.Basic
import Mathlib.Data.List.TakeWhile
import Mathlib.Tactic.Common
import Eevee.Fe.Conditionals
import Eevee.Fe.Prefixes

set_option autoImplicit false
set_option relaxedAutoImplicit false

namespace Eevee.Fe.MacroCalls

open Eevee.Lib.Tables
open Eevee.Fe.Scanning
open Eevee.Fe.Preprocess
open Eevee.Fe.Literals
open Eevee.Fe.Conditionals
open Eevee.Fe.Prefixes

/-! ### Calls -/

/-- A call of a function-like macro; its length counts from the name to the closing parenthesis. -/
structure Call where
  name : Text
  params : List (String × Option Text)
  body : Text
  args : List Text
  length : Nat
  deriving DecidableEq

def isBlank (c : Char) : Bool := c = ' ' ∨ c = '\t'

/-- The call that a reference is, given what follows its backtick. -/
def callOf (site : Site) (text : Text) : Option Call :=
  let (name, after) := takeIdent text
  if name = "__FILE__".toList ∨ name = "__LINE__".toList then none
  else
    match site.macros (String.ofList name) with
    | some ⟨some params, body⟩ =>
      let call := after.dropWhile isBlank
      (if call.head? = some '(' then findMatchingParen call else none).map fun close =>
        ⟨name, params, body, splitTopLevel ((call.take close).drop 1) ',',
          name.length + (after.takeWhile isBlank).length + close + 1⟩
    | _ => none

/-- What a call consists of: the name of a macro, blanks, and a list in parentheses. -/
structure IsCall (site : Site) (text : Text) (call : Call) (after : Text) (close : Nat) : Prop where
  ident : takeIdent text = (call.name, after)
  builtin : ¬ (call.name = "__FILE__".toList ∨ call.name = "__LINE__".toList)
  known : site.macros (String.ofList call.name) = some ⟨some call.params, call.body⟩
  opens : (after.dropWhile isBlank).head? = some '('
  closes : findMatchingParen (after.dropWhile isBlank) = some close
  args : call.args = splitTopLevel (((after.dropWhile isBlank).take close).drop 1) ','
  length : call.length = call.name.length + (after.takeWhile isBlank).length + close + 1

theorem callOf_eq_some {site : Site} {text : Text} {call : Call} :
    callOf site text = some call ↔ ∃ after close, IsCall site text call after close := by
  unfold callOf
  dsimp only
  constructor
  · intro h
    by_cases hbuiltin :
      (takeIdent text).1 = "__FILE__".toList ∨ (takeIdent text).1 = "__LINE__".toList
    · rw [if_pos hbuiltin] at h
      cases h
    rw [if_neg hbuiltin] at h
    cases hfound : site.macros (String.ofList (takeIdent text).1) with
    | none =>
      rw [hfound] at h
      cases h
    | some mac =>
      obtain ⟨_ | params, body⟩ := mac
      · rw [hfound] at h
        cases h
      · rw [hfound] at h
        obtain ⟨close, hclose, rfl⟩ := Option.map_eq_some_iff.mp h
        by_cases hopen : ((takeIdent text).2.dropWhile isBlank).head? = some '('
        · rw [if_pos hopen] at hclose
          exact ⟨_, close, rfl, hbuiltin, hfound, hopen, hclose, rfl, rfl⟩
        · rw [if_neg hopen] at hclose
          cases hclose
  · rintro ⟨after, close, hident, hbuiltin, hfound, hopen, hclose, hargs, hlength⟩
    rw [hident]
    dsimp only
    rw [if_neg hbuiltin, hfound]
    dsimp only
    rw [if_pos hopen, hclose, Option.map_some, ← hargs, ← hlength]

/-- A call is replaced by the expansion of the macro's body with its arguments. -/
theorem macroUse_call {site : Site} {text : Text} {call : Call} (h : callOf site text = some call)
    (expand : Text → Text) :
    macroUse site expand text =
      (expand (applyMacro call.params call.body call.args), call.length) := by
  obtain ⟨after, close, hcall⟩ := callOf_eq_some.mp h
  have hbuiltin := not_or.mp hcall.builtin
  unfold macroUse
  rw [hcall.ident]
  dsimp only
  rw [if_neg hbuiltin.1, if_neg hbuiltin.2, hcall.known]
  dsimp only
  have hblank : (fun c : Char => decide (c = ' ' ∨ c = '\t')) = isBlank := rfl
  rw [hblank, if_pos hcall.opens, hcall.closes, hcall.args, hcall.length]

/-- A reference to a function-like macro that is no call stays as it is. -/
theorem macroUse_raw {site : Site} {text name body : Text} {params : List (String × Option Text)}
    (hident : (takeIdent text).1 = name)
    (hbuiltin : ¬ (name = "__FILE__".toList ∨ name = "__LINE__".toList))
    (hknown : site.macros (String.ofList name) = some ⟨some params, body⟩)
    (h : callOf site text = none) (expand : Text → Text) :
    macroUse site expand text = ('\x60' :: name, name.length) := by
  subst hident
  unfold callOf at h
  dsimp only at h
  rw [if_neg hbuiltin, hknown, Option.map_eq_none_iff] at h
  have hnot := not_or.mp hbuiltin
  unfold macroUse
  dsimp only
  rw [if_neg hnot.1, if_neg hnot.2, hknown]
  dsimp only
  have hblank : (fun c : Char => decide (c = ' ' ∨ c = '\t')) = isBlank := rfl
  rw [hblank, h]

/-- A call that a text has in full is the same call in every longer text. -/
theorem callOf_append {site : Site} {text : Text} {call : Call} (h : callOf site text = some call) :
    call.length ≤ text.length ∧ ∀ more, callOf site (text ++ more) = some call := by
  obtain ⟨after, close, hcall⟩ := callOf_eq_some.mp h
  have hdrop : after.dropWhile isBlank ≠ [] := by
    intro hnil
    have hopen := hcall.opens
    rw [hnil] at hopen
    cases hopen
  have hafter : (takeIdent text).2 ≠ [] := by
    rw [hcall.ident]
    rintro rfl
    exact hdrop rfl
  obtain ⟨⟨-, hlt⟩, hmore⟩ := matchingParen_spec hcall.closes
  have htext := congrArg List.length (takeIdent_parts text)
  have hblanks := congrArg List.length (List.takeWhile_append_dropWhile (p := isBlank) (l := after))
  rw [List.length_append, hcall.ident] at htext
  rw [List.length_append] at hblanks
  have hlength := hcall.length
  refine ⟨by dsimp only at htext; omega, fun more => ?_⟩
  obtain ⟨htake, hdrop'⟩ := takeWhile_append_of_dropWhile hdrop more
  refine callOf_eq_some.mpr ⟨after ++ more, close, ?_, hcall.builtin, hcall.known, ?_, ?_, ?_, ?_⟩
  · rw [takeIdent_append hafter, hcall.ident]
  · rw [hdrop', List.head?_append, hcall.opens]
    rfl
  · rw [hdrop']
    exact hmore more
  · rw [hdrop', List.take_append_of_le_length (by omega)]
    exact hcall.args
  · rw [htake]
    exact hcall.length

/-- A call of a longer text that ends in the text is one of the text. -/
theorem callOf_of_append {site : Site} {text more : Text} {call : Call}
    (h : callOf site (text ++ more) = some call) (hle : call.length ≤ text.length) :
    callOf site text = some call := by
  obtain ⟨after, close, hcall⟩ := callOf_eq_some.mp h
  have hlength := hcall.length
  have hident := hcall.ident
  rw [takeIdent_of_append (by rw [hident]; dsimp only; omega)] at hident
  obtain ⟨hname, rfl⟩ := Prod.mk.inj hident
  have htext := congrArg List.length (takeIdent_parts text)
  rw [List.length_append, hname] at htext
  obtain ⟨htake, hdrop⟩ := @takeWhile_of_append _ isBlank (takeIdent text).2 more (by omega)
  have hblanks := congrArg List.length
    (List.takeWhile_append_dropWhile (p := isBlank) (l := (takeIdent text).2))
  rw [List.length_append, ← htake] at hblanks
  have hopens := hcall.opens
  have hcloses := hcall.closes
  have hargs := hcall.args
  rw [hdrop] at hopens hcloses hargs
  refine callOf_eq_some.mpr ⟨(takeIdent text).2, close, by rw [← hname], hcall.builtin, hcall.known,
    ?_, ?_, ?_, htake ▸ hlength⟩
  · rwa [List.head?_append_of_ne_nil] at hopens
    intro hnil
    rw [hnil, List.length_nil] at hblanks
    omega
  · cases hfound : findMatchingParen ((takeIdent text).2.dropWhile isBlank) with
    | none =>
      have hbehind := le_of_matchingParen_none hfound hcloses
      omega
    | some found =>
      have hsame := (matchingParen_spec hfound).2 more
      exact hsame.symm.trans hcloses
  · rw [List.take_append_of_le_length (by omega)] at hargs
    exact hargs

/-! ### The references of a line -/

/-- The loop of `expand_text` reads a backtick and a name there. -/
def isReference (inStr : Bool) (c : Char) (rest : Text) : Bool :=
  !inStr && c = '\x60' && (rest.head?.map isIdentStart).getD false

/-- The references that the loop reads, with their places and what follows their backticks. -/
def references (site : Site) : Nat → Nat → Bool → Text → List (Nat × Text)
  | _, _, _, [] => []
  | place, skip + 1, inStr, _ :: rest => references site (place + 1) skip inStr rest
  | place, 0, inStr, c :: rest =>
    (if isReference inStr c rest then [(place, rest)] else []) ++
      references site (place + 1) (advance site inStr c rest).1 (advance site inStr c rest).2 rest

theorem emitted_reference {inStr : Bool} {c : Char} {rest : Text} (site : Site) (use : Text → Text)
    (h : isReference inStr c rest = true) : emitted use inStr c rest = use rest ∧
      advance site inStr c rest = ((macroUse site id rest).2, false) := by
  simp only [isReference, Bool.and_eq_true, Bool.not_eq_true', decide_eq_true_eq] at h
  obtain ⟨⟨rfl, rfl⟩, hident⟩ := h
  cases rest with
  | nil => cases hident
  | cons d rest =>
    have hstart : isIdentStart d = true := hident
    have hquote : d ≠ '"' := by
      rintro rfl
      exact absurd hstart (by decide)
    have htick : d ≠ '\x60' := by
      rintro rfl
      exact absurd hstart (by decide)
    constructor
    · simp [emitted, hquote, htick, hstart]
    · simp [advance, hquote, htick, hstart]

/-- Each reference is replaced at its place in the output, and the loop goes on behind it. -/
theorem expandLoop_reference {site : Site} {place skip : Nat} {inStr : Bool} {text rest : Text}
    {q : Nat} (h : (q, rest) ∈ references site place skip inStr text) (expand : Text → Text) :
    place ≤ q ∧ text.drop (q - place) = '\x60' :: rest ∧
      ∃ out, expandLoop site expand skip inStr text = out ++ ((macroUse site expand rest).1 ++
        expandLoop site expand (macroUse site expand rest).2 false rest) := by
  induction text generalizing place skip inStr with
  | nil =>
    rw [references] at h
    cases h
  | cons c text ih =>
    have hnext : place + 1 ≤ q → text.drop (q - (place + 1)) = (c :: text).drop (q - place) := by
      intro hle
      rw [show q - place = q - (place + 1) + 1 by omega]
      rfl
    cases skip with
    | succ skip =>
      rw [references] at h
      obtain ⟨hle, hdrop, hout⟩ := ih h
      exact ⟨by omega, (hnext hle).symm.trans hdrop, hout⟩
    | zero =>
      rw [references] at h
      rcases List.mem_append.mp h with h | h
      · split_ifs at h with href
        · cases List.mem_singleton.mp h
          obtain ⟨hemit, hadvance⟩ := emitted_reference site
            (fun text => (macroUse site expand text).1) href
          have hc : c = '\x60' := by
            simp only [isReference, Bool.and_eq_true, decide_eq_true_eq] at href
            exact href.1.2
          refine ⟨Nat.le_refl _, by rw [Nat.sub_self, hc]; rfl, [], ?_⟩
          rw [expandLoop_cons, hemit, hadvance, macroUse_snd site id expand]
          rfl
        · cases h
      · obtain ⟨hle, hdrop, out, hout⟩ := ih h
        refine ⟨by omega, (hnext hle).symm.trans hdrop,
          emitted (fun text => (macroUse site expand text).1) inStr c text ++ out, ?_⟩
        rw [expandLoop_cons, hout, ← List.append_assoc]

theorem drop_of_reference {site : Site} {text rest : Text} {q : Nat}
    (h : (q, rest) ∈ references site 0 0 false text) : text.drop (q + 1) = rest := by
  obtain ⟨-, hdrop, -⟩ := expandLoop_reference h id
  rw [← List.drop_drop, ← Nat.sub_zero q, hdrop]
  rfl

/-- A reference has a name. -/
theorem length_pos_of_reference {site : Site} {place skip : Nat} {inStr : Bool} {text rest : Text}
    {q : Nat} (h : (q, rest) ∈ references site place skip inStr text) :
    0 < (takeIdent rest).1.length := by
  induction text generalizing place skip inStr with
  | nil =>
    rw [references] at h
    cases h
  | cons c text ih =>
    cases skip with
    | succ skip =>
      rw [references] at h
      exact ih h
    | zero =>
      rw [references] at h
      rcases List.mem_append.mp h with h | h
      · split_ifs at h with href
        · cases List.mem_singleton.mp h
          simp only [isReference, Bool.and_eq_true] at href
          cases rest with
          | nil => cases href.2
          | cons d rest =>
            have hstart : isIdentStart d = true := href.2
            rw [takeIdent, if_pos hstart]
            exact Nat.succ_pos _
        · cases h
      · exact ih h

theorem macroUse_length (site : Site) (expand : Text → Text) (text : Text) :
    (macroUse site expand text).2 =
      ((callOf site text).map Call.length).getD (takeIdent text).1.length := by
  cases h : callOf site text with
  | some call =>
    rw [macroUse_call h]
    rfl
  | none =>
    unfold callOf at h
    unfold macroUse
    dsimp only at h ⊢
    by_cases hfile : (takeIdent text).1 = "__FILE__".toList
    · rw [if_pos hfile]
      rfl
    rw [if_neg hfile]
    by_cases hline : (takeIdent text).1 = "__LINE__".toList
    · rw [if_pos hline]
      rfl
    rw [if_neg hline]
    rw [if_neg (not_or.mpr ⟨hfile, hline⟩)] at h
    cases hfound : site.macros (String.ofList (takeIdent text).1) with
    | none => rfl
    | some mac =>
      obtain ⟨_ | params, body⟩ := mac
      · rfl
      · rw [hfound, Option.map_eq_none_iff] at h
        have hblank : (fun c : Char => decide (c = ' ' ∨ c = '\t')) = isBlank := rfl
        dsimp only
        rw [hblank, h]
        rfl

theorem macroUse_of_append {site : Site} {text more : Text}
    (h : (macroUse site id (text ++ more)).2 < text.length) :
    (macroUse site id text).2 = (macroUse site id (text ++ more)).2 := by
  rw [macroUse_length, macroUse_length] at *
  cases hwhole : callOf site (text ++ more) with
  | some call =>
    rw [hwhole] at h
    rw [callOf_of_append hwhole (Nat.le_of_lt h)]
    rfl
  | none =>
    rw [hwhole] at h
    cases hcall : callOf site text with
    | some call =>
      rw [(callOf_append hcall).2 more] at hwhole
      cases hwhole
    | none =>
      rw [takeIdent_of_append h]

theorem le_of_mem_references {site : Site} {place skip : Nat} {inStr : Bool} {text rest : Text}
    {q : Nat} (h : (q, rest) ∈ references site place skip inStr text) : place + skip ≤ q := by
  induction text generalizing place skip inStr with
  | nil =>
    rw [references] at h
    cases h
  | cons c text ih =>
    cases skip with
    | succ skip =>
      rw [references] at h
      have hle := ih h
      omega
    | zero => exact (expandLoop_reference h id).1

/-- Where no reference is read, the loop goes on by the next character alone. -/
theorem advance_congr {site : Site} {inStr : Bool} {c : Char} {rest rest' : Text}
    (h : isReference inStr c rest = false) (hhead : rest'.head? = rest.head?) :
    advance site inStr c rest' = advance site inStr c rest := by
  unfold advance
  rw [hhead]
  by_cases hident : (rest.head?.map isIdentStart).getD false = true
  · -- a name behind a backtick in code would be a reference
    have hcode : inStr ∨ c ≠ '\x60' := by
      by_contra hcode
      rw [not_or, not_not, Bool.not_eq_true] at hcode
      simp [isReference, hcode.1, hcode.2, hident] at h
    rw [if_pos hcode, if_pos hcode]
  · rw [if_neg hident, if_neg hident]

/-- A reference of a longer text, with a character of the text behind its backtick, is one of the
text. -/
theorem references_of_append {site : Site} {place skip : Nat} {inStr : Bool} {text more rest : Text}
    {q : Nat} (h : (q, rest) ∈ references site place skip inStr (text ++ more))
    (hq : q + 1 < place + text.length) :
    ∃ rest', rest = rest' ++ more ∧ (q, rest') ∈ references site place skip inStr text := by
  induction text generalizing place skip inStr with
  | nil =>
    have hle := le_of_mem_references h
    rw [List.length_nil] at hq
    omega
  | cons c text ih =>
    rw [List.length_cons] at hq
    cases skip with
    | succ skip =>
      rw [List.cons_append, references] at h
      rw [references]
      exact ih h (by omega)
    | zero =>
      have hplace := le_of_mem_references h
      rw [List.cons_append, references] at h
      rw [references]
      obtain ⟨d, tail, rfl⟩ := List.exists_cons_of_length_pos (show 0 < text.length by omega)
      have hsame : isReference inStr c (d :: tail ++ more) = isReference inStr c (d :: tail) := rfl
      rcases List.mem_append.mp h with h | h
      · split_ifs at h with href
        · cases List.mem_singleton.mp h
          refine ⟨d :: tail, rfl, List.mem_append_left _ ?_⟩
          rw [if_pos (hsame ▸ href)]
          exact List.mem_singleton_self _
        · cases h
      · have hle := le_of_mem_references h
        have hadvance : advance site inStr c (d :: tail) =
            advance site inStr c (d :: tail ++ more) := by
          cases href : isReference inStr c (d :: tail) with
          | false => exact advance_congr (hsame.trans href) rfl
          | true =>
            obtain ⟨-, hwhole⟩ := emitted_reference site id (hsame.trans href)
            obtain ⟨-, hpart⟩ := emitted_reference site id href
            rw [hwhole] at hle ⊢
            dsimp only at hle
            have hskip := @macroUse_of_append site (d :: tail) more (by omega)
            rw [hpart, hskip]
        rw [← hadvance] at h
        obtain ⟨rest', hrest, hmem⟩ := ih h (by omega)
        exact ⟨rest', hrest, List.mem_append_right _ hmem⟩

/-! ### Sources -/

/-- A line that is expanded where the levels let it through. -/
def IsText (line : Text) : Prop :=
  ∀ directive rest, directiveOf line = some (directive, rest) →
    directive ∉ ["ifdef", "ifndef", "elsif", "else", "endif", "define", "undef", "include"] ∧
      isPassthrough directive = false

theorem processLine_text {incl : Include} {path line : Text} {number : Nat} {s : State}
    (h : IsText line) (hemit : emitting s.cond = true) :
    processLine incl path number line s = (expandLine path number s.macros line, s) := by
  have hplain : kindOf line = .plain := by
    rw [kindOf]
    cases hdirective : directiveOf line with
    | none => rfl
    | some found =>
      obtain ⟨directive, rest⟩ := found
      have hnot := (h directive rest hdirective).1
      simp only [List.mem_cons, List.not_mem_nil, or_false, not_or] at hnot
      obtain ⟨h₁, h₂, h₃, h₄, h₅, -⟩ := hnot
      simp only [h₁, h₂, h₃, h₄, h₅, if_false]
  have hrun : runLine incl path number line s.macros =
      (expandLine path number s.macros line, s.macros) := by
    have hrequest : requestOf line = .text := by
      rw [requestOf]
      cases hdirective : directiveOf line with
      | none => rfl
      | some found =>
        obtain ⟨directive, rest⟩ := found
        obtain ⟨hnot, hpass⟩ := h directive rest hdirective
        simp only [List.mem_cons, List.not_mem_nil, or_false, not_or] at hnot
        obtain ⟨-, -, -, -, -, h₆, h₇, h₈⟩ := hnot
        simp only [h₆, h₇, h₈, hpass, if_false, Bool.false_eq_true]
    rw [runLine, hrequest]
  have hline := @processLine_plain incl path number s.macros s.cond ⟨line, hplain⟩
  rw [if_pos hemit, hrun] at hline
  exact hline

def stateAfter (incl : Include) (path : Text) (macros : Names Macro) (lines : List Text) : State :=
  (processLines incl path 1 lines ⟨macros, []⟩).2

/-- While the source is processed, the reference at a place of a line is expanded as a call. -/
def CallAt (incl : Include) (path : Text) (macros : Names Macro) (text : Text) (k p : Nat)
    (call : Call) : Prop :=
  ∃ lines line more rest, logicalLines text = lines ++ line :: more ∧ lines.length = k ∧
    IsText line ∧ emitting (stateAfter incl path macros lines).cond = true ∧
    (p, rest) ∈ references ⟨(stateAfter incl path macros lines).macros, path, k + 1⟩ 0 0 false
      line ∧
    callOf ⟨(stateAfter incl path macros lines).macros, path, k + 1⟩ rest = some call

/-- A place of a source that is in no string, comment, line end or continuation. -/
structure Cut (before after : Text) : Prop where
  lineEnd : before.getLast? ≠ some '\r'
  continuation : (normalizeNewlines before).getLast? ≠ some '\\'
  code : BetweenCode .code (joinContinuations (normalizeNewlines before))
    (joinContinuations (normalizeNewlines after))

def lineEnds : List Text := [['\n'], ['\r', '\n'], ['\r']]

/-- Line ends put into a text at any places. -/
inductive Broken : Text → Text → Prop
  | nil : Broken [] []
  | char (c : Char) {text text' : Text} (h : Broken text text') : Broken (c :: text) (c :: text')
  | lineEnd {nl text text' : Text} (hnl : nl ∈ lineEnds) (h : Broken text text') :
      Broken text (nl ++ text')

/-- Only what follows a slash matters to the place. -/
theorem betweenCode_lineEnd {mode : Mode} {before after : Text} (h : BetweenCode mode before after)
    (rest : Text) : BetweenCode mode before ('\n' :: rest) := by
  induction mode, before, after using BetweenCode.induct with
  | case1 => trivial
  | case2 mode after hmode =>
    cases mode with
    | code => exact absurd rfl hmode
    | str | line | block => cases h
  | case9 => exact ⟨by simp, by simp⟩
  | case5 c text after hescape hquote ih =>
    rw [BetweenCode] at h ⊢
    · exact ih h
    all_goals assumption
  | case10 c text after hquote hline hblock hlast ih =>
    rw [BetweenCode] at h ⊢
    · exact ih h
    all_goals assumption
  | case12 c text after hline ih =>
    rw [BetweenCode] at h ⊢
    · exact ih h
    all_goals assumption
  | case14 c text after hend ih =>
    rw [BetweenCode] at h ⊢
    · exact ih h
    all_goals assumption
  | case3 _ _ _ ih | case4 _ _ ih | case6 _ _ ih | case7 _ _ ih | case8 _ _ ih | case11 _ _ ih
  | case13 _ _ ih =>
    rw [BetweenCode] at h ⊢
    exact ih h

/-- A source goes on in the line in which a place of it is. -/
theorem logicalLines_append {before after : Text} (h : Cut before after) {lines : List Text}
    {last : Text} (hlines : logicalLines before = lines ++ [last]) :
    ∃ first more, logicalLines (before ++ after) = lines ++ (last ++ first) :: more := by
  obtain ⟨first, more, hafter⟩ := List.exists_cons_of_ne_nil (splitLines_ne_nil
    (stripComments .code (joinContinuations (normalizeNewlines after))))
  refine ⟨first, more, ?_⟩
  rw [logicalLines, normalizeNewlines_append h.lineEnd, joinContinuations_append h.continuation,
    stripComments_append h.code]
  exact splitLines_append hlines hafter

theorem normalizeNewlines_lineEnd {nl : Text} (hnl : nl ∈ lineEnds) (rest : Text) :
    ∃ rest', normalizeNewlines (nl ++ rest) = '\n' :: rest' := by
  simp only [lineEnds, List.mem_cons, List.not_mem_nil, or_false] at hnl
  rcases hnl with rfl | rfl | rfl
  · exact ⟨normalizeNewlines rest, by simp [normalizeNewlines]⟩
  · exact ⟨normalizeNewlines rest, by simp [normalizeNewlines]⟩
  · cases rest with
    | nil => exact ⟨[], rfl⟩
    | cons c rest =>
      by_cases hc : c = '\n'
      · subst hc
        exact ⟨normalizeNewlines rest, by simp [normalizeNewlines]⟩
      · exact ⟨normalizeNewlines (c :: rest), by simp [normalizeNewlines, hc]⟩

/-- A line end at the place ends the line there. -/
theorem logicalLines_lineEnd {before after : Text} (h : Cut before after) {nl : Text}
    (hnl : nl ∈ lineEnds) {lines : List Text} {last : Text}
    (hlines : logicalLines before = lines ++ [last]) (rest : Text) :
    ∃ more, logicalLines (before ++ (nl ++ rest)) = lines ++ last :: more := by
  obtain ⟨rest', hrest⟩ := normalizeNewlines_lineEnd hnl rest
  have hjoin : joinContinuations ('\n' :: rest') = '\n' :: joinContinuations rest' := by
    simp [joinContinuations]
  have hstrip : stripComments .code ('\n' :: joinContinuations rest') =
      '\n' :: stripComments .code (joinContinuations rest') := by simp [stripComments]
  have hsplit : splitLines ('\n' :: stripComments .code (joinContinuations rest')) =
      [] :: splitLines (stripComments .code (joinContinuations rest')) := by simp [splitLines]
  refine ⟨splitLines (stripComments .code (joinContinuations rest')), ?_⟩
  rw [logicalLines, normalizeNewlines_append h.lineEnd, hrest,
    joinContinuations_append h.continuation, hjoin,
    stripComments_append (betweenCode_lineEnd h.code _), hstrip, splitLines_append hlines hsplit,
    List.append_nil]

/-- The directive of a line ends before a reference of the line, or is its name. -/
theorem length_directive_le {last after more rest : Text} {q : Nat}
    (hdrop : last.dropWhile isWhitespace = '\x60' :: after) (hplace : last.drop q = '\x60' :: rest)
    (hname : (takeIdent (rest ++ more)).1.length ≤ rest.length) :
    (takeIdent (after ++ more)).1.length ≤ after.length := by
  have hparts : last.takeWhile isWhitespace ++ '\x60' :: after = last := by
    rw [← hdrop]
    exact List.takeWhile_append_dropWhile
  have hblank : ∀ c ∈ last.takeWhile isWhitespace, isWhitespace c = true :=
    fun _ => List.mem_takeWhile_imp
  generalize last.takeWhile isWhitespace = blanks at *
  subst hparts
  rcases Nat.lt_trichotomy q blanks.length with hlt | rfl | hlt
  · rw [List.drop_append_of_le_length (Nat.le_of_lt hlt), List.drop_eq_getElem_cons hlt] at hplace
    have hwhite := hblank _ (List.getElem_mem hlt)
    rw [(List.cons.inj hplace).1] at hwhite
    exact absurd hwhite (by decide)
  · rw [List.drop_left] at hplace
    rw [(List.cons.inj hplace).2]
    exact hname
  · obtain ⟨j, rfl⟩ := Nat.exists_eq_add_of_lt hlt
    have hdropped : after.drop j = '\x60' :: rest := by
      rw [Nat.add_assoc, ← List.drop_drop, List.drop_left] at hplace
      exact hplace
    have hsplit := List.take_append_drop j after
    rw [hdropped] at hsplit
    rw [← hsplit, List.append_assoc, List.cons_append]
    refine (length_takeIdent_le _ _).trans ?_
    rw [List.length_append]
    exact Nat.le_add_right _ _

/-- What begins with a text up to a reference is a line of text like it. -/
theorem isText_of_append {last more rest : Text} {q : Nat} (h : IsText (last ++ more))
    (hplace : last.drop q = '\x60' :: rest)
    (hname : (takeIdent (rest ++ more)).1.length ≤ rest.length) : IsText last := by
  intro directive tail hdirective
  unfold directiveOf at hdirective
  split at hdirective
  case h_2 => cases hdirective
  case h_1 after hafter =>
    obtain ⟨hdir, -⟩ := Prod.mk.inj (Option.some.inj hdirective)
    have hdrop : last.dropWhile isWhitespace = '\x60' :: after := hafter
    have hne : last.dropWhile isWhitespace ≠ [] := by
      rw [hdrop]
      exact List.cons_ne_nil _ _
    have hwhole : trimStart (last ++ more) = '\x60' :: (after ++ more) := by
      have happend := (takeWhile_append_of_dropWhile hne more).2
      rw [hdrop] at happend
      exact happend
    have hsame : (takeIdent after).1 = (takeIdent (after ++ more)).1 := by
      exact takeIdent_fst_of_append (length_directive_le hdrop hplace hname)
    refine h directive (takeIdent (after ++ more)).2 ?_
    rw [directiveOf, hwhole]
    show some (String.ofList (takeIdent (after ++ more)).1, _) = _
    rw [← hsame, hdir]

/-! ### Calls with line breaks -/

/-- Line ends put into the call at a place of a line: the first of them after the name and before
the closing parenthesis, in no string. -/
inductive BreaksCall : Text → Text → Nat → Nat → Call → Prop
  | intro {before after after' nl last : Text} {lines : List Text} {k p : Nat} {call : Call}
      (hcut : Cut before after) (hnl : nl ∈ lineEnds) (hbroken : Broken after after')
      (hlines : logicalLines before = lines ++ [last]) (hk : lines.length = k)
      (hname : p + 1 + call.name.length ≤ last.length) (hclose : last.length ≤ p + call.length) :
      BreaksCall (before ++ after) (before ++ (nl ++ after')) k p call

def squeeze (text : Text) : Text := text.filter fun c => !isWhitespace c

/-- The same macro with the same arguments, up to white space. -/
def SameCall (call call' : Call) : Prop :=
  call'.name = call.name ∧ call'.args.map squeeze = call.args.map squeeze

/-- A call with a line break in it is expanded with no arguments at all. -/
theorem not_callAt_of_breaks {incl : Include} {path : Text} {macros : Names Macro}
    {text text' : Text} {k p : Nat} {call : Call} (hcall : CallAt incl path macros text k p call)
    (hbreaks : BreaksCall text text' k p call) (call' : Call) :
    ¬ CallAt incl path macros text' k p call' := by
  rintro ⟨lines', line', more', rest', hsplit', hk', -, -, href', hcall'⟩
  cases hbreaks with
  | @intro before after after' nl last lines _ _ _ hcut hnl _ hlines hk hname hclose =>
    obtain ⟨lines₀, line, more, rest, hsplit, hk₀, -, -, href, hcall⟩ := hcall
    obtain ⟨first, more₁, hwhole⟩ := logicalLines_append hcut hlines
    obtain ⟨more₂, hcutLines⟩ := logicalLines_lineEnd hcut hnl hlines after'
    -- the lines before the call's line are the same, and it is cut
    obtain ⟨rfl, hline⟩ := List.append_inj (hsplit.symm.trans hwhole) (hk₀.trans hk.symm)
    obtain ⟨rfl, -⟩ := List.cons.inj hline
    obtain ⟨rfl, hline'⟩ := List.append_inj (hsplit'.symm.trans hcutLines) (hk'.trans hk.symm)
    obtain ⟨rfl, -⟩ := List.cons.inj hline'
    have hrest := drop_of_reference href
    have hrest' := drop_of_reference href'
    have hdrop : rest = rest' ++ first := by
      rw [← hrest, ← hrest', List.drop_append_of_le_length (by omega)]
    obtain ⟨hlength, hmore⟩ := callOf_append hcall'
    rw [hdrop, hmore first] at hcall
    cases hcall
    have hshort := congrArg List.length hrest'
    rw [List.length_drop] at hshort
    omega

/-- What a line of the source emits contains the name of a call with its backtick. -/
def CopiedAt (incl : Include) (path : Text) (macros : Names Macro) (text : Text) (k : Nat)
    (call : Call) : Prop :=
  ∃ lines last more out rest, logicalLines text = lines ++ last :: more ∧ lines.length = k ∧
    (processLine incl path (k + 1) last (stateAfter incl path macros lines)).1 =
      out ++ '\x60' :: call.name ++ rest

/-- Instead its name is copied, and the rest of its line is expanded by itself. -/
theorem copied_of_breaks {incl : Include} {path : Text} {macros : Names Macro} {text text' : Text}
    {k p : Nat} {call : Call} (hcall : CallAt incl path macros text k p call)
    (hbreaks : BreaksCall text text' k p call) : CopiedAt incl path macros text' k call := by
  have hnot := not_callAt_of_breaks hcall hbreaks
  cases hbreaks with
  | @intro before after after' nl last lines _ _ _ hcut hnl _ hlines hk hname hclose =>
    obtain ⟨lines₀, line, more, rest, hsplit, hk₀, htext, hemit, href, hcall⟩ := hcall
    obtain ⟨first, more₁, hwhole⟩ := logicalLines_append hcut hlines
    obtain ⟨more₂, hcutLines⟩ := logicalLines_lineEnd hcut hnl hlines after'
    obtain ⟨rfl, hline⟩ := List.append_inj (hsplit.symm.trans hwhole) (hk₀.trans hk.symm)
    obtain ⟨rfl, -⟩ := List.cons.inj hline
    obtain ⟨closed, close, hcall⟩ := callOf_eq_some.mp hcall
    have hlong : 1 ≤ call.name.length := by
      have hpos := length_pos_of_reference href
      rw [hcall.ident] at hpos
      exact hpos
    obtain ⟨rest', rfl, href'⟩ := references_of_append href (by omega)
    obtain ⟨-, hplace, out, hout⟩ := expandLoop_reference href' fun t =>
      expandText ⟨(stateAfter incl path macros lines₀).macros, path, k + 1⟩ 63 t
    have hshort : (takeIdent (rest' ++ first)).1.length ≤ rest'.length := by
      have hlength := congrArg List.length (drop_of_reference href')
      rw [List.length_drop] at hlength
      rw [hcall.ident]
      dsimp only
      omega
    have hlast : IsText last := isText_of_append htext hplace hshort
    have hnone : callOf ⟨(stateAfter incl path macros lines₀).macros, path, k + 1⟩ rest' =
        none := by
      cases hfound : callOf ⟨(stateAfter incl path macros lines₀).macros, path, k + 1⟩ rest' with
      | none => rfl
      | some found =>
        exact (hnot found
          ⟨lines₀, last, more₂, rest', hcutLines, hk, hlast, hemit, href', hfound⟩).elim
    have hident : (takeIdent rest').1 = call.name := by
      rw [takeIdent_fst_of_append hshort, hcall.ident]
    rw [macroUse_raw hident hcall.builtin hcall.known hnone] at hout
    exact ⟨_, _, _, _, _, hcutLines, hk, (congrArg Prod.fst (processLine_text hlast hemit)).trans
      (hout.trans (List.append_assoc _ _ _).symm)⟩

section

variable {Path : Type} [DecidableEq Path] (files : Files Path) (includeDirs : List Path)

/-- What includes do while a source is processed. -/
def includeOf (p : Preprocessor Path) (sourcePath : Text) : Include :=
  doInclude files includeDirs (maxIncludeDepth - p.includeStack.length) p.includeStack sourcePath

/-- Another layout of a source changes the output in white space only, and the call at the place is
expanded with the same arguments. -/
structure LayoutFree (p : Preprocessor Path) (sourcePath text text' : Text) (k q : Nat)
    (call : Call) : Prop where
  output : squeeze (process files includeDirs p text' sourcePath).1 =
    squeeze (process files includeDirs p text sourcePath).1
  expanded : ∃ call',
    CallAt (includeOf files includeDirs p sourcePath) sourcePath p.macros text' k q
    call' ∧ SameCall call call'

end

/-- No line break in a call that is expanded, between its name and its list or in the list, leaves
the call one: its name comes out as it is written. -/
theorem broken_call_not_expanded {Path : Type} [DecidableEq Path] (files : Files Path)
    (includeDirs : List Path) (p : Preprocessor Path) (sourcePath text text' : Text) (k q : Nat)
    (call : Call)
    (hcall : CallAt (includeOf files includeDirs p sourcePath) sourcePath p.macros text k q call)
    (hbreaks : BreaksCall text text' k q call) :
    ¬ LayoutFree files includeDirs p sourcePath text text' k q call ∧
      CopiedAt (includeOf files includeDirs p sourcePath) sourcePath p.macros text' k call := by
  refine ⟨?_, copied_of_breaks hcall hbreaks⟩
  rintro ⟨-, call', hcall', -⟩
  exact not_callAt_of_breaks hcall hbreaks call' hcall'

theorem broken_refl (text : Text) : Broken text text := by
  induction text with
  | nil => exact .nil
  | cons c text ih => exact .char c ih

def addSource : Text := "`define ADD(a, b) ((a) + (b))\nint y = `ADD(3, 4);".toList

def addBroken : Text := "`define ADD(a, b) ((a) + (b))\nint y = `ADD(3,\n 4);".toList

def addCall : Call :=
  ⟨"ADD".toList, [("a", none), ("b", none)], "((a) + (b))".toList, ["3".toList, " 4".toList], 9⟩

theorem callAt_addSource :
    CallAt (includeOf noFiles [] ⟨Names.empty, []⟩ []) [] Names.empty addSource
    1 8 addCall := by
  refine ⟨["`define ADD(a, b) ((a) + (b))".toList], "int y = `ADD(3, 4);".toList, [],
    "ADD(3, 4);".toList, by decide +kernel, rfl, ?_, by decide +kernel, by decide +kernel,
    by decide +kernel⟩
  intro directive rest h
  have hnone : directiveOf "int y = `ADD(3, 4);".toList = none := by decide +kernel
  rw [hnone] at h
  cases h

theorem breaksCall_addBroken : BreaksCall addSource addBroken 1 8 addCall := by
  have hlines : logicalLines "`define ADD(a, b) ((a) + (b))\nint y = `ADD(3,".toList =
      ["`define ADD(a, b) ((a) + (b))".toList] ++ ["int y = `ADD(3,".toList] := by decide +kernel
  have hcut : Cut "`define ADD(a, b) ((a) + (b))\nint y = `ADD(3,".toList " 4);".toList :=
    ⟨by decide +kernel, by decide +kernel, trivial⟩
  have hnl : ['\n'] ∈ lineEnds := by decide
  exact .intro hcut hnl (broken_refl _) hlines rfl (by decide +kernel) (by decide +kernel)

theorem broken_call_addSource :
    ¬ LayoutFree noFiles [] ⟨Names.empty, []⟩ [] addSource addBroken 1 8 addCall ∧
      CopiedAt (includeOf noFiles [] ⟨Names.empty, []⟩ []) [] Names.empty addBroken 1 addCall :=
  broken_call_not_expanded noFiles [] ⟨Names.empty, []⟩ [] addSource addBroken 1 8 addCall
    callAt_addSource breaksCall_addBroken

/-- A line end after the first argument: the call stays in the output as it is. -/
theorem addition_on_two_lines :
    CallAt (includeOf noFiles [] ⟨Names.empty, []⟩ []) [] Names.empty addSource 1 8 addCall ∧
      BreaksCall addSource addBroken 1 8 addCall ∧
      (process noFiles [] ⟨Names.empty, []⟩ addSource []).1 = "\nint y = ((3) + (4));".toList ∧
      (process noFiles [] ⟨Names.empty, []⟩ addBroken []).1 = "\nint y = `ADD(3,\n 4);".toList ∧
      squeeze "\nint y = `ADD(3,\n 4);".toList ≠ squeeze "\nint y = ((3) + (4));".toList :=
  ⟨callAt_addSource, breaksCall_addBroken, by decide +kernel, by decide +kernel, by decide +kernel⟩

end Eevee.Fe.MacroCalls
