/- Line numbers through the preprocessor: where the lines of a source come out. -/

import Mathlib.Data.List.Basic
import Mathlib.Tactic.Common
import Mathlib.Tactic.SplitIfs
import Eevee.Fe.MacroCalls
import Eevee.Fe.LineEnds

set_option autoImplicit false
set_option relaxedAutoImplicit false

namespace Eevee.Fe.LinePositions

open Eevee.Lib.Tables
open Eevee.Fe.Scanning
open Eevee.Fe.Preprocess
open Eevee.Fe.Conditionals
open Eevee.Fe.Prefixes
open Eevee.Fe.MacroCalls
open Eevee.Fe.LineEnds

/-! ### Origins -/

def physicalLines (text : Text) : List Text := splitLines (normalizeNewlines text)

/-- The joined text, each character with the physical line it comes from. -/
def numbered : Nat → Text → List (Char × Nat)
  | n, '\\' :: '\n' :: rest => (' ', n) :: numbered (n + 1) rest
  | n, c :: rest => (c, n) :: numbered (if c = '\n' then n + 1 else n) rest
  | _, [] => []

/-- The numbers, line by line. -/
def splitNumbered : List (Char × Nat) → List (List Nat)
  | [] => [[]]
  | (c, n) :: rest =>
    if c = '\n' then [] :: splitNumbered rest
    else
      match splitNumbered rest with
      | line :: lines => (n :: line) :: lines
      | [] => [[n]]

/-- The physical lines that the characters of each logical line come from. -/
def origins (text : Text) : List (List Nat) := splitNumbered (numbered 1 (normalizeNewlines text))

/-- The physical line ends in a backslash, so that the next one is joined to it. -/
def Continued (line : Text) : Prop := line.getLast? = some '\\'

instance : DecidablePred Continued := fun _ => inferInstanceAs (Decidable (_ = _))

theorem map_fst_numbered (n : Nat) (text : Text) :
    (numbered n text).map Prod.fst = joinContinuations text := by
  induction n, text using numbered.induct with
  | case1 n rest ih =>
    rw [numbered, joinContinuations, List.map_cons, ih]
  | case2 n c rest hjoin ih =>
    rw [numbered, joinContinuations, List.map_cons, ih]
    · exact hjoin
    · exact hjoin
  | case3 n => rfl

theorem splitNumbered_ne_nil (text : List (Char × Nat)) : splitNumbered text ≠ [] := by
  cases text with
  | nil => exact List.cons_ne_nil _ _
  | cons p rest =>
    rw [splitNumbered]
    split_ifs
    · exact List.cons_ne_nil _ _
    · split <;> exact List.cons_ne_nil _ _

/-- The places of a text at which its lines end. -/
def ends (text : Text) : List Bool := text.map fun c => decide (c = '\n')

theorem ends_stripComments (mode : Mode) (text : Text) :
    ends (stripComments mode text) = ends text := by
  unfold ends
  induction mode, text using stripComments.induct with
  | case1 => simp [stripComments]
  | _ => simp_all [stripComments]

theorem lengths_of_ends {text text' : Text} (h : ends text = ends text') :
    (splitLines text).map List.length = (splitLines text').map List.length := by
  induction text generalizing text' with
  | nil =>
    cases text' with
    | nil => rfl
    | cons c rest => cases h
  | cons c rest ih =>
    cases text' with
    | nil => cases h
    | cons c' rest' =>
      obtain ⟨hc, hrest⟩ := List.cons.inj h
      have hlines := ih hrest
      rw [splitLines, splitLines]
      by_cases hend : c = '\n'
      · have hend' : c' = '\n' := of_decide_eq_true (hc.symm.trans (decide_eq_true hend))
        rw [if_pos hend, if_pos hend', List.map_cons, List.map_cons, hlines]
      · have hend' : ¬ c' = '\n' := of_decide_eq_false (hc.symm.trans (decide_eq_false hend))
        rw [if_neg hend, if_neg hend']
        cases hsplit : splitLines rest with
        | nil => exact absurd hsplit (splitLines_ne_nil rest)
        | cons line lines =>
          cases hsplit' : splitLines rest' with
          | nil => exact absurd hsplit' (splitLines_ne_nil rest')
          | cons line' lines' =>
            rw [hsplit, hsplit'] at hlines
            obtain ⟨hline, hmore⟩ := List.cons.inj hlines
            rw [List.map_cons, List.map_cons, hmore, List.length_cons, List.length_cons, hline]

theorem lengths_splitNumbered (text : List (Char × Nat)) :
    (splitNumbered text).map List.length = (splitLines (text.map Prod.fst)).map List.length := by
  induction text with
  | nil => rfl
  | cons p rest ih =>
    obtain ⟨c, n⟩ := p
    rw [splitNumbered, List.map_cons, splitLines]
    by_cases hc : c = '\n'
    · rw [if_pos hc, if_pos hc, List.map_cons, List.map_cons, ih]
      rfl
    · rw [if_neg hc, if_neg hc]
      cases hsplit : splitNumbered rest with
      | nil => exact absurd hsplit (splitNumbered_ne_nil rest)
      | cons line lines =>
        cases hsplit' : splitLines (rest.map Prod.fst) with
        | nil => exact absurd hsplit' (splitLines_ne_nil _)
        | cons line' lines' =>
          rw [hsplit, hsplit'] at ih
          obtain ⟨hline, hmore⟩ := List.cons.inj ih
          rw [List.map_cons, List.map_cons, hmore, List.length_cons, List.length_cons, hline]

/-- Every character of a logical line has its origin: comments keep their place and their line
ends. -/
theorem lengths_origins (text : Text) :
    (origins text).map List.length = (logicalLines text).map List.length := by
  unfold origins logicalLines
  rw [lengths_splitNumbered, map_fst_numbered]
  exact (lengths_of_ends (ends_stripComments .code _)).symm

def originAt (text : Text) (k place : Nat) : Option Nat := ((origins text).getD k [])[place]?

theorem originAt_isSome {text line : Text} {k place : Nat}
    (hline : (logicalLines text)[k]? = some line)
    (hplace : place < line.length) : (originAt text k place).isSome = true := by
  have hlength := congrArg (·[k]?) (lengths_origins text)
  simp only [List.getElem?_map, hline, Option.map_some] at hlength
  obtain ⟨origin, horigin, heq⟩ := Option.map_eq_some_iff.mp hlength
  have hbound : place < origin.length := heq ▸ hplace
  rw [originAt, List.getD_eq_getElem?_getD, horigin, Option.getD_some,
    List.getElem?_eq_getElem hbound]
  rfl

/-! ### Joined lines -/

theorem length_splitLines_cons {c : Char} (hc : c ≠ '\n') (rest : Text) :
    (splitLines (c :: rest)).length = (splitLines rest).length := by
  rw [splitLines, if_neg hc]
  cases hsplit : splitLines rest with
  | nil => exact absurd hsplit (splitLines_ne_nil rest)
  | cons first more => rfl

/-- A line is continued if its rest is, unless only a last backslash is left. -/
theorem continued_cons {c : Char} {rest first : Text} {more : List Text}
    (hjoin : ∀ rest' : Text, c = '\\' → rest = '\n' :: rest' → False)
    (hsplit : splitLines rest = first :: more) (hrest : rest ≠ []) :
    Continued (c :: first) ↔ Continued first := by
  cases first with
  | cons d first => unfold Continued; rw [List.getLast?_cons_cons]
  | nil =>
    cases rest with
    | nil => exact absurd rfl hrest
    | cons d rest =>
      have hd : d = '\n' := by
        by_contra hd
        rw [splitLines, if_neg hd] at hsplit
        split at hsplit <;> cases hsplit
      have hback : c ≠ '\\' := fun heq => hjoin rest heq (by rw [hd])
      exact iff_of_false (fun hlast => hback (Option.some.inj hlast)) (by decide)

/-- The lines that are left are those that no other one is joined to. -/
theorem length_splitLines_join (text : Text) :
    (splitLines (joinContinuations text)).length +
      (splitLines text).dropLast.countP (Continued ·) = (splitLines text).length := by
  fun_induction joinContinuations text with
  | case1 rest ih =>
    have hlines : splitLines ('\\' :: '\n' :: rest) = ['\\'] :: splitLines rest := by
      rw [splitLines, if_neg (by decide), splitLines, if_pos rfl]
    rw [hlines, length_splitLines_cons (by decide),
      List.dropLast_cons_of_ne_nil (splitLines_ne_nil rest),
      List.countP_cons_of_pos (by decide), List.length_cons, ← ih]
    rfl
  | case2 c rest hjoin ih =>
    by_cases hc : c = '\n'
    · rw [splitLines, if_pos hc, splitLines, if_pos hc,
        List.dropLast_cons_of_ne_nil (splitLines_ne_nil rest),
        List.countP_cons_of_neg (by decide), List.length_cons, List.length_cons, ← ih]
      omega
    · rw [length_splitLines_cons hc, length_splitLines_cons hc, ← ih, splitLines, if_neg hc]
      cases hsplit : splitLines rest with
      | nil => exact absurd hsplit (splitLines_ne_nil rest)
      | cons first more =>
        cases more with
        | nil => rfl
        | cons next more =>
          have hrest : rest ≠ [] := by
            rintro rfl
            cases hsplit
          simp only [List.dropLast_cons_cons, List.countP_cons,
            decide_eq_decide.mpr (continued_cons hjoin hsplit hrest)]
  | case3 => rfl

theorem length_logicalLines (text : Text) :
    (logicalLines text).length + (physicalLines text).dropLast.countP (Continued ·) =
      (physicalLines text).length := by
  have hlengths := congrArg List.length
    (lengths_of_ends (ends_stripComments .code (joinContinuations (normalizeNewlines text))))
  rw [List.length_map, List.length_map] at hlengths
  rw [logicalLines, hlengths]
  exact length_splitLines_join _

/-- A character is further down in the source by the lines that are joined above it. By induction
on the text, its first line being the `m`-th. -/
theorem origin_eq {m k place n : Nat} {text : Text}
    (h : ((splitNumbered (numbered m text)).getD k [])[place]? = some n) :
    m ≤ n ∧ n = m + k + ((splitLines text).take (n - m)).countP (Continued ·) := by
  induction m, text using numbered.induct generalizing k place n with
  | case1 m rest ih =>
    have hlines : splitLines ('\\' :: '\n' :: rest) = ['\\'] :: splitLines rest := by
      rw [splitLines, if_neg (by decide), splitLines, if_pos rfl]
    have hstep : ∀ k place : Nat,
        ((splitNumbered (numbered (m + 1) rest)).getD k [])[place]? = some n →
        m ≤ n ∧ n = m + k + ((['\\'] :: splitLines rest).take (n - m)).countP (Continued ·) := by
      intro k place h
      obtain ⟨hle, heq⟩ := ih h
      have hsub : n - m = n - (m + 1) + 1 := by omega
      refine ⟨by omega, ?_⟩
      rw [hsub, List.take_succ_cons, List.countP_cons_of_pos (by decide)]
      omega
    rw [hlines]
    rw [numbered, splitNumbered, if_neg (by decide)] at h
    cases hsplit : splitNumbered (numbered (m + 1) rest) with
    | nil => exact absurd hsplit (splitNumbered_ne_nil _)
    | cons line lines =>
      rw [hsplit] at h hstep
      cases k with
      | succ k => exact hstep (k + 1) place h
      | zero =>
        cases place with
        | succ place => exact hstep 0 place h
        | zero =>
          obtain rfl : m = n := Option.some.inj h
          rw [Nat.sub_self]
          exact ⟨Nat.le_refl m, rfl⟩
  | case2 m c rest hjoin ih =>
    by_cases hc : c = '\n'
    · rw [if_pos hc] at ih
      rw [numbered, splitNumbered, if_pos hc, if_pos hc] at h
      · rw [splitLines, if_pos hc]
        cases k with
        | zero => cases h
        | succ k =>
          obtain ⟨hle, heq⟩ := ih h
          have hsub : n - m = n - (m + 1) + 1 := by omega
          refine ⟨by omega, ?_⟩
          rw [hsub, List.take_succ_cons, List.countP_cons_of_neg (by decide)]
          omega
      · exact hjoin
    · rw [if_neg hc] at ih
      rw [numbered, splitNumbered, if_neg hc, if_neg hc] at h
      · rw [splitLines, if_neg hc]
        cases hsplit : splitNumbered (numbered m rest) with
        | nil => exact absurd hsplit (splitNumbered_ne_nil _)
        | cons line lines =>
          cases hphysical : splitLines rest with
          | nil => exact absurd hphysical (splitLines_ne_nil rest)
          | cons first more =>
            rw [hsplit] at h ih
            rw [hphysical] at ih
            have hstep : ∀ k place : Nat, ((line :: lines).getD k [])[place]? = some n →
                m ≤ n ∧
                  n = m + k + (((c :: first) :: more).take (n - m)).countP (Continued ·) := by
              intro k place h
              obtain ⟨hle, heq⟩ := ih h
              refine ⟨hle, ?_⟩
              have hrest : rest ≠ [] := by
                rintro rfl
                rw [numbered, splitNumbered] at hsplit
                obtain ⟨rfl, rfl⟩ := List.cons.inj hsplit
                cases k <;> cases h
              rw [heq]
              congr 1
              rw [← heq]
              cases hsub : n - m with
              | zero => rfl
              | succ j =>
                rw [List.take_succ_cons, List.take_succ_cons, List.countP_cons, List.countP_cons,
                  decide_eq_decide.mpr (continued_cons hjoin hphysical hrest)]
            cases k with
            | succ k => exact hstep (k + 1) place h
            | zero =>
              cases place with
              | succ place => exact hstep 0 place h
              | zero =>
                obtain rfl : m = n := Option.some.inj h
                rw [Nat.sub_self]
                exact ⟨Nat.le_refl m, rfl⟩
      · exact hjoin
  | case3 m => cases k <;> cases h

/-- The lines above a place are joined to none exactly if its numbers in the source and among the
logical lines are the same. -/
theorem origin_eq_iff {text : Text} {k place n : Nat} (h : originAt text k place = some n) :
    n = k + 1 ↔ ∀ line ∈ (physicalLines text).take (n - 1), ¬ Continued line := by
  obtain ⟨-, heq⟩ := origin_eq h
  have hnone : ((physicalLines text).take (n - 1)).countP (Continued ·) = 0 ↔
      ∀ line ∈ (physicalLines text).take (n - 1), ¬ Continued line := by
    rw [List.countP_eq_zero]
    exact forall₂_congr fun line _ => by rw [decide_eq_true_eq]
  rw [← hnone]
  unfold physicalLines
  omega

/-! ### Line macros -/

/-- The text that is expanded for a reference. -/
def ExpandsTo (site : Site) (rest inner : Text) : Prop :=
  ∀ expand, (macroUse site expand rest).1 = expand inner

/-- What is read behind a backtick while a text is expanded: references of the text itself, and of
the bodies and arguments that they stand for. -/
inductive Reads (site : Site) : Nat → Text → Text → Prop
  | here {levels place : Nat} {text rest : Text}
      (href : (place, rest) ∈ references site 0 0 false text) : Reads site (levels + 1) text rest
  | within {levels place : Nat} {text rest inner rest' : Text}
      (href : (place, rest) ∈ references site 0 0 false text) (hinner : ExpandsTo site rest inner)
      (h : Reads site levels inner rest') : Reads site (levels + 1) text rest'

theorem macroUse_line {site : Site} {rest : Text} (h : (takeIdent rest).1 = "__LINE__".toList)
    (expand : Text → Text) :
    (macroUse site expand rest).1 = (Nat.repr site.currentLine).toList := by
  have hfile : ¬ "__LINE__".toList = "__FILE__".toList := by decide
  unfold macroUse
  dsimp only
  rw [h, if_neg hfile, if_pos rfl]

theorem expandText_reference {site : Site} {levels place : Nat} {text rest : Text}
    (href : (place, rest) ∈ references site 0 0 false text) :
    ∃ before after, expandText site (levels + 1) text =
      before ++ (macroUse site (fun t => expandText site levels t) rest).1 ++ after := by
  obtain ⟨-, -, out, hout⟩ := expandLoop_reference href fun t => expandText site levels t
  exact ⟨out, _, hout.trans (List.append_assoc _ _ _).symm⟩

/-- A line macro that is read comes out as the number of the line. -/
theorem Reads.expandText_line {site : Site} {levels : Nat} {text rest : Text}
    (h : Reads site levels text rest) (hname : (takeIdent rest).1 = "__LINE__".toList) :
    ∃ before after, expandText site levels text =
      before ++ (Nat.repr site.currentLine).toList ++ after := by
  induction h with
  | @here levels place text rest href =>
    obtain ⟨before, after, hout⟩ := @expandText_reference site levels place text rest href
    rw [macroUse_line hname] at hout
    exact ⟨before, after, hout⟩
  | @within levels place text rest inner rest' href hinner _ ih =>
    obtain ⟨before, after, hout⟩ := @expandText_reference site levels place text rest href
    obtain ⟨before', after', hinnerOut⟩ := ih hname
    rw [hinner, hinnerOut] at hout
    refine ⟨before ++ before', after' ++ after, hout.trans ?_⟩
    simp only [List.append_assoc]

/-! ### Lines of the output -/

theorem getElem_processLines {incl : Include} {path line : Text} {lines : List Text} {k : Nat}
    (h : lines[k]? = some line) (number : Nat) (s : State) :
    (processLines incl path number lines s).1[k]? = some (processLine incl path (number + k) line
      (processLines incl path number (lines.take k) s).2).1 := by
  induction lines generalizing number s k with
  | nil => cases h
  | cons first lines ih =>
    cases k with
    | zero =>
      obtain rfl : first = line := Option.some.inj h
      rfl
    | succ k =>
      rw [List.getElem?_cons_succ] at h
      have hrest := ih h (number + 1) (processLine incl path number first s).2
      rw [Nat.add_assoc, Nat.add_comm 1 k] at hrest
      exact hrest

section

variable {Path : Type} [DecidableEq Path] (files : Files Path) (includeDirs : List Path)
  (p : Preprocessor Path) (sourcePath text : Text)

/-- The macros and levels that the `k`-th logical line sees. -/
def stateAt (k : Nat) : State :=
  stateAfter (includeOf files includeDirs p sourcePath) sourcePath p.macros
    ((logicalLines text).take k)

def siteAt (k : Nat) : Site :=
  ⟨(stateAt files includeDirs p sourcePath text k).macros, sourcePath, k + 1⟩

/-- The `k`-th logical line is expanded. -/
structure Expands (k : Nat) (line : Text) : Prop where
  found : (logicalLines text)[k]? = some line
  isText : IsText line
  emits : emitting (stateAt files includeDirs p sourcePath text k).cond = true

/-- A character of an expanded line that is no blank and stands on the `n`-th physical line. -/
structure TextFrom (k : Nat) (line : Text) (place n : Nat) : Prop where
  expands : Expands files includeDirs p sourcePath text k line
  char : ∃ c, (line)[place]? = some c ∧ isWhitespace c = false
  origin : originAt text k place = some n

/-- The output has the lines of the source but those that are joined to the line above; the
characters of an expanded line come from lines of the source, and the text and the line macros of
the `n`-th one come out with its number, those in arguments and bodies as well. -/
structure KeepsLines : Prop where
  length : (splitLines (process files includeDirs p text sourcePath).1).length +
    (physicalLines text).dropLast.countP (Continued ·) = (physicalLines text).length
  output : ∀ k line, Expands files includeDirs p sourcePath text k line →
    (splitLines (process files includeDirs p text sourcePath).1)[k]? =
      some (expandText (siteAt files includeDirs p sourcePath text k) maxExpandDepth line)
  origin : ∀ k line place, Expands files includeDirs p sourcePath text k line →
    place < line.length → (originAt text k place).isSome = true
  kept : ∀ k line place n, TextFrom files includeDirs p sourcePath text k line place n → k + 1 = n
  lineMacro : ∀ k line place n, TextFrom files includeDirs p sourcePath text k line place n →
    ∀ rest, Reads (siteAt files includeDirs p sourcePath text k) maxExpandDepth line rest →
      (takeIdent rest).1 = "__LINE__".toList →
      (∀ expand, (macroUse (siteAt files includeDirs p sourcePath text k) expand rest).1 =
        (Nat.repr n).toList) ∧
      ∃ before after, (splitLines (process files includeDirs p text sourcePath).1)[k]? =
        some (before ++ (Nat.repr n).toList ++ after)

variable {files includeDirs p sourcePath text}

/-- Without includes the lines of the output are what the logical lines emit. -/
theorem splitLines_process (hmacros : AllSingle p.macros) (hpath : OneLine sourcePath)
    (hincl : ∀ line ∈ logicalLines text, NoInclude line) :
    splitLines (process files includeDirs p text sourcePath).1 =
      (processLines (includeOf files includeDirs p sourcePath) sourcePath 1 (logicalLines text)
        ⟨p.macros, []⟩).1 := by
  have hlines : ∀ line ∈ logicalLines text, OneLine line := fun _ h => oneLine_splitLines h
  refine splitLines_joinLines ?_ (oneLine_processLines hmacros hpath hlines hincl)
  rw [← List.length_pos_iff, length_processLines]
  exact List.length_pos_iff.mpr (splitLines_ne_nil _)

theorem output_expanded {k : Nat} {line : Text}
    (h : Expands files includeDirs p sourcePath text k line) :
    (processLines (includeOf files includeDirs p sourcePath) sourcePath 1 (logicalLines text)
      ⟨p.macros, []⟩).1[k]? =
      some (expandText (siteAt files includeDirs p sourcePath text k) maxExpandDepth line) := by
  rw [getElem_processLines h.found, Nat.add_comm 1 k]
  exact congrArg (some ∘ Prod.fst) (processLine_text h.isText h.emits)

/-- Line numbers survive exactly if no line is joined above a text that is expanded. -/
theorem keepsLines_iff (hmacros : AllSingle p.macros) (hpath : OneLine sourcePath)
    (hincl : ∀ line ∈ logicalLines text, NoInclude line) :
    KeepsLines files includeDirs p sourcePath text ↔
      ∀ k line place n, TextFrom files includeDirs p sourcePath text k line place n →
        ∀ above ∈ (physicalLines text).take (n - 1), ¬ Continued above := by
  have hlines := @splitLines_process _ _ files includeDirs p sourcePath text hmacros hpath hincl
  constructor
  · intro h k line place n hfrom
    exact (origin_eq_iff hfrom.origin).mp (h.kept k line place n hfrom).symm
  · intro h
    have hnumber : ∀ k line place n,
        TextFrom files includeDirs p sourcePath text k line place n → k + 1 = n :=
      fun k line place n hfrom =>
        ((origin_eq_iff hfrom.origin).mpr (h k line place n hfrom)).symm
    refine ⟨?_, fun k line hline => ?_, fun k line place hline => originAt_isSome hline.found,
      hnumber, fun k line place n hfrom rest hreads hname => ?_⟩
    · rw [hlines, length_processLines]
      exact length_logicalLines text
    · rw [hlines]
      exact output_expanded hline
    · obtain rfl : k + 1 = n := hnumber k line place n hfrom
      obtain ⟨before, after, hout⟩ := hreads.expandText_line hname
      refine ⟨macroUse_line hname, before, after, ?_⟩
      rw [hlines, output_expanded hfrom.expands, hout]
      rfl

end

theorem keepsLines_two_lines :
    KeepsLines noFiles [] ⟨Names.empty, []⟩ [] "a /* b\n */ `__LINE__".toList := by
  refine (keepsLines_iff (fun name m h => ?_) List.not_mem_nil ?_).mpr
    fun k line place n _ above habove => ?_
  · cases h
  · intro line hline rest
    have hnone : ∀ line ∈ logicalLines "a /* b\n */ `__LINE__".toList,
        directiveOf line = none ∨ (directiveOf line).map Prod.fst = some "__LINE__" := by
      decide +kernel
    intro heq
    rcases hnone line hline with h | h
    · rw [heq] at h
      cases h
    · have hne : "include" ≠ "__LINE__" := by decide
      rw [heq] at h
      exact hne (Option.some.inj h)
  · have hall : ∀ above ∈ physicalLines "a /* b\n */ `__LINE__".toList, ¬ Continued above := by
      decide +kernel
    exact hall above (List.mem_of_mem_take habove)

/-- The line behind a definition on two lines gets the number of the second one. -/
theorem line_after_continuation :
    ¬ KeepsLines noFiles [] ⟨Names.empty, []⟩ [] "`define A \\\n 1\n`__LINE__".toList := by
  intro h
  have hfrom : TextFrom noFiles [] ⟨Names.empty, []⟩ []
      "`define A \\\n 1\n`__LINE__".toList 1 "`__LINE__".toList 0 3 := by
    refine ⟨⟨by decide +kernel, fun directive rest hdirective => ?_, by decide +kernel⟩,
      ⟨'\x60', by decide +kernel, by decide⟩, by decide +kernel⟩
    have hname : directiveOf "`__LINE__".toList = some ("__LINE__", []) := by decide +kernel
    rw [hname] at hdirective
    obtain ⟨rfl, -⟩ := Prod.mk.inj (Option.some.inj hdirective)
    decide
  cases h.kept _ _ _ _ hfrom

end Eevee.Fe.LinePositions
