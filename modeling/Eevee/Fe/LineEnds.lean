/- What is expanded from one line stays one line, if all macros do. -/

import Mathlib.Data.List.Basic
import Mathlib.Data.List.TakeWhile
import Mathlib.Tactic.Common
import Mathlib.Tactic.SplitIfs
import Eevee.Fe.Conditionals
import Eevee.Fe.Prefixes
import Eevee.Fe.Splitting

set_option autoImplicit false
set_option relaxedAutoImplicit false

namespace Eevee.Fe.LineEnds

open Eevee.Lib.Tables
open Eevee.Fe.Scanning
open Eevee.Fe.Preprocess
open Eevee.Fe.Conditionals
open Eevee.Fe.Prefixes

def OneLine (text : Text) : Prop := '\n' ∉ text

/-- The body of a macro and the defaults of its parameters. -/
structure SingleLine (m : Macro) : Prop where
  body : OneLine m.body
  defaults : ∀ params, m.params = some params → ∀ param ∈ params, ∀ default,
    param.2 = some default → OneLine default

def AllSingle (macros : Names Macro) : Prop := ∀ name m, macros name = some m → SingleLine m

theorem OneLine.subset {text text' : Text} (h : OneLine text) (hsub : text' ⊆ text) :
    OneLine text' := fun hc => h (hsub hc)

theorem OneLine.append {text text' : Text} (h : OneLine text) (h' : OneLine text') :
    OneLine (text ++ text') := by
  intro hc
  rcases List.mem_append.mp hc with hc | hc
  · exact h hc
  · exact h' hc

theorem OneLine.cons {c : Char} {text : Text} (hc : c ≠ '\n') (h : OneLine text) :
    OneLine (c :: text) := by
  intro hmem
  rcases List.mem_cons.mp hmem with heq | hmem
  · exact hc heq.symm
  · exact h hmem

/-! ### Scanners -/

theorem trimStart_subset (text : Text) : trimStart text ⊆ text :=
  (List.dropWhile_sublist isWhitespace).subset

theorem trim_subset (text : Text) : trim text ⊆ text := by
  intro c hc
  have hreverse := trimStart_subset _ (List.mem_reverse.mp hc)
  exact trimStart_subset _ (List.mem_reverse.mp hreverse)

theorem takeIdent_subset (text : Text) :
    (takeIdent text).1 ⊆ text ∧ (takeIdent text).2 ⊆ text := by
  have hparts := takeIdent_parts text
  constructor
  · intro c hc
    rw [← hparts]
    exact List.mem_append_left _ hc
  · intro c hc
    rw [← hparts]
    exact List.mem_append_right _ hc

theorem oneLine_escape {text : Text} (h : OneLine text) : OneLine (escape text) := by
  induction text with
  | nil => exact h
  | cons c text ih =>
    have hc : c ≠ '\n' := fun heq => h (heq ▸ List.mem_cons_self)
    have hrest := ih (h.subset (List.subset_cons_self c text))
    unfold escape
    split_ifs
    · exact .cons (by decide) (.cons hc hrest)
    · exact .cons hc hrest

theorem removePastes_subset (text : Text) : removePastes text ⊆ text := by
  induction text using removePastes.induct with
  | case1 rest ih =>
    rw [removePastes]
    exact fun c hc => List.mem_cons_of_mem _ (List.mem_cons_of_mem _ (ih hc))
  | case2 c rest hpaste ih =>
    rw [removePastes]
    · exact List.cons_subset_cons c ih
    · exact hpaste
  | case3 =>
    rw [removePastes]
    exact List.Subset.refl _

theorem subset_intercalate {sep : Char} {pieces : List Text} {piece : Text}
    (h : piece ∈ pieces) : piece ⊆ [sep].intercalate pieces := by
  induction pieces with
  | nil => cases h
  | cons first pieces ih =>
    cases pieces with
    | nil =>
      rw [List.mem_singleton.mp h, List.intercalate_singleton]
      exact List.Subset.refl _
    | cons second pieces =>
      rw [List.intercalate_cons_cons]
      rcases List.mem_cons.mp h with rfl | h
      · exact fun c hc => List.mem_append_left _ (List.mem_append_left _ hc)
      · exact fun c hc => List.mem_append_right _ (ih h hc)

theorem splitTopLevel_subset {text piece : Text} {sep : Char}
    (h : piece ∈ splitTopLevel text sep) : piece ⊆ text := by
  have hwhole := Splitting.intercalate_topLevelPieces sep 0 false [] text
  intro c hc
  have hmem := @subset_intercalate sep _ _ h c hc
  unfold splitTopLevel at hmem
  rwa [hwhole] at hmem

theorem default_subset {text default : Text} {param : String × Option Text}
    (h : param ∈ parseParams text) (hdefault : param.2 = some default) : default ⊆ text := by
  unfold parseParams at h
  obtain ⟨chunk, hchunk, rfl⟩ := List.mem_map.mp h
  obtain ⟨piece, hpiece, rfl⟩ := List.mem_map.mp (List.mem_filter.mp hchunk).1
  unfold parseParam at hdefault
  split_ifs at hdefault
  · rw [← Option.some.inj hdefault]
    intro c hc
    have hdrop := List.mem_of_mem_drop (trim_subset _ hc)
    exact splitTopLevel_subset hpiece (trim_subset _ ((List.dropWhile_sublist _).subset hdrop))

/-! ### Expansion -/

section

variable {bound : Names Text}

theorem oneLine_insert (h : ∀ name value, bound name = some value → OneLine value)
    {value : Text} (hvalue : OneLine value) (name : String) :
    ∀ name' value', bound.insert name value name' = some value' → OneLine value' := by
  intro name' value' hfound
  by_cases heq : name' = name
  · rw [heq, Names.insert_self] at hfound
    rwa [← Option.some.inj hfound]
  · rw [Names.insert_of_ne _ heq] at hfound
    exact h name' value' hfound

theorem oneLine_getD {default : Option Text} (h : ∀ text, default = some text → OneLine text) :
    OneLine (default.getD []) := by
  cases default with
  | none => exact List.not_mem_nil
  | some text => exact h text rfl

theorem oneLine_bindParams {params : List (String × Option Text)} {args : List Text}
    (hparams : ∀ param ∈ params, ∀ default, param.2 = some default → OneLine default)
    (hargs : ∀ arg ∈ args, OneLine arg)
    (hbound : ∀ name value, bound name = some value → OneLine value) :
    ∀ name value, bindParams params args bound name = some value → OneLine value := by
  induction params generalizing args bound with
  | nil =>
    unfold bindParams
    exact hbound
  | cons param params ih =>
    obtain ⟨name, default⟩ := param
    have hdefault : OneLine (default.getD []) :=
      oneLine_getD fun text htext => hparams _ List.mem_cons_self text htext
    have hrest := fun param hparam => hparams param (List.mem_cons_of_mem _ hparam)
    cases args with
    | nil =>
      unfold bindParams
      exact ih hrest hargs (oneLine_insert hbound hdefault name)
    | cons arg args =>
      have harg : OneLine (if (trim arg).isEmpty then default.getD [] else trim arg) := by
        split_ifs
        · exact hdefault
        · exact (hargs arg List.mem_cons_self).subset (trim_subset arg)
      unfold bindParams
      exact ih hrest (fun arg' harg' => hargs arg' (List.mem_cons_of_mem _ harg'))
        (oneLine_insert hbound harg name)

theorem oneLine_substituteParams (hbound : ∀ name value, bound name = some value → OneLine value)
    {skip : Nat} {text : Text} (h : OneLine text) : OneLine (substituteParams bound skip text) := by
  induction text generalizing skip with
  | nil =>
    unfold substituteParams
    exact h
  | cons c rest ih =>
    have hc : c ≠ '\n' := fun heq => h (heq ▸ List.mem_cons_self)
    have hrest : ∀ skip, OneLine (substituteParams bound skip rest) :=
      fun skip => ih (h.subset (List.subset_cons_self c rest))
    cases skip with
    | succ skip =>
      unfold substituteParams
      exact hrest skip
    | zero =>
      unfold substituteParams
      split_ifs
      · refine .append ?_ (hrest _)
        cases hfound : bound (String.ofList (takeIdent (c :: rest)).1) with
        | none => exact h.subset (takeIdent_subset _).1
        | some value => exact hbound _ value hfound
      · exact .cons hc (hrest 0)

end

theorem oneLine_applyMacro {params : List (String × Option Text)} {body : Text} {args : List Text}
    (hparams : ∀ param ∈ params, ∀ default, param.2 = some default → OneLine default)
    (hbody : OneLine body) (hargs : ∀ arg ∈ args, OneLine arg) :
    OneLine (applyMacro params body args) := by
  have hbound := @oneLine_bindParams Names.empty params args hparams hargs (by
    intro name value h
    cases h)
  exact (oneLine_substituteParams hbound hbody).subset (removePastes_subset _)

theorem oneLine_repr (n : Nat) : OneLine (Nat.repr n).toList := by
  intro h
  rw [Nat.toList_repr] at h
  have hdigit := Nat.isDigit_of_mem_toDigits (by decide) (by decide) h
  cases hdigit

section

variable {site : Site}

theorem oneLine_macroUse (hmacros : AllSingle site.macros) (hfile : OneLine site.currentFile)
    {expand : Text → Text} (hexpand : ∀ text, OneLine text → OneLine (expand text)) {text : Text}
    (h : OneLine text) : OneLine (macroUse site expand text).1 := by
  have hname : OneLine (takeIdent text).1 := h.subset (takeIdent_subset text).1
  have hafter : OneLine (takeIdent text).2 := h.subset (takeIdent_subset text).2
  have hraw : OneLine ('\x60' :: (takeIdent text).1) := .cons (by decide) hname
  unfold macroUse
  dsimp only
  by_cases hfileName : (takeIdent text).1 = "__FILE__".toList
  · rw [if_pos hfileName]
    exact .cons (by decide) (.append (oneLine_escape hfile) (.cons (by decide) List.not_mem_nil))
  rw [if_neg hfileName]
  by_cases hlineName : (takeIdent text).1 = "__LINE__".toList
  · rw [if_pos hlineName]
    exact oneLine_repr _
  rw [if_neg hlineName]
  cases hfound : site.macros (String.ofList (takeIdent text).1) with
  | none => exact hraw
  | some mac =>
    have hsingle := hmacros _ _ hfound
    obtain ⟨_ | params, body⟩ := mac
    · exact hexpand _ hsingle.body
    · dsimp only
      split
      · exact hraw
      · refine hexpand _ (oneLine_applyMacro (hsingle.defaults params rfl) hsingle.body ?_)
        intro arg harg
        refine hafter.subset fun c hc => ?_
        have hcall := List.mem_of_mem_take (List.mem_of_mem_drop (splitTopLevel_subset harg hc))
        exact (List.dropWhile_sublist _).subset hcall

theorem oneLine_expandLoop (hmacros : AllSingle site.macros) (hfile : OneLine site.currentFile)
    {expand : Text → Text} (hexpand : ∀ text, OneLine text → OneLine (expand text)) {skip : Nat}
    {inStr : Bool} {text : Text} (h : OneLine text) :
    OneLine (expandLoop site expand skip inStr text) := by
  induction text generalizing skip inStr with
  | nil =>
    unfold expandLoop
    exact h
  | cons c rest ih =>
    have hc : c ≠ '\n' := fun heq => h (heq ▸ List.mem_cons_self)
    have htail : OneLine rest := h.subset (List.subset_cons_self c rest)
    have hrest : ∀ skip inStr, OneLine (expandLoop site expand skip inStr rest) :=
      fun _ _ => ih htail
    cases skip with
    | succ skip =>
      unfold expandLoop
      exact hrest skip inStr
    | zero =>
      unfold expandLoop
      split_ifs
      · exact .cons hc (hrest _ _)
      · exact .cons hc (hrest _ _)
      · exact .cons (by decide) (hrest _ _)
      · exact hrest _ _
      · exact .append (oneLine_macroUse hmacros hfile hexpand htail) (hrest _ _)
      · exact .cons hc (hrest _ _)

theorem oneLine_expandText (hmacros : AllSingle site.macros) (hfile : OneLine site.currentFile)
    {levels : Nat} {text : Text} (h : OneLine text) : OneLine (expandText site levels text) := by
  induction levels generalizing text with
  | zero =>
    unfold expandText
    exact h
  | succ levels ih =>
    unfold expandText
    exact oneLine_expandLoop hmacros hfile (fun _ => ih) h

end

/-! ### Definitions and lines -/

section

variable {macros : Names Macro}

theorem allSingle_insert (h : AllSingle macros) {m : Macro} (hm : SingleLine m) (name : String) :
    AllSingle (macros.insert name m) := by
  intro name' m' hfound
  by_cases heq : name' = name
  · rw [heq, Names.insert_self] at hfound
    rwa [← Option.some.inj hfound]
  · rw [Names.insert_of_ne _ heq] at hfound
    exact h name' m' hfound

theorem allSingle_handleDefine (h : AllSingle macros) {rest : Text} (hrest : OneLine rest) :
    AllSingle (handleDefine rest macros) := by
  have hafter : OneLine (takeIdent (trimStart rest)).2 :=
    (hrest.subset (trimStart_subset rest)).subset (takeIdent_subset _).2
  unfold handleDefine
  dsimp only
  by_cases hname : (takeIdent (trimStart rest)).1.isEmpty = true
  · rw [if_pos hname]
    exact h
  · rw [if_neg hname]
    split
    · next close =>
      refine allSingle_insert h ⟨?_, fun params hparams param hparam default hdefault => ?_⟩ _
      · exact hafter.subset fun c hc => List.mem_of_mem_drop (trim_subset _ hc)
      · rw [← Option.some.inj hparams] at hparam
        exact hafter.subset fun c hc =>
          List.mem_of_mem_take (List.mem_of_mem_drop (default_subset hparam hdefault hc))
    · refine allSingle_insert h ⟨hafter.subset (trim_subset _), fun params hparams => ?_⟩ _
      cases hparams

theorem allSingle_undefine (h : AllSingle macros) (name : String) :
    AllSingle (undefine name macros) := by
  intro other m hfound
  unfold undefine at hfound
  split_ifs at hfound
  exact h other m hfound

/-- A line that includes no file. -/
def NoInclude (line : Text) : Prop := ∀ rest, directiveOf line ≠ some ("include", rest)

variable {incl : Include} {path line : Text} {number : Nat}

theorem oneLine_expandLine (hmacros : AllSingle macros) (hpath : OneLine path)
    (hline : OneLine line) : OneLine (expandLine path number macros line) :=
  @oneLine_expandText ⟨macros, path, number⟩ hmacros hpath _ _ hline

theorem oneLine_runLine (hmacros : AllSingle macros) (hpath : OneLine path) (hline : OneLine line)
    (hincl : NoInclude line) : OneLine (runLine incl path number line macros).1 ∧
      AllSingle (runLine incl path number line macros).2 := by
  have hexpand : OneLine (expandLine path number macros line) :=
    oneLine_expandLine hmacros hpath hline
  cases hdirective : directiveOf line with
  | none =>
    rw [runLine_of_none hdirective]
    exact ⟨hexpand, hmacros⟩
  | some found =>
    obtain ⟨directive, rest⟩ := found
    have hrest : OneLine rest := by
      unfold directiveOf at hdirective
      split at hdirective
      · next after hafter =>
        have hsub := trimStart_subset line
        rw [hafter] at hsub
        rw [← (Prod.mk.inj (Option.some.inj hdirective)).2]
        exact hline.subset fun c hc => hsub (List.mem_cons_of_mem _ ((takeIdent_subset _).2 hc))
      · cases hdirective
    have hother : directive ≠ "include" := fun heq => hincl rest (by rw [hdirective, heq])
    rw [← activeDirective_eq_runLine hdirective]
    unfold activeDirective
    split_ifs
    · exact ⟨List.not_mem_nil, allSingle_handleDefine hmacros hrest⟩
    · exact ⟨List.not_mem_nil, allSingle_undefine hmacros _⟩
    · exact ⟨List.not_mem_nil, hmacros⟩
    · exact ⟨hexpand, hmacros⟩

/-- A line that includes nothing emits one line and defines macros of one line. -/
theorem oneLine_processLine {s : State} (hmacros : AllSingle s.macros) (hpath : OneLine path)
    (hline : OneLine line) (hincl : NoInclude line) :
    OneLine (processLine incl path number line s).1 ∧
      AllSingle (processLine incl path number line s).2.macros := by
  obtain ⟨macros, cond⟩ := s
  cases hkind : kindOf line with
  | opens negated name =>
    have hout : processLine incl path number line ⟨macros, cond⟩ = _ :=
      processLine_opening ⟨line, negated, name, hkind⟩
    rw [hout]
    exact ⟨List.not_mem_nil, hmacros⟩
  | branches name =>
    have hout : processLine incl path number line ⟨macros, cond⟩ = _ :=
      processLine_branching ⟨line, name, hkind⟩
    rw [hout]
    exact ⟨List.not_mem_nil, hmacros⟩
  | closes =>
    have hout : processLine incl path number line ⟨macros, cond⟩ = _ :=
      processLine_closing ⟨line, hkind⟩
    rw [hout]
    exact ⟨List.not_mem_nil, hmacros⟩
  | plain =>
    have hout : processLine incl path number line ⟨macros, cond⟩ = _ :=
      processLine_plain ⟨line, hkind⟩
    rw [hout]
    split_ifs
    · exact oneLine_runLine hmacros hpath hline hincl
    · exact ⟨List.not_mem_nil, hmacros⟩

theorem oneLine_processLines {lines : List Text} {s : State} (hmacros : AllSingle s.macros)
    (hpath : OneLine path) (hlines : ∀ line ∈ lines, OneLine line)
    (hincl : ∀ line ∈ lines, NoInclude line) :
    ∀ out ∈ (processLines incl path number lines s).1, OneLine out := by
  induction lines generalizing number s with
  | nil => exact fun out hout => absurd hout List.not_mem_nil
  | cons line lines ih =>
    have hfirst : OneLine (processLine incl path number line s).1 ∧
        AllSingle (processLine incl path number line s).2.macros :=
      oneLine_processLine hmacros hpath (hlines line List.mem_cons_self)
        (hincl line List.mem_cons_self)
    intro out hmem
    unfold processLines at hmem
    rcases List.mem_cons.mp hmem with rfl | hmem
    · exact hfirst.1
    · exact ih hfirst.2 (fun line' h => hlines line' (List.mem_cons_of_mem line h))
        (fun line' h => hincl line' (List.mem_cons_of_mem line h)) out hmem

theorem length_processLines (lines : List Text) (s : State) :
    (processLines incl path number lines s).1.length = lines.length := by
  induction lines generalizing number s with
  | nil => rfl
  | cons line lines ih =>
    unfold processLines
    exact congrArg (· + 1) (ih _)

end

/-! ### Splitting and joining -/

theorem oneLine_splitLines {text line : Text} (h : line ∈ splitLines text) : OneLine line := by
  induction text generalizing line with
  | nil =>
    rw [splitLines, List.mem_singleton] at h
    rw [h]
    exact List.not_mem_nil
  | cons c rest ih =>
    rw [splitLines] at h
    split_ifs at h with hc
    · rcases List.mem_cons.mp h with rfl | h
      · exact List.not_mem_nil
      · exact ih h
    · cases hrest : splitLines rest with
      | nil => exact absurd hrest (splitLines_ne_nil rest)
      | cons first lines =>
        rw [hrest] at h ih
        rcases List.mem_cons.mp h with rfl | h
        · exact .cons hc (ih List.mem_cons_self)
        · exact ih (List.mem_cons_of_mem first h)

theorem splitLines_oneLine {line : Text} (h : OneLine line) : splitLines line = [line] := by
  induction line with
  | nil => rfl
  | cons c rest ih =>
    have hc : c ≠ '\n' := fun heq => h (heq ▸ List.mem_cons_self)
    rw [splitLines, if_neg hc, ih (h.subset (List.subset_cons_self c rest))]

theorem splitLines_line {line : Text} (h : OneLine line) (rest : Text) :
    splitLines (line ++ '\n' :: rest) = line :: splitLines rest := by
  induction line with
  | nil => rw [List.nil_append, splitLines, if_pos rfl]
  | cons c line ih =>
    have hc : c ≠ '\n' := fun heq => h (heq ▸ List.mem_cons_self)
    rw [List.cons_append, splitLines, if_neg hc, ih (h.subset (List.subset_cons_self c line))]

/-- Single lines that are joined are the lines of the text they make. -/
theorem splitLines_joinLines {lines : List Text} (hnil : lines ≠ [])
    (h : ∀ line ∈ lines, OneLine line) : splitLines (joinLines lines) = lines := by
  induction lines with
  | nil => exact absurd rfl hnil
  | cons line lines ih =>
    have hline := h line List.mem_cons_self
    unfold joinLines at ih ⊢
    cases lines with
    | nil =>
      rw [List.intercalate_singleton]
      exact splitLines_oneLine hline
    | cons next lines =>
      rw [List.intercalate_cons_cons, List.append_assoc, List.singleton_append,
        splitLines_line hline, ih (List.cons_ne_nil _ _)
          fun line' h' => h line' (List.mem_cons_of_mem line h')]

end Eevee.Fe.LineEnds
