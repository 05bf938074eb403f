/- The literals of a source survive preprocessing exactly when expansion meets no escaped quote,
and substitution and pasting nothing of theirs, inside a literal. -/

import Eevee.Fe.Conditionals
import Eevee.Fe.Joining
import Eevee.Fe.Literals

set_option autoImplicit false
set_option relaxedAutoImplicit false

namespace Eevee.Fe.Opacity

open Eevee.Lib.Tables
open Eevee.Fe.Scanning
open Eevee.Fe.Preprocess
open Eevee.Fe.Conditionals (noFiles)
open Eevee.Fe.Joining
open Eevee.Fe.Literals

/-! ### Opaque expansion -/

/-- The body of a macro with its arguments, its literals left alone. -/
def opaqueMacro (params : List (String × Option Text)) (body : Text) (args : List Text) : Text :=
  pasteOutside .code (substituteOutside (bindParams params args Names.empty) body)

/-- A macro reference, for any way to apply a macro to its arguments. -/
def useWith (apply : List (String × Option Text) → Text → List Text → Text) (site : Site)
    (expand : Text → Text) (text : Text) : Text × Nat :=
  let (name, after) := takeIdent text
  if name = "__FILE__".toList then ('"' :: escape site.currentFile ++ ['"'], name.length)
  else if name = "__LINE__".toList then ((Nat.repr site.currentLine).toList, name.length)
  else
    match site.macros (String.ofList name) with
    | none => ('\x60' :: name, name.length)
    | some ⟨none, body⟩ => (expand body, name.length)
    | some ⟨some params, body⟩ =>
      let isBlank := fun c : Char => c = ' ' ∨ c = '\t'
      let call := after.dropWhile isBlank
      match (if call.head? = some '(' then findMatchingParen call else none) with
      | none => ('\x60' :: name, name.length)
      | some close =>
        (expand (apply params body (splitTopLevel ((call.take close).drop 1) ',')),
          name.length + (after.takeWhile isBlank).length + close + 1)

theorem macroUse_eq (site : Site) (expand : Text → Text) (text : Text) :
    macroUse site expand text = useWith applyMacro site expand text := rfl

/-- The scan of a reader who minds literals. -/
def opaqueLoop (site : Site) (use : Text → Text) : Nat → Place → Text → Text
  | _, _, [] => []
  | skip + 1, _, _ :: rest => opaqueLoop site use skip .code rest
  | 0, p, c :: rest =>
    emitted use p.inside c rest ++ opaqueLoop site use (p.skip site c rest) (p.after c) rest

/-- Expansion as it is meant: literals are copied, in lines, bodies and arguments alike. -/
def opaqueText (site : Site) : Nat → Text → Text
  | 0, text => text
  | levels + 1, text =>
    opaqueLoop site (fun t => (useWith opaqueMacro site (fun t => opaqueText site levels t) t).1) 0
      .code text

/-! ### What an expansion comes to -/

section

variable (site : Site) (apply : List (String × Option Text) → Text → List Text → Prop)

/-- A property of the application that a reference makes, and one of the text that is expanded for
it. -/
def InUse (inner : Text → Prop) (text : Text) : Prop :=
  let (name, after) := takeIdent text
  if name = "__FILE__".toList then True
  else if name = "__LINE__".toList then True
  else
    match site.macros (String.ofList name) with
    | none => True
    | some ⟨none, body⟩ => inner body
    | some ⟨some params, body⟩ =>
      let call := after.dropWhile fun c : Char => c = ' ' ∨ c = '\t'
      match (if call.head? = some '(' then findMatchingParen call else none) with
      | none => True
      | some close =>
        let args := splitTopLevel ((call.take close).drop 1) ','
        apply params body args ∧ inner (applyMacro params body args)

/-- A property of every reference that a scan comes to. -/
def InLoop (use : Text → Prop) : Nat → Bool → Text → Prop
  | _, _, [] => True
  | skip + 1, inStr, _ :: rest => InLoop use skip inStr rest
  | 0, inStr, c :: rest =>
    (inStr = false → c = '\x60' → (rest.head?.map isIdentStart).getD false = true → use rest) ∧
      InLoop use (advance site inStr c rest).1 (advance site inStr c rest).2 rest

/-- A property of every text that an expansion scans, and one of every application it makes. -/
def InExpansion (scan : Text → Prop) : Nat → Text → Prop
  | 0, _ => True
  | levels + 1, text =>
    scan text ∧ InLoop site (InUse site apply (fun t => InExpansion scan levels t)) 0 false text

end

/-- Each stage of an application leaves the literals alone. -/
def Keeps (params : List (String × Option Text)) (body : Text) (args : List Text) : Prop :=
  let bound := bindParams params args Names.empty
  substituteParams bound 0 body = substituteOutside bound body ∧
    removePastes (substituteParams bound 0 body) =
      pasteOutside .code (substituteParams bound 0 body)

/-- Parameters named in literals of the body are bound to their own names, and no literal has two
backticks in a row after substitution. -/
def Free (params : List (String × Option Text)) (body : Text) (args : List Text) : Prop :=
  let bound := bindParams params args Names.empty
  (∀ w ∈ identsRead 0 .code body, w.1.inside = true →
    ∀ value, bound (String.ofList w.2) = some value → value = w.2) ∧
    pastesInside .code (substituteParams bound 0 body) = 0

theorem keeps_iff (params : List (String × Option Text)) (body : Text) (args : List Text) :
    Keeps params body args ↔ Free params body args :=
  and_congr (substitute_opaque_iff _ body) (paste_opaque_iff .code _)

theorem Keeps.applyMacro_eq {params : List (String × Option Text)} {body : Text} {args : List Text}
    (h : Keeps params body args) : applyMacro params body args = opaqueMacro params body args := by
  rw [applyMacro, opaqueMacro, ← h.1]
  exact h.2

section

variable {site : Site}

theorem InLoop.mono {use use' : Text → Prop} (h : ∀ text, use text → use' text) {skip : Nat}
    {inStr : Bool} {text : Text} (hloop : InLoop site use skip inStr text) :
    InLoop site use' skip inStr text := by
  induction text generalizing skip inStr with
  | nil => cases skip <;> trivial
  | cons c rest ih =>
    cases skip with
    | succ skip => exact ih hloop
    | zero => exact ⟨fun hcode htick hident => h rest (hloop.1 hcode htick hident), ih hloop.2⟩

theorem emitted_congr {use use' : Text → Text} {inStr : Bool} {c : Char} {rest : Text}
    (h : inStr = false → c = '\x60' → (rest.head?.map isIdentStart).getD false = true →
      use rest = use' rest) : emitted use inStr c rest = emitted use' inStr c rest := by
  unfold emitted
  split
  · rfl
  · rename_i hcode
    obtain ⟨hstr, htick⟩ := not_or.mp hcode
    split
    · rfl
    · split
      · rfl
      · split
        · rename_i hident
          exact h (by simpa using hstr) (by simpa using htick) hident
        · rfl

theorem expandLoop_opaque {expand use : Text → Text} {skip : Nat} {inStr : Bool} {p : Place}
    {text : Text} (hreads : ReadsLiterals site skip inStr p text)
    (huse : InLoop site (fun t => (macroUse site expand t).1 = use t) skip inStr text) :
    expandLoop site expand skip inStr text = opaqueLoop site use skip p text := by
  induction text generalizing skip inStr p with
  | nil => cases skip <;> rfl
  | cons c rest ih =>
    cases skip with
    | succ skip => exact ih hreads huse
    | zero =>
      obtain ⟨rfl, hreads⟩ := hreads
      rw [expandLoop_cons, opaqueLoop, emitted_congr huse.1, ih hreads huse.2, advance_skip]

theorem useWith_opaque {expand expand' : Text → Text} {inner : Text → Prop} {text : Text}
    (hinner : ∀ t, inner t → expand t = expand' t) (h : InUse site Keeps inner text) :
    (useWith applyMacro site expand text).1 = (useWith opaqueMacro site expand' text).1 := by
  unfold useWith
  unfold InUse at h
  generalize takeIdent text = ident at h ⊢
  obtain ⟨name, after⟩ := ident
  dsimp only at h ⊢
  by_cases hfile : name = "__FILE__".toList
  · rw [if_pos hfile, if_pos hfile]
  by_cases hline : name = "__LINE__".toList
  · rw [if_neg hfile, if_neg hfile, if_pos hline, if_pos hline]
  rw [if_neg hfile, if_neg hline] at h
  rw [if_neg hfile, if_neg hfile, if_neg hline, if_neg hline]
  cases hlookup : site.macros (String.ofList name) with
  | none => rfl
  | some found =>
    obtain ⟨params, body⟩ := found
    rw [hlookup] at h
    cases params with
    | none => exact hinner body h
    | some params =>
      dsimp only at h ⊢
      generalize hcall : (after.dropWhile fun c : Char => decide (c = ' ' ∨ c = '\t')) = call at h ⊢
      cases hclose : (if call.head? = some '(' then findMatchingParen call else none) with
      | none => rfl
      | some close =>
        rw [hclose] at h
        dsimp only at h ⊢
        rw [← h.1.applyMacro_eq]
        exact hinner _ h.2

/-- Where all texts are read and all applications made as literals ask for, expansion is opaque. -/
theorem expandText_opaque {levels : Nat} {text : Text}
    (h : InExpansion site Keeps (ReadsLiterals site 0 false .code) levels text) :
    expandText site levels text = opaqueText site levels text := by
  induction levels generalizing text with
  | zero => rfl
  | succ levels ih =>
    refine expandLoop_opaque h.1 (h.2.mono fun t ht => ?_)
    rw [macroUse_eq]
    exact useWith_opaque (fun t ht => ih ht) ht

/-- A line is expanded as it is meant, and so is every text and every application on the way. -/
def LineOpaque (site : Site) (line : Text) : Prop :=
  InExpansion site Keeps (ReadsLiterals site 0 false .code) maxExpandDepth line ∧
    expandText site maxExpandDepth line = opaqueText site maxExpandDepth line

/-- No text on the way has an escaped quote in a literal that is read before its end, and no
application touches a literal. -/
def LinePlain (site : Site) (line : Text) : Prop :=
  InExpansion site Free (NoEscapedQuote site 0 .code) maxExpandDepth line

theorem lineOpaque_iff (site : Site) (line : Text) :
    LineOpaque site line ↔ LinePlain site line := by
  have happly : Keeps = Free := by
    funext params body args
    exact propext (keeps_iff params body args)
  have hscan : ReadsLiterals site 0 false .code = NoEscapedQuote site 0 .code := by
    funext text
    exact propext (readsLiterals_iff (p := .code) (fun h => absurd rfl h) text)
  rw [LinePlain, ← happly, ← hscan]
  exact ⟨fun h => h.1, fun h => ⟨h, expandText_opaque h⟩⟩

end

/-! ### Sources -/

/-- The scan of comments is in no string at a line end, where expansion starts anew. -/
def ClosedLines : Mode → Text → Prop
  | _, [] => True
  | .str, '\\' :: _ :: rest => ClosedLines .str rest
  | .str, '"' :: rest => ClosedLines .code rest
  | .str, c :: rest => c ≠ '\n' ∧ ClosedLines .str rest
  | .code, '"' :: rest => ClosedLines .str rest
  | .code, '/' :: '/' :: rest => ClosedLines .line rest
  | .code, '/' :: '*' :: rest => ClosedLines .block rest
  | .code, _ :: rest => ClosedLines .code rest
  | .line, '\n' :: rest => ClosedLines .code rest
  | .line, _ :: rest => ClosedLines .line rest
  | .block, '*' :: '/' :: rest => ClosedLines .code rest
  | .block, _ :: rest => ClosedLines .block rest

section

variable (onText : Text → Prop) (onLine : Site → Text → Prop)

/-- A property of the line if it is expanded, and one of the file if it includes one. -/
def InLine (included : Text → Names Macro → Prop) (path : Text) (number : Nat) (line : Text)
    (s : State) : Prop :=
  match trimStart line with
  | '\x60' :: after =>
    let (ident, rest) := takeIdent after
    let directive := String.ofList ident
    if directive ∈ ["ifdef", "ifndef", "elsif", "else", "endif"] then True
    else if !emitting s.cond then True
    else if directive = "define" ∨ directive = "undef" then True
    else if directive = "include" then
      match parseIncludeFilename rest with
      | some fname => included fname s.macros
      | none => True
    else if isPassthrough directive then True
    else onLine ⟨s.macros, path, number⟩ line
  | _ => if emitting s.cond then onLine ⟨s.macros, path, number⟩ line else True

def InLines (incl : Include) (included : Text → Names Macro → Prop) (path : Text) :
    Nat → List Text → State → Prop
  | _, [], _ => True
  | number, line :: lines, s =>
    InLine onLine included path number line s ∧
      InLines incl included path (number + 1) lines (processLine incl path number line s).2

/-- A property of a text as it is written, and one of each of its lines that is expanded. -/
def InText (incl : Include) (included : Text → Names Macro → Prop) (path text : Text)
    (macros : Names Macro) : Prop :=
  onText (normalizeNewlines text) ∧
    ClosedLines .code (joinContinuations (normalizeNewlines text)) ∧
    InLines onLine incl included path 1 (logicalLines text) ⟨macros, []⟩

variable {Path : Type} [DecidableEq Path] (files : Files Path) (includeDirs : List Path)

def InInclude : Nat → List Path → Text → Text → Names Macro → Prop
  | 0, _, _, _, _ => True
  | levels + 1, includeStack, sourcePath, fname, macros =>
    match resolveInclude files includeDirs fname sourcePath with
    | none => True
    | some resolved =>
      if resolved ∈ includeStack then True
      else
        match files.read resolved with
        | none => True
        | some inner =>
          InText onText onLine
            (fun fname macros =>
              doInclude files includeDirs levels (resolved :: includeStack) (files.display resolved)
                fname macros)
            (fun fname macros =>
              InInclude levels (resolved :: includeStack) (files.display resolved) fname macros)
            (files.display resolved) inner macros

/-- Properties of a source and its includes, and of every line that is expanded while they are
processed. -/
def InProcess (p : Preprocessor Path) (text sourcePath : Text) : Prop :=
  let levels := maxIncludeDepth - p.includeStack.length
  InText onText onLine (doInclude files includeDirs levels p.includeStack sourcePath)
    (InInclude onText onLine files includeDirs levels p.includeStack sourcePath) sourcePath text
    p.macros

end

/-- The scans of comments, parentheses and arguments always pass over a literal as a whole, and
comments hide no literal and make none. Joining, expansion, substitution and pasting leave the
literals of a source and of its includes alone exactly when no line end is joined in a literal or
so that a line comment hides one, no text that is expanded has an escaped quote in a literal before
its end, no parameter that is named in a literal is bound to another text than its name, no literal
has two backticks in a row after substitution, and no string is open at a line end. -/
theorem literals_opaque_iff {Path : Type} [DecidableEq Path] (files : Files Path)
    (includeDirs : List Path) (p : Preprocessor Path) (text sourcePath : Text) :
    (∀ mid, Content mid → ∀ post,
        stripComments .code ('"' :: mid ++ '"' :: post) =
          '"' :: mid ++ '"' :: stripComments .code post ∧
        (∀ depth offset, matchingParen depth offset false ('"' :: mid ++ '"' :: post) =
          matchingParen depth (offset + mid.length + 2) false post) ∧
        ∀ sep depth piece, topLevelPieces sep depth false piece ('"' :: mid ++ '"' :: post) =
          topLevelPieces sep depth false ('"' :: (mid.reverse ++ '"' :: piece)) post) ∧
      (∀ source : Text, literalChars .code ((stripComments .code source).zipIdx 0) =
        literalChars .code (source.zipIdx 0)) ∧
      (InProcess JoinKeeps LineOpaque files includeDirs p text sourcePath ↔
        InProcess (JoinPlain .code .code) LinePlain files includeDirs p text sourcePath) := by
  refine ⟨fun mid h post => ?_, literalChars_stripComments .code 0, ?_⟩
  · exact ⟨stripComments_literal h post, matchingParen_literal h post,
      topLevelPieces_literal h post⟩
  · have htext : JoinKeeps = JoinPlain .code .code := by
      funext source
      exact propext (joinKeeps_iff source)
    have hline : LineOpaque = LinePlain := by
      funext site line
      exact propext (lineOpaque_iff site line)
    rw [htext, hline]

/-- A literal with a reference in it. -/
def quotedSource : Text := ['"', '\x60', 'M', '"']

def quotedMacros : Names Macro := Names.empty.insert "M" ⟨none, ['1']⟩

theorem literals_opaque_quoted :
    InProcess JoinKeeps LineOpaque noFiles [] ⟨quotedMacros, []⟩ quotedSource [] := by
  refine (literals_opaque_iff noFiles [] ⟨quotedMacros, []⟩ quotedSource []).2.2.mpr
    ⟨⟨rfl, rfl, rfl, rfl, trivial⟩, ⟨by decide, by decide, trivial⟩, ⟨?_, ?_⟩, trivial⟩
  · exact ⟨fun h => (by cases h), fun h => (by cases h), fun h => (by cases h),
      fun h => (by cases h), trivial⟩
  · exact ⟨fun _ h => absurd h (by decide), fun h => (by cases h), fun h => (by cases h),
      fun h => (by cases h), trivial⟩

/-- An escaped quote ends the string for the expansion, so a reference in the literal is expanded;
a parameter is replaced in the literal of a body; and a line end that is joined becomes a blank in
the literal around it. -/
theorem literals_changed :
    Content "\\\"`M".toList ∧
      (processText (fun _ macros => ([], macros)) []
        "`define M 1\n$display(\"\\\"`M\");".toList Names.empty).1 =
        "\n$display(\"\\\"1\");".toList ∧
      Content "x".toList ∧
      (processText (fun _ macros => ([], macros)) []
        "`define S(x) $display(\"x\")\n`S(y);".toList Names.empty).1 =
        "\n$display(\"y\");".toList ∧
      Content "a\\\nb".toList ∧
      (processText (fun _ macros => ([], macros)) [] "s = \"a\\\nb\";".toList Names.empty).1 =
        "s = \"a b\";".toList := by
  refine ⟨?_, by decide +kernel, ?_, by decide +kernel, ?_, by decide +kernel⟩
  · exact .escape '"' (.char (by decide) (by decide) (.char (by decide) (by decide) .nil))
  · exact .char (by decide) (by decide) .nil
  · exact .char (by decide) (by decide) (.escape '\n' (.char (by decide) (by decide) .nil))

end Eevee.Fe.Opacity
