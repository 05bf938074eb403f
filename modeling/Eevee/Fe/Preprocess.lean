/- The preprocessor: macro expansion, directives and the stack of conditional levels. -/

import Eevee.Fe.Scanning

set_option autoImplicit false
set_option relaxedAutoImplicit false

namespace Eevee.Fe.Preprocess

open Eevee.Lib.Tables
open Eevee.Fe.Scanning

def maxExpandDepth : Nat := 64

def maxIncludeDepth : Nat := 64

/-- Object-like without parameters, else function-like. -/
structure Macro where
  params : Option (List (String × Option Text))
  body : Text

/-- What macro references in a line see. -/
structure Site where
  macros : Names Macro
  currentFile : Text
  currentLine : Nat

/-! ### Macro expansion -/

/-- Parameters without an argument, or with a blank one, get their defaults. -/
def bindParams : List (String × Option Text) → List Text → Names Text → Names Text
  | [], _, bound => bound
  | (name, default) :: params, [], bound =>
    bindParams params [] (bound.insert name (default.getD []))
  | (name, default) :: params, arg :: args, bound =>
    bindParams params args
      (bound.insert name (if (trim arg).isEmpty then default.getD [] else trim arg))

def applyMacro (params : List (String × Option Text)) (body : Text) (args : List Text) : Text :=
  removePastes (substituteParams (bindParams params args Names.empty) 0 body)

/-- The text that replaces a reference, given what follows its backtick, and how much of that
the reference takes. -/
def macroUse (site : Site) (expand : Text → Text) (text : Text) : Text × Nat :=
  let (name, after) := takeIdent text
  if name = "__FILE__".toList then ('"' :: escape site.currentFile ++ ['"'], name.length)
  else if name = "__LINE__".toList then ((Nat.repr site.currentLine).toList, name.length)
  else
    match site.macros (String.ofList name) with
    | none => ('\x60' :: name, name.length)
    | some ⟨none, body⟩ => (expand body, name.length)
    | some ⟨some params, body⟩ =>
      let isBlank := fun c : Char => c = ' ' ∨ c = '\t'
      let call := after.dropWhile isBlank
      match (if call.head? = some '(' then findMatchingParen call else none) with
      | none => ('\x60' :: name, name.length)
      | some close =>
        (expand (applyMacro params body (splitTopLevel ((call.take close).drop 1) ',')),
          name.length + (after.takeWhile isBlank).length + close + 1)

/-- The loop of `expand_text`; the number counts the characters already consumed. -/
def expandLoop (site : Site) (expand : Text → Text) : Nat → Bool → Text → Text
  | _, _, [] => []
  | skip + 1, inStr, _ :: rest => expandLoop site expand skip inStr rest
  | 0, inStr, c :: rest =>
    if c = '"' then c :: expandLoop site expand 0 (!inStr) rest
    else if inStr ∨ c ≠ '\x60' then c :: expandLoop site expand 0 inStr rest
    else if rest.head? = some '"' then '"' :: expandLoop site expand 1 false rest
    else if rest.head? = some '\x60' then expandLoop site expand 1 false rest
    else if (rest.head?.map isIdentStart).getD false then
      (macroUse site expand rest).1 ++
        expandLoop site expand (macroUse site expand rest).2 false rest
    else c :: expandLoop site expand 0 false rest

/-- The number is how many levels of expansion are left. -/
def expandText (site : Site) : Nat → Text → Text
  | 0, text => text
  | levels + 1, text => expandLoop site (fun t => expandText site levels t) 0 false text

/-! ### Definitions and files -/

def handleDefine (rest : Text) (macros : Names Macro) : Names Macro :=
  let (name, after) := takeIdent (trimStart rest)
  if name.isEmpty then macros
  else
    -- Only a parenthesis directly after the name starts a parameter list.
    match (if after.head? = some '(' then findMatchingParen after else none) with
    | some close =>
      macros.insert (String.ofList name)
        ⟨some (parseParams ((after.take close).drop 1)), trim (after.drop (close + 1))⟩
    | none => macros.insert (String.ofList name) ⟨none, trim after⟩

def undefine (name : String) (macros : Names Macro) : Names Macro :=
  fun other => if other = name then none else macros other

/-- Directives that consume their line and emit nothing. -/
def isPassthrough (directive : String) : Bool :=
  directive ∈ ["timescale", "default_nettype", "celldefine", "endcelldefine", "resetall",
    "unconnected_drive", "nounconnected_drive", "line", "begin_keywords", "end_keywords",
    "protect", "endprotect", "protected", "endprotected", "pragma"]

/-- The file system, as far as includes use it. -/
structure Files (Path : Type) where
  path : Text → Path
  display : Path → Text
  parent : Path → Option Path
  join : Path → Text → Path
  isFile : Path → Bool
  read : Path → Option Text

/-- Relative to the including file's directory first, then in the include directories. -/
def resolveInclude {Path : Type} (files : Files Path) (includeDirs : List Path)
    (fname sourcePath : Text) : Option Path :=
  (((files.parent (files.path sourcePath)).toList ++ includeDirs).map
    fun dir => files.join dir fname).find? files.isFile

/-! ### Conditional levels -/

/-- One level of conditional compilation: whether the enclosing context emitted when it opened,
whether one of its branches is already taken, and whether its current branch emits. -/
structure Cond where
  parentActive : Bool
  taken : Bool
  active : Bool

/-- The innermost level comes first. -/
def emitting : List Cond → Bool
  | [] => true
  | top :: _ => top.active

def openLevel (want : Bool) (cond : List Cond) : List Cond :=
  ⟨emitting cond, want, emitting cond && want⟩ :: cond

/-- The next branch of the innermost level, with its condition; an `else` has none. -/
def nextBranch (holds : Bool) : List Cond → List Cond
  | [] => []
  | top :: cond =>
    if !top.taken && top.parentActive && holds then
      { top with active := true, taken := true } :: cond
    else { top with active := false } :: cond

/-- What the lines of one text read and change. -/
structure State where
  macros : Names Macro
  cond : List Cond

/-- Includes run with the macros defined so far, and may define more. -/
abbrev Include := Text → Names Macro → Text × Names Macro

def expandLine (path : Text) (number : Nat) (macros : Names Macro) (line : Text) : Text :=
  expandText ⟨macros, path, number⟩ maxExpandDepth line

/-- A directive other than the conditional ones, where the levels let it through. -/
def activeDirective (incl : Include) (path : Text) (number : Nat) (line : Text)
    (directive : String) (rest : Text) (macros : Names Macro) : Text × Names Macro :=
  if directive = "define" then ([], handleDefine rest macros)
  else if directive = "undef" then ([], undefine (firstToken rest) macros)
  else if directive = "include" then
    match parseIncludeFilename rest with
    | some fname => incl fname macros
    | none => ([], macros)
  else if isPassthrough directive then ([], macros)
  else (expandLine path number macros line, macros)

/-- What one line emits. -/
def processLine (incl : Include) (path : Text) (number : Nat) (line : Text) (s : State) :
    Text × State :=
  match trimStart line with
  | '\x60' :: after =>
    let (ident, rest) := takeIdent after
    let directive := String.ofList ident
    let defined := (s.macros (firstToken rest)).isSome
    if directive = "ifdef" then ([], { s with cond := openLevel defined s.cond })
    else if directive = "ifndef" then ([], { s with cond := openLevel (!defined) s.cond })
    else if directive = "elsif" then ([], { s with cond := nextBranch defined s.cond })
    else if directive = "else" then ([], { s with cond := nextBranch true s.cond })
    else if directive = "endif" then ([], { s with cond := s.cond.tail })
    else if !emitting s.cond then ([], s)
    else
      let (out, macros) := activeDirective incl path number line directive rest s.macros
      (out, { s with macros })
  | _ =>
    if emitting s.cond then (expandLine path number s.macros line, s) else ([], s)

def processLines (incl : Include) (path : Text) : Nat → List Text → State → List Text × State
  | _, [], s => ([], s)
  | number, line :: lines, s =>
    let (out, s) := processLine incl path number line s
    let (outs, s) := processLines incl path (number + 1) lines s
    (out :: outs, s)

/-- The lines of one text, from no open level. -/
def processText (incl : Include) (path : Text) (text : Text) (macros : Names Macro) :
    Text × Names Macro :=
  let (outs, s) := processLines incl path 1 (logicalLines text) ⟨macros, []⟩
  (joinLines outs, s.macros)

/-! ### Includes and whole texts -/

section

variable {Path : Type} [DecidableEq Path] (files : Files Path) (includeDirs : List Path)

/-- The number is how many more files may be open. -/
def doInclude : Nat → List Path → Text → Include
  | 0, _, _, fname, macros => ("// `include depth limit exceeded for ".toList ++ fname, macros)
  | levels + 1, includeStack, sourcePath, fname, macros =>
    match resolveInclude files includeDirs fname sourcePath with
    | none => ("// `include not found: ".toList ++ fname, macros)
    | some resolved =>
      if resolved ∈ includeStack then ("// recursive `include skipped: ".toList ++ fname, macros)
      else
        match files.read resolved with
        | none => ("// `include read error: ".toList ++ fname, macros)
        | some inner =>
          processText
            (fun fname macros =>
              doInclude levels (resolved :: includeStack) (files.display resolved) fname macros)
            (files.display resolved) inner macros

/-- The files open and the macros defined between two texts. -/
structure Preprocessor (Path : Type) where
  macros : Names Macro
  includeStack : List Path

def process (p : Preprocessor Path) (text sourcePath : Text) : Text × Preprocessor Path :=
  let (out, macros) := processText
    (doInclude files includeDirs (maxIncludeDepth - p.includeStack.length) p.includeStack
      sourcePath)
    sourcePath text p.macros
  (out, { p with macros })

end

end Eevee.Fe.Preprocess
