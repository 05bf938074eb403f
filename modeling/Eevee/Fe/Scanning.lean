/- The scanners of the preprocessor, over texts as lists of characters. -/

import Mathlib.Tactic.Common
import Eevee.Lib.Tables

set_option autoImplicit false
set_option relaxedAutoImplicit false

namespace Eevee.Fe.Scanning

open Eevee.Lib.Tables

abbrev Text := List Char

/-! ### Characters and words -/

/-- The characters with the Unicode property `White_Space`. -/
def isWhitespace (c : Char) : Bool :=
  let n := c.toNat
  (9 ≤ n && n ≤ 13) || n = 0x20 || n = 0x85 || n = 0xa0 || n = 0x1680 ||
    (0x2000 ≤ n && n ≤ 0x200a) || n = 0x2028 || n = 0x2029 || n = 0x202f || n = 0x205f ||
    n = 0x3000

def isIdentStart (c : Char) : Bool :=
  ('a' ≤ c && c ≤ 'z') || ('A' ≤ c && c ≤ 'Z') || c = '_'

def isIdentCont (c : Char) : Bool :=
  isIdentStart c || ('0' ≤ c && c ≤ '9')

def trimStart (text : Text) : Text := text.dropWhile isWhitespace

def trim (text : Text) : Text := (trimStart (trimStart text).reverse).reverse

/-- A leading identifier and what follows it. -/
def takeIdent : Text → Text × Text
  | [] => ([], [])
  | c :: rest =>
    if isIdentStart c then (c :: rest.takeWhile isIdentCont, rest.dropWhile isIdentCont)
    else ([], c :: rest)

/-- The first word, empty where there is none. -/
def firstToken (text : Text) : String :=
  String.ofList ((trimStart text).takeWhile fun c => !isWhitespace c)

/-! ### Whole texts -/

/-- Line ends of every kind become `\n`. -/
def normalizeNewlines : Text → Text
  | '\r' :: '\n' :: rest => '\n' :: normalizeNewlines rest
  | '\r' :: rest => '\n' :: normalizeNewlines rest
  | c :: rest => c :: normalizeNewlines rest
  | [] => []

def joinContinuations : Text → Text
  | '\\' :: '\n' :: rest => ' ' :: joinContinuations rest
  | c :: rest => c :: joinContinuations rest
  | [] => []

/-- Where the scan of `strip_comments` stands. -/
inductive Mode
  | code
  | str
  | line
  | block

/-- Comments become blanks, line ends and strings stay. -/
def stripComments : Mode → Text → Text
  | _, [] => []
  | .str, '\\' :: c :: rest => '\\' :: c :: stripComments .str rest
  | .str, '"' :: rest => '"' :: stripComments .code rest
  | .str, c :: rest => c :: stripComments .str rest
  | .code, '"' :: rest => '"' :: stripComments .str rest
  | .code, '/' :: '/' :: rest => ' ' :: ' ' :: stripComments .line rest
  | .code, '/' :: '*' :: rest => ' ' :: ' ' :: stripComments .block rest
  | .code, c :: rest => c :: stripComments .code rest
  | .line, '\n' :: rest => '\n' :: stripComments .code rest
  | .line, _ :: rest => ' ' :: stripComments .line rest
  | .block, '*' :: '/' :: rest => ' ' :: ' ' :: stripComments .code rest
  | .block, '\n' :: rest => '\n' :: stripComments .block rest
  | .block, _ :: rest => ' ' :: stripComments .block rest

/-- The lines of a text, one more than it has line ends. -/
def splitLines : Text → List Text
  | [] => [[]]
  | c :: rest =>
    if c = '\n' then [] :: splitLines rest
    else
      match splitLines rest with
      | line :: lines => (c :: line) :: lines
      | [] => [[c]]

def joinLines (lines : List Text) : Text := ['\n'].intercalate lines

/-- The lines the directives are read from. -/
def logicalLines (text : Text) : List Text :=
  splitLines (stripComments .code (joinContinuations (normalizeNewlines text)))

/-! ### Arguments and parameters -/

/-- The offset of the `)` that closes the first `(`; the flag says whether the scan stands in a
string. -/
def matchingParen (depth offset : Nat) : Bool → Text → Option Nat
  | _, [] => none
  | true, '\\' :: _ :: rest => matchingParen depth (offset + 2) true rest
  | true, '"' :: rest => matchingParen depth (offset + 1) false rest
  | true, _ :: rest => matchingParen depth (offset + 1) true rest
  | false, '"' :: rest => matchingParen depth (offset + 1) true rest
  | false, '(' :: rest => matchingParen (depth + 1) (offset + 1) false rest
  | false, ')' :: rest =>
    if depth = 1 then some offset else matchingParen (depth - 1) (offset + 1) false rest
  | false, _ :: rest => matchingParen depth (offset + 1) false rest

def findMatchingParen (text : Text) : Option Nat := matchingParen 0 0 false text

def opensGroup (c : Char) : Bool := c = '(' || c = '[' || c = '{'

def closesGroup (c : Char) : Bool := c = ')' || c = ']' || c = '}'

/-- The pieces between separators outside groups and strings; `piece` is the one being read,
last character first. -/
def topLevelPieces (sep : Char) : Int → Bool → Text → Text → List Text
  | _, _, piece, [] => [piece.reverse]
  | depth, true, piece, '\\' :: c :: rest =>
    topLevelPieces sep depth true (c :: '\\' :: piece) rest
  | depth, true, piece, c :: rest => topLevelPieces sep depth (c ≠ '"') (c :: piece) rest
  | depth, false, piece, c :: rest =>
    if c = '"' then topLevelPieces sep depth true (c :: piece) rest
    else if opensGroup c then topLevelPieces sep (depth + 1) false (c :: piece) rest
    else if closesGroup c then topLevelPieces sep (depth - 1) false (c :: piece) rest
    else if c = sep ∧ depth = 0 then piece.reverse :: topLevelPieces sep depth false [] rest
    else topLevelPieces sep depth false (c :: piece) rest

def splitTopLevel (text : Text) (sep : Char) : List Text := topLevelPieces sep 0 false [] text

/-- A formal parameter, with its default where it has one. -/
def parseParam (chunk : Text) : String × Option Text :=
  if '=' ∈ chunk then
    (String.ofList (trim (chunk.takeWhile (· ≠ '='))),
      some (trim ((chunk.dropWhile (· ≠ '=')).drop 1)))
  else (String.ofList chunk, none)

def parseParams (text : Text) : List (String × Option Text) :=
  (((splitTopLevel text ',').map trim).filter fun chunk => !chunk.isEmpty).map parseParam

/-- What stands before the closing delimiter, if there is one. -/
def upTo (close : Char) (text : Text) : Option Text :=
  if close ∈ text then some (text.takeWhile (· ≠ close)) else none

def parseIncludeFilename (rest : Text) : Option Text :=
  match trim rest with
  | '"' :: name => upTo '"' name
  | '<' :: name => upTo '>' name
  | [] => none
  | c :: name => some ((c :: name).takeWhile fun c => !isWhitespace c)

/-- Whole identifiers are replaced; the first argument counts the characters of one that are
already read. -/
def substituteParams (bound : Names Text) : Nat → Text → Text
  | _, [] => []
  | skip + 1, _ :: rest => substituteParams bound skip rest
  | 0, c :: rest =>
    if isIdentStart c then
      let ident := (takeIdent (c :: rest)).1
      (bound (String.ofList ident)).getD ident ++ substituteParams bound (ident.length - 1) rest
    else c :: substituteParams bound 0 rest

/-- Token pastes disappear. -/
def removePastes : Text → Text
  | '\x60' :: '\x60' :: rest => removePastes rest
  | c :: rest => c :: removePastes rest
  | [] => []

/-- Backslashes and quotes are escaped, as in a string literal. -/
def escape : Text → Text
  | [] => []
  | c :: rest => if c = '\\' ∨ c = '"' then '\\' :: c :: escape rest else c :: escape rest

end Eevee.Fe.Scanning
