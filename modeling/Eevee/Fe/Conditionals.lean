/- The stack of conditional levels selects the lines that the nested chains select. -/

import Eevee.Fe.Preprocess

set_option autoImplicit false
set_option relaxedAutoImplicit false

namespace Eevee.Fe.Conditionals

open Eevee.Lib.Tables
open Eevee.Fe.Scanning
open Eevee.Fe.Preprocess

/-! ### Lines by kind -/

/-- The directive that a line starts with, and what follows it. -/
def directiveOf (line : Text) : Option (String × Text) :=
  match trimStart line with
  | '\x60' :: after => some (String.ofList (takeIdent after).1, (takeIdent after).2)
  | _ => none

/-- What a line is to the chains around it. -/
inductive Kind
  | opens (negated : Bool) (name : String)
  | branches (name : Option String)
  | closes
  | plain
  deriving DecidableEq

def kindOf (line : Text) : Kind :=
  match directiveOf line with
  | none => .plain
  | some (directive, rest) =>
    if directive = "ifdef" then .opens false (firstToken rest)
    else if directive = "ifndef" then .opens true (firstToken rest)
    else if directive = "elsif" then .branches (some (firstToken rest))
    else if directive = "else" then .branches none
    else if directive = "endif" then .closes
    else .plain

structure Opening where
  line : Text
  negated : Bool
  name : String
  kind : kindOf line = .opens negated name

/-- An `elsif` with the name it tests, or an `else`. -/
structure Branching where
  line : Text
  name : Option String
  kind : kindOf line = .branches name

structure Closing where
  line : Text
  kind : kindOf line = .closes

/-- Text, a definition, or any other line outside the conditional directives. -/
structure Plain where
  line : Text
  kind : kindOf line = .plain

def Opening.holds (opening : Opening) (macros : Names Macro) : Bool :=
  (macros opening.name).isSome != opening.negated

def Branching.holds (branching : Branching) (macros : Names Macro) : Bool :=
  branching.name.all fun name => (macros name).isSome

/-! ### Nested chains -/

mutual

/-- Lines and chains in sequence. -/
inductive Source
  | nil
  | line (plain : Plain) (rest : Source)
  | chain (opening : Opening) (body : Source) (branches : Branches) (closing : Closing)
      (rest : Source)

inductive Branches
  | nil
  | branch (branching : Branching) (body : Source) (rest : Branches)

end

mutual

def linesOf : Source → List Text
  | .nil => []
  | .line plain rest => plain.line :: linesOf rest
  | .chain opening body branches closing rest =>
    opening.line :: (linesOf body ++ (branchLines branches ++ closing.line :: linesOf rest))

def branchLines : Branches → List Text
  | .nil => []
  | .branch branching body rest => branching.line :: (linesOf body ++ branchLines rest)

end

/-- Lines that are not selected stay as blank ones. -/
def blanks (lines : List Text) : List Text := lines.map fun _ => []

/-! ### Lines that are selected -/

/-- What a line outside the conditional directives asks for. -/
inductive Request
  | defines (name : String) (definition : Macro)
  | undefines (name : String)
  | includes (fname : Text)
  | silent
  | text

/-- The name that the rest of a definition starts with, and what it is to stand for. -/
def definitionOf (rest : Text) : Option (String × Macro) :=
  let (name, after) := takeIdent (trimStart rest)
  let close := if after.head? = some '(' then findMatchingParen after else none
  if name = [] then none
  else
    match close with
    | some close => some (String.ofList name,
        ⟨some (parseParams ((after.take close).drop 1)), trim (after.drop (close + 1))⟩)
    | none => some (String.ofList name, ⟨none, trim after⟩)

def requestOf (line : Text) : Request :=
  match directiveOf line with
  | none => .text
  | some (directive, rest) =>
    if directive = "define" then
      (definitionOf rest).elim .silent fun (name, definition) => .defines name definition
    else if directive = "undef" then .undefines (firstToken rest)
    else if directive = "include" then (parseIncludeFilename rest).elim .silent .includes
    else if isPassthrough directive then .silent
    else .text

section

variable (incl : Include) (path : Text)

/-- What a selected line emits, and the macros behind it: a definition gives its name this
meaning whatever it stood for, after an `undef` the name stands for nothing, and neither touches
another name. -/
def runLine (number : Nat) (line : Text) (macros : Names Macro) : Text × Names Macro :=
  match requestOf line with
  | .defines name definition => ([], Function.update macros name (some definition))
  | .undefines name => ([], Function.update macros name none)
  | .includes fname => incl fname macros
  | .silent => ([], macros)
  | .text => (expandLine path number macros line, macros)

mutual

/-- The selected lines run in order: of a chain the first branch whose condition holds when it
is reached, and nothing of the other branches. -/
def select : Source → Nat → Names Macro → List Text × Names Macro
  | .nil, _, macros => ([], macros)
  | .line plain rest, number, macros =>
    let (out, macros) := runLine incl path number plain.line macros
    let (outs, macros) := select rest (number + 1) macros
    (out :: outs, macros)
  | .chain opening body branches _ rest, number, macros =>
    let next := number + 1 + (linesOf body).length
    let (first, afterFirst) := select body (number + 1) macros
    let (other, afterOther) := selectBranch branches next macros
    let (outs, macros) :=
      if opening.holds macros then (first ++ blanks (branchLines branches), afterFirst)
      else (blanks (linesOf body) ++ other, afterOther)
    let (after, macros) := select rest (next + (branchLines branches).length + 1) macros
    ([] :: (outs ++ [] :: after), macros)

def selectBranch : Branches → Nat → Names Macro → List Text × Names Macro
  | .nil, _, macros => ([], macros)
  | .branch branching body rest, number, macros =>
    let (first, afterFirst) := select body (number + 1) macros
    let (other, afterOther) := selectBranch rest (number + 1 + (linesOf body).length) macros
    if branching.holds macros then ([] :: (first ++ blanks (branchLines rest)), afterFirst)
    else ([] :: (blanks (linesOf body) ++ other), afterOther)

end

/-! ### One line -/

variable {incl path} {number : Nat} {macros : Names Macro} {cond : List Cond}

private theorem directiveOf_eq_some {line rest : Text} {directive : String}
    (h : directiveOf line = some (directive, rest)) :
    ∃ after, trimStart line = '\x60' :: after ∧
      directive = String.ofList (takeIdent after).1 ∧ rest = (takeIdent after).2 := by
  unfold directiveOf at h
  split at h
  · rename_i after hline
    obtain ⟨rfl, rfl⟩ := Prod.mk.inj (Option.some.inj h)
    exact ⟨after, hline, rfl, rfl⟩
  · cases h

private theorem directiveOf_eq_none {line : Text} (h : directiveOf line = none) (after : Text) :
    trimStart line ≠ '\x60' :: after := by
  intro hline
  simp [directiveOf, hline] at h

theorem insert_eq_update (name : String) (definition : Macro) :
    macros.insert name definition = Function.update macros name (some definition) := by
  funext other
  rw [Function.update_apply]
  rfl

theorem undefine_eq_update (name : String) :
    undefine name macros = Function.update macros name none := by
  funext other
  rw [Function.update_apply]
  rfl

theorem handleDefine_eq (rest : Text) :
    handleDefine rest macros =
      (definitionOf rest).elim macros
        fun (name, definition) => Function.update macros name (some definition) := by
  simp only [handleDefine, definitionOf, List.isEmpty_iff, insert_eq_update]
  split_ifs
  · rfl
  · split <;> simp_all
  · rfl

/-- The directives of the code do what the request of the line says. -/
theorem activeDirective_eq_runLine {line rest : Text} {directive : String}
    (h : directiveOf line = some (directive, rest)) :
    activeDirective incl path number line directive rest macros =
      runLine incl path number line macros := by
  simp only [activeDirective, runLine, requestOf, h, handleDefine_eq, undefine_eq_update]
  split_ifs
  · cases definitionOf rest <;> rfl
  · rfl
  · cases parseIncludeFilename rest <;> rfl
  · rfl
  · rfl

theorem runLine_of_none {line : Text} (h : directiveOf line = none) :
    runLine incl path number line macros = (expandLine path number macros line, macros) := by
  simp only [runLine, requestOf, h]

theorem processLine_opening (opening : Opening) :
    processLine incl path number opening.line ⟨macros, cond⟩ =
      ([], ⟨macros, openLevel (opening.holds macros) cond⟩) := by
  obtain ⟨line, negated, name, kind⟩ := opening
  unfold kindOf at kind
  split at kind
  · cases kind
  · rename_i directive rest h
    obtain ⟨after, hline, hdirective, hrest⟩ := directiveOf_eq_some h
    simp only [processLine, hline, ← hdirective, ← hrest, Opening.holds]
    split_ifs at kind ⊢ <;> cases kind <;> simp

theorem processLine_branching (branching : Branching) :
    processLine incl path number branching.line ⟨macros, cond⟩ =
      ([], ⟨macros, nextBranch (branching.holds macros) cond⟩) := by
  obtain ⟨line, name, kind⟩ := branching
  unfold kindOf at kind
  split at kind
  · cases kind
  · rename_i directive rest h
    obtain ⟨after, hline, hdirective, hrest⟩ := directiveOf_eq_some h
    simp only [processLine, hline, ← hdirective, ← hrest, Branching.holds]
    split_ifs at kind ⊢ <;> cases kind <;> simp

theorem processLine_closing (closing : Closing) :
    processLine incl path number closing.line ⟨macros, cond⟩ = ([], ⟨macros, cond.tail⟩) := by
  obtain ⟨line, kind⟩ := closing
  unfold kindOf at kind
  split at kind
  · cases kind
  · rename_i directive rest h
    obtain ⟨after, hline, hdirective, hrest⟩ := directiveOf_eq_some h
    simp only [processLine, hline, ← hdirective, ← hrest]
    split_ifs at kind ⊢
    rfl

/-- An emitting plain line runs, any other is blank. -/
theorem processLine_plain (plain : Plain) :
    processLine incl path number plain.line ⟨macros, cond⟩ =
      if emitting cond then
        ((runLine incl path number plain.line macros).1,
          ⟨(runLine incl path number plain.line macros).2, cond⟩)
      else ([], ⟨macros, cond⟩) := by
  obtain ⟨line, kind⟩ := plain
  unfold kindOf at kind
  split at kind
  · rename_i h
    rw [runLine_of_none h]
    unfold processLine
    split
    · rename_i after hline
      exact absurd hline (directiveOf_eq_none h after)
    · rfl
  · rename_i directive rest h
    obtain ⟨after, hline, hdirective, hrest⟩ := directiveOf_eq_some h
    simp only [processLine, hline, ← hdirective, ← hrest, activeDirective_eq_runLine h]
    split_ifs at kind ⊢ <;> simp_all

/-! ### Runs of lines -/

theorem processLines_cons {line : Text} {lines outs : List Text} {out : Text} {s s' s'' : State}
    (h : processLine incl path number line s = (out, s'))
    (h' : processLines incl path (number + 1) lines s' = (outs, s'')) :
    processLines incl path number (line :: lines) s = (out :: outs, s'') := by
  simp only [processLines, h, h']

theorem processLines_append {lines lines' outs outs' : List Text} {s s' s'' : State}
    (h : processLines incl path number lines s = (outs, s'))
    (h' : processLines incl path (number + lines.length) lines' s' = (outs', s'')) :
    processLines incl path number (lines ++ lines') s = (outs ++ outs', s'') := by
  induction lines generalizing number outs s with
  | nil =>
    obtain ⟨rfl, rfl⟩ := Prod.mk.inj h
    exact h'
  | cons line lines ih =>
    obtain ⟨rfl, rfl⟩ := Prod.mk.inj h
    refine processLines_cons rfl (ih rfl ?_)
    rw [show number + 1 + lines.length = number + (line :: lines).length by
      simp only [List.length_cons]; omega]
    exact h'

/-! ### Branches that are not selected -/

/-- No further branch of the level can be selected. -/
def Closed (level : Cond) : Prop := level.taken = true ∨ level.parentActive = false

theorem nextBranch_closed {level : Cond} (h : Closed level) (holds : Bool) :
    nextBranch holds (level :: cond) = { level with active := false } :: cond := by
  rcases h with h | h <;> simp [nextBranch, h]

@[simp]
theorem blanks_nil : blanks [] = [] := rfl

@[simp]
theorem blanks_cons (line : Text) (lines : List Text) :
    blanks (line :: lines) = [] :: blanks lines := rfl

@[simp]
theorem blanks_append (lines lines' : List Text) :
    blanks (lines ++ lines') = blanks lines ++ blanks lines' := List.map_append

mutual

theorem skipped (source : Source) (number : Nat) (cond : List Cond) (h : emitting cond = false) :
    processLines incl path number (linesOf source) ⟨macros, cond⟩ =
      (blanks (linesOf source), ⟨macros, cond⟩) := by
  cases source with
  | nil => rfl
  | line plain rest =>
    refine processLines_cons ?_ (skipped rest (number + 1) cond h)
    simp [processLine_plain, h]
  | chain opening body branches closing rest =>
    let level : Cond := ⟨false, opening.holds macros, false⟩
    have hopening : processLine incl path number opening.line ⟨macros, cond⟩ =
        ([], ⟨macros, level :: cond⟩) := by
      simp [processLine_opening, openLevel, h, level]
    obtain ⟨active, hbranches⟩ := skippedBranches branches (number + 1 + (linesOf body).length)
      level cond (.inr rfl)
    simp only [linesOf, blanks_cons, blanks_append]
    refine processLines_cons hopening (processLines_append (skipped body _ (level :: cond) rfl) ?_)
    exact processLines_append hbranches
      (processLines_cons (processLine_closing closing) (skipped rest _ cond h))
termination_by structural source

theorem skippedBranches (branches : Branches) (number : Nat) (level : Cond) (cond : List Cond)
    (h : Closed level) :
    ∃ active, processLines incl path number (branchLines branches) ⟨macros, level :: cond⟩ =
      (blanks (branchLines branches), ⟨macros, { level with active } :: cond⟩) := by
  cases branches with
  | nil => exact ⟨level.active, rfl⟩
  | branch branching body rest =>
    let level' : Cond := { level with active := false }
    have hbranching : processLine incl path number branching.line ⟨macros, level :: cond⟩ =
        ([], ⟨macros, level' :: cond⟩) := by
      rw [processLine_branching, nextBranch_closed h]
    obtain ⟨active, hrest⟩ := skippedBranches rest (number + 1 + (linesOf body).length)
      level' cond h
    simp only [branchLines, blanks_cons, blanks_append]
    exact ⟨active, processLines_cons hbranching
      (processLines_append (skipped body _ (level' :: cond) rfl) hrest)⟩
termination_by structural branches

end

/-! ### Selected lines -/

mutual

/-- Where the levels emit, the lines of a source run as the chains select them. -/
theorem selected (source : Source) (number : Nat) (macros : Names Macro) (cond : List Cond)
    (h : emitting cond = true) :
    processLines incl path number (linesOf source) ⟨macros, cond⟩ =
      ((select incl path source number macros).1,
        ⟨(select incl path source number macros).2, cond⟩) := by
  cases source with
  | nil => rfl
  | line plain rest =>
    have hline : processLine incl path number plain.line ⟨macros, cond⟩ =
        ((runLine incl path number plain.line macros).1,
          ⟨(runLine incl path number plain.line macros).2, cond⟩) := by
      rw [processLine_plain, if_pos h]
    exact processLines_cons hline (selected rest (number + 1) _ cond h)
  | chain opening body branches closing rest =>
    let level : Cond := ⟨true, opening.holds macros, opening.holds macros⟩
    have hopening : processLine incl path number opening.line ⟨macros, cond⟩ =
        ([], ⟨macros, level :: cond⟩) := by
      simp [processLine_opening, openLevel, h, level]
    simp only [linesOf, select]
    by_cases hholds : opening.holds macros = true
    · -- The first branch runs, and its level is closed to the others.
      obtain ⟨active, hbranches⟩ := skippedBranches branches
        (number + 1 + (linesOf body).length) level cond (.inl hholds)
      rw [if_pos hholds, List.append_assoc]
      refine processLines_cons hopening
        (processLines_append (selected body (number + 1) macros (level :: cond) hholds) ?_)
      exact processLines_append hbranches
        (processLines_cons (processLine_closing closing) (selected rest _ _ cond h))
    · obtain ⟨level', hbranches⟩ := selectedBranch branches
        (number + 1 + (linesOf body).length) macros cond
      have hlevel : level = ⟨true, false, false⟩ := by simp [level, hholds]
      rw [if_neg hholds, List.append_assoc]
      refine processLines_cons (hlevel ▸ hopening)
        (processLines_append (skipped body _ (⟨true, false, false⟩ :: cond) rfl) ?_)
      exact processLines_append hbranches
        (processLines_cons (processLine_closing closing) (selected rest _ _ cond h))
termination_by structural source

/-- Where the level waits for a branch, the first one whose condition holds runs. -/
theorem selectedBranch (branches : Branches) (number : Nat) (macros : Names Macro)
    (cond : List Cond) :
    ∃ level, processLines incl path number (branchLines branches)
      ⟨macros, ⟨true, false, false⟩ :: cond⟩ =
      ((selectBranch incl path branches number macros).1,
        ⟨(selectBranch incl path branches number macros).2, level :: cond⟩) := by
  cases branches with
  | nil => exact ⟨_, rfl⟩
  | branch branching body rest =>
    let level : Cond := ⟨true, branching.holds macros, branching.holds macros⟩
    have hbranching : processLine incl path number branching.line
        ⟨macros, ⟨true, false, false⟩ :: cond⟩ = ([], ⟨macros, level :: cond⟩) := by
      by_cases hholds : branching.holds macros <;>
        simp [processLine_branching, nextBranch, hholds, level]
    simp only [branchLines, selectBranch]
    by_cases hholds : branching.holds macros = true
    · obtain ⟨active, hrest⟩ := skippedBranches rest (number + 1 + (linesOf body).length) level
        cond (.inl hholds)
      rw [if_pos hholds]
      exact ⟨_, processLines_cons hbranching
        (processLines_append (selected body (number + 1) macros (level :: cond) hholds) hrest)⟩
    · obtain ⟨level', hrest⟩ := selectedBranch rest (number + 1 + (linesOf body).length) macros
        cond
      have hlevel : level = ⟨true, false, false⟩ := by simp [level, hholds]
      rw [if_neg hholds]
      exact ⟨level', processLines_cons (hlevel ▸ hbranching)
        (processLines_append (skipped body _ (⟨true, false, false⟩ :: cond) rfl) hrest)⟩
termination_by structural branches

end

end

/-! ### Whole texts -/

/-- A text whose lines are chains and other lines in any nesting emits what the chains select,
one line for each of its own, and leaves the macros that the selected lines define. -/
theorem process_exact {Path : Type} [DecidableEq Path] (files : Files Path)
    (includeDirs : List Path) (p : Preprocessor Path) (text sourcePath : Text) (source : Source)
    (h : logicalLines text = linesOf source) :
    let incl := doInclude files includeDirs (maxIncludeDepth - p.includeStack.length)
      p.includeStack sourcePath
    process files includeDirs p text sourcePath =
      (joinLines (select incl sourcePath source 1 p.macros).1,
        { p with macros := (select incl sourcePath source 1 p.macros).2 }) := by
  intro incl
  have hrun : processLines incl sourcePath 1 (linesOf source) ⟨p.macros, []⟩ = _ :=
    selected source 1 p.macros [] rfl
  simp only [process, processText, h, incl, hrun]

/-- A file system without files. -/
def noFiles : Files Unit where
  path _ := ()
  display _ := []
  parent _ := none
  join _ _ := ()
  isFile _ := false
  read _ := none

/-- An `undef` in a branch that is not selected, with a chain inside it, then a selected one that
makes the next condition false. -/
def nestedSource : Source :=
  .line ⟨"`define A".toList, by decide⟩ <|
  .chain ⟨"`ifdef B".toList, false, "B", by decide⟩
    (.line ⟨"`undef A".toList, by decide⟩ <|
      .chain ⟨" `ifndef C".toList, true, "C", by decide⟩ (.line ⟨"x".toList, by decide⟩ .nil) .nil
        ⟨" `endif".toList, by decide⟩ .nil)
    (.branch ⟨"`elsif A".toList, some "A", by decide⟩
        (.line ⟨"y `A".toList, by decide⟩ <| .line ⟨"`undef A".toList, by decide⟩ .nil) <|
      .branch ⟨"`else".toList, none, by decide⟩ (.line ⟨"z".toList, by decide⟩ .nil) .nil)
    ⟨"`endif".toList, by decide⟩ <|
  .chain ⟨"`ifdef A".toList, false, "A", by decide⟩ (.line ⟨"u".toList, by decide⟩ .nil)
    (.branch ⟨"`else".toList, none, by decide⟩ (.line ⟨"v".toList, by decide⟩ .nil) .nil)
    ⟨"`endif".toList, by decide⟩ .nil

theorem process_exact_nested :
    (process noFiles [] ⟨Names.empty, []⟩
      ("`define A\n`ifdef B\n`undef A\n `ifndef C\nx\n `endif\n`elsif A\ny `A\n`undef A\n" ++
        "`else\nz\n`endif\n`ifdef A\nu\n`else\nv\n`endif").toList
      "top.sv".toList).1 =
      "\n\n\n\n\n\n\ny \n\n\n\n\n\n\n\nv\n".toList :=
  (congrArg Prod.fst (process_exact noFiles [] ⟨Names.empty, []⟩ _ "top.sv".toList nestedSource
    (by decide))).trans (by decide)

end Eevee.Fe.Conditionals
