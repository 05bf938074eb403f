/- The literals of a source as it is written, before lines are joined and comments taken out. -/

import Mathlib.Data.List.Basic
import Mathlib.Tactic.Common
import Eevee.Fe.Scanning

set_option autoImplicit false
set_option relaxedAutoImplicit false

namespace Eevee.Fe.Joining

open Eevee.Fe.Scanning

/-! ### Reading a source -/

/-- Where a reader stands, character by character; `slash` and `star` are behind a character that
may begin or end a comment. -/
inductive Reader
  | code
  | slash
  | str
  | escaped
  | line
  | block
  | star
  deriving DecidableEq

def Reader.next : Reader → Char → Reader
  | .code, c => if c = '"' then .str else if c = '/' then .slash else .code
  | .slash, c =>
    if c = '/' then .line else if c = '*' then .block else if c = '"' then .str else .code
  | .str, c => if c = '"' then .code else if c = '\\' then .escaped else .str
  | .escaped, _ => .str
  | .line, c => if c = '\n' then .code else .line
  | .block, c => if c = '*' then .star else .block
  | .star, c => if c = '/' then .code else if c = '*' then .star else .block

def Reader.inLiteral : Reader → Bool
  | .str | .escaped => true
  | _ => false

/-- The character that is read belongs to a literal, its quotes included. -/
def Reader.reads (r : Reader) (c : Char) : Bool :=
  match r with
  | .str | .escaped => true
  | .code | .slash => c = '"'
  | .line | .block | .star => false

/-- The characters of literals, each with its place in the source. -/
def literalChars : Reader → List (Char × Nat) → List (Char × Nat)
  | _, [] => []
  | r, (c, n) :: rest =>
    if r.reads c then (c, n) :: literalChars (r.next c) rest else literalChars (r.next c) rest

/-- The joined text, each character with its place in the source. -/
def joinedFrom : Nat → Text → List (Char × Nat)
  | n, '\\' :: '\n' :: rest => (' ', n) :: joinedFrom (n + 2) rest
  | n, c :: rest => (c, n) :: joinedFrom (n + 1) rest
  | _, [] => []

theorem map_fst_joinedFrom (n : Nat) (text : Text) :
    (joinedFrom n text).map Prod.fst = joinContinuations text := by
  fun_induction joinedFrom n text with
  | case1 n rest ih => rw [joinContinuations, List.map_cons, ih]
  | case2 n c rest hjoin ih => rw [joinContinuations, List.map_cons, ih]; exact hjoin
  | case3 n => rfl

/-! ### Joining -/

/-- The literals are the same whether the text is read as it is written or as the code joins it. -/
def JoinKeeps (text : Text) : Prop :=
  (joinedFrom 0 text).map Prod.fst = joinContinuations text ∧
    literalChars .code (text.zipIdx 0) = literalChars .code (joinedFrom 0 text)

/-- A reader of the text and one of the joined text are in literals at the same characters, and at
no line end that is joined. -/
def JoinPlain : Reader → Reader → Text → Prop
  | r, j, '\\' :: '\n' :: rest =>
    r.inLiteral = false ∧ j.inLiteral = false ∧
      JoinPlain ((r.next '\\').next '\n') (j.next ' ') rest
  | r, j, c :: rest => r.reads c = j.reads c ∧ JoinPlain (r.next c) (j.next c) rest
  | _, _, [] => True

theorem le_of_mem_literalChars {r : Reader} {n : Nat} {chars : List (Char × Nat)}
    (h : ∀ x ∈ chars, n ≤ x.2) : ∀ x ∈ literalChars r chars, n ≤ x.2 := by
  induction chars generalizing r with
  | nil => exact fun x hx => absurd hx List.not_mem_nil
  | cons first rest ih =>
    obtain ⟨hfirst, hrest⟩ := List.forall_mem_cons.mp h
    rw [literalChars]
    split_ifs
    · exact List.forall_mem_cons.mpr ⟨hfirst, ih hrest⟩
    · exact ih hrest

theorem le_of_mem_joinedFrom {n : Nat} {text : Text} : ∀ x ∈ joinedFrom n text, n ≤ x.2 := by
  fun_induction joinedFrom n text with
  | case1 n rest ih =>
    exact List.forall_mem_cons.mpr ⟨le_rfl, fun x hx => (Nat.le_add_right n 2).trans (ih x hx)⟩
  | case2 n c rest hjoin ih =>
    exact List.forall_mem_cons.mpr ⟨le_rfl, fun x hx => (Nat.le_succ n).trans (ih x hx)⟩
  | case3 n => exact fun x hx => absurd hx List.not_mem_nil

/-- Two readings with a character that only one of them can have next. -/
theorem cons_eq_iff {a b : Bool} {x : Char × Nat} {rest rest' : List (Char × Nat)}
    (h : ∀ y ∈ rest, x.2 < y.2) (h' : ∀ y ∈ rest', x.2 < y.2) :
    (if a then x :: rest else rest) = (if b then x :: rest' else rest') ↔ a = b ∧ rest = rest' := by
  cases a <;> cases b <;> simp only [Bool.false_eq_true, if_false, if_true, true_and, false_and,
    iff_false, reduceCtorEq, List.cons.injEq]
  · rintro rfl
    exact absurd (h x List.mem_cons_self) (Nat.lt_irrefl _)
  · rintro rfl
    exact absurd (h' x List.mem_cons_self) (Nat.lt_irrefl _)

theorem literalChars_cons (r : Reader) (c : Char) (n : Nat) (rest : List (Char × Nat)) :
    literalChars r ((c, n) :: rest) =
      if r.reads c then (c, n) :: literalChars (r.next c) rest
      else literalChars (r.next c) rest := rfl

theorem reads_eq_inLiteral {c : Char} (hc : c ≠ '"') (r : Reader) : r.reads c = r.inLiteral := by
  cases r <;> simp [Reader.reads, Reader.inLiteral, hc]

/-- A backslash begins no literal and ends none. -/
theorem inLiteral_next_backslash (r : Reader) : (r.next '\\').inLiteral = r.inLiteral := by
  cases r <;> rfl

/-- The characters of a continuation are read together with those of the literal around it. -/
theorem literalChars_continuation (r : Reader) (n : Nat) (rest : Text) :
    literalChars r (('\\' :: '\n' :: rest).zipIdx n) =
      if r.inLiteral then ('\\', n) :: ('\n', n + 1) ::
        literalChars ((r.next '\\').next '\n') (rest.zipIdx (n + 2))
      else literalChars ((r.next '\\').next '\n') (rest.zipIdx (n + 2)) := by
  rw [List.zipIdx_cons, List.zipIdx_cons, literalChars_cons, literalChars_cons,
    reads_eq_inLiteral (by decide), reads_eq_inLiteral (by decide), inLiteral_next_backslash]
  split_ifs <;> rfl

/-- By induction on the joined text: what is left of either text has later places. -/
theorem literalChars_joined_iff (r j : Reader) (n : Nat) (text : Text) :
    literalChars r (text.zipIdx n) = literalChars j (joinedFrom n text) ↔ JoinPlain r j text := by
  fun_induction joinedFrom n text generalizing r j with
  | case1 n rest ih =>
    have hrest : ∀ y ∈ literalChars ((r.next '\\').next '\n') (rest.zipIdx (n + 2)), n < y.2 :=
      le_of_mem_literalChars fun y hy =>
        (Nat.le_add_right (n + 1) 1).trans (List.le_snd_of_mem_zipIdx hy)
    have hrest' : ∀ y ∈ literalChars (j.next ' ') (joinedFrom (n + 2) rest), n < y.2 :=
      le_of_mem_literalChars fun y hy =>
        (Nat.le_add_right (n + 1) 1).trans (le_of_mem_joinedFrom y hy)
    rw [literalChars_continuation, literalChars_cons, reads_eq_inLiteral (by decide) j, JoinPlain,
      ← ih]
    cases r.inLiteral with
    | false =>
      simp only [Bool.false_eq_true, if_false, true_and]
      refine (@cons_eq_iff false _ (' ', n) _ _ hrest hrest').trans ?_
      rw [eq_comm]
    | true =>
      refine iff_of_false (fun heq => ?_) fun h => Bool.noConfusion h.1
      rw [if_pos rfl] at heq
      cases hj : j.inLiteral with
      | false =>
        rw [hj, if_neg Bool.false_ne_true] at heq
        exact absurd (hrest' _ (heq ▸ List.mem_cons_self)) (Nat.lt_irrefl _)
      | true =>
        rw [hj, if_pos rfl] at heq
        have hchar : '\\' = ' ' := congrArg Prod.fst (List.cons.inj heq).1
        exact absurd hchar (by decide)
  | case2 n c rest hjoin ih =>
    have hrest : ∀ y ∈ literalChars (r.next c) (rest.zipIdx (n + 1)), n < y.2 :=
      le_of_mem_literalChars fun y hy => List.le_snd_of_mem_zipIdx hy
    have hrest' : ∀ y ∈ literalChars (j.next c) (joinedFrom (n + 1) rest), n < y.2 :=
      le_of_mem_literalChars le_of_mem_joinedFrom
    rw [List.zipIdx_cons, literalChars_cons, literalChars_cons, JoinPlain, ← ih]
    · exact cons_eq_iff hrest hrest'
    · exact hjoin
  | case3 n => exact iff_of_true rfl trivial

theorem joinKeeps_iff (text : Text) : JoinKeeps text ↔ JoinPlain .code .code text :=
  (and_iff_right (map_fst_joinedFrom 0 text)).trans (literalChars_joined_iff .code .code 0 text)

/-! ### Comments -/

/-- The reader of the source where the scan of comments stands. -/
def sourceReader : Mode → Reader
  | .code => .code
  | .str => .str
  | .line => .line
  | .block => .block

/-- The reader of what the scan emits there, who sees blanks for comments. -/
def strippedReader : Mode → Reader
  | .str => .str
  | _ => .code

/-- Behind a slash that begins no comment a reader goes on as in front of it. -/
theorem literalChars_slash {text : Text} (hline : ∀ rest, text ≠ '/' :: rest)
    (hblock : ∀ rest, text ≠ '*' :: rest) (n : Nat) :
    literalChars .slash (text.zipIdx n) = literalChars .code (text.zipIdx n) := by
  cases text with
  | nil => rfl
  | cons c rest =>
    have hslash : c ≠ '/' := fun h => hline rest (by rw [h])
    have hstar : c ≠ '*' := fun h => hblock rest (by rw [h])
    rw [List.zipIdx_cons, literalChars_cons, literalChars_cons]
    simp only [Reader.reads, Reader.next, hslash, hstar, if_false]

/-- Behind a star that does not end the comment as well. -/
theorem literalChars_star {text : Text} (hend : ∀ rest, text ≠ '/' :: rest) (n : Nat) :
    literalChars .star (text.zipIdx n) = literalChars .block (text.zipIdx n) := by
  cases text with
  | nil => rfl
  | cons c rest =>
    have hslash : c ≠ '/' := fun h => hend rest (by rw [h])
    rw [List.zipIdx_cons, literalChars_cons, literalChars_cons]
    simp only [Reader.reads, Reader.next, hslash, if_false]
    rfl

/-- What the scan of comments emits in code begins as the source does, or with a blank. -/
theorem head_stripComments (text : Text) :
    (stripComments .code text).head? = some ' ' ∨
      (stripComments .code text).head? = text.head? := by
  fun_cases stripComments .code text <;> simp

theorem stripComments_ne_cons {text : Text} {c : Char} (hc : c ≠ ' ')
    (h : ∀ rest, text ≠ c :: rest) (rest : Text) : stripComments .code text ≠ c :: rest := by
  intro heq
  rcases head_stripComments text with hhead | hhead
  · rw [heq] at hhead
    exact hc (Option.some.inj hhead)
  · rw [heq] at hhead
    obtain ⟨rest', hrest⟩ := List.head?_eq_some_iff.mp hhead.symm
    exact h rest' hrest

/-- Taking out comments neither loses a literal nor makes one. -/
theorem literalChars_stripComments (mode : Mode) (n : Nat) (text : Text) :
    literalChars (strippedReader mode) ((stripComments mode text).zipIdx n) =
      literalChars (sourceReader mode) (text.zipIdx n) := by
  induction mode, text using stripComments.induct generalizing n with
  | case1 mode => cases mode <;> rfl
  | case2 c rest ih =>
    rw [stripComments]
    simp only [List.zipIdx_cons, literalChars_cons]
    exact congrArg (('\\', n) :: (c, n + 1) :: ·) (ih (n + 2))
  | case3 rest ih =>
    rw [stripComments]
    simp only [List.zipIdx_cons, literalChars_cons]
    exact congrArg (('"', n) :: ·) (ih (n + 1))
  | case4 c rest hescape hquote ih =>
    rw [stripComments]
    simp only [List.zipIdx_cons, literalChars_cons]
    · by_cases hback : c = '\\'
      · cases rest with
        | nil => rfl
        | cons d rest => exact (hescape d rest hback rfl).elim
      · have hnext : (Reader.str).next c = .str := (if_neg hquote).trans (if_neg hback)
        exact congrArg ((c, n) :: ·) (by rw [strippedReader, sourceReader, hnext]; exact ih (n + 1))
    all_goals assumption
  | case5 rest ih =>
    rw [stripComments]
    simp only [List.zipIdx_cons, literalChars_cons]
    exact congrArg (('"', n) :: ·) (ih (n + 1))
  | case6 rest ih | case7 rest ih =>
    rw [stripComments]
    simp only [List.zipIdx_cons, literalChars_cons]
    exact ih (n + 2)
  | case8 c rest hquote hline hblock ih =>
    rw [stripComments]
    simp only [List.zipIdx_cons, literalChars_cons]
    · have hreads : (Reader.code).reads c = false := decide_eq_false hquote
      have hstart : strippedReader .code = .code := rfl
      rw [hstart, sourceReader, hreads]
      by_cases hslash : c = '/'
      · have hline' := fun rest' => hline rest' hslash
        have hblock' := fun rest' => hblock rest' hslash
        have hsource := literalChars_slash hline' hblock' (n + 1)
        have hstripped := literalChars_slash (stripComments_ne_cons (by decide) hline')
          (stripComments_ne_cons (by decide) hblock') (n + 1)
        rw [hslash]
        exact hstripped.trans ((ih (n + 1)).trans hsource.symm)
      · have hnext : (Reader.code).next c = .code := (if_neg hquote).trans (if_neg hslash)
        rw [hnext]
        exact ih (n + 1)
    all_goals assumption
  | case9 rest ih =>
    rw [stripComments]
    simp only [List.zipIdx_cons, literalChars_cons]
    exact ih (n + 1)
  | case10 c rest hend ih =>
    rw [stripComments]
    simp only [List.zipIdx_cons, literalChars_cons]
    · have hnext : (Reader.line).next c = .line := if_neg hend
      rw [sourceReader, hnext]
      exact ih (n + 1)
    all_goals assumption
  | case11 rest ih =>
    rw [stripComments]
    simp only [List.zipIdx_cons, literalChars_cons]
    exact ih (n + 2)
  | case12 rest ih =>
    rw [stripComments]
    simp only [List.zipIdx_cons, literalChars_cons]
    exact ih (n + 1)
  | case13 c rest hend hline ih =>
    rw [stripComments]
    simp only [List.zipIdx_cons, literalChars_cons]
    · by_cases hstar : c = '*'
      · have hsource := literalChars_star (fun rest' => hend rest' hstar) (n + 1)
        rw [hstar]
        exact (ih (n + 1)).trans hsource.symm
      · have hnext : (Reader.block).next c = .block := if_neg hstar
        rw [sourceReader, hnext]
        exact ih (n + 1)
    all_goals assumption

end Eevee.Fe.Joining
