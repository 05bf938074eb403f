/- String literals in texts, and what each scanner of the preprocessor does to them. -/

import Mathlib.Data.List.Count
import Mathlib.Data.List.TakeWhile
import Eevee.Fe.Preprocess

set_option autoImplicit false
set_option relaxedAutoImplicit false

namespace Eevee.Fe.Literals

open Eevee.Lib.Tables
open Eevee.Fe.Scanning
open Eevee.Fe.Preprocess

/-! ### Literals -/

/-- Where a reader stands who minds escapes in strings and quotes after a backtick. -/
inductive Place
  | code
  | tick
  | str
  | escaped
  deriving DecidableEq

def Place.next : Place → Char → Place
  | .code, c => if c = '"' then .str else if c = '\x60' then .tick else .code
  | .tick, _ => .code
  | .str, c => if c = '"' then .code else if c = '\\' then .escaped else .str
  | .escaped, _ => .str

def Place.inside : Place → Bool
  | .code => false
  | .tick => false
  | .str => true
  | .escaped => true

/-- What stands between the quotes of a literal. -/
inductive Content : Text → Prop
  | nil : Content []
  | escape (c : Char) {rest : Text} (h : Content rest) : Content ('\\' :: c :: rest)
  | char {c : Char} {rest : Text} (hquote : c ≠ '"') (hescape : c ≠ '\\') (h : Content rest) :
    Content (c :: rest)

section

variable {mid : Text} (h : Content mid) (post : Text)

include h

theorem stripComments_literal :
    stripComments .code ('"' :: mid ++ '"' :: post) =
      '"' :: mid ++ '"' :: stripComments .code post := by
  suffices hstr : stripComments .str (mid ++ '"' :: post) =
      mid ++ '"' :: stripComments .code post by
    rw [List.cons_append, stripComments, hstr]
    rfl
  induction h with
  | nil => rfl
  | escape c _ ih => rw [List.cons_append, List.cons_append, stripComments, ih]; rfl
  | char hquote hescape _ ih => simp [stripComments, hescape, ih]

theorem matchingParen_literal (depth offset : Nat) :
    matchingParen depth offset false ('"' :: mid ++ '"' :: post) =
      matchingParen depth (offset + mid.length + 2) false post := by
  suffices hstr : ∀ offset, matchingParen depth offset true (mid ++ '"' :: post) =
      matchingParen depth (offset + mid.length + 1) false post by
    rw [List.cons_append, matchingParen, hstr]
    congr 1
    omega
  induction h with
  | nil => exact fun offset => rfl
  | escape c _ ih =>
    intro offset
    rw [List.cons_append, List.cons_append, matchingParen, ih]
    simp only [List.length_cons]
    congr 1
    omega
  | char hquote hescape _ ih =>
    intro offset
    rw [List.cons_append, matchingParen, ih, List.length_cons]
    · congr 1
      omega
    · rintro _ _ rfl
      exact absurd rfl hescape
    · exact hquote

theorem topLevelPieces_literal (sep : Char) (depth : Int) (piece : Text) :
    topLevelPieces sep depth false piece ('"' :: mid ++ '"' :: post) =
      topLevelPieces sep depth false ('"' :: (mid.reverse ++ '"' :: piece)) post := by
  suffices hstr : ∀ piece, topLevelPieces sep depth true piece (mid ++ '"' :: post) =
      topLevelPieces sep depth false ('"' :: (mid.reverse ++ piece)) post by
    rw [List.cons_append, topLevelPieces, if_pos rfl, hstr]
  induction h with
  | nil => exact fun piece => rfl
  | escape c _ ih =>
    intro piece
    rw [List.cons_append, List.cons_append, topLevelPieces, ih]
    simp
  | char hquote hescape _ ih =>
    intro piece
    simp [topLevelPieces, hquote, hescape, ih]

end

/-! ### Identifiers -/

/-- Every identifier gives way to a text that may depend on where it stands; the number counts the
characters of one that are already read. -/
def replaceIdents (f : Place → Text → Text) : Nat → Place → Text → Text
  | _, _, [] => []
  | skip + 1, p, c :: rest => replaceIdents f skip (p.next c) rest
  | 0, p, c :: rest =>
    if isIdentStart c then
      f p (c :: rest.takeWhile isIdentCont) ++
        replaceIdents f (rest.takeWhile isIdentCont).length (p.next c) rest
    else c :: replaceIdents f 0 (p.next c) rest

/-- The identifiers that are read, with where they stand. -/
def identsRead : Nat → Place → Text → List (Place × Text)
  | _, _, [] => []
  | skip + 1, p, c :: rest => identsRead skip (p.next c) rest
  | 0, p, c :: rest =>
    if isIdentStart c then
      (p, c :: rest.takeWhile isIdentCont) ::
        identsRead (rest.takeWhile isIdentCont).length (p.next c) rest
    else identsRead 0 (p.next c) rest

theorem substituteParams_eq (bound : Names Text) (skip : Nat) (p : Place) (text : Text) :
    substituteParams bound skip text =
      replaceIdents (fun _ ident => (bound (String.ofList ident)).getD ident) skip p text := by
  induction text generalizing skip p with
  | nil => cases skip <;> rfl
  | cons c rest ih =>
    cases skip with
    | succ skip => exact ih skip (p.next c)
    | zero =>
      by_cases h : isIdentStart c
      · simp only [substituteParams, replaceIdents, takeIdent, h, if_true, ← ih]
        rfl
      · simp only [substituteParams, replaceIdents, h, ← ih]
        rfl

section

variable (f g : Place → Text → Text)

theorem replaceIdents_drop (skip : Nat) (p : Place) (text : Text) :
    replaceIdents f skip p text =
      replaceIdents f 0 ((text.take skip).foldl Place.next p) (text.drop skip) := by
  induction text generalizing skip p with
  | nil => cases skip <;> rfl
  | cons c rest ih =>
    cases skip with
    | zero => rfl
    | succ skip => exact ih skip (p.next c)

theorem identsRead_drop (skip : Nat) (p : Place) (text : Text) :
    identsRead skip p text =
      identsRead 0 ((text.take skip).foldl Place.next p) (text.drop skip) := by
  induction text generalizing skip p with
  | nil => cases skip <;> rfl
  | cons c rest ih =>
    cases skip with
    | zero => rfl
    | succ skip => exact ih skip (p.next c)

theorem drop_word (text : Text) :
    text.drop (text.takeWhile isIdentCont).length = text.dropWhile isIdentCont := by
  induction text with
  | nil => rfl
  | cons c rest ih => by_cases h : isIdentCont c <;> simp [h, ih]

/-- The characters that stand between identifiers. -/
def others (text : Text) : Nat := text.countP fun c => !isIdentCont c

theorem others_append (text rest : Text) : others (text ++ rest) = others text + others rest :=
  List.countP_append

theorem others_eq_zero {text : Text} : others text = 0 ↔ ∀ c ∈ text, isIdentCont c = true := by
  simp [others, List.countP_eq_zero]

/-- No identifier goes on at the start of the text. -/
def Stops (text : Text) : Prop := ∀ c ∈ text.head?, isIdentCont c = false

theorem stops_dropWhile (text : Text) : Stops (text.dropWhile isIdentCont) := by
  induction text with
  | nil => exact fun c hc => absurd hc (Option.not_mem_none c)
  | cons c rest ih =>
    by_cases h : isIdentCont c
    · simpa [h] using ih
    · intro d hd
      simp only [List.dropWhile_cons, h] at hd
      cases hd
      simpa using h

theorem isIdentCont_of_start {c : Char} (h : isIdentStart c = true) : isIdentCont c = true := by
  simp [isIdentCont, h]

variable {f g}

theorem Stops.replaceIdents {text : Text} (h : Stops text) (p : Place) :
    Stops (replaceIdents f 0 p text) := by
  cases text with
  | nil => exact h
  | cons c rest =>
    have hc : isIdentCont c = false := h c rfl
    have hstart : ¬ isIdentStart c = true := fun hstart => by
      rw [isIdentCont_of_start hstart] at hc
      cases hc
    rw [Literals.replaceIdents, if_neg hstart]
    intro d hd
    cases hd
    exact hc

private theorem word_cut {word word' rest rest' : Text} (hword : ∀ c ∈ word, isIdentCont c = true)
    (hword' : ∀ c ∈ word', isIdentCont c = true) (hrest : Stops rest) (hrest' : Stops rest')
    (h : word ++ rest = word' ++ rest') : word = word' := by
  have hnone : ∀ {text : Text}, Stops text → text.takeWhile isIdentCont = [] := by
    intro text htext
    cases text with
    | nil => rfl
    | cons c text => simp [htext c rfl]
  have htake := congrArg (List.takeWhile isIdentCont) h
  rwa [List.takeWhile_append_of_pos hword, List.takeWhile_append_of_pos hword', hnone hrest,
    hnone hrest', List.append_nil, List.append_nil] at htake

private theorem word_cont {c : Char} (hc : isIdentStart c = true) (rest : Text) :
    ∀ d ∈ c :: rest.takeWhile isIdentCont, isIdentCont d = true :=
  List.forall_mem_cons.mpr
    ⟨isIdentCont_of_start hc, fun _ hd => List.mem_takeWhile_imp hd⟩

section

variable (h : ∀ p ident, f p ident = g p ident ∨ g p ident = ident)

include h

private theorem others_le (skip : Nat) (p : Place) (text : Text) :
    others (replaceIdents g skip p text) ≤ others (replaceIdents f skip p text) := by
  induction text generalizing skip p with
  | nil => cases skip <;> rfl
  | cons c rest ih =>
    cases skip with
    | succ skip => exact ih skip (p.next c)
    | zero =>
      by_cases hc : isIdentStart c
      · have hword : others (g p (c :: rest.takeWhile isIdentCont)) ≤
            others (f p (c :: rest.takeWhile isIdentCont)) := by
          rcases h p (c :: rest.takeWhile isIdentCont) with heq | heq
          · rw [heq]
          · rw [heq, others_eq_zero.mpr (word_cont hc rest)]
            exact Nat.zero_le _
        simp only [replaceIdents, hc, if_true, others_append]
        exact Nat.add_le_add hword (ih _ _)
      · simp only [replaceIdents, hc, Bool.false_eq_true, if_false]
        rw [others, others, List.countP_cons, List.countP_cons]
        exact Nat.add_le_add_right (ih 0 (p.next c)) _

/-- Replacements that are not the identifiers themselves are seen in the result. -/
theorem replaceIdents_eq_iff (skip : Nat) (p : Place) (text : Text) :
    replaceIdents f skip p text = replaceIdents g skip p text ↔
      ∀ w ∈ identsRead skip p text, f w.1 w.2 = g w.1 w.2 := by
  induction hlength : text.length using Nat.strong_induction_on generalizing skip p text with
  | h length ih =>
    subst hlength
    rw [replaceIdents_drop f, replaceIdents_drop g, identsRead_drop]
    generalize hplace : (text.take skip).foldl Place.next p = p'
    cases htext : text.drop skip with
    | nil => exact ⟨fun _ w hw => absurd hw List.not_mem_nil, fun _ => rfl⟩
    | cons c rest =>
      have hlt : rest.length < text.length := by
        have := congrArg List.length htext
        rw [List.length_drop, List.length_cons] at this
        omega
      by_cases hc : isIdentStart c
      · simp only [replaceIdents, identsRead, hc, if_true, List.forall_mem_cons]
        rw [← ih rest.length hlt _ _ rest rfl]
        constructor
        · intro heq
          have hword : f p' (c :: rest.takeWhile isIdentCont) =
              g p' (c :: rest.takeWhile isIdentCont) := by
            rcases h p' (c :: rest.takeWhile isIdentCont) with hword | hword
            · exact hword
            · rw [hword] at heq ⊢
              -- No other characters may come in with the replacement, so it ends where the
              -- identifier ends.
              have hcount := congrArg others heq
              rw [others_append, others_append, others_eq_zero.mpr (word_cont hc rest)] at hcount
              have hle := others_le h (rest.takeWhile isIdentCont).length (p'.next c) rest
              have hzero : others (f p' (c :: rest.takeWhile isIdentCont)) = 0 := by omega
              rw [replaceIdents_drop f, replaceIdents_drop g, drop_word] at heq
              exact word_cut (others_eq_zero.mp hzero) (word_cont hc rest)
                ((stops_dropWhile rest).replaceIdents _)
                  ((stops_dropWhile rest).replaceIdents _) heq
          rw [hword] at heq
          exact ⟨hword, List.append_cancel_left heq⟩
        · rintro ⟨hword, hrest⟩
          rw [hword, hrest]
      · simp only [replaceIdents, identsRead, hc, Bool.false_eq_true, if_false]
        rw [← ih rest.length hlt _ _ rest rfl]
        exact ⟨fun heq => (List.cons.inj heq).2, fun heq => by rw [heq]⟩

end

end

/-! ### Substitution and pasting -/

/-- Parameters are replaced outside literals only. -/
def substituteOutside (bound : Names Text) (body : Text) : Text :=
  replaceIdents
    (fun p ident => if p.inside then ident else (bound (String.ofList ident)).getD ident) 0 .code
    body

/-- Substitution leaves the literals of a body alone exactly when every parameter named in one is
bound to its own name. -/
theorem substitute_opaque_iff (bound : Names Text) (body : Text) :
    substituteParams bound 0 body = substituteOutside bound body ↔
      ∀ w ∈ identsRead 0 .code body, w.1.inside = true →
        ∀ value, bound (String.ofList w.2) = some value → value = w.2 := by
  rw [substituteParams_eq bound 0 .code, substituteOutside, replaceIdents_eq_iff]
  · refine forall₂_congr fun w _ => ?_
    cases hinside : w.1.inside with
    | false => simp
    | true =>
      cases hbound : bound (String.ofList w.2) with
      | none => simp
      | some value => simp
  · intro p ident
    cases hinside : p.inside with
    | false => exact .inl (by simp)
    | true => exact .inr (by simp)

/-- Token pastes disappear outside literals only. -/
def pasteOutside : Place → Text → Text
  | p, '\x60' :: '\x60' :: rest =>
    if p.inside then '\x60' :: '\x60' :: pasteOutside ((p.next '\x60').next '\x60') rest
    else pasteOutside ((p.next '\x60').next '\x60') rest
  | p, c :: rest => c :: pasteOutside (p.next c) rest
  | _, [] => []

/-- How many pairs of backticks stand in literals. -/
def pastesInside : Place → Text → Nat
  | p, '\x60' :: '\x60' :: rest =>
    (if p.inside then 1 else 0) + pastesInside ((p.next '\x60').next '\x60') rest
  | p, c :: rest => pastesInside (p.next c) rest
  | _, [] => 0

theorem length_pasteOutside (p : Place) (text : Text) :
    (pasteOutside p text).length = (removePastes text).length + 2 * pastesInside p text := by
  fun_induction pasteOutside p text with
  | case1 p rest hinside ih =>
    simp only [List.length_cons, removePastes, pastesInside, hinside, if_true, ih]
    omega
  | case2 p rest hinside ih =>
    simp only [removePastes, pastesInside, hinside, ih]
    simp
  | case3 p c rest hpair ih => simp [removePastes, pastesInside, ih]; omega
  | case4 p => rfl

/-- Pasting leaves the literals of a text alone exactly when none has two backticks in a row. -/
theorem paste_opaque_iff (p : Place) (text : Text) :
    removePastes text = pasteOutside p text ↔ pastesInside p text = 0 := by
  constructor
  · intro h
    have hlength := length_pasteOutside p text
    rw [← h] at hlength
    omega
  · intro h
    fun_induction pasteOutside p text with
    | case1 p rest hinside ih => simp [pastesInside, hinside] at h
    | case2 p rest hinside ih =>
      simp only [pastesInside, hinside] at h
      rw [removePastes, ih (by simpa using h)]
    | case3 p c rest hpair ih =>
      have hrest : pastesInside (p.next c) rest = 0 := by simpa [pastesInside, hpair] using h
      simp [removePastes, ih hrest]
    | case4 p => rfl

/-! ### Expansion -/

/-- What `expand_text` emits for the character it reads. -/
def emitted (use : Text → Text) (inStr : Bool) (c : Char) (rest : Text) : Text :=
  if inStr ∨ c ≠ '\x60' then [c]
  else if rest.head? = some '"' then ['"']
  else if rest.head? = some '\x60' then []
  else if (rest.head?.map isIdentStart).getD false then use rest
  else [c]

/-- How many characters it skips after that one, and whether it then stands in a string. -/
def advance (site : Site) (inStr : Bool) (c : Char) (rest : Text) : Nat × Bool :=
  if c = '"' then (0, !inStr)
  else if inStr ∨ c ≠ '\x60' then (0, inStr)
  else if rest.head? = some '"' ∨ rest.head? = some '\x60' then (1, false)
  else if (rest.head?.map isIdentStart).getD false then ((macroUse site id rest).2, false)
  else (0, false)

theorem macroUse_snd (site : Site) (expand expand' : Text → Text) (text : Text) :
    (macroUse site expand text).2 = (macroUse site expand' text).2 := by
  unfold macroUse
  dsimp only
  split
  · rfl
  · split
    · rfl
    · split
      · rfl
      · rfl
      · split <;> rfl

theorem expandLoop_cons (site : Site) (expand : Text → Text) (inStr : Bool) (c : Char)
    (rest : Text) : expandLoop site expand 0 inStr (c :: rest) =
      emitted (fun text => (macroUse site expand text).1) inStr c rest ++
        expandLoop site expand (advance site inStr c rest).1
          (advance site inStr c rest).2 rest := by
  rw [expandLoop, emitted, advance, macroUse_snd site id expand]
  by_cases hquote : c = '"'
  · subst hquote
    simp
  · by_cases hcode : inStr ∨ c ≠ '\x60'
    · simp [hquote, hcode]
    · by_cases hstringify : rest.head? = some '"'
      · simp [hquote, hcode, hstringify]
      · by_cases hpaste : rest.head? = some '\x60'
        · simp [hquote, hcode, hpaste]
        · by_cases hident : (rest.head?.map isIdentStart).getD false
          · simp [hquote, hcode, hstringify, hpaste, hident]
          · simp [hquote, hcode, hstringify, hpaste, hident]

/-- Where the reader stands who reads a quote after a backtick together with the backtick. -/
def Place.after : Place → Char → Place
  | .code, c => if c = '"' then .str else .code
  | .tick, c => if c = '"' then .str else .code
  | .str, c => Place.next .str c
  | .escaped, c => Place.next .escaped c

/-- How many characters the reader skips. -/
def Place.skip (p : Place) (site : Site) (c : Char) (rest : Text) : Nat :=
  if p.inside then 0 else (advance site false c rest).1

section

variable (site : Site)

/-- `expand_text` stands in a string at those of the characters it reads that stand in literals. -/
def ReadsLiterals : Nat → Bool → Place → Text → Prop
  | _, _, _, [] => True
  | skip + 1, inStr, _, _ :: rest => ReadsLiterals skip inStr .code rest
  | 0, inStr, p, c :: rest =>
    inStr = p.inside ∧
      ReadsLiterals (advance site inStr c rest).1 (advance site inStr c rest).2 (p.after c) rest

/-- No literal that is read has an escaped quote, unless the text ends with it. -/
def NoEscapedQuote : Nat → Place → Text → Prop
  | _, _, [] => True
  | skip + 1, _, _ :: rest => NoEscapedQuote skip .code rest
  | 0, p, c :: rest =>
    (p = .escaped → c = '"' → rest = []) ∧ NoEscapedQuote (p.skip site c rest) (p.after c) rest

variable {site}

theorem advance_str (c : Char) (rest : Text) :
    advance site true c rest = (0, decide (c ≠ '"')) := by
  by_cases h : c = '"' <;> simp [advance, h]

theorem advance_code (c : Char) (rest : Text) :
    (advance site false c rest).2 = decide (c = '"') := by
  unfold advance
  by_cases hquote : c = '"'
  · simp [hquote]
  · rw [if_neg hquote]
    by_cases hcode : c ≠ '\x60'
    · simp [hquote, hcode]
    · rw [if_neg (by simpa using hcode)]
      split
      · simp [hquote]
      · split <;> simp [hquote]

theorem advance_skip (p : Place) (c : Char) (rest : Text) :
    (advance site p.inside c rest).1 = p.skip site c rest := by
  cases p with
  | code | tick => rfl
  | str | escaped => exact congrArg Prod.fst (advance_str c rest)

/-- A reader who skips does not stand in a literal. -/
theorem skip_after {p : Place} {c : Char} {rest : Text} (h : p.skip site c rest ≠ 0) :
    (p.after c).inside = false := by
  by_cases hquote : c = '"'
  · subst hquote
    cases p <;> simp [Place.skip, Place.inside, advance] at h
  · cases p with
    | code | tick => simp [Place.after, hquote, Place.inside]
    | str | escaped => simp [Place.skip, Place.inside] at h

/-- The scan reads literals as they stand exactly when no literal it reads has an escaped quote
before the end of the text. -/
theorem readsLiterals_iff {skip : Nat} {p : Place} (h : skip ≠ 0 → p.inside = false) (text : Text) :
    ReadsLiterals site skip p.inside p text ↔ NoEscapedQuote site skip p text := by
  induction text generalizing skip p with
  | nil => cases skip <;> exact Iff.rfl
  | cons c rest ih =>
    cases skip with
    | succ skip =>
      rw [h (Nat.succ_ne_zero skip)]
      exact ih (p := .code) fun _ => rfl
    | zero =>
      simp only [ReadsLiterals, NoEscapedQuote, true_and, advance_skip]
      by_cases hescaped : p = .escaped ∧ c = '"'
      · obtain ⟨rfl, rfl⟩ := hescaped
        -- The scan leaves the literal here, so it must not read on.
        cases rest with
        | nil => simp [ReadsLiterals, NoEscapedQuote]
        | cons d rest =>
          simp [ReadsLiterals, Place.skip, Place.inside, advance, Place.after, Place.next]
      · have hinside : (advance site p.inside c rest).2 = (p.after c).inside := by
          cases p with
          | code | tick =>
            rw [show Place.inside _ = false from rfl, advance_code]
            by_cases hquote : c = '"' <;> simp [Place.after, hquote, Place.inside]
          | str =>
            rw [show Place.inside _ = true from rfl, advance_str]
            by_cases hquote : c = '"'
            · simp [Place.after, Place.next, hquote, Place.inside]
            · by_cases hslash : c = '\\' <;>
                simp [Place.after, Place.next, hslash, hquote, Place.inside]
          | escaped =>
            have hquote : c ≠ '"' := fun hquote => hescaped ⟨rfl, hquote⟩
            rw [show Place.inside _ = true from rfl, advance_str]
            simp [Place.after, Place.next, hquote, Place.inside]
        rw [hinside, ih fun hne => skip_after hne]
        exact (and_iff_right fun hp hc => absurd ⟨hp, hc⟩ hescaped).symm

end

end Eevee.Fe.Literals
