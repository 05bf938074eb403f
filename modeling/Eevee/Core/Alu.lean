/- The operations of four-state vectors: literals, comparison, arithmetic, shifts and selection. -/

import Mathlib.Data.List.Basic
import Mathlib.Data.List.Count
import Mathlib.Tactic.Common
import Mathlib.Tactic.SplitIfs
import Eevee.Core.Logic

set_option autoImplicit false
set_option relaxedAutoImplicit false

namespace Eevee.Core.Alu

open Eevee.Core.Logic
open Eevee.Core.Logic.LogicVec

/-! ### Truth tables -/

/-- A known bit from a truth value. -/
def ofBool (b : Bool) : Bit := if b then .one else .zero

def bitNot : Bit → Bit
  | .zero => .one
  | .one => .zero
  | .x | .z => .x

def bitAnd : Bit → Bit → Bit
  | .zero, _ | _, .zero => .zero
  | .one, .one => .one
  | _, _ => .x

def bitOr : Bit → Bit → Bit
  | .one, _ | _, .one => .one
  | .zero, .zero => .zero
  | _, _ => .x

def bitXor : Bit → Bit → Bit
  | .zero, .zero | .one, .one => .zero
  | .zero, .one | .one, .zero => .one
  | _, _ => .x

/-! ### Constructors -/

/-- Zero the bits above the width in the top limb; inline planes stay. -/
def normalizeTop (v : LogicVec) : LogicVec :=
  match v.repr with
  | .small _ _ => v
  | .wide aval bval => ⟨v.width, .wide (maskTop v.width aval) (maskTop v.width bval)⟩

/-- A known vector from a signed word, sign-extended. -/
def fromI64 (val : BitVec 64) (width : Nat) : LogicVec :=
  if width ≤ 64 then ⟨width, .small (val &&& wordMask width) 0⟩
  else
    let fill := if val.msb then BitVec.allOnes 64 else 0
    normalizeTop ⟨width, .wide ((List.replicate (limbsFor width) fill).set 0 val)
      (List.replicate (limbsFor width) 0)⟩

/-- The low words cut to the width. -/
def planesSmall (aval bval : BitVec 64) (width : Nat) : LogicVec :=
  ⟨width, .small (aval &&& wordMask width) (bval &&& wordMask width)⟩

/-- Only widths from 1 to 64 are accepted. -/
def fromPlanesSmall (aval bval : BitVec 64) (width : Nat) : Option LogicVec :=
  if 1 ≤ width ∧ width ≤ 64 then some (planesSmall aval bval width) else none

/-- Bits in the order of a source literal: most significant first. -/
def fromBitsMsbFirst (bits : List Bit) : LogicVec :=
  (zero (max bits.length 1)).writeBits bits.length id fun i => bits.reverse.getD i .zero

/-- Z becomes X. -/
def fromBit : Bit → LogicVec
  | .zero => fromU64 0 1
  | .one => fromU64 1 1
  | .x | .z => x 1

/-- Copies of one bit. -/
def filled (bit : Bit) (width : Nat) : LogicVec :=
  match bit with
  | .zero => zero width
  | .one => ones width
  | .x => x width
  | .z => z width

/-! ### Literals -/

/-- The characters that `trim` removes. -/
def isSpace (c : Char) : Bool :=
  (9 ≤ c.toNat && c.toNat ≤ 13) || (0x2000 ≤ c.toNat && c.toNat ≤ 0x200A) ||
    [0x20, 0x85, 0xA0, 0x1680, 0x2028, 0x2029, 0x202F, 0x205F, 0x3000].contains c.toNat

def trim (s : List Char) : List Char :=
  ((s.dropWhile isSpace).reverse.dropWhile isSpace).reverse

/-- The value of a digit in the given base. -/
def toDigit (base : Nat) (c : Char) : Option Nat :=
  let d :=
    if '0' ≤ c ∧ c ≤ '9' then some (c.toNat - '0'.toNat)
    else if 'a' ≤ c ∧ c ≤ 'z' then some (c.toNat - 'a'.toNat + 10)
    else if 'A' ≤ c ∧ c ≤ 'Z' then some (c.toNat - 'A'.toNat + 10)
    else none
  d.filter (· < base)

/-- Parse a decimal number below the bound; one leading plus sign is accepted. -/
def parseUnsigned (bound : Nat) (s : List Char) : Option Nat :=
  let digits := match s with
    | '+' :: rest => rest
    | _ => s
  if digits = [] then none
  else
    (digits.foldlM (fun n c => (toDigit 10 c).map (n * 10 + ·)) 0).filter (· < bound)

/-- The text before and after the first occurrence of a character. -/
def splitOnce (sep : Char) (s : List Char) : Option (List Char × List Char) :=
  match s.dropWhile (· ≠ sep) with
  | [] => none
  | _ :: rest => some (s.takeWhile (· ≠ sep), rest)

/-- One bit of a digit character. -/
def digitBit (c : Char) (k : Nat) : Option Bit :=
  if c = 'x' then some .x
  else if c = 'z' ∨ c = '?' then some .z
  else (toDigit 16 c).map fun d => ofBool (d.testBit k)

/-- Write the bits of one digit; digits past the width are not read. -/
def writeDigit (bitsPer : Nat) (s : LogicVec × Nat) (c : Char) : Option (LogicVec × Nat) :=
  (List.range bitsPer).foldlM (fun s k =>
    if s.2 ≥ s.1.width then some s
    else (digitBit c.toLower k).map fun b => (s.1.setBit s.2 b, s.2 + 1)) s

/-- The bits of one digit: binary, octal or hexadecimal. -/
def bitsPerDigit (base : Char) : Option Nat :=
  if base = 'b' then some 1
  else if base = 'o' then some 3
  else if base = 'h' then some 4
  else none

/-- The digits of a literal after the base character. -/
def parseDigits (width : Nat) (base : Char) (digits : List Char) : Option LogicVec :=
  if base = 'd' then
    (parseUnsigned 0x10000000000000000 (trim digits)).map fun val =>
      fromU64 (BitVec.ofNat 64 val) width
  else
    (bitsPerDigit base).bind fun bitsPer =>
      (digits.reverse.foldlM (writeDigit bitsPer) (zero width, 0)).map Prod.fst

/-- Parse a sized literal; underscores are ignored. The separator is the apostrophe. -/
def parseSized (s : List Char) : Option LogicVec :=
  match splitOnce (Char.ofNat 39) (s.filter (· ≠ '_')) with
  | none => none
  | some (widthText, rest) =>
    match parseUnsigned 0x100000000 (trim widthText), trim rest with
    | some width, base :: digits =>
      if width = 0 then none
      else if base.toLower = 's' then
        match digits with
        | [] => none
        | base :: digits => parseDigits width base.toLower digits
      else parseDigits width base.toLower digits
    | _, _ => none

/-! ### Selection -/

/-- The loop `for i in indices { if cond(i) { out.set_bit(i, bit(i)) } }`. -/
def writeWhere (v : LogicVec) (indices : List Nat) (cond : Nat → Prop) [DecidablePred cond]
    (bit : Nat → Bit) : LogicVec :=
  indices.foldl (fun out i => if cond i then out.setBit i (bit i) else out) v

/-- The branches merge bitwise when the condition is unknown. -/
def conditional (condition whenTrue whenFalse : LogicVec) : LogicVec :=
  let width := max whenTrue.width whenFalse.width
  if condition.isTrue then whenTrue.resize width false
  else if condition.isKnown then whenFalse.resize width false
  else
    let whenTrue := whenTrue.resize width false
    let whenFalse := whenFalse.resize width false
    writeWhere (x width) (List.range width)
      (fun bit => whenTrue.getBit bit = whenFalse.getBit bit) whenTrue.getBit

/-! ### Comparison -/

/-- X as soon as one operand has an unknown bit. -/
def eqLogical (v w : LogicVec) : LogicVec :=
  if !v.isKnown || !w.isKnown then x 1
  else
    let width := max v.width w.width
    fromU64 (if (v.resize width false).eqCase (w.resize width false) then 1 else 0) 1

/-- The first differing bit from the top decides. -/
def ucmp (v w : LogicVec) : Option Ordering :=
  if !v.isKnown || !w.isKnown then none
  else
    let width := max v.width w.width
    let a := v.resize width false
    let b := w.resize width false
    some (((List.range width).reverse.findSome? fun i =>
      if (a.getBit i = .one) ≠ (b.getBit i = .one) then
        some (if b.getBit i = .one then Ordering.lt else Ordering.gt)
      else none).getD .eq)

/-- One bit from the outcome of a comparison, X when there is none. -/
def verdict (o : Option Ordering) (f : Ordering → Bool) : LogicVec :=
  match o with
  | some o => fromU64 (if f o then 1 else 0) 1
  | none => x 1

def ult (v w : LogicVec) : LogicVec := verdict (ucmp v w) (· == .lt)
def ule (v w : LogicVec) : LogicVec := verdict (ucmp v w) (· != .gt)
def ugt (v w : LogicVec) : LogicVec := verdict (ucmp v w) (· == .gt)
def uge (v w : LogicVec) : LogicVec := verdict (ucmp v w) (· != .lt)

def scmp (v w : LogicVec) : Option Ordering :=
  if !v.isKnown || !w.isKnown then none
  else
    let width := max v.width w.width
    let left := v.resize width true
    let right := w.resize width true
    let leftNegative : Bool := left.getBit (width - 1) = .one
    let rightNegative : Bool := right.getBit (width - 1) = .one
    if leftNegative ≠ rightNegative then some (if leftNegative then .lt else .gt)
    else ucmp left right

def slt (v w : LogicVec) : LogicVec := verdict (scmp v w) (· == .lt)
def sle (v w : LogicVec) : LogicVec := verdict (scmp v w) (· != .gt)
def sgt (v w : LogicVec) : LogicVec := verdict (scmp v w) (· == .gt)
def sge (v w : LogicVec) : LogicVec := verdict (scmp v w) (· != .lt)

/-! ### Reductions -/

def reduceOr (v : LogicVec) : Bit :=
  if v.isTrue then .one else if !v.isKnown then .x else .zero

/-- The loop over the remaining bits; a 0 ends it. -/
def reduceAndLoop (v : LogicVec) : List Nat → Bool → Bit
  | [], sawUnknown => if sawUnknown then .x else .one
  | i :: rest, sawUnknown =>
    match v.getBit i with
    | .zero => .zero
    | .x | .z => reduceAndLoop v rest true
    | .one => reduceAndLoop v rest sawUnknown

def reduceAnd (v : LogicVec) : Bit := reduceAndLoop v (List.range v.width) false

/-- The number of ones in a word. -/
def countOnes (w : BitVec 64) : Nat := (List.range 64).countP fun i => w.getLsbD i

/-- The number of ones, in a wrapping 32-bit counter. -/
def onesCount (v : LogicVec) : Nat :=
  match v.repr with
  | .small aval _ => countOnes aval
  | .wide aval _ => aval.foldl (fun parity w => (parity + countOnes w) % 0x100000000) 0

def reduceXor (v : LogicVec) : Bit :=
  if !v.isKnown then .x else if onesCount v % 2 = 1 then .one else .zero

/-- X when no bit is a known 1 and some bit is unknown. -/
def lognot (v : LogicVec) : LogicVec :=
  match reduceOr v with
  | .one => fromU64 0 1
  | .zero => fromU64 1 1
  | _ => x 1

def neLogical (v w : LogicVec) : LogicVec := lognot (eqLogical v w)

/-! ### Word-parallel operations -/

def limbAval (v : LogicVec) (i : Nat) : BitVec 64 :=
  match v.repr with
  | .small aval _ => if i = 0 then aval else 0
  | .wide aval _ => aval.getD i 0

def limbBval (v : LogicVec) (i : Nat) : BitVec 64 :=
  match v.repr with
  | .small _ bval => if i = 0 then bval else 0
  | .wide _ bval => bval.getD i 0

def mapWord (f : BitVec 64 → BitVec 64 → BitVec 64 × BitVec 64) (v : LogicVec) : LogicVec :=
  match v.repr with
  | .small aval bval =>
    ⟨v.width, .small ((f aval bval).1 &&& wordMask v.width) ((f aval bval).2 &&& wordMask v.width)⟩
  | .wide aval bval =>
    let word (i : Nat) := f (aval.getD i 0) (bval.getD i 0)
    normalizeTop ⟨v.width, .wide ((List.range aval.length).map fun i => (word i).1)
      ((List.range aval.length).map fun i => (word i).2)⟩

def zipWord (f : BitVec 64 → BitVec 64 → BitVec 64 → BitVec 64 → BitVec 64 × BitVec 64)
    (v w : LogicVec) : LogicVec :=
  let width := max v.width w.width
  let wide :=
    let word (i : Nat) := f (limbAval v i) (limbBval v i) (limbAval w i) (limbBval w i)
    normalizeTop ⟨width, .wide ((List.range (limbsFor width)).map fun i => (word i).1)
      ((List.range (limbsFor width)).map fun i => (word i).2)⟩
  match v.repr, w.repr with
  | .small a₁ b₁, .small a₂ b₂ =>
    if width ≤ 64 then
      ⟨width, .small ((f a₁ b₁ a₂ b₂).1 &&& wordMask width)
        ((f a₁ b₁ a₂ b₂).2 &&& wordMask width)⟩
    else wide
  | _, _ => wide

def bitnot (v : LogicVec) : LogicVec := mapWord (fun a b => (~~~a &&& ~~~b, b)) v

def bitand (v w : LogicVec) : LogicVec :=
  zipWord (fun aa ab ba bb =>
    let is0 := (~~~aa &&& ~~~ab) ||| (~~~ba &&& ~~~bb)
    let is1 := (aa &&& ~~~ab) &&& (ba &&& ~~~bb)
    (is1, ~~~is0 &&& ~~~is1)) v w

def bitor (v w : LogicVec) : LogicVec :=
  zipWord (fun aa ab ba bb =>
    let is1 := (aa &&& ~~~ab) ||| (ba &&& ~~~bb)
    let is0 := (~~~aa &&& ~~~ab) &&& (~~~ba &&& ~~~bb)
    (is1, ~~~is1 &&& ~~~is0)) v w

def bitxor (v w : LogicVec) : LogicVec :=
  zipWord (fun aa ab ba bb => ((aa ^^^ ba) &&& ~~~(ab ||| bb), ab ||| bb)) v w

/-! ### Arithmetic -/

/-- The limb loop of wide addition and subtraction: `n` limbs from index `i` on. -/
def addsubLimbs (v w : LogicVec) (sub : Bool) : Nat → Nat → Nat → List (BitVec 64)
  | 0, _, _ => []
  | n + 1, i, carry =>
    let a := (limbAval v i).toNat
    let b := (if sub then ~~~limbAval w i else limbAval w i).toNat
    let s := a + b + carry
    BitVec.ofNat 64 s :: addsubLimbs v w sub n (i + 1) (s / 0x10000000000000000)

def wideAddsub (v w : LogicVec) (sub : Bool) (width : Nat) : LogicVec :=
  normalizeTop ⟨width, .wide (addsubLimbs v w sub (limbsFor width) 0 (if sub then 1 else 0))
    (List.replicate (limbsFor width) 0)⟩

/-- Any unknown bit makes the whole sum X. -/
def add (v w : LogicVec) : LogicVec :=
  let width := max v.width w.width
  if !v.isKnown || !w.isKnown then x width
  else if width ≤ 64 then fromU64 (v.toU64 + w.toU64) width
  else wideAddsub v w false width

def sub (v w : LogicVec) : LogicVec :=
  let width := max v.width w.width
  if !v.isKnown || !w.isKnown then x width
  else if width ≤ 64 then fromU64 (v.toU64 - w.toU64) width
  else wideAddsub v w true width

/-- Products of more than 64 bits are not implemented: the assertion fails. -/
def mul (v w : LogicVec) : Option LogicVec :=
  let width := max v.width w.width
  if !v.isKnown || !w.isKnown then some (x width)
  else if width ≤ 64 then some (fromU64 (v.toU64 * w.toU64) width)
  else none

def neg (v : LogicVec) : LogicVec := sub (zero v.width) v

/-! ### Shifts and slices -/

/-- Addition of 32-bit indices wraps. -/
def addU32 (i amt : Nat) : Nat := (i + amt) % 0x100000000

def shl (v : LogicVec) (amt : Nat) : LogicVec :=
  match v.repr with
  | .small a b =>
    if amt ≥ v.width then zero v.width
    else planesSmall ((a <<< amt) &&& wordMask v.width) ((b <<< amt) &&& wordMask v.width) v.width
  | .wide _ _ =>
    writeWhere (zero v.width) (List.range v.width).reverse (· ≥ amt) fun i => v.getBit (i - amt)

def shr (v : LogicVec) (amt : Nat) : LogicVec :=
  match v.repr with
  | .small a b =>
    if amt ≥ v.width then zero v.width else planesSmall (a >>> amt) (b >>> amt) v.width
  | .wide _ _ =>
    writeWhere (zero v.width) (List.range v.width) (fun i => addU32 i amt < v.width)
      fun i => v.getBit (addU32 i amt)

/-- The fill bit of an arithmetic shift: a Z sign fills with X. -/
def signFill (v : LogicVec) : Bit :=
  match v.getBit (v.width - 1) with
  | .z => .x
  | bit => bit

def ashr (v : LogicVec) (amt : Nat) : LogicVec :=
  writeWhere (filled (signFill v) v.width) (List.range v.width)
    (fun i => addU32 i amt < v.width) fun i => v.getBit (addU32 i amt)

/-- The bits from `hi` down to `lo`. -/
def slice (v : LogicVec) (hi lo : Nat) : LogicVec :=
  (zero (hi - lo + 1)).writeBits (hi - lo + 1) id fun i => v.getBit (lo + i)

/-- The first operand takes the high bits. -/
def concat (v w : LogicVec) : LogicVec :=
  ((zero (v.width + w.width)).writeBits w.width id w.getBit).writeBits v.width (w.width + ·)
    v.getBit

end Eevee.Core.Alu
