/- A generate loop against the loop over integers that it stands for. -/

import Mathlib.Data.Int.Bitwise
import Mathlib.Tactic.Common
import Mathlib.Tactic.Ring
import Eevee.Const.Agreement
import Eevee.Core.Numeric
import Eevee.Elab.GenerateScopes
import Eevee.Ir.Collections
import Eevee.Lib.Loops

set_option autoImplicit false
set_option relaxedAutoImplicit false

namespace Eevee.Elab.GenerateLoops

open Eevee.Ast.Modules
open Eevee.Ast.Syntax
open Eevee.Const.Agreement (widthLast tryAtWidth_of_widthLast)
open Eevee.Const.Evaluators (Constants Eval constExprSignedness constSigned constUnary constBinary)
open Eevee.Const.Evaluators.Elab (tryConstEvalWith tryConstEvalAtWidth)
open Eevee.Core.Alu
open Eevee.Core.Logic
open Eevee.Core.Numeric
open Eevee.Elab.GenerateScopes
open Eevee.Elab.Hierarchy (evaluateGenerateConstant)
open Eevee.Ir.Objects (toI64)
open Eevee.Lib.Loops
open Eevee.Lib.Tables (Names)

/-! ### The loop over integers -/

def truth (p : Prop) [Decidable p] : Int := if p then 1 else 0

/-- The amount of a shift is read as an unsigned number of 32 bits. -/
def places (z : Int) : Nat := (z % 0x100000000).toNat

def integerUnary (z : Int) : UnaryOp → Int
  | .bitNot => -z - 1
  | .logNot => truth (z = 0)
  | .neg => -z
  | .plus | .reduceAnd | .reduceOr | .reduceXor => z

def integerBinary (y z : Int) : BinOp → Int
  | .add => y + z
  | .sub => y - z
  | .mul => y * z
  | .and => y.land z
  | .or => y.lor z
  | .xor => y.xor z
  | .eq => truth (y = z)
  | .neq => truth (y ≠ z)
  | .lt => truth (y < z)
  | .gt => truth (z < y)
  | .le => truth (y ≤ z)
  | .ge => truth (z ≤ y)
  | .shl => y * 2 ^ places z
  | .shr => y % 0x100000000 / 2 ^ places z
  | .sar => y / 2 ^ places z
  | .logAnd => truth (y ≠ 0 ∧ z ≠ 0)
  | .logOr => truth (y ≠ 0 ∨ z ≠ 0)

/-- The integer that an expression stands for. -/
def integer (names : String → Int) : Expr → Int
  | .literal v => toNat v
  | .signedLiteral v => toInt v
  | .fill bit => if bit = .one then -1 else 0
  | .ref name => names name
  | .unary op e => integerUnary (integer names e) op
  | .binary op l r => integerBinary (integer names l) (integer names r) op
  | .conditional c t f => if integer names c ≠ 0 then integer names t else integer names f
  | .index _ _ | .partSelect _ _ _ | .concat _ => 0

def integerOp : UnaryOp → Bool
  | .bitNot | .logNot | .neg | .plus => true
  | .reduceAnd | .reduceOr | .reduceXor => false

/-- The expressions that stand for integers: known literals, named constants and operators on
integers. -/
def integral (named : String → Bool) : Expr → Bool
  | .literal v | .signedLiteral v => v.isKnown
  | .fill bit => bit = .zero || bit = .one
  | .ref name => named name
  | .unary op e => integerOp op && integral named e
  | .binary _ l r => integral named l && integral named r
  | .conditional c t f => integral named c && integral named t && integral named f
  | .index _ _ | .partSelect _ _ _ | .concat _ => false

/-- The integers of the named constants, some of which are declared as signed. -/
def integers (consts : Constants) (signed : String → Bool) (name : String) : Int :=
  match consts name with
  | some v => if signed name then toInt v else toNat v
  | none => 0

/-- Whether a name has a known value. -/
def named (consts : Constants) (name : String) : Bool := (consts name).any PackedVec.isKnown

/-- The loop over the integers of its variable. -/
def integerLoop (names : String → Int) (genvar : String) (condition step : Expr) : Loop Int where
  test z := some (integer (Function.update names genvar z) condition ≠ 0)
  next z := some (integer (Function.update names genvar z) step)

/-! ### Reading without signs -/

/-- A number of some width, read without a sign. -/
structure Word where
  width : Nat
  value : Nat
  deriving DecidableEq

namespace Word

def bit (x : Word) (i : Nat) : Bool := x.value.testBit i

def sign (x : Word) : Bool := x.bit (x.width - 1)

def signed (x : Word) : Int := if x.sign then (x.value : Int) - 2 ^ x.width else x.value

def ofInt (width : Nat) (z : Int) : Word := ⟨width, (z % 2 ^ width).toNat⟩

def ofBits (width : Nat) (p : Nat → Bool) : Word := ⟨width, Lib.Binary.value p width⟩

def flag (b : Bool) : Word := ⟨1, b.toNat⟩

/-- More bits of a number, or fewer. -/
def extend (signed : Bool) (width : Nat) (x : Word) : Word :=
  .ofBits width fun i => if i < x.width then x.bit i else signed && x.sign

/-- In a context that gives a width, a number is extended to it. -/
def within (signed : Bool) (x : Word) : Option Nat → Word
  | none => x
  | some width => x.extend signed width

/-- The number of an iteration: its low 64 bits, with a sign. -/
def index (x : Word) : Int :=
  if x.width < 64 then x.signed else (BitVec.ofNat 64 x.value).toInt

def unary (x : Word) : UnaryOp → Option Word
  | .bitNot => some (.ofBits x.width fun i => !x.bit i)
  | .logNot => some (.flag (x.value = 0))
  | .neg => some (.ofInt x.width (-x.value))
  | .plus => some x
  | .reduceAnd | .reduceOr | .reduceXor => none

/-- The amount of a shift. -/
def amount (x : Word) : Nat := x.value % 0x100000000

/-- An order is that of the signed numbers only if both operands are known to be signed; products
have 64 bits at most. -/
def binary (xSigned ySigned : Bool) (x y : Word) : BinOp → Option Word
  | .add => some (.ofInt (max x.width y.width) (x.value + y.value))
  | .sub => some (.ofInt (max x.width y.width) (x.value - y.value))
  | .mul => if max x.width y.width ≤ 64
    then some (.ofInt (max x.width y.width) (x.value * y.value)) else none
  | .and => some (.ofBits (max x.width y.width) fun i => x.bit i && y.bit i)
  | .or => some (.ofBits (max x.width y.width) fun i => x.bit i || y.bit i)
  | .xor => some (.ofBits (max x.width y.width) fun i => x.bit i ^^ y.bit i)
  | .eq => some (.flag (x.value = y.value))
  | .neq => some (.flag (x.value ≠ y.value))
  | .lt => some (.flag (if xSigned && ySigned then x.signed < y.signed else x.value < y.value))
  | .gt => some (.flag (if xSigned && ySigned then y.signed < x.signed else y.value < x.value))
  | .le => some (.flag (if xSigned && ySigned then x.signed ≤ y.signed else x.value ≤ y.value))
  | .ge => some (.flag (if xSigned && ySigned then y.signed ≤ x.signed else y.value ≤ x.value))
  | .shl => some (.ofBits x.width fun i => decide (y.amount ≤ i) && x.bit (i - y.amount))
  | .shr => some (.ofBits x.width fun i =>
    x.bit (if x.width ≤ 64 then i + y.amount else addU32 i y.amount))
  | .sar => some (.ofBits x.width fun i =>
    if xSigned then
      if addU32 i y.amount < x.width then x.bit (addU32 i y.amount) else x.sign
    else x.bit (if x.width ≤ 64 then i + y.amount else addU32 i y.amount))
  | .logAnd => some (.flag (x.value ≠ 0 ∧ y.value ≠ 0))
  | .logOr => some (.flag (x.value ≠ 0 ∨ y.value ≠ 0))

end Word

/-- An expression over numbers that have a width but, unless they are signed literals, no sign; a
context may give a width. -/
def unsigned (names : Names Word) : Expr → Option Nat → Option Word
  | .literal v, context => some (Word.within false ⟨v.width, toNat v⟩ context)
  | .signedLiteral v, context => some (Word.within true ⟨v.width, toNat v⟩ context)
  | .fill bit, context => some (.ofBits (context.getD 1) fun _ => bit = .one)
  | .ref name, context => (names name).map fun x => x.within false context
  | .unary op e, context => (unsigned names e none).bind fun x =>
    (x.unary op).map fun y => y.within (constSigned (.unary op e)) context
  | .binary op l r, context => (unsigned names l none).bind fun x =>
    (unsigned names r none).bind fun y =>
      (Word.binary (constSigned l) (constSigned r) x y op).map fun z =>
        z.within (constSigned (.binary op l r)) context
  | .conditional c t f, some width => (unsigned names c none).bind fun z =>
    (unsigned names t (some width)).bind fun x => (unsigned names f (some width)).bind fun y =>
      some (if z.value ≠ 0 then x else y)
  | .conditional c t f, none => (unsigned names t none).bind fun x =>
    (unsigned names f none).bind fun y => (unsigned names c none).bind fun z =>
      (unsigned names t (some (max x.width y.width))).bind fun x' =>
        (unsigned names f (some (max x.width y.width))).bind fun y' =>
          some (if z.value ≠ 0 then x' else y')
  | .index _ _, _ | .partSelect _ _ _, _ | .concat _, _ => none

def word (v : PackedVec) : Word := ⟨v.width, toNat v⟩

def words (consts : Constants) : Names Word := fun name => (consts name).map word

/-- The loop over such numbers; a step that leaves the number of the iteration stops it. -/
def unsignedLoop (names : Names Word) (genvar : String) (condition step : Expr) : Loop Word where
  test x := (unsigned (names.insert genvar x) condition none).map fun y => y.value ≠ 0
  next x := (unsigned (names.insert genvar x) step none).filter fun y => y.index ≠ x.index

/-! ### The evaluation of the elaborator -/

section Words

variable {v w r : PackedVec} {n : Nat} {p : Nat → Bool}

theorem bit_word (v : PackedVec) (i : Nat) : (word v).bit i = isOne v i := by
  show (Lib.Binary.value (isOne v) v.width).testBit i = _
  rw [Lib.Binary.testBit_value]
  by_cases hi : i < v.width
  · simp [hi]
  · simp [hi, isOne_of_ge (Nat.le_of_not_lt hi)]

theorem sign_word (v : PackedVec) : (word v).sign = isOne v (v.width - 1) := bit_word v _

theorem signed_word (v : PackedVec) : (word v).signed = toInt v := by
  unfold Word.signed
  rw [sign_word]
  rfl

theorem index_word (v : PackedVec) : (word v).index = toI64 v := by
  unfold Word.index
  rw [Ir.Collections.toI64_eq, signed_word]
  rfl

theorem getBit_known (hv : v.isKnown = true) (i : Nat) :
    v.getBit i = ofBool ((word v).bit i) := by
  rw [bit_word]
  unfold isOne
  by_cases hi : i < v.width
  · have hknown := PackedVec.isKnown_iff.mp hv i hi
    cases hb : v.getBit i <;> rw [hb] at hknown <;> simp_all [Bit.isUnknown, ofBool]
  · rw [PackedVec.getBit_of_ge v (Nat.le_of_not_lt hi)]
    rfl

theorem isTrue_word (v : PackedVec) : v.isTrue = decide ((word v).value ≠ 0) := by
  rw [Bool.eq_iff_iff, PackedVec.isTrue_iff, decide_eq_true_iff]
  constructor
  · rintro ⟨i, -, hi⟩ hzero
    have hbit : (word v).bit i = isOne v i := bit_word v i
    unfold Word.bit at hbit
    rw [hzero, Nat.zero_testBit] at hbit
    simp [isOne, hi] at hbit
  · intro hne
    obtain ⟨i, hi⟩ := Nat.exists_testBit_of_ne_zero hne
    have hone : isOne v i = true := (bit_word v i).symm.trans hi
    refine ⟨i, ?_, of_decide_eq_true hone⟩
    by_contra hge
    rw [isOne_of_ge (Nat.le_of_not_lt hge)] at hone
    cases hone

/-- An evaluation yields a known vector, read as a number, or stops. -/
inductive Carries : Eval PackedVec → Option Word → Prop
  | value {v : PackedVec} {x : Word} : v.isKnown = true → word v = x → Carries (.ok v) (some x)
  | stop {reason : Const.Evaluators.Stop} : Carries (.error reason) none

theorem carries_denotes {z : Int} (h : Denotes v n z) : Carries (.ok v) (some (.ofInt n z)) := by
  refine .value h.known ?_
  unfold word Word.ofInt
  rw [h.width, ← h.value, Int.toNat_natCast]

theorem carries_bits (hwidth : v.width = n) (hbit : ∀ i < n, v.getBit i = ofBool (p i)) :
    Carries (.ok v) (some (.ofBits n p)) := by
  refine .value (PackedVec.isKnown_iff.mpr fun i hi => ?_) ?_
  · rw [hbit i (hwidth ▸ hi)]
    cases p i <;> rfl
  · unfold word Word.ofBits Core.Numeric.toNat
    rw [hwidth]
    refine congrArg _ (Lib.Binary.value_congr fun i hi => ?_)
    unfold isOne
    rw [hbit i hi]
    cases p i <;> rfl

theorem carries_fromBool (b : Bool) : Carries (.ok (.fromBool b)) (some (.flag b)) := by
  refine .value (PackedVec.isKnown_fromBool b) ?_
  cases b <;> decide

theorem carries_resize (hv : v.isKnown = true) (signed : Bool) (n : Nat) :
    Carries (.ok (v.resize n signed)) (some ((word v).extend signed n)) := by
  refine carries_bits (PackedVec.width_resize v n signed) fun i hi => ?_
  have hone := isOne_resize v signed hi
  rw [getBit_known (isKnown_resize hv), bit_word, hone, bit_word, sign_word]
  rfl

end Words

section Operators

variable {v w : PackedVec}

theorem lognot_known (hv : v.isKnown = true) : v.lognot = .fromBool (!v.isTrue) := by
  have hv' : v.1.isKnown = true := hv
  apply Subtype.ext
  show lognot v.1 = LogicVec.fromU64 (if (!v.1.isTrue) = true then 1 else 0) 1
  unfold lognot reduceOr
  cases v.1.isTrue with
  | true => rfl
  | false => simp [hv']

theorem carries_unary (hv : v.isKnown = true) {op : UnaryOp} (hop : integerOp op = true) :
    Carries (.ok (constUnary v op)) ((word v).unary op) := by
  cases op with
  | bitNot =>
    refine carries_bits (PackedVec.width_bitnot v) fun i hi => ?_
    show v.bitnot.getBit i = _
    rw [PackedVec.getBit_bitnot v hi, getBit_known hv]
    cases (word v).bit i <;> rfl
  | logNot =>
    show Carries (.ok (PackedVec.lognot v)) (some (.flag (decide ((word v).value = 0))))
    have hnot : (!v.isTrue) = decide ((word v).value = 0) := by simp [isTrue_word]
    rw [lognot_known hv, hnot]
    exact carries_fromBool _
  | neg => exact carries_denotes (denotes_neg hv)
  | plus => exact .value hv rfl
  | reduceAnd | reduceOr | reduceXor => cases hop

theorem toU32_word (v : PackedVec) : v.toU32 = (word v).amount := toU32_eq v

theorem carries_shr (hv : v.isKnown = true) : Carries (.ok (v.shr w.toU32))
    (some (.ofBits v.width fun i => (word v).bit
      (if v.width ≤ 64 then i + (word w).amount else addU32 i (word w).amount))) := by
  refine carries_bits (PackedVec.width_shr v _) fun i hi => ?_
  rw [PackedVec.getBit_shr v hi, getBit_known hv, toU32_word]

/-- An order on signed or on unsigned numbers. -/
theorem carries_order {s : Bool} {signed unsigned : PackedVec} {p q : Prop} [Decidable p]
    [Decidable q] (hsigned : signed = .fromBool (decide p))
    (hunsigned : unsigned = .fromBool (decide q)) :
    Carries (.ok (if s = true then signed else unsigned))
      (some (.flag (if s = true then decide p else decide q))) := by
  subst hsigned hunsigned
  cases s <;> exact carries_fromBool _

variable (hv : v.isKnown = true) (hw : w.isKnown = true)
include hv hw

theorem carries_binary (s s' : Bool) (op : BinOp) :
    Carries (constBinary s s' v w op) (Word.binary s s' (word v) (word w) op) := by
  obtain ⟨hadd, hsub, hmul, heq, hult, hule, hugt, huge, hslt, hsle, hsgt, hsge⟩ :=
    (arithmetic_homomorphism v w).1 hv hw
  cases op with
  | add => exact carries_denotes hadd
  | sub => exact carries_denotes hsub
  | mul =>
    by_cases hn : max v.width w.width ≤ 64
    · obtain ⟨u, hu, hdenotes⟩ := hmul hn
      have hn' : max (word v).width (word w).width ≤ 64 := hn
      simp only [constBinary, hu, Word.binary, if_pos hn']
      exact carries_denotes hdenotes
    · have hnone : v.mul w = none := by
        refine Option.eq_none_iff_forall_ne_some.mpr fun u hu => ?_
        have hmul' := PackedVec.mul_eq_some.mp hu
        unfold mul at hmul'
        rw [if_neg (not_unknown hv hw)] at hmul'
        have hnone : (none : Option LogicVec) = some u.1 := (if_neg hn).symm.trans hmul'
        cases hnone
      have hn' : ¬ max (word v).width (word w).width ≤ 64 := hn
      simp only [constBinary, hnone, Word.binary, if_neg hn']
      exact .stop
  | and =>
    refine carries_bits (PackedVec.width_bitand v w) fun i hi => ?_
    rw [PackedVec.getBit_bitand v w hi, getBit_known hv, getBit_known hw]
    cases (word v).bit i <;> cases (word w).bit i <;> rfl
  | or =>
    refine carries_bits (PackedVec.width_bitor v w) fun i hi => ?_
    rw [PackedVec.getBit_bitor v w hi, getBit_known hv, getBit_known hw]
    cases (word v).bit i <;> cases (word w).bit i <;> rfl
  | xor =>
    refine carries_bits (PackedVec.width_bitxor v w) fun i hi => ?_
    rw [PackedVec.getBit_bitxor v w hi, getBit_known hv, getBit_known hw]
    cases (word v).bit i <;> cases (word w).bit i <;> rfl
  | eq =>
    show Carries (.ok (v.eqLogical w)) _
    rw [heq]
    exact carries_fromBool _
  | neq =>
    show Carries (.ok (v.eqLogical w).lognot) (some (.flag (decide (toNat v ≠ toNat w))))
    rw [heq, lognot_known (PackedVec.isKnown_fromBool _), PackedVec.isTrue_fromBool, ← decide_not]
    exact carries_fromBool _
  | lt =>
    simp only [Word.binary, signed_word]
    exact carries_order hslt hult
  | gt =>
    simp only [Word.binary, signed_word]
    exact carries_order hsgt hugt
  | le =>
    simp only [Word.binary, signed_word]
    exact carries_order hsle hule
  | ge =>
    simp only [Word.binary, signed_word]
    exact carries_order hsge huge
  | shl =>
    refine carries_bits (PackedVec.width_shl v _) fun i hi => ?_
    rw [PackedVec.getBit_shl v hi, toU32_word]
    split_ifs with hle
    · rw [getBit_known hv, decide_eq_true hle, Bool.true_and]
    · rw [decide_eq_false hle]
      rfl
  | shr => exact carries_shr hv
  | sar =>
    cases s with
    | false => exact carries_shr hv
    | true =>
      refine carries_bits (PackedVec.width_ashr v _) fun i hi => ?_
      show (v.ashr w.toU32).getBit i = ofBool (if addU32 i (word w).amount < v.width
        then (word v).bit (addU32 i (word w).amount) else (word v).sign)
      rw [PackedVec.getBit_ashr v hi, toU32_word]
      split_ifs
      · exact getBit_known hv _
      · have hsign : v.1.getBit (v.1.width - 1) = ofBool ((word v).bit (v.width - 1)) :=
          getBit_known hv _
        show signFill v.1 = ofBool ((word v).bit (v.width - 1))
        unfold signFill
        rw [hsign]
        cases (word v).bit (v.width - 1) <;> rfl
  | logAnd =>
    show Carries (.ok (.fromBool (v.isTrue && w.isTrue))) _
    rw [isTrue_word, isTrue_word, ← Bool.decide_and]
    exact carries_fromBool _
  | logOr =>
    show Carries (.ok (.fromBool (v.isTrue || w.isTrue))) _
    rw [isTrue_word, isTrue_word, ← Bool.decide_or]
    exact carries_fromBool _

end Operators

section Evaluation

variable {r : Eval PackedVec} {o : Option Word}

theorem Carries.bind {f : PackedVec → Eval PackedVec} {g : Word → Option Word} (h : Carries r o)
    (hf : ∀ v, v.isKnown = true → o = some (word v) → Carries (f v) (g (word v))) :
    Carries (r >>= f) (o.bind g) := by
  cases h with
  | value hknown hword =>
    subst hword
    exact hf _ hknown rfl
  | stop => exact .stop

variable {consts : Constants} {e : Expr}

/-- What is evaluated before it is extended. -/
theorem unsigned_some {names : Names Word} (hl : widthLast e = true) (width : Nat) :
    unsigned names e (some width) =
      (unsigned names e none).bind fun x => some (x.extend (constSigned e) width) := by
  cases e with
  | literal | signedLiteral | fill | conditional => cases hl
  | ref name =>
    simp [unsigned, Word.within, constSigned, constExprSignedness, Option.map_eq_bind]
  | unary op e => simp [unsigned, Word.within, Option.map_eq_bind, Option.bind_assoc]
  | binary op l r =>
    simp [unsigned, Word.within, Option.map_eq_bind, Option.bind_assoc]
  | index | partSelect | concat => rfl

theorem carries_widthLast (hl : widthLast e = true)
    (h : Carries (tryConstEvalWith consts e) (unsigned (words consts) e none)) (width : Nat) :
    Carries (tryConstEvalAtWidth consts e width false)
      (unsigned (words consts) e (some width)) := by
  rw [tryAtWidth_of_widthLast hl, unsigned_some hl]
  exact h.bind fun v hv _ => carries_resize hv _ _

/-- The branches of a conditional are extended to one width before one of them is chosen. -/
theorem carries_conditional {c t f : PackedVec} (hc : c.isKnown = true) (ht : t.isKnown = true)
    (hf : f.isKnown = true) (hwidth : t.width = f.width) :
    Carries (.ok (.conditional c t f))
      (some (if (word c).value ≠ 0 then word t else word f)) := by
  have hmax : max t.width f.width = t.width := by rw [hwidth, Nat.max_self]
  by_cases hne : (word c).value ≠ 0
  · have htrue : c.isTrue = true := by rw [isTrue_word, decide_eq_true hne]
    rw [if_pos hne, PackedVec.conditional_true htrue, hmax,
      PackedVec.resize_self]
    exact .value ht rfl
  · have hfalse : c.isTrue = false := by rw [isTrue_word, decide_eq_false hne]
    rw [if_neg hne, PackedVec.conditional_false hfalse hc, hmax,
      PackedVec.resize_of_width_eq hwidth.symm]
    exact .value hf rfl

/-- In a context the number has the width of the context. -/
theorem width_unsigned {names : Names Word} {width : Nat} {x : Word}
    (h : unsigned names e (some width) = some x) : x.width = width := by
  induction e generalizing x with
  | literal | signedLiteral | fill =>
    cases h
    rfl
  | conditional c t f ihc iht ihf =>
    obtain ⟨z, -, h⟩ := Option.bind_eq_some_iff.mp h
    obtain ⟨y, hy, h⟩ := Option.bind_eq_some_iff.mp h
    obtain ⟨y', hy', h⟩ := Option.bind_eq_some_iff.mp h
    cases h
    split_ifs
    · exact iht hy
    · exact ihf hy'
  | _ =>
    rw [unsigned_some rfl] at h
    obtain ⟨y, -, h⟩ := Option.bind_eq_some_iff.mp h
    cases h
    rfl

/-- The elaborator evaluates an integral expression to the unsigned reading of its parts. -/
theorem carries_eval (h : integral (named consts) e = true) :
    Carries (tryConstEvalWith consts e) (unsigned (words consts) e none) ∧
      ∀ width, Carries (tryConstEvalAtWidth consts e width false)
        (unsigned (words consts) e (some width)) := by
  induction e with
  | literal v =>
    rw [tryConstEvalWith]
    refine ⟨.value h rfl, fun width => ?_⟩
    rw [tryConstEvalAtWidth]
    exact carries_resize h _ _
  | signedLiteral v =>
    rw [tryConstEvalWith]
    refine ⟨.value h rfl, fun width => ?_⟩
    rw [tryConstEvalAtWidth]
    exact carries_resize h _ _
  | fill bit =>
    have hfill : ∀ width, Carries (.ok (.filled bit width))
        (some (.ofBits width fun _ => bit = .one)) := fun width => by
      refine carries_bits (PackedVec.width_filled bit width) fun i hi => ?_
      rw [PackedVec.getBit_filled, if_pos hi]
      cases bit <;> first | rfl | cases h
    rw [tryConstEvalWith]
    refine ⟨hfill 1, fun width => ?_⟩
    rw [tryConstEvalAtWidth]
    exact hfill width
  | ref name =>
    have hself : Carries (tryConstEvalWith consts (.ref name))
        (unsigned (words consts) (.ref name) none) := by
      have hnamed : (consts name).any PackedVec.isKnown = true := h
      rw [tryConstEvalWith]
      cases hv : consts name with
      | none => simp [hv] at hnamed
      | some v =>
        rw [hv] at hnamed
        simp only [Constants.get, hv, unsigned, words, Option.map_some]
        exact .value hnamed rfl
    exact ⟨hself, carries_widthLast rfl hself⟩
  | unary op e ih =>
    have hself : Carries (tryConstEvalWith consts (.unary op e))
        (unsigned (words consts) (.unary op e) none) := by
      obtain ⟨hop, he⟩ := Bool.and_eq_true_iff.mp h
      rw [tryConstEvalWith]
      refine (ih he).1.bind fun v hv _ => ?_
      simp only [Word.within, Option.map_id']
      exact carries_unary hv hop
    exact ⟨hself, carries_widthLast rfl hself⟩
  | binary op l r ihl ihr =>
    have hself : Carries (tryConstEvalWith consts (.binary op l r))
        (unsigned (words consts) (.binary op l r) none) := by
      obtain ⟨hl, hr⟩ := Bool.and_eq_true_iff.mp h
      rw [tryConstEvalWith]
      refine (ihl hl).1.bind fun v hv _ => (ihr hr).1.bind fun w hw _ => ?_
      simp only [Word.within, Option.map_id']
      exact carries_binary hv hw _ _ op
    exact ⟨hself, carries_widthLast rfl hself⟩
  | conditional c t f ihc iht ihf =>
    simp only [integral, Bool.and_eq_true] at h
    obtain ⟨⟨hc, ht⟩, hf⟩ := h
    have hchosen : ∀ width, ∀ vc : PackedVec, vc.isKnown = true →
        Carries (do
            let whenTrue ← tryConstEvalAtWidth consts t width false
            let whenFalse ← tryConstEvalAtWidth consts f width false
            return .conditional vc whenTrue whenFalse)
          ((unsigned (words consts) t (some width)).bind fun x =>
            (unsigned (words consts) f (some width)).bind fun y =>
              some (if (word vc).value ≠ 0 then x else y)) := by
      intro width vc hvc
      refine ((iht ht).2 width).bind fun vt hvt ht' => ((ihf hf).2 width).bind fun vf hvf hf' => ?_
      exact carries_conditional hvc hvt hvf ((width_unsigned ht').trans (width_unsigned hf').symm)
    rw [tryConstEvalWith]
    refine ⟨(iht ht).1.bind fun vt _ _ => (ihf hf).1.bind fun vf _ _ =>
      (ihc hc).1.bind fun vc hvc _ => hchosen _ vc hvc, fun width => ?_⟩
    rw [tryConstEvalAtWidth]
    exact (ihc hc).1.bind fun vc hvc _ => hchosen width vc hvc
  | index base index => cases h
  | partSelect base left right => cases h
  | concat parts => cases h

end Evaluation

/-! ### The loop of the elaborator -/

section Elaboration

variable {consts : Constants} {e : Expr} {v : PackedVec}

theorem evaluate_eq (h : integral (named consts) e = true) :
    (evaluateGenerateConstant consts e).map word = unsigned (words consts) e none := by
  have hcarries := (carries_eval h).1
  unfold evaluateGenerateConstant Hierarchy.tryConstEvalWith
  generalize tryConstEvalWith consts e = r at hcarries ⊢
  generalize unsigned (words consts) e none = o at hcarries ⊢
  cases hcarries with
  | value hknown hword => simp [Except.toOption, Option.filter, hknown, hword]
  | stop => rfl

theorem known_of_evaluate (h : evaluateGenerateConstant consts e = some v) :
    v.isKnown = true := (Option.filter_eq_some_iff.mp h).2

variable {genvar : String}

theorem named_insert (hv : v.isKnown = true) : named (Names.insert consts genvar v) =
    fun name => name = genvar || named consts name := by
  funext name
  unfold named Names.insert
  split_ifs with h <;> simp [h, hv]

theorem words_insert : words (Names.insert consts genvar v) =
    (words consts).insert genvar (word v) := by
  funext name
  unfold words Names.insert
  split_ifs <;> rfl

variable {condition step : Expr}

/-- The loop as the elaborator executes it. -/
def vectorLoop (consts : Constants) (genvar : String) (condition step : Expr) : Loop PackedVec where
  test v := (evaluateGenerateConstant (Names.insert consts genvar v) condition).map PackedVec.isTrue
  next v := (evaluateGenerateConstant (Names.insert consts genvar v) step).filter fun next =>
    toI64 next ≠ toI64 v

theorem represents
    (hcondition : integral (fun name => name = genvar || named consts name) condition = true)
    (hstep : integral (fun name => name = genvar || named consts name) step = true) :
    Loop.Represents (vectorLoop consts genvar condition step)
      (unsignedLoop (words consts) genvar condition step) word (·.isKnown = true) where
  test {v} hv := by
    rw [← named_insert hv] at hcondition
    have heval := evaluate_eq hcondition
    rw [words_insert] at heval
    show (unsigned _ condition none).map _ = _
    rw [← heval, Option.map_map]
    show _ = Option.map _ _
    congr 1
    funext u
    exact (isTrue_word u).symm
  next {v} hv := by
    rw [← named_insert hv] at hstep
    have heval := evaluate_eq hstep
    rw [words_insert] at heval
    show (unsigned _ step none).filter _ = _
    rw [← heval, Option.filter_map]
    show _ = Option.map _ (Option.filter _ _)
    congr 2
    funext u
    show decide ((word u).index ≠ (word v).index) = _
    rw [index_word, index_word]
  good {v u} _ hnext := known_of_evaluate (Option.filter_eq_some_iff.mp hnext).1

variable {E : Type} {block : GenerateBlock E}

theorem loopBlocks_eq (n : Nat) : loopBlocks consts genvar condition step block n v =
    ((vectorLoop consts genvar condition step).collect n v).map
      (List.map fun value => ⟨some (genvar, value), block⟩) := by
  induction n generalizing v with
  | zero => rfl
  | succ n ih =>
    have htest : (vectorLoop consts genvar condition step).test v =
        (evaluateGenerateConstant (Names.insert consts genvar v) condition).map
          PackedVec.isTrue := rfl
    have hnext : (vectorLoop consts genvar condition step).next v =
        (evaluateGenerateConstant (Names.insert consts genvar v) step).filter fun next =>
          toI64 next ≠ toI64 v := rfl
    rw [loopBlocks, Loop.collect, htest, hnext]
    cases evaluateGenerateConstant (Names.insert consts genvar v) condition with
    | none => rfl
    | some going =>
      cases hgo : going.isTrue with
      | false => simp [hgo]
      | true =>
        cases evaluateGenerateConstant (Names.insert consts genvar v) step with
        | none => simp [hgo]
        | some next =>
          by_cases hsame : toI64 next = toI64 v
          · simp [hgo, hsame, Option.filter]
          · simp [hgo, hsame, Option.filter, ih, Function.comp_def]

/-- One of the blocks is the block of the loop, has the number of its iteration in its name, and
sees a value of the variable with that number. -/
structure Unrolled (genvar : String) (block : GenerateBlock E) (chosen : Chosen E) (z : Int) :
    Prop where
  copy : chosen.block = block
  segment : chosen.segment = block.name ++ "[" ++ toString z ++ "]"
  sees : ∃ v, toI64 v = z ∧ chosen.env = [(genvar, .const v 32 true)]

theorem forall_unrolled_iff {k : List PackedVec} {l : List Int} :
    List.Forall₂ (Unrolled genvar block)
      (k.map fun value => (⟨some (genvar, value), block⟩ : Chosen E)) l ↔ k.map toI64 = l := by
  rw [List.forall₂_map_left_iff, ← List.forall₂_eq_eq_eq, List.forall₂_map_left_iff]
  have hone : ∀ value z, Unrolled genvar block (⟨some (genvar, value), block⟩ : Chosen E) z ↔
      toI64 value = z := by
    intro value z
    constructor
    · rintro ⟨-, -, v, hv, henv⟩
      simp only [Chosen.env, Option.toList_some, List.map_cons, List.map_nil, List.cons.injEq,
        Prod.mk.injEq, and_true, true_and, Entity.const.injEq] at henv
      exact henv ▸ hv
    · rintro rfl
      exact ⟨rfl, rfl, value, rfl, rfl⟩
  simp only [hone]

/-- The blocks that are elaborated are those of the loop without signs. -/
theorem unrolled_iff {initial : Expr} {l : List Int}
    (hinitial : integral (named consts) initial = true)
    (hcondition : integral (fun name => name = genvar || named consts name) condition = true)
    (hstep : integral (fun name => name = genvar || named consts name) step = true) :
    (∃ blocks, chooseBlocks consts (.loop genvar initial condition step block) = some blocks ∧
        List.Forall₂ (Unrolled genvar block) blocks l) ↔
      ∃ x k, unsigned (words consts) initial none = some x ∧
        (unsignedLoop (words consts) genvar condition step).collect Instantiation.loopBound x =
          some k ∧ k.map Word.index = l := by
  rw [← evaluate_eq hinitial]
  have hindex : ∀ k : List PackedVec, (k.map word).map Word.index = k.map toI64 := fun k => by
    rw [List.map_map]
    exact List.map_congr_left fun v _ => index_word v
  constructor
  · rintro ⟨blocks, hblocks, hall⟩
    obtain ⟨v, hv, hloop⟩ := Option.bind_eq_some_iff.mp hblocks
    rw [loopBlocks_eq] at hloop
    obtain ⟨k, hk, rfl⟩ := Option.map_eq_some_iff.mp hloop
    refine ⟨word v, k.map word, by rw [hv]; rfl, ?_, (hindex k).trans (forall_unrolled_iff.mp hall)⟩
    rw [(represents hcondition hstep).collect _ (known_of_evaluate hv), hk]
    rfl
  · rintro ⟨x, k, hx, hk, hl⟩
    obtain ⟨v, hv, rfl⟩ := Option.map_eq_some_iff.mp hx
    rw [(represents hcondition hstep).collect _ (known_of_evaluate hv)] at hk
    obtain ⟨k, hvector, rfl⟩ := Option.map_eq_some_iff.mp hk
    refine ⟨_, ?_, forall_unrolled_iff.mpr ((hindex k).symm.trans hl)⟩
    refine Option.bind_eq_some_iff.mpr ⟨v, hv, ?_⟩
    rw [loopBlocks_eq, hvector]
    rfl

/-- At every value that the loop over integers runs through, the condition and the step mean the
same without signs. -/
def SameWithoutSigns (consts : Constants) (signed : String → Bool) (genvar : String)
    (initial condition step : Expr) : Prop :=
  ∃ x, unsigned (words consts) initial none = some x ∧
    Loop.Enters (unsignedLoop (words consts) genvar condition step)
      (integerLoop (integers consts signed) genvar condition step) Word.index x
      (integer (integers consts signed) initial) ∧
    ∀ b, (unsignedLoop (words consts) genvar condition step).Body x b →
      Loop.Follows (unsignedLoop (words consts) genvar condition step)
        (integerLoop (integers consts signed) genvar condition step) Word.index b

/-- A generate loop unrolls the loop over integers exactly when that has less than a million
iterations and means the same without signs. -/
theorem unrolls_integer_loop_iff {signed : String → Bool} {initial : Expr} {l : List Int}
    (hinitial : integral (named consts) initial = true)
    (hcondition : integral (fun name => name = genvar || named consts name) condition = true)
    (hstep : integral (fun name => name = genvar || named consts name) step = true)
    (hl : (integerLoop (integers consts signed) genvar condition step).Visits
      (integer (integers consts signed) initial) l) :
    (∃ blocks, chooseBlocks consts (.loop genvar initial condition step block) = some blocks ∧
        List.Forall₂ (Unrolled genvar block) blocks l) ↔
      l.length < Instantiation.loopBound ∧
        SameWithoutSigns consts signed genvar initial condition step := by
  rw [unrolled_iff hinitial hcondition hstep]
  constructor
  · rintro ⟨x, k, hx, hk, rfl⟩
    obtain ⟨hvisits, hlength⟩ := Loop.collect_eq_some_iff.mp hk
    refine ⟨by rwa [List.length_map], x, hx, ?_⟩
    exact (Loop.visits_iff hl).mp ⟨k, hvisits, rfl⟩
  · rintro ⟨hlength, x, hx, hsame⟩
    obtain ⟨k, hvisits, rfl⟩ := (Loop.visits_iff hl).mpr hsame
    rw [List.length_map] at hlength
    exact ⟨x, k, hx, Loop.collect_eq_some_iff.mpr ⟨hvisits, hlength⟩, rfl⟩

end Elaboration

/-! ### Loops with a negative value -/

def numeral (n : Nat) : Expr := .signedLiteral (.fromU64 (BitVec.ofNat 64 n) 32)

def index : Expr := .ref "i"

def body : GenerateBlock Unit := .mk "b" []

/-- The elaborated loop over a variable i has the numbers of a list. -/
def Unrolls (initial condition step : Expr) (l : List Int) : Prop :=
  ∃ blocks, chooseBlocks Names.empty (.loop "i" initial condition step body) = some blocks ∧
    List.Forall₂ (Unrolled "i" body) blocks l

def noInteger (_ : String) : Int := 0

/-- A loop from 0 on. -/
theorem unrolls_integer_loop_upwards : Unrolls (numeral 0) (.binary .lt index (numeral 2))
    (.binary .add index (numeral 1)) [0, 1] := by
  have hl : (integerLoop (integers Names.empty fun _ => false) "i"
      (.binary .lt index (numeral 2)) (.binary .add index (numeral 1))).Visits
      (integer (integers Names.empty fun _ => false) (numeral 0)) [0, 1] :=
    .next (by decide) rfl (.next (by decide) rfl (.stop (by decide)))
  refine (unrolls_integer_loop_iff (by decide) (by decide) (by decide) hl).mpr ⟨by decide, ?_⟩
  exact ⟨⟨32, 0⟩, by decide, (Loop.visits_iff hl).mp ⟨[⟨32, 0⟩, ⟨32, 1⟩],
    .next (by decide) rfl (.next (by decide) rfl (.stop (by decide))), by decide⟩⟩

/-- No block is elaborated for a loop from -1 to 1, and a loop down to 0 does not end there. -/
theorem negative_values_lost :
    ((integerLoop noInteger "i" (.binary .lt index (numeral 2))
        (.binary .add index (numeral 1))).Visits (-1) [-1, 0, 1] ∧
      ¬ Unrolls (.unary .neg (numeral 1)) (.binary .lt index (numeral 2))
        (.binary .add index (numeral 1)) [-1, 0, 1]) ∧
    (integerLoop noInteger "i" (.binary .ge index (numeral 0))
        (.binary .sub index (numeral 1))).Visits 1 [1, 0] ∧
      ¬ Unrolls (numeral 1) (.binary .ge index (numeral 0))
        (.binary .sub index (numeral 1)) [1, 0] := by
  refine ⟨⟨?_, fun h => ?_⟩, ?_, fun h => ?_⟩
  · exact .next (by decide) rfl (.next (by decide) rfl
      (.next (by decide) rfl (.stop (by decide))))
  · obtain ⟨x, k, hx, hk, hl⟩ := (unrolled_iff (by decide) (by decide) (by decide)).mp h
    have hminus : unsigned (words Names.empty) (.unary .neg (numeral 1)) none =
        some ⟨32, 0xffffffff⟩ := by decide
    rw [hminus] at hx
    cases hx
    have hstop : k = [] := (Loop.collect_eq_some_iff.mp hk).1.unique (.stop (by decide))
    subst hstop
    cases hl
  · exact .next (by decide) rfl (.next (by decide) rfl (.stop (by decide)))
  · obtain ⟨x, k, hx, hk, hl⟩ := (unrolled_iff (by decide) (by decide) (by decide)).mp h
    have hone : unsigned (words Names.empty) (numeral 1) none = some ⟨32, 1⟩ := by decide
    rw [hone] at hx
    cases hx
    obtain ⟨x, k, rfl, -, hl⟩ := List.map_eq_cons_iff.mp hl
    obtain ⟨y, k, rfl, -, hl⟩ := List.map_eq_cons_iff.mp hl
    rw [List.map_eq_nil_iff] at hl
    subst hl
    -- the third test succeeds, at 2 ^ 32 - 1
    obtain ⟨rfl, -, s, hs, hvisits⟩ := (Loop.collect_eq_some_iff.mp hk).1.of_cons
    cases hs
    obtain ⟨rfl, -, s, hs, hvisits⟩ := hvisits.of_cons
    cases hs
    have htest := hvisits.test_of_nil
    exact absurd htest (by decide)

end Eevee.Elab.GenerateLoops
