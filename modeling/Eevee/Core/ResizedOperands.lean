/- Operations on resized operands: when resizing the operands is resizing the result. -/

import Mathlib.Tactic.Common
import Mathlib.Tactic.SplitIfs
import Eevee.Core.Resizing

set_option autoImplicit false
set_option relaxedAutoImplicit false

namespace Eevee.Core.ResizedOperands

open Eevee.Core.Alu
open Eevee.Core.Logic (Bit LogicVec PackedVec)
open Eevee.Core.Logic.PackedVec
open Eevee.Core.Numeric
open Eevee.Core.Resizing

variable {v w : PackedVec} {n : Nat} {s : Bool}

theorem getBit_extend (v : PackedVec) (s : Bool) {i : Nat} (hi : i < n) (hge : v.width ≤ i) :
    (v.resize n s).getBit i = v.1.extension s := by
  rw [getBit_resize v n s hi, if_neg (Nat.not_lt.mpr hge)]

/-- Within its own width a vector does not depend on the signedness. -/
theorem resize_narrow (h : n ≤ v.width) (s s' : Bool) : v.resize n s = v.resize n s' := by
  refine PackedVec.ext_bits (by rw [width_resize, width_resize]) fun i hi => ?_
  rw [width_resize] at hi
  rw [getBit_truncate h s hi, getBit_truncate h s' hi]

/-! ### Bit by bit -/

/-- What sign extension copies. -/
def unZ (b : Bit) : Bit := if b = .z then .x else b

theorem extension_signed (v : PackedVec) : v.1.extension true = unZ (v.getBit (v.width - 1)) :=
  extension_eq v true

theorem extension_unsigned (v : PackedVec) : v.1.extension false = .zero := extension_eq v false

/-- An operation of each bit with the bit at the same place in the other operand. -/
structure Zips (f : PackedVec → PackedVec → PackedVec) (g : Bit → Bit → Bit) : Prop where
  width : ∀ v w, (f v w).width = max v.width w.width
  bit : ∀ v w i, i < max v.width w.width → (f v w).getBit i = g (v.getBit i) (w.getBit i)
  zeros : g .zero .zero = .zero
  copies : ∀ a b, g (unZ a) (unZ b) = unZ (g a b)

theorem Zips.getBit {f : PackedVec → PackedVec → PackedVec} {g : Bit → Bit → Bit} (h : Zips f g)
    (v w : PackedVec) (i : Nat) : (f v w).getBit i = g (v.getBit i) (w.getBit i) := by
  by_cases hi : i < max v.width w.width
  · exact h.bit v w i hi
  · have hv : v.width ≤ i := by omega
    have hw : w.width ≤ i := by omega
    rw [getBit_of_ge v hv, getBit_of_ge w hw, h.zeros]
    exact getBit_of_ge _ (by rw [h.width]; exact Nat.le_of_not_lt hi)

/-- Zeros append to vectors of any widths, copies of the sign to vectors of one width. -/
theorem Zips.resize {f : PackedVec → PackedVec → PackedVec} {g : Bit → Bit → Bit} (h : Zips f g)
    (hs : s = false ∨ v.width = w.width) :
    f (v.resize n s) (w.resize n s) = (f v w).resize n s := by
  refine PackedVec.ext_bits (by rw [h.width]; simp) fun i hi => ?_
  rw [h.width, width_resize, width_resize, Nat.max_self] at hi
  rw [h.getBit]
  cases s with
  | false =>
    rw [getBit_resize_unsigned, getBit_resize_unsigned, getBit_resize_unsigned, if_pos hi,
      if_pos hi, if_pos hi, h.getBit]
  | true =>
    have hwidth : v.width = w.width := hs.resolve_left (by decide)
    have hf : (f v w).width = v.width := by rw [h.width, ← hwidth, Nat.max_self]
    by_cases hlt : i < v.width
    · rw [getBit_resize v n true hi, getBit_resize w n true hi, getBit_resize _ n true hi, hf,
        ← hwidth, if_pos hlt, if_pos hlt, if_pos hlt, h.getBit]
    · have hge : v.width ≤ i := Nat.le_of_not_lt hlt
      rw [getBit_extend v true hi hge, getBit_extend w true hi (hwidth ▸ hge),
        getBit_extend (f v w) true hi (hf.symm ▸ hge), extension_signed, extension_signed,
        extension_signed, hf, ← hwidth, h.getBit, h.copies]

theorem zips_bitand : Zips bitand bitAnd where
  width := width_bitand
  bit v w _ hi := getBit_bitand v w hi
  zeros := rfl
  copies a b := by cases a <;> cases b <;> rfl

theorem zips_bitor : Zips bitor bitOr where
  width := width_bitor
  bit v w _ hi := getBit_bitor v w hi
  zeros := rfl
  copies a b := by cases a <;> cases b <;> rfl

theorem zips_bitxor : Zips bitxor bitXor where
  width := width_bitxor
  bit v w _ hi := getBit_bitxor v w hi
  zeros := rfl
  copies a b := by cases a <;> cases b <;> rfl

def merged (c : PackedVec) (a b : Bit) : Bit :=
  if c.isTrue then a else if c.isKnown then b else if a = b then a else .x

theorem zips_conditional (c : PackedVec) : Zips (conditional c) (merged c) where
  width := width_conditional c
  bit v w _ hi := getBit_conditional c v w hi
  zeros := by
    unfold merged
    cases c.isTrue <;> cases c.isKnown <;> rfl
  copies a b := by
    unfold merged
    cases c.isTrue <;> cases c.isKnown <;> cases a <;> cases b <;> rfl

/-- A complement sees appended zeros, but not copies of the sign. -/
theorem bitnot_resize (h : n ≤ v.width ∨ s = true ∧ 0 < v.width) :
    (v.resize n s).bitnot = v.bitnot.resize n s := by
  refine PackedVec.ext_bits (by simp) fun i hi => ?_
  rw [width_bitnot, width_resize] at hi
  rw [getBit_bitnot _ (by rwa [width_resize]), getBit_resize v n s hi,
    getBit_resize v.bitnot n s hi, width_bitnot]
  by_cases hlt : i < v.width
  · rw [if_pos hlt, if_pos hlt, getBit_bitnot v hlt]
  · rw [if_neg hlt, if_neg hlt]
    obtain ⟨rfl, hpos⟩ := h.resolve_left fun hn => hlt (Nat.lt_of_lt_of_le hi hn)
    rw [extension_signed, extension_signed, width_bitnot, getBit_bitnot v (by omega)]
    cases v.getBit (v.width - 1) <;> rfl

/-- A fill has one bit, which extends to itself unless it is a Z. -/
theorem filled_resize {bit : Bit} (h : n ≤ 1 ∨ bit = .zero ∨ s = true ∧ bit ≠ .z) :
    (PackedVec.filled bit 1).resize n s = PackedVec.filled bit n := by
  refine PackedVec.ext_bits (by simp) fun i hi => ?_
  rw [width_resize] at hi
  rw [getBit_resize _ n s hi, PackedVec.width_filled, getBit_filled, getBit_filled, if_pos hi]
  by_cases hlt : i < 1
  · rw [if_pos hlt, if_pos hlt]
  · rw [if_neg hlt]
    rcases h with hn | rfl | ⟨rfl, hz⟩
    · omega
    · cases s
      · exact extension_unsigned _
      · rfl
    · rw [extension_signed, PackedVec.width_filled, getBit_filled, if_pos (by omega)]
      exact if_neg hz

/-! ### Arithmetic -/

theorem isKnown_resize_iff (h : v.width ≤ n) : (v.resize n s).isKnown = v.isKnown := by
  cases hv : v.isKnown with
  | true => exact isKnown_resize hv
  | false =>
    refine Bool.eq_false_iff.mpr fun hk => Bool.eq_false_iff.mp hv ?_
    refine isKnown_iff.mpr fun i hi => ?_
    have hbit := isKnown_iff.mp hk i (by rw [width_resize]; omega)
    rwa [getBit_resize v n s (by omega), if_pos hi] at hbit

/-- Zeros and dropped bits alike: the value modulo the power of two. -/
theorem toNat_resize (v : PackedVec) (n : Nat) : toNat (v.resize n false) = toNat v % 2 ^ n := by
  unfold Numeric.toNat
  rw [width_resize]
  apply Nat.eq_of_testBit_eq
  intro i
  rw [Lib.Binary.testBit_value, Nat.testBit_mod_two_pow, Lib.Binary.testBit_value]
  by_cases hi : i < n
  · have hbit : isOne (v.resize n false) i = isOne v i := by
      unfold isOne
      rw [getBit_resize_unsigned, if_pos hi]
    by_cases hlt : i < v.width
    · simp [hi, hlt, hbit]
    · simp [hi, hlt, hbit, isOne_of_ge (Nat.le_of_not_lt hlt)]
  · simp [hi]

theorem denotes_resize {m : Nat} {z : Int} (h : Denotes v m z) (hn : n ≤ m) (s : Bool) :
    Denotes (v.resize n s) n z where
  width := width_resize v n s
  known := isKnown_resize h.known
  value := by
    rw [resize_narrow (h.width.symm ▸ hn) s false, toNat_resize]
    push_cast
    rw [h.value, Int.emod_emod_of_dvd z (pow_dvd_pow 2 hn)]

/-- An operation modulo every power of two. -/
def Modular (g : Int → Int → Int) : Prop :=
  ∀ a b m : Int, g (a % m) (b % m) % m = g a b % m

theorem modular_add : Modular (· + ·) := fun a b m => (Int.add_emod a b m).symm

theorem modular_sub : Modular (· - ·) := fun a b m => (Int.sub_emod a b m).symm

theorem modular_mul : Modular (· * ·) := fun a b m => (Int.mul_emod a b m).symm

/-- What an operation on resized operands denotes is what it denotes on the operands themselves. -/
theorem denotes_operands {g : Int → Int → Int} (hg : Modular g) {u : PackedVec}
    (h : Denotes u n (g (toNat (v.resize n false)) (toNat (w.resize n false)))) :
    Denotes u n (g (toNat v) (toNat w)) where
  width := h.width
  known := h.known
  value := by
    rw [h.value, toNat_resize, toNat_resize]
    push_cast
    exact hg _ _ _

/-- Either no bit is dropped or both operands are known. -/
def Arithmetic (n : Nat) (v w : PackedVec) : Prop :=
  n = max v.width w.width ∨ n ≤ max v.width w.width ∧ v.isKnown = true ∧ w.isKnown = true

/-- The result of an arithmetic operation. -/
structure Computes (g : Int → Int → Int) (v w u : PackedVec) : Prop where
  known : v.isKnown = true → w.isKnown = true →
    Denotes u (max v.width w.width) (g (toNat v) (toNat w))
  unknown : v.isKnown = false ∨ w.isKnown = false → u = PackedVec.x (max v.width w.width)

theorem unknown_of_not {v w : PackedVec} (h : ¬ (v.isKnown = true ∧ w.isKnown = true)) :
    v.isKnown = false ∨ w.isKnown = false := by
  cases hv : v.isKnown
  · exact .inl rfl
  · exact .inr (Bool.eq_false_iff.mpr fun hw => h ⟨hv, hw⟩)

theorem arithmetic_resize {g : Int → Int → Int} {u u' : PackedVec} (hg : Modular g)
    (h : Arithmetic n v w) (hu : Computes g v w u)
    (hu' : Computes g (v.resize n false) (w.resize n false) u') : u' = u.resize n false := by
  by_cases hk : v.isKnown = true ∧ w.isKnown = true
  · have hle : n ≤ max v.width w.width := h.elim (fun h => h.le) fun h => h.1
    have hf := hu'.known (isKnown_resize hk.1) (isKnown_resize hk.2)
    rw [width_resize, width_resize, Nat.max_self] at hf
    exact (denotes_operands hg hf).unique (denotes_resize (hu.known hk.1 hk.2) hle false)
  · have hn : n = max v.width w.width := h.resolve_right fun h => hk h.2
    have hor := unknown_of_not hk
    have hor' : (v.resize n false).isKnown = false ∨ (w.resize n false).isKnown = false := by
      rwa [isKnown_resize_iff (by omega), isKnown_resize_iff (by omega)]
    rw [hu.unknown hor, hu'.unknown hor', width_resize, width_resize, Nat.max_self, hn]
    exact (resize_of_width_eq (PackedVec.width_x _) false).symm

theorem computes_add (v w : PackedVec) : Computes (· + ·) v w (v.add w) where
  known := denotes_add
  unknown h := ((arithmetic_homomorphism v w).2.2.1 h).1

theorem computes_sub (v w : PackedVec) : Computes (· - ·) v w (v.sub w) where
  known := denotes_sub
  unknown h := ((arithmetic_homomorphism v w).2.2.1 h).2.1

theorem computes_neg (v : PackedVec) : Computes (fun a _ => -a) v v v.neg where
  known hv _ := by
    rw [Nat.max_self]
    exact denotes_neg hv
  unknown h := by
    rw [Nat.max_self]
    exact (arithmetic_homomorphism v v).2.2.2 (h.elim id id)

theorem computes_mul (h : max v.width w.width ≤ 64) :
    ∃ u, v.mul w = some u ∧ Computes (· * ·) v w u := by
  by_cases hk : v.isKnown = true ∧ w.isKnown = true
  · obtain ⟨u, hu, hd⟩ := denotes_mul hk.1 hk.2 h
    refine ⟨u, hu, fun _ _ => hd, fun hor => ?_⟩
    rcases hor with hv | hw
    · exact absurd hk.1 (Bool.eq_false_iff.mp hv)
    · exact absurd hk.2 (Bool.eq_false_iff.mp hw)
  · have hor := unknown_of_not hk
    exact ⟨_, ((arithmetic_homomorphism v w).2.2.1 hor).2.2.1, fun hv hw => absurd ⟨hv, hw⟩ hk,
      fun _ => rfl⟩

theorem modular_neg : Modular fun a _ => -a := fun a _ m => by
  have h : (0 - a % m) % m = (0 - a) % m := Int.sub_emod_emod 0 a m
  rwa [Int.zero_sub, Int.zero_sub] at h

theorem add_resize (h : Arithmetic n v w) :
    (v.resize n false).add (w.resize n false) = (v.add w).resize n false :=
  arithmetic_resize modular_add h (computes_add v w) (computes_add _ _)

theorem sub_resize (h : Arithmetic n v w) :
    (v.resize n false).sub (w.resize n false) = (v.sub w).resize n false :=
  arithmetic_resize modular_sub h (computes_sub v w) (computes_sub _ _)

theorem neg_resize (h : Arithmetic n v v) : (v.resize n false).neg = v.neg.resize n false :=
  arithmetic_resize modular_neg h (computes_neg v) (computes_neg _)

/-- A known product of more than 64 bits is a failed assertion. -/
theorem mul_wide (h : 64 < max v.width w.width) : v.mul w =
    if v.isKnown && w.isKnown then none else some (PackedVec.x (max v.width w.width)) := by
  by_cases hk : v.isKnown = true ∧ w.isKnown = true
  · rw [hk.1, hk.2]
    have hpath : Alu.mul v.1 w.1 = _ := known_path hk.1 hk.2 _ _ _
    rw [if_neg (Nat.not_le.mpr h)] at hpath
    refine Option.eq_none_iff_forall_ne_some.mpr fun u hu => ?_
    rw [mul_eq_some, hpath] at hu
    cases hu
  · have hor := unknown_of_not hk
    rw [((arithmetic_homomorphism v w).2.2.1 hor).2.2.1, if_neg (by simpa using hk)]

theorem mul_resize (h : Arithmetic n v w)
    (h64 : n = max v.width w.width ∨ max v.width w.width ≤ 64) :
    (v.resize n false).mul (w.resize n false) = (v.mul w).map (·.resize n false) := by
  have hle : n ≤ max v.width w.width := h.elim (fun h => h.le) fun h => h.1
  have hwidth : max (v.resize n false).width (w.resize n false).width = n := by
    rw [width_resize, width_resize, Nat.max_self]
  rcases Nat.lt_or_ge 64 (max v.width w.width) with hwide | hnarrow
  · obtain rfl := h64.resolve_right (Nat.not_le.mpr hwide)
    rw [mul_wide hwide, mul_wide (hwidth.symm ▸ hwide), hwidth, isKnown_resize_iff (by omega),
      isKnown_resize_iff (by omega)]
    split_ifs
    · rfl
    · exact congrArg some (resize_of_width_eq (PackedVec.width_x _) false).symm
  · obtain ⟨u, hu, hcomputes⟩ := computes_mul hnarrow
    obtain ⟨u', hu', hcomputes'⟩ := computes_mul (hwidth.symm ▸ Nat.le_trans hle hnarrow)
    rw [hu, hu', arithmetic_resize modular_mul h hcomputes hcomputes']
    rfl

/-! ### Shifts -/

theorem shl_resize (h : n ≤ v.width) (amt : Nat) :
    (v.resize n s).shl amt = (v.shl amt).resize n s := by
  refine PackedVec.ext_bits (by simp) fun i hi => ?_
  rw [width_shl, width_resize] at hi
  rw [getBit_shl _ (by rwa [width_resize]), getBit_truncate (by rwa [width_shl]) s hi,
    getBit_shl v (by omega)]
  split_ifs
  · exact getBit_truncate h s (by omega)
  · rfl

/-- The index sums do not wrap. -/
theorem shr_resize {amt : Nat} (h : v.width ≤ n) (hb : n ≤ 64 ∨ n + amt ≤ 0x100000000) :
    (v.resize n false).shr amt = (v.shr amt).resize n false := by
  have hsum : ∀ i < n, ∀ m ≤ n, (if m ≤ 64 then i + amt else addU32 i amt) = i + amt := by
    intro i hi m hm
    unfold addU32
    split_ifs
    · rfl
    · exact Nat.mod_eq_of_lt (by omega)
  refine PackedVec.ext_bits (by simp) fun i hi => ?_
  rw [width_shr, width_resize] at hi
  rw [getBit_shr _ (by rwa [width_resize]), width_resize, hsum i hi n le_rfl,
    getBit_resize_unsigned, getBit_resize_unsigned, if_pos hi]
  have hout (hge : v.width ≤ i + amt) : v.getBit (i + amt) = .zero := getBit_of_ge v hge
  by_cases hlt : i < v.width
  · rw [getBit_shr v hlt, hsum i hi v.width h]
    split_ifs
    · rfl
    · exact (hout (by omega)).symm
  · rw [getBit_of_ge (v.shr amt) (by rw [width_shr]; omega), hout (by omega), ite_self]

theorem signFill_eq (v : PackedVec) : signFill v.1 = unZ (v.getBit (v.width - 1)) := by
  show _ = unZ (v.1.getBit (v.1.width - 1))
  unfold signFill
  cases v.1.getBit (v.1.width - 1) <;> rfl

/-- The bits of an arithmetic shift whose index sums do not wrap. -/
theorem getBit_ashr_sum {amt i : Nat} (hb : v.width + amt ≤ 0x100000000) (hi : i < v.width) :
    (v.ashr amt).getBit i =
      if i + amt < v.width then v.getBit (i + amt) else unZ (v.getBit (v.width - 1)) := by
  have hsum : addU32 i amt = i + amt := Nat.mod_eq_of_lt (by omega)
  rw [getBit_ashr v hi, hsum, signFill_eq]

theorem unZ_unZ (b : Bit) : unZ (unZ b) = unZ b := by
  cases b <;> rfl

/-- Copies of the sign do not change it, but for a Z. -/
theorem sign_resize (h : v.width ≤ n) (hpos : 0 < v.width) :
    unZ ((v.resize n true).getBit (n - 1)) = unZ (v.getBit (v.width - 1)) := by
  rw [getBit_resize v n true (by omega)]
  split_ifs with hlt
  · rw [show n - 1 = v.width - 1 by omega]
  · rw [extension_signed, unZ_unZ]

theorem ashr_resize {amt : Nat} (h : v.width ≤ n) (hpos : 0 < v.width)
    (hb : n + amt ≤ 0x100000000) : (v.resize n true).ashr amt = (v.ashr amt).resize n true := by
  have hsign : unZ ((v.ashr amt).getBit (v.width - 1)) = unZ (v.getBit (v.width - 1)) := by
    rw [getBit_ashr_sum (by omega) (by omega)]
    split_ifs with hlt
    · rw [show v.width - 1 + amt = v.width - 1 by omega]
    · exact unZ_unZ _
  refine PackedVec.ext_bits (by simp) fun i hi => ?_
  rw [width_ashr, width_resize] at hi
  rw [getBit_ashr_sum (by rwa [width_resize]) (by rwa [width_resize]), width_resize,
    sign_resize h hpos, getBit_resize _ n true hi, width_ashr, extension_signed, width_ashr, hsign]
  by_cases hsum : i + amt < v.width
  · rw [if_pos (by omega), if_pos (by omega), getBit_resize v n true (by omega), if_pos hsum,
      getBit_ashr_sum (by omega) (by omega), if_pos hsum]
  · have hleft : (if i + amt < n then (v.resize n true).getBit (i + amt) else
        unZ (v.getBit (v.width - 1))) = unZ (v.getBit (v.width - 1)) := by
      split_ifs with hlt
      · rw [getBit_extend v true hlt (by omega), extension_signed]
      · rfl
    rw [hleft]
    split_ifs with hlt
    · rw [getBit_ashr_sum (by omega) hlt, if_neg hsum]
    · rfl

/-! ### Comparison -/

/-- The result of a comparison of the values of two vectors. -/
structure Compares (value : PackedVec → Int) (p : Int → Int → Bool)
    (f : PackedVec → PackedVec → PackedVec) : Prop where
  known : ∀ v w : PackedVec, v.isKnown = true → w.isKnown = true →
    f v w = PackedVec.fromBool (p (value v) (value w))
  unknown : ∀ v w : PackedVec, v.isKnown = false ∨ w.isKnown = false → f v w = PackedVec.x 1

theorem Compares.congr {value : PackedVec → Int} {p : Int → Int → Bool}
    {f : PackedVec → PackedVec → PackedVec} (h : Compares value p f) {v' w' : PackedVec}
    (hv : v'.isKnown = v.isKnown) (hw : w'.isKnown = w.isKnown) (hv' : value v' = value v)
    (hw' : value w' = value w) : f v' w' = f v w := by
  by_cases hk : v.isKnown = true ∧ w.isKnown = true
  · rw [h.known v w hk.1 hk.2, h.known v' w' (hv.trans hk.1) (hw.trans hk.2), hv', hw']
  · have hor := unknown_of_not hk
    rw [h.unknown v w hor, h.unknown v' w' (by rwa [hv, hw])]

/-- The unsigned or the signed value. -/
def valueOf (s : Bool) (v : PackedVec) : Int := if s then toInt v else toNat v

theorem valueOf_resize (h : v.width ≤ n) (s : Bool) : valueOf s (v.resize n s) = valueOf s v := by
  cases s with
  | true => exact toInt_resize h
  | false => exact congrArg Nat.cast (toNat_resize_unsigned h)

/-- An extension by the signedness of the comparison does not change it. -/
theorem Compares.resize {p : Int → Int → Bool} {f : PackedVec → PackedVec → PackedVec}
    (h : Compares (valueOf s) p f) (hv : v.width ≤ n) (hw : w.width ≤ n) :
    f (v.resize n s) (w.resize n s) = f v w :=
  h.congr (isKnown_resize_iff hv) (isKnown_resize_iff hw) (valueOf_resize hv s)
    (valueOf_resize hw s)

theorem compares_eqLogical : Compares (valueOf false) (fun a b => decide (a = b)) eqLogical where
  known v w hv hw := (eqLogical_eq hv hw).trans (by simp [valueOf])
  unknown v w h := eqLogical_x h

theorem compares_lt (s : Bool) :
    Compares (valueOf s) (fun a b => decide (a < b)) (if s then slt else ult) := by
  cases s with
  | false =>
    exact ⟨fun v w hv hw => by
      simpa [valueOf] using ((arithmetic_homomorphism v w).1 hv hw).2.2.2.2.1,
      fun v w h => ((arithmetic_homomorphism v w).2.2.1 h).2.2.2.2.1⟩
  | true =>
    exact ⟨fun v w hv hw => ((arithmetic_homomorphism v w).1 hv hw).2.2.2.2.2.2.2.2.1,
      fun v w h => ((arithmetic_homomorphism v w).2.2.1 h).2.2.2.2.2.2.2.2.1⟩

theorem compares_le (s : Bool) :
    Compares (valueOf s) (fun a b => decide (a ≤ b)) (if s then sle else ule) := by
  cases s with
  | false =>
    exact ⟨fun v w hv hw => by
      simpa [valueOf] using ((arithmetic_homomorphism v w).1 hv hw).2.2.2.2.2.1,
      fun v w h => ((arithmetic_homomorphism v w).2.2.1 h).2.2.2.2.2.1⟩
  | true =>
    exact ⟨fun v w hv hw => ((arithmetic_homomorphism v w).1 hv hw).2.2.2.2.2.2.2.2.2.1,
      fun v w h => ((arithmetic_homomorphism v w).2.2.1 h).2.2.2.2.2.2.2.2.2.1⟩

theorem compares_gt (s : Bool) :
    Compares (valueOf s) (fun a b => decide (b < a)) (if s then sgt else ugt) := by
  cases s with
  | false =>
    exact ⟨fun v w hv hw => by
      simpa [valueOf] using ((arithmetic_homomorphism v w).1 hv hw).2.2.2.2.2.2.1,
      fun v w h => ((arithmetic_homomorphism v w).2.2.1 h).2.2.2.2.2.2.1⟩
  | true =>
    exact ⟨fun v w hv hw => ((arithmetic_homomorphism v w).1 hv hw).2.2.2.2.2.2.2.2.2.2.1,
      fun v w h => ((arithmetic_homomorphism v w).2.2.1 h).2.2.2.2.2.2.2.2.2.2.1⟩

theorem compares_ge (s : Bool) :
    Compares (valueOf s) (fun a b => decide (b ≤ a)) (if s then sge else uge) := by
  cases s with
  | false =>
    exact ⟨fun v w hv hw => by
      simpa [valueOf] using ((arithmetic_homomorphism v w).1 hv hw).2.2.2.2.2.2.2.1,
      fun v w h => ((arithmetic_homomorphism v w).2.2.1 h).2.2.2.2.2.2.2.1⟩
  | true =>
    exact ⟨fun v w hv hw => ((arithmetic_homomorphism v w).1 hv hw).2.2.2.2.2.2.2.2.2.2.2,
      fun v w h => ((arithmetic_homomorphism v w).2.2.1 h).2.2.2.2.2.2.2.2.2.2.2⟩

end Eevee.Core.ResizedOperands
