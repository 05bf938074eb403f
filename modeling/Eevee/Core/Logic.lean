/- Four-state packed vectors: two bit planes, inline up to 64 bits and in limbs above. -/

import Mathlib.Data.List.Basic
import Mathlib.Tactic.Common
import Mathlib.Tactic.SplitIfs

set_option autoImplicit false
set_option relaxedAutoImplicit false

namespace Eevee.Core.Logic

/-- A single four-state bit. -/
inductive Bit
  | zero | one | x | z
  deriving DecidableEq

instance : Inhabited Bit := ⟨.x⟩

namespace Bit

/-- The plane words `(aval, bval)` whose low bits encode this state. -/
def planes : Bit → BitVec 64 × BitVec 64
  | .zero => (0, 0)
  | .one => (1, 0)
  | .x => (0, 1)
  | .z => (1, 1)

/-- Decode one pair of plane bits. -/
def ofPlaneBits : Bool → Bool → Bit
  | false, false => .zero
  | true, false => .one
  | false, true => .x
  | true, true => .z

/-- Decode the low bits of a plane pair. -/
def fromPlanes (aval bval : BitVec 64) : Bit :=
  ofPlaneBits (aval.getLsbD 0) (bval.getLsbD 0)

def isUnknown : Bit → Bool
  | .x | .z => true
  | .zero | .one => false

@[simp] theorem fromPlanes_planes (b : Bit) : fromPlanes b.planes.1 b.planes.2 = b := by
  cases b <;> rfl

theorem ofPlaneBits_inj {a b c d : Bool} (h : ofPlaneBits a b = ofPlaneBits c d) :
    a = c ∧ b = d := by
  revert h
  cases a <;> cases b <;> cases c <;> cases d <;> simp [ofPlaneBits]

end Bit

/-- Inline planes for at most 64 bits, little-endian limbs otherwise. -/
inductive LogicRepr
  | small (aval bval : BitVec 64)
  | wide (aval bval : List (BitVec 64))
  deriving DecidableEq

/-- Bit `i` of a limb array; positions past the last limb read as false. -/
def limbBit (limbs : List (BitVec 64)) (i : Nat) : Bool :=
  (limbs.getD (i / 64) 0).getLsbD (i % 64)

namespace LogicRepr

def aBit : LogicRepr → Nat → Bool
  | .small aval _, i => aval.getLsbD i
  | .wide aval _, i => limbBit aval i

def bBit : LogicRepr → Nat → Bool
  | .small _ bval, i => bval.getLsbD i
  | .wide _ bval, i => limbBit bval i

end LogicRepr

/-- A packed vector as stored; `Canonical` is the invariant that the operations keep. -/
structure LogicVec where
  width : Nat
  repr : LogicRepr
  deriving DecidableEq

/-- Mask of the low `width` bits of one word. -/
def wordMask (width : Nat) : BitVec 64 :=
  if width ≥ 64 then BitVec.allOnes 64 else (1#64 <<< width) - 1

def limbsFor (width : Nat) : Nat := (width + 63) / 64

/-- Zero the bits at or above `width` in the top limb. -/
def maskTop (width : Nat) (limbs : List (BitVec 64)) : List (BitVec 64) :=
  if width % 64 ≠ 0 then
    limbs.modify (limbs.length - 1) (· &&& wordMask (width % 64))
  else limbs

/-- Replace bit `off` of a word by the low bit of `b`. -/
def setWord (w : BitVec 64) (off : Nat) (b : BitVec 64) : BitVec 64 :=
  (w &&& ~~~(1#64 <<< off)) ||| (b <<< off)

namespace LogicVec

def zero (width : Nat) : LogicVec :=
  if width ≤ 64 then ⟨width, .small 0 0⟩
  else ⟨width, .wide (List.replicate (limbsFor width) 0) (List.replicate (limbsFor width) 0)⟩

def fillPlanes (v : LogicVec) (avalOne bvalOne : Bool) : LogicVec :=
  match v.repr with
  | .small _ _ =>
    let m := wordMask v.width
    ⟨v.width, .small (if avalOne then m else 0) (if bvalOne then m else 0)⟩
  | .wide aval bval =>
    let fill (one : Bool) (limbs : List (BitVec 64)) :=
      maskTop v.width (limbs.map fun _ => if one then BitVec.allOnes 64 else 0)
    ⟨v.width, .wide (fill avalOne aval) (fill bvalOne bval)⟩

def ones (width : Nat) : LogicVec := (zero width).fillPlanes true false

def x (width : Nat) : LogicVec := (zero width).fillPlanes false true

def z (width : Nat) : LogicVec := (zero width).fillPlanes true true

/-- The low `width` bits of a word, zero-extended; the result has no unknown bit. -/
def fromU64 (val : BitVec 64) (width : Nat) : LogicVec :=
  if width ≤ 64 then ⟨width, .small (val &&& wordMask width) 0⟩
  else ⟨width, .wide ((List.replicate (limbsFor width) 0).set 0 val)
    (List.replicate (limbsFor width) 0)⟩

/-- Bits at or above the width read as zero. -/
def getBit (v : LogicVec) (idx : Nat) : Bit :=
  if idx ≥ v.width then .zero
  else match v.repr with
    | .small aval bval => Bit.fromPlanes (aval >>> idx) (bval >>> idx)
    | .wide aval bval =>
      Bit.fromPlanes (aval.getD (idx / 64) 0 >>> (idx % 64)) (bval.getD (idx / 64) 0 >>> (idx % 64))

/-- Writes at or above the width are ignored. -/
def setBit (v : LogicVec) (idx : Nat) (bit : Bit) : LogicVec :=
  if idx ≥ v.width then v
  else match v.repr with
    | .small aval bval =>
      ⟨v.width, .small (setWord aval idx bit.planes.1) (setWord bval idx bit.planes.2)⟩
    | .wide aval bval =>
      ⟨v.width, .wide (aval.modify (idx / 64) (setWord · (idx % 64) bit.planes.1))
        (bval.modify (idx / 64) (setWord · (idx % 64) bit.planes.2))⟩

/-- The loop `for i in 0..n { self.set_bit(idx(i), bit(i)) }`. -/
def writeBits (v : LogicVec) (n : Nat) (idx : Nat → Nat) (bit : Nat → Bit) : LogicVec :=
  (List.range n).foldl (fun out i => out.setBit (idx i) (bit i)) v

def isKnown (v : LogicVec) : Bool :=
  match v.repr with
  | .small _ bval => bval == 0
  | .wide _ bval => bval.all (· == 0)

/-- True iff at least one bit is a known 1. -/
def isTrue (v : LogicVec) : Bool :=
  match v.repr with
  | .small aval bval => (aval &&& ~~~bval) != 0
  | .wide aval bval => (aval.zip bval).any fun p => (p.1 &&& ~~~p.2) != 0

/-- The low word with unknown bits read as 0. -/
def toU64 (v : LogicVec) : BitVec 64 :=
  match v.repr with
  | .small aval bval => aval &&& ~~~bval
  | .wide aval bval => aval.getD 0 0 &&& ~~~(bval.getD 0 0)

/-- The value if it is fully known and fits in one word. -/
def tryToU64 (v : LogicVec) : Option (BitVec 64) :=
  if v.isKnown then
    match v.repr with
    | .small aval _ => some aval
    | .wide aval _ => if (aval.drop 1).all (· == 0) then some (aval.getD 0 0) else none
  else none

/-- The fill bit of an extension: an unknown sign bit extends as X. -/
def extension (v : LogicVec) (signed : Bool) : Bit :=
  if signed then
    match v.getBit (v.width - 1) with
    | .one => .one
    | .x | .z => .x
    | .zero => .zero
  else .zero

/-- The low bits of `self` in a fresh vector of the new width. -/
def copyLow (v : LogicVec) (newWidth : Nat) : LogicVec :=
  (zero newWidth).writeBits (min newWidth v.width) id v.getBit

/-- Truncate, or extend with zeros or with the sign bit. -/
def resize (v : LogicVec) (newWidth : Nat) (signed : Bool) : LogicVec :=
  if newWidth = v.width then v
  else if newWidth > v.width then
    if v.extension signed ≠ .zero then
      (v.copyLow newWidth).writeBits (newWidth - v.width) (v.width + ·) fun _ => v.extension signed
    else v.copyLow newWidth
  else v.copyLow newWidth

/-- Case equality: bit-exact, unknown bits included, and the widths must match. -/
def eqCase (v w : LogicVec) : Bool :=
  if v.width ≠ w.width then false
  else match v.repr, w.repr with
    | .small a₁ b₁, .small a₂ b₂ => a₁ == a₂ && b₁ == b₂
    | _, _ => (List.range v.width).all fun i => v.getBit i == w.getBit i

end LogicVec

open LogicVec

/-- The invariant of both storage forms: inline iff at most 64 bits, exactly the limbs the
width needs otherwise, and no bit at or above the width in either plane. -/
structure Canonical (v : LogicVec) : Prop where
  storage : match v.repr with
    | .small _ _ => v.width ≤ 64
    | .wide aval bval => 64 < v.width ∧
      aval.length = limbsFor v.width ∧ bval.length = limbsFor v.width
  high : ∀ i, v.width ≤ i → v.repr.aBit i = false ∧ v.repr.bBit i = false

/-! ### Words and limbs -/

theorem getLsbD_wordMask (width i : Nat) :
    (wordMask width).getLsbD i = (decide (i < width) && decide (i < 64)) := by
  unfold wordMask
  split
  · next h =>
    simp only [BitVec.getLsbD_allOnes]
    by_cases hi : i < 64 <;> simp [hi]
    omega
  · next h =>
    have hw : width < 64 := by omega
    have hv : ((1#64 <<< width) - 1).toNat = 2 ^ width - 1 := by
      have hp : 2 ^ width < 2 ^ 64 := Nat.pow_lt_pow_right (by omega) hw
      have h1 : (1#64 <<< width).toNat = 2 ^ width := by
        rw [BitVec.toNat_shiftLeft, Nat.shiftLeft_eq]
        show 1 * 2 ^ width % 2 ^ 64 = 2 ^ width
        rw [Nat.one_mul, Nat.mod_eq_of_lt hp]
      have hpos : 1 ≤ 2 ^ width := Nat.one_le_two_pow
      rw [BitVec.toNat_sub, h1]
      simp
      omega
    rw [BitVec.getLsbD, hv, Nat.testBit_two_pow_sub_one]
    by_cases hi : i < width <;> simp [hi]
    omega

theorem getLsbD_setWord (w : BitVec 64) (off : Nat) (bit : Bool) (b : BitVec 64)
    (hb : b = if bit then 1 else 0) (hoff : off < 64) (j : Nat) :
    (setWord w off b).getLsbD j = if j = off then bit else w.getLsbD j := by
  subst hb
  unfold setWord
  by_cases hj : j < 64
  · by_cases he : j = off
    · subst he
      cases bit <;> simp [hj]
    · rcases Nat.lt_or_gt_of_ne he with h | h
      · cases bit <;> simp [he, hj, h]
      · have hs : ¬ j < off := by omega
        have hz : j - off ≠ 0 := by omega
        cases bit <;> simp [he, hj, hs, hz]
  · have he : j ≠ off := by omega
    simp [he, BitVec.getLsbD_of_ge _ _ (Nat.le_of_not_lt hj)]

theorem limbBit_modify (limbs : List (BitVec 64)) (k : Nat) (f : BitVec 64 → BitVec 64)
    (i : Nat) : limbBit (limbs.modify k f) i =
      if i / 64 = k ∧ k < limbs.length then (f (limbs.getD k 0)).getLsbD (i % 64)
      else limbBit limbs i := by
  unfold limbBit
  simp only [List.getD_eq_getElem?_getD, List.getElem?_modify]
  by_cases hk : i / 64 = k
  · subst hk
    by_cases hl : i / 64 < limbs.length
    · simp [hl]
    · simp [hl]
  · simp [hk, Ne.symm hk]

theorem limbsFor_spec (width i : Nat) (h : i < width) : i / 64 < limbsFor width := by
  unfold limbsFor
  omega

theorem limbBit_maskTop (width : Nat) (limbs : List (BitVec 64))
    (hl : limbs.length = limbsFor width) (i : Nat) :
    limbBit (maskTop width limbs) i = (decide (i < width) && limbBit limbs i) := by
  have hout : ∀ j, width ≤ j → limbs.length ≤ j / 64 → limbBit limbs j = false := by
    intro j _ hj
    simp [limbBit, List.getD_eq_getElem?_getD, List.getElem?_eq_none hj]
  unfold maskTop
  split_ifs with hm
  · rw [limbBit_modify]
    split_ifs with hk
    · obtain ⟨hk, hlt⟩ := hk
      rw [← hk]
      have hw : i % 64 < 64 := Nat.mod_lt _ (by omega)
      have hi : (i % 64 < width % 64) ↔ i < width := by
        rw [hl] at hk
        unfold limbsFor at hk
        omega
      rw [BitVec.getLsbD_and, getLsbD_wordMask]
      simp only [hi, hw, decide_true, Bool.and_true, limbBit]
      exact Bool.and_comm _ _
    · by_cases hi : i < width
      · simp [hi]
      · have : limbs.length ≤ i / 64 := by
          rw [hl] at hk ⊢
          unfold limbsFor at hk ⊢
          omega
        simp [hi, hout i (by omega) this]
  · by_cases hi : i < width
    · simp [hi]
    · have : limbs.length ≤ i / 64 := by
        rw [hl]
        unfold limbsFor
        omega
      simp [hi, hout i (by omega) this]

theorem length_maskTop (width : Nat) (limbs : List (BitVec 64)) :
    (maskTop width limbs).length = limbs.length := by
  unfold maskTop
  split_ifs <;> simp

/-! ### Bits of a vector -/

namespace LogicVec

theorem getBit_eq (v : LogicVec) (i : Nat) : v.getBit i =
    if i < v.width then Bit.ofPlaneBits (v.repr.aBit i) (v.repr.bBit i) else .zero := by
  unfold getBit
  by_cases h : i < v.width
  · have hn : ¬ i ≥ v.width := by omega
    simp only [hn, h, if_true, if_false]
    cases v.repr <;> simp [Bit.fromPlanes, LogicRepr.aBit, LogicRepr.bBit, limbBit]
  · simp [h, Nat.le_of_not_lt h]

theorem getBit_of_ge (v : LogicVec) {i : Nat} (h : v.width ≤ i) : v.getBit i = .zero := by
  simp [getBit_eq, Nat.not_lt.mpr h]

@[simp] theorem width_setBit (v : LogicVec) (i : Nat) (b : Bit) :
    (v.setBit i b).width = v.width := by
  unfold setBit
  split_ifs
  · rfl
  · split <;> rfl

end LogicVec

private theorem planes_fst (b : Bit) :
    b.planes.1 = if (b = .one ∨ b = .z) then 1 else 0 := by cases b <;> rfl

private theorem planes_snd (b : Bit) :
    b.planes.2 = if (b = .x ∨ b = .z) then 1 else 0 := by cases b <;> rfl

private theorem ofPlaneBits_planes (b : Bit) :
    Bit.ofPlaneBits (decide (b = .one ∨ b = .z)) (decide (b = .x ∨ b = .z)) = b := by
  cases b <;> rfl

/-- What `setBit` does to the two planes of a canonical vector. -/
private theorem planes_setBit {v : LogicVec} (hv : Canonical v) {i : Nat} (hi : i < v.width)
    (b : Bit) (j : Nat) :
    (v.setBit i b).repr.aBit j =
        (if j = i then decide (b = .one ∨ b = .z) else v.repr.aBit j) ∧
      (v.setBit i b).repr.bBit j =
        (if j = i then decide (b = .x ∨ b = .z) else v.repr.bBit j) := by
  obtain ⟨width, repr⟩ := v
  have hn : ¬ i ≥ width := Nat.not_le.mpr hi
  cases repr with
  | small a c =>
    have hw : width ≤ 64 := hv.storage
    have hi64 : i < 64 := Nat.lt_of_lt_of_le hi hw
    have ha := getLsbD_setWord a i (decide (b = .one ∨ b = .z)) b.planes.1
      (by simp [planes_fst]) hi64 j
    have hc := getLsbD_setWord c i (decide (b = .x ∨ b = .z)) b.planes.2
      (by simp [planes_snd]) hi64 j
    simp only [LogicVec.setBit, hn, if_false, LogicRepr.aBit, LogicRepr.bBit]
    exact ⟨ha, hc⟩
  | wide a c =>
    have hs : 64 < width ∧ a.length = limbsFor width ∧ c.length = limbsFor width := hv.storage
    have hk := limbsFor_spec width i hi
    have hm : i % 64 < 64 := Nat.mod_lt _ (by omega)
    have hpos : (j % 64 = i % 64 ∧ j / 64 = i / 64) ↔ j = i := by
      constructor
      · rintro ⟨h1, h2⟩
        omega
      · rintro rfl
        exact ⟨rfl, rfl⟩
    have plane (limbs : List (BitVec 64)) (hl : limbs.length = limbsFor width) (w : BitVec 64)
        (bit : Bool) (hw : w = if bit then 1 else 0) :
        limbBit (limbs.modify (i / 64) (setWord · (i % 64) w)) j =
          if j = i then bit else limbBit limbs j := by
      rw [limbBit_modify]
      by_cases hd : j / 64 = i / 64
      · have hlt : i / 64 < limbs.length := by omega
        simp only [hd, hlt, and_self, if_true]
        rw [getLsbD_setWord _ _ bit w hw hm]
        by_cases he : j % 64 = i % 64
        · have hj : j = i := hpos.mp ⟨he, hd⟩
          subst hj
          simp
        · have hj : j ≠ i := fun h => he (h ▸ rfl)
          simp [he, hj, limbBit, hd]
      · have hj : j ≠ i := fun h => hd (h ▸ rfl)
        simp [hd, hj]
    simp only [LogicVec.setBit, hn, if_false, LogicRepr.aBit, LogicRepr.bBit]
    exact ⟨plane a hs.2.1 _ _ (by simp [planes_fst]), plane c hs.2.2 _ _ (by simp [planes_snd])⟩

theorem canonical_setBit {v : LogicVec} (hv : Canonical v) (i : Nat) (b : Bit) :
    Canonical (v.setBit i b) := by
  by_cases hi : i < v.width
  · refine ⟨?_, ?_⟩
    · have hs := hv.storage
      have hn : ¬ i ≥ v.width := by omega
      unfold LogicVec.setBit
      cases hr : v.repr with
      | small a c =>
        rw [hr] at hs
        simpa [hn] using hs
      | wide a c =>
        rw [hr] at hs
        simpa [hn] using hs
    · intro j hj
      rw [LogicVec.width_setBit] at hj
      have hne : j ≠ i := by omega
      rw [(planes_setBit hv hi b j).1, (planes_setBit hv hi b j).2]
      simpa [hne] using hv.high j hj
  · have hge : i ≥ v.width := by omega
    simpa [LogicVec.setBit, hge] using hv

theorem getBit_setBit {v : LogicVec} (hv : Canonical v) (i : Nat) (b : Bit) (j : Nat) :
    (v.setBit i b).getBit j = if j = i ∧ i < v.width then b else v.getBit j := by
  by_cases hi : i < v.width
  · rw [LogicVec.getBit_eq, LogicVec.getBit_eq, LogicVec.width_setBit,
      (planes_setBit hv hi b j).1, (planes_setBit hv hi b j).2]
    by_cases hj : j = i
    · subst hj
      simp only [hi, and_self, if_true]
      exact ofPlaneBits_planes b
    · simp [hj]
  · have hge : i ≥ v.width := by omega
    simp [LogicVec.setBit, hge, hi]

/-- A canonical vector is determined by its width and its bits. -/
theorem canonical_ext {v w : LogicVec} (hv : Canonical v) (hw : Canonical w)
    (hwidth : v.width = w.width) (hbits : ∀ i < v.width, v.getBit i = w.getBit i) : v = w := by
  have planes : ∀ i, v.repr.aBit i = w.repr.aBit i ∧ v.repr.bBit i = w.repr.bBit i := by
    intro i
    by_cases hi : i < v.width
    · have hb := hbits i hi
      rw [LogicVec.getBit_eq, LogicVec.getBit_eq] at hb
      simp only [hi, hwidth ▸ hi, if_true] at hb
      exact Bit.ofPlaneBits_inj hb
    · have h1 := hv.high i (by omega)
      have h2 := hw.high i (by omega)
      rw [h1.1, h1.2, h2.1, h2.2]
      exact ⟨rfl, rfl⟩
  have words (a c : BitVec 64) (h : ∀ i, a.getLsbD i = c.getLsbD i) : a = c :=
    BitVec.eq_of_getLsbD_eq fun i _ => h i
  have limbs (a c : List (BitVec 64)) (hl : a.length = c.length)
      (h : ∀ i, limbBit a i = limbBit c i) : a = c := by
    apply List.ext_getElem hl
    intro k h1 h2
    apply BitVec.eq_of_getLsbD_eq
    intro i hi
    have hk := h (64 * k + i)
    have hd : (64 * k + i) / 64 = k := by omega
    have hm : (64 * k + i) % 64 = i := by omega
    simpa [limbBit, hd, hm, List.getD_eq_getElem?_getD, List.getElem?_eq_getElem h1,
      List.getElem?_eq_getElem h2] using hk
  obtain ⟨n, rv⟩ := v
  obtain ⟨m, rw'⟩ := w
  obtain rfl : n = m := hwidth
  have sv := hv.storage
  have sw := hw.storage
  cases rv with
  | small a b =>
    cases rw' with
    | small c d =>
      have ha := words a c fun i => (planes i).1
      have hb := words b d fun i => (planes i).2
      rw [ha, hb]
    | wide c d => exact absurd sv (by simp only at sv sw ⊢; omega)
  | wide a b =>
    cases rw' with
    | small c d => exact absurd sw (by simp only at sv sw ⊢; omega)
    | wide c d =>
      have ha := limbs a c (sv.2.1.trans sw.2.1.symm) fun i => (planes i).1
      have hb := limbs b d (sv.2.2.trans sw.2.2.symm) fun i => (planes i).2
      rw [ha, hb]

/-! ### Constructors and bit loops -/

theorem limbBit_replicate (n i : Nat) : limbBit (List.replicate n 0) i = false := by
  unfold limbBit
  rw [List.getD_eq_getElem?_getD, List.getElem?_replicate]
  split_ifs <;> simp

theorem canonical_zero (width : Nat) : Canonical (LogicVec.zero width) := by
  unfold LogicVec.zero
  split_ifs with h
  · exact ⟨h, fun i _ => ⟨by simp [LogicRepr.aBit], by simp [LogicRepr.bBit]⟩⟩
  · exact ⟨⟨Nat.lt_of_not_le h, List.length_replicate, List.length_replicate⟩, fun i _ =>
      ⟨limbBit_replicate _ i, limbBit_replicate _ i⟩⟩

@[simp] theorem width_zero (width : Nat) : (LogicVec.zero width).width = width := by
  unfold LogicVec.zero
  split_ifs <;> rfl

@[simp] theorem getBit_zero (width i : Nat) : (LogicVec.zero width).getBit i = .zero := by
  rw [LogicVec.getBit_eq]
  unfold LogicVec.zero
  split_ifs
  · simp [LogicRepr.aBit, LogicRepr.bBit, Bit.ofPlaneBits]
  · rfl
  · simp only [LogicRepr.aBit, LogicRepr.bBit, limbBit_replicate]
    rfl
  · rfl

@[simp] theorem width_fillPlanes (v : LogicVec) (a b : Bool) :
    (v.fillPlanes a b).width = v.width := by
  unfold LogicVec.fillPlanes
  split <;> rfl

/-- Filling writes each plane with one value below the width and keeps it clear above. -/
private theorem planes_fillPlanes {v : LogicVec} (hv : Canonical v) (a b : Bool) (i : Nat) :
    (v.fillPlanes a b).repr.aBit i = (decide (i < v.width) && a) ∧
      (v.fillPlanes a b).repr.bBit i = (decide (i < v.width) && b) := by
  obtain ⟨width, repr⟩ := v
  cases repr with
  | small c d =>
    have hw : width ≤ 64 := hv.storage
    have word (one : Bool) : (if one then wordMask width else 0).getLsbD i =
        (decide (i < width) && one) := by
      cases one
      · simp
      · simp only [if_true, getLsbD_wordMask, Bool.and_true]
        by_cases hi : i < width <;> simp [hi]
        omega
    exact ⟨word a, word b⟩
  | wide c d =>
    have hs : 64 < width ∧ c.length = limbsFor width ∧ d.length = limbsFor width := hv.storage
    have plane (limbs : List (BitVec 64)) (hl : limbs.length = limbsFor width) (one : Bool) :
        limbBit (maskTop width (limbs.map fun _ => if one then BitVec.allOnes 64 else 0)) i =
          (decide (i < width) && one) := by
      rw [limbBit_maskTop width _ (by simpa using hl)]
      by_cases hi : i < width
      · have hk : i / 64 < limbs.length := hl ▸ limbsFor_spec width i hi
        have hm : i % 64 < 64 := Nat.mod_lt _ (by omega)
        cases one
        · simp [hi, limbBit, List.getD_eq_getElem?_getD, hk]
        · simp only [limbBit, List.getD_eq_getElem?_getD, List.getElem?_map,
            List.getElem?_eq_getElem hk, Option.map_some, Option.getD_some, if_true,
            BitVec.getLsbD_allOnes, hm, hi, decide_true, Bool.and_self]
      · simp [hi]
    exact ⟨plane c hs.2.1 a, plane d hs.2.2 b⟩

theorem canonical_fillPlanes {v : LogicVec} (hv : Canonical v) (a b : Bool) :
    Canonical (v.fillPlanes a b) := by
  refine ⟨?_, ?_⟩
  · have hs := hv.storage
    unfold LogicVec.fillPlanes
    cases hr : v.repr with
    | small c d =>
      rw [hr] at hs
      simpa using hs
    | wide c d =>
      rw [hr] at hs
      simpa [length_maskTop] using hs
  · intro i hi
    rw [width_fillPlanes] at hi
    rw [(planes_fillPlanes hv a b i).1, (planes_fillPlanes hv a b i).2]
    simp [Nat.not_lt.mpr hi]

theorem getBit_fillPlanes {v : LogicVec} (hv : Canonical v) (a b : Bool) (i : Nat) :
    (v.fillPlanes a b).getBit i = if i < v.width then Bit.ofPlaneBits a b else .zero := by
  rw [LogicVec.getBit_eq, width_fillPlanes, (planes_fillPlanes hv a b i).1,
    (planes_fillPlanes hv a b i).2]
  by_cases hi : i < v.width <;> simp [hi]

theorem writeBits_succ (v : LogicVec) (n : Nat) (idx : Nat → Nat) (bit : Nat → Bit) :
    v.writeBits (n + 1) idx bit = (v.writeBits n idx bit).setBit (idx n) (bit n) := by
  simp [LogicVec.writeBits, List.range_succ]

@[simp] theorem width_writeBits (v : LogicVec) (n : Nat) (idx : Nat → Nat) (bit : Nat → Bit) :
    (v.writeBits n idx bit).width = v.width := by
  induction n with
  | zero => rfl
  | succ n ih => rw [writeBits_succ, LogicVec.width_setBit, ih]

theorem canonical_writeBits {v : LogicVec} (hv : Canonical v) (n : Nat) (idx : Nat → Nat)
    (bit : Nat → Bit) : Canonical (v.writeBits n idx bit) := by
  induction n with
  | zero => exact hv
  | succ n ih =>
    rw [writeBits_succ]
    exact canonical_setBit ih _ _

/-- A loop over an index range that starts at `base` writes exactly that range. -/
theorem getBit_writeBits {v : LogicVec} (hv : Canonical v) (n base : Nat) (bit : Nat → Bit)
    (j : Nat) : (v.writeBits n (base + ·) bit).getBit j =
      if base ≤ j ∧ j < base + n ∧ j < v.width then bit (j - base) else v.getBit j := by
  induction n with
  | zero =>
    have h : ¬ (base ≤ j ∧ j < base + 0 ∧ j < v.width) := by omega
    simp only [h, if_false]
    rfl
  | succ n ih =>
    rw [writeBits_succ, getBit_setBit (canonical_writeBits hv n _ bit), width_writeBits, ih]
    by_cases hj : j = base + n
    · subst hj
      have hn : ¬ (base + n < base + n) := Nat.lt_irrefl _
      by_cases hw : base + n < v.width <;> simp [hw]
    · have hiff : (base ≤ j ∧ j < base + (n + 1) ∧ j < v.width) ↔
          (base ≤ j ∧ j < base + n ∧ j < v.width) := by omega
      simp only [hj, false_and, if_false, hiff]

theorem getBit_writeBits_id {v : LogicVec} (hv : Canonical v) (n : Nat) (bit : Nat → Bit)
    (j : Nat) : (v.writeBits n id bit).getBit j =
      if j < n ∧ j < v.width then bit j else v.getBit j := by
  have h := getBit_writeBits hv n 0 bit j
  simp only [Nat.zero_add, Nat.zero_le, true_and, Nat.sub_zero] at h
  exact h

theorem canonical_copyLow (v : LogicVec) (n : Nat) : Canonical (v.copyLow n) :=
  canonical_writeBits (canonical_zero n) _ _ _

theorem canonical_resize {v : LogicVec} (hv : Canonical v) (n : Nat) (signed : Bool) :
    Canonical (v.resize n signed) := by
  have hout := canonical_copyLow v n
  unfold LogicVec.resize
  split_ifs
  · exact hv
  · exact canonical_writeBits hout _ _ _
  · exact hout
  · exact hout

theorem width_resize (v : LogicVec) (n : Nat) (signed : Bool) :
    (v.resize n signed).width = n := by
  unfold LogicVec.resize
  split_ifs with h
  · exact h.symm
  all_goals simp [LogicVec.copyLow]

@[simp] theorem resize_self (v : LogicVec) (signed : Bool) : v.resize v.width signed = v := by
  simp [LogicVec.resize]

/-- Unsigned resizing keeps the common low bits and zero-fills the rest. -/
theorem getBit_resize_unsigned {v : LogicVec} (n i : Nat) :
    (v.resize n false).getBit i = if i < n then v.getBit i else .zero := by
  have copied : (v.copyLow n).getBit i = if i < n then v.getBit i else .zero := by
    unfold LogicVec.copyLow
    rw [getBit_writeBits_id (canonical_zero n), width_zero, getBit_zero]
    by_cases hw : i < v.width
    · by_cases hi : i < n
      · have hm : i < min n v.width := Nat.lt_min.mpr ⟨hi, hw⟩
        simp [hi, hm]
      · simp [hi]
    · simp [v.getBit_of_ge (Nat.le_of_not_lt hw)]
  by_cases hn : n = v.width
  · subst hn
    by_cases hi : i < v.width
    · simp [LogicVec.resize, hi]
    · simp [LogicVec.resize, hi, v.getBit_of_ge (Nat.le_of_not_lt hi)]
  · simpa [LogicVec.resize, hn, LogicVec.extension] using copied

/-- On canonical vectors case equality is equality. -/
theorem eqCase_iff {v w : LogicVec} (hv : Canonical v) (hw : Canonical w) :
    v.eqCase w = true ↔ v = w := by
  have loop : v.width = w.width →
      ((List.range v.width).all fun i => v.getBit i == w.getBit i) = true → v = w := by
    intro hwidth hall
    apply canonical_ext hv hw hwidth
    intro i hi
    simpa using (List.all_eq_true.mp hall) i (List.mem_range.mpr hi)
  constructor
  · intro h
    unfold LogicVec.eqCase at h
    split_ifs at h with hwidth
    have hwidth : v.width = w.width := by simpa using hwidth
    cases hrv : v.repr with
    | small a b =>
      cases hrw : w.repr with
      | small c d =>
        simp only [hrv, hrw, Bool.and_eq_true, beq_iff_eq] at h
        have : v.repr = w.repr := by rw [hrv, hrw, h.1, h.2]
        cases v
        cases w
        simp_all
      | wide c d => exact loop hwidth (by simpa [hrv, hrw] using h)
    | wide a b => exact loop hwidth (by simpa [hrv] using h)
  · rintro rfl
    unfold LogicVec.eqCase
    cases v.repr <;> simp

/-! ### Canonical vectors as a type -/

/-- The vectors the simulator can hold: every constructor and operation yields one. -/
abbrev PackedVec := {v : LogicVec // Canonical v}

namespace PackedVec

def width (v : PackedVec) : Nat := v.1.width

def getBit (v : PackedVec) (idx : Nat) : Bit := v.1.getBit idx

def setBit (v : PackedVec) (idx : Nat) (bit : Bit) : PackedVec :=
  ⟨v.1.setBit idx bit, canonical_setBit v.2 idx bit⟩

def writeBits (v : PackedVec) (n : Nat) (idx : Nat → Nat) (bit : Nat → Bit) : PackedVec :=
  ⟨v.1.writeBits n idx bit, canonical_writeBits v.2 n idx bit⟩

def zero (width : Nat) : PackedVec := ⟨LogicVec.zero width, canonical_zero width⟩

def ones (width : Nat) : PackedVec :=
  ⟨LogicVec.ones width, canonical_fillPlanes (canonical_zero width) _ _⟩

def x (width : Nat) : PackedVec :=
  ⟨LogicVec.x width, canonical_fillPlanes (canonical_zero width) _ _⟩

def z (width : Nat) : PackedVec :=
  ⟨LogicVec.z width, canonical_fillPlanes (canonical_zero width) _ _⟩

def resize (v : PackedVec) (newWidth : Nat) (signed : Bool) : PackedVec :=
  ⟨v.1.resize newWidth signed, canonical_resize v.2 newWidth signed⟩

def eqCase (v w : PackedVec) : Bool := v.1.eqCase w.1

instance : Inhabited PackedVec := ⟨zero 1⟩

@[ext] theorem ext_bits {v w : PackedVec} (hwidth : v.width = w.width)
    (hbits : ∀ i < v.width, v.getBit i = w.getBit i) : v = w :=
  Subtype.ext (canonical_ext v.2 w.2 hwidth hbits)

@[simp] theorem eqCase_iff {v w : PackedVec} : v.eqCase w = true ↔ v = w :=
  (Logic.eqCase_iff v.2 w.2).trans Subtype.ext_iff.symm

@[simp] theorem width_setBit (v : PackedVec) (i : Nat) (b : Bit) :
    (v.setBit i b).width = v.width := v.1.width_setBit i b

theorem getBit_setBit (v : PackedVec) (i : Nat) (b : Bit) (j : Nat) :
    (v.setBit i b).getBit j = if j = i ∧ i < v.width then b else v.getBit j :=
  Logic.getBit_setBit v.2 i b j

@[simp] theorem width_z (n : Nat) : (z n).width = n := by
  simp [width, z, LogicVec.z]

theorem getBit_z (n i : Nat) : (z n).getBit i = if i < n then .z else .zero := by
  simp [getBit, z, LogicVec.z, getBit_fillPlanes (canonical_zero n), Bit.ofPlaneBits]

@[simp] theorem width_resize (v : PackedVec) (n : Nat) (signed : Bool) :
    (v.resize n signed).width = n := Logic.width_resize v.1 n signed

@[simp] theorem resize_self (v : PackedVec) (signed : Bool) : v.resize v.width signed = v :=
  Subtype.ext (Logic.resize_self v.1 signed)

theorem resize_of_width_eq {v : PackedVec} {n : Nat} (h : v.width = n) (signed : Bool) :
    v.resize n signed = v := by
  subst h
  exact resize_self v signed

theorem getBit_resize_unsigned (v : PackedVec) (n i : Nat) :
    (v.resize n false).getBit i = if i < n then v.getBit i else .zero :=
  Logic.getBit_resize_unsigned n i

theorem getBit_of_ge (v : PackedVec) {i : Nat} (h : v.width ≤ i) : v.getBit i = .zero :=
  v.1.getBit_of_ge h

@[simp] theorem width_writeBits (v : PackedVec) (n : Nat) (idx : Nat → Nat) (bit : Nat → Bit) :
    (v.writeBits n idx bit).width = v.width := Logic.width_writeBits v.1 n idx bit

theorem getBit_writeBits_id (v : PackedVec) (n : Nat) (bit : Nat → Bit) (j : Nat) :
    (v.writeBits n id bit).getBit j = if j < n ∧ j < v.width then bit j else v.getBit j :=
  Logic.getBit_writeBits_id v.2 n bit j

end PackedVec

end Eevee.Core.Logic
