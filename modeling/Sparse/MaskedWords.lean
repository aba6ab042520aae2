import Mathlib.Algebra.Order.Group.Unbundled.Int
import Mathlib.Algebra.Order.Ring.Int
import Mathlib.Data.Nat.Cast.Basic
import Mathlib.Tactic.Common
import Mathlib.Tactic.Push

/-!
# Integers of smaller sizes in one 64-bit word

A value of `w ≤ 64` bits is kept in a word of 64 bits. It is canonical when the
bits above the size are clear; the masks below are those with which such values
are read and written, and sign extension reads the canonical form as signed.
-/

namespace MaskedWords

/-- The sign bit of a value of `w` bits. -/
def signBit (w : ℕ) : BitVec 64 :=
  1#64 <<< (w - 1)

/-- All the bits of a value of `w` bits, written as the sign bit and those below. -/
def lowMask (w : ℕ) : BitVec 64 :=
  signBit w ||| (signBit w - 1#64)

/-- The bits above the size are clear. -/
def Canonical (w : ℕ) (x : BitVec 64) : Prop :=
  x.toNat < 2 ^ w

instance (w : ℕ) (x : BitVec 64) : Decidable (Canonical w x) :=
  inferInstanceAs (Decidable (_ < _))

/-- A canonical value with its sign bit copied into the bits above. -/
def signExtended (w : ℕ) (x : BitVec 64) : BitVec 64 :=
  if x &&& signBit w ≠ 0#64 then x ||| ~~~(signBit w - 1#64) else x

section

variable {w : ℕ} {x y : BitVec 64}

theorem signBit_eq (w : ℕ) : signBit w = BitVec.twoPow 64 (w - 1) :=
  (BitVec.twoPow_eq 64 (w - 1)).symm

theorem signBit_toNat (hw : 0 < w) (h64 : w ≤ 64) : (signBit w).toNat = 2 ^ (w - 1) := by
  rw [signBit_eq, BitVec.toNat_twoPow, Nat.mod_eq_of_lt]
  exact Nat.pow_lt_pow_right (by omega) (by omega)

theorem two_pow_le (h64 : w ≤ 64) : 2 ^ w ≤ 2 ^ 64 :=
  Nat.pow_le_pow_right (by omega) h64

theorem two_pow_pred (hw : 0 < w) : 2 ^ w = 2 * 2 ^ (w - 1) := by
  rw [← Nat.pow_succ', Nat.succ_eq_add_one, Nat.sub_add_cancel hw]

theorem belowSign_toNat (hw : 0 < w) (h64 : w ≤ 64) :
    (signBit w - 1#64).toNat = 2 ^ (w - 1) - 1 := by
  have hpos : 0 < 2 ^ (w - 1) := Nat.two_pow_pos _
  have hle : 2 ^ (w - 1) ≤ 2 ^ 64 := Nat.pow_le_pow_right (by omega) (by omega)
  have hone : (1#64).toNat = 1 := rfl
  rw [BitVec.toNat_sub, signBit_toNat hw h64, hone]
  omega

theorem lowMask_getLsbD (hw : 0 < w) (h64 : w ≤ 64) (i : ℕ) :
    (lowMask w).getLsbD i = decide (i < w) := by
  have hbelow : (signBit w - 1#64).getLsbD i = decide (i < w - 1) := by
    rw [BitVec.getLsbD, belowSign_toNat hw h64, Nat.testBit_two_pow_sub_one]
  rw [lowMask, BitVec.getLsbD_or, hbelow, signBit_eq, BitVec.getLsbD_twoPow]
  by_cases hi : i < w
  · simp only [hi, decide_true, Bool.or_eq_true, Bool.and_eq_true, decide_eq_true_eq]
    omega
  · simp only [hi, decide_false, Bool.or_eq_false_iff, Bool.and_eq_false_iff,
      decide_eq_false_iff_not]
    omega

theorem lowMask_toNat (hw : 0 < w) (h64 : w ≤ 64) : (lowMask w).toNat = 2 ^ w - 1 := by
  refine Nat.eq_of_testBit_eq fun i => ?_
  rw [Nat.testBit_two_pow_sub_one]
  exact lowMask_getLsbD hw h64 i

/-- Masking keeps the value modulo the size. -/
theorem and_lowMask_toNat (hw : 0 < w) (h64 : w ≤ 64) (x : BitVec 64) :
    (x &&& lowMask w).toNat = x.toNat % 2 ^ w := by
  rw [BitVec.toNat_and, lowMask_toNat hw h64, Nat.and_two_pow_sub_one_eq_mod]

theorem canonical_and_lowMask (hw : 0 < w) (h64 : w ≤ 64) (x : BitVec 64) :
    Canonical w (x &&& lowMask w) := by
  rw [Canonical, and_lowMask_toNat hw h64]
  exact Nat.mod_lt _ (Nat.two_pow_pos w)

theorem and_lowMask_eq (hw : 0 < w) (h64 : w ≤ 64) (hx : Canonical w x) :
    x &&& lowMask w = x := by
  refine BitVec.eq_of_toNat_eq ?_
  rw [and_lowMask_toNat hw h64, Nat.mod_eq_of_lt hx]

/-- Two masked words agree exactly when the words do in the low bits. -/
theorem and_lowMask_inj (hw : 0 < w) (h64 : w ≤ 64) :
    x &&& lowMask w = y &&& lowMask w ↔ x.setWidth w = y.setWidth w := by
  rw [← BitVec.toNat_inj, ← BitVec.toNat_inj, and_lowMask_toNat hw h64, and_lowMask_toNat hw h64,
    BitVec.toNat_setWidth, BitVec.toNat_setWidth]

theorem setWidth_sub (h64 : w ≤ 64) : (x - y).setWidth w = x.setWidth w - y.setWidth w := by
  rw [BitVec.sub_eq_add_neg, BitVec.setWidth_add _ _ h64, BitVec.setWidth_neg_of_le h64,
    ← BitVec.sub_eq_add_neg]

theorem canonical_64 (x : BitVec 64) : Canonical 64 x :=
  x.isLt

theorem and_signBit_ne_zero (hw : 0 < w) (h64 : w ≤ 64) :
    x &&& signBit w ≠ 0#64 ↔ x.getLsbD (w - 1) = true := by
  rw [signBit_eq, BitVec.and_twoPow]
  cases h : x.getLsbD (w - 1)
  · simp
  · simp only [if_true, iff_true]
    rw [← BitVec.toNat_inj.ne, BitVec.toNat_twoPow, Nat.mod_eq_of_lt]
    · exact Nat.pos_iff_ne_zero.1 (Nat.two_pow_pos _)
    · exact Nat.pow_lt_pow_right (by omega) (by omega)

theorem signExtended_getLsbD (hw : 0 < w) (h64 : w ≤ 64) (hx : Canonical w x) (i : ℕ) :
    (signExtended w x).getLsbD i =
      (decide (i < 64) && if i < w then x.getLsbD i else x.getLsbD (w - 1)) := by
  have habove : w ≤ i → x.getLsbD i = false := fun hi =>
    Nat.testBit_lt_two_pow (Nat.lt_of_lt_of_le hx (Nat.pow_le_pow_right (by omega) hi))
  have hbelow : (signBit w - 1#64).getLsbD i = decide (i < w - 1) := by
    rw [BitVec.getLsbD, belowSign_toNat hw h64, Nat.testBit_two_pow_sub_one]
  have hsize : ¬ i < 64 → x.getLsbD i = false := fun hi => x.getLsbD_of_ge i (by omega)
  rw [signExtended]
  by_cases hs : x.getLsbD (w - 1) = true
  · rw [if_pos ((and_signBit_ne_zero hw h64).2 hs), BitVec.getLsbD_or, BitVec.getLsbD_not, hbelow]
    by_cases hi : i < w
    · have hlast : ¬ i < w - 1 → i = w - 1 := by omega
      by_cases hi' : i < w - 1
      · simp [hi, hi', show i < 64 by omega]
      · rw [hlast hi', hs]
        simp [show w - 1 < 64 by omega, show w - 1 < w by omega]
    · simp [hi, hs, habove (by omega), show ¬ i < w - 1 by omega]
  · rw [if_neg (mt (and_signBit_ne_zero hw h64).1 hs)]
    by_cases hi : i < w
    · simp [hi, show i < 64 by omega]
    · simp [hi, hs, habove (by omega)]

/-- Sign extension is that of the low bits. -/
theorem signExtended_eq (hw : 0 < w) (h64 : w ≤ 64) (hx : Canonical w x) :
    signExtended w x = (x.setWidth w).signExtend 64 := by
  refine BitVec.eq_of_getLsbD_eq fun i hi => ?_
  rw [signExtended_getLsbD hw h64 hx, BitVec.getLsbD_signExtend, BitVec.msb_eq_getLsbD_last,
    BitVec.getLsbD_setWidth, BitVec.getLsbD_setWidth]
  by_cases hlt : i < w
  · simp [hlt]
  · simp [hlt, show w - 1 < w by omega]

theorem signExtended_toInt (hw : 0 < w) (h64 : w ≤ 64) (hx : Canonical w x) :
    (signExtended w x).toInt = Int.bmod x.toNat (2 ^ w) := by
  rw [signExtended_eq hw h64 hx, BitVec.toInt_signExtend_of_le h64, BitVec.toInt_eq_toNat_bmod,
    BitVec.toNat_setWidth, Int.natCast_emod]
  exact Int.emod_bmod _ _

theorem signExtended_toInt_of_lt (hw : 0 < w) (h64 : w ≤ 64) (h : x.toNat < 2 ^ (w - 1)) :
    (signExtended w x).toInt = x.toNat := by
  have hpow := two_pow_pred hw
  have hx : Canonical w x := by
    rw [Canonical]
    omega
  rw [signExtended_toInt hw h64 hx]
  exact Int.bmod_eq_of_le (by omega) (by omega)

theorem signExtended_toInt_of_le (hw : 0 < w) (h64 : w ≤ 64) (hx : Canonical w x)
    (h : 2 ^ (w - 1) ≤ x.toNat) : (signExtended w x).toInt = x.toNat - 2 ^ w := by
  have hpow := two_pow_pred hw
  have hpowInt : (2 : ℤ) ^ w = ((2 ^ w : ℕ) : ℤ) := by norm_cast
  have hx' : x.toNat < 2 ^ w := hx
  rw [signExtended_toInt hw h64 hx, hpowInt, ← Int.sub_bmod_right]
  exact Int.bmod_eq_of_le (by omega) (by omega)

/-- The signed range of the size. -/
theorem signExtended_bounds (hw : 0 < w) (h64 : w ≤ 64) (hx : Canonical w x) :
    -2 ^ (w - 1) ≤ (signExtended w x).toInt ∧ (signExtended w x).toInt < 2 ^ (w - 1) := by
  have hpow : (2 : ℤ) ^ w = 2 * 2 ^ (w - 1) := by exact_mod_cast two_pow_pred hw
  have hpred : (2 : ℤ) ^ (w - 1) = ((2 ^ (w - 1) : ℕ) : ℤ) := by norm_cast
  have hx' : (x.toNat : ℤ) < 2 ^ w := by exact_mod_cast hx
  rcases Nat.lt_or_ge x.toNat (2 ^ (w - 1)) with h | h
  · rw [signExtended_toInt_of_lt hw h64 h]
    omega
  · rw [signExtended_toInt_of_le hw h64 hx h]
    omega

theorem signExtended_setWidth (hw : 0 < w) (h64 : w ≤ 64) (hx : Canonical w x) :
    (signExtended w x).setWidth w = x.setWidth w := by
  refine BitVec.eq_of_getLsbD_eq fun i hi => ?_
  rw [BitVec.getLsbD_setWidth, BitVec.getLsbD_setWidth, signExtended_getLsbD hw h64 hx]
  simp [hi, show i < 64 by omega]

theorem signExtended_and_lowMask (hw : 0 < w) (h64 : w ≤ 64) (hx : Canonical w x) :
    signExtended w x &&& lowMask w = x := by
  rw [(and_lowMask_inj hw h64).2 (signExtended_setWidth hw h64 hx), and_lowMask_eq hw h64 hx]

theorem signExtended_inj (hw : 0 < w) (h64 : w ≤ 64) (hx : Canonical w x) (hy : Canonical w y) :
    signExtended w x = signExtended w y ↔ x = y := by
  refine ⟨fun h => ?_, fun h => by rw [h]⟩
  rw [← signExtended_and_lowMask hw h64 hx, h, signExtended_and_lowMask hw h64 hy]

/-- The other spelling of the same extension, with all the bits in the mask. -/
theorem or_not_lowMask (hw : 0 < w) (h64 : w ≤ 64) (hs : x &&& signBit w ≠ 0#64) :
    x ||| ~~~lowMask w = x ||| ~~~(signBit w - 1#64) := by
  rw [and_signBit_ne_zero hw h64] at hs
  refine BitVec.eq_of_getLsbD_eq fun i hi => ?_
  have hbelow : (signBit w - 1#64).getLsbD i = decide (i < w - 1) := by
    rw [BitVec.getLsbD, belowSign_toNat hw h64, Nat.testBit_two_pow_sub_one]
  rw [BitVec.getLsbD_or, BitVec.getLsbD_or, BitVec.getLsbD_not, BitVec.getLsbD_not,
    lowMask_getLsbD hw h64, hbelow]
  by_cases hlast : i = w - 1
  · rw [hlast, hs]
    rfl
  · have hsame : (i < w) = (i < w - 1) := propext (by omega)
    simp only [hsame]

/-- The low bits of a word are its signed value modulo the size. -/
theorem and_lowMask_toNat_eq_emod (hw : 0 < w) (h64 : w ≤ 64) (x : BitVec 64) :
    ((x &&& lowMask w).toNat : ℤ) = x.toInt % 2 ^ w := by
  have hdvd : (2 ^ w : ℤ) ∣ ((2 ^ 64 : ℕ) : ℤ) := by
    rw [Nat.cast_pow]
    exact pow_dvd_pow 2 h64
  have hword : x.toInt % ((2 ^ 64 : ℕ) : ℤ) = (x.toNat : ℤ) % ((2 ^ 64 : ℕ) : ℤ) := by
    rw [BitVec.toInt_eq_toNat_bmod, Int.bmod_emod]
  rw [and_lowMask_toNat hw h64, Int.natCast_emod, Nat.cast_pow, Nat.cast_ofNat,
    ← Int.emod_emod_of_dvd _ hdvd, ← hword, Int.emod_emod_of_dvd _ hdvd]

/-- Values in the signed range of the size are told apart by their low bits. -/
theorem and_lowMask_inj_of_bounds (hw : 0 < w) (h64 : w ≤ 64)
    (hx : -2 ^ (w - 1) ≤ x.toInt ∧ x.toInt < 2 ^ (w - 1))
    (hy : -2 ^ (w - 1) ≤ y.toInt ∧ y.toInt < 2 ^ (w - 1)) :
    x &&& lowMask w = y &&& lowMask w ↔ x.toInt = y.toInt := by
  constructor
  · intro h
    have hmod : x.toInt % 2 ^ w = y.toInt % 2 ^ w := by
      rw [← and_lowMask_toNat_eq_emod hw h64, ← and_lowMask_toNat_eq_emod hw h64, h]
    have hpow : (2 : ℤ) ^ w = 2 * 2 ^ (w - 1) := by
      exact_mod_cast two_pow_pred hw
    have hdvd : (2 : ℤ) ^ w ∣ x.toInt - y.toInt := Int.dvd_of_emod_eq_zero (Int.emod_eq_emod_iff_emod_sub_eq_zero.1 hmod)
    have hzero : x.toInt - y.toInt = 0 :=
      Int.eq_zero_of_abs_lt_dvd hdvd (abs_lt.2 ⟨by omega, by omega⟩)
    omega
  · intro h
    rw [BitVec.eq_of_toInt_eq h]

/-- The carry of an increment. -/
theorem add_one_getLsbD (x : BitVec 64) {i : ℕ} (hi : i < 64) :
    (x + 1#64).getLsbD i = (x.getLsbD i ^^ decide (∀ j < i, x.getLsbD j = true)) := by
  rw [BitVec.getLsbD_add hi]
  cases i with
  | zero => simp [BitVec.carry_zero]
  | succ i =>
    rw [BitVec.carry_succ_one _ _ (by omega)]
    simp [Nat.lt_succ_iff, BitVec.getLsbD_one]

/-- The borrow of a decrement. -/
theorem sub_one_getLsbD (x : BitVec 64) {i : ℕ} (hi : i < 64) :
    (x - 1#64).getLsbD i = (x.getLsbD i ^^ decide (∀ j < i, x.getLsbD j = false)) := by
  have hnot : (~~~(x - 1#64)).getLsbD i = (~~~x + 1#64).getLsbD i := by rw [BitVec.not_sub_one_eq_not_add_one]
  rw [add_one_getLsbD _ hi, BitVec.getLsbD_not, BitVec.getLsbD_not, decide_eq_true hi, Bool.true_and,
    Bool.true_and] at hnot
  have hall : decide (∀ j < i, (~~~x).getLsbD j = true) = decide (∀ j < i, x.getLsbD j = false) := by
    refine decide_eq_decide.2 (forall₂_congr fun j hj => ?_)
    rw [BitVec.getLsbD_not, decide_eq_true (by omega), Bool.true_and, Bool.not_eq_true']
  rw [hall] at hnot
  rw [← Bool.not_inj_iff, hnot]
  exact Bool.not_xor _ _

/-- The low bits of an integer do not depend on the width it is written in. -/
theorem ofInt_setWidth {v w : ℕ} (hle : v ≤ w) (z : ℤ) :
    (BitVec.ofInt w z).setWidth v = BitVec.ofInt v z := by
  refine BitVec.eq_of_toNat_eq ?_
  have hdvd : ((2 ^ v : ℕ) : ℤ) ∣ ((2 ^ w : ℕ) : ℤ) := by
    exact_mod_cast Nat.pow_dvd_pow 2 hle
  have hpos : ((2 ^ w : ℕ) : ℤ) ≠ 0 :=
    Int.natCast_ne_zero.2 (Nat.two_pow_pos w).ne'
  have hnonneg : 0 ≤ z % ((2 ^ w : ℕ) : ℤ) := Int.emod_nonneg _ hpos
  rw [BitVec.toNat_setWidth, BitVec.toNat_ofInt, BitVec.toNat_ofInt, ← Int.toNat_natCast
    ((z % ((2 ^ w : ℕ) : ℤ)).toNat % 2 ^ v), Int.natCast_emod, Int.toNat_of_nonneg hnonneg,
    Int.emod_emod_of_dvd _ hdvd]

end

end MaskedWords
