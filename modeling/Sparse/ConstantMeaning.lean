import Sparse.ExpandExpressions
import Mathlib.Tactic.Linarith

/-!
# Stored values and the integers they mean

A canonical word of a type means one value of the type. Each operation of the
folder, seen on the low bits, is the operation of C on those values.
-/

namespace Sparse
open MaskedWords

/-- The word `v`, stored with type `c`, means the integer `z`. -/
structure Represents (t : Target) (c : Ctype) (v : BitVec 64) (z : ℤ) : Prop where
  canonical : Canonical (c.bitSize t) v
  value : c.ofBits t (v.setWidth _) = z

variable {t : Target} {c : Ctype}

namespace Ctype

theorem ofBits_inRange (x : BitVec (c.bitSize t)) : c.InRange t (c.ofBits t x) := by
  rw [InRange, ofBits]
  split
  · exact ⟨by omega, by exact_mod_cast x.isLt⟩
  · exact ⟨BitVec.le_toInt x, BitVec.toInt_lt⟩

/-- Bits are determined by their value. -/
theorem ofInt_ofBits (x : BitVec (c.bitSize t)) : BitVec.ofInt _ (c.ofBits t x) = x := by
  rw [ofBits]
  split
  · rw [BitVec.ofInt_natCast, BitVec.ofNat_toNat, BitVec.setWidth_eq]
  · rw [BitVec.ofInt_toInt]

/-- A value of the type is that of its bits. -/
theorem ofBits_ofInt {z : ℤ} (h : c.InRange t z) : c.ofBits t (BitVec.ofInt _ z) = z := by
  have hpos := c.bitSize_pos t
  have hpow : (2 : ℤ) ^ c.bitSize t = 2 * 2 ^ (c.bitSize t - 1) := by
    exact_mod_cast two_pow_pred hpos
  have hcast : ((2 ^ c.bitSize t : ℕ) : ℤ) = 2 ^ c.bitSize t := by norm_cast
  rw [InRange] at h
  rw [ofBits]
  split at h
  · rename_i hu
    rw [if_pos hu, BitVec.toNat_ofInt, hcast, Int.emod_eq_of_lt h.1 h.2, Int.toNat_of_nonneg h.1]
  · rename_i hu
    rw [if_neg hu, BitVec.toInt_ofInt]
    exact Int.bmod_eq_of_le (by omega) (by omega)

/-- The result of an operation is that of its low bits. -/
theorem ofBits_of_result {z z' : ℤ} (h : c.result t z = some z') :
    c.ofBits t (BitVec.ofInt _ z) = z' := by
  rw [result] at h
  split at h
  · rename_i hu
    have hcast : ((2 ^ c.bitSize t : ℕ) : ℤ) = 2 ^ c.bitSize t := by norm_cast
    have hpos : (0 : ℤ) < 2 ^ c.bitSize t := by exact_mod_cast Nat.two_pow_pos _
    rw [ofBits, if_pos hu, BitVec.toNat_ofInt, hcast,
      Int.toNat_of_nonneg (Int.emod_nonneg _ (by omega))]
    exact Option.some.inj h
  · split at h
    · rename_i hrange
      rw [ofBits_ofInt hrange]
      exact Option.some.inj h
    · simp at h

theorem bool_of_bitSize {d : Ctype} (h : d.bitSize t = Ctype.bool.bitSize t) : d = .bool := by
  cases d with
  | bool => rfl
  | integer rank sign =>
    cases rank <;> simp only [bitSize] at h <;> (try split at h) <;> omega

end Ctype

theorem emod_setWidth {w : ℕ} (h64 : w ≤ 64) (x : BitVec 64) :
    x.setWidth w = BitVec.ofInt w x.toInt := by
  refine BitVec.eq_of_toNat_eq ?_
  have hdvd : ((2 ^ w : ℕ) : ℤ) ∣ ((2 ^ 64 : ℕ) : ℤ) := by
    exact_mod_cast Nat.pow_dvd_pow 2 h64
  have hmod : x.toInt % ((2 ^ w : ℕ) : ℤ) = (x.toNat : ℤ) % ((2 ^ w : ℕ) : ℤ) := by
    rw [← Int.emod_emod_of_dvd _ hdvd, BitVec.toInt_eq_toNat_bmod, Int.bmod_emod,
      Int.emod_emod_of_dvd _ hdvd]
  rw [BitVec.toNat_setWidth, BitVec.toNat_ofInt, hmod, ← Int.natCast_emod, Int.toNat_natCast]

theorem natCast_setWidth {w : ℕ} (x : BitVec 64) : x.setWidth w = BitVec.ofInt w x.toNat := by
  rw [BitVec.ofInt_natCast, BitVec.ofNat_toNat]

namespace Represents

variable {v l r : BitVec 64} {z a b : ℤ}

theorem inRange (h : Represents t c v z) : c.InRange t z :=
  h.value ▸ Ctype.ofBits_inRange _

/-- The low bits of the word are those of the value. -/
theorem setWidth (h : Represents t c v z) : v.setWidth _ = BitVec.ofInt (c.bitSize t) z := by
  rw [← h.value, Ctype.ofInt_ofBits]

/-- The word is the bit pattern of the value, masked to the size. -/
theorem eq_pattern (h : Represents t c v z) :
    v = BitVec.ofInt 64 z &&& lowMask (c.bitSize t) := by
  rw [← and_lowMask_eq (c.bitSize_pos t) (c.bitSize_le t) h.canonical,
    and_lowMask_inj (c.bitSize_pos t) (c.bitSize_le t), h.setWidth]
  refine BitVec.eq_of_toNat_eq ?_
  have hdvd : ((2 ^ c.bitSize t : ℕ) : ℤ) ∣ ((2 ^ 64 : ℕ) : ℤ) := by
    exact_mod_cast Nat.pow_dvd_pow 2 (c.bitSize_le t)
  have hnonneg : 0 ≤ z % ((2 ^ 64 : ℕ) : ℤ) := Int.emod_nonneg _ (by positivity)
  rw [BitVec.toNat_setWidth, BitVec.toNat_ofInt, BitVec.toNat_ofInt, ← Int.toNat_natCast
    ((z % ((2 ^ 64 : ℕ) : ℤ)).toNat % 2 ^ c.bitSize t), Int.natCast_emod,
    Int.toNat_of_nonneg hnonneg, Int.emod_emod_of_dvd _ hdvd]

/-- A masked word means the value that has its low bits. -/
theorem masked {x : BitVec 64} (h : c.ofBits t (x.setWidth _) = z) :
    Represents t c (x &&& lowMask (c.bitSize t)) z where
  canonical := canonical_and_lowMask (c.bitSize_pos t) (c.bitSize_le t) x
  value := by
    have hlow : (x &&& lowMask (c.bitSize t)).setWidth (c.bitSize t) = x.setWidth _ := by
      rw [← and_lowMask_inj (c.bitSize_pos t) (c.bitSize_le t),
        and_lowMask_eq (c.bitSize_pos t) (c.bitSize_le t)
          (canonical_and_lowMask (c.bitSize_pos t) (c.bitSize_le t) x)]
    rw [hlow, h]

theorem masked_of_result {x : BitVec 64} (hlow : x.setWidth _ = BitVec.ofInt (c.bitSize t) z)
    {z' : ℤ} (h : c.result t z = some z') :
    Represents t c (x &&& lowMask (c.bitSize t)) z' :=
  masked (by rw [hlow, Ctype.ofBits_of_result h])

theorem toNat_of_unsigned (h : Represents t c v z) (hu : c.isUnsigned = true) :
    (v.toNat : ℤ) = z := by
  have hv := h.value
  rw [Ctype.ofBits, if_pos hu, BitVec.toNat_setWidth, Nat.mod_eq_of_lt h.canonical] at hv
  exact hv

/-- Signed operands are extended to their value. -/
theorem toInt_of_signed (h : Represents t c v z) (hs : c.isUnsigned = false) :
    (signExtended (c.bitSize t) v).toInt = z := by
  have hv := h.value
  rw [Ctype.ofBits, if_neg (by simp [hs]), BitVec.toInt_eq_toNat_bmod, BitVec.toNat_setWidth,
    Nat.mod_eq_of_lt h.canonical] at hv
  rw [signExtended_toInt (c.bitSize_pos t) (c.bitSize_le t) h.canonical, hv]

theorem extendIfSigned_of_signed (hs : c.isUnsigned = false) (v : BitVec 64) :
    extendIfSigned (c.intType t) v = signExtended (c.bitSize t) v := by
  rw [extendIfSigned, Ctype.intType, hs]
  rfl

theorem eq_zero_iff (h : Represents t c v z) : v = 0#64 ↔ z = 0 := by
  have hz : (0#64).setWidth (c.bitSize t) = BitVec.ofInt _ 0 := by
    simp
  have hcan : Canonical (c.bitSize t) 0#64 := Nat.two_pow_pos _
  constructor
  · intro hv
    rw [← h.value, hv, Ctype.ofBits]
    split <;> simp
  · intro hz'
    have hlow := h.setWidth
    rw [hz', ← hz, ← and_lowMask_inj (c.bitSize_pos t) (c.bitSize_le t),
      and_lowMask_eq (c.bitSize_pos t) (c.bitSize_le t) h.canonical,
      and_lowMask_eq (c.bitSize_pos t) (c.bitSize_le t) hcan] at hlow
    exact hlow

/-- Two words of a type are equal exactly when they mean the same. -/
theorem eq_iff (hl : Represents t c l a) (hr : Represents t c r b) : l = r ↔ a = b := by
  constructor
  · intro h
    rw [← hl.value, ← hr.value, h]
  · intro h
    rw [hl.eq_pattern, hr.eq_pattern, h]

theorem boolWord (p : Prop) [Decidable p] (q : Bool) (h : q = true ↔ p) :
    Represents t .bool (boolWord q) (truth p) := by
  have hq : q = decide p := by
    rw [Bool.eq_iff_iff, h, decide_eq_true_iff]
  subst hq
  by_cases hp : p
  · simp only [hp, truth, decide_true, Sparse.boolWord, if_true]
    exact ⟨show _ < 2 ^ 1 by decide, rfl⟩
  · simp only [hp, truth, decide_false, Sparse.boolWord, if_false, Bool.false_eq_true]
    exact ⟨show _ < 2 ^ 1 by decide, rfl⟩

/-- A word that means a value that is not negative is that value. -/
theorem toNat_of_nonneg (h : Represents t c v z) (hz : 0 ≤ z) : (v.toNat : ℤ) = z := by
  cases hs : c.isUnsigned with
  | true => exact h.toNat_of_unsigned hs
  | false =>
    have hint := h.toInt_of_signed hs
    have hcan : (v.toNat : ℤ) < 2 ^ c.bitSize t := by exact_mod_cast h.canonical
    rcases Nat.lt_or_ge v.toNat (2 ^ (c.bitSize t - 1)) with hlt | hge
    · rw [← hint, signExtended_toInt_of_lt (c.bitSize_pos t) (c.bitSize_le t) hlt]
    · rw [signExtended_toInt_of_le (c.bitSize_pos t) (c.bitSize_le t) h.canonical hge] at hint
      omega

/-! ## The operators -/

/-- The least value of a signed type has the sign bit alone. -/
theorem eq_least_of_signBit (h : Represents t c v z) (hs : c.isUnsigned = false)
    (hv : v = signBit (c.bitSize t)) : z = -2 ^ (c.bitSize t - 1) := by
  have hnat : v.toNat = 2 ^ (c.bitSize t - 1) := by
    rw [hv, signBit_toNat (c.bitSize_pos t) (c.bitSize_le t)]
  have hpow : (2 : ℤ) ^ c.bitSize t = 2 * 2 ^ (c.bitSize t - 1) := by
    exact_mod_cast two_pow_pred (c.bitSize_pos t)
  rw [← h.toInt_of_signed hs,
    signExtended_toInt_of_le (c.bitSize_pos t) (c.bitSize_le t) h.canonical hnat.ge, hnat]
  push_cast
  omega

theorem not_inRange_two_pow (hs : c.isUnsigned = false) {k : ℕ} (hk : c.bitSize t - 1 ≤ k) :
    ¬ c.InRange t (2 ^ k) := by
  have hpow : (2 : ℤ) ^ (c.bitSize t - 1) ≤ 2 ^ k := by
    exact_mod_cast Nat.pow_le_pow_right (by omega) hk
  rw [Ctype.InRange, if_neg (by simp [hs])]
  omega

theorem inRange_of_result {z z' : ℤ} (hs : c.isUnsigned = false) (h : c.result t z = some z') :
    c.InRange t z := by
  rw [Ctype.result, if_neg (by simp [hs])] at h
  by_contra hrange
  rw [if_neg hrange] at h
  simp at h

/-- A defined division is not that of the least value by -1. -/
theorem ne_or_ne_of_inRange (hl : Represents t c l a) (hr : Represents t c r b)
    (hs : c.isUnsigned = false) (h : c.InRange t (a.tdiv b)) :
    signExtended (c.bitSize t) l ≠ BitVec.intMin 64 ∨ signExtended (c.bitSize t) r ≠ -1#64 := by
  by_contra hboth
  push Not at hboth
  have ha : a = -2 ^ 63 := by
    rw [← hl.toInt_of_signed hs, hboth.1]
    decide
  have hb : b = -1 := by
    rw [← hr.toInt_of_signed hs, hboth.2]
    decide
  have hle := c.bitSize_le t
  refine not_inRange_two_pow hs (show c.bitSize t - 1 ≤ 63 by omega) ?_
  rw [ha, hb] at h
  exact h

theorem hostDivs_represents (hl : Represents t c l a) (hr : Represents t c r b)
    (hs : c.isUnsigned = false) (h : c.InRange t (a.tdiv b)) :
    ∃ x, hostDivs (signExtended (c.bitSize t) l) (signExtended (c.bitSize t) r) = some x ∧
      x.toInt = a.tdiv b := by
  have hne := ne_or_ne_of_inRange hl hr hs h
  refine ⟨_, if_neg (by tauto), ?_⟩
  rw [BitVec.toInt_sdiv_of_ne_or_ne _ _ hne, hl.toInt_of_signed hs, hr.toInt_of_signed hs]

theorem hostMods_represents (hl : Represents t c l a) (hr : Represents t c r b)
    (hs : c.isUnsigned = false) (h : c.InRange t (a.tdiv b)) :
    ∃ x, hostMods (signExtended (c.bitSize t) l) (signExtended (c.bitSize t) r) = some x ∧
      x.toInt = a.tmod b := by
  have hne := ne_or_ne_of_inRange hl hr hs h
  refine ⟨_, if_neg (by tauto), ?_⟩
  rw [BitVec.toInt_srem, hl.toInt_of_signed hs, hr.toInt_of_signed hs]

/-- The remainder is a value of the type. -/
theorem inRange_tmod (h : c.InRange t a) (b : ℤ) : c.InRange t (a.tmod b) := by
  rw [Ctype.InRange] at h ⊢
  have habs : (a.tmod b).natAbs ≤ a.natAbs := by
    rw [Int.natAbs_tmod]
    exact Nat.mod_le _ _
  split at h
  · rename_i hu
    rw [if_pos hu]
    have hnonneg := Int.tmod_nonneg b h.1
    omega
  · rename_i hu
    rw [if_neg hu]
    rcases Int.le_total 0 a with ha | ha
    · have hnonneg := Int.tmod_nonneg b ha
      omega
    · have hnonneg := Int.tmod_nonneg b (show 0 ≤ -a by omega)
      rw [Int.neg_tmod] at hnonneg
      omega

/-- A right shift stays in the range of the type. -/
theorem inRange_ediv (h : c.InRange t a) (n : ℕ) : c.InRange t (a / 2 ^ n) := by
  have hn : (0 : ℤ) < 2 ^ n := by positivity
  rw [Ctype.InRange] at h ⊢
  split at h
  · rename_i hu
    rw [if_pos hu]
    exact ⟨Int.ediv_nonneg h.1 hn.le, lt_of_le_of_lt (Int.ediv_le_self _ h.1) h.2⟩
  · rename_i hu
    have hpos : (0 : ℤ) < 2 ^ (c.bitSize t - 1) := by positivity
    rw [if_neg hu]
    constructor
    · refine (Int.le_ediv_iff_mul_le hn).2 (le_trans ?_ h.1)
      nlinarith
    · refine (Int.ediv_lt_iff_lt_mul hn).2 (lt_of_lt_of_le h.2 ?_)
      nlinarith

theorem of_toInt {x : BitVec 64} (hx : x.toInt = z) (h : c.InRange t z) :
    Represents t c (x &&& lowMask (c.bitSize t)) z :=
  masked (by rw [emod_setWidth (c.bitSize_le t), hx, Ctype.ofBits_ofInt h])

theorem of_toNat {x : BitVec 64} (hx : (x.toNat : ℤ) = z) (h : c.InRange t z) :
    Represents t c (x &&& lowMask (c.bitSize t)) z :=
  masked (by rw [natCast_setWidth, hx, Ctype.ofBits_ofInt h])

/-- The operators other than the shifts fold to the value of C. -/
theorem intBinopValue_represents {op : SourceBinary} (hop : op.op.isShift = false)
    (hl : Represents t c l a) (hr : Represents t c r b) (h : c.binary t a b op = some z) :
    ∃ v, intBinopValue op.op (c.intType t) l r = some v ∧ Represents t c v z := by
  have hle := c.bitSize_le t
  have hzero := hr.eq_zero_iff
  have hsize : (c.intType t).bitSize = c.bitSize t := rfl
  have hunsigned : (c.intType t).unsigned = c.isUnsigned := rfl
  cases op with
  | add =>
    refine ⟨_, rfl, masked_of_result ?_ h⟩
    rw [BitVec.setWidth_add _ _ hle, hl.setWidth, hr.setWidth, ← BitVec.ofInt_add]
  | sub =>
    refine ⟨_, rfl, masked_of_result ?_ h⟩
    rw [setWidth_sub hle, hl.setWidth, hr.setWidth, Int.sub_eq_add_neg, BitVec.ofInt_add,
      BitVec.ofInt_neg, ← BitVec.sub_eq_add_neg]
  | and =>
    refine ⟨_, rfl, masked ?_⟩
    rw [BitVec.setWidth_and, hl.setWidth, hr.setWidth]
    exact Option.some.inj h
  | or =>
    refine ⟨_, rfl, masked ?_⟩
    rw [BitVec.setWidth_or, hl.setWidth, hr.setWidth]
    exact Option.some.inj h
  | xor =>
    refine ⟨_, rfl, masked ?_⟩
    rw [BitVec.setWidth_xor, hl.setWidth, hr.setWidth]
    exact Option.some.inj h
  | mul =>
    cases hs : c.isUnsigned with
    | true =>
      refine ⟨l * r &&& lowMask (c.bitSize t), by
        simp only [intBinopValue, SourceBinary.op, hunsigned, hs, Option.map_some, hsize],
        masked_of_result ?_ h⟩
      rw [BitVec.setWidth_mul _ _ hle, hl.setWidth, hr.setWidth, ← BitVec.ofInt_mul]
    | false =>
      refine ⟨signExtended (c.bitSize t) l * signExtended (c.bitSize t) r &&&
        lowMask (c.bitSize t), by
          simp only [intBinopValue, SourceBinary.op, hunsigned, hs, Option.map_some, hsize,
            extendIfSigned_of_signed hs], masked_of_result ?_ h⟩
      rw [BitVec.setWidth_mul _ _ hle,
        signExtended_setWidth (c.bitSize_pos t) hle hl.canonical,
        signExtended_setWidth (c.bitSize_pos t) hle hr.canonical, hl.setWidth, hr.setWidth,
        ← BitVec.ofInt_mul]
  | div =>
    simp only [Ctype.binary] at h
    split at h
    · simp at h
    · rename_i hb
      cases hs : c.isUnsigned with
      | true =>
        have ha := hl.toNat_of_unsigned hs
        have hb' := hr.toNat_of_unsigned hs
        refine ⟨l / r &&& lowMask (c.bitSize t), by
          simp only [intBinopValue, SourceBinary.op, hunsigned, hs, Option.map_some, hsize,
            hzero, hb, if_false], masked_of_result ?_ h⟩
        rw [natCast_setWidth, BitVec.toNat_udiv, Int.natCast_ediv, ha, hb',
          Int.tdiv_eq_ediv_of_nonneg (by omega)]
      | false =>
        have hrange := inRange_of_result hs h
        obtain ⟨x, hx, hvalue⟩ := hostDivs_represents hl hr hs hrange
        have hleast : ¬(l = signBit (c.bitSize t) ∧ signExtended (c.bitSize t) r = -1#64) := by
          rintro ⟨hmask, hone⟩
          have ha := hl.eq_least_of_signBit hs hmask
          have hb1 : b = -1 := by
            rw [← hr.toInt_of_signed hs, hone]
            decide
          refine not_inRange_two_pow (t := t) hs (le_refl _) ?_
          rw [ha, hb1, Int.tdiv_neg, Int.tdiv_one, Int.neg_neg] at hrange
          exact hrange
        refine ⟨x &&& lowMask (c.bitSize t), by
          simp only [intBinopValue, SourceBinary.op, hunsigned, hs, hsize, hzero, hb, if_false,
            extendIfSigned_of_signed hs, hleast, hx, Option.map_some], masked_of_result ?_ h⟩
        rw [emod_setWidth hle, hvalue]
  | mod =>
    simp only [Ctype.binary] at h
    split at h
    · simp at h
    · rename_i hb
      split at h
      · rename_i hrange
        have hz := Option.some.inj h
        have hmod := inRange_tmod hl.inRange b
        cases hs : c.isUnsigned with
        | true =>
          have ha := hl.toNat_of_unsigned hs
          have hb' := hr.toNat_of_unsigned hs
          refine ⟨l % r &&& lowMask (c.bitSize t), by
            simp only [intBinopValue, SourceBinary.op, hunsigned, hs, Option.map_some, hsize,
              hzero, hb, if_false], hz ▸ of_toNat ?_ hmod⟩
          rw [BitVec.toNat_umod, Int.natCast_emod, ha, hb', Int.tmod_eq_emod_of_nonneg (by omega)]
        | false =>
          obtain ⟨x, hx, hvalue⟩ := hostMods_represents hl hr hs hrange
          exact ⟨x &&& lowMask (c.bitSize t), by
            simp only [intBinopValue, SourceBinary.op, hunsigned, hs, hsize, hzero, hb, if_false,
              extendIfSigned_of_signed hs, hx, Option.map_some], hz ▸ of_toInt hvalue hmod⟩
      · simp at h
  | leftShift => simp [SourceBinary.op, BinaryOp.isShift] at hop
  | rightShift => simp [SourceBinary.op, BinaryOp.isShift] at hop

/-- A count that C allows is below the size, and is used as it is. -/
theorem shiftCount_represents {d : Ctype} (op : BinaryOp) (conservative : Bool)
    (hr : Represents t d r b) (h : ¬(b < 0 ∨ (c.bitSize t : ℤ) ≤ b)) :
    shiftCount conservative op (c.intType t) r = some r ∧ r.toNat = b.toNat ∧ r.toNat < 64 := by
  have hnat := hr.toNat_of_nonneg (by omega)
  have hle := c.bitSize_le t
  have hlt : ¬(op.isShift = true ∧ (c.intType t).bitSize ≤ r.toNat) := by
    have hsize : (c.intType t).bitSize = c.bitSize t := rfl
    omega
  exact ⟨if_neg hlt, by omega, by omega⟩

/-- The shifts fold to the value of C. -/
theorem shift_represents {d : Ctype} {op : SourceBinary} (hop : op.op.isShift = true)
    (conservative : Bool) (hl : Represents t c l a) (hr : Represents t d r b)
    (h : c.binary t a b op = some z) :
    ∃ v, shiftCount conservative op.op (c.intType t) r = some r ∧
      intBinopValue op.op (c.intType t) l r = some v ∧ Represents t c v z := by
  have hle := c.bitSize_le t
  have hsize : (c.intType t).bitSize = c.bitSize t := rfl
  have hunsigned : (c.intType t).unsigned = c.isUnsigned := rfl
  cases op with
  | leftShift =>
    simp only [Ctype.binary] at h
    split at h
    · simp at h
    · rename_i hb
      obtain ⟨hcount, hnat, h64⟩ := shiftCount_represents .leftShift conservative hr hb
      split at h
      · simp at h
      · refine ⟨l <<< r.toNat &&& lowMask (c.bitSize t), hcount, by
          simp only [intBinopValue, SourceBinary.op, hostShl, h64, if_true, Option.map_some, hsize],
          masked_of_result ?_ h⟩
        have hpow : (BitVec.twoPow 64 r.toNat).toNat = 2 ^ b.toNat := by
          rw [BitVec.toNat_twoPow, hnat, Nat.mod_eq_of_lt]
          exact Nat.pow_lt_pow_right (by omega) (by omega)
        rw [BitVec.shiftLeft_eq_mul_twoPow, BitVec.setWidth_mul _ _ hle, hl.setWidth,
          natCast_setWidth (BitVec.twoPow 64 r.toNat), hpow, ← BitVec.ofInt_mul]
        push_cast
        rfl
  | rightShift =>
    simp only [Ctype.binary] at h
    split at h
    · simp at h
    · rename_i hb
      obtain ⟨hcount, hnat, h64⟩ := shiftCount_represents .rightShift conservative hr hb
      have hz := Option.some.inj h
      have hrange := inRange_ediv hl.inRange b.toNat
      cases hs : c.isUnsigned with
      | true =>
        refine ⟨l >>> r.toNat &&& lowMask (c.bitSize t), hcount, by
          simp only [intBinopValue, SourceBinary.op, hunsigned, hs, hostLsr, h64, if_true,
            Option.map_some, hsize], hz ▸ of_toNat ?_ hrange⟩
        rw [BitVec.toNat_ushiftRight, Nat.shiftRight_eq_div_pow, Int.natCast_ediv,
          hl.toNat_of_unsigned hs, hnat]
        push_cast
        rfl
      | false =>
        refine ⟨(signExtended (c.bitSize t) l).sshiftRight r.toNat &&& lowMask (c.bitSize t),
          hcount, by
            simp only [intBinopValue, SourceBinary.op, hunsigned, hs, hostAsr, h64, if_true,
              Option.map_some, hsize, extendIfSigned_of_signed hs], hz ▸ of_toInt ?_ hrange⟩
        rw [BitVec.toInt_sshiftRight, Int.shiftRight_eq_div_pow, hl.toInt_of_signed hs, hnat]
        push_cast
        rfl
  | _ => simp [SourceBinary.op, BinaryOp.isShift] at hop

/-- The unary operators on a promoted operand fold to the value of C. -/
theorem simplifyPreop_represents {op : UnaryOp} (hop : op ≠ .not) (hl : Represents t c l a)
    (h : c.unary t a op = some z) :
    ∃ v, simplifyPreop t c op l = some v ∧ Represents t c v z := by
  have hle := c.bitSize_le t
  cases op with
  | plus =>
    refine ⟨l &&& lowMask (c.bitSize t), rfl, ?_⟩
    rw [and_lowMask_eq (c.bitSize_pos t) hle hl.canonical, ← Option.some.inj h]
    exact hl
  | minus =>
    have hleast : ¬(l = signBit (c.bitSize t) ∧ c.isUnsigned = false) := by
      rintro ⟨hmask, hs⟩
      have ha := hl.eq_least_of_signBit hs hmask
      refine not_inRange_two_pow (t := t) hs (le_refl _) ?_
      have hrange := inRange_of_result hs h
      rw [ha, Int.neg_neg] at hrange
      exact hrange
    refine ⟨-l &&& lowMask (c.bitSize t), by
      simp only [simplifyPreop, hleast, if_false, Option.map_some], masked_of_result ?_ h⟩
    rw [BitVec.setWidth_neg_of_le hle, hl.setWidth, ← BitVec.ofInt_neg]
  | bitNot =>
    refine ⟨_, rfl, masked_of_result ?_ h⟩
    rw [BitVec.setWidth_not hle, hl.setWidth, BitVec.not_eq_neg_add, Int.sub_eq_add_neg,
      BitVec.ofInt_add, BitVec.ofInt_neg, BitVec.ofInt_neg, BitVec.sub_eq_add_neg]
    rfl
  | not => exact absurd rfl hop

/-- `!` folds to a value of `bool_ctype`. -/
theorem simplifyPreop_not_represents {d : Ctype} (hl : Represents t d l a)
    (h : Ctype.bool.unary t a .not = some z) :
    ∃ v, simplifyPreop t .bool .not l = some v ∧ Represents t .bool v z := by
  have hbool : Represents t .bool (Sparse.boolWord (l == 0#64)) (truth (a = 0)) :=
    boolWord _ _ (by rw [beq_iff_eq, hl.eq_zero_iff])
  refine ⟨Sparse.boolWord (l == 0#64) &&& lowMask (Ctype.bool.bitSize t), rfl, ?_⟩
  rw [and_lowMask_eq (Ctype.bitSize_pos t .bool) (Ctype.bitSize_le t .bool) hbool.canonical,
    ← Option.some.inj h]
  exact hbool

/-! ## Casts -/

/-- `get_longlong` has the low bits of the value at every size. -/
theorem getLonglong_setWidth (h : Represents t c v z) {w : ℕ} (h64 : w ≤ 64) :
    (getLonglong t c v).setWidth w = BitVec.ofInt w z := by
  have hmask : signBit (c.bitSize t) ||| (signBit (c.bitSize t) - 1#64) = lowMask (c.bitSize t) :=
    rfl
  have hlow := and_lowMask_eq (c.bitSize_pos t) (c.bitSize_le t) h.canonical
  simp only [getLonglong, hmask, hlow]
  cases hs : c.isUnsigned with
  | true =>
    rw [Bool.true_or, if_pos rfl, BitVec.or_zero, natCast_setWidth, h.toNat_of_unsigned hs]
  | false =>
    have hext : (v ||| if (false || v &&& signBit (c.bitSize t) == 0#64) = true then 0#64
        else ~~~lowMask (c.bitSize t)) = signExtended (c.bitSize t) v := by
      rw [signExtended, Bool.false_or]
      by_cases hsign : v &&& signBit (c.bitSize t) = 0#64
      · simp [hsign]
      · simp only [beq_iff_eq, hsign, if_false, ne_eq, not_false_eq_true, if_true]
        exact or_not_lowMask (c.bitSize_pos t) (c.bitSize_le t) hsign
    rw [hext, emod_setWidth h64, h.toInt_of_signed hs]

theorem getLonglong_eq_zero_iff (h : Represents t c v z) : getLonglong t c v = 0#64 ↔ z = 0 := by
  have hlow := h.getLonglong_setWidth (le_refl 64)
  rw [BitVec.setWidth_eq] at hlow
  have hrange := h.inRange
  have hle := c.bitSize_le t
  have hpow : (2 : ℤ) ^ c.bitSize t ≤ 2 ^ 64 := by
    exact_mod_cast two_pow_le hle
  have hpow' : (2 : ℤ) ^ (c.bitSize t - 1) ≤ 2 ^ 63 := by
    exact_mod_cast Nat.pow_le_pow_right (by omega) (show c.bitSize t - 1 ≤ 63 by omega)
  rw [hlow]
  constructor
  · intro hz
    have hmod : z % 2 ^ 64 = 0 := by
      have hnat := congrArg BitVec.toNat hz
      rw [BitVec.toNat_ofInt] at hnat
      have hnonneg : 0 ≤ z % ((2 ^ 64 : ℕ) : ℤ) := Int.emod_nonneg _ (by decide)
      have hzero : (0#64).toNat = 0 := rfl
      rw [hzero] at hnat
      push_cast at hnat hnonneg
      omega
    rw [Ctype.InRange] at hrange
    split at hrange <;> omega
  · rintro rfl
    rfl

/-- A cast folds to the converted value. -/
theorem castValue_represents {d : Ctype} (h : Represents t d v z) :
    Represents t c (castValue t c d v) (c.convert t z) := by
  rw [castValue, Ctype.convert]
  split
  · rename_i hsize
    split
    · -- only `_Bool` has one bit
      rename_i hbool
      subst hbool
      obtain rfl := Ctype.bool_of_bitSize hsize
      have hrange := h.inRange
      simp only [Ctype.InRange, Ctype.isUnsigned, if_true, Ctype.bitSize] at hrange
      have hz : (if z = 0 then 0 else 1 : ℤ) = z := by
        split <;> omega
      rw [hz]
      exact h
    · have hcan : Canonical (c.bitSize t) v := hsize ▸ h.canonical
      refine ⟨hcan, ?_⟩
      have hlow : v.setWidth (c.bitSize t) = BitVec.ofInt _ z := hsize ▸ h.setWidth
      rw [hlow]
  · dsimp only
    split
    · rename_i hbool
      subst hbool
      have hz : (if z = 0 then 0 else 1 : ℤ) = truth (z ≠ 0) := by
        by_cases hz : z = 0 <;> simp [truth, hz]
      rw [hz]
      exact boolWord _ _ (by rw [bne_iff_ne, ne_eq, h.getLonglong_eq_zero_iff])
    · exact masked (by rw [h.getLonglong_setWidth (c.bitSize_le t)])

end Represents

end Sparse
