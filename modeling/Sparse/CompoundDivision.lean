import Sparse.CompoundAssignmentAgreement
import Mathlib.Tactic.Ring

/-!
# Divisions in the type of the target

For which types the quotients and remainders computed in the type of `a` are
those computed in the common type.
-/

namespace Sparse

variable {target source common : IntType} {op : SourceBinary} {a b : ℤ}

namespace IntType

variable {c d : IntType} {z : ℤ}

theorem InRange.mono (h : c.InRange z) (hle : c.bitSize ≤ d.bitSize)
    (hsign : d.unsigned = c.unsigned ∨
      (c.unsigned = true ∧ d.unsigned = false ∧ c.bitSize < d.bitSize)) : d.InRange z := by
  have hpow : (2 : ℤ) ^ c.bitSize ≤ 2 ^ d.bitSize := by
    exact_mod_cast Nat.pow_le_pow_right (by omega) hle
  have hpred : (2 : ℤ) ^ (c.bitSize - 1) ≤ 2 ^ (d.bitSize - 1) := by
    exact_mod_cast Nat.pow_le_pow_right (by omega) (Nat.sub_le_sub_right hle 1)
  rcases hsign with hsame | ⟨hc, hd, hlt⟩
  · rw [InRange] at h ⊢
    rw [hsame]
    split_ifs at h ⊢
    all_goals omega
  · have hwide : (2 : ℤ) ^ c.bitSize ≤ 2 ^ (d.bitSize - 1) := by
      exact_mod_cast Nat.pow_le_pow_right (by omega) (by omega)
    rw [InRange, if_pos hc] at h
    rw [InRange, if_neg (by simp [hd])]
    omega

theorem wrap_congr (hsize : c.bitSize = d.bitSize) (hsign : c.unsigned = d.unsigned) (z : ℤ) :
    c.wrap z = d.wrap z := by
  rw [wrap, wrap, hsize, hsign]

theorem wrap_eq_zero_iff : c.wrap z = 0 ↔ (2 ^ c.bitSize : ℤ) ∣ z := by
  rw [Int.dvd_iff_emod_eq_zero, ← wrap_emod]
  constructor
  · intro h
    rw [h, Int.zero_emod]
  · intro h
    have hzero : c.wrap (c.wrap z) = c.wrap 0 := wrap_eq_of_emod (by rw [h, Int.zero_emod])
    rw [wrap_of_inRange (inRange_wrap c z)] at hzero
    rw [hzero, wrap]
    split <;> simp

theorem inRange_zero (c : IntType) : c.InRange 0 := by
  rw [← wrap_eq_zero_iff.2 (dvd_zero (2 ^ c.bitSize : ℤ))]
  exact inRange_wrap c 0

theorem wrap_of_unsigned (hu : c.unsigned = true) (h0 : 0 ≤ z) (h : z < 2 ^ c.bitSize) :
    c.wrap z = z :=
  wrap_of_inRange (by rw [InRange, if_pos hu]; exact ⟨h0, h⟩)

theorem wrap_of_signed (hs : c.unsigned = false) (h : -2 ^ (c.bitSize - 1) ≤ z)
    (h' : z < 2 ^ (c.bitSize - 1)) : c.wrap z = z :=
  wrap_of_inRange (by rw [InRange, if_neg (by simp [hs])]; exact ⟨h, h'⟩)

theorem all_ones_emod (n : ℕ) : ((2 : ℤ) ^ n - 1) % 2 ^ n = -1 % 2 ^ n := by
  rw [show (2 : ℤ) ^ n - 1 = -1 + 2 ^ n by omega, Int.add_emod_right]

/-- All bits set. -/
theorem wrap_neg_one (hu : c.unsigned = true) : c.wrap (-1) = 2 ^ c.bitSize - 1 := by
  have hpos := two_pow_pos c.bitSize
  rw [← wrap_of_unsigned hu (z := 2 ^ c.bitSize - 1) (by omega) (by omega)]
  exact wrap_eq_of_emod (all_ones_emod _).symm

theorem wrap_all_ones (hs : c.unsigned = false) : c.wrap (2 ^ c.bitSize - 1) = -1 := by
  have hpos := two_pow_pos (c.bitSize - 1)
  rw [← wrap_of_signed hs (z := -1) (by omega) (by omega)]
  exact wrap_eq_of_emod (all_ones_emod _)

theorem four_le_two_pow {n : ℕ} (h : 2 ≤ n) : (4 : ℤ) ≤ 2 ^ n := by
  exact_mod_cast Nat.pow_le_pow_right (show 0 < 2 by omega) h

/-- Integers that are closer than the size have different low bits. -/
theorem emod_ne {n : ℕ} (hpos : a < b) (hlt : b - a < 2 ^ n) : a % 2 ^ n ≠ b % 2 ^ n := by
  intro h
  have hdvd : (2 ^ n : ℤ) ∣ b - a :=
    Int.dvd_of_emod_eq_zero (Int.emod_eq_emod_iff_emod_sub_eq_zero.1 h.symm)
  have hle := Int.le_of_dvd (by omega) hdvd
  omega

end IntType

/-! ## Types that keep every quotient -/

theorem quotientKept_of_wrap (hdef : QuotientDefined common a b) (ha : common.wrap a = a)
    (hb : target.wrap b = common.wrap b) : QuotientKept target common op a b where
  ne_zero := by
    rw [hb]
    exact hdef.1
  least := by
    have h := hdef.not_least
    rwa [ha, ← hb] at h
  emod := by rw [ha, hb]

theorem onQuotient_unit {u : ℤ} (hu : u = 1 ∨ u = -1) (a : ℤ) :
    SourceBinary.onQuotient a u .div = a * u ∧ SourceBinary.onQuotient a u .mod = 0 := by
  rcases hu with rfl | rfl
  · simp
  · simp

/-- Division by 1 or -1. -/
theorem quotientKept_of_unit (hop : op = .div ∨ op = .mod) {u v : ℤ}
    (hu : u = 1 ∨ u = -1) (hv : v = 1 ∨ v = -1) (hb : target.wrap b = u)
    (hb' : common.wrap b = v) (hleast : ¬(a = -2 ^ 63 ∧ u = -1))
    (hemod : a * u % 2 ^ target.bitSize = common.wrap a * v % 2 ^ target.bitSize) :
    QuotientKept target common op a b where
  ne_zero := by
    rw [hb]
    rintro rfl
    omega
  least := by rwa [hb]
  emod := by
    rw [hb, hb']
    rcases hop with rfl | rfl
    · rw [(onQuotient_unit hu _).1, (onQuotient_unit hv _).1, hemod]
    · rw [(onQuotient_unit hu _).2, (onQuotient_unit hv _).2]

/-- The types for which no quotient is lost: that of `b` is no wider than that of
`a`, and the conversions to the common type and to that of `a` come to the same,
or all divisors are 1 and -1. -/
def DivisionKept (target source common : IntType) : Prop :=
  source.bitSize ≤ target.bitSize ∧ (target.bitSize = 1 ∨
    if target.unsigned then
      if common.unsigned then source.unsigned = true ∨ common.bitSize = target.bitSize
      else source.unsigned = true ∧
        (target.bitSize < common.bitSize ∨ source.bitSize = 1)
    else common.unsigned = false ∧
      (source.unsigned = false ∨ source.bitSize < target.bitSize ∨
        common.bitSize = target.bitSize))

instance (target source common : IntType) : Decidable (DivisionKept target source common) := by
  unfold DivisionKept
  infer_instance

/-- The values of a type of one bit. -/
theorem IntType.InRange.unit {c : IntType} {z : ℤ} (h : c.InRange z) (hone : c.bitSize = 1)
    (hz : z ≠ 0) : if c.unsigned then z = 1 else z = -1 := by
  rw [IntType.InRange, hone] at h
  split_ifs at h ⊢
  all_goals
    norm_num at h
    omega

theorem IntType.wrap_unit {c : IntType} (hone : c.bitSize = 1) {z : ℤ} (hz : c.wrap z ≠ 0) :
    c.wrap z = 1 ∨ c.wrap z = -1 := by
  have h := (IntType.inRange_wrap c z).unit hone hz
  split_ifs at h
  · exact .inl h
  · exact .inr h

theorem quotientKept (hop : op = .div ∨ op = .mod) (htypes : CommonType target source common)
    (hkept : DivisionKept target source common) (ha : target.InRange a) (hb : source.InRange b)
    (hdef : QuotientDefined common a b) : QuotientKept target common op a b := by
  have hint := htypes.int_le
  have hle := htypes.target_le
  obtain ⟨hwidth, hone | hkept⟩ := hkept
  -- one bit each: all values are 0, 1 and -1, and the two signs have the same bit
  · have hsource : source.bitSize = 1 := by
      have := source.bitSize_pos
      omega
    have hcommon : common.unsigned = false := by
      rw [← Bool.not_eq_true]
      intro hu
      rcases htypes.wide hu with ⟨-, hwide⟩ | hwide <;> omega
    have hzero : b ≠ 0 := by
      rintro rfl
      exact hdef.1 (IntType.wrap_eq_zero_iff.2 (dvd_zero _))
    have hunit : b = 1 ∨ b = -1 := by
      have h := hb.unit hsource hzero
      split_ifs at h
      · exact .inl h
      · exact .inr h
    have hsmall : (4 : ℤ) ≤ 2 ^ (common.bitSize - 1) := IntType.four_le_two_pow (by omega)
    have hwrap : common.wrap b = b :=
      IntType.wrap_of_signed hcommon (by omega) (by omega)
    have hodd : target.wrap b ≠ 0 := by
      rw [Ne, IntType.wrap_eq_zero_iff, hone]
      omega
    refine quotientKept_of_unit hop (IntType.wrap_unit hone hodd) hunit rfl hwrap ?_ ?_
    · have hrange := ha.unit hone
      intro h
      split_ifs at hrange <;> omega
    · have hleft := IntType.emod_of_le hle (IntType.wrap_emod common a)
      rw [hone] at hleft ⊢
      rcases IntType.wrap_unit hone hodd with hu | hu <;> rcases hunit with rfl | rfl <;>
        rw [hu] <;> omega
  split_ifs at hkept with htarget hcommon
  · rcases hkept with hsource | hsize
    · refine quotientKept_of_wrap hdef ?_ ?_
      · exact IntType.wrap_of_inRange (ha.mono hle (.inl (by rw [hcommon, htarget])))
      · rw [IntType.wrap_of_inRange (hb.mono hwidth (.inl (by rw [htarget, hsource]))),
          IntType.wrap_of_inRange (hb.mono htypes.source_le (.inl (by rw [hcommon, hsource])))]
    · have hsame := IntType.wrap_congr hsize.symm (htarget.trans hcommon.symm)
      refine quotientKept_of_wrap hdef ?_ (hsame b)
      rw [← hsame, IntType.wrap_of_inRange ha]
  · rw [Bool.not_eq_true] at hcommon
    obtain ⟨hsource, hlt | hunit⟩ := hkept
    · refine quotientKept_of_wrap hdef ?_ ?_
      · exact IntType.wrap_of_inRange (ha.mono hle (.inr ⟨htarget, hcommon, hlt⟩))
      · rw [IntType.wrap_of_inRange (hb.mono hwidth (.inl (by rw [htarget, hsource]))),
          IntType.wrap_of_inRange (hb.mono htypes.source_le
            (.inr ⟨hsource, hcommon, by omega⟩))]
    -- the only divisor is 1
    · have hzero : b ≠ 0 := by
        rintro rfl
        exact hdef.1 (IntType.wrap_eq_zero_iff.2 (dvd_zero _))
      have hb1 : b = 1 := by
        have h := hb.unit hunit hzero
        rwa [if_pos hsource] at h
      subst hb1
      have hpos := target.two_pow_bitSize
      have hpos' := IntType.two_pow_pos (target.bitSize - 1)
      have hsmall : (4 : ℤ) ≤ 2 ^ (common.bitSize - 1) := IntType.four_le_two_pow (by omega)
      refine quotientKept_of_unit hop (.inl rfl) (.inl rfl)
        (IntType.wrap_of_unsigned htarget (by omega) (by omega))
        (IntType.wrap_of_signed hcommon (by omega) (by omega)) (by omega) ?_
      rw [mul_one, mul_one]
      exact (IntType.emod_of_le hle (IntType.wrap_emod common a)).symm
  · rw [Bool.not_eq_true] at htarget
    obtain ⟨hcommon, hsource | hlt | hsize⟩ := hkept
    · refine quotientKept_of_wrap hdef ?_ ?_
      · exact IntType.wrap_of_inRange (ha.mono hle (.inl (by rw [hcommon, htarget])))
      · rw [IntType.wrap_of_inRange (hb.mono hwidth (.inl (by rw [htarget, hsource]))),
          IntType.wrap_of_inRange (hb.mono htypes.source_le (.inl (by rw [hcommon, hsource])))]
    · refine quotientKept_of_wrap hdef ?_ ?_
      · exact IntType.wrap_of_inRange (ha.mono hle (.inl (by rw [hcommon, htarget])))
      · cases hsource : source.unsigned with
        | true =>
          rw [IntType.wrap_of_inRange (hb.mono hwidth (.inr ⟨hsource, htarget, hlt⟩)),
            IntType.wrap_of_inRange (hb.mono htypes.source_le
              (.inr ⟨hsource, hcommon, by omega⟩))]
        | false =>
          rw [IntType.wrap_of_inRange (hb.mono hwidth (.inl (by rw [htarget, hsource]))),
            IntType.wrap_of_inRange (hb.mono htypes.source_le (.inl (by rw [hcommon, hsource])))]
    · have hsame := IntType.wrap_congr hsize.symm (htarget.trans hcommon.symm)
      refine quotientKept_of_wrap hdef ?_ (hsame b)
      rw [← hsame, IntType.wrap_of_inRange ha]

/-! ## Types that lose a quotient -/

theorem onQuotient_small {a b : ℤ} (h0 : 0 ≤ a) (h : a < b) :
    SourceBinary.onQuotient a b .div = 0 ∧ SourceBinary.onQuotient a b .mod = a :=
  ⟨Int.tdiv_eq_zero_of_lt h0 h, Int.tmod_eq_of_lt h0 h⟩

/-- The values on which quotients are compared. -/
def QuotientsKept (target source common : IntType) (op : SourceBinary) : Prop :=
  ∀ a b, target.InRange a → source.InRange b → a ≠ -2 ^ 63 → QuotientDefined common a b →
    QuotientKept target common op a b

theorem quotientDefined_zero (h : common.wrap b ≠ 0) : QuotientDefined common 0 b := by
  refine ⟨h, ?_⟩
  rw [IntType.wrap_eq_zero_iff.2 (dvd_zero _), Int.zero_tdiv]
  exact common.inRange_zero

/-- A wider divisor may have no bit in the type of the target. -/
theorem QuotientsKept.width (h : QuotientsKept target source common op)
    (htypes : CommonType target source common) : source.bitSize ≤ target.bitSize := by
  by_contra hwide
  rw [Nat.not_le] at hwide
  have hpow : (2 : ℤ) ^ target.bitSize ≤ 2 ^ (source.bitSize - 1) := by
    exact_mod_cast Nat.pow_le_pow_right (by omega) (by omega)
  have hpos := IntType.two_pow_pos target.bitSize
  have hsource := source.two_pow_bitSize
  obtain ⟨b, hb, hlow, hhigh⟩ : ∃ b, source.InRange b ∧ (2 ^ target.bitSize : ℤ) ∣ b ∧
      ¬(2 ^ common.bitSize : ℤ) ∣ b := by
    have hnot : ¬(2 ^ common.bitSize : ℤ) ∣ 2 ^ target.bitSize := by
      intro hdvd
      have hle := Int.le_of_dvd hpos hdvd
      have hlt : (2 : ℤ) ^ target.bitSize < 2 ^ common.bitSize := by
        exact_mod_cast Nat.pow_lt_pow_right (by omega)
          (Nat.lt_of_lt_of_le hwide htypes.source_le)
      omega
    cases hu : source.unsigned with
    | true =>
      refine ⟨2 ^ target.bitSize, ?_, dvd_refl _, hnot⟩
      rw [IntType.InRange, if_pos hu]
      omega
    | false =>
      refine ⟨-2 ^ target.bitSize, ?_, (dvd_refl _).neg_right,
        fun hdvd => hnot (by rwa [dvd_neg] at hdvd)⟩
      rw [IntType.InRange, if_neg (by simp [hu])]
      omega
  refine (h 0 b target.inRange_zero hb (by norm_num) (quotientDefined_zero ?_)).ne_zero
    (IntType.wrap_eq_zero_iff.2 hlow)
  rwa [Ne, IntType.wrap_eq_zero_iff]

theorem all_ones_by_two {n : ℕ} (h : 2 ≤ n) :
    ((2 : ℤ) ^ n - 1).tdiv 2 = 2 * 2 ^ (n - 2) - 1 ∧ ((2 : ℤ) ^ n - 1).tmod 2 = 1 := by
  have hpow : (2 : ℤ) ^ n = 4 * 2 ^ (n - 2) := by
    rw [← Nat.sub_add_cancel h, pow_add, Nat.add_sub_cancel]
    norm_num
    ring
  have hpos := IntType.two_pow_pos (n - 2)
  have hnonneg : (0 : ℤ) ≤ 2 ^ n - 1 := by omega
  rw [Int.tdiv_eq_ediv_of_nonneg hnonneg, Int.tmod_eq_emod_of_nonneg hnonneg]
  omega

/-- An odd number is not congruent to 0. -/
theorem odd_emod_ne {n : ℕ} (hn : 0 < n) (k : ℤ) : (2 * k - 1) % 2 ^ n ≠ 0 % 2 ^ n := by
  intro h
  have hdvd : (2 : ℤ) ∣ 2 ^ n := dvd_pow_self 2 hn.ne'
  have htwo : (2 * k - 1) % 2 = 0 % 2 := by
    rw [← Int.emod_emod_of_dvd _ hdvd, h, Int.emod_emod_of_dvd _ hdvd]
  omega

/-- -1 divided by 2 in a signed type is not all ones divided by 2. -/
theorem half_neg_one_emod {n m : ℕ} (hn : 2 ≤ n) (hm : 2 ≤ m) (hop : op = .div ∨ op = .mod) :
    op.onQuotient (2 ^ n - 1) 2 % 2 ^ m ≠ op.onQuotient (-1) 2 % 2 ^ m := by
  have hlarge := IntType.four_le_two_pow hm
  rcases hop with rfl | rfl
  · rw [SourceBinary.onQuotient_div, SourceBinary.onQuotient_div, (all_ones_by_two hn).1]
    exact odd_emod_ne (by omega) _
  · rw [SourceBinary.onQuotient_mod, SourceBinary.onQuotient_mod, (all_ones_by_two hn).2,
      show Int.tmod (-1) 2 = -1 from rfl]
    exact (IntType.emod_ne (by decide) (by omega)).symm

/-- 1 divided by -1 is not 1 divided by all ones. -/
theorem one_by_neg_one_emod {n : ℕ} (hn : 2 ≤ n) (hop : op = .div ∨ op = .mod) :
    op.onQuotient 1 (2 ^ n - 1) % 2 ^ n ≠ op.onQuotient 1 (-1) % 2 ^ n := by
  have hlarge := IntType.four_le_two_pow hn
  have hsmall : (1 : ℤ) < 2 ^ n - 1 := by omega
  rcases hop with rfl | rfl
  · rw [(onQuotient_small (by decide) hsmall).1, (onQuotient_unit (.inr rfl) 1).1]
    exact (IntType.emod_ne (by decide) (by omega)).symm
  · rw [(onQuotient_small (by decide) hsmall).2, (onQuotient_unit (.inr rfl) 1).2]
    exact (IntType.emod_ne (by decide) (by omega)).symm

section

variable (h : QuotientsKept target source common op) (htypes : CommonType target source common)
  (hop : op = .div ∨ op = .mod)
include h htypes hop

/-- A signed target: -1 divided by 2. -/
theorem QuotientsKept.common_signed (htarget : target.unsigned = false) :
    common.unsigned = false := by
  rw [← Bool.not_eq_true]
  intro hcommon
  have hwidth := h.width htypes
  have hwide : 32 ≤ source.bitSize := by
    rcases htypes.wide hcommon with ⟨hu, -⟩ | hwide
    · exact absurd hu (by simp [htarget])
    · exact hwide
  have hint := htypes.int_le
  have htarget2 : (4 : ℤ) ≤ 2 ^ (target.bitSize - 1) := IntType.four_le_two_pow (by omega)
  have hsource2 : (4 : ℤ) ≤ 2 ^ (source.bitSize - 1) := IntType.four_le_two_pow (by omega)
  have hsource := source.two_pow_bitSize
  have hpow : (4 : ℤ) ≤ 2 ^ common.bitSize := IntType.four_le_two_pow (by omega)
  have ha : target.InRange (-1) := by
    rw [IntType.InRange, if_neg (by simp [htarget])]
    omega
  have hb : source.InRange 2 := by
    rw [IntType.InRange]
    split_ifs <;> omega
  have hleft := IntType.wrap_neg_one hcommon
  have hright : common.wrap 2 = 2 := IntType.wrap_of_unsigned hcommon (by decide) (by omega)
  have hright' : target.wrap 2 = 2 := IntType.wrap_of_signed htarget (by omega) (by omega)
  have hdef : QuotientDefined common (-1) 2 :=
    ⟨by rw [hright]; decide,
      inRange_tdiv hcommon (IntType.inRange_wrap _ _) (IntType.inRange_wrap _ _)⟩
  have hemod := (h (-1) 2 ha hb (by norm_num) hdef).emod
  rw [hleft, hright, hright'] at hemod
  exact half_neg_one_emod (by omega) (by omega) hop hemod.symm

/-- An unsigned target: 1 divided by -1. -/
theorem QuotientsKept.source_unsigned (htarget : target.unsigned = true)
    (hcommon : common.unsigned = false) (hone : target.bitSize ≠ 1) : source.unsigned = true := by
  rw [← Bool.not_eq_false]
  intro hsource
  have hpos := target.bitSize_pos
  have hint := htypes.int_le
  have hlarge : (4 : ℤ) ≤ 2 ^ target.bitSize := IntType.four_le_two_pow (by omega)
  have hlarge' : (4 : ℤ) ≤ 2 ^ (common.bitSize - 1) := IntType.four_le_two_pow (by omega)
  have ha : target.InRange 1 := by
    rw [IntType.InRange, if_pos htarget]
    omega
  have hb : source.InRange (-1) := by
    have hpos' := IntType.two_pow_pos (source.bitSize - 1)
    rw [IntType.InRange, if_neg (by simp [hsource])]
    omega
  have hleft : common.wrap 1 = 1 := IntType.wrap_of_signed hcommon (by omega) (by omega)
  have hright : common.wrap (-1) = -1 := IntType.wrap_of_signed hcommon (by omega) (by omega)
  have hdef : QuotientDefined common 1 (-1) := by
    rw [QuotientDefined, hleft, hright, IntType.InRange, if_neg (by simp [hcommon])]
    exact ⟨by decide, by norm_num; omega⟩
  have hemod := (h 1 (-1) ha hb (by norm_num) hdef).emod
  rw [hleft, hright, IntType.wrap_neg_one htarget] at hemod
  exact one_by_neg_one_emod (by omega) hop hemod

/-- An unsigned target narrower than an unsigned common type: all ones divided by -1. -/
theorem QuotientsKept.common_eq (htarget : target.unsigned = true)
    (hcommon : common.unsigned = true) (hsource : source.unsigned = false) :
    common.bitSize = target.bitSize := by
  by_contra hne
  have hlt : target.bitSize < common.bitSize := by
    have := htypes.target_le
    omega
  have hpos := IntType.two_pow_pos (target.bitSize - 1)
  have htwo := target.two_pow_bitSize
  have hpow : (2 : ℤ) ^ target.bitSize < 2 ^ common.bitSize := by
    exact_mod_cast Nat.pow_lt_pow_right (by omega) hlt
  have ha : target.InRange (2 ^ target.bitSize - 1) := by
    rw [IntType.InRange, if_pos htarget]
    omega
  have hb : source.InRange (-1) := by
    have hpos' := IntType.two_pow_pos (source.bitSize - 1)
    rw [IntType.InRange, if_neg (by simp [hsource])]
    omega
  have hleft : common.wrap (2 ^ target.bitSize - 1) = 2 ^ target.bitSize - 1 :=
    IntType.wrap_of_unsigned hcommon (by omega) (by omega)
  have hright := IntType.wrap_neg_one hcommon
  have hdef : QuotientDefined common (2 ^ target.bitSize - 1) (-1) :=
    ⟨by rw [hright]; omega,
      inRange_tdiv hcommon (IntType.inRange_wrap _ _) (IntType.inRange_wrap _ _)⟩
  have hemod := (h _ (-1) ha hb (by omega) hdef).emod
  rw [hleft, hright, IntType.wrap_neg_one htarget] at hemod
  have hsmall := onQuotient_small (a := 2 ^ target.bitSize - 1) (b := 2 ^ common.bitSize - 1)
    (by omega) (by omega)
  rcases hop with rfl | rfl
  · rw [hsmall.1, SourceBinary.onQuotient_div, Int.tdiv_self (by omega)] at hemod
    exact IntType.emod_ne (by decide) (by omega) hemod.symm
  · rw [hsmall.2, SourceBinary.onQuotient_mod, Int.tmod_self] at hemod
    exact IntType.emod_ne (by omega) (by omega) hemod

/-- A common type of the width of an unsigned target, but signed: all ones divided by 2. -/
theorem QuotientsKept.source_one (htarget : target.unsigned = true)
    (hcommon : common.unsigned = false) (hsource : source.unsigned = true)
    (hsize : target.bitSize = common.bitSize) : source.bitSize = 1 := by
  by_contra hne
  have hpos := source.bitSize_pos
  have hint := htypes.int_le
  have hsource2 : (4 : ℤ) ≤ 2 ^ source.bitSize := IntType.four_le_two_pow (by omega)
  have htarget2 : (4 : ℤ) ≤ 2 ^ target.bitSize := IntType.four_le_two_pow (by omega)
  have hcommon2 : (4 : ℤ) ≤ 2 ^ (common.bitSize - 1) := IntType.four_le_two_pow (by omega)
  have ha : target.InRange (2 ^ target.bitSize - 1) := by
    rw [IntType.InRange, if_pos htarget]
    omega
  have hb : source.InRange 2 := by
    rw [IntType.InRange, if_pos hsource]
    omega
  have hleft : common.wrap (2 ^ target.bitSize - 1) = -1 := by
    rw [hsize]
    exact IntType.wrap_all_ones hcommon
  have hright : common.wrap 2 = 2 := IntType.wrap_of_signed hcommon (by omega) (by omega)
  have hright' : target.wrap 2 = 2 := IntType.wrap_of_unsigned htarget (by decide) (by omega)
  have hdef : QuotientDefined common (2 ^ target.bitSize - 1) 2 := by
    rw [QuotientDefined, hleft, hright]
    exact ⟨by decide, common.inRange_zero⟩
  have hemod := (h _ 2 ha hb (by omega) hdef).emod
  rw [hleft, hright, hright'] at hemod
  exact half_neg_one_emod (by omega) (by omega) hop hemod

/-- A signed target and an unsigned divisor of its width: 1 divided by all ones. -/
theorem QuotientsKept.source_lt (htarget : target.unsigned = false)
    (hcommon : common.unsigned = false) (hsource : source.unsigned = true)
    (hone : target.bitSize ≠ 1) (hsize : common.bitSize ≠ target.bitSize) :
    source.bitSize < target.bitSize := by
  by_contra hnot
  have hwidth : source.bitSize = target.bitSize := by
    have := h.width htypes
    omega
  have hpos := target.bitSize_pos
  have hlt : target.bitSize < common.bitSize := by
    have := htypes.target_le
    omega
  have hlarge : (4 : ℤ) ≤ 2 ^ target.bitSize := IntType.four_le_two_pow (by omega)
  have htwo := target.two_pow_bitSize
  have hpow : (2 : ℤ) ^ target.bitSize ≤ 2 ^ (common.bitSize - 1) := by
    exact_mod_cast Nat.pow_le_pow_right (by omega) (by omega)
  have ha : target.InRange 1 := by
    rw [IntType.InRange, if_neg (by simp [htarget])]
    omega
  have hb : source.InRange (2 ^ target.bitSize - 1) := by
    rw [IntType.InRange, if_pos hsource, hwidth]
    omega
  have hleft : common.wrap 1 = 1 := IntType.wrap_of_signed hcommon (by omega) (by omega)
  have hright : common.wrap (2 ^ target.bitSize - 1) = 2 ^ target.bitSize - 1 :=
    IntType.wrap_of_signed hcommon (by omega) (by omega)
  have hdef : QuotientDefined common 1 (2 ^ target.bitSize - 1) := by
    rw [QuotientDefined, hleft, hright, Int.tdiv_eq_zero_of_lt (by decide) (by omega)]
    exact ⟨by omega, common.inRange_zero⟩
  have hemod := (h 1 _ ha hb (by norm_num) hdef).emod
  rw [hleft, hright, IntType.wrap_all_ones htarget] at hemod
  exact one_by_neg_one_emod (by omega) hop hemod.symm

theorem QuotientsKept.divisionKept : DivisionKept target source common := by
  refine ⟨h.width htypes, ?_⟩
  by_cases hone : target.bitSize = 1
  · exact .inl hone
  refine .inr ?_
  split_ifs with htarget hcommon
  · cases hsource : source.unsigned with
    | true => exact .inl rfl
    | false => exact .inr (h.common_eq htypes hop htarget hcommon hsource)
  · rw [Bool.not_eq_true] at hcommon
    have hsource := h.source_unsigned htypes hop htarget hcommon hone
    refine ⟨hsource, ?_⟩
    rcases Nat.lt_or_eq_of_le htypes.target_le with hlt | hsize
    · exact .inl hlt
    · exact .inr (h.source_one htypes hop htarget hcommon hsource hsize)
  · rw [Bool.not_eq_true] at htarget
    have hcommon := h.common_signed htypes hop htarget
    refine ⟨hcommon, ?_⟩
    cases hsource : source.unsigned with
    | false => exact .inl rfl
    | true =>
      by_cases hsize : common.bitSize = target.bitSize
      · exact .inr (.inr hsize)
      · exact .inr (.inl (h.source_lt htypes hop htarget hcommon hsource hone hsize))

end

end Sparse
