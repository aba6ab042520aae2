import Sparse.CompoundDivision

/-!
# Shifts in the type of the target

The right operand of a compound shift is cast to the type of `a`. The count has
to survive that cast, and to stay clear of the sign bit where the instruction
extends it.
-/

namespace Sparse
open MaskedWords

/-- The result of a shift before it is wrapped. -/
def SourceBinary.onShift (a : ℤ) (n : ℕ) : SourceBinary → ℤ
  | .leftShift => a * 2 ^ n
  | _ => a / 2 ^ n

@[simp] theorem SourceBinary.onShift_leftShift (a : ℤ) (n : ℕ) :
    SourceBinary.onShift a n .leftShift = a * 2 ^ n := rfl

@[simp] theorem SourceBinary.onShift_rightShift (a : ℤ) (n : ℕ) :
    SourceBinary.onShift a n .rightShift = a / 2 ^ n := rfl

section

variable {c : IntType} {l r : BitVec 64} {op : SourceBinary}

theorem insnFold_shift (hop : op = .leftShift ∨ op = .rightShift) (hl : Canonical c.bitSize l)
    (h64 : r.toNat < 64) (h : r.toNat < 2 ^ (c.bitSize - 1)) :
    (FoldedOp.binop op.op).insnFold c l r = some (c.word (op.onShift (c.value l) r.toNat)) := by
  rcases hop with rfl | rfl
  · exact insnFold_leftShift hl h64 h
  · cases hs : c.unsigned with
    | true =>
      have hr : Canonical c.bitSize r :=
        Nat.lt_of_lt_of_le h (Nat.pow_le_pow_right (by omega) (Nat.sub_le _ _))
      exact insnFold_rightShift_unsigned hs hl hr h64
    | false => exact insnFold_rightShift_signed hs h64 h

theorem insnFold_shift_none (hop : op = .leftShift ∨ op = .rightShift ∧ c.unsigned = false)
    (hr : Canonical c.bitSize r) (h : 2 ^ (c.bitSize - 1) ≤ r.toNat) (l : BitVec 64) :
    (FoldedOp.binop op.op).insnFold c l r = none := by
  rcases hop with rfl | ⟨rfl, hs⟩
  · exact insnFold_leftShift_none hr h l
  · exact insnFold_rightShift_none hs hr h l

end

namespace IntegerType

variable {t : Target}

/-- The largest value of the type. -/
def largest (c : IntegerType t) : ℕ :=
  if c.isUnsigned then 2 ^ c.bitSize - 1 else 2 ^ (c.bitSize - 1) - 1

theorem le_largest {c : IntegerType t} {n : ℕ} :
    c.intType.InRange (n : ℤ) ↔ n ≤ c.largest := by
  have hpos := Nat.two_pow_pos c.bitSize
  have hpos' := Nat.two_pow_pos (c.bitSize - 1)
  have hcast := IntType.two_pow_cast c.bitSize
  have hcast' := IntType.two_pow_cast (c.bitSize - 1)
  rw [IntType.InRange, largest]
  change (if c.isUnsigned = true then _ ∧ _ < (2 : ℤ) ^ c.bitSize
    else -(2 : ℤ) ^ (c.bitSize - 1) ≤ _ ∧ _ < (2 : ℤ) ^ (c.bitSize - 1)) ↔ _
  split_ifs
  all_goals omega

end IntegerType

/-- The largest count for which C defines a shift of the promoted target. -/
def largestCount {t : Target} (target source : IntegerType t) : ℕ :=
  min (target.promoted.bitSize t - 1) source.largest

/-- The types for which every count survives the cast, and a right shift fills in
the same bits: an unsigned bit-field as wide as its signed base is promoted to
that base. -/
def ShiftKept {t : Target} (target source : IntegerType t) : SourceBinary → Prop
  | .leftShift => largestCount target source < 2 ^ (target.bitSize - 1)
  | _ =>
    if target.isUnsigned then largestCount target source < 2 ^ target.bitSize ∧
      (target.promoted.isUnsigned = true ∨ target.bitSize < target.promoted.bitSize t ∨
        largestCount target source = 0)
    else largestCount target source < 2 ^ (target.bitSize - 1)

section

variable {t : Target} {target source : IntegerType t} {op : SourceBinary}

theorem operandTypes_shift (hop : op = .leftShift ∨ op = .rightShift) :
    Ctype.operandTypes t op.op target.promoted source.promoted =
      (target.promoted, source.promoted) := by
  have htypes : Ctype.operandTypes t op.op target.promoted source.promoted =
      (target.promoted.promoted t, source.promoted.promoted t) := by
    rcases hop with rfl | rfl <;> rfl
  rw [htypes, target.promoted_promoted, source.promoted_promoted]

/-- A promoted count that is not negative is the count itself. -/
theorem wrap_count {b : ℤ} (hb : source.intType.InRange b)
    (h : 0 ≤ (source.promoted.intType t).wrap b) : (source.promoted.intType t).wrap b = b := by
  have hle : source.intType.bitSize ≤ (source.promoted.intType t).bitSize :=
    source.bitSize_le_promoted
  cases hu : (source.promoted.intType t).unsigned with
  | true =>
    have hs : source.intType.unsigned = true := (IntegerType.of_promoted_unsigned hu).1
    exact IntType.wrap_of_inRange (hb.mono hle (.inl (hu.trans hs.symm)))
  | false =>
    cases hs : source.intType.unsigned with
    | false => exact IntType.wrap_of_inRange (hb.mono hle (.inl (hu.trans hs.symm)))
    | true =>
      rw [IntType.InRange, if_pos hs] at hb
      have hpow : (2 : ℤ) ^ source.intType.bitSize ≤ 2 ^ (source.promoted.intType t).bitSize := by
        exact_mod_cast Nat.pow_le_pow_right (by omega) hle
      have htwo := (source.promoted.intType t).two_pow_bitSize
      rcases Int.lt_or_le b (2 ^ ((source.promoted.intType t).bitSize - 1)) with hlt | hge
      · exact IntType.wrap_of_signed hu (by omega) hlt
      · -- the sign bit is set
        have hneg : (source.promoted.intType t).wrap b =
            b - 2 ^ (source.promoted.intType t).bitSize := by
          rw [← IntType.wrap_of_signed hu
            (z := b - 2 ^ (source.promoted.intType t).bitSize) (by omega) (by omega)]
          refine IntType.wrap_eq_of_emod ?_
          rw [Int.sub_emod_right]
        omega

theorem word_natCast {c : IntType} {n : ℕ} (h : n < 2 ^ c.bitSize) : (c.word n).toNat = n := by
  have hword := IntType.word_toNat c n
  rw [Int.emod_eq_of_lt (Int.natCast_nonneg n) (by exact_mod_cast h)] at hword
  exact Int.ofNat.inj hword

theorem plainAssignment_shift (hop : op = .leftShift ∨ op = .rightShift) {x y : BitVec 64} {n : ℕ}
    (hn : source.intType.value y = n) (hlt : n < target.promoted.bitSize t) :
    ArithmeticType.plainAssignment .register (.integer target) (.integer source) op (.word x) (.word y) =
      some (.word (target.intType.word
        (op.onShift ((target.promoted.intType t).wrap (target.intType.value x)) n))) := by
  have hle : target.promoted.bitSize t ≤ 64 := Ctype.bitSize_le t _
  have hpow : target.promoted.bitSize t - 1 < 2 ^ (target.promoted.bitSize t - 1) :=
    Nat.lt_two_pow_self
  have hint : (2 : ℕ) ^ 32 ≤ 2 ^ (source.promoted.intType t).bitSize :=
    Nat.pow_le_pow_right (by omega) source.le_promoted
  have hcount : ((source.promoted.intType t).word n).toNat = n := word_natCast (by omega)
  have hvalue := IntType.value_word (target.promoted.intType t)
  have hwidth : target.intType.bitSize ≤ (target.promoted.intType t).bitSize :=
    target.bitSize_le_promoted
  rw [plainAssignment_integer (operandTypes_shift hop), hn]
  rw [insnFold_shift hop (IntType.canonical_word _ _) (by rw [hcount]; omega)
    (by rw [hcount]; exact Nat.lt_of_le_of_lt (by omega) hpow), hcount, Option.map_some, hvalue,
    hvalue, IntType.word_wrap hwidth]

theorem compoundAssignment_shift (hop : op = .leftShift ∨ op = .rightShift) {x y : BitVec 64}
    {n : ℕ} (hx : Canonical target.bitSize x) (hn : source.intType.value y = n) (h64 : n < 64)
    (hlt : n < 2 ^ (target.bitSize - 1) ∨
      op = .rightShift ∧ target.isUnsigned = true ∧ n < 2 ^ target.bitSize) :
    ArithmeticType.compoundAssignment .register (.integer target) (.integer source) op (.word x) (.word y) =
      some (.word (target.intType.word (op.onShift (target.intType.value x) n))) := by
  have hpow : 2 ^ (target.bitSize - 1) ≤ 2 ^ target.bitSize :=
    Nat.pow_le_pow_right (by omega) (Nat.sub_le _ _)
  have hsize : n < 2 ^ target.intType.bitSize := by
    rcases hlt with hlt | ⟨-, -, hlt⟩
    · exact Nat.lt_of_lt_of_le hlt hpow
    · exact hlt
  have hcount : (target.intType.word n).toNat = n := word_natCast hsize
  have hfold : (FoldedOp.binop op.op).insnFold target.intType x (target.intType.word n) =
      some (target.intType.word (op.onShift (target.intType.value x) n)) := by
    rcases hlt with hlt | ⟨rfl, hu, -⟩
    · rw [insnFold_shift hop hx (by rw [hcount]; exact h64) (by rw [hcount]; exact hlt), hcount]
    · have hright := insnFold_rightShift_unsigned hu hx
        (IntType.canonical_word target.intType n) (by rw [hcount]; exact h64)
      rw [hcount] at hright
      exact hright
  rw [compoundAssignment_integer hx, hn, hfold, Option.map_some, IntType.value_word,
    IntType.word_wrap (le_refl _)]

/-! ## Types that keep every count -/

/-- C defines a shift only by a count below the width of the promoted target. -/
theorem count_of_binary_isSome (hop : op = .leftShift ∨ op = .rightShift) {c : Ctype} {a b : ℤ}
    (h : (c.binary t a b op).isSome = true) : 0 ≤ b ∧ b < c.bitSize t := by
  have hcount : ¬(b < 0 ∨ (c.bitSize t : ℤ) ≤ b) := by
    intro hcount
    rcases hop with rfl | rfl
    all_goals
      rw [Ctype.binary, if_pos hcount] at h
      exact absurd h Bool.false_ne_true
  omega

theorem onShift_emod {w n : ℕ} {a a' : ℤ} (h : a % 2 ^ w = a' % 2 ^ w) :
    SourceBinary.onShift a n .leftShift % 2 ^ w =
      SourceBinary.onShift a' n .leftShift % 2 ^ w := by
  rw [SourceBinary.onShift_leftShift, SourceBinary.onShift_leftShift, Int.mul_emod, h,
    ← Int.mul_emod]

theorem wrap_promoted {a : ℤ} (ha : target.intType.InRange a)
    (h : target.isUnsigned = true →
      target.promoted.isUnsigned = true ∨ target.bitSize < target.promoted.bitSize t) :
    (target.promoted.intType t).wrap a = a := by
  have hle : target.intType.bitSize ≤ (target.promoted.intType t).bitSize :=
    target.bitSize_le_promoted
  refine IntType.wrap_of_inRange (ha.mono hle ?_)
  cases hp : target.promoted.isUnsigned with
  | true =>
    exact .inl (Eq.trans hp (IntegerType.of_promoted_unsigned hp).1.symm)
  | false =>
    cases hu : target.isUnsigned with
    | false => exact .inl (Eq.trans hp hu.symm)
    | true =>
      rcases h hu with h | h
      · exact absurd (hp.symm.trans h) Bool.false_ne_true
      · exact .inr ⟨hu, hp, h⟩

/-- The counts by which C defines the shift of a promoted target. -/
theorem count_of_defined (hop : op = .leftShift ∨ op = .rightShift) {x y : BitVec 64}
    (hy : Canonical source.bitSize y)
    (hdef : AssignmentDefined target op (.integer source) (.word x) (.word y)) :
    ∃ n : ℕ, source.intType.value y = n ∧ n < target.promoted.bitSize t := by
  have hb := IntType.inRange_value (c := source.intType) hy
  simp only [AssignmentDefined, operandTypes_shift hop] at hdef
  have hcount := count_of_binary_isSome hop hdef
  rw [Ctype.convert_eq_wrap source.promoted_ne_bool] at hcount
  rw [wrap_count hb hcount.1] at hcount
  obtain ⟨n, hn⟩ := Int.eq_ofNat_of_zero_le hcount.1
  exact ⟨n, hn, by omega⟩

theorem assignmentsAgree_shift (hop : op = .leftShift ∨ op = .rightShift)
    (hkept : ShiftKept target source op) : AssignmentsAgree .register target (.integer source) op := by
  intro oldvalue value hold hvalue hdef
  cases oldvalue with
  | real q => exact hold.elim
  | word x =>
    cases value with
    | real q => exact hvalue.elim
    | word y =>
      have ha := IntType.inRange_value (c := target.intType) hold
      have hb := IntType.inRange_value (c := source.intType) hvalue
      obtain ⟨n, hn, hlt⟩ := count_of_defined hop hvalue hdef
      rw [hn] at hb
      have h64 : n < 64 := Nat.lt_of_lt_of_le hlt (Ctype.bitSize_le t _)
      have hlargest : n ≤ largestCount target source :=
        Nat.le_min.2 ⟨by omega, IntegerType.le_largest.1 hb⟩
      have hwidth : target.intType.bitSize ≤ (target.promoted.intType t).bitSize :=
        target.bitSize_le_promoted
      have hlow := IntType.emod_of_le hwidth
        (IntType.wrap_emod (target.promoted.intType t) (target.intType.value x))
      rw [plainAssignment_shift hop hn hlt]
      rcases hop with rfl | rfl
      · rw [compoundAssignment_shift (.inl rfl) hold hn h64
          (.inl (Nat.lt_of_le_of_lt hlargest hkept))]
        exact congrArg (fun w => some (PseudoValue.word w))
          (IntType.word_eq_iff.2 (onShift_emod hlow).symm)
      · change if _ then _ else _ at hkept
        split_ifs at hkept with hu
        · rw [compoundAssignment_shift (.inr rfl) hold hn h64
            (.inr ⟨rfl, hu, Nat.lt_of_le_of_lt hlargest hkept.1⟩)]
          refine congrArg (fun w => some (PseudoValue.word w)) ?_
          obtain ⟨-, hp | hlt' | hzero⟩ := hkept
          · rw [wrap_promoted ha fun _ => .inl hp]
          · rw [wrap_promoted ha fun _ => .inr hlt']
          · -- the only count is 0
            have hn0 : n = 0 := by omega
            subst hn0
            rw [IntType.word_eq_iff, SourceBinary.onShift_rightShift,
              SourceBinary.onShift_rightShift, pow_zero, Int.ediv_one, Int.ediv_one, hlow]
        · rw [compoundAssignment_shift (.inr rfl) hold hn h64
            (.inl (Nat.lt_of_le_of_lt hlargest hkept)), wrap_promoted ha fun h => absurd h hu]

/-! ## Types that lose a count -/

theorem assignmentDefined_shift (hop : op = .leftShift ∨ op = .rightShift) {a : ℤ} {n : ℕ}
    (ha : target.intType.InRange a) (hn : source.intType.InRange (n : ℤ))
    (hlt : n < target.promoted.bitSize t)
    (hdef : (target.promoted.binary t ((target.promoted.intType t).wrap a) n op).isSome = true) :
    AssignmentDefined target op (.integer source) (.word (target.intType.word a))
      (.word (source.intType.word n)) := by
  have hle : target.promoted.bitSize t ≤ 64 := Ctype.bitSize_le t _
  have hint : (2 : ℕ) ^ 31 ≤ 2 ^ ((source.promoted.intType t).bitSize - 1) :=
    Nat.pow_le_pow_right (by omega) (Nat.sub_le_sub_right source.le_promoted 1)
  have hcast := IntType.two_pow_cast ((source.promoted.intType t).bitSize - 1)
  have htwo := (source.promoted.intType t).two_pow_bitSize
  have hcount : (source.promoted.intType t).wrap n = n := by
    refine IntType.wrap_of_inRange ?_
    rw [IntType.InRange]
    split_ifs <;> omega
  simp only [AssignmentDefined, operandTypes_shift hop]
  rw [IntType.word_value_of_inRange ha, IntType.word_value_of_inRange hn,
    Ctype.convert_eq_wrap source.promoted_ne_bool, hcount,
    Ctype.convert_eq_wrap target.promoted_ne_bool]
  exact hdef

/-- Where the two forms agree, the compound one has the value of the plain one. -/
theorem compound_of_agree (hop : op = .leftShift ∨ op = .rightShift)
    (h : AssignmentsAgree .register target (.integer source) op) {a : ℤ} {n : ℕ}
    (ha : target.intType.InRange a) (hn : source.intType.InRange (n : ℤ))
    (hlt : n < target.promoted.bitSize t)
    (hdef : (target.promoted.binary t ((target.promoted.intType t).wrap a) n op).isSome = true) :
    ArithmeticType.compoundAssignment .register (.integer target) (.integer source) op
        (.word (target.intType.word a)) (.word (source.intType.word n)) =
      some (.word (target.intType.word
        (op.onShift ((target.promoted.intType t).wrap a) n))) := by
  have hagree := h (.word (target.intType.word a)) (.word (source.intType.word n))
    (IntType.canonical_word _ _) (IntType.canonical_word _ _)
    (assignmentDefined_shift hop ha hn hlt hdef)
  rw [plainAssignment_shift hop (IntType.word_value_of_inRange hn) hlt,
    IntType.word_value_of_inRange ha] at hagree
  exact hagree

theorem binary_zero_isSome (hop : op = .leftShift ∨ op = .rightShift) {c : Ctype} {n : ℕ}
    (hlt : n < c.bitSize t) : (c.binary t 0 n op).isSome = true := by
  have hcount : ¬((n : ℤ) < 0 ∨ (c.bitSize t : ℤ) ≤ n) := by omega
  rcases hop with rfl | rfl
  · rw [Ctype.binary, if_neg hcount, if_neg (by simp), result_isSome, zero_mul]
    exact .inr (IntType.inRange_zero (c.intType t))
  · rw [Ctype.binary, if_neg hcount]
    rfl

/-- A count with the sign bit of the target set is extended to a negative one. -/
theorem largestCount_lt_sign
    (hop : op = .leftShift ∨ op = .rightShift ∧ target.isUnsigned = false)
    (h : AssignmentsAgree .register target (.integer source) op) :
    largestCount target source < 2 ^ (target.bitSize - 1) := by
  by_contra hnot
  have hop' : op = .leftShift ∨ op = .rightShift := hop.imp_right And.left
  have hpos := target.bitSize_pos
  have hcount := Nat.le_min.1 (Nat.not_lt.1 hnot)
  have hpromoted := target.le_promoted
  have hlt : 2 ^ (target.bitSize - 1) < target.promoted.bitSize t := by omega
  have hn := IntegerType.le_largest.2 hcount.2
  have hzero : (target.promoted.intType t).wrap 0 = 0 :=
    IntType.wrap_of_inRange (IntType.inRange_zero _)
  have hcompound := compound_of_agree hop' h (IntType.inRange_zero _) hn hlt
    (by rw [hzero]; exact binary_zero_isSome hop' hlt)
  have hword : (target.intType.word ((2 ^ (target.bitSize - 1) : ℕ) : ℤ)).toNat =
      2 ^ (target.bitSize - 1) :=
    word_natCast (Nat.pow_lt_pow_right (by omega) (by exact Nat.sub_lt hpos (by omega)))
  have hnone := insnFold_shift_none (c := target.intType) hop (IntType.canonical_word _ _)
    (Nat.le_of_eq hword.symm) (target.intType.word 0)
  rw [compoundAssignment_integer (IntType.canonical_word _ _), IntType.word_value_of_inRange hn,
    hnone] at hcompound
  exact nomatch hcompound

/-- A count may have no bit in an unsigned target: 1 is then not shifted at all. -/
theorem largestCount_lt_size (hu : target.isUnsigned = true)
    (h : AssignmentsAgree .register target (.integer source) .rightShift) :
    largestCount target source < 2 ^ target.bitSize := by
  by_contra hnot
  have hpos := target.bitSize_pos
  have hcount := Nat.le_min.1 (Nat.not_lt.1 hnot)
  have hpromoted := target.le_promoted
  have hlt : 2 ^ target.bitSize < target.promoted.bitSize t := by omega
  have hself : target.bitSize < 2 ^ target.bitSize := Nat.lt_two_pow_self
  have hn := IntegerType.le_largest.2 hcount.2
  have hone : target.intType.InRange 1 := by
    have htwo := target.intType.two_pow_bitSize
    have hpos' := IntType.two_pow_pos (target.intType.bitSize - 1)
    rw [IntType.InRange, if_pos (show target.intType.unsigned = true from hu)]
    omega
  have hwrap : (target.promoted.intType t).wrap 1 = 1 :=
    wrap_promoted hone fun _ => .inr (by omega)
  have hcompound := compound_of_agree (.inr rfl) h hone hn hlt
    (by rw [Ctype.binary, if_neg (by omega)]; rfl)
  have hword : target.intType.word ((2 ^ target.bitSize : ℕ) : ℤ) = 0#64 := by
    rw [IntType.word_eq_zero_iff, IntType.wrap_eq_zero_iff, IntType.two_pow_cast]
    exact dvd_refl _
  have hright := insnFold_rightShift_unsigned (c := target.intType) (r := 0#64) hu
    (IntType.canonical_word target.intType 1) (Nat.two_pow_pos _) (by decide)
  rw [compoundAssignment_integer (IntType.canonical_word _ _), IntType.word_value_of_inRange hn,
    hword] at hcompound
  rw [show (FoldedOp.binop SourceBinary.rightShift.op).insnFold target.intType
    (target.intType.word 1) 0#64 = _ from hright, Option.map_some, hwrap] at hcompound
  have hbits := IntType.word_eq_iff.1 (PseudoValue.word.inj (Option.some.inj hcompound))
  have hbig : (1 : ℤ) < 2 ^ 2 ^ target.bitSize := by
    exact_mod_cast Nat.one_lt_two_pow (Nat.two_pow_pos _).ne'
  have hlarge : (1 : ℤ) < 2 ^ target.intType.bitSize := by
    exact_mod_cast Nat.one_lt_two_pow (show target.intType.bitSize ≠ 0 from hpos.ne')
  have hstay : (1 : ℤ) / 2 ^ (0#64).toNat = 1 := by decide
  rw [IntType.value_word, IntType.wrap_emod, IntType.word_value_of_inRange hone, hstay,
    SourceBinary.onShift_rightShift, Int.ediv_eq_zero_of_lt (by decide) hbig] at hbits
  exact IntType.emod_ne (n := target.intType.bitSize) (by decide) (by omega) hbits.symm

/-- Shifted by 1, all ones are -1 again in a signed common type only. -/
theorem promoted_of_agree (hu : target.isUnsigned = true)
    (h : AssignmentsAgree .register target (.integer source) .rightShift) :
    target.promoted.isUnsigned = true ∨ target.bitSize < target.promoted.bitSize t ∨
      largestCount target source = 0 := by
  by_contra hnot
  simp only [not_or, Bool.not_eq_true] at hnot
  obtain ⟨hp, hwidth, hcount⟩ := hnot
  have hpromoted := target.le_promoted
  have hsize : target.intType.bitSize = (target.promoted.intType t).bitSize :=
    Nat.le_antisymm target.bitSize_le_promoted (Nat.not_lt.1 hwidth)
  have hint : 32 ≤ target.intType.bitSize := hsize ▸ hpromoted
  have hcount' := Nat.le_min.1 (show 1 ≤ largestCount target source by omega)
  have hlt : 1 < target.promoted.bitSize t := by omega
  have hn : source.intType.InRange ((1 : ℕ) : ℤ) := IntegerType.le_largest.2 hcount'.2
  have htwo := target.intType.two_pow_bitSize
  have hlarge : (4 : ℤ) ≤ 2 ^ (target.intType.bitSize - 1) := IntType.four_le_two_pow (by omega)
  have ha : target.intType.InRange (2 ^ target.intType.bitSize - 1) := by
    rw [IntType.InRange, if_pos (show target.intType.unsigned = true from hu)]
    omega
  have hwrap : (target.promoted.intType t).wrap (2 ^ target.intType.bitSize - 1) = -1 := by
    rw [hsize]
    exact IntType.wrap_all_ones hp
  have hcompound := compound_of_agree (.inr rfl) h ha hn hlt
    (by rw [Ctype.binary, if_neg (by omega)]; rfl)
  have hsmall : 1 < 2 ^ (target.bitSize - 1) :=
    Nat.one_lt_two_pow (show target.intType.bitSize - 1 ≠ 0 by omega)
  rw [compoundAssignment_shift (.inr rfl) (IntType.canonical_word target.intType _)
    (IntType.word_value_of_inRange hn) (by decide) (.inl hsmall), hwrap] at hcompound
  have hbits := IntType.word_eq_iff.1 (PseudoValue.word.inj (Option.some.inj hcompound))
  rw [IntType.word_value_of_inRange ha, SourceBinary.onShift_rightShift,
    SourceBinary.onShift_rightShift, pow_one] at hbits
  refine IntType.emod_ne (n := target.intType.bitSize) ?_ ?_ hbits.symm
  · omega
  · omega

theorem shiftKept_of_agree (hop : op = .leftShift ∨ op = .rightShift)
    (h : AssignmentsAgree .register target (.integer source) op) : ShiftKept target source op := by
  rcases hop with rfl | rfl
  · exact largestCount_lt_sign (.inl rfl) h
  · change if _ then _ else _
    split_ifs with hu
    · exact ⟨largestCount_lt_size hu h, promoted_of_agree hu h⟩
    · exact largestCount_lt_sign (.inr ⟨rfl, Bool.eq_false_iff.2 hu⟩) h

end

end Sparse
