import Sparse.CompoundAssignmentValues

/-!
# Where compound and plain assignment agree

The common type of `evaluate_binop` is compared with the type of `a`, in which
`linearize_assignment` computes `a op= b`. Low bits do not tell them apart;
quotients and shift counts do.
-/

namespace Sparse
open MaskedWords

/-! ## Promotion -/

namespace Ctype

variable {t : Target} {c l r : Ctype} {z : ℤ}

/-- The conversion of a type other than `_Bool` wraps. -/
theorem convert_eq_wrap (hc : c ≠ bool) (z : ℤ) : c.convert t z = (c.intType t).wrap z := by
  rw [convert, if_neg hc, ofBits, IntType.wrap]
  split
  · rename_i hu
    rw [if_pos (show (c.intType t).unsigned = true from hu), BitVec.toNat_ofInt,
      IntType.two_pow_cast]
    exact Int.toNat_of_nonneg (Int.emod_nonneg _ (IntType.two_pow_pos _).ne')
  · rename_i hu
    rw [if_neg (show ¬(c.intType t).unsigned = true from hu), BitVec.toInt_ofInt]
    rfl

theorem bigger_eq (t : Target) (l r : Ctype) :
    l.bigger t r = l.promoted t ∨ l.bigger t r = r.promoted t := by
  simp only [bigger]
  split_ifs <;> simp

/-- The common type is as wide as either operand. -/
theorem le_bigger (t : Target) (l r : Ctype) :
    (l.promoted t).bitSize t ≤ (l.bigger t r).bitSize t ∧
      (r.promoted t).bitSize t ≤ (l.bigger t r).bitSize t := by
  simp only [bigger]
  generalize l.promoted t = l'
  generalize r.promoted t = r'
  split_ifs with heq
  · exact ⟨le_refl _, heq ▸ le_refl _⟩
  all_goals omega

theorem isCharOrShort_bitSize (h : c.isCharOrShort = true) : c.bitSize t ≤ 16 := by
  cases c with
  | bool => exact absurd h Bool.false_ne_true
  | integer rank sign =>
    cases rank with
    | char => exact show 8 ≤ 16 by decide
    | short => exact le_refl 16
    | int | long | longLong => exact absurd h Bool.false_ne_true

end Ctype

namespace IntegerType

variable {t : Target}

/-- A type of less than 32 bits is promoted to `int`, any other keeps its type,
or that of the base. -/
theorem promoted_cases (c : IntegerType t) :
    (c.bitSize < 32 ∧ c.promoted = .int) ∨
      (32 ≤ c.bitSize ∧ ∃ base : Ctype, c.promoted = base ∧ c.bitSize ≤ base.bitSize t ∧
        base.isCharOrShort = false ∧ (base.isUnsigned = true → c.isUnsigned = true)) := by
  cases c with
  | ctype c =>
    by_cases hsize : c.bitSize t < 32
    · exact .inl ⟨hsize, if_pos hsize⟩
    · have hshort : ¬c.isCharOrShort = true := fun h =>
        hsize (Nat.lt_of_le_of_lt (Ctype.isCharOrShort_bitSize h) (by omega))
      refine .inr ⟨Nat.not_lt.1 hsize, c, ?_, le_refl _, Bool.eq_false_iff.2 hshort, id⟩
      rw [promoted, Ctype.promoted, if_neg hsize, if_neg hshort]
  | bitField base width pos le =>
    by_cases hsize : width < 32
    · exact .inl ⟨hsize, if_pos hsize⟩
    · have hshort : ¬base.isCharOrShort = true := fun h => by
        have := Nat.le_trans le (Ctype.isCharOrShort_bitSize h)
        omega
      refine .inr ⟨Nat.not_lt.1 hsize, base, ?_, le, Bool.eq_false_iff.2 hshort, ?_⟩
      · rw [promoted, if_neg hsize, if_neg hshort]
      · intro hu
        cases base with
        | bool => rfl
        | integer rank sign =>
          cases sign with
          | explicitlySigned => exact absurd hu Bool.false_ne_true
          | signed | unsigned => rfl

theorem promoted_promoted (c : IntegerType t) : c.promoted.promoted t = c.promoted := by
  obtain ⟨-, h⟩ | ⟨hwide, base, h, hle, hshort, -⟩ := c.promoted_cases
  · rw [h]
    rfl
  · rw [h, Ctype.promoted, if_neg (by omega), if_neg (by simp [hshort])]

theorem bitSize_le_promoted (c : IntegerType t) : c.bitSize ≤ c.promoted.bitSize t := by
  obtain ⟨hnarrow, h⟩ | ⟨-, base, h, hle, -, -⟩ := c.promoted_cases
  · rw [h]
    exact Nat.le_of_lt hnarrow
  · rwa [h]

theorem le_promoted (c : IntegerType t) : 32 ≤ c.promoted.bitSize t := by
  obtain ⟨-, h⟩ | ⟨hwide, base, h, hle, -, -⟩ := c.promoted_cases
  · rw [h]
    exact le_refl 32
  · rw [h]
    exact Nat.le_trans hwide hle

theorem promoted_ne_bool (c : IntegerType t) : c.promoted ≠ .bool := by
  intro h
  have hle := c.le_promoted
  rw [h] at hle
  exact absurd hle (show ¬32 ≤ 1 by decide)

/-- Only unsigned types of at least 32 bits have an unsigned promoted type. -/
theorem of_promoted_unsigned {c : IntegerType t} (h : c.promoted.isUnsigned = true) :
    c.isUnsigned = true ∧ 32 ≤ c.bitSize := by
  obtain ⟨-, hint⟩ | ⟨hwide, base, hbase, -, -, hu⟩ := c.promoted_cases
  · rw [hint] at h
    exact absurd h Bool.false_ne_true
  · exact ⟨hu (hbase ▸ h), hwide⟩

end IntegerType

/-! ## The common type -/

/-- The type of `a`, that of `b` and the type in which `a op b` is computed. -/
structure CommonType (target source common : IntType) : Prop where
  target_le : target.bitSize ≤ common.bitSize
  source_le : source.bitSize ≤ common.bitSize
  int_le : 32 ≤ common.bitSize
  wide : common.unsigned = true →
    (target.unsigned = true ∧ 32 ≤ target.bitSize) ∨ 32 ≤ source.bitSize

theorem bigger_ne_bool {t : Target} (target source : IntegerType t) :
    target.promoted.bigger t source.promoted ≠ .bool := by
  have heq := Ctype.bigger_eq t target.promoted source.promoted
  rw [target.promoted_promoted, source.promoted_promoted] at heq
  rcases heq with heq | heq
  · rw [heq]
    exact target.promoted_ne_bool
  · rw [heq]
    exact source.promoted_ne_bool

theorem commonType_bigger {t : Target} (target source : IntegerType t) :
    CommonType target.intType source.intType
      ((target.promoted.bigger t source.promoted).intType t) := by
  have hle := Ctype.le_bigger t target.promoted source.promoted
  rw [target.promoted_promoted, source.promoted_promoted] at hle
  refine ⟨Nat.le_trans target.bitSize_le_promoted hle.1,
    Nat.le_trans source.bitSize_le_promoted hle.2, Nat.le_trans target.le_promoted hle.1,
    fun hcommon => ?_⟩
  have heq := Ctype.bigger_eq t target.promoted source.promoted
  rw [target.promoted_promoted, source.promoted_promoted] at heq
  rcases heq with heq | heq
  · have hu : target.promoted.isUnsigned = true := heq ▸ hcommon
    exact .inl (IntegerType.of_promoted_unsigned hu)
  · have hu : source.promoted.isUnsigned = true := heq ▸ hcommon
    exact .inr (IntegerType.of_promoted_unsigned hu).2

/-! ## The two forms on integers -/

namespace IntType

variable {c d : IntType} {a b z : ℤ}

theorem emod_of_le (h : c.bitSize ≤ d.bitSize) (hab : a % 2 ^ d.bitSize = b % 2 ^ d.bitSize) :
    a % 2 ^ c.bitSize = b % 2 ^ c.bitSize := by
  have hdvd : (2 ^ c.bitSize : ℤ) ∣ 2 ^ d.bitSize := pow_dvd_pow 2 h
  rw [← Int.emod_emod_of_dvd _ hdvd, hab, Int.emod_emod_of_dvd _ hdvd]

/-- Wrapping to a wider type first changes nothing. -/
theorem word_wrap (h : c.bitSize ≤ d.bitSize) (z : ℤ) : c.word (d.wrap z) = c.word z :=
  word_eq_iff.2 (emod_of_le h (wrap_emod d z))

theorem eq_of_setWidth {x y : BitVec 64} (hx : Canonical c.bitSize x)
    (hy : Canonical c.bitSize y) (h : x.setWidth c.bitSize = y.setWidth c.bitSize) : x = y := by
  rw [← and_lowMask_eq c.bitSize_pos c.bitSize_le hx, ← and_lowMask_eq c.bitSize_pos c.bitSize_le hy,
    and_lowMask_inj c.bitSize_pos c.bitSize_le]
  exact h

/-- The low bits of a word of a wider type are those of its value. -/
theorem setWidth_of_le {x : BitVec 64} (h : c.bitSize ≤ d.bitSize) (hx : Canonical d.bitSize x) :
    x.setWidth c.bitSize = BitVec.ofInt c.bitSize (d.value x) := by
  rw [← word_setWidth d (d.value x) h, word_value hx]

theorem word_eq_zero_iff : c.word z = 0#64 ↔ c.wrap z = 0 := by
  rw [← value_word]
  exact (value_eq_zero_iff (canonical_word c z)).symm

end IntType

section

variable {t : Target} {target source : IntegerType t} {op : SourceBinary} {a b : ℤ}

theorem castPseudo_integer (old new : IntegerType t) (v : BitVec 64) :
    ArithmeticType.castPseudo (.integer old) (.integer new) (.word v) =
      some (.word (new.intType.word (old.intType.value v))) :=
  congrArg (fun w => some (PseudoValue.word w)) (IntType.castWord_eq old.intType new.intType v)

theorem bind_castPseudo (old new : IntegerType t) (o : Option (BitVec 64)) :
    (o.map PseudoValue.word).bind (ArithmeticType.castPseudo (.integer old) (.integer new)) =
      o.map fun v => .word (new.intType.word (old.intType.value v)) := by
  cases o with
  | none => rfl
  | some v => exact castPseudo_integer old new v

theorem plainAssignment_integer {types : Ctype × Ctype}
    (htypes : Ctype.operandTypes t op.op target.promoted source.promoted = types)
    (x y : BitVec 64) :
    ArithmeticType.plainAssignment .register (.integer target) (.integer source) op (.word x) (.word y) =
      ((FoldedOp.binop op.op).insnFold (types.1.intType t)
        ((types.1.intType t).word (target.intType.value x))
        ((types.2.intType t).word (source.intType.value y))).map
          fun v => .word (target.intType.word ((types.1.intType t).value v)) := by
  subst htypes
  simp only [ArithmeticType.plainAssignment, ArithmeticType.operandTypes,
    ArithmeticType.castOperand, castPseudo_integer,
    Option.bind_eq_bind, Option.bind_some, ArithmeticType.addBinaryOp]
  exact bind_castPseudo _ target _

theorem compoundAssignment_integer {x : BitVec 64} (hx : Canonical target.bitSize x)
    (y : BitVec 64) :
    ArithmeticType.compoundAssignment .register (.integer target) (.integer source) op (.word x) (.word y) =
      ((FoldedOp.binop op.op).insnFold target.intType x
        (target.intType.word (source.intType.value y))).map
          fun v => .word (target.intType.word (target.intType.value v)) := by
  have hself : target.intType.word (target.intType.value x) = x := IntType.word_value hx
  simp only [ArithmeticType.compoundAssignment, ArithmeticType.castOperand, castPseudo_integer,
    Option.bind_eq_bind, Option.bind_some, ArithmeticType.addBinaryOp, hself]
  exact bind_castPseudo target target _

/-! ## Sums, products and bitwise operators -/

/-- They agree for all types: the bits that are stored depend on no others. -/
theorem assignmentsAgree_modular (hop : op.isModular = true) :
    AssignmentsAgree .register target (.integer source) op := by
  intro oldvalue value hold hvalue _
  cases oldvalue with
  | real q => exact hold.elim
  | word x =>
    cases value with
    | real q => exact hvalue.elim
    | word y =>
      have hshift : op.op.isShift = false := by
        cases op <;> first | rfl | exact absurd hop Bool.false_ne_true
      have htypes : Ctype.operandTypes t op.op target.promoted source.promoted =
          (target.promoted.bigger t source.promoted, target.promoted.bigger t source.promoted) :=
        if_neg (by simp [hshift])
      have hx : Canonical target.intType.bitSize x := hold
      have hle := (commonType_bigger target source).target_le
      rw [plainAssignment_integer htypes, compoundAssignment_integer hold]
      generalize (target.promoted.bigger t source.promoted).intType t = common at hle ⊢
      obtain ⟨v, hv, hcan, hbits⟩ := insnFold_modular hop hx
        (IntType.canonical_word target.intType (source.intType.value y))
      obtain ⟨v', hv', hcan', hbits'⟩ := insnFold_modular hop
        (IntType.canonical_word common (target.intType.value x))
        (IntType.canonical_word common (source.intType.value y))
      rw [hv, hv', Option.map_some, Option.map_some, IntType.word_value hcan]
      refine congrArg (fun w => some (PseudoValue.word w)) ?_
      refine IntType.eq_of_setWidth hcan (IntType.canonical_word _ _) ?_
      -- on both sides the operator is applied to the low bits of the two values
      calc v.setWidth target.intType.bitSize
          = op.onBits (BitVec.ofInt _ (target.intType.value x))
              (BitVec.ofInt _ (source.intType.value y)) := by
            rw [hbits, IntType.setWidth_of_le (le_refl _) hx,
              IntType.word_setWidth _ _ (le_refl _)]
        _ = (v'.setWidth common.bitSize).setWidth target.intType.bitSize := by
            rw [hbits', SourceBinary.onBits_setWidth hle,
              BitVec.setWidth_setWidth_of_le _ hle, BitVec.setWidth_setWidth_of_le _ hle,
              IntType.word_setWidth _ _ hle, IntType.word_setWidth _ _ hle]
        _ = v'.setWidth target.intType.bitSize := BitVec.setWidth_setWidth_of_le _ hle
        _ = (target.intType.word (common.value v')).setWidth _ := by
            rw [IntType.setWidth_of_le hle hcan', IntType.word_setWidth _ _ (le_refl _)]

/-! ## Divisions -/

/-- C defines the quotient in the common type. -/
def QuotientDefined (common : IntType) (a b : ℤ) : Prop :=
  common.wrap b ≠ 0 ∧ common.InRange ((common.wrap a).tdiv (common.wrap b))

/-- The type of `a` gives the quotient or remainder of the common type. -/
structure QuotientKept (target common : IntType) (op : SourceBinary) (a b : ℤ) : Prop where
  ne_zero : target.wrap b ≠ 0
  least : ¬(a = -2 ^ 63 ∧ target.wrap b = -1)
  emod : op.onQuotient a (target.wrap b) % 2 ^ target.bitSize =
    op.onQuotient (common.wrap a) (common.wrap b) % 2 ^ target.bitSize

theorem inRange_tdiv {c : IntType} (hu : c.unsigned = true) (ha : c.InRange a)
    (hb : c.InRange b) : c.InRange (a.tdiv b) := by
  rw [IntType.InRange, if_pos hu] at ha hb ⊢
  exact ⟨Int.tdiv_nonneg ha.1 hb.1, Int.lt_of_le_of_lt (Int.tdiv_le_self b ha.1) ha.2⟩

theorem result_isSome {c : Ctype} {z : ℤ} :
    (c.result t z).isSome ↔ (c.isUnsigned = true ∨ c.InRange t z) := by
  rw [Ctype.result]
  split_ifs with hu hrange
  · simp [hu]
  · simp [hrange]
  · simp [hu, hrange]

theorem division_isSome (hop : op = .div ∨ op = .mod) {c : Ctype} (hc : c ≠ .bool) :
    (c.binary t (c.convert t a) (c.convert t b) op).isSome ↔
      QuotientDefined (c.intType t) a b := by
  rw [QuotientDefined, Ctype.convert_eq_wrap hc, Ctype.convert_eq_wrap hc]
  have hunsigned : c.isUnsigned = true → (c.intType t).InRange
      (((c.intType t).wrap a).tdiv ((c.intType t).wrap b)) := fun hu =>
    inRange_tdiv hu (IntType.inRange_wrap _ _) (IntType.inRange_wrap _ _)
  rcases hop with rfl | rfl
  · rw [Ctype.binary]
    split_ifs with hzero
    · simp [hzero]
    · rw [result_isSome]
      exact ⟨fun h => ⟨hzero, h.elim hunsigned id⟩, fun h => .inr h.2⟩
  · rw [Ctype.binary]
    split_ifs with hzero hrange
    · simp [hzero]
    · exact ⟨fun _ => ⟨hzero, hrange⟩, fun _ => rfl⟩
    · exact iff_of_false Bool.false_ne_true fun h => hrange h.2

/-- The least quotient that overflows is not one that C defines. -/
theorem QuotientDefined.not_least {common : IntType} (h : QuotientDefined common a b) :
    ¬(common.wrap a = -2 ^ 63 ∧ common.wrap b = -1) := by
  rintro ⟨ha, hb⟩
  have hrange := h.2
  have hleft := IntType.inRange_wrap common a
  have hle : (2 : ℤ) ^ (common.bitSize - 1) ≤ 2 ^ 63 := by
    exact_mod_cast Nat.pow_le_pow_right (by omega) (Nat.sub_le_sub_right common.bitSize_le 1)
  rw [ha, IntType.InRange] at hleft
  rw [ha, hb, IntType.InRange] at hrange
  split_ifs at hleft hrange
  · exact absurd hleft.1 (by decide)
  · exact absurd (Int.lt_of_lt_of_le hrange.2 hle) (by decide)

section

variable {common : Ctype}

theorem operandTypes_division (hop : op = .div ∨ op = .mod)
    (hcommon : target.promoted.bigger t source.promoted = common) :
    Ctype.operandTypes t op.op target.promoted source.promoted = (common, common) := by
  subst hcommon
  rcases hop with rfl | rfl <;> rfl

theorem plainAssignment_division (hop : op = .div ∨ op = .mod)
    (hcommon : target.promoted.bigger t source.promoted = common)
    {x y : BitVec 64} (h : QuotientDefined (common.intType t) (target.intType.value x)
      (source.intType.value y)) :
    ArithmeticType.plainAssignment .register (.integer target) (.integer source) op (.word x) (.word y) =
      some (.word (target.intType.word (op.onQuotient
        ((common.intType t).wrap (target.intType.value x))
        ((common.intType t).wrap (source.intType.value y))))) := by
  have hle : target.intType.bitSize ≤ (common.intType t).bitSize :=
    hcommon ▸ (commonType_bigger target source).target_le
  have hvalue := IntType.value_word (common.intType t)
  rw [plainAssignment_integer (operandTypes_division hop hcommon)]
  rw [insnFold_division hop (IntType.canonical_word _ _) (IntType.canonical_word _ _)
    (by rw [hvalue]; exact h.1) (by rw [hvalue, hvalue]; exact h.not_least), Option.map_some]
  rw [hvalue, hvalue, hvalue, IntType.word_wrap hle]

theorem compoundAssignment_division (hop : op = .div ∨ op = .mod) {x y : BitVec 64}
    (hx : Canonical target.bitSize x)
    (hzero : target.intType.wrap (source.intType.value y) ≠ 0)
    (hleast : ¬(target.intType.value x = -2 ^ 63 ∧
      target.intType.wrap (source.intType.value y) = -1)) :
    ArithmeticType.compoundAssignment .register (.integer target) (.integer source) op (.word x) (.word y) =
      some (.word (target.intType.word (op.onQuotient (target.intType.value x)
        (target.intType.wrap (source.intType.value y))))) := by
  have hvalue := IntType.value_word target.intType
  rw [compoundAssignment_integer hx, insnFold_division hop hx (IntType.canonical_word _ _)
    (by rw [hvalue]; exact hzero) (by rw [hvalue]; exact hleast), Option.map_some]
  rw [hvalue, hvalue, IntType.word_wrap (le_refl _)]

theorem compoundAssignment_zero (hop : op = .div ∨ op = .mod) {x y : BitVec 64}
    (hx : Canonical target.bitSize x)
    (hzero : target.intType.wrap (source.intType.value y) = 0) :
    ArithmeticType.compoundAssignment .register (.integer target) (.integer source) op (.word x) (.word y) =
      none := by
  rw [compoundAssignment_integer hx, IntType.word_eq_zero_iff.2 hzero, insnFold_zero hop]
  rfl

theorem assignmentsAgree_division (hop : op = .div ∨ op = .mod)
    (hcommon : target.promoted.bigger t source.promoted = common)
    (h : ∀ a b, target.intType.InRange a → source.intType.InRange b →
      QuotientDefined (common.intType t) a b →
      QuotientKept target.intType (common.intType t) op a b) :
    AssignmentsAgree .register target (.integer source) op := by
  intro oldvalue value hold hvalue hdef
  cases oldvalue with
  | real q => exact hold.elim
  | word x =>
    cases value with
    | real q => exact hvalue.elim
    | word y =>
      have hbool : common ≠ .bool := hcommon ▸ bigger_ne_bool target source
      simp only [AssignmentDefined, operandTypes_division hop hcommon] at hdef
      rw [division_isSome hop hbool] at hdef
      have hkept := h _ _ (IntType.inRange_value hold) (IntType.inRange_value hvalue) hdef
      rw [plainAssignment_division hop hcommon hdef,
        compoundAssignment_division hop hold hkept.ne_zero hkept.least]
      exact congrArg (fun w => some (PseudoValue.word w)) (IntType.word_eq_iff.2 hkept.emod)

/-- Where the two forms agree, they do so on the values `a` and `b`. -/
theorem quotientKept_of_agree (hop : op = .div ∨ op = .mod)
    (hcommon : target.promoted.bigger t source.promoted = common)
    (h : AssignmentsAgree .register target (.integer source) op) (ha : target.intType.InRange a)
    (hb : source.intType.InRange b) (hdef : QuotientDefined (common.intType t) a b)
    (hleast : a ≠ -2 ^ 63) : QuotientKept target.intType (common.intType t) op a b := by
  have hbool : common ≠ .bool := hcommon ▸ bigger_ne_bool target source
  have hx := IntType.canonical_word target.intType a
  have hva := IntType.word_value_of_inRange ha
  have hvb := IntType.word_value_of_inRange hb
  have hagree := h (.word (target.intType.word a)) (.word (source.intType.word b)) hx
    (IntType.canonical_word source.intType b) (by
      simp only [AssignmentDefined, operandTypes_division hop hcommon]
      rw [division_isSome hop hbool, hva, hvb]
      exact hdef)
  rw [plainAssignment_division hop hcommon (by rwa [hva, hvb]), hva, hvb] at hagree
  have hzero : target.intType.wrap b ≠ 0 := by
    intro hzero
    rw [compoundAssignment_zero hop hx (by rwa [hvb])] at hagree
    exact nomatch hagree
  have hne : ¬(a = -2 ^ 63 ∧ target.intType.wrap b = -1) := fun h => hleast h.1
  rw [compoundAssignment_division hop hx (by rwa [hvb]) (by rwa [hva, hvb]), hva, hvb] at hagree
  have hword := PseudoValue.word.inj (Option.some.inj hagree)
  exact ⟨hzero, hne, IntType.word_eq_iff.1 hword⟩

end

end

end Sparse
