import Sparse.CompoundConstants

/-!
# Compound and plain assignment, by their types

The types and operators for which `a op= b` and `a = a op b` store the same for
all values. A floating right operand is truncated before the operation in the
one form and not in the other, and no type of `a` makes up for that.
-/

namespace Sparse
open MaskedWords

variable {t : Target} {target : IntegerType t} {f : FloatType} {op : SourceBinary}
  {kind : OperandKind}

/-! ## Floating right operands -/

namespace FloatType

theorem round_zero (f : FloatType) : f.round 0 = some 0 := by
  have h := f.exact 0 0 (by norm_num) (by norm_num)
  norm_num at h
  exact h

theorem round_half (f : FloatType) {m : ℤ} (hm : |m| < 2 ^ 24) :
    f.round (m / 2) = some (m / 2 : ℚ) := by
  have h := f.exact m (-1) hm (by norm_num)
  norm_num at h
  rw [div_eq_mul_inv, ← one_div]
  exact h

theorem round_two_pow_64 (f : FloatType) : f.round (2 ^ 64) = some (2 ^ 64) := by
  have h := f.exact 1 64 (by norm_num) (by norm_num)
  norm_num at h ⊢
  exact h

end FloatType

theorem truncateReal_zero : truncateReal 0 = some 0 := by
  decide +kernel

theorem truncateReal_half : truncateReal (1 / 2) = some 0 := by
  decide +kernel

theorem truncateReal_two_pow_64 : truncateReal (2 ^ 64) = none := by
  decide +kernel

theorem castOperand_real (f g : FloatType) (b : ℚ) :
    ArithmeticType.castOperand kind (.floating f) (.floating g : ArithmeticType t) (.real b) =
      (g.round b).map .real := by
  cases kind <;> rfl

/-- A value that C gives to the plain form is stored by it. -/
theorem plainAssignment_floating {x : BitVec 64} {a b q : ℚ} {z : ℤ}
    (ha : f.round (target.intType.value x) = some a) (hb : f.round b = some b)
    (hq : (realBinop a b op).bind f.round = some q) (hz : truncateReal q = some z) :
    ArithmeticType.plainAssignment kind (.integer target) (.floating f) op (.word x) (.real b) =
      some (.word (target.intType.word z)) := by
  simp only [ArithmeticType.plainAssignment, ArithmeticType.operandTypes, castOperand_real,
    ArithmeticType.castPseudo, ha, hb, Option.map_some, Option.bind_eq_bind, Option.bind_some,
    ArithmeticType.addBinaryOp, hq, hz]

/-- A constant that is truncated to 0 is 0 in every type. -/
theorem castOperand_truncated {b : ℚ} (hb : truncateReal b = some 0) :
    ArithmeticType.castOperand kind (.floating f) (.integer target) (.real b) =
      some (.word (target.intType.word 0)) := by
  cases kind with
  | register => simp only [ArithmeticType.castOperand, ArithmeticType.castPseudo, hb, Option.map_some]
  | constant =>
    simp only [ArithmeticType.castOperand, ArithmeticType.castValue, hb, Option.map_some]
    have hzero : target.intType.word 0 = 0#64 := BitVec.zero_and
    rw [hzero, ArithmeticType.castInt, show BitVec.ofInt 64 0 = 0#64 from rfl, if_pos rfl,
      BitVec.zero_and, ite_self]

theorem castOperand_out_of_range {b : ℚ} (hb : truncateReal b = none) :
    ArithmeticType.castOperand kind (.floating f) (.integer target) (.real b) = none := by
  cases kind with
  | register => simp only [ArithmeticType.castOperand, ArithmeticType.castPseudo, hb, Option.map_none]
  | constant => simp only [ArithmeticType.castOperand, ArithmeticType.castValue, hb, Option.map_none]

theorem compoundAssignment_floating {x : BitVec 64} (hx : Canonical target.bitSize x) {b : ℚ}
    (hb : truncateReal b = some 0) :
    ArithmeticType.compoundAssignment kind (.integer target) (.floating f) op (.word x) (.real b) =
      ((FoldedOp.binop op.op).insnFold target.intType x (target.intType.word 0)).map
        fun v => .word (target.intType.word (target.intType.value v)) := by
  have hself : target.intType.word (target.intType.value x) = x := IntType.word_value hx
  simp only [ArithmeticType.compoundAssignment, castPseudo_integer, hself,
    castOperand_truncated hb, Option.bind_eq_bind, Option.bind_some, ArithmeticType.addBinaryOp]
  exact bind_castPseudo target target _

theorem compoundAssignment_out_of_range {x : BitVec 64} {b : ℚ} (hb : truncateReal b = none) :
    ArithmeticType.compoundAssignment kind (.integer target) (.floating f) op (.word x) (.real b) =
      none := by
  simp only [ArithmeticType.compoundAssignment, castOperand_out_of_range hb, Option.bind_eq_bind,
    Option.bind_none]

/-- The value of the plain form on a value of the type and a floating one. -/
theorem compound_of_agree_floating (h : AssignmentsAgree kind target (.floating f) op) {m : ℤ}
    (hm : target.intType.InRange m) {b q : ℚ} (ha : f.round m = some (m : ℚ))
    (hb : f.round b = some b) (hq : (realBinop m b op).bind f.round = some q)
    (hz : truncateReal q = some 0) :
    ArithmeticType.compoundAssignment kind (.integer target) (.floating f) op
      (.word (target.intType.word m)) (.real b) = some (.word (target.intType.word 0)) := by
  have hvalue := IntType.word_value_of_inRange hm
  have hagree := h (.word (target.intType.word m)) (.real b) (IntType.canonical_word _ _) hb
    ⟨m, q, 0, by rw [hvalue]; exact ha, hq, hz, IntType.inRange_zero target.intType⟩
  rw [plainAssignment_floating (by rw [hvalue]; exact ha) hb hq hz] at hagree
  exact hagree

/-- The value of the target that is one step away from 0. -/
def IntegerType.unit (target : IntegerType t) : ℤ :=
  if target.isUnsigned then 1 else -1

theorem unit_inRange (target : IntegerType t) : target.intType.InRange target.unit := by
  have htwo := target.intType.two_pow_bitSize
  have hpos := IntType.two_pow_pos (target.intType.bitSize - 1)
  rw [IntType.InRange, IntegerType.unit]
  change if target.isUnsigned = true then _ else _
  split_ifs
  · omega
  · omega

theorem unit_word_ne (target : IntegerType t) :
    target.intType.word target.unit ≠ target.intType.word 0 := by
  intro h
  have hvalue := congrArg target.intType.value h
  rw [IntType.word_value_of_inRange (unit_inRange target),
    IntType.word_value_of_inRange (IntType.inRange_zero _), IntegerType.unit] at hvalue
  split_ifs at hvalue
  all_goals exact absurd hvalue (by decide)

/-- Adding or subtracting nothing. -/
theorem insnFold_zero_right (hop : op = .add ∨ op = .sub) {c : IntType} {l : BitVec 64}
    (hl : Canonical c.bitSize l) :
    (FoldedOp.binop op.op).insnFold c l (c.word 0) = some l := by
  have hzero : (c.word 0).setWidth c.bitSize = 0#c.bitSize := by
    rw [IntType.word_setWidth c 0 (le_refl _)]
    rfl
  have hmodular : op.isModular = true := by
    rcases hop with rfl | rfl <;> rfl
  obtain ⟨v, hv, hcan, hbits⟩ := insnFold_modular hmodular hl (IntType.canonical_word c 0)
  rw [hv]
  refine congrArg some (IntType.eq_of_setWidth hcan hl ?_)
  rw [hbits, hzero]
  rcases hop with rfl | rfl
  · exact BitVec.add_zero _
  · exact BitVec.sub_zero _

theorem abs_unit_lt (target : IntegerType t) : |target.unit| < 2 ^ 24 := by
  rw [IntegerType.unit]
  split_ifs
  all_goals norm_num

theorem truncateReal_half_unit (target : IntegerType t) :
    truncateReal ((target.unit : ℚ) / 2) = some 0 := by
  rw [IntegerType.unit]
  split_ifs
  all_goals decide +kernel

theorem truncateReal_neg_half_unit (target : IntegerType t) :
    truncateReal (((-target.unit : ℤ) : ℚ) / 2) = some 0 := by
  rw [IntegerType.unit]
  split_ifs
  all_goals decide +kernel

/-- Half a unit takes the value of the target to 0 before the truncation only. -/
theorem not_agree_sum (hop : op = .add ∨ op = .sub) {k : ℤ} (hk : |k| < 2 ^ 24)
    (hsum : realBinop target.unit (k / 2) op = some ((target.unit : ℚ) / 2))
    (htrunc : truncateReal (k / 2) = some 0) : ¬AssignmentsAgree kind target (.floating f) op := by
  intro h
  have hunit := abs_unit_lt target
  have hround : f.round target.unit = some (target.unit : ℚ) := by
    have hexact := f.exact target.unit 0 hunit (by norm_num)
    rwa [zpow_zero, mul_one] at hexact
  have hhalf := truncateReal_half_unit target
  have hcan := IntType.canonical_word target.intType target.unit
  have hcompound := compound_of_agree_floating h (unit_inRange target) hround (f.round_half hk)
    (by rw [hsum, Option.bind_some, f.round_half hunit]) hhalf
  rw [compoundAssignment_floating hcan htrunc, insnFold_zero_right hop hcan, Option.map_some,
    IntType.word_value hcan] at hcompound
  exact unit_word_ne target (PseudoValue.word.inj (Option.some.inj hcompound))

theorem not_agree_floating (hop : (ArithmeticType.floating (t := t) f).Allows op) :
    ¬AssignmentsAgree kind target (.floating f) op := by
  rcases hop with rfl | rfl | rfl | rfl
  · refine not_agree_sum (.inl rfl) (by rw [abs_neg]; exact abs_unit_lt target) ?_
      (truncateReal_neg_half_unit target)
    rw [realBinop]
    refine congrArg some ?_
    push_cast
    ring
  · refine not_agree_sum (.inr rfl) (abs_unit_lt target) ?_ (truncateReal_half_unit target)
    rw [realBinop]
    refine congrArg some ?_
    ring
  · intro h
    have hcompound := compound_of_agree_floating h (IntType.inRange_zero target.intType)
      (by exact_mod_cast f.round_zero) f.round_two_pow_64
      (by rw [realBinop, Int.cast_zero, zero_mul, Option.bind_some, f.round_zero])
      truncateReal_zero
    rw [compoundAssignment_out_of_range truncateReal_two_pow_64] at hcompound
    exact nomatch hcompound
  · intro h
    have hhalf : f.round (1 / 2) = some (1 / 2) := by
      have hround := f.round_half (m := 1) (by norm_num)
      norm_num at hround ⊢
      exact hround
    have hcompound := compound_of_agree_floating h (IntType.inRange_zero target.intType)
      (by exact_mod_cast f.round_zero) hhalf
      (by rw [realBinop, Int.cast_zero, zero_div, if_neg (by norm_num), Option.bind_some,
        f.round_zero])
      truncateReal_zero
    rw [compoundAssignment_floating (IntType.canonical_word _ _) truncateReal_half,
      IntType.word_eq_zero_iff.2 (IntType.wrap_of_inRange (IntType.inRange_zero _)),
      insnFold_zero (.inl rfl)] at hcompound
    exact nomatch hcompound

/-! ## The condition -/

/-- The types and operators for which the two forms store and yield the same where the
cast of `b` truncates. -/
def TruncationSafe (target source : IntegerType t) : SourceBinary → Prop
  | .div | .mod => DivisionKept target.intType source.intType
      ((target.promoted.bigger t source.promoted).intType t)
  | .leftShift => ShiftKept target source .leftShift
  | .rightShift => ShiftKept target source .rightShift
  | _ => True

theorem assignmentsAgree_register (source : IntegerType t) :
    AssignmentsAgree .register target (.integer source) op ↔ TruncationSafe target source op := by
  have hdivision : (op = .div ∨ op = .mod) →
      (AssignmentsAgree .register target (.integer source) op ↔
        DivisionKept target.intType source.intType
          ((target.promoted.bigger t source.promoted).intType t)) := fun hop =>
    ⟨fun h => QuotientsKept.divisionKept
        (fun a b ha hb hleast hdef => quotientKept_of_agree hop rfl h ha hb hdef hleast)
        (commonType_bigger target source) hop,
      fun h => assignmentsAgree_division hop rfl fun a b ha hb hdef =>
        quotientKept hop (commonType_bigger target source) h ha hb hdef⟩
  cases op with
  | add | sub | mul | and | or | xor =>
    exact iff_of_true (assignmentsAgree_modular rfl) trivial
  | div => exact hdivision (.inl rfl)
  | mod => exact hdivision (.inr rfl)
  | leftShift => exact ⟨shiftKept_of_agree (.inl rfl), assignmentsAgree_shift (.inl rfl)⟩
  | rightShift => exact ⟨shiftKept_of_agree (.inr rfl), assignmentsAgree_shift (.inr rfl)⟩

/-- The types and operators for which the two forms store and yield the same. -/
def CompoundSafe (kind : OperandKind) (target : IntegerType t) :
    ArithmeticType t → SourceBinary → Prop
  | .floating _, _ => False
  | .integer source, op =>
    -- the zero test of `cast_value`
    if kind = .constant ∧ target.isBoolType = true ∧ source.bitSize ≠ 1 then op = .rightShift
    else TruncationSafe target source op

/-- `signed char`. -/
def signedChar : IntegerType ⟨true⟩ :=
  .ctype (.integer .char .explicitlySigned)

end Sparse
