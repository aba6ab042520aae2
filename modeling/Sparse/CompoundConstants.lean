import Sparse.CompoundShift

/-!
# Constant right operands

`cast_value` gives a constant what the instruction of `cast_pseudo` would give it,
except where it tests for zero: on a constant of more than one bit that is cast
to `_Bool`. No operator has operands of type `_Bool`, so that the plain form
never makes that test, and all but the right shift tell the two forms apart by it.
-/

namespace Sparse
open MaskedWords

namespace IntegerType

variable {t : Target} {c : IntegerType t}

theorem eq_bool (h : c.isBoolType = true) : c = .ctype .bool := by
  cases c with
  | ctype c =>
    cases c with
    | bool => rfl
    | integer rank sign => exact absurd h Bool.false_ne_true
  | bitField base width pos le => exact absurd h Bool.false_ne_true

/-- Every type of more than one bit has one of the even values next to 0. -/
theorem exists_even (h : c.bitSize ≠ 1) : ∃ b : ℤ, (b = 2 ∨ b = -2) ∧ c.intType.InRange b := by
  have hpos := c.bitSize_pos
  have htwo := c.intType.two_pow_bitSize
  have hge : (2 : ℤ) ≤ 2 ^ (c.intType.bitSize - 1) := by
    have hle : 1 ≤ c.intType.bitSize - 1 := Nat.le_sub_of_add_le (show 1 + 1 ≤ c.bitSize by omega)
    exact_mod_cast Nat.pow_le_pow_right (show 0 < 2 by decide) hle
  cases hu : c.intType.unsigned with
  | true => exact ⟨2, .inl rfl, by rw [IntType.InRange, if_pos hu]; omega⟩
  | false => exact ⟨-2, .inr rfl, by rw [IntType.InRange, if_neg (by simp [hu])]; omega⟩

end IntegerType

section

variable {t : Target} {old new target source : IntegerType t} {op : SourceBinary}
  {v x y : BitVec 64}

/-! ## The casts that agree -/

theorem castValue_integer (hv : Canonical old.bitSize v)
    (h : new.isBoolType = false ∨ old.bitSize = 1) :
    ArithmeticType.castValue (.integer old) (.integer new) (.word v) =
      ArithmeticType.castPseudo (.integer old) (.integer new) (.word v) := by
  by_cases hsize : old.bitSize = new.bitSize
  · have hword : new.intType.word (old.intType.value v) = v := by
      rw [IntType.word, show new.intType.bitSize = old.intType.bitSize from hsize.symm]
      exact IntType.word_value hv
    rw [castPseudo_integer, hword, ArithmeticType.castValue, if_pos hsize]
  · have hbool : ¬new.isBoolType = true := by
      intro hbool
      have hone : old.bitSize = 1 := h.resolve_left (by simp [hbool])
      rw [IntegerType.eq_bool hbool, hone] at hsize
      exact hsize rfl
    rw [ArithmeticType.castValue, if_neg hsize, ArithmeticType.castInt, if_neg hbool,
      ArithmeticType.castPseudo]

theorem operandTypes_ne_bool :
    (Ctype.operandTypes t op.op target.promoted source.promoted).2 ≠ .bool := by
  rw [Ctype.operandTypes]
  split_ifs
  · rw [source.promoted_promoted]
    exact source.promoted_ne_bool
  · exact bigger_ne_bool target source

/-- The plain form casts `b` to a promoted type. -/
theorem plainAssignment_constant (hy : Canonical source.bitSize y) (x : PseudoValue) :
    ArithmeticType.plainAssignment .constant (.integer target) (.integer source) op x (.word y) =
      ArithmeticType.plainAssignment .register (.integer target) (.integer source) op x
        (.word y) := by
  have hbool : (IntegerType.ctype (Ctype.operandTypes t op.op target.promoted
      source.promoted).2 : IntegerType t).isBoolType = false := by
    refine Bool.eq_false_iff.2 fun h => ?_
    exact operandTypes_ne_bool (IntegerType.ctype.inj (IntegerType.eq_bool h))
  simp only [ArithmeticType.plainAssignment, ArithmeticType.operandTypes,
    ArithmeticType.castOperand, castValue_integer hy (.inl hbool)]

theorem compoundAssignment_constant (hy : Canonical source.bitSize y)
    (h : target.isBoolType = false ∨ source.bitSize = 1) (x : PseudoValue) :
    ArithmeticType.compoundAssignment .constant (.integer target) (.integer source) op x
        (.word y) =
      ArithmeticType.compoundAssignment .register (.integer target) (.integer source) op x
        (.word y) := by
  simp only [ArithmeticType.compoundAssignment, ArithmeticType.castOperand,
    castValue_integer hy h]

/-- Without the zero test a constant is cast as a register is. -/
theorem assignmentsAgree_constant (h : target.isBoolType = false ∨ source.bitSize = 1) :
    AssignmentsAgree .constant target (.integer source) op ↔
      AssignmentsAgree .register target (.integer source) op := by
  refine forall₂_congr fun oldvalue value => ?_
  refine imp_congr_right fun _ => imp_congr_right fun hvalue => imp_congr_right fun _ => ?_
  cases value with
  | real q => exact hvalue.elim
  | word y => rw [plainAssignment_constant hvalue, compoundAssignment_constant hvalue h]

/-! ## The zero test -/

/-- `_Bool`, on every target. -/
def boolType : IntType :=
  ⟨1, true, by decide, by decide⟩

theorem castInt_bool (hv : Canonical old.bitSize v) :
    ArithmeticType.castInt (.ctype .bool : IntegerType t) (extendIfSigned old.intType v) =
      if v = 0#64 then 0#64 else 1#64 := by
  have hzero : extendIfSigned old.intType v = 0#64 ↔ v = 0#64 := by
    constructor
    · intro h
      have hword := IntType.castWord_eq old.intType old.intType v
      rw [h, BitVec.zero_and, IntType.word_value hv] at hword
      exact hword.symm
    · rintro rfl
      rw [extendIfSigned, signExtended, BitVec.zero_and, if_neg (not_not_intro rfl), ite_self]
  rw [ArithmeticType.castInt, if_pos (show (IntegerType.ctype .bool : IntegerType t).isBoolType from rfl)]
  simp only [hzero]

theorem compoundAssignment_zeroTest (hwide : source.bitSize ≠ 1) (hx : Canonical 1 x)
    (hy : Canonical source.bitSize y) :
    ArithmeticType.compoundAssignment (t := t) .constant (.integer (.ctype .bool))
        (.integer source) op (.word x) (.word y) =
      ((FoldedOp.binop op.op).insnFold boolType x
        (if y = 0#64 then 0#64 else 1#64)).map
          fun v => .word (boolType.word (boolType.value v)) := by
  have hself : (IntegerType.ctype .bool : IntegerType t).intType.word
      ((IntegerType.ctype .bool : IntegerType t).intType.value x) = x := IntType.word_value hx
  have hcast : ArithmeticType.castValue (.integer source) (.integer (.ctype .bool : IntegerType t))
      (.word y) = some (.word (if y = 0#64 then 0#64 else 1#64)) := by
    have hsize : ¬source.bitSize = (IntegerType.ctype .bool : IntegerType t).bitSize := hwide
    rw [ArithmeticType.castValue, if_neg hsize, castInt_bool hy]
  simp only [ArithmeticType.compoundAssignment, ArithmeticType.castOperand, hcast,
    castPseudo_integer, Option.bind_eq_bind, Option.bind_some, ArithmeticType.addBinaryOp, hself]
  exact bind_castPseudo (.ctype .bool) (.ctype .bool) _

/-- A constant other than 0 is 1 to the compound form. -/
theorem compoundAssignment_one (hwide : source.bitSize ≠ 1) (hx : Canonical 1 x) {b : ℤ}
    (hb : source.intType.InRange b) (hne : b ≠ 0) :
    ArithmeticType.compoundAssignment (t := t) .constant (.integer (.ctype .bool))
        (.integer source) op (.word x) (.word (source.intType.word b)) =
      ((FoldedOp.binop op.op).insnFold boolType x 1#64).map
        fun v => .word (boolType.word (boolType.value v)) := by
  have hword : source.intType.word b ≠ 0#64 := by
    rw [Ne, IntType.word_eq_zero_iff, IntType.wrap_of_inRange hb]
    exact hne
  rw [compoundAssignment_zeroTest hwide hx (IntType.canonical_word _ _), if_neg hword]

/-- Where the forms agree on a constant other than 0, the plain one has the value of the compound
one on 1. -/
theorem plain_of_agree_bool (hwide : source.bitSize ≠ 1)
    (h : AssignmentsAgree .constant (.ctype .bool : IntegerType t) (.integer source) op)
    (hx : Canonical 1 x) {b : ℤ} (hb : source.intType.InRange b) (hne : b ≠ 0)
    (hdef : AssignmentDefined (.ctype .bool : IntegerType t) op (.integer source) (.word x)
      (.word (source.intType.word b))) :
    ArithmeticType.plainAssignment .register (.integer (.ctype .bool : IntegerType t))
        (.integer source) op (.word x) (.word (source.intType.word b)) =
      ((FoldedOp.binop op.op).insnFold boolType x 1#64).map
        fun v => .word (boolType.word (boolType.value v)) := by
  have hcanonical : Canonical source.bitSize (source.intType.word b) :=
    IntType.canonical_word source.intType b
  rw [← plainAssignment_constant hcanonical, ← h (.word x) (.word (source.intType.word b)) hx
    hcanonical hdef]
  exact compoundAssignment_one hwide hx hb hne

theorem wrap_small {c : IntType} (hc : 32 ≤ c.bitSize) {z : ℤ} (hz : -2 ≤ z ∧ z ≤ 2)
    (hu : c.unsigned = true → 0 ≤ z) : c.wrap z = z := by
  have hlarge : (4 : ℤ) ≤ 2 ^ (c.bitSize - 1) := IntType.four_le_two_pow (by omega)
  have htwo := c.two_pow_bitSize
  refine IntType.wrap_of_inRange ?_
  rw [IntType.InRange]
  split_ifs with h
  · exact ⟨hu h, by omega⟩
  · omega

/-! ## The operators on low bits -/

/-- The value of the target that shows the low bit of the right operand. -/
def SourceBinary.revealing : SourceBinary → ℤ
  | .mul | .and => 1
  | _ => 0

/-- C defines the result on small values of any common type. -/
theorem binary_small_isSome (hop : op.isModular = true) {c : Ctype} (hc : 32 ≤ c.bitSize t)
    {b : ℤ} (hb : c.isUnsigned = true ∨ b = 2 ∨ b = -2) :
    (c.binary t op.revealing b op).isSome = true := by
  have hlarge : (4 : ℤ) ≤ 2 ^ (c.bitSize t - 1) := IntType.four_le_two_pow (by omega)
  have hrange : ∀ z : ℤ, c.isUnsigned = true ∨ z = 2 ∨ z = -2 →
      c.isUnsigned = true ∨ c.InRange t z := by
    intro z hz
    cases hu : c.isUnsigned with
    | true => exact .inl rfl
    | false =>
      have hz' := hz.resolve_left (by simp [hu])
      refine .inr ?_
      rw [Ctype.InRange, if_neg (by simp [hu])]
      omega
  cases op with
  | add => exact result_isSome.2 (hrange _ (by simpa [SourceBinary.revealing] using hb))
  | sub =>
    refine result_isSome.2 (hrange _ (hb.imp_right fun hb => ?_))
    rw [show SourceBinary.revealing .sub = 0 from rfl]
    omega
  | mul => exact result_isSome.2 (hrange _ (by simpa [SourceBinary.revealing] using hb))
  | and | or | xor => rfl
  | div | mod | leftShift | rightShift => exact absurd hop Bool.false_ne_true

theorem revealing_inRange (op : SourceBinary) : boolType.InRange op.revealing := by
  rw [IntType.InRange, if_pos (show boolType.unsigned = true from rfl)]
  cases op <;> decide

/-- The low bit of the right operand is that of the result on the revealing value. -/
theorem insnFold_revealing (hop : op.isModular = true) :
    ((FoldedOp.binop op.op).insnFold boolType
        (boolType.word op.revealing) 1#64).map
          (fun v => PseudoValue.word (boolType.word (boolType.value v))) ≠
      ((FoldedOp.binop op.op).insnFold boolType
        (boolType.word op.revealing) 0#64).map
          fun v => .word (boolType.word (boolType.value v)) := by
  cases op with
  | div | mod | leftShift | rightShift => exact absurd hop Bool.false_ne_true
  | add | sub | mul | and | or | xor => decide

/-- An even constant is 1 to the compound form and has no low bit in the plain one. -/
theorem not_agree_constant_modular (hop : op.isModular = true) (hwide : source.bitSize ≠ 1) :
    ¬AssignmentsAgree .constant (.ctype .bool : IntegerType t) (.integer source) op := by
  intro h
  obtain ⟨b, heven, hb⟩ := IntegerType.exists_even hwide
  have hne : b ≠ 0 := by omega
  have hx : Canonical (IntegerType.ctype .bool : IntegerType t).bitSize
      (boolType.word op.revealing) := IntType.canonical_word boolType op.revealing
  have hvx := IntType.word_value_of_inRange (revealing_inRange op)
  have hvb := IntType.word_value_of_inRange hb
  have hdef : AssignmentDefined (.ctype .bool : IntegerType t) op (.integer source)
      (.word (boolType.word op.revealing)) (.word (source.intType.word b)) := by
    have hshift : op.op.isShift = false := by
      cases op <;> first | rfl | exact absurd hop Bool.false_ne_true
    have hcommon := commonType_bigger (.ctype .bool : IntegerType t) source
    have hbool := bigger_ne_bool (.ctype .bool : IntegerType t) source
    simp only [AssignmentDefined, Ctype.operandTypes, hshift, Bool.false_eq_true, if_false]
    generalize (IntegerType.ctype .bool : IntegerType t).promoted.bigger t source.promoted = c
      at hcommon hbool ⊢
    have hsmall : -2 ≤ op.revealing ∧ op.revealing ≤ 2 ∧ 0 ≤ op.revealing := by
      cases op <;> decide
    rw [show (IntegerType.ctype .bool : IntegerType t).intType.value
      (boolType.word op.revealing) = op.revealing from hvx, hvb, Ctype.convert_eq_wrap hbool,
      Ctype.convert_eq_wrap hbool,
      wrap_small hcommon.int_le ⟨hsmall.1, hsmall.2.1⟩ fun _ => hsmall.2.2]
    refine binary_small_isSome hop hcommon.int_le ?_
    cases hu : c.isUnsigned with
    | true => exact .inl rfl
    | false =>
      rw [wrap_small hcommon.int_le (by omega) fun h =>
        absurd (hu.symm.trans h) Bool.false_ne_true]
      exact .inr heven
  have hplain := plain_of_agree_bool hwide h hx hb hne hdef
  have hagree : AssignmentsAgree .register (.ctype .bool) (.integer source) op := assignmentsAgree_modular hop
  have hregister := hagree (.word (boolType.word op.revealing)) (.word (source.intType.word b)) hx
    (IntType.canonical_word source.intType b) hdef
  have hlow : boolType.word b = 0#64 := by
    rcases heven with rfl | rfl <;> decide
  rw [compoundAssignment_integer hx, hvb, hplain] at hregister
  exact insnFold_revealing hop (hregister.symm.trans (by rw [← hlow]; rfl))

/-! ## Quotients -/

theorem onQuotient_one {m : ℤ} (hm : m = -2 ∨ 2 ≤ m) :
    SourceBinary.onQuotient 1 m .div = 0 ∧ SourceBinary.onQuotient 1 m .mod = 1 := by
  rcases hm with rfl | hm
  · decide
  · exact onQuotient_small (by decide) (by omega)

/-- By 1 the compound form divides evenly, by 2 and -2 the plain one does not. -/
theorem not_agree_constant_division (hop : op = .div ∨ op = .mod) (hwide : source.bitSize ≠ 1) :
    ¬AssignmentsAgree .constant (.ctype .bool : IntegerType t) (.integer source) op := by
  intro h
  obtain ⟨b, heven, hb⟩ := IntegerType.exists_even hwide
  have hne : b ≠ 0 := by omega
  have hx : Canonical (IntegerType.ctype .bool : IntegerType t).bitSize (boolType.word 1) :=
    IntType.canonical_word boolType 1
  have hvx : (IntegerType.ctype .bool : IntegerType t).intType.value (boolType.word 1) = 1 :=
    IntType.word_value_of_inRange (revealing_inRange .mul)
  have hvb := IntType.word_value_of_inRange hb
  have hcommon := commonType_bigger (.ctype .bool : IntegerType t) source
  have hbool := bigger_ne_bool (.ctype .bool : IntegerType t) source
  obtain ⟨c, hc⟩ : ∃ c, (IntegerType.ctype .bool : IntegerType t).promoted.bigger t
      source.promoted = c := ⟨_, rfl⟩
  rw [hc] at hcommon hbool
  have hlarge : (4 : ℤ) ≤ 2 ^ ((c.intType t).bitSize - 1) :=
    IntType.four_le_two_pow (by have := hcommon.int_le; omega)
  have hone : (c.intType t).wrap 1 = 1 :=
    wrap_small hcommon.int_le (by decide) fun _ => by decide
  have hm : (c.intType t).wrap b = -2 ∨ 2 ≤ (c.intType t).wrap b := by
    cases hu : (c.intType t).unsigned with
    | false =>
      rw [wrap_small hcommon.int_le (by omega) fun h => absurd (hu.symm.trans h) Bool.false_ne_true]
      omega
    | true =>
      have htwo := (c.intType t).two_pow_bitSize
      rw [IntType.wrap, if_pos hu]
      rcases heven with rfl | rfl
      · rw [Int.emod_eq_of_lt (by decide) (by omega)]
        exact .inr (le_refl 2)
      · rw [← Int.add_emod_right, Int.emod_eq_of_lt (by omega) (by omega)]
        omega
  have hquotient := onQuotient_one hm
  have hdefined : QuotientDefined (c.intType t)
      ((IntegerType.ctype .bool : IntegerType t).intType.value (boolType.word 1))
      (source.intType.value (source.intType.word b)) := by
    rw [hvx, hvb, QuotientDefined, hone]
    refine ⟨by omega, ?_⟩
    rw [show Int.tdiv 1 ((c.intType t).wrap b) = 0 from hquotient.1]
    exact IntType.inRange_zero _
  have hdef : AssignmentDefined (.ctype .bool : IntegerType t) op (.integer source)
      (.word (boolType.word 1)) (.word (source.intType.word b)) := by
    simp only [AssignmentDefined, operandTypes_division hop hc]
    exact (division_isSome hop hbool).2 hdefined
  have hplain := plain_of_agree_bool hwide h hx hb hne hdef
  rw [plainAssignment_division hop hc hdefined, hvx, hvb, hone] at hplain
  rcases hop with rfl | rfl
  · rw [hquotient.1] at hplain
    change some (PseudoValue.word (boolType.word 0)) = _ at hplain
    exact absurd hplain (by decide)
  · rw [hquotient.2] at hplain
    change some (PseudoValue.word (boolType.word 1)) = _ at hplain
    exact absurd hplain (by decide)

/-! ## Shifts -/

/-- The sign bit of a `_Bool` is the count 1. -/
theorem not_agree_constant_leftShift (hwide : source.bitSize ≠ 1) :
    ¬AssignmentsAgree .constant (.ctype .bool : IntegerType t) (.integer source) .leftShift := by
  intro h
  have hb : source.intType.InRange ((1 : ℕ) : ℤ) := by
    have hpos := source.bitSize_pos
    have hlarge := Nat.pow_le_pow_right (show 0 < 2 by decide)
      (show 1 ≤ source.bitSize - 1 by omega)
    have hlarge' := Nat.pow_le_pow_right (show 0 < 2 by decide) (show 2 ≤ source.bitSize by omega)
    rw [IntegerType.le_largest, IntegerType.largest]
    split_ifs
    all_goals omega
  have hzero : ((IntegerType.ctype .bool : IntegerType t).promoted.intType t).wrap 0 = 0 :=
    IntType.wrap_of_inRange (IntType.inRange_zero _)
  have hlt : 1 < (IntegerType.ctype .bool : IntegerType t).promoted.bitSize t :=
    Nat.lt_of_lt_of_le (by decide) (IntegerType.le_promoted _)
  have hplain := plain_of_agree_bool (x := boolType.word 0) hwide h (IntType.canonical_word _ _)
    hb (by decide) (assignmentDefined_shift (.inl rfl) (IntType.inRange_zero boolType) hb hlt
      (by rw [hzero]; exact binary_zero_isSome (.inl rfl) hlt))
  rw [plainAssignment_shift (.inl rfl) (IntType.word_value_of_inRange hb) hlt] at hplain
  cases hplain

theorem insnFold_bool_rightShift {r : BitVec 64} (hx : Canonical 1 x) (hr : Canonical 1 r) :
    (FoldedOp.binop SourceBinary.rightShift.op).insnFold boolType x r =
      some (boolType.word (boolType.value x / 2 ^ r.toNat)) := by
  have hlt : r.toNat < 2 ^ 1 := hr
  exact insnFold_rightShift_unsigned (c := boolType) rfl hx hr (by omega)

/-- Any count but 0 shifts the only bit out, whether it is cast or not. -/
theorem agree_constant_rightShift (hwide : source.bitSize ≠ 1) :
    AssignmentsAgree .constant (.ctype .bool : IntegerType t) (.integer source) .rightShift := by
  intro oldvalue value hold hvalue hdef
  cases oldvalue with
  | real q => exact hold.elim
  | word x =>
    cases value with
    | real q => exact hvalue.elim
    | word y =>
      have hx : Canonical 1 x := hold
      have hy : Canonical source.bitSize y := hvalue
      have hrange : boolType.InRange (boolType.value x) := IntType.inRange_value hx
      obtain ⟨n, hn, hlt⟩ := count_of_defined (.inr rfl) hvalue hdef
      have hwrap : ((IntegerType.ctype .bool : IntegerType t).promoted.intType t).wrap
          (boolType.value x) = boolType.value x :=
        wrap_promoted hrange fun _ => .inr (Nat.lt_of_lt_of_le (by decide : 1 < 32)
          (IntegerType.le_promoted _))
      have hbounds : 0 ≤ boolType.value x ∧ boolType.value x < 2 := hrange
      have hcount : boolType.value x / 2 ^ (if y = 0#64 then 0#64 else 1#64 : BitVec 64).toNat =
          boolType.value x / 2 ^ n := by
        split_ifs with hzero
        · have hvalue0 := (IntType.value_eq_zero_iff (c := source.intType) hvalue).2 hzero
          have hn0 : n = 0 := by omega
          rw [hn0]
          rfl
        · have hn0 : n ≠ 0 := fun hn0 => hzero
            ((IntType.value_eq_zero_iff (c := source.intType) hvalue).1 (by omega))
          have hlarge : (2 : ℤ) ^ 1 ≤ 2 ^ n :=
            pow_le_pow_right₀ (by decide) (Nat.one_le_iff_ne_zero.2 hn0)
          rw [show (1#64).toNat = 1 from rfl, pow_one, Int.ediv_eq_zero_of_lt hbounds.1 hbounds.2,
            Int.ediv_eq_zero_of_lt hbounds.1 (by omega)]
      rw [plainAssignment_constant hvalue, plainAssignment_shift (.inr rfl) hn hlt,
        compoundAssignment_zeroTest hwide hx hvalue,
        insnFold_bool_rightShift hx (by split_ifs <;> decide), hcount, Option.map_some,
        IntType.value_word, IntType.word_wrap (le_refl _), SourceBinary.onShift_rightShift]
      exact congrArg (fun z => some (PseudoValue.word (boolType.word (z / 2 ^ n)))) hwrap.symm

/-! ## The condition -/

/-- Where the zero test is made, the right shift alone does not show it. -/
theorem assignmentsAgree_zeroTest (hbool : target.isBoolType = true)
    (hwide : source.bitSize ≠ 1) :
    AssignmentsAgree .constant target (.integer source) op ↔ op = .rightShift := by
  obtain rfl := IntegerType.eq_bool hbool
  constructor
  · intro h
    cases op with
    | rightShift => rfl
    | leftShift => exact absurd h (not_agree_constant_leftShift hwide)
    | div => exact absurd h (not_agree_constant_division (.inl rfl) hwide)
    | mod => exact absurd h (not_agree_constant_division (.inr rfl) hwide)
    | add | sub | mul | and | or | xor => exact absurd h (not_agree_constant_modular rfl hwide)
  · rintro rfl
    exact agree_constant_rightShift hwide

end

end Sparse
