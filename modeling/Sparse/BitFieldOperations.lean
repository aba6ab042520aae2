import Sparse.BitFieldAccesses

/-!
# Operations on bit-fields

`++`, `--` and compound assignments. The instruction is folded when both operands are constants. In
registers it works on all of the word that was read, and what it leaves above the width reaches the store.
-/

namespace Sparse
open MaskedWords

/-- What an instruction leaves in a register. `+ - * & | ^` and `<<` work on whole registers; what is divided or
shifted right are the low bits of the size, extended by the sign of the opcode. -/
def registerBinop (c : IntType) (op : SourceBinary) (l r : BitVec 64) : Option (BitVec 64) :=
  let a := c.value (l &&& lowMask c.bitSize)
  let b := c.value (r &&& lowMask c.bitSize)
  match op with
  | .div | .mod => if b = 0 then none else some (BitVec.ofInt 64 (op.onQuotient a b))
  | .leftShift => hostShl l (r &&& lowMask c.bitSize)
  | .rightShift => if 0 ≤ b ∧ b < 64 then some (BitVec.ofInt 64 (a / 2 ^ b.toNat)) else none
  | op => some (op.onBits l r)

/-- `simplify_asr` by a constant. -/
def simplifyAsr (c : IntType) (src value : BitVec 64) : Option (BitVec 64) :=
  if c.bitSize ≤ value.toNat then some 0#64
  else if value = 0#64 then some src
  else registerBinop c .rightShift src value

/-- The value of the instruction that `add_binary_op` adds, after `simplify_binop`: constants are folded.
What `simplify.c` makes of one constant has the value of the register, but for a signed shift to the right. -/
def binaryInsn (c : IntType) (op : SourceBinary) (lKnown rKnown : Bool) (l r : BitVec 64) : Option (BitVec 64) :=
  if lKnown && rKnown then (FoldedOp.binop op.op).insnFold c l r
  else if op = .rightShift ∧ c.unsigned = false ∧ rKnown = true then simplifyAsr c l r
  else registerBinop c op l r

/-- What C computes from the values. -/
def SourceBinary.onValues (op : SourceBinary) (a b : ℤ) : ℤ :=
  match op with
  | .add => a + b
  | .sub => a - b
  | .mul => a * b
  | .div | .mod => op.onQuotient a b
  | .leftShift => a * 2 ^ b.toNat
  | .rightShift => a / 2 ^ b.toNat
  | .and | .or | .xor => (op.onBits (BitVec.ofInt 64 a) (BitVec.ofInt 64 b)).toInt

namespace BitField

/-- `linearize_inc_dec`, where `op_value` is 1: the word left in the unit. -/
def linearizeIncDec (f : BitField) (decrement known : Bool) (orig : BitVec 64) : Option (BitVec 64) := do
  let old ← f.linearizeLoadGen orig
  let new ← binaryInsn f.intType (if decrement then .sub else .add) known true old 1#64
  f.linearizeStoreGen orig new

/-- `simplify_cast` between equal sizes: constants are masked, other casts dropped. -/
def sameSizeCast (f : BitField) (known : Bool) (val : BitVec 64) : Option (BitVec 64) :=
  if known then getCastValue val f.width f.width f.signed else some val

/-- `linearize_assignment` of `a op= b`, where `b` has the type of the field: the word left in the unit. -/
def linearizeAssignOp (f : BitField) (op : SourceBinary) (oldKnown known : Bool) (value orig : BitVec 64) :
    Option (BitVec 64) := do
  let old ← f.linearizeLoadGen orig
  let old ← f.sameSizeCast oldKnown old
  let dst ← binaryInsn f.intType op oldKnown known old value
  let dst ← f.sameSizeCast (oldKnown && known) dst
  f.linearizeStoreGen orig dst

/-- The bits of the unit above the field are set. -/
def SetAbove (f : BitField) (orig : BitVec 64) : Prop :=
  ∀ i, f.offset + f.width ≤ i → i < f.unit → orig.getLsbD i = true

/-- The value of the right operand, which the cast of `evaluate_assign_op` gave the type of the field. -/
def operand (f : BitField) (value : BitVec 64) : ℤ := f.intType.value (value &&& lowMask f.width)

/-- The size of the type that the field is promoted to. -/
def promotedSize (f : BitField) : ℕ := if f.width < 32 then 32 else f.unit

/-- The operands have a result in C, and a constant is one of the type of the field. -/
def OpDefined (f : BitField) (op : SourceBinary) (known : Bool) (value : BitVec 64) : Prop :=
  (known = true → Canonical f.width value) ∧
    match op with
    | .div | .mod => f.operand value ≠ 0
    | .leftShift | .rightShift => 0 ≤ f.operand value ∧ f.operand value < f.promotedSize
    | _ => True

/-- The constant that `get_cast_value` leaves of 32 bits and what is above them divides and shifts as they do. -/
def FoldsAlike (f : BitField) (op : SourceBinary) (value orig : BitVec 64) : Prop :=
  let wide := f.intType.value (orig >>> f.offset)
  ¬(op ≠ .rightShift ∧ wide = -2 ^ 63 ∧ f.operand value = -1) ∧
    BitVec.ofInt 32 (op.onValues wide (f.operand value)) =
      BitVec.ofInt 32 (op.onValues (f.value orig) (f.operand value))

/-- The word that is operated on: a constant of less than 32 bits is masked. -/
def oldWord (f : BitField) (oldKnown : Bool) (orig : BitVec 64) : BitVec 64 :=
  if oldKnown = true ∧ f.width < 32 then f.field orig else orig >>> f.offset

/-- When a folded instruction has the value of C. -/
def FoldSafe (f : BitField) (op : SourceBinary) (value orig : BitVec 64) : Prop :=
  match op with
  | .leftShift => value.getLsbD (f.width - 1) = false
  | .div | .mod | .rightShift => f.signed = true → f.width = 32 → f.FoldsAlike op value orig
  | _ => True

/-- When an instruction on registers leaves nothing above the width that does harm. -/
def RegisterSafe (f : BitField) (op : SourceBinary) (oldKnown known : Bool) (value orig : BitVec 64) : Prop :=
  match op with
  | .div | .mod => 0 ≤ op.onValues (f.value orig) (f.operand value) ∨ f.SetAbove orig
  | .rightShift => 0 ≤ f.value orig ∨ known = true ∧ f.operand value = 0 ∨
      (known = true → f.operand value < f.width) ∧ f.SetAbove orig
  | .leftShift => f.Harmless orig (f.oldWord oldKnown orig <<< (f.operand value).toNat)
  | op => f.Harmless orig (op.onBits (f.oldWord oldKnown orig) value)

/-- When a compound assignment stores what C computes. -/
def OpSafe (f : BitField) (op : SourceBinary) (oldKnown known : Bool) (value orig : BitVec 64) : Prop :=
  (oldKnown = true → f.width ≤ 32) ∧
    if oldKnown = true ∧ known = true then f.FoldSafe op value orig
    else f.RegisterSafe op oldKnown known value orig

end BitField

/-! ## Instructions -/

section

variable {c : IntType} {l r : BitVec 64}

theorem and_lowMask_setWidth (c : IntType) (x : BitVec 64) :
    (x &&& lowMask c.bitSize).setWidth c.bitSize = x.setWidth c.bitSize :=
  (and_lowMask_inj c.bitSize_pos c.bitSize_le).1
    (and_lowMask_eq c.bitSize_pos c.bitSize_le (canonical_and_lowMask c.bitSize_pos c.bitSize_le x))

/-- The extension of the sign is above the size. -/
theorem extendOperand_mask (c : IntType) (x : BitVec 64) :
    extendOperand c.bitSize x &&& lowMask c.bitSize = x &&& lowMask c.bitSize := by
  refine BitVec.eq_of_getLsbD_eq fun i _ => ?_
  rw [and_lowMask_getLsbD c.bitSize_pos c.bitSize_le, and_lowMask_getLsbD c.bitSize_pos c.bitSize_le]
  by_cases hi : i < c.bitSize
  · rw [extendOperand_getLsbD c.bitSize_pos c.bitSize_le hi]
  · simp [hi]

/-- A folded instruction sees the low bits of its left operand only, unless it divides or shifts it as a signed
number. -/
theorem insnFold_and_lowMask {op : SourceBinary}
    (hop : op.isModular = true ∨ op = .leftShift ∨ c.unsigned = true) (l r : BitVec 64) :
    (FoldedOp.binop op.op).insnFold c (l &&& lowMask c.bitSize) r = (FoldedOp.binop op.op).insnFold c l r := by
  have hle := c.bitSize_le
  have hmask : extendOperand c.bitSize (l &&& lowMask c.bitSize) &&& lowMask c.bitSize =
      extendOperand c.bitSize l &&& lowMask c.bitSize := by
    rw [extendOperand_mask, extendOperand_mask, BitVec.and_assoc, BitVec.and_self]
  have hlow := (and_lowMask_inj c.bitSize_pos hle).1 hmask
  have hbits : ∀ x : BitVec 64, op.onBits (extendOperand c.bitSize (l &&& lowMask c.bitSize)) x &&& lowMask c.bitSize =
      op.onBits (extendOperand c.bitSize l) x &&& lowMask c.bitSize := fun x => by
    rw [and_lowMask_inj c.bitSize_pos hle, SourceBinary.onBits_setWidth hle, SourceBinary.onBits_setWidth hle, hlow]
  cases op with
  | add | sub | and | or | xor =>
    cases hs : c.unsigned
    all_goals
      simp only [FoldedOp.insnFold, SourceBinary.op, BinaryOp.opcode, opcodeSign, hs, simplifyConstantBinop,
        Bool.false_eq_true, if_false, if_true, Option.map_some]
      exact congrArg some (hbits _)
  | mul =>
    cases hs : c.unsigned with
    | true =>
      simp only [FoldedOp.insnFold, SourceBinary.op, BinaryOp.opcode, opcodeSign, hs, simplifyConstantBinop, if_true,
        hmask]
    | false =>
      simp only [FoldedOp.insnFold, SourceBinary.op, BinaryOp.opcode, opcodeSign, hs, simplifyConstantBinop,
        Bool.false_eq_true, if_false, Option.map_some]
      exact congrArg some (hbits _)
  | leftShift =>
    have hshift : ∀ n : ℕ, extendOperand c.bitSize (l &&& lowMask c.bitSize) <<< n &&& lowMask c.bitSize =
        extendOperand c.bitSize l <<< n &&& lowMask c.bitSize := fun n => by
      refine BitVec.eq_of_getLsbD_eq fun i hi => ?_
      have hbit := congrArg (fun x => BitVec.getLsbD x (i - n)) hmask
      simp only [and_lowMask_getLsbD c.bitSize_pos hle, BitVec.getLsbD_shiftLeft] at hbit ⊢
      by_cases hi' : i < c.bitSize
      · rw [decide_eq_true (show i - n < c.bitSize by omega), Bool.true_and, Bool.true_and] at hbit
        rw [hbit]
      · simp [hi']
    cases hs : c.unsigned
    all_goals
      simp only [FoldedOp.insnFold, SourceBinary.op, BinaryOp.opcode, opcodeSign, hs, simplifyConstantBinop,
        Bool.false_eq_true, if_false, if_true, hostShl]
      split
      · exact congrArg some (hshift _)
      · rfl
  | div | mod | rightShift =>
    have hs : c.unsigned = true := by simpa [SourceBinary.isModular] using hop
    simp only [FoldedOp.insnFold, SourceBinary.op, BinaryOp.opcode, opcodeSign, hs, simplifyConstantBinop, if_true,
      hmask]

/-- Modular operators on the low bits of the values. -/
theorem onBits_ofInt {op : SourceBinary} (hop : op.isModular = true) {w : ℕ} (hw : w ≤ 64) (a b : ℤ) :
    op.onBits (BitVec.ofInt w a) (BitVec.ofInt w b) = BitVec.ofInt w (op.onValues a b) := by
  have hbits : BitVec.ofInt w (op.onBits (BitVec.ofInt 64 a) (BitVec.ofInt 64 b)).toInt =
      op.onBits (BitVec.ofInt w a) (BitVec.ofInt w b) := by
    rw [← ofInt_setWidth hw, BitVec.ofInt_toInt, SourceBinary.onBits_setWidth hw, ofInt_setWidth hw, ofInt_setWidth hw]
  cases op with
  | add => exact (BitVec.ofInt_add _ _).symm
  | sub =>
    simp only [SourceBinary.onBits, SourceBinary.onValues]
    rw [Int.sub_eq_add_neg, BitVec.ofInt_add, BitVec.ofInt_neg, BitVec.sub_eq_add_neg]
  | mul => exact (BitVec.ofInt_mul _ _).symm
  | and | or | xor => exact hbits.symm
  | div | mod | leftShift | rightShift => exact absurd hop Bool.false_ne_true

end

namespace BitField

variable {f : BitField} {orig : BitVec 64}

/-! ## `++` and `--` -/

theorem field_setWidth (f : BitField) (orig : BitVec 64) :
    (f.field orig).setWidth f.width = BitVec.ofInt f.width (f.value orig) := by
  rw [value_setWidth]
  exact and_lowMask_setWidth f.intType _

theorem canonical_one (c : IntType) : Canonical c.bitSize 1#64 := by
  have hpos := c.bitSize_pos
  change 1 < 2 ^ c.bitSize
  exact Nat.one_lt_two_pow (by omega)

theorem field_eq_lowMask_iff (f : BitField) (orig : BitVec 64) :
    f.field orig = lowMask f.width ↔ ∀ i < f.width, orig.getLsbD (f.offset + i) = true := by
  have hfield : ∀ i, (f.field orig).getLsbD i = (decide (i < f.width) && orig.getLsbD (f.offset + i)) := fun i => by
    rw [field, and_lowMask_getLsbD f.width_pos f.width_le, shifted_getLsbD]
  constructor
  · intro h i hi
    have hbit := hfield i
    rw [h, lowMask_getLsbD f.width_pos f.width_le, decide_eq_true hi, Bool.true_and] at hbit
    exact hbit.symm
  · intro h
    refine BitVec.eq_of_getLsbD_eq fun i _ => ?_
    rw [hfield, lowMask_getLsbD f.width_pos f.width_le]
    by_cases hi : i < f.width
    · rw [h i hi, Bool.and_true]
    · simp [hi]

theorem value_eq_zero_iff_bits (f : BitField) (orig : BitVec 64) :
    f.value orig = 0 ↔ ∀ i < f.width, orig.getLsbD (f.offset + i) = false := by
  rw [value_eq_zero_iff, field, (BitVec.zero_and (x := lowMask f.width)).symm, and_lowMask_inj f.width_pos f.width_le]
  constructor
  · intro h i hi
    have hbit := congrArg (fun x => BitVec.getLsbD x i) h
    simpa [BitVec.getLsbD_setWidth, hi, shifted_getLsbD] using hbit
  · intro h
    refine BitVec.eq_of_getLsbD_eq fun i hi => ?_
    simpa [BitVec.getLsbD_setWidth, hi, shifted_getLsbD] using h i hi

/-- An increment carries past the field when all of its bits are set. -/
theorem harmless_add_one_iff (f : BitField) (orig : BitVec 64) :
    f.Harmless orig (orig >>> f.offset + 1#64) ↔ f.field orig ≠ lowMask f.width ∨ f.SetAbove orig := by
  have hunit := f.unit_le
  have hbit : ∀ i, f.offset + f.width ≤ i → i < f.unit → (orig >>> f.offset + 1#64).getLsbD (i - f.offset) =
      (orig.getLsbD i ^^ decide (∀ j < i - f.offset, orig.getLsbD (f.offset + j) = true)) := fun i hi hlt => by
    rw [add_one_getLsbD _ (by omega), shifted_getLsbD, Nat.add_sub_cancel' (by omega)]
    simp only [shifted_getLsbD]
  constructor
  · intro h
    rw [or_iff_not_imp_left, not_not, field_eq_lowMask_iff]
    intro hfield i
    -- Below the bit, all bits of the field and above it are set.
    induction i using Nat.strong_induction_on with
    | _ i ih =>
      intro hi hlt
      have hbelow : ∀ j < i - f.offset, orig.getLsbD (f.offset + j) = true := fun j hj => by
        by_cases hin : j < f.width
        · exact hfield j hin
        · exact ih (f.offset + j) (by omega) (by omega) (by omega)
      by_contra hclear
      refine hclear (h i hi hlt ?_)
      rw [hbit i hi hlt, decide_eq_true hbelow, Bool.eq_false_of_not_eq_true hclear, Bool.false_xor]
  · rintro (hfield | hset) i hi hlt hword
    · rw [ne_eq, field_eq_lowMask_iff, not_forall] at hfield
      obtain ⟨j, hj⟩ := hfield
      rw [Classical.not_imp] at hj
      have hnot : ¬ ∀ j < i - f.offset, orig.getLsbD (f.offset + j) = true := fun hall => hj.2 (hall j (by omega))
      rwa [hbit i hi hlt, decide_eq_false hnot, Bool.xor_false] at hword
    · exact hset i hi hlt

/-- A decrement borrows from the bit above a field that is zero. -/
theorem harmless_sub_one_iff (f : BitField) (orig : BitVec 64) :
    f.Harmless orig (orig >>> f.offset - 1#64) ↔
      f.value orig ≠ 0 ∨ (f.offset + f.width < f.unit → orig.getLsbD (f.offset + f.width) = true) := by
  have hunit := f.unit_le
  have hbit : ∀ i, f.offset + f.width ≤ i → i < f.unit → (orig >>> f.offset - 1#64).getLsbD (i - f.offset) =
      (orig.getLsbD i ^^ decide (∀ j < i - f.offset, orig.getLsbD (f.offset + j) = false)) := fun i hi hlt => by
    rw [sub_one_getLsbD _ (by omega), shifted_getLsbD, Nat.add_sub_cancel' (by omega)]
    simp only [shifted_getLsbD]
  have hsame : ∀ i j, f.offset + f.width ≤ i → i < f.unit → j < i - f.offset → orig.getLsbD (f.offset + j) = true →
      (orig >>> f.offset - 1#64).getLsbD (i - f.offset) = orig.getLsbD i := fun i j hi hlt hj hset => by
    have hnot : ¬ ∀ j < i - f.offset, orig.getLsbD (f.offset + j) = false := fun hall => by
      rw [hall j hj] at hset
      cases hset
    rw [hbit i hi hlt, decide_eq_false hnot, Bool.xor_false]
  constructor
  · intro h
    rw [or_iff_not_imp_left, not_not, value_eq_zero_iff_bits]
    intro hzero hlt
    by_contra hclear
    refine hclear (h _ le_rfl hlt ?_)
    have hbelow : ∀ j < f.offset + f.width - f.offset, orig.getLsbD (f.offset + j) = false := fun j hj =>
      hzero j (by omega)
    rw [hbit _ le_rfl hlt, decide_eq_true hbelow, Bool.eq_false_of_not_eq_true hclear, Bool.false_xor]
  · rintro (hvalue | hnext) i hi hlt hword
    · rw [ne_eq, value_eq_zero_iff_bits, not_forall] at hvalue
      obtain ⟨j, hj⟩ := hvalue
      rw [Classical.not_imp, Bool.not_eq_false] at hj
      rwa [hsame i j hi hlt (by omega) hj.2] at hword
    · have hset := hnext (by omega)
      rcases Nat.eq_or_lt_of_le hi with rfl | hgt
      · exact hset
      · rwa [hsame i f.width hi hlt (by omega) hset] at hword

/-- A constant is incremented in the width of the field, and a register wherever it carries no bit into a
clear one. -/
theorem incDec_iff (horig : Canonical f.unit orig) (decrement known : Bool) :
    (∃ new, f.linearizeIncDec decrement known orig = some new ∧ f.Stored orig
        (BitVec.ofInt 64 (if decrement then f.value orig - 1 else f.value orig + 1)) new) ↔
      (known = false → if decrement then
          f.value orig ≠ 0 ∨ (f.offset + f.width < f.unit → orig.getLsbD (f.offset + f.width) = true)
        else f.field orig ≠ lowMask f.width ∨ f.SetAbove orig) := by
  have hop : ∃ op : SourceBinary, op = (if decrement then SourceBinary.sub else .add) ∧ op.isModular = true ∧
      (if decrement then f.value orig - 1 else f.value orig + 1) = op.onValues (f.value orig) 1 := by
    cases decrement
    · exact ⟨.add, rfl, rfl, rfl⟩
    · exact ⟨.sub, rfl, rfl, rfl⟩
  obtain ⟨op, hop, hmodular, hz⟩ := hop
  have hlow : op.onBits ((f.field orig).setWidth f.width) ((1#64).setWidth f.width) =
      BitVec.ofInt f.width (op.onValues (f.value orig) 1) := by
    rw [field_setWidth, ← onBits_ofInt hmodular f.width_le, ← ofInt_setWidth f.width_le 1]
    rfl
  rw [hz]
  simp only [linearizeIncDec, linearizeLoadGen_eq horig, Option.bind_eq_bind, Option.bind_some, ← hop]
  cases known with
  | true =>
    obtain ⟨v, hv, hcan, hbits⟩ := insnFold_modular hmodular (f.canonical_field orig) (canonical_one f.intType)
    have hfold : binaryInsn f.intType op true true (orig >>> f.offset) 1#64 = some v := by
      rw [← hv]
      exact (insnFold_and_lowMask (.inl hmodular) _ _).symm
    rw [hfold, Option.bind_some, stored_ofInt_iff]
    exact iff_of_true ⟨hbits.trans hlow, harmless_of_canonical orig hcan⟩ nofun
  | false =>
    have hregister : binaryInsn f.intType op false true (orig >>> f.offset) 1#64 =
        some (op.onBits (orig >>> f.offset) 1#64) := by
      rw [hop]
      cases decrement <;> rfl
    have hwidth : (op.onBits (orig >>> f.offset) 1#64).setWidth f.width =
        BitVec.ofInt f.width (op.onValues (f.value orig) 1) := by
      rw [SourceBinary.onBits_setWidth f.width_le, ← value_setWidth, ← field_setWidth]
      exact hlow
    have hharmless : f.Harmless orig (op.onBits (orig >>> f.offset) 1#64) ↔
        if decrement then f.value orig ≠ 0 ∨ (f.offset + f.width < f.unit → orig.getLsbD (f.offset + f.width) = true)
        else f.field orig ≠ lowMask f.width ∨ f.SetAbove orig := by
      rw [hop]
      cases decrement with
      | true => exact f.harmless_sub_one_iff orig
      | false => exact f.harmless_add_one_iff orig
    rw [hregister, Option.bind_some, stored_ofInt_iff, and_iff_right hwidth, hharmless]
    exact ⟨fun h _ => h, fun h => h rfl⟩

/-! ## Compound assignments -/

theorem ofInt_operand (f : BitField) (value : BitVec 64) :
    BitVec.ofInt f.width (f.operand value) = value.setWidth f.width := by
  have hmask : (value &&& lowMask f.width).setWidth f.width = value.setWidth f.width :=
    and_lowMask_setWidth f.intType value
  rw [operand, ← ofInt_setWidth f.width_le, ofInt_value, ← hmask, extendIfSigned]
  split
  · rfl
  · rw [← extendOperand_eq]
    exact f.extendOperand_setWidth _

theorem value_range (f : BitField) (orig : BitVec 64) :
    -2 ^ (f.width - 1) ≤ f.value orig ∧ f.value orig < 2 ^ f.width ∧
      (f.signed = true → f.value orig < 2 ^ (f.width - 1)) := by
  have hrange := IntType.inRange_value (c := f.intType) (f.canonical_field orig)
  have hpos := IntType.two_pow_pos (f.width - 1)
  have hle : (2 : ℤ) ^ (f.width - 1) ≤ 2 ^ f.width := pow_le_pow_right₀ (by decide) (Nat.sub_le _ _)
  change f.intType.InRange (f.value orig) at hrange
  rw [IntType.InRange] at hrange
  split at hrange
  · rename_i hu
    refine ⟨by omega, hrange.2, fun hs => ?_⟩
    simp [intType, hs] at hu
  · exact ⟨hrange.1, hrange.2.trans_le hle, fun _ => hrange.2⟩

theorem value_nonneg (f : BitField) (orig : BitVec 64) (hs : f.signed = false) : 0 ≤ f.value orig := by
  have hu : f.intType.unsigned = true := by simp [intType, hs]
  rw [value, IntType.value, if_pos hu]
  exact Int.natCast_nonneg _

/-- A count that is not negative is what the low bits say, below the sign of a signed field. -/
theorem operand_of_nonneg (f : BitField) (value : BitVec 64) (h : 0 ≤ f.operand value) :
    ((value &&& lowMask f.width).toNat : ℤ) = f.operand value ∧
      (f.signed = true → (value &&& lowMask f.width).toNat < 2 ^ (f.width - 1)) := by
  have hcan := canonical_and_lowMask f.width_pos f.width_le value
  unfold operand IntType.value at h ⊢
  cases hs : f.signed with
  | false =>
    have hu : f.intType.unsigned = true := by simp [intType, hs]
    rw [if_pos hu]
    exact ⟨rfl, fun h => absurd h Bool.false_ne_true⟩
  | true =>
    have hu : ¬ f.intType.unsigned = true := by simp [intType, hs]
    rw [if_neg hu] at h ⊢
    rcases Nat.lt_or_ge (value &&& lowMask f.width).toNat (2 ^ (f.width - 1)) with hlt | hge
    · exact ⟨(signExtended_toInt_of_lt f.width_pos f.width_le hlt).symm, fun _ => hlt⟩
    · have hext := signExtended_toInt_of_le f.width_pos f.width_le hcan hge
      have hlt : ((value &&& lowMask f.width).toNat : ℤ) < 2 ^ f.width := by exact_mod_cast hcan
      change 0 ≤ (signExtended f.width _).toInt at h
      omega

/-- The top bit of a constant of the type. -/
theorem getLsbD_top_iff (f : BitField) {value : BitVec 64} (hvalue : Canonical f.width value) :
    value.getLsbD (f.width - 1) = false ↔ value.toNat < 2 ^ (f.width - 1) := by
  have hpow := two_pow_pred f.width_pos
  have hlt : value.toNat < 2 ^ f.width := hvalue
  constructor
  · intro h
    by_contra hge
    have hset : value.toNat.testBit (f.width - 1) = true := Nat.testBit_of_two_pow_le_and_two_pow_add_one_gt
      (Nat.not_lt.1 hge) (by rw [Nat.sub_add_cancel f.width_pos]; exact hlt)
    rw [BitVec.getLsbD, hset] at h
    cases h
  · exact Nat.testBit_lt_two_pow

/-- The mask of 32 bits lets all bits through, and a larger one has no value. -/
theorem sameSizeCast_true (f : BitField) (x : BitVec 64) :
    f.sameSizeCast true x =
      if f.width ≤ 32 then some (if f.width < 32 then x &&& lowMask f.width else x) else none := by
  have hpos := f.width_pos
  simp only [sameSizeCast, if_true, getCastValue, Nat.lt_irrefl, and_false, if_false, pure, Option.bind_eq_bind,
    Option.bind_some, hostIntShl]
  rcases lt_trichotomy f.width 32 with hlt | heq | hgt
  · rw [if_pos (show f.width - 1 < 31 by omega), if_pos (by omega), if_pos hlt, Option.bind_some, ← signBit_eq]
    rfl
  · have hall : BitVec.ofInt 64 (-2 ^ 31) ||| (BitVec.ofInt 64 (-2 ^ 31) - 1#64) = BitVec.allOnes 64 := by decide
    rw [if_neg (by omega), if_pos (show f.width - 1 = 31 by omega), if_pos (by omega), if_neg (by omega),
      Option.bind_some, hall, BitVec.and_allOnes]
  · rw [if_neg (by omega), if_neg (by omega), if_neg (by omega), Option.bind_none]

theorem sameSizeCast_old (f : BitField) (oldKnown : Bool) (orig : BitVec 64) :
    f.sameSizeCast oldKnown (orig >>> f.offset) =
      if oldKnown = true → f.width ≤ 32 then some (f.oldWord oldKnown orig) else none := by
  cases oldKnown with
  | true =>
    rw [sameSizeCast_true]
    simp only [oldWord, true_and, forall_const]
    rfl
  | false => simp [sameSizeCast, oldWord]

theorem oldWord_and_lowMask (f : BitField) (oldKnown : Bool) (orig : BitVec 64) :
    f.oldWord oldKnown orig &&& lowMask f.width = f.field orig := by
  rw [oldWord, field]
  split
  · rw [BitVec.and_assoc, BitVec.and_self]
  · rfl

theorem oldWord_setWidth (f : BitField) (oldKnown : Bool) (orig : BitVec 64) :
    (f.oldWord oldKnown orig).setWidth f.width = BitVec.ofInt f.width (f.value orig) := by
  rw [← field_setWidth, ← f.oldWord_and_lowMask oldKnown orig]
  exact (and_lowMask_setWidth f.intType _).symm

/-- A folded instruction has the low bits of a value. -/
def FoldsTo (f : BitField) (op : SourceBinary) (old value : BitVec 64) (z : ℤ) : Prop :=
  ∃ dst, (FoldedOp.binop op.op).insnFold f.intType old value = some dst ∧
    dst.setWidth f.width = BitVec.ofInt f.width z

theorem foldsTo_word {op : SourceBinary} {old value : BitVec 64} {y z : ℤ}
    (h : (FoldedOp.binop op.op).insnFold f.intType old value = some (f.intType.word y)) :
    f.FoldsTo op old value z ↔ BitVec.ofInt f.width y = BitVec.ofInt f.width z := by
  have hword : (f.intType.word y).setWidth f.width = BitVec.ofInt f.width y := IntType.word_setWidth f.intType y le_rfl
  rw [FoldsTo, h, ← hword]
  constructor
  · rintro ⟨dst, hdst, hlow⟩
    rwa [Option.some.inj hdst]
  · exact fun hlow => ⟨_, rfl, hlow⟩

theorem foldsTo_none {op : SourceBinary} {old value : BitVec 64} {z : ℤ}
    (h : (FoldedOp.binop op.op).insnFold f.intType old value = none) : ¬ f.FoldsTo op old value z := by
  rintro ⟨dst, hdst, -⟩
  rw [h] at hdst
  cases hdst

/-- Only the low bits of the old word count, unless it is divided or shifted as a signed number. -/
theorem foldsTo_field_iff {op : SourceBinary} (hop : op.isModular = true ∨ op = .leftShift ∨ f.signed = false)
    (oldKnown : Bool) (orig value : BitVec 64) (z : ℤ) :
    f.FoldsTo op (f.oldWord oldKnown orig) value z ↔ f.FoldsTo op (f.field orig) value z := by
  have hlow : op.isModular = true ∨ op = .leftShift ∨ f.intType.unsigned = true :=
    hop.imp_right fun h => h.imp_right fun hs => by simp [intType, hs]
  have hfold := insnFold_and_lowMask hlow (f.oldWord oldKnown orig) value
  have hmask : f.oldWord oldKnown orig &&& lowMask f.intType.bitSize = f.field orig :=
    f.oldWord_and_lowMask oldKnown orig
  rw [FoldsTo, FoldsTo, ← hfold, hmask]

/-- Constants are folded to what C computes. -/
theorem foldsTo_iff (hw : f.width ≤ 32) {op : SourceBinary} {value : BitVec 64} (hdefined : f.OpDefined op true value)
    (orig : BitVec 64) :
    f.FoldsTo op (f.oldWord true orig) value (op.onValues (f.value orig) (f.operand value)) ↔
      f.FoldSafe op value orig := by
  obtain ⟨hcanonical, hresult⟩ := hdefined
  have hvalue : Canonical f.intType.bitSize value := hcanonical rfl
  have hmask : value &&& lowMask f.width = value := and_lowMask_eq f.width_pos f.width_le hvalue
  have hoperand : f.operand value = f.intType.value value := by rw [operand, hmask]
  have hcanField : Canonical f.intType.bitSize (f.field orig) := f.canonical_field orig
  have hfieldValue : f.intType.value (f.field orig) = f.value orig := rfl
  have hrange := f.value_range orig
  have hpow : (2 : ℤ) ^ (f.width - 1) ≤ 2 ^ 31 := pow_le_pow_right₀ (by decide) (by omega)
  -- The old word is that of the field but for a signed one of 32 bits.
  have hold : f.signed = true → f.width ≠ 32 → f.oldWord true orig = f.field orig := fun _ hne => by
    rw [oldWord, if_pos ⟨rfl, by omega⟩]
  have hwide : f.width = 32 → f.oldWord true orig = orig >>> f.offset := fun h32 => by
    rw [oldWord, if_neg (by omega)]
  have hmodular : op.isModular = true → f.FoldsTo op (f.oldWord true orig) value
      (op.onValues (f.value orig) (f.operand value)) := fun hop => by
    rw [foldsTo_field_iff (.inl hop)]
    obtain ⟨v, hv, -, hbits⟩ := insnFold_modular hop hcanField hvalue
    refine ⟨v, hv, hbits.trans ?_⟩
    rw [← onBits_ofInt hop f.width_le, ← field_setWidth, ofInt_operand]
    rfl
  have hcount : 0 ≤ f.operand value → f.operand value < f.promotedSize →
      (value.toNat : ℤ) = f.operand value ∧ value.toNat < 64 ∧
        (f.signed = true → value.toNat < 2 ^ (f.width - 1)) := fun h0 hlt => by
    obtain ⟨hnat, hbelow⟩ := f.operand_of_nonneg value h0
    rw [hmask] at hnat hbelow
    have hunit := f.unit_le
    refine ⟨hnat, ?_, hbelow⟩
    unfold promotedSize at hlt
    split at hlt <;> omega
  have hdivision : op = .div ∨ op = .mod → f.operand value ≠ 0 →
      (f.FoldsTo op (f.oldWord true orig) value (op.onQuotient (f.value orig) (f.operand value)) ↔
        (f.signed = true → f.width = 32 → ¬(f.intType.value (orig >>> f.offset) = -2 ^ 63 ∧ f.operand value = -1) ∧
          BitVec.ofInt 32 (op.onQuotient (f.intType.value (orig >>> f.offset)) (f.operand value)) =
            BitVec.ofInt 32 (op.onQuotient (f.value orig) (f.operand value)))) := fun hop hzero => by
    rw [hoperand] at hzero ⊢
    have hleast : ¬(f.intType.value (f.field orig) = -2 ^ 63 ∧ f.intType.value value = -1) := by
      rw [hfieldValue]
      omega
    have hfield := insnFold_division hop hcanField hvalue hzero hleast
    rw [hfieldValue] at hfield
    cases hs : f.signed with
    | false =>
      rw [foldsTo_field_iff (.inr (.inr hs)), foldsTo_word hfield]
      exact iff_of_true rfl nofun
    | true =>
      by_cases h32 : f.width = 32
      · have hu : f.intType.unsigned = false := by simp [intType, hs]
        have hfold := insnFold_division_signed (l := orig >>> f.offset) hop hu hvalue hzero
        rw [hwide h32]
        simp only [h32, forall_const]
        split_ifs at hfold with hmin
        · exact iff_of_false (foldsTo_none hfold) fun h => h.1 hmin
        · rw [foldsTo_word hfold, h32, and_iff_right hmin]
      · rw [hold hs h32, foldsTo_word hfield]
        exact iff_of_true rfl fun _ h => absurd h h32
  cases op with
  | add | sub | mul | and | or | xor => exact iff_of_true (hmodular rfl) trivial
  | div =>
    refine (hdivision (.inl rfl) hresult).trans ?_
    simp [FoldSafe, FoldsAlike, SourceBinary.onValues]
  | mod =>
    refine (hdivision (.inr rfl) hresult).trans ?_
    simp [FoldSafe, FoldsAlike, SourceBinary.onValues]
  | leftShift =>
    obtain ⟨hnat, h64, -⟩ := hcount hresult.1 hresult.2
    have hexp : (f.operand value).toNat = value.toNat := by omega
    rw [foldsTo_field_iff (.inr (.inl rfl)), FoldSafe, f.getLsbD_top_iff hvalue]
    rcases Nat.lt_or_ge value.toNat (2 ^ (f.width - 1)) with hlt | hge
    · have hfold := insnFold_leftShift hcanField h64 hlt
      refine iff_of_true ((foldsTo_word hfold).2 ?_) hlt
      simp only [SourceBinary.onValues, hexp, hfieldValue]
    · exact iff_of_false (foldsTo_none (insnFold_leftShift_none hvalue hge _)) (by omega)
  | rightShift =>
    obtain ⟨hnat, h64, hbelow⟩ := hcount hresult.1 hresult.2
    have hexp : (f.operand value).toNat = value.toNat := by omega
    simp only [FoldSafe, SourceBinary.onValues, hexp]
    cases hs : f.signed with
    | false =>
      have hu : f.intType.unsigned = true := by simp [intType, hs]
      have hfold := insnFold_rightShift_unsigned hu hcanField hvalue h64
      rw [foldsTo_field_iff (.inr (.inr hs)), foldsTo_word hfold]
      exact iff_of_true rfl nofun
    | true =>
      have hu : f.intType.unsigned = false := by simp [intType, hs]
      by_cases h32 : f.width = 32
      · have hfold := insnFold_rightShift_signed (l := orig >>> f.offset) hu h64 (hbelow hs)
        rw [hwide h32, foldsTo_word hfold, h32]
        simp [FoldsAlike, SourceBinary.onValues, hexp]
      · have hfold := insnFold_rightShift_signed (l := f.field orig) hu h64 (hbelow hs)
        rw [hold hs h32, foldsTo_word hfold]
        exact iff_of_true rfl fun _ h => absurd h h32

/-- A result that is no wider than the field does harm only as a negative number. -/
theorem harmless_ofInt_iff (f : BitField) (orig : BitVec 64) {z : ℤ} (hlow : -2 ^ f.width ≤ z)
    (hhigh : z < 2 ^ f.width) :
    f.Harmless orig (BitVec.ofInt 64 z) ↔ 0 ≤ z ∨ f.SetAbove orig := by
  have hunit := f.unit_le
  have hle := f.width_le
  have hpow : (2 : ℤ) ^ f.width ≤ 2 ^ 64 := pow_le_pow_right₀ (by decide) hle
  rcases lt_or_ge z 0 with hneg | hnonneg
  · -- The bits above the width are those of the sign.
    have hset : ∀ i, f.width ≤ i → i < 64 → (BitVec.ofInt 64 z).getLsbD i = true := fun i hi h64 => by
      have hflip : (BitVec.ofInt 64 (-z - 1)).getLsbD i = false := by
        have hnat : ((BitVec.ofInt 64 (-z - 1)).toNat : ℤ) = -z - 1 := by
          rw [BitVec.toNat_ofInt, Int.toNat_of_nonneg (Int.emod_nonneg _ (by decide)),
            Int.emod_eq_of_lt (by omega) (by push_cast; omega)]
        refine getLsbD_of_canonical (w := f.width) ?_ hi
        have hcast : ((BitVec.ofInt 64 (-z - 1)).toNat : ℤ) < ((2 ^ f.width : ℕ) : ℤ) := by
          rw [hnat]
          push_cast
          omega
        exact_mod_cast hcast
      have hnot : BitVec.ofInt 64 (-z - 1) = ~~~BitVec.ofInt 64 z := by
        rw [Int.sub_eq_add_neg, BitVec.ofInt_add, BitVec.ofInt_neg, BitVec.neg_eq_not_add, BitVec.add_assoc]
        exact BitVec.add_zero _
      rw [hnot, BitVec.getLsbD_not, decide_eq_true h64, Bool.true_and, Bool.not_eq_false'] at hflip
      exact hflip
    rw [or_iff_right (by omega)]
    exact ⟨fun h i hi hlt => h i hi hlt (hset _ (by omega) (by omega)), fun h i hi hlt _ => h i hi hlt⟩
  · refine iff_of_true (f.harmless_of_canonical orig ?_) (.inl hnonneg)
    have hcast : ((BitVec.ofInt 64 z).toNat : ℤ) < ((2 ^ f.width : ℕ) : ℤ) := by
      rw [BitVec.toNat_ofInt, Int.toNat_of_nonneg (Int.emod_nonneg _ (by decide)),
        Int.emod_eq_of_lt hnonneg (by push_cast; omega)]
      push_cast
      exact hhigh
    exact_mod_cast hcast

/-- The value that an instruction leaves for the store stores what C computes. -/
def Leaves (f : BitField) (orig : BitVec 64) (dst : Option (BitVec 64)) (z : ℤ) : Prop :=
  ∃ word, dst = some word ∧ word.setWidth f.width = BitVec.ofInt f.width z ∧ f.Harmless orig word

theorem leaves_some {word : BitVec 64} {z : ℤ} :
    f.Leaves orig (some word) z ↔ word.setWidth f.width = BitVec.ofInt f.width z ∧ f.Harmless orig word :=
  ⟨fun ⟨_, hword, h⟩ => by rwa [Option.some.inj hword], fun h => ⟨word, rfl, h⟩⟩

theorem leaves_ofInt {z : ℤ} (hlow : -2 ^ f.width ≤ z) (hhigh : z < 2 ^ f.width) :
    f.Leaves orig (some (BitVec.ofInt 64 z)) z ↔ 0 ≤ z ∨ f.SetAbove orig := by
  rw [leaves_some, ofInt_setWidth f.width_le, f.harmless_ofInt_iff orig hlow hhigh]
  exact and_iff_right rfl

/-- Divisions and shifts to the right do not leave the range of the field. -/
theorem onValues_range (f : BitField) (orig : BitVec 64) {op : SourceBinary}
    (hop : op = .div ∨ op = .mod ∨ op = .rightShift) (b : ℤ) :
    -2 ^ f.width ≤ op.onValues (f.value orig) b ∧ op.onValues (f.value orig) b < 2 ^ f.width := by
  obtain ⟨hlow, hhigh, hsigned⟩ := f.value_range orig
  have hpow : (2 : ℤ) ^ f.width = 2 * 2 ^ (f.width - 1) := by exact_mod_cast two_pow_pred f.width_pos
  have hquotient : ((f.value orig).tdiv b).natAbs ≤ (f.value orig).natAbs := by
    rw [Int.natAbs_tdiv]
    exact Nat.div_le_self _ _
  have hremainder : ((f.value orig).tmod b).natAbs ≤ (f.value orig).natAbs := by
    rw [Int.natAbs_tmod]
    exact Nat.mod_le _ _
  rcases hop with rfl | rfl | rfl
  · simp only [SourceBinary.onValues, SourceBinary.onQuotient_div]
    omega
  · simp only [SourceBinary.onValues, SourceBinary.onQuotient_mod]
    omega
  · have hpos : (0 : ℤ) < 2 ^ b.toNat := by positivity
    have hdiv := Int.ediv_mul_le (f.value orig) hpos.ne'
    have hlt := Int.lt_ediv_add_one_mul_self (f.value orig) hpos
    simp only [SourceBinary.onValues]
    rcases lt_or_ge (f.value orig) 0 with hneg | hnonneg
    · have hup : f.value orig / 2 ^ b.toNat < 0 := Int.ediv_neg_of_neg_of_pos hneg hpos
      have hdown : f.value orig ≤ f.value orig / 2 ^ b.toNat := by nlinarith
      omega
    · have hup := Int.ediv_le_self (2 ^ b.toNat) hnonneg
      have hdown := Int.ediv_nonneg hnonneg hpos.le
      omega

/-- In registers the bits above the width are left over. -/
theorem leaves_register_iff {op : SourceBinary} {known : Bool} {value : BitVec 64}
    (hdefined : f.OpDefined op known value) (oldKnown : Bool) (orig : BitVec 64) :
    f.Leaves orig (registerBinop f.intType op (f.oldWord oldKnown orig) value)
        (op.onValues (f.value orig) (f.operand value)) ↔
      match op with
      | .div | .mod | .rightShift => 0 ≤ op.onValues (f.value orig) (f.operand value) ∨ f.SetAbove orig
      | .leftShift => f.Harmless orig (f.oldWord oldKnown orig <<< (f.operand value).toNat)
      | op => f.Harmless orig (op.onBits (f.oldWord oldKnown orig) value) := by
  have hunit := f.unit_le
  have hvalue : f.intType.value (f.oldWord oldKnown orig &&& lowMask f.intType.bitSize) = f.value orig :=
    congrArg f.intType.value (f.oldWord_and_lowMask oldKnown orig)
  have hoperand : f.intType.value (value &&& lowMask f.intType.bitSize) = f.operand value := rfl
  have hcount : 0 ≤ f.operand value → f.operand value < f.promotedSize →
      (value &&& lowMask f.intType.bitSize).toNat = (f.operand value).toNat ∧ f.operand value < 64 := fun h0 hlt => by
    have hnat : ((value &&& lowMask f.intType.bitSize).toNat : ℤ) = f.operand value := (f.operand_of_nonneg value h0).1
    unfold promotedSize at hlt
    split at hlt <;> omega
  have hmodular : op.isModular = true → (op.onBits (f.oldWord oldKnown orig) value).setWidth f.width =
      BitVec.ofInt f.width (op.onValues (f.value orig) (f.operand value)) := fun hop => by
    rw [SourceBinary.onBits_setWidth f.width_le, oldWord_setWidth, ← ofInt_operand, onBits_ofInt hop f.width_le]
  obtain ⟨-, hresult⟩ := hdefined
  cases op with
  | add | sub | mul | and | or | xor => exact leaves_some.trans (and_iff_right (hmodular rfl))
  | div =>
    have hrange := f.onValues_range orig (.inl rfl) (f.operand value)
    simp only [registerBinop, hvalue, hoperand]
    rw [if_neg hresult]
    exact leaves_ofInt hrange.1 hrange.2
  | mod =>
    have hrange := f.onValues_range orig (.inr (.inl rfl)) (f.operand value)
    simp only [registerBinop, hvalue, hoperand]
    rw [if_neg hresult]
    exact leaves_ofInt hrange.1 hrange.2
  | leftShift =>
    obtain ⟨hnat, h64⟩ := hcount hresult.1 hresult.2
    have hlow : (f.oldWord oldKnown orig <<< (f.operand value).toNat).setWidth f.width =
        BitVec.ofInt f.width (f.value orig * 2 ^ (f.operand value).toNat) := by
      have htwo : BitVec.twoPow 64 (f.operand value).toNat = BitVec.ofInt 64 (2 ^ (f.operand value).toNat) := by
        have hcast : (2 : ℤ) ^ (f.operand value).toNat = ((2 ^ (f.operand value).toNat : ℕ) : ℤ) := by push_cast; rfl
        rw [hcast, BitVec.ofInt_natCast]
        exact BitVec.eq_of_toNat_eq (by rw [BitVec.toNat_twoPow, BitVec.toNat_ofNat])
      rw [BitVec.shiftLeft_eq_mul_twoPow, BitVec.setWidth_mul _ _ f.width_le, oldWord_setWidth, htwo,
        ofInt_setWidth f.width_le, BitVec.ofInt_mul]
    rw [registerBinop, hostShl, hnat, if_pos (by omega), leaves_some]
    exact and_iff_right hlow
  | rightShift =>
    obtain ⟨-, h64⟩ := hcount hresult.1 hresult.2
    have hrange := f.onValues_range orig (.inr (.inr rfl)) (f.operand value)
    simp only [registerBinop, hvalue, hoperand]
    rw [if_pos ⟨hresult.1, h64⟩]
    exact leaves_ofInt hrange.1 hrange.2

/-- A shift by a constant count that the field does not reach leaves zero, and one by zero the register. -/
theorem leaves_simplifyAsr_iff {value : BitVec 64} (hs : f.signed = true)
    (hdefined : f.OpDefined .rightShift true value) (orig : BitVec 64) :
    f.Leaves orig (simplifyAsr f.intType (orig >>> f.offset) value)
        (SourceBinary.rightShift.onValues (f.value orig) (f.operand value)) ↔
      0 ≤ f.value orig ∨ f.operand value = 0 ∨ f.operand value < f.width ∧ f.SetAbove orig := by
  have hmask : value &&& lowMask f.width = value := and_lowMask_eq f.width_pos f.width_le (hdefined.1 rfl)
  have hnat := (f.operand_of_nonneg value hdefined.2.1).1
  rw [hmask] at hnat
  have hwidth := f.width_pos
  have hrange := f.value_range orig
  have hsigned := hrange.2.2 hs
  have hpos : (0 : ℤ) < 2 ^ (f.operand value).toNat := by positivity
  have hsize : f.intType.bitSize = f.width := rfl
  unfold simplifyAsr
  rw [hsize]
  split_ifs with hlarge hzero
  · have hpow : (2 : ℤ) ^ (f.width - 1) ≤ 2 ^ (f.operand value).toNat := pow_le_pow_right₀ (by decide) (by omega)
    have hright : (0 ≤ f.value orig ∨ f.operand value = 0 ∨ f.operand value < f.width ∧ f.SetAbove orig) ↔
        0 ≤ f.value orig := by
      refine or_iff_left ?_
      rintro (h0 | ⟨hlt, -⟩) <;> omega
    rw [hright, leaves_some, and_iff_left (f.harmless_of_canonical orig (Nat.two_pow_pos _)), BitVec.setWidth_zero]
    simp only [SourceBinary.onValues]
    rcases lt_or_ge (f.value orig) 0 with hneg | hnonneg
    · refine iff_of_false (fun hbits => ?_) (by omega)
      rw [Int.ediv_eq_neg_one_of_neg_of_le hneg (by omega)] at hbits
      have hbit := congrArg (BitVec.setWidth 1) hbits
      rw [ofInt_setWidth hwidth, BitVec.setWidth_zero] at hbit
      exact absurd hbit (by decide)
    · rw [Int.ediv_eq_zero_of_lt hnonneg (by omega)]
      exact iff_of_true rfl hnonneg
  · have h0 : f.operand value = 0 := by rw [← hnat, hzero]; rfl
    refine iff_of_true (leaves_some.2 ⟨?_, fun i hi _ hbit => ?_⟩) (.inr (.inl h0))
    · simp only [SourceBinary.onValues]
      rw [h0, Int.toNat_zero, pow_zero, Int.ediv_one, value_setWidth]
    · rwa [shifted_getLsbD, Nat.add_sub_cancel' (by omega)] at hbit
  · have hne : f.operand value ≠ 0 := fun h0 => hzero (BitVec.eq_of_toNat_eq (by
      rw [BitVec.toNat_zero]
      omega))
    have hold : f.oldWord false orig = orig >>> f.offset := by simp [oldWord]
    have hleaves := leaves_register_iff hdefined false orig
    rw [hold] at hleaves
    refine hleaves.trans ?_
    simp only [SourceBinary.onValues]
    rw [Int.ediv_nonneg_iff_of_pos hpos]
    have hlt : f.operand value < f.width := by omega
    tauto

/-- `a op= b` stores what C computes, where it is defined. -/
theorem assignOp_iff (horig : Canonical f.unit orig) {op : SourceBinary} {known : Bool} {value : BitVec 64}
    (hdefined : f.OpDefined op known value) (oldKnown : Bool) :
    (∃ new, f.linearizeAssignOp op oldKnown known value orig = some new ∧ f.Stored orig
        (BitVec.ofInt 64 (op.onValues (f.value orig) (f.operand value))) new) ↔
      f.OpSafe op oldKnown known value orig := by
  have hstore : ∀ (dst : Option (BitVec 64)) (z : ℤ), (∃ new, dst.bind (f.linearizeStoreGen orig) = some new ∧
      f.Stored orig (BitVec.ofInt 64 z) new) ↔ f.Leaves orig dst z := fun dst z => by
    cases dst with
    | none => exact iff_of_false (by rintro ⟨_, h, -⟩; cases h) (by rintro ⟨_, h, -⟩; cases h)
    | some word => rw [Option.bind_some, stored_ofInt_iff, leaves_some]
  simp only [linearizeAssignOp, linearizeLoadGen_eq horig, Option.bind_eq_bind, Option.bind_some, sameSizeCast_old]
  by_cases hw : oldKnown = true → f.width ≤ 32
  · rw [if_pos hw, Option.bind_some, OpSafe, and_iff_right hw]
    by_cases hknown : oldKnown = true ∧ known = true
    · obtain ⟨rfl, rfl⟩ := hknown
      rw [if_pos ⟨rfl, rfl⟩, ← foldsTo_iff (hw rfl) hdefined]
      -- What is folded is no wider than the field.
      have hcanonical : ∀ {dst}, (FoldedOp.binop op.op).insnFold f.intType (f.oldWord true orig) value = some dst →
          Canonical f.width dst := fun {dst} hdst => by
        obtain ⟨res, -, rfl⟩ := Option.map_eq_some_iff.1 hdst
        exact canonical_and_lowMask f.width_pos f.width_le _
      have hcast : ∀ {dst}, Canonical f.width dst → f.sameSizeCast (true && true) dst = some dst := fun {dst} hdst => by
        rw [Bool.and_self, sameSizeCast_true, if_pos (hw rfl), and_lowMask_eq f.width_pos f.width_le hdst, ite_self]
      change (∃ new, ((FoldedOp.binop op.op).insnFold f.intType (f.oldWord true orig) value).bind _ = some new ∧ _) ↔ _
      cases hfold : (FoldedOp.binop op.op).insnFold f.intType (f.oldWord true orig) value with
      | none => exact iff_of_false (by rintro ⟨_, h, -⟩; cases h) (foldsTo_none hfold)
      | some dst =>
        have hdst := hcanonical hfold
        rw [Option.bind_some, hcast hdst, Option.bind_some, stored_ofInt_iff,
          and_iff_left (f.harmless_of_canonical orig hdst), FoldsTo, hfold]
        exact ⟨fun h => ⟨dst, rfl, h⟩, by
          rintro ⟨_, hsome, h⟩
          rwa [Option.some.inj hsome]⟩
    · have hboth : (oldKnown && known) = false := by
        rw [← Bool.not_eq_true, Bool.and_eq_true]
        exact hknown
      have hkeep : ∀ dst, (f.sameSizeCast (oldKnown && known) dst).bind (f.linearizeStoreGen orig) =
          f.linearizeStoreGen orig dst := fun dst => by rw [hboth]; rfl
      simp only [hkeep]
      rw [if_neg hknown, hstore, binaryInsn, hboth, if_neg Bool.false_ne_true]
      split_ifs with hasr
      · obtain ⟨rfl, hu, rfl⟩ := hasr
        have hs : f.signed = true := by simpa [intType] using hu
        have hold : oldKnown = false := by simpa using hboth
        subst hold
        have hword : f.oldWord false orig = orig >>> f.offset := by simp [oldWord]
        rw [hword, leaves_simplifyAsr_iff hs hdefined]
        simp [RegisterSafe]
      · rw [leaves_register_iff hdefined]
        cases op with
        | rightShift =>
          have hpos : (0 : ℤ) < 2 ^ (f.operand value).toNat := by positivity
          have hunsigned : f.signed = true → known ≠ true := fun hs hk => hasr ⟨rfl, by simp [intType, hs], hk⟩
          simp only [RegisterSafe, SourceBinary.onValues]
          rw [Int.ediv_nonneg_iff_of_pos hpos]
          cases hs : f.signed with
          | false => exact iff_of_true (.inl (f.value_nonneg orig hs)) (.inl (f.value_nonneg orig hs))
          | true =>
            have hk : known = false := Bool.eq_false_iff.2 (hunsigned hs)
            simp [hk]
        | _ => rfl
  · rw [if_neg hw, Option.bind_none]
    exact iff_of_false (by rintro ⟨_, h, -⟩; cases h) fun h => hw h.1

end BitField

end Sparse
