import Sparse.BitFieldOperations
import Sparse.CastSimplification

/-!
# Bit-field accesses and the bits above the field

The accesses to a bit-field with what `simplify.c` makes of them, and the contents of the unit on which
each is right.
-/

namespace Sparse
open MaskedWords

namespace BitField

variable {f : BitField} {orig : BitVec 64}

/-- The bits of the unit above the field are clear. -/
def ClearAbove (f : BitField) (orig : BitVec 64) : Prop :=
  ∀ i, f.offset + f.width ≤ i → orig.getLsbD i = false

theorem shifted_eq_zero_iff (f : BitField) (orig : BitVec 64) :
    orig >>> f.offset = 0#64 ↔ f.field orig = 0#64 ∧ f.ClearAbove orig := by
  constructor
  · intro h
    refine ⟨by rw [field, h, BitVec.zero_and], fun i hi => ?_⟩
    have hbit := shifted_getLsbD orig f.offset (i - f.offset)
    rw [h, Nat.add_sub_cancel' (by omega)] at hbit
    rw [← hbit]
    exact BitVec.getLsbD_zero
  · rintro ⟨hfield, hclear⟩
    refine BitVec.eq_of_getLsbD_eq fun i hi => ?_
    rw [BitVec.getLsbD_zero]
    by_cases hlt : i < f.width
    · have hbit := and_lowMask_getLsbD f.width_pos f.width_le (orig >>> f.offset) i
      rw [show (orig >>> f.offset) &&& lowMask f.width = 0#64 from hfield, BitVec.getLsbD_zero] at hbit
      simpa [hlt] using hbit.symm
    · rw [shifted_getLsbD]
      exact hclear _ (by omega)

/-- A test of the word that is read sees the bits above the field. -/
theorem test_iff (f : BitField) (orig : BitVec 64) :
    (orig >>> f.offset ≠ 0#64 ↔ f.value orig ≠ 0) ↔ (f.value orig ≠ 0 ∨ f.ClearAbove orig) := by
  rw [not_iff_not, value_eq_zero_iff, shifted_eq_zero_iff, ne_eq, value_eq_zero_iff]
  tauto

/-! ## Conversions -/

/-- What the pseudo of a read is: a constant, the target of an `OP_AND_LIN` with a constant, or another register. -/
inductive ReadPseudo
  | constant
  | masked (size : ℕ) (mask : BitVec 64)
  | register

def ReadPseudo.source (old : BitVec 64) : ReadPseudo → CastSource
  | constant => .constant old
  | masked size mask => .masked size mask
  | register => .register

/-- The cast of `alloc_cast_instruction` from the type of the field. -/
def castInsn (f : BitField) (new : IntType) (src : CastSource) : CastInsn where
  signed := f.signed
  origType := f.intType
  pointer := false
  size := new.bitSize
  size_pos := new.bitSize_pos
  size_le := new.bitSize_le
  src := src

/-- The value of the cast after `simplify_cast`: a cast of the size of the field is not among them. -/
def converted (f : BitField) (new : IntType) (pseudo : ReadPseudo) (old : BitVec 64) : Option (BitVec 64) :=
  (f.castInsn new (pseudo.source old)).simplifyCast.map fun
    | .kept => generateCast f.intType new.bitSize old
    | .constant value => value
    | .source => old

theorem sameSize_kept (f : BitField) {new : IntType} (hn : f.width < new.bitSize) (src : CastSource) :
    (f.castInsn new src).sameSize = .kept := by
  rw [CastInsn.sameSize, if_neg]
  exact fun h => absurd h.1 (Nat.ne_of_gt hn)

/-- The bits of the unit above the field, up to the new size, are those of the extension. -/
def Extended (f : BitField) (orig : BitVec 64) (n : ℕ) : Prop :=
  ∀ i, f.width ≤ i → i < n → orig.getLsbD (f.offset + i) = (f.signed && orig.getLsbD (f.offset + f.width - 1))

theorem shifted_setWidth_iff (f : BitField) (orig : BitVec 64) {n : ℕ} (h64 : n ≤ 64) :
    (orig >>> f.offset).setWidth n = BitVec.ofInt n (f.value orig) ↔ f.Extended orig n := by
  rw [← ofInt_setWidth h64]
  constructor
  · intro h i hi hn
    have hbit := congrArg (fun x => BitVec.getLsbD x i) h
    simp only [BitVec.getLsbD_setWidth, hn, decide_true, Bool.true_and, shifted_getLsbD] at hbit
    rwa [f.ofInt_value_getLsbD orig (by omega), if_neg (by omega)] at hbit
  · intro h
    refine BitVec.eq_of_getLsbD_eq fun i hi => ?_
    rw [BitVec.getLsbD_setWidth, BitVec.getLsbD_setWidth, f.ofInt_value_getLsbD orig (by omega), shifted_getLsbD]
    split_ifs with hlt
    · rfl
    · rw [h i (by omega) hi]

theorem switch_iff (f : BitField) (orig : BitVec 64) :
    orig >>> f.offset = BitVec.ofInt 64 (f.value orig) ↔ f.Extended orig 64 := by
  rw [← f.shifted_setWidth_iff orig le_rfl, BitVec.setWidth_eq]

/-- A constant read is right when no bit above the field reaches the new type,
which a negative field covers anyway. -/
theorem convert_known_iff (f : BitField) (orig : BitVec 64) (new : IntType)
    (hn : f.width < new.bitSize) :
    (∃ v, f.converted new .constant (orig >>> f.offset) = some v ∧
        v.setWidth new.bitSize = BitVec.ofInt new.bitSize (f.value orig)) ↔
      new.bitSize ≤ 32 ∧ ((f.signed = true ∧ orig.getLsbD (f.offset + f.width - 1) = true) ∨
        ∀ i, f.offset + f.width ≤ i → i < f.offset + new.bitSize → orig.getLsbD i = false) := by
  have hconverted : f.converted new .constant (orig >>> f.offset) =
      getCastValue (orig >>> f.offset) f.width new.bitSize f.signed := by
    have hsign : (!f.intType.unsigned) = f.signed := by simp [intType]
    unfold converted CastInsn.simplifyCast ReadPseudo.source
    simp only [castInsn, Bool.false_eq_true, if_false, hsign, Option.map_map]
    exact Option.map_id'
  rw [hconverted]
  by_cases h32 : new.bitSize ≤ 32
  · obtain ⟨v, hv, hbits⟩ := getCastValue_getLsbD f.intType new.bitSize_pos h32 (orig >>> f.offset)
    have hpos := f.width_pos
    have hsign : (!f.intType.unsigned) = f.signed := by simp [intType]
    have hread : ∀ i, i < new.bitSize → v.getLsbD i =
        if i < f.width then orig.getLsbD (f.offset + i)
        else orig.getLsbD (f.offset + i) ||
          (f.signed && orig.getLsbD (f.offset + f.width - 1)) := by
      intro i hi
      have hlast : f.offset + (f.width - 1) = f.offset + f.width - 1 := by omega
      have hsize : f.intType.bitSize = f.width := rfl
      rw [hbits i (by omega), hsize, shifted_getLsbD, shifted_getLsbD, hlast, decide_eq_true (.inl hi), Bool.true_and]
      split_ifs with hlt
      · simp [Nat.not_le.2 hlt]
      · cases hs : f.signed <;> simp [intType, hs, Nat.le_of_not_lt hlt, hn]
    have hcast : getCastValue (orig >>> f.offset) f.width new.bitSize f.signed = some v := by
      rw [← hsign]
      exact hv
    rw [hcast]
    constructor
    · rintro ⟨v', hsome, hright⟩
      obtain rfl := Option.some.inj hsome
      refine ⟨h32, or_iff_not_imp_left.2 fun hsign i hi hlt => ?_⟩
      have hbit := congrArg (fun x => BitVec.getLsbD x (i - f.offset)) hright
      have hsign' : (f.signed && orig.getLsbD (f.offset + f.width - 1)) = false := by
        rw [← Bool.not_eq_true, Bool.and_eq_true]
        exact hsign
      simp only [← ofInt_setWidth new.bitSize_le, BitVec.getLsbD_setWidth,
        show i - f.offset < new.bitSize by omega, decide_true, Bool.true_and] at hbit
      rw [hread _ (by omega), f.ofInt_value_getLsbD orig (by omega), if_neg (by omega),
        if_neg (by omega), hsign', Bool.or_false, Nat.add_sub_cancel' (by omega)] at hbit
      exact hbit
    · rintro ⟨-, hclear⟩
      refine ⟨v, rfl, BitVec.eq_of_getLsbD_eq fun i hi => ?_⟩
      rw [← ofInt_setWidth new.bitSize_le, BitVec.getLsbD_setWidth, BitVec.getLsbD_setWidth,
        hread i hi, f.ofInt_value_getLsbD orig (by omega)]
      split_ifs with hlt
      · rfl
      · rcases hclear with ⟨hs, hsign⟩ | hclear
        · simp [hs, hsign]
        · rw [hclear (f.offset + i) (by omega) (by omega), Bool.false_or]
  · refine iff_of_false ?_ fun h => h32 h.1
    rintro ⟨v, hv, -⟩
    have hnone : getCastValue (orig >>> f.offset) f.width new.bitSize f.signed = none :=
      getCastValue_of_lt f.intType (Nat.not_le.1 h32) _ _
    rw [hnone] at hv
    cases hv

/-- A cast instruction extends the field. -/
theorem generateCast_setWidth (f : BitField) (orig : BitVec 64) (new : IntType) :
    (generateCast f.intType new.bitSize (orig >>> f.offset)).setWidth new.bitSize =
      BitVec.ofInt new.bitSize (f.value orig) := by
  have hvalue : BitVec.ofInt 64 (f.value orig) = extendIfSigned f.intType (f.field orig) :=
    ofInt_value (f.field orig)
  rw [generateCast, ← ofInt_setWidth new.bitSize_le, hvalue, ← and_lowMask_inj new.bitSize_pos
    new.bitSize_le, and_lowMask_eq new.bitSize_pos new.bitSize_le
      (canonical_and_lowMask new.bitSize_pos new.bitSize_le _)]
  rfl

/-- A cast behind a mask is dropped when the mask clears the top bit of the new type. -/
theorem convert_masked_iff (f : BitField) (orig : BitVec 64) (new : IntType) (hn : f.width < new.bitSize)
    (size : ℕ) (mask : BitVec 64) :
    (∃ v, f.converted new (.masked size mask) (orig >>> f.offset) = some v ∧
        v.setWidth new.bitSize = BitVec.ofInt new.bitSize (f.value orig)) ↔
      (new.bitSize ≤ size → mask >>> (new.bitSize - 1) = 0#64 → f.Extended orig new.bitSize) := by
  have hsimplify : (f.castInsn new (.masked size mask)).simplifyCast =
      if new.bitSize ≤ size ∧ mask >>> (new.bitSize - 1) = 0#64 then some .source else some .kept := by
    rw [← f.sameSize_kept hn (.masked size mask)]
    rfl
  rw [converted, ReadPseudo.source, hsimplify]
  split_ifs with hnoop
  · rw [← f.shifted_setWidth_iff orig new.bitSize_le]
    exact ⟨fun ⟨_, hsome, h⟩ _ _ => by rwa [← Option.some.inj hsome] at h, fun h => ⟨_, rfl, h hnoop.1 hnoop.2⟩⟩
  · exact iff_of_true ⟨_, rfl, f.generateCast_setWidth orig new⟩ fun hsize hmask => absurd ⟨hsize, hmask⟩ hnoop

theorem convert_register (f : BitField) (orig : BitVec 64) (new : IntType) (hn : f.width < new.bitSize) :
    ∃ v, f.converted new .register (orig >>> f.offset) = some v ∧
      v.setWidth new.bitSize = BitVec.ofInt new.bitSize (f.value orig) := by
  have hsimplify : (f.castInsn new .register).simplifyCast = some .kept := by
    rw [← f.sameSize_kept hn .register]
    rfl
  rw [converted, ReadPseudo.source, hsimplify]
  exact ⟨_, rfl, f.generateCast_setWidth orig new⟩

/-! ## Negations -/

theorem setEq_zero (f : BitField) (old : BitVec 64) :
    simplifyConstantBinop .setEq f.width old 0#64 = some (boolWord (decide (old = 0#64))) := by
  have hzero : extendOperand f.width 0#64 = 0#64 :=
    (@extendOperand_eq_zero f.intType _ (Nat.two_pow_pos _)).2 rfl
  have hext : extendOperand f.width old = 0#64 ↔ old = 0#64 := by
    rw [extendOperand]
    split
    · rename_i hsign
      refine ⟨fun h => absurd ?_ hsign, fun h => absurd (by rw [h, BitVec.zero_and]) hsign⟩
      rw [(BitVec.or_eq_zero_iff.1 h).1, BitVec.zero_and]
    · rfl
  simp only [simplifyConstantBinop, hzero, Option.map_some]
  rw [show lowMask f.width = lowMask f.intType.bitSize from rfl, boolWord_and_lowMask]
  refine congrArg (fun b => some (boolWord b)) ?_
  rw [Bool.eq_iff_iff, beq_iff_eq, decide_eq_true_iff, hext]

theorem boolWord_inj {a b : Bool} : boolWord a = boolWord b ↔ a = b := by
  cases a <;> cases b <;> decide

/-! ## Values of the type of the field -/

end BitField

/-! ## The accesses -/

/-- The accesses to a bit-field. A read is converted to a wider type, negated with `!`, tested (`&&`, `||`, `?:`,
`if` and loops) or switched on. The flags say that the old word and the right operand are constants. -/
inductive BitFieldAccess
  | assign (value : BitVec 64)
  | incDec (decrement oldKnown : Bool)
  | assignOp (op : SourceBinary) (oldKnown known : Bool) (value : BitVec 64)
  | convert (new : IntType) (pseudo : BitField.ReadPseudo)
  | not (oldKnown : Bool)
  | test
  | switch

namespace BitFieldAccess
open BitField

/-- Conversions are to wider types, and operators have a result in C. -/
def Valid (f : BitField) : BitFieldAccess → Prop
  | convert new _ => f.width < new.bitSize
  | assignOp op _ known value => f.OpDefined op known value
  | _ => True

/-- What the access should do on a unit. -/
def Right (f : BitField) (orig : BitVec 64) : BitFieldAccess → Prop
  | assign value => ∃ new, f.linearizeStoreGen orig value = some new ∧ f.Stored orig value new
  | incDec decrement oldKnown => ∃ new, f.linearizeIncDec decrement oldKnown orig = some new ∧
      f.Stored orig (BitVec.ofInt 64 (if decrement then f.value orig - 1 else f.value orig + 1)) new
  | assignOp op oldKnown known value => ∃ new, f.linearizeAssignOp op oldKnown known value orig = some new ∧
      f.Stored orig (BitVec.ofInt 64 (op.onValues (f.value orig) (f.operand value))) new
  | convert new pseudo => ∃ old, f.linearizeLoadGen orig = some old ∧
      ∃ v, f.converted new pseudo old = some v ∧ v.setWidth new.bitSize = BitVec.ofInt new.bitSize (f.value orig)
  | not oldKnown => ∃ old, f.linearizeLoadGen orig = some old ∧
      (if oldKnown then simplifyConstantBinop .setEq f.width old 0#64
        else some (boolWord (old &&& lowMask f.width == 0#64))) =
          some (boolWord (f.value orig = 0))
  | test => ∃ old, f.linearizeLoadGen orig = some old ∧ (old ≠ 0#64 ↔ f.value orig ≠ 0)
  | switch => ∃ old, f.linearizeLoadGen orig = some old ∧ old = BitVec.ofInt 64 (f.value orig)

/-- The contents on which the access is right. -/
def Safe (f : BitField) (orig : BitVec 64) : BitFieldAccess → Prop
  | assign value => f.Harmless orig value
  | incDec decrement oldKnown => oldKnown = false →
      if decrement then
        f.value orig ≠ 0 ∨ (f.offset + f.width < f.unit → orig.getLsbD (f.offset + f.width) = true)
      else f.field orig ≠ lowMask f.width ∨ f.SetAbove orig
  | assignOp op oldKnown known value => f.OpSafe op oldKnown known value orig
  | convert new .constant => new.bitSize ≤ 32 ∧
      ((f.signed = true ∧ orig.getLsbD (f.offset + f.width - 1) = true) ∨
        ∀ i, f.offset + f.width ≤ i → i < f.offset + new.bitSize → orig.getLsbD i = false)
  | convert new (.masked size mask) =>
      new.bitSize ≤ size → mask >>> (new.bitSize - 1) = 0#64 → f.Extended orig new.bitSize
  | convert _ .register => True
  | not oldKnown => oldKnown = true → f.value orig ≠ 0 ∨ f.ClearAbove orig
  | test => f.value orig ≠ 0 ∨ f.ClearAbove orig
  | switch => f.Extended orig 64

/-- `struct { unsigned a : 3, b : 5; }` with a unit of 32 bits. -/
def lowField : BitField :=
  ⟨32, 0, 3, false, by decide, by decide, IntType.int_le⟩

end BitFieldAccess

end Sparse
