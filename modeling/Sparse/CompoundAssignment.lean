import Sparse.ConstantExpressions
import Mathlib.Algebra.Field.Rat
import Mathlib.Tactic.NormNum

/-!
# Compound and plain assignment

`a op= b` and `a = a op b`, each typed as in `evaluate.c` and lowered as in
`linearize.c`. An instruction gives the value that `simplify.c` gives it on
constants; a cast extends by the sign of its `orig_type` and keeps the low bits
of the new type, `_Bool` among them. A `b` that is a known constant is cast by
`expand.c` before, where `_Bool` is a zero test. The loads and stores around them
are those of one object, so that only the values are followed.
-/

namespace Sparse
open MaskedWords

namespace IntType

/-- The integer that a word of the type means. -/
def value (c : IntType) (x : BitVec 64) : ℤ :=
  if c.unsigned then x.toNat else (signExtended c.bitSize x).toInt

/-- The word of the type with the low bits of an integer. -/
def word (c : IntType) (z : ℤ) : BitVec 64 :=
  BitVec.ofInt 64 z &&& lowMask c.bitSize

end IntType

/-- A type of integer objects: a `SYM_BASETYPE`, or a `SYM_BITFIELD` on one. -/
inductive IntegerType (t : Target)
  | ctype (c : Ctype)
  | bitField (base : Ctype) (width : ℕ) (pos : 0 < width) (le : width ≤ base.bitSize t)

namespace IntegerType

variable {t : Target}

def bitSize : IntegerType t → ℕ
  | ctype c => c.bitSize t
  | bitField _ width _ _ => width

/-- `examine_bitfield_type`: a bit-field is unsigned, unless the base type was
explicitly signed. -/
def isUnsigned : IntegerType t → Bool
  | ctype c => c.isUnsigned
  | bitField (.integer _ .explicitlySigned) _ _ _ => false
  | bitField _ _ _ _ => true

theorem bitSize_pos : (c : IntegerType t) → 0 < c.bitSize
  | ctype c => c.bitSize_pos t
  | bitField _ _ pos _ => pos

theorem bitSize_le : (c : IntegerType t) → c.bitSize ≤ 64
  | ctype c => c.bitSize_le t
  | bitField base _ _ le => Nat.le_trans le (base.bitSize_le t)

def intType (c : IntegerType t) : IntType :=
  ⟨c.bitSize, c.isUnsigned, c.bitSize_pos, c.bitSize_le⟩

/-- `integer_promotion`: the width is that of the bit-field, the rest is read of
its base type. -/
def promoted : IntegerType t → Ctype
  | ctype c => c.promoted t
  | bitField base width _ _ =>
    if width < 32 then .int
    else if base.isCharOrShort then
      if base.isUnsigned then .uint else .int
    else base

/-- `is_bool_type`: a bit-field on `_Bool` is not one. -/
def isBoolType : IntegerType t → Bool
  | ctype .bool => true
  | _ => false

/-- The integers that objects of the type hold. -/
def InRange (c : IntegerType t) (z : ℤ) : Prop :=
  if c.isUnsigned then 0 ≤ z ∧ z < 2 ^ c.bitSize
  else -2 ^ (c.bitSize - 1) ≤ z ∧ z < 2 ^ (c.bitSize - 1)

end IntegerType

/-- A floating type: rounding to the values of the type, `none` where the
magnitude is too large. Small multiples of powers of two are exact. -/
structure FloatType where
  round : ℚ → Option ℚ
  exact : ∀ m e : ℤ, |m| < 2 ^ 24 → |e| ≤ 64 →
    round (m * (2 : ℚ) ^ e) = some (m * (2 : ℚ) ^ e)

/-- The arithmetic types. -/
inductive ArithmeticType (t : Target)
  | integer (c : IntegerType t)
  | floating (f : FloatType)

/-- The value of a pseudo: the word of an integer type or a floating value. -/
inductive PseudoValue
  | word (v : BitVec 64)
  | real (q : ℚ)
  deriving DecidableEq

/-- `(long long)old->fvalue`. -/
def truncateReal (q : ℚ) : Option ℤ :=
  let z := q.num.tdiv q.den
  if -2 ^ 63 ≤ z ∧ z < 2 ^ 63 then some z else none

/-- What the right operand is when `expand_cast` meets its cast. -/
inductive OperandKind
  | constant
  | register
  deriving DecidableEq

/-- The operators on floating operands; the others are rejected. -/
def realBinop (a b : ℚ) : SourceBinary → Option ℚ
  | .add => some (a + b)
  | .sub => some (a - b)
  | .mul => some (a * b)
  | .div => if b = 0 then none else some (a / b)
  | _ => none

namespace ArithmeticType

variable {t : Target}

/-- The value of the instruction that `cast_pseudo` adds. -/
def castPseudo : ArithmeticType t → ArithmeticType t → PseudoValue → Option PseudoValue
  | integer old, integer new, .word v =>
    some (.word (extendIfSigned old.intType v &&& lowMask new.bitSize))
  | integer old, floating f, .word v => (f.round (old.intType.value v)).map .real
  | floating _, integer new, .real q => (truncateReal q).map fun z => .word (new.intType.word z)
  | floating _, floating f, .real q => (f.round q).map .real
  | _, _, _ => none

/-- `Int` in `cast_value`: `_Bool` requires a zero test rather than truncation. -/
def castInt (new : IntegerType t) (value : BitVec 64) : BitVec 64 :=
  if new.isBoolType then if value = 0#64 then 0#64 else 1#64
  else value &&& lowMask new.bitSize

/-- `cast_value`, on a constant that has the type. -/
def castValue : ArithmeticType t → ArithmeticType t → PseudoValue → Option PseudoValue
  | integer old, integer new, .word v =>
    if old.bitSize = new.bitSize then some (.word v)
    else some (.word (castInt new (extendIfSigned old.intType v)))
  | integer old, floating f, .word v =>
    (f.round (extendIfSigned old.intType v).toInt).map .real
  | floating _, integer new, .real q =>
    (truncateReal q).map fun z => .word (castInt new (BitVec.ofInt 64 z))
  | floating _, floating f, .real q => (f.round q).map .real
  | _, _, _ => none

/-- `cast_to` on the right operand: `expand_cast` folds the cast of a constant,
`linearize_cast` adds an instruction for any other. -/
def castOperand : OperandKind → ArithmeticType t → ArithmeticType t → PseudoValue →
    Option PseudoValue
  | .constant => castValue
  | .register => castPseudo

/-- The value of the instruction that `add_binary_op` adds, with the opcode of
the operator after `opcode_sign`. The table of `linearize_assignment` is that of
`linearize_binop`. -/
def addBinaryOp : ArithmeticType t → SourceBinary → PseudoValue → PseudoValue →
    Option PseudoValue
  | integer c, op, .word l, .word r =>
    ((FoldedOp.binop op.op).insnFold c.intType l r).map .word
  | floating f, op, .real a, .real b => ((realBinop a b op).bind f.round).map .real
  | _, _, _, _ => none

/-- The types to which `evaluate_binop` casts its operands; the first is that of
the result. Promotion is done once more in `Ctype.operandTypes`, to no effect. -/
def operandTypes (op : SourceBinary) : ArithmeticType t → ArithmeticType t →
    ArithmeticType t × ArithmeticType t
  | integer l, integer r =>
    let types := Ctype.operandTypes t op.op l.promoted r.promoted
    (integer (.ctype types.1), integer (.ctype types.2))
  | integer _, floating f => (floating f, floating f)
  | floating f, _ => (floating f, floating f)

/-- `a = a op b`: what `linearize_assignment` stores and returns for the tree of
`evaluate_binop`, cast to the type of `a`. -/
def plainAssignment (kind : OperandKind) (target source : ArithmeticType t) (op : SourceBinary)
    (oldvalue value : PseudoValue) : Option PseudoValue := do
  let types := operandTypes op target source
  let src1 ← castPseudo target types.1 oldvalue
  let src2 ← castOperand kind source types.2 value
  let dst ← addBinaryOp types.1 op src1 src2
  castPseudo types.1 target dst

/-- `a op= b`: `evaluate_assign_op` casts the right operand to the type of `a`,
so that `src->ctype` and `expr->ctype` are both that type. -/
def compoundAssignment (kind : OperandKind) (target source : ArithmeticType t)
    (op : SourceBinary) (oldvalue value : PseudoValue) : Option PseudoValue := do
  let value ← castOperand kind source target value
  let oldvalue ← castPseudo target target oldvalue
  let dst ← addBinaryOp target op oldvalue value
  castPseudo target target dst

end ArithmeticType

/-! ## The values of C -/

/-- A value of the type, as its pseudo holds it. -/
def ArithmeticType.Holds {t : Target} : ArithmeticType t → PseudoValue → Prop
  | .integer c, .word v => Canonical c.bitSize v
  | .floating f, .real q => f.round q = some q
  | _, _ => False

/-- C defines the result of `a = a op b`. -/
def AssignmentDefined {t : Target} (target : IntegerType t) (op : SourceBinary) :
    ArithmeticType t → PseudoValue → PseudoValue → Prop
  | .integer source, .word l, .word r =>
    let types := Ctype.operandTypes t op.op target.promoted source.promoted
    (types.1.binary t (types.1.convert t (target.intType.value l))
      (types.2.convert t (source.intType.value r)) op).isSome
  | .floating f, .word l, .real b =>
    ∃ a q z, f.round (target.intType.value l) = some a ∧
      (realBinop a b op).bind f.round = some q ∧ truncateReal q = some z ∧ target.InRange z
  | _, _, _ => False

/-- C has the operator on integers and an operand of the type. -/
def ArithmeticType.Allows {t : Target} : ArithmeticType t → SourceBinary → Prop
  | .integer _, _ => True
  | .floating _, op => op = .add ∨ op = .sub ∨ op = .mul ∨ op = .div

/-- The two forms store and yield the same for all values with a result in C. -/
def AssignmentsAgree {t : Target} (kind : OperandKind) (target : IntegerType t)
    (source : ArithmeticType t) (op : SourceBinary) : Prop :=
  ∀ oldvalue value, (ArithmeticType.integer target).Holds oldvalue → source.Holds value →
    AssignmentDefined target op source oldvalue value →
    ArithmeticType.compoundAssignment kind (.integer target) source op oldvalue value =
      ArithmeticType.plainAssignment kind (.integer target) source op oldvalue value

end Sparse
