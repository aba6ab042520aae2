import Sparse.LinearIr
import Sparse.MaskedWords

/-!
# The two constant folders

`expand.c` folds binary operators and comparisons on the syntax tree,
`simplify.c` folds them again on the instructions that `linearize.c` builds.
Both keep the values of all integer types masked in a `long long`. A value is
`none` where the source does not fold, and where its own C expression has no
value: a shift of a `long long` by a count outside `0 .. 63`, and the division
of the least `long long` by -1. Other overflow wraps.
-/

namespace Sparse
open MaskedWords

/-- What the folders read of an integer type: `bit_size` and `MOD_UNSIGNED`.
Every integer type has exactly one of `MOD_SIGNED` and `MOD_UNSIGNED`. -/
structure IntType where
  bitSize : ℕ
  unsigned : Bool
  bitSize_pos : 0 < bitSize
  bitSize_le : bitSize ≤ 64

theorem IntType.int_pos : 0 < 32 := by decide

theorem IntType.int_le : 32 ≤ 64 := by decide

/-- The operators of `EXPR_BINOP`. -/
inductive BinaryOp
  | add | sub | mul | div | mod | and | or | xor
  | leftShift | rightShift | logicalAnd | logicalOr
  deriving DecidableEq, Repr

/-- The operators of `EXPR_COMPARE`. -/
inductive CompareOp
  | lt | gt | lte | gte | equal | notEqual
  | unsignedLt | unsignedGt | unsignedLte | unsignedGte
  deriving DecidableEq, Repr

namespace BinaryOp

def isShift : BinaryOp → Bool
  | leftShift | rightShift => true
  | _ => false

end BinaryOp

/-! ## The arithmetic of the host -/

/-- `x << n` on `long long`. -/
def hostShl (x n : BitVec 64) : Option (BitVec 64) :=
  if n.toNat < 64 then some (x <<< n.toNat) else none

/-- `x >> n` on `unsigned long long`. -/
def hostLsr (x n : BitVec 64) : Option (BitVec 64) :=
  if n.toNat < 64 then some (x >>> n.toNat) else none

/-- `x >> n` on `long long`. -/
def hostAsr (x n : BitVec 64) : Option (BitVec 64) :=
  if n.toNat < 64 then some (x.sshiftRight n.toNat) else none

/-- `x / y` on `long long`, where `y` is not zero. -/
def hostDivs (x y : BitVec 64) : Option (BitVec 64) :=
  if x = BitVec.intMin 64 ∧ y = -1#64 then none else some (x.sdiv y)

/-- `x % y` on `long long`, where `y` is not zero. -/
def hostMods (x y : BitVec 64) : Option (BitVec 64) :=
  if x = BitVec.intMin 64 ∧ y = -1#64 then none else some (x.srem y)

/-- An `int` result as the word it is stored in. -/
def boolWord (b : Bool) : BitVec 64 :=
  if b then 1#64 else 0#64

/-! ## The folder of the syntax tree -/

/-- `check_shift_count`: `count` is an `unsigned int`. -/
def checkShiftCount (ctype : IntType) (count : BitVec 64) : BitVec 64 :=
  (count.setWidth 32 &&& BitVec.ofNat 32 (ctype.bitSize - 1)).setWidth 64

/-- The first test of `simplify_int_binop`, on the value of the right operand;
the result is stored back in that operand. -/
def shiftCount (conservative : Bool) (op : BinaryOp) (ctype : IntType) (r : BitVec 64) :
    Option (BitVec 64) :=
  if op.isShift ∧ ctype.bitSize ≤ r.toNat then
    if conservative then none else some (checkShiftCount ctype r)
  else some r

/-- `is_signed && (sl & mask)` and the extension after it. -/
def extendIfSigned (ctype : IntType) (x : BitVec 64) : BitVec 64 :=
  if ctype.unsigned then x else signExtended ctype.bitSize x

/-- The `switch` of `simplify_int_binop`. -/
def intBinopValue (op : BinaryOp) (ctype : IntType) (l r : BitVec 64) : Option (BitVec 64) :=
  let mask := signBit ctype.bitSize
  let sl := extendIfSigned ctype l
  let sr := extendIfSigned ctype r
  let v := match op, ctype.unsigned with
    | .add, _ => some (l + r)
    | .sub, _ => some (l - r)
    | .and, _ => some (l &&& r)
    | .or, _ => some (l ||| r)
    | .xor, _ => some (l ^^^ r)
    | .mul, false => some (sl * sr)
    | .mul, true => some (l * r)
    | .div, false =>
      if r = 0#64 then none
      else if l = mask ∧ sr = -1#64 then none
      else hostDivs sl sr
    | .div, true => if r = 0#64 then none else some (l / r)
    | .mod, false => if r = 0#64 then none else hostMods sl sr
    | .mod, true => if r = 0#64 then none else some (l % r)
    | .leftShift, _ => hostShl l r
    | .rightShift, false => hostAsr sl r
    | .rightShift, true => hostLsr l r
    | .logicalAnd, _ => none
    | .logicalOr, _ => none
  v.map (· &&& lowMask ctype.bitSize)

/-- `simplify_int_binop` on two operands that are `EXPR_VALUE`. -/
def simplifyIntBinop (conservative : Bool) (op : BinaryOp) (ctype : IntType)
    (l r : BitVec 64) : Option (BitVec 64) :=
  (shiftCount conservative op ctype r).bind (intBinopValue op ctype l)

/-- `simplify_cmp_binop` on two operands that are `EXPR_VALUE`. -/
def simplifyCmpBinop (op : CompareOp) (ctype : IntType) (l r : BitVec 64) : BitVec 64 :=
  let sl := signExtended ctype.bitSize l
  let sr := signExtended ctype.bitSize r
  boolWord <| match op with
    | .lt => sl.slt sr
    | .gt => sr.slt sl
    | .lte => sl.sle sr
    | .gte => sr.sle sl
    | .equal => l == r
    | .notEqual => l != r
    | .unsignedLt => l.ult r
    | .unsignedGt => r.ult l
    | .unsignedLte => l.ule r
    | .unsignedGte => r.ule l

/-! ## The folder of the instructions -/

/-- The sign extension at the head of `simplify_constant_binop`. -/
def extendOperand (size : ℕ) (x : BitVec 64) : BitVec 64 :=
  if x &&& signBit size ≠ 0#64 then x ||| ~~~lowMask size else x

/-- `simplify_constant_binop`: the value that replaces the target. -/
def simplifyConstantBinop (opcode : Opcode) (size : ℕ) (src1 src2 : BitVec 64) :
    Option (BitVec 64) :=
  let bits := lowMask size
  let left := extendOperand size src1
  let right := extendOperand size src2
  let ul := left &&& bits
  let ur := right &&& bits
  let res := match opcode with
    | .addLin => some (left + right)
    | .sub => some (left - right)
    | .mulu => some (ul * ur)
    | .muls => some (left * right)
    | .divu => if ur = 0#64 then none else some (ul / ur)
    | .divs => if right = 0#64 then none else hostDivs left right
    | .modu => if ur = 0#64 then none else some (ul % ur)
    | .mods => if right = 0#64 then none else hostMods left right
    | .shl => hostShl left right
    | .lsr => hostLsr ul ur
    | .asr => hostAsr left right
    | .andLin => some (left &&& right)
    | .orLin => some (left ||| right)
    | .xorLin => some (left ^^^ right)
    | .andBool => some (boolWord (left != 0#64 && right != 0#64))
    | .orBool => some (boolWord (left != 0#64 || right != 0#64))
    | .setEq => some (boolWord (left == right))
    | .setNe => some (boolWord (left != right))
    | .setLe => some (boolWord (left.sle right))
    | .setGe => some (boolWord (right.sle left))
    | .setLt => some (boolWord (left.slt right))
    | .setGt => some (boolWord (right.slt left))
    | .setB => some (boolWord (ul.ult ur))
    | .setA => some (boolWord (ur.ult ul))
    | .setBe => some (boolWord (ul.ule ur))
    | .setAe => some (boolWord (ur.ule ul))
    | _ => none
  res.map (· &&& bits)

/-- The table of `linearize_binop`. -/
def BinaryOp.opcode : BinaryOp → Opcode
  | .add => .addLin
  | .sub => .sub
  | .mul => .mulu
  | .div => .divu
  | .mod => .modu
  | .and => .andLin
  | .or => .orLin
  | .xor => .xorLin
  | .leftShift => .shl
  | .rightShift => .lsr
  | .logicalAnd => .andBool
  | .logicalOr => .orBool

/-- The table of `linearize_compare`. -/
def CompareOp.opcode : CompareOp → Opcode
  | .gt => .setGt
  | .lt => .setLt
  | .equal => .setEq
  | .notEqual => .setNe
  | .gte => .setGe
  | .lte => .setLe
  | .unsignedLt => .setB
  | .unsignedGt => .setA
  | .unsignedLte => .setBe
  | .unsignedGte => .setAe

/-- `opcode_sign`: the signed opcode is the next one. -/
def opcodeSign (opcode : Opcode) (ctype : IntType) : Opcode :=
  if ctype.unsigned then opcode
  else match opcode with
    | .mulu => .muls
    | .divu => .divs
    | .modu => .mods
    | .lsr => .asr
    | _ => opcode

/-- An operator with two constant operands: `EXPR_BINOP` or `EXPR_COMPARE`. -/
inductive FoldedOp
  | binop (op : BinaryOp)
  | compare (op : CompareOp)
  deriving DecidableEq, Repr

namespace FoldedOp

def isShift : FoldedOp → Bool
  | binop op => op.isShift
  | compare _ => false

/-- The value that `expand_expression` stores. -/
def treeFold (conservative : Bool) (ctype : IntType) (l r : BitVec 64) :
    FoldedOp → Option (BitVec 64)
  | binop op => simplifyIntBinop conservative op ctype l r
  | compare op => some (simplifyCmpBinop op ctype l r)

/-- The value of the instruction that `linearize_binop` or `linearize_compare`
builds on the same operands. -/
def insnFold (ctype : IntType) (l r : BitVec 64) : FoldedOp → Option (BitVec 64)
  | binop op => simplifyConstantBinop (opcodeSign op.opcode ctype) ctype.bitSize l r
  | compare op => simplifyConstantBinop op.opcode ctype.bitSize l r

end FoldedOp

end Sparse
