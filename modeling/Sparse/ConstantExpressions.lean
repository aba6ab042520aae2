import Sparse.ConstantFolders

/-!
# Integer constant expressions and their evaluation

A tree of integer constants under the operators of C, the value C gives it, and
the typed tree that `evaluate_expression` makes of it. The types are those of
`ctype_declaration`, with the sizes of `target.c`; nodes and enumerations stand
for their base type, as `classify_type` reads them.
-/

namespace Sparse
open MaskedWords

/-- `-m64` changes the size of `long`. -/
structure Target where
  m64 : Bool
  deriving DecidableEq, Repr

/-- The size modifiers `MOD_CHAR`, `MOD_SHORT`, `MOD_LONG` and `MOD_LL`. -/
inductive IntRank
  | char | short | int | long | longLong
  deriving DecidableEq, Repr

/-- `MOD_SIGNED`, `MOD_ESIGNED` and `MOD_UNSIGNED`. -/
inductive Signedness
  | signed | explicitlySigned | unsigned
  deriving DecidableEq, Repr

/-- The integer types of `ctype_declaration` but for `lllong`, of 128 bits, whose values no constant holds. -/
inductive Ctype
  | bool
  | integer (rank : IntRank) (sign : Signedness)
  deriving DecidableEq, Repr

namespace Ctype

/-- `int_ctype`. -/
def int : Ctype := .integer .int .signed

/-- `uint_ctype`. -/
def uint : Ctype := .integer .int .unsigned

/-- `bits_in_bool` to `bits_in_longlong`. -/
def bitSize (t : Target) : Ctype → ℕ
  | bool => 1
  | integer .char _ => 8
  | integer .short _ => 16
  | integer .int _ => 32
  | integer .long _ => if t.m64 then 64 else 32
  | integer .longLong _ => 64

/-- `MOD_UNSIGNED`. -/
def isUnsigned : Ctype → Bool
  | bool => true
  | integer _ sign => sign = .unsigned

/-- `MOD_CHAR | MOD_SHORT`. -/
def isCharOrShort : Ctype → Bool
  | integer .char _ => true
  | integer .short _ => true
  | _ => false

/-- `MOD_LONG` and `MOD_LONGLONG`; the type `long long` has both. -/
def longModifiers : Ctype → Bool × Bool
  | integer .long _ => (true, false)
  | integer .longLong _ => (true, true)
  | _ => (false, false)

theorem bitSize_pos (t : Target) (c : Ctype) : 0 < c.bitSize t := by
  unfold bitSize
  split <;> (try split) <;> omega

theorem bitSize_le (t : Target) (c : Ctype) : c.bitSize t ≤ 64 := by
  unfold bitSize
  split <;> (try split) <;> omega

/-- What the folders read of the type. -/
def intType (t : Target) (c : Ctype) : IntType :=
  ⟨c.bitSize t, c.isUnsigned, c.bitSize_pos t, c.bitSize_le t⟩

/-- `integer_promotion`. -/
def promoted (t : Target) (c : Ctype) : Ctype :=
  if c.bitSize t < 32 then int
  else if c.isCharOrShort then
    if c.isUnsigned then uint else int
  else c

/-- `bigger_int_type`. -/
def bigger (t : Target) (left right : Ctype) : Ctype :=
  let left := left.promoted t
  let right := right.promoted t
  if left = right then left
  else if right.bitSize t < left.bitSize t then left
  else if left.bitSize t < right.bitSize t then right
  else if left.isUnsigned != right.isUnsigned then
    if left.isUnsigned then left else right
  else if (left.longModifiers.1 && !right.longModifiers.1) ||
      (left.longModifiers.2 && !right.longModifiers.2) then left
  else right

/-- The types the operands of a binary operator are cast to: shifts do integer
promotions only, the rest the usual conversions. -/
def operandTypes (t : Target) (op : BinaryOp) (left right : Ctype) : Ctype × Ctype :=
  if op.isShift then (left.promoted t, right.promoted t)
  else (left.bigger t right, left.bigger t right)

end Ctype

/-- The operators of `EXPR_PREOP` on integers. -/
inductive UnaryOp
  | plus | minus | bitNot | not
  deriving DecidableEq, Repr

/-- `modify_for_unsigned`. -/
def CompareOp.modifyForUnsigned : CompareOp → CompareOp
  | .lt => .unsignedLt
  | .gt => .unsignedGt
  | .lte => .unsignedLte
  | .gte => .unsignedGte
  | op => op

/-- An integer constant: its value fits its type. -/
structure IntConstant (t : Target) where
  ctype : Ctype
  value : BitVec 64
  canonical : Canonical (ctype.bitSize t) value

/-- The comparisons of the language. -/
inductive SourceCompare
  | lt | gt | lte | gte | equal | notEqual
  deriving DecidableEq, Repr

/-- The operator the parser stores. -/
def SourceCompare.op : SourceCompare → CompareOp
  | lt => .lt
  | gt => .gt
  | lte => .lte
  | gte => .gte
  | equal => .equal
  | notEqual => .notEqual

/-- The binary operators of `EXPR_BINOP` in the language. -/
inductive SourceBinary
  | add | sub | mul | div | mod | and | or | xor | leftShift | rightShift
  deriving DecidableEq, Repr

/-- The operator the parser stores. -/
def SourceBinary.op : SourceBinary → BinaryOp
  | add => .add
  | sub => .sub
  | mul => .mul
  | div => .div
  | mod => .mod
  | and => .and
  | or => .or
  | xor => .xor
  | leftShift => .leftShift
  | rightShift => .rightShift

/-- `&&` and `||`. -/
inductive LogicalOp
  | and | or
  deriving DecidableEq, Repr

/-- A tree of integer constants, as parsed. `shortConditional` is `a ?: b`. -/
inductive ConstExpr (t : Target)
  | constant (c : IntConstant t)
  | unary (op : UnaryOp) (unop : ConstExpr t)
  | binary (op : SourceBinary) (left right : ConstExpr t)
  | compare (op : SourceCompare) (left right : ConstExpr t)
  | logical (op : LogicalOp) (left right : ConstExpr t)
  | conditional (cond condTrue condFalse : ConstExpr t)
  | shortConditional (cond condFalse : ConstExpr t)
  | comma (left right : ConstExpr t)
  | cast (castType : Ctype) (unop : ConstExpr t)

/-! ## The values of C -/

namespace Ctype

/-- The value that bits of this type have. -/
def ofBits (t : Target) (c : Ctype) (x : BitVec (c.bitSize t)) : ℤ :=
  if c.isUnsigned then x.toNat else x.toInt

/-- The values of the type. -/
def InRange (t : Target) (c : Ctype) (z : ℤ) : Prop :=
  if c.isUnsigned then 0 ≤ z ∧ z < 2 ^ c.bitSize t
  else -2 ^ (c.bitSize t - 1) ≤ z ∧ z < 2 ^ (c.bitSize t - 1)

instance (t : Target) (c : Ctype) (z : ℤ) : Decidable (c.InRange t z) := by
  unfold InRange
  infer_instance

/-- Conversion to the type. Where C leaves the result to the implementation it
is the value modulo the size. -/
def convert (t : Target) (c : Ctype) (z : ℤ) : ℤ :=
  if c = bool then if z = 0 then 0 else 1
  else c.ofBits t (BitVec.ofInt _ z)

/-- The result of an operation: unsigned types wrap, signed ones must not. -/
def result (t : Target) (c : Ctype) (z : ℤ) : Option ℤ :=
  if c.isUnsigned then some (z % 2 ^ c.bitSize t)
  else if c.InRange t z then some z else none

/-- The operators on two operands of the type; the right operand of a shift has
a promoted type of its own. A right shift of a negative value is arithmetic. -/
def binary (t : Target) (c : Ctype) (a b : ℤ) : SourceBinary → Option ℤ
  | .add => c.result t (a + b)
  | .sub => c.result t (a - b)
  | .mul => c.result t (a * b)
  | .div => if b = 0 then none else c.result t (a.tdiv b)
  | .mod =>
    if b = 0 then none
    else if c.InRange t (a.tdiv b) then some (a.tmod b) else none
  | .and => some (c.ofBits t (BitVec.ofInt _ a &&& BitVec.ofInt _ b))
  | .or => some (c.ofBits t (BitVec.ofInt _ a ||| BitVec.ofInt _ b))
  | .xor => some (c.ofBits t (BitVec.ofInt _ a ^^^ BitVec.ofInt _ b))
  | .leftShift =>
    if b < 0 ∨ (c.bitSize t : ℤ) ≤ b then none
    else if c.isUnsigned = false ∧ a < 0 then none
    else c.result t (a * 2 ^ b.toNat)
  | .rightShift =>
    if b < 0 ∨ (c.bitSize t : ℤ) ≤ b then none else some (a / 2 ^ b.toNat)

/-- The unary operators on an operand of the type. -/
def unary (t : Target) (c : Ctype) (a : ℤ) : UnaryOp → Option ℤ
  | .plus => some a
  | .minus => c.result t (-a)
  | .bitNot => c.result t (-a - 1)
  | .not => some (if a = 0 then 1 else 0)

end Ctype

/-- The value of a truth value. -/
def truth (p : Prop) [Decidable p] : ℤ :=
  if p then 1 else 0

/-- The comparisons of C. -/
def CompareOp.holds (a b : ℤ) : CompareOp → Bool
  | lt | unsignedLt => a < b
  | gt | unsignedGt => b < a
  | lte | unsignedLte => a ≤ b
  | gte | unsignedGte => b ≤ a
  | equal => a = b
  | notEqual => a ≠ b

namespace ConstExpr

variable {t : Target}

/-- The type the evaluator gives. -/
def ctype : ConstExpr t → Ctype
  | constant c => c.ctype
  | unary .not _ => .bool
  | unary _ e => e.ctype.promoted t
  | binary op l r => (Ctype.operandTypes t op.op l.ctype r.ctype).1
  | compare _ _ _ => .bool
  | logical _ _ _ => .bool
  | conditional _ a b => a.ctype.bigger t b.ctype
  | shortConditional a b => a.ctype.bigger t b.ctype
  | comma _ r => r.ctype
  | cast castType _ => castType

/-- The value C gives to the expression; `none` where the behaviour is undefined. -/
def value : ConstExpr t → Option ℤ
  | constant c => some (c.ctype.ofBits t (c.value.setWidth _))
  | unary .not e => e.value.bind fun a => Ctype.bool.unary t a .not
  | unary op e => e.value.bind fun a =>
      (e.ctype.promoted t).unary t ((e.ctype.promoted t).convert t a) op
  | binary op l r => l.value.bind fun a => r.value.bind fun b =>
      let types := Ctype.operandTypes t op.op l.ctype r.ctype
      types.1.binary t (types.1.convert t a) (types.2.convert t b) op
  | compare op l r => l.value.bind fun a => r.value.bind fun b =>
      some (truth (op.op.holds ((l.ctype.bigger t r.ctype).convert t a)
        ((l.ctype.bigger t r.ctype).convert t b)))
  | logical .and l r => l.value.bind fun a =>
      if a = 0 then some 0 else r.value.map fun b => truth (b ≠ 0)
  | logical .or l r => l.value.bind fun a =>
      if a ≠ 0 then some 1 else r.value.map fun b => truth (b ≠ 0)
  | conditional c l r => c.value.bind fun a =>
      if a ≠ 0 then l.value.map ((l.ctype.bigger t r.ctype).convert t)
      else r.value.map ((l.ctype.bigger t r.ctype).convert t)
  | shortConditional c r => c.value.bind fun a =>
      if a ≠ 0 then some ((c.ctype.bigger t r.ctype).convert t a)
      else r.value.map ((c.ctype.bigger t r.ctype).convert t)
  | comma l r => l.value.bind fun _ => r.value
  | cast castType e => e.value.map (castType.convert t)

end ConstExpr

/-! ## The evaluated tree -/

/-- A typed expression: what `evaluate_expression` and `expand_expression` leave. -/
inductive Expression
  | value (ctype : Ctype) (value : BitVec 64)
  | preop (ctype : Ctype) (op : UnaryOp) (unop : Expression)
  | binop (ctype : Ctype) (op : BinaryOp) (left right : Expression)
  | compare (ctype : Ctype) (op : CompareOp) (left right : Expression)
  | logical (ctype : Ctype) (op : LogicalOp) (left right : Expression)
  | conditional (ctype : Ctype) (select : Bool) (cond condTrue condFalse : Expression)
  | shortConditional (ctype : Ctype) (select : Bool) (cond condFalse : Expression)
  | comma (ctype : Ctype) (left right : Expression)
  | cast (ctype : Ctype) (implied : Bool) (castExpression : Expression)
  deriving DecidableEq, Repr

namespace Expression

def ctype : Expression → Ctype
  | value c _ => c
  | preop c _ _ => c
  | binop c _ _ _ => c
  | compare c _ _ _ => c
  | logical c _ _ _ => c
  | conditional c _ _ _ _ => c
  | shortConditional c _ _ _ => c
  | comma c _ _ => c
  | cast c _ _ => c

/-- `expr->ctype = ctype`. -/
def setCtype (c : Ctype) : Expression → Expression
  | value _ v => value c v
  | preop _ op e => preop c op e
  | binop _ op l r => binop c op l r
  | compare _ op l r => compare c op l r
  | logical _ op l r => logical c op l r
  | conditional _ s a l r => conditional c s a l r
  | shortConditional _ s a r => shortConditional c s a r
  | comma _ l r => comma c l r
  | cast _ i e => cast c i e

/-- `cast_to`. -/
def castTo (t : Target) (type : Ctype) : Expression → Expression
  | preop c .bitNot e =>
    if c = type then preop c .bitNot e
    else if c.bitSize t < type.bitSize t then cast type true (preop c .bitNot e)
    else preop type .bitNot (castTo t type e)
  | cast c true orig =>
    if c = type then cast c true orig
    else if type.bitSize t ≤ c.bitSize t then
      if orig.ctype.bitSize t = type.bitSize t then orig else cast type true orig
    else cast type true (cast c true orig)
  | e => if e.ctype = type then e else cast type true e

end Expression

namespace ConstExpr
open Expression (castTo)

variable {t : Target}

/-- `evaluate_expression`. A unary plus leaves its operand. -/
def evaluate : ConstExpr t → Expression
  | constant c => .value c.ctype c.value
  | unary .not e => .preop .bool .not e.evaluate
  | unary .plus e =>
    let ctype := e.evaluate.ctype.promoted t
    (castTo t ctype e.evaluate).setCtype ctype
  | unary op e =>
    let ctype := e.evaluate.ctype.promoted t
    .preop ctype op (castTo t ctype e.evaluate)
  | binary op l r =>
    let types := Ctype.operandTypes t op.op l.evaluate.ctype r.evaluate.ctype
    .binop types.1 op.op (castTo t types.1 l.evaluate) (castTo t types.2 r.evaluate)
  | compare op l r =>
    let ctype := l.evaluate.ctype.bigger t r.evaluate.ctype
    let op := if ctype.isUnsigned then op.op.modifyForUnsigned else op.op
    .compare .bool op (castTo t ctype l.evaluate) (castTo t ctype r.evaluate)
  | logical op l r => .logical .bool op l.evaluate r.evaluate
  | conditional c l r =>
    let ctype := l.evaluate.ctype.bigger t r.evaluate.ctype
    .conditional ctype false c.evaluate (castTo t ctype l.evaluate) (castTo t ctype r.evaluate)
  | shortConditional c r =>
    let ctype := c.evaluate.ctype.bigger t r.evaluate.ctype
    .shortConditional ctype false (castTo t ctype c.evaluate) (castTo t ctype r.evaluate)
  | comma l r => .comma r.evaluate.ctype l.evaluate r.evaluate
  | cast castType e => .cast castType false e.evaluate

end ConstExpr

end Sparse
