import Sparse.ConstantExpressions

/-!
# Expansion of constant expressions

`expand_expression` on the typed trees: every node is folded when its operands
have become `EXPR_VALUE`. The result is the node that is left and its cost.
-/

namespace Sparse
open MaskedWords

/-- `get_longlong`. -/
def getLonglong (t : Target) (ctype : Ctype) (value : BitVec 64) : BitVec 64 :=
  let mask := signBit (ctype.bitSize t)
  let noExpand := ctype.isUnsigned || value &&& mask == 0#64
  let andmask := mask ||| (mask - 1#64)
  let ormask := if noExpand then 0#64 else ~~~andmask
  (value &&& andmask) ||| ormask

/-- `cast_value` between integer types. -/
def castValue (t : Target) (newtype oldtype : Ctype) (old : BitVec 64) : BitVec 64 :=
  if oldtype.bitSize t = newtype.bitSize t then old
  else
    let value := getLonglong t oldtype old
    if newtype = .bool then boolWord (value != 0#64)
    else value &&& lowMask (newtype.bitSize t)

/-- `simplify_preop` on an operand that is `EXPR_VALUE`. -/
def simplifyPreop (t : Target) (ctype : Ctype) (op : UnaryOp) (v : BitVec 64) :
    Option (BitVec 64) :=
  let mask := signBit (ctype.bitSize t)
  let v := match op with
    | .plus => some v
    | .minus => if v = mask ∧ ctype.isUnsigned = false then none else some (-v)
    | .not => some (boolWord (v == 0#64))
    | .bitNot => some (~~~v)
  v.map (· &&& lowMask (ctype.bitSize t))

/-- `SELECT_COST`. -/
def selectCost : ℤ := 20

/-- `BRANCH_COST`. -/
def branchCost : ℤ := 10

/-- The operator of the `EXPR_BINOP` that replaces a cheap `EXPR_LOGICAL`. -/
def LogicalOp.binaryOp : LogicalOp → BinaryOp
  | .and => .logicalAnd
  | .or => .logicalOr

namespace Expression

variable (t : Target) (conservative : Bool)

/-- `simplify_int_binop`, with the count it stores in the right operand. -/
def simplifyBinop (ctype : Ctype) (op : BinaryOp) (left right : Expression) : Expression × Bool :=
  match right with
  | value rtype r =>
    match shiftCount conservative op (ctype.intType t) r with
    | none => (binop ctype op left right, false)
    | some r =>
      match left with
      | value _ l =>
        match intBinopValue op (ctype.intType t) l r with
        | some v => (value ctype v, true)
        | none => (binop ctype op left (value rtype r), false)
      | _ => (binop ctype op left (value rtype r), false)
  | _ => (binop ctype op left right, false)

/-- `expand_logical` decides on the left operand alone. -/
def shortCircuit (op : LogicalOp) (left : BitVec 64) : Option (BitVec 64) :=
  match op with
  | .and => if left = 0#64 then some 0#64 else none
  | .or => if left ≠ 0#64 then some 1#64 else none

/-- The part of `expand_logical` after both operands are expanded. -/
def simplifyLogical (ctype : Ctype) (op : LogicalOp) (left right : Expression × ℤ) :
    Expression × ℤ :=
  match left.1, right.1 with
  | value _ _, value _ r => (value ctype (boolWord (r != 0#64)), 0)
  | l, r =>
    if right.2 < branchCost then
      (binop ctype op.binaryOp l r, left.2 + branchCost + (right.2 - (branchCost - 1)))
    else (logical ctype op l r, left.2 + branchCost + right.2)

/-- `expand_expression`. -/
def expand : Expression → Expression × ℤ
  | value c v => (value c v, 0)
  | preop c op e =>
    let unop := e.expand
    match unop.1 with
    | value _ v =>
      match simplifyPreop t c op v with
      | some v => (value c v, 0)
      | none => (preop c op unop.1, unop.2 + 1)
    | _ => (preop c op unop.1, unop.2 + 1)
  | binop c op l r =>
    let left := l.expand
    let right := r.expand
    let folded := simplifyBinop t conservative c op left.1 right.1
    (folded.1, if folded.2 then 0 else left.2 + right.2 + 1)
  | compare c op l r =>
    let left := l.expand
    let right := r.expand
    match left.1, right.1 with
    | value ltype lv, value _ rv => (value c (simplifyCmpBinop op (ltype.intType t) lv rv), 0)
    | _, _ => (compare c op left.1 right.1, left.2 + right.2 + 1)
  | logical c op l r =>
    let left := l.expand
    match left.1 with
    | value _ lv =>
      match shortCircuit op lv with
      | some v => (value c v, 0)
      | none => simplifyLogical c op left r.expand
    | _ => simplifyLogical c op left r.expand
  | conditional c select a l r =>
    let cond := a.expand
    match cond.1 with
    | value _ v => if v = 0#64 then r.expand else l.expand
    | _ =>
      let condTrue := l.expand
      let condFalse := r.expand
      let cost := condTrue.2 + condFalse.2
      if cost < selectCost then
        (conditional c true cond.1 condTrue.1 condFalse.1,
          cost - (branchCost - 1) + cond.2 + branchCost)
      else (conditional c select cond.1 condTrue.1 condFalse.1, cost + cond.2 + branchCost)
  | shortConditional c select a r =>
    let cond := a.expand
    match cond.1 with
    | value ctype v => if v = 0#64 then r.expand else (value ctype v, 0)
    | _ =>
      let condFalse := r.expand
      if condFalse.2 < selectCost then
        (shortConditional c true cond.1 condFalse.1,
          condFalse.2 - (branchCost - 1) + cond.2 + branchCost)
      else (shortConditional c select cond.1 condFalse.1, condFalse.2 + cond.2 + branchCost)
  | comma c l r =>
    let left := l.expand
    let right := r.expand
    match left.1 with
    | value _ _ => (right.1, left.2 + right.2)
    | _ => (comma c left.1 right.1, left.2 + right.2)
  | cast c implied e =>
    let target := e.expand
    match target.1 with
    | value oldtype v => (value c (castValue t c oldtype v), 0)
    | _ => (cast c implied target.1, target.2 + 1)

end Expression

/-- The value `__get_expression_value` reads from an expanded expression. -/
def signAdjusted (t : Target) (ctype : Ctype) (value : BitVec 64) : BitVec 64 :=
  let mask := signBit (ctype.bitSize t)
  if value &&& mask ≠ 0#64 ∧ ctype.isUnsigned = false then
    value ||| mask ||| ~~~(mask - 1#64)
  else value

/-- `__get_expression_value`; `none` where it reports an error. `bad` is the
answer of `bad_integer_constant_expression`, which only a strict caller asks. -/
def getExpressionValue {t : Target} (conservative : Bool) (strict : ℕ) (bad : Bool)
    (e : ConstExpr t) : Option (BitVec 64) :=
  match (e.evaluate.expand t conservative).1 with
  | .value _ v =>
    if strict = 1 ∧ bad then none else some (signAdjusted t e.evaluate.ctype v)
  | _ => none

end Sparse
