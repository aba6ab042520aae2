import Sparse.ExpressionParser

/-!
# Expression trees

The trees of C's operator grammar over identifiers and numbers, how they are printed with
the parentheses that precedence and associativity call for, and the nodes of the parser
that stand for them.
-/

namespace Sparse.ExpressionParser

/-! ## Operators -/

/-- The operators in front of their operand. -/
inductive UnaryOp
  | increment
  | decrement
  | address
  | indirection
  | plus
  | minus
  | complement
  | negation
  deriving DecidableEq, Repr

def UnaryOp.special : UnaryOp → ℕ
  | increment => specialIncrement
  | decrement => specialDecrement
  | address => op '&'
  | indirection => op '*'
  | plus => op '+'
  | minus => op '-'
  | complement => op '~'
  | negation => op '!'

/-- `sizeof` and its like, by their spelling. -/
inductive InfoOp
  | sizeof
  | alignof
  | alignofShort
  | sizeofPtr
  deriving DecidableEq, Repr

namespace InfoOp

def name : InfoOp → List UInt8
  | sizeof => ident "sizeof"
  | alignof => ident "__alignof__"
  | alignofShort => ident "__alignof"
  | sizeofPtr => ident "__sizeof_ptr__"

def type : InfoOp → InfoType
  | sizeof => .sizeof
  | alignof => .alignof
  | alignofShort => .alignof
  | sizeofPtr => .ptrsizeof

end InfoOp

/-- The operators behind their operand, but for subscripts, members and calls. -/
inductive PostOp
  | increment
  | decrement
  deriving DecidableEq, Repr

def PostOp.special : PostOp → ℕ
  | increment => specialIncrement
  | decrement => specialDecrement

inductive BinaryOp
  | mul
  | div
  | mod
  | add
  | sub
  | leftshift
  | rightshift
  | lt
  | gt
  | lte
  | gte
  | equal
  | notequal
  | bitwiseAnd
  | bitwiseXor
  | bitwiseOr
  | logicalAnd
  | logicalOr
  | comma
  deriving DecidableEq, Repr

namespace BinaryOp

def special : BinaryOp → ℕ
  | mul => op '*'
  | div => op '/'
  | mod => op '%'
  | add => op '+'
  | sub => op '-'
  | leftshift => specialLeftshift
  | rightshift => specialRightshift
  | lt => op '<'
  | gt => op '>'
  | lte => specialLte
  | gte => specialGte
  | equal => specialEqual
  | notequal => specialNotequal
  | bitwiseAnd => op '&'
  | bitwiseXor => op '^'
  | bitwiseOr => op '|'
  | logicalAnd => specialLogicalAnd
  | logicalOr => specialLogicalOr
  | comma => op ','

/-- The rank of the operator in C's grammar; a higher one binds tighter. -/
def rank : BinaryOp → ℕ
  | mul => 12
  | div => 12
  | mod => 12
  | add => 11
  | sub => 11
  | leftshift => 10
  | rightshift => 10
  | lt => 9
  | gt => 9
  | lte => 9
  | gte => 9
  | equal => 8
  | notequal => 8
  | bitwiseAnd => 7
  | bitwiseXor => 6
  | bitwiseOr => 5
  | logicalAnd => 4
  | logicalOr => 3
  | comma => 0

/-- The type of the node. -/
def type : BinaryOp → BinaryType
  | mul => .binop
  | div => .binop
  | mod => .binop
  | add => .binop
  | sub => .binop
  | leftshift => .binop
  | rightshift => .binop
  | lt => .compare
  | gt => .compare
  | lte => .compare
  | gte => .compare
  | equal => .compare
  | notequal => .compare
  | bitwiseAnd => .binop
  | bitwiseXor => .binop
  | bitwiseOr => .binop
  | logicalAnd => .logical
  | logicalOr => .logical
  | comma => .comma

end BinaryOp

inductive AssignOp
  | assign
  | add
  | sub
  | mul
  | div
  | mod
  | shl
  | shr
  | and
  | or
  | xor
  deriving DecidableEq, Repr

def AssignOp.special : AssignOp → ℕ
  | assign => op '='
  | add => specialAddAssign
  | sub => specialSubAssign
  | mul => specialMulAssign
  | div => specialDivAssign
  | mod => specialModAssign
  | shl => specialShlAssign
  | shr => specialShrAssign
  | and => specialAndAssign
  | or => specialOrAssign
  | xor => specialXorAssign

/-! ## Trees -/

/-- An expression of C without casts and types. -/
inductive Tree
  | ident (name : List UInt8)
  | number (text : List UInt8)
  | unary (o : UnaryOp) (t : Tree)
  | typeInfo (o : InfoOp) (t : Tree)
  | postop (o : PostOp) (t : Tree)
  | index (t i : Tree)
  | member (t : Tree) (name : List UInt8)
  | arrow (t : Tree) (name : List UInt8)
  | call (f : Tree) (args : List Tree)
  | binary (o : BinaryOp) (l r : Tree)
  | conditional (c t f : Tree)
  | assign (o : AssignOp) (l r : Tree)

/-- The ranks of assignments, conditionals and operands, around those of the binary operators. -/
def assignRank : ℕ := 1
def conditionalRank : ℕ := 2
def unaryRank : ℕ := 13
def postRank : ℕ := 14
def primaryRank : ℕ := 15

def Tree.rank : Tree → ℕ
  | .ident _ => primaryRank
  | .number _ => primaryRank
  | .unary _ _ => unaryRank
  | .typeInfo _ _ => unaryRank
  | .postop _ _ => postRank
  | .index _ _ => postRank
  | .member _ _ => postRank
  | .arrow _ _ => postRank
  | .call _ _ => postRank
  | .binary o _ _ => o.rank
  | .conditional _ _ _ => conditionalRank
  | .assign _ _ _ => assignRank

/-- The tokens in parentheses where the place calls for a higher rank. -/
def parens (rank place : ℕ) (tokens : List Tok) : List Tok :=
  if rank < place then .special (op '(') :: (tokens ++ [.special (op ')')]) else tokens

mutual

/-- The tokens of the tree at a place of that rank. Binary operators are left-associative,
conditionals and assignments right-associative. -/
def Tree.print : Tree → ℕ → List Tok
  | .ident name, _ => [.value (.ident name)]
  | .number text, _ => [.value (.number text)]
  | .unary o t, place => parens unaryRank place (.special o.special :: t.print unaryRank)
  | .typeInfo o t, place => parens unaryRank place (.value (.ident o.name) :: t.print unaryRank)
  | .postop o t, place => parens postRank place (t.print postRank ++ [.special o.special])
  | .index t i, place =>
    parens postRank place (t.print postRank ++ .special (op '[') :: (i.print 0 ++ [.special (op ']')]))
  | .member t name, place =>
    parens postRank place (t.print postRank ++ [.special (op '.'), .value (.ident name)])
  | .arrow t name, place =>
    parens postRank place (t.print postRank ++ [.special specialDereference, .value (.ident name)])
  | .call f args, place =>
    parens postRank place (f.print postRank ++ .special (op '(') :: (printArgs args ++ [.special (op ')')]))
  | .binary o l r, place => parens o.rank place (l.print o.rank ++ .special o.special :: r.print (o.rank + 1))
  | .conditional c t f, place =>
    parens conditionalRank place
      (c.print (conditionalRank + 1) ++
        .special (op '?') :: (t.print 0 ++ .special (op ':') :: f.print conditionalRank))
  | .assign o l r, place =>
    parens assignRank place (l.print unaryRank ++ .special o.special :: r.print assignRank)

/-- The arguments of a call, with commas between them. -/
def printArgs : List Tree → List Tok
  | [] => []
  | [t] => t.print assignRank
  | t :: u :: ts => t.print assignRank ++ .special (op ',') :: printArgs (u :: ts)

end

mutual

/-- The nodes of the parser for the tree: `a[i]` is `*(a + i)`, and `a->m` is `(*a).m`. -/
def Tree.toExpr : Tree → Expr
  | .ident name => .symbol name
  | .number text => .constant (.number text)
  | .unary o t => .preop o.special t.toExpr
  | .typeInfo o t => .typeInfo o.type t.toExpr
  | .postop o t => .postop o.special t.toExpr
  | .index t i => .preop (op '*') (.binary .binop (op '+') t.toExpr i.toExpr)
  | .member t name => .deref t.toExpr name
  | .arrow t name => .deref (.preop (op '*') t.toExpr) name
  | .call f args => .call f.toExpr (toExprs args)
  | .binary o l r => .binary o.type o.special l.toExpr r.toExpr
  | .conditional c t f => .conditional c.toExpr t.toExpr f.toExpr
  | .assign o l r => .assignment o.special l.toExpr r.toExpr

def toExprs : List Tree → List Expr
  | [] => []
  | t :: ts => t.toExpr :: toExprs ts

end

mutual

/-- The nodes without those for parentheses. -/
def Expr.strip : Expr → Expr
  | .null => .null
  | .symbol name => .symbol name
  | .constant token => .constant token
  | .string tokens => .string tokens
  | .preop o unop => if o = op '(' then unop.strip else .preop o unop.strip
  | .postop o unop => .postop o unop.strip
  | .binary type o left right => .binary type o left.strip right.strip
  | .assignment o left right => .assignment o left.strip right.strip
  | .conditional left condTrue condFalse => .conditional left.strip condTrue.strip condFalse.strip
  | .deref e member => .deref e.strip member
  | .call fn args => .call fn.strip (stripList args)
  | .typeInfo type e => .typeInfo type e.strip
  | .label name => .label name
  | .other node => .other node

def stripList : List Expr → List Expr
  | [] => []
  | e :: es => e.strip :: stripList es

end

@[simp] theorem Tree.print_ident (name : List UInt8) (place : ℕ) :
    (Tree.ident name).print place = [.value (.ident name)] := by
  rw [Tree.print]

@[simp] theorem Expr.strip_symbol (name : List UInt8) : (Expr.symbol name).strip = .symbol name := by
  rw [Expr.strip]

/-! ## Plain trees -/

/-- The name is an identifier of the grammar: no keyword, type name, enumerator or builtin. -/
structure Context.PlainName (ctx : Context) (name : List UInt8) : Prop where
  keyword : typeInformation.lookup name = none
  symbol : ∀ sym ∈ ctx.lookupSymbol name, sym.isTypedef = false ∧ sym.enumMember = none
  builtin : ctx.lookupSymbol name = none → name ∉ builtins

mutual

/-- The identifiers of the tree are identifiers where it is parsed, and its numbers are numbers. -/
def Tree.Plain (ctx : Context) : Tree → Prop
  | .ident name => ctx.PlainName name
  | .number text => ctx.getNumberValue text = true
  | .unary _ t => t.Plain ctx
  | .typeInfo _ t => t.Plain ctx
  | .postop _ t => t.Plain ctx
  | .index t i => t.Plain ctx ∧ i.Plain ctx
  | .member t _ => t.Plain ctx
  | .arrow t _ => t.Plain ctx
  | .call f args => f.Plain ctx ∧ PlainArgs ctx args
  | .binary _ l r => l.Plain ctx ∧ r.Plain ctx
  | .conditional c t f => c.Plain ctx ∧ t.Plain ctx ∧ f.Plain ctx
  | .assign _ l r => l.Plain ctx ∧ r.Plain ctx

def PlainArgs (ctx : Context) : List Tree → Prop
  | [] => True
  | t :: ts => t.Plain ctx ∧ PlainArgs ctx ts

end

/-- No operator follows that goes on with an expression of the rank or a lower one. -/
structure Stops (rank : ℕ) (rest : List Tok) : Prop where
  binary : ∀ o : BinaryOp, rest.head? = some (.special o.special) → o.rank < rank
  conditional : rest.head? = some (.special (op '?')) → conditionalRank < rank
  assign : ∀ o : AssignOp, rest.head? = some (.special o.special) → assignRank < rank
  postop : ∀ o ∈ [op '[', specialIncrement, specialDecrement, specialDereference, op '.', op '('],
    rest.head? = some (.special o) → postRank < rank

end Sparse.ExpressionParser
