import Sparse.LosslessTokens

/-!
# The expression parser

`parse_expression` and the functions under it, over the tokens of the tokenizer. The
levels of `LR_BINOP_EXPRESSION` are one definition with the values of each level. Types,
statement expressions and builtins belong to other parts of the parser; what these do is
left to the context.
-/

namespace Sparse.ExpressionParser

open Tokenizer (Value showSpecial showToken)

/-! ## Tokens -/

/-- A token in front of the parser; `bad` is the token that a failed `expect` puts there. -/
inductive Tok
  | value (v : Value)
  | bad
  deriving DecidableEq, Repr

/-- The special token of one character. -/
def op (c : Char) : ℕ := c.toNat

def specialAddAssign : ℕ := 256
def specialIncrement : ℕ := 257
def specialSubAssign : ℕ := 258
def specialDecrement : ℕ := 259
def specialDereference : ℕ := 260
def specialMulAssign : ℕ := 261
def specialDivAssign : ℕ := 262
def specialModAssign : ℕ := 263
def specialLte : ℕ := 264
def specialGte : ℕ := 265
def specialEqual : ℕ := 266
def specialNotequal : ℕ := 267
def specialLogicalAnd : ℕ := 268
def specialAndAssign : ℕ := 269
def specialLogicalOr : ℕ := 270
def specialOrAssign : ℕ := 271
def specialXorAssign : ℕ := 272
def specialLeftshift : ℕ := 274
def specialRightshift : ℕ := 275
def specialShlAssign : ℕ := 277
def specialShrAssign : ℕ := 278

/-- The name of an identifier. -/
def ident (s : String) : List UInt8 := s.toList.map Tokenizer.ch

def Tok.special (op : ℕ) : Tok := .value (.special op)

/-- Bytes in a message. -/
def text (bytes : List UInt8) : String := String.ofList (bytes.map fun c => Char.ofNat c.toNat)

/-- `show_token` in a message; behind the last token stands the end of the input. -/
def shownToken : Option Tok → String
  | some (.value v) => text (showToken v)
  | _ => "end-of-input"

/-! ## Expressions -/

inductive BinaryType
  | binop
  | compare
  | logical
  | comma
  deriving DecidableEq, Repr

/-- The nodes with a type or an operand: `EXPR_SIZEOF`, `EXPR_ALIGNOF`, `EXPR_PTRSIZEOF`. -/
inductive InfoType
  | sizeof
  | alignof
  | ptrsizeof
  deriving DecidableEq, Repr

/-- The nodes that the expression parser makes, where `null` is the null pointer. A
constant and a string are kept as their tokens, and the nodes of the other parts of the
parser as a number. Positions and flags, which the parser writes and never asks for, are
left out. -/
inductive Expr
  | null
  | symbol (name : List UInt8)
  | constant (token : Value)
  | string (tokens : List Tok)
  | preop (op : ℕ) (unop : Expr)
  | postop (op : ℕ) (unop : Expr)
  | binary (type : BinaryType) (op : ℕ) (left right : Expr)
  | assignment (op : ℕ) (left right : Expr)
  | conditional (left condTrue condFalse : Expr)
  | deref (deref : Expr) (member : List UInt8)
  | call (fn : Expr) (args : List Expr)
  | typeInfo (type : InfoType) (castExpression : Expr)
  | label (name : List UInt8)
  | other (node : ℕ)

def Expr.isNull : Expr → Bool
  | .null => true
  | _ => false

/-- The tokens in front of the parser and the errors that it has reported. -/
structure Input where
  tokens : List Tok
  errors : List String

/-- None where the fuel ends or the process dies. -/
abbrev Parser : Type := Input → Option (Expr × Input)

namespace Input

def next (s : Input) : Input := { s with tokens := s.tokens.tail }

/-- The value of a special token in front. -/
def special (s : Input) : Option ℕ :=
  match s.tokens with
  | .value (.special op) :: _ => some op
  | _ => none

/-- The name of an identifier in front. -/
def name (s : Input) : Option (List UInt8) :=
  match s.tokens with
  | .value (.ident name) :: _ => some name
  | _ => none

/-- `match_op`. -/
def matchOp (s : Input) (op : ℕ) : Bool := s.special = some op

/-- `sparse_error`. -/
def sparseError (s : Input) (text : String) : Input := { s with errors := s.errors ++ [text] }

end Input

/-- `expect`. -/
def expect (s : Input) (op : ℕ) (place : String) : Input :=
  if s.matchOp op then s.next
  else if s.tokens.head? = some .bad then s
  else
    let s' := (s.sparseError s!"Expected {text (showSpecial op)} {place}").sparseError
      s!"got {shownToken s.tokens.head?}"
    { s' with tokens := .bad :: s.tokens }

/-! ## The levels of binary operators -/

/-- The functions that `LR_BINOP_EXPRESSION` makes. -/
inductive Level
  | multiplicative
  | additive
  | shift
  | relational
  | equality
  | bitwiseAnd
  | bitwiseXor
  | bitwiseOr
  | logicalAnd
  | logicalOr
  | comma
  deriving DecidableEq, Repr

namespace Level

/-- The argument `type` of the macro. -/
def type : Level → BinaryType
  | multiplicative => .binop
  | additive => .binop
  | shift => .binop
  | relational => .compare
  | equality => .compare
  | bitwiseAnd => .binop
  | bitwiseXor => .binop
  | bitwiseOr => .binop
  | logicalAnd => .logical
  | logicalOr => .logical
  | comma => .comma

/-- The operators that the argument `compare` of the macro lets through. -/
def operators : Level → List ℕ
  | multiplicative => [op '*', op '/', op '%']
  | additive => [op '+', op '-']
  | shift => [specialLeftshift, specialRightshift]
  | relational => [op '<', op '>', specialLte, specialGte]
  | equality => [specialEqual, specialNotequal]
  | bitwiseAnd => [op '&']
  | bitwiseXor => [op '^']
  | bitwiseOr => [op '|']
  | logicalAnd => [specialLogicalAnd]
  | logicalOr => [specialLogicalOr]
  | comma => [op ',']

end Level

/-- The calls and the rounds of loops that are still to be made. -/
structure Parsers where
  parse : Parser
  assignment : Parser
  conditional : Parser
  cast : Parser
  unary : Parser
  binopLoop : Level → Expr → Parser
  postLoop : Expr → Parser
  argumentLoop : Input → Option (List Expr × Input)

/-- A symbol in the name spaces `NS_SYMBOL` and `NS_TYPEDEF`, with the initializer of the
enumerator that it is. -/
structure Sym where
  isTypedef : Bool
  enumMember : Option Expr

/-- The identifiers of `type_information`. -/
def typeInformation : List (List UInt8 × InfoType) :=
  [(ident "sizeof", .sizeof), (ident "__alignof__", .alignof), (ident "__alignof", .alignof),
    (ident "__sizeof_ptr__", .ptrsizeof)]

/-- The identifiers that are parsed as builtins where no symbol has their name. -/
def builtins : List (List UInt8) :=
  [ident "__builtin_types_compatible_p", ident "__builtin_offsetof"]

/-- The symbols in scope, the numbers that `get_number_value` accepts, and what the other
parts of the parser do with types, statement expressions and builtins. -/
structure Context where
  lookupSymbol : List UInt8 → Option Sym
  getNumberValue : List UInt8 → Bool
  statementExpression : Parsers → Parser
  typeExpression : Parsers → Parser
  builtinExpression : Parsers → List UInt8 → Parser
  typeInfoType : Parsers → InfoType → Parser
  castType : Parsers → Parser
  reserved : ∀ entry ∈ typeInformation, ∀ sym ∈ lookupSymbol entry.1, sym.isTypedef = false

variable (ctx : Context) (self : Parsers)

/-- `lookup_type`. -/
def lookupType (s : Input) : Bool :=
  s.name.any fun name => (ctx.lookupSymbol name).any Sym.isTypedef

/-! ## Primary and unary expressions -/

/-- `parens_expression`. -/
def parensExpression (place : String) (s : Input) : Option (Expr × Input) := do
  let s := expect s (op '(') place
  if s.matchOp (op '{') then
    let (e, s) ← ctx.statementExpression self s.next
    some (e, expect (expect s (op '}') "at end of statement expression") (op ')') place)
  else
    let (e, s) ← self.parse s
    some (e, expect s (op ')') place)

/-- The case `TOKEN_IDENT` of `primary_expression`. -/
def identExpression (name : List UInt8) (s : Input) : Option (Expr × Input) :=
  match ctx.lookupSymbol name with
  | none =>
    if name ∈ builtins then ctx.builtinExpression self name s
    else some (.symbol name, s.next)
  | some sym =>
    match sym.enumMember with
    | some initializer => some (initializer, s.next)
    | none =>
      if sym.isTypedef then some (.symbol name, (s.sparseError "typename in expression").next)
      else some (.symbol name, s.next)

def isString : Tok → Bool
  | .value (.string _ _) => true
  | _ => false

/-- `primary_expression`. -/
def primaryExpression (s : Input) : Option (Expr × Input) :=
  match s.tokens with
  | .value (.embedded wide data) :: _ => some (.constant (.embedded wide data), s.next)
  | .value (.char wide data) :: _ => some (.constant (.char wide data), s.next)
  | .value (.number text) :: _ =>
    if ctx.getNumberValue text then some (.constant (.number text), s.next) else none
  | .value (.ident name) :: _ => identExpression ctx self name s
  | .value (.string _ _) :: _ =>
    some (.string (s.tokens.takeWhile isString), { s with tokens := s.tokens.dropWhile isString })
  | .value (.special o) :: _ =>
    if o = op '(' then do
      let (e, s) ← parensExpression ctx self "in expression" s
      some (.preop (op '(') e, s)
    else if o = op '[' ∧ lookupType ctx s.next then ctx.typeExpression self s
    else some (.null, s)
  | _ => some (.null, s)

/-- One round of `expression_list`. -/
def argumentStep (s : Input) : Option (List Expr × Input) :=
  if s.matchOp (op ')') then some ([], s)
  else do
    let (e, s) ← self.assignment s
    if e.isNull then some ([], s)
    else if s.matchOp (op ',') then
      let (es, s) ← self.argumentLoop s.next
      some (e :: es, s)
    else some ([e], s)

/-- The case `.` of `postfix_expression`, where `->` falls through to it. -/
def memberStep (expr : Expr) (s : Input) : Option (Expr × Input) :=
  let s := s.next
  match s.name with
  | none => some (expr, s.sparseError "Expected member name")
  | some member => self.postLoop (.deref expr member) s.next

/-- One round of the loop of `postfix_expression`. -/
def postStep (expr : Expr) (s : Input) : Option (Expr × Input) :=
  match s.special with
  | none => some (expr, s)
  | some o =>
    if o = op '[' then do
      let (right, s) ← self.parse s.next
      let s := expect s (op ']') "at end of array dereference"
      self.postLoop (.preop (op '*') (.binary .binop (op '+') expr right)) s
    else if o = specialIncrement ∨ o = specialDecrement then self.postLoop (.postop o expr) s.next
    else if o = specialDereference then memberStep self (.preop (op '*') expr) s
    else if o = op '.' then memberStep self expr s
    else if o = op '(' then do
      let (args, s) ← self.argumentLoop s.next
      self.postLoop (.call expr args) (expect s (op ')') "in function call")
    else some (expr, s)

/-- `postfix_expression`; the argument `cast_init_expr` is for the initializers behind types. -/
def postfixExpression (s : Input) : Option (Expr × Input) := do
  let (expr, s) ← primaryExpression ctx self s
  if expr.isNull then some (expr, s) else self.postLoop expr s

/-- `type_info_expression`. -/
def typeInfoExpression (type : InfoType) (s : Input) : Option (Expr × Input) :=
  if s.next.matchOp (op '(') ∧ lookupType ctx s.next.next then ctx.typeInfoType self type s
  else do
    let (e, s) ← self.unary s.next
    some (.typeInfo type e, s)

/-- The operators in front of an operand in `unary_expression`. -/
def unaryOperators : List ℕ :=
  [specialIncrement, specialDecrement, op '&', op '*', op '+', op '-', op '~', op '!']

/-- `unary_expression`. -/
def unaryExpression (s : Input) : Option (Expr × Input) :=
  match s.name.bind fun name => typeInformation.lookup name with
  | some type => typeInfoExpression ctx self type s
  | none =>
    match s.special with
    | none => postfixExpression ctx self s
    | some o =>
      if o ∈ unaryOperators then do
        let (unop, s) ← self.cast s.next
        if unop.isNull then some (.null, s.sparseError "Syntax error in unary expression")
        else some (.preop o unop, s)
      else
        match s.next.name with
        | some name =>
          if o = specialLogicalAnd then some (.label name, s.next.next)
          else postfixExpression ctx self s
        | none => postfixExpression ctx self s

/-- `cast_expression`. -/
def castExpression (s : Input) : Option (Expr × Input) :=
  if s.matchOp (op '(') ∧ lookupType ctx s.next then ctx.castType self s
  else unaryExpression ctx self s

/-! ## Binary operators -/

/-- `LR_BINOP_EXPRESSION` up to its loop. -/
def lrBinop (level : Level) (inner : Parser) (s : Input) : Option (Expr × Input) := do
  let (left, s) ← inner s
  if left.isNull then some (left, s) else self.binopLoop level left s

def multiplicativeExpression : Parser := lrBinop self .multiplicative (castExpression ctx self)

def additiveExpression : Parser := lrBinop self .additive (multiplicativeExpression ctx self)

def shiftExpression : Parser := lrBinop self .shift (additiveExpression ctx self)

def relationalExpression : Parser := lrBinop self .relational (shiftExpression ctx self)

def equalityExpression : Parser := lrBinop self .equality (relationalExpression ctx self)

def bitwiseAndExpression : Parser := lrBinop self .bitwiseAnd (equalityExpression ctx self)

def bitwiseXorExpression : Parser := lrBinop self .bitwiseXor (bitwiseAndExpression ctx self)

def bitwiseOrExpression : Parser := lrBinop self .bitwiseOr (bitwiseXorExpression ctx self)

def logicalAndExpression : Parser := lrBinop self .logicalAnd (bitwiseOrExpression ctx self)

def logicalOrExpression : Parser := lrBinop self .logicalOr (logicalAndExpression ctx self)

/-! ## Conditionals, assignments and commas -/

/-- `conditional_expression` behind its first operand. -/
def conditionalRest (left : Expr) (s : Input) : Option (Expr × Input) :=
  if left.isNull = false ∧ s.matchOp (op '?') then do
    let (condTrue, s) ← self.parse s.next
    let (condFalse, s) ← self.conditional (expect s (op ':') "in conditional expression")
    some (.conditional left condTrue condFalse, s)
  else some (left, s)

/-- `conditional_expression`. -/
def conditionalExpression (s : Input) : Option (Expr × Input) := do
  let (left, s) ← logicalOrExpression ctx self s
  conditionalRest self left s

def assignments : List ℕ :=
  [op '=', specialAddAssign, specialSubAssign, specialMulAssign, specialDivAssign, specialModAssign,
    specialShlAssign, specialShrAssign, specialAndAssign, specialOrAssign, specialXorAssign]

/-- `assignment_expression` behind its first operand. -/
def assignmentRest (left : Expr) (s : Input) : Option (Expr × Input) :=
  match s.special with
  | none => some (left, s)
  | some o =>
    if left.isNull = false ∧ o ∈ assignments then do
      let (right, s) ← self.assignment s.next
      some (.assignment o left right, s)
    else some (left, s)

/-- `assignment_expression`. -/
def assignmentExpression (s : Input) : Option (Expr × Input) := do
  let (left, s) ← conditionalExpression ctx self s
  assignmentRest self left s

def commaExpression : Parser := lrBinop self .comma (assignmentExpression ctx self)

/-- `parse_expression`. -/
def parseExpression : Parser := commaExpression ctx self

/-! ## The recursion -/

/-- The argument `inner` of the macro. -/
def Level.inner : Level → Parser
  | multiplicative => castExpression ctx self
  | additive => multiplicativeExpression ctx self
  | shift => additiveExpression ctx self
  | relational => shiftExpression ctx self
  | equality => relationalExpression ctx self
  | bitwiseAnd => equalityExpression ctx self
  | bitwiseXor => bitwiseAndExpression ctx self
  | bitwiseOr => bitwiseXorExpression ctx self
  | logicalAnd => bitwiseOrExpression ctx self
  | logicalOr => logicalAndExpression ctx self
  | comma => assignmentExpression ctx self

/-- One round of the loop of `LR_BINOP_EXPRESSION`. -/
def binopStep (level : Level) (left : Expr) (s : Input) : Option (Expr × Input) :=
  match s.special with
  | none => some (left, s)
  | some o =>
    if o ∈ level.operators then do
      let (right, s) ← level.inner ctx self s.next
      if right.isNull then
        some (left, s.sparseError s!"No right hand side of '{text (showSpecial o)}'-expression")
      else self.binopLoop level (.binary level.type o left right) s
    else some (left, s)

/-- The functions with that many calls and rounds left. -/
def parsers : ℕ → Parsers
  | 0 =>
    { parse := fun _ => none
      assignment := fun _ => none
      conditional := fun _ => none
      cast := fun _ => none
      unary := fun _ => none
      binopLoop := fun _ _ _ => none
      postLoop := fun _ _ => none
      argumentLoop := fun _ => none }
  | n + 1 =>
    { parse := parseExpression ctx (parsers n)
      assignment := assignmentExpression ctx (parsers n)
      conditional := conditionalExpression ctx (parsers n)
      cast := castExpression ctx (parsers n)
      unary := unaryExpression ctx (parsers n)
      binopLoop := binopStep ctx (parsers n)
      postLoop := postStep (parsers n)
      argumentLoop := argumentStep (parsers n) }

end Sparse.ExpressionParser
