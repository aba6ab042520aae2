import Sparse.LosslessTokens

/-!
# Tokens of macro bodies and arguments

The tokens that the preprocessor puts together: copies, string tokens made of an argument
for `#`, and the token that `##` makes of two.
-/

namespace Sparse.MacroExpansion

open Tokenizer (Value ch cString showToken maxString specialBase combinations combinationCount isDigit)

/-! ## Tokens -/

/-- Names are equal when their bytes are. -/
instance lawfulBEq_name : LawfulBEq (List UInt8) := inferInstance

inductive Kind
  | value (v : Value)
  | streamBegin
  | untaint (name : List UInt8)
  deriving DecidableEq, Repr

/-- The fields `stream`, `line` and `pos` of a position. -/
structure Place where
  stream : ℕ
  line : ℕ
  pos : ℕ
  deriving DecidableEq, Repr

/-- A token of a list; `id` is its address. -/
structure Tok where
  id : ℕ
  kind : Kind
  place : Place
  newline : Bool
  whitespace : Bool
  noexpand : Bool
  deriving DecidableEq, Repr

def Tok.name (t : Tok) : Option (List UInt8) :=
  match t.kind with
  | .value (.ident name) => some name
  | _ => none

/-- `match_op` for the special token of one character. -/
def Tok.matchOp (t : Tok) (c : Char) : Bool := t.kind = .value (.special c.toNat)

/-! ## Stringification -/

/-- `quote_char`. -/
def quoteChar (data : List UInt8) (wide isString : Bool) : List UInt8 :=
  let delim := if isString then [Tokenizer.backslash, Tokenizer.quote] else [Tokenizer.apostrophe]
  cString ((if wide then [ch 'L'] else []) ++ delim ++
    (data.flatMap fun c => if c = Tokenizer.quote || c = Tokenizer.backslash then [Tokenizer.backslash, c] else [c]) ++
    delim)

def bytes (s : String) : List UInt8 := s.toList.map ch

/-- `quote_token`. -/
def quoteToken : Kind → List UInt8
  | .value (.embedded wide data) => quoteChar data wide false
  | .value (.char wide data) => quoteChar data wide false
  | .value (.string wide data) => quoteChar data wide true
  | .value .streamEnd => bytes "unhandled token type '19' "
  | .value v => showToken v
  | .streamBegin => bytes "unhandled token type '18' "
  | .untaint _ => bytes "unhandled token type '25' "

/-- The loop of `show_token_sequence` with `quote`, and whether the buffer was too small. -/
def quoteLoop : List Tok → Bool → List UInt8 → List UInt8 × Bool
  | [], _, buffer => (buffer, false)
  | t :: ts, whitespace, buffer =>
    let val := quoteToken t.kind
    if maxString ≤ buffer.length + whitespace.toNat + val.length then (buffer, true)
    else quoteLoop ts (ts.head?.any Tok.whitespace) (buffer ++ (if whitespace then [ch ' '] else []) ++ val)

/-! ## Concatenation -/

/-- The types that `combine` takes: identifiers, numbers and punctuators. -/
def isCombinable : Value → Bool
  | .ident _ => true
  | .number _ => true
  | .special _ => true
  | _ => false

/-- `combine` and `merge` without an `L` in front: the value that the left token gets, or
none for the error. -/
def mergeText (left right : Value) : Option Value :=
  let p := showToken left ++ showToken right
  if !isCombinable left || !isCombinable right || 256 ≤ p.length then none
  else
    match left, right with
    | .ident _, .special _ => none
    | .ident _, .number _ =>
      if p.any fun c => c = ch '+' || c = ch '-' || c = ch '.' then none else some (.ident p)
    | .ident _, _ => some (.ident p)
    | .number text, .special o =>
      if o = '.'.toNat then some (.number p)
      else if (o = '+'.toNat || o = '-'.toNat) && text.getLast?.any Tokenizer.isExp then some (.number p)
      else none
    | .number _, _ => some (.number p)
    | _, _ =>
      if p.head? = some (ch '.') && p.tail.head?.any isDigit then some (.number p)
      else
        ((List.range combinationCount).find? fun n => combinations.getD n [] = p).map fun n =>
          .special (specialBase + n)

/-- The value that `merge` gives to the left token. -/
def mergeValue : Value → Value → Option Value
  | .ident [76], .embedded false data => some (.embedded true data)
  | .ident [76], .char false data => some (.char true data)
  | .ident [76], .string false data => some (.string true data)
  | left, right => mergeText left right

/-- `merge` clears the flag of identifiers and wide constants. -/
def clearsNoexpand : Value → Bool
  | .ident _ => true
  | .embedded _ _ => true
  | .char _ _ => true
  | .string _ _ => true
  | _ => false

/-- `merge`: the left token with its new value. -/
def merge (left right : Tok) : Option Tok :=
  match left.kind, right.kind with
  | .value l, .value r =>
    (mergeValue l r).map fun v =>
      { left with kind := .value v, noexpand := if clearsNoexpand v then false else left.noexpand }
  | _, _ => none

/-! ## Macros -/

inductive BodyKind
  | plain (kind : Kind)
  | macroArgument (argnum : ℕ)
  | strArgument (argnum : ℕ)
  | quotedArgument (argnum : ℕ)
  | concat
  | gnuKludge
  deriving DecidableEq, Repr

/-- A token of a macro body. -/
structure BodyTok where
  kind : BodyKind
  newline : Bool
  whitespace : Bool
  noexpand : Bool
  deriving DecidableEq, Repr

/-- The fields of `argcount` for a parameter. -/
structure Param where
  normal : ℕ
  quoted : ℕ
  str : ℕ
  vararg : Bool
  deriving DecidableEq, Repr

/-- The number of the parameter in the argument types. -/
def BodyKind.argnum : BodyKind → ℕ
  | macroArgument argnum => argnum
  | strArgument argnum => argnum
  | quotedArgument argnum => argnum
  | _ => 0

/-- What `handle_hashhash` leaves on the two sides of `##`. -/
def BodyKind.isOperand : BodyKind → Bool
  | concat => false
  | macroArgument _ => false
  | plain (.untaint _) => false
  | _ => true

/-- Only parameters stand behind the comma of the GNU kludge, up to the end of the chain. -/
def kludgeChain : List BodyKind → Bool
  | .quotedArgument _ :: .concat :: rest => kludgeChain rest
  | .quotedArgument _ :: _ => true
  | _ => false

def BodyKind.isUntaint : BodyKind → Bool
  | plain (.untaint _) => true
  | _ => false

/-- The bodies that `parse_expansion` makes: `##` between its operands, and the token that
lifts the taint at the end and nowhere else. -/
def parsedBody : List BodyKind → Bool
  | [] => false
  | [k] => k.isUntaint
  | .concat :: _ => false
  | k :: .concat :: rest =>
    k.isOperand && rest.head?.any BodyKind.isOperand && (k ≠ .gnuKludge || kludgeChain rest) && parsedBody rest
  | k :: k' :: rest => k ≠ .gnuKludge && !k.isUntaint && parsedBody (k' :: rest)

/-- `try_arg` counts what it makes of a parameter. -/
def BodyKind.counted (params : List Param) : BodyKind → Bool
  | macroArgument argnum => params[argnum]?.any fun p => p.normal ≠ 0
  | strArgument argnum => params[argnum]?.any fun p => p.str ≠ 0
  | quotedArgument argnum => params[argnum]?.any fun p => p.quoted ≠ 0
  | _ => true

/-- A macro; an object-like one has no parameter list. -/
structure Macro where
  arglist : Option (List Param)
  expansion : List BodyTok
  parsed : parsedBody (expansion.map BodyTok.kind) = true
  counted : (expansion.all fun b => b.kind.counted (arglist.getD [])) = true
  deriving DecidableEq, Repr

/-- `struct arg`; no tokens in `arg` is the null pointer. -/
structure Arg where
  arg : Option (List Tok)
  expanded : List Tok
  str : List Tok
  nNormal : ℕ
  nQuoted : ℕ
  nStr : ℕ
  deriving DecidableEq, Repr

/-- The argument before it is expanded. -/
def Param.toArg (p : Param) (arg : Option (List Tok)) : Arg where
  arg := arg
  expanded := []
  str := []
  nNormal := p.normal
  nQuoted := p.quoted
  nStr := p.str

end Sparse.MacroExpansion
