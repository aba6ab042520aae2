import Mathlib.Algebra.Group.Nat.Defs
import Mathlib.Data.List.Basic

/-!
# The tokenizer

`tokenize_stream` and the scanners under it, over the characters that `nextchar`
delivers. Every scanner returns one character of look-ahead, and comments are found
inside the scanner of punctuators.
-/

namespace Sparse.Tokenizer

/-! ## Characters -/

def ch (c : Char) : UInt8 := c.toUInt8

def newline : UInt8 := 10
def quote : UInt8 := 34
def apostrophe : UInt8 := 39
def star : UInt8 := 42
def slash : UInt8 := 47
def backslash : UInt8 := 92

/-- `isspace` in the C locale. -/
def isSpace (c : UInt8) : Bool := (9 ≤ c && c ≤ 13) || c = 32

/-- What holds of all bytes can be tried. -/
theorem forall_byte {P : UInt8 → Prop} (h : ∀ n < 256, P (UInt8.ofNat n)) (c : UInt8) : P c := by
  have hc := h c.toNat c.toNat_lt
  rwa [UInt8.ofNat_toNat] at hc

/-! The columns of the table `cclass`. -/

def isDigit (c : UInt8) : Bool := ch '0' ≤ c && c ≤ ch '9'

def isLetter (c : UInt8) : Bool :=
  (ch 'a' ≤ c && c ≤ ch 'z') || (ch 'A' ≤ c && c ≤ ch 'Z') || c = ch '_'

def isHex (c : UInt8) : Bool :=
  isDigit c || (ch 'a' ≤ c && c ≤ ch 'f') || (ch 'A' ≤ c && c ≤ ch 'F')

def isExp (c : UInt8) : Bool := c = ch 'e' || c = ch 'E' || c = ch 'p' || c = ch 'P'

def isDot (c : UInt8) : Bool := c = ch '.'

def isQuote (c : UInt8) : Bool := c = quote || c = apostrophe

def isValidSecond (c : UInt8) : Bool :=
  c ∈ [ch '.', ch '=', ch '+', ch '-', ch '>', ch '<', ch '&', ch '|', ch '#']

def isEscape (c : UInt8) : Bool :=
  (ch '0' ≤ c && c ≤ ch '7') || isQuote c || c = backslash || c = ch '?' ||
    c ∈ [ch 'a', ch 'b', ch 'e', ch 'f', ch 'n', ch 'r', ch 't', ch 'v', ch 'x']

/-! ## Streams and tokens -/

/-- `MAX_STRING`. -/
def maxString : ℕ := 8191

/-- The token types that the tokenizer makes, with what the token holds. A token of the
types `TOKEN_CHAR_EMBEDDED_0` to `3`, wide or not, is an `embedded`. -/
inductive Value
  | ident (name : List UInt8)
  | number (text : List UInt8)
  | special (value : ℕ)
  | embedded (wide : Bool) (data : List UInt8)
  | char (wide : Bool) (data : List UInt8)
  | string (wide : Bool) (data : List UInt8)
  | streamEnd
  deriving DecidableEq, Repr

/-- The flags in `token->pos`. -/
structure Position where
  newline : Bool
  whitespace : Bool
  deriving DecidableEq, Repr

/-- A finished token; `space` is empty where the pointer is null. -/
structure Token where
  value : Value
  pos : Position
  space : List UInt8
  deriving DecidableEq, Repr

/-- `stream_t`. The first character of `text` is the one that the last `nextchar` has
returned, and at the end of the stream, where it returned `EOF`, there is none. -/
structure Stream where
  text : List UInt8
  newline : Bool
  whitespace : Bool
  space : List UInt8
  tokens : List Token
  warnings : List String
  deriving DecidableEq, Repr

def Stream.warn (s : Stream) (text : String) : Stream :=
  { s with warnings := s.warnings ++ [text] }

/-- `nextchar`, which notes the newlines that it delivers. -/
def nextchar (s : Stream) : Stream :=
  { s with
    text := s.text.tail
    newline := s.newline || s.text.tail.head? = some Tokenizer.newline }

/-- `token_push_space`; `EOF` is pushed as a byte too. -/
def tokenPushSpace (s : Stream) (c : Option UInt8) : Stream :=
  { s with space := s.space ++ [c.getD 255] }

/-- `add_token` for the token in progress. -/
def addToken (s : Stream) (pos : Position) (value : Value) : Stream :=
  { s with tokens := s.tokens ++ [{ value := value, pos := pos, space := s.space }], space := [] }

/-- `drop_token`. -/
def dropToken (s : Stream) (pos : Position) : Stream :=
  { s with newline := s.newline || pos.newline, whitespace := s.whitespace || pos.whitespace }

/-- `mark_eof`. -/
def markEof (s : Stream) : Stream :=
  { s with
    tokens := s.tokens ++
      [{ value := .streamEnd, pos := { newline := true, whitespace := s.whitespace }, space := [] }] }

/-! ## The scanners -/

/-- The size of the buffer of `get_one_number`. -/
def numberBuffer : ℕ := 4095

def pushNumber (p : List UInt8) (c : UInt8) : List UInt8 :=
  if p.length ≠ numberBuffer then p ++ [c] else p

/-- The loop of `get_one_number`, which goes along with the text of the stream. -/
def numberLoop : List UInt8 → Stream → List UInt8 → Stream × List UInt8
  | [], s, p => (s, p)
  | next :: text, s, p =>
    if isDot next || isDigit next || isLetter next then
      let p := pushNumber p next
      let s := nextchar s
      if isExp next then
        match text with
        | [] => (s, p)
        | sign :: text =>
          if sign = ch '-' || sign = ch '+' then numberLoop text (nextchar s) (pushNumber p sign)
          else numberLoop (sign :: text) s p
      else numberLoop text s p
    else (s, p)

/-- `get_one_number`, after the `nextchar` of its caller. -/
def getOneNumber (c : UInt8) (pos : Position) (s : Stream) : Stream :=
  let (s, p) := numberLoop s.text s [c]
  if p.length = numberBuffer then
    addToken (s.warn s!"number token exceeds {numberBuffer} characters") pos (.number [ch '1'])
  else addToken s pos (.number p)

/-- The variables of `eat_string`; the buffer keeps `MAX_STRING` characters. -/
structure Eating where
  buffer : List UInt8
  len : ℕ
  escape : Bool
  wantHex : Bool
  deriving DecidableEq, Repr

def Eating.push (t : Eating) (next : UInt8) : Eating :=
  { t with
    buffer := if t.len < maxString then t.buffer ++ [next] else t.buffer
    len := t.len + 1 }

/-- The rest of the loop body, after the newline and the end of the file. -/
def eatOne (next : UInt8) (s : Stream) (t : Eating) : Stream × Eating :=
  if t.escape then
    (if isEscape next then s else s.warn ("Unknown escape '" ++ String.singleton (Char.ofNat next.toNat) ++ "'"),
      { t with escape := false, wantHex := next = ch 'x' })
  else
    (if t.wantHex && !isHex next then s.warn "\\x used with no following hex digits" else s,
      { t with escape := next = backslash, wantHex := false })

/-- The loop of `eat_string`; none at the end of the file. -/
def eatLoop (delim : UInt8) : List UInt8 → Stream → Eating → Stream × Option Eating
  | [], s, _ => (s.warn "End of file in middle of string", none)
  | next :: text, s, t =>
    if !t.escape && next = delim then (s, some t)
    else
      let t := t.push next
      let s := if next = newline then s.warn "Newline in string or character constant" else s
      if next = newline && delim = apostrophe then (s, some t)
      else
        let (s, t) := eatOne next s t
        eatLoop delim text (nextchar s) t

/-- The token that `eat_string` makes of the buffer; the empty character constant gives none. -/
def stringToken (wide isString : Bool) (len : ℕ) (buffer : List UInt8) : Option Value :=
  if isString then some (.string wide buffer)
  else if len = 0 then none
  else if len ≤ 4 then some (.embedded wide buffer)
  else some (.char wide buffer)

/-- `eat_string`, after the `nextchar` of its caller. -/
def eatString (wide isString : Bool) (pos : Position) (s : Stream) : Stream :=
  match eatLoop (if isString then quote else apostrophe) s.text s
      { buffer := [], len := 0, escape := false, wantHex := false } with
  | (s, none) => s
  | (s, some t) =>
    let s := if t.wantHex then s.warn "\\x used with no following hex digits" else s
    let s :=
      if maxString < t.len then s.warn s!"string too long ({t.len} bytes, {maxString} bytes max)" else s
    match stringToken wide isString t.len t.buffer with
    | none => nextchar (s.warn "empty character constant")
    | some value => nextchar (addToken s pos value)

/-- The loop of `drop_stream_eoln`, along what is behind the look-ahead. -/
def eolnLoop : List UInt8 → Stream → Stream
  | [], s => nextchar s
  | c :: text, s =>
    let s := tokenPushSpace (nextchar s) (some c)
    if c = newline then nextchar s else eolnLoop text s

def dropStreamEoln (pos : Position) (s : Stream) : Stream :=
  eolnLoop s.text.tail (dropToken s pos)

/-- The loop of `drop_stream_comment`; false where the comment is not closed. -/
def commentLoop : List UInt8 → Stream → Stream × Bool
  | [], s => (s.warn "End of file in the middle of a comment", false)
  | curr :: text, s =>
    let s := tokenPushSpace (nextchar s) text.head?
    if curr = star && text.head? = some slash then (s, true) else commentLoop text s

def dropStreamComment (pos : Position) (s : Stream) : Stream :=
  let s := dropToken s pos
  let newline := s.newline
  let s := nextchar s
  let s := tokenPushSpace s s.text.head?
  match commentLoop s.text s with
  | (s, true) => nextchar { s with newline := newline }
  | (s, false) => s

/-! ## Punctuators -/

/-- `SPECIAL_BASE`, the value of the first combination. -/
def specialBase : ℕ := 256

/-- `COMBINATION_STRINGS`. -/
def combinations : List (List UInt8) :=
  [[ch '+', ch '='], [ch '+', ch '+'], [ch '-', ch '='], [ch '-', ch '-'], [ch '-', ch '>'], [ch '*', ch '='],
    [ch '/', ch '='], [ch '%', ch '='], [ch '<', ch '='], [ch '>', ch '='], [ch '=', ch '='], [ch '!', ch '='],
    [ch '&', ch '&'], [ch '&', ch '='], [ch '|', ch '|'], [ch '|', ch '='], [ch '^', ch '='], [ch '#', ch '#'],
    [ch '<', ch '<'], [ch '>', ch '>'], [ch '.', ch '.'], [ch '<', ch '<', ch '='], [ch '>', ch '>', ch '='],
    [ch '.', ch '.', ch '.'], [], [ch '<'], [ch '>'], [ch '<', ch '='], [ch '>', ch '=']]

def specialLeftshift : ℕ := 274

/-- The macro `special_hash`. -/
def specialHash (c₀ c₁ : UInt8) : ℕ :=
  let h := c₀.toNat * 8 + c₁.toNat * 2
  (h + h / 32) % 32

/-- The lines `RES` and `CODE` of the two tables: the characters and the value. -/
def specialCodes : List (UInt8 × UInt8 × ℕ) :=
  [(ch '+', ch '=', 256), (ch '/', ch '=', 262), (ch '^', ch '=', 272), (ch '&', ch '&', 268),
    (ch '#', ch '#', 273), (ch '<', ch '<', 274), (ch '<', ch '=', 264), (ch '!', ch '=', 267),
    (ch '%', ch '=', 263), (ch '-', ch '-', 259), (ch '-', ch '=', 258), (ch '-', ch '>', 260),
    (ch '=', ch '=', 266), (ch '&', ch '=', 269), (ch '*', ch '=', 261), (ch '.', ch '.', 276),
    (ch '+', ch '+', 257), (ch '|', ch '=', 271), (ch '>', ch '=', 265), (ch '|', ch '|', 270),
    (ch '>', ch '>', 275)]

/-- The entries of `hash_results` and `code`; where lines share an entry the last one counts. -/
def hashEntry (i : ℕ) : UInt8 × UInt8 × ℕ :=
  (specialCodes.reverse.find? fun line => specialHash line.1 line.2.1 = i).getD (0, 0, 0)

/-- The third character that goes on with the combination, by the string of the source. -/
def thirdCharacter (value : ℕ) : UInt8 :=
  [ch '=', ch '=', ch '.'].getD (value - specialLeftshift) 0

/-- The part of `get_one_special` for punctuators, with the look-ahead read. -/
def getCombination (c : UInt8) (pos : Position) (s : Stream) : Stream :=
  match s.text with
  | [] => addToken s pos (.special c.toNat)
  | next :: _ =>
    let (c₀, c₁, value) := hashEntry (specialHash c next)
    if isValidSecond next && c₀ = c && c₁ = next then
      let s := nextchar s
      if specialLeftshift ≤ value && s.text.head? = some (thirdCharacter value) then
        addToken (nextchar s) pos (.special (value + 3))
      else addToken s pos (.special value)
    else addToken s pos (.special c.toNat)

def getOneSpecial (c : UInt8) (pos : Position) (s : Stream) : Stream :=
  let s := nextchar s
  let next := s.text.head?
  if c = ch '.' && next.any isDigit then getOneNumber c pos s
  else if c = quote then eatString false true pos s
  else if c = apostrophe then eatString false false pos s
  else if c = slash then
    let s := tokenPushSpace s (some c)
    if next = some slash then dropStreamEoln pos (tokenPushSpace s next)
    else if next = some star then dropStreamComment pos (tokenPushSpace s next)
    else getCombination c pos s
  else getCombination c pos s

/-- `sizeof(buf)` in `get_one_identifier`. -/
def identBuffer : ℕ := 256

/-- The loop of `get_one_identifier`, along what is behind the look-ahead. -/
def identLoop : List UInt8 → Stream → List UInt8 → Stream × List UInt8
  | [], s, buf => (nextchar s, buf)
  | next :: text, s, buf =>
    let s := nextchar s
    if !(isLetter next || isDigit next) then (s, buf)
    else if identBuffer ≤ buf.length then (s, buf)
    else identLoop text s (buf ++ [next])

def getOneIdentifier (c : UInt8) (pos : Position) (s : Stream) : Stream :=
  let (s, buf) := identLoop s.text.tail s [c]
  if s.text.head?.any isQuote && buf = [ch 'L'] then
    eatString true (s.text.head? ≠ some apostrophe) pos (nextchar s)
  else addToken s pos (.ident buf)

def getOneToken (c : UInt8) (pos : Position) (s : Stream) : Stream :=
  if isDigit c then getOneNumber c pos (nextchar s)
  else if isLetter c then getOneIdentifier c pos s
  else getOneSpecial c pos s

/-- The loop of `tokenize_stream`. -/
def tokenizeLoop (ppnoopt : Bool) : ℕ → Stream → Option Stream
  | 0, _ => none
  | fuel + 1, s =>
    match s.text with
    | [] => some s
    | c :: _ =>
      if isSpace c then
        let s := if ppnoopt then tokenPushSpace s (some c) else s
        tokenizeLoop ppnoopt fuel (nextchar { s with whitespace := true })
      else
        let pos := { newline := s.newline, whitespace := s.whitespace }
        tokenizeLoop ppnoopt fuel (getOneToken c pos { s with newline := false, whitespace := false })

/-- `tokenize_stream`. -/
def tokenizeStream (ppnoopt : Bool) (fuel : ℕ) (s : Stream) : Option Stream :=
  (tokenizeLoop ppnoopt fuel s).map markEof

/-- The stream of `setup_stream`, when its first character has been delivered. -/
def setupStream (text : List UInt8) : Stream where
  text := text
  newline := true
  whitespace := false
  space := []
  tokens := []
  warnings := []

/-- Each combination is found by its hash, so no two of the lines share an entry. -/
theorem hashEntry_of_mem {line : UInt8 × UInt8 × ℕ} (h : line ∈ specialCodes) :
    hashEntry (specialHash line.1 line.2.1) = line := by
  revert line
  decide

end Sparse.Tokenizer
