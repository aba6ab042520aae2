import Sparse.LongestMatch
import Sparse.Tokenizer

/-!
# Preprocessing tokens

The lexemes of a character stream: white space, comments and the preprocessing tokens, as
a grammar for longest matches, and the tokens that a stream of lexemes stands for.
-/

namespace Sparse.Tokenizer

open LongestMatch

/-- A preprocessing number. -/
inductive IsNumber : List UInt8 → Prop
  | digit {c : UInt8} (hc : isDigit c) : IsNumber [c]
  | dotDigit {c : UInt8} (hc : isDigit c) : IsNumber [ch '.', c]
  | more {w : List UInt8} {c : UInt8} (hw : IsNumber w) (hc : isDot c || isDigit c || isLetter c) :
      IsNumber (w ++ [c])
  | sign {w : List UInt8} {e c : UInt8} (hw : IsNumber w) (he : isExp e) (hc : c = ch '-' ∨ c = ch '+') :
      IsNumber (w ++ [e, c])

/-- The characters between the delimiters of a literal; no delimiter and no newline stands there alone. -/
inductive IsBody (delim : UInt8) : List UInt8 → Prop
  | nil : IsBody delim []
  | plain {c : UInt8} {body : List UInt8} (hdelim : c ≠ delim) (hback : c ≠ backslash) (hnewline : c ≠ newline)
      (hbody : IsBody delim body) : IsBody delim (c :: body)
  | escape {c : UInt8} {body : List UInt8} (hnewline : c ≠ newline) (hbody : IsBody delim body) :
      IsBody delim (backslash :: c :: body)

/-- White space, comments and tokens. A line comment takes the newline that ends it along,
and a combination is given by its place among the strings of the source. -/
inductive Lexeme
  | space (c : UInt8)
  | lineComment (body : List UInt8) (ended : Bool)
  | blockComment (body : List UInt8)
  | ident (name : List UInt8)
  | number (text : List UInt8)
  | literal (wide isString : Bool) (body : List UInt8)
  | combination (i : ℕ)
  | single (c : UInt8)
  deriving DecidableEq, Repr

/-- The combinations before the empty string. -/
def combinationCount : ℕ := 24

def delimiter (isString : Bool) : UInt8 := if isString then quote else apostrophe

namespace Lexeme

def text : Lexeme → List UInt8
  | space c => [c]
  | lineComment body ended => slash :: slash :: (body ++ if ended then [newline] else [])
  | blockComment body => slash :: star :: (body ++ [star, slash])
  | ident name => name
  | number text => text
  | literal wide isString body =>
    (if wide then [ch 'L'] else []) ++ delimiter isString :: (body ++ [delimiter isString])
  | combination i => combinations.getD i []
  | single c => [c]

/-- What the lexeme is made of. -/
def Valid : Lexeme → Prop
  | space c => isSpace c
  | lineComment body _ => newline ∉ body
  | blockComment body => ¬[star, slash] <:+: body ++ [star]
  | ident name => ∃ c cs, name = c :: cs ∧ isLetter c ∧ ∀ d ∈ cs, isLetter d || isDigit d
  | number text => IsNumber text
  | literal _ isString body => IsBody (delimiter isString) body
  | combination i => i < combinationCount
  | single c => isSpace c = false ∧ isLetter c = false ∧ isDigit c = false

end Lexeme

theorem IsNumber.ne_nil {w : List UInt8} (h : IsNumber w) : w ≠ [] := by
  cases h with
  | digit hc => exact List.cons_ne_nil _ _
  | dotDigit hc => exact List.cons_ne_nil _ _
  | more hw hc => simp
  | sign hw he hc => simp

theorem combination_ne_nil {i : ℕ} (h : i < combinationCount) : combinations.getD i [] ≠ [] := by
  revert i
  decide

/-- The characters of a combination are punctuation. -/
theorem combination_class {c : UInt8} {i : ℕ} (hc : c ∈ combinations.getD i []) :
    (isSpace c = false ∧ isQuote c = false) ∧ (isLetter c = false ∧ isDigit c = false) ∧ c ≠ 0 ∧ c ≠ backslash := by
  have hall : (combinations.all fun text => text.all fun c =>
      !(isSpace c || isQuote c || isLetter c || isDigit c || c = 0 || c = backslash)) = true := by
    decide
  rw [List.getD_eq_getElem?_getD] at hc
  cases htext : combinations[i]? with
  | none =>
    rw [htext] at hc
    cases hc
  | some text =>
    rw [htext] at hc
    have hclass := List.all_eq_true.1 (List.all_eq_true.1 hall text (List.mem_of_getElem? htext)) c hc
    simpa [and_assoc] using hclass

/-- The lexemes as a grammar. -/
def tokenGrammar : Grammar UInt8 Lexeme where
  text := Lexeme.text
  Valid := Lexeme.Valid
  ne_nil x hx := by
    cases x with
    | space c => exact List.cons_ne_nil _ _
    | lineComment body ended => exact List.cons_ne_nil _ _
    | blockComment body => exact List.cons_ne_nil _ _
    | ident name =>
      obtain ⟨c, cs, hname, -⟩ := hx
      rw [Lexeme.text, hname]
      exact List.cons_ne_nil _ _
    | number text => exact IsNumber.ne_nil hx
    | literal wide isString body => simp [Lexeme.text]
    | combination i => exact combination_ne_nil hx
    | single c => exact List.cons_ne_nil _ _
  starts l hl := by
    cases l with
    | nil => exact absurd rfl hl
    | cons c l =>
      have hpre : [c] <+: c :: l := ⟨l, rfl⟩
      by_cases hspace : isSpace c
      · exact ⟨.space c, hspace, hpre⟩
      · by_cases hletter : isLetter c
        · exact ⟨.ident [c], ⟨c, [], rfl, hletter, by simp⟩, hpre⟩
        · by_cases hdigit : isDigit c
          · exact ⟨.number [c], .digit hdigit, hpre⟩
          · exact ⟨.single c, ⟨by simpa using hspace, by simpa using hletter, by simpa using hdigit⟩, hpre⟩

/-- The sequence of longest matches of a text. -/
abbrev Lexes : List UInt8 → List Lexeme → Prop := tokenGrammar.Splits

/-- No comment and no literal of the sequence is left open: no delimiter stands alone, and
no slash in front of a star. -/
def Terminated : List Lexeme → Prop
  | [] => True
  | .single c :: xs =>
    isQuote c = false ∧ ¬(c = slash ∧ (xs.flatMap Lexeme.text).head? = some star) ∧ Terminated xs
  | _ :: xs => Terminated xs

/-! ## The tokens of a sequence -/

/-- The text of a number token; a number that fills the buffer is taken for `1`. -/
def numberToken (text : List UInt8) : List UInt8 :=
  if text.length < numberBuffer then text else [ch '1']

/-- The value of a token; none for white space, comments and the empty character constant.
Of a literal the first `MAX_STRING` characters are kept. -/
def Lexeme.value : Lexeme → Option Value
  | space _ => none
  | lineComment _ _ => none
  | blockComment _ => none
  | ident name => some (.ident name)
  | number text => some (.number (numberToken text))
  | literal wide isString body => stringToken wide isString body.length (body.take maxString)
  | combination i => some (.special (specialBase + i))
  | single c => some (.special c.toNat)

/-- The lexeme is white space or a comment. -/
def Lexeme.isGap : Lexeme → Bool
  | space _ => true
  | lineComment _ _ => true
  | blockComment _ => true
  | _ => false

/-- What stands between a token and the one before: the end of a logical line, white space
and comments. The newline that ends a line comment belongs to the comment. -/
structure Gap where
  newline : Bool
  spaced : Bool
  commented : Bool
  deriving DecidableEq, Repr

namespace Gap

/-- In front of the first token of a stream. -/
def start : Gap where
  newline := true
  spaced := false
  commented := false

/-- Nothing between two tokens. -/
def empty : Gap where
  newline := false
  spaced := false
  commented := false

/-- The gap goes on with white space or a comment; a comment that spans lines ends none. -/
def push (g : Gap) : Lexeme → Gap
  | .space c => { g with newline := g.newline || c = Tokenizer.newline, spaced := true }
  | .lineComment _ ended => { g with newline := g.newline || ended, commented := true }
  | .blockComment _ => { g with commented := true }
  | _ => g

end Gap

/-- The values of the tokens, each with the gap in front of it. -/
def expected (value : Lexeme → Option Value) : Gap → List Lexeme → List (Value × Gap)
  | g, [] => [(.streamEnd, { g with newline := true })]
  | g, x :: xs =>
    if x.isGap then expected value (g.push x) xs
    else ((value x).map fun v => (v, g)).toList ++ expected value .empty xs

end Sparse.Tokenizer
