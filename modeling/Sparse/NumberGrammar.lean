import Sparse.ConstantExpressions
import Sparse.EscapeSequences

/-!
# Integer and floating constants of C

The constants as C99 spells them, with binary digits behind `0b` beside the other bases, and
the types that an integer constant can have.
-/

namespace Sparse.NumberLiterals

open Tokenizer (ch isDot digitsValue hexval)

/-! ## Characters -/

/-- The letter in lower or upper case. -/
def isCase (letter : Char) (c : UInt8) : Bool := c = ch letter || c = ch letter.toUpper

@[elab_as_elim]
theorem cases_of_isCase {letter : Char} {c : UInt8} {P : UInt8 → Prop} (hc : isCase letter c = true)
    (hlower : P (ch letter)) (hupper : P (ch letter.toUpper)) : P c := by
  simp only [isCase, Bool.or_eq_true, decide_eq_true_eq] at hc
  rcases hc with rfl | rfl
  · exact hlower
  · exact hupper

def isSign (c : UInt8) : Bool := c = ch '+' || c = ch '-'

def isDigitOf (base : ℕ) (c : UInt8) : Bool := hexval c < base

theorem not_isCase_of_digit {letter : Char} {base : ℕ} {c : UInt8} (hc : isDigitOf base c = true)
    (hlower : isDigitOf base (ch letter) = false) (hupper : isDigitOf base (ch letter.toUpper) = false) :
    isCase letter c = false := by
  refine Bool.eq_false_iff.mpr fun hcase => ?_
  have hno : isDigitOf base c = false := cases_of_isCase hcase hlower hupper
  rw [hno] at hc
  cases hc

/-- One digit or more. -/
def IsDigits (base : ℕ) (digits : List UInt8) : Prop := digits ≠ [] ∧ ∀ d ∈ digits, isDigitOf base d = true

/-! ## Integer constants -/

/-- `l` or `ll`, with two letters of one case. -/
inductive LongSuffix : List UInt8 → ℕ → Prop
  | none : LongSuffix [] 0
  | long {c} (hc : isCase 'l' c = true) : LongSuffix [c] 1
  | longLong {c} (hc : isCase 'l' c = true) : LongSuffix [c, c] 2

/-- The suffix of an integer, whether it holds a `u` and how many times an `l`. -/
inductive IntegerSuffix : List UInt8 → Bool → ℕ → Prop
  | signed {s size} (h : LongSuffix s size) : IntegerSuffix s false size
  | before {c s size} (hc : isCase 'u' c = true) (h : LongSuffix s size) : IntegerSuffix (c :: s) true size
  | behind {c s size} (hc : isCase 'u' c = true) (h : LongSuffix s size) : IntegerSuffix (s ++ [c]) true size

/-- The digits of an integer in a base with its prefix, and the value. -/
inductive IntegerDigits : ℕ → List UInt8 → ℕ → Prop
  | decimal {d ds} (hd : d ≠ ch '0') (h : IsDigits 10 (d :: ds)) :
      IntegerDigits 10 (d :: ds) (digitsValue 10 (d :: ds))
  | octal {ds} (h : ∀ d ∈ ds, isDigitOf 8 d = true) : IntegerDigits 8 (ch '0' :: ds) (digitsValue 8 ds)
  | hex {x ds} (hx : isCase 'x' x = true) (h : IsDigits 16 ds) :
      IntegerDigits 16 (ch '0' :: x :: ds) (digitsValue 16 ds)
  | binary {b ds} (hb : isCase 'b' b = true) (h : IsDigits 2 ds) :
      IntegerDigits 2 (ch '0' :: b :: ds) (digitsValue 2 ds)

/-- An integer constant. -/
inductive IntegerConstant (base : ℕ) (unsigned : Bool) (size value : ℕ) : List UInt8 → Prop
  | mk {digits suffix} (hdigits : IntegerDigits base digits value) (hsuffix : IntegerSuffix suffix unsigned size) :
      IntegerConstant base unsigned size value (digits ++ suffix)

def IsInteger (text : List UInt8) : Prop := ∃ base unsigned size value, IntegerConstant base unsigned size value text

/-- The types that C99 lists for the base and the suffix, smaller ones first. -/
def candidates (base : ℕ) (unsigned : Bool) (size : ℕ) : List Ctype :=
  ([IntRank.int, .long, .longLong].drop size).flatMap fun rank =>
    if unsigned then [.integer rank .unsigned]
    else if base = 10 then [.integer rank .signed]
    else [.integer rank .signed, .integer rank .unsigned]

/-- The value is one of the type. -/
def represents (t : Target) (value : ℕ) (c : Ctype) : Bool :=
  value < 2 ^ (if c.isUnsigned then c.bitSize t else c.bitSize t - 1)

/-- The first type that represents the value, of those that C99 lists and of more types behind them. -/
def firstType (t : Target) (more : List Ctype) (base : ℕ) (unsigned : Bool) (size value : ℕ) : Option Ctype :=
  (candidates base unsigned size ++ more).find? (represents t value)

/-! ## Floating constants -/

/-- Digits with a point. -/
inductive IsFraction (base : ℕ) : List UInt8 → Prop
  | mk {before after} (hbefore : ∀ d ∈ before, isDigitOf base d = true) (hafter : ∀ d ∈ after, isDigitOf base d = true)
      (hdigit : before ≠ [] ∨ after ≠ []) : IsFraction base (before ++ ch '.' :: after)

inductive IsExponent (letter : Char) : List UInt8 → Prop
  | plain {e digits} (he : isCase letter e = true) (h : IsDigits 10 digits) : IsExponent letter (e :: digits)
  | signed {e sign digits} (he : isCase letter e = true) (hsign : isSign sign = true) (h : IsDigits 10 digits) :
      IsExponent letter (e :: sign :: digits)

inductive FloatingSuffix : List UInt8 → Prop
  | none : FloatingSuffix []
  | float {c} (hc : isCase 'f' c = true) : FloatingSuffix [c]
  | long {c} (hc : isCase 'l' c = true) : FloatingSuffix [c]

/-- A floating constant: a decimal one has a point or an exponent, a hexadecimal one an exponent. -/
inductive IsFloating : List UInt8 → Prop
  | fraction {m e s} (hm : IsFraction 10 m) (he : e = [] ∨ IsExponent 'e' e) (hs : FloatingSuffix s) :
      IsFloating (m ++ (e ++ s))
  | digits {m e s} (hm : IsDigits 10 m) (he : IsExponent 'e' e) (hs : FloatingSuffix s) : IsFloating (m ++ (e ++ s))
  | hex {x m e s} (hx : isCase 'x' x = true) (hm : IsFraction 16 m ∨ IsDigits 16 m) (he : IsExponent 'p' e)
      (hs : FloatingSuffix s) : IsFloating (ch '0' :: x :: (m ++ (e ++ s)))

/-! ## Texts that are neither -/

/-- Nothing but a suffix behind `0b`, decimal digits that are no integer constant in the place of a
floating one, and hexadecimal digits with a point and without an exponent. -/
inductive IsMisspelled : List UInt8 → Prop
  | binary {b s unsigned size} (hb : isCase 'b' b = true) (hs : IntegerSuffix s unsigned size) :
      IsMisspelled (ch '0' :: b :: s)
  | decimal {m s} (hm : IsDigits 10 m) (hs : FloatingSuffix s) (hinteger : ¬IsInteger (m ++ s)) : IsMisspelled (m ++ s)
  | hex {x m s} (hx : isCase 'x' x = true) (hm : IsFraction 16 m) (hs : FloatingSuffix s) :
      IsMisspelled (ch '0' :: x :: (m ++ s))

end Sparse.NumberLiterals
