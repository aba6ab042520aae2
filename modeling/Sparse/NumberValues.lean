import Sparse.MacroTokens
import Sparse.NumberGrammar

/-!
# Values of number tokens

`get_number_value` reads the characters of a number as an integer with `strtoull` and a loop over
the suffix, and goes back to their beginning to read a floating constant where something else
stands behind the digits.
-/

namespace Sparse.NumberLiterals

open Tokenizer (ch isDot digitsValue hexval)
open MacroExpansion (bytes)

/-! ## The C library -/

/-- `strtoull` in a base from 2 on: the value, whether `errno` is `ERANGE`, and the characters from the
end on. The characters of a number begin with neither white space nor a sign. -/
def strtoull (base : ℕ) (text : List UInt8) : BitVec 64 × Bool × List UInt8 :=
  let value := digitsValue base (text.takeWhile (isDigitOf base))
  (if 2 ^ 64 ≤ value then BitVec.allOnes 64 else BitVec.ofNat 64 value, 2 ^ 64 ≤ value,
    text.dropWhile (isDigitOf base))

/-- A prefix `0x` counts only in front of a digit. -/
def isHexPrefix (text : List UInt8) : Bool := text.head? = some (ch '0') && text.tail.head?.any (isCase 'x')

/-- `strtoull` in base 0. -/
def strtoullAny (text : List UInt8) : BitVec 64 × Bool × List UInt8 :=
  if isHexPrefix text && (text.drop 2).head?.any (isDigitOf 16) then strtoull 16 (text.drop 2)
  else if text.head? = some (ch '0') then strtoull 8 text
  else strtoull 10 text

/-- The characters behind digits with a point or without, none if there is no digit. -/
def mantissaEnd (base : ℕ) (text : List UInt8) : Option (List UInt8) :=
  let whole := text.head?.any (isDigitOf base)
  let rest := text.dropWhile (isDigitOf base)
  if rest.head?.any isDot && (whole || rest.tail.head?.any (isDigitOf base)) then
    some (rest.tail.dropWhile (isDigitOf base))
  else if whole then some rest
  else none

/-- The characters behind an exponent, if there is one. -/
def exponentEnd (letter : Char) : List UInt8 → List UInt8
  | [] => []
  | e :: rest =>
    let digits := if rest.head?.any isSign then rest.tail else rest
    if isCase letter e && digits.head?.any (isDigitOf 10) then digits.dropWhile (isDigitOf 10) else e :: rest

/-- The end that `strtold` finds; the value is left out. -/
def strtoldEnd (text : List UInt8) : List UInt8 :=
  match if isHexPrefix text then mantissaEnd 16 (text.drop 2) else none with
  | some rest => exponentEnd 'p' rest
  | none =>
    match mantissaEnd 10 text with
    | some rest => exponentEnd 'e' rest
    | none => text

/-! ## Numbers -/

/-- `parse_num`. -/
def parseNum (text : List UInt8) : BitVec 64 × Bool × List UInt8 :=
  if text.head? = some (ch '0') && text.tail.head?.any (isCase 'b') then strtoull 2 (text.drop 2) else strtoullAny text

/-- Where the loop over the suffix goes. -/
inductive Suffix
  | integer (wantUnsigned : Bool) (size : ℕ)
  | float
  | noInteger
  deriving DecidableEq, Repr

def suffixLoop : List UInt8 → Bool → ℕ → Suffix
  | [], wantUnsigned, size => .integer wantUnsigned size
  | c :: rest, wantUnsigned, size =>
    if isCase 'u' c then if wantUnsigned then .noInteger else suffixLoop rest true size
    else if isCase 'l' c then
      if size ≠ 0 then .noInteger
      else
        match rest with
        | [] => .integer wantUnsigned 1
        | d :: rest' => if d = c then suffixLoop rest' wantUnsigned 2 else suffixLoop (d :: rest') wantUnsigned 1
    else .float

/-- `ctype_integer`. -/
def ctypeInteger (size : ℕ) (wantUnsigned : Bool) : Ctype :=
  .integer (if size = 0 then .int else if size = 1 then .long else .longLong)
    (if wantUnsigned then .unsigned else .signed)

/-- The fields hold what the function has found out at `got_it`; `soBig` and `betweenLongs` are the
bits of `do_warn`. -/
structure Choice where
  size : ℕ
  wantUnsigned : Bool
  soBig : Bool
  betweenLongs : Bool
  tooBig : Bool
  deriving DecidableEq, Repr

def Choice.warnings (c : Choice) (text : List UInt8) : List (List UInt8) :=
  (if c.tooBig then [bytes "decimal constant " ++ text ++ bytes " is too big for long long"] else []) ++
  (if c.soBig || c.betweenLongs then
    [bytes "constant " ++ text ++ bytes " is so big it is" ++ (if c.wantUnsigned then bytes " unsigned" else []) ++
      (if 0 < c.size then bytes " long" else []) ++ (if 1 < c.size then bytes " long" else [])]
  else []) ++
  (if c.betweenLongs then
    [bytes "decimal constant " ++ text ++ bytes (" is between LONG_MAX and ULONG_MAX. For C99 that means long long, " ++
      "C90 compilers are very likely to produce unsigned long (and a warning) here")]
  else [])

/-- No bit of the value is above the one with that number. -/
def fits (value : BitVec 64) (bits : ℕ) : Bool := value &&& (~~~1#64 <<< bits) = 0#64

/-- The value does not need the bit with that number. -/
def clear (value : BitVec 64) (bits : ℕ) : Bool := value &&& (1#64 <<< bits) = 0#64

/-- The signedness at `got_it`, if the type takes the value. -/
def trySize (value : BitVec 64) (bits : ℕ) (tryUnsigned wantUnsigned : Bool) : Option Bool :=
  if fits value bits then
    if clear value bits then some wantUnsigned
    else if tryUnsigned then some true
    else none
  else none

/-- The choice of the type, none for the jump to `Eoverflow`. -/
def chooseType (t : Target) (text : List UInt8) (value : BitVec 64) (size : ℕ) (wantUnsigned : Bool) : Option Choice :=
  let tryUnsigned := !(text.head? ≠ some (ch '0') && !wantUnsigned)
  match if size = 0 then trySize value (Ctype.int.bitSize t - 1) tryUnsigned wantUnsigned else none with
  | some u => some ⟨0, u, false, false, false⟩
  | none =>
    let bits := (ctypeInteger 1 false).bitSize t - 1
    match if size < 2 then trySize value bits tryUnsigned wantUnsigned else none with
    | some u => some ⟨1, u, size = 0, false, false⟩
    | none =>
      let betweenLongs := size < 2 && fits value bits
      (trySize value ((ctypeInteger 2 false).bitSize t - 1) true wantUnsigned).map fun u =>
        ⟨2, u, size < 2, betweenLongs,
          !clear value ((ctypeInteger 2 false).bitSize t - 1) && !tryUnsigned⟩

inductive FloatingType
  | float
  | double
  | longDouble
  deriving DecidableEq, Repr

inductive NumberError
  | tooBig
  | notValid
  deriving DecidableEq, Repr

def NumberError.text (number : List UInt8) : NumberError → List UInt8
  | tooBig => bytes "constant " ++ number ++ bytes " is too big even for unsigned long long"
  | notValid => bytes "constant " ++ number ++ bytes " is not a valid number"

/-- The expression that a number becomes, or the error at which `sparse` dies. -/
inductive NumberValue
  | integer (ctype : Ctype) (value : BitVec 64) (warnings : List (List UInt8))
  | floating (ctype : FloatingType)
  | error (e : NumberError)
  deriving DecidableEq, Repr

/-- The part of `get_number_value` behind `Float`. -/
def floatValue (text : List UInt8) : NumberValue :=
  let rest := strtoldEnd text
  if rest.length = text.length then .error .notValid
  else
    match rest with
    | [] => .floating .double
    | [c] =>
      if isCase 'f' c then .floating .float
      else if isCase 'l' c then .floating .longDouble
      else .error .notValid
    | _ => .error .notValid

/-- `get_number_value`. -/
def getNumberValue (t : Target) (text : List UInt8) : NumberValue :=
  let (value, outOfRange, rest) := parseNum text
  if rest.length = text.length then floatValue text
  else
    match suffixLoop rest false 0 with
    | .noInteger => .error .notValid
    | .float => floatValue text
    | .integer wantUnsigned size =>
      if value = BitVec.allOnes 64 && outOfRange then .error .tooBig
      else
        match chooseType t text value size wantUnsigned with
        | none => .error .tooBig
        | some c => .integer (ctypeInteger c.size c.wantUnsigned) value (c.warnings text)

/-! ## What should come of a text -/

/-- Integer constants get their value and the first type that represents it, floating constants are
taken as such, and all other texts are errors. -/
structure ReadsRight (t : Target) (more : List Ctype) (text : List UInt8) : Prop where
  integer : ∀ ctype value, (∃ warnings, getNumberValue t text = .integer ctype value warnings) ↔
    ∃ base unsigned size, IntegerConstant base unsigned size value.toNat text ∧
      firstType t more base unsigned size value.toNat = some ctype
  floating : (∃ ctype, getNumberValue t text = .floating ctype) ↔ IsFloating text
  rejects : (∃ e, getNumberValue t text = .error e) ↔
    ¬IsFloating text ∧ ∀ base unsigned size value, IntegerConstant base unsigned size value text →
      firstType t more base unsigned size value = none

/-! ## The choice of the type -/

section Choice

variable {t : Target} {text : List UInt8} {value : BitVec 64}

theorem fits_iff {bits : ℕ} : fits value bits = true ↔ value.toNat < 2 ^ (bits + 1) := by
  rw [fits, decide_eq_true_iff]
  constructor
  · intro h
    refine Nat.lt_pow_two_of_testBit _ fun i hi => ?_
    have hbit : (value &&& (~~~1#64 <<< bits)).getLsbD i = false := by rw [h, BitVec.getLsbD_zero]
    by_cases hlt : i < 64
    · have hmask : (~~~1#64 <<< bits).getLsbD i = true := by
        simp only [BitVec.getLsbD_shiftLeft, BitVec.getLsbD_not, BitVec.getLsbD_one]
        have h1 : ¬i < bits := by omega
        have h2 : i - bits < 64 := by omega
        have h3 : ¬(i - bits = 0) := by omega
        simp [hlt, h1, h2, h3]
      rw [BitVec.getLsbD_and, hmask, Bool.and_true] at hbit
      exact hbit
    · exact BitVec.getLsbD_of_ge value i (Nat.le_of_not_lt hlt)
  · intro h
    refine BitVec.eq_of_getLsbD_eq fun i hi => ?_
    rw [BitVec.getLsbD_and, BitVec.getLsbD_zero]
    by_cases hlow : i < bits + 1
    · have hmask : (~~~1#64 <<< bits).getLsbD i = false := by
        simp only [BitVec.getLsbD_shiftLeft, BitVec.getLsbD_not, BitVec.getLsbD_one]
        rcases Nat.lt_succ_iff_lt_or_eq.mp hlow with h | h
        · simp [h]
        · simp [h]
      rw [hmask, Bool.and_false]
    · have hbit : value.getLsbD i = false :=
        Nat.testBit_lt_two_pow (h.trans_le (Nat.pow_le_pow_right (by omega) (Nat.le_of_not_lt hlow)))
      rw [hbit, Bool.false_and]

theorem clear_iff {bits : ℕ} (hbits : bits < 64) (hfits : value.toNat < 2 ^ (bits + 1)) :
    clear value bits = true ↔ value.toNat < 2 ^ bits := by
  rw [clear, decide_eq_true_iff]
  constructor
  · intro h
    have hbit : (value &&& (1#64 <<< bits)).getLsbD bits = false := by rw [h, BitVec.getLsbD_zero]
    have hmask : (1#64 <<< bits).getLsbD bits = true := by simp [hbits]
    rw [BitVec.getLsbD_and, hmask, Bool.and_true] at hbit
    have hvalue : value.toNat.testBit bits = false := hbit
    refine Nat.lt_pow_two_of_testBit _ fun i hi => ?_
    rcases Nat.eq_or_lt_of_le hi with rfl | hlt
    · exact hvalue
    · exact Nat.testBit_lt_two_pow (hfits.trans_le (Nat.pow_le_pow_right (by omega) hlt))
  · intro h
    refine BitVec.eq_of_getLsbD_eq fun i hi => ?_
    rw [BitVec.getLsbD_and, BitVec.getLsbD_zero]
    by_cases hlow : i < bits
    · have hmask : (1#64 <<< bits).getLsbD i = false := by simp [hlow]
      rw [hmask, Bool.and_false]
    · have hbit : value.getLsbD i = false :=
        Nat.testBit_lt_two_pow (h.trans_le (Nat.pow_le_pow_right (by omega) (Nat.le_of_not_lt hlow)))
      rw [hbit, Bool.false_and]

/-- The types of one size, in the order of C99. -/
def sizeTypes (tryUnsigned wantUnsigned : Bool) (size : ℕ) : List Ctype :=
  if wantUnsigned then [ctypeInteger size true]
  else if tryUnsigned then [ctypeInteger size false, ctypeInteger size true]
  else [ctypeInteger size false]

theorem bitSize_ctypeInteger (size : ℕ) (u : Bool) :
    (ctypeInteger size u).bitSize t = (ctypeInteger size false).bitSize t := by
  unfold ctypeInteger
  split_ifs <;> rfl

theorem isUnsigned_ctypeInteger (size : ℕ) (u : Bool) : (ctypeInteger size u).isUnsigned = u := by
  cases u <;> rfl

theorem represents_ctypeInteger (size : ℕ) (u : Bool) : represents t value.toNat (ctypeInteger size u) =
    decide (value.toNat < 2 ^ ((ctypeInteger size false).bitSize t - 1 + u.toNat)) := by
  have hpos := (ctypeInteger size false).bitSize_pos t
  rw [represents, isUnsigned_ctypeInteger, bitSize_ctypeInteger]
  cases u
  · rfl
  · rw [if_pos rfl, Bool.toNat_true, Nat.sub_add_cancel hpos]

/-- One size is taken exactly if one of its types represents the value, and with the first of them. -/
theorem trySize_eq (size : ℕ) {tryUnsigned wantUnsigned : Bool} (htry : wantUnsigned = true → tryUnsigned = true) :
    (trySize value ((ctypeInteger size false).bitSize t - 1) tryUnsigned wantUnsigned).map (ctypeInteger size) =
      (sizeTypes tryUnsigned wantUnsigned size).find? (represents t value.toNat) := by
  have hlt : (ctypeInteger size false).bitSize t - 1 < 64 := by
    have hle := (ctypeInteger size false).bitSize_le t
    have hpos := (ctypeInteger size false).bitSize_pos t
    omega
  generalize hbits : (ctypeInteger size false).bitSize t - 1 = bits at hlt
  have hrepresents : ∀ u, represents t value.toNat (ctypeInteger size u) =
      decide (value.toNat < 2 ^ (bits + u.toNat)) := by
    intro u
    rw [represents_ctypeInteger, hbits]
  by_cases hfits : value.toNat < 2 ^ (bits + 1)
  · by_cases hclear : value.toNat < 2 ^ bits
    · have hclear' := (clear_iff hlt hfits).mpr hclear
      cases wantUnsigned with
      | true => simp [trySize, fits_iff.mpr hfits, hclear', sizeTypes, hrepresents, hfits]
      | false => cases tryUnsigned <;> simp [trySize, fits_iff.mpr hfits, hclear', sizeTypes, hrepresents, hclear]
    · have hclear' : clear value bits = false := by
        rw [← Bool.not_eq_true, clear_iff hlt hfits]
        exact hclear
      cases wantUnsigned with
      | true => simp [trySize, fits_iff.mpr hfits, hclear', htry rfl, sizeTypes, hrepresents, hfits]
      | false =>
        cases tryUnsigned <;> simp [trySize, fits_iff.mpr hfits, hclear', sizeTypes, hrepresents, hclear, hfits]
  · have hfits' : fits value bits = false := by
      rw [← Bool.not_eq_true, fits_iff]
      exact hfits
    have hclear : ¬value.toNat < 2 ^ bits := fun h => hfits (h.trans (Nat.pow_lt_pow_right (by omega) (by omega)))
    cases wantUnsigned with
    | true => simp [trySize, hfits', sizeTypes, hrepresents, hfits]
    | false => cases tryUnsigned <;> simp [trySize, hfits', sizeTypes, hrepresents, hfits, hclear]

/-- The sizes are tried one behind the other. -/
theorem chooseType_or {size : ℕ} {tryUnsigned wantUnsigned : Bool}
    (htry : tryUnsigned = !(text.head? ≠ some (ch '0') && !wantUnsigned)) :
    (chooseType t text value size wantUnsigned).map (fun c => ctypeInteger c.size c.wantUnsigned) =
      ((if size = 0 then trySize value ((ctypeInteger 0 false).bitSize t - 1) tryUnsigned wantUnsigned
        else none).map (ctypeInteger 0)).or
      (((if size < 2 then trySize value ((ctypeInteger 1 false).bitSize t - 1) tryUnsigned wantUnsigned
        else none).map (ctypeInteger 1)).or
      ((trySize value ((ctypeInteger 2 false).bitSize t - 1) true wantUnsigned).map (ctypeInteger 2))) := by
  have hint : Ctype.int.bitSize t = (ctypeInteger 0 false).bitSize t := rfl
  rw [chooseType, ← htry, hint]
  dsimp only
  cases if size = 0 then trySize value ((ctypeInteger 0 false).bitSize t - 1) tryUnsigned wantUnsigned else none with
  | some u => rfl
  | none =>
    cases if size < 2 then trySize value ((ctypeInteger 1 false).bitSize t - 1) tryUnsigned wantUnsigned else none with
    | some u => rfl
    | none =>
      cases trySize value ((ctypeInteger 2 false).bitSize t - 1) true wantUnsigned with
      | some u => rfl
      | none => rfl

theorem candidates_eq {base size : ℕ} {tryUnsigned wantUnsigned : Bool}
    (htry : tryUnsigned = !(decide (base = 10) && !wantUnsigned)) (hsize : size ≤ 2) :
    candidates base wantUnsigned size =
      (if size = 0 then sizeTypes tryUnsigned wantUnsigned 0 else []) ++
        ((if size < 2 then sizeTypes tryUnsigned wantUnsigned 1 else []) ++ sizeTypes tryUnsigned wantUnsigned 2) := by
  have hrank : (fun rank => if wantUnsigned then [Ctype.integer rank .unsigned]
      else if base = 10 then [.integer rank .signed] else [.integer rank .signed, .integer rank .unsigned]) =
      fun rank => if wantUnsigned then [Ctype.integer rank .unsigned]
        else if tryUnsigned then [.integer rank .signed, .integer rank .unsigned] else [.integer rank .signed] := by
    subst htry
    cases wantUnsigned
    · by_cases hbase : base = 10
      · simp [hbase]
      · simp [hbase]
    · rfl
  rw [candidates, hrank]
  clear hrank htry
  obtain rfl | rfl | rfl : size = 0 ∨ size = 1 ∨ size = 2 := by omega
  all_goals cases wantUnsigned <;> cases tryUnsigned <;> rfl

/-- `unsigned long long` behind the largest types does not come too late. -/
theorem find_sizeTypes (p : Ctype → Bool) (tryUnsigned wantUnsigned : Bool) :
    (sizeTypes tryUnsigned wantUnsigned 2 ++ [ctypeInteger 2 true]).find? p =
      (sizeTypes true wantUnsigned 2).find? p := by
  cases wantUnsigned <;> cases tryUnsigned <;> simp [sizeTypes, List.find?_cons] <;> grind

/-- Behind the list of C99 the code takes `unsigned long long`. -/
theorem chooseType_eq {base size : ℕ} {wantUnsigned : Bool} (hbase : base = 10 ↔ text.head? ≠ some (ch '0'))
    (hsize : size ≤ 2) :
    (chooseType t text value size wantUnsigned).map (fun c => ctypeInteger c.size c.wantUnsigned) =
      firstType t [.integer .longLong .unsigned] base wantUnsigned size value.toNat := by
  have hdecide : (!(decide (text.head? ≠ some (ch '0')) && !wantUnsigned)) =
      !(decide (base = 10) && !wantUnsigned) := by
    rw [decide_eq_decide.mpr hbase]
  -- a size below that of the suffix is not tried
  have hskip : ∀ (p : Prop) [Decidable p] (size : ℕ) {tryUnsigned : Bool}, (wantUnsigned = true → tryUnsigned = true) →
      (if p then trySize value ((ctypeInteger size false).bitSize t - 1) tryUnsigned wantUnsigned else none).map
        (ctypeInteger size) =
        (if p then sizeTypes tryUnsigned wantUnsigned size else []).find? (represents t value.toNat) := by
    intro p _ size tryUnsigned htry
    split
    · exact trySize_eq size htry
    · rfl
  have htry : wantUnsigned = true → (!(decide (base = 10) && !wantUnsigned)) = true := by
    rintro rfl
    simp
  rw [chooseType_or hdecide.symm, hskip _ 0 htry, hskip _ 1 htry, trySize_eq 2 fun _ => rfl, firstType,
    candidates_eq rfl hsize, ← find_sizeTypes _ (!(decide (base = 10) && !wantUnsigned))]
  simp only [List.find?_append, Option.or_assoc]
  rfl

end Choice

end Sparse.NumberLiterals
