import Sparse.ConstantExpressions
import Sparse.StructLayoutSoundness
import Mathlib.Data.Int.ModEq
import Mathlib.Tactic.Ring

/-!
# The sizes of arrays

The size of a symbol is kept in bits in an `int`. `examine_array_type` multiplies the size of the
element by the dimension, and `evaluate_sizeof` divides by eight what is left of the product.
-/

namespace Sparse.ArraySizes

open StructLayout

/-- The types of `ctype_declaration` that objects have, but for `lllong`, of 128 bits. -/
inductive BasicType
  | integer (c : Ctype)
  | float | double | longDouble
  deriving DecidableEq, Repr

/-- A type with what its size is found from. A node is a declared object or a typedef name; the
dimension is the value of `array_size`. -/
inductive ObjectType
  | void
  | basic (c : BasicType)
  | function (result : ObjectType)
  | array (size : ℤ) (element : ObjectType)
  | node (base : ObjectType)
  deriving DecidableEq, Repr

variable (t : Target)

/-- `bits_in_bool` to `bits_in_longdouble`. -/
def BasicType.bitSize : BasicType → ℕ
  | integer c => c.bitSize t
  | float => 32
  | double => 64
  | longDouble => 80

/-- A `_Bool` has one bit, the others have whole bytes. -/
theorem BasicType.bitSize_cases (c : BasicType) :
    c = .integer .bool ∧ c.bitSize t = 1 ∨
      c ≠ .integer .bool ∧ ∃ n, c.bitSize t = 8 * n ∧ 0 < n ∧ n ≤ 10 := by
  cases c with
  | integer c =>
    cases c with
    | bool => exact Or.inl ⟨rfl, rfl⟩
    | integer rank sign =>
      refine Or.inr ⟨by simp, ?_⟩
      cases rank with
      | char => exact ⟨1, rfl, by decide, by decide⟩
      | short => exact ⟨2, rfl, by decide, by decide⟩
      | int => exact ⟨4, rfl, by decide, by decide⟩
      | long =>
        cases hm : t.m64 with
        | false => exact ⟨4, by simp [bitSize, Ctype.bitSize, hm], by decide, by decide⟩
        | true => exact ⟨8, by simp [bitSize, Ctype.bitSize, hm], by decide, by decide⟩
      | longLong => exact ⟨8, rfl, by decide, by decide⟩
  | float => exact Or.inr ⟨by simp, 4, rfl, by decide, by decide⟩
  | double => exact Or.inr ⟨by simp, 8, rfl, by decide, by decide⟩
  | longDouble => exact Or.inr ⟨by simp, 10, rfl, by decide, by decide⟩

namespace ObjectType

/-- `bit_size` after `examine_symbol_type`. A dimension is a `long long`, the product an
`unsigned long`. -/
def bitSize : ObjectType → ℤ
  | void => -1
  | basic c => c.bitSize t
  | function result => bitSize result
  | array size element => toInt (toUlong (bitSize element * size))
  | node base => bitSize base

/-- A node stands for its base type; `examine_base_type` leaves no nodes below it. -/
def strip : ObjectType → ObjectType
  | node base => strip base
  | type => type

/-- `ctype.base_type` of a type that is not basic. -/
def baseType : ObjectType → Option ObjectType
  | function result => some result.strip
  | array _ element => some element.strip
  | node base => some base.strip
  | _ => none

/-- `is_function`. -/
def isFunction : ObjectType → Bool
  | function _ => true
  | _ => false

/-- `is_bool_type`. -/
def isBool (type : ObjectType) : Bool := type.strip = basic (.integer .bool)

/-- `is_void_type`. -/
def isVoid (type : ObjectType) : Bool := type.strip = void

/-- `size_t_ctype`. -/
def sizeT : Ctype := if t.m64 then .integer .long .unsigned else .uint

/-- The constant that `evaluate_sizeof` leaves, what it warns of and whether it reports that it cannot
size the expression. -/
structure Sizeof where
  value : BitVec 64
  ctype : Ctype
  warnings : List String
  error : Bool
  deriving DecidableEq, Repr

/-- One of the special cases: what is left of the size, with the warnings so far. -/
def special (applies : Bool) (text : String) (found : ℤ × List String) : ℤ × List String :=
  if applies then (bitsInChar, found.2 ++ [text]) else found

/-- `evaluate_sizeof`, for a type that `evaluate_type_information` has found. -/
def evaluateSizeof (type : ObjectType) : Sizeof :=
  let found := special (type.bitSize t < 0 && type.isVoid) "expression using sizeof(void)" (type.bitSize t, [])
  let found := special (found.1 = 1 && type.isBool) "expression using sizeof bool" found
  let found := special (type.baseType.any isFunction) "expression using sizeof on a function" found
  { value := .ofInt 64 (bitsToBytes found.1)
    ctype := sizeT t
    warnings := found.2
    error := found.1 < 0 || found.1 % bitsInChar ≠ 0 }

/-- A type built from the basic types by arrays of constant dimensions. -/
def Complete : ObjectType → Prop
  | basic _ => True
  | array size element => 0 ≤ size ∧ element.Complete
  | node base => base.Complete
  | _ => False

/-- The size in bytes: an element occupies whole bytes. -/
def bytes : ObjectType → ℤ
  | basic c => (c.bitSize t + 7) / 8
  | array size element => size * bytes element
  | node base => bytes base
  | _ => 0

/-- The size in bits as the code would have it without an end. -/
def bits : ObjectType → ℤ
  | basic c => c.bitSize t
  | array size element => size * bits element
  | node base => bits base
  | _ => 0

/-- The innermost element is a `_Bool`. -/
def ofBool : ObjectType → Bool
  | basic c => c = .integer .bool
  | array _ element => element.ofBool
  | node base => base.ofBool
  | _ => false

def isArray (type : ObjectType) : Bool :=
  match type.strip with
  | array _ _ => true
  | _ => false

/-- What a size found in bits is right for, or turned down: the type is no array, the bits are no
number of bytes or negative in an `int`, or they fit and the elements, if any, are not `_Bool`. -/
def Sizable (type : ObjectType) : Prop :=
  type.isArray = false ∨ type.bits t % 8 ≠ 0 ∨ 2 ^ 31 ≤ type.bits t % 2 ^ 32 ∨
    type.bits t < 2 ^ 31 ∧ (type.ofBool → type.bits t = 0)

variable {t} {type : ObjectType}

theorem bits_nonneg (h : type.Complete) : 0 ≤ type.bits t := by
  induction type with
  | basic c => exact Int.natCast_nonneg _
  | array size element ih => exact Int.mul_nonneg h.1 (ih h.2)
  | node base ih => exact ih h
  | _ => exact h.elim

/-- Only the lower 32 bits of a size are kept. -/
theorem toInt_toUlong_modEq (x : ℤ) : toInt (toUlong x) ≡ x [ZMOD 2 ^ 32] := by
  rw [Int.ModEq, toInt, toUlong, Int.toNat_of_nonneg (Int.emod_nonneg x (by decide)), Int.bmod]
  split <;> omega

theorem bitSize_modEq (h : type.Complete) : type.bitSize t ≡ type.bits t [ZMOD 2 ^ 32] := by
  induction type with
  | basic c => rfl
  | array size element ih =>
    rw [bitSize, bits, mul_comm]
    exact (toInt_toUlong_modEq _).trans ((ih h.2).mul_left size)
  | node base ih => exact ih h
  | _ => exact h.elim

theorem toInt_bounds (x : ℤ) : -2 ^ 31 ≤ toInt x ∧ toInt x < 2 ^ 31 :=
  ⟨Int.le_bmod (by decide), Int.bmod_lt (by decide)⟩

theorem bitSize_bounds (h : type.Complete) : -2 ^ 31 ≤ type.bitSize t ∧ type.bitSize t < 2 ^ 31 := by
  induction type with
  | basic c =>
    rw [bitSize]
    rcases c.bitSize_cases t with ⟨-, hbits⟩ | ⟨-, n, hbits, -, hn⟩ <;> omega
  | array size element _ => exact toInt_bounds _
  | node base ih => exact ih h
  | _ => exact h.elim

/-- Elements of whole bytes make whole bytes, and of a `_Bool` one bit is counted. -/
theorem bits_eq (h : type.Complete) :
    type.bits t = if type.ofBool then type.bytes t else 8 * type.bytes t := by
  induction type with
  | basic c =>
    rw [bits, bytes, ofBool]
    rcases c.bitSize_cases t with ⟨rfl, hbits⟩ | ⟨hc, n, hbits, -, -⟩
    · simp [hbits]
    · rw [decide_eq_false hc, if_neg Bool.false_ne_true]
      omega
  | array size element ih =>
    rw [bits, ih h.2, bytes, ofBool]
    split
    · rfl
    · ring
  | node base ih => exact ih h
  | _ => exact h.elim

/-- Below its nodes a type is basic or an array. -/
theorem strip_cases (h : type.Complete) :
    (∃ c, type.strip = basic c ∧ type.bitSize t = c.bitSize t ∧ type.bytes t = (c.bitSize t + 7) / 8) ∨
      ∃ size element, type.strip = array size element ∧ element.Complete := by
  induction type with
  | basic c => exact Or.inl ⟨c, rfl, rfl, rfl⟩
  | array size element _ => exact Or.inr ⟨size, element, rfl, h.2⟩
  | node base ih => exact ih h
  | _ => exact h.elim

theorem strip_isFunction (h : type.Complete) : type.strip.isFunction = false := by
  rcases strip_cases (t := ⟨true⟩) h with ⟨c, hstrip, -⟩ | ⟨size, element, hstrip, -⟩ <;> rw [hstrip] <;> rfl

/-- No complete type is taken for a function. -/
theorem baseType_isFunction (h : type.Complete) : type.baseType.any isFunction = false := by
  cases type with
  | array size element => exact strip_isFunction h.2
  | node base => exact strip_isFunction (show base.Complete from h)
  | basic c => rfl
  | _ => exact h.elim

/-- The size of an array is what the product leaves. -/
theorem evaluateSizeof_array (h : type.Complete) (harray : type.isArray = true) :
    (type.evaluateSizeof t).value = .ofInt 64 (bitsToBytes (type.bitSize t)) ∧
      ((type.evaluateSizeof t).error = true ↔ type.bitSize t < 0 ∨ type.bitSize t % 8 ≠ 0) := by
  obtain ⟨c, hstrip, -⟩ | ⟨size, element, hstrip, -⟩ := strip_cases (t := t) h
  · simp [isArray, hstrip] at harray
  · simp [evaluateSizeof, special, isVoid, isBool, hstrip, baseType_isFunction h, bitsInChar]

/-- A basic type has its size. -/
theorem evaluateSizeof_basic (h : type.Complete) (harray : type.isArray = false) :
    (type.evaluateSizeof t).value = .ofInt 64 (type.bytes t) := by
  obtain ⟨c, hstrip, hbits, hbytes⟩ | ⟨size, element, hstrip, -⟩ := strip_cases (t := t) h
  · have hisBool : type.isBool = decide (c = .integer .bool) := by simp [isBool, hstrip]
    have hisVoid : type.isVoid = false := by simp [isVoid, hstrip]
    rw [hbytes, evaluateSizeof, hisVoid, hisBool, baseType_isFunction h, hbits]
    rcases c.bitSize_cases t with ⟨rfl, hsize⟩ | ⟨hc, n, hsize, -, -⟩
    · simp [special, hsize, bitsToBytes, bitsInChar]
    · have hn : (8 * (n : ℤ) + 7) / 8 = n := by omega
      simp [special, hc, hsize, bitsToBytes, bitsInChar, hn]
  · simp [isArray, hstrip] at harray

/-- `sizeof` is the size of the type, or an error is reported, exactly if the type is sizable. -/
theorem evaluateSizeof_exact_iff (h : type.Complete) (hfits : type.bytes t < 2 ^ (sizeT t).bitSize t) :
    ((type.evaluateSizeof t).error = true ∨ (type.evaluateSizeof t).value = .ofInt 64 (type.bytes t)) ↔
      type.Sizable t := by
  cases harray : type.isArray with
  | false => simp [Sizable, harray, evaluateSizeof_basic h harray]
  | true =>
    obtain ⟨hvalue, herror⟩ := evaluateSizeof_array (t := t) h harray
    obtain ⟨hlow, hhigh⟩ := bitSize_bounds (t := t) h
    have hmod := bitSize_modEq (t := t) h
    have hbits := bits_eq (t := t) h
    have hpos := bits_nonneg (t := t) h
    have hsize : (sizeT t).bitSize t ≤ 64 := by
      unfold sizeT
      split
      · simp only [Ctype.bitSize]
        split <;> decide
      · simp only [Ctype.uint, Ctype.bitSize]
        decide
    have hlt : type.bytes t < 2 ^ 64 :=
      hfits.trans_le (pow_le_pow_right₀ (by decide) hsize)
    have hbytes : 0 ≤ type.bytes t := by
      split at hbits <;> omega
    rw [hvalue, herror, Sizable, harray, bitsToBytes]
    rw [Int.ModEq] at hmod
    by_cases hneg : type.bitSize t < 0
    · exact iff_of_true (Or.inl (Or.inl hneg)) (Or.inr (Or.inr (Or.inl (by omega))))
    · have hword : BitVec.ofInt 64 (type.bitSize t / bitsInChar) = .ofInt 64 (type.bytes t) ↔
          type.bitSize t / 8 = type.bytes t := by
        have hchar : (bitsInChar : ℤ) = 8 := rfl
        rw [hchar, ← BitVec.toNat_inj, BitVec.toNat_ofInt, BitVec.toNat_ofInt]
        omega
      rw [if_pos (not_lt.mp hneg), hword]
      have hrest : type.bits t % 2 ^ 32 = type.bitSize t := by omega
      have hparts : type.bits t % 8 = type.bitSize t % 8 := by omega
      rw [hrest, hparts]
      clear hvalue herror hfits hmod hword
      cases hbool : type.ofBool with
      | false =>
        rw [hbool, if_neg Bool.false_ne_true] at hbits
        simp only [false_implies, and_true, reduceCtorEq, false_or]
        omega
      | true =>
        simp only [forall_const, reduceCtorEq, false_or]
        rw [hbool, if_pos rfl] at hbits
        constructor
        · rintro ((hneg' | hpart) | heq)
          · exact absurd hneg' hneg
          · exact Or.inl hpart
          · have hle : type.bitSize t ≤ type.bits t := by
              have hquot := Int.ediv_nonneg hpos (by decide : (0 : ℤ) ≤ 2 ^ 32)
              omega
            have hzero : type.bits t = 0 := by omega
            exact Or.inr (Or.inr ⟨by omega, hzero⟩)
        · rintro (hpart | hlarge | ⟨-, hzero⟩)
          · exact Or.inl (Or.inr hpart)
          · omega
          · exact Or.inr (by omega)

/-- `int a[10][3];` -/
theorem evaluateSizeof_exact_table :
    ((array 10 (array 3 (basic (.integer .int)))).evaluateSizeof ⟨true⟩).error = true ∨
      ((array 10 (array 3 (basic (.integer .int)))).evaluateSizeof ⟨true⟩).value = 120 := by
  have h : (array 10 (array 3 (basic (.integer .int)))).Complete := ⟨by decide, by decide, trivial⟩
  exact (evaluateSizeof_exact_iff h (by decide)).mpr (Or.inr (Or.inr (Or.inr (by decide))))

/-- `char a[536870913];` has the size 1. -/
theorem evaluateSizeof_wraps :
    (array 536870913 (basic (.integer (.integer .char .signed)))).Complete ∧
      (array 536870913 (basic (.integer (.integer .char .signed)))).bytes ⟨true⟩ = 536870913 ∧
      ((array 536870913 (basic (.integer (.integer .char .signed)))).evaluateSizeof ⟨true⟩).error = false ∧
      ((array 536870913 (basic (.integer (.integer .char .signed)))).evaluateSizeof ⟨true⟩).value = 1 :=
  ⟨⟨by decide, trivial⟩, by decide, by decide, by decide⟩

end ObjectType

end Sparse.ArraySizes
