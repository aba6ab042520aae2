import Sparse.StructLayoutSoundness
import Mathlib.Data.Int.ModEq
import Mathlib.Tactic.Ring
import Mathlib.Tactic.Positivity

/-!
# Designators in initializers

`check_designators` follows a chain of designators into the type that is initialized, and
`convert_index` turns an index into an offset. Indices are held in 32 bits, and the bound is tested
on the product of the last index and the size of an element in bits.
-/

namespace Sparse

open StructLayout

/-- A type that is initialized, with the size of each symbol in bits; the size of an unsized array is
negative. A member has a name and an offset. -/
inductive InitType
  | scalar (bitSize : ℤ)
  | array (bitSize : ℤ) (element : InitType)
  | compound (bitSize : ℤ) (members : List (ℕ × ℕ × InitType))
  | node (bitSize : ℤ) (base : InitType)

namespace InitType

def bitSize : InitType → ℤ
  | scalar bitSize => bitSize
  | array bitSize _ => bitSize
  | compound bitSize _ => bitSize
  | node bitSize _ => bitSize

/-- A node stands for its base type. -/
def strip : InitType → InitType
  | node _ base => base
  | type => type

end InitType

/-- `find_struct_ident`. -/
def findStructIdent (members : List (ℕ × ℕ × InitType)) (ident : ℕ) : Option (ℕ × InitType) :=
  (members.find? (·.1 = ident)).map Prod.snd

/-- A chain of designators; `missing` is a null pointer. -/
inductive InitExpr
  | index (idxFrom idxTo : BitVec 32) (child : InitExpr)
  | identifier (ident : ℕ) (child : InitExpr)
  | pos (initOffset initNr : BitVec 32) (child : InitExpr)
  | missing
  | other
  deriving DecidableEq, Repr

/-- `index_expression`, for the values of the two constant expressions. -/
def indexExpression (idxFrom : ℤ) (idxTo : Option ℤ) (child : InitExpr) : InitExpr :=
  .index (.ofInt 32 idxFrom) (.ofInt 32 (idxTo.getD idxFrom)) child

inductive DesignatorError
  | notArray | outOfBounds | invalid | notStruct | unknownField | alreadyPosition
  deriving DecidableEq, Repr

def DesignatorError.text : DesignatorError → String
  | notArray => "array index in non-array initializer"
  | outOfBounds => "index out of bounds in initializer"
  | invalid => "invalid initializer"
  | notStruct => "field name not in struct or union initializer"
  | unknownField => "unknown field name in initializer"
  | alreadyPosition => "internal front-end error: EXPR_POS in initializer"

/-- The bound, tested where both sizes are known. -/
def indexOutOfBounds (arrayBits elementBits : ℤ) (idxTo : BitVec 32) : Bool :=
  0 ≤ arrayBits ∧ 0 ≤ elementBits ∧ .ofInt 32 arrayBits ≤ idxTo * .ofInt 32 elementBits

/-- `check_designators`. The result has the offset and the type that each designator gets; the
innermost designator stands last. -/
def checkDesignators : InitType → InitExpr → Except DesignatorError (List (ℕ × InitType))
  | ctype, .index _ idxTo child =>
    match ctype.strip with
    | .array arrayBits type =>
      if indexOutOfBounds arrayBits type.bitSize idxTo then .error .outOfBounds
      else if child = .missing then .error .invalid
      else ((0, type) :: ·) <$> checkDesignators type child
    | _ => .error .notArray
  | ctype, .identifier ident child =>
    match ctype.strip with
    | .compound _ members =>
      match findStructIdent members ident with
      | some (offset, type) =>
        if child = .missing then .error .invalid
        else ((offset, type) :: ·) <$> checkDesignators type child
      | none => .error .unknownField
    | _ => .error .notStruct
  | _, .pos _ _ _ => .error .alreadyPosition
  | _, _ => .ok []

/-- `convert_index`: the offset and the number of elements. -/
def convertIndex (idxFrom idxTo : BitVec 32) (type : InitType) : BitVec 32 × BitVec 32 :=
  (idxFrom * .ofInt 32 (bitsToBytes type.bitSize), idxTo + 1 - idxFrom)

/-- `convert_designators`, with what the designators got. -/
def convertDesignators : List (ℕ × InitType) → InitExpr → InitExpr
  | (_, type) :: assigned, .index idxFrom idxTo child =>
    .pos (convertIndex idxFrom idxTo type).1 (convertIndex idxFrom idxTo type).2
      (convertDesignators assigned child)
  | (offset, _) :: assigned, .identifier _ child =>
    .pos (.ofNat 32 offset) 1 (convertDesignators assigned child)
  | _, e => e

/-- The bytes of an element; one of `_Bool` has fewer bits. -/
def InitType.bytes (type : InitType) : ℤ := (type.bitSize + 7) / 8

/-- An array of `n` elements whose size and whose element's size are known. -/
structure ArrayOf (n : ℕ) (arrayBits : ℤ) (element : InitType) : Prop where
  size : arrayBits = toInt (n * element.bitSize)
  known : 0 ≤ arrayBits
  element : 0 ≤ element.bitSize

/-- The designator is in bounds, and what it is converted to lies inside the array. -/
structure Inside (n : ℕ) (element : InitType) (i j : ℤ) : Prop where
  nonneg : 0 ≤ i
  ordered : i ≤ j
  bound : j < n
  place : ((convertIndex (.ofInt 32 i) (.ofInt 32 j) element).1.toNat : ℤ) +
    (convertIndex (.ofInt 32 i) (.ofInt 32 j) element).2.toNat * element.bytes ≤ n * element.bytes

section

variable {n : ℕ} {arrayBits i j : ℤ} {element : InitType} {child : InitExpr}

/-- The bound is tested on a product of 32 bits. -/
theorem indexOutOfBounds_iff (h : ArrayOf n arrayBits element) :
    indexOutOfBounds arrayBits element.bitSize (.ofInt 32 j) = true ↔
      arrayBits ≤ (j % 2 ^ 32 * element.bitSize) % 2 ^ 32 := by
  have hlt : arrayBits < 2 ^ 31 := by
    rw [h.size, toInt]
    exact Int.bmod_lt (by decide)
  have harray : ((BitVec.ofInt 32 arrayBits).toNat : ℤ) = arrayBits := by
    rw [BitVec.toNat_ofInt]
    have := h.known
    omega
  have hproduct : ((BitVec.ofInt 32 j * BitVec.ofInt 32 element.bitSize).toNat : ℤ) =
      (j % 2 ^ 32 * element.bitSize) % 2 ^ 32 := by
    rw [BitVec.toNat_mul, BitVec.toNat_ofInt, BitVec.toNat_ofInt]
    push_cast
    rw [Int.toNat_of_nonneg (Int.emod_nonneg _ (by decide)),
      Int.toNat_of_nonneg (Int.emod_nonneg _ (by decide))]
    exact (Int.mod_modEq element.bitSize (2 ^ 32)).mul_left (j % 2 ^ 32)
  rw [indexOutOfBounds, decide_eq_true_iff, BitVec.le_def, ← Int.ofNat_le, harray, hproduct]
  simp only [h.known, h.element, true_and]

/-- An offset that wraps does not grow. -/
theorem convertIndex_le (hi : 0 ≤ i) (hij : i ≤ j) (helement : 0 ≤ element.bitSize) :
    ((convertIndex (.ofInt 32 i) (.ofInt 32 j) element).1.toNat : ℤ) ≤ i * element.bytes ∧
      ((convertIndex (.ofInt 32 i) (.ofInt 32 j) element).2.toNat : ℤ) ≤ j - i + 1 := by
  have hbytes : bitsToBytes element.bitSize = element.bitSize / 8 := if_pos helement
  constructor
  · rw [convertIndex, hbytes, ← BitVec.ofInt_mul, BitVec.toNat_ofInt]
    have hle : i * (element.bitSize / 8) ≤ i * element.bytes :=
      Int.mul_le_mul_of_nonneg_left (by rw [InitType.bytes]; omega) hi
    have hpos : 0 ≤ i * (element.bitSize / 8) := Int.mul_nonneg hi (by omega)
    omega
  · have hone : (1 : BitVec 32) = .ofInt 32 1 := rfl
    rw [convertIndex, hone, ← BitVec.ofInt_add, BitVec.toNat_sub, BitVec.toNat_ofInt, BitVec.toNat_ofInt]
    omega

/-- A designator in bounds is converted to a place inside the array. -/
theorem inside_of_bounds (h : ArrayOf n arrayBits element) (hi : 0 ≤ i) (hij : i ≤ j) (hj : j < n) :
    Inside n element i j := by
  obtain ⟨hoffset, hcount⟩ := convertIndex_le hi hij h.element
  refine ⟨hi, hij, hj, ?_⟩
  have hbytes : 0 ≤ element.bytes := by
    have := h.element
    rw [InitType.bytes]
    omega
  calc _ ≤ i * element.bytes + (j - i + 1) * element.bytes :=
        Int.add_le_add hoffset (Int.mul_le_mul_of_nonneg_right hcount hbytes)
    _ = (j + 1) * element.bytes := by ring
    _ ≤ n * element.bytes := Int.mul_le_mul_of_nonneg_right (by omega) hbytes

/-- Whether a chain that starts with an index is accepted in an array is decided by the bound and by
what follows. -/
theorem checkDesignators_array (arrayBits : ℤ) (element : InitType) (idxFrom idxTo : BitVec 32)
    (child : InitExpr) : (∃ assigned,
      checkDesignators (.array arrayBits element) (.index idxFrom idxTo child) = .ok assigned) ↔
      indexOutOfBounds arrayBits element.bitSize idxTo = false ∧ child ≠ .missing ∧
        ∃ assigned, checkDesignators element child = .ok assigned := by
  simp only [checkDesignators, InitType.strip]
  split
  · simp_all
  · split
    · simp_all
    · cases checkDesignators element child <;> simp_all [Functor.map, Except.map]

/-- An accepted designator is in bounds, and is converted to a place inside the array, exactly if it
is in bounds or the product of its last index and the size of an element in bits, both taken modulo
2^32, is not below the size of the array. -/
theorem checkDesignators_inside_iff (h : ArrayOf n arrayBits element) (idxFrom : ℤ) (idxTo : Option ℤ) :
    (∀ child assigned, checkDesignators (.array arrayBits element)
        (indexExpression idxFrom idxTo child) = .ok assigned →
      Inside n element idxFrom (idxTo.getD idxFrom)) ↔
      (0 ≤ idxFrom ∧ idxFrom ≤ idxTo.getD idxFrom ∧ idxTo.getD idxFrom < n) ∨
        arrayBits ≤ (idxTo.getD idxFrom % 2 ^ 32 * element.bitSize) % 2 ^ 32 := by
  rw [← indexOutOfBounds_iff h]
  constructor
  · intro hall
    by_contra hnot
    rw [not_or, Bool.not_eq_true] at hnot
    obtain ⟨assigned, hok⟩ := (checkDesignators_array arrayBits element (.ofInt 32 idxFrom)
      (.ofInt 32 (idxTo.getD idxFrom)) .other).mpr ⟨hnot.2, by simp, [], by simp [checkDesignators]⟩
    have hinside := hall .other assigned hok
    exact hnot.1 ⟨hinside.nonneg, hinside.ordered, hinside.bound⟩
  · rintro (⟨hi, hij, hj⟩ | hout) child assigned hok
    · exact inside_of_bounds h hi hij hj
    · have hin := ((checkDesignators_array _ _ _ _ _).mp ⟨assigned, hok⟩).1
      rw [hout] at hin
      cases hin

end

/-- `int a[10] = { [2 ... 3] = 1 };` -/
theorem checkDesignators_inside_range : Inside 10 (.scalar 32) 2 3 := by
  have h : ArrayOf 10 320 (.scalar 32) := ⟨by decide, by decide, by decide⟩
  exact (checkDesignators_inside_iff h 2 (some 3)).mpr (Or.inl (by decide)) .other [(0, .scalar 32)] rfl

/-- `int a[10] = { [134217728] = 1 };` is accepted, with an offset of half a gigabyte. -/
theorem checkDesignators_wraps :
    checkDesignators (.array 320 (.scalar 32)) (indexExpression 134217728 none .other) =
        .ok [(0, .scalar 32)] ∧
      convertIndex (.ofInt 32 134217728) (.ofInt 32 134217728) (.scalar 32) = (536870912, 1) ∧
      ¬ Inside 10 (.scalar 32) 134217728 134217728 := by
  refine ⟨rfl, by decide, fun h => ?_⟩
  exact absurd h.bound (by decide)

end Sparse
