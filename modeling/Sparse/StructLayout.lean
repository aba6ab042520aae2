import Sparse.SequentialPlacement
import Mathlib.Algebra.Group.Int.Defs

/-!
# The layout of structs and unions

The members of a struct or union with what `examine_symbol_type` has found for their
types, and the places that `lay_out_struct` and `lay_out_union` give them. Beside it the
same layout with numbers that do not wrap.
-/

namespace Sparse.StructLayout

open SequentialPlacement

/-- `bits_in_char`. -/
def bitsInChar : ℕ := 8

/-- A value as an `int`. -/
def toInt (x : ℤ) : ℤ :=
  x.bmod (2 ^ 32)

/-- A value as an `unsigned long`. -/
def toUlong (x : ℤ) : ℕ :=
  (x % 2 ^ 64).toNat

def bitsToBytes (bits : ℤ) : ℤ :=
  if 0 ≤ bits then bits / bitsInChar else -1

def bytesToBits (bytes : ℤ) : ℤ :=
  toInt (bytes * bitsInChar)

/-- A member. For a bit-field, whose width is `bit_size`, there is the size of the base type. -/
structure Member where
  ident : Bool
  bitSize : ℤ
  alignment : ℕ
  base : Option ℤ
  deriving DecidableEq, Repr

def Member.isBitfield (sym : Member) : Bool :=
  sym.base.isSome

/-- What the layout writes to a member; the bit offset has eight bits. -/
structure Place where
  offset : ℕ
  bitOffset : ℕ
  deriving DecidableEq, Repr

/-- `struct struct_union_info`. -/
structure Info where
  maxAlign : ℕ
  bitSize : ℕ
  alignSize : Bool
  deriving DecidableEq, Repr

/-- Unnamed bit-fields do not affect the alignment. -/
def raiseAlign (maxAlign : ℕ) (sym : Member) : ℕ :=
  if (sym.ident || !sym.isBitfield) && sym.alignment > maxAlign then sym.alignment else maxAlign

/-- The mask of the bits below the alignment. -/
def alignBitMask (alignment : ℕ) : ℕ :=
  toUlong (bytesToBits (toInt alignment) - 1)

/-- `(bits + mask) & ~mask`. -/
def alignBits (bits mask : ℕ) : ℕ :=
  toUlong (bits + mask) &&& (2 ^ 64 - 1 - mask)

/-- `lay_out_union`. -/
def layOutUnion (info : Info) (sym : Member) : Place × Info :=
  (⟨0, 0⟩,
    { info with
      maxAlign := raiseAlign info.maxAlign sym
      bitSize := if toUlong sym.bitSize > info.bitSize then toUlong sym.bitSize else info.bitSize })

/-- `lay_out_struct`. -/
def layOutStruct (info : Info) (sym : Member) : Place × Info :=
  let maxAlign := raiseAlign info.maxAlign sym
  let alignSize := if sym.bitSize < 0 then false else info.alignSize
  let baseSize := if sym.bitSize < 0 then 0 else sym.bitSize
  let mask := alignBitMask sym.alignment
  match sym.base with
  | some base =>
    let bitOffset := info.bitSize &&& mask
    let room := toInt (toUlong (base - bitOffset))
    let width := if baseSize ≠ 0 then baseSize else if bitOffset ≠ 0 then room else 0
    let (bitSize, bitOffset) := if width > room then (alignBits info.bitSize mask, 0) else (info.bitSize, bitOffset)
    (⟨toUlong (bitsToBytes (toInt (toUlong (bitSize - bitOffset)))), bitOffset % 2 ^ 8⟩,
      ⟨maxAlign, toUlong (bitSize + width), alignSize⟩)
  | none =>
    let bitSize := alignBits info.bitSize mask
    (⟨toUlong (bitsToBytes (toInt bitSize)), 0⟩, ⟨maxAlign, toUlong (bitSize + baseSize), alignSize⟩)

/-- A loop over the members. -/
def layOut (fn : Info → Member → Place × Info) : Info → List Member → List (Member × Place) × Info
  | info, [] => ([], info)
  | info, sym :: members =>
    let (place, info) := fn info sym
    let (places, info) := layOut fn info members
    ((sym, place) :: places, info)

@[simp] theorem layOut_cons (fn : Info → Member → Place × Info) (info : Info) (sym : Member)
    (members : List Member) :
    layOut fn info (sym :: members) =
      ((sym, (fn info sym).1) :: (layOut fn (fn info sym).2 members).1,
        (layOut fn (fn info sym).2 members).2) := rfl

/-- A struct or union with its members in their places. -/
structure Layout where
  members : List (Member × Place)
  alignment : ℕ
  bitSize : ℤ
  deriving DecidableEq, Repr

/-- `examine_struct_union_type`; an alignment of zero is one that no attribute has set. -/
def examineStructUnionType (alignment : ℕ) (members : List Member) (advance : Bool) : Layout :=
  let (places, info) := layOut (if advance then layOutStruct else layOutUnion) ⟨1, 0, true⟩ members
  let alignment := if alignment = 0 then info.maxAlign else alignment
  let bitSize := if info.alignSize then alignBits info.bitSize (alignBitMask alignment) else info.bitSize
  ⟨places, alignment, toInt bitSize⟩

theorem examineStructUnionType_eq (alignment : ℕ) (members : List Member) (advance : Bool) :
    examineStructUnionType alignment members advance =
      (fun r : List (Member × Place) × Info =>
        ⟨r.1, if alignment = 0 then r.2.maxAlign else alignment,
          toInt (if r.2.alignSize = true then
            alignBits r.2.bitSize (alignBitMask (if alignment = 0 then r.2.maxAlign else alignment))
            else r.2.bitSize : ℕ)⟩)
        (layOut (if advance then layOutStruct else layOutUnion) ⟨1, 0, true⟩ members) := by
  rw [examineStructUnionType]

/-! ## The layout without bounds -/

namespace Member

def size (sym : Member) : ℕ :=
  sym.bitSize.toNat

/-- The alignment in bits. -/
def align (sym : Member) : ℕ :=
  sym.alignment * bitsInChar

end Member

/-- A bit-field stays in its unit where it fits; one of no width fills the unit up. -/
def structRule : Rule Member where
  start p sym :=
    match sym.base with
    | some base => if p % sym.align + sym.size ≤ base.toNat then p else roundUp p sym.align
    | none => roundUp p sym.align
  next p sym :=
    match sym.base with
    | some base =>
      if sym.size = 0 then if p % sym.align = 0 then p else p - p % sym.align + base.toNat
      else (if p % sym.align + sym.size ≤ base.toNat then p else roundUp p sym.align) + sym.size
    | none => roundUp p sym.align + sym.size

/-- The alignment of the whole. -/
def totalAlignment (alignment : ℕ) (members : List Member) : ℕ :=
  if alignment = 0 then members.foldl raiseAlign 1 else alignment

def structBits (alignment : ℕ) (members : List Member) : ℕ :=
  roundUp (structRule.final 0 members) (totalAlignment alignment members * bitsInChar)

def unionBits (alignment : ℕ) (members : List Member) : ℕ :=
  roundUp (members.foldl (fun bits sym => max bits sym.size) 0) (totalAlignment alignment members * bitsInChar)

end Sparse.StructLayout
