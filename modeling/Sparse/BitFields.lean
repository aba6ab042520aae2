import Sparse.CompoundAssignment

/-!
# Bit-field accesses

A bit-field as `linearize.c` loads and stores it: the word of the storage unit,
a shift to the field and a mask on the way back. A read is not masked; that is
left to the cast that a conversion inserts. An instruction on constants has the
value that `simplify.c` gives it, one on registers that of `example.c`, which
compares and extends the low bits of its size.
-/

namespace Sparse
open MaskedWords

/-- A bit-field in a storage unit of `unit` bits. -/
structure BitField where
  unit : ℕ
  offset : ℕ
  width : ℕ
  signed : Bool
  width_pos : 0 < width
  fits : offset + width ≤ unit
  unit_le : unit ≤ 64

/-- `1 << n` on `int`, read as a `long long`. -/
def hostIntShl (n : ℕ) : Option (BitVec 64) :=
  if n < 31 then some (BitVec.twoPow 64 n)
  else if n = 31 then some (BitVec.ofInt 64 (-2 ^ 31))
  else none

/-- `get_cast_value`. -/
def getCastValue (val : BitVec 64) (oldSize newSize : ℕ) (sign : Bool) : Option (BitVec 64) := do
  let val ← if sign ∧ oldSize < newSize then do
      let mask ← hostIntShl (oldSize - 1)
      pure (if val &&& mask ≠ 0#64 then val ||| ~~~(mask ||| (mask - 1#64)) else val)
    else pure val
  let mask ← hostIntShl (newSize - 1)
  pure (val &&& (mask ||| (mask - 1#64)))

/-- `generate_cast` to a wider type: the low bits are extended. -/
def generateCast (old : IntType) (newSize : ℕ) (val : BitVec 64) : BitVec 64 :=
  extendIfSigned old (val &&& lowMask old.bitSize) &&& lowMask newSize

namespace BitField

theorem unit_pos (f : BitField) : 0 < f.unit :=
  Nat.lt_of_lt_of_le (Nat.lt_of_lt_of_le f.width_pos (Nat.le_add_left _ _)) f.fits

theorem width_le (f : BitField) : f.width ≤ 64 :=
  Nat.le_trans (Nat.le_trans (Nat.le_add_left _ _) f.fits) f.unit_le

/-- The type of the field. -/
def intType (f : BitField) : IntType :=
  ⟨f.width, !f.signed, f.width_pos, f.width_le⟩

/-- `linearize_load_gen`, on the word that `add_load` loads. -/
def linearizeLoadGen (f : BitField) (orig : BitVec 64) : Option (BitVec 64) :=
  if f.offset ≠ 0 then simplifyConstantBinop .lsr f.unit orig (BitVec.ofNat 64 f.offset)
  else some orig

/-- `linearize_store_gen`: the word that `add_store` leaves in the unit. -/
def linearizeStoreGen (f : BitField) (orig value : BitVec 64) : Option (BitVec 64) := do
  let store ← if f.unit ≠ f.width then do
      let mask := BitVec.twoPow 64 f.width - 1#64
      let store ← if f.offset ≠ 0 then
          simplifyConstantBinop .shl f.unit value (BitVec.ofNat 64 f.offset)
        else pure value
      let orig ← simplifyConstantBinop .andLin f.unit orig (~~~(mask <<< f.offset))
      simplifyConstantBinop .orLin f.unit orig store
    else pure value
  pure (store &&& lowMask f.unit)

/-- The value of the field in the unit. -/
def value (f : BitField) (orig : BitVec 64) : ℤ :=
  f.intType.value ((orig >>> f.offset) &&& lowMask f.width)

/-- A store puts the low bits of a word in the field and changes no other bit. -/
def Stored (f : BitField) (orig value new : BitVec 64) : Prop :=
  Canonical f.unit new ∧ ∀ i, i < f.unit →
    new.getLsbD i = if f.offset ≤ i ∧ i < f.offset + f.width then value.getLsbD (i - f.offset)
      else orig.getLsbD i

end BitField

end Sparse
