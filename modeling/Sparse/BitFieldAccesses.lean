import Sparse.BitFields
import Sparse.CompoundAssignmentValues

/-!
# When a bit-field access is right

A read delivers the bits above the field along with it, and a store takes the bits
above the width of its value into the unit. Each access is right for the contents
of the unit on which these bits do no harm.
-/

namespace Sparse
open MaskedWords

section

variable {w : ℕ} {x : BitVec 64} {i : ℕ}

theorem extendOperand_getLsbD (hw : 0 < w) (h64 : w ≤ 64) (hi : i < w) (x : BitVec 64) :
    (extendOperand w x).getLsbD i = x.getLsbD i := by
  rw [extendOperand]
  split
  · rw [BitVec.getLsbD_or, BitVec.getLsbD_not, lowMask_getLsbD hw h64]
    simp [hi]
  · rfl

/-- The extension, above the size. -/
theorem extendOperand_getLsbD_high (hw : 0 < w) (h64 : w ≤ 64) (hi : w ≤ i) (hi' : i < 64)
    (x : BitVec 64) :
    (extendOperand w x).getLsbD i = (x.getLsbD i || x.getLsbD (w - 1)) := by
  rw [extendOperand]
  split
  · rename_i hsign
    rw [and_signBit_ne_zero hw h64] at hsign
    rw [BitVec.getLsbD_or, BitVec.getLsbD_not, lowMask_getLsbD hw h64]
    simp [hi', hsign, Nat.not_lt.2 hi]
  · rename_i hsign
    rw [and_signBit_ne_zero hw h64, Bool.not_eq_true] at hsign
    rw [hsign, Bool.or_false]

theorem and_lowMask_getLsbD (hw : 0 < w) (h64 : w ≤ 64) (x : BitVec 64) (i : ℕ) :
    (x &&& lowMask w).getLsbD i = (decide (i < w) && x.getLsbD i) := by
  rw [BitVec.getLsbD_and, lowMask_getLsbD hw h64, Bool.and_comm]

theorem twoPow_sub_one_getLsbD (h64 : w < 64) (i : ℕ) :
    (BitVec.twoPow 64 w - 1#64).getLsbD i = decide (i < w) := by
  have hbelow := belowSign_toNat (Nat.succ_pos w) h64
  rw [signBit_eq, Nat.succ_sub_one] at hbelow
  rw [BitVec.getLsbD, hbelow, Nat.testBit_two_pow_sub_one]

theorem getLsbD_of_canonical (hx : Canonical w x) (hi : w ≤ i) : x.getLsbD i = false :=
  Nat.testBit_lt_two_pow (Nat.lt_of_lt_of_le hx (Nat.pow_le_pow_right (by omega) hi))

end

/-- The low bits of a value are those of its word. -/
theorem ofInt_value {c : IntType} (x : BitVec 64) :
    BitVec.ofInt 64 (c.value x) = extendIfSigned c x := by
  rw [IntType.value, extendIfSigned]
  split
  · rw [BitVec.ofInt_natCast, BitVec.ofNat_toNat, BitVec.setWidth_eq]
  · rw [BitVec.ofInt_toInt]

namespace BitField

variable {f : BitField} {orig value : BitVec 64}

def unitType (f : BitField) : IntType :=
  ⟨f.unit, true, f.unit_pos, f.unit_le⟩

theorem offset_lt (f : BitField) : f.offset < f.unit := by
  have := f.width_pos
  have := f.fits
  omega

theorem offset_toNat (f : BitField) : (BitVec.ofNat 64 f.offset).toNat = f.offset := by
  have := f.offset_lt
  have := f.unit_le
  rw [BitVec.toNat_ofNat, Nat.mod_eq_of_lt (by omega)]

theorem extendOperand_offset (f : BitField) :
    extendOperand f.unit (BitVec.ofNat 64 f.offset) = BitVec.ofNat 64 f.offset :=
  @extendOperand_of_lt_size f.unitType _ (by rw [offset_toNat]; exact f.offset_lt)

/-- A read is shifted, and not masked. -/
theorem linearizeLoadGen_eq (horig : Canonical f.unit orig) :
    f.linearizeLoadGen orig = some (orig >>> f.offset) := by
  rw [linearizeLoadGen]
  split
  · have hul := @extendOperand_and_lowMask f.unitType _ horig
    have hur := and_lowMask_eq f.unit_pos f.unit_le
      (@canonical_of_lt_size f.unitType (BitVec.ofNat 64 f.offset)
        (by rw [offset_toNat]; exact f.offset_lt))
    have h64 : f.offset < 64 := Nat.lt_of_lt_of_le f.offset_lt f.unit_le
    have hshift : Canonical f.unit (orig >>> f.offset) := by
      rw [Canonical, BitVec.toNat_ushiftRight]
      exact Nat.lt_of_le_of_lt (Nat.shiftRight_le _ _) horig
    change extendOperand f.unit orig &&& lowMask f.unit = orig at hul
    simp only [simplifyConstantBinop, extendOperand_offset, hul, hur, hostLsr, offset_toNat, h64,
      if_true, Option.map_some, and_lowMask_eq f.unit_pos f.unit_le hshift]
  · rename_i hzero
    rw [ne_eq, Decidable.not_not] at hzero
    rw [hzero, BitVec.ushiftRight_zero]

/-- The value in its place in the unit. -/
theorem shift_value (f : BitField) (value : BitVec 64) :
    ∃ store, (if f.offset ≠ 0 then
        simplifyConstantBinop .shl f.unit value (BitVec.ofNat 64 f.offset)
      else some value) = some store ∧ ∀ i, i < f.unit →
        store.getLsbD i = (decide (f.offset ≤ i) && value.getLsbD (i - f.offset)) := by
  split
  · have h64 : f.offset < 64 := Nat.lt_of_lt_of_le f.offset_lt f.unit_le
    refine ⟨extendOperand f.unit value <<< f.offset &&& lowMask f.unit, ?_, fun i hi => ?_⟩
    · simp only [simplifyConstantBinop, extendOperand_offset, hostShl, offset_toNat, h64, if_true,
        Option.map_some]
    · have hi64 : i < 64 := Nat.lt_of_lt_of_le hi f.unit_le
      rw [and_lowMask_getLsbD f.unit_pos f.unit_le, BitVec.getLsbD_shiftLeft]
      by_cases hle : f.offset ≤ i
      · rw [extendOperand_getLsbD f.unit_pos f.unit_le (by omega)]
        simp [hi, hi64, hle]
      · simp [hi, hi64, hle, Nat.not_le.1 hle]
  · rename_i hzero
    rw [ne_eq, Decidable.not_not] at hzero
    exact ⟨value, rfl, fun i _ => by simp [hzero]⟩

theorem mask_getLsbD (f : BitField) (hne : f.unit ≠ f.width) {i : ℕ} (hi : i < 64) :
    ((BitVec.twoPow 64 f.width - 1#64) <<< f.offset).getLsbD i =
      decide (f.offset ≤ i ∧ i < f.offset + f.width) := by
  have hfits := f.fits
  have hunit := f.unit_le
  rw [BitVec.getLsbD_shiftLeft, twoPow_sub_one_getLsbD (by omega)]
  by_cases hle : f.offset ≤ i
  · simp only [hi, decide_true, Bool.true_and, Nat.not_lt.2 hle, decide_false, Bool.not_false]
    exact decide_eq_decide.2 (by omega)
  · simp [hle, Nat.not_le.1 hle]

/-- The bits that a store leaves in the unit. -/
theorem linearizeStoreGen_eq (f : BitField) (orig value : BitVec 64) :
    ∃ new, f.linearizeStoreGen orig value = some new ∧ Canonical f.unit new ∧
      ∀ i, i < f.unit → new.getLsbD i =
        ((decide (f.offset ≤ i) && value.getLsbD (i - f.offset)) ||
          (!decide (f.offset ≤ i ∧ i < f.offset + f.width) && orig.getLsbD i)) := by
  have hpos := f.unit_pos
  have hle := f.unit_le
  by_cases hne : f.unit = f.width
  · refine ⟨value &&& lowMask f.unit, ?_, canonical_and_lowMask hpos hle _, fun i hi => ?_⟩
    · simp only [linearizeStoreGen, hne, ne_eq, not_true_eq_false, if_false]
      rfl
    · have hfits := f.fits
      have hzero : f.offset = 0 := by omega
      rw [and_lowMask_getLsbD hpos hle]
      simp [hzero, hi, hne ▸ hi]
  · obtain ⟨store, hstore, hbits⟩ := f.shift_value value
    refine ⟨(extendOperand f.unit ((extendOperand f.unit orig &&&
        extendOperand f.unit (~~~((BitVec.twoPow 64 f.width - 1#64) <<< f.offset))) &&&
          lowMask f.unit) ||| extendOperand f.unit store) &&& lowMask f.unit &&& lowMask f.unit,
      ?_, canonical_and_lowMask hpos hle _, fun i hi => ?_⟩
    · rw [linearizeStoreGen, if_pos hne]
      split at hstore
      · rename_i hoff
        simp only [if_pos hoff, hstore, pure, Option.bind_eq_bind, Option.bind_some]
        rfl
      · rename_i hoff
        obtain rfl := Option.some.inj hstore
        simp only [if_neg hoff, pure, Option.bind_eq_bind, Option.bind_some]
        rfl
    · have hi64 : i < 64 := Nat.lt_of_lt_of_le hi hle
      rw [and_lowMask_getLsbD hpos hle, and_lowMask_getLsbD hpos hle, BitVec.getLsbD_or,
        extendOperand_getLsbD hpos hle hi, extendOperand_getLsbD hpos hle hi,
        and_lowMask_getLsbD hpos hle, BitVec.getLsbD_and, extendOperand_getLsbD hpos hle hi,
        extendOperand_getLsbD hpos hle hi, BitVec.getLsbD_not, f.mask_getLsbD hne hi64, hbits i hi]
      simp only [hi, hi64, decide_true, Bool.true_and]
      rw [Bool.or_comm, Bool.and_comm (orig.getLsbD i)]

/-! ## The field alone -/

/-- The word of the field, alone. -/
def field (f : BitField) (orig : BitVec 64) : BitVec 64 :=
  (orig >>> f.offset) &&& lowMask f.width

theorem canonical_field (f : BitField) (orig : BitVec 64) : Canonical f.width (f.field orig) :=
  canonical_and_lowMask f.width_pos f.width_le _

theorem value_eq_zero_iff (f : BitField) (orig : BitVec 64) :
    f.value orig = 0 ↔ f.field orig = 0#64 :=
  IntType.value_eq_zero_iff (c := f.intType) (f.canonical_field orig)

theorem shifted_getLsbD (orig : BitVec 64) (n i : ℕ) :
    (orig >>> n).getLsbD i = orig.getLsbD (n + i) :=
  BitVec.getLsbD_ushiftRight ..

/-- The value of the field, as a word of 64 bits: its sign above the width. -/
theorem ofInt_value_getLsbD (f : BitField) (orig : BitVec 64) {i : ℕ} (hi : i < 64) :
    (BitVec.ofInt 64 (f.value orig)).getLsbD i =
      if i < f.width then orig.getLsbD (f.offset + i)
      else f.signed && orig.getLsbD (f.offset + f.width - 1) := by
  have hpos := f.width_pos
  have hfield : ∀ j, (f.field orig).getLsbD j =
      (decide (j < f.width) && orig.getLsbD (f.offset + j)) := fun j => by
    rw [field, and_lowMask_getLsbD hpos f.width_le, shifted_getLsbD]
  rw [show f.value orig = f.intType.value (f.field orig) from rfl, ofInt_value, extendIfSigned]
  have hlast : f.offset + (f.width - 1) = f.offset + f.width - 1 := by omega
  cases hs : f.signed with
  | true =>
    have hu : f.intType.unsigned = false := by simp [intType, hs]
    rw [hu, if_neg Bool.false_ne_true]
    change (signExtended f.width _).getLsbD i = _
    rw [signExtended_getLsbD hpos f.width_le (f.canonical_field orig), hfield, hfield, hlast]
    split_ifs with hlt
    · simp [hi, hlt]
    · simp [hi, hpos]
  | false =>
    have hu : f.intType.unsigned = true := by simp [intType, hs]
    rw [hu, if_pos rfl, hfield]
    split_ifs with hlt
    · simp [hlt]
    · simp [hlt]

theorem extendOperand_setWidth (f : BitField) (x : BitVec 64) :
    (extendOperand f.width x).setWidth f.width = x.setWidth f.width := by
  refine BitVec.eq_of_getLsbD_eq fun i hi => ?_
  rw [BitVec.getLsbD_setWidth, BitVec.getLsbD_setWidth,
    extendOperand_getLsbD f.width_pos f.width_le hi]

theorem value_setWidth (f : BitField) (orig : BitVec 64) :
    BitVec.ofInt f.width (f.value orig) = (orig >>> f.offset).setWidth f.width := by
  refine BitVec.eq_of_getLsbD_eq fun i hi => ?_
  have hle := f.width_le
  rw [← ofInt_setWidth hle, BitVec.getLsbD_setWidth, BitVec.getLsbD_setWidth,
    f.ofInt_value_getLsbD orig (by omega), if_pos hi, shifted_getLsbD]

/-! ## Stores -/

/-- Every bit of the word above the width that falls inside the unit is already set there. -/
def Harmless (f : BitField) (orig word : BitVec 64) : Prop :=
  ∀ i, f.offset + f.width ≤ i → i < f.unit → word.getLsbD (i - f.offset) = true → orig.getLsbD i = true

/-- A store of a word puts a value into the field if the word has its low bits and does no harm. -/
theorem stored_iff (f : BitField) (orig word value : BitVec 64) :
    (∃ new, f.linearizeStoreGen orig word = some new ∧ f.Stored orig value new) ↔
      word.setWidth f.width = value.setWidth f.width ∧ f.Harmless orig word := by
  obtain ⟨new, hnew, hcan, hbits⟩ := f.linearizeStoreGen_eq orig word
  have hfits := f.fits
  rw [hnew]
  constructor
  · rintro ⟨new', hsome, -, hstored⟩
    obtain rfl := Option.some.inj hsome
    refine ⟨BitVec.eq_of_getLsbD_eq fun i hi => ?_, fun i hi hunit hword => ?_⟩
    · have hbit := hbits (f.offset + i) (by omega)
      rw [hstored (f.offset + i) (by omega), if_pos (by omega), Nat.add_sub_cancel_left] at hbit
      simp only [BitVec.getLsbD_setWidth, hi, decide_true, Bool.true_and, hbit]
      simp [hi]
    · have hbit := hbits i hunit
      rw [hstored i hunit, if_neg (by omega), hword] at hbit
      rw [hbit]
      simp [show f.offset ≤ i by omega]
  · rintro ⟨hlow, hharmless⟩
    refine ⟨new, rfl, hcan, fun i hi => ?_⟩
    rw [hbits i hi]
    by_cases hin : f.offset ≤ i ∧ i < f.offset + f.width
    · have hbit := congrArg (fun x => BitVec.getLsbD x (i - f.offset)) hlow
      simp only [BitVec.getLsbD_setWidth, show i - f.offset < f.width by omega, decide_true, Bool.true_and] at hbit
      simp [hin, hbit]
    · rw [if_neg hin]
      by_cases hle : f.offset ≤ i
      · have habove := hharmless i (by omega) hi
        cases hv : word.getLsbD (i - f.offset) with
        | true => simp [hle, habove hv]
        | false => simp [hin]
      · simp [hle]

theorem stored_ofInt_iff (f : BitField) (orig word : BitVec 64) (z : ℤ) :
    (∃ new, f.linearizeStoreGen orig word = some new ∧ f.Stored orig (BitVec.ofInt 64 z) new) ↔
      word.setWidth f.width = BitVec.ofInt f.width z ∧ f.Harmless orig word := by
  rw [stored_iff, ofInt_setWidth f.width_le]

/-- A word of the width does no harm. -/
theorem harmless_of_canonical (orig : BitVec 64) {word : BitVec 64} (hword : Canonical f.width word) :
    f.Harmless orig word := by
  intro i hi _ hbit
  rw [getLsbD_of_canonical hword (by omega)] at hbit
  exact absurd hbit Bool.false_ne_true

end BitField

end Sparse
