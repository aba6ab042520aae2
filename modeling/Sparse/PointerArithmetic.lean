import Sparse.CompoundAssignmentValues
import Sparse.StructLayoutSoundness
import Mathlib.Data.Int.ModEq
import Mathlib.Tactic.Ring

/-!
# Adding an index to a pointer

`evaluate_ptr_add` scales the index by the size of what the pointer points to. A constant index it
extends and multiplies itself; another index is cast to `ssize_t` and multiplied when the program
runs. The constant is extended from its top bit, whether its type is signed or not, and a size that
is not a positive number of bytes is multiplied on the constant path only.
-/

namespace Sparse.PointerArithmetic

open MaskedWords StructLayout IntType

/-- What the pointer points to, as far as it is examined. -/
inductive Pointee
  | missing
  | function
  | object (bitSize : ℤ) (isVoid : Bool)
  deriving DecidableEq, Repr

/-- The right operand that is left: the index itself, a constant of type `ssize_t`, or the index after
a cast to `ssize_t` and a multiplication, where these are made. -/
inductive Displacement
  | index
  | value (val : BitVec 64)
  | scaled (cast : Bool) (multiply : Option ℤ)
  deriving DecidableEq, Repr

variable (t : Target)

/-- `ssize_t_ctype`; pointers have its size. -/
def ssizeT : IntType :=
  (Ctype.integer (if t.m64 then .long else .int) .signed).intType t

/-- `multiply`: the size of whatever the pointer points to. -/
def multiply (bitSize : ℤ) (isVoid : Bool) : ℤ :=
  if isVoid then 1 else bitsToBytes bitSize

/-- The constant index, extended by hand and scaled. -/
def scaledValue (itype : IntType) (m : ℤ) (v : BitVec 64) : BitVec 64 :=
  let mask := signBit itype.bitSize
  let v := if v &&& mask ≠ 0#64 then v ||| -mask else v &&& (mask - 1#64)
  v * .ofInt 64 m &&& lowMask (ssizeT t).bitSize

/-- `evaluate_ptr_add`, with the value of an index that is `EXPR_VALUE`. -/
def evaluatePtrAdd (itype : IntType) (index : Option (BitVec 64)) :
    Pointee → Except String Displacement
  | .missing => .error "missing type information"
  | .function => .error "arithmetics on pointers to functions"
  | .object bitSize isVoid =>
    let m := multiply bitSize isVoid
    if m = 1 ∧ (ssizeT t).bitSize ≤ itype.bitSize then .ok .index
    else
      match index with
      | some v => .ok (.value (scaledValue t itype m v))
      | none => .ok (.scaled (itype.bitSize < (ssizeT t).bitSize) (if 1 < m then some m else none))

/-- What is added to the pointer when the program runs and the index is a word of its type: the word
that a constant holds, and the words of the cast and of the multiplication. -/
def Displacement.run (itype : IntType) (word : BitVec 64) : Displacement → BitVec 64
  | index => word
  | value val => val
  | scaled cast m =>
    let word := if cast then extendIfSigned itype word &&& lowMask (ssizeT t).bitSize else word
    match m with
    | some m => word * .ofInt 64 m &&& lowMask (ssizeT t).bitSize
    | none => word

/-- The type with the sign that the constant path gives it. -/
def readSigned (itype : IntType) : IntType := { itype with unsigned := false }

/-- The multiplier that the general path uses. -/
def stride (m : ℤ) : ℤ := if 1 < m then m else 1

/-- Where both paths scale by `size`. The stride is the size, as far as the index shows it. An unsigned
index that is narrower than a pointer does not use its top bit, unless the multiplier has a pointer's
other bits; and where the multiplier is not positive, the index shows nothing of it. -/
structure Scales (itype : IntType) (m size i : ℤ) : Prop where
  whole : i * stride m ≡ i * size [ZMOD 2 ^ (ssizeT t).bitSize]
  top : 0 < m → itype.unsigned = true → itype.bitSize < (ssizeT t).bitSize →
    2 ^ (itype.bitSize - 1) ≤ i → 2 ^ ((ssizeT t).bitSize - itype.bitSize) ∣ m
  rest : m ≤ 0 → (readSigned itype).wrap i * m ≡ i [ZMOD 2 ^ (ssizeT t).bitSize]

variable {t} {itype : IntType} {m size i : ℤ} {v : BitVec 64}

/-- The extension by hand reads the index as signed. -/
theorem extended_toInt (itype : IntType) (v : BitVec 64) :
    (if v &&& signBit itype.bitSize ≠ 0#64 then v ||| -signBit itype.bitSize
      else v &&& (signBit itype.bitSize - 1#64)).toInt = (readSigned itype).wrap v.toNat := by
  have hw := itype.bitSize_pos
  have h64 := itype.bitSize_le
  have hbelow : ∀ i, (signBit itype.bitSize - 1#64).getLsbD i = decide (i < itype.bitSize - 1) := fun i => by
    rw [BitVec.getLsbD, belowSign_toNat hw h64, Nat.testBit_two_pow_sub_one]
  have hneg : -signBit itype.bitSize = ~~~(signBit itype.bitSize - 1#64) := by bv_omega
  have hwidth : (if v &&& signBit itype.bitSize ≠ 0#64 then v ||| -signBit itype.bitSize
      else v &&& (signBit itype.bitSize - 1#64)) = (v.setWidth itype.bitSize).signExtend 64 := by
    refine BitVec.eq_of_getLsbD_eq fun i hi => ?_
    rw [BitVec.getLsbD_signExtend, BitVec.getLsbD_setWidth, BitVec.msb_setWidth, hneg]
    have htop := and_signBit_ne_zero (x := v) hw h64
    split
    · rename_i hset
      have hset := htop.mp hset
      rw [BitVec.getLsbD_or, BitVec.getLsbD_not, hbelow]
      by_cases hlow : i < itype.bitSize
      · by_cases hsign : i < itype.bitSize - 1
        · simp [hlow, hsign, hi]
        · obtain rfl : i = itype.bitSize - 1 := by omega
          simp [hset, hw, hi]
      · have hsign : ¬ i < itype.bitSize - 1 := by omega
        simp [hlow, hsign, hi, hset, hw]
    · rename_i hclear
      have hclear := Bool.eq_false_of_not_eq_true (fun h => hclear (htop.mpr h))
      rw [BitVec.getLsbD_and, hbelow]
      by_cases hlow : i < itype.bitSize
      · by_cases hsign : i < itype.bitSize - 1
        · simp [hlow, hsign, hi]
        · obtain rfl : i = itype.bitSize - 1 := by omega
          rw [hclear]
          simp [hw]
      · have hsign : ¬ i < itype.bitSize - 1 := by omega
        simp [hlow, hsign, hi, hclear, hw]
  rw [hwidth, BitVec.toInt_signExtend_of_le h64, BitVec.toInt_eq_toNat_bmod, BitVec.toNat_setWidth, wrap,
    Int.natCast_emod]
  exact Int.emod_bmod v.toNat (2 ^ itype.bitSize)

/-- The constant path. -/
theorem scaledValue_eq (hv : (v.toNat : ℤ) % 2 ^ itype.bitSize = i % 2 ^ itype.bitSize) (m : ℤ) :
    scaledValue t itype m v = (ssizeT t).word ((readSigned itype).wrap i * m) := by
  have hwrap : (readSigned itype).wrap v.toNat = (readSigned itype).wrap i := wrap_eq_of_emod hv
  rw [scaledValue, word, ← hwrap, ← extended_toInt, BitVec.ofInt_mul, BitVec.ofInt_toInt]

theorem word_modEq (c : IntType) (z : ℤ) : ((c.word z).toNat : ℤ) ≡ z [ZMOD 2 ^ c.bitSize] := by
  rw [Int.ModEq, word_toNat, Int.emod_emod_of_dvd _ (dvd_refl _)]

/-- A word of a type that is not narrower than a pointer. -/
theorem word_modEq_of_le (hwide : (ssizeT t).bitSize ≤ itype.bitSize) (i : ℤ) :
    ((itype.word i).toNat : ℤ) ≡ i [ZMOD 2 ^ (ssizeT t).bitSize] :=
  (word_modEq itype i).of_dvd (pow_dvd_pow 2 hwide)

/-- The multiplication at the size of a pointer. -/
theorem mul_modEq {word : BitVec 64} (hword : (word.toNat : ℤ) ≡ i [ZMOD 2 ^ (ssizeT t).bitSize]) (m : ℤ) :
    ((word * .ofInt 64 m &&& lowMask (ssizeT t).bitSize).toNat : ℤ) ≡
      i * m [ZMOD 2 ^ (ssizeT t).bitSize] := by
  have hdvd : (2 : ℤ) ^ (ssizeT t).bitSize ∣ 2 ^ 64 := pow_dvd_pow 2 (ssizeT t).bitSize_le
  have hm : ((BitVec.ofInt 64 m).toNat : ℤ) ≡ m [ZMOD 2 ^ (ssizeT t).bitSize] := by
    rw [BitVec.toNat_ofInt, Int.toNat_of_nonneg (Int.emod_nonneg _ (by decide))]
    exact (Int.mod_modEq m (2 ^ 64)).of_dvd hdvd
  have hproduct : ((word * BitVec.ofInt 64 m).toNat : ℤ) ≡ i * m [ZMOD 2 ^ (ssizeT t).bitSize] := by
    rw [BitVec.toNat_mul]
    push_cast
    exact ((Int.mod_modEq _ (2 ^ 64)).of_dvd hdvd).trans (hword.mul hm)
  rw [and_lowMask_eq_word_toNat hproduct]
  exact word_modEq _ _

/-- The general path. -/
theorem run_scaled (hi : itype.InRange i) (m : ℤ) :
    (((Displacement.scaled (itype.bitSize < (ssizeT t).bitSize) (if 1 < m then some m else none)).run t
      itype (itype.word i)).toNat : ℤ) ≡ i * stride m [ZMOD 2 ^ (ssizeT t).bitSize] := by
  simp only [Displacement.run, stride]
  have hindex : ((if decide (itype.bitSize < (ssizeT t).bitSize) = true then
      extendIfSigned itype (itype.word i) &&& lowMask (ssizeT t).bitSize else itype.word i).toNat : ℤ) ≡
        i [ZMOD 2 ^ (ssizeT t).bitSize] := by
    split
    · rw [castWord_eq, word_value_of_inRange hi]
      exact word_modEq _ i
    · rename_i hwide
      exact word_modEq_of_le (not_lt.mp (fun h => hwide (decide_eq_true h))) i
  by_cases hm : 1 < m
  · rw [if_pos hm, if_pos hm]
    exact mul_modEq hindex m
  · rw [if_neg hm, if_neg hm, mul_one]
    exact hindex

/-- Reading an index as signed takes a top bit that was not the sign. -/
theorem wrap_readSigned (hi : itype.InRange i) : (readSigned itype).wrap i =
    if itype.unsigned = true ∧ 2 ^ (itype.bitSize - 1) ≤ i then i - 2 ^ itype.bitSize else i := by
  have hpow := itype.two_pow_bitSize
  have hsigned : ∀ {z : ℤ}, -2 ^ (itype.bitSize - 1) ≤ z → z < 2 ^ (itype.bitSize - 1) →
      (readSigned itype).wrap z = z := fun hlow hhigh =>
    wrap_of_inRange (c := readSigned itype) ⟨hlow, hhigh⟩
  rw [InRange] at hi
  split at hi
  · rename_i hu
    split
    · rename_i htop
      rw [← hsigned (z := i - 2 ^ itype.bitSize) (by omega) (by omega)]
      exact wrap_eq_of_emod (Int.sub_emod_right i (2 ^ itype.bitSize)).symm
    · rename_i htop
      exact hsigned (by omega) (by simp only [hu, true_and] at htop; omega)
  · rename_i hs
    rw [if_neg (fun h => hs h.1)]
    exact hsigned hi.1 hi.2

/-- Where the stride is the size, the constant path finds it too exactly if the top bit is not lost
and a multiplier that is not positive does not show. -/
theorem wrap_mul_modEq_iff (hi : itype.InRange i)
    (hwhole : i * stride m ≡ i * size [ZMOD 2 ^ (ssizeT t).bitSize]) :
    (readSigned itype).wrap i * m ≡ i * size [ZMOD 2 ^ (ssizeT t).bitSize] ↔ Scales t itype m size i := by
  have hrest : m ≤ 0 → ((readSigned itype).wrap i * m ≡ i * size [ZMOD 2 ^ (ssizeT t).bitSize] ↔
      (readSigned itype).wrap i * m ≡ i [ZMOD 2 ^ (ssizeT t).bitSize]) := fun hm => by
    rw [stride, if_neg (by omega), mul_one] at hwhole
    exact ⟨fun h => h.trans hwhole.symm, fun h => h.trans hwhole⟩
  by_cases hm : 0 < m
  · have hstride : stride m = m := by
      rw [stride]
      split <;> omega
    have hindex : i * m ≡ i * size [ZMOD 2 ^ (ssizeT t).bitSize] := hstride ▸ hwhole
    have htop : ((readSigned itype).wrap i * m ≡ i * size [ZMOD 2 ^ (ssizeT t).bitSize]) ↔
        (itype.unsigned = true → itype.bitSize < (ssizeT t).bitSize → 2 ^ (itype.bitSize - 1) ≤ i →
          2 ^ ((ssizeT t).bitSize - itype.bitSize) ∣ m) := by
      rw [wrap_readSigned hi]
      split
      · rename_i htop
        have hlost : (i - 2 ^ itype.bitSize) * m ≡ i * size [ZMOD 2 ^ (ssizeT t).bitSize] ↔
            (2 : ℤ) ^ (ssizeT t).bitSize ∣ 2 ^ itype.bitSize * m := by
          have hsub : (2 : ℤ) ^ itype.bitSize * m = i * m - (i - 2 ^ itype.bitSize) * m := by ring
          rw [hsub, ← Int.modEq_iff_dvd]
          exact ⟨fun h => h.trans hindex.symm, fun h => h.trans hindex⟩
        rw [hlost]
        by_cases hnarrow : itype.bitSize < (ssizeT t).bitSize
        · simp only [htop, hnarrow, forall_const]
          rw [← Nat.add_sub_cancel' hnarrow.le, pow_add, Nat.add_sub_cancel_left]
          exact Int.mul_dvd_mul_iff_left (two_pow_pos _).ne'
        · simp only [hnarrow, false_implies, implies_true, iff_true]
          exact (pow_dvd_pow 2 (not_lt.mp hnarrow)).mul_right m
      · rename_i htop
        exact iff_of_true hindex (fun hu _ hle => absurd ⟨hu, hle⟩ htop)
    exact htop.trans ⟨fun h => ⟨hwhole, fun _ => h, fun h' => absurd hm (not_lt.mpr h')⟩, fun h => h.top hm⟩
  · rw [hrest (not_lt.mp hm)]
    exact ⟨fun h => ⟨hwhole, fun h' => absurd h' hm, fun _ => h⟩, fun h => h.rest (not_lt.mp hm)⟩

/-- The constant path agrees with the general one, and both scale by the size of what the pointer
points to. -/
def Agree (t : Target) (bitSize : ℤ) (isVoid : Bool) (size : ℤ) (itype : IntType) (i : ℤ) (v : BitVec 64) :
    Prop :=
  ∃ c g, evaluatePtrAdd t itype (some v) (.object bitSize isVoid) = .ok c ∧
    evaluatePtrAdd t itype none (.object bitSize isVoid) = .ok g ∧
    ((c.run t itype (itype.word i)).toNat : ℤ) ≡ (g.run t itype (itype.word i)).toNat
      [ZMOD 2 ^ (ssizeT t).bitSize] ∧
    ((g.run t itype (itype.word i)).toNat : ℤ) ≡ i * size [ZMOD 2 ^ (ssizeT t).bitSize]

/-- The two paths agree for a constant that holds the index, and scale by the size, exactly where they
scale. -/
theorem evaluatePtrAdd_agree_iff (bitSize : ℤ) (isVoid : Bool) (size : ℤ) (hi : itype.InRange i)
    (hv : (v.toNat : ℤ) % 2 ^ itype.bitSize = i % 2 ^ itype.bitSize) :
    Agree t bitSize isVoid size itype i v ↔ Scales t itype (multiply bitSize isVoid) size i := by
  rw [Agree]
  generalize hm : multiply bitSize isVoid = m
  by_cases hshort : m = 1 ∧ (ssizeT t).bitSize ≤ itype.bitSize
  · have hindex := word_modEq_of_le hshort.2 i
    simp only [evaluatePtrAdd, hm, if_pos hshort, Except.ok.injEq, exists_and_left, exists_eq_left',
      Displacement.run]
    obtain ⟨rfl, hwide⟩ := hshort
    refine ⟨fun h => ⟨?_, fun _ _ hnarrow => absurd hnarrow (not_lt.mpr hwide), fun h' => ?_⟩, fun h => ⟨rfl, ?_⟩⟩
    · simpa [stride] using hindex.symm.trans h.2
    · omega
    · simpa [stride] using hindex.trans (by simpa [stride] using h.whole)
  · have hgeneral := run_scaled (t := t) hi m
    have hconst : ((scaledValue t itype m v).toNat : ℤ) ≡ (readSigned itype).wrap i * m
        [ZMOD 2 ^ (ssizeT t).bitSize] := by
      rw [scaledValue_eq hv]
      exact word_modEq _ _
    simp only [evaluatePtrAdd, hm, if_neg hshort, Except.ok.injEq, exists_and_left, exists_eq_left']
    constructor
    · rintro ⟨hagree, hsize⟩
      have hwhole := hgeneral.symm.trans hsize
      exact (wrap_mul_modEq_iff hi hwhole).mp (hconst.symm.trans (hagree.trans hsize))
    · intro h
      have hsize := hgeneral.trans h.whole
      exact ⟨hconst.trans (((wrap_mul_modEq_iff hi h.whole).mpr h).trans hsize.symm), hsize⟩

/-- `p + 3` for an `int *p`. -/
theorem evaluatePtrAdd_agree_int :
    Agree ⟨true⟩ 32 false 4 (Ctype.int.intType ⟨true⟩) 3 3 := by
  have hi : (Ctype.int.intType ⟨true⟩).InRange 3 := by
    unfold InRange
    decide
  refine (evaluatePtrAdd_agree_iff 32 false 4 hi (by decide)).mpr ⟨by decide, ?_, ?_⟩
  · intro _ hu
    exact absurd hu (by decide)
  · intro h
    exact absurd h (by decide)

/-- `p + 0x80000000u` for a `char *p` on a machine of 64 bits. -/
theorem evaluatePtrAdd_topBit :
    (Ctype.uint.intType ⟨true⟩).InRange (2 ^ 31) ∧
      evaluatePtrAdd ⟨true⟩ (Ctype.uint.intType ⟨true⟩) (some 0x80000000) (.object 8 false) =
        .ok (.value 0xffffffff80000000) ∧
      ¬ Agree ⟨true⟩ 8 false 1 (Ctype.uint.intType ⟨true⟩) (2 ^ 31) 0x80000000 := by
  have hi : (Ctype.uint.intType ⟨true⟩).InRange (2 ^ 31) := by
    unfold InRange
    decide
  refine ⟨hi, by decide, fun h => ?_⟩
  rw [evaluatePtrAdd_agree_iff 8 false 1 hi (by decide)] at h
  exact absurd (h.top (by decide) (by decide) (by decide) (by decide)) (by decide)

end Sparse.PointerArithmetic
