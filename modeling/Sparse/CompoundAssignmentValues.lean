import Sparse.CompoundAssignment
import Sparse.FolderAgreement
import Sparse.ConstantMeaning

/-!
# The values of the instructions of an assignment

A word of a type is the integer it means, wrapped to the size. Additions,
multiplications and bitwise operators read no more of their operands than the
bits they deliver; divisions and shifts are followed on the integers.
-/

namespace Sparse
open MaskedWords

namespace IntType

variable {c : IntType} {x y : BitVec 64} {a b z : ℤ}

/-- An integer reduced to the type. -/
def wrap (c : IntType) (z : ℤ) : ℤ :=
  if c.unsigned then z % 2 ^ c.bitSize else z.bmod (2 ^ c.bitSize)

theorem two_pow_cast (n : ℕ) : ((2 ^ n : ℕ) : ℤ) = 2 ^ n := by
  norm_cast

theorem two_pow_pos (n : ℕ) : (0 : ℤ) < 2 ^ n := by
  positivity

theorem bmod_two_pow_emod (z : ℤ) (n : ℕ) : z.bmod (2 ^ n) % 2 ^ n = z % 2 ^ n := by
  rw [← two_pow_cast]
  exact Int.bmod_emod

theorem canonical_word (c : IntType) (z : ℤ) : Canonical c.bitSize (c.word z) :=
  canonical_and_lowMask c.bitSize_pos c.bitSize_le _

theorem two_pow_dvd (h : x.toInt % 2 ^ 64 = z % 2 ^ 64) {w : ℕ} (hw : w ≤ 64) :
    x.toInt % 2 ^ w = z % 2 ^ w := by
  have hdvd : (2 ^ w : ℤ) ∣ 2 ^ 64 := pow_dvd_pow 2 hw
  rw [← Int.emod_emod_of_dvd _ hdvd, h, Int.emod_emod_of_dvd _ hdvd]

theorem ofInt_toInt_emod (z : ℤ) {w : ℕ} (hw : w ≤ 64) :
    (BitVec.ofInt 64 z).toInt % 2 ^ w = z % 2 ^ w := by
  refine two_pow_dvd ?_ hw
  rw [BitVec.toInt_ofInt, bmod_two_pow_emod]

theorem word_toNat (c : IntType) (z : ℤ) : ((c.word z).toNat : ℤ) = z % 2 ^ c.bitSize := by
  rw [word, and_lowMask_toNat_eq_emod c.bitSize_pos c.bitSize_le, ofInt_toInt_emod z c.bitSize_le]

/-- Masking keeps the integer up to the size. -/
theorem and_lowMask_eq_word (h : x.toInt % 2 ^ c.bitSize = z % 2 ^ c.bitSize) :
    x &&& lowMask c.bitSize = c.word z := by
  refine BitVec.eq_of_toNat_eq (Int.ofNat.inj ?_)
  have hx := and_lowMask_toNat_eq_emod c.bitSize_pos c.bitSize_le x
  have hz := word_toNat c z
  exact (hx.trans h).trans hz.symm

theorem word_eq_iff : c.word a = c.word b ↔ a % 2 ^ c.bitSize = b % 2 ^ c.bitSize := by
  constructor
  · intro h
    rw [← word_toNat c a, ← word_toNat c b, h]
  · intro h
    exact and_lowMask_eq_word ((ofInt_toInt_emod a c.bitSize_le).trans h)

/-- A word that is a natural number is masked to that number. -/
theorem and_lowMask_eq_word_toNat (h : (x.toNat : ℤ) % 2 ^ c.bitSize = z % 2 ^ c.bitSize) :
    x &&& lowMask c.bitSize = c.word z := by
  refine and_lowMask_eq_word (Eq.trans ?_ h)
  refine two_pow_dvd ?_ c.bitSize_le
  rw [BitVec.toInt_eq_toNat_bmod, bmod_two_pow_emod]

/-- The value of a word is the value of its bits. -/
theorem value_eq_wrap (hx : Canonical c.bitSize x) : c.value x = c.wrap x.toNat := by
  rw [value, wrap]
  split
  · exact (Int.emod_eq_of_lt (Int.natCast_nonneg _) (by exact_mod_cast hx)).symm
  · exact signExtended_toInt c.bitSize_pos c.bitSize_le hx

theorem wrap_emod (c : IntType) (z : ℤ) : c.wrap z % 2 ^ c.bitSize = z % 2 ^ c.bitSize := by
  rw [wrap]
  split
  · exact Int.emod_emod_of_dvd _ (dvd_refl _)
  · exact bmod_two_pow_emod z c.bitSize

theorem wrap_eq_of_emod (h : a % 2 ^ c.bitSize = b % 2 ^ c.bitSize) : c.wrap a = c.wrap b := by
  rw [wrap, wrap, h]
  split
  · rfl
  · rw [← Int.emod_bmod a, ← Int.emod_bmod b, two_pow_cast, h]

theorem value_word (c : IntType) (z : ℤ) : c.value (c.word z) = c.wrap z := by
  rw [value_eq_wrap (canonical_word c z), word_toNat]
  exact wrap_eq_of_emod (Int.emod_emod_of_dvd _ (dvd_refl _))

theorem value_emod (hx : Canonical c.bitSize x) : c.value x % 2 ^ c.bitSize = x.toNat := by
  rw [value_eq_wrap hx, wrap_emod]
  exact Int.emod_eq_of_lt (Int.natCast_nonneg _) (by exact_mod_cast hx)

theorem word_value (hx : Canonical c.bitSize x) : c.word (c.value x) = x := by
  refine BitVec.eq_of_toNat_eq (Int.ofNat.inj ?_)
  exact (word_toNat c _).trans (value_emod hx)

/-- The values of the type. -/
def InRange (c : IntType) (z : ℤ) : Prop :=
  if c.unsigned then 0 ≤ z ∧ z < 2 ^ c.bitSize
  else -2 ^ (c.bitSize - 1) ≤ z ∧ z < 2 ^ (c.bitSize - 1)

theorem two_pow_bitSize (c : IntType) : (2 : ℤ) ^ c.bitSize = 2 * 2 ^ (c.bitSize - 1) := by
  exact_mod_cast two_pow_pred c.bitSize_pos

theorem wrap_of_inRange (h : c.InRange z) : c.wrap z = z := by
  have hpow := c.two_pow_bitSize
  rw [InRange] at h
  rw [wrap]
  split at h
  · rename_i hu
    rw [if_pos hu]
    exact Int.emod_eq_of_lt h.1 h.2
  · rename_i hu
    rw [if_neg hu]
    refine Int.bmod_eq_of_le ?_ ?_
    all_goals rw [two_pow_cast]
    all_goals omega

theorem inRange_wrap (c : IntType) (z : ℤ) : c.InRange (c.wrap z) := by
  have hpow := c.two_pow_bitSize
  have hpos : (0 : ℤ) < 2 ^ (c.bitSize - 1) := two_pow_pos _
  rw [InRange, wrap]
  split
  · exact ⟨Int.emod_nonneg _ (by omega), Int.emod_lt_of_pos _ (by omega)⟩
  · have hlow := Int.le_bmod (x := z) (m := 2 ^ c.bitSize) (Nat.two_pow_pos _)
    have hhigh := Int.bmod_lt (x := z) (m := 2 ^ c.bitSize) (Nat.two_pow_pos _)
    rw [two_pow_cast] at hlow hhigh
    omega

theorem inRange_value (hx : Canonical c.bitSize x) : c.InRange (c.value x) := by
  rw [value_eq_wrap hx]
  exact inRange_wrap c _

theorem word_value_of_inRange (h : c.InRange z) : c.value (c.word z) = z := by
  rw [value_word, wrap_of_inRange h]

theorem extendIfSigned_toInt_emod (c : IntType) (x : BitVec 64) {w : ℕ} (hw : w ≤ 64) :
    (extendIfSigned c x).toInt % 2 ^ w = c.value x % 2 ^ w := by
  rw [extendIfSigned, value]
  split
  · refine two_pow_dvd ?_ hw
    rw [BitVec.toInt_eq_toNat_bmod, bmod_two_pow_emod]
  · rfl

/-- A cast wraps the value to the new type. -/
theorem castWord_eq (old new : IntType) (x : BitVec 64) :
    extendIfSigned old x &&& lowMask new.bitSize = new.word (old.value x) :=
  and_lowMask_eq_word (extendIfSigned_toInt_emod old x new.bitSize_le)

theorem word_setWidth (c : IntType) (z : ℤ) {w : ℕ} (hw : w ≤ c.bitSize) :
    (c.word z).setWidth w = BitVec.ofInt w z := by
  have hdvd : (2 ^ w : ℤ) ∣ 2 ^ c.bitSize := pow_dvd_pow 2 hw
  refine BitVec.eq_of_toNat_eq (Int.ofNat.inj ?_)
  rw [BitVec.toNat_setWidth, BitVec.toNat_ofInt, Int.ofNat_eq_natCast, Int.ofNat_eq_natCast,
    Int.natCast_emod, word_toNat, two_pow_cast, Int.emod_emod_of_dvd _ hdvd,
    Int.toNat_of_nonneg (Int.emod_nonneg _ (two_pow_pos w).ne')]

theorem value_zero (c : IntType) : c.value 0#64 = 0 := by
  have hx : Canonical c.bitSize 0#64 := Nat.two_pow_pos _
  rw [value_eq_wrap hx]
  refine wrap_of_inRange ?_
  have hpos := two_pow_pos (c.bitSize - 1)
  have hpow := c.two_pow_bitSize
  rw [InRange]
  split
  · exact ⟨le_refl _, by exact_mod_cast two_pow_pos c.bitSize⟩
  · exact ⟨by simp, by simp⟩

theorem value_eq_zero_iff (hx : Canonical c.bitSize x) : c.value x = 0 ↔ x = 0#64 := by
  constructor
  · intro h
    have hemod := value_emod hx
    rw [h, Int.zero_emod] at hemod
    exact BitVec.eq_of_toNat_eq (Int.ofNat.inj hemod.symm)
  · rintro rfl
    exact value_zero c

end IntType

/-! ## Operators that keep to the low bits -/

namespace SourceBinary

def isModular : SourceBinary → Bool
  | add | sub | mul | and | or | xor => true
  | _ => false

/-- The operator on bits of any width. -/
def onBits {w : ℕ} (x y : BitVec w) : SourceBinary → BitVec w
  | add => x + y
  | sub => x - y
  | mul => x * y
  | and => x &&& y
  | or => x ||| y
  | xor => x ^^^ y
  | _ => 0#w

theorem onBits_setWidth {v w : ℕ} (hw : w ≤ v) (op : SourceBinary) (x y : BitVec v) :
    (op.onBits x y).setWidth w = op.onBits (x.setWidth w) (y.setWidth w) := by
  cases op with
  | add => exact BitVec.setWidth_add _ _ hw
  | sub =>
    simp only [onBits]
    rw [BitVec.sub_eq_add_neg, BitVec.setWidth_add _ _ hw, BitVec.setWidth_neg_of_le hw,
      ← BitVec.sub_eq_add_neg]
  | mul => exact BitVec.setWidth_mul _ _ hw
  | and => exact BitVec.setWidth_and
  | or => exact BitVec.setWidth_or
  | xor => exact BitVec.setWidth_xor
  | div | mod | leftShift | rightShift => exact BitVec.setWidth_zero w v

end SourceBinary

section

variable {c : IntType} {l r : BitVec 64}

/-- What the instruction keeps of a modular operator. -/
theorem insnFold_modular {op : SourceBinary} (hop : op.isModular = true)
    (hl : Canonical c.bitSize l) (hr : Canonical c.bitSize r) :
    ∃ v, (FoldedOp.binop op.op).insnFold c l r = some v ∧ Canonical c.bitSize v ∧
      v.setWidth c.bitSize = op.onBits (l.setWidth c.bitSize) (r.setWidth c.bitSize) := by
  have hle := c.bitSize_le
  have hul := extendOperand_and_lowMask hl
  have hur := extendOperand_and_lowMask hr
  have hwl := extendIfSigned_setWidth hl
  have hwr := extendIfSigned_setWidth hr
  have hmask : ∀ x : BitVec 64, (x &&& lowMask c.bitSize).setWidth c.bitSize = x.setWidth _ :=
    fun x => (and_lowMask_inj c.bitSize_pos hle).1
      (and_lowMask_eq c.bitSize_pos hle (canonical_and_lowMask c.bitSize_pos hle x))
  have hres : ∀ x : BitVec 64,
      x.setWidth c.bitSize = op.onBits (l.setWidth c.bitSize) (r.setWidth c.bitSize) →
      ∃ v, some (x &&& lowMask c.bitSize) = some v ∧ Canonical c.bitSize v ∧
        v.setWidth c.bitSize = op.onBits (l.setWidth c.bitSize) (r.setWidth c.bitSize) :=
    fun x hx => ⟨_, rfl, canonical_and_lowMask c.bitSize_pos hle x, (hmask x).trans hx⟩
  have hext : ∀ {x y : BitVec 64}, x.setWidth c.bitSize = l.setWidth _ →
      y.setWidth c.bitSize = r.setWidth _ → (op.onBits x y).setWidth c.bitSize =
        op.onBits (l.setWidth c.bitSize) (r.setWidth c.bitSize) := by
    intro x y hx hy
    rw [SourceBinary.onBits_setWidth hle, hx, hy]
  cases op with
  | add | sub | and | or | xor =>
    cases hs : c.unsigned
    all_goals
      simp only [FoldedOp.insnFold, SourceBinary.op, BinaryOp.opcode, opcodeSign, hs,
        simplifyConstantBinop, Bool.false_eq_true, if_false, if_true, Option.map_some]
      exact hres _ (hext hwl hwr)
  | mul =>
    cases hs : c.unsigned
    all_goals
      simp only [FoldedOp.insnFold, SourceBinary.op, BinaryOp.opcode, opcodeSign, hs,
        simplifyConstantBinop, Bool.false_eq_true, if_false, if_true, Option.map_some, hul, hur]
    · exact hres _ (hext hwl hwr)
    · exact hres _ (hext rfl rfl)
  | div | mod | leftShift | rightShift => exact absurd hop Bool.false_ne_true

/-! ## Divisions -/

/-- Both results of a division. -/
def SourceBinary.onQuotient (a b : ℤ) : SourceBinary → ℤ
  | .mod => a.tmod b
  | _ => a.tdiv b

@[simp] theorem SourceBinary.onQuotient_div (a b : ℤ) :
    SourceBinary.onQuotient a b .div = a.tdiv b := rfl

@[simp] theorem SourceBinary.onQuotient_mod (a b : ℤ) :
    SourceBinary.onQuotient a b .mod = a.tmod b := rfl

theorem insnFold_zero {op : SourceBinary} (hop : op = .div ∨ op = .mod) (l : BitVec 64) :
    (FoldedOp.binop op.op).insnFold c l 0#64 = none := by
  have hext : extendOperand c.bitSize 0#64 = 0#64 :=
    (extendOperand_eq_zero (Nat.two_pow_pos _)).2 rfl
  rcases hop with rfl | rfl
  all_goals
    cases hs : c.unsigned
    all_goals
      simp [FoldedOp.insnFold, SourceBinary.op, BinaryOp.opcode, opcodeSign, hs,
        simplifyConstantBinop, hext]

theorem toNat_tdiv (l r : BitVec 64) : ((l / r).toNat : ℤ) = (l.toNat : ℤ).tdiv r.toNat := by
  rw [BitVec.toNat_udiv, Int.ofNat_tdiv]

theorem toNat_tmod (l r : BitVec 64) : ((l % r).toNat : ℤ) = (l.toNat : ℤ).tmod r.toNat := by
  rw [BitVec.toNat_umod, Int.ofNat_tmod]

/-- A signed division delivers its result, wrapped; only the least `long long` divided by -1 has none. -/
theorem insnFold_division_signed {op : SourceBinary} (hop : op = .div ∨ op = .mod) (hs : c.unsigned = false)
    (hr : Canonical c.bitSize r) (hzero : c.value r ≠ 0) :
    (FoldedOp.binop op.op).insnFold c l r =
      if c.value l = -2 ^ 63 ∧ c.value r = -1 then none
      else some (c.word (op.onQuotient (c.value l) (c.value r))) := by
  have hr0 : r ≠ 0#64 := fun h => hzero ((IntType.value_eq_zero_iff hr).2 h)
  have hext : extendOperand c.bitSize r ≠ 0#64 := fun h => hr0 ((extendOperand_eq_zero hr).1 h)
  have hvl : (extendOperand c.bitSize l).toInt = c.value l := by
    rw [extendOperand_eq, IntType.value, if_neg (by simp [hs])]
  have hvr : (extendOperand c.bitSize r).toInt = c.value r := by
    rw [extendOperand_eq, IntType.value, if_neg (by simp [hs])]
  have hhost : (extendOperand c.bitSize l = BitVec.intMin 64 ∧ extendOperand c.bitSize r = -1#64) ↔
      c.value l = -2 ^ 63 ∧ c.value r = -1 := by
    rw [← hvl, ← hvr, ← BitVec.toInt_inj, ← BitVec.toInt_inj]
    rfl
  rcases hop with rfl | rfl
  · simp only [FoldedOp.insnFold, SourceBinary.op, BinaryOp.opcode, opcodeSign, hs,
      simplifyConstantBinop, Bool.false_eq_true, if_false, if_neg hext, hostDivs, hhost]
    split_ifs with hleast
    · rfl
    · rw [Option.map_some, SourceBinary.onQuotient_div, IntType.and_lowMask_eq_word (congrArg (· % _) ?_)]
      rw [BitVec.toInt_sdiv_of_ne_or_ne _ _ (by tauto), hvl, hvr]
  · simp only [FoldedOp.insnFold, SourceBinary.op, BinaryOp.opcode, opcodeSign, hs,
      simplifyConstantBinop, Bool.false_eq_true, if_false, if_neg hext, hostMods, hhost]
    split_ifs with hleast
    · rfl
    · rw [Option.map_some, SourceBinary.onQuotient_mod, IntType.and_lowMask_eq_word (congrArg (· % _) ?_)]
      rw [BitVec.toInt_srem, hvl, hvr]

/-- A division of values of the type. -/
theorem insnFold_division {op : SourceBinary} (hop : op = .div ∨ op = .mod)
    (hl : Canonical c.bitSize l) (hr : Canonical c.bitSize r) (hzero : c.value r ≠ 0)
    (hleast : ¬(c.value l = -2 ^ 63 ∧ c.value r = -1)) :
    (FoldedOp.binop op.op).insnFold c l r =
      some (c.word (op.onQuotient (c.value l) (c.value r))) := by
  cases hs : c.unsigned with
  | true =>
    have hul := extendOperand_and_lowMask hl
    have hur := extendOperand_and_lowMask hr
    have hr0 : r ≠ 0#64 := fun h => hzero ((IntType.value_eq_zero_iff hr).2 h)
    have hvl : c.value l = l.toNat := if_pos hs
    have hvr : c.value r = r.toNat := if_pos hs
    rcases hop with rfl | rfl
    · simp only [FoldedOp.insnFold, SourceBinary.op, BinaryOp.opcode, opcodeSign, hs,
        simplifyConstantBinop, if_true, hul, hur, if_neg hr0, Option.map_some]
      rw [SourceBinary.onQuotient_div, hvl, hvr,
        IntType.and_lowMask_eq_word_toNat (congrArg (· % _) (toNat_tdiv l r))]
    · simp only [FoldedOp.insnFold, SourceBinary.op, BinaryOp.opcode, opcodeSign, hs,
        simplifyConstantBinop, if_true, hul, hur, if_neg hr0, Option.map_some]
      rw [SourceBinary.onQuotient_mod, hvl, hvr,
        IntType.and_lowMask_eq_word_toNat (congrArg (· % _) (toNat_tmod l r))]
  | false => rw [insnFold_division_signed hop hs hr hzero, if_neg hleast]

/-! ## Shifts -/

theorem extendOperand_of_lt (h : r.toNat < 2 ^ (c.bitSize - 1)) :
    extendOperand c.bitSize r = r := by
  rw [extendOperand, if_neg]
  rw [and_signBit_ne_zero c.bitSize_pos c.bitSize_le, BitVec.getLsbD, Nat.testBit_lt_two_pow h]
  exact Bool.false_ne_true

/-- A count with the sign bit set is extended to a negative one. -/
theorem le_extendOperand (hr : Canonical c.bitSize r) (h : 2 ^ (c.bitSize - 1) ≤ r.toNat) :
    64 ≤ (extendOperand c.bitSize r).toNat := by
  have hneg : (extendOperand c.bitSize r).toInt < 0 := by
    rw [extendOperand_eq, signExtended_toInt_of_le c.bitSize_pos c.bitSize_le hr h]
    have hlt : (r.toNat : ℤ) < 2 ^ c.bitSize := by exact_mod_cast hr
    omega
  rw [BitVec.toInt_eq_toNat_cond] at hneg
  split at hneg <;> omega

theorem insnFold_leftShift (hl : Canonical c.bitSize l) (h64 : r.toNat < 64)
    (h : r.toNat < 2 ^ (c.bitSize - 1)) :
    (FoldedOp.binop .leftShift).insnFold c l r = some (c.word (c.value l * 2 ^ r.toNat)) := by
  have hres : extendOperand c.bitSize l <<< r.toNat &&& lowMask c.bitSize =
      c.word (c.value l * 2 ^ r.toNat) := by
    refine IntType.and_lowMask_eq_word ?_
    have hl' : (extendOperand c.bitSize l).toInt % 2 ^ c.bitSize =
        c.value l % 2 ^ c.bitSize := by
      rw [IntType.value_emod hl, ← and_lowMask_toNat_eq_emod c.bitSize_pos c.bitSize_le,
        extendOperand_and_lowMask hl]
    have hshift : (extendOperand c.bitSize l <<< r.toNat).toInt % 2 ^ c.bitSize =
        ((extendOperand c.bitSize l).toInt * 2 ^ r.toNat) % 2 ^ c.bitSize := by
      refine IntType.two_pow_dvd ?_ c.bitSize_le
      rw [BitVec.toInt_shiftLeft, Nat.shiftLeft_eq, IntType.bmod_two_pow_emod, Int.natCast_mul,
        IntType.two_pow_cast, Int.mul_emod, BitVec.toInt_eq_toNat_bmod,
        Int.mul_emod (Int.bmod _ _), IntType.bmod_two_pow_emod]
    rw [hshift, Int.mul_emod, hl', ← Int.mul_emod]
  cases hs : c.unsigned
  all_goals
    simp only [FoldedOp.insnFold, BinaryOp.opcode, opcodeSign, hs, simplifyConstantBinop,
      Bool.false_eq_true, if_false, if_true, extendOperand_of_lt h, hostShl, h64, Option.map_some,
      hres]

theorem insnFold_leftShift_none (hr : Canonical c.bitSize r)
    (h : 2 ^ (c.bitSize - 1) ≤ r.toNat) (l : BitVec 64) :
    (FoldedOp.binop .leftShift).insnFold c l r = none := by
  have h64 : ¬(extendOperand c.bitSize r).toNat < 64 := Nat.not_lt.2 (le_extendOperand hr h)
  cases hs : c.unsigned
  all_goals
    simp only [FoldedOp.insnFold, BinaryOp.opcode, opcodeSign, hs, simplifyConstantBinop,
      Bool.false_eq_true, if_false, if_true, hostShl, h64, Option.map_none]

theorem insnFold_rightShift_unsigned (hs : c.unsigned = true) (hl : Canonical c.bitSize l)
    (hr : Canonical c.bitSize r) (h64 : r.toNat < 64) :
    (FoldedOp.binop .rightShift).insnFold c l r = some (c.word (c.value l / 2 ^ r.toNat)) := by
  have hul := extendOperand_and_lowMask hl
  have hur := extendOperand_and_lowMask hr
  have hvl : c.value l = l.toNat := if_pos hs
  have hres : ((l >>> r.toNat).toNat : ℤ) = c.value l / 2 ^ r.toNat := by
    rw [BitVec.toNat_ushiftRight, Nat.shiftRight_eq_div_pow, Int.natCast_div, IntType.two_pow_cast,
      hvl]
  simp only [FoldedOp.insnFold, BinaryOp.opcode, opcodeSign, hs, simplifyConstantBinop, if_true,
    hul, hur, hostLsr, h64, Option.map_some]
  rw [IntType.and_lowMask_eq_word_toNat (congrArg (· % _) hres)]

theorem insnFold_rightShift_signed (hs : c.unsigned = false) (h64 : r.toNat < 64)
    (h : r.toNat < 2 ^ (c.bitSize - 1)) :
    (FoldedOp.binop .rightShift).insnFold c l r = some (c.word (c.value l / 2 ^ r.toNat)) := by
  have hvl : (extendOperand c.bitSize l).toInt = c.value l := by
    rw [extendOperand_eq, IntType.value, if_neg (by simp [hs])]
  have hres : ((extendOperand c.bitSize l).sshiftRight r.toNat).toInt =
      c.value l / 2 ^ r.toNat := by
    rw [BitVec.toInt_sshiftRight, Int.shiftRight_eq_div_pow, hvl, IntType.two_pow_cast]
  simp only [FoldedOp.insnFold, BinaryOp.opcode, opcodeSign, hs, simplifyConstantBinop,
    Bool.false_eq_true, if_false, extendOperand_of_lt h, hostAsr, h64, if_true, Option.map_some]
  rw [IntType.and_lowMask_eq_word (congrArg (· % _) hres)]

theorem insnFold_rightShift_none (hs : c.unsigned = false) (hr : Canonical c.bitSize r)
    (h : 2 ^ (c.bitSize - 1) ≤ r.toNat) (l : BitVec 64) :
    (FoldedOp.binop .rightShift).insnFold c l r = none := by
  have h64 : ¬(extendOperand c.bitSize r).toNat < 64 := Nat.not_lt.2 (le_extendOperand hr h)
  simp only [FoldedOp.insnFold, BinaryOp.opcode, opcodeSign, hs, simplifyConstantBinop,
    Bool.false_eq_true, if_false, hostAsr, h64, Option.map_none]

end

end Sparse
