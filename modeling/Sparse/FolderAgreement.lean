import Sparse.ConstantFolders
import Mathlib.Tactic.Linarith
import Mathlib.Tactic.Positivity
import Mathlib.Tactic.Zify

/-!
# When the two constant folders agree

On canonical operands they agree on every operator but the shifts, and on the
shifts as long as the count is below the size. A larger count is reduced by the
tree folder and used as it is by the other, so the values differ unless the
operand has no bit that one of them keeps.
-/

namespace Sparse
open MaskedWords

variable {ctype : IntType} {l r : BitVec 64}

/-! ## The parts of the two folders -/

theorem extendOperand_eq (ctype : IntType) (x : BitVec 64) :
    extendOperand ctype.bitSize x = signExtended ctype.bitSize x := by
  rw [extendOperand, signExtended]
  split
  · rename_i hs
    exact or_not_lowMask ctype.bitSize_pos ctype.bitSize_le hs
  · rfl

theorem extendOperand_and_lowMask (hx : Canonical ctype.bitSize l) :
    extendOperand ctype.bitSize l &&& lowMask ctype.bitSize = l := by
  rw [extendOperand_eq]
  exact signExtended_and_lowMask ctype.bitSize_pos ctype.bitSize_le hx

theorem boolWord_and_lowMask (ctype : IntType) (b : Bool) :
    boolWord b &&& lowMask ctype.bitSize = boolWord b := by
  refine and_lowMask_eq ctype.bitSize_pos ctype.bitSize_le ?_
  have hpow : 2 ^ 1 ≤ 2 ^ ctype.bitSize := Nat.pow_le_pow_right (by omega) ctype.bitSize_pos
  cases b
  · exact Nat.two_pow_pos _
  · exact Nat.lt_of_lt_of_le (by decide) hpow

/-- Both folders see the same low bits of an operand. -/
theorem extendIfSigned_setWidth (hx : Canonical ctype.bitSize l) :
    (extendOperand ctype.bitSize l).setWidth ctype.bitSize = l.setWidth ctype.bitSize := by
  rw [extendOperand_eq]
  exact signExtended_setWidth ctype.bitSize_pos ctype.bitSize_le hx

theorem extendIfSigned_of_signed (h : ctype.unsigned = false) (x : BitVec 64) :
    extendIfSigned ctype x = extendOperand ctype.bitSize x := by
  rw [extendIfSigned, h, extendOperand_eq]
  rfl

theorem extendOperand_eq_zero (hx : Canonical ctype.bitSize l) :
    extendOperand ctype.bitSize l = 0#64 ↔ l = 0#64 := by
  have hz : Canonical ctype.bitSize 0#64 := Nat.two_pow_pos _
  have h0 : signExtended ctype.bitSize 0#64 = 0#64 := by
    rw [signExtended, if_neg]
    simp
  rw [extendOperand_eq]
  conv_lhs => rw [← h0]
  exact signExtended_inj ctype.bitSize_pos ctype.bitSize_le hx hz

/-! ## The operators that always agree -/

/-- The comparisons read the operands in the same way. -/
theorem simplifyCmpBinop_agree (op : CompareOp) (hl : Canonical ctype.bitSize l)
    (hr : Canonical ctype.bitSize r) :
    simplifyConstantBinop op.opcode ctype.bitSize l r = some (simplifyCmpBinop op ctype l r) := by
  have hinj : (signExtended ctype.bitSize l == signExtended ctype.bitSize r) = (l == r) := by
    rw [Bool.eq_iff_iff, beq_iff_eq, beq_iff_eq]
    exact signExtended_inj ctype.bitSize_pos ctype.bitSize_le hl hr
  have hul := signExtended_and_lowMask ctype.bitSize_pos ctype.bitSize_le hl
  have hur := signExtended_and_lowMask ctype.bitSize_pos ctype.bitSize_le hr
  cases op <;>
    simp only [simplifyConstantBinop, CompareOp.opcode, simplifyCmpBinop, hul, hur, bne,
      extendOperand_eq, hinj, Option.map_some, boolWord_and_lowMask]

theorem intBinopValue_agree {op : BinaryOp} (hop : op.isShift = false)
    (hl : Canonical ctype.bitSize l) (hr : Canonical ctype.bitSize r) {a b : BitVec 64}
    (ha : intBinopValue op ctype l r = some a)
    (hb : simplifyConstantBinop (opcodeSign op.opcode ctype) ctype.bitSize l r = some b) :
    a = b := by
  have hmasked : ∀ {x y : BitVec 64},
      x.setWidth ctype.bitSize = y.setWidth ctype.bitSize →
        x &&& lowMask ctype.bitSize = y &&& lowMask ctype.bitSize :=
    (and_lowMask_inj ctype.bitSize_pos ctype.bitSize_le).2
  have hle := ctype.bitSize_le
  have hul := extendOperand_and_lowMask hl
  have hur := extendOperand_and_lowMask hr
  have hwl := extendIfSigned_setWidth hl
  have hwr := extendIfSigned_setWidth hr
  have hzero := extendOperand_eq_zero hr
  cases hs : ctype.unsigned <;> cases op <;>
    simp only [BinaryOp.isShift, Bool.true_eq_false] at hop <;>
    simp only [intBinopValue, simplifyConstantBinop, BinaryOp.opcode, opcodeSign, hs, hul, hur,
      extendIfSigned_of_signed, Bool.false_eq_true, if_false, if_true, Option.map_some,
      Option.map_none, Option.some.injEq, reduceCtorEq, hzero] at ha hb
  -- sums, products and bit operations keep the low bits
  case false.add | true.add | false.sub | true.sub =>
    subst ha hb
    refine hmasked ?_
    simp only [BitVec.setWidth_add _ _ hle, setWidth_sub hle, hwl, hwr]
  case false.and | true.and | false.or | true.or | false.xor | true.xor =>
    subst ha hb
    refine hmasked ?_
    simp only [BitVec.setWidth_and, BitVec.setWidth_or, BitVec.setWidth_xor, hwl, hwr]
  case false.mul | true.mul =>
    exact ha.symm.trans hb
  -- the divisions read the operands as the type says
  case true.div | true.mod =>
    rw [ha] at hb
    exact Option.some.inj hb
  case false.div =>
    split_ifs at ha hb
    · simp at ha
    · simp at ha
    · rw [ha] at hb
      exact Option.some.inj hb
  case false.mod =>
    rw [ha] at hb
    exact Option.some.inj hb

/-! ## The shifts -/

/-- A count below the size is not changed by the extension. -/
theorem extendOperand_of_lt_size (h : r.toNat < ctype.bitSize) :
    extendOperand ctype.bitSize r = r := by
  have hlt : r.toNat < 2 ^ (ctype.bitSize - 1) :=
    Nat.lt_of_le_of_lt (Nat.le_sub_one_of_lt h) Nat.lt_two_pow_self
  rw [extendOperand, if_neg]
  rw [and_signBit_ne_zero ctype.bitSize_pos ctype.bitSize_le, BitVec.getLsbD,
    Nat.testBit_lt_two_pow hlt]
  exact Bool.false_ne_true

theorem canonical_of_lt_size (h : r.toNat < ctype.bitSize) : Canonical ctype.bitSize r :=
  Nat.lt_trans h Nat.lt_two_pow_self

/-- The shifts agree on every count below the size. -/
theorem shift_agree {op : BinaryOp} (hop : op.isShift = true) (hl : Canonical ctype.bitSize l)
    (h : r.toNat < ctype.bitSize) :
    intBinopValue op ctype l r =
      simplifyConstantBinop (opcodeSign op.opcode ctype) ctype.bitSize l r := by
  have hur := and_lowMask_eq ctype.bitSize_pos ctype.bitSize_le (canonical_of_lt_size h)
  have hr := extendOperand_of_lt_size h
  have hul := extendOperand_and_lowMask hl
  have hwl := extendIfSigned_setWidth hl
  have h64 : r.toNat < 64 := Nat.lt_of_lt_of_le h ctype.bitSize_le
  have hshl : l <<< r.toNat &&& lowMask ctype.bitSize =
      extendOperand ctype.bitSize l <<< r.toNat &&& lowMask ctype.bitSize := by
    rw [and_lowMask_inj ctype.bitSize_pos ctype.bitSize_le, BitVec.shiftLeft_eq_mul_twoPow,
      BitVec.shiftLeft_eq_mul_twoPow, BitVec.setWidth_mul _ _ ctype.bitSize_le,
      BitVec.setWidth_mul _ _ ctype.bitSize_le, hwl]
  cases op with
  | leftShift =>
    cases hs : ctype.unsigned <;>
      simp only [intBinopValue, simplifyConstantBinop, BinaryOp.opcode, opcodeSign, hs, hr, hostShl,
        h64, if_true, Bool.false_eq_true, if_false, Option.map_some, hshl]
  | rightShift =>
    cases hs : ctype.unsigned <;>
      simp only [intBinopValue, simplifyConstantBinop, BinaryOp.opcode, opcodeSign, hs, hr, hul, hur,
        extendIfSigned_of_signed, if_true, Bool.false_eq_true, if_false]
  | _ => simp [BinaryOp.isShift] at hop

/-! ## Counts from the size on -/

theorem checkShiftCount_lt (ctype : IntType) (r : BitVec 64) :
    (checkShiftCount ctype r).toNat < ctype.bitSize := by
  have hpos := ctype.bitSize_pos
  have hle := ctype.bitSize_le
  have hmask : (BitVec.ofNat 32 (ctype.bitSize - 1)).toNat = ctype.bitSize - 1 := by
    rw [BitVec.toNat_ofNat]
    exact Nat.mod_eq_of_lt (by omega)
  have hand : (r.setWidth 32 &&& BitVec.ofNat 32 (ctype.bitSize - 1)).toNat ≤
      ctype.bitSize - 1 := by
    rw [BitVec.toNat_and, hmask]
    exact Nat.and_le_right
  rw [checkShiftCount, BitVec.toNat_setWidth]
  exact Nat.lt_of_le_of_lt (Nat.mod_le _ _) (by omega)

/-- The count by which the instruction shifts, when the host can shift by it. -/
def insnShiftCount (op : BinaryOp) (ctype : IntType) (r : BitVec 64) : Option ℕ :=
  let right := extendOperand ctype.bitSize r
  let n := if op = .rightShift ∧ ctype.unsigned then right &&& lowMask ctype.bitSize else right
  if n.toNat < 64 then some n.toNat else none

/-- Where a count from the size on does no harm: the instruction has no value,
or the operand is such that the count of each folder gives the same. -/
def OverwideHarmless (op : BinaryOp) (ctype : IntType) (l r : BitVec 64) : Prop :=
  ∀ n, insnShiftCount op ctype r = some n →
    let c := (checkShiftCount ctype r).toNat
    match op, ctype.unsigned with
    | .leftShift, _ => 2 ^ (ctype.bitSize - c) ∣ l.toNat
    | .rightShift, true => c = n ∨ l.toNat < 2 ^ min c n
    | .rightShift, false => l.toNat < 2 ^ c ∨ 2 ^ ctype.bitSize ≤ l.toNat + 2 ^ c
    | _, _ => True

/-- A count with the sign bit of the type set becomes negative. -/
theorem extendOperand_eq_of_lt (h : (extendOperand ctype.bitSize r).toNat < 64) :
    extendOperand ctype.bitSize r = r := by
  have hpos := ctype.bitSize_pos
  have hle := ctype.bitSize_le
  rw [extendOperand] at h ⊢
  split at h
  · have hbit : (r ||| ~~~lowMask ctype.bitSize).getLsbD 63 = true := by
      rename_i hs
      rw [and_signBit_ne_zero hpos hle] at hs
      rw [BitVec.getLsbD_or, BitVec.getLsbD_not, lowMask_getLsbD hpos hle]
      rcases Nat.lt_or_ge 63 ctype.bitSize with h63 | h63
      · rw [show (63 : ℕ) = ctype.bitSize - 1 by omega, hs]
        rfl
      · simp [show ¬ 63 < ctype.bitSize by omega]
    have hbig := Nat.ge_two_pow_of_testBit hbit
    omega
  · rename_i hs
    rw [if_neg hs]

theorem le_of_insnShiftCount {op : BinaryOp} (hop : ¬(op = .rightShift ∧ ctype.unsigned = true))
    (hwide : ctype.bitSize ≤ r.toNat) {n : ℕ} (h : insnShiftCount op ctype r = some n) :
    ctype.bitSize ≤ n := by
  rw [insnShiftCount] at h
  simp only [hop, if_false] at h
  split at h
  · rename_i hlt
    rw [extendOperand_eq_of_lt hlt] at h
    exact Option.some.inj h ▸ hwide
  · simp at h

/-- The low bits of the two left shifts. -/
theorem shiftLeft_eq_iff {c n : ℕ} (hc : c < ctype.bitSize) (hn : ctype.bitSize ≤ n)
    (x : BitVec 64) :
    l <<< c &&& lowMask ctype.bitSize = x <<< n &&& lowMask ctype.bitSize ↔
      2 ^ (ctype.bitSize - c) ∣ l.toNat := by
  have hpos := ctype.bitSize_pos
  have hle := ctype.bitSize_le
  have hdvd : 2 ^ ctype.bitSize ∣ 2 ^ 64 := Nat.pow_dvd_pow 2 hle
  have hright : (x <<< n &&& lowMask ctype.bitSize).toNat = 0 := by
    rw [and_lowMask_toNat hpos hle, BitVec.toNat_shiftLeft, Nat.shiftLeft_eq, Nat.mod_mod_of_dvd _ hdvd]
    exact Nat.mod_eq_zero_of_dvd (Dvd.dvd.mul_left (Nat.pow_dvd_pow 2 hn) _)
  have hleft : (l <<< c &&& lowMask ctype.bitSize).toNat = l.toNat * 2 ^ c % 2 ^ ctype.bitSize := by
    rw [and_lowMask_toNat hpos hle, BitVec.toNat_shiftLeft, Nat.shiftLeft_eq, Nat.mod_mod_of_dvd _ hdvd]
  have hsplit : 2 ^ ctype.bitSize = 2 ^ (ctype.bitSize - c) * 2 ^ c := by
    rw [← Nat.pow_add, Nat.sub_add_cancel hc.le]
  rw [← BitVec.toNat_inj, hleft, hright, ← Nat.dvd_iff_mod_eq_zero, hsplit]
  exact Nat.mul_dvd_mul_iff_right (Nat.two_pow_pos c)

private theorem div_two_pow_eq_iff {a c n : ℕ} (h : c < n) :
    a / 2 ^ c = a / 2 ^ n ↔ a < 2 ^ c := by
  have hsplit : a / 2 ^ n = a / 2 ^ c / 2 ^ (n - c) := by
    rw [Nat.div_div_eq_div_mul, ← Nat.pow_add, Nat.add_sub_cancel' h.le]
  constructor
  · intro heq
    by_contra hge
    have hquot : 0 < a / 2 ^ c := Nat.div_pos (by omega) (Nat.two_pow_pos c)
    have hlt := Nat.div_lt_self hquot (Nat.one_lt_two_pow (show n - c ≠ 0 by omega))
    omega
  · intro hlt
    rw [hsplit, Nat.div_eq_of_lt hlt, Nat.zero_div]

/-- The low bits of the two unsigned right shifts. -/
theorem ushiftRight_eq_iff (hl : Canonical ctype.bitSize l) (c n : ℕ) :
    l >>> c &&& lowMask ctype.bitSize = l >>> n &&& lowMask ctype.bitSize ↔
      c = n ∨ l.toNat < 2 ^ min c n := by
  have hcan : ∀ k : ℕ, Canonical ctype.bitSize (l >>> k) := by
    intro k
    rw [Canonical, BitVec.toNat_ushiftRight, Nat.shiftRight_eq_div_pow]
    exact Nat.lt_of_le_of_lt (Nat.div_le_self _ _) hl
  rw [and_lowMask_eq ctype.bitSize_pos ctype.bitSize_le (hcan c),
    and_lowMask_eq ctype.bitSize_pos ctype.bitSize_le (hcan n), ← BitVec.toNat_inj,
    BitVec.toNat_ushiftRight, BitVec.toNat_ushiftRight, Nat.shiftRight_eq_div_pow,
    Nat.shiftRight_eq_div_pow]
  rcases Nat.lt_trichotomy c n with h | rfl | h
  · rw [div_two_pow_eq_iff h, Nat.min_eq_left h.le]
    exact ⟨Or.inr, fun hor => hor.resolve_left h.ne⟩
  · simp
  · rw [eq_comm, div_two_pow_eq_iff h, Nat.min_eq_right h.le]
    exact ⟨Or.inr, fun hor => hor.resolve_left h.ne'⟩

private theorem ediv_eq_neg_one_iff {x d : ℤ} (hd : 0 < d) (hx : x < 0) :
    x / d = -1 ↔ -d ≤ x := by
  have hneg : x / d < 0 := Int.ediv_neg_of_neg_of_pos hx hd
  have hle : -1 ≤ x / d ↔ -1 * d ≤ x := Int.le_ediv_iff_mul_le hd
  omega

/-- The low bits of the two signed right shifts: the longer one leaves the sign. -/
theorem sshiftRight_eq_iff (hl : Canonical ctype.bitSize l) {c n : ℕ} (hc : c < ctype.bitSize)
    (hn : ctype.bitSize ≤ n) :
    (signExtended ctype.bitSize l).sshiftRight c &&& lowMask ctype.bitSize =
        (signExtended ctype.bitSize l).sshiftRight n &&& lowMask ctype.bitSize ↔
      l.toNat < 2 ^ c ∨ 2 ^ ctype.bitSize ≤ l.toNat + 2 ^ c := by
  have hpos := ctype.bitSize_pos
  have hle := ctype.bitSize_le
  have hbounds := signExtended_bounds hpos hle hl
  have hshift : ∀ k, ((signExtended ctype.bitSize l).sshiftRight k).toInt =
      (signExtended ctype.bitSize l).toInt / 2 ^ k := fun k => by
    rw [BitVec.toInt_sshiftRight, Int.shiftRight_eq_div_pow]
    norm_cast
  have hpowc : (0 : ℤ) < 2 ^ c := by positivity
  have hrange : ∀ k, -2 ^ (ctype.bitSize - 1) ≤
      ((signExtended ctype.bitSize l).sshiftRight k).toInt ∧
        ((signExtended ctype.bitSize l).sshiftRight k).toInt < 2 ^ (ctype.bitSize - 1) := by
    intro k
    have hk : (0 : ℤ) < 2 ^ k := by positivity
    rw [hshift]
    constructor
    · refine (Int.le_ediv_iff_mul_le hk).2 (le_trans ?_ hbounds.1)
      nlinarith [show (0 : ℤ) < 2 ^ (ctype.bitSize - 1) by positivity]
    · refine (Int.ediv_lt_iff_lt_mul hk).2 (lt_of_lt_of_le hbounds.2 ?_)
      nlinarith [show (0 : ℤ) < 2 ^ (ctype.bitSize - 1) by positivity]
  rw [and_lowMask_inj_of_bounds hpos hle (hrange c) (hrange n), hshift, hshift]
  have hcpow : (2 : ℕ) ^ c ≤ 2 ^ (ctype.bitSize - 1) := Nat.pow_le_pow_right (by omega) (by omega)
  have hnpow : (2 : ℤ) ^ (ctype.bitSize - 1) ≤ 2 ^ n := by
    exact_mod_cast Nat.pow_le_pow_right (by omega) (show ctype.bitSize - 1 ≤ n by omega)
  have hpred : (2 : ℤ) ^ (ctype.bitSize - 1) = ((2 ^ (ctype.bitSize - 1) : ℕ) : ℤ) := by norm_cast
  have hfull := two_pow_pred hpos
  rcases Nat.lt_or_ge l.toNat (2 ^ (ctype.bitSize - 1)) with h | h
  · have hvalue := signExtended_toInt_of_lt hpos hle h
    rw [hvalue, Int.ediv_eq_zero_of_lt (by omega) (show (l.toNat : ℤ) < 2 ^ n by omega)]
    constructor
    · intro hzero
      left
      have hlt := Int.lt_mul_of_ediv_lt hpowc (show (l.toNat : ℤ) / 2 ^ c < 1 by omega)
      zify
      omega
    · rintro (hlt | hge)
      · exact Int.ediv_eq_zero_of_lt (by omega) (by exact_mod_cast hlt)
      · omega
  · have hvalue := signExtended_toInt_of_le hpos hle hl h
    have hx' : (l.toNat : ℤ) < 2 ^ ctype.bitSize := by exact_mod_cast hl
    have hneg : (l.toNat : ℤ) - 2 ^ ctype.bitSize < 0 := by omega
    have hfullInt : (2 : ℤ) ^ ctype.bitSize = ((2 ^ ctype.bitSize : ℕ) : ℤ) := by norm_cast
    have hcInt : (2 : ℤ) ^ c = ((2 ^ c : ℕ) : ℤ) := by norm_cast
    have hsign : ((l.toNat : ℤ) - 2 ^ ctype.bitSize) / 2 ^ n = -1 :=
      (ediv_eq_neg_one_iff (by positivity) hneg).2 (by omega)
    rw [hvalue, hsign, ediv_eq_neg_one_iff hpowc hneg]
    omega

theorem simplifyIntBinop_overwide {op : BinaryOp} (hop : op.isShift = true)
    (hwide : ctype.bitSize ≤ r.toNat) :
    simplifyIntBinop false op ctype l r = intBinopValue op ctype l (checkShiftCount ctype r) := by
  rw [simplifyIntBinop, shiftCount, if_pos ⟨hop, hwide⟩]
  rfl

/-- Shifts by a count from the size on. -/
theorem overwide_iff {op : BinaryOp} (hop : op.isShift = true) (hl : Canonical ctype.bitSize l)
    (hwide : ctype.bitSize ≤ r.toNat) :
    (∀ a b, simplifyIntBinop false op ctype l r = some a →
        simplifyConstantBinop (opcodeSign op.opcode ctype) ctype.bitSize l r = some b → a = b) ↔
      OverwideHarmless op ctype l r := by
  have hc := checkShiftCount_lt ctype r
  have hc64 : (checkShiftCount ctype r).toNat < 64 := Nat.lt_of_lt_of_le hc ctype.bitSize_le
  have hul := extendOperand_and_lowMask hl
  rw [simplifyIntBinop_overwide hop hwide, OverwideHarmless]
  cases op with
  | leftShift =>
    have hinsn : simplifyConstantBinop (opcodeSign BinaryOp.leftShift.opcode ctype) ctype.bitSize l r =
        (insnShiftCount .leftShift ctype r).map fun n =>
          extendOperand ctype.bitSize l <<< n &&& lowMask ctype.bitSize := by
      cases hs : ctype.unsigned <;>
        simp only [simplifyConstantBinop, BinaryOp.opcode, opcodeSign, hs, if_true,
          Bool.false_eq_true, if_false, hostShl, insnShiftCount, reduceCtorEq, false_and] <;>
        split <;> rfl
    have htree : intBinopValue .leftShift ctype l (checkShiftCount ctype r) =
        some (l <<< (checkShiftCount ctype r).toNat &&& lowMask ctype.bitSize) := by
      simp only [intBinopValue, hostShl, hc64, if_true, Option.map_some]
    rw [hinsn, htree]
    constructor
    · intro h n hn
      have hge := le_of_insnShiftCount (by simp) hwide hn
      refine (shiftLeft_eq_iff hc hge (extendOperand ctype.bitSize l)).1 (h _ _ rfl ?_)
      rw [hn, Option.map_some]
    · intro h a b ha hb
      obtain ⟨n, hn, rfl⟩ := Option.map_eq_some_iff.1 hb
      have hge := le_of_insnShiftCount (by simp) hwide hn
      rw [← Option.some.inj ha]
      exact (shiftLeft_eq_iff hc hge (extendOperand ctype.bitSize l)).2 (h n hn)
  | rightShift =>
    cases hs : ctype.unsigned with
    | true =>
      have hinsn : simplifyConstantBinop (opcodeSign BinaryOp.rightShift.opcode ctype) ctype.bitSize l r =
          (insnShiftCount .rightShift ctype r).map fun n => l >>> n &&& lowMask ctype.bitSize := by
        simp only [simplifyConstantBinop, BinaryOp.opcode, opcodeSign, hs, if_true, hostLsr,
          insnShiftCount, and_self, hul]
        split <;> rfl
      have htree : intBinopValue .rightShift ctype l (checkShiftCount ctype r) =
          some (l >>> (checkShiftCount ctype r).toNat &&& lowMask ctype.bitSize) := by
        simp only [intBinopValue, hs, hostLsr, hc64, if_true, Option.map_some]
      rw [hinsn, htree]
      constructor
      · intro h n hn
        refine (ushiftRight_eq_iff hl _ n).1 (h _ _ rfl ?_)
        rw [hn, Option.map_some]
      · intro h a b ha hb
        obtain ⟨n, hn, rfl⟩ := Option.map_eq_some_iff.1 hb
        rw [← Option.some.inj ha]
        exact (ushiftRight_eq_iff hl _ n).2 (h n hn)
    | false =>
      have hinsn : simplifyConstantBinop (opcodeSign BinaryOp.rightShift.opcode ctype) ctype.bitSize l r =
          (insnShiftCount .rightShift ctype r).map fun n =>
            (signExtended ctype.bitSize l).sshiftRight n &&& lowMask ctype.bitSize := by
        simp only [simplifyConstantBinop, BinaryOp.opcode, opcodeSign, hs, Bool.false_eq_true,
          if_false, hostAsr, insnShiftCount, and_false, extendOperand_eq]
        split <;> rfl
      have htree : intBinopValue .rightShift ctype l (checkShiftCount ctype r) =
          some ((signExtended ctype.bitSize l).sshiftRight (checkShiftCount ctype r).toNat &&&
            lowMask ctype.bitSize) := by
        simp only [intBinopValue, hs, hostAsr, hc64, if_true, Option.map_some, extendIfSigned,
          Bool.false_eq_true, if_false]
      rw [hinsn, htree]
      constructor
      · intro h n hn
        have hge := le_of_insnShiftCount (by simp [hs]) hwide hn
        refine (sshiftRight_eq_iff hl hc hge).1 (h _ _ rfl ?_)
        rw [hn, Option.map_some]
      · intro h a b ha hb
        obtain ⟨n, hn, rfl⟩ := Option.map_eq_some_iff.1 hb
        have hge := le_of_insnShiftCount (by simp [hs]) hwide hn
        rw [← Option.some.inj ha]
        exact (sshiftRight_eq_iff hl hc hge).2 (h n hn)
  | _ => simp [BinaryOp.isShift] at hop

/-! ## All operators -/

/-- Both folders have a value only if it is the same. -/
def FoldersAgree (conservative : Bool) (op : FoldedOp) (ctype : IntType) (l r : BitVec 64) : Prop :=
  ∀ a b, op.treeFold conservative ctype l r = some a → op.insnFold ctype l r = some b → a = b

/-- The operands of an operator with result type `ctype`: the right operand of
a shift has a type of its own. -/
structure Operands (op : FoldedOp) (ctype : IntType) (l r : BitVec 64) : Prop where
  left : Canonical ctype.bitSize l
  right : op.isShift = false → Canonical ctype.bitSize r

/-- The count is below the size, or is given up on, or does no harm. -/
def SafeCount (conservative : Bool) (op : FoldedOp) (ctype : IntType) (l r : BitVec 64) : Prop :=
  match op with
  | .compare _ => True
  | .binop op => op.isShift = true →
      r.toNat < ctype.bitSize ∨ conservative = true ∨ OverwideHarmless op ctype l r

theorem foldersAgree_iff (conservative : Bool) (op : FoldedOp) (ctype : IntType)
    (l r : BitVec 64) (h : Operands op ctype l r) :
    FoldersAgree conservative op ctype l r ↔ SafeCount conservative op ctype l r := by
  cases op with
  | compare op =>
    refine iff_of_true (fun a b ha hb => ?_) trivial
    rw [FoldedOp.insnFold, simplifyCmpBinop_agree op h.left (h.right rfl)] at hb
    exact Option.some.inj (ha.symm.trans hb)
  | binop op =>
    cases hop : op.isShift with
    | false =>
      have hright : Canonical ctype.bitSize r := h.right hop
      refine iff_of_true (fun a b ha hb => ?_) fun hshift => ?_
      · rw [FoldedOp.treeFold, simplifyIntBinop, shiftCount, if_neg (by simp [hop])] at ha
        exact intBinopValue_agree hop h.left hright ha hb
      · rw [hop] at hshift
        exact absurd hshift Bool.false_ne_true
    | true =>
      simp only [SafeCount, hop, forall_const]
      rcases Nat.lt_or_ge r.toNat ctype.bitSize with hlt | hwide
      · refine iff_of_true (fun a b ha hb => ?_) (Or.inl hlt)
        rw [FoldedOp.treeFold, simplifyIntBinop, shiftCount, if_neg (by omega), Option.bind_some,
          shift_agree hop h.left hlt] at ha
        exact Option.some.inj (ha.symm.trans hb)
      · cases conservative with
        | true =>
          refine iff_of_true (fun a b ha hb => ?_) (Or.inr (Or.inl rfl))
          simp [FoldedOp.treeFold, simplifyIntBinop, shiftCount, hop, hwide] at ha
        | false =>
          refine (overwide_iff hop h.left hwide).trans ?_
          simp [Nat.not_lt.2 hwide]

/-- `int`, on a target where it has 32 bits. -/
def int32 : IntType :=
  ⟨32, false, IntType.int_pos, IntType.int_le⟩

theorem foldersAgree_int32_iff :
    Operands (.binop .leftShift) int32 1#64 32#64 ∧
      (FoldersAgree false (.binop .leftShift) int32 1#64 32#64 ↔
        SafeCount false (.binop .leftShift) int32 1#64 32#64) :=
  have h : Operands (.binop .leftShift) int32 1#64 32#64 :=
    ⟨by decide, fun hshift => absurd hshift (by decide)⟩
  ⟨h, foldersAgree_iff false (.binop .leftShift) int32 1#64 32#64 h⟩

/-- `1 << 32` is 1 on the tree and 0 on the instruction. -/
theorem not_foldersAgree_int32 :
    ¬ ∀ (conservative : Bool) (op : FoldedOp) (ctype : IntType) (l r : BitVec 64),
      Operands op ctype l r → FoldersAgree conservative op ctype l r := by
  intro h
  have hne : (1#64 : BitVec 64) = 0#64 :=
    h false (.binop .leftShift) int32 1#64 32#64
      ⟨by decide, fun hshift => absurd hshift (by decide)⟩ 1#64 0#64 (by decide) (by decide)
  exact absurd hne (by decide)

end Sparse
