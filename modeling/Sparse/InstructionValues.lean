import Sparse.FolderAgreement

/-!
# The values of arithmetic instructions

What an arithmetic opcode computes on words of the size of its instruction, and the
folder of the instructions against it.
-/

namespace Sparse
open MaskedWords

/-- A truth value as a word. -/
def truthWord (w : ℕ) (b : Bool) : BitVec w :=
  if b then 1#w else 0#w

namespace Opcode

/-- The two's complement operation of a binary opcode, where it is defined. -/
def binaryWord {w : ℕ} (opcode : Opcode) (x y : BitVec w) : Option (BitVec w) :=
  match opcode with
  | addLin => some (x + y)
  | sub => some (x - y)
  | mulu | muls => some (x * y)
  | divu => if y = 0#w then none else some (x / y)
  | divs =>
    if y = 0#w ∨ x = BitVec.intMin w ∧ y = -1#w then none else some (x.sdiv y)
  | modu => if y = 0#w then none else some (x % y)
  | mods =>
    if y = 0#w ∨ x = BitVec.intMin w ∧ y = -1#w then none else some (x.srem y)
  | shl => if y.toNat < w then some (x <<< y.toNat) else none
  | lsr => if y.toNat < w then some (x >>> y.toNat) else none
  | asr => if y.toNat < w then some (x.sshiftRight y.toNat) else none
  | andLin => some (x &&& y)
  | orLin => some (x ||| y)
  | xorLin => some (x ^^^ y)
  | andBool => some (truthWord w (x != 0#w && y != 0#w))
  | orBool => some (truthWord w (x != 0#w || y != 0#w))
  | setEq => some (truthWord w (x == y))
  | setNe => some (truthWord w (x != y))
  | setLe => some (truthWord w (x.sle y))
  | setGe => some (truthWord w (y.sle x))
  | setLt => some (truthWord w (x.slt y))
  | setGt => some (truthWord w (y.slt x))
  | setB => some (truthWord w (x.ult y))
  | setA => some (truthWord w (y.ult x))
  | setBe => some (truthWord w (x.ule y))
  | setAe => some (truthWord w (y.ule x))
  | _ => none

/-- The two's complement operation of a unary opcode. -/
def unaryWord {w : ℕ} (opcode : Opcode) (x : BitVec w) : Option (BitVec w) :=
  match opcode with
  | notLin => some (~~~x)
  | neg => some (-x)
  | _ => none

end Opcode

/-- `simplify_constant_unop`: the value that replaces the target. -/
def simplifyConstantUnop (opcode : Opcode) (size : ℕ) (src1 : BitVec 64) : Option (BitVec 64) :=
  let res := match opcode with
    | .notLin => some (~~~src1)
    | .neg => some (-src1)
    | _ => none
  res.map (· &&& lowMask size)

section Words

variable {w : ℕ} {x y : BitVec w} {a b : BitVec 64}

theorem and_lowMask_eq_setWidth (hw : 0 < w) (h64 : w ≤ 64) (a : BitVec 64) :
    a &&& lowMask w = (a.setWidth w).setWidth 64 := by
  refine BitVec.eq_of_toNat_eq ?_
  rw [and_lowMask_toNat hw h64, BitVec.toNat_setWidth, BitVec.toNat_setWidth]
  have hlt : a.toNat % 2 ^ w < 2 ^ 64 :=
    Nat.lt_of_lt_of_le (Nat.mod_lt _ (Nat.two_pow_pos w)) (two_pow_le h64)
  exact (Nat.mod_eq_of_lt hlt).symm

theorem canonical_setWidth (h64 : w ≤ 64) (x : BitVec w) : Canonical w (x.setWidth 64) := by
  rw [Canonical, BitVec.toNat_setWidth_of_le h64]
  exact x.isLt

theorem setWidth_setWidth_of_canonical (h64 : w ≤ 64) (ha : Canonical w a) :
    (a.setWidth w).setWidth 64 = a := by
  refine BitVec.eq_of_toNat_eq ?_
  rw [BitVec.toNat_setWidth_of_le h64, BitVec.toNat_setWidth, Nat.mod_eq_of_lt ha]

theorem setWidth_of_toInt (h64 : w ≤ 64) (h : a.toInt = x.toInt) : a.setWidth w = x := by
  have hwide : a = BitVec.ofInt 64 x.toInt := by
    rw [← h, BitVec.ofInt_toInt]
  rw [hwide, ofInt_setWidth h64, BitVec.ofInt_toInt]

theorem setWidth_of_toNat (h : a.toNat = x.toNat) : a.setWidth w = x := by
  refine BitVec.eq_of_toNat_eq ?_
  rw [BitVec.toNat_setWidth, h, Nat.mod_eq_of_lt x.isLt]

/-- The extension at the head of the folder reads an operand as signed. -/
theorem extendOperand_word (hw : 0 < w) (h64 : w ≤ 64) (x : BitVec w) :
    extendOperand w (x.setWidth 64) = x.signExtend 64 := by
  have hx := canonical_setWidth h64 x
  rw [extendOperand_eq ⟨w, false, hw, h64⟩, signExtended_eq hw h64 hx,
    BitVec.setWidth_setWidth_of_le _ h64, BitVec.setWidth_eq]

theorem signExtend_setWidth (h64 : w ≤ 64) (x : BitVec w) : (x.signExtend 64).setWidth w = x :=
  setWidth_of_toInt h64 (BitVec.toInt_signExtend_of_le h64)

theorem signExtend_and_lowMask (hw : 0 < w) (h64 : w ≤ 64) (x : BitVec w) :
    x.signExtend 64 &&& lowMask w = x.setWidth 64 := by
  rw [and_lowMask_eq_setWidth hw h64, signExtend_setWidth h64]

theorem truth_setWidth (hw : 0 < w) (h64 : w ≤ 64) (b : Bool) :
    (truthWord w b).setWidth 64 = boolWord b := by
  have hone : 1 < 2 ^ w := Nat.one_lt_two_pow (by omega)
  refine BitVec.eq_of_toNat_eq ?_
  rw [BitVec.toNat_setWidth_of_le h64]
  cases b with
  | false => rfl
  | true => exact Nat.mod_eq_of_lt hone

theorem setWidth_eq_zero (h64 : w ≤ 64) (x : BitVec w) : x.setWidth 64 = 0#64 ↔ x = 0#w := by
  rw [← BitVec.toNat_inj, ← BitVec.toNat_inj, BitVec.toNat_setWidth_of_le h64]
  exact Iff.rfl

theorem signExtend_inj (h64 : w ≤ 64) : x.signExtend 64 = y.signExtend 64 ↔ x = y := by
  refine ⟨fun h => ?_, fun h => by rw [h]⟩
  rw [← signExtend_setWidth h64 x, h, signExtend_setWidth h64 y]

theorem signExtend_eq_zero (h64 : w ≤ 64) (x : BitVec w) : x.signExtend 64 = 0#64 ↔ x = 0#w := by
  have hzero : (0#w).signExtend 64 = 0#64 := by
    refine BitVec.eq_of_toInt_eq ?_
    rw [BitVec.toInt_signExtend_of_le h64, BitVec.toInt_zero, BitVec.toInt_zero]
  rw [← hzero]
  exact signExtend_inj h64

theorem masked_eq (hw : 0 < w) (h64 : w ≤ 64) (h : a.setWidth w = x) :
    a &&& lowMask w = x.setWidth 64 := by
  rw [and_lowMask_eq_setWidth hw h64, h]

theorem masked_truth (hw : 0 < w) (h64 : w ≤ 64) {p q : Bool} (h : p = q) :
    boolWord p &&& lowMask w = (truthWord w q).setWidth 64 := by
  rw [truth_setWidth hw h64, h]
  exact boolWord_and_lowMask ⟨w, false, hw, h64⟩ q

theorem beq_zero_iff (h : a = 0#64 ↔ x = 0#w) : (a == 0#64) = (x == 0#w) := by
  rw [Bool.eq_iff_iff, beq_iff_eq, beq_iff_eq]
  exact h

/-- The signed operands are those of the size. -/
theorem signExtend_slt (h64 : w ≤ 64) (x y : BitVec w) :
    (x.signExtend 64).slt (y.signExtend 64) = x.slt y := by
  rw [BitVec.slt, BitVec.slt, BitVec.toInt_signExtend_of_le h64, BitVec.toInt_signExtend_of_le h64]

theorem signExtend_sle (h64 : w ≤ 64) (x y : BitVec w) :
    (x.signExtend 64).sle (y.signExtend 64) = x.sle y := by
  rw [BitVec.sle, BitVec.sle, BitVec.toInt_signExtend_of_le h64, BitVec.toInt_signExtend_of_le h64]

theorem setWidth_ult (h64 : w ≤ 64) (x y : BitVec w) :
    (x.setWidth 64).ult (y.setWidth 64) = x.ult y := by
  rw [BitVec.ult, BitVec.ult, BitVec.toNat_setWidth_of_le h64, BitVec.toNat_setWidth_of_le h64]

theorem setWidth_ule (h64 : w ≤ 64) (x y : BitVec w) :
    (x.setWidth 64).ule (y.setWidth 64) = x.ule y := by
  rw [BitVec.ule, BitVec.ule, BitVec.toNat_setWidth_of_le h64, BitVec.toNat_setWidth_of_le h64]

/-- The host divides the least number by -1 only where the size is its own. -/
theorem not_host_overflow (hw : 0 < w) (h64 : w ≤ 64)
    (h : ¬(x = BitVec.intMin w ∧ y = -1#w)) :
    ¬(x.signExtend 64 = BitVec.intMin 64 ∧ y.signExtend 64 = -1#64) := by
  rintro ⟨hx, hy⟩
  have hxmin : x.toInt = -2 ^ 63 := by
    rw [← BitVec.toInt_signExtend_of_le h64, hx]
    rfl
  have hyone : y = -1#w := by
    rw [← signExtend_setWidth h64 y, hy]
    refine BitVec.eq_of_getLsbD_eq fun i hi => ?_
    have hi64 : i < 64 := Nat.lt_of_lt_of_le hi h64
    rw [BitVec.getLsbD_setWidth, BitVec.neg_one_eq_allOnes, BitVec.neg_one_eq_allOnes,
      BitVec.getLsbD_allOnes, BitVec.getLsbD_allOnes]
    simp [hi, hi64]
  have hsize : w = 64 := by
    have hle := BitVec.le_toInt x
    by_contra hne
    have hpow : (2 : ℤ) ^ (w - 1) < 2 ^ 63 := pow_lt_pow_right₀ (by omega) (by omega)
    omega
  subst hsize
  refine h ⟨BitVec.eq_of_toInt_eq ?_, hyone⟩
  rw [hxmin]
  rfl

/-- A count below the size is read as it is. -/
theorem count_toNat (hw : 0 < w) (h64 : w ≤ 64) (h : y.toNat < w) :
    (y.signExtend 64).toNat = y.toNat := by
  have hcount : (y.setWidth 64).toNat < w := by
    rw [BitVec.toNat_setWidth_of_le h64]
    exact h
  have hsame : extendOperand w (y.setWidth 64) = y.setWidth 64 :=
    @extendOperand_of_lt_size ⟨w, false, hw, h64⟩ _ hcount
  rw [extendOperand_word hw h64] at hsame
  rw [hsame, BitVec.toNat_setWidth_of_le h64]

theorem setWidth_shiftLeft (h64 : w ≤ 64) (x : BitVec w) (n : ℕ) :
    (x.signExtend 64 <<< n).setWidth w = x <<< n := by
  rw [BitVec.shiftLeft_eq_mul_twoPow, BitVec.shiftLeft_eq_mul_twoPow,
    BitVec.setWidth_mul _ _ h64, signExtend_setWidth h64]
  congr 1
  refine BitVec.eq_of_getLsbD_eq fun i hi => ?_
  have hi64 : i < 64 := Nat.lt_of_lt_of_le hi h64
  rw [BitVec.getLsbD_setWidth, BitVec.getLsbD_twoPow, BitVec.getLsbD_twoPow]
  simp only [hi, decide_true, Bool.true_and]
  by_cases hn : n = i
  · simp [hn, hi, hi64]
  · simp [hn]

end Words

section Folder

variable {w : ℕ} {x y z : BitVec w} {opcode : Opcode}

/-- The operations that keep the low bits of the extended operands. -/
theorem fold_bits (hw : 0 < w) (h64 : w ≤ 64)
    (hop : opcode ∈ [Opcode.addLin, .sub, .muls, .andLin, .orLin, .xorLin])
    (h : opcode.binaryWord x y = some z) :
    simplifyConstantBinop opcode w (x.setWidth 64) (y.setWidth 64) = some (z.setWidth 64) := by
  simp only [List.mem_cons, List.not_mem_nil, or_false] at hop
  rcases hop with rfl | rfl | rfl | rfl | rfl | rfl
  all_goals
    obtain rfl := Option.some.inj h
    simp only [simplifyConstantBinop, extendOperand_word hw h64, Option.map_some]
    refine congrArg some (masked_eq hw h64 ?_)
    simp only [BitVec.setWidth_add _ _ h64, setWidth_sub h64, BitVec.setWidth_mul _ _ h64,
      BitVec.setWidth_and, BitVec.setWidth_or, BitVec.setWidth_xor, signExtend_setWidth h64]

theorem fold_unsigned (hw : 0 < w) (h64 : w ≤ 64)
    (hop : opcode ∈ [Opcode.mulu, .divu, .modu])
    (h : opcode.binaryWord x y = some z) :
    simplifyConstantBinop opcode w (x.setWidth 64) (y.setWidth 64) = some (z.setWidth 64) := by
  simp only [List.mem_cons, List.not_mem_nil, or_false] at hop
  rcases hop with rfl | rfl | rfl
  · obtain rfl := Option.some.inj h
    simp only [simplifyConstantBinop, extendOperand_word hw h64, Option.map_some,
      signExtend_and_lowMask hw h64]
    refine congrArg some (masked_eq hw h64 ?_)
    rw [BitVec.setWidth_mul _ _ h64, BitVec.setWidth_setWidth_of_le _ h64,
      BitVec.setWidth_setWidth_of_le _ h64, BitVec.setWidth_eq, BitVec.setWidth_eq]
  · have hy : y ≠ 0#w := fun hy => absurd ((if_pos hy).symm.trans h) (Option.some_ne_none z).symm
    obtain rfl := Option.some.inj ((if_neg hy).symm.trans h)
    have hy64 : y.setWidth 64 ≠ 0#64 := fun h0 => hy ((setWidth_eq_zero h64 y).1 h0)
    simp only [simplifyConstantBinop, extendOperand_word hw h64, signExtend_and_lowMask hw h64,
      if_neg hy64, Option.map_some]
    refine congrArg some (masked_eq hw h64 (setWidth_of_toNat ?_))
    rw [BitVec.toNat_udiv, BitVec.toNat_udiv, BitVec.toNat_setWidth_of_le h64,
      BitVec.toNat_setWidth_of_le h64]
  · have hy : y ≠ 0#w := fun hy => absurd ((if_pos hy).symm.trans h) (Option.some_ne_none z).symm
    obtain rfl := Option.some.inj ((if_neg hy).symm.trans h)
    have hy64 : y.setWidth 64 ≠ 0#64 := fun h0 => hy ((setWidth_eq_zero h64 y).1 h0)
    simp only [simplifyConstantBinop, extendOperand_word hw h64, signExtend_and_lowMask hw h64,
      if_neg hy64, Option.map_some]
    refine congrArg some (masked_eq hw h64 (setWidth_of_toNat ?_))
    rw [BitVec.toNat_umod, BitVec.toNat_umod, BitVec.toNat_setWidth_of_le h64,
      BitVec.toNat_setWidth_of_le h64]

theorem fold_signed (hw : 0 < w) (h64 : w ≤ 64) (hop : opcode ∈ [Opcode.divs, .mods])
    (h : opcode.binaryWord x y = some z) :
    simplifyConstantBinop opcode w (x.setWidth 64) (y.setWidth 64) = some (z.setWidth 64) := by
  simp only [List.mem_cons, List.not_mem_nil, or_false] at hop
  have hdef : ¬(y = 0#w ∨ x = BitVec.intMin w ∧ y = -1#w) := by
    intro hundef
    rcases hop with rfl | rfl
    · exact absurd ((if_pos hundef).symm.trans h) (Option.some_ne_none z).symm
    · exact absurd ((if_pos hundef).symm.trans h) (Option.some_ne_none z).symm
  obtain ⟨hzero, hover⟩ := not_or.1 hdef
  have hzero64 : y.signExtend 64 ≠ 0#64 := fun h0 => hzero ((signExtend_eq_zero h64 y).1 h0)
  have hhost := not_host_overflow hw h64 hover
  have hne : x.signExtend 64 ≠ BitVec.intMin 64 ∨ y.signExtend 64 ≠ -1#64 :=
    not_and_or.1 hhost
  rcases hop with rfl | rfl
  · obtain rfl := Option.some.inj ((if_neg hdef).symm.trans h)
    simp only [simplifyConstantBinop, extendOperand_word hw h64, if_neg hzero64, hostDivs,
      if_neg hhost, Option.map_some]
    refine congrArg some (masked_eq hw h64 (setWidth_of_toInt h64 ?_))
    rw [BitVec.toInt_sdiv_of_ne_or_ne _ _ hne,
      BitVec.toInt_sdiv_of_ne_or_ne _ _ (not_and_or.1 hover),
      BitVec.toInt_signExtend_of_le h64, BitVec.toInt_signExtend_of_le h64]
  · obtain rfl := Option.some.inj ((if_neg hdef).symm.trans h)
    simp only [simplifyConstantBinop, extendOperand_word hw h64, if_neg hzero64, hostMods,
      if_neg hhost, Option.map_some]
    refine congrArg some (masked_eq hw h64 (setWidth_of_toInt h64 ?_))
    rw [BitVec.toInt_srem, BitVec.toInt_srem, BitVec.toInt_signExtend_of_le h64,
      BitVec.toInt_signExtend_of_le h64]

theorem fold_shift (hw : 0 < w) (h64 : w ≤ 64) (hop : opcode ∈ [Opcode.shl, .lsr, .asr])
    (h : opcode.binaryWord x y = some z) :
    simplifyConstantBinop opcode w (x.setWidth 64) (y.setWidth 64) = some (z.setWidth 64) := by
  simp only [List.mem_cons, List.not_mem_nil, or_false] at hop
  have hcount : y.toNat < w := by
    by_contra hge
    rcases hop with rfl | rfl | rfl
    all_goals exact absurd ((if_neg hge).symm.trans h) nofun
  have hleft := count_toNat hw h64 hcount
  have hright : (y.setWidth 64).toNat = y.toNat := BitVec.toNat_setWidth_of_le h64
  have hhost : y.toNat < 64 := Nat.lt_of_lt_of_le hcount h64
  rcases hop with rfl | rfl | rfl
  · obtain rfl := Option.some.inj ((if_pos hcount).symm.trans h)
    simp only [simplifyConstantBinop, extendOperand_word hw h64, hostShl, hleft, if_pos hhost,
      Option.map_some]
    exact congrArg some (masked_eq hw h64 (setWidth_shiftLeft h64 x y.toNat))
  · obtain rfl := Option.some.inj ((if_pos hcount).symm.trans h)
    simp only [simplifyConstantBinop, extendOperand_word hw h64, signExtend_and_lowMask hw h64,
      hostLsr, hright, if_pos hhost, Option.map_some]
    refine congrArg some (masked_eq hw h64 (setWidth_of_toNat ?_))
    rw [BitVec.toNat_ushiftRight, BitVec.toNat_ushiftRight, BitVec.toNat_setWidth_of_le h64]
  · obtain rfl := Option.some.inj ((if_pos hcount).symm.trans h)
    simp only [simplifyConstantBinop, extendOperand_word hw h64, hostAsr, hleft, if_pos hhost,
      Option.map_some]
    refine congrArg some (masked_eq hw h64 (setWidth_of_toInt h64 ?_))
    rw [BitVec.toInt_sshiftRight, BitVec.toInt_sshiftRight, BitVec.toInt_signExtend_of_le h64]

theorem fold_truth (hw : 0 < w) (h64 : w ≤ 64)
    (hop : opcode ∈ [Opcode.andBool, .orBool, .setEq, .setNe, .setLe, .setGe, .setLt, .setGt,
      .setB, .setA, .setBe, .setAe])
    (h : opcode.binaryWord x y = some z) :
    simplifyConstantBinop opcode w (x.setWidth 64) (y.setWidth 64) = some (z.setWidth 64) := by
  have hx := beq_zero_iff (signExtend_eq_zero h64 x)
  have hy := beq_zero_iff (signExtend_eq_zero h64 y)
  have heq : (x.signExtend 64 == y.signExtend 64) = (x == y) := by
    rw [Bool.eq_iff_iff, beq_iff_eq, beq_iff_eq]
    exact signExtend_inj h64
  simp only [List.mem_cons, List.not_mem_nil, or_false] at hop
  rcases hop with rfl | rfl | rfl | rfl | rfl | rfl | rfl | rfl | rfl | rfl | rfl | rfl
  all_goals
    obtain rfl := Option.some.inj h
    simp only [simplifyConstantBinop, extendOperand_word hw h64, signExtend_and_lowMask hw h64,
      Option.map_some]
    refine congrArg some (masked_truth hw h64 ?_)
    simp only [hx, hy, heq, bne, signExtend_slt h64, signExtend_sle h64, setWidth_ult h64,
      setWidth_ule h64]

/-- Where the operation is defined the folder computes it. -/
theorem simplifyConstantBinop_word (hw : 0 < w) (h64 : w ≤ 64)
    (h : opcode.binaryWord x y = some z) :
    simplifyConstantBinop opcode w (x.setWidth 64) (y.setWidth 64) = some (z.setWidth 64) := by
  cases opcode with
  | addLin | sub | muls | andLin | orLin | xorLin => exact fold_bits hw h64 (by simp) h
  | mulu | divu | modu => exact fold_unsigned hw h64 (by simp) h
  | divs | mods => exact fold_signed hw h64 (by simp) h
  | shl | lsr | asr => exact fold_shift hw h64 (by simp) h
  | andBool | orBool | setEq | setNe | setLe | setGe | setLt | setGt | setB | setA | setBe
  | setAe => exact fold_truth hw h64 (by simp) h
  | _ => exact absurd h nofun

theorem simplifyConstantUnop_word (hw : 0 < w) (h64 : w ≤ 64)
    (h : opcode.unaryWord x = some z) :
    simplifyConstantUnop opcode w (x.setWidth 64) = some (z.setWidth 64) := by
  have hx : (x.setWidth 64).setWidth w = x := by
    rw [BitVec.setWidth_setWidth_of_le _ h64, BitVec.setWidth_eq]
  cases opcode with
  | notLin =>
    obtain rfl := Option.some.inj h
    refine congrArg some (masked_eq hw h64 ?_)
    rw [BitVec.setWidth_not h64, hx]
  | neg =>
    obtain rfl := Option.some.inj h
    refine congrArg some (masked_eq hw h64 ?_)
    rw [BitVec.setWidth_neg_of_le h64, hx]
  | _ => exact absurd h nofun

/-- What the folder delivers has no bits above the size. -/
theorem canonical_folded (hw : 0 < w) (h64 : w ≤ 64) {res : Option (BitVec 64)} {v : BitVec 64}
    (h : res.map (· &&& lowMask w) = some v) : Canonical w v := by
  obtain ⟨r, -, rfl⟩ := Option.map_eq_some_iff.1 h
  exact canonical_and_lowMask hw h64 r

/-- On operands canonical at the size of the instruction, a value of either folder is that
of the two's complement operation of the size, wherever the operation is defined, and is
canonical. -/
theorem constantFolder_word {size : ℕ} (hpos : 0 < size) (h64 : size ≤ 64) (opcode : Opcode)
    {l r : BitVec 64} (hl : Canonical size l) (hr : Canonical size r) :
    (∀ v word, simplifyConstantBinop opcode size l r = some v →
      opcode.binaryWord (l.setWidth size) (r.setWidth size) = some word →
        v = word.setWidth 64 ∧ Canonical size v) ∧
    (∀ v word, simplifyConstantUnop opcode size l = some v →
      opcode.unaryWord (l.setWidth size) = some word →
        v = word.setWidth 64 ∧ Canonical size v) := by
  have hlw := setWidth_setWidth_of_canonical h64 hl
  have hrw := setWidth_setWidth_of_canonical h64 hr
  constructor
  · intro v word hv hword
    have hfold := simplifyConstantBinop_word hpos h64 hword
    rw [hlw, hrw] at hfold
    exact ⟨Option.some.inj (hv.symm.trans hfold), canonical_folded hpos h64 hv⟩
  · intro v word hv hword
    have hfold := simplifyConstantUnop_word hpos h64 hword
    rw [hlw] at hfold
    exact ⟨Option.some.inj (hv.symm.trans hfold), canonical_folded hpos h64 hv⟩

/-- A signed remainder at 8 bits, `-7 % 3`. -/
theorem constantFolder_word_mods :
    simplifyConstantBinop .mods 8 0xf9#64 3#64 = some 0xff#64 ∧
      Canonical 8 0xff#64 := by
  have hfold : simplifyConstantBinop .mods 8 0xf9#64 3#64 = some 0xff#64 := by decide
  have hword : Opcode.mods.binaryWord ((0xf9#64).setWidth 8) ((3#64).setWidth 8) = some 0xff#8 := by
    decide
  exact ⟨hfold, ((constantFolder_word (by decide) (by decide) .mods (by decide) (by decide)).1 _ _
    hfold hword).2⟩

end Folder

end Sparse
