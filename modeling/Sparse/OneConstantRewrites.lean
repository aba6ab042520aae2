import Sparse.InstructionValues
import Sparse.UseLists

/-!
# Rewriting an instruction with one constant operand

`simplify_binop` replaces such an instruction by an operand or a constant, or turns a
difference into a sum. The values before and after differ only where a boolean
operator with a neutral constant is replaced by an operand that is neither 0 nor 1.
-/

namespace Sparse
open MaskedWords

/-! ## The rewrites -/

/-- What becomes of the instruction; the warnings are left out. -/
inductive Rewrite
  /-- return 0 -/
  | none
  /-- replace_with_pseudo -/
  | replace (pseudo : Pseudo)
  /-- a new opcode and a new second operand -/
  | inPlace (opcode : Opcode) (src2 : Pseudo)
  deriving DecidableEq, Repr

/-- `value_size`. -/
def valueSize (value : BitVec 64) : ℕ :=
  let value := value.sshiftRight 8
  if value = 0#64 then 8
  else
    let value := value.sshiftRight 8
    if value = 0#64 then 16
    else
      let value := value.sshiftRight 16
      if value = 0#64 then 32 else 64

namespace Ir

variable (ir : Ir)

/-- The size that `operand_size` takes from a cast: `pseudo->def` of a register. -/
def castSize (pseudo : Pseudo) : Option ℕ :=
  match pseudo with
  | .reg _ =>
    match ir.definition pseudo with
    | some i =>
      if (ir.insn i).opcode = .cast then (ir.insn i).origType.map TypeInfo.bitSize else none
    | none => none
  | _ => none

/-- `operand_size`. -/
def operandSize (insn : Instruction) (pseudo : Pseudo) : ℕ :=
  match pseudo with
  | .reg _ =>
    match ir.castSize pseudo with
    | some origSize => if origSize < insn.size then origSize else insn.size
    | none => insn.size
  | .val value => if valueSize value < insn.size then valueSize value else insn.size
  | _ => insn.size

/-- `simplify_asr`. -/
def simplifyAsr (insn : Instruction) (pseudo : Pseudo) (value : BitVec 64) : Rewrite :=
  if (ir.operandSize insn pseudo : ℤ) ≤ value.toInt then .replace (.val 0#64)
  else if value = 0#64 then .replace pseudo
  else .none

/-- `simplify_constant_rightside`. -/
def simplifyConstantRightside (insn : Instruction) (value : BitVec 64) : Rewrite :=
  match insn.opcode with
  | .sub =>
    if value ≠ 0#64 then .inPlace .addLin (.val (-value))
    else .replace insn.src1
  | .addLin | .orLin | .xorLin | .orBool | .shl | .lsr =>
    if value = 0#64 then .replace insn.src1 else .none
  | .asr => ir.simplifyAsr insn insn.src1 value
  | .mulu | .muls | .andBool =>
    if value = 1#64 then .replace insn.src1
    else if value = 0#64 then .replace insn.src2
    else .none
  | .andLin => if value = 0#64 then .replace insn.src2 else .none
  | _ => .none

end Ir

/-- `simplify_constant_leftside`. -/
def simplifyConstantLeftside (insn : Instruction) (value : BitVec 64) : Rewrite :=
  match insn.opcode with
  | .addLin | .orLin | .xorLin => if value = 0#64 then .replace insn.src2 else .none
  | .shl | .lsr | .asr | .andLin | .mulu | .muls =>
    if value = 0#64 then .replace insn.src1 else .none
  | _ => .none

/-- `simplify_binop` on an instruction that is not dead, with at most one constant operand. -/
def Ir.simplifyOneConstant (ir : Ir) (insn : Instruction) : Rewrite :=
  match insn.src1, insn.src2 with
  | .val _, .val _ => .none
  | .val value, _ => simplifyConstantLeftside insn value
  | _, .val value => ir.simplifyConstantRightside insn value
  | _, _ => .none

/-! ## Their meaning -/

/-- The words that the pseudos hold when the instruction runs. -/
structure Valuation (ir : Ir) where
  word : Pseudo → BitVec 64
  word_val : ∀ value, word (.val value) = value
  /-- An `OP_CAST` extends the bits of the type that it casts from with zeros. -/
  word_cast : ∀ pseudo i t, ir.definition pseudo = some i → (ir.insn i).opcode = .cast →
    (ir.insn i).origType = some t →
      word pseudo = (((word (ir.insn i).src1).setWidth t.bitSize).setWidth
        (ir.insn i).size).setWidth 64

namespace Opcode

def isShift : Opcode → Bool
  | shl | lsr | asr => true
  | _ => false

/-- The value of an instruction of a size, where it is defined. A shift count is read whole, and the boolean
operators test all bits of their operands. -/
def insnWord (opcode : Opcode) (size : ℕ) (x y : BitVec 64) : Option (BitVec size) :=
  match opcode with
  | andBool => some (truthWord size (x != 0#64 && y != 0#64))
  | orBool => some (truthWord size (x != 0#64 || y != 0#64))
  | opcode =>
    if opcode.isShift ∧ size ≤ y.toNat then none
    else opcode.binaryWord (x.setWidth size) (y.setWidth size)

/-- `OP_AND_BOOL` and `OP_OR_BOOL`. -/
def isBool : Opcode → Bool
  | andBool | orBool => true
  | _ => false

end Opcode

namespace Valuation

variable {ir : Ir} (v : Valuation ir) (insn : Instruction)

/-- The value of the instruction. -/
def original : Option (BitVec insn.size) :=
  insn.opcode.insnWord insn.size (v.word insn.src1) (v.word insn.src2)

/-- The value after the rewrite. -/
def rewritten : Rewrite → Option (BitVec insn.size)
  | .none => v.original insn
  | .replace pseudo => some ((v.word pseudo).setWidth insn.size)
  | .inPlace opcode src2 => opcode.insnWord insn.size (v.word insn.src1) (v.word src2)

/-- Where the instruction has a value, the rewrite keeps it. -/
def RewriteKeepsValue : Prop :=
  ∀ word, v.original insn = some word →
    v.rewritten insn (ir.simplifyOneConstant insn) = some word

/-- `operand_size` bounds the bits of every operand, and the rewrite keeps the value. -/
def RewriteSound : Prop :=
  (∀ pseudo, ((v.word pseudo).setWidth insn.size).toNat < 2 ^ ir.operandSize insn pseudo) ∧
    v.RewriteKeepsValue insn

/-- The instruction is a boolean operator with the constant that it ignores, and the
other operand is not 0 and not 1 at the size of the instruction. -/
def BareBoolean : Prop :=
  sparseConstant insn.src1 = false ∧
    (insn.opcode = .orBool ∧ insn.src2 = .val 0#64 ∨
      insn.opcode = .andBool ∧ insn.src2 = .val 1#64) ∧
    v.word insn.src1 ≠ 0#64 ∧
    (v.word insn.src1).setWidth insn.size ≠ 1#(insn.size)

variable {v insn}

/-! ## The width of an operand -/

theorem toNat_lt_of_sshiftRight {x : BitVec 64} {n : ℕ} (h : x.sshiftRight n = 0#64) :
    x.toNat < 2 ^ n := by
  have hshift : x.toInt >>> n = 0 := by
    rw [← BitVec.toInt_sshiftRight, h]
    rfl
  rw [Int.shiftRight_eq_div_pow] at hshift
  have hpos : (0 : ℤ) < ((2 ^ n : ℕ) : ℤ) := by
    exact_mod_cast Nat.two_pow_pos n
  have hnonneg : 0 ≤ x.toInt := by
    have hle := Int.ediv_mul_le x.toInt hpos.ne'
    rw [hshift, Int.zero_mul] at hle
    exact hle
  have hlt : x.toInt < ((2 ^ n : ℕ) : ℤ) := by
    have hdiv := Int.lt_ediv_add_one_mul_self x.toInt hpos
    rw [hshift, Int.zero_add, Int.one_mul] at hdiv
    exact hdiv
  have hbound := x.isLt
  rw [BitVec.toInt_eq_toNat_cond] at hnonneg hlt
  split at hnonneg
  · rename_i hsmall
    rw [if_pos hsmall] at hlt
    exact_mod_cast hlt
  · omega

theorem lt_two_pow_valueSize (x : BitVec 64) : x.toNat < 2 ^ valueSize x := by
  have h16 : (x.sshiftRight 8).sshiftRight 8 = x.sshiftRight 16 := by
    rw [← BitVec.sshiftRight_add]
  have h32 : (x.sshiftRight 16).sshiftRight 16 = x.sshiftRight 32 := by
    rw [← BitVec.sshiftRight_add]
  simp only [valueSize, h16, h32]
  split_ifs with h8 h16 h32
  · exact toNat_lt_of_sshiftRight h8
  · exact toNat_lt_of_sshiftRight h16
  · exact toNat_lt_of_sshiftRight h32
  · exact x.isLt

theorem lt_two_pow_castSize {pseudo : Pseudo} {size : ℕ} (h : ir.castSize pseudo = some size) :
    (v.word pseudo).toNat < 2 ^ size := by
  unfold Ir.castSize at h
  split at h
  · split at h
    · rename_i i hdef
      split at h
      · rename_i hcast
        obtain ⟨t, ht, rfl⟩ := Option.map_eq_some_iff.1 h
        rw [v.word_cast _ i t hdef hcast ht]
        simp only [BitVec.toNat_setWidth]
        have hlt := Nat.mod_lt (v.word (ir.insn i).src1).toNat (Nat.two_pow_pos t.bitSize)
        exact Nat.lt_of_le_of_lt ((Nat.mod_le _ _).trans (Nat.mod_le _ _)) hlt
      · exact absurd h nofun
    · exact absurd h nofun
  · exact absurd h nofun

/-- `operand_size` bounds the significant bits of the operand. -/
theorem lt_two_pow_operandSize (insn : Instruction) (pseudo : Pseudo) :
    ((v.word pseudo).setWidth insn.size).toNat < 2 ^ ir.operandSize insn pseudo := by
  have hsize := ((v.word pseudo).setWidth insn.size).isLt
  have hmod : ((v.word pseudo).setWidth insn.size).toNat ≤ (v.word pseudo).toNat := by
    rw [BitVec.toNat_setWidth]
    exact Nat.mod_le _ _
  unfold Ir.operandSize
  split
  · split
    · rename_i origSize h
      split
      · exact Nat.lt_of_le_of_lt hmod (lt_two_pow_castSize h)
      · exact hsize
    · exact hsize
  · split
    · rw [v.word_val] at hmod ⊢
      exact Nat.lt_of_le_of_lt hmod (lt_two_pow_valueSize _)
    · exact hsize
  · exact hsize

/-! ## The two sides -/

theorem sshiftRight_eq_zero {w : ℕ} {x : BitVec w} {m n : ℕ} (hx : x.toNat < 2 ^ m) (hm : m < w)
    (hmn : m ≤ n) : x.sshiftRight n = 0#w := by
  have hpow : (2 : ℕ) ^ m ≤ 2 ^ (w - 1) := Nat.pow_le_pow_right (by omega) (by omega)
  have hmsb : x.msb = false := by
    rw [BitVec.msb_eq_false_iff_two_mul_lt]
    have hdouble : 2 ^ w = 2 * 2 ^ (w - 1) := two_pow_pred (by omega)
    omega
  rw [BitVec.sshiftRight_eq_of_msb_false hmsb]
  refine BitVec.eq_of_toNat_eq ?_
  rw [BitVec.toNat_ushiftRight, Nat.shiftRight_eq_div_pow]
  exact Nat.div_eq_of_lt (Nat.lt_of_lt_of_le hx (Nat.pow_le_pow_right (by omega) hmn))

/-- The boolean operators with the constant they ignore give the truth value of the other
operand. -/
theorem truth_eq_self (w : ℕ) (x : BitVec 64) :
    truthWord w (x != 0#64) = x.setWidth w ↔ x = 0#64 ∨ x.setWidth w = 1#w := by
  unfold truthWord
  by_cases hx : x = 0#64
  · simp [hx]
  · simp only [bne_iff_ne, ne_eq, hx, not_false_eq_true, if_true, false_or]
    exact eq_comm

theorem insnWord_of_not_bool {opcode : Opcode} (hbool : opcode.isBool = false) (size : ℕ) (x y : BitVec 64) :
    opcode.insnWord size x y =
      if opcode.isShift ∧ size ≤ y.toNat then none
      else opcode.binaryWord (x.setWidth size) (y.setWidth size) := by
  cases opcode <;> simp_all [Opcode.insnWord, Opcode.isBool]

/-- A shift is defined at counts below the size, which the size leaves as they are. -/
theorem insnWord_shift {opcode : Opcode} {size : ℕ} {x y : BitVec 64} {word : BitVec size}
    (hop : opcode.isShift = true) (h : opcode.insnWord size x y = some word) :
    y.toNat < size ∧ (y.setWidth size).toNat = y.toNat ∧
      opcode.binaryWord (x.setWidth size) (y.setWidth size) = some word := by
  have hbool : opcode.isBool = false := by
    cases opcode <;> simp_all [Opcode.isShift, Opcode.isBool]
  rw [insnWord_of_not_bool hbool] at h
  have hlt : y.toNat < size := by
    by_contra hge
    exact absurd ((if_pos ⟨hop, Nat.le_of_not_lt hge⟩).symm.trans h) nofun
  refine ⟨hlt, ?_, ?_⟩
  · rw [BitVec.toNat_setWidth, Nat.mod_eq_of_lt (Nat.lt_trans hlt Nat.lt_two_pow_self)]
  · exact (if_neg (fun hge => absurd hge.2 (Nat.not_le_of_lt hlt))).symm.trans h

theorem insnWord_of_not_shift {opcode : Opcode} (hop : opcode.isShift = false)
    (hbool : opcode.isBool = false) (size : ℕ) (x y : BitVec 64) :
    opcode.insnWord size x y = opcode.binaryWord (x.setWidth size) (y.setWidth size) := by
  rw [insnWord_of_not_bool hbool]
  refine if_neg fun h => ?_
  rw [hop] at h
  exact Bool.false_ne_true h.1

section Algebra

variable {w : ℕ} {opcode : Opcode} {x y z : BitVec w}

theorem binaryWord_zero_right (hw : 0 < w)
    (hop : opcode ∈ [Opcode.addLin, .sub, .orLin, .xorLin, .shl, .lsr]) :
    opcode.binaryWord x 0#w = some x := by
  simp only [List.mem_cons, List.not_mem_nil, or_false] at hop
  rcases hop with rfl | rfl | rfl | rfl | rfl | rfl
  all_goals simp [Opcode.binaryWord, hw]

theorem binaryWord_one_right (hop : opcode = .mulu ∨ opcode = .muls) :
    opcode.binaryWord x 1#w = some x := by
  rcases hop with rfl | rfl
  all_goals simp [Opcode.binaryWord]

theorem binaryWord_zero_absorbs (hop : opcode ∈ [Opcode.mulu, .muls, .andLin]) :
    opcode.binaryWord x 0#w = some 0#w := by
  simp only [List.mem_cons, List.not_mem_nil, or_false] at hop
  rcases hop with rfl | rfl | rfl
  all_goals simp [Opcode.binaryWord]

theorem binaryWord_zero_left (hop : opcode ∈ [Opcode.addLin, .orLin, .xorLin]) :
    opcode.binaryWord 0#w y = some y := by
  simp only [List.mem_cons, List.not_mem_nil, or_false] at hop
  rcases hop with rfl | rfl | rfl
  all_goals simp [Opcode.binaryWord]

theorem binaryWord_zero_left_absorbs
    (hop : opcode ∈ [Opcode.shl, .lsr, .asr, .andLin, .mulu, .muls])
    (h : opcode.binaryWord 0#w y = some z) : z = 0#w := by
  simp only [List.mem_cons, List.not_mem_nil, or_false] at hop
  rcases hop with rfl | rfl | rfl | rfl | rfl | rfl
  all_goals
    simp only [Opcode.binaryWord, Option.ite_none_right_eq_some, Option.some.injEq] at h
  · rw [← h.2, BitVec.zero_shiftLeft]
  · rw [← h.2, BitVec.zero_ushiftRight]
  · rw [← h.2, BitVec.zero_sshiftRight]
  · rw [← h, BitVec.zero_and]
  · rw [← h, BitVec.zero_mul]
  · rw [← h, BitVec.zero_mul]

theorem sub_eq_add_neg_word : Opcode.sub.binaryWord x y = Opcode.addLin.binaryWord x (-y) :=
  congrArg some (BitVec.sub_eq_add_neg x y)

end Algebra

section Sides

variable {value : BitVec 64} {word : BitVec insn.size}

theorem rewritten_ite {p : Prop} [Decidable p] {r : Rewrite} (h : v.original insn = some word)
    (hr : p → v.rewritten insn r = some word) :
    v.rewritten insn (if p then r else .none) = some word := by
  split
  · rename_i hp
    exact hr hp
  · exact h

theorem original_right (h2 : insn.src2 = .val value) :
    v.original insn = insn.opcode.insnWord insn.size (v.word insn.src1) value := by
  rw [original, h2, v.word_val]

theorem original_left (h1 : insn.src1 = .val value) :
    v.original insn = insn.opcode.insnWord insn.size value (v.word insn.src2) := by
  rw [original, h1, v.word_val]

/-- An arithmetic right shift by at least the width of its operand gives 0 wherever it is
defined. -/
theorem simplifyAsr_keeps (hop : insn.opcode = .asr) (h2 : insn.src2 = .val value)
    (h : v.original insn = some word) :
    v.rewritten insn (ir.simplifyAsr insn insn.src1 value) = some word := by
  have hshift := h
  rw [original_right h2, hop] at hshift
  obtain ⟨hlt, hcount, hword⟩ := insnWord_shift rfl hshift
  have hasr := Option.some.inj ((if_pos (hcount ▸ hlt)).symm.trans hword)
  rw [hcount] at hasr
  unfold Ir.simplifyAsr
  split
  · rename_i hge
    have hbound := v.lt_two_pow_operandSize insn insn.src1
    have hvalue : value.toInt = value.toNat ∨ value.toInt < 0 := by
      have hval := value.isLt
      rw [BitVec.toInt_eq_toNat_cond]
      split
      · exact .inl rfl
      · exact .inr (by omega)
    have hle : ir.operandSize insn insn.src1 ≤ value.toNat := by
      omega
    have hzero := sshiftRight_eq_zero hbound (Nat.lt_of_le_of_lt hle hlt) hle
    rw [← hasr, hzero]
    simp [rewritten, v.word_val]
  · refine rewritten_ite h fun hz => ?_
    rw [← hasr, hz]
    simp [rewritten]

theorem one_setWidth (hpos : 0 < insn.size) : (1#64).setWidth insn.size = 1#(insn.size) := by
  have hone : 1 < 2 ^ insn.size := Nat.one_lt_two_pow (by omega)
  exact setWidth_of_toNat (Nat.mod_eq_of_lt hone).symm

theorem rewritten_replace {pseudo : Pseudo} (h : (v.word pseudo).setWidth insn.size = word) :
    v.rewritten insn (.replace pseudo) = some word :=
  congrArg some h

theorem rightside_keeps (hpos : 0 < insn.size) (h64 : insn.size ≤ 64)
    (h2 : insn.src2 = .val value)
    (hsafe : insn.opcode = .orBool ∧ value = 0#64 ∨ insn.opcode = .andBool ∧ value = 1#64 →
      v.word insn.src1 = 0#64 ∨ (v.word insn.src1).setWidth insn.size = 1#(insn.size))
    (h : v.original insn = some word) :
    v.rewritten insn (ir.simplifyConstantRightside insn value) = some word := by
  have horig := h
  rw [original_right h2] at horig
  -- the neutral and the absorbing constant, as words of the size
  have hzero : value = 0#64 → insn.opcode.isBool = false →
      insn.opcode.binaryWord ((v.word insn.src1).setWidth insn.size) 0#(insn.size) = some word := by
    rintro rfl hbool
    rw [insnWord_of_not_bool hbool, if_neg fun hge => absurd hge.2 (Nat.not_le_of_lt hpos),
      BitVec.setWidth_zero] at horig
    exact horig
  have hone : value = 1#64 → insn.opcode.isShift = false → insn.opcode.isBool = false →
      insn.opcode.binaryWord ((v.word insn.src1).setWidth insn.size) 1#(insn.size) = some word := by
    rintro rfl hshift hbool
    rw [insnWord_of_not_shift hshift hbool, one_setWidth hpos] at horig
    exact horig
  have habsorbs : value = 0#64 → (v.word insn.src2).setWidth insn.size = 0#(insn.size) := by
    rintro rfl
    rw [h2, v.word_val]
    exact BitVec.setWidth_zero _ _
  unfold Ir.simplifyConstantRightside
  cases hop : insn.opcode with
  | sub =>
    rw [hop] at horig hzero
    dsimp only
    split
    · change Opcode.addLin.insnWord insn.size (v.word insn.src1) (v.word (.val (-value))) = _
      rw [v.word_val, insnWord_of_not_shift rfl rfl, BitVec.setWidth_neg_of_le h64,
        ← sub_eq_add_neg_word, ← insnWord_of_not_shift rfl rfl]
      exact horig
    · rename_i hz
      have hword := hzero (not_not.1 hz) rfl
      rw [binaryWord_zero_right hpos (by simp)] at hword
      exact rewritten_replace (Option.some.inj hword)
  | addLin | orLin | xorLin | shl | lsr =>
    rw [hop] at hzero
    refine rewritten_ite h fun hz => ?_
    have hword := hzero hz rfl
    rw [binaryWord_zero_right hpos (by simp)] at hword
    exact rewritten_replace (Option.some.inj hword)
  | orBool =>
    rw [hop] at horig
    refine rewritten_ite h fun hz => ?_
    have hword := Option.some.inj horig
    simp only [hz, bne_self_eq_false, Bool.or_false] at hword
    rw [← hword]
    exact rewritten_replace ((truth_eq_self _ _).2 (hsafe (.inl ⟨hop, hz⟩))).symm
  | asr => exact simplifyAsr_keeps hop h2 h
  | mulu | muls =>
    rw [hop] at hzero hone
    dsimp only
    split
    · rename_i h1
      have hword := hone h1 rfl rfl
      rw [binaryWord_one_right (by simp)] at hword
      exact rewritten_replace (Option.some.inj hword)
    · refine rewritten_ite h fun hz => ?_
      have hword := hzero hz rfl
      rw [binaryWord_zero_absorbs (by simp)] at hword
      exact rewritten_replace ((habsorbs hz).trans (Option.some.inj hword))
  | andBool =>
    rw [hop] at horig
    have hword := Option.some.inj horig
    dsimp only
    split
    · rename_i h1
      have hone : (1#64 != 0#64) = true := rfl
      simp only [h1, hone, Bool.and_true] at hword
      rw [← hword]
      exact rewritten_replace ((truth_eq_self _ _).2 (hsafe (.inr ⟨hop, h1⟩))).symm
    · refine rewritten_ite h fun hz => ?_
      simp only [hz, bne_self_eq_false, Bool.and_false] at hword
      exact rewritten_replace ((habsorbs hz).trans hword)
  | andLin =>
    rw [hop] at hzero
    refine rewritten_ite h fun hz => ?_
    have hword := hzero hz rfl
    rw [binaryWord_zero_absorbs (by simp)] at hword
    exact rewritten_replace ((habsorbs hz).trans (Option.some.inj hword))
  | _ => exact h

theorem leftside_keeps (h1 : insn.src1 = .val value) (h : v.original insn = some word) :
    v.rewritten insn (simplifyConstantLeftside insn value) = some word := by
  have horig := h
  rw [original_left h1] at horig
  have hzero : value = 0#64 → insn.opcode.isBool = false → insn.opcode.binaryWord 0#(insn.size)
      ((v.word insn.src2).setWidth insn.size) = some word := by
    rintro rfl hbool
    rw [insnWord_of_not_bool hbool] at horig
    split at horig
    · exact absurd horig nofun
    · rw [BitVec.setWidth_zero] at horig
      exact horig
  have habsorbs : value = 0#64 → (v.word insn.src1).setWidth insn.size = 0#(insn.size) := by
    rintro rfl
    rw [h1, v.word_val]
    exact BitVec.setWidth_zero _ _
  unfold simplifyConstantLeftside
  cases hop : insn.opcode with
  | addLin | orLin | xorLin =>
    rw [hop] at hzero
    refine rewritten_ite h fun hz => ?_
    have hword := hzero hz rfl
    rw [binaryWord_zero_left (by simp)] at hword
    exact rewritten_replace (Option.some.inj hword)
  | shl | lsr | asr | andLin | mulu | muls =>
    rw [hop] at hzero
    refine rewritten_ite h fun hz => ?_
    have hword := binaryWord_zero_left_absorbs (by simp) (hzero hz rfl)
    exact rewritten_replace ((habsorbs hz).trans hword.symm)
  | _ => exact h

end Sides

theorem simplifyOneConstant_right (h1 : sparseConstant insn.src1 = false) {value : BitVec 64}
    (h2 : insn.src2 = .val value) :
    ir.simplifyOneConstant insn = ir.simplifyConstantRightside insn value := by
  unfold Ir.simplifyOneConstant
  rw [h2]
  cases hs : insn.src1 with
  | val => exact absurd (hs ▸ h1) nofun
  | _ => rfl

/-- The bare operand is not the truth value that the instruction has. -/
theorem not_keeps_of_bareBoolean (hbare : v.BareBoolean insn) :
    ¬ v.RewriteKeepsValue insn := by
  obtain ⟨h1, hop, hne0, hne1⟩ := hbare
  intro hkeeps
  have hself : truthWord insn.size (v.word insn.src1 != 0#64) = (v.word insn.src1).setWidth insn.size := by
    rcases hop with ⟨hop, h2⟩ | ⟨hop, h2⟩
    · have horig : v.original insn = some (truthWord insn.size (v.word insn.src1 != 0#64)) := by
        rw [original_right h2, hop]
        simp [Opcode.insnWord]
      have hnew := hkeeps _ horig
      rw [simplifyOneConstant_right h1 h2, Ir.simplifyConstantRightside, hop] at hnew
      exact (Option.some.inj hnew).symm
    · have horig : v.original insn = some (truthWord insn.size (v.word insn.src1 != 0#64)) := by
        rw [original_right h2, hop]
        simp [Opcode.insnWord]
      have hnew := hkeeps _ horig
      rw [simplifyOneConstant_right h1 h2, Ir.simplifyConstantRightside, hop] at hnew
      exact (Option.some.inj hnew).symm
  rcases (truth_eq_self _ _).1 hself with h | h
  · exact hne0 h
  · exact hne1 h

theorem keeps_of_not_bareBoolean (hpos : 0 < insn.size) (h64 : insn.size ≤ 64)
    (hsafe : ¬ v.BareBoolean insn) : v.RewriteKeepsValue insn := by
  intro word h
  unfold Ir.simplifyOneConstant
  split
  · exact h
  · rename_i h1 _
    exact leftside_keeps h1 h
  · rename_i value h2 hnot
    refine rightside_keeps hpos h64 h2 (fun hop => ?_) h
    have hconst : sparseConstant insn.src1 = false := by
      cases hs : insn.src1 with
      | val l => exact absurd hs (hnot l)
      | _ => rfl
    by_contra hne
    obtain ⟨hne0, hne1⟩ := not_or.1 hne
    refine hsafe ⟨hconst, ?_, hne0, hne1⟩
    rcases hop with ⟨hop, rfl⟩ | ⟨hop, rfl⟩
    · exact .inl ⟨hop, h2⟩
    · exact .inr ⟨hop, h2⟩
  · exact h

/-- The rewrite of an instruction with one constant operand keeps its value exactly when it
does not put an operand that is neither 0 nor 1 in place of a boolean operator. -/
theorem rewriteSound_iff {ir : Ir} (v : Valuation ir) (insn : Instruction)
    (hpos : 0 < insn.size) (h64 : insn.size ≤ 64) :
    v.RewriteSound insn ↔ ¬ v.BareBoolean insn := by
  constructor
  · rintro ⟨-, hkeeps⟩ hbare
    exact not_keeps_of_bareBoolean hbare hkeeps
  · intro hsafe
    exact ⟨lt_two_pow_operandSize insn, keeps_of_not_bareBoolean hpos h64 hsafe⟩

end Valuation

/-- A function without instructions. -/
def Ir.blank : Ir where
  insn _ := { opcode := .nop }
  block _ := {}
  cell _ := .null
  definition _ := none
  users _ := []
  bbs := []
  entry := 0
  nextInsn := 0
  nextBlock := 0
  nextCell := 0
  nextReg := 0
  nextPhi := 0
  bbGeneration := 0

/-- Every register of it holds one word. -/
def Valuation.const (word : BitVec 64) : Valuation Ir.blank where
  word
    | .val value => value
    | _ => word
  word_val _ := rfl
  word_cast _ _ _ h := absurd h nofun

/-- `or-bool.32 %r1, $0` -/
def orZero : Instruction :=
  { opcode := .orBool, size := 32, src1 := .reg 1, src2 := .val 0#64 }

/-- With 1 in the register it is kept. -/
theorem rewriteSound_orZero : (Valuation.const 1#64).RewriteSound orZero := by
  refine ((Valuation.const 1#64).rewriteSound_iff orZero (by decide) (by decide)).2 ?_
  rintro ⟨-, -, -, hne⟩
  exact hne rfl

/-- With 2 in the register the instruction has value 1 and becomes the register. -/
theorem not_rewriteSound_orZero : ¬(Valuation.const 2#64).RewriteSound orZero := by
  rintro ⟨-, h⟩
  have hnew := h 1#32 (by decide)
  exact absurd hnew (by decide)

end Sparse
