import Sparse.FolderAgreement

/-!
# Operations of the folders that trap

The arms of the two `switch` statements, as the operation of the host that each executes.
`%` has no guard against the division of the least number by -1 in `expand.c`, and `/` and
`%` have none in `simplify.c`, where the count of a shift is not looked at either.
-/

namespace Sparse
open MaskedWords

/-- An operation on `long long` or `unsigned long long`; `plain` is one that has a value for
all operands. -/
inductive HostOp
  | plain (v : BitVec 64)
  | divs (x y : BitVec 64)
  | divu (x y : BitVec 64)
  | mods (x y : BitVec 64)
  | modu (x y : BitVec 64)
  | shl (x n : BitVec 64)
  | lsr (x n : BitVec 64)
  | asr (x n : BitVec 64)
  deriving DecidableEq, Repr

/-- The quotient does not fit. -/
def LeastByMinusOne (x y : BitVec 64) : Prop := x = BitVec.intMin 64 ∧ y = -1#64

instance (x y : BitVec 64) : Decidable (LeastByMinusOne x y) := by
  unfold LeastByMinusOne
  infer_instance

namespace HostOp

/-- A zero divisor, the least number by -1, or a count of 64 or more. -/
def Traps : HostOp → Prop
  | plain _ => False
  | divs x y => y = 0#64 ∨ LeastByMinusOne x y
  | divu _ y => y = 0#64
  | mods x y => y = 0#64 ∨ LeastByMinusOne x y
  | modu _ y => y = 0#64
  | shl _ n => 64 ≤ n.toNat
  | lsr _ n => 64 ≤ n.toNat
  | asr _ n => 64 ≤ n.toNat

instance : DecidablePred Traps := fun h => by
  cases h <;> unfold Traps <;> infer_instance

/-- The value where the operation does not trap. -/
def value : HostOp → BitVec 64
  | plain v => v
  | divs x y => x.sdiv y
  | divu x y => x / y
  | mods x y => x.srem y
  | modu x y => x % y
  | shl x n => x <<< n.toNat
  | lsr x n => x >>> n.toNat
  | asr x n => x.sshiftRight n.toNat

def result (h : HostOp) : Option (BitVec 64) := if h.Traps then none else some h.value

end HostOp

/-! ## The two switches -/

/-- The arm of the `switch` of `simplify_int_binop`, unless it leaves before. -/
def intBinopOp (op : BinaryOp) (ctype : IntType) (l r : BitVec 64) : Option HostOp :=
  let mask := signBit ctype.bitSize
  let sl := extendIfSigned ctype l
  let sr := extendIfSigned ctype r
  match op, ctype.unsigned with
  | .add, _ => some (.plain (l + r))
  | .sub, _ => some (.plain (l - r))
  | .and, _ => some (.plain (l &&& r))
  | .or, _ => some (.plain (l ||| r))
  | .xor, _ => some (.plain (l ^^^ r))
  | .mul, false => some (.plain (sl * sr))
  | .mul, true => some (.plain (l * r))
  | .div, false =>
    if r = 0#64 then none
    else if l = mask ∧ sr = -1#64 then none
    else some (.divs sl sr)
  | .div, true => if r = 0#64 then none else some (.divu l r)
  | .mod, false => if r = 0#64 then none else some (.mods sl sr)
  | .mod, true => if r = 0#64 then none else some (.modu l r)
  | .leftShift, _ => some (.shl l r)
  | .rightShift, false => some (.asr sl r)
  | .rightShift, true => some (.lsr l r)
  | .logicalAnd, _ => none
  | .logicalOr, _ => none

/-- What `simplify_int_binop` executes on two operands that are `EXPR_VALUE`. -/
def simplifyIntBinopOp (conservative : Bool) (op : BinaryOp) (ctype : IntType) (l r : BitVec 64) :
    Option HostOp :=
  (shiftCount conservative op ctype r).bind (intBinopOp op ctype l)

/-- The arm of the `switch` of `simplify_constant_binop`, unless it leaves before. -/
def simplifyConstantBinopOp (opcode : Opcode) (size : ℕ) (src1 src2 : BitVec 64) : Option HostOp :=
  let bits := lowMask size
  let left := extendOperand size src1
  let right := extendOperand size src2
  let ul := left &&& bits
  let ur := right &&& bits
  match opcode with
  | .addLin => some (.plain (left + right))
  | .sub => some (.plain (left - right))
  | .mulu => some (.plain (ul * ur))
  | .muls => some (.plain (left * right))
  | .divu => if ur = 0#64 then none else some (.divu ul ur)
  | .divs => if right = 0#64 then none else some (.divs left right)
  | .modu => if ur = 0#64 then none else some (.modu ul ur)
  | .mods => if right = 0#64 then none else some (.mods left right)
  | .shl => some (.shl left right)
  | .lsr => some (.lsr ul ur)
  | .asr => some (.asr left right)
  | .andLin => some (.plain (left &&& right))
  | .orLin => some (.plain (left ||| right))
  | .xorLin => some (.plain (left ^^^ right))
  | .andBool => some (.plain (boolWord (left != 0#64 && right != 0#64)))
  | .orBool => some (.plain (boolWord (left != 0#64 || right != 0#64)))
  | .setEq => some (.plain (boolWord (left == right)))
  | .setNe => some (.plain (boolWord (left != right)))
  | .setLe => some (.plain (boolWord (left.sle right)))
  | .setGe => some (.plain (boolWord (right.sle left)))
  | .setLt => some (.plain (boolWord (left.slt right)))
  | .setGt => some (.plain (boolWord (right.slt left)))
  | .setB => some (.plain (boolWord (ul.ult ur)))
  | .setA => some (.plain (boolWord (ur.ult ul)))
  | .setBe => some (.plain (boolWord (ul.ule ur)))
  | .setAe => some (.plain (boolWord (ur.ule ul)))
  | _ => none

section

variable {conservative : Bool} {op : BinaryOp} {ctype : IntType} {opcode : Opcode} {size : ℕ} {x y l r : BitVec 64}

/-! ## The operations have the values of the folders -/

theorem result_plain (v : BitVec 64) : (HostOp.plain v).result = some v := rfl

theorem result_divs (h : y ≠ 0#64) : (HostOp.divs x y).result = hostDivs x y := by
  simp [HostOp.result, HostOp.Traps, LeastByMinusOne, hostDivs, HostOp.value, h]

theorem result_mods (h : y ≠ 0#64) : (HostOp.mods x y).result = hostMods x y := by
  simp [HostOp.result, HostOp.Traps, LeastByMinusOne, hostMods, HostOp.value, h]

theorem result_divu (h : y ≠ 0#64) : (HostOp.divu x y).result = some (x / y) := if_neg h

theorem result_modu (h : y ≠ 0#64) : (HostOp.modu x y).result = some (x % y) := if_neg h

theorem result_of_guard {h : HostOp} {p : Prop} [Decidable p] (hp : h.Traps ↔ ¬p) :
    h.result = if p then some h.value else none := by
  by_cases hguard : p
  · rw [if_pos hguard, HostOp.result, if_neg (by rwa [hp, not_not])]
  · rw [if_neg hguard, HostOp.result, if_pos (hp.mpr hguard)]

theorem result_shl (x n : BitVec 64) : (HostOp.shl x n).result = hostShl x n := result_of_guard Nat.not_lt.symm

theorem result_lsr (x n : BitVec 64) : (HostOp.lsr x n).result = hostLsr x n := result_of_guard Nat.not_lt.symm

theorem result_asr (x n : BitVec 64) : (HostOp.asr x n).result = hostAsr x n := result_of_guard Nat.not_lt.symm

/-- A word stays zero or not zero when its sign is extended. -/
theorem extendIfSigned_eq_zero : extendIfSigned ctype x = 0#64 ↔ x = 0#64 := by
  rw [extendIfSigned, signExtended]
  split
  · rfl
  · split
    · rw [BitVec.or_eq_zero_iff]
      refine ⟨And.left, fun h => ?_⟩
      rename_i hsign
      exact absurd (by rw [h, BitVec.zero_and]) hsign
    · rfl

/-- The operation of the arm has the value that the arm stores. -/
theorem intBinopValue_eq_result (op : BinaryOp) (ctype : IntType) (l r : BitVec 64) :
    intBinopValue op ctype l r =
      ((intBinopOp op ctype l r).bind HostOp.result).map (· &&& lowMask ctype.bitSize) := by
  have hzero : ¬ r = 0#64 → extendIfSigned ctype r ≠ 0#64 := fun h => extendIfSigned_eq_zero.not.mpr h
  unfold intBinopValue intBinopOp
  cases hs : ctype.unsigned <;> cases op <;>
    simp only [Option.bind_some, Option.bind_none, result_plain, result_shl, result_lsr, result_asr]
  case false.div =>
    by_cases h : r = 0#64
    · rw [if_pos h, if_pos h]
      rfl
    · rw [if_neg h, if_neg h]
      split
      · rfl
      · rw [Option.bind_some, result_divs (hzero h)]
  case false.mod =>
    by_cases h : r = 0#64
    · rw [if_pos h, if_pos h]
      rfl
    · rw [if_neg h, if_neg h, Option.bind_some, result_mods (hzero h)]
  case true.div =>
    by_cases h : r = 0#64
    · rw [if_pos h, if_pos h]
      rfl
    · rw [if_neg h, if_neg h, Option.bind_some, result_divu h]
  case true.mod =>
    by_cases h : r = 0#64
    · rw [if_pos h, if_pos h]
      rfl
    · rw [if_neg h, if_neg h, Option.bind_some, result_modu h]

theorem simplifyIntBinop_eq_result (conservative : Bool) (op : BinaryOp) (ctype : IntType) (l r : BitVec 64) :
    simplifyIntBinop conservative op ctype l r =
      ((simplifyIntBinopOp conservative op ctype l r).bind HostOp.result).map (· &&& lowMask ctype.bitSize) := by
  rw [simplifyIntBinop, simplifyIntBinopOp]
  cases shiftCount conservative op ctype r with
  | none => rfl
  | some r => exact intBinopValue_eq_result op ctype l r

theorem simplifyConstantBinop_eq_result (opcode : Opcode) (size : ℕ) (src1 src2 : BitVec 64) :
    simplifyConstantBinop opcode size src1 src2 =
      ((simplifyConstantBinopOp opcode size src1 src2).bind HostOp.result).map (· &&& lowMask size) := by
  unfold simplifyConstantBinop simplifyConstantBinopOp
  cases opcode <;>
    simp only [Option.bind_some, Option.bind_none, result_plain, result_shl, result_lsr, result_asr]
  case divu | divs | modu | mods =>
    split
    · rfl
    · rename_i h
      simp only [Option.bind_some, result_divu h, result_divs h, result_modu h, result_mods h]

/-! ## When they trap -/

/-- The count that is left to a shift is below the size. -/
theorem shiftCount_lt (hop : op.isShift = true) (h : shiftCount conservative op ctype r = some x) :
    x.toNat < 64 := by
  have hle := ctype.bitSize_le
  rw [shiftCount] at h
  split at h
  · split at h
    · cases h
    · rw [← Option.some.inj h]
      exact Nat.lt_of_lt_of_le (checkShiftCount_lt ctype r) hle
  · rename_i hsmall
    rw [← Option.some.inj h]
    have : r.toNat < ctype.bitSize := by
      by_contra hge
      exact hsmall ⟨hop, Nat.le_of_not_lt hge⟩
    omega

/-- The host operation is executed and traps. -/
def TrapsIn (h : Option HostOp) : Prop := ∃ op ∈ h, op.Traps

@[simp] theorem trapsIn_none : ¬TrapsIn none := by
  simp [TrapsIn]

@[simp] theorem trapsIn_some (h : HostOp) : TrapsIn (some h) ↔ h.Traps := by
  simp [TrapsIn]

/-- The operands of a signed quotient that `simplify_int_binop` computes although it does not
fit: `%` is not guarded, and the guard of `/` knows the least number of the type only. -/
def UnguardedTree (op : BinaryOp) (ctype : IntType) (l r : BitVec 64) : Prop :=
  ctype.unsigned = false ∧ (op = .mod ∨ (op = .div ∧ l ≠ signBit ctype.bitSize)) ∧
    LeastByMinusOne (extendIfSigned ctype l) (extendIfSigned ctype r)

/-- The operands that `simplify_constant_binop` does not guard. -/
def UnguardedInsn (opcode : Opcode) (size : ℕ) (src1 src2 : BitVec 64) : Prop :=
  ((opcode = .divs ∨ opcode = .mods) ∧ LeastByMinusOne (extendOperand size src1) (extendOperand size src2)) ∨
    ((opcode = .shl ∨ opcode = .asr) ∧ 64 ≤ (extendOperand size src2).toNat) ∨
    (opcode = .lsr ∧ 64 ≤ (extendOperand size src2 &&& lowMask size).toNat)

/-- -1 as a divisor is not zero. -/
theorem LeastByMinusOne.ne_zero (h : LeastByMinusOne (extendIfSigned ctype l) (extendIfSigned ctype r)) :
    r ≠ 0#64 := by
  rintro rfl
  have hzero : extendIfSigned ctype 0#64 = 0#64 := extendIfSigned_eq_zero.mpr rfl
  exact absurd (hzero.symm.trans h.2) (by decide)

theorem intBinopOp_traps_iff (hop : op.isShift = false) :
    TrapsIn (intBinopOp op ctype l r) ↔ UnguardedTree op ctype l r := by
  have hzero : r = 0#64 → ¬LeastByMinusOne (extendIfSigned ctype l) (extendIfSigned ctype r) :=
    fun h hleast => hleast.ne_zero h
  unfold UnguardedTree intBinopOp
  cases hs : ctype.unsigned <;> cases op <;> simp only [BinaryOp.isShift, Bool.true_eq_false] at hop <;>
    simp only [trapsIn_some, trapsIn_none, HostOp.Traps, reduceCtorEq, false_and, or_self, and_false, true_and, or_false,
      false_or, Bool.true_eq_false]
  case false.div =>
    by_cases h : r = 0#64
    · rw [if_pos h]
      exact ⟨fun htraps => absurd htraps trapsIn_none, fun hleast => absurd hleast.2 (hzero h)⟩
    · have hne : extendIfSigned ctype r ≠ 0#64 := extendIfSigned_eq_zero.not.mpr h
      rw [if_neg h]
      by_cases hguard : l = signBit ctype.bitSize ∧ extendIfSigned ctype r = -1#64
      · rw [if_pos hguard]
        exact ⟨fun htraps => absurd htraps trapsIn_none, fun hleast => absurd hguard.1 hleast.1⟩
      · rw [if_neg hguard, trapsIn_some, HostOp.Traps, or_iff_right hne]
        exact ⟨fun hleast => ⟨fun hl => hguard ⟨hl, hleast.2⟩, hleast⟩, And.right⟩
  case false.mod =>
    by_cases h : r = 0#64
    · rw [if_pos h]
      exact ⟨fun htraps => absurd htraps trapsIn_none, fun hleast => absurd hleast (hzero h)⟩
    · have hne : extendIfSigned ctype r ≠ 0#64 := extendIfSigned_eq_zero.not.mpr h
      rw [if_neg h, trapsIn_some, HostOp.Traps, or_iff_right hne]
  case true.div | true.mod =>
    split
    · exact iff_of_false trapsIn_none not_false
    · rename_i h
      exact iff_of_false (by rwa [trapsIn_some]) not_false

/-- Where `simplify_int_binop` traps. -/
theorem simplifyIntBinop_traps_iff (conservative : Bool) (op : BinaryOp) (ctype : IntType) (l r : BitVec 64) :
    TrapsIn (simplifyIntBinopOp conservative op ctype l r) ↔ UnguardedTree op ctype l r := by
  cases hop : op.isShift with
  | false =>
    have hcount : shiftCount conservative op ctype r = some r := by simp [shiftCount, hop]
    rw [simplifyIntBinopOp, hcount, Option.bind_some]
    exact intBinopOp_traps_iff hop
  | true =>
    have hunguarded : ¬UnguardedTree op ctype l r := by
      rintro ⟨-, rfl | ⟨rfl, -⟩, -⟩ <;> cases hop
    refine iff_of_false ?_ hunguarded
    rw [simplifyIntBinopOp]
    cases hcount : shiftCount conservative op ctype r with
    | none => exact trapsIn_none
    | some n =>
      have hlt : ¬64 ≤ n.toNat := Nat.not_le_of_lt (shiftCount_lt hop hcount)
      rw [Option.bind_some]
      unfold intBinopOp
      cases hs : ctype.unsigned <;> cases op <;> first | exact absurd hop (by decide) | exact (trapsIn_some _).not.mpr hlt

/-- Where `simplify_constant_binop` traps. -/
theorem simplifyConstantBinop_traps_iff (opcode : Opcode) (size : ℕ) (src1 src2 : BitVec 64) :
    TrapsIn (simplifyConstantBinopOp opcode size src1 src2) ↔ UnguardedInsn opcode size src1 src2 := by
  have hminus : LeastByMinusOne (extendOperand size src1) (extendOperand size src2) → extendOperand size src2 ≠ 0#64 :=
    fun hleast h => absurd (h.symm.trans hleast.2) (by decide)
  unfold simplifyConstantBinopOp UnguardedInsn
  cases opcode <;>
    simp only [trapsIn_some, trapsIn_none, HostOp.Traps, reduceCtorEq, false_and, true_and, or_self, or_false, false_or]
  case divu | modu =>
    split
    · exact iff_of_false trapsIn_none not_false
    · rename_i h
      exact iff_of_false (by rwa [trapsIn_some]) not_false
  case divs | mods =>
    split
    · rename_i h
      exact iff_of_false trapsIn_none fun hleast => hminus hleast h
    · rename_i h
      rw [trapsIn_some, HostOp.Traps, or_iff_right h]

/-- No fold of a binary operator traps, on the tree or on the instructions, exactly where the
operands are guarded. -/
theorem folders_trap_iff (conservative : Bool) (op : BinaryOp) (ctype : IntType) (l r : BitVec 64) (opcode : Opcode)
    (size : ℕ) (src1 src2 : BitVec 64) :
    (¬TrapsIn (simplifyIntBinopOp conservative op ctype l r) ↔ ¬UnguardedTree op ctype l r) ∧
      (¬TrapsIn (simplifyConstantBinopOp opcode size src1 src2) ↔ ¬UnguardedInsn opcode size src1 src2) :=
  ⟨(simplifyIntBinop_traps_iff conservative op ctype l r).not,
    (simplifyConstantBinop_traps_iff opcode size src1 src2).not⟩

/-- Only a `long long` is extended to the least number. -/
theorem extendIfSigned_eq_intMin (hsigned : ctype.unsigned = false) (hl : Canonical ctype.bitSize l) :
    extendIfSigned ctype l = BitVec.intMin 64 ↔ ctype.bitSize = 64 ∧ l = BitVec.intMin 64 := by
  have hext : extendIfSigned ctype l = signExtended ctype.bitSize l := by
    rw [extendIfSigned, hsigned]
    rfl
  have hand := signExtended_and_lowMask ctype.bitSize_pos ctype.bitSize_le hl
  rw [hext]
  constructor
  · intro h
    have hbounds := (signExtended_bounds ctype.bitSize_pos ctype.bitSize_le hl).1
    rw [h, show (BitVec.intMin 64).toInt = -2 ^ 63 by decide, neg_le_neg_iff] at hbounds
    have hpow : (2 : ℕ) ^ 63 ≤ 2 ^ (ctype.bitSize - 1) := by exact_mod_cast hbounds
    have hle := (Nat.pow_le_pow_iff_right (by decide)).mp hpow
    have hsize : ctype.bitSize = 64 := by
      have := ctype.bitSize_le
      omega
    rw [h, hsize] at hand
    exact ⟨hsize, hand.symm.trans (by decide)⟩
  · rintro ⟨hsize, rfl⟩
    rw [hsize]
    decide

/-- On values of the type only `%` traps on the tree, and only at 64 bits. -/
theorem unguardedTree_iff (hl : Canonical ctype.bitSize l) :
    UnguardedTree op ctype l r ↔ ctype.unsigned = false ∧ op = .mod ∧ ctype.bitSize = 64 ∧
      l = BitVec.intMin 64 ∧ extendIfSigned ctype r = -1#64 := by
  rw [UnguardedTree, LeastByMinusOne]
  constructor
  · rintro ⟨hsigned, hop, hleast, hminus⟩
    obtain ⟨hsize, hl⟩ := (extendIfSigned_eq_intMin hsigned hl).mp hleast
    refine ⟨hsigned, hop.resolve_right fun hdiv => hdiv.2 ?_, hsize, hl, hminus⟩
    rw [hl, hsize]
    decide
  · rintro ⟨hsigned, hop, hsize, hleast, hminus⟩
    exact ⟨hsigned, .inl hop, (extendIfSigned_eq_intMin hsigned hl).mpr ⟨hsize, hleast⟩, hminus⟩

/-- `LLONG_MIN % -1` on the tree, and `LLONG_MIN / -1`, `LLONG_MIN % -1` and `1 << 100` on
instructions. -/
theorem folders_trap :
    TrapsIn (simplifyIntBinopOp false .mod ⟨64, false, by decide, by decide⟩ (BitVec.intMin 64) (-1#64)) ∧
      TrapsIn (simplifyConstantBinopOp .divs 64 (BitVec.intMin 64) (-1#64)) ∧
      TrapsIn (simplifyConstantBinopOp .mods 64 (BitVec.intMin 64) (-1#64)) ∧
      TrapsIn (simplifyConstantBinopOp .shl 32 1#64 100#64) := by
  refine ⟨(simplifyIntBinop_traps_iff _ _ _ _ _).mpr ?_, (simplifyConstantBinop_traps_iff _ _ _ _).mpr ?_,
    (simplifyConstantBinop_traps_iff _ _ _ _).mpr ?_, (simplifyConstantBinop_traps_iff _ _ _ _).mpr ?_⟩
  · exact ⟨rfl, .inl rfl, by decide⟩
  · exact .inl ⟨.inl rfl, by decide⟩
  · exact .inl ⟨.inr rfl, by decide⟩
  · exact .inr (.inl ⟨.inl rfl, by decide⟩)

end

end Sparse
