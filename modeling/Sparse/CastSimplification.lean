import Sparse.BitFieldAccesses

/-!
# Casts that are simplified away

`simplify_cast` on `OP_CAST` and `OP_SCAST` between integer types. The masks of
`get_cast_value` are shifts of an `int`: a target of 32 bits is not masked, and a larger one
has no value. A source that an `OP_AND_LIN` masks is taken as it is although its type may be
narrower than the mask.
-/

namespace Sparse
open MaskedWords

/-! ## The simplification -/

/-- The pseudo that is cast: a constant, the target of an `OP_AND_LIN` with a constant, or
another register. -/
inductive CastSource
  | constant (value : BitVec 64)
  | masked (size : ℕ) (value : BitVec 64)
  | register

/-- An `OP_CAST`, or with `signed` an `OP_SCAST`; `pointer` where either type is a pointer. -/
structure CastInsn where
  signed : Bool
  origType : IntType
  pointer : Bool
  size : ℕ
  size_pos : 0 < size
  size_le : size ≤ 64
  src : CastSource

/-- Whether the instruction stays, or what its target is replaced by. -/
inductive CastResult
  | kept
  | constant (value : BitVec 64)
  | source
  deriving DecidableEq, Repr

namespace CastInsn

/-- The last test of `simplify_cast`. -/
def sameSize (insn : CastInsn) : CastResult :=
  if insn.size = insn.origType.bitSize ∧ insn.signed = !insn.origType.unsigned then .source else .kept

/-- The test on an "and": its constant stays below the sign bit of the target. -/
def andIsNoop (insn : CastInsn) (defSize : ℕ) (value : BitVec 64) : Prop :=
  insn.size ≤ defSize ∧ value >>> (insn.size - 1) = 0#64

instance (insn : CastInsn) (defSize : ℕ) (value : BitVec 64) : Decidable (insn.andIsNoop defSize value) := by
  unfold andIsNoop
  infer_instance

/-- `simplify_cast`; none where a shift of an `int` has no value. -/
def simplifyCast (insn : CastInsn) : Option CastResult :=
  if insn.pointer then some .kept
  else
    match insn.src with
    | .constant value =>
      (getCastValue value insn.origType.bitSize insn.size !insn.origType.unsigned).map .constant
    | .masked defSize value => if insn.andIsNoop defSize value then some .source else some insn.sameSize
    | .register => some insn.sameSize

end CastInsn

/-! ## The value of a cast -/

/-- The values that the source can have. -/
def CastSource.Holds : CastSource → BitVec 64 → Prop
  | constant value, x => x = value
  | masked size value, x => ∃ y, x = y &&& value &&& lowMask size
  | register, _ => True

namespace CastInsn

/-- The source truncated to its type, extended as the type says, and truncated to the target. -/
def castValue (insn : CastInsn) (x : BitVec 64) : BitVec 64 := generateCast insn.origType insn.size x

/-- What replaces the target has its value: a constant exactly, so that it is canonical, and a
register on the bits of the target. -/
def Right (insn : CastInsn) (x : BitVec 64) : CastResult → Prop
  | .kept => True
  | .constant value => value = insn.castValue x
  | .source => x &&& lowMask insn.size = insn.castValue x

def Keeps (insn : CastInsn) (x : BitVec 64) : Prop := ∃ result, insn.simplifyCast = some result ∧ insn.Right x result

/-- No bit from `low` on and below `high` is set. -/
def Clear (x : BitVec 64) (low high : ℕ) : Prop := ∀ i, low ≤ i → i < high → x.getLsbD i = false

/-- The bits of the source that `get_cast_value` lets through. -/
def shown (insn : CastInsn) : ℕ := if insn.size < 32 then insn.size else 64

/-- A constant source: the target has at most 32 bits, and what is let through above the source
type or the target is zero, or else a sign extension to less than 32 bits. -/
def ConstantFits (insn : CastInsn) (x : BitVec 64) : Prop :=
  insn.size ≤ 32 ∧
    if insn.origType.bitSize < insn.size then
      if insn.origType.unsigned = false ∧ x.getLsbD (insn.origType.bitSize - 1) = true then insn.size < 32
      else Clear x insn.origType.bitSize insn.shown
    else Clear x insn.size insn.shown

/-- A masked source: its type is as wide as the target, or the value is a nonnegative one of
that type. -/
def MaskedFits (insn : CastInsn) (x : BitVec 64) : Prop :=
  insn.size ≤ insn.origType.bitSize ∨
    Clear x (if insn.origType.unsigned then insn.origType.bitSize else insn.origType.bitSize - 1) 64

/-- When the value is kept. -/
def Fits (insn : CastInsn) (x : BitVec 64) : Prop :=
  insn.pointer = true ∨
    match insn.src with
    | .constant _ => insn.ConstantFits x
    | .masked defSize value => insn.andIsNoop defSize value → insn.MaskedFits x
    | .register => True

end CastInsn

section

variable {n : ℕ} {x : BitVec 64} {insn : CastInsn}

/-! ## The bits of a cast -/

theorem extendIfSigned_getLsbD (old : IntType) (hx : Canonical old.bitSize x) (i : ℕ) (hi : i < 64) :
    (extendIfSigned old x).getLsbD i =
      if i < old.bitSize then x.getLsbD i else !old.unsigned && x.getLsbD (old.bitSize - 1) := by
  rw [extendIfSigned]
  split
  · rename_i hunsigned
    split
    · rfl
    · rename_i hge
      rw [hunsigned, Bool.not_true, Bool.false_and]
      exact getLsbD_of_canonical hx (Nat.le_of_not_lt hge)
  · rename_i hsigned
    rw [signExtended_getLsbD old.bitSize_pos old.bitSize_le hx, decide_eq_true hi, Bool.true_and]
    simp [hsigned]

theorem generateCast_getLsbD (old : IntType) (hn : 0 < n) (h64 : n ≤ 64) (x : BitVec 64) (i : ℕ) :
    (generateCast old n x).getLsbD i = (decide (i < n) &&
      if i < old.bitSize then x.getLsbD i else !old.unsigned && x.getLsbD (old.bitSize - 1)) := by
  have hpos := old.bitSize_pos
  have hle := old.bitSize_le
  have hcanonical := canonical_and_lowMask hpos hle x
  rw [generateCast, and_lowMask_getLsbD hn h64]
  by_cases hi : i < n
  · rw [extendIfSigned_getLsbD old hcanonical i (by omega), and_lowMask_getLsbD hpos hle,
      and_lowMask_getLsbD hpos hle, decide_eq_true (show old.bitSize - 1 < old.bitSize by omega), Bool.true_and]
    by_cases hold : i < old.bitSize
    · simp [hold]
    · simp [hold]
  · simp [hi]

/-- The bits of `get_cast_value` up to 32 bits. -/
theorem getCastValue_getLsbD (old : IntType) (hn : 0 < n) (h32 : n ≤ 32) (x : BitVec 64) :
    ∃ v, getCastValue x old.bitSize n (!old.unsigned) = some v ∧ ∀ i, i < 64 →
      v.getLsbD i = (decide (i < n ∨ n = 32) && (x.getLsbD i || decide (old.bitSize ≤ i ∧ old.bitSize < n ∧
        old.unsigned = false ∧ x.getLsbD (old.bitSize - 1) = true))) := by
  have hpos := old.bitSize_pos
  have hle := old.bitSize_le
  obtain ⟨mask, hmask, hbits⟩ : ∃ mask, hostIntShl (n - 1) = some mask ∧
      ∀ i, i < 64 → (mask ||| (mask - 1#64)).getLsbD i = decide (i < n ∨ n = 32) := by
    by_cases hlt : n < 32
    · refine ⟨signBit n, by rw [hostIntShl, if_pos (by omega), signBit_eq], fun i _ => ?_⟩
      refine (lowMask_getLsbD hn (by omega) i).trans ?_
      simp [show ¬n = 32 by omega]
    · obtain rfl : n = 32 := by omega
      refine ⟨BitVec.ofInt 64 (-2 ^ 31), rfl, fun i hi => ?_⟩
      have hall : BitVec.ofInt 64 (-2 ^ 31) ||| (BitVec.ofInt 64 (-2 ^ 31) - 1#64) = BitVec.allOnes 64 := by decide
      rw [hall, BitVec.getLsbD_allOnes]
      simp [hi]
  by_cases hextend : old.unsigned = false ∧ old.bitSize < n
  · have hold : hostIntShl (old.bitSize - 1) = some (signBit old.bitSize) := by
      rw [hostIntShl, if_pos (by omega), signBit_eq]
    refine ⟨extendOperand old.bitSize x &&& (mask ||| (mask - 1#64)), ?_, fun i hi => ?_⟩
    · simp only [getCastValue, hextend, hold, hmask, Bool.not_false, and_self, if_true, pure, Option.bind_eq_bind,
        Option.bind_some]
      rfl
    · rw [BitVec.getLsbD_and, hbits i hi, Bool.and_comm]
      by_cases hlow : i < old.bitSize
      · rw [extendOperand_getLsbD hpos hle hlow, decide_eq_false (show ¬(old.bitSize ≤ i ∧ _) by omega), Bool.or_false]
      · rw [extendOperand_getLsbD_high hpos hle (Nat.le_of_not_lt hlow) hi]
        simp [hextend, Nat.le_of_not_lt hlow]
  · refine ⟨x &&& (mask ||| (mask - 1#64)), ?_, fun i hi => ?_⟩
    · have hguard : ¬((!old.unsigned) = true ∧ old.bitSize < n) := by simpa using hextend
      simp only [getCastValue, hguard, hmask, if_false, pure, Option.bind_eq_bind, Option.bind_some]
    · have hfalse : ¬(old.bitSize ≤ i ∧ old.bitSize < n ∧ old.unsigned = false ∧
          x.getLsbD (old.bitSize - 1) = true) := fun h => hextend ⟨h.2.2.1, h.2.1⟩
      rw [BitVec.getLsbD_and, hbits i hi, Bool.and_comm, decide_eq_false hfalse, Bool.or_false]

theorem getCastValue_of_lt (old : IntType) (h32 : 32 < n) (x : BitVec 64) (sign : Bool) :
    getCastValue x old.bitSize n sign = none := by
  have hnone : hostIntShl (n - 1) = none := by
    rw [hostIntShl, if_neg (by omega), if_neg (by omega)]
  simp only [getCastValue, hnone, Option.bind_eq_bind, Option.bind_none]
  split
  · cases hostIntShl (old.bitSize - 1) <;> rfl
  · rfl

/-! ## When the value is kept -/

/-- Two words agree where their bits do. -/
theorem eq_iff_getLsbD (x y : BitVec 64) : x = y ↔ ∀ i, i < 64 → x.getLsbD i = y.getLsbD i :=
  ⟨fun h _ _ => by rw [h], BitVec.eq_of_getLsbD_eq⟩

theorem CastInsn.shown_le (insn : CastInsn) : insn.shown ≤ 64 := by
  rw [shown]
  split
  · omega
  · exact le_refl 64

theorem getCastValue_eq_iff (hsmall : insn.size ≤ 32) (x : BitVec 64) :
    (∃ v, getCastValue x insn.origType.bitSize insn.size (!insn.origType.unsigned) = some v ∧
      v = insn.castValue x) ↔ insn.ConstantFits x := by
  have hpos := insn.size_pos
  obtain ⟨v, hv, hbits⟩ := getCastValue_getLsbD insn.origType hpos hsmall x
  have hexists : (∃ v, getCastValue x insn.origType.bitSize insn.size (!insn.origType.unsigned) = some v ∧
      v = insn.castValue x) ↔ v = insn.castValue x := by
    rw [hv]
    exact ⟨fun ⟨_, hsome, heq⟩ => Option.some.inj hsome ▸ heq, fun h => ⟨v, rfl, h⟩⟩
  have hshown : ∀ i, i < 64 → (i < insn.shown ↔ i < insn.size ∨ insn.size = 32) := by
    intro i hi
    rw [CastInsn.shown]
    split
    · omega
    · omega
  rw [hexists, eq_iff_getLsbD]
  have hbit : (∀ i, i < 64 → v.getLsbD i = (insn.castValue x).getLsbD i) ↔ ∀ i, i < 64 →
      (decide (i < insn.shown) && (x.getLsbD i || decide (insn.origType.bitSize ≤ i ∧
        insn.origType.bitSize < insn.size ∧ insn.origType.unsigned = false ∧
          x.getLsbD (insn.origType.bitSize - 1) = true))) =
      (decide (i < insn.size) && if i < insn.origType.bitSize then x.getLsbD i
        else !insn.origType.unsigned && x.getLsbD (insn.origType.bitSize - 1)) := by
    refine forall₂_congr fun i hi => ?_
    rw [hbits i hi, CastInsn.castValue, generateCast_getLsbD _ hpos insn.size_le, decide_eq_decide.2 (hshown i hi)]
  rw [hbit, CastInsn.ConstantFits]
  by_cases hold : insn.origType.bitSize < insn.size
  · rw [if_pos hold]
    by_cases hsign : insn.origType.unsigned = false ∧ x.getLsbD (insn.origType.bitSize - 1) = true
    · rw [if_pos hsign]
      constructor
      · intro h
        refine ⟨hsmall, lt_of_le_of_ne hsmall fun h32 => ?_⟩
        have hbit32 := h 32 (by omega)
        rw [decide_eq_true ((hshown 32 (by omega)).2 (Or.inr h32)), decide_eq_true (show
          insn.origType.bitSize ≤ 32 ∧ _ from ⟨by omega, hold, hsign⟩),
          decide_eq_false (show ¬32 < insn.size by omega), Bool.or_true, Bool.false_and] at hbit32
        exact Bool.noConfusion hbit32
      · rintro ⟨-, hlt⟩ i hi
        have hiff : i < insn.shown ↔ i < insn.size := by
          rw [hshown i hi]
          omega
        rw [decide_eq_decide.2 hiff]
        by_cases hlow : i < insn.origType.bitSize
        · rw [if_pos hlow, decide_eq_false (show ¬(insn.origType.bitSize ≤ i ∧ _) by omega), Bool.or_false]
        · rw [if_neg hlow, decide_eq_true (show insn.origType.bitSize ≤ i ∧ _ from
            ⟨Nat.le_of_not_lt hlow, hold, hsign⟩), hsign.1, hsign.2, Bool.or_true,
            Bool.not_false, Bool.and_self]
    · rw [if_neg hsign]
      have hzero : (!insn.origType.unsigned && x.getLsbD (insn.origType.bitSize - 1)) = false := by
        rw [Bool.eq_false_iff]
        intro h
        rw [Bool.and_eq_true, Bool.not_eq_true'] at h
        exact hsign h
      have hnot : ∀ i, ¬(insn.origType.bitSize ≤ i ∧ insn.origType.bitSize < insn.size ∧
          insn.origType.unsigned = false ∧ x.getLsbD (insn.origType.bitSize - 1) = true) :=
        fun _ h => hsign h.2.2
      simp only [hzero, decide_eq_false (hnot _), Bool.or_false]
      constructor
      · intro h
        refine ⟨hsmall, fun i hle hlt => ?_⟩
        have hbiti := h i (by have := insn.shown_le; omega)
        rw [decide_eq_true hlt, Bool.true_and, if_neg (Nat.not_lt.2 hle), Bool.and_false] at hbiti
        exact hbiti
      · rintro ⟨-, hclear⟩ i hi
        by_cases hlow : i < insn.origType.bitSize
        · rw [if_pos hlow, decide_eq_true (show i < insn.size by omega),
            decide_eq_true ((hshown i hi).2 (Or.inl (by omega)))]
        · rw [if_neg hlow, Bool.and_false, Bool.and_eq_false_iff]
          by_cases hin : i < insn.shown
          · exact Or.inr (hclear i (Nat.le_of_not_lt hlow) hin)
          · exact Or.inl (decide_eq_false hin)
  · rw [if_neg hold]
    have hnot : ∀ i, ¬(insn.origType.bitSize ≤ i ∧ insn.origType.bitSize < insn.size ∧
        insn.origType.unsigned = false ∧ x.getLsbD (insn.origType.bitSize - 1) = true) :=
      fun _ h => hold h.2.1
    simp only [decide_eq_false (hnot _), Bool.or_false]
    constructor
    · intro h
      refine ⟨hsmall, fun i hle hlt => ?_⟩
      have hbiti := h i (by have := insn.shown_le; omega)
      rw [decide_eq_true hlt, Bool.true_and, decide_eq_false (Nat.not_lt.2 hle), Bool.false_and] at hbiti
      exact hbiti
    · rintro ⟨-, hclear⟩ i hi
      by_cases hin : i < insn.size
      · rw [decide_eq_true hin, decide_eq_true ((hshown i hi).2 (Or.inl hin)), if_pos (by omega)]
      · rw [decide_eq_false hin, Bool.false_and, Bool.and_eq_false_iff]
        by_cases hshow : i < insn.shown
        · exact Or.inr (hclear i (Nat.le_of_not_lt hin) hshow)
        · exact Or.inl (decide_eq_false hshow)

theorem and_lowMask_eq_castValue_iff (insn : CastInsn) (x : BitVec 64) :
    x &&& lowMask insn.size = insn.castValue x ↔ ∀ i, i < insn.size → insn.origType.bitSize ≤ i →
      x.getLsbD i = (!insn.origType.unsigned && x.getLsbD (insn.origType.bitSize - 1)) := by
  rw [eq_iff_getLsbD]
  constructor
  · intro h i hi hge
    have hbit := h i (Nat.lt_of_lt_of_le hi insn.size_le)
    rw [CastInsn.castValue, and_lowMask_getLsbD insn.size_pos insn.size_le,
      generateCast_getLsbD _ insn.size_pos insn.size_le, if_neg (Nat.not_lt.2 hge), decide_eq_true hi,
      Bool.true_and, Bool.true_and] at hbit
    exact hbit
  · intro h i _
    rw [CastInsn.castValue, and_lowMask_getLsbD insn.size_pos insn.size_le,
      generateCast_getLsbD _ insn.size_pos insn.size_le]
    by_cases hi : i < insn.size
    · by_cases hlow : i < insn.origType.bitSize
      · rw [if_pos hlow]
      · rw [if_neg hlow, h i hi (Nat.le_of_not_lt hlow)]
    · rw [decide_eq_false hi, Bool.false_and, Bool.false_and]

/-- A register of the same size keeps its bits. -/
theorem sameSize_right (insn : CastInsn) (x : BitVec 64) : insn.Right x insn.sameSize := by
  rw [CastInsn.sameSize]
  split
  · rename_i h
    exact (and_lowMask_eq_castValue_iff insn x).2 fun _ hi hge => absurd hi (Nat.not_lt.2 (h.1 ▸ hge))
  · trivial

/-- What the constant of an "and" hides from a value. -/
theorem masked_bits {defSize : ℕ} {value : BitVec 64} (hnoop : insn.andIsNoop defSize value)
    (hx : ∃ y, x = y &&& value &&& lowMask defSize) {i : ℕ} (hi : insn.size - 1 ≤ i) : x.getLsbD i = false := by
  obtain ⟨y, rfl⟩ := hx
  have hbit : (value >>> (insn.size - 1)).getLsbD (i - (insn.size - 1)) = false := by
    rw [hnoop.2, BitVec.getLsbD_zero]
  rw [BitVec.getLsbD_ushiftRight, Nat.add_sub_cancel' hi] at hbit
  rw [BitVec.getLsbD_and, BitVec.getLsbD_and, hbit, Bool.and_false, Bool.false_and]

/-- With its top bit clear, a value survives the cast if it is a nonnegative one of the type of
the source. -/
theorem masked_keeps_iff (hx : ∀ i, insn.size - 1 ≤ i → x.getLsbD i = false) :
    x &&& lowMask insn.size = insn.castValue x ↔ insn.MaskedFits x := by
  have hpos := insn.size_pos
  have hold := insn.origType.bitSize_pos
  rw [and_lowMask_eq_castValue_iff, CastInsn.MaskedFits]
  constructor
  · intro h
    by_cases hle : insn.size ≤ insn.origType.bitSize
    · exact Or.inl hle
    · right
      have htop := h (insn.size - 1) (by omega) (by omega)
      rw [hx _ (le_refl _)] at htop
      have hclear : CastInsn.Clear x insn.origType.bitSize 64 := fun i hge _ => by
        by_cases hi : i < insn.size
        · rw [h i hi hge, ← htop]
        · exact hx i (by omega)
      split
      · exact hclear
      · rename_i hsigned
        intro i hge hi
        by_cases heq : i = insn.origType.bitSize - 1
        · rw [Bool.not_eq_true] at hsigned
          rw [hsigned, Bool.not_false, Bool.true_and] at htop
          rw [heq, ← htop]
        · exact hclear i (by omega) hi
  · rintro (hle | hclear) i hi hge
    · omega
    · have hle64 := insn.size_le
      by_cases hunsigned : insn.origType.unsigned = true
      · rw [if_pos hunsigned] at hclear
        rw [hclear i hge (by omega), hunsigned, Bool.not_true, Bool.false_and]
      · rw [if_neg hunsigned] at hclear
        rw [hclear i (by omega) (by omega), hclear _ (le_refl _) (by omega), Bool.and_false]

end

/-- What replaces a cast has the value of the source in its own type, extended or truncated to
the target, if and only if the source fits. -/
theorem simplifyCast_keeps_iff (insn : CastInsn) (x : BitVec 64) (hx : insn.src.Holds x) :
    insn.Keeps x ↔ insn.Fits x := by
  have hresult : ∀ {result : CastResult}, insn.simplifyCast = some result →
      (insn.Keeps x ↔ insn.Right x result) := fun {result} h =>
    ⟨fun ⟨_, hr, hright⟩ => Option.some.inj (h.symm.trans hr) ▸ hright, fun hright => ⟨result, h, hright⟩⟩
  by_cases hpointer : insn.pointer = true
  · have hkept : insn.simplifyCast = some .kept := by rw [CastInsn.simplifyCast, if_pos hpointer]
    rw [hresult hkept]
    exact iff_of_true trivial (Or.inl hpointer)
  · rw [CastInsn.Fits, or_iff_right hpointer]
    cases hsrc : insn.src with
    | constant value =>
      rw [hsrc] at hx
      obtain rfl : x = value := hx
      have hcast : insn.simplifyCast =
          (getCastValue x insn.origType.bitSize insn.size !insn.origType.unsigned).map .constant := by
        rw [CastInsn.simplifyCast, if_neg hpointer, hsrc]
      by_cases hsmall : insn.size ≤ 32
      · rw [← getCastValue_eq_iff hsmall, CastInsn.Keeps, hcast]
        constructor
        · rintro ⟨_, hsome, hright⟩
          obtain ⟨v, hv, rfl⟩ := Option.map_eq_some_iff.1 hsome
          exact ⟨v, hv, hright⟩
        · rintro ⟨v, hv, heq⟩
          exact ⟨.constant v, by rw [hv, Option.map_some], heq⟩
      · refine iff_of_false ?_ fun h => hsmall h.1
        rintro ⟨_, hsome, -⟩
        rw [hcast, getCastValue_of_lt _ (Nat.lt_of_not_le hsmall)] at hsome
        cases hsome
    | masked defSize value =>
      rw [hsrc] at hx
      by_cases hnoop : insn.andIsNoop defSize value
      · have hsource : insn.simplifyCast = some .source := by
          simp only [CastInsn.simplifyCast, if_neg hpointer, hsrc, if_pos hnoop]
        rw [hresult hsource]
        exact (masked_keeps_iff fun _ hi => masked_bits hnoop hx hi).trans
          ⟨fun h _ => h, fun h => h hnoop⟩
      · have hsame : insn.simplifyCast = some insn.sameSize := by
          simp only [CastInsn.simplifyCast, if_neg hpointer, hsrc, if_neg hnoop]
        rw [hresult hsame]
        exact iff_of_true (sameSize_right insn x) fun h => absurd h hnoop
    | register =>
      have hsame : insn.simplifyCast = some insn.sameSize := by
        simp only [CastInsn.simplifyCast, if_neg hpointer, hsrc]
      rw [hresult hsame]
      exact iff_of_true (sameSize_right insn x) trivial

/-- The cast of a `signed char` to `int`. -/
def charToInt (src : CastSource) : CastInsn :=
  ⟨true, ⟨8, false, by decide, by decide⟩, false, 32, IntType.int_pos, IntType.int_le, src⟩

theorem simplifyCast_keeps_iff_char :
    (charToInt (.constant 0x7f#64)).Keeps 0x7f#64 ↔ (charToInt (.constant 0x7f#64)).Fits 0x7f#64 :=
  simplifyCast_keeps_iff _ _ rfl

/-- The constant -1 is extended beyond the target, and a field of 3 bits below an "and" with 7
is not extended. -/
theorem simplifyCast_not_kept :
    ¬(charToInt (.constant 0xff#64)).Keeps 0xff#64 ∧
      let field : CastInsn :=
        ⟨true, ⟨3, false, by decide, by decide⟩, false, 32, by decide, by decide, .masked 32 7#64⟩
      field.src.Holds 7#64 ∧ ¬field.Keeps 7#64 := by
  refine ⟨?_, ⟨7#64, by decide⟩, ?_⟩
  · rintro ⟨_, hcast, hright⟩
    have hsome : (charToInt (.constant 0xff#64)).simplifyCast = some (.constant 0xffffffffffffffff#64) := by decide
    obtain rfl := Option.some.inj (hsome.symm.trans hcast)
    have hvalue : (charToInt (.constant 0xff#64)).castValue 0xff#64 = 0xffffffff#64 := by decide
    exact absurd (hright.trans hvalue) (by decide)
  · rintro ⟨_, hcast, hright⟩
    obtain rfl := Option.some.inj (hcast.symm.trans (show _ = some CastResult.source by decide))
    have hsame : 7#64 &&& lowMask 32 = generateCast ⟨3, false, by decide, by decide⟩ 32 7#64 := hright
    exact absurd hsame (by decide)

end Sparse
