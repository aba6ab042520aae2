import Sparse.AddressFolding
import Sparse.DominatorSearch
import Sparse.WrappedIntervals

/-!
# Which accesses overlap

The offset of a memory operation is an unsigned number of bytes, and constants of either sign are
added to it. `overlapping_memop` compares accesses by their ends in bits, which wrap: an access that
starts below the base and comes up to it ends, for the comparison, at a small number.
-/

namespace Sparse

open WrappedIntervals WrappedIntervals.Interval

/-- The field of the instruction holds the byte offset `x`. -/
def Instruction.At (insn : Instruction) (x : ℤ) : Prop := insn.offset = BitVec.ofInt 32 x

/-- The bits that the access touches at the byte offset `x`. -/
def Instruction.bits (insn : Instruction) (x : ℤ) : Interval := ⟨8 * x, insn.size⟩

namespace Instruction

variable {insn : Instruction} {x : ℤ}

@[simp] theorem bits_start : (insn.bits x).start = 8 * x := rfl

@[simp] theorem bits_length : (insn.bits x).length = insn.size := rfl

/-- Folding a constant into the offset adds its signed value. -/
theorem At.folded {ir ir' : Ir} {i : InsnId} {p : Pseudo} {off : BitVec 64}
    (hf : Folded ir ir' i p off) (h : (ir.insn i).At x) : (ir'.insn i).At (x + off.toInt) := by
  have hoff : off.setWidth 32 = BitVec.ofInt 32 off.toInt := by
    rw [← BitVec.signExtend_eq_setWidth_of_le off (by decide), BitVec.signExtend]
  rw [At, hf.offset, h, hoff, BitVec.ofInt_add]

/-- The start in bits is a word. -/
theorem At.startBit_toNat (h : insn.At x) :
    (insn.startBit.toNat : ℤ) = (insn.bits x).start % 2 ^ 32 := by
  have height : BitVec.toNat (8 : BitVec 32) = 8 := rfl
  rw [startBit, h, bits_start, BitVec.toNat_mul, BitVec.toNat_ofInt, height]
  omega

/-- For small offsets the accesses that leave their page are those that start below the base and
come up to it. -/
theorem leaves_bits_iff (hx : -2 ^ 28 ≤ x ∧ x < 2 ^ 28) (hsize : insn.size < 2 ^ 24) :
    Leaves (2 ^ 32) (insn.bits x) ↔ x < 0 ∧ 0 ≤ 8 * x + insn.size := by
  rw [Leaves, bits_start, bits_length]
  omega

end Instruction

section

variable {a b : Instruction} {x y : ℤ}

/-- The two tests of `overlapping_memop`. -/
theorem overlappingMemop_eq_false_iff (ha : a.At x) (hb : b.At y) (hsa : a.size < 2 ^ 24)
    (hsb : b.size < 2 ^ 24) : overlappingMemop a b = false ↔
      EndsBefore (2 ^ 32) (a.bits x) (b.bits y) ∨ EndsBefore (2 ^ 32) (b.bits y) (a.bits x) := by
  have hends : ∀ {c d : Instruction} {v w : ℤ}, c.At v → d.At w → c.size < 2 ^ 24 →
      (BitVec.ofNat 32 c.size + c.startBit ≤ d.startBit ↔
        EndsBefore (2 ^ 32) (c.bits v) (d.bits w)) := by
    intro c d v w hc hd hsize
    rw [EndsBefore, ← hc.startBit_toNat, ← hd.startBit_toNat, BitVec.le_def, BitVec.toNat_add,
      BitVec.toNat_ofNat, Instruction.bits_length]
    omega
  rw [← hends ha hb hsa, ← hends hb ha hsb, overlappingMemop]
  split
  · simp_all
  · split <;> simp_all

/-- A store to the same address that is said to be unrelated does not overlap. -/
theorem overlappingMemop_of_dominates_no {ir : Ir} {i dom : InsnId} {isLocal : Bool}
    (hstore : (ir.insn dom).opcode = .store) (hbase : (ir.insn i).src1 = (ir.insn dom).src1)
    (hno : ir.dominates (ir.insn i).src1 i dom isLocal = .no) :
    overlappingMemop (ir.insn i) (ir.insn dom) = false := by
  simp only [Ir.dominates, hstore, hbase] at hno
  by_contra hover
  simp [hover] at hno
  split at hno <;> cases hno

/-- The overlap test is exact, and no store that overlaps the access is called unrelated, exactly if
wrapping confuses nothing: an access that comes to the end of its page of 2^32 bits shares no bit with
the other, and two that stay in their pages and meet there stand in one page and touch some bits. -/
theorem overlappingMemop_exact_iff (ha : a.At x) (hb : b.At y) (hsa : a.size < 2 ^ 24)
    (hsb : b.size < 2 ^ 24) :
    ((overlappingMemop a b = false ↔ Disjoint (a.bits x).points (b.bits y).points) ∧
      ∀ (ir : Ir) (i dom : InsnId) (isLocal : Bool), ir.insn i = a → ir.insn dom = b →
        b.opcode = .store → a.src1 = b.src1 → ¬ Disjoint (a.bits x).points (b.bits y).points →
          ir.dominates a.src1 i dom isLocal ≠ .no) ↔
      Distinct (2 ^ 32) (a.bits x) (b.bits y) := by
  have hlen : ((a.bits x).length : ℤ) + (b.bits y).length ≤ 2 ^ 32 := by
    rw [Instruction.bits_length, Instruction.bits_length]
    omega
  rw [← endsBefore_or_iff_disjoint_iff (by decide) hlen, ← overlappingMemop_eq_false_iff ha hb hsa hsb]
  refine and_iff_left_of_imp (fun hexact ir i dom isLocal hi hdom hstore hbase hshare hno => ?_)
  subst hi hdom
  exact hshare (hexact.mp (overlappingMemop_of_dominates_no hstore hbase hno))

/-- Two accesses of one word above the base. -/
theorem overlappingMemop_exact_above :
    (overlappingMemop { opcode := .load, size := 32, offset := 4 }
        { opcode := .store, size := 16, offset := 6 } = false ↔
      Disjoint (Set.Ico (8 * 4 : ℤ) (8 * 4 + (32 : ℕ))) (Set.Ico (8 * 6 : ℤ) (8 * 6 + (16 : ℕ)))) := by
  have hexact := overlappingMemop_exact_iff
    (a := { opcode := .load, size := 32, offset := 4 }) (b := { opcode := .store, size := 16, offset := 6 })
    (x := 4) (y := 6) rfl rfl (by decide) (by decide)
  refine (hexact.mpr ⟨?_, ?_⟩).1
  · rintro (h | h) <;> exact absurd h (by unfold Leaves; decide)
  · exact fun _ _ _ => by decide

end

/-- `p[-1].s = 2; return p[-1].i;`, where `p` points to `union { int i; short s; }`. -/
def shortBelowBase : Ir where
  insn
    | 0 => { opcode := .entry, bb := some 0 }
    | 1 => { opcode := .store, size := 16, bb := some 0, target := .val 2, src1 := .arg 1,
             offset := BitVec.ofInt 32 (-4) }
    | 2 => { opcode := .load, size := 32, bb := some 0, target := .reg 0, src1 := .arg 1,
             offset := BitVec.ofInt 32 (-4) }
    | 3 => { opcode := .ret, bb := some 0, src1 := .reg 0 }
    | _ => { opcode := .badop }
  block
    | 0 => { insns := [0, 1, 2, 3] }
    | _ => {}
  cell _ := .null
  definition
    | .arg 1 => some 0
    | .reg 0 => some 2
    | _ => none
  users
    | .arg 1 => [⟨1, .src1 1⟩, ⟨2, .src1 2⟩]
    | .reg 0 => [⟨3, .src1 3⟩]
    | _ => []
  bbs := [0]
  entry := 0
  nextInsn := 4
  nextBlock := 1
  nextCell := 0
  nextReg := 1
  nextPhi := 0
  bbGeneration := 0

/-- The load of four bytes ends at the base, and the store to its first two counts as unrelated. -/
theorem shortBelowBase_unrelated :
    (shortBelowBase.insn 2).At (-4) ∧ (shortBelowBase.insn 1).At (-4) ∧
      ¬ Disjoint ((shortBelowBase.insn 2).bits (-4)).points ((shortBelowBase.insn 1).bits (-4)).points ∧
      overlappingMemop (shortBelowBase.insn 2) (shortBelowBase.insn 1) = false ∧
      shortBelowBase.dominates (.arg 1) 2 1 false = .no := by
  refine ⟨rfl, rfl, ?_, by decide, by decide⟩
  rw [disjoint_points]
  decide

end Sparse
