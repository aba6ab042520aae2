import Sparse.LinearIr
import Sparse.PointerList

/-!
# Use lists and the deletion of instructions

Every pseudo but a value or `VOID` carries the list of the slots that hold it.
Dropping the last use kills the defining instruction, which drops its own
operands in turn. Each killed instruction leaves its block, so the depth of that
recursion is bounded by the number of allocated instructions; this is the fuel.
-/

namespace Sparse

/-- `has_use_list`. -/
def hasUseList : Pseudo → Bool
  | .null | .void | .val _ => false
  | _ => true

/-- `sparse_constant`. -/
def sparseConstant : Pseudo → Bool
  | .val _ => true
  | _ => false

namespace Ir

/-- `use_pseudo`. -/
def usePseudo (ir : Ir) (insn : InsnId) (p : Pseudo) (pp : Address) : Ir :=
  let ir := ir.assign p pp
  if hasUseList p then ir.setUsers p (ir.users p ++ [⟨insn, pp⟩]) else ir

/-- `delete_pseudo_user_list_entry` on the use list of `p`. -/
def deletePseudoUserListEntry (ir : Ir) (p : Pseudo) (entry : Address) (count : ℕ) : Ir :=
  ir.setUsers p (deleteEntries (fun pu => pu.userp == entry) (ir.users p) count)

/-- `insn->bb = NULL`. -/
def clearBb (ir : Ir) (i : InsnId) : Ir := ir.setInsn i ({ · with bb := none })

/-- `remove_usage`, with the recursive call to `kill_instruction` abstracted. The
union makes `p->def` of a symbol pseudo its symbol; `definition` is empty there. -/
def removeUsageWith (kill : Ir → InsnId → Ir) (ir : Ir) (p : Pseudo) (usep : Address) : Ir :=
  if hasUseList p then
    let ir := ir.deletePseudoUserListEntry p usep 1
    if ir.users p = [] then
      match ir.definition p with
      | some d => kill ir d
      | none => ir
    else ir
  else ir

/-- `kill_use` on a slot, with the recursive call abstracted. -/
def killUseWith (kill : Ir → InsnId → Ir) (ir : Ir) (usep : Address) : Ir :=
  let p := ir.load usep
  removeUsageWith kill (ir.assign .void usep) p usep

/-- `kill_instruction`. Opcodes without a case leave the instruction in its block. -/
def killInstructionFuel : ℕ → Ir → InsnId → Ir
  | 0, ir, _ => ir
  | fuel + 1, ir, i =>
    let killUse := killUseWith (killInstructionFuel fuel)
    if (ir.insn i).bb = none then ir
    else
      match (ir.insn i).opcode with
      | .notLin | .neg => killUse (ir.clearBb i) (.src1 i)
      | .phi | .symaddr => ir.clearBb i
      | .rangeLin => killUse (killUse (killUse (ir.clearBb i) (.src1 i)) (.src2 i)) (.src3 i)
      | .br =>
        if (ir.insn i).target = .null then ir.clearBb i
        else killUse (ir.clearBb i) (.target i)
      | op =>
        if op.isBinary then killUse (killUse (ir.clearBb i) (.src1 i)) (.src2 i) else ir

/-- `kill_instruction`. -/
def killInstruction (ir : Ir) (i : InsnId) : Ir := killInstructionFuel (ir.nextInsn + 1) ir i

/-- `remove_usage`. -/
def removeUsage (ir : Ir) (p : Pseudo) (usep : Address) : Ir :=
  removeUsageWith killInstruction ir p usep

/-- `kill_use`; its argument may be a null pointer. -/
def killUse (ir : Ir) : Option Address → Ir
  | none => ir
  | some usep => killUseWith killInstruction ir usep

/-- The loop of `convert_instruction_target` over the users of the target. -/
def convertUsers (src : Pseudo) (ir : Ir) : List PseudoUser → Ir
  | [] => ir
  | pu :: us => convertUsers src (if ir.load pu.userp = .void then ir else ir.assign src pu.userp) us

/-- `convert_instruction_target`. -/
def convertInstructionTarget (ir : Ir) (i : InsnId) (src : Pseudo) : Ir :=
  let target := (ir.insn i).target
  if target = src then ir
  else
    let us := ir.users target
    let ir := convertUsers src ir us
    (ir.setUsers src (ir.users src ++ us)).setUsers target []

/-- `kill_defs`. -/
def killDefs (ir : Ir) (i : InsnId) : Ir :=
  let target := (ir.insn i).target
  if !hasUseList target then ir
  else if ir.definition target ≠ some i then ir
  else ir.convertInstructionTarget i .void

end Ir

/-- The part of an instruction that decides the successors of its block. -/
def Instruction.flow (insn : Instruction) :
    Opcode × Option BlockId × Option BlockId × List Multijmp :=
  (insn.opcode, insn.bbTrue, insn.bbFalse, insn.multijmpList)

/-- The two heaps have the same flow graph: operands and use lists may differ. -/
structure SameFlow (ir ir' : Ir) : Prop where
  block : ir'.block = ir.block
  bbs : ir'.bbs = ir.bbs
  entry : ir'.entry = ir.entry
  nextInsn : ir'.nextInsn = ir.nextInsn
  nextBlock : ir'.nextBlock = ir.nextBlock
  bbGeneration : ir'.bbGeneration = ir.bbGeneration
  flow : ∀ i, (ir'.insn i).flow = (ir.insn i).flow

namespace SameFlow

variable {ir ir' ir'' : Ir}

theorem refl (ir : Ir) : SameFlow ir ir := ⟨rfl, rfl, rfl, rfl, rfl, rfl, fun _ => rfl⟩

theorem trans (h : SameFlow ir ir') (h' : SameFlow ir' ir'') : SameFlow ir ir'' where
  block := h'.block.trans h.block
  bbs := h'.bbs.trans h.bbs
  entry := h'.entry.trans h.entry
  nextInsn := h'.nextInsn.trans h.nextInsn
  nextBlock := h'.nextBlock.trans h.nextBlock
  bbGeneration := h'.bbGeneration.trans h.bbGeneration
  flow := fun i => (h'.flow i).trans (h.flow i)

theorem setInsn (ir : Ir) (i : InsnId) (f : Instruction → Instruction)
    (hf : ∀ insn, (f insn).flow = insn.flow) : SameFlow ir (ir.setInsn i f) where
  block := rfl
  bbs := rfl
  entry := rfl
  nextInsn := rfl
  nextBlock := rfl
  bbGeneration := rfl
  flow := fun j => by
    by_cases h : j = i
    · subst h; simp [hf]
    · simp [h]

theorem setUsers (ir : Ir) (p : Pseudo) (us : List PseudoUser) : SameFlow ir (ir.setUsers p us) :=
  ⟨rfl, rfl, rfl, rfl, rfl, rfl, fun _ => rfl⟩

theorem assign (ir : Ir) (p : Pseudo) (a : Address) : SameFlow ir (ir.assign p a) := by
  cases a with
  | cell c => exact ⟨rfl, rfl, rfl, rfl, rfl, rfl, fun _ => rfl⟩
  | target i | src1 i | src2 i | src3 i => 
    unfold Ir.assign
    exact setInsn ir i _ (fun _ => rfl)

theorem clearBb (ir : Ir) (i : InsnId) : SameFlow ir (ir.clearBb i) :=
  setInsn ir i _ (fun _ => rfl)

theorem usePseudo (ir : Ir) (i : InsnId) (p : Pseudo) (a : Address) :
    SameFlow ir (ir.usePseudo i p a) := by
  unfold Ir.usePseudo
  split
  · exact (assign ir p a).trans (setUsers _ _ _)
  · exact assign ir p a

section Kill

variable {kill : Ir → InsnId → Ir} (hk : ∀ ir i, SameFlow ir (kill ir i))
include hk

theorem removeUsageWith (ir : Ir) (p : Pseudo) (a : Address) :
    SameFlow ir (ir.removeUsageWith kill p a) := by
  unfold Ir.removeUsageWith
  split
  · have hd : SameFlow ir (ir.deletePseudoUserListEntry p a 1) := setUsers _ _ _
    dsimp only
    split
    · split
      · exact hd.trans (hk _ _)
      · exact hd
    · exact hd
  · exact refl ir

theorem killUseWith (ir : Ir) (a : Address) : SameFlow ir (ir.killUseWith kill a) :=
  (assign ir _ a).trans (removeUsageWith hk _ _ _)

end Kill

theorem killInstructionFuel (fuel : ℕ) (ir : Ir) (i : InsnId) :
    SameFlow ir (Ir.killInstructionFuel fuel ir i) := by
  induction fuel generalizing ir i with
  | zero => exact refl ir
  | succ fuel ih =>
    have hc := clearBb ir i
    have hk := fun ir a => killUseWith ih ir a
    unfold Ir.killInstructionFuel
    dsimp only
    split
    · exact refl ir
    · split
      · exact hc.trans (hk _ _)
      · exact hc.trans (hk _ _)
      · exact hc
      · exact hc
      · exact ((hc.trans (hk _ _)).trans (hk _ _)).trans (hk _ _)
      · split
        · exact hc
        · exact hc.trans (hk _ _)
      · split
        · exact (hc.trans (hk _ _)).trans (hk _ _)
        · exact refl ir

theorem killInstruction (ir : Ir) (i : InsnId) : SameFlow ir (ir.killInstruction i) :=
  killInstructionFuel _ ir i

theorem removeUsage (ir : Ir) (p : Pseudo) (a : Address) : SameFlow ir (ir.removeUsage p a) :=
  removeUsageWith killInstruction ir p a

theorem killUse (ir : Ir) (a : Option Address) : SameFlow ir (ir.killUse a) := by
  cases a with
  | none => exact refl ir
  | some a => exact killUseWith killInstruction ir a

theorem convertUsers (src : Pseudo) (ir : Ir) (us : List PseudoUser) :
    SameFlow ir (Ir.convertUsers src ir us) := by
  induction us generalizing ir with
  | nil => exact refl ir
  | cons pu us ih =>
    unfold Ir.convertUsers
    split
    · exact ih ir
    · exact (assign ir src _).trans (ih _)

theorem convertInstructionTarget (ir : Ir) (i : InsnId) (src : Pseudo) :
    SameFlow ir (ir.convertInstructionTarget i src) := by
  unfold Ir.convertInstructionTarget
  dsimp only
  split
  · exact refl ir
  · exact ((convertUsers src ir _).trans (setUsers _ _ _)).trans (setUsers _ _ _)

theorem killDefs (ir : Ir) (i : InsnId) : SameFlow ir (ir.killDefs i) := by
  unfold Ir.killDefs
  dsimp only
  split
  · exact refl ir
  · split
    · exact refl ir
    · exact convertInstructionTarget ir i .void

end SameFlow

end Sparse
