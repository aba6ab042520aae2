import Sparse.LinearIr
import Sparse.StableIteration
import Mathlib.Logic.Relation

/-!
# Liveness of pseudos

`track_pseudo_liveness` collects what each block uses and defines, propagates the uses
to the parents until nothing changes, and keeps of the definitions those that a child
needs. The two callbacks of `track_instruction_usage` are recorded as events.
-/

namespace Sparse

/-- One call of a callback of `track_instruction_usage`. -/
inductive Usage
  | use (bb : BlockId) (pseudo : Pseudo)
  | define (bb : BlockId) (pseudo : Pseudo)
  deriving DecidableEq, Repr

/-- `trackable_pseudo`. -/
def trackablePseudo : Pseudo → Bool
  | .reg _ | .arg _ => true
  | _ => false

namespace Ir

/-- The pseudos that an instruction other than a phi node passes to `use`. -/
def uses (ir : Ir) (i : InsnId) : List Pseudo :=
  let insn := ir.insn i
  match insn.opcode with
  | .ret => [insn.src1]
  | .br | .switch => [insn.target]
  | .computedgoto => [insn.target]
  | .notLin | .neg => [insn.src1]
  | .sel => [insn.src1, insn.src2, insn.src3]
  | .load => [insn.src1]
  | .store => [insn.src1, insn.target]
  | .symaddr => [insn.src1]
  | .phisource => [insn.src1]
  | .cast | .scast | .fpcast | .ptrcast => [insn.src1]
  | .call => insn.src1 :: insn.arguments.map ir.cell
  | .slice => [insn.src1]
  | .asm => insn.inputs.map ir.cell
  | .rangeLin => [insn.src1, insn.src2, insn.src3]
  | op => if op.isBinary then [insn.src1, insn.src2] else []

/-- The pseudos that an instruction other than a phi node passes to `def`. -/
def defines (ir : Ir) (i : InsnId) : List Pseudo :=
  let insn := ir.insn i
  match insn.opcode with
  | .notLin | .neg | .sel | .load | .setval | .symaddr | .slice => [insn.target]
  | .cast | .scast | .fpcast | .ptrcast => [insn.target]
  | .call => if insn.target = .void then [] else [insn.target]
  | .asm => insn.outputs.map ir.cell
  | op => if op.isBinary then [insn.target] else []

/-- The blocks that `phi_defines` visits, through nested phi nodes. The fuel bounds the
depth of the nesting. -/
def phiDefines (ir : Ir) : ℕ → InsnId → Option (List BlockId)
  | 0, _ => none
  | fuel + 1, phiNode =>
    ((ir.insn phiNode).phiList.mapM fun phi =>
      if ir.cell phi = .void then some []
      else
        match ir.definition (ir.cell phi) with
        | none => some []
        | some d =>
          match (ir.insn d).bb with
          | none => some []
          | some bb =>
            if (ir.insn d).opcode = .phi then phiDefines ir fuel d else some [bb]).map List.flatten

/-- `track_instruction_usage`. -/
def trackInstructionUsage (ir : Ir) (fuel : ℕ) (bb : BlockId) (i : InsnId) : Option (List Usage) :=
  if (ir.insn i).opcode = .phi then
    (ir.phiDefines fuel i).map (·.map (.define · (ir.insn i).target))
  else some ((ir.uses i).map (.use bb) ++ (ir.defines i).map (.define bb))

/-- `add_pseudo_exclusive(&bb->needs, pseudo)`, with the flag `liveness_changed`. -/
def addNeed (s : Ir × Bool) (bb : BlockId) (pseudo : Pseudo) : Ir × Bool :=
  if pseudo ∈ (s.1.block bb).needs then s
  else (s.1.setBlock bb (fun b => { b with needs := b.needs ++ [pseudo] }), true)

/-- The condition of `insn_uses`: the pseudo does not come from an ordinary definition in
the block. -/
def comesFromOutside (ir : Ir) (bb : BlockId) : Pseudo → Bool
  | .reg nr =>
    match ir.definition (.reg nr) with
    | some d => (ir.insn d).bb ≠ some bb ∨ (ir.insn d).opcode = .phi
    | none => true
  | _ => true

/-- `insn_uses` and `insn_defines`. -/
def record (s : Ir × Bool) : Usage → Ir × Bool
  | .use bb pseudo =>
    if trackablePseudo pseudo ∧ s.1.comesFromOutside bb pseudo then addNeed s bb pseudo else s
  | .define bb pseudo =>
    (s.1.setBlock bb (fun b => { b with defines := b.defines ++ [pseudo] }), s.2)

/-- The events of the instructions of one block, in order. -/
def blockUsage (ir : Ir) (fuel : ℕ) (bb : BlockId) : Option (List Usage) :=
  ((ir.block bb).insns.mapM fun i =>
    if (ir.insn i).bb = none then some []
    else ir.trackInstructionUsage fuel bb i).map List.flatten

/-- The events of the first loop of `track_pseudo_liveness`. -/
def usage (ir : Ir) (fuel : ℕ) : Option (List Usage) :=
  (ir.bbs.mapM (ir.blockUsage fuel)).map List.flatten

/-- The inner loop of `track_bb_liveness`. -/
def needInParent (bb : BlockId) (s : Ir × Bool) (need : Pseudo) : Ir × Bool :=
  (s.1.block bb).parents.foldl
    (fun s parent => if need ∈ (s.1.block parent).defines then s else addNeed s parent need) s

/-- `track_bb_liveness`. A block that is its own parent needs the pseudo already, so its list
does not grow under the loop. -/
def trackBbLiveness (s : Ir × Bool) (bb : BlockId) : Ir × Bool :=
  (s.1.block bb).needs.foldl (needInParent bb) s

/-- The body of the `do` loop of `track_pseudo_liveness`. -/
def livenessRound (s : Ir × Bool) : Ir × Bool := s.1.bbs.reverse.foldl trackBbLiveness s

/-- `track_pseudo_liveness` up to the final pruning. The fuel bounds the nesting of phi nodes
and the number of rounds. -/
def solveLiveness (ir : Ir) (fuel : ℕ) : Option Ir :=
  (ir.usage fuel).bind fun us =>
    StableIteration.iterate livenessRound fuel (us.foldl record (ir, false)).1

/-- Remove the pseudos from the `defines` list that are used internally. -/
def pruneDefines (ir : Ir) (bb : BlockId) : Ir :=
  ir.setBlock bb (fun b => { b with
    defines := b.defines.filter (fun def_ =>
      (ir.block bb).children.any (fun child => def_ ∈ (ir.block child).needs)) })

/-- `track_pseudo_liveness`. -/
def trackPseudoLiveness (ir : Ir) (fuel : ℕ) : Option Ir :=
  (ir.solveLiveness fuel).map (fun ir => ir.bbs.foldl pruneDefines ir)

end Ir

end Sparse
