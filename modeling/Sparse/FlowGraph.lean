import Sparse.UseLists

/-!
# Rewriting the flow graph

The operations that move, add and remove edges between basic blocks, with the
order in which the source edits the two lists of each edge. The assertions of
`delete_ptr_list_entry` and `rewrite_parent_branch` abort the program and have no
counterpart; a list in which the entry is missing is left alone.
-/

namespace Sparse

/-- The address of a branch target: `&br->bb_true`, `&br->bb_false` or
`&jmp->target` of the entry with the given index. -/
inductive BranchSlot
  | bbTrue
  | bbFalse
  | jump (index : ℕ)
  deriving DecidableEq, Repr

namespace Instruction

variable (insn : Instruction)

/-- The block a branch slot names. -/
def branch : BranchSlot → Option BlockId
  | .bbTrue => insn.bbTrue
  | .bbFalse => insn.bbFalse
  | .jump n => (insn.multijmpList[n]?).map Multijmp.target

/-- Assign to a branch slot. -/
def setBranch (new : BlockId) : BranchSlot → Instruction
  | .bbTrue => { insn with bbTrue := some new }
  | .bbFalse => { insn with bbFalse := some new }
  | .jump n =>
    { insn with multijmpList := insn.multijmpList.modify n ({ · with target := new }) }

/-- The blocks a terminating instruction names. -/
def successors : List BlockId :=
  match insn.opcode with
  | .br => insn.bbTrue.toList ++ insn.bbFalse.toList
  | .switch | .computedgoto => insn.multijmpList.map Multijmp.target
  | _ => []

end Instruction

namespace Ir

/-- The successors named by the last instruction of a block. -/
def successors (ir : Ir) (b : BlockId) : List BlockId :=
  match ir.lastInstruction b with
  | some i => (ir.insn i).successors
  | none => []

/-- `remove_bb_from_list(&bb->parents, entry, count)`. -/
def removeFromParents (ir : Ir) (b entry : BlockId) (count : ℕ) : Ir :=
  ir.setBlock b (fun bb => { bb with parents := deletePtrListEntry bb.parents entry count })

/-- `remove_bb_from_list(&bb->children, entry, count)`. -/
def removeFromChildren (ir : Ir) (b entry : BlockId) (count : ℕ) : Ir :=
  ir.setBlock b (fun bb => { bb with children := deletePtrListEntry bb.children entry count })

/-- `rewrite_branch`, with `ptr` a slot of the instruction `br`. -/
def rewriteBranch (ir : Ir) (bb : BlockId) (br : InsnId) (ptr : BranchSlot) (old new : BlockId) :
    Ir × Bool :=
  if (ir.insn br).branch ptr ≠ some old ∨ new = old then (ir, false)
  else
    let ir := ir.setInsn br (fun insn => insn.setBranch new ptr)
    let ir := ir.setBlock bb
      (fun b => { b with children := replacePtrListEntry b.children old new 1 })
    let ir := ir.removeFromParents old bb 1
    let ir := ir.setBlock new (fun b => { b with parents := b.parents ++ [bb] })
    (ir, true)

/-- One `changed |= rewrite_branch(...)` after another. -/
def rewriteBranches (bb : BlockId) (br : InsnId) (old new : BlockId) :
    List BranchSlot → Ir → Ir × Bool
  | [], ir => (ir, false)
  | ptr :: ptrs, ir =>
    let first := ir.rewriteBranch bb br ptr old new
    let rest := rewriteBranches bb br old new ptrs first.1
    (rest.1, first.2 || rest.2)

/-- `rewrite_parent_branch`. -/
def rewriteParentBranch (ir : Ir) (bb old new : BlockId) : Ir × Bool :=
  match ir.lastInstruction bb with
  | none => (ir, false)
  | some i =>
    if old = new then (ir, false)
    else
      match (ir.insn i).opcode with
      | .br => rewriteBranches bb i old new [.bbTrue, .bbFalse] ir
      | .switch =>
        rewriteBranches bb i old new
          ((List.range (ir.insn i).multijmpList.length).map .jump) ir
      | _ => (ir, false)

/-- The loop of `rewrite_branch_bb` over the first parent. Each round takes at
least one entry off the list of parents, whose length is the fuel. -/
def rewriteParents (bb target : BlockId) : ℕ → Ir → Ir × Option BlockId
  | 0, ir => (ir, if (ir.block bb).parents = [] then some target else none)
  | fuel + 1, ir =>
    match (ir.block bb).parents with
    | [] => (ir, some target)
    | parent :: _ =>
      match ir.rewriteParentBranch parent bb target with
      | (ir, true) => rewriteParents bb target fuel ir
      | (ir, false) => (ir, none)

/-- `rewrite_branch_bb`. -/
def rewriteBranchBb (ir : Ir) (bb : BlockId) (br : InsnId) : Ir × Option BlockId :=
  let insn := ir.insn br
  let rewriteTo : Option BlockId → Ir × Option BlockId
    | some target => rewriteParents bb target (ir.block bb).parents.length ir
    | none => (ir, none)
  match insn.bbTrue, insn.bbFalse with
  | some bbTrue, some bbFalse =>
    match insn.target with
    | .val value => rewriteTo (some (if value ≠ 0 then bbTrue else bbFalse))
    | _ => (ir, none)
  | bbTrue, _ => rewriteTo bbTrue

/-- The first loop of `kill_bb`. -/
def killInsns : List InsnId → Ir → Ir
  | [], ir => ir
  | i :: is, ir => killInsns is (((ir.killInstruction i).killDefs i).clearBb i)

/-- `kill_bb`. -/
def killBb (ir : Ir) (bb : BlockId) : Ir :=
  let ir := killInsns (ir.block bb).insns ir
  let ir := ir.setBlock bb ({ · with insns := [] })
  let ir := (ir.block bb).children.foldl (fun ir child => ir.removeFromParents child bb 0) ir
  let ir := ir.setBlock bb ({ · with children := [] })
  let ir := (ir.block bb).parents.foldl (fun ir parent => ir.removeFromChildren parent bb 0) ir
  ir.setBlock bb ({ · with parents := [], killed := true })

/-- `remove_parent`. -/
def removeParent (ir : Ir) (child parent : BlockId) : Ir :=
  let ir := ir.removeFromParents child parent 1
  if (ir.block child).parents = [] then ir.killBb child else ir

/-- The loop of `insert_branch` over the children of `bb`: `kept` are the entries
passed over, `todo` those still to come. When `bb` itself is killed on the way the
loop goes on over the detached list. -/
def dropChildren (bb : BlockId) :
    List BlockId → List BlockId → Option BlockId → Ir → Ir
  | _, [], _, ir => ir
  | kept, child :: todo, target, ir =>
    if target = some child then dropChildren bb (kept ++ [child]) todo none ir
    else
      let ir :=
        if (ir.block bb).killed then ir
        else ir.setBlock bb ({ · with children := kept ++ todo })
      dropChildren bb kept todo target (ir.removeParent child bb)

/-- Allocate an unconditional branch at the end of `bb`. -/
def appendBranch (ir : Ir) (bb : BlockId) (target : Option BlockId) : Ir :=
  let br := ir.nextInsn
  let ir := { ir with nextInsn := br + 1 }
  let ir := ir.setInsn br (fun _ => { opcode := .br, bb := some bb, bbTrue := target })
  ir.setBlock bb (fun b => { b with insns := b.insns ++ [br] })

/-- `delete_last_instruction(&bb->insns)`. -/
def deleteLastInstruction (ir : Ir) (bb : BlockId) : Ir :=
  ir.setBlock bb (fun b => { b with insns := b.insns.dropLast })

/-- `insert_branch`. -/
def insertBranch (ir : Ir) (bb : BlockId) (target : Option BlockId) : Ir :=
  let ir := (ir.deleteLastInstruction bb).appendBranch bb target
  dropChildren bb [] (ir.block bb).children target ir

/-- `mark_bb_reachable`. The fuel bounds the depth of the recursion. -/
def markBbReachable (generation : ℕ) : ℕ → Ir → BlockId → Ir
  | 0, ir, _ => ir
  | fuel + 1, ir, bb =>
    if (ir.block bb).generation = generation then ir
    else
      let ir := ir.setBlock bb ({ · with generation := generation })
      (ir.block bb).children.foldl (markBbReachable generation fuel) ir

/-- Mark what the entry reaches. -/
def markFromEntry (generation : ℕ) (ir : Ir) : Ir :=
  match (ir.insn ir.entry).bb with
  | some bb => markBbReachable generation (ir.nextBlock + 1) ir bb
  | none => ir

/-- Kill the blocks without a mark and take them off the list of blocks. -/
def killUnmarked (generation : ℕ) (ir : Ir) : Ir :=
  let unmarked := fun bb => (ir.block bb).generation ≠ generation
  { (ir.bbs.filter unmarked).foldl killBb ir with
    bbs := ir.bbs.filter (fun bb => (ir.block bb).generation = generation) }

/-- `kill_unreachable_bbs`. -/
def killUnreachableBbs (ir : Ir) : Ir :=
  let generation := ir.bbGeneration + 1
  killUnmarked generation (markFromEntry generation { ir with bbGeneration := generation })

/-- The scan of `pack_basic_blocks` for the first instruction that does anything. -/
def firstActive (ir : Ir) : List InsnId → Option InsnId
  | [] => none
  | i :: is =>
    if (ir.insn i).bb = none then firstActive ir is
    else
      match (ir.insn i).opcode with
      | .nop | .lnop | .snop => firstActive ir is
      | _ => some i

/-- The only parent of a block, however often it is listed. -/
def onlyParent (ir : Ir) (bb : BlockId) : Option BlockId :=
  match (ir.block bb).parents with
  | [] => none
  | parent :: rest => if rest.all (· = parent) then some parent else none

/-- Hand the instructions of `bb` over to `parent`. -/
def moveInsns (bb parent : BlockId) (ir : Ir) : Ir :=
  let insns := (ir.block bb).insns
  let ir := insns.foldl
    (fun ir i => if (ir.insn i).bb = none then ir else ir.setInsn i ({ · with bb := some parent })) ir
  let ir := ir.setBlock parent (fun b => { b with insns := b.insns ++ insns })
  ir.setBlock bb ({ · with insns := [] })

/-- The merge at the end of the loop of `pack_basic_blocks`. -/
def mergeIntoParent (ir : Ir) (bb parent : BlockId) : Ir :=
  let children := (ir.block bb).children
  let ir := ir.setBlock parent ({ · with children := children })
  let ir := ir.setBlock bb ({ · with children := [], parents := [] })
  let ir := children.foldl
    (fun ir child => ir.setBlock child
      (fun b => { b with parents := replacePtrListEntry b.parents bb parent 0 })) ir
  let last := ir.lastInstruction parent
  let ir := ir.deleteLastInstruction parent
  let ir := match last with
    | some i => ir.killInstruction i
    | none => ir
  ir.moveInsns bb parent

/-- The second half of the body of `pack_basic_blocks`. -/
def packIntoParent (ir : Ir) (bb : BlockId) : Ir :=
  match ir.onlyParent bb with
  | none => ir
  | some parent =>
    if parent = bb then ir
    else if (ir.block parent).children.all (· = bb) then ir.mergeIntoParent bb parent
    else ir

/-- The body of the loop of `pack_basic_blocks`. -/
def packBasicBlock (ir : Ir) (bb : BlockId) : Ir :=
  match ir.firstActive (ir.block bb).insns with
  | none => ir.packIntoParent bb
  | some first =>
    match (ir.insn first).opcode with
    | .br =>
      match ir.rewriteBranchBb bb first with
      | (ir, some _) => ir.killBb bb
      | (ir, none) => ir.packIntoParent bb
    | _ => ir.packIntoParent bb

/-- `pack_basic_blocks`. -/
def packBasicBlocks (ir : Ir) : Ir := ir.bbs.foldl packBasicBlock ir

/-- Exchange the two targets of a branch. -/
def swapTargets (ir : Ir) (br : InsnId) : Ir :=
  ir.setInsn br (fun insn => { insn with bbTrue := insn.bbFalse, bbFalse := insn.bbTrue })

/-- `simplify_cond_branch`, called for the slot `pp` of a comparison with zero. -/
def simplifyCondBranch (ir : Ir) (br : InsnId) (cond : Pseudo) (definition : InsnId)
    (pp : Address) : Ir :=
  let ir := ir.usePseudo br (ir.load pp) (.target br)
  let ir := ir.removeUsage cond (.target br)
  if (ir.insn definition).opcode = .setEq then ir.swapTargets br else ir

/-- Take another condition for the branch. -/
def replaceCond (ir : Ir) (br : InsnId) (cond new : Pseudo) : Ir :=
  (ir.usePseudo br new (.target br)).removeUsage cond (.target br)

/-- The part of `simplify_branch` that looks at the definition of the condition. -/
def simplifyBranchOn (ir : Ir) (i : InsnId) (bb : BlockId) (cond : Pseudo) (d : InsnId) : Ir :=
  let br := ir.insn i
  let insn := ir.insn d
  match insn.opcode, insn.src1, insn.src2, insn.src3 with
  | .setNe, src1, src2, _ | .setEq, src1, src2, _ =>
    if src1 = .val 0 then ir.simplifyCondBranch i cond d (.src2 d)
    else if src2 = .val 0 then ir.simplifyCondBranch i cond d (.src1 d)
    else ir
  | .sel, src1, .val val1, .val val2 =>
    if val1 = 0 ∧ val2 = 0 then ir.insertBranch bb br.bbFalse
    else if val1 ≠ 0 ∧ val2 ≠ 0 then ir.insertBranch bb br.bbTrue
    else (if val2 ≠ 0 then ir.swapTargets i else ir).replaceCond i cond src1
  | .cast, src, _, _ | .scast, src, _, _ =>
    if insn.size > (insn.origType.map TypeInfo.bitSize).getD 0 then ir.replaceCond i cond src
    else ir
  | _, _, _, _ => ir

/-- `simplify_branch` on a branch at the end of `bb`. -/
def simplifyBranch (ir : Ir) (i : InsnId) (bb : BlockId) : Ir :=
  let br := ir.insn i
  match br.target with
  | .null => ir
  | .val value => ir.insertBranch bb (if value ≠ 0 then br.bbTrue else br.bbFalse)
  | cond =>
    match br.bbTrue, br.bbFalse with
    | some bbTrue, some target =>
      if bbTrue = target then
        let ir := ir.removeFromParents target bb 1
        let ir := ir.removeFromChildren bb target 1
        let ir := ir.setInsn i ({ · with bbFalse := none })
        let ir := ir.killUse (some (.target i))
        ir.setInsn i ({ · with target := .null })
      else
        match cond, ir.definition cond with
        | .reg _, some d => ir.simplifyBranchOn i bb cond d
        | _, _ => ir
    | _, _ =>
      match cond, ir.definition cond with
      | .reg _, some d => ir.simplifyBranchOn i bb cond d
      | _, _ => ir

/-- The entry of a `multijmp_list` that `simplify_switch` takes for a value. -/
def selectJump (value : BitVec 64) : List Multijmp → Option Multijmp
  | [] => none
  | jmp :: jmps =>
    if jmp.stop.slt jmp.begin then some jmp
    else if (jmp.begin.signExtend 64).sle value ∧ value.sle (jmp.stop.signExtend 64) then some jmp
    else selectJump value jmps

/-- `simplify_switch` on a switch at the end of `bb`. -/
def simplifySwitch (ir : Ir) (i : InsnId) (bb : BlockId) : Ir :=
  match (ir.insn i).target with
  | .val value =>
    match selectJump value (ir.insn i).multijmpList with
    | some jmp => ir.insertBranch bb (some jmp.target)
    | none => ir
  | _ => ir

end Ir

end Sparse
