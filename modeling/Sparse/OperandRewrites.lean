import Sparse.FlowGraph

/-!
# Rewriting operands

The rewrites of `simplify.c`, `flow.c` and `cse.c` that replace an instruction or move
its operands, with the order in which they edit slots and use lists. Warnings and the
identifiers of pseudos are left out.
-/

namespace Sparse

/-- The slots of an instruction that hold operands. -/
def Instruction.operandSlots (insn : Instruction) (i : InsnId) : List Address :=
  match insn.opcode with
  | .ret => [.src1 i]
  | .br | .switch | .computedgoto => [.target i]
  | .notLin | .neg => [.src1 i]
  | .sel => [.src1 i, .src2 i, .src3 i]
  | .load => [.src1 i]
  | .store => [.src1 i, .target i]
  | .symaddr => [.src1 i]
  | .phi => insn.phiList.map .cell
  | .phisource => [.src1 i]
  | .cast | .scast | .fpcast | .ptrcast => [.src1 i]
  | .inlinedCall | .call => .src1 i :: insn.arguments.map .cell
  | .slice => [.src1 i]
  | .asm => insn.inputs.map .cell
  | .rangeLin => [.src1 i, .src2 i, .src3 i]
  | op => if op.isBinary then [.src1 i, .src2 i] else []

namespace Ir

/-- The instruction is live and the slot is one of its operands. -/
def Owns (ir : Ir) (i : InsnId) (s : Address) : Prop :=
  ir.live i ∧ s ∈ (ir.insn i).operandSlots i

/-- `dead_insn`; the second component tells whether the instruction was dead. -/
def deadInsn (ir : Ir) (i : InsnId) (src1 src2 src3 : Option Address) : Ir × Bool :=
  if (ir.users (ir.insn i).target).all (fun pu => ir.load pu.userp = .void) then
    ((((ir.clearBb i).killUse src1).killUse src2).killUse src3, true)
  else (ir, false)

/-- `replace_with_pseudo`. -/
def replaceWithPseudo (ir : Ir) (i : InsnId) (pseudo : Pseudo) : Ir :=
  (ir.convertInstructionTarget i pseudo).clearBb i

/-- `switch_pseudo`. -/
def switchPseudo (ir : Ir) (insn1 : InsnId) (pp1 : Address) (insn2 : InsnId) (pp2 : Address) : Ir :=
  let p1 := ir.load pp1
  let p2 := ir.load pp2
  let ir := ir.usePseudo insn1 p2 pp1
  let ir := ir.usePseudo insn2 p1 pp2
  let ir := ir.removeUsage p1 pp1
  ir.removeUsage p2 pp2

/-- `simplify_associative_binop`. -/
def simplifyAssociativeBinop (ir : Ir) (i : InsnId) : Ir :=
  let simplePseudo : Pseudo → Bool
    | .val _ | .sym _ => true
    | _ => false
  match (ir.insn i).src1 with
  | .reg nr =>
    match ir.definition (.reg nr) with
    | none => ir
    | some d =>
      if simplePseudo (ir.insn i).src2 ∧ d ≠ i ∧ (ir.insn d).opcode = (ir.insn i).opcode ∧
          simplePseudo (ir.insn d).src2 ∧ (ir.users (ir.insn d).target).length = 1 then
        ir.switchPseudo d (.src1 d) i (.src2 i)
      else ir
  | _ => ir

/-- `convert_load_instruction`. -/
def convertLoadInstruction (ir : Ir) (i : InsnId) (src : Pseudo) : Ir :=
  (ir.convertInstructionTarget i src).setInsn i ({ · with opcode := .lnop, bb := none })

/-- The pseudo that a phi source records: `phi->def->src1`. -/
def phiSrc (ir : Ir) (c : CellId) : Option Pseudo :=
  (ir.definition (ir.cell c)).map (fun d => (ir.insn d).src1)

/-- Kill the definition of a phi pseudo: `phi->def->bb = NULL`. -/
def clearPhiSource (ir : Ir) (c : CellId) : Ir :=
  match ir.definition (ir.cell c) with
  | some d => ir.clearBb d
  | none => ir

/-- `alloc_phi`, for a block that is there. -/
def allocPhi (ir : Ir) (source : BlockId) (pseudo : Pseudo) (size : ℕ) : Ir × Pseudo :=
  let insn := ir.nextInsn
  let phi := Pseudo.phi ir.nextPhi
  let ir := { ir with
    nextInsn := insn + 1
    nextPhi := ir.nextPhi + 1
    definition := Function.update ir.definition phi (some insn) }
  let ir := ir.setInsn insn (fun _ => { opcode := .phisource, size := size })
  let ir := ir.usePseudo insn pseudo (.src1 insn)
  let ir := ir.setInsn insn ({ · with bb := some source, target := phi })
  (ir.setBlock source (fun b => { b with insns := b.insns ++ [insn] }), phi)

/-- The end of `find_dominating_parents` for one parent: a phi source goes in front of the last
instruction of the parent, and its phi in a new entry of the list of dominators. -/
def addDominator (ir : Ir) (i : InsnId) (parent : BlockId) (pseudo : Pseudo) (size : ℕ) :
    Ir × CellId :=
  let br := ir.lastInstruction parent
  let ir := ir.deleteLastInstruction parent
  let (ir, phi) := ir.allocPhi parent pseudo size
  let ir := ir.setBlock parent (fun b => { b with insns := b.insns ++ br.toList })
  let c := ir.nextCell
  let ir := { ir with nextCell := c + 1 }
  (ir.usePseudo i phi (.cell c), c)

/-- `rewrite_load_instruction`. The phi list takes the place of the address in the union,
which leaves the slot of the address without a pseudo. -/
def rewriteLoadInstruction (ir : Ir) (i : InsnId) (dominators : List CellId) : Ir :=
  match dominators with
  | [] => ir
  | first :: _ =>
    match ir.phiSrc first with
    | none => ir
    | some new =>
      if dominators.all (fun c => ir.phiSrc c = some new) then
        (dominators.foldl clearPhiSource ir).convertLoadInstruction i new
      else
        let ir := match (ir.insn i).src1 with
          | .sym _ => ir
          | _ => ir.killUse (some (.src1 i))
        ir.setInsn i ({ · with opcode := .phi, phiList := dominators, src1 := .null })

/-- `simplify_one_memop`; the second component tells whether anything changed. -/
def simplifyOneMemop (ir : Ir) (i : InsnId) (orig : Pseudo) : Ir × Bool :=
  let addr := (ir.insn i).src1
  let offset (new : Pseudo) (off : BitVec 64) : Ir × Bool :=
    if new = orig ∧ new = .void then (ir, false)
    else
      let new := if new = orig then .void else new
      let ir := ir.setInsn i (fun insn => { insn with offset := insn.offset + off.setWidth 32 })
      ((ir.usePseudo i new (.src1 i)).removeUsage addr (.src1 i), true)
  match addr, ir.definition addr with
  | .reg _, some d =>
    let insn := ir.insn d
    if insn.opcode = .symaddr ∧ insn.src1 ≠ .null then
      let ir := ir.killUse (some (.src1 i))
      (ir.usePseudo i (ir.insn d).src1 (.src1 i), true)
    else if insn.opcode = .addLin then
      match insn.src1, insn.src2 with
      | new, .val off => offset new off
      | .val off, new => offset new off
      | _, _ => (ir, false)
    else (ir, false)
  | _, _ => (ir, false)

/-- The truth of the union field `value` of a pseudo: for a register, an argument or a
symbol it holds a pointer. -/
def valueField : Pseudo → Bool
  | .val value => value ≠ 0
  | .null | .void => false
  | _ => true

/-- `simplify_select`. -/
def simplifySelect (ir : Ir) (i : InsnId) : Ir :=
  match ir.deadInsn i (some (.src1 i)) (some (.src2 i)) (some (.src3 i)) with
  | (ir, true) => ir
  | (ir, false) =>
    let cond := (ir.insn i).src1
    let src1 := (ir.insn i).src2
    let src2 := (ir.insn i).src3
    if sparseConstant cond ∨ src1 = src2 then
      let ir := ir.killUse (some (.src1 i))
      let take := if valueField cond then src1 else src2
      let kill := if valueField cond then Address.src3 i else .src2 i
      (ir.killUse (some kill)).replaceWithPseudo i take
    else
      match src1, src2 with
      | .val val1, .val val2 =>
        if val1 ||| val2 = 1 then
          if val1 ≠ 0 then ir.setInsn i ({ · with opcode := .setNe, src2 := src2 })
          else ir.setInsn i ({ · with opcode := .setEq, src2 := src1 })
        else ir
      | _, _ => ir

/-- `clear_phi`. -/
def clearPhi (ir : Ir) (i : InsnId) : Ir :=
  (ir.insn i).phiList.foldl (fun ir c => ir.assign .void (.cell c)) (ir.clearBb i)

/-- `insert_select`. The new instruction goes in front of the last one. -/
def insertSelect (ir : Ir) (bb : BlockId) (br phiNode : InsnId) (ifTrue ifFalse : Pseudo) : Ir :=
  let ir := ir.deleteLastInstruction bb
  let select := ir.nextInsn
  let ir := { ir with nextInsn := select + 1 }
  let ir := ir.setInsn select
    (fun _ => { opcode := .sel, size := (ir.insn phiNode).size, bb := some bb })
  let ir := ir.usePseudo select (ir.insn br).target (.src1 select)
  let target := (ir.insn phiNode).target
  let ir := ir.setInsn select ({ · with target := target })
  let ir := { ir with definition := Function.update ir.definition target (some select) }
  let ir := ir.usePseudo select ifTrue (.src2 select)
  let ir := ir.usePseudo select ifFalse (.src3 select)
  ir.setBlock bb (fun b => { b with insns := b.insns ++ [select, br] })

/-- `phi_parent`. -/
def phiParent (ir : Ir) (source : BlockId) (pseudo : Pseudo) : Option BlockId :=
  let definedHere : Bool :=
    match pseudo, ir.definition pseudo with
    | .reg _, some d => (ir.insn d).bb = some source
    | _, _ => false
  if definedHere then some source
  else if (ir.block source).children.length ≠ 1 ∨ (ir.block source).parents.length ≠ 1 then
    some source
  else (ir.block source).parents.head?

/-- The end of `if_convert_phi`, with the values of the two sources and their blocks. -/
def insertSelectFor (ir : Ir) (i : InsnId) (source : BlockId) (p1 p2 : Pseudo) (bb1 bb2 : BlockId) :
    Ir :=
  match ir.lastInstruction source with
  | none => ir
  | some br =>
    if (ir.insn br).opcode ≠ .br then ir
    else if (ir.insn br).bbTrue = some bb2 ∨ (ir.insn br).bbFalse = some bb1 then
      (ir.insertSelect source br i p2 p1).clearPhi i
    else (ir.insertSelect source br i p1 p2).clearPhi i

/-- `if_convert_phi`. -/
def ifConvertPhi (ir : Ir) (i : InsnId) : Ir :=
  match (ir.insn i).bb, (ir.insn i).phiList with
  | some bb, [c1, c2] =>
    match (ir.block bb).parents, ir.definition (ir.cell c1), ir.definition (ir.cell c2) with
    | [parent1, parent2], some d1, some d2 =>
      match (ir.insn d1).bb, (ir.insn d2).bb with
      | some bb1, some bb2 =>
        if (bb1 ≠ parent1 ∨ bb2 ≠ parent2) ∧ (bb1 ≠ parent2 ∨ bb2 ≠ parent1) then ir
        else
          match ir.phiParent bb1 (ir.insn d1).src1 with
          | none => ir
          | some source =>
            if ir.phiParent bb2 (ir.insn d2).src1 ≠ some source then ir
            else ir.insertSelectFor i source (ir.insn d1).src1 (ir.insn d2).src1 bb1 bb2
      | _, _ => ir
    | _, _, _ => ir
  | _, _ => ir

/-- The users of one phi pseudo without those of an instruction. -/
def dropPhiUsers (i : InsnId) (ir : Ir) (c : CellId) : Ir :=
  ir.setUsers (ir.cell c) ((ir.users (ir.cell c)).filter (fun pu => pu.insn ≠ i))

/-- `cse_one_instruction`. -/
def cseOneInstruction (ir : Ir) (i d : InsnId) : Ir :=
  let ir := ir.convertInstructionTarget i (ir.insn d).target
  let ir :=
    if (ir.insn i).opcode = .phi then (ir.insn i).phiList.foldl (dropPhiUsers i) ir else ir
  ir.setInsn i ({ · with opcode := .nop, bb := none })

end Ir

end Sparse
