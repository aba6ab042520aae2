import Sparse.Statements
import Sparse.FlowGraph
import Mathlib.Data.List.Sort

/-!
# Linearizing statements

`linearize_statement` appends instructions to the active block and makes new blocks as it
goes. Without an active block code is dropped. A label is bound to a block by the first jump
to it or where it stands, whichever comes first.
-/

namespace Sparse

/-- An instruction of a block as far as it decides which expressions are evaluated. The pseudo
of an expression has the expression's name. A switch names its `multijmp_list`, which is filled
in later. -/
inductive LinearInsn
  | entry
  | eval (expr : ExprId)
  | phi
  | phisource
  | br (bbTrue : BlockId)
  | cbr (cond : ExprId) (bbTrue bbFalse : BlockId)
  | switch (cond : ExprId) (insn : InsnId)
  | ret
  deriving DecidableEq, Repr

/-- `OP_TERMINATOR ... OP_TERMINATOR_END`. -/
def LinearInsn.isTerminator : LinearInsn → Bool
  | br _ | cbr _ _ _ | switch _ _ | ret => true
  | _ => false

/-- `struct entrypoint`, with the contents of its blocks and of its switches, and the
`bb_target` of each label. -/
structure Entrypoint where
  insns : BlockId → List LinearInsn
  multijmpList : InsnId → List Multijmp
  bbTarget : LabelId → Option BlockId
  bbs : List BlockId
  active : Option BlockId
  nextBlock : ℕ
  nextSwitch : ℕ

/-- The jump of a case to its block, with the bounds as `int` and in order. -/
def SwitchCase.jump (c : SwitchCase) (bbCase : BlockId) : Option Multijmp :=
  c.caseExpression.map fun value =>
    let begin : BitVec 32 := value.setWidth 32
    let stop : BitVec 32 := (c.caseTo.getD value).setWidth 32
    if stop.slt begin then ⟨bbCase, stop, begin⟩ else ⟨bbCase, begin, stop⟩

namespace Entrypoint

variable (ep : Entrypoint)

/-- `alloc_basic_block`. -/
def allocBasicBlock : Entrypoint × BlockId := ({ ep with nextBlock := ep.nextBlock + 1 }, ep.nextBlock)

/-- `bind_label`. -/
def bindLabel (label : LabelId) (bb : BlockId) : Entrypoint :=
  { ep with bbTarget := Function.update ep.bbTarget label (some bb) }

/-- `get_bound_block`. -/
def getBoundBlock (label : LabelId) : Entrypoint × BlockId :=
  match ep.bbTarget label with
  | some bb => (ep, bb)
  | none => (ep.allocBasicBlock.1.bindLabel label ep.allocBasicBlock.2, ep.allocBasicBlock.2)

/-- `add_instruction` to a block. -/
def addInstruction (bb : BlockId) (insn : LinearInsn) : Entrypoint :=
  { ep with insns := Function.update ep.insns bb (ep.insns bb ++ [insn]) }

/-- `bb_terminated`. -/
def bbTerminated : Option BlockId → Bool
  | none => false
  | some bb => (ep.insns bb).getLast?.any LinearInsn.isTerminator

/-- `finish_block`. -/
def finishBlock : Entrypoint := { ep with active := none }

/-- `add_goto`. -/
def addGoto (dst : BlockId) : Entrypoint :=
  match ep.active with
  | none => ep
  | some src => { ep.addInstruction src (.br dst) with active := none }

/-- `add_one_insn`. -/
def addOneInsn (insn : LinearInsn) : Entrypoint :=
  match ep.active with
  | none => ep
  | some bb => ep.addInstruction bb insn

/-- `set_activeblock`. -/
def setActiveblock (bb : BlockId) : Entrypoint :=
  let ep := if ep.bbTerminated ep.active then ep else ep.addGoto bb
  { ep with active := some bb, bbs := ep.bbs ++ [bb] }

/-- `add_label`. -/
def addLabel (label : LabelId) : Entrypoint :=
  match ep.bbTarget label, ep.active with
  | some bb, _ => ep.setActiveblock bb
  | none, some bb =>
    if ep.insns bb = [] then ep.bindLabel label bb
    else (ep.allocBasicBlock.1.setActiveblock ep.allocBasicBlock.2).bindLabel label
      ep.allocBasicBlock.2
  | none, none =>
    (ep.allocBasicBlock.1.setActiveblock ep.allocBasicBlock.2).bindLabel label ep.allocBasicBlock.2

/-- `add_branch`. -/
def addBranch (cond : ExprId) (bbTrue bbFalse : BlockId) : Entrypoint :=
  ep.addOneInsn (.cbr cond bbTrue bbFalse)

/-- `linearize_expression`. -/
def linearizeExpression (e : ExprId) : Entrypoint := ep.addOneInsn (.eval e)

/-- `add_multijmp`. -/
def addMultijmp (insn : InsnId) (jmp : Multijmp) : Entrypoint :=
  { ep with multijmpList :=
      Function.update ep.multijmpList insn (ep.multijmpList insn ++ [jmp]) }

/-- `multijmp_cmp`, as the order that the sort follows. -/
def multijmpLe (a b : Multijmp) : Bool :=
  if a.stop.slt a.begin then b.stop.slt b.begin
  else if b.stop.slt b.begin then true
  else if a.begin = b.begin then a.stop.sle b.stop
  else a.begin.slt b.begin

/-- `sort_switch_cases`. -/
def sortSwitchCases (insn : InsnId) : Entrypoint :=
  { ep with multijmpList :=
      Function.update ep.multijmpList insn ((ep.multijmpList insn).mergeSort multijmpLe) }

/-- `linearize_cond_branch`, with `linearize_logical_branch`. -/
def linearizeCondBranch (ep : Entrypoint) (c : Condition) (bbTrue bbFalse : BlockId) : Entrypoint :=
  if ep.active = none then ep
  else
    match c with
    | .value truth => ep.addGoto (if truth then bbTrue else bbFalse)
    | .logicalOr left right =>
      let (ep, next) := ep.allocBasicBlock
      ((ep.linearizeCondBranch left bbTrue next).setActiveblock next).linearizeCondBranch right
        bbTrue bbFalse
    | .logicalAnd left right =>
      let (ep, next) := ep.allocBasicBlock
      ((ep.linearizeCondBranch left next bbFalse).setActiveblock next).linearizeCondBranch right
        bbTrue bbFalse
    | .not unop => ep.linearizeCondBranch unop bbFalse bbTrue
    | .compare e => (ep.linearizeExpression e).addBranch e bbTrue bbFalse
    | .other e => (ep.linearizeExpression e).addBranch e bbTrue bbFalse

/-- `linearize_return`. The phi node of the returned value is made with the first value. -/
def linearizeReturn (expr : Option ExprId) (isVoid : Bool) (retTarget : LabelId) : Entrypoint :=
  let (ep, bbReturn) := ep.getBoundBlock retTarget
  let ep := match expr with
    | some e => ep.linearizeExpression e
    | none => ep
  let ep := match ep.active with
    | some active =>
      if expr.isSome && !isVoid then
        let ep := if ep.insns bbReturn = [] then ep.addInstruction bbReturn .phi else ep
        ep.addInstruction active .phisource
      else ep
    | none => ep
  ep.addGoto bbReturn

/-- The loop of `linearize_switch` over the case symbols; the block of the default comes back. -/
def addCases (insn : InsnId) : List SwitchCase → Option BlockId → Entrypoint →
    Entrypoint × Option BlockId
  | [], defaultCase, ep => (ep, defaultCase)
  | c :: cs, defaultCase, ep =>
    let (ep, bbCase) := ep.getBoundBlock c.label
    match c.jump bbCase with
    | none => addCases insn cs (some bbCase) ep
    | some jmp => addCases insn cs defaultCase (ep.addMultijmp insn jmp)

/-- `linearize_switch` up to its body: the blocks of the cases and the end of the switch. -/
def enterSwitch (e : ExprId) (cases : List SwitchCase) (switchBreak : LabelId)
    (switchEnd : BlockId) : Entrypoint × Option BlockId :=
  let ep := ep.linearizeExpression e
  let insn := ep.nextSwitch
  let ep := { ep with
    nextSwitch := insn + 1
    multijmpList := Function.update ep.multijmpList insn [] }
  let ep := (ep.addOneInsn (.switch e insn)).finishBlock
  let (ep, defaultCase) := addCases insn cases none ep
  (ep.bindLabel switchBreak switchEnd, defaultCase)

/-- `linearize_switch` from the end of its body. -/
def leaveSwitch (insn : InsnId) (switchEnd : BlockId) (defaultCase : Option BlockId) : Entrypoint :=
  ((ep.setActiveblock switchEnd).addMultijmp insn
    ⟨defaultCase.getD switchEnd, 1, 0⟩).sortSwitchCases insn

/-- The start of `linearize_iterator` after the first statement: its blocks and the first test.
The blocks are the top of the loop, its body, where `continue` goes and the end. -/
def enterIterator (preCondition postCondition : Option Condition)
    (iteratorContinue iteratorBreak : LabelId) :
    Entrypoint × BlockId × BlockId × BlockId × BlockId :=
  let (ep, loopBody) := ep.allocBasicBlock
  let (ep, loopContinue) := ep.allocBasicBlock
  let (ep, loopEnd) := ep.allocBasicBlock
  let (ep, loopTop) := match postCondition with
    | none => (ep.allocBasicBlock.1.setActiveblock ep.allocBasicBlock.2, ep.allocBasicBlock.2)
    | some _ => (ep, loopBody)
  let ep := match preCondition with
    | some c => ep.linearizeCondBranch c loopBody loopEnd
    | none => ep
  let ep := (ep.bindLabel iteratorContinue loopContinue).bindLabel iteratorBreak loopEnd
  (ep.setActiveblock loopBody, loopTop, loopBody, loopContinue, loopEnd)

/-- The end of `linearize_iterator`. -/
def leaveIterator (postCondition : Option Condition) (loopTop loopEnd : BlockId) : Entrypoint :=
  (match postCondition with
    | none => ep.addGoto loopTop
    | some c => ep.linearizeCondBranch c loopTop loopEnd).setActiveblock loopEnd

mutual

/-- `linearize_statement`. -/
def linearizeStatement (ep : Entrypoint) : Statement → Entrypoint
  | .none => ep
  | .expression e => ep.linearizeExpression e
  | .ret expr isVoid retTarget => ep.linearizeReturn expr isVoid retTarget
  | .case caseLabel s => (ep.addLabel caseLabel).linearizeStatement s
  | .label label used s => if used then (ep.addLabel label).linearizeStatement s else ep
  | .goto gotoLabel =>
    if ep.active = none then ep
    else (ep.getBoundBlock gotoLabel).1.addGoto (ep.getBoundBlock gotoLabel).2
  | .compound ss ret =>
    match ret with
    | none => ep.linearizeStatements ss
    | some label => (ep.linearizeStatements ss).addLabel label
  | .ifThen c s =>
    let (ep, bbTrue) := ep.allocBasicBlock
    let (ep, endif) := ep.allocBasicBlock
    (((ep.linearizeCondBranch c bbTrue endif).setActiveblock bbTrue).linearizeStatement
      s).setActiveblock endif
  | .ifElse c s t =>
    let (ep, bbTrue) := ep.allocBasicBlock
    let (ep, bbFalse) := ep.allocBasicBlock
    let ep := ((ep.linearizeCondBranch c bbTrue bbFalse).setActiveblock bbTrue).linearizeStatement s
    let (ep, endif) := ep.allocBasicBlock
    (((ep.addGoto endif).setActiveblock bbFalse).linearizeStatement t).setActiveblock endif
  | .switch e cases switchBreak body =>
    let (ep, switchEnd) := ep.allocBasicBlock
    let insn := ep.nextSwitch
    if (ep.linearizeExpression e).active = none then ep.linearizeExpression e
    else
      let (ep, defaultCase) := ep.enterSwitch e cases switchBreak switchEnd
      (ep.linearizeStatement body).leaveSwitch insn switchEnd defaultCase
  | .iterator pre preCondition body post postCondition iteratorContinue iteratorBreak =>
    let ep := ep.linearizeStatement pre
    let (ep, loopTop, _, loopContinue, loopEnd) :=
      ep.enterIterator preCondition postCondition iteratorContinue iteratorBreak
    let ep := ((ep.linearizeStatement body).addGoto loopContinue).setActiveblock loopContinue
    (ep.linearizeStatement post).leaveIterator postCondition loopTop loopEnd

/-- The loop of `linearize_compound_statement`. -/
def linearizeStatements (ep : Entrypoint) : Statements → Entrypoint
  | .nil => ep
  | .cons s ss => (ep.linearizeStatement s).linearizeStatements ss

end

/-- `alloc_entrypoint`. -/
def allocEntrypoint : Entrypoint where
  insns _ := []
  multijmpList _ := []
  bbTarget _ := none
  bbs := []
  active := none
  nextBlock := 0
  nextSwitch := 0

/-- `linearize_fn`, up to the first of the passes over the finished graph. -/
def linearizeFn (stmt : Statement) : Entrypoint :=
  let (ep, bb) := allocEntrypoint.allocBasicBlock
  let ep := ((ep.setActiveblock bb).addOneInsn .entry).linearizeStatement stmt
  if ep.active.isSome ∧ ¬ ep.bbTerminated ep.active then ep.addOneInsn .ret else ep

end Entrypoint

end Sparse
