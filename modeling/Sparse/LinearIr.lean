import Mathlib.Logic.Function.Basic
import Mathlib.Data.List.Count

/-!
# The linearized intermediate representation

Instructions, basic blocks, pseudos and list cells live in one heap and name
each other by number, as the pointers of the source do. The slots of the union
in `struct instruction` that share an address under several names (`src`,
`src1`, `phi_src`, `base`, `symbol`, `func`) are one field here, and so are
`target` and `cond`.
-/

namespace Sparse

/-- The name of a `struct basic_block`. -/
abbrev BlockId := ℕ

/-- The name of a `struct instruction`. -/
abbrev InsnId := ℕ

/-- The name of a `struct symbol`. -/
abbrev SymbolId := ℕ

/-- The name of one entry of a `pseudo_list`. -/
abbrev CellId := ℕ

/-- A `pseudo_t`. The constructor is the source's `enum pseudo_type`, and `null`
is the null pointer. Value pseudos are hash-consed by `value_pseudo`, symbol
pseudos are unique for a symbol, so equality of pointers is equality here. -/
inductive Pseudo
  | null
  | void
  | reg (nr : ℕ)
  | sym (symbol : SymbolId)
  | val (value : BitVec 64)
  | arg (nr : ℕ)
  | phi (nr : ℕ)
  deriving DecidableEq, Repr

/-- `enum lin_opcode`. -/
inductive Opcode
  | badop | entry
  | ret | br | switch | invoke | computedgoto | unwind
  | addLin | sub | mulu | muls | divu | divs | modu | mods | shl | lsr | asr
  | andLin | orLin | xorLin | andBool | orBool
  | setEq | setNe | setLe | setGe | setLt | setGt | setB | setA | setBe | setAe
  | notLin | neg | sel
  | malloc | free | alloca | load | store | setval | symaddr | getElementPtr
  | phi | phisource | cast | scast | fpcast | ptrcast | inlinedCall | call
  | vanext | vaarg | slice | snop | lnop | nop | deathnote | asm
  | context | rangeLin | copy
  deriving DecidableEq, Repr

namespace Opcode

/-- `OP_BINARY ... OP_BINARY_END` and `OP_BINCMP ... OP_BINCMP_END`. -/
def isBinary : Opcode → Bool
  | addLin | sub | mulu | muls | divu | divs | modu | mods | shl | lsr | asr
  | andLin | orLin | xorLin | andBool | orBool
  | setEq | setNe | setLe | setGe | setLt | setGt | setB | setA | setBe | setAe => true
  | _ => false

/-- `OP_CAST`, `OP_SCAST`, `OP_FPCAST` and `OP_PTRCAST`. -/
def isCast : Opcode → Bool
  | cast | scast | fpcast | ptrcast => true
  | _ => false

/-- The opcodes whose value depends on whether they are evaluated for integers, truth values or
floating numbers. -/
def readsArithmetic : Opcode → Bool
  | addLin | sub | mulu | muls | divu | divs | neg
  | setEq | setNe | setLe | setGe | setLt | setGt | setB | setA | setBe | setAe => true
  | op => op.isCast

/-- The terminators that name successor blocks. -/
def isJump : Opcode → Bool
  | br | switch | computedgoto => true
  | _ => false

end Opcode

/-- `struct multijmp`; an entry with `begin > stop` is the default. -/
structure Multijmp where
  target : BlockId
  begin : BitVec 32
  stop : BitVec 32
  deriving DecidableEq, Repr

/-- What the optimiser reads of a `struct symbol` that stands for a type. -/
structure TypeInfo where
  bitSize : ℕ
  isSigned : Bool
  isPtr : Bool
  deriving DecidableEq, Repr

/-- What a value depends on of a type apart from its size. A cast to `_Bool` has a value of its own. -/
inductive Arithmetic
  | integer | bool | floating
  deriving DecidableEq, Repr

/-- `struct instruction`. The default of each field is what zeroed memory holds. `arithmetic` stands for
`type`; for a comparison it is the type of the operands, which the source keeps nowhere. -/
structure Instruction where
  opcode : Opcode
  size : ℕ := 0
  bb : Option BlockId := none
  target : Pseudo := .null
  src1 : Pseudo := .null
  src2 : Pseudo := .null
  src3 : Pseudo := .null
  bbTrue : Option BlockId := none
  bbFalse : Option BlockId := none
  multijmpList : List Multijmp := []
  phiList : List CellId := []
  arguments : List CellId := []
  inputs : List CellId := []
  outputs : List CellId := []
  offset : BitVec 32 := 0
  origType : Option TypeInfo := none
  arithmetic : Arithmetic := .integer
  deriving DecidableEq, Repr

/-- `struct basic_block`. `killed` is not in the source: it records that `kill_bb`
has run on the block, of which the source keeps no mark. -/
structure BasicBlock where
  parents : List BlockId := []
  children : List BlockId := []
  insns : List InsnId := []
  needs : List Pseudo := []
  defines : List Pseudo := []
  generation : ℕ := 0
  killed : Bool := false
  deriving DecidableEq, Repr

/-- The address of an operand slot, a `pseudo_t *`. -/
inductive Address
  | target (insn : InsnId)
  | src1 (insn : InsnId)
  | src2 (insn : InsnId)
  | src3 (insn : InsnId)
  | cell (cell : CellId)
  deriving DecidableEq, Repr

/-- `struct pseudo_user`. -/
structure PseudoUser where
  insn : InsnId
  userp : Address
  deriving DecidableEq, Repr

/-- The heap of one entrypoint. Names from `nextInsn`, `nextBlock`, `nextCell`,
`nextReg` and `nextPhi` on are not allocated yet. -/
structure Ir where
  insn : InsnId → Instruction
  block : BlockId → BasicBlock
  cell : CellId → Pseudo
  definition : Pseudo → Option InsnId
  users : Pseudo → List PseudoUser
  bbs : List BlockId
  entry : InsnId
  nextInsn : ℕ
  nextBlock : ℕ
  nextCell : ℕ
  nextReg : ℕ
  nextPhi : ℕ
  bbGeneration : ℕ

namespace Ir

variable (ir : Ir)

/-- Rewrite one instruction in place. -/
def setInsn (i : InsnId) (f : Instruction → Instruction) : Ir :=
  { ir with insn := Function.update ir.insn i (f (ir.insn i)) }

/-- Rewrite one basic block in place. -/
def setBlock (b : BlockId) (f : BasicBlock → BasicBlock) : Ir :=
  { ir with block := Function.update ir.block b (f (ir.block b)) }

/-- `*pp`. -/
def load : Address → Pseudo
  | .target i => (ir.insn i).target
  | .src1 i => (ir.insn i).src1
  | .src2 i => (ir.insn i).src2
  | .src3 i => (ir.insn i).src3
  | .cell c => ir.cell c

/-- `*pp = p`. -/
def assign (p : Pseudo) : Address → Ir
  | .target i => ir.setInsn i ({ · with target := p })
  | .src1 i => ir.setInsn i ({ · with src1 := p })
  | .src2 i => ir.setInsn i ({ · with src2 := p })
  | .src3 i => ir.setInsn i ({ · with src3 := p })
  | .cell c => { ir with cell := Function.update ir.cell c p }

def setUsers (p : Pseudo) (us : List PseudoUser) : Ir :=
  { ir with users := Function.update ir.users p us }

/-- Is the instruction still in a block? -/
def live (i : InsnId) : Prop := (ir.insn i).bb ≠ none

instance (i : InsnId) : Decidable (ir.live i) := by unfold live; infer_instance

/-- `last_instruction(bb->insns)`. -/
def lastInstruction (b : BlockId) : Option InsnId := (ir.block b).insns.getLast?

section Projections

variable (i j : InsnId) (b c : BlockId) (f : Instruction → Instruction)
  (g : BasicBlock → BasicBlock) (a : Address) (p q : Pseudo) (us : List PseudoUser)

@[simp] theorem setInsn_insn : (ir.setInsn i f).insn = Function.update ir.insn i (f (ir.insn i)) := rfl
@[simp] theorem setInsn_block : (ir.setInsn i f).block = ir.block := rfl
@[simp] theorem setInsn_cell : (ir.setInsn i f).cell = ir.cell := rfl
@[simp] theorem setInsn_definition : (ir.setInsn i f).definition = ir.definition := rfl
@[simp] theorem setInsn_users : (ir.setInsn i f).users = ir.users := rfl
@[simp] theorem setInsn_bbs : (ir.setInsn i f).bbs = ir.bbs := rfl
@[simp] theorem setInsn_entry : (ir.setInsn i f).entry = ir.entry := rfl
@[simp] theorem setInsn_nextInsn : (ir.setInsn i f).nextInsn = ir.nextInsn := rfl
@[simp] theorem setInsn_nextBlock : (ir.setInsn i f).nextBlock = ir.nextBlock := rfl
@[simp] theorem setInsn_nextCell : (ir.setInsn i f).nextCell = ir.nextCell := rfl
@[simp] theorem setInsn_bbGeneration : (ir.setInsn i f).bbGeneration = ir.bbGeneration := rfl

@[simp] theorem setBlock_insn : (ir.setBlock b g).insn = ir.insn := rfl
@[simp] theorem setBlock_block :
    (ir.setBlock b g).block = Function.update ir.block b (g (ir.block b)) := rfl
@[simp] theorem setBlock_cell : (ir.setBlock b g).cell = ir.cell := rfl
@[simp] theorem setBlock_definition : (ir.setBlock b g).definition = ir.definition := rfl
@[simp] theorem setBlock_users : (ir.setBlock b g).users = ir.users := rfl
@[simp] theorem setBlock_bbs : (ir.setBlock b g).bbs = ir.bbs := rfl
@[simp] theorem setBlock_entry : (ir.setBlock b g).entry = ir.entry := rfl
@[simp] theorem setBlock_nextInsn : (ir.setBlock b g).nextInsn = ir.nextInsn := rfl
@[simp] theorem setBlock_nextBlock : (ir.setBlock b g).nextBlock = ir.nextBlock := rfl
@[simp] theorem setBlock_nextCell : (ir.setBlock b g).nextCell = ir.nextCell := rfl
@[simp] theorem setBlock_bbGeneration : (ir.setBlock b g).bbGeneration = ir.bbGeneration := rfl

@[simp] theorem setUsers_insn : (ir.setUsers p us).insn = ir.insn := rfl
@[simp] theorem setUsers_block : (ir.setUsers p us).block = ir.block := rfl
@[simp] theorem setUsers_cell : (ir.setUsers p us).cell = ir.cell := rfl
@[simp] theorem setUsers_definition : (ir.setUsers p us).definition = ir.definition := rfl
@[simp] theorem setUsers_users : (ir.setUsers p us).users = Function.update ir.users p us := rfl
@[simp] theorem setUsers_bbs : (ir.setUsers p us).bbs = ir.bbs := rfl
@[simp] theorem setUsers_entry : (ir.setUsers p us).entry = ir.entry := rfl
@[simp] theorem setUsers_nextInsn : (ir.setUsers p us).nextInsn = ir.nextInsn := rfl
@[simp] theorem setUsers_nextBlock : (ir.setUsers p us).nextBlock = ir.nextBlock := rfl
@[simp] theorem setUsers_nextCell : (ir.setUsers p us).nextCell = ir.nextCell := rfl
@[simp] theorem setUsers_bbGeneration : (ir.setUsers p us).bbGeneration = ir.bbGeneration := rfl
@[simp] theorem setUsers_load : (ir.setUsers p us).load a = ir.load a := by cases a <;> rfl

@[simp] theorem assign_block : (ir.assign p a).block = ir.block := by cases a <;> rfl
@[simp] theorem assign_definition : (ir.assign p a).definition = ir.definition := by cases a <;> rfl
@[simp] theorem assign_users : (ir.assign p a).users = ir.users := by cases a <;> rfl
@[simp] theorem assign_bbs : (ir.assign p a).bbs = ir.bbs := by cases a <;> rfl
@[simp] theorem assign_entry : (ir.assign p a).entry = ir.entry := by cases a <;> rfl
@[simp] theorem assign_nextInsn : (ir.assign p a).nextInsn = ir.nextInsn := by cases a <;> rfl
@[simp] theorem assign_nextBlock : (ir.assign p a).nextBlock = ir.nextBlock := by cases a <;> rfl
@[simp] theorem assign_nextCell : (ir.assign p a).nextCell = ir.nextCell := by cases a <;> rfl
@[simp] theorem assign_bbGeneration : (ir.assign p a).bbGeneration = ir.bbGeneration := by
  cases a <;> rfl

/-- A slot holds what was last assigned to it, and no other slot changes. -/
theorem assign_load (a' : Address) :
    (ir.assign p a).load a' = if a' = a then p else ir.load a' := by
  cases a <;> cases a' <;>
    simp [assign, load, setInsn, Function.update_apply, Address.cell.injEq] <;> split <;> simp_all

end Projections

end Ir

end Sparse
