import Sparse.BranchRewrites
import Sparse.ProgramPaths

/-!
# Executions of functions in SSA form

A path through the blocks of a function gives every pseudo a value: a phi takes what the last of its
sources to be executed recorded, a select chooses by its condition, and what loads and calls yield
is left open. In SSA form a register is computed on every path to what reads it.
-/

namespace Sparse

open ProgramPaths

/-- The opcodes whose value is a function of the values of the operands. -/
def Opcode.isPure : Opcode → Bool
  | .notLin | .neg | .symaddr | .setval | .cast | .scast | .ptrcast => true
  | op => op.isBinary

/-- `p` is the pseudo of a phi source. -/
def Pseudo.isPhi : Pseudo → Bool
  | .phi _ => true
  | _ => false

/-- A branch or a switch. -/
def Opcode.chooses : Opcode → Bool
  | .br | .switch => true
  | _ => false

/-- The block that a branch goes to, or a switch, which compares the value with its entries in turn. -/
def Instruction.choice (env : Pseudo → BitVec 64) (insn : Instruction) : Option BlockId :=
  if insn.opcode = .switch then (Ir.selectJump (env insn.target) insn.multijmpList).map Multijmp.target
  else insn.goesTo env

theorem Opcode.eq_of_chooses {op : Opcode} (h : op.chooses = true) : op = .br ∨ op = .switch := by
  cases op <;> simp_all [chooses]

theorem Opcode.isJump_of_chooses {op : Opcode} (h : op.chooses = true) : op.isJump = true := by
  rcases eq_of_chooses h with rfl | rfl <;> rfl

theorem Instruction.choice_of_br {insn : Instruction} {env : Pseudo → BitVec 64} (h : insn.opcode = .br) :
    insn.choice env = insn.goesTo env := by simp [choice, h]

/-- The choice is that of the flow and of the value. -/
theorem Instruction.choice_congr {insn insn' : Instruction} {env env' : Pseudo → BitVec 64}
    (hflow : insn'.flow = insn.flow) (hvalue : env' insn'.target = env insn.target) :
    insn'.choice env' = insn.choice env := by
  simp only [flow, Prod.mk.injEq] at hflow
  obtain ⟨hop, htrue, hfalse, hlist⟩ := hflow
  simp only [choice, goesTo, hop, htrue, hfalse, hlist, hvalue]

/-- The operand of a branch or a switch is its target. -/
theorem Instruction.target_mem_operandSlots {insn : Instruction} (h : insn.opcode.chooses = true) (i : InsnId) :
    .target i ∈ insn.operandSlots i := by
  rcases Opcode.eq_of_chooses h with hop | hop <;> simp [operandSlots, hop]

/-- What an execution does not settle itself: the values that are there at the start, what the pure
opcodes compute, the expressions of `OP_SETVAL`, and what the other instructions yield after what was
executed before. -/
structure Meaning where
  initial : Pseudo → BitVec 64
  pure : Opcode → ℕ → Arithmetic → Option TypeInfo → List (BitVec 64) → BitVec 64
  constant : InsnId → BitVec 64
  effect : InsnId → List InsnId → BitVec 64

namespace Ir

variable (ir : Ir) (M : Meaning)

/-- The live phi sources that a phi chooses from. -/
def phiSources (i : InsnId) : List InsnId :=
  ((ir.insn i).phiList.filterMap (fun c => ir.definition (ir.cell c))).filter (fun d => ir.live d)

/-- What an instruction yields, after what was executed before and with the values then. -/
def result (done : List InsnId) (env : Pseudo → BitVec 64) (i : InsnId) : BitVec 64 :=
  let insn := ir.insn i
  match insn.opcode with
  | .phisource => env insn.src1
  | .phi =>
    match done.find? (fun d => d ∈ ir.phiSources i) with
    | some d => env (ir.insn d).target
    | none => M.effect i done
  | .sel => if env insn.src1 ≠ 0 then env insn.src2 else env insn.src3
  | .setval => M.pure .setval insn.size .integer none [M.constant i]
  | op =>
    if op.isPure then
      M.pure op insn.size (if op.readsArithmetic then insn.arithmetic else .integer)
        (if op.isCast then insn.origType else none) (((insn.operandSlots i).map ir.load).map env)
    else M.effect i done

/-- The instruction computes the value of its target. The parameters are there before the entry. -/
def Computes (i : InsnId) : Prop :=
  ir.live i ∧ ir.definition (ir.insn i).target = some i ∧ (ir.insn i).opcode ≠ .entry

instance (i : InsnId) : Decidable (ir.Computes i) := by unfold Computes; infer_instance

/-- The values of the pseudos after what was executed, the latest first. -/
def env : List InsnId → Pseudo → BitVec 64
  | [] => M.initial
  | i :: done =>
    if ir.Computes i then
      Function.update (env done) (ir.insn i).target (ir.result M done (env done) i)
    else env done

/-- The paths through the blocks, whichever way the branches go. -/
def paths (e : BlockId) : Program BlockId InsnId where
  entry := e
  code b := (ir.block b).insns
  jumps _ b c := c ∈ (ir.block b).children

/-- The paths on which every branch and every switch goes where its value says. -/
def runs (e : BlockId) : Program BlockId InsnId where
  entry := e
  code b := (ir.block b).insns
  jumps done b c := c ∈ (ir.block b).children ∧
    ∀ i, ir.lastInstruction b = some i → (ir.insn i).opcode.chooses = true →
      (ir.insn i).choice (ir.env M done) = some c

/-- A function in SSA form. Each register is the target of its definition, so that no inline assembly
has outputs, instructions stand where they say, the entry has no parents, a register is computed on
every path to the instructions that read it, a phi chooses among phi sources, and the sources that it
has in one block record the same. -/
structure SsaForm (ir : Ir) (e : BlockId) : Prop where
  uses : UseInvariant ir
  flow : FlowInvariant ∅ ir
  results : ∀ nr d, ir.definition (.reg nr) = some d → (ir.insn d).target = .reg nr
  entry : (ir.block e).parents = []
  nodup : ∀ b, (ir.block b).insns.Nodup
  placed : ∀ i b, (ir.insn i).bb = some b → i ∈ (ir.block b).insns
  defined : ∀ i s, ir.Owns i s → ∀ nr d, ir.load s = .reg nr → ir.definition (.reg nr) = some d →
    (ir.paths e).Precedes d i
  source : ∀ d, ir.live d → (ir.insn d).opcode = .phisource →
    (∃ k, (ir.insn d).target = .phi k) ∧ ir.definition (ir.insn d).target = some d ∧
      ∀ k, (ir.insn d).src1 ≠ .phi k
  entries : ∀ i, ir.live i → (ir.insn i).opcode = .phi → ∀ c ∈ (ir.insn i).phiList, ∀ d,
    ir.definition (ir.cell c) = some d → (ir.insn d).opcode = .phisource ∧ (ir.insn d).target = ir.cell c
  agree : ∀ i, ir.live i → (ir.insn i).opcode = .phi → ∀ d ∈ ir.phiSources i, ∀ d' ∈ ir.phiSources i,
    (ir.insn d).bb = (ir.insn d').bb → (ir.insn d).src1 = (ir.insn d').src1

variable {ir M} {e b : BlockId} {rest done k : List InsnId} {i j : InsnId} {p : Pseudo}

theorem paths_free : (ir.paths e).Free := fun _ _ _ _ h => h

/-- An execution is a path. -/
theorem reached_of_runs (h : (ir.runs M e).Reached b rest done) : (ir.paths e).Reached b rest done := by
  induction h with
  | refl => exact .refl
  | exec _ ih => exact ih.exec
  | jump _ hj ih => exact ih.jump hj.1

/-- A pseudo keeps its value while what computes it is not executed. -/
theorem env_append (hk : ∀ j ∈ k, ir.Computes j → (ir.insn j).target ≠ p) :
    ir.env M (k ++ done) p = ir.env M done p := by
  induction k with
  | nil => rfl
  | cons j k ih =>
    have ih := ih (fun j' hj' => hk j' (List.mem_cons_of_mem j hj'))
    rw [List.cons_append, env]
    split
    · rename_i hc
      rw [Function.update_of_ne (hk j List.mem_cons_self hc).symm, ih]
    · exact ih

theorem env_cons_self (hc : ir.Computes i) :
    ir.env M (i :: done) (ir.insn i).target = ir.result M done (ir.env M done) i := by
  rw [env, if_pos hc, Function.update_self]

namespace SsaForm

variable (h : ir.SsaForm e)
include h

theorem placed_paths : (ir.paths e).Placed := ⟨h.nodup, fun b c i => h.flow.owner b c i⟩

/-- A live instruction names the block that it stands in. -/
theorem bb_of_mem (hi : i ∈ (ir.block b).insns) (hlive : ir.live i) : (ir.insn i).bb = some b := by
  obtain ⟨b', hb'⟩ := Option.ne_none_iff_exists'.mp hlive
  rw [hb', h.flow.owner b' b i (h.placed i b' hb') hi]

/-- What computes a pseudo that is no register is a phi source, and the pseudo its own. -/
theorem phi_of_computes (hc : ir.Computes i) (hreg : (ir.insn i).target.isReg = false) :
    ∃ k, (ir.insn i).target = .phi k := by
  rcases h.uses.other _ i hc.2.1 hreg with ho | ho
  · exact (h.source i hc.1 ho).1
  · exact absurd ho hc.2.2

/-- A jump computes nothing. -/
theorem not_computes_of_chooses (hop : (ir.insn i).opcode.chooses = true) : ¬ ir.Computes i := fun hc =>
  undefined_of_isJump h.uses (Opcode.isJump_of_chooses hop) _ hc.2.1

theorem mem_children_iff {c : BlockId} : c ∈ (ir.block b).children ↔ b ∈ (ir.block c).parents :=
  h.flow.mem_parents_iff.symm

/-- Nothing jumps to the entry. -/
theorem not_jump_entry {c : BlockId} : ¬ e ∈ (ir.block c).children := by
  rw [h.mem_children_iff, h.entry]
  exact List.not_mem_nil

/-- A path enters a block with parents from one of them. -/
theorem entered_parent (hp : (ir.block b).parents ≠ []) (hb : (ir.runs M e).Entered b done) :
    ∃ c, (ir.runs M e).Reached c [] done ∧ (ir.runs M e).jumps done c b ∧
      c ∈ (ir.block b).parents := by
  rcases hb with ⟨rfl, -⟩ | ⟨c, hc, hj⟩
  · exact absurd h.entry hp
  · exact ⟨c, hc, hj, h.mem_children_iff.mp hj.1⟩

end SsaForm

/-! ## Functions with finitely many names -/

/-- The clauses of SSA form about a phi source. -/
def SourceCheck (ir : Ir) (d : InsnId) : Prop :=
  ir.live d → (ir.insn d).opcode = .phisource → (ir.insn d).target.isPhi = true ∧
    ir.definition (ir.insn d).target = some d ∧ (ir.insn d).src1.isPhi = false

instance (ir : Ir) (d : InsnId) : Decidable (ir.SourceCheck d) := by
  unfold SourceCheck
  infer_instance

/-- The clauses of SSA form about a phi. -/
def PhiCheck (ir : Ir) (i : InsnId) : Prop :=
  ir.live i → (ir.insn i).opcode = .phi →
    (∀ c ∈ (ir.insn i).phiList, ∀ d ∈ (ir.definition (ir.cell c)).toList,
      (ir.insn d).opcode = .phisource ∧ (ir.insn d).target = ir.cell c) ∧
    ∀ d ∈ ir.phiSources i, ∀ d' ∈ ir.phiSources i,
      (ir.insn d).bb = (ir.insn d').bb → (ir.insn d).src1 = (ir.insn d').src1

instance (ir : Ir) (i : InsnId) : Decidable (ir.PhiCheck i) := by
  unfold PhiCheck
  infer_instance

/-- The clauses of SSA form that name no path, for a heap whose names are all allocated. -/
def SsaCheck (ir : Ir) (e : BlockId) : Prop :=
  (ir.block e).parents = [] ∧ (∀ b < ir.nextBlock, (ir.block b).insns.Nodup) ∧
    ∀ i < ir.nextInsn, (ir.insn i).opcode ≠ .asm ∧ (∀ b ∈ (ir.insn i).bb.toList, i ∈ (ir.block b).insns) ∧
      ir.SourceCheck i ∧ ir.PhiCheck i

instance (ir : Ir) (e : BlockId) : Decidable (ir.SsaCheck e) := by
  unfold SsaCheck
  infer_instance

theorem SsaForm.of_check {ir : Ir} {e : BlockId} (huse : UseInvariant ir) (hflow : FlowInvariant ∅ ir)
    (hempty : ∀ b, ir.nextBlock ≤ b → ir.block b = {})
    (hdefined : ∀ i s, ir.Owns i s → ∀ nr d, ir.load s = .reg nr → ir.definition (.reg nr) = some d →
      (ir.paths e).Precedes d i) (hcheck : ir.SsaCheck e) : ir.SsaForm e := by
  obtain ⟨hentry, hnodup, hinsns⟩ := hcheck
  have hlt : ∀ {i}, ir.live i → i < ir.nextInsn := fun {i} hi => huse.liveAllocated i hi
  refine ⟨huse, hflow, fun nr d hd => ?_, hentry, fun b => ?_, fun i b hb => ?_, hdefined,
    fun d hd hop => ?_, fun i hi hop c hc d hd => ?_,
    fun i hi hop => ((hinsns i (hlt hi)).2.2.2 hi hop).2⟩
  · exact huse.target_of_definition hd (hinsns d (huse.definitionAllocated _ d hd)).1
  · rcases Nat.lt_or_ge b ir.nextBlock with hb | hb
    · exact hnodup b hb
    · rw [hempty b hb]
      exact List.nodup_nil
  · have hi : ir.live i := by rw [live, hb]; exact Option.some_ne_none b
    exact (hinsns i (hlt hi)).2.1 b (by rw [hb]; exact List.mem_singleton_self b)
  · obtain ⟨htarget, hdef, hsrc⟩ := (hinsns d (hlt hd)).2.2.1 hd hop
    refine ⟨?_, hdef, fun k hk => ?_⟩
    · cases ht : (ir.insn d).target with
      | phi k => exact ⟨k, rfl⟩
      | null | void | sym _ | val _ | arg _ | reg _ =>
        rw [ht] at htarget
        cases htarget
    · rw [hk] at hsrc
      cases hsrc
  · exact ((hinsns i (hlt hi)).2.2.2 hi hop).1 c hc d (by rw [hd]; exact List.mem_singleton_self d)

end Ir

end Sparse
