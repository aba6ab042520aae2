import Sparse.UseListPhis
import Mathlib.Logic.Relation

/-!
# Runs of operand rewrites

The rewrites of the optimiser that move operands are the steps of a relation. Each step
asks for what its callers establish, and every run keeps the use lists exact. Symbols are
apart: a load of a symbol that becomes a phi leaves its entry behind.
-/

namespace Sparse

/-- One rewrite of operands. -/
inductive OperandRewrite (ir : Ir) : Ir → Prop
  | usePseudo {i : InsnId} {s : Address} {p : Pseudo} (ho : ir.Owns i s)
      (hold : hasUseList (ir.load s) = false) (hp : ir.Available p) :
      OperandRewrite ir (ir.usePseudo i p s)
  | killUse {i : InsnId} {s : Address} (hs : s ∈ (ir.insn i).operandSlots i) :
      OperandRewrite ir (ir.killUse (some s))
  | removeUsage {i : InsnId} {s : Address} {p : Pseudo} (ho : ir.Owns i s) (hp : ir.Available p) :
      OperandRewrite ir ((ir.usePseudo i p s).removeUsage (ir.load s) s)
  | killInstruction {i : InsnId} (hk : UseInvariant.Killable ir i) :
      OperandRewrite ir (ir.killInstruction i)
  | deadInsn {i : InsnId} {a b c : Option Address} (hasm : (ir.insn i).opcode ≠ .asm)
      (ha : ∀ j, a ≠ some (.target j)) (hb : ∀ j, b ≠ some (.target j))
      (hc : ∀ j, c ≠ some (.target j)) :
      OperandRewrite ir (ir.deadInsn i a b c).1
  | switchPseudo {i j : InsnId} {s t : Address} (hi : ir.Owns i s) (hj : ir.Owns j t) (hne : s ≠ t) :
      OperandRewrite ir (ir.switchPseudo i s j t)
  | simplifyAssociativeBinop {i : InsnId} (hi : ir.live i)
      (hop : (ir.insn i).opcode.isBinary = true) :
      OperandRewrite ir (ir.simplifyAssociativeBinop i)
  | replaceWithPseudo {i : InsnId} {p : Pseudo} (hi : ir.live i)
      (hop : (ir.insn i).opcode.hasResult = true) (hself : p ≠ (ir.insn i).target)
      (hp : ir.Available p) : OperandRewrite ir (ir.replaceWithPseudo i p)
  | convertInstructionTarget {i : InsnId} {p : Pseudo} (hi : ir.live i)
      (hop : (ir.insn i).opcode.hasResult = true) (hp : ir.Available p) :
      OperandRewrite ir (ir.convertInstructionTarget i p)
  | convertLoadInstruction {i : InsnId} {p : Pseudo} (hi : ir.live i)
      (hop : (ir.insn i).opcode = .load) (hself : p ≠ (ir.insn i).target) (hp : ir.Available p) :
      OperandRewrite ir (ir.convertLoadInstruction i p)
  | addDominator {i one : InsnId} {parent : BlockId} (hone : ir.live one)
      (hop : (ir.insn one).opcode = .load ∨ (ir.insn one).opcode = .store) :
      OperandRewrite ir (ir.addDominator i parent (ir.insn one).target (ir.insn one).size).1
  | rewriteLoadInstruction {i : InsnId} {cs : List CellId} (hi : ir.live i)
      (hop : (ir.insn i).opcode = .load) (hcs : ∀ c ∈ cs, ir.Pending i c)
      (hself : ∃ c ∈ cs, ir.phiSrc c ≠ some (ir.insn i).target) :
      OperandRewrite ir (ir.rewriteLoadInstruction i cs)
  | simplifyOneMemop {i : InsnId} {orig : Pseudo} (hi : ir.live i)
      (hop : (ir.insn i).opcode = .load ∨ (ir.insn i).opcode = .store) :
      OperandRewrite ir (ir.simplifyOneMemop i orig).1
  | simplifySelect {i : InsnId} (hi : ir.live i) (hop : (ir.insn i).opcode = .sel)
      (hself : sparseConstant (ir.insn i).src1 ∨ (ir.insn i).src2 = (ir.insn i).src3 →
        (if Ir.valueField (ir.insn i).src1 then (ir.insn i).src2 else (ir.insn i).src3) ≠
          (ir.insn i).target) :
      OperandRewrite ir (ir.simplifySelect i)
  | simplifyCondBranch {i d : InsnId} {pp : Address} (hi : ir.live i)
      (hop : (ir.insn i).opcode = .br) (hpp : ir.Owns d pp) :
      OperandRewrite ir (ir.simplifyCondBranch i (ir.insn i).target d pp)
  | ifConvertPhi {i : InsnId} (hi : ir.live i) (hop : (ir.insn i).opcode = .phi)
      (hphis : ∀ c ∈ (ir.insn i).phiList, ∀ d, ir.definition (ir.cell c) = some d →
        (ir.insn d).opcode = .phisource)
      (hlast : ∀ b br, ir.lastInstruction b = some br → (ir.insn br).opcode = .br → ir.live br) :
      OperandRewrite ir (ir.ifConvertPhi i)
  | cseOneInstruction {i d : InsnId} (hi : ir.live i) (hd : ir.live d) (hne : i ≠ d)
      (hopi : (ir.insn i).opcode.hasResult = true) (hopd : (ir.insn d).opcode.hasResult = true) :
      OperandRewrite ir (ir.cseOneInstruction i d)

/-- What a live load or store reads or writes is available. -/
theorem UseInvariant.available_target {ir : Ir} (h : UseInvariant ir) {i : InsnId} (hi : ir.live i)
    (hop : (ir.insn i).opcode = .load ∨ (ir.insn i).opcode = .store) :
    ir.Available (ir.insn i).target := by
  rcases hop with hop | hop
  · obtain ⟨nr, ht, hd⟩ := h.defines i hi (by rw [hop]; rfl)
    intro m d hm hdm
    rw [← hm, ht, hd] at hdm
    exact Option.some.inj hdm ▸ hi
  · exact h.available_of_owns (s := .target i) ⟨hi, by simp [Instruction.operandSlots, hop]⟩

theorem UseInvariant.step {ir ir' : Ir} (h : UseInvariant ir) (hstep : OperandRewrite ir ir') :
    UseInvariant ir' := by
  cases hstep with
  | usePseudo ho hold hp => exact h.usePseudo ho hold hp
  | @killUse i s hs =>
    refine h.killUse (fun j hj => ?_)
    obtain rfl := Option.some.inj hj
    rcases Instruction.mem_operandSlots hs with he | he | he | ⟨he, hst⟩ | ⟨c, he⟩ <;> cases he
    exact hst
  | removeUsage ho hp => exact h.replaceUse ho hp
  | killInstruction hk => exact h.killInstruction hk
  | deadInsn hasm ha hb hc => exact h.deadInsn hasm ha hb hc
  | switchPseudo hi hj hne => exact h.switchPseudo hi hj hne
  | simplifyAssociativeBinop hi hop => exact h.simplifyAssociativeBinop hi hop
  | replaceWithPseudo hi hop hself hp =>
    obtain ⟨nr, ht, hd⟩ := h.defines _ hi hop
    exact h.replaceWithPseudo hd (Opcode.ne_asm_of_hasResult hop) (ht ▸ hself) (fun _ => hp)
  | @convertInstructionTarget i p hi hop hp =>
    obtain ⟨nr, ht, hd⟩ := h.defines _ hi hop
    by_cases hself : p = .reg nr
    · have he : ir.convertInstructionTarget i p = ir := by
        simp [Ir.convertInstructionTarget, ht, hself]
      rw [he]
      exact h
    · exact (h.convertInstructionTarget hd (Opcode.ne_asm_of_hasResult hop) hself (fun _ => hp)).1
  | @convertLoadInstruction i p hi hop hself hp =>
    have hres : (ir.insn i).opcode.hasResult = true := by rw [hop]; rfl
    obtain ⟨nr, ht, hd⟩ := h.defines _ hi hres
    exact h.convertLoadInstruction hd hres (ht ▸ hself) hp
  | addDominator hone hop => exact (h.addDominator (h.available_target hone hop) _ _).1
  | rewriteLoadInstruction hi hop hcs hself => exact h.rewriteLoadInstruction hi hop hcs hself
  | simplifyOneMemop hi hop => exact h.simplifyOneMemop hi hop _
  | simplifySelect hi hop hself => exact h.simplifySelect hi hop hself
  | simplifyCondBranch hi hop hpp =>
    exact h.simplifyCondBranch ⟨hi, by simp [Instruction.operandSlots, hop]⟩ hpp
  | ifConvertPhi hi hop hphis hlast => exact h.ifConvertPhi hi hop hphis hlast
  | cseOneInstruction hi hd hne hopi hopd => exact h.cseOneInstruction hi hd hne hopi hopd

theorem UseInvariant.run {ir ir' : Ir} (h : UseInvariant ir)
    (hrun : Relation.ReflTransGen OperandRewrite ir ir') : UseInvariant ir' := by
  induction hrun with
  | refl => exact h
  | tail _ hstep ih => exact ih.step hstep

/-- After any run of the rewrites each operand of a live instruction is registered once with the
pseudo it holds, the entries of every pseudo but a symbol name slots that hold it or are empty,
and no operand is a register whose definition was killed. -/
theorem operandRewrites_keep_use_lists {ir ir' : Ir} (h : UseInvariant ir)
    (hrun : Relation.ReflTransGen OperandRewrite ir ir') :
    (∀ i s, ir'.Owns i s → hasUseList (ir'.load s) = true →
      ir'.entries (ir'.load s) s = [⟨i, s⟩]) ∧
    (∀ p, hasUseList p = true → p.isSym = false → ∀ pu ∈ ir'.users p,
      ir'.load pu.userp = p ∨ ir'.load pu.userp = .void) ∧
    (∀ i s, ir'.Owns i s → ∀ nr d, ir'.load s = .reg nr → ir'.definition (.reg nr) = some d →
      ir'.live d) := by
  have h' := h.run hrun
  refine ⟨fun i s ho hp => ?_, h'.back, h'.defined⟩
  rw [h'.exact i s ho _ hp, if_pos rfl]

/-! ## Heaps with finitely many names -/

instance (ir : Ir) (s : Address) : Decidable (ir.Allocated s) := by
  cases s <;> unfold Ir.Allocated <;> infer_instance

/-- The clauses of the invariant about a slot, for the names of a heap of which `ps` are the pseudos. -/
def Ir.SlotCheck (ir : Ir) (ps : List Pseudo) (i : InsnId) (s : Address) : Prop :=
  (hasUseList (ir.load s) = true → ir.load s ∈ ps) ∧ ir.Allocated s ∧
    (∀ d ∈ (ir.definition (ir.load s)).toList, ir.live d) ∧
    (∀ j < ir.nextInsn, ir.live j → s ∈ (ir.insn j).operandSlots j → i = j) ∧
    ∀ p ∈ ps, hasUseList p = true → ir.entries p s = if ir.load s = p then [⟨i, s⟩] else []

instance (ir : Ir) (ps : List Pseudo) (i : InsnId) (s : Address) : Decidable (ir.SlotCheck ps i s) := by
  unfold Ir.SlotCheck
  infer_instance

/-- The clauses about a pseudo. -/
def Ir.PseudoCheck (ir : Ir) (p : Pseudo) : Prop :=
  (hasUseList p = true → ∀ pu ∈ ir.users p,
    (p.isSym = false → ir.load pu.userp = p ∨ ir.load pu.userp = .void) ∧ ir.Allocated pu.userp ∧
      ∀ j < ir.nextInsn, pu.userp = .target j → (ir.insn j).opcode.storesTarget = true) ∧
  ∀ d ∈ (ir.definition p).toList, d < ir.nextInsn ∧
    (p.isReg = true → ((ir.insn d).target = p ∨ (ir.insn d).opcode = .asm) ∧
      (ir.insn d).opcode.storesTarget = false) ∧
    (p.isReg = false → (ir.insn d).opcode = .phisource ∨ (ir.insn d).opcode = .entry)

instance (ir : Ir) (p : Pseudo) : Decidable (ir.PseudoCheck p) := by
  unfold Ir.PseudoCheck
  infer_instance

/-- The clauses about all names. -/
def Ir.UseCheck (ir : Ir) (ps : List Pseudo) : Prop :=
  (∀ i < ir.nextInsn, ir.live i → (∀ s ∈ (ir.insn i).operandSlots i, ir.SlotCheck ps i s) ∧
    ((ir.insn i).opcode.hasResult = true →
      (ir.insn i).target.isReg = true ∧ ir.definition (ir.insn i).target = some i)) ∧
  ∀ p ∈ ps, ir.PseudoCheck p

instance (ir : Ir) (ps : List Pseudo) : Decidable (ir.UseCheck ps) := by
  unfold Ir.UseCheck
  infer_instance

/-- A heap whose other names are unused keeps the invariant if its names do. -/
theorem UseInvariant.of_check {ir : Ir} (ps : List Pseudo) (hlive : ∀ i, ir.nextInsn ≤ i → ¬ ir.live i)
    (hps : ∀ p, p ∉ ps → ir.users p = [] ∧ ir.definition p = none) (hcheck : ir.UseCheck ps) : UseInvariant ir := by
  obtain ⟨hslots, hpseudos⟩ := hcheck
  have hlt : ∀ {i}, ir.live i → i < ir.nextInsn := fun {i} hi => by
    by_contra h
    exact hlive i (Nat.le_of_not_lt h) hi
  have hslot : ∀ {i s}, ir.Owns i s → _ := fun {i s} ho => (hslots i (hlt ho.1) ho.1).1 s ho.2
  have hmem : ∀ {p d}, ir.definition p = some d → p ∈ ps := fun {p d} hd => by
    by_contra h
    rw [(hps p h).2] at hd
    cases hd
  have hdef : ∀ {p d}, ir.definition p = some d → _ := fun {p d} hd => (hpseudos p (hmem hd)).2 d (by rw [hd]; simp)
  have huser : ∀ {p pu}, pu ∈ ir.users p → p ∈ ps := fun {p pu} hpu => by
    by_contra h
    rw [(hps p h).1] at hpu
    exact List.not_mem_nil hpu
  refine ⟨fun i s ho p hp => ?_, fun p hp hsym pu hpu => ((hpseudos p (huser hpu)).1 hp pu hpu).1 hsym,
    fun i s ho nr d hl hd => (hslot ho).2.2.1 d (by rw [hl, hd]; simp), fun nr d hd => ?_, fun p d hd hreg => ?_,
    fun i hi hop => ?_, fun i j s hi hj => (hslot hi).2.2.2.1 j (hlt hj.1) hj.1 hj.2,
    fun p hp pu hpu j hj => ?_, fun i hi => hlt hi, fun i c ho => (hslot ho).2.1,
    fun p hp pu hpu => ((hpseudos p (huser hpu)).1 hp pu hpu).2.1, fun p d hd => (hdef hd).1⟩
  · by_cases hin : p ∈ ps
    · exact (hslot ho).2.2.2.2 p hin hp
    · have hne : ir.load s ≠ p := by
        rintro rfl
        exact hin ((hslot ho).1 hp)
      rw [Ir.entries, (hps p hin).1, if_neg hne]
      rfl
  · exact (hdef hd).2.1 rfl
  · exact (hdef hd).2.2 hreg
  · obtain ⟨hreg, hd⟩ := (hslots i (hlt hi) hi).2 hop
    cases ht : (ir.insn i).target with
    | reg nr => exact ⟨nr, rfl, ht ▸ hd⟩
    | null | void | sym _ | val _ | arg _ | phi _ =>
      rw [ht] at hreg
      cases hreg
  · have halloc := ((hpseudos p (huser hpu)).1 hp pu hpu).2
    rw [hj] at halloc
    exact halloc.2 j halloc.1 rfl

/-- Two stores of different constants in two parents, and a load of the symbol in their child:
the heap when `find_dominating_parents` has collected both. -/
def twoDominators : Ir where
  insn
    | 0 => { opcode := .phisource, bb := some 0, src1 := .val 1, target := .phi 0 }
    | 1 => { opcode := .phisource, bb := some 1, src1 := .val 2, target := .phi 1 }
    | 2 => { opcode := .load, bb := some 2, src1 := .sym 0, target := .reg 0 }
    | _ => { opcode := .badop }
  block _ := {}
  cell
    | 0 => .phi 0
    | 1 => .phi 1
    | _ => .null
  definition
    | .phi 0 => some 0
    | .phi 1 => some 1
    | .reg 0 => some 2
    | _ => none
  users
    | .phi 0 => [⟨2, .cell 0⟩]
    | .phi 1 => [⟨2, .cell 1⟩]
    | .sym 0 => [⟨2, .src1 2⟩]
    | _ => []
  bbs := [0, 1, 2]
  entry := 3
  nextInsn := 4
  nextBlock := 3
  nextCell := 2
  nextReg := 1
  nextPhi := 2
  bbGeneration := 0

private theorem twoDominators_owns {i : InsnId} {s : Address} (h : twoDominators.Owns i s) :
    (i = 0 ∧ s = .src1 0) ∨ (i = 1 ∧ s = .src1 1) ∨ (i = 2 ∧ s = .src1 2) := by
  obtain ⟨hl, hs⟩ := h
  match i with
  | 0 | 1 | 2 => simpa [twoDominators, Instruction.operandSlots] using hs
  | n + 3 => exact absurd rfl hl

private theorem twoDominators_users {p : Pseudo} {pu : PseudoUser} (h : pu ∈ twoDominators.users p) :
    (p = .phi 0 ∧ pu = ⟨2, .cell 0⟩) ∨ (p = .phi 1 ∧ pu = ⟨2, .cell 1⟩) ∨
      (p = .sym 0 ∧ pu = ⟨2, .src1 2⟩) := by
  revert h
  simp only [twoDominators]
  split <;> simp

private theorem twoDominators_entries {p : Pseudo} (hp : hasUseList p = true) {i : InsnId}
    {s : Address} (h : (i, s) ∈ [(0, Address.src1 0), (1, .src1 1), (2, .src1 2), (2, .cell 0),
      (2, .cell 1)]) :
    twoDominators.entries p s = if twoDominators.load s = p then [⟨i, s⟩] else [] := by
  have hval : ∀ v, Pseudo.val v ≠ p := by
    rintro v rfl
    cases hp
  simp only [List.mem_cons, Prod.mk.injEq, List.not_mem_nil, or_false] at h
  rcases h with ⟨rfl, rfl⟩ | ⟨rfl, rfl⟩ | ⟨rfl, rfl⟩ | ⟨rfl, rfl⟩ | ⟨rfl, rfl⟩ <;>
    simp only [Ir.entries, Ir.load, twoDominators] <;> split <;>
    grind

private theorem twoDominators_invariant : UseInvariant twoDominators := by
  refine .of_check [.phi 0, .phi 1, .reg 0, .sym 0] (fun i hi => ?_) (fun p hp => ?_) (by decide)
  · match i with
    | 0 | 1 | 2 | 3 => exact absurd hi (by decide)
    | n + 4 => exact fun h => h rfl
  · simp only [twoDominators]
    split <;> simp_all

private theorem twoDominators_step :
    OperandRewrite twoDominators (twoDominators.rewriteLoadInstruction 2 [0, 1]) := by
  refine .rewriteLoadInstruction (by decide) rfl (fun c hc => ?_) ⟨0, by simp, by decide⟩
  obtain rfl | rfl : c = 0 ∨ c = 1 := by simpa using hc
  · refine ⟨⟨by decide, fun j ho => ?_, ⟨0, rfl⟩, fun p hp => ?_⟩,
      ⟨0, 0, rfl, rfl, by decide, rfl, rfl⟩⟩
    · rcases twoDominators_owns ho with ⟨-, hs⟩ | ⟨-, hs⟩ | ⟨-, hs⟩ <;> cases hs
    · exact twoDominators_entries hp (by simp)
  · refine ⟨⟨by decide, fun j ho => ?_, ⟨1, rfl⟩, fun p hp => ?_⟩,
      ⟨1, 1, rfl, rfl, by decide, rfl, rfl⟩⟩
    · rcases twoDominators_owns ho with ⟨-, hs⟩ | ⟨-, hs⟩ | ⟨-, hs⟩ <;> cases hs
    · exact twoDominators_entries hp (by simp)

theorem twoDominators_use_lists :
    let ir' := twoDominators.rewriteLoadInstruction 2 [0, 1]
    (∀ i s, ir'.Owns i s → hasUseList (ir'.load s) = true →
      ir'.entries (ir'.load s) s = [⟨i, s⟩]) ∧
    (∀ p, hasUseList p = true → p.isSym = false → ∀ pu ∈ ir'.users p,
      ir'.load pu.userp = p ∨ ir'.load pu.userp = .void) ∧
    (∀ i s, ir'.Owns i s → ∀ nr d, ir'.load s = .reg nr → ir'.definition (.reg nr) = some d →
      ir'.live d) :=
  operandRewrites_keep_use_lists twoDominators_invariant (.single twoDominators_step)

/-- All entries of `twoDominators` name slots that hold their pseudo; the load that becomes a
phi leaves the entry of its symbol for a slot that now holds the phi list. -/
theorem twoDominators_symbol_entry :
    UseInvariant twoDominators ∧
      (∀ p, ∀ pu ∈ twoDominators.users p, twoDominators.load pu.userp = p) ∧
      OperandRewrite twoDominators (twoDominators.rewriteLoadInstruction 2 [0, 1]) ∧
      hasUseList (.sym 0) = true ∧
      ∃ pu ∈ (twoDominators.rewriteLoadInstruction 2 [0, 1]).users (.sym 0),
        ¬ ((twoDominators.rewriteLoadInstruction 2 [0, 1]).load pu.userp = .sym 0 ∨
          (twoDominators.rewriteLoadInstruction 2 [0, 1]).load pu.userp = .void) := by
  refine ⟨twoDominators_invariant, fun p pu hpu => ?_, twoDominators_step, rfl, ⟨2, .src1 2⟩, ?_, ?_⟩
  · rcases twoDominators_users hpu with ⟨rfl, rfl⟩ | ⟨rfl, rfl⟩ | ⟨rfl, rfl⟩ <;> rfl
  · decide
  · decide

end Sparse
