import Sparse.FlowGraphPacking

/-!
# Runs of the flow operations

Every operation keeps the edge invariant, whatever rewriting of operands comes in
between; so does every run.
-/

namespace Sparse

open AdjacencyLists

theorem SameFlow.replaceCond (ir : Ir) (br : InsnId) (cond new : Pseudo) :
    SameFlow ir (ir.replaceCond br cond new) :=
  (SameFlow.usePseudo ir br new _).trans (SameFlow.removeUsage _ cond _)

namespace FlowInvariant

variable {ir : Ir} {bb : BlockId} {i : InsnId}

theorem live_of_lastInstruction (h : FlowInvariant ∅ ir) (hl : ir.lastInstruction bb = some i) :
    (ir.block bb).killed = false := by
  by_contra hk
  have hm := Ir.lastInstruction_mem hl
  simp [(h.killed bb (by simpa using hk)).2.2] at hm

theorem mem_children_iff (h : FlowInvariant ∅ ir) (hl : ir.lastInstruction bb = some i)
    {t : BlockId} : t ∈ (ir.block bb).children ↔ t ∈ (ir.insn i).successors := by
  rw [(h.perm (Set.notMem_empty bb) (h.live_of_lastInstruction hl)).mem_iff, successors_eq hl]

/-- Rewriting the last instruction of a block suspends the block only. -/
theorem setInsn_loose (h : FlowInvariant {bb} ir) (hl : ir.lastInstruction bb = some i)
    {f : Instruction → Instruction} (ho : (f (ir.insn i)).opcode = (ir.insn i).opcode) :
    FlowInvariant {bb} (ir.setInsn i f) := by
  refine { h with named := fun b hb hk c => ?_, jumpLast := fun b j hj => ?_ }
  · have hs : (ir.setInsn i f).successors b = ir.successors b :=
      h.successors_of_ne (Ir.lastInstruction_mem hl) hb rfl (fun j hj => by simp [hj])
    rw [hs]
    exact h.named b hb hk c
  · have hop : ((ir.setInsn i f).insn j).opcode = (ir.insn j).opcode := by
      by_cases hji : j = i
      · subst hji; simpa using ho
      · simp [hji]
    rw [hop]
    exact h.jumpLast b j hj

/-- It keeps the invariant when it names the children. -/
theorem setInsn_perm (h : FlowInvariant {bb} ir) (hl : ir.lastInstruction bb = some i)
    {f : Instruction → Instruction} (ho : (f (ir.insn i)).opcode = (ir.insn i).opcode)
    (hs : (ir.block bb).children.Perm (f (ir.insn i)).successors) :
    FlowInvariant ∅ (ir.setInsn i f) := by
  refine (h.setInsn_loose hl ho).check (fun b hb _ => ?_)
  have hb : b = bb := hb
  subst hb
  have hl' : (ir.setInsn i f).lastInstruction b = some i := hl
  rw [successors_eq hl']
  simpa using hs

theorem swapTargets (h : FlowInvariant ∅ ir) (hl : ir.lastInstruction bb = some i)
    (ho : (ir.insn i).opcode = .br) : FlowInvariant ∅ (ir.swapTargets i) := by
  refine (h.mono (Set.empty_subset {bb})).setInsn_perm hl rfl ?_
  have hp := h.perm (Set.notMem_empty bb) (h.live_of_lastInstruction hl)
  rw [successors_eq hl] at hp
  refine hp.trans ?_
  simpa [Instruction.successors, ho] using List.perm_append_comm

theorem simplifyCondBranch (h : FlowInvariant ∅ ir) (hl : ir.lastInstruction bb = some i)
    (ho : (ir.insn i).opcode = .br) (cond : Pseudo) (d : InsnId) (pp : Address) :
    FlowInvariant ∅ (ir.simplifyCondBranch i cond d pp) := by
  have hs : SameFlow ir ((ir.usePseudo i (ir.load pp) (.target i)).removeUsage cond (.target i)) :=
    (SameFlow.usePseudo ir i _ _).trans (SameFlow.removeUsage _ cond _)
  have h1 := h.sameFlow hs
  unfold Ir.simplifyCondBranch
  dsimp only
  split
  · have hl1 : ((ir.usePseudo i (ir.load pp) (.target i)).removeUsage cond
        (.target i)).lastInstruction bb = some i := by
      rwa [Ir.lastInstruction, hs.block]
    refine h1.swapTargets hl1 ?_
    rw [Instruction.opcode_of_flow (hs.flow i), ho]
  · exact h1

/-- The second of two equal targets goes, with its edge. -/
theorem dropSecondTarget (h : FlowInvariant ∅ ir) (hl : ir.lastInstruction bb = some i)
    (ho : (ir.insn i).opcode = .br) {t : BlockId} (ht : (ir.insn i).bbTrue = some t)
    (hf : (ir.insn i).bbFalse = some t) :
    FlowInvariant ∅ (((ir.removeFromParents t bb 1).removeFromChildren bb t 1).setInsn i
      ({ · with bbFalse := none })) := by
  have he : (ir.removeFromParents t bb 1).removeFromChildren bb t 1 =
      ir.withGraph (ir.graph.dropEdge bb t) := by
    simp only [Ir.removeFromParents, Ir.removeFromChildren, Ir.setBlock, Ir.withGraph,
      Graph.dropEdge, Ir.graph, Ir.mk.injEq, and_true, true_and]
    funext x
    by_cases hx : x = t <;> by_cases hb : x = bb <;>
      simp_all [Function.update_apply, deletePtrListEntry_one]
  rw [he]
  have h1 : FlowInvariant {bb} (ir.withGraph (ir.graph.dropEdge bb t)) := by
    refine (h.mono (Set.empty_subset {bb})).withGraph h.consistent.dropEdge (fun b x hx => ?_)
      (fun b hb _ => ?_)
    · simp only [Graph.dropEdge, Ir.graph] at hx
      split at hx
      · exact List.mem_of_mem_erase hx
      · exact hx
    · exact if_neg hb
  have hchild : (ir.block bb).children.Perm [t, t] := by
    have hp := h.perm (Set.notMem_empty bb) (h.live_of_lastInstruction hl)
    rwa [successors_eq hl, show (ir.insn i).successors = [t, t] by
      simp [Instruction.successors, ho, ht, hf]] at hp
  refine h1.setInsn_perm hl rfl ?_
  have hc : ((ir.withGraph (ir.graph.dropEdge bb t)).block bb).children =
      (ir.block bb).children.erase t := by
    simp [Ir.withGraph, Graph.dropEdge, Ir.graph]
  rw [hc]
  simpa [Instruction.successors, Ir.withGraph, ho, ht] using hchild.erase t

theorem simplifyBranchOn (h : FlowInvariant ∅ ir) (hl : ir.lastInstruction bb = some i)
    (ho : (ir.insn i).opcode = .br) (cond : Pseudo) (d : InsnId) :
    FlowInvariant ∅ (ir.simplifyBranchOn i bb cond d) := by
  have hins : ∀ target : Option BlockId,
      (target = (ir.insn i).bbTrue ∨ target = (ir.insn i).bbFalse) →
      FlowInvariant ∅ (ir.insertBranch bb target) := by
    intro target ht
    refine h.insertBranch hl (fun t he => ?_)
    rw [h.mem_children_iff hl]
    rcases ht with ht | ht <;> simp [Instruction.successors, ho, ← ht, he]
  have hcond := fun pp => h.simplifyCondBranch hl ho cond d pp
  unfold Ir.simplifyBranchOn
  dsimp only
  split
  · split_ifs
    · exact hcond _
    · exact hcond _
    · exact h
  · split_ifs
    · exact hcond _
    · exact hcond _
    · exact h
  · split_ifs
    · exact hins _ (Or.inr rfl)
    · exact hins _ (Or.inl rfl)
    · exact (h.swapTargets hl ho).sameFlow (SameFlow.replaceCond _ _ _ _)
    · exact h.sameFlow (SameFlow.replaceCond _ _ _ _)
  · split_ifs
    · exact h.sameFlow (SameFlow.replaceCond _ _ _ _)
    · exact h
  · split_ifs
    · exact h.sameFlow (SameFlow.replaceCond _ _ _ _)
    · exact h
  · exact h

theorem simplifyBranch (h : FlowInvariant ∅ ir) (hl : ir.lastInstruction bb = some i)
    (ho : (ir.insn i).opcode = .br) : FlowInvariant ∅ (ir.simplifyBranch i bb) := by
  have hon := fun cond d => h.simplifyBranchOn hl ho cond d
  unfold Ir.simplifyBranch
  dsimp only
  split
  · exact h
  next value _ =>
    refine h.insertBranch hl (fun t ht => ?_)
    rw [h.mem_children_iff hl]
    split_ifs at ht <;> simp [Instruction.successors, ho, ht]
  next =>
    split
    next bbTrue target ht hf =>
      split_ifs with he
      · subst he
        have h1 := h.dropSecondTarget hl ho ht hf
        refine (h1.sameFlow (SameFlow.killUse _ (some (.target i)))).sameFlow ?_
        exact SameFlow.setInsn _ i _ (fun _ => rfl)
      · split
        · exact hon _ _
        · exact h
    next =>
      split
      · exact hon _ _
      · exact h

theorem mem_of_selectJump {value : BitVec 64} {jmps : List Multijmp} {jmp : Multijmp}
    (h : Ir.selectJump value jmps = some jmp) : jmp ∈ jmps := by
  induction jmps with
  | nil => simp [Ir.selectJump] at h
  | cons j jmps ih =>
    unfold Ir.selectJump at h
    split_ifs at h
    · exact Option.some.inj h ▸ List.mem_cons_self
    · exact Option.some.inj h ▸ List.mem_cons_self
    · exact List.mem_cons_of_mem j (ih h)

theorem simplifySwitch (h : FlowInvariant ∅ ir) (hl : ir.lastInstruction bb = some i)
    (ho : (ir.insn i).opcode = .switch) : FlowInvariant ∅ (ir.simplifySwitch i bb) := by
  unfold Ir.simplifySwitch
  split
  · split
    next jmp hj =>
      refine h.insertBranch hl (fun t ht => ?_)
      rw [h.mem_children_iff hl, ← Option.some.inj ht]
      simp only [Instruction.successors, ho]
      exact List.mem_map_of_mem (mem_of_selectJump hj)
    · exact h
  · exact h

end FlowInvariant

/-- One flow operation, or any rewriting of operands and use lists between two of them. The
premises are what the callers of the operation establish. -/
inductive FlowStep : Ir → Ir → Prop
  | operands {ir ir' : Ir} : SameFlow ir ir' → FlowStep ir ir'
  | rewriteBranch {ir : Ir} {bb new : BlockId} {br : InsnId} {ptr : BranchSlot} (old : BlockId) :
      ir.lastInstruction bb = some br → ptr.MemOf (ir.insn br).opcode →
      (ir.block new).killed = false → new < ir.nextBlock →
      FlowStep ir (ir.rewriteBranch bb br ptr old new).1
  | rewriteBranchBb {ir : Ir} {bb : BlockId} {br : InsnId} :
      br ∈ (ir.block bb).insns → (ir.insn br).opcode = .br →
      FlowStep ir (ir.rewriteBranchBb bb br).1
  | insertBranch {ir : Ir} {bb : BlockId} {jmp : InsnId} {target : Option BlockId} :
      ir.lastInstruction bb = some jmp →
      (∀ t, target = some t → t ∈ (ir.block bb).children) →
      FlowStep ir (ir.insertBranch bb target)
  | killBb {ir : Ir} {bb : BlockId} : (ir.block bb).parents = [] → FlowStep ir (ir.killBb bb)
  | killUnreachableBbs (ir : Ir) : FlowStep ir ir.killUnreachableBbs
  | packBasicBlocks (ir : Ir) : FlowStep ir ir.packBasicBlocks
  | simplifyBranch {ir : Ir} {bb : BlockId} {i : InsnId} :
      (ir.insn i).bb = some bb → i ∈ (ir.block bb).insns → (ir.insn i).opcode = .br →
      FlowStep ir (ir.simplifyBranch i bb)
  | simplifySwitch {ir : Ir} {bb : BlockId} {i : InsnId} :
      (ir.insn i).bb = some bb → i ∈ (ir.block bb).insns → (ir.insn i).opcode = .switch →
      FlowStep ir (ir.simplifySwitch i bb)

theorem FlowStep.flowInvariant {ir ir' : Ir} (hs : FlowStep ir ir') (h : FlowInvariant ∅ ir) :
    FlowInvariant ∅ ir' := by
  cases hs with
  | operands hs => exact h.sameFlow hs
  | rewriteBranch old hl hm hk hn => exact h.rewriteBranch (Set.notMem_empty _) hl hm hk hn
  | rewriteBranchBb hi ho =>
    exact (h.rewriteBranchBb (h.lastInstruction_of_isJump hi (by rw [ho]; rfl)) ho).1
  | insertBranch hl ht => exact h.insertBranch hl ht
  | killBb hp => exact h.killBb (by simp [hp])
  | killUnreachableBbs => exact h.killUnreachableBbs
  | packBasicBlocks => exact h.packBasicBlocks
  | simplifyBranch _ hi ho =>
    exact h.simplifyBranch (h.lastInstruction_of_isJump hi (by rw [ho]; rfl)) ho
  | simplifySwitch _ hi ho =>
    exact h.simplifySwitch (h.lastInstruction_of_isJump hi (by rw [ho]; rfl)) ho

theorem flowInvariant_of_run {ir ir' : Ir} (hrun : Relation.ReflTransGen FlowStep ir ir')
    (h : FlowInvariant ∅ ir) : FlowInvariant ∅ ir' := by
  induction hrun with
  | refl => exact h
  | tail _ hs ih => exact hs.flowInvariant ih

/-- How the linearizer lays a graph out, edges apart: killed blocks are empty, an instruction
lies in one block, jumps end their blocks, and names are allocated. -/
structure FlowLayout (ir : Ir) : Prop where
  killed : ∀ b, (ir.block b).killed = true →
    (ir.block b).parents = [] ∧ (ir.block b).children = [] ∧ (ir.block b).insns = []
  owner : ∀ b b' i, i ∈ (ir.block b).insns → i ∈ (ir.block b').insns → b = b'
  jumpLast : ∀ b, ∀ i ∈ (ir.block b).insns.dropLast, (ir.insn i).opcode.isJump = false
  allocated : ∀ b, ∀ i ∈ (ir.block b).insns, i < ir.nextInsn
  listed : ∀ b, (ir.block b).children ≠ [] → b ∈ ir.bbs
  bounded : ∀ b, ∀ c ∈ (ir.block b).children, c < ir.nextBlock
  generation : ∀ b, (ir.block b).generation ≤ ir.bbGeneration

/-- After any run of the flow operations the children of a live block are the successors its
last instruction names, every edge is listed equally often at its two ends, and no live block
mentions a killed one. -/
theorem flow_operations_preserve_edges {ir ir' : Ir} (hlayout : FlowLayout ir)
    (hnamed : ∀ b, (ir.block b).killed = false → (ir.block b).children.Perm (ir.successors b))
    (hcount : ∀ p c, (ir.block c).parents.count p = (ir.block p).children.count c)
    (hrun : Relation.ReflTransGen FlowStep ir ir') :
    (∀ b, (ir'.block b).killed = false → (ir'.block b).children.Perm (ir'.successors b)) ∧
      (∀ p c, (ir'.block c).parents.count p = (ir'.block p).children.count c) ∧
      ∀ b, (ir'.block b).killed = false →
        ∀ c ∈ (ir'.block b).children ++ (ir'.block b).parents ++ ir'.successors b,
          (ir'.block c).killed = false := by
  have h : FlowInvariant ∅ ir :=
    ⟨hcount, fun b _ hk => List.perm_iff_count.mp (hnamed b hk), hlayout.killed, hlayout.owner,
      hlayout.jumpLast, hlayout.allocated, hlayout.listed, hlayout.bounded, hlayout.generation⟩
  have h' := flowInvariant_of_run hrun h
  refine ⟨fun b hk => h'.perm (Set.notMem_empty b) hk, h'.consistent, fun b hk c hc => ?_⟩
  rcases List.mem_append.mp hc with hc | hs
  · rcases List.mem_append.mp hc with hc | hp
    · exact (h'.live_of_mem_children hc).2
    · exact (h'.live_of_mem_children (h'.mem_parents_iff.mp hp)).1
  · exact (h'.live_of_mem_children
      ((h'.perm (Set.notMem_empty b) hk).mem_iff.mpr hs)).2

/-! ## Heaps with finitely many blocks -/

/-- The clauses of the edge invariant about a block, for a heap whose names are all allocated. -/
def Ir.BlockCheck (ir : Ir) (b : BlockId) : Prop :=
  (ir.block b).killed = false ∧ b ∈ ir.bbs ∧ (ir.block b).generation ≤ ir.bbGeneration ∧
    (∀ p ∈ (ir.block b).parents, p < ir.nextBlock) ∧ (∀ c ∈ (ir.block b).children, c < ir.nextBlock) ∧
    (∀ p < ir.nextBlock, (ir.block b).parents.count p = (ir.block p).children.count b) ∧
    (ir.block b).children.Perm (ir.successors b) ∧
    (∀ i ∈ (ir.block b).insns, i < ir.nextInsn ∧ ∀ b' < ir.nextBlock, i ∈ (ir.block b').insns → b = b') ∧
    ∀ i ∈ (ir.block b).insns.dropLast, (ir.insn i).opcode.isJump = false

instance (ir : Ir) (b : BlockId) : Decidable (ir.BlockCheck b) := by
  unfold Ir.BlockCheck
  infer_instance

/-- A heap whose other blocks are empty keeps the edge invariant if its blocks do. -/
theorem FlowInvariant.of_check {ir : Ir} (hempty : ∀ b, ir.nextBlock ≤ b → ir.block b = {})
    (hcheck : ∀ b < ir.nextBlock, ir.BlockCheck b) : FlowInvariant ∅ ir := by
  have hcases : ∀ b, ir.block b = {} ∨ b < ir.nextBlock ∧ ir.BlockCheck b := fun b =>
    (Nat.lt_or_ge b ir.nextBlock).symm.imp (hempty b) fun hb => ⟨hb, hcheck b hb⟩
  have hnotMem : ∀ b, ∀ i, ir.block b = {} → i ∉ (ir.block b).insns := fun b i hb => by simp [hb]
  refine ⟨fun p c => ?_, fun b _ hk => ?_, fun b hk => ?_, fun b b' i hi hi' => ?_, fun b i hi => ?_,
    fun b i hi => ?_, fun b hb => ?_, fun b c hc => ?_, fun b => ?_⟩
  · change (ir.block c).parents.count p = (ir.block p).children.count c
    rcases Nat.lt_or_ge c ir.nextBlock with hc | hc
    · obtain ⟨-, -, -, hparents, -, hcount, -⟩ := hcheck c hc
      rcases Nat.lt_or_ge p ir.nextBlock with hp | hp
      · exact hcount p hp
      · rw [hempty p hp, List.count_eq_zero_of_not_mem (fun h => Nat.not_lt.2 hp (hparents p h))]
        rfl
    · have hnone : c ∉ (ir.block p).children := by
        rcases hcases p with hp | ⟨-, -, -, -, -, hchildren, -⟩
        · simp [hp]
        · exact fun h => Nat.not_lt.2 hc (hchildren c h)
      rw [hempty c hc, List.count_eq_zero_of_not_mem hnone]
      rfl
  · rcases hcases b with hb | ⟨-, -, -, -, -, -, -, hperm, -⟩
    · simp [hb, Ir.successors, Ir.lastInstruction]
    · exact List.perm_iff_count.1 hperm
  · rcases hcases b with hb | ⟨-, hkilled, -⟩
    · simp [hb]
    · simp [hkilled] at hk
  · rcases hcases b with hb | ⟨-, -, -, -, -, -, -, -, hinsns, -⟩
    · exact absurd hi (hnotMem b i hb)
    · rcases hcases b' with hb' | ⟨hb', -⟩
      · exact absurd hi' (hnotMem b' i hb')
      · exact (hinsns i hi).2 b' hb' hi'
  · rcases hcases b with hb | ⟨-, -, -, -, -, -, -, -, -, hjump⟩
    · simp [hb] at hi
    · exact hjump i hi
  · rcases hcases b with hb | ⟨-, -, -, -, -, -, -, -, hinsns, -⟩
    · exact absurd hi (hnotMem b i hb)
    · exact (hinsns i hi).1
  · rcases hcases b with hb' | ⟨-, -, hlisted, -⟩
    · simp [hb'] at hb
    · exact hlisted
  · rcases hcases b with hb | ⟨-, -, -, -, -, hchildren, -⟩
    · simp [hb] at hc
    · exact hchildren c hc
  · rcases hcases b with hb | ⟨-, -, -, hgeneration, -⟩
    · simp [hb]
    · exact hgeneration

/-- A branch on a constant with two arms that return. -/
def constantBranch : Ir where
  insn
    | 0 => { opcode := .br, bb := some 0, target := .val 1, bbTrue := some 1, bbFalse := some 2 }
    | i => { opcode := .ret, bb := some i }
  block
    | 0 => { children := [1, 2], insns := [0] }
    | 1 => { parents := [0], insns := [1] }
    | 2 => { parents := [0], insns := [2] }
    | _ => {}
  cell _ := .null
  definition _ := none
  users _ := []
  bbs := [0, 1, 2]
  entry := 0
  nextInsn := 3
  nextBlock := 3
  nextCell := 0
  nextReg := 1
  nextPhi := 0
  bbGeneration := 0

private theorem constantBranch_layout : FlowLayout constantBranch where
  killed b hk := by
    rcases b with _ | _ | _ | b <;> simp [constantBranch] at hk
  owner b b' i hi hi' := by
    rcases b with _ | _ | _ | b <;> rcases b' with _ | _ | _ | b' <;>
      simp_all [constantBranch]
  jumpLast b i hi := by
    rcases b with _ | _ | _ | b <;> simp [constantBranch] at hi
  allocated b i hi := by
    rcases b with _ | _ | _ | b <;> simp_all [constantBranch]
  listed b hb := by
    rcases b with _ | _ | _ | b <;> simp_all [constantBranch]
  bounded b c hc := by
    rcases b with _ | _ | _ | b <;> simp [constantBranch] at hc ⊢
    rcases hc with rfl | rfl <;> decide
  generation b := by
    rcases b with _ | _ | _ | b <;> simp [constantBranch]

theorem constantBranch_edges :
    ((constantBranch.simplifyBranch 0 0).block 2).killed = true ∧
      ∀ b, ((constantBranch.simplifyBranch 0 0).block b).killed = false →
        ((constantBranch.simplifyBranch 0 0).block b).children.Perm
          ((constantBranch.simplifyBranch 0 0).successors b) := by
  refine ⟨by decide, (flow_operations_preserve_edges constantBranch_layout ?_ ?_
    (.single (.simplifyBranch (show (constantBranch.insn 0).bb = some 0 from rfl) (by decide)
      rfl))).1⟩
  · intro b _
    rcases b with _ | _ | _ | b <;>
      simp [constantBranch, Ir.successors, Ir.lastInstruction, Instruction.successors]
  · intro p c
    rcases p with _ | _ | _ | p <;> rcases c with _ | _ | _ | c <;> simp [constantBranch]

end Sparse
