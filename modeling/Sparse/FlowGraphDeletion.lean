import Sparse.FlowGraphInvariant

/-!
# Removing blocks and edges

`kill_bb` takes a block out of the graph with all its edges; `insert_branch` turns
a jump into a branch and drops the other children of its block, killing those that
lose their last parent; `kill_unreachable_bbs` kills what a walk from the entry
does not mark.
-/

namespace Sparse

open AdjacencyLists

theorem SameFlow.killInsns (is : List InsnId) (ir : Ir) : SameFlow ir (Ir.killInsns is ir) := by
  induction is generalizing ir with
  | nil => exact refl ir
  | cons i is ih =>
    exact (((killInstruction ir i).trans (killDefs _ i)).trans (clearBb _ i)).trans (ih _)

namespace Ir

private theorem foldl_removeFromParents (bb : BlockId) (cs : List BlockId) (ir : Ir) :
    cs.foldl (fun ir child => ir.removeFromParents child bb 0) ir =
      ir.withGraph ⟨fun x => if x ∈ cs then (ir.block x).parents.filter (· ≠ bb)
        else (ir.block x).parents, fun x => (ir.block x).children⟩ := by
  induction cs generalizing ir with
  | nil => simp [withGraph]
  | cons c cs ih =>
    rw [List.foldl_cons, ih]
    simp only [removeFromParents, setBlock, withGraph, Ir.mk.injEq, and_true, true_and]
    funext x
    by_cases hx : x = c
    · subst hx
      by_cases hm : x ∈ cs <;> simp [hm, deletePtrListEntry_zero]
    · by_cases hm : x ∈ cs <;> simp [hx, hm]

private theorem foldl_removeFromChildren (bb : BlockId) (ps : List BlockId) (ir : Ir) :
    ps.foldl (fun ir parent => ir.removeFromChildren parent bb 0) ir =
      ir.withGraph ⟨fun x => (ir.block x).parents, fun x =>
        if x ∈ ps then (ir.block x).children.filter (· ≠ bb) else (ir.block x).children⟩ := by
  induction ps generalizing ir with
  | nil => simp [withGraph]
  | cons c ps ih =>
    rw [List.foldl_cons, ih]
    simp only [removeFromChildren, setBlock, withGraph, Ir.mk.injEq, and_true, true_and]
    funext x
    by_cases hx : x = c
    · subst hx
      by_cases hm : x ∈ ps <;> simp [hm, deletePtrListEntry_zero]
    · by_cases hm : x ∈ ps <;> simp [hx, hm]

/-- Killing a block takes all its edges out of a consistent graph. -/
theorem killBb_eq {ir : Ir} (h : ir.graph.Consistent) (bb : BlockId) :
    ir.killBb bb =
      ((killInsns (ir.block bb).insns ir).withGraph (ir.graph.isolate bb)).setBlock bb
        ({ · with insns := [], killed := true }) := by
  have hb := (SameFlow.killInsns (ir.block bb).insns ir).block
  have hmem : ∀ p c, p ∈ (ir.block c).parents ↔ c ∈ (ir.block p).children := fun _ _ => h.mem_iff
  have hfilter : ∀ xs : List BlockId, bb ∉ xs → xs.filter (· ≠ bb) = xs := fun xs hx =>
    List.filter_eq_self.mpr (fun x hm => by
      simp only [ne_eq, decide_not, Bool.not_eq_eq_eq_not, Bool.not_true, decide_eq_false_iff_not]
      rintro rfl
      exact hx hm)
  simp only [killBb, foldl_removeFromParents, foldl_removeFromChildren]
  simp only [setBlock, withGraph, Graph.isolate, graph, Ir.mk.injEq, and_true, true_and]
  funext x
  by_cases hx : x = bb
  · subst hx
    simp [hb]
  · simp only [Function.update_apply, hx, if_false, hb]
    have hpar : x ∉ (ir.block bb).children →
        (ir.block x).parents.filter (· ≠ bb) = (ir.block x).parents :=
      fun hc => hfilter _ (fun hm => hc ((hmem bb x).mp hm))
    have hchild : x ∉ (ir.block bb).parents →
        (ir.block x).children.filter (· ≠ bb) = (ir.block x).children :=
      fun hp => hfilter _ (fun hm => hp ((hmem x bb).mpr hm))
    have hself : x ∈ (if bb ∈ (ir.block bb).children then (ir.block bb).parents.filter (· ≠ bb)
        else (ir.block bb).parents) ↔ x ∈ (ir.block bb).parents := by
      split <;> simp [hx]
    simp only [if_true, hself]
    congr 1
    · split
      · rfl
      · exact (hpar ‹_›).symm
    · split
      · rfl
      · exact (hchild ‹_›).symm

end Ir

/-- Away from the killed block only the edges to it disappear. -/
theorem Ir.killBb_block_of_ne {ir : Ir} (h : ir.graph.Consistent) {bb x : BlockId} (hx : x ≠ bb) :
    (ir.killBb bb).block x = { ir.block x with
      parents := (ir.block x).parents.filter (· ≠ bb)
      children := (ir.block x).children.filter (· ≠ bb) } := by
  have hb := (SameFlow.killInsns (ir.block bb).insns ir).block
  rw [Ir.killBb_eq h]
  simp [Ir.withGraph, Graph.isolate, Ir.graph, hx, hb]

theorem Ir.killBb_block_self {ir : Ir} (h : ir.graph.Consistent) (bb : BlockId) :
    (ir.killBb bb).block bb =
      { ir.block bb with parents := [], children := [], insns := [], killed := true } := by
  have hb := (SameFlow.killInsns (ir.block bb).insns ir).block
  rw [Ir.killBb_eq h]
  simp [Ir.withGraph, Graph.isolate, hb]

theorem Ir.killBb_flow {ir : Ir} (h : ir.graph.Consistent) (bb : BlockId) (i : InsnId) :
    ((ir.killBb bb).insn i).flow = (ir.insn i).flow := by
  rw [Ir.killBb_eq h]
  exact (SameFlow.killInsns (ir.block bb).insns ir).flow i

namespace FlowInvariant

variable {L : Set BlockId} {ir : Ir} {bb : BlockId}

theorem killBb (h : FlowInvariant L ir) (hp : ∀ p ∈ (ir.block bb).parents, p = bb ∨ p ∈ L) :
    FlowInvariant L (ir.killBb bb) := by
  have hc := h.consistent
  have hs := SameFlow.killInsns (ir.block bb).insns ir
  have hne := fun x (hx : x ≠ bb) => Ir.killBb_block_of_ne hc hx
  have hself := Ir.killBb_block_self hc bb
  have hflow := Ir.killBb_flow hc bb
  have hsub : ∀ x, ((ir.killBb bb).block x).children.Sublist (ir.block x).children := by
    intro x
    by_cases hx : x = bb
    · subst hx
      rw [hself]
      exact List.nil_sublist _
    · rw [hne x hx]
      exact List.filter_sublist
  have hinsns : ∀ x, ((ir.killBb bb).block x).insns.Sublist (ir.block x).insns := by
    intro x
    by_cases hx : x = bb
    · subst hx
      rw [hself]
      exact List.nil_sublist _
    · rw [hne x hx]
  have hcons : (ir.killBb bb).graph.Consistent := by
    rw [Ir.killBb_eq hc]
    refine (hc.isolate (b := bb)).of_perm (fun x => ?_) (fun x => ?_) <;>
    · by_cases hx : x = bb
      · subst hx; simp [Ir.graph, Ir.withGraph]
      · simp [Ir.graph, Ir.withGraph, hx]
  refine ⟨hcons, ?_, ?_, ?_, ?_, ?_, ?_, ?_, ?_⟩
  · intro b hb hk c
    have hbb : b ≠ bb := by
      rintro rfl
      simp [hself] at hk
    have hk' : (ir.block b).killed = false := by simpa [hne b hbb] using hk
    have hchild : (ir.block b).children.filter (· ≠ bb) = (ir.block b).children := by
      refine List.filter_eq_self.mpr (fun x hx => ?_)
      simp only [ne_eq, decide_not, Bool.not_eq_eq_eq_not, Bool.not_true, decide_eq_false_iff_not]
      rintro rfl
      exact (hp b (h.mem_parents_iff.mpr hx)).elim hbb hb
    rw [Ir.successors_congr _ (by rw [hne b hbb]) (fun i _ => hflow i), hne b hbb]
    simpa only [hchild] using h.named b hb hk' c
  · intro b hk
    by_cases hbb : b = bb
    · subst hbb; simp [hself]
    · rw [hne b hbb] at hk ⊢
      obtain ⟨h1, h2, h3⟩ := h.killed b hk
      simp [h1, h2, h3]
  · intro b b' i hi hi'
    exact h.owner b b' i ((hinsns b).subset hi) ((hinsns b').subset hi')
  · intro b i hi
    rw [Instruction.opcode_of_flow (hflow i)]
    by_cases hbb : b = bb
    · subst hbb; simp [hself] at hi
    · exact h.jumpLast b i (by simpa [hne b hbb] using hi)
  · intro b i hi
    have hn : (ir.killBb bb).nextInsn = ir.nextInsn := by
      rw [Ir.killBb_eq hc]; exact hs.nextInsn
    rw [hn]
    exact h.allocated b i ((hinsns b).subset hi)
  · intro b hb
    have hl : (ir.killBb bb).bbs = ir.bbs := by
      rw [Ir.killBb_eq hc]; exact hs.bbs
    rw [hl]
    exact h.listed b (fun he => hb (List.sublist_nil.mp (he ▸ hsub b)))
  · intro b c hcm
    have hn : (ir.killBb bb).nextBlock = ir.nextBlock := by
      rw [Ir.killBb_eq hc]; exact hs.nextBlock
    rw [hn]
    exact h.bounded b c ((hsub b).subset hcm)
  · intro b
    have hg : (ir.killBb bb).bbGeneration = ir.bbGeneration := by
      rw [Ir.killBb_eq hc]; exact hs.bbGeneration
    rw [hg]
    by_cases hbb : b = bb
    · subst hbb; simpa [hself] using h.generation b
    · simpa [hne b hbb] using h.generation b

end FlowInvariant

namespace FlowInvariant

variable {L : Set BlockId} {ir : Ir} {bb : BlockId}

/-- Editing the edge lists keeps the invariant when the result is consistent, stays inside
the old children and touches only unchecked blocks. -/
theorem withGraph (h : FlowInvariant L ir) {g : Graph BlockId} (hg : g.Consistent)
    (hsub : ∀ b, (g.children b).Subset (ir.block b).children)
    (hsame : ∀ b ∉ L, (ir.block b).killed = false → g.children b = (ir.block b).children) :
    FlowInvariant L (ir.withGraph g) where
  consistent := hg
  named b hb hk c := by
    have hn := h.named b hb hk c
    rwa [← hsame b hb hk] at hn
  killed b hk := by
    obtain ⟨_, h2, h3⟩ := h.killed b hk
    have hc : g.children b = [] := List.eq_nil_of_subset_nil (h2 ▸ hsub b)
    refine ⟨List.eq_nil_iff_forall_not_mem.mpr (fun p hp => ?_), hc, h3⟩
    have hm : b ∈ g.children p := hg.mem_iff.mp hp
    have hl := (h.live_of_mem_children (hsub p hm)).2
    exact absurd (show (ir.block b).killed = true from hk) (by simp [hl])
  owner := h.owner
  jumpLast := h.jumpLast
  allocated := h.allocated
  listed b hb := h.listed b (fun he => hb (List.eq_nil_of_subset_nil (he ▸ hsub b)))
  bounded b c hc := h.bounded b c (hsub b hc)
  generation := h.generation

theorem removeParent {child parent : BlockId}
    (hd : FlowInvariant L (ir.removeFromParents child parent 1)) :
    FlowInvariant L (ir.removeParent child parent) := by
  unfold Ir.removeParent
  dsimp only
  split
  next hp => exact hd.killBb (by simp [hp])
  next => exact hd

end FlowInvariant

namespace FlowInvariant

variable {ir : Ir} {bb : BlockId}

/-- One round of the loop of `insert_branch` that deletes an entry. -/
theorem dropChild (h : FlowInvariant {bb} ir) {kept todo : List BlockId} {child : BlockId}
    (hk : (ir.block bb).killed = false) (hc : (ir.block bb).children = kept ++ child :: todo) :
    FlowInvariant {bb}
      ((ir.setBlock bb ({ · with children := kept ++ todo })).removeFromParents child bb 1) := by
  have hperm : (kept ++ todo).Perm ((kept ++ child :: todo).erase child) :=
    ((List.perm_cons_erase (by simp)).symm.trans List.perm_middle).cons_inv.symm
  have he : (ir.setBlock bb ({ · with children := kept ++ todo })).removeFromParents child bb 1 =
      ir.withGraph ⟨(ir.graph.dropEdge bb child).parents, fun x =>
        if x = bb then kept ++ todo else (ir.block x).children⟩ := by
    simp only [Ir.removeFromParents, Ir.setBlock, Ir.withGraph, Graph.dropEdge, Ir.graph,
      Ir.mk.injEq, and_true, true_and]
    funext x
    by_cases hx : x = child <;> by_cases hb : x = bb <;>
      simp_all [Function.update_apply, deletePtrListEntry_one]
  rw [he]
  refine h.withGraph (h.consistent.dropEdge.of_perm (fun x => List.Perm.refl _) (fun x => ?_))
    (fun b => ?_) (fun b hb _ => ?_)
  · by_cases hx : x = bb
    · subst hx
      simpa [Graph.dropEdge, Ir.graph, hc] using hperm
    · simp [Graph.dropEdge, Ir.graph, hx]
  · intro x hx
    by_cases hb : b = bb
    · subst hb
      rw [hc]
      simp only [if_true, List.mem_append, List.mem_cons] at hx ⊢
      tauto
    · simpa only [if_neg hb] using hx
  · have hb : b ≠ bb := hb
    simp [hb]

end FlowInvariant

namespace Ir

variable {ir : Ir} {bb child parent x : BlockId}

/-- What `remove_parent` does to a block it does not kill. -/
theorem removeParent_block (hc : (ir.removeFromParents child parent 1).graph.Consistent)
    (hx : ((ir.removeParent child parent).block x).killed = false) :
    (ir.block x).killed = false ∧
      ((ir.removeParent child parent).block x).insns = (ir.block x).insns ∧
      ((ir.removeParent child parent).block x).children = (ir.block x).children := by
  have hsame : ∀ y, ((ir.removeFromParents child parent 1).block y).killed = (ir.block y).killed ∧
      ((ir.removeFromParents child parent 1).block y).insns = (ir.block y).insns ∧
      ((ir.removeFromParents child parent 1).block y).children = (ir.block y).children := by
    intro y
    by_cases hy : y = child
    · subst hy; simp [removeFromParents]
    · simp [removeFromParents, hy]
  unfold removeParent at hx ⊢
  dsimp only at hx ⊢
  split at hx
  next hp =>
    rw [if_pos hp]
    have hne : x ≠ child := by
      rintro rfl
      simp [killBb_block_self hc] at hx
    rw [killBb_block_of_ne hc hne] at hx ⊢
    obtain ⟨h1, h2, h3⟩ := hsame x
    refine ⟨h1 ▸ hx, h2, ?_⟩
    rw [← h3]
    refine List.filter_eq_self.mpr (fun y hy => ?_)
    have : y ≠ child := by
      rintro rfl
      have hm := hc.mem_iff.mpr hy
      simp [graph, hp] at hm
    simpa using this
  next hp =>
    rw [if_neg hp]
    obtain ⟨h1, h2, h3⟩ := hsame x
    exact ⟨h1 ▸ hx, h2, h3⟩

theorem removeParent_flow (hc : (ir.removeFromParents child parent 1).graph.Consistent)
    (i : InsnId) : ((ir.removeParent child parent).insn i).flow = (ir.insn i).flow := by
  unfold removeParent
  dsimp only
  split
  · exact killBb_flow hc child i
  · rfl

theorem removeFromParents_of_notMem (h : parent ∉ (ir.block child).parents) :
    ir.removeFromParents child parent 1 = ir := by
  have he : deletePtrListEntry (ir.block child).parents parent 1 = (ir.block child).parents := by
    rw [deletePtrListEntry_one, List.erase_of_not_mem h]
  simp only [removeFromParents, setBlock, he]
  rw [Function.update_eq_self]

end Ir

/-- The entries that the loop of `insert_branch` keeps: the first one equal to `target`. -/
def takenChildren : Option BlockId → List BlockId → List BlockId
  | none, _ => []
  | some target, children => if target ∈ children then [target] else []

@[simp] theorem takenChildren_nil (target : Option BlockId) : takenChildren target [] = [] := by
  cases target <;> rfl

@[simp] theorem takenChildren_none (children : List BlockId) : takenChildren none children = [] :=
  rfl

theorem takenChildren_cons_self (child : BlockId) (todo : List BlockId) :
    takenChildren (some child) (child :: todo) = [child] := if_pos List.mem_cons_self

theorem takenChildren_cons_of_ne {target : Option BlockId} {child : BlockId}
    (ht : target ≠ some child) (todo : List BlockId) :
    takenChildren target (child :: todo) = takenChildren target todo := by
  cases target with
  | none => rfl
  | some t =>
    have hne : t ≠ child := fun he => ht (congrArg some he)
    simp [takenChildren, hne]

namespace FlowInvariant

variable {ir : Ir} {bb : BlockId}

/-- The loop of `insert_branch`, from any point of its run. -/
theorem dropChildren (h : FlowInvariant {bb} ir) (kept todo : List BlockId)
    (target : Option BlockId)
    (hc : (ir.block bb).killed = false → (ir.block bb).children = kept ++ todo) :
    FlowInvariant {bb} (Ir.dropChildren bb kept todo target ir) ∧
      (∀ i, ((Ir.dropChildren bb kept todo target ir).insn i).flow = (ir.insn i).flow) ∧
      (((Ir.dropChildren bb kept todo target ir).block bb).killed = false →
        (ir.block bb).killed = false ∧
        ((Ir.dropChildren bb kept todo target ir).block bb).insns = (ir.block bb).insns ∧
        ((Ir.dropChildren bb kept todo target ir).block bb).children =
          kept ++ takenChildren target todo) := by
  induction todo generalizing ir kept target with
  | nil =>
    refine ⟨h, fun _ => rfl, fun hk => ⟨hk, rfl, ?_⟩⟩
    rw [takenChildren_nil]
    exact hc hk
  | cons child todo ih =>
    unfold Ir.dropChildren
    by_cases ht : target = some child
    · rw [if_pos ht]
      obtain ⟨h1, h2, h3⟩ := ih h (kept ++ [child]) none (fun hk => by simp [hc hk])
      refine ⟨h1, h2, fun hk => ⟨(h3 hk).1, (h3 hk).2.1, ?_⟩⟩
      rw [(h3 hk).2.2, ht, takenChildren_cons_self]
      simp
    · rw [if_neg ht]
      rw [takenChildren_cons_of_ne ht]
      by_cases hk : (ir.block bb).killed = true
      · -- The block was killed on the way: its edges are gone from both sides.
        have hno : bb ∉ (ir.block child).parents := fun hm => by
          have hm := h.mem_parents_iff.mp hm
          rw [(h.killed bb hk).2.1] at hm
          exact absurd hm List.not_mem_nil
        have hd : FlowInvariant {bb} (ir.removeFromParents child bb 1) := by
          rwa [Ir.removeFromParents_of_notMem hno]
        have hkeep : ((ir.removeParent child bb).block bb).killed = true := by
          by_contra hf
          have := (Ir.removeParent_block hd.consistent (by simpa using hf)).1
          simp [hk] at this
        obtain ⟨h1, h2, h3⟩ := ih hd.removeParent kept target
          (fun hf => by simp [hkeep] at hf)
        simp only [hk, if_true]
        refine ⟨h1, fun i => (h2 i).trans (Ir.removeParent_flow hd.consistent i), fun hf => ?_⟩
        have := (h3 hf).1
        simp [hkeep] at this
      · rw [Bool.not_eq_true] at hk
        have hd := h.dropChild hk (hc hk)
        have hflow := Ir.removeParent_flow hd.consistent
        have hblock := fun x => Ir.removeParent_block (x := x) hd.consistent
        obtain ⟨h1, h2, h3⟩ := ih hd.removeParent kept target (fun hf => by
          have := (hblock bb hf).2.2
          simpa using this)
        simp only [hk, Bool.false_eq_true, if_false]
        refine ⟨h1, fun i => (h2 i).trans (hflow i), fun hf => ⟨trivial, ?_, (h3 hf).2.2⟩⟩
        rw [(h3 hf).2.1, (hblock bb (h3 hf).1).2.1]
        simp

/-- Nothing is suspended any more once the children of the loose blocks are the successors. -/
theorem check {L : Set BlockId} (h : FlowInvariant L ir)
    (hL : ∀ b ∈ L, (ir.block b).killed = false →
      (ir.block b).children.Perm (ir.successors b)) : FlowInvariant ∅ ir :=
  { h with
    named := fun b _ hk => by
      by_cases hb : b ∈ L
      · exact List.perm_iff_count.mp (hL b hb hk)
      · exact h.named b hb hk }

end FlowInvariant

namespace FlowInvariant

variable {ir : Ir} {bb : BlockId} {jmp : InsnId}

/-- Replacing the terminator suspends only the block at hand. -/
theorem replaceTerminator (h : FlowInvariant ∅ ir) (hl : ir.lastInstruction bb = some jmp)
    (target : Option BlockId) :
    FlowInvariant {bb} ((ir.deleteLastInstruction bb).appendBranch bb target) := by
  set ir' := (ir.deleteLastInstruction bb).appendBranch bb target with hir
  have hold : ∀ b, ∀ i ∈ (ir.block b).insns, ir'.insn i = ir.insn i := by
    intro b i hi
    have hne : i ≠ ir.nextInsn := Nat.ne_of_lt (h.allocated b i hi)
    simp [hir, Ir.appendBranch, Ir.deleteLastInstruction, hne]
  have hne : ∀ b ≠ bb, ir'.block b = ir.block b := fun b hb => by
    simp [hir, Ir.appendBranch, Ir.deleteLastInstruction, hb]
  have hself : ir'.block bb =
      { ir.block bb with insns := (ir.block bb).insns.dropLast ++ [ir.nextInsn] } := by
    simp [hir, Ir.appendBranch, Ir.deleteLastInstruction]
  have hlive : (ir.block bb).killed = false := by
    by_contra hk
    have hm := Ir.lastInstruction_mem hl
    simp [(h.killed bb (by simpa using hk)).2.2] at hm
  have hgraph : ∀ b, (ir'.block b).parents = (ir.block b).parents ∧
      (ir'.block b).children = (ir.block b).children ∧
      (ir'.block b).killed = (ir.block b).killed ∧
      (ir'.block b).generation = (ir.block b).generation := by
    intro b
    by_cases hb : b = bb
    · subst hb; simp [hself]
    · simp [hne b hb]
  have hmem : ∀ b, ∀ i ∈ (ir'.block b).insns,
      i ∈ (ir.block b).insns ∨ (b = bb ∧ i = ir.nextInsn) := by
    intro b i hi
    by_cases hb : b = bb
    · subst hb
      rw [hself, List.mem_append] at hi
      rcases hi with hi | hi
      · exact Or.inl (List.dropLast_subset _ hi)
      · exact Or.inr ⟨rfl, List.mem_singleton.mp hi⟩
    · exact Or.inl (by simpa [hne b hb] using hi)
  refine ⟨?_, ?_, ?_, ?_, ?_, ?_, ?_, ?_, ?_⟩
  · intro p c
    simp only [Ir.graph, (hgraph c).1, (hgraph p).2.1]
    exact h.consistent p c
  · intro b hb hk c
    have hb : b ≠ bb := hb
    rw [Ir.successors_congr ir (by rw [hne b hb])
      (fun i hi => congrArg Instruction.flow (hold b i hi)), hne b hb]
    exact h.named b (Set.notMem_empty b) (by rwa [hne b hb] at hk) c
  · intro b hk
    have hb : b ≠ bb := by
      rintro rfl
      rw [(hgraph b).2.2.1] at hk
      simp [hk] at hlive
    rw [hne b hb] at hk ⊢
    exact h.killed b hk
  · intro b b' i hi hi'
    rcases hmem b i hi with hi | ⟨hb, he⟩ <;> rcases hmem b' i hi' with hi' | ⟨hb', he'⟩
    · exact h.owner b b' i hi hi'
    · exact absurd he' (Nat.ne_of_lt (h.allocated b i hi))
    · exact absurd he (Nat.ne_of_lt (h.allocated b' i hi'))
    · exact hb.trans hb'.symm
  · intro b i hi
    by_cases hb : b = bb
    · subst hb
      rw [hself] at hi
      simp only [List.dropLast_concat] at hi
      rw [hold b i (List.dropLast_subset _ hi)]
      exact h.jumpLast b i hi
    · rw [hne b hb] at hi
      rw [hold b i (List.dropLast_subset _ hi)]
      exact h.jumpLast b i hi
  · intro b i hi
    have hn : ir'.nextInsn = ir.nextInsn + 1 := rfl
    rw [hn, Nat.lt_succ_iff]
    rcases hmem b i hi with hi | ⟨-, he⟩
    · exact Nat.le_of_lt (h.allocated b i hi)
    · exact Nat.le_of_eq he
  · intro b hc
    rw [(hgraph b).2.1] at hc
    exact h.listed b hc
  · intro b c hc
    rw [(hgraph b).2.1] at hc
    exact h.bounded b c hc
  · intro b
    rw [(hgraph b).2.2.2]
    exact h.generation b

theorem insertBranch (h : FlowInvariant ∅ ir) (hl : ir.lastInstruction bb = some jmp)
    {target : Option BlockId} (ht : ∀ t, target = some t → t ∈ (ir.block bb).children) :
    FlowInvariant ∅ (ir.insertBranch bb target) := by
  have h0 := h.replaceTerminator hl target
  have hchild : (((ir.deleteLastInstruction bb).appendBranch bb target).block bb).children =
      (ir.block bb).children := by
    simp [Ir.appendBranch, Ir.deleteLastInstruction]
  have hinsns : (((ir.deleteLastInstruction bb).appendBranch bb target).block bb).insns =
      (ir.block bb).insns.dropLast ++ [ir.nextInsn] := by
    simp [Ir.appendBranch, Ir.deleteLastInstruction]
  have hnew : ((ir.deleteLastInstruction bb).appendBranch bb target).insn ir.nextInsn =
      { opcode := .br, bb := some bb, bbTrue := target } := by
    simp [Ir.appendBranch, Ir.deleteLastInstruction]
  obtain ⟨h1, h2, h3⟩ := h0.dropChildren [] (ir.block bb).children target
    (fun _ => hchild)
  have hrun : Ir.dropChildren bb [] (ir.block bb).children target
      ((ir.deleteLastInstruction bb).appendBranch bb target) = ir.insertBranch bb target := by
    simp only [Ir.insertBranch, hchild]
  simp only [hrun] at h1 h2 h3
  refine h1.check (fun b hb hk => ?_)
  have hb : b = bb := hb
  subst hb
  obtain ⟨-, hi, hc⟩ := h3 hk
  have hlast : (ir.insertBranch b target).lastInstruction b = some ir.nextInsn := by
    rw [Ir.lastInstruction, hi, hinsns, List.getLast?_concat]
  rw [successors_eq hlast, Instruction.successors_of_flow (h2 ir.nextInsn), hnew, hc]
  cases target with
  | none => simp [Instruction.successors]
  | some t => simp [Instruction.successors, takenChildren, ht t rfl]

end FlowInvariant

end Sparse
