import Sparse.FlowGraphReachability

/-!
# Merging blocks

`pack_basic_blocks` lets the parents of a block that only branches go straight to its
target, and hands the instructions of a block over to its only parent when the block is
the parent's only child.
-/

namespace Sparse

open AdjacencyLists

namespace Ir

variable {ir : Ir} {bb parent : BlockId}

private theorem foldl_replaceParents (hne : parent ≠ bb) (cs : List BlockId) (ir : Ir) :
    cs.foldl (fun ir child => ir.setBlock child
        (fun b => { b with parents := replacePtrListEntry b.parents bb parent 0 })) ir =
      ir.withGraph ⟨fun x => if x ∈ cs then
          (ir.block x).parents.map (fun y => if y = bb then parent else y)
        else (ir.block x).parents, fun x => (ir.block x).children⟩ := by
  induction cs generalizing ir with
  | nil => simp [withGraph]
  | cons c cs ih =>
    rw [List.foldl_cons, ih]
    simp only [setBlock, withGraph, Ir.mk.injEq, and_true, true_and]
    funext x
    by_cases hx : x = c
    · subst hx
      by_cases hm : x ∈ cs
      · have hid : ∀ y, (if (if y = bb then parent else y) = bb then parent
            else if y = bb then parent else y) = if y = bb then parent else y := by
          intro y
          by_cases hy : y = bb <;> simp [hy, hne]
        simp [hm, replacePtrListEntry_zero, Function.comp_def, hid]
      · simp [hm, replacePtrListEntry_zero]
    · by_cases hm : x ∈ cs <;> simp [hx, hm]

/-- The edges after the merge are those in which the parent has absorbed the block. -/
theorem mergeIntoParent_edges (h : ir.graph.Consistent) (hne : parent ≠ bb)
    (hp : ∀ x ∈ (ir.block bb).parents, x = parent) :
    ((ir.block bb).children.foldl (fun ir child => ir.setBlock child
        (fun b => { b with parents := replacePtrListEntry b.parents bb parent 0 }))
      ((ir.setBlock parent ({ · with children := (ir.block bb).children })).setBlock bb
        ({ · with children := [], parents := [] }))) =
      ir.withGraph (ir.graph.absorb bb parent) := by
  rw [foldl_replaceParents hne]
  simp only [setBlock, withGraph, Graph.absorb, graph, Ir.mk.injEq, and_true, true_and]
  funext x
  by_cases hx : x = bb
  · subst hx
    simp [hne.symm]
  · have hmap : x ∉ (ir.block bb).children → (ir.block x).parents.map
        (fun y => if y = bb then parent else y) = (ir.block x).parents := by
      intro hc
      conv_rhs => rw [← List.map_id (ir.block x).parents]
      refine List.map_congr_left (fun y hy => if_neg ?_)
      rintro rfl
      exact hc (h.mem_iff.mp hy)
    by_cases hxp : x = parent
    · subst hxp
      by_cases hm : x ∈ (ir.block bb).children
      · simp [hx, hm]
      · simp [hx, hm, hmap hm]
    · by_cases hm : x ∈ (ir.block bb).children
      · simp [hx, hm, hxp]
      · simp [hx, hm, hxp, hmap hm]

private theorem foldl_moveInsns (parent : BlockId) (is : List InsnId) (ir : Ir) :
    SameFlow ir (is.foldl (fun ir i =>
      if (ir.insn i).bb = none then ir else ir.setInsn i ({ · with bb := some parent })) ir) := by
  induction is generalizing ir with
  | nil => exact SameFlow.refl ir
  | cons i is ih =>
    rw [List.foldl_cons]
    refine SameFlow.trans ?_ (ih _)
    split
    · exact SameFlow.refl ir
    · exact SameFlow.setInsn ir i _ (fun _ => rfl)

/-- The instructions of `bb` are appended to those of `parent`. -/
def concatInsns (bb parent : BlockId) (ir : Ir) : Ir :=
  (ir.setBlock parent (fun b => { b with insns := b.insns ++ (ir.block bb).insns })).setBlock bb
    ({ · with insns := [] })

theorem sameFlow_moveInsns {ir' : Ir} (h : SameFlow ir ir') (bb parent : BlockId) :
    SameFlow (ir.concatInsns bb parent) (ir'.moveInsns bb parent) := by
  have hs := h.trans (foldl_moveInsns parent (ir'.block bb).insns ir')
  unfold moveInsns concatInsns
  dsimp only
  generalize (ir'.block bb).insns.foldl _ ir' = ir1 at hs ⊢
  refine ⟨?_, hs.bbs, hs.entry, hs.nextInsn, hs.nextBlock, hs.bbGeneration, hs.flow⟩
  simp only [setBlock_block, hs.block, h.block]

theorem sameFlow_mergeIntoParent (h : ir.graph.Consistent) (hne : parent ≠ bb)
    (hp : ∀ x ∈ (ir.block bb).parents, x = parent) :
    SameFlow (((ir.withGraph (ir.graph.absorb bb parent)).deleteLastInstruction
      parent).concatInsns bb parent) (ir.mergeIntoParent bb parent) := by
  unfold mergeIntoParent
  simp only [mergeIntoParent_edges h hne hp]
  refine sameFlow_moveInsns ?_ bb parent
  split
  · exact SameFlow.killInstruction _ _
  · exact SameFlow.refl _

end Ir

namespace FlowInvariant

variable {ir : Ir} {bb parent : BlockId}

theorem mergeIntoParent (h : FlowInvariant ∅ ir) (hne : parent ≠ bb)
    (hp : ∀ x ∈ (ir.block bb).parents, x = parent) (hpar : parent ∈ (ir.block bb).parents)
    (hc : ∀ x ∈ (ir.block parent).children, x = bb) :
    FlowInvariant ∅ (ir.mergeIntoParent bb parent) := by
  refine FlowInvariant.sameFlow ?_ (Ir.sameFlow_mergeIntoParent h.consistent hne hp)
  set ir' := ((ir.withGraph (ir.graph.absorb bb parent)).deleteLastInstruction parent).concatInsns
    bb parent with hir
  have hchild : bb ∈ (ir.block parent).children := h.mem_parents_iff.mp hpar
  obtain ⟨hlivep, hliveb⟩ := h.live_of_mem_children hchild
  have hself : ir'.block bb =
      { ir.block bb with parents := [], children := [], insns := [] } := by
    simp [hir, Ir.concatInsns, Ir.deleteLastInstruction, Ir.withGraph, Graph.absorb, hne.symm]
  have hparent : ir'.block parent = { ir.block parent with
      parents := (ir.block parent).parents.map (fun y => if y = bb then parent else y)
      children := (ir.block bb).children
      insns := (ir.block parent).insns.dropLast ++ (ir.block bb).insns } := by
    simp [hir, Ir.concatInsns, Ir.deleteLastInstruction, Ir.withGraph, Graph.absorb, Ir.graph, hne,
      hne.symm]
  have hother : ∀ x, x ≠ bb → x ≠ parent → ir'.block x = { ir.block x with
      parents := (ir.block x).parents.map (fun y => if y = bb then parent else y) } := by
    intro x hxb hxp
    simp [hir, Ir.concatInsns, Ir.deleteLastInstruction, Ir.withGraph, Graph.absorb, Ir.graph, hxb,
      hxp]
  have hinsn : ir'.insn = ir.insn := rfl
  -- Every instruction of the result lay in the block, or in `bb` when it lies in `parent` now.
  have hmem : ∀ x, ∀ i ∈ (ir'.block x).insns,
      (x ≠ bb ∧ i ∈ (ir.block x).insns) ∨ (x = parent ∧ i ∈ (ir.block bb).insns) := by
    intro x i hi
    by_cases hxb : x = bb
    · subst hxb
      simp [hself] at hi
    · by_cases hxp : x = parent
      · subst hxp
        rw [hparent, List.mem_append] at hi
        rcases hi with hi | hi
        · exact Or.inl ⟨hxb, List.dropLast_subset _ hi⟩
        · exact Or.inr ⟨rfl, hi⟩
      · exact Or.inl ⟨hxb, by simpa [hother x hxb hxp] using hi⟩
  have hchildren : ∀ x, (ir'.block x).children =
      if x = bb then [] else if x = parent then (ir.block bb).children
      else (ir.block x).children := by
    intro x
    split_ifs with hxb hxp
    · rw [hxb, hself]
    · rw [hxp, hparent]
    · rw [hother x hxb hxp]
  have hlast : ir'.successors parent = ir.successors bb := by
    unfold Ir.successors Ir.lastInstruction
    rw [hparent, hinsn]
    dsimp only
    cases hb : (ir.block bb).insns.getLast? with
    | some i => rw [List.getLast?_append, hb, Option.some_or]
    | none =>
      -- With no instruction of `bb` to end it, the parent ends in one that is no jump.
      rw [List.getLast?_append, hb, Option.none_or]
      cases hd : (ir.block parent).insns.dropLast.getLast? with
      | none => rfl
      | some i =>
        have hj := h.jumpLast parent i (List.mem_of_getLast? hd)
        revert hj
        cases hop : (ir.insn i).opcode <;> simp [Instruction.successors, hop, Opcode.isJump]
  refine ⟨?_, ?_, ?_, ?_, ?_, ?_, ?_, ?_, ?_⟩
  · refine (h.consistent.absorb hne hp hc).of_perm (fun x => ?_) (fun x => ?_) <;>
    · by_cases hxb : x = bb
      · subst hxb; simp [Ir.graph, Graph.absorb, hself]
      · by_cases hxp : x = parent
        · subst hxp; simp [Ir.graph, Graph.absorb, hparent, hxb]
        · simp [Ir.graph, Graph.absorb, hother x hxb hxp, hxb, hxp]
  · intro b _ hk c
    by_cases hbb : b = bb
    · subst hbb
      simp [hself, Ir.successors, Ir.lastInstruction]
    · by_cases hbp : b = parent
      · subst hbp
        rw [hlast, hparent]
        exact h.named bb (Set.notMem_empty bb) hliveb c
      · rw [Ir.successors_congr ir (by rw [hother b hbb hbp]) (fun i _ => by rw [hinsn]),
          hother b hbb hbp]
        exact h.named b (Set.notMem_empty b) (by simpa [hother b hbb hbp] using hk) c
  · intro b hk
    have hbb : b ≠ bb := by
      rintro rfl
      simp [hself, hliveb] at hk
    have hbp : b ≠ parent := by
      rintro rfl
      simp [hparent, hlivep] at hk
    rw [hother b hbb hbp] at hk ⊢
    obtain ⟨h1, h2, h3⟩ := h.killed b hk
    simp [h1, h2, h3]
  · intro b b' i hi hi'
    rcases hmem b i hi with ⟨hb, hm⟩ | ⟨hb, hm⟩ <;> rcases hmem b' i hi' with ⟨hb', hm'⟩ | ⟨hb', hm'⟩
    · exact h.owner b b' i hm hm'
    · exact absurd (h.owner b bb i hm hm') hb
    · exact absurd (h.owner b' bb i hm' hm) hb'
    · exact hb.trans hb'.symm
  · intro b i hi
    rw [hinsn]
    by_cases hbb : b = bb
    · subst hbb
      simp [hself] at hi
    · by_cases hbp : b = parent
      · subst hbp
        rw [hparent] at hi
        dsimp only at hi
        rw [List.dropLast_append] at hi
        split at hi
        · exact h.jumpLast b i (List.dropLast_subset _ hi)
        · rcases List.mem_append.mp hi with hi | hi
          · exact h.jumpLast b i hi
          · exact h.jumpLast bb i hi
      · exact h.jumpLast b i (by simpa [hother b hbb hbp] using hi)
  · intro b i hi
    rcases hmem b i hi with ⟨-, hi⟩ | ⟨-, hi⟩
    · exact h.allocated b i hi
    · exact h.allocated bb i hi
  · intro b hb
    rw [hchildren] at hb
    split_ifs at hb with hbb hbp
    · exact absurd rfl hb
    · subst hbp
      exact h.listed b (List.ne_nil_of_mem hchild)
    · exact h.listed b hb
  · intro b c hcm
    rw [hchildren] at hcm
    split_ifs at hcm with hbb hbp
    · exact absurd hcm List.not_mem_nil
    · exact h.bounded bb c hcm
    · exact h.bounded b c hcm
  · intro b
    have hg : (ir'.block b).generation = (ir.block b).generation := by
      by_cases hbb : b = bb
      · subst hbb; rw [hself]
      · by_cases hbp : b = parent
        · subst hbp; rw [hparent]
        · rw [hother b hbb hbp]
    rw [hg]
    exact h.generation b

theorem onlyParent_spec (hp : ir.onlyParent bb = some parent) :
    parent ∈ (ir.block bb).parents ∧ ∀ x ∈ (ir.block bb).parents, x = parent := by
  unfold Ir.onlyParent at hp
  split at hp
  next => simp at hp
  next p rest hl =>
    split_ifs at hp with hall
    obtain rfl := Option.some.inj hp
    rw [hl]
    refine ⟨List.mem_cons_self, fun x hx => ?_⟩
    rcases List.mem_cons.mp hx with rfl | hx
    · rfl
    · exact of_decide_eq_true (List.all_eq_true.mp hall x hx)

theorem packIntoParent (h : FlowInvariant ∅ ir) (bb : BlockId) :
    FlowInvariant ∅ (ir.packIntoParent bb) := by
  unfold Ir.packIntoParent
  split
  next => exact h
  next parent hp =>
    obtain ⟨hmem, hall⟩ := onlyParent_spec hp
    split_ifs with he hc
    · exact h
    · exact h.mergeIntoParent he hall hmem
        (fun x hx => of_decide_eq_true (List.all_eq_true.mp hc x hx))
    · exact h

theorem mem_of_firstActive {is : List InsnId} {i : InsnId} (hi : ir.firstActive is = some i) :
    i ∈ is := by
  induction is with
  | nil => simp [Ir.firstActive] at hi
  | cons j is ih =>
    unfold Ir.firstActive at hi
    split_ifs at hi
    · exact List.mem_cons_of_mem j (ih hi)
    · split at hi
      · exact List.mem_cons_of_mem j (ih hi)
      · exact List.mem_cons_of_mem j (ih hi)
      · exact List.mem_cons_of_mem j (ih hi)
      · exact Option.some.inj hi ▸ List.mem_cons_self

/-- A jump in the list of a block is its last instruction. -/
theorem lastInstruction_of_isJump (h : FlowInvariant ∅ ir) {i : InsnId}
    (hi : i ∈ (ir.block bb).insns) (hj : (ir.insn i).opcode.isJump = true) :
    ir.lastInstruction bb = some i := by
  have hne := List.ne_nil_of_mem hi
  rw [← List.dropLast_append_getLast hne, List.mem_append, List.mem_singleton] at hi
  rcases hi with hi | hi
  · have := h.jumpLast bb i hi
    simp [hj] at this
  · rw [Ir.lastInstruction, List.getLast?_eq_some_getLast hne, hi]

theorem packBasicBlock (h : FlowInvariant ∅ ir) (bb : BlockId) :
    FlowInvariant ∅ (ir.packBasicBlock bb) := by
  unfold Ir.packBasicBlock
  split
  next => exact h.packIntoParent bb
  next first hf =>
    split
    next hop =>
      have hl := h.lastInstruction_of_isJump (mem_of_firstActive hf) (by rw [hop]; rfl)
      obtain ⟨h1, -, h2⟩ := h.rewriteBranchBb hl hop
      split
      next ir' t hr =>
        rw [hr] at h1 h2
        have hp : (ir'.block bb).parents = [] := h2 t rfl
        exact h1.killBb (by simp [hp])
      next ir' hr =>
        rw [hr] at h1
        exact h1.packIntoParent bb
    next => exact h.packIntoParent bb

theorem packBasicBlocks (h : FlowInvariant ∅ ir) : FlowInvariant ∅ ir.packBasicBlocks := by
  unfold Ir.packBasicBlocks
  generalize ir.bbs = bbs
  induction bbs generalizing ir with
  | nil => exact h
  | cons bb bbs ih => exact ih (h.packBasicBlock bb)

end FlowInvariant

end Sparse
