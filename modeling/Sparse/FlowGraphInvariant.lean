import Sparse.AdjacencyLists
import Sparse.FlowGraph
import Mathlib.Data.Set.Basic
import Mathlib.Data.List.Perm.Basic
import Mathlib.Logic.Relation

/-!
# The edges of the flow graph

Every edge is stored in the parents of its head and in the children of its tail,
and the children of a block are the successors its last instruction names. The
operations of the optimiser break the second half for the block they work on, so
the invariant carries the set of blocks for which it is suspended.
-/

namespace Sparse

open AdjacencyLists

/-- The edge lists of all blocks. -/
def Ir.graph (ir : Ir) : Graph BlockId where
  parents b := (ir.block b).parents
  children b := (ir.block b).children

/-- Replace the edge lists of all blocks. -/
def Ir.withGraph (ir : Ir) (g : Graph BlockId) : Ir :=
  { ir with
    block := fun b => { ir.block b with parents := g.parents b, children := g.children b } }

/-- The edge invariant, with the successors of the blocks in `loose` not checked. -/
structure FlowInvariant (loose : Set BlockId) (ir : Ir) : Prop where
  consistent : ir.graph.Consistent
  named : ∀ b ∉ loose, (ir.block b).killed = false →
    ∀ c, (ir.block b).children.count c = (ir.successors b).count c
  killed : ∀ b, (ir.block b).killed = true →
    (ir.block b).parents = [] ∧ (ir.block b).children = [] ∧ (ir.block b).insns = []
  owner : ∀ b b' i, i ∈ (ir.block b).insns → i ∈ (ir.block b').insns → b = b'
  jumpLast : ∀ b, ∀ i ∈ (ir.block b).insns.dropLast, (ir.insn i).opcode.isJump = false
  allocated : ∀ b, ∀ i ∈ (ir.block b).insns, i < ir.nextInsn
  listed : ∀ b, (ir.block b).children ≠ [] → b ∈ ir.bbs
  bounded : ∀ b, ∀ c ∈ (ir.block b).children, c < ir.nextBlock
  generation : ∀ b, (ir.block b).generation ≤ ir.bbGeneration

theorem Instruction.successors_of_flow {x y : Instruction} (h : x.flow = y.flow) :
    x.successors = y.successors := by
  simp only [Instruction.flow, Prod.mk.injEq] at h
  obtain ⟨ho, ht, hf, hm⟩ := h
  simp only [Instruction.successors, ho, ht, hf, hm]

theorem Instruction.opcode_of_flow {x y : Instruction} (h : x.flow = y.flow) :
    x.opcode = y.opcode := congrArg Prod.fst h

/-- The successors of a block depend only on its list and on what its instructions name. -/
theorem Ir.successors_congr {ir' : Ir} (ir : Ir) {b : BlockId}
    (hb : (ir'.block b).insns = (ir.block b).insns)
    (hf : ∀ i ∈ (ir.block b).insns, (ir'.insn i).flow = (ir.insn i).flow) :
    ir'.successors b = ir.successors b := by
  simp only [Ir.successors, Ir.lastInstruction, hb]
  cases hl : (ir.block b).insns.getLast? with
  | none => rfl
  | some i => exact Instruction.successors_of_flow (hf i (List.mem_of_getLast? hl))

namespace FlowInvariant

variable {L : Set BlockId} {ir ir' : Ir}

theorem sameFlow (h : FlowInvariant L ir) (hs : SameFlow ir ir') : FlowInvariant L ir' where
  consistent := by simpa only [Ir.graph, hs.block] using h.consistent
  named b hb hk c := by
    rw [Ir.successors_congr _ (by rw [hs.block]) (fun i _ => hs.flow i)]
    simpa only [hs.block] using h.named b hb (by simpa only [hs.block] using hk) c
  killed := by simpa only [hs.block] using h.killed
  owner := by simpa only [hs.block] using h.owner
  jumpLast b i hi := by
    rw [Instruction.opcode_of_flow (hs.flow i)]
    exact h.jumpLast b i (by simpa only [hs.block] using hi)
  allocated := by simpa only [hs.block, hs.nextInsn] using h.allocated
  listed := by simpa only [hs.block, hs.bbs] using h.listed
  bounded := by simpa only [hs.block, hs.nextBlock] using h.bounded
  generation := by simpa only [hs.block, hs.bbGeneration] using h.generation

theorem mono {L' : Set BlockId} (h : FlowInvariant L ir) (hL : L ⊆ L') : FlowInvariant L' ir :=
  { h with named := fun b hb => h.named b (fun hm => hb (hL hm)) }

theorem mem_parents_iff (h : FlowInvariant L ir) {p c : BlockId} :
    p ∈ (ir.block c).parents ↔ c ∈ (ir.block p).children :=
  h.consistent.mem_iff

theorem live_of_mem_children (h : FlowInvariant L ir) {p c : BlockId}
    (hc : c ∈ (ir.block p).children) :
    (ir.block p).killed = false ∧ (ir.block c).killed = false := by
  constructor
  · by_contra hk
    have := (h.killed p (by simpa using hk)).2.1
    simp [this] at hc
  · by_contra hk
    have hp := (h.killed c (by simpa using hk)).1
    have hm := h.mem_parents_iff.mpr hc
    simp [hp] at hm

/-- In a checked block the children are the successors up to order. -/
theorem perm (h : FlowInvariant L ir) {b : BlockId} (hb : b ∉ L)
    (hk : (ir.block b).killed = false) : (ir.block b).children.Perm (ir.successors b) :=
  List.perm_iff_count.mpr (h.named b hb hk)

end FlowInvariant

/-- A branch slot that the terminator of the given opcode has. -/
def BranchSlot.MemOf : BranchSlot → Opcode → Prop
  | .bbTrue, op | .bbFalse, op => op = .br
  | .jump _, op => op = .switch

theorem Instruction.mem_successors_of_branch {insn : Instruction} {ptr : BranchSlot} {b : BlockId}
    (hm : ptr.MemOf insn.opcode) (hb : insn.branch ptr = some b) : b ∈ insn.successors := by
  cases ptr with
  | bbTrue | bbFalse =>
    simp only [BranchSlot.MemOf] at hm
    simp only [Instruction.branch] at hb
    simp [Instruction.successors, hm, hb]
  | jump n =>
    simp only [BranchSlot.MemOf] at hm
    simp only [Instruction.branch, Option.map_eq_some_iff] at hb
    obtain ⟨jmp, hj, rfl⟩ := hb
    simp only [Instruction.successors, hm, List.mem_map]
    exact ⟨jmp, List.mem_of_getElem? hj, rfl⟩

/-- Assigning to a branch slot exchanges one successor. -/
theorem Instruction.count_successors_setBranch {insn : Instruction} {ptr : BranchSlot} {old new : BlockId}
    (hm : ptr.MemOf insn.opcode) (ho : insn.branch ptr = some old) (c : BlockId) :
    (insn.setBranch new ptr).successors.count c =
      insn.successors.count c + (if c = new then 1 else 0) - if c = old then 1 else 0 := by
  cases ptr with
  | bbTrue | bbFalse =>
    simp only [BranchSlot.MemOf] at hm
    simp only [Instruction.branch] at ho
    simp only [Instruction.successors, Instruction.setBranch, hm, ho, Option.toList_some,
      List.count_append, List.count_singleton, beq_iff_eq, eq_comm (b := c)]
    omega
  | jump n =>
    simp only [BranchSlot.MemOf] at hm
    simp only [Instruction.branch, Option.map_eq_some_iff] at ho
    obtain ⟨jmp, hj, rfl⟩ := ho
    obtain ⟨hn, hj⟩ := List.getElem?_eq_some_iff.mp hj
    have hs : (insn.multijmpList.modify n ({ · with target := new })).map Multijmp.target =
        (insn.multijmpList.map Multijmp.target).set n new := by
      apply List.ext_getElem (by simp)
      intro k hk hk'
      simp only [List.getElem_map, List.getElem_modify, List.getElem_set]
      split <;> rfl
    simp only [Instruction.successors, Instruction.setBranch, hm, hs]
    rw [List.count_set (by simpa using hn)]
    have hlt : n < (insn.multijmpList.map Multijmp.target).length := by simpa using hn
    have hp : (insn.multijmpList.map Multijmp.target)[n] = jmp.target := by
      simp [hj]
    have hc : jmp.target ∈ insn.multijmpList.map Multijmp.target := hp ▸ List.getElem_mem _
    simp only [hp, beq_iff_eq, eq_comm (b := c)]
    by_cases h : c = jmp.target
    · have := List.count_pos_iff.mpr (h ▸ hc)
      simp only [h] at this ⊢
      simp only [if_true]
      omega
    · simp [h]

theorem Ir.rewriteBranch_eq (ir : Ir) (bb : BlockId) (br : InsnId) (ptr : BranchSlot)
    {old new : BlockId} (ho : (ir.insn br).branch ptr = some old) (hne : new ≠ old) :
    ir.rewriteBranch bb br ptr old new =
      ((ir.setInsn br (fun insn => insn.setBranch new ptr)).withGraph
        (ir.graph.redirect bb old new), true) := by
  have hc : ¬ ((ir.insn br).branch ptr ≠ some old ∨ new = old) := by simp [ho, hne]
  rw [Ir.rewriteBranch, if_neg hc]
  simp only [Ir.withGraph, Ir.setBlock, Ir.removeFromParents, Ir.setInsn, Ir.graph, Graph.redirect,
    Prod.mk.injEq, and_true, Ir.mk.injEq, true_and]
  funext x
  by_cases hb : x = bb <;> by_cases hx : x = old <;> by_cases hn : x = new <;>
    simp_all [Function.update_apply, deletePtrListEntry_one, replacePtrListEntry_one]

theorem mem_or_eq_of_mem_replace {xs : List BlockId} {old new c : BlockId}
    (h : c ∈ xs.replace old new) : c ∈ xs ∨ c = new := by
  induction xs with
  | nil => simp at h
  | cons x xs ih =>
    rw [List.replace_cons] at h
    split at h
    · rcases List.mem_cons.mp h with rfl | h
      · exact Or.inr rfl
      · exact Or.inl (List.mem_cons_of_mem x h)
    · rcases List.mem_cons.mp h with rfl | h
      · exact Or.inl List.mem_cons_self
      · exact (ih h).imp_left (List.mem_cons_of_mem x)

theorem Instruction.setBranch_opcode (insn : Instruction) (new : BlockId) (ptr : BranchSlot) :
    (insn.setBranch new ptr).opcode = insn.opcode := by cases ptr <;> rfl

theorem Ir.lastInstruction_mem {ir : Ir} {b : BlockId} {i : InsnId}
    (h : ir.lastInstruction b = some i) : i ∈ (ir.block b).insns :=
  List.mem_of_getLast? h

namespace FlowInvariant

variable {L : Set BlockId} {ir : Ir} {bb old new : BlockId} {br : InsnId} {ptr : BranchSlot}

theorem successors_eq (hl : ir.lastInstruction bb = some br) :
    ir.successors bb = (ir.insn br).successors := by
  simp only [Ir.successors, hl]

/-- Rewriting one instruction leaves the successors of all other blocks alone. -/
theorem successors_of_ne (h : FlowInvariant L ir) (hl : br ∈ (ir.block bb).insns) {b : BlockId}
    (hb : b ≠ bb) {ir' : Ir} (hi : (ir'.block b).insns = (ir.block b).insns)
    (hf : ∀ i ≠ br, (ir'.insn i).flow = (ir.insn i).flow) :
    ir'.successors b = ir.successors b := by
  refine Ir.successors_congr _ hi (fun i him => hf i ?_)
  rintro rfl
  exact hb (h.owner b bb i him hl)

theorem rewriteBranch (h : FlowInvariant L ir) (hbb : bb ∉ L)
    (hl : ir.lastInstruction bb = some br) (hm : ptr.MemOf (ir.insn br).opcode)
    (hk : (ir.block new).killed = false) (hn : new < ir.nextBlock) :
    FlowInvariant L (ir.rewriteBranch bb br ptr old new).1 := by
  by_cases hc : (ir.insn br).branch ptr ≠ some old ∨ new = old
  · rw [Ir.rewriteBranch, if_pos hc]
    exact h
  · obtain ⟨ho, hne⟩ := not_or.mp hc
    rw [not_not] at ho
    rw [Ir.rewriteBranch_eq ir bb br ptr ho hne]
    have hmem := Ir.lastInstruction_mem hl
    have hlive : (ir.block bb).killed = false := by
      by_contra hkb
      simp [(h.killed bb (by simpa using hkb)).2.2] at hmem
    have hcount : ∀ c, ((ir.insn br).setBranch new ptr).successors.count c =
        (ir.insn br).successors.count c + (if c = new then 1 else 0) - if c = old then 1 else 0 :=
      Instruction.count_successors_setBranch hm ho
    have hold : old ∈ (ir.block bb).children := by
      rw [(h.perm hbb hlive).mem_iff, successors_eq hl]
      exact Instruction.mem_successors_of_branch hm ho
    have hkold := (h.live_of_mem_children hold).2
    have hflow : ∀ i ≠ br, ((ir.setInsn br (fun insn => insn.setBranch new ptr)).insn i).flow =
        (ir.insn i).flow := fun i hi => by simp [hi]
    refine ⟨h.consistent.redirect (Ne.symm hne) hold, ?_, ?_, h.owner, ?_, h.allocated, ?_, ?_,
      h.generation⟩
    · intro b hb hkb c
      replace hkb : (ir.block b).killed = false := hkb
      by_cases hbe : b = bb
      · subst hbe
        have hs : ((ir.setInsn br (fun insn => insn.setBranch new ptr)).withGraph
            (ir.graph.redirect b old new)).successors b =
            ((ir.insn br).setBranch new ptr).successors := by
          have hl' : ((ir.setInsn br (fun insn => insn.setBranch new ptr)).withGraph
              (ir.graph.redirect b old new)).lastInstruction b = some br := hl
          rw [successors_eq hl']
          simp [Ir.withGraph]
        rw [hs, hcount c, ← successors_eq hl, ← h.named b hb hkb c]
        simp only [Ir.withGraph, Graph.redirect, Ir.graph, if_true]
        rw [List.count_replace, if_pos (by simpa using hold)]
        simp only [beq_iff_eq, eq_comm (a := c)]
      · have hs : ((ir.setInsn br (fun insn => insn.setBranch new ptr)).withGraph
            (ir.graph.redirect bb old new)).successors b = ir.successors b :=
          h.successors_of_ne hmem hbe rfl hflow
        rw [hs, ← h.named b hb hkb c]
        simp [Ir.withGraph, Graph.redirect, Ir.graph, hbe]
    · intro b hkb
      replace hkb : (ir.block b).killed = true := hkb
      obtain ⟨hp, hch, hi⟩ := h.killed b hkb
      have hbn : b ≠ new := by rintro rfl; simp [hk] at hkb
      have hbb' : b ≠ bb := by rintro rfl; simp [hlive] at hkb
      refine ⟨?_, ?_, hi⟩
      · simp [Ir.withGraph, Graph.redirect, Ir.graph, hbn, hp]
      · simp [Ir.withGraph, Graph.redirect, Ir.graph, hbb', hch]
    · intro b i hi
      have hop : ((ir.setInsn br (fun insn => insn.setBranch new ptr)).insn i).opcode =
          (ir.insn i).opcode := by
        by_cases hib : i = br
        · subst hib; simp [Instruction.setBranch_opcode]
        · simp [hib]
      exact (congrArg Opcode.isJump hop).trans (h.jumpLast b i hi)
    · intro b hb
      by_cases hbe : b = bb
      · subst hbe
        exact h.listed b (List.ne_nil_of_mem hold)
      · exact h.listed b (by simpa [Ir.withGraph, Graph.redirect, Ir.graph, hbe] using hb)
    · intro b c hc
      by_cases hbe : b = bb
      · subst hbe
        have hc : c ∈ (ir.block b).children.replace old new := by
          simpa [Ir.withGraph, Graph.redirect, Ir.graph] using hc
        rcases mem_or_eq_of_mem_replace hc with hc | rfl
        · exact h.bounded b c hc
        · exact hn
      · exact h.bounded b c (by simpa [Ir.withGraph, Graph.redirect, Ir.graph, hbe] using hc)

end FlowInvariant

/-- What redirecting branches leaves alone. -/
structure SameBlocks (ir ir' : Ir) : Prop where
  insns : ∀ b, (ir'.block b).insns = (ir.block b).insns
  killed : ∀ b, (ir'.block b).killed = (ir.block b).killed
  opcode : ∀ i, (ir'.insn i).opcode = (ir.insn i).opcode
  nextBlock : ir'.nextBlock = ir.nextBlock

namespace SameBlocks

variable {ir ir' ir'' : Ir}

theorem refl (ir : Ir) : SameBlocks ir ir := ⟨fun _ => rfl, fun _ => rfl, fun _ => rfl, rfl⟩

theorem trans (h : SameBlocks ir ir') (h' : SameBlocks ir' ir'') : SameBlocks ir ir'' :=
  ⟨fun b => (h'.insns b).trans (h.insns b), fun b => (h'.killed b).trans (h.killed b),
    fun i => (h'.opcode i).trans (h.opcode i), h'.nextBlock.trans h.nextBlock⟩

theorem lastInstruction (h : SameBlocks ir ir') (b : BlockId) :
    ir'.lastInstruction b = ir.lastInstruction b := by
  simp only [Ir.lastInstruction, h.insns]

theorem rewriteBranch (ir : Ir) (bb : BlockId) (br : InsnId) (ptr : BranchSlot) (old new : BlockId) :
    SameBlocks ir (ir.rewriteBranch bb br ptr old new).1 := by
  by_cases hc : (ir.insn br).branch ptr ≠ some old ∨ new = old
  · rw [Ir.rewriteBranch, if_pos hc]
    exact refl ir
  · obtain ⟨ho, hne⟩ := not_or.mp hc
    rw [Ir.rewriteBranch_eq ir bb br ptr (not_not.mp ho) hne]
    refine ⟨fun _ => rfl, fun _ => rfl, fun i => ?_, rfl⟩
    by_cases hi : i = br
    · subst hi; simp [Ir.withGraph, Instruction.setBranch_opcode]
    · simp [Ir.withGraph, hi]

end SameBlocks

namespace FlowInvariant

variable {L : Set BlockId} {ir : Ir} {bb old new : BlockId} {br : InsnId}

theorem rewriteBranches (h : FlowInvariant L ir) (hbb : bb ∉ L)
    (hl : ir.lastInstruction bb = some br) (hk : (ir.block new).killed = false)
    (hn : new < ir.nextBlock) (ptrs : List BranchSlot)
    (hm : ∀ ptr ∈ ptrs, ptr.MemOf (ir.insn br).opcode) :
    FlowInvariant L (Ir.rewriteBranches bb br old new ptrs ir).1 ∧
      SameBlocks ir (Ir.rewriteBranches bb br old new ptrs ir).1 := by
  induction ptrs generalizing ir with
  | nil => exact ⟨h, SameBlocks.refl ir⟩
  | cons ptr ptrs ih =>
    have hs := SameBlocks.rewriteBranch ir bb br ptr old new
    have h1 : FlowInvariant L (ir.rewriteBranch bb br ptr old new).1 :=
      h.rewriteBranch hbb hl (hm ptr List.mem_cons_self) hk hn
    have h2 := ih h1 (by rw [hs.lastInstruction, hl]) (by rw [hs.killed, hk])
      (by rw [hs.nextBlock]; exact hn)
      (fun q hq => by rw [hs.opcode]; exact hm q (List.mem_cons_of_mem ptr hq))
    exact ⟨h2.1, hs.trans h2.2⟩

theorem rewriteParentBranch (h : FlowInvariant L ir) (hbb : bb ∉ L)
    (hk : (ir.block new).killed = false) (hn : new < ir.nextBlock) :
    FlowInvariant L (ir.rewriteParentBranch bb old new).1 ∧
      SameBlocks ir (ir.rewriteParentBranch bb old new).1 := by
  unfold Ir.rewriteParentBranch
  cases hl : ir.lastInstruction bb with
  | none => exact ⟨h, SameBlocks.refl ir⟩
  | some i =>
    dsimp only
    split
    · exact ⟨h, SameBlocks.refl ir⟩
    · split
      next hop =>
        refine h.rewriteBranches hbb hl hk hn _ (fun ptr hp => ?_)
        rcases List.mem_pair.mp hp with rfl | rfl <;> exact hop
      next hop =>
        refine h.rewriteBranches hbb hl hk hn _ (fun ptr hp => ?_)
        obtain ⟨n, _, rfl⟩ := List.mem_map.mp hp
        exact hop
      next => exact ⟨h, SameBlocks.refl ir⟩

/-- The blocks whose branches are rewritten are checked: they are parents of a block. -/
theorem rewriteParents (h : FlowInvariant ∅ ir) (hk : (ir.block new).killed = false)
    (hn : new < ir.nextBlock) (fuel : ℕ) :
    FlowInvariant ∅ (Ir.rewriteParents old new fuel ir).1 ∧
      SameBlocks ir (Ir.rewriteParents old new fuel ir).1 ∧
      ∀ t, (Ir.rewriteParents old new fuel ir).2 = some t →
        ((Ir.rewriteParents old new fuel ir).1.block old).parents = [] := by
  induction fuel generalizing ir with
  | zero =>
    refine ⟨h, SameBlocks.refl ir, fun t ht => ?_⟩
    simp only [Ir.rewriteParents] at ht ⊢
    by_contra hp
    simp [hp] at ht
  | succ fuel ih =>
    unfold Ir.rewriteParents
    split
    next hp => exact ⟨h, SameBlocks.refl ir, fun _ _ => hp⟩
    next parent rest hp =>
      have hpb : FlowInvariant ∅ (ir.rewriteParentBranch parent old new).1 ∧
          SameBlocks ir (ir.rewriteParentBranch parent old new).1 :=
        h.rewriteParentBranch (Set.notMem_empty _) hk hn
      split
      next ir' hr =>
        rw [hr] at hpb
        obtain ⟨h1, hs⟩ := hpb
        obtain ⟨h2, hs2, ht⟩ := ih h1 (by rw [hs.killed, hk]) (by rw [hs.nextBlock]; exact hn)
        exact ⟨h2, hs.trans hs2, ht⟩
      next ir' hr =>
        rw [hr] at hpb
        exact ⟨hpb.1, hpb.2, by simp⟩

theorem rewriteBranchBb (h : FlowInvariant ∅ ir) (hl : ir.lastInstruction bb = some br)
    (ho : (ir.insn br).opcode = .br) :
    FlowInvariant ∅ (ir.rewriteBranchBb bb br).1 ∧ SameBlocks ir (ir.rewriteBranchBb bb br).1 ∧
      ∀ t, (ir.rewriteBranchBb bb br).2 = some t →
        ((ir.rewriteBranchBb bb br).1.block bb).parents = [] := by
  have hmem := Ir.lastInstruction_mem hl
  have hlive : (ir.block bb).killed = false := by
    by_contra hkb
    simp [(h.killed bb (by simpa using hkb)).2.2] at hmem
  have hsucc : ∀ t ∈ (ir.insn br).successors, (ir.block t).killed = false ∧ t < ir.nextBlock := by
    intro t ht
    have hc : t ∈ (ir.block bb).children := by
      rwa [(h.perm (Set.notMem_empty _) hlive).mem_iff, successors_eq hl]
    exact ⟨(h.live_of_mem_children hc).2, h.bounded bb t hc⟩
  have hrun := fun t (ht : t ∈ (ir.insn br).successors) =>
    (h.rewriteParents (hsucc t ht).1 (hsucc t ht).2 _ :
      FlowInvariant ∅ (Ir.rewriteParents bb t (ir.block bb).parents.length ir).1 ∧ _ ∧ _)
  unfold Ir.rewriteBranchBb
  dsimp only
  split
  next t f ht hf =>
    split
    next value _ =>
      apply hrun
      simp only [Instruction.successors, ho, ht, hf]
      split <;> simp
    next => exact ⟨h, SameBlocks.refl ir, by simp⟩
  next bbTrue _ =>
    cases ht : (ir.insn br).bbTrue with
    | none => exact ⟨h, SameBlocks.refl ir, by simp⟩
    | some t =>
      apply hrun
      simp [Instruction.successors, ho, ht]

end FlowInvariant

end Sparse
