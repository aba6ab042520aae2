import Sparse.FlowGraphDeletion
import Mathlib.Data.Finset.Card
import Mathlib.Data.Finset.Range

/-!
# Removing what the entry does not reach

`mark_bb_reachable` gives a fresh generation to every block it walks over. When it
returns, the children of every block it marked are marked as well, so no edge leads
from a marked block to one that `kill_unreachable_bbs` kills.
-/

namespace Sparse

/-- What a walk has done so far: it wrote the generation of some blocks, and the blocks it
marked have all their children marked. -/
structure Marked (generation : ℕ) (ir ir' : Ir) : Prop where
  frame : ir' = { ir with block := ir'.block }
  block : ∀ x, ir'.block x = { ir.block x with generation := (ir'.block x).generation }
  written : ∀ x, (ir'.block x).generation = (ir.block x).generation ∨
    (ir'.block x).generation = generation
  closed : ∀ x, (ir'.block x).generation = generation → (ir.block x).generation = generation ∨
    ∀ c ∈ (ir.block x).children, (ir'.block c).generation = generation

namespace Marked

variable {generation : ℕ} {ir ir' ir'' : Ir}

theorem refl (generation : ℕ) (ir : Ir) : Marked generation ir ir :=
  ⟨rfl, fun _ => rfl, fun _ => Or.inl rfl, fun _ hx => Or.inl hx⟩

theorem children (h : Marked generation ir ir') (x : BlockId) :
    (ir'.block x).children = (ir.block x).children := by rw [h.block x]

theorem nextBlock (h : Marked generation ir ir') : ir'.nextBlock = ir.nextBlock := by
  rw [h.frame]

theorem mono (h : Marked generation ir ir') {x : BlockId}
    (hx : (ir.block x).generation = generation) : (ir'.block x).generation = generation :=
  (h.written x).elim (fun he => he.trans hx) id

theorem trans (h : Marked generation ir ir') (h' : Marked generation ir' ir'') :
    Marked generation ir ir'' where
  frame := by rw [h'.frame, h.frame]
  block x := by rw [h'.block x, h.block x]
  written x := by
    rcases h'.written x with he | hg
    · rw [he]
      exact h.written x
    · exact Or.inr hg
  closed x hx := by
    rcases h'.closed x hx with hm | hc
    · exact (h.closed x hm).imp_right (fun hc c hm => h'.mono (hc c hm))
    · exact Or.inr (by rwa [h.children x] at hc)

end Marked

namespace Ir

variable {ir : Ir} {generation : ℕ}

/-- The blocks that a walk can still mark. -/
def unmarked (generation : ℕ) (ir : Ir) : Finset BlockId :=
  (Finset.range ir.nextBlock).filter (fun b => (ir.block b).generation ≠ generation)

theorem card_unmarked_le (generation : ℕ) (ir : Ir) :
    (ir.unmarked generation).card ≤ ir.nextBlock :=
  (Finset.card_filter_le _ _).trans_eq (Finset.card_range _)

theorem card_unmarked_le_of_marked {ir' : Ir} (h : Marked generation ir ir') :
    (ir'.unmarked generation).card ≤ (ir.unmarked generation).card := by
  apply Finset.card_le_card
  intro b hb
  rw [unmarked, Finset.mem_filter, Finset.mem_range] at hb ⊢
  exact ⟨h.nextBlock ▸ hb.1, fun hg => hb.2 (h.mono hg)⟩

theorem card_unmarked_setBlock {bb : BlockId} (hb : bb < ir.nextBlock)
    (hg : (ir.block bb).generation ≠ generation) :
    ((ir.setBlock bb ({ · with generation := generation })).unmarked generation).card <
      (ir.unmarked generation).card := by
  apply Finset.card_lt_card
  rw [Finset.ssubset_iff_of_subset]
  · refine ⟨bb, ?_, ?_⟩
    · rw [unmarked, Finset.mem_filter, Finset.mem_range]
      exact ⟨hb, hg⟩
    · rw [unmarked, Finset.mem_filter]
      simp
  · intro x hx
    rw [unmarked, Finset.mem_filter, Finset.mem_range] at hx ⊢
    refine ⟨hx.1, fun hxg => hx.2 ?_⟩
    by_cases hxb : x = bb
    · subst hxb; simp
    · simpa [hxb] using hxg

/-- Every child is an allocated block. -/
def ChildrenBounded (ir : Ir) : Prop := ∀ b, ∀ c ∈ (ir.block b).children, c < ir.nextBlock

theorem ChildrenBounded.of_marked {ir' : Ir} (hb : ir.ChildrenBounded)
    (h : Marked generation ir ir') : ir'.ChildrenBounded := fun b c hc => by
  rw [h.nextBlock]
  exact hb b c (h.children b ▸ hc)

end Ir

/-- A walk with the given fuel marks its block, provided that the fuel reaches for the blocks
not marked yet. -/
def WalkMarks (generation fuel : ℕ) : Prop :=
  ∀ (ir : Ir) (bb : BlockId), ir.ChildrenBounded → bb < ir.nextBlock →
    (ir.unmarked generation).card ≤ fuel →
    Marked generation ir (Ir.markBbReachable generation fuel ir bb) ∧
      ((Ir.markBbReachable generation fuel ir bb).block bb).generation = generation

namespace WalkMarks

variable {generation fuel : ℕ}

theorem foldl (h : WalkMarks generation fuel) (cs : List BlockId) (ir : Ir)
    (hb : ir.ChildrenBounded) (hcs : ∀ c ∈ cs, c < ir.nextBlock)
    (hf : (ir.unmarked generation).card ≤ fuel) :
    Marked generation ir (cs.foldl (Ir.markBbReachable generation fuel) ir) ∧
      ∀ c ∈ cs, ((cs.foldl (Ir.markBbReachable generation fuel) ir).block c).generation =
        generation := by
  induction cs generalizing ir with
  | nil => exact ⟨Marked.refl generation ir, by simp⟩
  | cons c cs ih =>
    obtain ⟨h1, h2⟩ := h ir c hb (hcs c List.mem_cons_self) hf
    obtain ⟨h3, h4⟩ := ih _ (hb.of_marked h1)
      (fun d hd => h1.nextBlock ▸ hcs d (List.mem_cons_of_mem c hd))
      ((Ir.card_unmarked_le_of_marked h1).trans hf)
    refine ⟨h1.trans h3, fun d hd => ?_⟩
    rcases List.mem_cons.mp hd with rfl | hd
    · exact h3.mono h2
    · exact h4 d hd

/-- A walk marks its block first; only then are the children of all marked blocks marked. -/
theorem succ (h : WalkMarks generation fuel) (ir : Ir) (bb : BlockId) (hb : ir.ChildrenBounded)
    (hf : (ir.block bb).generation ≠ generation →
      ((ir.setBlock bb ({ · with generation := generation })).unmarked generation).card ≤ fuel) :
    Marked generation ir (Ir.markBbReachable generation (fuel + 1) ir bb) ∧
      ((Ir.markBbReachable generation (fuel + 1) ir bb).block bb).generation = generation := by
  by_cases hg : (ir.block bb).generation = generation
  · rw [Ir.markBbReachable, if_pos hg]
    exact ⟨Marked.refl generation ir, hg⟩
  · rw [Ir.markBbReachable, if_neg hg]
    dsimp only
    set ir1 := ir.setBlock bb ({ · with generation := generation }) with hir1
    have hself : (ir1.block bb).generation = generation := by simp [hir1]
    have hne : ∀ x ≠ bb, ir1.block x = ir.block x := fun x hx => by simp [hir1, hx]
    have hblock : ∀ x, ir1.block x =
        { ir.block x with generation := (ir1.block x).generation } := by
      intro x
      by_cases hx : x = bb
      · subst hx; simp [hir1]
      · rw [hne x hx]
    have hchildren : ∀ x, (ir1.block x).children = (ir.block x).children := fun x => by
      rw [hblock x]
    obtain ⟨h1, h2⟩ := h.foldl (ir1.block bb).children ir1
      (fun b c hc => hb b c (hchildren b ▸ hc))
      (fun c hc => hb bb c (hchildren bb ▸ hc)) (hf hg)
    refine ⟨⟨?_, ?_, ?_, ?_⟩, h1.mono hself⟩
    · rw [h1.frame]
      rfl
    · intro x
      rw [h1.block x, hblock x]
    · intro x
      rcases h1.written x with he | hw
      · by_cases hx : x = bb
        · subst hx
          exact Or.inr (he.trans hself)
        · exact Or.inl (he.trans (by rw [hne x hx]))
      · exact Or.inr hw
    · intro x hx
      by_cases hxb : x = bb
      · subst hxb
        exact Or.inr (fun c hc => h2 c (hchildren x ▸ hc))
      · rcases h1.closed x hx with hm | hc
        · exact Or.inl (by rwa [hne x hxb] at hm)
        · exact Or.inr (by rwa [hchildren x] at hc)

end WalkMarks

theorem walkMarks (generation fuel : ℕ) : WalkMarks generation fuel := by
  induction fuel with
  | zero =>
    intro ir bb hb hbb hf
    have hempty : ir.unmarked generation = ∅ := Finset.card_eq_zero.mp (Nat.le_zero.mp hf)
    refine ⟨Marked.refl generation ir, ?_⟩
    by_contra hg
    have hm : bb ∈ ir.unmarked generation :=
      Finset.mem_filter.mpr ⟨Finset.mem_range.mpr hbb, hg⟩
    simp [hempty] at hm
  | succ fuel ih =>
    intro ir bb hb hbb hf
    refine ih.succ ir bb hb (fun hg => ?_)
    have := Ir.card_unmarked_setBlock hbb hg
    omega

/-- The walk of `kill_unreachable_bbs`. -/
theorem Marked.markBbReachable (generation : ℕ) {ir : Ir} (hb : ir.ChildrenBounded) (bb : BlockId) :
    Marked generation ir (Ir.markBbReachable generation (ir.nextBlock + 1) ir bb) :=
  ((walkMarks generation ir.nextBlock).succ ir bb hb
    (fun _ => Ir.card_unmarked_le generation _)).1

/-- What killing a list of blocks leaves of the graph. -/
structure Killed (dead : List BlockId) (ir ir' : Ir) : Prop where
  flow : ∀ i, (ir'.insn i).flow = (ir.insn i).flow
  bbs : ir'.bbs = ir.bbs
  children : ∀ x, (ir'.block x).children.Subset (ir.block x).children
  insns : ∀ x, (ir'.block x).killed = false → (ir.block x).killed = false ∧
    (ir'.block x).insns = (ir.block x).insns
  killed : ∀ b ∈ dead, (ir'.block b).killed = true

theorem Killed.killBb {ir : Ir} (h : ir.graph.Consistent) (bb : BlockId) :
    Killed [bb] ir (ir.killBb bb) where
  flow := Ir.killBb_flow h bb
  bbs := by
    rw [Ir.killBb_eq h]
    exact (SameFlow.killInsns (ir.block bb).insns ir).bbs
  children x := by
    by_cases hx : x = bb
    · subst hx
      rw [Ir.killBb_block_self h]
      exact List.nil_subset _
    · rw [Ir.killBb_block_of_ne h hx]
      exact List.filter_sublist.subset
  insns x hk := by
    have hx : x ≠ bb := by
      rintro rfl
      simp [Ir.killBb_block_self h] at hk
    rw [Ir.killBb_block_of_ne h hx] at hk ⊢
    exact ⟨hk, rfl⟩
  killed b hb := by
    rw [List.mem_singleton.mp hb, Ir.killBb_block_self h]

namespace FlowInvariant

variable {L : Set BlockId} {ir : Ir}

theorem killBbs (h : FlowInvariant L ir) (dead : List BlockId)
    (hp : ∀ b ∈ dead, ∀ p, b ∈ (ir.block p).children → p ∈ L) :
    FlowInvariant L (dead.foldl Ir.killBb ir) ∧ Killed dead ir (dead.foldl Ir.killBb ir) := by
  induction dead generalizing ir with
  | nil =>
    exact ⟨h, fun _ => rfl, rfl, fun _ => List.Subset.refl _, fun _ hk => ⟨hk, rfl⟩, by simp⟩
  | cons bb dead ih =>
    have hk := Killed.killBb h.consistent bb
    have h1 : FlowInvariant L (ir.killBb bb) := h.killBb (fun p hm =>
      Or.inr (hp bb List.mem_cons_self p (h.mem_parents_iff.mp hm)))
    obtain ⟨h2, hk2⟩ := ih h1
      (fun b hb p hc => hp b (List.mem_cons_of_mem bb hb) p (hk.children p hc))
    refine ⟨h2, ⟨fun i => (hk2.flow i).trans (hk.flow i), hk2.bbs.trans hk.bbs,
      fun x => (hk2.children x).trans (hk.children x), fun x hx => ?_, fun b hb => ?_⟩⟩
    · obtain ⟨h3, h4⟩ := hk2.insns x hx
      obtain ⟨h5, h6⟩ := hk.insns x h3
      exact ⟨h5, h4.trans h6⟩
    · rcases List.mem_cons.mp hb with rfl | hb
      · by_contra hf
        have := (hk2.insns b (by simpa using hf)).1
        simp [hk.killed b List.mem_cons_self] at this
      · exact hk2.killed b hb

theorem marked {generation : ℕ} {ir' : Ir} (h : FlowInvariant L ir)
    (hm : Marked generation ir ir') (hg : ir.bbGeneration = generation) :
    FlowInvariant L ir' where
  consistent := by
    intro p c
    change (ir'.block c).parents.count p = (ir'.block p).children.count c
    rw [hm.children p, hm.block c]
    exact h.consistent p c
  named b hb hk c := by
    have hi : ir'.insn = ir.insn := by rw [hm.frame]
    rw [Ir.successors_congr ir (by rw [hm.block b]) (fun i _ => by rw [hi]), hm.block b]
    exact h.named b hb (by rwa [hm.block b] at hk) c
  killed b hk := by
    rw [hm.block b] at hk ⊢
    exact h.killed b hk
  owner b b' i hi hi' := by
    rw [hm.block b] at hi
    rw [hm.block b'] at hi'
    exact h.owner b b' i hi hi'
  jumpLast b i hi := by
    have he : ir'.insn = ir.insn := by rw [hm.frame]
    rw [hm.block b] at hi
    rw [he]
    exact h.jumpLast b i hi
  allocated b i hi := by
    rw [hm.block b] at hi
    rw [hm.frame]
    exact h.allocated b i hi
  listed b hb := by
    rw [hm.children b] at hb
    rw [hm.frame]
    exact h.listed b hb
  bounded b c hc := by
    rw [hm.children b] at hc
    rw [hm.frame]
    exact h.bounded b c hc
  generation b := by
    have he : ir'.bbGeneration = ir.bbGeneration := by rw [hm.frame]
    rw [he]
    rcases hm.written b with hw | hw
    · rw [hw]
      exact h.generation b
    · rw [hw, hg]

/-- Once no marked block has an unmarked child, the listed unmarked blocks can go. -/
theorem killUnmarked (h : FlowInvariant ∅ ir) {generation : ℕ}
    (hclosed : ∀ x, (ir.block x).generation = generation → ∀ c ∈ (ir.block x).children,
      (ir.block c).generation = generation) :
    FlowInvariant ∅ (ir.killUnmarked generation) := by
  set dead := ir.bbs.filter (fun bb => (ir.block bb).generation ≠ generation) with hdead
  have hmem : ∀ b, b ∈ dead ↔ b ∈ ir.bbs ∧ (ir.block b).generation ≠ generation := by
    simp [hdead]
  obtain ⟨h1, hk⟩ := (h.mono (Set.empty_subset {b | (ir.block b).generation ≠ generation})).killBbs
    dead (fun b hb p hc hp => ((hmem b).mp hb).2 (hclosed p hp b hc))
  -- An unmarked block that is not listed has no edges to begin with.
  have hbare : ∀ b, (ir.block b).generation ≠ generation →
      ((dead.foldl Ir.killBb ir).block b).killed = false → (ir.block b).children = [] := by
    intro b hb hkb
    by_contra hne
    have := hk.killed b ((hmem b).mpr ⟨h.listed b hne, hb⟩)
    simp [this] at hkb
  have h2 : FlowInvariant ∅ (dead.foldl Ir.killBb ir) := by
    refine h1.check (fun b hb hkb => ?_)
    obtain ⟨hlive, hinsns⟩ := hk.insns b hkb
    have hc := hbare b hb hkb
    have hc' : ((dead.foldl Ir.killBb ir).block b).children = [] :=
      List.eq_nil_of_subset_nil (hc ▸ hk.children b)
    rw [hc', Ir.successors_congr _ hinsns (fun i _ => hk.flow i)]
    exact hc ▸ h.perm (Set.notMem_empty b) hlive
  refine { h2 with listed := fun b hb => ?_ }
  change ((dead.foldl Ir.killBb ir).block b).children ≠ [] at hb
  have hb' : (ir.block b).children ≠ [] := fun he =>
    hb (List.eq_nil_of_subset_nil (he ▸ hk.children b))
  refine List.mem_filter.mpr ⟨h.listed b hb', ?_⟩
  by_contra hg
  have hd := hk.killed b ((hmem b).mpr ⟨h.listed b hb', by simpa using hg⟩)
  exact hb (h1.killed b hd).2.1

theorem markFromEntry (h : FlowInvariant ∅ ir) {generation : ℕ} (hg : ir.bbGeneration = generation)
    (hfresh : ∀ b, (ir.block b).generation < generation) :
    FlowInvariant ∅ (Ir.markFromEntry generation ir) ∧
      ∀ x, ((Ir.markFromEntry generation ir).block x).generation = generation →
        ∀ c ∈ ((Ir.markFromEntry generation ir).block x).children,
          ((Ir.markFromEntry generation ir).block c).generation = generation := by
  unfold Ir.markFromEntry
  split
  next bb _ =>
    have hm := Marked.markBbReachable generation h.bounded bb
    refine ⟨h.marked hm hg, fun x hx c hc => ?_⟩
    rw [hm.children x] at hc
    rcases hm.closed x hx with hold | hall
    · exact absurd hold (Nat.ne_of_lt (hfresh x))
    · exact hall c hc
  next => exact ⟨h, fun x hx => absurd hx (Nat.ne_of_lt (hfresh x))⟩

theorem killUnreachableBbs (h : FlowInvariant ∅ ir) : FlowInvariant ∅ ir.killUnreachableBbs := by
  have h0 : FlowInvariant ∅ { ir with bbGeneration := ir.bbGeneration + 1 } :=
    { h with generation := fun b => Nat.le_succ_of_le (h.generation b) }
  obtain ⟨hm, hclosed⟩ := h0.markFromEntry rfl (fun b => Nat.lt_succ_of_le (h.generation b))
  exact hm.killUnmarked hclosed

end FlowInvariant

end Sparse
