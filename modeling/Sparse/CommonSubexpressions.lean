import Sparse.CseComparison
import Sparse.DominatorSearch
import Sparse.Executions

/-!
# Replacing common subexpressions

Of two instructions that compute the same, `try_to_cse` keeps the one that is executed first on every
path, and moves one of the two to the end of the block above if neither is. Whether a block dominates
another is decided by a walk to the parents that gives up at the entry.
-/

namespace Sparse

open DepthFirstWalks ProgramPaths

namespace Ir

/-- The loop of `bb_dominates` over the parents of a block. -/
def dominatesParents (bb1 : BlockId) (generation : ℕ) (dominates : Ir → BlockId → Ir × Bool) :
    Ir → List BlockId → Ir × Bool
  | ir, [] => (ir, true)
  | ir, parent :: parents =>
    if parent = bb1 then dominatesParents bb1 generation dominates ir parents
    else if (ir.block parent).generation = generation then
      dominatesParents bb1 generation dominates ir parents
    else
      match dominates (ir.setBlock parent ({ · with generation := generation })) parent with
      | (ir, true) => dominatesParents bb1 generation dominates ir parents
      | (ir, false) => (ir, false)

/-- The recursion of `bb_dominates`; `entry` is the block of the entry. The fuel bounds its depth. -/
def dominatesFrom (entry : Option BlockId) (bb1 : BlockId) (generation : ℕ) : ℕ → Ir → BlockId → Ir × Bool
  | 0, ir, _ => (ir, true)
  | fuel + 1, ir, bb2 =>
    -- nothing dominates the entrypoint
    if some bb2 = entry then (ir, false)
    else dominatesParents bb1 generation (dominatesFrom entry bb1 generation fuel) ir (ir.block bb2).parents

/-- `bb_dominates`. -/
def bbDominates (ir : Ir) (bb1 bb2 : BlockId) (generation : ℕ) : Ir × Bool :=
  dominatesFrom (ir.insn ir.entry).bb bb1 generation (ir.bbs.length + 1) ir bb2

/-- `bb_dominates` with `++bb_generation` for its last argument. -/
def dominatesNext (ir : Ir) (bb1 bb2 : BlockId) : Ir × Bool :=
  { ir with bbGeneration := ir.bbGeneration + 1 }.bbDominates bb1 bb2 (ir.bbGeneration + 1)

/-- `trivial_common_parent`. -/
def trivialCommonParent (ir : Ir) (bb1 bb2 : BlockId) : Option BlockId :=
  match (ir.block bb1).parents, (ir.block bb2).parents with
  | [parent], [parent2] => if parent2 = parent then some parent else none
  | _, _ => none

/-- `remove_instruction(&bb->insns, insn, 1)`. -/
def removeInstruction (ir : Ir) (bb : BlockId) (i : InsnId) : Ir :=
  ir.setBlock bb (fun b => { b with insns := deletePtrListEntry b.insns i 1 })

/-- `add_instruction_to_end`. -/
def addInstructionToEnd (ir : Ir) (i : InsnId) (bb : BlockId) : Ir :=
  let br := ir.lastInstruction bb
  let ir := ir.deleteLastInstruction bb
  let ir := ir.setInsn i ({ · with bb := some bb })
  ir.setBlock bb (fun b => { b with insns := b.insns ++ i :: br.toList })

/-- `try_to_cse`. The second component is the instruction that it returns. Both instructions are in
a block; one that is not is left alone. -/
def tryToCse (ir : Ir) (i1 i2 : InsnId) : Ir × InsnId :=
  match (ir.insn i1).bb, (ir.insn i2).bb with
  | some b1, some b2 =>
    if b1 = b2 then
      match (ir.block b1).insns.find? (fun insn => insn = i1 ∨ insn = i2) with
      | some insn => if insn = i1 then (ir.cseOneInstruction i2 i1, i1) else (ir.cseOneInstruction i1 i2, i2)
      | none => (ir, i1)
    else
      match ir.dominatesNext b1 b2 with
      | (ir, true) => (ir.cseOneInstruction i2 i1, i1)
      | (ir, false) =>
        match ir.dominatesNext b2 b1 with
        | (ir, true) => (ir.cseOneInstruction i1 i2, i2)
        | (ir, false) =>
          match ir.trivialCommonParent b1 b2 with
          | some common =>
            (((ir.cseOneInstruction i2 i1).removeInstruction b1 i1).addInstructionToEnd i1 common, i1)
          | none => (ir, i1)
  | _, _ => (ir, i1)

end Ir

/-! ## Dominance -/

/-- The walk of `bb_dominates`: it passes by the block that may dominate, enters every other parent and
gives up at the entry. -/
def Ir.dominancePlan (ir : Ir) (entry : Option BlockId) (bb1 : BlockId) : Plan BlockId BlockId where
  vertex := id
  edges b := (ir.block b).parents
  look b := if b = bb1 then .pass else .enter
  shut b := decide (some b = entry)

/-- The blocks with some marks of a generation. -/
structure Ir.Marks (ir₀ : Ir) (generation : ℕ) (marks : BlockId → Bool) (ir : Ir) : Prop where
  frame : OnlyMarks ir₀ ir
  marks : ∀ b, marks b = decide ((ir.block b).generation = generation)
  old : ∀ b, (ir.block b).generation = (ir₀.block b).generation ∨ (ir.block b).generation = generation

namespace Ir

variable {ir₀ ir : Ir} {generation : ℕ} {marks : BlockId → Bool} {entry : Option BlockId} {bb1 bb2 e : BlockId}

theorem Marks.mark (h : Marks ir₀ generation marks ir) (b : BlockId) :
    Marks ir₀ generation (Function.update marks b true)
      (ir.setBlock b ({ · with generation := generation })) where
  frame := h.frame.setGeneration b generation
  marks x := by
    by_cases hx : x = b
    · subst hx
      simp
    · simpa [hx] using h.marks x
  old x := by
    by_cases hx : x = b
    · subst hx
      simp
    · simpa [hx] using h.old x

/-- The loop over the parents does what the walk along the edges does, if the recursion does. -/
theorem Marks.dominatesParents {dominates : Ir → BlockId → Ir × Bool}
    {enter : (BlockId → Bool) → BlockId → Outcome BlockId BlockId}
    (hrec : ∀ {marks ir}, Marks ir₀ generation marks ir → ∀ b, (dominates ir b).2 = (enter marks b).finished ∧
      Marks ir₀ generation (enter marks b).marks (dominates ir b).1)
    (h : Marks ir₀ generation marks ir) (parents : List BlockId) :
    (Ir.dominatesParents bb1 generation dominates ir parents).2 =
        ((ir₀.dominancePlan entry bb1).follow enter marks parents).finished ∧
      Marks ir₀ generation ((ir₀.dominancePlan entry bb1).follow enter marks parents).marks
        (Ir.dominatesParents bb1 generation dominates ir parents).1 := by
  induction parents generalizing marks ir with
  | nil => exact ⟨rfl, h⟩
  | cons parent parents ih =>
    have hlook : (ir₀.dominancePlan entry bb1).look parent = if parent = bb1 then .pass else .enter := rfl
    have hvertex : (ir₀.dominancePlan entry bb1).vertex parent = parent := rfl
    rw [Ir.dominatesParents, Plan.follow]
    by_cases hp : parent = bb1
    · rw [if_pos hp] at hlook ⊢
      simp only [hlook, Outcome.after_finished, Outcome.after_marks]
      exact ih h
    · rw [if_neg hp] at hlook ⊢
      simp only [hlook, hvertex, h.marks parent, decide_eq_true_eq]
      by_cases hg : (ir.block parent).generation = generation
      · rw [if_pos hg, if_pos hg]
        exact ih h
      · rw [if_neg hg, if_neg hg]
        obtain ⟨hfinished, hmarks⟩ := hrec (h.mark parent) parent
        rw [← hfinished]
        cases hd : dominates (ir.setBlock parent ({ · with generation := generation })) parent with
        | mk ir' dominated =>
          rw [hd] at hmarks
          cases dominated with
          | true => exact ih hmarks
          | false =>
            rw [hd] at hfinished
            exact ⟨hfinished, hmarks⟩

/-- The recursion does what the walk over the unmarked blocks does. -/
theorem Marks.dominatesFrom (entry : Option BlockId) (bb1 : BlockId) (fuel : ℕ)
    (h : Marks ir₀ generation marks ir) (bb2 : BlockId) :
    (Ir.dominatesFrom entry bb1 generation fuel ir bb2).2 =
        ((ir₀.dominancePlan entry bb1).walk fuel marks bb2).finished ∧
      Marks ir₀ generation ((ir₀.dominancePlan entry bb1).walk fuel marks bb2).marks
        (Ir.dominatesFrom entry bb1 generation fuel ir bb2).1 := by
  induction fuel generalizing marks ir bb2 with
  | zero => exact ⟨rfl, h⟩
  | succ fuel ih =>
    have hshut : (ir₀.dominancePlan entry bb1).shut bb2 = decide (some bb2 = entry) := rfl
    have hedges : (ir₀.dominancePlan entry bb1).edges bb2 = (ir.block bb2).parents := by
      rw [h.frame.block]
      rfl
    rw [Ir.dominatesFrom, Plan.walk, hshut, hedges]
    by_cases hentry : some bb2 = entry
    · rw [if_pos hentry, decide_eq_true hentry, if_pos rfl]
      exact ⟨rfl, h⟩
    · rw [if_neg hentry, decide_eq_false hentry, if_neg Bool.false_ne_true]
      exact h.dominatesParents (fun h' b => ih h' b) _

/-- Jumps that avoid a block, followed backwards. -/
theorem enters_iff_avoids (h : FlowInvariant ∅ ir) (hne : bb1 ≠ bb2) :
    Relation.ReflTransGen (ir.dominancePlan entry bb1).Enters bb2 e ↔
      e ≠ bb1 ∧ Relation.ReflTransGen ((ir.paths e).Avoids bb1) e bb2 := by
  have henter : ∀ x y, (ir.dominancePlan entry bb1).Enters x y ↔ x ∈ (ir.block y).children ∧ y ≠ bb1 := by
    intro x y
    rw [← h.mem_parents_iff]
    refine and_congr_right fun _ => ?_
    change (if y = bb1 then Verdict.pass else .enter) = .enter ↔ y ≠ bb1
    by_cases hy : y = bb1
    · simp [hy]
    · simp [hy]
  constructor
  · intro hreach
    suffices hall : ∀ x, Relation.ReflTransGen (ir.dominancePlan entry bb1).Enters bb2 x →
        x ≠ bb1 ∧ Relation.ReflTransGen ((ir.paths e).Avoids bb1) x bb2 from hall e hreach
    intro x hx
    induction hx with
    | refl => exact ⟨hne.symm, .refl⟩
    | tail _ hstep ih =>
      obtain ⟨hchild, hy⟩ := (henter _ _).1 hstep
      exact ⟨hy, ih.2.head ⟨hchild, hy, ih.1⟩⟩
  · rintro ⟨-, hreach⟩
    induction hreach using Relation.ReflTransGen.head_induction_on with
    | refl => exact .refl
    | head hstep _ ih => exact ih.tail ((henter _ _).2 ⟨hstep.1, hstep.2.1⟩)

/-- The recursion decides dominance if it may go as deep as there are blocks. It writes nothing but marks. -/
theorem dominatesFrom_spec {fuel : ℕ} (h : FlowInvariant ∅ ir) (hne : bb1 ≠ bb2)
    (hfresh : ∀ b, (ir.block b).generation < generation) (hfuel : ir.bbs.length < fuel) :
    ((dominatesFrom (some e) bb1 generation fuel ir bb2).2 = true ↔ (ir.paths e).Dominates bb1 bb2) ∧
      OnlyMarks ir (dominatesFrom (some e) bb1 generation fuel ir bb2).1 ∧
      ∀ b, ((dominatesFrom (some e) bb1 generation fuel ir bb2).1.block b).generation ≤ generation := by
  have hstart : Marks ir generation (fun _ => false) ir :=
    ⟨.refl ir, fun b => (decide_eq_false (Nat.ne_of_lt (hfresh b))).symm, fun _ => .inl rfl⟩
  obtain ⟨hfinished, hmarks⟩ := hstart.dominatesFrom (some e) bb1 fuel bb2
  have hlisted : ∀ a b, (ir.dominancePlan (some e) bb1).Enters a b → b ∈ ir.bbs.toFinset := fun a b hb => by
    have hchild : a ∈ (ir.block b).children := h.mem_parents_iff.1 hb.1
    exact List.mem_toFinset.2 (h.listed b (List.ne_nil_of_mem hchild))
  have hwalk := (ir.dominancePlan (some e) bb1).walk_finished_iff rfl hlisted
    ((List.toFinset_card_le _).trans_lt hfuel) bb2
  refine ⟨?_, hmarks.frame, fun b => ?_⟩
  · rw [hfinished, hwalk, Program.dominates_iff]
    constructor
    · intro hopen hreach
      exact hopen e ((enters_iff_avoids h hne).2 hreach) (.inl (decide_eq_true rfl))
    · rintro hnone b hreach (hshut | ⟨c, -, hgive⟩)
      · obtain rfl := Option.some.inj (of_decide_eq_true hshut)
        exact hnone ((enters_iff_avoids h hne).1 hreach)
      · change (if c = bb1 then Verdict.pass else .enter) = .giveUp at hgive
        split at hgive <;> cases hgive
  · rcases hmarks.old b with hold | hnew
    · rw [hold]
      exact (hfresh b).le
    · exact hnew.le

/-- Marks and their counter may differ, and the marks are in use. -/
structure Remarked (ir ir' : Ir) : Prop where
  frame : ir' = { ir with block := ir'.block, bbGeneration := ir'.bbGeneration }
  block : ∀ b, ir'.block b = { ir.block b with generation := (ir'.block b).generation }
  bounded : (∀ b, (ir.block b).generation ≤ ir.bbGeneration) → ∀ b, (ir'.block b).generation ≤ ir'.bbGeneration

namespace Remarked

variable {ir' ir'' : Ir}

theorem refl (ir : Ir) : Remarked ir ir := ⟨rfl, fun _ => rfl, id⟩

theorem trans (h : Remarked ir ir') (h' : Remarked ir' ir'') : Remarked ir ir'' where
  frame := by rw [h'.frame, h.frame]
  block b := by rw [h'.block b, h.block b]
  bounded hb := h'.bounded (h.bounded hb)

theorem of_marks (h : OnlyMarks ir ir') (hb : ∀ b, (ir'.block b).generation ≤ ir.bbGeneration) : Remarked ir ir' := by
  have hcounter : ir'.bbGeneration = ir.bbGeneration := by rw [h.frame]
  refine ⟨?_, h.block, fun _ => by rwa [hcounter]⟩
  rw [hcounter]
  exact h.frame

variable (h : Remarked ir ir')
include h

theorem insn : ir'.insn = ir.insn := by rw [h.frame]

theorem insns (b : BlockId) : (ir'.block b).insns = (ir.block b).insns := by rw [h.block b]

theorem parents (b : BlockId) : (ir'.block b).parents = (ir.block b).parents := by rw [h.block b]

theorem children (b : BlockId) : (ir'.block b).children = (ir.block b).children := by rw [h.block b]

theorem paths (e : BlockId) : ir'.paths e = ir.paths e := by
  unfold Ir.paths
  simp only [h.insns, h.children]

theorem flow (hf : FlowInvariant ∅ ir) : FlowInvariant ∅ ir' where
  consistent p c := by
    change ((ir'.block c).parents).count p = ((ir'.block p).children).count c
    rw [h.parents, h.children]
    exact hf.consistent p c
  named b hb hk c := by
    have hsuccessors : ir'.successors b = ir.successors b :=
      Ir.successors_congr _ (h.insns b) fun i _ => by rw [h.insn]
    rw [h.children, hsuccessors]
    exact hf.named b hb (by rw [h.block] at hk; exact hk) c
  killed b hk := by
    rw [h.insns, h.parents, h.children]
    exact hf.killed b (by rw [h.block] at hk; exact hk)
  owner b b' i := by
    rw [h.insns, h.insns]
    exact hf.owner b b' i
  jumpLast b := by
    rw [h.insns, h.insn]
    exact hf.jumpLast b
  allocated b := by
    rw [h.insns, h.frame]
    exact hf.allocated b
  listed b := by
    rw [h.children, h.frame]
    exact hf.listed b
  bounded b := by
    rw [h.children, h.frame]
    exact hf.bounded b
  generation := h.bounded hf.generation

end Remarked

/-- The same with the marks of the next generation, which no block has. -/
theorem dominatesNext_spec (h : FlowInvariant ∅ ir) (he : (ir.insn ir.entry).bb = some e) (hne : bb1 ≠ bb2) :
    ((ir.dominatesNext bb1 bb2).2 = true ↔ (ir.paths e).Dominates bb1 bb2) ∧
      Remarked ir (ir.dominatesNext bb1 bb2).1 := by
  have hnext : Remarked ir { ir with bbGeneration := ir.bbGeneration + 1 } :=
    ⟨rfl, fun _ => rfl, fun hb b => Nat.le_succ_of_le (hb b)⟩
  have hfresh : ∀ b, ({ ir with bbGeneration := ir.bbGeneration + 1 }.block b).generation < ir.bbGeneration + 1 :=
    fun b => Nat.lt_succ_of_le (h.generation b)
  obtain ⟨hiff, hmarks, hbound⟩ := dominatesFrom_spec (e := e) (hnext.flow h) hne hfresh (Nat.lt_succ_self _)
  rw [dominatesNext, bbDominates, he]
  exact ⟨hiff, hnext.trans (.of_marks hmarks hbound)⟩

/-- One block asks whether it dominates another. -/
def AsksDominance (ir ir' : Ir) : Prop := ∃ b1 b2, b1 ≠ b2 ∧ ir' = (ir.dominatesNext b1 b2).1

/-- Whatever was asked before, `bb_dominates` decides dominance. It goes no deeper than there are blocks,
and nothing but the marks has changed. -/
theorem dominatesNext_decides {ir' : Ir} (h : FlowInvariant ∅ ir) (he : (ir.insn ir.entry).bb = some e)
    (hasked : Relation.ReflTransGen AsksDominance ir ir') (hne : bb1 ≠ bb2) :
    ((ir'.dominatesNext bb1 bb2).2 = true ↔ (ir.paths e).Dominates bb1 bb2) ∧
      (∀ fuel, ir.bbs.length < fuel →
        ((dominatesFrom (some e) bb1 (ir'.bbGeneration + 1) fuel { ir' with bbGeneration := ir'.bbGeneration + 1 }
          bb2).2 = true ↔ (ir.paths e).Dominates bb1 bb2)) ∧
      Remarked ir ir' ∧ FlowInvariant ∅ ir' := by
  have hrun : Remarked ir ir' := by
    induction hasked with
    | refl => exact .refl ir
    | tail _ hask ih =>
      obtain ⟨b1, b2, hb, rfl⟩ := hask
      refine ih.trans (dominatesNext_spec (e := e) (ih.flow h) ?_ hb).2
      rw [ih.frame]
      exact he
  have hflow := hrun.flow h
  have hpaths := hrun.paths e
  have hentry : (ir'.insn ir'.entry).bb = some e := by
    rw [hrun.frame]
    exact he
  have hbbs : ir'.bbs = ir.bbs := by rw [hrun.frame]
  refine ⟨by rw [(dominatesNext_spec hflow hentry hne).1, hpaths], fun fuel hfuel => ?_, hrun, hflow⟩
  have hnext : Remarked ir' { ir' with bbGeneration := ir'.bbGeneration + 1 } :=
    ⟨rfl, fun _ => rfl, fun hb b => Nat.le_succ_of_le (hb b)⟩
  have hfresh : ∀ b, ({ ir' with bbGeneration := ir'.bbGeneration + 1 }.block b).generation < ir'.bbGeneration + 1 :=
    fun b => Nat.lt_succ_of_le (hflow.generation b)
  rw [(dominatesFrom_spec (hnext.flow hflow) hne hfresh (hbbs ▸ hfuel)).1, hnext.paths e, hpaths]

end Ir

/-- The block of the branch dominates an arm, and the arms do not dominate one another. -/
theorem constantBranch_dominates :
    ((constantBranch.dominatesNext 1 2).1.dominatesNext 0 2).2 = true ∧
      (constantBranch.paths 0).Dominates 0 2 ∧ ¬ (constantBranch.paths 0).Dominates 1 2 := by
  have hflow : FlowInvariant ∅ constantBranch := by
    refine .of_check (fun b hb => ?_) (by decide)
    match b with
    | 0 | 1 | 2 => exact absurd hb (by decide)
    | n + 3 => rfl
  have hfirst : (constantBranch.dominatesNext 1 2).2 = true ↔ (constantBranch.paths 0).Dominates 1 2 :=
    (Ir.dominatesNext_decides hflow rfl .refl (by decide)).1
  have hsecond : ((constantBranch.dominatesNext 1 2).1.dominatesNext 0 2).2 = true ↔
      (constantBranch.paths 0).Dominates 0 2 :=
    (Ir.dominatesNext_decides hflow rfl (.single ⟨1, 2, by decide, rfl⟩) (by decide)).1
  have hyes : ((constantBranch.dominatesNext 1 2).1.dominatesNext 0 2).2 = true := by decide
  have hno : (constantBranch.dominatesNext 1 2).2 = false := by decide
  refine ⟨hyes, hsecond.1 hyes, fun hd => ?_⟩
  rw [hfirst.2 hd] at hno
  cases hno

end Sparse
