import Sparse.CseReplacement

/-!
# Where the common subexpression stands

The instruction that `try_to_cse` keeps stands in front of the other one in the same block, in a block
that dominates that of the other one, or at the end of the only parent of both blocks.
-/

namespace Sparse

open ProgramPaths

variable {ir ir' : Ir} {i j kept gone : InsnId} {b e b₁ b₂ c : BlockId}

/-- An instruction that is no jump may become a no-op. -/
theorem FlowInvariant.retire (h : FlowInvariant ∅ ir) (hi : (ir.insn i).opcode.isJump = false) :
    FlowInvariant ∅ (ir.setInsn i ({ · with opcode := .nop, bb := none })) where
  consistent := h.consistent
  named b hb hk c := by
    have hsuccessors : (ir.setInsn i ({ · with opcode := .nop, bb := none })).successors b = ir.successors b := by
      unfold Ir.successors
      rw [Ir.lastInstruction, Ir.setInsn_block, ← Ir.lastInstruction]
      cases ir.lastInstruction b with
      | none => rfl
      | some j =>
        by_cases hj : j = i
        · subst hj
          change ((ir.setInsn j _).insn j).successors = (ir.insn j).successors
          rw [Instruction.successors_of_isJump hi, Instruction.successors_of_isJump (by simp [Opcode.isJump])]
        · simp [hj]
    rw [hsuccessors]
    exact h.named b hb hk c
  killed := h.killed
  owner := h.owner
  jumpLast b j hj := by
    by_cases hji : j = i
    · simp [hji, Opcode.isJump]
    · rw [Ir.setInsn_insn, Function.update_of_ne hji]
      exact h.jumpLast b j hj
  allocated := h.allocated
  listed := h.listed
  bounded := h.bounded
  generation := h.generation

namespace Ir

theorem cseOneInstruction_flow (h : FlowInvariant ∅ ir) (hi : (ir.insn i).opcode.isJump = false) :
    FlowInvariant ∅ (ir.cseOneInstruction i j) := by
  have hflow := SameFlow.convertInstructionTarget ir i (ir.insn j).target
  obtain ⟨users, heq⟩ := cseOneInstruction_eq ir i j
  have husers : SameFlow ir { ir.convertInstructionTarget i (ir.insn j).target with users := users } :=
    ⟨hflow.block, hflow.bbs, hflow.entry, hflow.nextInsn, hflow.nextBlock, hflow.bbGeneration, hflow.flow⟩
  have hop := Instruction.opcode_of_flow (husers.flow i)
  rw [heq]
  exact (h.sameFlow husers).retire (by rwa [hop])

/-- The one that stands for both is executed before the other one. -/
theorem replaces_of_precedes (h : ir.SsaForm e) (hm : ir.Mergeable kept gone)
    (hp : (ir.paths e).Precedes kept gone) :
    Replaces ir (ir.cseOneInstruction gone kept) e kept gone ∧ (ir.cseOneInstruction gone kept).block = ir.block := by
  obtain ⟨hopk, -⟩ := Opcode.of_isHashed hm.opKept
  obtain ⟨hopg, hjump, -⟩ := Opcode.of_isHashed hm.opGone
  obtain ⟨hmerges, hbb, hblock⟩ := cseOneInstruction_merges h.uses hm.liveKept hm.liveGone hm.ne hopk hopg
  have hpaths : (ir.cseOneInstruction gone kept).paths e = ir.paths e := by
    unfold paths
    rw [hblock]
  refine ⟨⟨hmerges, cseOneInstruction_flow h.flow hjump, fun b => by rw [hblock], fun b => by rw [hblock],
    fun b _ => by rw [lastInstruction, hblock, lastInstruction], fun b => ?_, fun b hb => ?_, fun j _ hj => ?_,
    fun d _ hk hg => ?_⟩, hblock⟩
  · rw [hblock]
    exact h.nodup b
  · rw [hblock]
    exact h.placed kept b (hbb ▸ hb)
  · rw [hpaths]
    exact hj.elim id hp.trans
  · rw [hpaths]
    by_cases hd : d = gone
    · rw [if_pos hd]
      exact hp.trans (hd ▸ hk)
    · rwa [if_neg hd]

end Ir

/-! ## The end of the block above -/

section

variable {α : Type*} [DecidableEq α] {a x : α} {l : List α}

theorem getLast?_erase (h : l.getLast? ≠ some a) : (l.erase a).getLast? = l.getLast? := by
  rcases List.eq_nil_or_concat l with rfl | ⟨m, x, rfl⟩
  · rfl
  · rw [List.concat_eq_append, List.getLast?_concat] at h
    rw [List.concat_eq_append, List.erase_append]
    have hx : [x].erase a = [x] := List.erase_of_not_mem (by simpa using fun heq : a = x => h (heq ▸ rfl))
    split
    · simp
    · rw [hx]

theorem mem_dropLast_of_erase (h : x ∈ (l.erase a).dropLast) : x ∈ l.dropLast := by
  rcases List.eq_nil_or_concat l with rfl | ⟨m, y, rfl⟩
  · exact h
  · rw [List.concat_eq_append, List.erase_append] at h
    rw [List.concat_eq_append, List.dropLast_concat]
    split at h
    · rw [List.dropLast_concat] at h
      exact List.mem_of_mem_erase h
    · by_cases hy : y = a
      · rw [hy, List.erase_cons_head, List.append_nil] at h
        exact List.mem_of_mem_dropLast h
      · rwa [List.erase_of_not_mem (by simpa using Ne.symm hy), List.dropLast_concat] at h

end

namespace Ir

/-- `kept` goes from `b₁` to the end of `c`. -/
def hoist (ir : Ir) (kept : InsnId) (b₁ c : BlockId) : Ir :=
  (ir.removeInstruction b₁ kept).addInstructionToEnd kept c

/-- The instructions of a block after that. -/
def hoistedInsns (ir : Ir) (kept : InsnId) (b₁ c b : BlockId) : List InsnId :=
  if b = c then (ir.block c).insns.dropLast ++ kept :: (ir.lastInstruction c).toList
  else if b = b₁ then (ir.block b₁).insns.erase kept
  else (ir.block b).insns

theorem hoist_block (hne : c ≠ b₁) (b : BlockId) :
    (ir.hoist kept b₁ c).block b = { ir.block b with insns := ir.hoistedInsns kept b₁ c b } := by
  unfold hoist addInstructionToEnd removeInstruction deleteLastInstruction hoistedInsns
  simp only [setBlock_block, setInsn_block, lastInstruction, deletePtrListEntry_one, Function.update_self,
    Function.update_of_ne hne]
  by_cases hb : b = c
  · subst hb
    simp
  · rw [if_neg hb, Function.update_of_ne hb, Function.update_of_ne hb]
    by_cases hb₁ : b = b₁
    · subst hb₁
      simp
    · rw [if_neg hb₁, Function.update_of_ne hb₁]

theorem hoist_insn (j : InsnId) :
    (ir.hoist kept b₁ c).insn j = if j = kept then { ir.insn kept with bb := some c } else ir.insn j := by
  unfold hoist addInstructionToEnd removeInstruction deleteLastInstruction
  simp only [setBlock_insn, setInsn_insn, Function.update_apply]

theorem hoist_parents (hne : c ≠ b₁) (b : BlockId) :
    ((ir.hoist kept b₁ c).block b).parents = (ir.block b).parents := by rw [hoist_block hne]

theorem hoist_children (hne : c ≠ b₁) (b : BlockId) :
    ((ir.hoist kept b₁ c).block b).children = (ir.block b).children := by rw [hoist_block hne]

theorem hoist_killed (hne : c ≠ b₁) (b : BlockId) :
    ((ir.hoist kept b₁ c).block b).killed = (ir.block b).killed := by rw [hoist_block hne]

theorem hoist_insns (hne : c ≠ b₁) (b : BlockId) :
    ((ir.hoist kept b₁ c).block b).insns = ir.hoistedInsns kept b₁ c b := by rw [hoist_block hne]

variable {last : InsnId}

theorem hoistedInsns_above (hlast : ir.lastInstruction c = some last) :
    ir.hoistedInsns kept b₁ c c = (ir.block c).insns.dropLast ++ [kept, last] := by
  rw [hoistedInsns, if_pos rfl, hlast]
  rfl

/-- Only one instruction is somewhere else. -/
theorem mem_hoistedInsns (howner : ∀ b, kept ∈ (ir.block b).insns → b = b₁) (hnodup : (ir.block b₁).insns.Nodup)
    (hne : c ≠ b₁) (hlast : ir.lastInstruction c = some last) :
    i ∈ ir.hoistedInsns kept b₁ c b ↔ if i = kept then b = c else i ∈ (ir.block b).insns := by
  have hsplit : ∀ i, i ∈ (ir.block c).insns ↔ i ∈ (ir.block c).insns.dropLast ∨ i = last := fun i => by
    conv_lhs => rw [← List.dropLast_append_getLast? last hlast]
    simp
  by_cases hb : b = c
  · subst hb
    rw [hoistedInsns_above hlast, List.mem_append, List.mem_cons, List.mem_singleton, hsplit]
    by_cases hi : i = kept <;> simp [hi]
  · rw [hoistedInsns, if_neg hb]
    by_cases hb₁ : b = b₁
    · subst hb₁
      rw [if_pos rfl, hnodup.mem_erase_iff]
      by_cases hi : i = kept <;> simp [hi, hb]
    · rw [if_neg hb₁]
      by_cases hi : i = kept
      · subst hi
        simp only [if_true, hb, iff_false]
        exact fun hmem => hb₁ (howner b hmem)
      · rw [if_neg hi]

/-- The last instruction of a block that jumps stays. -/
theorem hoist_lastInstruction (hne : c ≠ b₁) (hlast : ir.lastInstruction c = some last)
    (hb : ir.lastInstruction b ≠ some kept) : (ir.hoist kept b₁ c).lastInstruction b = ir.lastInstruction b := by
  rw [lastInstruction, hoist_insns hne]
  by_cases hc : b = c
  · subst hc
    rw [hoistedInsns_above hlast, hlast]
    simp
  · rw [hoistedInsns, if_neg hc]
    by_cases hb₁ : b = b₁
    · subst hb₁
      rw [if_pos rfl]
      exact getLast?_erase hb
    · rw [if_neg hb₁]
      rfl

end Ir

/-- The flow graph stays as it is. -/
theorem FlowInvariant.hoist (h : FlowInvariant ∅ ir) (hmem : kept ∈ (ir.block b₁).insns)
    (hnodup : (ir.block b₁).insns.Nodup) (hjump : (ir.insn kept).opcode.isJump = false) (hne : c ≠ b₁) {last : InsnId}
    (hlast : ir.lastInstruction c = some last) : FlowInvariant ∅ (ir.hoist kept b₁ c) := by
  have hop : ∀ i, ((ir.hoist kept b₁ c).insn i).opcode = (ir.insn i).opcode := fun i => by
    rw [Ir.hoist_insn]
    split
    · rename_i heq
      rw [heq]
    · rfl
  have hsucc : ∀ i, ((ir.hoist kept b₁ c).insn i).successors = (ir.insn i).successors := fun i => by
    rw [Ir.hoist_insn]
    split
    · rename_i heq
      rw [heq]
      rfl
    · rfl
  have hin : ∀ {i b}, i ∈ ir.hoistedInsns kept b₁ c b ↔ if i = kept then b = c else i ∈ (ir.block b).insns :=
    Ir.mem_hoistedInsns (fun b hb => h.owner b b₁ kept hb hmem) hnodup hne hlast
  have hlasts : ∀ b, ∀ i ∈ (ir.hoistedInsns kept b₁ c b).dropLast, i = kept ∨ i ∈ (ir.block b).insns.dropLast := by
    intro b i hi
    by_cases hb : b = c
    · subst hb
      rw [Ir.hoistedInsns_above hlast, List.dropLast_append_of_ne_nil (List.cons_ne_nil _ _)] at hi
      rcases List.mem_append.1 hi with hi | hi
      · exact .inr hi
      · exact .inl (List.mem_singleton.1 hi)
    · rw [Ir.hoistedInsns, if_neg hb] at hi
      by_cases hb₁ : b = b₁
      · subst hb₁
        rw [if_pos rfl] at hi
        exact .inr (mem_dropLast_of_erase hi)
      · rw [if_neg hb₁] at hi
        exact .inr hi
  refine ⟨fun p x => ?_, fun b hb hk x => ?_, fun b hk => ?_, fun b b' i hi hi' => ?_, fun b i hi => ?_,
    fun b i hi => ?_, fun b hb => ?_, fun b x hx => ?_, fun b => ?_⟩
  · change ((ir.hoist kept b₁ c).block x).parents.count p = ((ir.hoist kept b₁ c).block p).children.count x
    rw [Ir.hoist_parents hne, Ir.hoist_children hne]
    exact h.consistent p x
  · have hsuccessors : (ir.hoist kept b₁ c).successors b = ir.successors b := by
      unfold Ir.successors
      by_cases hend : ir.lastInstruction b = some kept
      · -- the block ends without a jump, before and after
        rw [hend]
        refine Eq.trans ?_ (Instruction.successors_of_isJump hjump).symm
        cases hnew : (ir.hoist kept b₁ c).lastInstruction b with
        | none => rfl
        | some i =>
          refine (hsucc i).trans (Instruction.successors_of_isJump ?_)
          have hmem := List.mem_of_getLast? hnew
          rw [Ir.hoist_insns hne, hin] at hmem
          split at hmem
          · rename_i heq
            rw [heq]
            exact hjump
          · rename_i hik
            refine h.jumpLast b i ?_
            have hsplit := List.dropLast_append_getLast? kept hend
            rw [← hsplit, List.mem_append, List.mem_singleton] at hmem
            exact hmem.resolve_right hik
      · rw [Ir.hoist_lastInstruction hne hlast hend]
        cases ir.lastInstruction b with
        | none => rfl
        | some i => exact hsucc i
    rw [Ir.hoist_children hne, hsuccessors]
    exact h.named b hb (Ir.hoist_killed hne b ▸ hk) x
  · rw [Ir.hoist_killed hne] at hk
    obtain ⟨hp, hc, hi⟩ := h.killed b hk
    rw [Ir.hoist_parents hne, Ir.hoist_children hne, Ir.hoist_insns hne]
    refine ⟨hp, hc, List.eq_nil_iff_forall_not_mem.2 fun i hmem => ?_⟩
    rw [hin, hi] at hmem
    split at hmem
    · rw [hmem] at hi
      rw [Ir.lastInstruction, hi] at hlast
      cases hlast
    · exact absurd hmem List.not_mem_nil
  · rw [Ir.hoist_insns hne, hin] at hi hi'
    by_cases hik : i = kept
    · rw [if_pos hik] at hi hi'
      exact hi.trans hi'.symm
    · rw [if_neg hik] at hi hi'
      exact h.owner b b' i hi hi'
  · rw [hop]
    rw [Ir.hoist_insns hne] at hi
    rcases hlasts b i hi with rfl | hi
    · exact hjump
    · exact h.jumpLast b i hi
  · rw [Ir.hoist_insns hne, hin] at hi
    by_cases hik : i = kept
    · exact hik ▸ h.allocated b₁ kept hmem
    · rw [if_neg hik] at hi
      exact h.allocated b i hi
  · rw [Ir.hoist_children hne] at hb
    exact h.listed b hb
  · rw [Ir.hoist_children hne] at hx
    exact h.bounded b x hx
  · rw [Ir.hoist_block hne]
    exact h.generation b

/-- The invariant is about the slots of live instructions, wherever they stand. -/
theorem UseInvariant.of_same (h : UseInvariant ir) (hform : ∀ j, (ir'.insn j).form = (ir.insn j).form)
    (hlive : ∀ j, ir'.live j ↔ ir.live j) (hload : ∀ s, ir'.load s = ir.load s) (husers : ir'.users = ir.users)
    (hdef : ir'.definition = ir.definition) (hinsn : ir'.nextInsn = ir.nextInsn) (hcell : ir'.nextCell = ir.nextCell) :
    UseInvariant ir' := by
  have howns : ∀ {j s}, ir'.Owns j s ↔ ir.Owns j s := fun {j s} => by
    unfold Ir.Owns
    rw [hlive, Instruction.operandSlots_of_form (hform j)]
  have hop : ∀ j, (ir'.insn j).opcode = (ir.insn j).opcode := fun j => Instruction.opcode_of_form (hform j)
  have htarget : ∀ j, (ir'.insn j).target = (ir.insn j).target := fun j => hload (.target j)
  have halloc : ∀ s, ir'.Allocated s ↔ ir.Allocated s := fun s => by cases s <;> simp [Ir.Allocated, hinsn, hcell]
  refine ⟨fun j s ho p hp => ?_, fun p hp hsym pu hpu => ?_, fun j s ho nr d hl hd => ?_, fun nr d hd => ?_,
    fun p d hd hreg => ?_, fun j hj hres => ?_, fun j k s hj hk => ?_, fun p hp pu hpu j hj => ?_, fun j hj => ?_,
    fun j c ho => ?_, fun p hp pu hpu => ?_, fun p d hd => ?_⟩
  · unfold Ir.entries
    rw [husers, hload]
    exact h.exact j s (howns.1 ho) p hp
  · rw [hload]
    exact h.back p hp hsym pu (husers ▸ hpu)
  · rw [hload] at hl
    exact (hlive d).2 (h.defined j s (howns.1 ho) nr d hl (hdef ▸ hd))
  · rw [htarget, hop]
    exact h.result nr d (hdef ▸ hd)
  · rw [hop]
    exact h.other p d (hdef ▸ hd) hreg
  · rw [hop] at hres
    rw [htarget, hdef]
    exact h.defines j ((hlive j).1 hj) hres
  · exact h.unique j k s (howns.1 hj) (howns.1 hk)
  · rw [hop]
    exact h.targets p hp pu (husers ▸ hpu) j hj
  · rw [hinsn]
    exact h.liveAllocated j ((hlive j).1 hj)
  · rw [hcell]
    exact h.cellAllocated j c (howns.1 ho)
  · rw [halloc]
    exact h.userAllocated p hp pu (husers ▸ hpu)
  · rw [hinsn]
    exact h.definitionAllocated p d (hdef ▸ hd)

namespace Ir

theorem load_hoist (ir : Ir) (kept : InsnId) (b₁ c : BlockId) (s : Address) :
    (ir.hoist kept b₁ c).load s = ir.load s := by
  cases s with
  | cell n => rfl
  | target j | src1 j | src2 j | src3 j =>
    simp only [load, hoist_insn]
    split
    · rename_i heq
      rw [heq]
    · rfl

/-- The instruction that is kept goes up. -/
theorem Merges.hoist (h : Merges ir ir' kept gone) (hne : gone ≠ kept) (hkept : ir.live kept) :
    Merges ir (ir'.hoist kept b₁ c) kept gone := by
  have hlive' : ir'.live kept := (h.live kept).2 ⟨hne.symm, hkept⟩
  have hlive : ∀ j, (ir'.hoist kept b₁ c).live j ↔ ir'.live j := fun j => by
    unfold Ir.live
    rw [hoist_insn]
    split
    · rename_i heq
      subst heq
      exact iff_of_true (Option.some_ne_none c) hlive'
    · rfl
  have hform : ∀ j, ((ir'.hoist kept b₁ c).insn j).form = (ir'.insn j).form := fun j => by
    rw [hoist_insn]
    split
    · rename_i heq
      rw [heq]
      rfl
    · rfl
  have howns : ∀ j s, (ir'.hoist kept b₁ c).Owns j s → ir'.Owns j s := fun j s ho =>
    ⟨(hlive j).1 ho.1, Instruction.operandSlots_of_form (hform j) j ▸ ho.2⟩
  refine ⟨h.uses.of_same hform hlive (load_hoist ir' kept b₁ c) rfl rfl rfl rfl, fun j hj => ?_, ?_,
    fun j => (hlive j).trans (h.live j), fun j s ho => ?_, fun j hj => ?_, fun j hj hk => ?_, h.definition, h.entry⟩
  · rw [hoist_insn]
    split
    · rename_i heq
      rw [← h.rest j hj, heq]
      rfl
    · exact h.rest j hj
  · rw [hoist_insn, if_neg hne]
    exact h.nop
  · rw [load_hoist]
    exact h.load j s (howns j s ho)
  · have htarget := load_hoist ir' kept b₁ c (.target j)
    exact htarget.trans (h.target j hj)
  · rw [hoist_insn, if_neg hk]
    exact h.bb j hj hk

/-- A block that another comes after ends with a jump to it. -/
theorem exists_last (h : FlowInvariant ∅ ir) (hc : b ∈ (ir.block c).children) :
    ∃ last, ir.lastInstruction c = some last ∧ (ir.insn last).opcode.isJump = true := by
  have hcount := h.named c (Set.notMem_empty c) (h.live_of_mem_children hc).1 b
  have hmem : b ∈ ir.successors c := by
    rw [← List.count_pos_iff, ← hcount]
    exact List.count_pos_iff.2 hc
  unfold successors at hmem
  split at hmem
  · rename_i last hlast
    refine ⟨last, hlast, ?_⟩
    by_contra hjump
    rw [Instruction.successors_of_isJump (Bool.eq_false_of_not_eq_true hjump)] at hmem
    exact absurd hmem List.not_mem_nil
  · exact absurd hmem List.not_mem_nil

theorem filter_hoistedInsns (h : ir.SsaForm e) (hmem : kept ∈ (ir.block b₁).insns) (hne : c ≠ b₁) {last : InsnId}
    (hlast : ir.lastInstruction c = some last) (b : BlockId) :
    (ir.hoistedInsns kept b₁ c b).filter (· ≠ kept) = (ir.block b).insns.filter (· ≠ kept) := by
  by_cases hb : b = c
  · subst hb
    rw [hoistedInsns_above hlast, List.filter_append]
    conv_rhs => rw [← List.dropLast_append_getLast? last hlast, List.filter_append]
    simp
  · rw [hoistedInsns, if_neg hb]
    by_cases hb₁ : b = b₁
    · subst hb₁
      rw [if_pos rfl, (h.nodup b).erase_eq_filter, List.filter_filter]
      refine List.filter_congr fun x _ => ?_
      by_cases hx : x = kept <;> simp [hx]
    · rw [if_neg hb₁]

/-- Both blocks come after one block only, and the instruction that is kept goes to its end. -/
theorem replaces_of_parent (h : ir.SsaForm e) (hm : ir.Mergeable kept gone) (hb₁ : (ir.insn kept).bb = some b₁)
    (hb₂ : (ir.insn gone).bb = some b₂) (hp₁ : (ir.block b₁).parents = [c]) (hp₂ : (ir.block b₂).parents = [c])
    (hapart : b₁ ≠ b₂) (hne : c ≠ b₁) :
    Replaces ir ((ir.cseOneInstruction gone kept).hoist kept b₁ c) e kept gone := by
  obtain ⟨hopk, hjumpk, -⟩ := Opcode.of_isHashed hm.opKept
  obtain ⟨hopg, hjump, -⟩ := Opcode.of_isHashed hm.opGone
  obtain ⟨hmerges, -, hblock⟩ := cseOneInstruction_merges h.uses hm.liveKept hm.liveGone hm.ne hopk hopg
  have hflow := cseOneInstruction_flow (j := kept) h.flow hjump
  have hopk' : ((ir.cseOneInstruction gone kept).insn kept).opcode = (ir.insn kept).opcode :=
    (Instruction.of_withoutSlots (hmerges.rest kept hm.ne.symm)).1
  have hmem₁ := h.placed kept b₁ hb₁
  have hmem₂ := h.placed gone b₂ hb₂
  have hchild₁ : b₁ ∈ (ir.block c).children := h.mem_children_iff.2 (by rw [hp₁]; exact List.mem_singleton_self c)
  have hchild₂ : b₂ ∈ (ir.block c).children := h.mem_children_iff.2 (by rw [hp₂]; exact List.mem_singleton_self c)
  obtain ⟨last, hlast, hjumplast⟩ := exists_last h.flow hchild₁
  have hmerged : Merges ir ((ir.cseOneInstruction gone kept).hoist kept b₁ c) kept gone :=
    hmerges.hoist hm.ne hm.liveKept
  generalize ir.cseOneInstruction gone kept = ir₁ at *
  have hlast₁ : ir₁.lastInstruction c = some last := by rw [lastInstruction, hblock]; exact hlast
  have hinsns : ∀ b, ((ir₁.hoist kept b₁ c).block b).insns = ir.hoistedInsns kept b₁ c b := fun b => by
    rw [hoist_insns hne, hoistedInsns, hoistedInsns, lastInstruction, hblock]
    rfl
  have howner : ∀ b, kept ∈ (ir.block b).insns → b = b₁ := fun b hb => h.flow.owner b b₁ kept hb hmem₁
  have hin : ∀ {i b}, i ∈ ir.hoistedInsns kept b₁ c b ↔ if i = kept then b = c else i ∈ (ir.block b).insns :=
    mem_hoistedInsns howner (h.nodup b₁) hne hlast
  have hnotLast : kept ≠ last := by
    rintro rfl
    rw [hjumpk] at hjumplast
    cases hjumplast
  have hcode : ∀ b, ((ir₁.hoist kept b₁ c).block b).insns.filter (· ≠ kept) = (ir.block b).insns.filter (· ≠ kept) :=
    fun b => by rw [hinsns, filter_hoistedInsns h hmem₁ hne hlast]
  have hchildren : ∀ b, ((ir₁.hoist kept b₁ c).block b).children = (ir.block b).children := fun b => by
    rw [hoist_children hne, hblock]
  have hoists : Program.Hoists (ir.paths e) ((ir₁.hoist kept b₁ c).paths e) c b₁ b₂ kept gone last := by
    refine ⟨rfl, ?_, paths_free, h.placed_paths, hcode, ⟨(ir.block c).insns.dropLast,
      (List.dropLast_append_getLast? last hlast).symm, ?_⟩, fun b hb hk => ?_, hmem₁, hmem₂, fun _ b hj => ?_,
      fun _ b hj => ?_, fun _ => hchild₁, fun _ => hchild₂, ?_, ?_, hapart, hne⟩
    · funext done b x
      exact congrArg (x ∈ ·) (hchildren b)
    · exact (hinsns c).trans (hoistedInsns_above hlast)
    · have hk' : kept ∈ ((ir₁.hoist kept b₁ c).block b).insns := hk
      rw [hinsns, hin, if_pos rfl] at hk'
      exact hb hk'
    · have hmem := h.mem_children_iff.1 hj
      rwa [hp₁, List.mem_singleton] at hmem
    · have hmem := h.mem_children_iff.1 hj
      rwa [hp₂, List.mem_singleton] at hmem
    · rintro heq
      have hnone := h.entry
      rw [show e = b₁ from heq, hp₁] at hnone
      cases hnone
    · rintro heq
      have hnone := h.entry
      rw [show e = b₂ from heq, hp₂] at hnone
      cases hnone
  refine ⟨hmerged, hflow.hoist (by rw [hblock]; exact hmem₁) (by rw [hblock]; exact h.nodup b₁) (by rw [hopk']; exact hjumpk)
    hne hlast₁, hchildren, hcode, fun b hb => ?_, fun b => ?_, fun b hb => ?_, fun j hj => hoists.precedes_reader hj,
    fun d hd hk hg => ?_⟩
  · have hsame : ir₁.lastInstruction b = ir.lastInstruction b := by rw [lastInstruction, hblock, lastInstruction]
    rw [hoist_lastInstruction hne hlast₁, hsame]
    rw [hsame]
    obtain ⟨x, hx⟩ := List.exists_mem_of_ne_nil _ hb
    obtain ⟨last', hlast', hjump'⟩ := exists_last h.flow hx
    rw [hlast']
    rintro heq
    rw [Option.some.inj heq, hjumpk] at hjump'
    cases hjump'
  · rw [hinsns]
    by_cases hb : b = c
    · subst hb
      rw [hoistedInsns_above hlast]
      have hnodup := h.nodup b
      have hnot : kept ∉ (ir.block b).insns := fun hk => hne (howner b hk)
      rw [← List.dropLast_append_getLast? last hlast] at hnodup hnot
      rw [List.nodup_append] at hnodup ⊢
      simp only [List.mem_append, List.mem_singleton, not_or] at hnot
      refine ⟨hnodup.1, by simpa using hnotLast, fun x hx y hy => ?_⟩
      rcases List.mem_cons.1 hy with rfl | hy
      · exact ne_of_mem_of_not_mem hx hnot.1
      · exact hnodup.2.2 x hx y hy
    · rw [hoistedInsns, if_neg hb]
      split
      · exact (h.nodup b₁).erase kept
      · exact h.nodup b
  · rw [hoist_insn, if_pos rfl] at hb
    rw [hinsns, hin, if_pos rfl]
    exact (Option.some.inj hb).symm
  · refine hoists.precedes_moved ?_ hk hg
    rintro rfl
    cases hop : (ir.insn d).opcode <;> simp [hop, Opcode.isJump, Opcode.storesTarget] at hjumplast hd

/-! ## One pair -/

theorem Mergeable.symm (hm : ir.Mergeable i j) : ir.Mergeable j i :=
  ⟨hm.ne.symm, hm.liveGone, hm.liveKept, hm.opGone, hm.opKept, hm.opcode.symm, hm.operands.symm⟩

namespace Remarked

variable (hr : Remarked ir ir')
include hr

theorem uses (h : UseInvariant ir) : UseInvariant ir' := by
  rw [hr.frame]
  exact ⟨h.exact, h.back, h.defined, h.result, h.other, h.defines, h.unique, h.targets, h.liveAllocated,
    h.cellAllocated, h.userAllocated, h.definitionAllocated⟩

theorem ssaForm (h : ir.SsaForm e) : ir'.SsaForm e := by
  have hframe := hr.frame
  refine ⟨hr.uses h.uses, hr.flow h.flow, fun nr d hd => by rw [hr.frame] at hd ⊢; exact h.results nr d hd,
    by rw [hr.parents]; exact h.entry, fun b => by rw [hr.insns]; exact h.nodup b,
    fun i b hb => ?_, fun i s ho nr d hl hd => ?_, fun d hd hop => ?_, fun i hi hop => ?_, fun i hi hop => ?_⟩
  · rw [hr.insns]
    exact h.placed i b (hr.insn ▸ hb)
  · rw [hr.paths]
    rw [hframe] at ho hl hd
    exact h.defined i s ho nr d hl hd
  · rw [hframe] at hd hop ⊢
    exact h.source d hd hop
  · rw [hframe] at hi hop ⊢
    exact h.entries i hi hop
  · rw [hframe] at hi hop ⊢
    exact h.agree i hi hop

theorem mergeable (hm : ir.Mergeable i j) : ir'.Mergeable i j := by
  rw [hr.frame]
  exact ⟨hm.ne, hm.liveKept, hm.liveGone, hm.opKept, hm.opGone, hm.opcode, hm.operands⟩

end Remarked

/-- Where neither block dominates the other, the block above both is another one. -/
theorem above_of_not_dominates (h : ir.SsaForm e) (hp₁ : (ir.block b₁).parents = [c])
    (hp₂ : (ir.block b₂).parents = [c]) (hdom : ¬ (ir.paths e).Dominates b₁ b₂) : c ≠ b₁ := by
  rintro rfl
  refine hdom (Program.dominates_iff.2 ?_)
  rintro ⟨-, hreach⟩
  rcases Relation.ReflTransGen.cases_tail hreach with heq | ⟨x, -, hjump, hx, -⟩
  · have hnone := h.entry
    rw [show e = b₂ from heq.symm, hp₂] at hnone
    cases hnone
  · have hmem := h.mem_children_iff.1 hjump
    rw [hp₂, List.mem_singleton] at hmem
    exact hx hmem

/-- Of two instructions in a block one stands in front of the other. -/
theorem sublist_of_find {l : List InsnId} (hi : i ∈ l) (hne : i ≠ j)
    (hj : l.find? (fun insn => insn = i ∨ insn = j) = some j) : [j, i].Sublist l := by
  obtain ⟨-, pre, post, rfl, hpre⟩ := List.find?_eq_some_iff_append.1 hj
  rw [List.mem_append, List.mem_cons] at hi
  have hpost : i ∈ post := by
    rcases hi with hi | hi | hi
    · have hnot := hpre i hi
      simp at hnot
    · exact absurd hi hne
    · exact hi
  exact ((List.singleton_sublist.2 hpost).cons_cons j).trans (List.sublist_append_right pre _)

/-- The two stand in one block, which stays as it is. -/
structure InBlock (ir ir' : Ir) (b : BlockId) (kept gone : InsnId) : Prop where
  order : [kept, gone].Sublist (ir.block b).insns
  block : ir'.block = ir.block

/-- `try_to_cse` leaves the code alone, or lets one of the two stand for both. -/
theorem tryToCse_spec (h : ir.SsaForm e) (he : (ir.insn ir.entry).bb = some e) (hm : ir.Mergeable i j) :
    ∃ ir₁, Remarked ir ir₁ ∧ (ir.tryToCse i j = (ir₁, i) ∨ ∃ kept gone, (kept = i ∧ gone = j ∨ kept = j ∧ gone = i) ∧
      (ir.tryToCse i j).2 = kept ∧ Replaces ir₁ (ir.tryToCse i j).1 e kept gone ∧
      ∀ b, (ir.insn i).bb = some b → (ir.insn j).bb = some b → InBlock ir₁ (ir.tryToCse i j).1 b kept gone) := by
  obtain ⟨b₁, hb₁⟩ := Option.ne_none_iff_exists'.1 hm.liveKept
  obtain ⟨b₂, hb₂⟩ := Option.ne_none_iff_exists'.1 hm.liveGone
  have hmem₁ := h.placed i b₁ hb₁
  have hmem₂ := h.placed j b₂ hb₂
  unfold tryToCse
  simp only [hb₁, hb₂]
  by_cases hb : b₁ = b₂
  · subst hb
    rw [if_pos rfl]
    refine ⟨ir, .refl ir, ?_⟩
    cases hfind : (ir.block b₁).insns.find? (fun insn => insn = i ∨ insn = j) with
    | none => exact .inl rfl
    | some k =>
      have hk : k = i ∨ k = j := by simpa using List.find?_some hfind
      dsimp only
      by_cases hki : k = i
      · subst hki
        rw [if_pos rfl]
        have hs := sublist_of_find hmem₂ hm.ne (by simpa only [or_comm] using hfind)
        have hreplaces := replaces_of_precedes h hm (h.placed_paths.precedes_of_sublist hs)
        exact .inr ⟨k, j, .inl ⟨rfl, rfl⟩, rfl, hreplaces.1, fun b hb _ => ⟨Option.some.inj hb ▸ hs, hreplaces.2⟩⟩
      · obtain rfl := hk.resolve_left hki
        rw [if_neg hki]
        have hs := sublist_of_find hmem₁ (Ne.symm hki) hfind
        have hreplaces := replaces_of_precedes h hm.symm (h.placed_paths.precedes_of_sublist hs)
        exact .inr ⟨k, i, .inr ⟨rfl, rfl⟩, rfl, hreplaces.1, fun b hb _ => ⟨Option.some.inj hb ▸ hs, hreplaces.2⟩⟩
  · rw [if_neg hb]
    have hapart : ∀ {P : BlockId → Prop} b, some b₁ = some b → some b₂ = some b → P b := fun b h₁ h₂ =>
      absurd (Option.some.inj (h₁.trans h₂.symm)) hb
    obtain ⟨hdom₁, hr₁⟩ := dominatesNext_spec h.flow he hb
    cases hd₁ : ir.dominatesNext b₁ b₂ with
    | mk ir₁ dominates₁ =>
      rw [hd₁] at hdom₁ hr₁
      dsimp only at hdom₁ hr₁
      have h₁ := hr₁.ssaForm h
      cases dominates₁ with
      | true =>
        have hp := (hdom₁.1 rfl).precedes h.placed_paths paths_free hb hmem₁ hmem₂
        rw [← hr₁.paths] at hp
        exact ⟨ir₁, hr₁, .inr ⟨i, j, .inl ⟨rfl, rfl⟩, rfl, (replaces_of_precedes h₁ (hr₁.mergeable hm) hp).1, hapart⟩⟩
      | false =>
        have he₁ : (ir₁.insn ir₁.entry).bb = some e := by rw [hr₁.frame]; exact he
        obtain ⟨hdom₂, hr₂⟩ := dominatesNext_spec h₁.flow he₁ (Ne.symm hb)
        dsimp only
        cases hd₂ : ir₁.dominatesNext b₂ b₁ with
        | mk ir₂ dominates₂ =>
          rw [hd₂] at hdom₂ hr₂
          dsimp only at hdom₂ hr₂
          have h₂ := hr₂.ssaForm h₁
          have hr := hr₁.trans hr₂
          cases dominates₂ with
          | true =>
            rw [hr₁.paths] at hdom₂
            have hp := (hdom₂.1 rfl).precedes h.placed_paths paths_free (Ne.symm hb) hmem₂ hmem₁
            rw [← hr.paths] at hp
            exact ⟨ir₂, hr, .inr ⟨j, i, .inr ⟨rfl, rfl⟩, rfl,
              (replaces_of_precedes h₂ (hr.mergeable hm.symm) hp).1, hapart⟩⟩
          | false =>
            dsimp only
            cases hcommon : ir₂.trivialCommonParent b₁ b₂ with
            | none => exact ⟨ir₂, hr, .inl rfl⟩
            | some c =>
              obtain ⟨hp₁, hp₂⟩ : (ir₂.block b₁).parents = [c] ∧ (ir₂.block b₂).parents = [c] := by
                unfold trivialCommonParent at hcommon
                split at hcommon
                · rename_i parent parent2 hp hp2
                  split at hcommon
                  · rename_i heq
                    rw [hp, hp2, heq, Option.some.inj hcommon]
                    exact ⟨rfl, rfl⟩
                  · cases hcommon
                · cases hcommon
              have hnot : ¬ (ir₂.paths e).Dominates b₁ b₂ := fun hd => by
                rw [hr.paths] at hd
                exact Bool.false_ne_true (hdom₁.2 hd)
              have habove := above_of_not_dominates h₂ hp₁ hp₂ hnot
              exact ⟨ir₂, hr, .inr ⟨i, j, .inl ⟨rfl, rfl⟩, rfl, replaces_of_parent h₂ (hr.mergeable hm)
                (by rw [hr.insn]; exact hb₁) (by rw [hr.insn]; exact hb₂) hp₁ hp₂ hb habove, hapart⟩⟩

end Ir

end Sparse
