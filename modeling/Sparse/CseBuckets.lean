import Sparse.CsePhis
import Mathlib.Data.List.Sort
import Mathlib.Logic.Encodable.Basic

/-!
# The buckets of common subexpressions

The instructions of a bucket are sorted, and each is compared with the one before it. Operations and
phis that compare equal become one, and the function shows the executions that it showed before.
-/

namespace Sparse

open ProgramPaths

/-- The objects lie where they lay. -/
def Pointers.keep {ir ir' : Ir} (P : Pointers ir) (h : ∀ i, (ir'.insn i).origType = (ir.insn i).origType) :
    Pointers ir' :=
  { P with origType_apart := fun i j hij => by rw [h, h]; exact P.origType_apart i j hij }

/-- The same operation, whatever the operands are and the types are good for. -/
def Instruction.SameOperator (x y : Instruction) : Prop :=
  x.opcode = y.opcode ∧ x.size = y.size ∧ (x.opcode.isCast = true → x.origType = y.origType)

instance (x y : Instruction) : Decidable (x.SameOperator y) := inferInstanceAs (Decidable (_ ∧ _ ∧ _))

namespace Ir

variable {ir ir' : Ir}

/-- Nothing that `try_to_cse` does changes the type that a cast comes from. -/
def SameTypes (ir ir' : Ir) : Prop := ∀ i, (ir'.insn i).origType = (ir.insn i).origType

theorem SameTypes.trans {ir'' : Ir} (h : SameTypes ir ir') (h' : SameTypes ir' ir'') : SameTypes ir ir'' :=
  fun i => (h' i).trans (h i)

theorem SameTypes.setInsn (ir : Ir) (i : InsnId) {f : Instruction → Instruction}
    (hf : (f (ir.insn i)).origType = (ir.insn i).origType) : SameTypes ir (ir.setInsn i f) := by
  intro j
  by_cases hj : j = i
  · subst hj
    simpa using hf
  · simp [hj]

theorem SameTypes.cseOneInstruction (ir : Ir) (i d : InsnId) : SameTypes ir (ir.cseOneInstruction i d) := by
  have hconvert : SameTypes ir (ir.convertInstructionTarget i (ir.insn d).target) := fun j =>
    (Instruction.of_withoutSlots (SameRest.convertInstructionTarget ir i (ir.insn d).target j)).2.2.2.1
  have hdrop : ∀ (cs : List CellId) (ir₁ : Ir), SameTypes ir₁ (cs.foldl (dropPhiUsers i) ir₁) := by
    intro cs
    induction cs with
    | nil => exact fun _ _ => rfl
    | cons c cs ih => exact fun ir₁ => SameTypes.trans (fun _ => rfl) (ih (dropPhiUsers i ir₁ c))
  unfold Ir.cseOneInstruction
  dsimp only
  split
  · exact (hconvert.trans (hdrop _ _)).trans (.setInsn _ _ rfl)
  · exact hconvert.trans (.setInsn _ _ rfl)

theorem SameTypes.hoist (ir : Ir) (kept : InsnId) (b₁ c : BlockId) : SameTypes ir (ir.hoist kept b₁ c) := by
  intro j
  rw [hoist_insn]
  split
  · rename_i heq
    rw [heq]
  · rfl

theorem dominatesFrom_insn (entry : Option BlockId) (bb1 : BlockId) (generation fuel : ℕ) (ir : Ir) (bb2 : BlockId) :
    (dominatesFrom entry bb1 generation fuel ir bb2).1.insn = ir.insn := by
  have hparents : ∀ (dominates : Ir → BlockId → Ir × Bool), (∀ ir b, (dominates ir b).1.insn = ir.insn) →
      ∀ (parents : List BlockId) (ir : Ir),
        (dominatesParents bb1 generation dominates ir parents).1.insn = ir.insn := by
    intro dominates hrec parents
    induction parents with
    | nil => exact fun _ => rfl
    | cons parent parents ih =>
      intro ir
      have hmarked := hrec (ir.setBlock parent ({ · with generation := generation })) parent
      rw [dominatesParents]
      split
      · exact ih ir
      · split
        · exact ih ir
        · split
          · rename_i ir' hd
            rw [hd] at hmarked
            exact (ih ir').trans hmarked
          · rename_i ir' hd
            rw [hd] at hmarked
            exact hmarked
  induction fuel generalizing ir bb2 with
  | zero => rfl
  | succ fuel ih =>
    rw [dominatesFrom]
    split
    · rfl
    · exact hparents _ ih _ ir

theorem SameTypes.dominatesNext (ir : Ir) (bb1 bb2 : BlockId) : SameTypes ir (ir.dominatesNext bb1 bb2).1 := by
  intro i
  have hinsn : (ir.dominatesNext bb1 bb2).1.insn = ir.insn := dominatesFrom_insn _ _ _ _ _ _
  rw [hinsn]

theorem SameTypes.tryToCse (ir : Ir) (i1 i2 : InsnId) : SameTypes ir (ir.tryToCse i1 i2).1 := by
  unfold Ir.tryToCse
  split
  · split
    · split
      · split
        · exact cseOneInstruction ir i2 i1
        · exact cseOneInstruction ir i1 i2
      · exact fun _ => rfl
    · rename_i b1 b2 _ _ _
      have h₁ := dominatesNext ir b1 b2
      split
      · rename_i ir₁ hd
        rw [hd] at h₁
        exact h₁.trans (cseOneInstruction _ _ _)
      · rename_i ir₁ hd
        rw [hd] at h₁
        have h₂ := dominatesNext ir₁ b2 b1
        split
        · rename_i ir₂ hd₂
          rw [hd₂] at h₂
          exact (h₁.trans h₂).trans (cseOneInstruction _ _ _)
        · rename_i ir₂ hd₂
          rw [hd₂] at h₂
          split
          · rename_i common _
            exact ((h₁.trans h₂).trans (cseOneInstruction ir₂ i2 i1)).trans (hoist _ i1 b1 common)
          · exact h₁.trans h₂
  · exact fun _ => rfl

/-- The loop of `cleanup_and_cse` over a bucket; `last` is the instruction before. -/
def cseList : (s : (ir : Ir) × Pointers ir) → Option InsnId → List InsnId → (ir : Ir) × Pointers ir
  | s, _, [] => s
  | s, last, i :: is =>
    if (s.1.insn i).bb = none then cseList s last is
    else
      match last with
      | none => cseList s (some i) is
      | some l =>
        if insnCompare s.2 l i = .eq then
          cseList ⟨(s.1.tryToCse l i).1, s.2.keep (SameTypes.tryToCse s.1 l i)⟩ (some (s.1.tryToCse l i).2) is
        else cseList s (some i) is

/-- `sort_instruction_list`: the sort is stable. -/
def sortInstructionList {ir : Ir} (P : Pointers ir) (list : List InsnId) : List InsnId :=
  list.mergeSort fun a b => insnCompare P a b != .gt

/-- The loop of `cleanup_and_cse` over the buckets of the hash table. -/
def cseTable (s : (ir : Ir) × Pointers ir) (table : List (List InsnId)) : (ir : Ir) × Pointers ir :=
  table.foldl (fun s list => if 1 < list.length then cseList s none (sortInstructionList s.2 list) else s) s

/-! ## One pair -/

variable {P : Pointers ir} {M : Meaning} {e : BlockId} {i j : InsnId}

theorem hashBucket_isSome :
    (hashBucket P i).isSome = true ↔ (ir.insn i).opcode.isHashed = true := by
  unfold hashBucket
  cases hop : (ir.insn i).opcode <;> simp [hop, Opcode.isHashed, Opcode.isOperation, Opcode.isPure, Opcode.isBinary]

theorem opcode_of_compare (hcompare : insnCompare P i j = .eq) : (ir.insn i).opcode = (ir.insn j).opcode :=
  Opcode.ctorIdx_injective (List.cons.inj (insnCompare_eq_iff.1 hcompare)).1

/-- Operations that compare equal do the same. -/
theorem sameComputation_of_compare (hcompare : insnCompare P i j = .eq)
    (hop : (ir.insn i).opcode.isOperation = true)
    (hkinds : (ir.insn i).SameOperator (ir.insn j) → (ir.insn i).opcode.readsArithmetic = true →
      (ir.insn i).arithmetic = (ir.insn j).arithmetic) : SameComputation P i j := by
  have hkey := insnCompare_eq_iff.1 hcompare
  have hhash := (hashBucket_isSome (P := P)).2 (Opcode.isHashed_of_isOperation hop)
  refine sameComputation_of_key hkey hhash (fun hphi => absurd hphi (Opcode.ne_phi_of_isOperation hop)) fun hreads => ?_
  have hsame := sameOperation_of_key hkey hreads hhash
  exact hkinds ⟨hsame.opcode, hsame.size, fun hcast => P.origType_apart i j (hsame.origType hcast)⟩ hreads

/-- Phis that compare equal have the same sources. -/
theorem sources_of_compare (hcompare : insnCompare P i j = .eq) (hop : (ir.insn i).opcode = .phi) :
    ir.sources i = ir.sources j := by
  have htail := (List.cons.inj (insnCompare_eq_iff.1 hcompare)).2
  rw [← opcode_of_compare hcompare, hop] at htail
  exact sources_eq_iff.1 htail

theorem Remarked.operation (hr : Remarked ir ir') (env : Pseudo → BitVec 64) (i : InsnId) :
    ir'.operation M env i = ir.operation M env i := by
  rw [hr.frame]
  rfl

theorem Remarked.silent (hr : Remarked ir ir') : ir'.silent = ir.silent := by
  rw [hr.frame]
  rfl

/-- The function can be worked on again and shows what it showed. Instructions are lost only. -/
structure CseKeeps (M : Meaning) (e : BlockId) (ir ir' : Ir) : Prop where
  input : ir'.CseInput e
  same : SameBehaviour ir.silent M e ir ir'
  silent : ir'.silent = ir.silent
  live : ∀ i, ir'.live i → ir.live i ∧ (ir'.insn i).withoutSlots = (ir.insn i).withoutSlots
  phis : SamePhis ir ir'

namespace CseKeeps

theorem refl (h : ir.CseInput e) : CseKeeps M e ir ir := ⟨h, .refl _ M e ir, rfl, fun _ hi => ⟨hi, rfl⟩, .refl ir⟩

theorem trans {ir'' : Ir} (h : CseKeeps M e ir ir') (h' : CseKeeps M e ir' ir'') : CseKeeps M e ir ir'' where
  input := h'.input
  same := h.same.trans (h.silent ▸ h'.same)
  silent := h'.silent.trans h.silent
  live i hi := ⟨(h.live i (h'.live i hi).1).1, (h'.live i hi).2.trans (h.live i (h'.live i hi).1).2⟩
  phis := by
    have hlive := fun i hi => (h'.live i hi).1
    have hop := fun i hi => (Instruction.of_withoutSlots (h'.live i hi).2).1
    refine ⟨fun i hi hphi => ?_, fun i hi hphi => ?_, fun i hi hphi => ?_, fun i d b hi hd hphi hsource hs => ?_⟩
    · rw [h'.phis.sources i hi hphi, h.phis.sources i (hlive i hi) (hop i hi ▸ hphi)]
    · rw [h'.phis.blocks i hi hphi, h.phis.blocks i (hlive i hi) (hop i hi ▸ hphi)]
    · rw [h'.phis.bb i hi hphi, h.phis.bb i (hlive i hi) (hop i hi ▸ hphi)]
    · exact h'.phis.order i d b hi hd hphi hsource
        (h.phis.order i d b (hlive i hi) (hlive d hd) (hop i hi ▸ hphi) (hop d hd ▸ hsource) hs)

theorem of_remarked (hr : Remarked ir ir') (h : ir.CseInput e) : CseKeeps M e ir ir' where
  input := hr.cseInput h
  same := hr.sameBehaviour _
  silent := hr.silent
  live i hi := by
    rw [Ir.live, hr.insn] at hi
    exact ⟨hi, by rw [hr.insn]⟩
  phis := .of_remarked hr

theorem of_replaces {kept gone : InsnId} {S : InsnId → Bool} (hr : Replaces ir ir' e kept gone) (h : ir.CseInput e)
    (hm : ir.Mergeable kept gone) (hx : Matches ir ir' M e S kept gone)
    (hplace : (ir.insn kept).opcode.isOperation = true ∨ ir'.block = ir.block) (hblind : M.Blind ir.silent) :
    CseKeeps M e ir ir' where
  input := hr.cseInput h hm
  same := hr.sameBehaviour h hm hx hblind
  silent := hr.silent_eq hm
  live i hi := ⟨((hr.live i).1 hi).2, hr.rest i ((hr.live i).1 hi).1⟩
  phis := hr.samePhis h.toSsaForm hm hplace

end CseKeeps

/-- Two instructions that have the same value wherever both are available. -/
def Interchangeable (ir : Ir) (M : Meaning) (i j : InsnId) : Prop :=
  (ir.insn i).opcode.isOperation = true ∧ (∀ env, ir.operation M env i = ir.operation M env j) ∨ ir.PhiPair M i j

namespace Interchangeable

theorem symm (hm : ir.Mergeable i j) (h : ir.Interchangeable M i j) : ir.Interchangeable M j i :=
  h.imp (fun ⟨hop, hvalue⟩ => ⟨hm.opcode ▸ hop, fun env => (hvalue env).symm⟩) PhiPair.symm

theorem remarked (hr : Remarked ir ir') (h : ir.Interchangeable M i j) : ir'.Interchangeable M i j := by
  refine h.imp (fun ⟨hop, hvalue⟩ => ?_) fun hp => hp.remarked hr
  simp only [hr.insn, hr.operation]
  exact ⟨hop, hvalue⟩

end Interchangeable

/-- One of two that have the same value stands for the other. Phis that do stand in one block. -/
theorem CseKeeps.of_interchangeable {kept gone : InsnId} (hr : Replaces ir ir' e kept gone) (h : ir.CseInput e)
    (hm : ir.Mergeable kept gone) (hblind : M.Blind ir.silent) (hsame : ir.Interchangeable M kept gone)
    (hin : ∀ b, (ir.insn kept).bb = some b → (ir.insn gone).bb = some b → InBlock ir ir' b kept gone) :
    CseKeeps M e ir ir' := by
  rcases hsame with ⟨hop, hvalue⟩ | hp
  · exact .of_replaces hr h hm (hr.operation_matches h hm hop hvalue) (.inl hop) hblind
  · obtain ⟨b, hb⟩ := Option.ne_none_iff_exists'.1 hm.liveKept
    have hin := hin b hb (hp.beside.1 ▸ hb)
    exact .of_replaces hr h hm (hr.phi_matches h hm hin.block (hp.twinPhis hm hin hb) hp.undefined) (.inr hin.block)
      hblind

/-- The instruction that `try_to_cse` returns is one of the two, and is still there. -/
theorem tryToCse_keeps (h : ir.CseInput e) (hm : ir.Mergeable i j) (hsame : ir.Interchangeable M i j)
    (hblind : M.Blind ir.silent) :
    CseKeeps M e ir (ir.tryToCse i j).1 ∧ ((ir.tryToCse i j).2 = i ∨ (ir.tryToCse i j).2 = j) ∧
      (ir.tryToCse i j).1.live (ir.tryToCse i j).2 := by
  obtain ⟨ir₁, hremarked, hstays | ⟨kept, gone, hpair, hkept, hreplaces, hin⟩⟩ :=
    tryToCse_spec h.toSsaForm h.entryBlock hm
  · rw [hstays]
    have hlive : ir₁.live i := by
      rw [live, hremarked.insn]
      exact hm.liveKept
    exact ⟨.of_remarked hremarked h, .inl rfl, hlive⟩
  · rw [hkept]
    have hkeeps : CseKeeps M e ir ir₁ := .of_remarked hremarked h
    have hblind₁ : M.Blind ir₁.silent := hkeeps.silent ▸ hblind
    obtain ⟨hm₁, hsame₁⟩ : ir₁.Mergeable kept gone ∧ ir₁.Interchangeable M kept gone := by
      rcases hpair with ⟨rfl, rfl⟩ | ⟨rfl, rfl⟩
      · exact ⟨hremarked.mergeable hm, hsame.remarked hremarked⟩
      · exact ⟨hremarked.mergeable hm.symm, (hsame.symm hm).remarked hremarked⟩
    have hin₁ : ∀ b, (ir₁.insn kept).bb = some b → (ir₁.insn gone).bb = some b →
        InBlock ir₁ (ir.tryToCse i j).1 b kept gone := by
      intro b hk hg
      rw [hremarked.insn] at hk hg
      rcases hpair with ⟨rfl, rfl⟩ | ⟨rfl, rfl⟩
      · exact hin b hk hg
      · exact hin b hg hk
    refine ⟨hkeeps.trans (.of_interchangeable hreplaces hkeeps.input hm₁ hblind₁ hsame₁ hin₁), ?_, ?_⟩
    · rcases hpair with ⟨rfl, -⟩ | ⟨rfl, -⟩
      · exact .inl rfl
      · exact .inr rfl
    · exact (hreplaces.live kept).2 ⟨hm₁.ne.symm, hm₁.liveKept⟩

/-! ## A bucket -/

/-- No instruction is in the bucket twice, and what is still in the code was hashed. Phis with sources in the
same blocks stand in one block, in front of the sources there, and an operator is in the bucket for one kind
of types: nothing compares the blocks of phis and the types. -/
structure Bucket (ir : Ir) (list : List InsnId) : Prop where
  nodup : list.Nodup
  hashed : ∀ i ∈ list, ir.live i → (ir.insn i).opcode.isHashed = true
  phis : ∀ i ∈ list, ∀ j ∈ list, ir.live i → ir.live j → (ir.insn i).opcode = .phi → (ir.insn j).opcode = .phi →
    i ≠ j → ir.sourceBlocks i = ir.sourceBlocks j → ir.Beside i j
  kinds : ∀ i ∈ list, ∀ j ∈ list, ir.live i → ir.live j → (ir.insn i).SameOperator (ir.insn j) →
    (ir.insn i).opcode.readsArithmetic = true → (ir.insn i).arithmetic = (ir.insn j).arithmetic

namespace Bucket

variable {list list' : List InsnId} (h : ir.Bucket list)
include h

theorem subset (hnodup : list'.Nodup) (hsubset : list' ⊆ list) : ir.Bucket list' :=
  ⟨hnodup, fun i hi => h.hashed i (hsubset hi), fun i hi j hj => h.phis i (hsubset hi) j (hsubset hj),
    fun i hi j hj => h.kinds i (hsubset hi) j (hsubset hj)⟩

theorem sublist (hsublist : list'.Sublist list) : ir.Bucket list' :=
  h.subset (h.nodup.sublist hsublist) hsublist.subset

theorem keep (hkeeps : CseKeeps M e ir ir') : ir'.Bucket list where
  nodup := h.nodup
  hashed i hi hlive := by
    obtain ⟨hlive, hrest⟩ := hkeeps.live i hlive
    rw [(Instruction.of_withoutSlots hrest).1]
    exact h.hashed i hi hlive
  phis i hi j hj hlivei hlivej hphii hphij hne hblocks := by
    refine hkeeps.phis.beside hkeeps.input.toSsaForm hlivei hphii hlivej hphij ?_
    rw [hkeeps.phis.blocks i hlivei hphii, hkeeps.phis.blocks j hlivej hphij] at hblocks
    obtain ⟨hlivei, hresti⟩ := hkeeps.live i hlivei
    obtain ⟨hlivej, hrestj⟩ := hkeeps.live j hlivej
    rw [(Instruction.of_withoutSlots hresti).1] at hphii
    rw [(Instruction.of_withoutSlots hrestj).1] at hphij
    exact h.phis i hi j hj hlivei hlivej hphii hphij hne hblocks
  kinds i hi j hj hlivei hlivej hsame hreads := by
    obtain ⟨hlivei, hresti⟩ := hkeeps.live i hlivei
    obtain ⟨hlivej, hrestj⟩ := hkeeps.live j hlivej
    obtain ⟨hopi, hsizei, -, htypei, -⟩ := Instruction.of_withoutSlots hresti
    obtain ⟨hopj, hsizej, -, htypej, -⟩ := Instruction.of_withoutSlots hrestj
    simp only [Instruction.SameOperator, hopi, hopj, hsizei, hsizej, htypei, htypej] at hsame hreads
    rw [Instruction.arithmetic_of_withoutSlots hresti, Instruction.arithmetic_of_withoutSlots hrestj]
    exact h.kinds i hi j hj hlivei hlivej hsame hreads

/-- Two that compare equal can be one. -/
theorem mergeable (hcompare : insnCompare P i j = .eq) (hi : i ∈ list) (hj : j ∈ list) (hne : j ≠ i)
    (hlivei : ir.live i) (hlivej : ir.live j) : ir.Mergeable i j := by
  refine ⟨hne, hlivei, hlivej, h.hashed i hi hlivei, h.hashed j hj hlivej, opcode_of_compare hcompare, ?_⟩
  by_cases hphi : (ir.insn i).opcode = .phi
  · rw [operands, operands, if_pos hphi, if_pos (opcode_of_compare hcompare ▸ hphi)]
  · have hop := Opcode.isOperation_of_isHashed (h.hashed i hi hlivei) hphi
    exact (sameComputation_of_compare hcompare hop (h.kinds i hi j hj hlivei hlivej)).operands

/-- Two that compare equal have the same value. -/
theorem interchangeable {v : BitVec 64} (hssa : ir.SsaForm e) (hm : ir.Mergeable i j)
    (hcompare : insnCompare P i j = .eq) (hi : i ∈ list) (hj : j ∈ list)
    (hconstant : ∀ i j, P.val i = P.val j → M.constant i = M.constant j)
    (hundefined : ∀ i, ir.live i → (ir.insn i).opcode = .phi → ∀ done, M.effect i done = v) :
    ir.Interchangeable M i j := by
  by_cases hphi : (ir.insn i).opcode = .phi
  · have hphi' : (ir.insn j).opcode = .phi := hm.opcode ▸ hphi
    have hsources := sources_of_compare hcompare hphi
    refine .inr ⟨hphi, hphi', hssa.covers hm.liveKept hphi hsources, hssa.covers hm.liveGone hphi' hsources.symm, ?_,
      fun done done' => ?_⟩
    · refine h.phis i hi j hj hm.liveKept hm.liveGone hphi hphi' hm.ne.symm ?_
      rw [sourceBlocks, sourceBlocks, hsources]
    · rw [hundefined i hm.liveKept hphi, hundefined j hm.liveGone hphi']
  · have hop := Opcode.isOperation_of_isHashed hm.opKept hphi
    have hsame := sameComputation_of_compare hcompare hop (h.kinds i hi j hj hm.liveKept hm.liveGone)
    exact .inl ⟨hop, operation_eq hsame hop hconstant⟩

end Bucket

/-- What a phi takes before a source of it was executed stays one value. -/
theorem CseKeeps.undefined {v : BitVec 64} (h : CseKeeps M e ir ir')
    (hundefined : ∀ i, ir.live i → (ir.insn i).opcode = .phi → ∀ done, M.effect i done = v) (i : InsnId)
    (hi : ir'.live i) (hphi : (ir'.insn i).opcode = .phi) : ∀ done, M.effect i done = v := by
  obtain ⟨hlive, hrest⟩ := h.live i hi
  exact hundefined i hlive ((Instruction.of_withoutSlots hrest).1 ▸ hphi)

variable {s : (ir : Ir) × Pointers ir} {last : Option InsnId} {is : List InsnId} {v : BitVec 64}

theorem cseList_val (s : (ir : Ir) × Pointers ir) (last : Option InsnId) (is : List InsnId) :
    (cseList s last is).2.val = s.2.val := by
  induction is generalizing s last with
  | nil => rfl
  | cons i is ih =>
    rw [cseList.eq_def]
    dsimp only
    by_cases hi : (s.1.insn i).bb = none
    · rw [if_pos hi]
      exact ih s last
    · rw [if_neg hi]
      cases last with
      | none => exact ih s (some i)
      | some l =>
        dsimp only
        by_cases hcompare : insnCompare s.2 l i = .eq
        · rw [if_pos hcompare]
          exact ih _ _
        · rw [if_neg hcompare]
          exact ih s (some i)

/-- The loop over a bucket. The instruction before is still in the code. -/
theorem cseList_keeps (h : s.1.CseInput e) (hblind : M.Blind s.1.silent)
    (hconstant : ∀ i j, s.2.val i = s.2.val j → M.constant i = M.constant j)
    (hundefined : ∀ i, s.1.live i → (s.1.insn i).opcode = .phi → ∀ done, M.effect i done = v)
    (hbucket : s.1.Bucket (last.toList ++ is))
    (hlast : ∀ l, last = some l → s.1.live l) : CseKeeps M e s.1 (cseList s last is).1 := by
  induction is generalizing s last with
  | nil => exact .refl h
  | cons i is ih =>
    rw [cseList.eq_def]
    dsimp only
    by_cases hi : (s.1.insn i).bb = none
    · rw [if_pos hi]
      exact ih h hblind hconstant hundefined (hbucket.sublist ((List.sublist_cons_self i is).append_left _)) hlast
    · rw [if_neg hi]
      have hnext : ∀ l, some i = some l → s.1.live l := fun l hl => Option.some.inj hl ▸ hi
      cases last with
      | none => exact ih h hblind hconstant hundefined hbucket hnext
      | some l =>
        dsimp only
        split
        · rename_i hcompare
          have hl := hlast l rfl
          have hne : i ≠ l := by
            have hnodup : (l :: i :: is).Nodup := hbucket.nodup
            rintro rfl
            exact (List.nodup_cons.1 hnodup).1 List.mem_cons_self
          have hm := hbucket.mergeable hcompare (by simp) (by simp) hne hl hi
          have hsame := hbucket.interchangeable h.toSsaForm hm hcompare (by simp) (by simp) hconstant hundefined
          obtain ⟨hkeeps, hreturned, hlive⟩ := tryToCse_keeps h hm hsame hblind
          refine hkeeps.trans (ih (s := ⟨_, s.2.keep (SameTypes.tryToCse s.1 l i)⟩) hkeeps.input
            (hkeeps.silent ▸ hblind) hconstant (hkeeps.undefined hundefined) ?_ fun l' hl' => ?_)
          · refine (hbucket.keep hkeeps).sublist ?_
            rcases hreturned with heq | heq
            · rw [heq]
              exact (List.sublist_cons_self i is).cons_cons l
            · rw [heq]
              exact List.sublist_cons_self l (i :: is)
          · rw [← Option.some.inj hl']
            exact hlive
        · exact ih h hblind hconstant hundefined (hbucket.sublist (List.sublist_cons_self l (i :: is))) hnext

end Ir

/-- `if (c) x = y = a + b; else x = y = -(a + b); return x - y;` -/
def twoSums : Ir where
  insn
    | 0 => { opcode := .entry, bb := some 0 }
    | 1 => { opcode := .br, bb := some 0, target := .arg 1, bbTrue := some 1, bbFalse := some 2 }
    | 2 => { opcode := .addLin, size := 32, bb := some 1, target := .reg 0, src1 := .arg 2, src2 := .arg 3 }
    | 3 => { opcode := .phisource, size := 32, bb := some 1, target := .phi 0, src1 := .reg 0 }
    | 4 => { opcode := .phisource, size := 32, bb := some 1, target := .phi 1, src1 := .reg 0 }
    | 5 => { opcode := .br, bb := some 1, bbTrue := some 3 }
    | 6 => { opcode := .addLin, size := 32, bb := some 2, target := .reg 1, src1 := .arg 2, src2 := .arg 3 }
    | 7 => { opcode := .neg, size := 32, bb := some 2, target := .reg 2, src1 := .reg 1 }
    | 8 => { opcode := .phisource, size := 32, bb := some 2, target := .phi 2, src1 := .reg 2 }
    | 9 => { opcode := .phisource, size := 32, bb := some 2, target := .phi 3, src1 := .reg 2 }
    | 10 => { opcode := .br, bb := some 2, bbTrue := some 3 }
    | 11 => { opcode := .phi, size := 32, bb := some 3, target := .reg 3, phiList := [0, 2] }
    | 12 => { opcode := .phi, size := 32, bb := some 3, target := .reg 4, phiList := [1, 3] }
    | 13 => { opcode := .sub, size := 32, bb := some 3, target := .reg 5, src1 := .reg 3, src2 := .reg 4 }
    | 14 => { opcode := .ret, bb := some 3, src1 := .reg 5 }
    | _ => { opcode := .badop }
  block
    | 0 => { children := [1, 2], insns := [0, 1] }
    | 1 => { parents := [0], children := [3], insns := [2, 3, 4, 5] }
    | 2 => { parents := [0], children := [3], insns := [6, 7, 8, 9, 10] }
    | 3 => { parents := [1, 2], insns := [11, 12, 13, 14] }
    | _ => {}
  cell
    | 0 => .phi 0
    | 1 => .phi 1
    | 2 => .phi 2
    | 3 => .phi 3
    | _ => .null
  definition
    | .arg 1 => some 0
    | .arg 2 => some 0
    | .arg 3 => some 0
    | .reg 0 => some 2
    | .reg 1 => some 6
    | .reg 2 => some 7
    | .reg 3 => some 11
    | .reg 4 => some 12
    | .reg 5 => some 13
    | .phi 0 => some 3
    | .phi 1 => some 4
    | .phi 2 => some 8
    | .phi 3 => some 9
    | _ => none
  users
    | .arg 1 => [⟨1, .target 1⟩]
    | .arg 2 => [⟨2, .src1 2⟩, ⟨6, .src1 6⟩]
    | .arg 3 => [⟨2, .src2 2⟩, ⟨6, .src2 6⟩]
    | .reg 0 => [⟨3, .src1 3⟩, ⟨4, .src1 4⟩]
    | .reg 1 => [⟨7, .src1 7⟩]
    | .reg 2 => [⟨8, .src1 8⟩, ⟨9, .src1 9⟩]
    | .reg 3 => [⟨13, .src1 13⟩]
    | .reg 4 => [⟨13, .src2 13⟩]
    | .reg 5 => [⟨14, .src1 14⟩]
    | .phi 0 => [⟨11, .cell 0⟩]
    | .phi 1 => [⟨12, .cell 1⟩]
    | .phi 2 => [⟨11, .cell 2⟩]
    | .phi 3 => [⟨12, .cell 3⟩]
    | _ => []
  bbs := [0, 1, 2, 3]
  entry := 0
  nextInsn := 15
  nextBlock := 4
  nextCell := 4
  nextReg := 6
  nextPhi := 4
  bbGeneration := 0

private theorem twoSums_live {i : InsnId} (h : twoSums.live i) : i < 15 := by
  by_contra hi
  match i with
  | 0 | 1 | 2 | 3 | 4 | 5 | 6 | 7 | 8 | 9 | 10 | 11 | 12 | 13 | 14 => exact hi (by decide)
  | n + 15 => exact h rfl

private theorem twoSums_empty {b : BlockId} (hb : 4 ≤ b) : twoSums.block b = {} := by
  match b with
  | 0 | 1 | 2 | 3 => exact absurd hb (by decide)
  | n + 4 => rfl

private theorem twoSums_use : UseInvariant twoSums := by
  refine .of_check [.arg 1, .arg 2, .arg 3, .reg 0, .reg 1, .reg 2, .reg 3, .reg 4, .reg 5, .phi 0, .phi 1, .phi 2,
    .phi 3] (fun i hi hl => ?_) (fun p hp => ?_) (by decide)
  · exact absurd (twoSums_live hl) (Nat.not_lt.2 hi)
  · simp only [twoSums]
    split <;> simp_all

private theorem twoSums_flow : FlowInvariant ∅ twoSums :=
  .of_check (fun _ hb => twoSums_empty hb) (by decide)

/-- Each register is computed in front of the instruction that reads it. -/
private theorem twoSums_input : twoSums.CseInput 0 where
  toSsaForm := by
    refine .of_check twoSums_use twoSums_flow (fun _ hb => twoSums_empty hb) (fun i s ho nr d hl hd => ?_) (by decide)
    have hreads : ∀ i < 15, ∀ s ∈ (twoSums.insn i).operandSlots i, (twoSums.load s).isReg = true →
        ∃ b < 4, ∃ d < 15, twoSums.definition (twoSums.load s) = some d ∧ [d, i].Sublist (twoSums.block b).insns := by
      decide
    obtain ⟨b, -, d', -, hd', hsublist⟩ := hreads i (twoSums_live ho.1) s ho.2 (by rw [hl]; rfl)
    obtain rfl : d = d' := by
      rw [hl, hd] at hd'
      exact Option.some.inj hd'
    have hplaced : (twoSums.paths 0).Placed := by
      refine ⟨fun b => ?_, fun b c j => twoSums_flow.owner b c j⟩
      rcases Nat.lt_or_ge b 4 with hb | hb
      · have hnodup : ∀ b < 4, (twoSums.block b).insns.Nodup := by decide
        exact hnodup b hb
      · change (twoSums.block b).insns.Nodup
        rw [twoSums_empty hb]
        exact List.nodup_nil
    exact hplaced.precedes_of_sublist hsublist
  entryBlock := rfl
  entryOp := rfl
  phiReads i s ho hop := by
    have hall : ∀ i < 15, (twoSums.insn i).opcode ≠ .phi →
        ∀ s ∈ (twoSums.insn i).operandSlots i, (twoSums.load s).isPhi = false := by decide
    exact hall i (twoSums_live ho.1) hop s ho.2
  branches b i hlast _ := by
    rcases Nat.lt_or_ge b 4 with hb | hb
    · have hall : ∀ b < 4, ∀ i ∈ (twoSums.block b).insns, twoSums.live i := by decide
      exact hall b hb i (List.mem_of_getLast? hlast)
    · rw [Ir.lastInstruction, twoSums_empty hb] at hlast
      cases hlast

/-- The expressions lie at one place, and there are no casts. -/
def twoSumsPlaces : Pointers twoSums where
  pseudo := somePlace
  block := Encodable.encode
  val _ := 0
  origType _ := 0
  pseudo_injective := somePlace_injective
  block_injective := Encodable.encode_injective
  origType_apart i j _ := by
    have hnone : ∀ k, (twoSums.insn k).origType = none := fun k => by
      simp only [twoSums]
      split <;> rfl
    rw [hnone, hnone]

def twoSumsMeaning : Meaning where
  initial _ := 1
  pure
    | .addLin, _, _, _, [a, b] => a + b
    | .sub, _, _, _, [a, b] => a - b
    | .neg, _, _, _, [a] => -a
    | _, _, _, _, _ => 0
  constant _ := 0
  effect _ _ := 0

/-- The sum goes to the block above. -/
example : ((Ir.cseList ⟨twoSums, twoSumsPlaces⟩ none [2, 6]).1.block 0).insns = [0, 2, 1] := by decide

/-- Both operands of the difference are the first phi. -/
example : ((Ir.cseList ⟨twoSums, twoSumsPlaces⟩ none [11, 12]).1.insn 13).src2 = .reg 3 := by decide

end Sparse
