import Sparse.PrunedExecutions

/-!
# Kills that lose nothing

Jumps, no-ops and what is out of the code can be killed. A branch drops its condition, and what computed
that for nothing else goes with it.
-/

namespace Sparse

/-- Where an instruction does not store through its target, the target stays. -/
def SameTargets (ir ir' : Ir) : Prop :=
  ∀ j, (ir'.insn j).opcode = (ir.insn j).opcode ∧
    ((ir.insn j).opcode.storesTarget = false → (ir'.insn j).target = (ir.insn j).target)

namespace SameTargets

variable {ir ir' ir'' : Ir}

theorem refl (ir : Ir) : SameTargets ir ir := fun _ => ⟨rfl, fun _ => rfl⟩

theorem trans (h : SameTargets ir ir') (h' : SameTargets ir' ir'') : SameTargets ir ir'' := by
  intro j
  obtain ⟨hop, htarget⟩ := h j
  obtain ⟨hop', htarget'⟩ := h' j
  rw [hop] at hop' htarget'
  exact ⟨hop', fun hj => (htarget' hj).trans (htarget hj)⟩

theorem clearBb (ir : Ir) (i : InsnId) : SameTargets ir (ir.clearBb i) := by
  intro j
  by_cases hj : j = i
  · subst hj
    simp [Ir.clearBb]
  · simp [Ir.clearBb, hj]

theorem emptySlot {s : Address} (hs : ∀ j, s = .target j → (ir.insn j).opcode.storesTarget = true) :
    SameTargets ir (ir.emptySlot s) := by
  intro j
  refine ⟨(SameForm.emptySlot ir s).opcode j, fun hj => ?_⟩
  have hne : Address.target j ≠ s := by
    rintro rfl
    rw [hs j rfl] at hj
    cases hj
  have hload := Ir.load_emptySlot ir s (.target j)
  rw [if_neg hne] at hload
  exact hload

section

variable {kill : Ir → InsnId → Ir} (hkill : ∀ ir i, SameTargets ir (kill ir i))
include hkill

theorem dropDefinition (ir : Ir) (p : Pseudo) : SameTargets ir (ir.dropDefinition kill p) := by
  unfold Ir.dropDefinition
  split
  · split
    · exact hkill ir _
    · exact refl ir
  · exact refl ir

theorem killUseWith {s : Address} (hs : ∀ j, s = .target j → (ir.insn j).opcode.storesTarget = true) :
    SameTargets ir (ir.killUseWith kill s) := by
  rw [Ir.killUseWith_eq]
  exact (emptySlot hs).trans (dropDefinition hkill _ _)

end

theorem killInstructionFuel (fuel : ℕ) (ir : Ir) (i : InsnId) : SameTargets ir (Ir.killInstructionFuel fuel ir i) := by
  induction fuel generalizing ir i with
  | zero => exact refl ir
  | succ fuel ih =>
    have huse : ∀ {ir'}, SameTargets ir ir' → ∀ s, (∀ j, s = .target j → (ir'.insn j).opcode.storesTarget = true) →
        SameTargets ir (ir'.killUseWith (Ir.killInstructionFuel fuel) s) := fun h s hs => h.trans (killUseWith ih hs)
    have hclear := clearBb ir i
    unfold Ir.killInstructionFuel
    split
    · exact refl ir
    · split
      next => exact huse hclear _ (by simp)
      next => exact huse hclear _ (by simp)
      next => exact hclear
      next => exact hclear
      next => exact huse (huse (huse hclear _ (by simp)) _ (by simp)) _ (by simp)
      next hop =>
        split
        · exact hclear
        · refine huse hclear _ fun j hj => ?_
          obtain rfl : i = j := by simpa using hj
          rw [(hclear i).1, hop]
          rfl
      next =>
        split
        · exact huse (huse hclear _ (by simp)) _ (by simp)
        · exact refl ir

end SameTargets

namespace Ir

variable {ir ir' ir'' : Ir} {M : Meaning} {e b bb parent t x : BlockId} {i j : InsnId} {p : Pseudo}
  {done done' : List InsnId}

namespace Prunes

/-- No instruction is lost. -/
theorem of_live (hform : ∀ j, (ir'.insn j).form = (ir.insn j).form)
    (hrest : ∀ j, (ir.insn j).opcode.isJump = false → (ir'.insn j).withoutSlots = (ir.insn j).withoutSlots)
    (htarget : ∀ j, (ir.insn j).opcode.storesTarget = false → (ir'.insn j).target = (ir.insn j).target)
    (hlive : ∀ j, ir'.live j ↔ ir.live j) (hload : ∀ j s, ir.Owns j s → ir'.load s = ir.load s)
    (hdef : ir'.definition = ir.definition) : Prunes ir ir' where
  form := hform
  rest := hrest
  target := htarget
  definition := hdef
  live j := (hlive j).1
  kept j hj := (hlive j).2 (still_eq_false.1 (hidden_eq_false.1 hj).1).1
  slots j s ho := hload j s ⟨(hlive j).1 ho.1, Instruction.operandSlots_of_form (hform j) j ▸ ho.2⟩
  died p d _ hd := by
    unfold still at hd ⊢
    rw [Instruction.opcode_of_form (hform d), decide_eq_decide.2 (hlive d)] at hd
    exact .inl hd

/-- Only blocks and what branches name differ. -/
theorem of_same (hform : ∀ j, (ir'.insn j).form = (ir.insn j).form)
    (hrest : ∀ j, (ir.insn j).opcode.isJump = false → (ir'.insn j).withoutSlots = (ir.insn j).withoutSlots)
    (hlive : ∀ j, ir'.live j ↔ ir.live j) (hload : ∀ s, ir'.load s = ir.load s)
    (hdef : ir'.definition = ir.definition) : Prunes ir ir' :=
  .of_live hform hrest (fun j _ => hload (.target j)) hlive (fun _ s _ => hload s) hdef

/-- What is still leaves its block. -/
theorem clearBb (hi : ir.still i = true) : Prunes ir (ir.clearBb i) where
  form j := by
    by_cases hj : j = i
    · subst hj
      simp [Ir.clearBb, Instruction.form]
    · simp [Ir.clearBb, hj]
  rest j _ := SameRest.clearBb ir i j
  target j hj := (SameTargets.clearBb ir i j).2 hj
  definition := rfl
  live j hj := ((ir.live_clearBb i j).1 hj).2
  kept j hj := by
    obtain ⟨hstill, -⟩ := hidden_eq_false.1 hj
    refine (ir.live_clearBb i j).2 ⟨?_, (still_eq_false.1 hstill).1⟩
    rintro rfl
    rw [hi] at hstill
    cases hstill
  slots _ s _ := ir.load_clearBb i s
  died p d _ hd := by
    by_cases hne : d = i
    · exact .inl (hne ▸ hi)
    · have hlive : (ir.clearBb i).live d ↔ ir.live d := by simp [ir.live_clearBb i d, hne]
      unfold still at hd ⊢
      rw [decide_eq_decide.2 hlive, (SameTargets.clearBb ir i d).1] at hd
      exact .inl hd

theorem of_killFrame (h : UseInvariant ir) (h' : UseInvariant ir') (hf : KillFrame ir ir') (hrest : SameRest ir ir')
    (htargets : SameTargets ir ir') :
    Prunes ir ir' where
  form := hf.form
  rest j _ := hrest j
  target j hj := (htargets j).2 hj
  definition := hf.definition
  live := hf.live
  kept j hj := hf.kept j (still_eq_false.1 (hidden_eq_false.1 hj).1).1 (hidden_eq_false.1 hj).2
  slots := hf.slots
  died p d hd hstill := by
    by_cases hold : ir.still d = true
    · exact .inl hold
    · obtain ⟨hlive, hjump, hnop⟩ := still_eq_false.1 (Bool.eq_false_of_not_eq_true hold)
      have hdead : ¬ ir'.live d := fun hlive' => by
        rw [still_eq_false.2 ⟨hlive', by rw [hrest.opcode]; exact ⟨hjump, hnop⟩⟩] at hstill
        cases hstill
      cases hreg : p.isReg with
      | true =>
        cases p with
        | reg nr => exact .inr fun j s ho => h'.load_ne_of_users_nil ho rfl (hf.died d nr hlive hdead hd)
        | _ => cases hreg
      | false =>
        rcases h.other p d hd hreg with hop | hop
        · exact absurd (hf.kept d hlive (by rw [hop]; rfl)) hdead
        · exact absurd (hf.kept d hlive (by rw [hop]; rfl)) hdead

end Prunes

/-- A kill acts on branches only, of what is still. -/
theorem killInstruction_of_ne (hi : ir.still i = true) (hop : ¬ (ir.live i ∧ (ir.insn i).opcode = .br)) :
    ir.killInstruction i = ir := by
  unfold killInstruction killInstructionFuel
  dsimp only
  split
  · rfl
  · rename_i hbb
    have hlive : ir.live i := hbb
    have hstill : (ir.insn i).opcode.isJump = true ∨ (ir.insn i).opcode.isNop = true := by
      simpa [still, hlive] using hi
    have hbr : (ir.insn i).opcode ≠ .br := fun h => hop ⟨hlive, h⟩
    cases hcase : (ir.insn i).opcode <;> simp_all [Opcode.isJump, Opcode.isNop, Opcode.isBinary]

/-- The branch or the switch is left in the code, with its condition. -/
def KeepsBranch (ir ir' : Ir) (j : InsnId) : Prop :=
  ir.live j → (ir.insn j).opcode.chooses = true → ir'.live j ∧ (ir'.insn j).target = (ir.insn j).target

theorem KeepsBranch.trans (h : KeepsBranch ir ir' j) (hop : (ir'.insn j).opcode = (ir.insn j).opcode)
    (h' : KeepsBranch ir' ir'' j) : KeepsBranch ir ir'' j := by
  intro hlive hbr
  obtain ⟨hlive', htarget⟩ := h hlive hbr
  obtain ⟨hlive'', htarget'⟩ := h' hlive' (by rw [hop]; exact hbr)
  exact ⟨hlive'', htarget'.trans htarget⟩

/-- The kill of a jump, or of what computes nothing. -/
theorem killInstruction_of_still (h : UseInvariant ir) (hi : ir.still i = true) :
    UseInvariant (ir.killInstruction i) ∧ Prunes ir (ir.killInstruction i) ∧
      ∀ j, j ≠ i → KeepsBranch ir (ir.killInstruction i) j := by
  by_cases hop : ir.live i ∧ (ir.insn i).opcode = .br
  · obtain ⟨hlive, hop⟩ := hop
    have hclear : UseInvariant (ir.clearBb i) :=
      h.clearBb fun nr hnr => absurd hnr (undefined_of_isJump h (by rw [hop]; rfl) _)
    have hprunes : Prunes ir (ir.clearBb i) := .clearBb hi
    have hinsn : ∀ j, j ≠ i → KeepsBranch ir (ir.killInstruction i) j := fun j hj hlive' hop' => by
      have hsame : (ir.killInstruction i).insn j = ir.insn j :=
        (Spares.killInstructionFuel j _ ir i hj.symm (undefined_of_isJump h (Opcode.isJump_of_chooses hop'))).insn
      unfold Ir.live
      rw [hsame]
      exact ⟨hlive', rfl⟩
    suffices hkill : UseInvariant (ir.killInstruction i) ∧ Prunes (ir.clearBb i) (ir.killInstruction i) from
      ⟨hkill.1, hprunes.trans hkill.2, hinsn⟩
    unfold killInstruction killInstructionFuel
    rw [if_neg hlive]
    simp only [hop]
    split
    · exact ⟨hclear, .refl _⟩
    · have hdead : ¬ (ir.clearBb i).live i := fun hl => ((ir.live_clearBb i i).1 hl).1 rfl
      have hstores : ∀ j, Address.target i = .target j → ((ir.clearBb i).insn j).opcode.storesTarget = true := by
        intro j hj
        obtain rfl : i = j := by simpa using hj
        rw [(SameTargets.clearBb ir i i).1, hop]
        rfl
      obtain ⟨huses, hframe⟩ := (KillKeeps.killInstructionFuel ir.nextInsn).killUseWith hclear hdead rfl hstores
      exact ⟨huses, .of_killFrame hclear huses hframe (SameRest.killUseWith (SameRest.killInstructionFuel _) _ _)
        (SameTargets.killUseWith (SameTargets.killInstructionFuel _) hstores)⟩
  · rw [killInstruction_of_ne hi hop]
    exact ⟨h, .refl ir, fun _ _ hlive _ => ⟨hlive, rfl⟩⟩

/-- What nothing in the code reads gives way to `VOID`. -/
theorem killDefs_of_unread (h : UseInvariant ir)
    (hunread : ir.definition (ir.insn i).target = some i →
      (ir.insn i).target.isSym = false ∧ ir.Unread (ir.insn i).target) :
    UseInvariant (ir.killDefs i) ∧ SameForm ir (ir.killDefs i) ∧ SameRest ir (ir.killDefs i) ∧
      SameTargets ir (ir.killDefs i) ∧ ∀ j s, ir.Owns j s → (ir.killDefs i).load s = ir.load s := by
  have hrefl : UseInvariant ir ∧ SameForm ir ir ∧ SameRest ir ir ∧ SameTargets ir ir ∧
      ∀ j s, ir.Owns j s → ir.load s = ir.load s := ⟨h, .refl ir, fun _ => rfl, .refl ir, fun _ _ _ => rfl⟩
  unfold killDefs
  dsimp only
  split
  · exact hrefl
  · rename_i huse
    split
    · exact hrefl
    · rename_i hdef
      obtain ⟨hsym, hnone⟩ := hunread (not_not.1 hdef)
      set p := (ir.insn i).target with hp
      have hlist : hasUseList p = true := by simpa using huse
      have hne : p ≠ .void := by
        rintro hvoid
        rw [hvoid] at hlist
        cases hlist
      have heq : ir.convertInstructionTarget i .void = ((convertUsers .void ir (ir.users p)).setUsers .void
          (ir.users .void ++ ir.users p)).setUsers p [] := by
        unfold convertInstructionTarget
        simp only [← hp, if_neg hne, convertUsers_users]
      have hsame : SameForm ir (ir.convertInstructionTarget i .void) := by
        rw [heq]
        exact ((SameForm.convertUsers .void ir _).trans (.setUsers _ _ _)).trans (.setUsers _ _ _)
      have hload : ∀ s, (ir.convertInstructionTarget i .void).load s =
          if (∃ pu ∈ ir.users p, pu.userp = s) ∧ ir.load s ≠ .void then .void else ir.load s := by
        intro s
        rw [heq, setUsers_load, setUsers_load, convertUsers_load]
      have husers : ∀ q, hasUseList q = true → (ir.convertInstructionTarget i .void).users q =
          if q = p then [] else ir.users q := by
        intro q hq
        have hqv : q ≠ .void := by
          rintro rfl
          cases hq
        rw [heq]
        by_cases hqp : q = p
        · simp [hqp]
        · simp [hqp, hqv, convertUsers_users]
      have howned : ∀ j s, ir.Owns j s → (ir.convertInstructionTarget i .void).load s = ir.load s := by
        intro j s ho
        rw [hload, if_neg]
        rintro ⟨⟨pu, hpu, hs⟩, -⟩
        exact hnone j s ho (h.load_eq_of_mem ho hlist hpu hs)
      have htarget : ∀ d, (ir.insn d).opcode.storesTarget = false →
          ((ir.convertInstructionTarget i .void).insn d).target = (ir.insn d).target := by
        intro d hd
        have hslot := hload (.target d)
        rw [if_neg] at hslot
        · exact hslot
        · rintro ⟨⟨pu, hpu, hs⟩, -⟩
          rw [h.targets p hlist pu hpu d hs] at hd
          cases hd
      refine ⟨h.of_sameForm hsame (fun j s ho q hq => ?_) (fun q hq hqs pu hpu => ?_) (fun j s ho nr d hl hd => ?_)
        (fun nr d hd => htarget d (h.result nr d hd).2) (fun q hq pu hpu => ?_), hsame,
        SameRest.convertInstructionTarget ir i .void, fun j => ⟨hsame.opcode j, htarget j⟩, howned⟩
      · have hexact := h.exact j s ho q hq
        unfold entries at hexact ⊢
        rw [howned j s ho, husers q hq]
        by_cases hqp : q = p
        · rw [if_pos hqp, if_neg (hqp ▸ hnone j s ho)]
          rfl
        · rw [if_neg hqp]
          exact hexact
      · rw [husers q hq] at hpu
        by_cases hqp : q = p
        · simp [hqp] at hpu
        · rw [if_neg hqp] at hpu
          rw [hload]
          split
          · exact .inr rfl
          · exact h.back q hq hqs pu hpu
      · rw [howned j s ho] at hl
        exact h.defined j s ho nr d hl hd
      · rw [husers q hq] at hpu
        by_cases hqp : q = p
        · simp [hqp] at hpu
        · rw [if_neg hqp] at hpu
          exact .inl ⟨q, hq, hpu⟩

section

variable (h : UseInvariant ir) (hdead : ∀ p d, ir.definition p = some d → ir.still d = true → ir.Unread p)
  (hsym : ∀ p d, ir.definition p = some d → p.isSym = false)
include h hdead hsym

/-- The body of the first loop of `kill_bb`. -/
theorem killInsn_of_still (hi : ir.still i = true) :
    UseInvariant (((ir.killInstruction i).killDefs i).clearBb i) ∧
      Prunes ir (((ir.killInstruction i).killDefs i).clearBb i) ∧
      ∀ j, j ≠ i → KeepsBranch ir (((ir.killInstruction i).killDefs i).clearBb i) j := by
  obtain ⟨huses, hprunes, hkeeps⟩ := killInstruction_of_still h hi
  obtain ⟨huses', hform, hrest, htargets, hload⟩ := killDefs_of_unread huses fun hd =>
    ⟨hsym _ i (by rw [← hprunes.definition]; exact hd), hprunes.dead hdead _ i hd (hprunes.still_mono hi)⟩
  have hdefs : Prunes (ir.killInstruction i) ((ir.killInstruction i).killDefs i) :=
    .of_live hform.form (fun j _ => hrest j) (fun j => (htargets j).2) hform.live hload hform.definition
  have hboth := hprunes.trans hdefs
  have hi' := hboth.still_mono hi
  refine ⟨huses'.clearBb fun nr hnr => hboth.dead hdead _ i hnr hi', hboth.trans (.clearBb hi'), fun j hj => ?_⟩
  refine (hkeeps j hj).trans (hprunes.opcode j) fun hlive hbr => ?_
  have ho : (ir.killInstruction i).Owns j (.target j) := ⟨hlive, Instruction.target_mem_operandSlots hbr j⟩
  refine ⟨(live_clearBb _ i j).2 ⟨hj, (hform.live j).2 hlive⟩, ?_⟩
  rw [Ir.clearBb, setInsn_insn, Function.update_of_ne hj]
  exact hload j _ ho

theorem killInsns_of_still {is : List InsnId} (his : ∀ i ∈ is, ir.still i = true) :
    UseInvariant (killInsns is ir) ∧ Prunes ir (killInsns is ir) ∧
      ∀ j, j ∉ is → KeepsBranch ir (killInsns is ir) j := by
  induction is generalizing ir with
  | nil => exact ⟨h, .refl ir, fun _ _ hlive _ => ⟨hlive, rfl⟩⟩
  | cons i is ih =>
    obtain ⟨huses, hprunes, hkeeps⟩ := killInsn_of_still h hdead hsym (his i List.mem_cons_self)
    obtain ⟨huses', hprunes', hkeeps'⟩ := ih huses (hprunes.dead hdead)
      (fun p d hd => hsym p d (by rw [← hprunes.definition]; exact hd))
      fun j hj => hprunes.still_mono (his j (List.mem_cons_of_mem i hj))
    refine ⟨huses', hprunes.trans hprunes', fun j hj => ?_⟩
    have hj' := not_or.1 (fun hor => hj (List.mem_cons.2 hor))
    exact (hkeeps j hj'.1).trans (hprunes.opcode j) (hkeeps' j hj'.2)

/-- `kill_bb` on a block of instructions that are still. -/
theorem killBb_of_still (hflow : FlowInvariant ∅ ir) (hbb : ∀ i ∈ (ir.block bb).insns, ir.still i = true) :
    UseInvariant (ir.killBb bb) ∧ Prunes ir (ir.killBb bb) ∧
      ∀ j, j ∉ (ir.block bb).insns → KeepsBranch ir (ir.killBb bb) j := by
  obtain ⟨huses, hprunes, hkeeps⟩ := killInsns_of_still h hdead hsym hbb
  rw [killBb_eq hflow.consistent]
  have hload : ∀ s, (((killInsns (ir.block bb).insns ir).withGraph (ir.graph.isolate bb)).setBlock bb
      ({ · with insns := [], killed := true })).load s = (killInsns (ir.block bb).insns ir).load s := by
    intro s
    cases s <;> rfl
  exact ⟨huses.of_same (fun _ => rfl) (fun _ => Iff.rfl) hload rfl rfl rfl rfl,
    hprunes.trans (.of_same (fun _ => rfl) (fun _ _ => rfl) (fun _ => Iff.rfl) hload rfl), hkeeps⟩

end

end Ir

end Sparse
