import Sparse.UseListRewrites

/-!
# Phi sources, phi lists and selects

The rewrites that allocate instructions and list cells: a load becomes a phi, and a phi
becomes a select that takes over the definition of its result.
-/

namespace Sparse

/-- An edit of other parts of an instruction goes before or after one of its operands. -/
theorem Ir.setInsn_usePseudo {ir : Ir} {i j : InsnId} {f : Instruction → Instruction} {p : Pseudo}
    {s : Address}
    (hcomm : (ir.assign p s).setInsn i f = (ir.setInsn i f).assign p s) :
    (ir.usePseudo j p s).setInsn i f = (ir.setInsn i f).usePseudo j p s := by
  unfold usePseudo
  dsimp only
  split
  · rw [show ((ir.assign p s).setUsers p ((ir.assign p s).users p ++ [⟨j, s⟩])).setInsn i f =
      ((ir.assign p s).setInsn i f).setUsers p ((ir.assign p s).users p ++ [⟨j, s⟩]) from rfl, hcomm]
    simp
  · exact hcomm

namespace UseInvariant

variable {ir ir' : Ir} {i : InsnId} {s : Address} {p : Pseudo}

theorem setBlock (h : UseInvariant ir) (b : BlockId) (g : BasicBlock → BasicBlock) :
    UseInvariant (ir.setBlock b g) :=
  ⟨h.exact, h.back, h.defined, h.result, h.other, h.defines, h.unique, h.targets, h.liveAllocated,
    h.cellAllocated, h.userAllocated, h.definitionAllocated⟩

/-- No entry names a slot that is not allocated. -/
theorem entries_of_not_allocated (h : UseInvariant ir) {q : Pseudo} (hq : hasUseList q = true)
    (hs : ¬ ir.Allocated s) : ir.entries q s = [] := by
  refine List.filter_eq_nil_iff.mpr (fun pu hpu he => hs ?_)
  have ha := h.userAllocated q hq pu hpu
  rwa [of_decide_eq_true he] at ha

/-- `use_pseudo` on a list cell that no instruction owns yet. -/
theorem usePending (h : UseInvariant ir) {c : CellId} (hc : c < ir.nextCell)
    (hfree : ∀ j, ¬ ir.Owns j (.cell c))
    (hnew : ∀ p, hasUseList p = true → ir.entries p (.cell c) = []) :
    UseInvariant (ir.usePseudo i p (.cell c)) := by
  have hload := ir.load_usePseudo i p (.cell c)
  have hne : ∀ j s, ir.Owns j s → s ≠ .cell c := by
    rintro j s ho rfl
    exact hfree j ho
  have hentries : ∀ q s, s ≠ .cell c →
      (ir.usePseudo i p (.cell c)).entries q s = ir.entries q s := by
    intro q s hs
    simp [Ir.entries_usePseudo, hs]
  have hmem : ∀ q, hasUseList q = true → ∀ pu ∈ (ir.usePseudo i p (.cell c)).users q,
      (pu.userp = .cell c ∧ q = p) ∨ (pu.userp ≠ .cell c ∧ pu ∈ ir.users q) := by
    intro q hq pu hpu
    rw [Ir.mem_users_iff] at hpu
    by_cases hs : pu.userp = .cell c
    · rw [hs, Ir.entries_usePseudo, hnew q hq] at hpu
      by_cases hqp : q = p
      · exact Or.inl ⟨hs, hqp⟩
      · simp [hqp] at hpu
    · rw [hentries q _ hs, ← Ir.mem_users_iff] at hpu
      exact Or.inr ⟨hs, hpu⟩
  refine h.of_sameForm (SameForm.usePseudo ir i p _) (fun j s ho q hq => ?_)
    (fun q hq hsym pu hpu => ?_) (fun j s ho nr d hl hd => ?_) (fun nr d _ => ?_)
    (fun q hq pu hpu => ?_)
  · rw [hentries q s (hne j s ho), hload, if_neg (hne j s ho)]
    exact h.exact j s ho q hq
  · rw [hload]
    rcases hmem q hq pu hpu with ⟨hs, rfl⟩ | ⟨hs, hpu⟩
    · exact Or.inl (if_pos hs)
    · rw [if_neg hs]
      exact h.back q hq hsym pu hpu
  · rw [hload, if_neg (hne j s ho)] at hl
    exact h.defined j s ho nr d hl hd
  · exact Ir.usePseudo_target (by simp)
  · rcases hmem q hq pu hpu with ⟨hs, -⟩ | ⟨-, hpu⟩
    · exact Or.inr ⟨hs ▸ hc, fun j hj => by simp [hs] at hj⟩
    · exact Or.inl ⟨q, hq, hpu⟩

/-- A new instruction with empty slots defines `p`. If `p` is a register, the instruction that
defined it before leaves its block. -/
theorem takeOver (h : UseInvariant ir) {x : Instruction} {r : InsnId → Prop}
    (hnew : ir'.insn ir.nextInsn = x) (hsame : ∀ j, j ≠ ir.nextInsn → ¬ r j → ir'.insn j = ir.insn j)
    (hretired : ∀ j, j ≠ ir.nextInsn → r j → ir'.insn j = { ir.insn j with bb := none })
    (hcell : ir'.cell = ir.cell) (husers : ir'.users = ir.users)
    (hdefinition : ir'.definition = Function.update ir.definition p (some ir.nextInsn))
    (hnextInsn : ir'.nextInsn = ir.nextInsn + 1) (hnextCell : ir.nextCell ≤ ir'.nextCell)
    (hslots : ∀ s ∈ x.operandSlots ir.nextInsn, s.insn? = some ir.nextInsn ∧
      hasUseList (ir'.load s) = false)
    (hbb : x.bb ≠ none) (htarget : x.target = p) (hst : x.opcode.storesTarget = false)
    (hres : x.opcode.hasResult = true → p.isReg = true)
    (hother : p.isReg = false → x.opcode = .phisource ∨ x.opcode = .entry)
    (hr : ∀ j, r j → p.isReg = true ∧ ir.definition p = some j)
    (hasm : ∀ j, r j → (ir.insn j).opcode ≠ .asm)
    (hr' : ∀ j, p.isReg = true → ir.definition p = some j → r j) : UseInvariant ir' := by
  have hform : ∀ j, j ≠ ir.nextInsn → (ir'.insn j).form = (ir.insn j).form ∧
      (ir'.insn j).target = (ir.insn j).target := by
    intro j hj
    by_cases hrj : r j
    · rw [hretired j hj hrj]
      exact ⟨rfl, rfl⟩
    · rw [hsame j hj hrj]
      exact ⟨rfl, rfl⟩
  have hopcode : ∀ j, j ≠ ir.nextInsn → (ir'.insn j).opcode = (ir.insn j).opcode :=
    fun j hj => Instruction.opcode_of_form (hform j hj).1
  have hload : ∀ s, s.insn? ≠ some ir.nextInsn → ir'.load s = ir.load s := by
    intro s hs
    cases s with
    | cell c => simp [Ir.load, hcell]
    | target j | src1 j | src2 j | src3 j =>
      have hj : j ≠ ir.nextInsn := by simpa [Address.insn?] using hs
      by_cases hrj : r j
      · simp [Ir.load, hretired j hj hrj]
      · simp [Ir.load, hsame j hj hrj]
  have hlive : ∀ j, j ≠ ir.nextInsn → ir'.live j → ir.live j ∧ ¬ r j := by
    intro j hj hl
    by_cases hrj : r j
    · exact absurd (by rw [hretired j hj hrj]) hl
    · exact ⟨by unfold Ir.live at hl ⊢; rwa [hsame j hj hrj] at hl, hrj⟩
  have howns : ∀ j s, j ≠ ir.nextInsn → ir'.Owns j s → ir.Owns j s := fun j s hj ho =>
    ⟨(hlive j hj ho.1).1, by rw [← Instruction.operandSlots_of_form (hform j hj).1]; exact ho.2⟩
  have hallocated : ∀ s, ir.Allocated s → s.insn? ≠ some ir.nextInsn := by
    intro s ha hs
    cases s with
    | cell c => simp [Address.insn?] at hs
    | target j | src1 j | src2 j | src3 j =>
      obtain rfl : j = ir.nextInsn := by simpa [Address.insn?] using hs
      exact absurd ha (Nat.lt_irrefl _)
  have hmine : ∀ s, ir'.Owns ir.nextInsn s → s.insn? = some ir.nextInsn ∧
      hasUseList (ir'.load s) = false := fun s ho => hslots s (hnew ▸ ho.2)
  have hentries : ∀ q s, ir'.entries q s = ir.entries q s := fun q s => by
    simp [Ir.entries, husers]
  have hdef : ∀ q d, ir'.definition q = some d →
      (q = p ∧ d = ir.nextInsn) ∨ (q ≠ p ∧ ir.definition q = some d ∧ d ≠ ir.nextInsn) := by
    intro q d hd
    rw [hdefinition] at hd
    by_cases hq : q = p
    · subst hq
      rw [Function.update_self] at hd
      exact Or.inl ⟨rfl, (Option.some.inj hd).symm⟩
    · rw [Function.update_of_ne hq] at hd
      exact Or.inr ⟨hq, hd, Nat.ne_of_lt (h.definitionAllocated q d hd)⟩
  refine ⟨fun j s ho q hq => ?_, fun q hq hsym pu hpu => ?_, fun j s ho nr d hl hd => ?_,
    fun nr d hd => ?_, fun q d hd hreg => ?_, fun j hj hop => ?_, fun j k s hj hk => ?_,
    fun q hq pu hpu j hj => ?_, fun j hj => ?_, fun j c hj => ?_, fun q hq pu hpu => ?_,
    fun q d hd => ?_⟩
  · rw [hentries]
    by_cases hj : j = ir.nextInsn
    · subst hj
      obtain ⟨hs, hn⟩ := hmine s ho
      rw [h.entries_of_not_allocated hq (fun ha => hallocated s ha hs), if_neg]
      rintro rfl
      rw [hq] at hn
      exact absurd hn.symm Bool.false_ne_true
    · have ho' := howns j s hj ho
      rw [hload s (hallocated s (h.allocated_of_owns ho'))]
      exact h.exact j s ho' q hq
  · rw [husers] at hpu
    rw [hload _ (hallocated _ (h.userAllocated q hq pu hpu))]
    exact h.back q hq hsym pu hpu
  · by_cases hj : j = ir.nextInsn
    · subst hj
      have := (hmine s ho).2
      rw [hl] at this
      exact absurd this.symm Bool.false_ne_true
    · have ho' := howns j s hj ho
      rw [hload s (hallocated s (h.allocated_of_owns ho'))] at hl
      rcases hdef _ d hd with ⟨-, rfl⟩ | ⟨hne, hd', hdn⟩
      · rwa [Ir.live, hnew]
      · have hld := h.defined j s ho' nr d hl hd'
        have hrd : ¬ r d := by
          intro hrd
          obtain ⟨hreg, hpd⟩ := hr d hrd
          cases p with
          | reg m => exact hne (h.definition_unique hd' hpd (hasm d hrd))
          | _ => simp [Pseudo.isReg] at hreg
        unfold Ir.live
        rw [hsame d hdn hrd]
        exact hld
  · rcases hdef _ d hd with ⟨rfl, rfl⟩ | ⟨-, hd', hdn⟩
    · rw [hnew]
      exact ⟨.inl htarget, hst⟩
    · rw [(hform d hdn).2, hopcode d hdn]
      exact h.result nr d hd'
  · rcases hdef _ d hd with ⟨rfl, rfl⟩ | ⟨-, hd', hdn⟩
    · rw [hnew]
      exact hother hreg
    · rw [hopcode d hdn]
      exact h.other q d hd' hreg
  · by_cases hjn : j = ir.nextInsn
    · subst hjn
      rw [hnew] at hop ⊢
      rw [htarget]
      have hreg := hres hop
      cases p with
      | reg nr => exact ⟨nr, rfl, by rw [hdefinition, Function.update_self]⟩
      | _ => simp [Pseudo.isReg] at hreg
    · obtain ⟨hl, hrj⟩ := hlive j hjn hj
      rw [hopcode j hjn] at hop
      obtain ⟨nr, ht, hd⟩ := h.defines j hl hop
      refine ⟨nr, (hform j hjn).2.trans ht, ?_⟩
      rw [hdefinition, Function.update_of_ne, hd]
      rintro rfl
      exact hrj (hr' j rfl hd)
  · by_cases hjn : j = ir.nextInsn
    · subst hjn
      by_cases hkn : k = ir.nextInsn
      · exact hkn.symm
      · exact absurd (hmine s hj).1 (hallocated s (h.allocated_of_owns (howns k s hkn hk)))
    · by_cases hkn : k = ir.nextInsn
      · subst hkn
        exact absurd (hmine s hk).1 (hallocated s (h.allocated_of_owns (howns j s hjn hj)))
      · exact h.unique j k s (howns j s hjn hj) (howns k s hkn hk)
  · rw [husers] at hpu
    have hjn : j ≠ ir.nextInsn := by
      rintro rfl
      exact hallocated _ (h.userAllocated q hq pu hpu) (by rw [hj]; rfl)
    rw [hopcode j hjn]
    exact h.targets q hq pu hpu j hj
  · rw [hnextInsn]
    by_cases hjn : j = ir.nextInsn
    · exact hjn ▸ Nat.lt_succ_self _
    · exact Nat.lt_succ_of_lt (h.liveAllocated j (hlive j hjn hj).1)
  · by_cases hjn : j = ir.nextInsn
    · subst hjn
      have := (hmine _ hj).1
      simp [Address.insn?] at this
    · exact Nat.lt_of_lt_of_le (h.cellAllocated j c (howns j _ hjn hj)) hnextCell
  · rw [husers] at hpu
    have ha := h.userAllocated q hq pu hpu
    cases hs : pu.userp with
    | cell c => rw [hs] at ha; exact Nat.lt_of_lt_of_le ha hnextCell
    | target j | src1 j | src2 j | src3 j =>
      rw [hs] at ha
      show j < ir'.nextInsn
      rw [hnextInsn]
      exact Nat.lt_succ_of_lt ha
  · rw [hnextInsn]
    rcases hdef _ d hd with ⟨-, rfl⟩ | ⟨-, hd', -⟩
    · exact Nat.lt_succ_self _
    · exact Nat.lt_succ_of_lt (h.definitionAllocated q d hd')

end UseInvariant

/-- The instruction that `alloc_phi` makes, before its operand is registered. -/
private def Ir.emptyPhi (ir : Ir) (source : BlockId) (size : ℕ) : Ir :=
  { ir with
    nextInsn := ir.nextInsn + 1
    nextPhi := ir.nextPhi + 1
    definition := Function.update ir.definition (.phi ir.nextPhi) (some ir.nextInsn)
    insn := Function.update ir.insn ir.nextInsn
      { opcode := .phisource, size := size, bb := some source, target := .phi ir.nextPhi } }

private theorem Ir.allocPhi_eq (ir : Ir) (source : BlockId) (p : Pseudo) (size : ℕ) :
    (ir.allocPhi source p size).1 =
      ((ir.emptyPhi source size).usePseudo ir.nextInsn p (.src1 ir.nextInsn)).setBlock source
        (fun b => { b with insns := b.insns ++ [ir.nextInsn] }) := by
  unfold allocPhi
  dsimp only
  rw [setInsn_usePseudo (by simp [assign, setInsn])]
  simp [setInsn, emptyPhi]

/-- The pseudo of a live phi source. -/
def Ir.IsPhi (ir : Ir) (p : Pseudo) : Prop :=
  ∃ k d, p = .phi k ∧ ir.definition p = some d ∧ ir.live d ∧ (ir.insn d).opcode = .phisource ∧
    (ir.insn d).target = p

/-- A list cell that is registered with a phi pseudo for an instruction that does not own it
yet. -/
structure Ir.Registered (ir : Ir) (i : InsnId) (c : CellId) : Prop where
  allocated : c < ir.nextCell
  free : ∀ j, ¬ ir.Owns j (.cell c)
  phi : ∃ k, ir.cell c = .phi k
  entries : ∀ p, hasUseList p = true →
    ir.entries p (.cell c) = if ir.cell c = p then [⟨i, .cell c⟩] else []

/-- A kill that starts at the address of a load leaves the list cells alone. -/
theorem Ir.Registered.killUse {ir ir1 : Ir} {i : InsnId} {c : CellId} (hr : ir.Registered i c)
    (hsame : SameForm ir (ir.emptySlot (.src1 i))) (hf : KillFrame (ir.emptySlot (.src1 i)) ir1) :
    ir1.Registered i c := by
  have hcell : ir1.cell c = ir.cell c :=
    (hf.cells c).1.trans ((ir.load_emptySlot _ _).trans (if_neg (by simp)))
  refine ⟨?_, fun j ho => hr.free j ((hsame.owns j _).mp (hf.owns ho)), hcell ▸ hr.phi,
    fun p hp => ?_⟩
  · rw [hf.nextCell, hsame.nextCell]
    exact hr.allocated
  · rw [hcell, (hf.cells c).2, ir.entries_emptySlot_of_ne p (by simp)]
    exact hr.entries p hp

/-- A dominator as `find_dominating_parents` leaves it: its phi source is alive. -/
structure Ir.Pending (ir : Ir) (i : InsnId) (c : CellId) : Prop extends ir.Registered i c where
  source : ir.IsPhi (ir.cell c)

namespace UseInvariant

variable {ir : Ir} {i : InsnId} {p : Pseudo}

private theorem emptyPhi (h : UseInvariant ir) (source : BlockId) (size : ℕ) :
    UseInvariant (ir.emptyPhi source size) := by
  refine h.takeOver (r := fun _ => False) (p := .phi ir.nextPhi)
    (x := { opcode := .phisource, size := size, bb := some source, target := .phi ir.nextPhi })
    (by simp [Ir.emptyPhi]) (fun j hj _ => by simp [Ir.emptyPhi, hj]) (fun _ _ hr => hr.elim)
    rfl rfl rfl rfl (Nat.le_refl _) (fun s hs => ?_) (by simp) rfl rfl
    (by simp [Opcode.hasResult, Opcode.isBinary]) (fun _ => Or.inl rfl) (fun _ hr => hr.elim)
    (fun _ hr => hr.elim) (by simp [Pseudo.isReg])
  obtain rfl : s = .src1 ir.nextInsn := by simpa [Instruction.operandSlots] using hs
  exact ⟨rfl, by simp [Ir.emptyPhi, Ir.load, hasUseList]⟩

/-- `alloc_phi` of a pseudo that is available. -/
theorem allocPhi (h : UseInvariant ir) (hp : ir.Available p) (source : BlockId) (size : ℕ) :
    UseInvariant (ir.allocPhi source p size).1 := by
  rw [Ir.allocPhi_eq]
  refine ((h.emptyPhi source size).usePseudo ⟨by simp [Ir.live, Ir.emptyPhi], ?_⟩ ?_
    (fun nr d hq hd => ?_)).setBlock _ _
  · simp [Ir.emptyPhi, Instruction.operandSlots]
  · simp [Ir.emptyPhi, Ir.load, hasUseList]
  · have hd' : ir.definition (.reg nr) = some d := by simpa [Ir.emptyPhi] using hd
    have hne := Nat.ne_of_lt (h.definitionAllocated _ d hd')
    simpa [Ir.live, Ir.emptyPhi, hne] using hp nr d hq hd'

/-- `alloc_phi` leaves the lists alone and adds a phi pseudo. -/
theorem allocPhi_frame (h : UseInvariant ir) (source : BlockId) (size : ℕ) {ir' : Ir}
    (hir : ir' = (ir.allocPhi source p size).1) :
    ir'.cell = ir.cell ∧ ir'.nextCell = ir.nextCell ∧
      (∀ q c, ir'.entries q (.cell c) = ir.entries q (.cell c)) ∧
      (∀ j c, ir'.Owns j (.cell c) → ir.Owns j (.cell c)) ∧
      (∀ q, ir.IsPhi q → ir'.IsPhi q) ∧ ir'.IsPhi (.phi ir.nextPhi) := by
  rw [Ir.allocPhi_eq] at hir
  have hsame := SameForm.usePseudo (ir.emptyPhi source size) ir.nextInsn p (.src1 ir.nextInsn)
  have hopcode := fun j => hsame.opcode j
  have htarget : ∀ j, (ir'.insn j).target = ((ir.emptyPhi source size).insn j).target := fun j => by
    rw [hir]
    exact Ir.usePseudo_target (by simp)
  have hinsn : ∀ j, j ≠ ir.nextInsn → (ir.emptyPhi source size).insn j = ir.insn j := fun j hj => by
    simp [Ir.emptyPhi, hj]
  have hself : (ir.emptyPhi source size).insn ir.nextInsn =
      { opcode := .phisource, size := size, bb := some source, target := .phi ir.nextPhi } := by
    simp [Ir.emptyPhi]
  have hphi : ir'.IsPhi (.phi ir.nextPhi) := by
    refine ⟨ir.nextPhi, ir.nextInsn, rfl, ?_, ?_, ?_, ?_⟩
    · rw [hir, Ir.setBlock_definition, hsame.definition]
      simp [Ir.emptyPhi]
    · rw [hir]
      exact (hsame.live _).mpr (by simp [Ir.live, hself])
    · rw [hir, Ir.setBlock_insn, hopcode, hself]
    · rw [htarget, hself]
  refine ⟨?_, ?_, fun q c => ?_, fun j c ho => ?_, fun q hq => ?_, hphi⟩
  · rw [hir]
    funext c
    exact (Ir.load_usePseudo _ _ _ _ (.cell c)).trans (if_neg (by simp))
  · rw [hir]
    exact hsame.nextCell
  · rw [hir]
    exact (Ir.entries_usePseudo _ _ _ _ _ _).trans (by simp; rfl)
  · rw [hir] at ho
    have ho' : (ir.emptyPhi source size).Owns j (.cell c) := (hsame.owns j _).mp ho
    by_cases hj : j = ir.nextInsn
    · subst hj
      have := ho'.2
      rw [hself] at this
      simp [Instruction.operandSlots] at this
    · unfold Ir.Owns Ir.live at ho' ⊢
      rwa [hinsn j hj] at ho'
  · obtain ⟨k, d, rfl, hd, hl, hop, ht⟩ := hq
    by_cases hk : k = ir.nextPhi
    · rwa [hk]
    · have hdn : d ≠ ir.nextInsn := Nat.ne_of_lt (h.definitionAllocated _ d hd)
      refine ⟨k, d, rfl, ?_, ?_, ?_, ?_⟩
      · rw [hir, Ir.setBlock_definition, hsame.definition]
        simpa [Ir.emptyPhi, hk] using hd
      · rw [hir]
        exact (hsame.live _).mpr (by unfold Ir.live; rwa [hinsn d hdn])
      · rw [hir, Ir.setBlock_insn, hopcode, hinsn d hdn]
        exact hop
      · rw [htarget, hinsn d hdn]
        exact ht

theorem reserveCell (h : UseInvariant ir) :
    UseInvariant { ir with nextCell := ir.nextCell + 1 } := by
  refine ⟨h.exact, h.back, h.defined, h.result, h.other, h.defines, h.unique, h.targets,
    h.liveAllocated, fun j c ho => Nat.lt_succ_of_lt (h.cellAllocated j c ho), fun q hq pu hpu => ?_,
    h.definitionAllocated⟩
  have ha := h.userAllocated q hq pu hpu
  cases hs : pu.userp with
  | cell c =>
    rw [hs] at ha
    exact Nat.lt_succ_of_lt ha
  | target j | src1 j | src2 j | src3 j =>
    rw [hs] at ha
    exact ha

/-- A new dominator is registered and waits to be taken into the phi list of the load. -/
theorem addDominator (h : UseInvariant ir) (hp : ir.Available p) (parent : BlockId) (size : ℕ) :
    UseInvariant (ir.addDominator i parent p size).1 ∧
      (ir.addDominator i parent p size).1.Pending i (ir.addDominator i parent p size).2 ∧
      ∀ c, ir.Pending i c → (ir.addDominator i parent p size).1.Pending i c := by
  have h0 : UseInvariant (ir.deleteLastInstruction parent) := h.setBlock _ _
  have h1 := h0.allocPhi (p := p) hp parent size
  obtain ⟨hcell, hnext, hentries, howns, hphis, hphi⟩ := h0.allocPhi_frame (p := p) parent size rfl
  set ir1 := ((ir.deleteLastInstruction parent).allocPhi parent p size).1
  set phi : Pseudo := .phi (ir.deleteLastInstruction parent).nextPhi
  set n : CellId := ir1.nextCell
  -- Room for the new cell.
  set ir2 : Ir := { ir1.setBlock parent
    (fun b => { b with insns := b.insns ++ (ir.lastInstruction parent).toList }) with
    nextCell := n + 1 }
  have h2 : UseInvariant ir2 := (h1.setBlock _ _).reserveCell
  have hfree : ∀ j, ¬ ir2.Owns j (.cell n) := fun j ho =>
    absurd (h1.cellAllocated j _ ho) (Nat.lt_irrefl _)
  have hnil : ∀ q, hasUseList q = true → ir2.entries q (.cell n) = [] := fun q hq =>
    h1.entries_of_not_allocated hq (Nat.lt_irrefl n)
  have hsame := SameForm.usePseudo ir2 i phi (.cell n)
  have hload : ∀ c, (ir2.usePseudo i phi (.cell n)).cell c = if c = n then phi else ir1.cell c := by
    intro c
    refine (ir2.load_usePseudo i phi (.cell n) (.cell c)).trans ?_
    simp only [Address.cell.injEq]
    rfl
  have hphi' : ∀ q, ir1.IsPhi q → (ir2.usePseudo i phi (.cell n)).IsPhi q := by
    rintro q ⟨k, d, hk, hd, hl, hop, ht⟩
    refine ⟨k, d, hk, hsame.definition ▸ hd, (hsame.live d).mpr hl, (hsame.opcode d).trans hop, ?_⟩
    exact (Ir.usePseudo_target (by simp)).trans ht
  have hkeep : UseInvariant (ir2.usePseudo i phi (.cell n)) :=
    h2.usePending (Nat.lt_succ_self _) hfree hnil
  have hnew : (ir2.usePseudo i phi (.cell n)).Pending i n := by
    refine ⟨⟨?_, fun j ho => hfree j ((hsame.owns j _).mp ho), ?_, fun q hq => ?_⟩, ?_⟩
    · rw [hsame.nextCell]
      exact Nat.lt_succ_self _
    · rw [hload, if_pos rfl]
      exact ⟨_, rfl⟩
    · rw [hload, if_pos rfl, Ir.entries_usePseudo, hnil q hq]
      by_cases hqp : q = phi
      · simp [hqp, phi, hasUseList]
      · simp [hqp, Ne.symm hqp]
    · rw [hload, if_pos rfl]
      exact hphi' _ hphi
  have hold : ∀ c, ir.Pending i c → (ir2.usePseudo i phi (.cell n)).Pending i c := by
    intro c hc
    have hlt : c < n := by rw [hnext]; exact hc.allocated
    have hcn : c ≠ n := Nat.ne_of_lt hlt
    refine ⟨⟨?_, fun j ho => hc.free j (howns j c ((hsame.owns j _).mp ho)), ?_, fun q hq => ?_⟩, ?_⟩
    · rw [hsame.nextCell]
      exact Nat.lt_succ_of_lt hlt
    · rw [hload, if_neg hcn, hcell]
      exact hc.phi
    · rw [hload, if_neg hcn, hcell, Ir.entries_usePseudo]
      simp only [Address.cell.injEq, hcn, and_false, if_false, List.append_nil]
      exact (hentries q c).trans (hc.entries q hq)
    · rw [hload, if_neg hcn, hcell]
      exact hphi' _ (hphis _ hc.source)
  exact ⟨hkeep, hnew, hold⟩

/-- The address of a load is taken over by the phi list. -/
theorem becomePhi (h : UseInvariant ir) (hi : ir.live i) (hop : (ir.insn i).opcode = .load)
    (hsrc : hasUseList (ir.insn i).src1 = false ∨ (ir.insn i).src1.isSym = true)
    {cs : List CellId} (hcs : ∀ c ∈ cs, ir.Registered i c) :
    UseInvariant (ir.setInsn i ({ · with opcode := .phi, phiList := cs, src1 := .null })) := by
  set f : Instruction → Instruction := ({ · with opcode := .phi, phiList := cs, src1 := .null })
  have ho : ir.Owns i (.src1 i) := ⟨hi, by simp [Instruction.operandSlots, hop]⟩
  have hload : ∀ s, s ≠ .src1 i → (ir.setInsn i f).load s = ir.load s := by
    intro s hs
    cases s with
    | cell c => rfl
    | target j | src1 j | src2 j | src3 j => by_cases hj : j = i <;> simp_all [Ir.load, f]
  refine h.recast rfl rfl (by rw [hop]; rfl) rfl (fun p hp hsym pu hpu => ?_) (fun s hs => ?_)
  · have hne : pu.userp ≠ .src1 i := by
      intro he
      have hl := h.load_eq_of_mem ho hp hpu he
      rcases hsrc with hsrc | hsrc <;> rw [show (ir.insn i).src1 = p from hl] at hsrc
      · rw [hp] at hsrc
        exact absurd hsrc.symm Bool.false_ne_true
      · rw [hsym] at hsrc
        exact absurd hsrc Bool.false_ne_true
    rw [hload _ hne]
    exact h.back p hp hsym pu hpu
  · obtain ⟨c, hc, rfl⟩ : ∃ c ∈ cs, Address.cell c = s := by
      simpa [f, Instruction.operandSlots] using hs
    have hr := hcs c hc
    refine ⟨hr.allocated, fun j hj => absurd hj (hr.free j), fun nr d he => ?_, hr.entries⟩
    obtain ⟨k, hk⟩ := hr.phi
    have hk' : ir.load (.cell c) = .phi k := hk
    rw [hload _ (by simp), hk'] at he
    cases he

theorem clearPhiSources (h : UseInvariant ir) (cs : List CellId)
    (hcs : ∀ c ∈ cs, ∀ d, ir.definition (ir.cell c) = some d →
      (ir.insn d).target.isReg = false ∧ (ir.insn d).opcode ≠ .asm) :
    UseInvariant (cs.foldl Ir.clearPhiSource ir) ∧
      (cs.foldl Ir.clearPhiSource ir).definition = ir.definition ∧
      (∀ j, ((cs.foldl Ir.clearPhiSource ir).insn j).opcode = (ir.insn j).opcode) ∧
      ∀ j, (ir.insn j).target.isReg = true ∨ (ir.insn j).opcode = .asm → ir.live j →
        (cs.foldl Ir.clearPhiSource ir).live j := by
  induction cs generalizing ir with
  | nil => exact ⟨h, rfl, fun _ => rfl, fun _ _ hl => hl⟩
  | cons c cs ih =>
    have hc := hcs c List.mem_cons_self
    have hrest := fun c' hc' => hcs c' (List.mem_cons_of_mem c hc')
    rw [List.foldl_cons]
    cases hd : ir.definition (ir.cell c) with
    | none =>
      have he : ir.clearPhiSource c = ir := by simp [Ir.clearPhiSource, hd]
      rw [he]
      exact ih h hrest
    | some d =>
      have he : ir.clearPhiSource c = ir.clearBb d := by simp [Ir.clearPhiSource, hd]
      obtain ⟨hreg, hasm⟩ := hc d hd
      have h1 : UseInvariant (ir.clearBb d) := h.clearBb (fun nr hnr => by
        rw [h.target_of_definition hnr hasm] at hreg
        exact absurd hreg.symm Bool.false_ne_true)
      have htarget : ∀ j, ((ir.clearBb d).insn j).target = (ir.insn j).target :=
        fun j => ir.load_clearBb d (.target j)
      have hopcode : ∀ j, ((ir.clearBb d).insn j).opcode = (ir.insn j).opcode := by
        intro j
        by_cases hj : j = d
        · subst hj; simp [Ir.clearBb]
        · simp [Ir.clearBb, hj]
      rw [he]
      obtain ⟨h2, hdef, hop, hlive⟩ := ih h1 (fun c' hc' e hce => by
        rw [htarget, hopcode]
        exact hrest c' hc' e hce)
      refine ⟨h2, hdef, fun j => (hop j).trans (hopcode j), fun j hj hl => ?_⟩
      refine hlive j (by rwa [htarget, hopcode]) ((ir.live_clearBb d j).mpr ⟨?_, hl⟩)
      rintro rfl
      rw [hreg] at hj
      exact hj.elim Bool.false_ne_true hasm

/-- `rewrite_load_instruction` on dominators that do not all record the load's own result. -/
theorem rewriteLoadInstruction (h : UseInvariant ir) (hi : ir.live i)
    (hop : (ir.insn i).opcode = .load) {cs : List CellId} (hcs : ∀ c ∈ cs, ir.Pending i c)
    (hself : ∃ c ∈ cs, ir.phiSrc c ≠ some (ir.insn i).target) :
    UseInvariant (ir.rewriteLoadInstruction i cs) := by
  obtain ⟨nr, ht, hd⟩ := h.defines i hi (by rw [hop]; rfl)
  unfold Ir.rewriteLoadInstruction
  split
  next => exact h
  next first rest =>
    split
    next => exact h
    next new hnew =>
      split
      next hall =>
        have hne : new ≠ .reg nr := by
          rintro rfl
          obtain ⟨c, hc, hcn⟩ := hself
          have := List.all_eq_true.mp hall c hc
          rw [ht] at hcn
          exact hcn (of_decide_eq_true this)
        obtain ⟨k, d, hk, hdk, hl, hopd, htd⟩ := (hcs first List.mem_cons_self).source
        have hsrc : (ir.insn d).src1 = new := by
          simpa [Ir.phiSrc, hdk] using hnew
        have hod : ir.Owns d (.src1 d) := ⟨hl, by simp [Instruction.operandSlots, hopd]⟩
        have havail := h.available_of_owns hod
        rw [show ir.load (.src1 d) = new from hsrc] at havail
        obtain ⟨h1, hdef, hopc, hlive⟩ := h.clearPhiSources (first :: rest)
          (fun c hc e he => by
            obtain ⟨k', d', hk', hd', -, hop', ht'⟩ := (hcs c hc).source
            rw [hd'] at he
            rw [← Option.some.inj he, ht', hk', hop']
            exact ⟨rfl, by decide⟩)
        refine h1.convertLoadInstruction (by rw [hdef]; exact hd) (by rw [hopc, hop]; rfl) hne
          (fun m e he hde => ?_)
        rw [hdef] at hde
        exact hlive e ((h.result m e hde).1.imp_left fun hm => by rw [hm]; rfl) (havail m e he hde)
      next =>
        split
        next x hx =>
          exact h.becomePhi hi hop (Or.inr (by rw [hx]; rfl)) (fun c hc => (hcs c hc).toRegistered)
        next =>
          have hst : ∀ j, Address.src1 i = .target j → (ir.insn j).opcode.storesTarget = true := by
            simp
          obtain ⟨h1, hf⟩ := h.killUse_frame hst
          have hsame := SameForm.emptySlot ir (.src1 i)
          have hop' : ((ir.emptySlot (.src1 i)).insn i).opcode = .load := (hsame.opcode i).trans hop
          have hi1 : (ir.killUse (some (.src1 i))).live i :=
            hf.kept i ((hsame.live i).mpr hi) (by rw [hop']; rfl)
          have hop1 : ((ir.killUse (some (.src1 i))).insn i).opcode = .load :=
            (Instruction.opcode_of_form (hf.form i)).trans hop'
          have hvoid : ((ir.killUse (some (.src1 i))).insn i).src1 = .void :=
            (hf.slots i (.src1 i) ⟨hi1, by simp [Instruction.operandSlots, hop1]⟩).trans
              ((ir.load_emptySlot _ _).trans (if_pos rfl))
          exact h1.becomePhi hi1 hop1 (Or.inl (by rw [hvoid]; rfl))
            (fun c hc => (hcs c hc).toRegistered.killUse hsame hf)

/-- `clear_phi` empties list cells that nothing live owns any more. -/
theorem voidCells (h : UseInvariant ir) {cs : List CellId}
    (hcs : ∀ c ∈ cs, ∀ j, ¬ ir.Owns j (.cell c)) :
    UseInvariant (cs.foldl (fun ir c => ir.assign .void (.cell c)) ir) := by
  induction cs generalizing ir with
  | nil => exact h
  | cons c cs ih =>
    have hsame := SameForm.assign ir .void (.cell c)
    have hne : ∀ j s, ir.Owns j s → s ≠ .cell c := by
      rintro j s ho rfl
      exact hcs c List.mem_cons_self j ho
    have h1 : UseInvariant (ir.assign .void (.cell c)) := by
      refine h.of_sameForm hsame (fun j s ho p hp => ?_) (fun p hp hsym pu hpu => ?_)
        (fun j s ho nr d hl hd => ?_) (fun nr d _ => rfl) (fun p hp pu hpu => Or.inl ⟨p, hp, hpu⟩)
      · rw [ir.assign_load, if_neg (hne j s ho)]
        exact h.exact j s ho p hp
      · rw [ir.assign_load]
        split
        · exact Or.inr rfl
        · exact h.back p hp hsym pu hpu
      · rw [ir.assign_load, if_neg (hne j s ho)] at hl
        exact h.defined j s ho nr d hl hd
    exact ih h1 (fun c' hc' j ho =>
      hcs c' (List.mem_cons_of_mem c hc') j ((hsame.owns j _).mp ho))

end UseInvariant

/-- The select that `insert_select` makes, before its operands are registered, with the phi that
it replaces already out of its block. -/
private def Ir.emptySelect (ir : Ir) (bb : BlockId) (i : InsnId) : Ir :=
  { ir with
    nextInsn := ir.nextInsn + 1
    definition := Function.update ir.definition (ir.insn i).target (some ir.nextInsn)
    insn := Function.update (Function.update ir.insn ir.nextInsn
      { opcode := .sel, size := (ir.insn i).size, bb := some bb, target := (ir.insn i).target })
      i { ir.insn i with bb := none } }

private theorem Ir.emptySelect_insn_new {ir : Ir} (bb : BlockId) {i : InsnId}
    (hi : ir.nextInsn ≠ i) : (ir.emptySelect bb i).insn ir.nextInsn =
      { opcode := .sel, size := (ir.insn i).size, bb := some bb, target := (ir.insn i).target } := by
  simp [emptySelect, hi]

private theorem Ir.emptySelect_insn_other (ir : Ir) (bb : BlockId) (i j : InsnId)
    (hj : j ≠ ir.nextInsn) (hji : j ≠ i) : (ir.emptySelect bb i).insn j = ir.insn j := by
  simp [emptySelect, hj, hji]

private theorem Ir.setDefinition_usePseudo (ir : Ir) (j : InsnId) (p : Pseudo) (s : Address)
    (D : Pseudo → Option InsnId) : { ir.usePseudo j p s with definition := D } =
      ({ ir with definition := D } : Ir).usePseudo j p s := by
  unfold usePseudo
  dsimp only
  split <;> cases s <;> rfl

private theorem Ir.clearBb_usePseudo {ir : Ir} {i n : InsnId} (hne : i ≠ n) {p : Pseudo}
    {s : Address} (hs : s.insn? = some n) :
    (ir.usePseudo n p s).clearBb i = (ir.clearBb i).usePseudo n p s := by
  refine setInsn_usePseudo ?_
  cases s with
  | cell c => simp [Address.insn?] at hs
  | target j | src1 j | src2 j | src3 j =>
    obtain rfl : j = n := by simpa [Address.insn?] using hs
    simp [assign, setInsn, Function.update_of_ne hne, Function.update_of_ne (Ne.symm hne),
      Function.update_comm hne]

private theorem Ir.insertSelect_eq {ir : Ir} {bb : BlockId} {br i : InsnId} {p1 p2 : Pseudo}
    (hi : i ≠ ir.nextInsn) (hbr : br ≠ ir.nextInsn) :
    (ir.insertSelect bb br i p1 p2).clearBb i =
      (((((ir.deleteLastInstruction bb).emptySelect bb i).usePseudo ir.nextInsn
        (ir.insn br).target (.src1 ir.nextInsn)).usePseudo ir.nextInsn p1
        (.src2 ir.nextInsn)).usePseudo ir.nextInsn p2 (.src3 ir.nextInsn)).setBlock bb
        (fun b => { b with insns := b.insns ++ [ir.nextInsn, br] }) := by
  set n := ir.nextInsn
  set ir2 : Ir := ({ ir.deleteLastInstruction bb with nextInsn := n + 1 } : Ir).setInsn n
    (fun _ => { opcode := .sel, size := (ir.insn i).size, bb := some bb }) with hir2
  have hcond : (ir2.insn br).target = (ir.insn br).target := by
    simp [hir2, hbr, Ir.deleteLastInstruction]
  have htarget : ∀ q, ((ir2.usePseudo n q (.src1 n)).insn i).target = (ir.insn i).target := by
    intro q
    rw [usePseudo_target (by simp)]
    simp [hir2, hi, Ir.deleteLastInstruction]
  have hdef : ∀ q t, ((ir2.usePseudo n q (.src1 n)).setInsn n ({ · with target := t })).definition =
      ir.definition := by
    intro q t
    exact (SameForm.usePseudo ir2 n q _).definition
  have hset : ∀ q t, (ir2.usePseudo n q (.src1 n)).setInsn n ({ · with target := t }) =
      (ir2.setInsn n ({ · with target := t })).usePseudo n q (.src1 n) := by
    intro q t
    exact setInsn_usePseudo (by simp [assign, setInsn])
  have hbase : (({ ir2.setInsn n ({ · with target := (ir.insn i).target }) with
      definition := Function.update ir.definition (ir.insn i).target (some n) } : Ir).clearBb i) =
      (ir.deleteLastInstruction bb).emptySelect bb i := by
    simp [hir2, clearBb, setInsn, emptySelect, hi, deleteLastInstruction, setBlock]
    exact ⟨rfl, rfl, rfl⟩
  have hdefined : (ir2.setInsn n ({ · with target := (ir.insn i).target })).usePseudo n
      (ir.insn br).target (.src1 n) = (ir2.usePseudo n (ir.insn br).target (.src1 n)).setInsn n
      ({ · with target := (ir.insn i).target }) := (hset _ _).symm
  rw [← hbase, ← clearBb_usePseudo hi rfl, ← clearBb_usePseudo hi rfl, ← clearBb_usePseudo hi rfl,
    ← setDefinition_usePseudo (ir2.setInsn n ({ · with target := (ir.insn i).target })), hdefined]
  have hunfold : ir.insertSelect bb br i p1 p2 =
      ((({ (ir2.usePseudo n (ir2.insn br).target (.src1 n)).setInsn n
          ({ · with target := ((ir2.usePseudo n (ir2.insn br).target (.src1 n)).insn i).target }) with
          definition := Function.update ((ir2.usePseudo n (ir2.insn br).target (.src1 n)).setInsn n
            ({ · with target :=
              ((ir2.usePseudo n (ir2.insn br).target (.src1 n)).insn i).target })).definition
            ((ir2.usePseudo n (ir2.insn br).target (.src1 n)).insn i).target (some n) } : Ir).usePseudo
          n p1 (.src2 n)).usePseudo n p2 (.src3 n)).setBlock bb
          (fun b => { b with insns := b.insns ++ [n, br] }) := rfl
  rw [hunfold, hdef, htarget, hcond]
  rfl

namespace UseInvariant

variable {ir : Ir} {i : InsnId} {p : Pseudo}

private theorem emptySelect (h : UseInvariant ir) {nr : ℕ} (ht : (ir.insn i).target = .reg nr)
    (hd : ir.definition (.reg nr) = some i) (hasm : (ir.insn i).opcode ≠ .asm) (bb : BlockId) :
    UseInvariant (ir.emptySelect bb i) ∧ ir.nextInsn ≠ i ∧
      ∀ q, ir.Available q → (ir.emptySelect bb i).Available q := by
  have hin : ir.nextInsn ≠ i := (Nat.ne_of_lt (h.definitionAllocated _ i hd)).symm
  have hself := Ir.emptySelect_insn_new bb hin
  have hother := ir.emptySelect_insn_other bb i
  refine ⟨h.takeOver (r := fun j => j = i) (p := .reg nr) hself hother
    (fun j _ hji => by subst hji; simp [Ir.emptySelect]) rfl rfl (by simp [Ir.emptySelect, ht])
    rfl (Nat.le_refl _) (fun s hs => ?_) (by simp) ht rfl (fun _ => rfl)
    (by simp [Pseudo.isReg]) (fun j hj => hj ▸ ⟨rfl, hd⟩) (fun j hj => hj ▸ hasm)
    (fun j _ hj => Option.some.inj (hj.symm.trans hd)), hin, fun q hq m d hqm hdm => ?_⟩
  · obtain rfl | rfl | rfl : s = .src1 ir.nextInsn ∨ s = .src2 ir.nextInsn ∨
        s = .src3 ir.nextInsn := by simpa [Instruction.operandSlots] using hs
    all_goals exact ⟨rfl, by simp [Ir.load, hself, hasUseList]⟩
  · by_cases hm : m = nr
    · subst hm
      have hdn : d = ir.nextInsn := by simpa [Ir.emptySelect, ht] using hdm.symm
      simp [Ir.live, hdn, hself]
    · have hdm' : ir.definition (.reg m) = some d := by simpa [Ir.emptySelect, ht, hm] using hdm
      have hdi : d ≠ i := by
        rintro rfl
        exact hm (by simpa using h.definition_unique hdm' hd hasm)
      unfold Ir.live
      rw [hother d (Nat.ne_of_lt (h.definitionAllocated _ d hdm')) hdi]
      exact hq m d hqm hdm'

/-- A select at the end of a block takes the place of a phi. -/
theorem insertSelect (h : UseInvariant ir) (hi : ir.live i) (hop : (ir.insn i).opcode = .phi)
    {br : InsnId} (hbr : ir.live br) (hopbr : (ir.insn br).opcode = .br) {p1 p2 : Pseudo}
    (h1 : ir.Available p1) (h2 : ir.Available p2) (bb : BlockId) :
    UseInvariant ((ir.insertSelect bb br i p1 p2).clearPhi i) := by
  obtain ⟨nr, ht, hd⟩ := h.defines i hi (by rw [hop]; rfl)
  have h0 : UseInvariant (ir.deleteLastInstruction bb) := h.setBlock _ _
  have hasm : (ir.insn i).opcode ≠ .asm := by rw [hop]; decide
  obtain ⟨hE, hin, havail⟩ := h0.emptySelect ht hd hasm bb
  set E := (ir.deleteLastInstruction bb).emptySelect bb i with hEdef
  set n := ir.nextInsn
  have hself : E.insn n =
      { opcode := .sel, size := (ir.insn i).size, bb := some bb, target := (ir.insn i).target } :=
    Ir.emptySelect_insn_new bb hin
  have howns : ∀ s ∈ [Address.src1 n, .src2 n, .src3 n], E.Owns n s := fun s hs =>
    ⟨by simp [Ir.live, hself], by simpa [hself, Instruction.operandSlots] using hs⟩
  have hcond : ir.Available (ir.insn br).target :=
    h.available_of_owns (i := br) (s := .target br) ⟨hbr, by simp [Instruction.operandSlots, hopbr]⟩
  -- The three operands are registered one after the other.
  set A := E.usePseudo n (ir.insn br).target (.src1 n)
  have hsA := SameForm.usePseudo E n (ir.insn br).target (.src1 n)
  have hA : UseInvariant A := hE.usePseudo (howns _ (by simp)) (by simp [Ir.load, hself, hasUseList])
    (havail _ hcond)
  set B := A.usePseudo n p1 (.src2 n)
  have hsB := hsA.trans (SameForm.usePseudo A n p1 (.src2 n))
  have hB : UseInvariant B := by
    refine hA.usePseudo ((hsA.owns n _).mpr (howns _ (by simp))) ?_
      ((SameForm.available hsA).mpr (havail _ h1))
    rw [Ir.load_usePseudo, if_neg (by simp)]
    simp [Ir.load, hself, hasUseList]
  set C := B.usePseudo n p2 (.src3 n)
  have hsC := hsB.trans (SameForm.usePseudo B n p2 (.src3 n))
  have hC : UseInvariant C := by
    refine hB.usePseudo ((hsB.owns n _).mpr (howns _ (by simp))) ?_
      ((SameForm.available hsB).mpr (havail _ h2))
    rw [Ir.load_usePseudo, if_neg (by simp), Ir.load_usePseudo, if_neg (by simp)]
    simp [Ir.load, hself, hasUseList]
  have hclear : (ir.insertSelect bb br i p1 p2).clearBb i =
      C.setBlock bb (fun b => { b with insns := b.insns ++ [n, br] }) :=
    Ir.insertSelect_eq (Ne.symm hin) (Nat.ne_of_lt (h.liveAllocated br hbr))
  have hphi : ((ir.insertSelect bb br i p1 p2).insn i).phiList = (ir.insn i).phiList := by
    have he : ((ir.insertSelect bb br i p1 p2).insn i).phiList =
        (((ir.insertSelect bb br i p1 p2).clearBb i).insn i).phiList := by simp [Ir.clearBb]
    have hform : (C.insn i).phiList = (E.insn i).phiList :=
      congrArg (fun x => x.2.1) (hsC.form i)
    rw [he, hclear, Ir.setBlock_insn, hform]
    simp only [hEdef, Ir.emptySelect, Function.update_self]
    rfl
  unfold Ir.clearPhi
  rw [hclear, hphi]
  refine (hC.setBlock _ _).voidCells (fun c hc j ho => ?_)
  have ho' : E.Owns j (.cell c) := (hsC.owns j _).mp ho
  have hci : ir.Owns i (.cell c) := ⟨hi, by simp [Instruction.operandSlots, hop, hc]⟩
  by_cases hjn : j = n
  · subst hjn
    have := ho'.2
    rw [hself] at this
    simp [Instruction.operandSlots] at this
  · by_cases hji : j = i
    · subst hji
      have := ho'.1
      simp [Ir.live, hEdef, Ir.emptySelect] at this
    · have hinsn : E.insn j = ir.insn j := Ir.emptySelect_insn_other _ bb i j hjn hji
      unfold Ir.Owns Ir.live at ho'
      rw [hinsn] at ho'
      exact hji (h.unique j i _ ho' hci)

/-- `if_convert_phi`. The lists of phis hold phi sources, and blocks end in live branches. -/
theorem ifConvertPhi (h : UseInvariant ir) (hi : ir.live i) (hop : (ir.insn i).opcode = .phi)
    (hphis : ∀ c ∈ (ir.insn i).phiList, ∀ d, ir.definition (ir.cell c) = some d →
      (ir.insn d).opcode = .phisource)
    (hlast : ∀ b br, ir.lastInstruction b = some br → (ir.insn br).opcode = .br → ir.live br) :
    UseInvariant (ir.ifConvertPhi i) := by
  have hsource : ∀ c ∈ (ir.insn i).phiList, ∀ d, ir.definition (ir.cell c) = some d →
      (ir.insn d).bb ≠ none → ir.Available (ir.insn d).src1 := fun c hc d hd hbb =>
    h.available_of_owns (i := d) (s := .src1 d)
      ⟨hbb, by simp [Instruction.operandSlots, hphis c hc d hd]⟩
  have hfor : ∀ source p1 p2 bb1 bb2, ir.Available p1 → ir.Available p2 →
      UseInvariant (ir.insertSelectFor i source p1 p2 bb1 bb2) := by
    intro source p1 p2 bb1 bb2 h1 h2
    unfold Ir.insertSelectFor
    split
    next => exact h
    next br hbr =>
      split_ifs with hopbr
      · exact h
      · exact h.insertSelect hi hop (hlast source br hbr (by simpa using hopbr))
          (by simpa using hopbr) h2 h1 source
      · exact h.insertSelect hi hop (hlast source br hbr (by simpa using hopbr))
          (by simpa using hopbr) h1 h2 source
  unfold Ir.ifConvertPhi
  split
  next bb c1 c2 hbb hlist =>
    split
    next parent1 parent2 d1 d2 hparents hd1 hd2 =>
      split
      next bb1 bb2 hb1 hb2 =>
        have hs1 := hsource c1 (by rw [hlist]; simp) d1 hd1 (by rw [hb1]; simp)
        have hs2 := hsource c2 (by rw [hlist]; simp) d2 hd2 (by rw [hb2]; simp)
        split
        · exact h
        · split
          · exact h
          · split_ifs
            · exact h
            · exact hfor _ _ _ _ _ hs1 hs2
      next => exact h
    next => exact h
  next => exact h

end UseInvariant

end Sparse
