import Sparse.DeathNotes
import Sparse.Executions
import Sparse.ExpandedPaths

/-!
# Out of SSA form

`unssa` replaces each phi by a copy of a temporary of its own, and each phi source by copies into
the temporaries of the phis that list it. The target of a phi is a register.
-/

namespace Sparse

open ProgramPaths

/-- The heap, and `phi_users` of the instructions. -/
structure UnssaState where
  ir : Ir
  phiUsers : InsnId → List InsnId

namespace Ir

/-- `alloc_pseudo(NULL)`. -/
def allocPseudo (ir : Ir) : Ir × Pseudo :=
  ({ ir with
      definition := Function.update ir.definition (.reg ir.nextReg) none
      users := Function.update ir.users (.reg ir.nextReg) []
      nextReg := ir.nextReg + 1 }, .reg ir.nextReg)

/-- `remove_pseudo` and `add_pseudo` on the list `needs` of a block. -/
def replaceNeed (ir : Ir) (bb : BlockId) (target tmp : Pseudo) : Ir :=
  ir.setBlock bb fun b => { b with needs := deleteEntries (· == target) b.needs 0 ++ [tmp] }

/-- `remove_phisrc_defines`, and `add_pseudo` of the temporary. -/
def replaceDefines (ir : Ir) (bb : BlockId) (phiUsers : List InsnId) (tmp : Pseudo) : Ir :=
  ir.setBlock bb fun b => { b with
    defines := phiUsers.foldl (fun l phi => deleteEntries (· == (ir.insn phi).target) l 0) b.defines ++ [tmp] }

end Ir

namespace UnssaState

variable (s : UnssaState)

/-- `track_phi_uses`. -/
def trackPhiUses (insn : InsnId) : UnssaState :=
  (s.ir.insn insn).phiList.foldl (fun s c =>
    if s.ir.cell c = .void then s
    else
      match s.ir.definition (s.ir.cell c) with
      | none => s
      | some d => { s with phiUsers := Function.update s.phiUsers d (s.phiUsers d ++ [insn]) }) s

/-- `replace_phi_node`. -/
def replacePhiNode (phi : InsnId) : UnssaState :=
  let insn := s.ir.insn phi
  let (ir, tmp) := s.ir.allocPseudo
  let ir := insn.bb.elim ir fun bb => ir.replaceNeed bb insn.target tmp
  let s := { s with ir := ir }.trackPhiUses phi
  { s with ir := (s.ir.setInsn phi ({ · with opcode := .copy })).usePseudo phi tmp (.src1 phi) }

/-- `rewrite_phi_bb`. -/
def rewritePhiBb (bb : BlockId) : UnssaState :=
  (s.ir.block bb).insns.foldl (fun s insn =>
    if (s.ir.insn insn).bb = none then s
    else if (s.ir.insn insn).opcode ≠ .phi then s
    else s.replacePhiNode insn) s

end UnssaState

namespace Ir

/-- The copy for a further user of a phi source, in front of what is there. -/
def insertCopy (bb : BlockId) (phiUsers : List InsnId) (insn : InsnId) (x : Ir × List InsnId) (phi : InsnId) :
    Ir × List InsnId :=
  let tmp := (x.1.insn phi).src1
  let (ir, copy) := x.1.allocInstruction
    { opcode := .copy, size := (x.1.insn insn).size, bb := some bb, target := tmp, src1 := (x.1.insn insn).src1 }
  (ir.replaceDefines bb phiUsers tmp, copy :: x.2)

/-- The body of the loop of `rewrite_phisrc_bb`: the heap, and what stands in the place of the
instruction. -/
def rewritePhisrc (ir : Ir) (bb : BlockId) (insn : InsnId) : List InsnId → Ir × List InsnId
  | [] => (ir, [insn])
  | phi :: more =>
    let tmp := (ir.insn phi).src1
    let first := (ir.setInsn insn ({ · with opcode := .copy, target := tmp })).replaceDefines bb (phi :: more) tmp
    more.foldl (insertCopy bb (phi :: more) insn) (first, [insn])

/-- The loop of `rewrite_phisrc_bb`, backwards through the instructions. -/
def rewritePhisrcs (phiUsers : InsnId → List InsnId) (bb : BlockId) (ir : Ir) : List InsnId → Ir × List InsnId
  | [] => (ir, [])
  | insn :: rest =>
    let (ir, rest) := rewritePhisrcs phiUsers bb ir rest
    if (ir.insn insn).bb = none ∨ (ir.insn insn).opcode ≠ .phisource then (ir, insn :: rest)
    else
      let (ir, seg) := ir.rewritePhisrc bb insn (phiUsers insn)
      (ir, seg ++ rest)

/-- `rewrite_phisrc_bb`. -/
def rewritePhisrcBb (phiUsers : InsnId → List InsnId) (ir : Ir) (bb : BlockId) : Ir :=
  let (ir, insns) := ir.rewritePhisrcs phiUsers bb (ir.block bb).insns
  ir.setBlock bb ({ · with insns := insns })

/-- The first loop of `unssa`, on a function for which nothing has recorded `phi_users` before. -/
def replacePhis (ir : Ir) : UnssaState := ir.bbs.foldl UnssaState.rewritePhiBb ⟨ir, fun _ => []⟩

/-- `unssa`. -/
def unssa (ir : Ir) : Ir :=
  ir.bbs.foldl (rewritePhisrcBb ir.replacePhis.phiUsers) ir.replacePhis.ir

end Ir

/-! ## The phis -/

/-- What `replace_phi_node` has done to the phis in the list: each one copies a register of its own
that was not allocated before, and is a user of the phi sources that it lists. -/
structure PhisReplaced (ir : Ir) (phis : List InsnId) (s : UnssaState) : Prop where
  phi : ∀ i ∈ phis, ir.live i ∧ (ir.insn i).opcode = .phi
  other : ∀ j ∉ phis, s.ir.insn j = ir.insn j
  copy : ∀ i ∈ phis, ∃ nr, ir.nextReg ≤ nr ∧ nr < s.ir.nextReg ∧
    s.ir.insn i = { ir.insn i with opcode := .copy, src1 := .reg nr }
  apart : ∀ i ∈ phis, ∀ j ∈ phis, (s.ir.insn i).src1 = (s.ir.insn j).src1 → i = j
  users : ∀ d i, i ∈ s.phiUsers d ↔ i ∈ phis ∧
    ∃ c ∈ (ir.insn i).phiList, ir.cell c ≠ .void ∧ ir.definition (ir.cell c) = some d
  insns : ∀ b, (s.ir.block b).insns = (ir.block b).insns
  children : ∀ b, (s.ir.block b).children = (ir.block b).children
  cell : s.ir.cell = ir.cell
  definition : s.ir.definition = ir.definition
  bbs : s.ir.bbs = ir.bbs
  nextInsn : s.ir.nextInsn = ir.nextInsn
  nextReg : ir.nextReg ≤ s.ir.nextReg

namespace UnssaState

variable {ir : Ir} {s : UnssaState} {phis : List InsnId} {i j d : InsnId} {b : BlockId}

theorem trackPhiUses_foldl (l : List CellId) (s : UnssaState) :
    let s' := l.foldl (fun s c =>
      if s.ir.cell c = .void then s
      else
        match s.ir.definition (s.ir.cell c) with
        | none => s
        | some d => { s with phiUsers := Function.update s.phiUsers d (s.phiUsers d ++ [i]) }) s
    s'.ir = s.ir ∧ ∀ d j, j ∈ s'.phiUsers d ↔ j ∈ s.phiUsers d ∨
      j = i ∧ ∃ c ∈ l, s.ir.cell c ≠ .void ∧ s.ir.definition (s.ir.cell c) = some d := by
  induction l generalizing s with
  | nil => exact ⟨rfl, fun d j => by simp⟩
  | cons c l ih =>
    rw [List.foldl_cons]
    by_cases hvoid : s.ir.cell c = .void
    · rw [if_pos hvoid]
      obtain ⟨hir, husers⟩ := ih s
      refine ⟨hir, fun d j => (husers d j).trans ?_⟩
      simp [hvoid]
    · rw [if_neg hvoid]
      cases hdef : s.ir.definition (s.ir.cell c) with
      | none =>
        obtain ⟨hir, husers⟩ := ih s
        refine ⟨hir, fun d j => (husers d j).trans ?_⟩
        simp [hdef]
      | some d' =>
        obtain ⟨hir, husers⟩ := ih { s with phiUsers := Function.update s.phiUsers d' (s.phiUsers d' ++ [i]) }
        refine ⟨hir, fun d j => (husers d j).trans ?_⟩
        by_cases hd : d = d'
        · subst hd
          simp [hvoid, hdef, or_assoc]
          tauto
        · have hne : ¬d' = d := fun h => hd h.symm
          simp [hvoid, hdef, hd, hne]

theorem trackPhiUses_ir : (s.trackPhiUses i).ir = s.ir := (trackPhiUses_foldl _ s).1

theorem mem_trackPhiUses : j ∈ (s.trackPhiUses i).phiUsers d ↔ j ∈ s.phiUsers d ∨
    j = i ∧ ∃ c ∈ (s.ir.insn i).phiList, s.ir.cell c ≠ .void ∧ s.ir.definition (s.ir.cell c) = some d :=
  (trackPhiUses_foldl _ s).2 d j

/-- What `replace_phi_node` does to a phi. -/
theorem replacePhiNode_spec (hfresh : s.ir.definition (.reg s.ir.nextReg) = none) :
    let s' := s.replacePhiNode i
    s'.ir.insn = Function.update s.ir.insn i
        { s.ir.insn i with opcode := .copy, src1 := .reg s.ir.nextReg } ∧
      (∀ d j, j ∈ s'.phiUsers d ↔ j ∈ s.phiUsers d ∨ j = i ∧ ∃ c ∈ (s.ir.insn i).phiList,
        s.ir.cell c ≠ .void ∧ s.ir.definition (s.ir.cell c) = some d) ∧
      (∀ b, (s'.ir.block b).insns = (s.ir.block b).insns ∧ (s'.ir.block b).children = (s.ir.block b).children) ∧
      s'.ir.cell = s.ir.cell ∧ s'.ir.definition = s.ir.definition ∧ s'.ir.bbs = s.ir.bbs ∧
      s'.ir.nextInsn = s.ir.nextInsn ∧ s'.ir.nextReg = s.ir.nextReg + 1 := by
  intro s'
  have hdef : Function.update s.ir.definition (.reg s.ir.nextReg) none = s.ir.definition :=
    Function.update_eq_self_iff.2 hfresh.symm
  obtain ⟨ir, hir⟩ : ∃ ir : Ir, ir = (s.ir.insn i).bb.elim s.ir.allocPseudo.1
      fun bb => s.ir.allocPseudo.1.replaceNeed bb (s.ir.insn i).target s.ir.allocPseudo.2 := ⟨_, rfl⟩
  have hframe : ir.insn = s.ir.insn ∧ ir.cell = s.ir.cell ∧ ir.definition = s.ir.definition ∧
      ir.bbs = s.ir.bbs ∧ ir.nextInsn = s.ir.nextInsn ∧ ir.nextReg = s.ir.nextReg + 1 ∧
      ∀ b, (ir.block b).insns = (s.ir.block b).insns ∧ (ir.block b).children = (s.ir.block b).children := by
    rw [hir]
    cases (s.ir.insn i).bb with
    | none => exact ⟨rfl, rfl, hdef, rfl, rfl, rfl, fun _ => ⟨rfl, rfl⟩⟩
    | some bb =>
      refine ⟨rfl, rfl, hdef, rfl, rfl, rfl, fun b => ?_⟩
      simp only [Option.elim, Ir.replaceNeed, Ir.setBlock_block, Function.update_apply, Ir.allocPseudo]
      split_ifs with hb
      · subst hb
        exact ⟨rfl, rfl⟩
      · exact ⟨rfl, rfl⟩
  obtain ⟨hinsn, hcell, hdefinition, hbbs, hnext, hreg, hblock⟩ := hframe
  have hs' : s' = { (({ s with ir := ir } : UnssaState).trackPhiUses i) with
      ir := (ir.setInsn i ({ · with opcode := .copy })).usePseudo i (.reg s.ir.nextReg) (.src1 i) } := by
    rw [hir]
    simp only [s', replacePhiNode, trackPhiUses_ir]
    rfl
  have huse : (ir.setInsn i ({ · with opcode := .copy })).usePseudo i (.reg s.ir.nextReg) (.src1 i) =
      ((ir.setInsn i ({ · with opcode := .copy })).assign (.reg s.ir.nextReg) (.src1 i)).setUsers
        (.reg s.ir.nextReg) (ir.users (.reg s.ir.nextReg) ++ [⟨i, .src1 i⟩]) := by
    simp [Ir.usePseudo, hasUseList]
  rw [hs', huse]
  refine ⟨?_, fun d j => ?_, hblock, hcell, hdefinition, hbbs, hnext, hreg⟩
  · simp only [Ir.setUsers_insn, Ir.assign, Ir.setInsn_insn, Function.update_self, Function.update_idem, hinsn]
  · rw [mem_trackPhiUses]
    simp only [hinsn, hcell, hdefinition]

end UnssaState

namespace PhisReplaced

variable {ir : Ir} {s : UnssaState} {phis : List InsnId} {i : InsnId}

theorem start (ir : Ir) : PhisReplaced ir [] ⟨ir, fun _ => []⟩ where
  phi _ h := absurd h List.not_mem_nil
  other _ _ := rfl
  copy _ h := absurd h List.not_mem_nil
  apart _ h := absurd h List.not_mem_nil
  users d i := by simp
  insns _ := rfl
  children _ := rfl
  cell := rfl
  definition := rfl
  bbs := rfl
  nextInsn := rfl
  nextReg := le_rfl

theorem opcode (h : PhisReplaced ir phis s) (hi : i ∈ phis) : (s.ir.insn i).opcode = .copy := by
  obtain ⟨nr, -, -, hinsn⟩ := h.copy i hi
  rw [hinsn]

theorem bb (h : PhisReplaced ir phis s) (i : InsnId) : (s.ir.insn i).bb = (ir.insn i).bb := by
  by_cases hi : i ∈ phis
  · obtain ⟨nr, -, -, hinsn⟩ := h.copy i hi
    rw [hinsn]
  · rw [h.other i hi]

/-- One phi more. -/
theorem step (h : PhisReplaced ir phis s) (hfresh : ∀ nr, ir.nextReg ≤ nr → ir.definition (.reg nr) = none)
    (hlive : (s.ir.insn i).bb ≠ none) (hop : (s.ir.insn i).opcode = .phi) :
    PhisReplaced ir (i :: phis) (s.replacePhiNode i) := by
  have hnot : i ∉ phis := fun hi => by
    rw [h.opcode hi] at hop
    cases hop
  have hi : s.ir.insn i = ir.insn i := h.other i hnot
  have hnone : s.ir.definition (.reg s.ir.nextReg) = none := by
    rw [h.definition]
    exact hfresh _ h.nextReg
  obtain ⟨hinsn, husers, hblock, hcell, hdef, hbbs, hnext, hreg⟩ :=
    UnssaState.replacePhiNode_spec (i := i) hnone
  have hself : (s.replacePhiNode i).ir.insn i =
      { ir.insn i with opcode := .copy, src1 := .reg s.ir.nextReg } := by
    rw [hinsn, Function.update_self, hi]
  have hne : ∀ j, j ≠ i → (s.replacePhiNode i).ir.insn j = s.ir.insn j := fun j hj => by
    rw [hinsn, Function.update_of_ne hj]
  have hold : ∀ j ∈ phis, j ≠ i := fun j hj heq => hnot (heq ▸ hj)
  have hreg_ne : ∀ j ∈ phis, (s.ir.insn j).src1 ≠ .reg s.ir.nextReg := fun j hj heq => by
    obtain ⟨nr, -, hlt, hcopy⟩ := h.copy j hj
    rw [hcopy] at heq
    exact hlt.ne (Pseudo.reg.inj heq)
  refine ⟨fun j hj => ?_, fun j hj => ?_, fun j hj => ?_, fun j hj k hk heq => ?_, fun d j => ?_,
    fun b => (hblock b).1.trans (h.insns b), fun b => (hblock b).2.trans (h.children b), hcell.trans h.cell,
    hdef.trans h.definition, hbbs.trans h.bbs, hnext.trans h.nextInsn, hreg ▸ h.nextReg.trans (Nat.le_succ _)⟩
  · rcases List.mem_cons.1 hj with rfl | hj
    · rw [hi] at hlive hop
      exact ⟨hlive, hop⟩
    · exact h.phi j hj
  · obtain ⟨hji, hj⟩ := List.ne_and_not_mem_of_not_mem_cons hj
    rw [hne j hji, h.other j hj]
  · rcases List.mem_cons.1 hj with rfl | hj
    · exact ⟨s.ir.nextReg, h.nextReg, hreg ▸ Nat.lt_succ_self _, hself⟩
    · obtain ⟨nr, hle, hlt, hcopy⟩ := h.copy j hj
      exact ⟨nr, hle, hreg ▸ hlt.trans (Nat.lt_succ_self _), (hne j (hold j hj)).trans hcopy⟩
  · rcases List.mem_cons.1 hj with rfl | hj'
    · rcases List.mem_cons.1 hk with rfl | hk'
      · rfl
      · rw [hself, hne k (hold k hk')] at heq
        exact absurd heq.symm (hreg_ne k hk')
    · rcases List.mem_cons.1 hk with rfl | hk'
      · rw [hself, hne j (hold j hj')] at heq
        exact absurd heq (hreg_ne j hj')
      · rw [hne j (hold j hj'), hne k (hold k hk')] at heq
        exact h.apart j hj' k hk' heq
  · rw [husers, h.users, hi, h.cell, h.definition, List.mem_cons]
    constructor
    · rintro (⟨hj, hc⟩ | ⟨rfl, hc⟩)
      · exact ⟨.inr hj, hc⟩
      · exact ⟨.inl rfl, hc⟩
    · rintro ⟨rfl | hj, hc⟩
      · exact .inr ⟨rfl, hc⟩
      · exact .inl ⟨hj, hc⟩

/-- The phis among the instructions. -/
theorem insns_foldl (l : List InsnId) (h : PhisReplaced ir phis s)
    (hfresh : ∀ nr, ir.nextReg ≤ nr → ir.definition (.reg nr) = none) :
    ∃ phis', PhisReplaced ir phis' (l.foldl (fun s insn =>
      if (s.ir.insn insn).bb = none then s
      else if (s.ir.insn insn).opcode ≠ .phi then s
      else s.replacePhiNode insn) s) ∧ phis ⊆ phis' ∧
      ∀ i ∈ l, ir.live i → (ir.insn i).opcode = .phi → i ∈ phis' := by
  induction l generalizing s phis with
  | nil => exact ⟨phis, h, List.Subset.refl _, fun i hi => absurd hi List.not_mem_nil⟩
  | cons i l ih =>
    obtain ⟨s', phis₁, hs', h', hsub, hmem⟩ : ∃ s' phis₁, s' = (if (s.ir.insn i).bb = none then s
        else if (s.ir.insn i).opcode ≠ .phi then s else s.replacePhiNode i) ∧ PhisReplaced ir phis₁ s' ∧
        phis ⊆ phis₁ ∧ (ir.live i → (ir.insn i).opcode = .phi → i ∈ phis₁) := by
      by_cases hlive : (s.ir.insn i).bb = none
      · refine ⟨s, phis, (if_pos hlive).symm, h, List.Subset.refl _, fun hl => absurd ?_ hl⟩
        rw [← h.bb, hlive]
      · by_cases hop : (s.ir.insn i).opcode = .phi
        · refine ⟨s.replacePhiNode i, i :: phis, ?_, h.step hfresh hlive hop, List.subset_cons_self _ _,
            fun _ _ => List.mem_cons_self⟩
          rw [if_neg hlive, if_neg (not_not.2 hop)]
        · refine ⟨s, phis, ?_, h, List.Subset.refl _, fun _ hphi => ?_⟩
          · rw [if_neg hlive, if_pos hop]
          · by_contra hi
            rw [h.other i hi] at hop
            exact hop hphi
    rw [List.foldl_cons, ← hs']
    obtain ⟨phis', hfinal, hsub', hall⟩ := ih h'
    refine ⟨phis', hfinal, List.Subset.trans hsub hsub', fun j hj hl ho => ?_⟩
    rcases List.mem_cons.1 hj with rfl | hj
    · exact hsub' (hmem hl ho)
    · exact hall j hj hl ho

theorem blocks_foldl (bbs : List BlockId) (h : PhisReplaced ir phis s)
    (hfresh : ∀ nr, ir.nextReg ≤ nr → ir.definition (.reg nr) = none) :
    ∃ phis', PhisReplaced ir phis' (bbs.foldl UnssaState.rewritePhiBb s) ∧ phis ⊆ phis' ∧
      ∀ b ∈ bbs, ∀ i ∈ (ir.block b).insns, ir.live i → (ir.insn i).opcode = .phi → i ∈ phis' := by
  induction bbs generalizing s phis with
  | nil => exact ⟨phis, h, List.Subset.refl _, fun b hb => absurd hb List.not_mem_nil⟩
  | cons b bbs ih =>
    obtain ⟨phis₁, h₁, hsub₁, hall₁⟩ := h.insns_foldl (s.ir.block b).insns hfresh
    rw [h.insns] at hall₁
    obtain ⟨phis₂, h₂, hsub₂, hall₂⟩ := ih h₁
    refine ⟨phis₂, h₂, List.Subset.trans hsub₁ hsub₂, fun b' hb' i hi hl ho => ?_⟩
    rcases List.mem_cons.1 hb' with rfl | hb'
    · exact hsub₂ (hall₁ i hi hl ho)
    · exact hall₂ b' hb' i hi hl ho

end PhisReplaced

/-! ## The phi sources -/

/-- What the rewriting of phi sources leaves alone. -/
structure SourceFrame (ir ir' : Ir) : Prop where
  nextInsn : ir.nextInsn ≤ ir'.nextInsn
  cell : ir'.cell = ir.cell
  definition : ir'.definition = ir.definition
  bbs : ir'.bbs = ir.bbs
  children : ∀ b, (ir'.block b).children = (ir.block b).children

namespace SourceFrame

variable {ir ir' ir'' : Ir}

theorem refl (ir : Ir) : SourceFrame ir ir := ⟨le_rfl, rfl, rfl, rfl, fun _ => rfl⟩

theorem trans (h : SourceFrame ir ir') (h' : SourceFrame ir' ir'') : SourceFrame ir ir'' :=
  ⟨h.nextInsn.trans h'.nextInsn, h'.cell.trans h.cell, h'.definition.trans h.definition, h'.bbs.trans h.bbs,
    fun b => (h'.children b).trans (h.children b)⟩

end SourceFrame

namespace Ir

variable {ir : Ir} {b bb : BlockId} {d : InsnId} {users : List InsnId}

theorem children_replaceDefines (ir : Ir) {tmp : Pseudo} :
    ((ir.replaceDefines bb users tmp).block b).children = (ir.block b).children := by
  rw [replaceDefines, setBlock_block, Function.update_apply]
  split_ifs with h
  · rw [h]
  · rfl

theorem insns_replaceDefines (ir : Ir) {tmp : Pseudo} :
    ((ir.replaceDefines bb users tmp).block b).insns = (ir.block b).insns := by
  rw [replaceDefines, setBlock_block, Function.update_apply]
  split_ifs with h
  · rw [h]
  · rfl

/-- The instructions in front are copies of the operand into the temporaries of the users. -/
structure CopiesInto (ir : Ir) (ir' : Ir) (bb : BlockId) (source : Pseudo) (users front : List InsnId) : Prop where
  fresh : ∀ j ∈ front, ir.nextInsn ≤ j ∧ j < ir'.nextInsn
  copy : ∀ j ∈ front, (ir'.insn j).bb = some bb ∧ (ir'.insn j).opcode = .copy ∧ (ir'.insn j).src1 = source
  target : ∀ p, (∃ j ∈ front, (ir'.insn j).target = p) ↔ ∃ i ∈ users, (ir.insn i).src1 = p

/-- The loop over the users of a phi source, from the second on. -/
theorem insertCopy_foldl (bb : BlockId) (users more : List InsnId) (x : Ir × List InsnId) (hd : d < x.1.nextInsn)
    (hmore : ∀ i ∈ more, i < x.1.nextInsn) :
    let y := more.foldl (insertCopy bb users d) x
    SourceFrame x.1 y.1 ∧ (∀ b, (y.1.block b).insns = (x.1.block b).insns) ∧
      (∀ j < x.1.nextInsn, y.1.insn j = x.1.insn j) ∧
      ∃ front, y.2 = front ++ x.2 ∧ CopiesInto x.1 y.1 bb (x.1.insn d).src1 more front := by
  induction more generalizing x with
  | nil =>
    refine ⟨.refl _, fun _ => rfl, fun _ _ => rfl, [], rfl, ?_, ?_, fun p => ?_⟩
    · exact fun j hj => absurd hj List.not_mem_nil
    · exact fun j hj => absurd hj List.not_mem_nil
    · simp
  | cons i more ih =>
    obtain ⟨x', hx'⟩ : ∃ x', x' = insertCopy bb users d x i := ⟨_, rfl⟩
    have hnext : x'.1.nextInsn = x.1.nextInsn + 1 := by rw [hx']; rfl
    have hseg : x'.2 = x.1.nextInsn :: x.2 := by rw [hx']; rfl
    have hinsn : x'.1.insn = Function.update x.1.insn x.1.nextInsn
        { opcode := .copy, size := (x.1.insn d).size, bb := some bb, target := (x.1.insn i).src1,
          src1 := (x.1.insn d).src1 } := by rw [hx']; rfl
    have hold : ∀ j < x.1.nextInsn, x'.1.insn j = x.1.insn j := fun j hj => by
      rw [hinsn, Function.update_of_ne hj.ne]
    obtain ⟨hchildren, hblock⟩ : (∀ b, (x'.1.block b).children = (x.1.block b).children) ∧
        ∀ b, (x'.1.block b).insns = (x.1.block b).insns := by
      rw [hx']
      exact ⟨fun b => children_replaceDefines (x.1.allocInstruction _).1,
        fun b => insns_replaceDefines (x.1.allocInstruction _).1⟩
    have hframe : SourceFrame x.1 x'.1 := by
      refine ⟨hnext ▸ Nat.le_succ _, ?_, ?_, ?_, hchildren⟩ <;> rw [hx'] <;> rfl
    obtain ⟨hf, hb, ho, front, hfront, hcopies⟩ := ih x' (hnext ▸ hd.trans (Nat.lt_succ_self _))
      fun j hj => hnext ▸ (hmore j (List.mem_cons_of_mem _ hj)).trans (Nat.lt_succ_self _)
    rw [List.foldl_cons, ← hx']
    have hnew := ho x.1.nextInsn (hnext ▸ Nat.lt_succ_self _)
    rw [hinsn, Function.update_self] at hnew
    refine ⟨hframe.trans hf, fun b => (hb b).trans (hblock b),
      fun j hj => (ho j (hnext ▸ hj.trans (Nat.lt_succ_self _))).trans (hold j hj), front ++ [x.1.nextInsn],
      by rw [hfront, hseg, List.append_assoc]; rfl, fun j hj => ?_, fun j hj => ?_, fun p => ?_⟩
    · rcases List.mem_append.1 hj with hj | hj
      · exact ⟨hframe.nextInsn.trans (hcopies.fresh j hj).1, (hcopies.fresh j hj).2⟩
      · rw [List.mem_singleton.1 hj]
        exact ⟨le_rfl, (hnext ▸ Nat.lt_succ_self _ : x.1.nextInsn < x'.1.nextInsn).trans_le hf.nextInsn⟩
    · rcases List.mem_append.1 hj with hj | hj
      · rw [← hold d hd]
        exact hcopies.copy j hj
      · rw [List.mem_singleton.1 hj, hnew]
        exact ⟨rfl, rfl, rfl⟩
    · have hmem : (∃ i ∈ more, (x'.1.insn i).src1 = p) ↔ ∃ i ∈ more, (x.1.insn i).src1 = p := by
        refine exists_congr fun k => and_congr_right fun hk => ?_
        rw [hold k (hmore k (List.mem_cons_of_mem _ hk))]
      constructor
      · rintro ⟨j, hj, rfl⟩
        rcases List.mem_append.1 hj with hj | hj
        · obtain ⟨k, hk, heq⟩ := hmem.1 ((hcopies.target _).1 ⟨j, hj, rfl⟩)
          exact ⟨k, List.mem_cons_of_mem _ hk, heq⟩
        · rw [List.mem_singleton.1 hj, hnew]
          exact ⟨i, List.mem_cons_self, rfl⟩
      · rintro ⟨k, hk, rfl⟩
        rcases List.mem_cons.1 hk with rfl | hk
        · exact ⟨x.1.nextInsn, by simp, by rw [hnew]⟩
        · obtain ⟨j, hj, heq⟩ := (hcopies.target _).2 (hmem.2 ⟨k, hk, rfl⟩)
          exact ⟨j, List.mem_append_left _ hj, heq⟩

/-- What stands for an instruction after the rewriting of the phi sources: for one with users the
copies of its operand into their temporaries, the last of them in its place. -/
inductive SourceRewritten (ir ir' : Ir) (users : InsnId → List InsnId) (i : InsnId) : List InsnId → Prop
  | other (h : ir.live i → (ir.insn i).opcode = .phisource → users i = []) (hinsn : ir'.insn i = ir.insn i) :
      SourceRewritten ir ir' users i [i]
  | source {front} (hlive : ir.live i) (hop : (ir.insn i).opcode = .phisource)
      (hfresh : ∀ j ∈ front, ir.nextInsn ≤ j ∧ j < ir'.nextInsn)
      (hcopy : ∀ j ∈ front ++ [i], ir'.live j ∧ (ir'.insn j).opcode = .copy ∧ (ir'.insn j).src1 = (ir.insn i).src1)
      (htarget : ∀ p, (∃ j ∈ front ++ [i], (ir'.insn j).target = p) ↔ ∃ u ∈ users i, (ir.insn u).src1 = p) :
      SourceRewritten ir ir' users i (front ++ [i])

/-- The rewriting of the phi sources among the instructions of a list. -/
structure SourcesRewritten (ir ir' : Ir) (l : List InsnId) : Prop where
  frame : SourceFrame ir ir'
  insns : ∀ b, (ir'.block b).insns = (ir.block b).insns
  other : ∀ j < ir.nextInsn, j ∉ l ∨ (ir.insn j).opcode ≠ .phisource → ir'.insn j = ir.insn j

namespace SourceRewritten

variable {ir' ir'' : Ir} {phiUsers : InsnId → List InsnId} {i j : InsnId} {seg : List InsnId}

theorem mem (h : SourceRewritten ir ir' phiUsers i seg) (hj : j ∈ seg) :
    j = i ∨ ir.nextInsn ≤ j ∧ j < ir'.nextInsn := by
  cases h with
  | other => exact .inl (List.mem_singleton.1 hj)
  | source _ _ hfresh =>
    rcases List.mem_append.1 hj with hj | hj
    · exact .inr (hfresh j hj)
    · exact .inl (List.mem_singleton.1 hj)

/-- Later changes elsewhere. -/
theorem mono (h : SourceRewritten ir ir' phiUsers i seg) (hsame : ∀ j ∈ seg, ir''.insn j = ir'.insn j)
    (hnext : ir'.nextInsn ≤ ir''.nextInsn) : SourceRewritten ir ir'' phiUsers i seg := by
  cases h with
  | other h hinsn => exact .other h ((hsame i List.mem_cons_self).trans hinsn)
  | @source front hlive hop hfresh hcopy htarget =>
    refine .source hlive hop (fun j hj => ⟨(hfresh j hj).1, (hfresh j hj).2.trans_le hnext⟩)
      (fun j hj => ?_) fun p => Iff.trans ?_ (htarget p)
    · rw [live, hsame j hj]
      exact hcopy j hj
    · refine exists_congr fun j => and_congr_right fun hj => ?_
      rw [hsame j hj]

/-- Earlier changes elsewhere. -/
theorem base (h : SourceRewritten ir' ir'' phiUsers i seg) (hi : ir'.insn i = ir.insn i)
    (husers : ∀ u ∈ phiUsers i, ir'.insn u = ir.insn u) (hnext : ir.nextInsn ≤ ir'.nextInsn) :
    SourceRewritten ir ir'' phiUsers i seg := by
  cases h with
  | other h hinsn =>
    refine .other (fun hlive hop => h ?_ ?_) (hinsn.trans hi)
    · rwa [live, hi]
    · rwa [hi]
  | @source front hlive hop hfresh hcopy htarget =>
    rw [live, hi] at hlive
    rw [hi] at hop hcopy
    refine .source hlive hop (fun j hj => ⟨hnext.trans (hfresh j hj).1, (hfresh j hj).2⟩) hcopy
      fun p => (htarget p).trans ?_
    refine exists_congr fun u => and_congr_right fun hu => ?_
    rw [husers u hu]

end SourceRewritten

/-- The body of the loop of `rewrite_phisrc_bb` on a phi source. -/
theorem rewritePhisrc_spec (bb : BlockId) (phiUsers : InsnId → List InsnId) (hlive : ir.live d)
    (hop : (ir.insn d).opcode = .phisource) (hd : d < ir.nextInsn)
    (husers : ∀ u ∈ phiUsers d, u < ir.nextInsn ∧ (ir.insn u).opcode ≠ .phisource) :
    let y := ir.rewritePhisrc bb d (phiUsers d)
    SourceFrame ir y.1 ∧ (∀ b, (y.1.block b).insns = (ir.block b).insns) ∧
      (∀ j < ir.nextInsn, j ≠ d → y.1.insn j = ir.insn j) ∧ SourceRewritten ir y.1 phiUsers d y.2 := by
  cases hlist : phiUsers d with
  | nil => exact ⟨.refl ir, fun _ => rfl, fun _ _ _ => rfl, .other (fun _ _ => hlist) rfl⟩
  | cons u more =>
    rw [hlist] at husers
    obtain ⟨first, hfirst⟩ : ∃ first, first =
        (ir.setInsn d ({ · with opcode := .copy, target := (ir.insn u).src1 })).replaceDefines bb (u :: more)
          (ir.insn u).src1 := ⟨_, rfl⟩
    have hinsn : first.insn = Function.update ir.insn d
        { ir.insn d with opcode := .copy, target := (ir.insn u).src1 } := by rw [hfirst]; rfl
    have hnext : first.nextInsn = ir.nextInsn := by rw [hfirst]; rfl
    have hold : ∀ j, j ≠ d → first.insn j = ir.insn j := fun j hj => by rw [hinsn, Function.update_of_ne hj]
    have hself : first.insn d = { ir.insn d with opcode := .copy, target := (ir.insn u).src1 } := by
      rw [hinsn, Function.update_self]
    have hne : ∀ k ∈ u :: more, k ≠ d := fun k hk heq => (husers k hk).2 (heq ▸ hop)
    have hframe : SourceFrame ir first := by
      refine ⟨hnext.ge, ?_, ?_, ?_, fun b => ?_⟩ <;> rw [hfirst]
      · rfl
      · rfl
      · rfl
      · exact children_replaceDefines _
    have hinsns : ∀ b, (first.block b).insns = (ir.block b).insns := fun b => by
      rw [hfirst]
      exact insns_replaceDefines _
    obtain ⟨hf, hb, ho, front, hfront, hcopies⟩ := insertCopy_foldl bb (u :: more) more (first, [d])
      (hnext ▸ hd) fun k hk => hnext ▸ (husers k (List.mem_cons_of_mem _ hk)).1
    have hy : ir.rewritePhisrc bb d (u :: more) = more.foldl (insertCopy bb (u :: more) d) (first, [d]) := by
      rw [hfirst]
      rfl
    rw [hy]
    have hdnew := (ho d (hnext ▸ hd)).trans hself
    refine ⟨hframe.trans hf, fun b => (hb b).trans (hinsns b),
      fun j hj hjd => (ho j (hnext ▸ hj)).trans (hold j hjd), ?_⟩
    rw [hfront]
    refine .source hlive hop (fun j hj => hnext ▸ hcopies.fresh j hj) (fun j hj => ?_) fun p => ?_
    · rcases List.mem_append.1 hj with hj | hj
      · obtain ⟨hbb, hcopy, hsrc⟩ := hcopies.copy j hj
        rw [hself] at hsrc
        exact ⟨by rw [live, hbb]; exact Option.some_ne_none bb, hcopy, hsrc⟩
      · rw [List.mem_singleton.1 hj, live, hdnew]
        exact ⟨hlive, rfl, rfl⟩
    · have hmore : (∃ k ∈ more, (first.insn k).src1 = p) ↔ ∃ k ∈ more, (ir.insn k).src1 = p := by
        refine exists_congr fun k => and_congr_right fun hk => ?_
        rw [hold k (hne k (List.mem_cons_of_mem _ hk))]
      rw [hlist]
      constructor
      · rintro ⟨j, hj, rfl⟩
        rcases List.mem_append.1 hj with hj | hj
        · obtain ⟨k, hk, heq⟩ := hmore.1 ((hcopies.target _).1 ⟨j, hj, rfl⟩)
          exact ⟨k, List.mem_cons_of_mem _ hk, heq⟩
        · rw [List.mem_singleton.1 hj, hdnew]
          exact ⟨u, List.mem_cons_self, rfl⟩
      · rintro ⟨k, hk, rfl⟩
        rcases List.mem_cons.1 hk with rfl | hk
        · exact ⟨d, by simp, by rw [hdnew]⟩
        · obtain ⟨j, hj, heq⟩ := (hcopies.target _).2 (hmore.2 ⟨k, hk, rfl⟩)
          exact ⟨j, List.mem_append_left _ hj, heq⟩

theorem rewritePhisrcs_spec (ir : Ir) (bb : BlockId) (phiUsers : InsnId → List InsnId) (l : List InsnId)
    (hnodup : l.Nodup) (hl : ∀ i ∈ l, i < ir.nextInsn)
    (husers : ∀ d, ∀ u ∈ phiUsers d, u < ir.nextInsn ∧ (ir.insn u).opcode ≠ .phisource) :
    let y := ir.rewritePhisrcs phiUsers bb l
    SourcesRewritten ir y.1 l ∧ Expands (SourceRewritten ir y.1 phiUsers) l y.2 := by
  induction l with
  | nil => exact ⟨⟨.refl ir, fun _ => rfl, fun _ _ _ => rfl⟩, .nil⟩
  | cons d rest ih =>
    obtain ⟨hnot, hnodup⟩ := List.nodup_cons.1 hnodup
    obtain ⟨hrest, hexp⟩ := ih hnodup fun i hi => hl i (List.mem_cons_of_mem _ hi)
    obtain ⟨y, hy⟩ : ∃ y, y = ir.rewritePhisrcs phiUsers bb rest := ⟨_, rfl⟩
    rw [← hy] at hrest hexp
    have hdlt := hl d List.mem_cons_self
    have hd : y.1.insn d = ir.insn d := hrest.other d hdlt (.inl hnot)
    rw [rewritePhisrcs, ← hy]
    simp only
    by_cases hsource : (y.1.insn d).bb = none ∨ (y.1.insn d).opcode ≠ .phisource
    · rw [if_pos hsource]
      refine ⟨⟨hrest.frame, hrest.insns, fun j hj hout => hrest.other j hj ?_⟩, .cons (.other ?_ hd) hexp⟩
      · exact hout.imp_left fun h hj => h (List.mem_cons_of_mem _ hj)
      · intro hlive hop
        rw [hd] at hsource
        rcases hsource with h | h
        · exact absurd h hlive
        · exact absurd hop h
    · rw [if_neg hsource]
      obtain ⟨hlive, hop⟩ := not_or.1 hsource
      rw [not_not] at hop
      have hstable : ∀ d, ∀ u ∈ phiUsers d, y.1.insn u = ir.insn u := fun d u hu =>
        hrest.other u (husers d u hu).1 (.inr (husers d u hu).2)
      have hnext := hrest.frame.nextInsn
      obtain ⟨hframe, hinsns, hother, hseg⟩ := rewritePhisrc_spec bb phiUsers hlive hop
        (hdlt.trans_le hnext) fun u hu =>
          ⟨(husers d u hu).1.trans_le hnext, by rw [hstable d u hu]; exact (husers d u hu).2⟩
      refine ⟨⟨hrest.frame.trans hframe, fun b => (hinsns b).trans (hrest.insns b), fun j hj hout => ?_⟩,
        .cons (hseg.base hd (hstable d) hnext) (hexp.imp fun i hi seg hR => hR.mono (fun j hj => ?_) hframe.nextInsn)⟩
      · have hjd : j ≠ d := by
          rintro rfl
          rcases hout with h | h
          · exact h List.mem_cons_self
          · exact h (hd ▸ hop)
        rw [hother j (hj.trans_le hnext) hjd]
        exact hrest.other j hj (hout.imp_left fun h hj => h (List.mem_cons_of_mem _ hj))
      · rcases hR.mem hj with rfl | ⟨hle, hlt⟩
        · exact hother j ((hl j (List.mem_cons_of_mem _ hi)).trans_le hnext) fun heq => hnot (heq ▸ hi)
        · exact hother j hlt (hdlt.trans_le hle).ne'

/-- What the second loop of `unssa` has done in the blocks of a list. -/
structure BlocksRewritten (ir ir' : Ir) (users : InsnId → List InsnId) (bbs : List BlockId) : Prop where
  frame : SourceFrame ir ir'
  code : ∀ b ∈ bbs, Expands (SourceRewritten ir ir' users) (ir.block b).insns (ir'.block b).insns
  otherCode : ∀ b ∉ bbs, (ir'.block b).insns = (ir.block b).insns
  other : ∀ j < ir.nextInsn, (∀ b ∈ bbs, j ∉ (ir.block b).insns) ∨ (ir.insn j).opcode ≠ .phisource →
    ir'.insn j = ir.insn j

/-- Where the blocks share no instructions, each one is rewritten for itself. -/
theorem rewritePhisrcBb_foldl (ir : Ir) (phiUsers : InsnId → List InsnId) (bbs : List BlockId) (hbbs : bbs.Nodup)
    (hnodup : ∀ b, (ir.block b).insns.Nodup) (hallocated : ∀ b, ∀ i ∈ (ir.block b).insns, i < ir.nextInsn)
    (howner : ∀ b c i, i ∈ (ir.block b).insns → i ∈ (ir.block c).insns → b = c)
    (husers : ∀ d, ∀ u ∈ phiUsers d, u < ir.nextInsn ∧ (ir.insn u).opcode ≠ .phisource) :
    BlocksRewritten ir (bbs.reverse.foldl (rewritePhisrcBb phiUsers) ir) phiUsers bbs := by
  induction bbs with
  | nil =>
    exact ⟨.refl ir, fun b hb => absurd hb List.not_mem_nil, fun _ _ => rfl, fun _ _ _ => rfl⟩
  | cons bb bbs ih =>
    obtain ⟨hnot, hbbs⟩ := List.nodup_cons.1 hbbs
    have h := ih hbbs
    obtain ⟨x, hx⟩ : ∃ x, x = bbs.reverse.foldl (rewritePhisrcBb phiUsers) ir := ⟨_, rfl⟩
    rw [← hx] at h
    rw [List.reverse_cons, List.foldl_append, ← hx, List.foldl_cons, List.foldl_nil]
    have hnext := h.frame.nextInsn
    have hapart : ∀ i ∈ (ir.block bb).insns, x.insn i = ir.insn i := fun i hi =>
      h.other i (hallocated bb i hi) (.inl fun b hb hib => hnot (howner bb b i hi hib ▸ hb))
    have hstable : ∀ d, ∀ u ∈ phiUsers d, x.insn u = ir.insn u := fun d u hu =>
      h.other u (husers d u hu).1 (.inr (husers d u hu).2)
    obtain ⟨y, hy⟩ : ∃ y, y = x.rewritePhisrcs phiUsers bb (ir.block bb).insns := ⟨_, rfl⟩
    obtain ⟨hrest, hexp⟩ := rewritePhisrcs_spec x bb phiUsers (ir.block bb).insns
      (hnodup bb) (fun i hi => (hallocated bb i hi).trans_le hnext) fun d u hu =>
        ⟨(husers d u hu).1.trans_le hnext, by rw [hstable d u hu]; exact (husers d u hu).2⟩
    rw [← hy] at hrest hexp
    have hz : rewritePhisrcBb phiUsers x bb = y.1.setBlock bb ({ · with insns := y.2 }) := by
      rw [rewritePhisrcBb, h.otherCode bb hnot, ← hy]
    rw [hz]
    have hself : ((y.1.setBlock bb ({ · with insns := y.2 })).block bb).insns = y.2 := by
      rw [setBlock_block, Function.update_self]
    have hne : ∀ b, b ≠ bb → ((y.1.setBlock bb ({ · with insns := y.2 })).block b).insns = (x.block b).insns :=
      fun b hb => by rw [setBlock_block, Function.update_of_ne hb, hrest.insns]
    refine ⟨(h.frame.trans hrest.frame).trans ⟨le_rfl, rfl, rfl, rfl, fun b => ?_⟩, fun b hb => ?_, fun b hb => ?_,
      fun j hj hout => ?_⟩
    · rw [setBlock_block, Function.update_apply]
      split_ifs with hb
      · rw [hb]
      · rfl
    · rcases List.mem_cons.1 hb with rfl | hb
      · rw [hself]
        refine hexp.imp fun i hi seg hR => ?_
        exact (hR.base (hapart i hi) (hstable i) hnext).mono (fun _ _ => rfl) le_rfl
      · have hbne : b ≠ bb := fun heq => hnot (heq ▸ hb)
        rw [hne b hbne]
        refine (h.code b hb).imp fun i hi seg hR => hR.mono (fun j hj => ?_) hrest.frame.nextInsn
        rcases hR.mem hj with rfl | ⟨hle, hlt⟩
        · exact hrest.other j ((hallocated b j hi).trans_le hnext) (.inl fun hj => hbne (howner b bb j hi hj))
        · exact hrest.other j hlt (.inl fun hj => absurd (hallocated bb j hj) (not_lt.2 hle))
    · rw [hne b (List.ne_of_not_mem_cons hb)]
      exact h.otherCode b (List.not_mem_of_not_mem_cons hb)
    · have hx : x.insn j = ir.insn j :=
        h.other j hj (hout.imp_left fun h b hb => h b (List.mem_cons_of_mem _ hb))
      refine (hrest.other j (hj.trans_le hnext) ?_).trans hx
      rw [hx]
      exact hout.imp_left fun h => h bb List.mem_cons_self

end Ir

/-! ## Both loops -/

/-- What `unssa` relies on: a live instruction stands once, in a block that is listed once, and only
allocated registers are defined. -/
structure UnssaInput (ir : Ir) : Prop where
  nodup : ∀ b, (ir.block b).insns.Nodup
  owner : ∀ b c i, i ∈ (ir.block b).insns → i ∈ (ir.block c).insns → b = c
  allocated : ∀ b, ∀ i ∈ (ir.block b).insns, i < ir.nextInsn
  listed : ∀ b, ∀ i ∈ (ir.block b).insns, ir.live i → b ∈ ir.bbs
  distinct : ir.bbs.Nodup
  registers : ∀ nr, ir.nextReg ≤ nr → ir.definition (.reg nr) = none
  phis : ∀ i, ir.live i → (ir.insn i).opcode = .phi → i < ir.nextInsn
  void : ir.definition .void = none

/-- What stands for an instruction after `unssa`. The phis in the list have become copies. -/
inductive Translates (ir ir' : Ir) (phis : List InsnId) (i : InsnId) : List InsnId → Prop
  | other (hi : i < ir.nextInsn) (hphi : ir.live i → (ir.insn i).opcode ≠ .phi)
      (hsource : (ir.insn i).opcode = .phisource → ∀ phi ∈ phis, i ∉ ir.phiSources phi)
      (hinsn : ir'.insn i = ir.insn i) : Translates ir ir' phis i [i]
  | phi (hi : i < ir.nextInsn) (hmem : i ∈ phis) : Translates ir ir' phis i [i]
  | source {front} (hi : i < ir.nextInsn) (hlive : ir.live i) (hop : (ir.insn i).opcode = .phisource)
      (hfresh : ∀ j ∈ front, ir.nextInsn ≤ j)
      (hcopy : ∀ j ∈ front ++ [i], ir'.live j ∧ (ir'.insn j).opcode = .copy ∧ (ir'.insn j).src1 = (ir.insn i).src1)
      (htarget : ∀ p, (∃ j ∈ front ++ [i], (ir'.insn j).target = p) ↔
        ∃ phi ∈ phis, i ∈ ir.phiSources phi ∧ (ir'.insn phi).src1 = p) : Translates ir ir' phis i (front ++ [i])

/-- The code after `unssa`, and that each phi copies a register of its own. -/
structure Unssaed (ir ir' : Ir) (phis : List InsnId) : Prop where
  code : ∀ b, Expands (Translates ir ir' phis) (ir.block b).insns (ir'.block b).insns
  phi : ∀ i ∈ phis, ir.live i ∧ (ir.insn i).opcode = .phi
  copy : ∀ i ∈ phis, ∃ nr, ir.nextReg ≤ nr ∧ ir'.insn i = { ir.insn i with opcode := .copy, src1 := .reg nr }
  apart : ∀ i ∈ phis, ∀ j ∈ phis, (ir'.insn i).src1 = (ir'.insn j).src1 → i = j
  cell : ir'.cell = ir.cell
  definition : ir'.definition = ir.definition
  children : ∀ b, (ir'.block b).children = (ir.block b).children

namespace UnssaInput

variable {ir : Ir} (h : UnssaInput ir)
include h

theorem replacePhis_spec : ∃ phis, PhisReplaced ir phis ir.replacePhis ∧
    ∀ b, ∀ i ∈ (ir.block b).insns, ir.live i → (ir.insn i).opcode = .phi → i ∈ phis := by
  obtain ⟨phis, hphis, -, hall⟩ := (PhisReplaced.start ir).blocks_foldl ir.bbs h.registers
  exact ⟨phis, hphis, fun b i hi hlive hop => hall b (h.listed b i hi hlive) i hi hlive hop⟩

/-- The users of a phi source are the phis that choose from it. -/
theorem mem_phiUsers {phis : List InsnId} {s : UnssaState} (hs : PhisReplaced ir phis s) {d i : InsnId}
    (hlive : ir.live d) : i ∈ s.phiUsers d ↔ i ∈ phis ∧ d ∈ ir.phiSources i := by
  rw [hs.users, Ir.phiSources]
  simp only [List.mem_filter, List.mem_filterMap, decide_eq_true_eq, hlive, and_true]
  refine and_congr_right fun _ => exists_congr fun c => and_congr_right fun _ => and_iff_right_iff_imp.2 ?_
  intro hd hvoid
  rw [hvoid, h.void] at hd
  cases hd

/-- What `unssa` makes of a function. -/
theorem unssa_spec : ∃ phis, Unssaed ir ir.unssa phis := by
  obtain ⟨phis, hs, hall⟩ := h.replacePhis_spec
  obtain ⟨s, hseq⟩ : ∃ s, s = ir.replacePhis := ⟨_, rfl⟩
  rw [← hseq] at hs
  have husers : ∀ d, ∀ u ∈ s.phiUsers d, u ∈ phis := fun d u hu => ((hs.users d u).1 hu).1
  have hlt : ∀ i ∈ phis, i < s.ir.nextInsn := fun i hi => by
    rw [hs.nextInsn]
    exact h.phis i (hs.phi i hi).1 (hs.phi i hi).2
  have hopcode : ∀ i ∈ phis, (s.ir.insn i).opcode ≠ .phisource := fun i hi => by
    rw [hs.opcode hi]
    decide
  obtain hblocks := Ir.rewritePhisrcBb_foldl s.ir s.phiUsers ir.bbs.reverse
    (List.nodup_reverse.2 h.distinct) (fun b => by rw [hs.insns]; exact h.nodup b)
    (fun b i hi => by rw [hs.insns] at hi; rw [hs.nextInsn]; exact h.allocated b i hi)
    (fun b c i hb hc => by rw [hs.insns] at hb hc; exact h.owner b c i hb hc)
    fun d u hu => ⟨hlt u (husers d u hu), hopcode u (husers d u hu)⟩
  rw [List.reverse_reverse] at hblocks
  have hunssa : ir.unssa = ir.bbs.foldl (Ir.rewritePhisrcBb s.phiUsers) s.ir := by rw [Ir.unssa, hseq]
  rw [← hunssa] at hblocks
  have hphi : ∀ i ∈ phis, ir.unssa.insn i = s.ir.insn i := fun i hi =>
    hblocks.other i (hlt i hi) (.inr (hopcode i hi))
  refine ⟨phis, fun b => ?_, hs.phi, fun i hi => ?_, fun i hi j hj => ?_, hblocks.frame.cell.trans hs.cell,
    hblocks.frame.definition.trans hs.definition, fun b => (hblocks.frame.children b).trans (hs.children b)⟩
  · by_cases hb : b ∈ ir.bbs
    · have hcode := hblocks.code b (List.mem_reverse.2 hb)
      rw [hs.insns] at hcode
      refine hcode.imp fun i hi seg hR => ?_
      have hilt := h.allocated b i hi
      by_cases hmem : i ∈ phis
      · cases hR with
        | other => exact .phi hilt hmem
        | source _ hop => exact absurd hop (hopcode i hmem)
      · have hsame := hs.other i hmem
        have hnot : ir.live i → (ir.insn i).opcode ≠ .phi := fun hlive hop => hmem (hall b i hi hlive hop)
        cases hR with
        | other hnone hinsn =>
          rw [Ir.live, hsame] at hnone
          refine .other hilt hnot (fun hop phi hphi hd => ?_) (hinsn.trans hsame)
          have hlive : ir.live i := of_decide_eq_true (List.mem_filter.1 hd).2
          have hu := (h.mem_phiUsers hs hlive).2 ⟨hphi, hd⟩
          rw [hnone hlive hop] at hu
          exact absurd hu List.not_mem_nil
        | source hlive hop hfresh hcopy htarget =>
          rw [Ir.live, hsame] at hlive
          rw [hsame] at hop hcopy
          refine .source hilt hlive hop (fun j hj => hs.nextInsn ▸ (hfresh j hj).1) hcopy fun p => ?_
          refine (htarget p).trans (exists_congr fun u => ?_)
          rw [h.mem_phiUsers hs hlive, and_assoc]
          exact and_congr_right fun hu => by rw [hphi u hu]
    · have hcode := hblocks.otherCode b fun hmem => hb (List.mem_reverse.1 hmem)
      rw [hcode, hs.insns]
      have hsame : ∀ i ∈ (ir.block b).insns, Translates ir ir.unssa phis i [i] := fun i hi => by
        have hdead : ¬ ir.live i := fun hlive => hb (h.listed b i hi hlive)
        have hmem : i ∉ phis := fun hmem => hdead (hs.phi i hmem).1
        refine .other (h.allocated b i hi) (fun hlive => absurd hlive hdead) (fun _ phi _ hd => ?_) ?_
        · exact hdead (of_decide_eq_true (List.mem_filter.1 hd).2)
        · refine (hblocks.other i (hs.nextInsn ▸ h.allocated b i hi) (.inl fun c hc hic => ?_)).trans (hs.other i hmem)
          rw [hs.insns] at hic
          exact hb (h.owner b c i hi hic ▸ List.mem_reverse.1 hc)
      exact Expands.same _ hsame
  · obtain ⟨nr, hle, -, hcopy⟩ := hs.copy i hi
    exact ⟨nr, hle, (hphi i hi).trans hcopy⟩
  · rw [hphi i hi, hphi j hj]
    exact hs.apart i hi j hj

end UnssaInput

end Sparse
