import Sparse.UseListKills

/-!
# Rewrites keep the use lists

Each rewrite of the optimiser keeps the invariant of the use lists, under the
conditions in which it is called.
-/

namespace Sparse

/-- A pseudo that an operand slot may take: if it is a register, its definition is alive. -/
def Ir.Available (ir : Ir) (p : Pseudo) : Prop :=
  ∀ nr d, p = .reg nr → ir.definition (.reg nr) = some d → ir.live d

theorem SameForm.available {ir ir' : Ir} (h : SameForm ir ir') {p : Pseudo} :
    ir'.Available p ↔ ir.Available p := by
  simp only [Ir.Available, h.definition, h.live]

namespace UseInvariant

variable {ir : Ir} {i : InsnId} {s : Address} {p : Pseudo}

/-- What a live slot holds is available. -/
theorem available_of_owns (h : UseInvariant ir) (ho : ir.Owns i s) : ir.Available (ir.load s) :=
  fun nr d hl hd => h.defined i s ho nr d hl hd

/-- The definition of a register in a live slot is live. -/
theorem live_of_owns (h : UseInvariant ir) (ho : ir.Owns i s) {nr d : ℕ} (hl : ir.load s = .reg nr)
    (hd : ir.definition (.reg nr) = some d) : ir.live d := h.defined i s ho nr d hl hd

/-- An instruction whose result is in no slot any more leaves its block. -/
theorem clearDead (h : UseInvariant ir) (hasm : (ir.insn i).opcode ≠ .asm)
    (hall : (ir.users (ir.insn i).target).all (fun pu => ir.load pu.userp = .void) = true) :
    UseInvariant (ir.clearBb i) := by
  refine h.clearBb (fun nr hd j s ho hl => ?_)
  have ht := h.target_of_definition hd hasm
  have hx := h.exact j s ho (.reg nr) rfl
  rw [if_pos hl] at hx
  have hm : (⟨j, s⟩ : PseudoUser) ∈ ir.users (.reg nr) := by
    rw [Ir.mem_users_iff, hx]
    exact List.mem_cons_self
  have hv := List.all_eq_true.mp hall ⟨j, s⟩ (ht ▸ hm)
  simp [hl] at hv

theorem deadInsn (h : UseInvariant ir) (hasm : (ir.insn i).opcode ≠ .asm) {a b c : Option Address}
    (ha : ∀ j, a ≠ some (.target j)) (hb : ∀ j, b ≠ some (.target j))
    (hc : ∀ j, c ≠ some (.target j)) : UseInvariant (ir.deadInsn i a b c).1 := by
  unfold Ir.deadInsn
  split
  next hall =>
    have h0 := h.clearDead hasm hall
    have h1 := h0.killUse (a := a) (fun j hj => absurd hj (ha j))
    have h2 := h1.killUse (a := b) (fun j hj => absurd hj (hb j))
    exact h2.killUse (fun j hj => absurd hj (hc j))
  next => exact h

/-- After its users have gone over to another pseudo an instruction can be retired. -/
theorem unused_of_result_users_nil (h : UseInvariant ir) {nr : ℕ} (hu : ir.users (.reg nr) = [])
    (hd : ir.definition (.reg nr) = some i) (hasm : (ir.insn i).opcode ≠ .asm) (n : ℕ)
    (hn : ir.definition (.reg n) = some i) (j : InsnId) (s : Address) (ho : ir.Owns j s) :
    ir.load s ≠ .reg n :=
  h.unused_of_users_nil (p := .reg nr) rfl hu hd hasm n hn rfl j s ho

theorem replaceWithPseudo (h : UseInvariant ir) {nr : ℕ} (hd : ir.definition (.reg nr) = some i)
    (hasm : (ir.insn i).opcode ≠ .asm) (hne : p ≠ .reg nr)
    (hp : ir.users (.reg nr) ≠ [] → ir.Available p) :
    UseInvariant (ir.replaceWithPseudo i p) := by
  obtain ⟨h1, hs, hu⟩ := h.convertInstructionTarget hd hasm hne
    (fun hn n d he hdn => hp hn n d he hdn)
  exact h1.clearBb (h1.unused_of_result_users_nil hu (by rw [hs.definition]; exact hd)
    (by rwa [hs.opcode]))

theorem convertLoadInstruction (h : UseInvariant ir) {nr : ℕ}
    (hd : ir.definition (.reg nr) = some i) (hop : (ir.insn i).opcode.hasResult = true)
    (hne : p ≠ .reg nr) (hp : ir.Available p) : UseInvariant (ir.convertLoadInstruction i p) := by
  have hasm := Opcode.ne_asm_of_hasResult hop
  obtain ⟨h1, hs, hu⟩ := h.convertInstructionTarget hd hasm hne
    (fun _ n d he hdn => hp n d he hdn)
  have hd1 : (ir.convertInstructionTarget i p).definition (.reg nr) = some i := by
    rw [hs.definition]; exact hd
  exact h1.retire (f := ({ · with opcode := .lnop, bb := none })) rfl rfl rfl rfl rfl
    (Or.inr ⟨by rwa [hs.opcode], rfl⟩)
    (h1.unused_of_result_users_nil hu hd1 (by rwa [hs.opcode]))

/-- Only the first of two slots is emptied by `kill_use` on a live instruction; the kills that
follow touch no live slot. -/
theorem killUse_frame (h : UseInvariant ir)
    (hst : ∀ j, s = .target j → (ir.insn j).opcode.storesTarget = true) :
    UseInvariant (ir.killUse (some s)) ∧ KillFrame (ir.emptySlot s) (ir.killUse (some s)) := by
  have he : ir.killUse (some s) = (ir.emptySlot s).dropDefinition Ir.killInstruction (ir.load s) :=
    Ir.killUseWith_eq Ir.killInstruction ir s
  rw [he]
  exact KillKeeps.killInstruction.dropDefinition (h.emptySlot hst) _

end UseInvariant

/-- `kill_use` of an address that an `OP_SYMADDR` computes takes at most that instruction out
of its block. -/
theorem Ir.killUse_symaddr {ir : Ir} {s : Address} {d : InsnId}
    (hd : ir.definition (ir.load s) = some d) (hop : (ir.insn d).opcode = .symaddr) :
    ir.killUse (some s) = ir.emptySlot s ∨
      (ir.killUse (some s) = (ir.emptySlot s).clearBb d ∧
        (ir.emptySlot s).users (ir.load s) = []) := by
  have hsame := SameForm.emptySlot ir s
  have hop' : ((ir.emptySlot s).insn d).opcode = .symaddr := (hsame.opcode d).trans hop
  have he : ir.killUse (some s) = (ir.emptySlot s).dropDefinition killInstruction (ir.load s) :=
    killUseWith_eq killInstruction ir s
  rw [he]
  unfold dropDefinition
  split
  next hu =>
    rw [hsame.definition, hd]
    dsimp only
    unfold killInstruction killInstructionFuel
    simp only [hop']
    split
    · exact Or.inl rfl
    · exact Or.inr ⟨rfl, hu.2⟩
  next => exact Or.inl rfl

theorem Ir.removeUsage_of_users_ne_nil {ir : Ir} {p : Pseudo} {s : Address}
    (hp : hasUseList p = true) (hu : (ir.deletePseudoUserListEntry p s 1).users p ≠ []) :
    ir.removeUsage p s = ir.deletePseudoUserListEntry p s 1 := by
  unfold removeUsage removeUsageWith
  rw [if_pos hp]
  exact if_neg hu

theorem Ir.removeUsage_of_untracked {ir : Ir} {p : Pseudo} {s : Address}
    (hp : hasUseList p = false) : ir.removeUsage p s = ir := by
  unfold removeUsage removeUsageWith
  rw [hp, if_neg Bool.false_ne_true]

/-- A pseudo may be registered for a second slot before or after the entry for the first goes. -/
theorem Ir.delete_usePseudo_comm {ir : Ir} {p : Pseudo} {i : InsnId} {s t : Address}
    (hs : ir.entries p s ≠ []) :
    (ir.usePseudo i p t).deletePseudoUserListEntry p s 1 =
      (ir.deletePseudoUserListEntry p s 1).usePseudo i p t := by
  have hassign : ∀ us, (ir.setUsers p us).assign p t = (ir.assign p t).setUsers p us := by
    intro us
    cases t <;> rfl
  have hset : ∀ (ir0 : Ir) us vs, (ir0.setUsers p us).setUsers p vs = ir0.setUsers p vs := by
    intro ir0 us vs
    simp [setUsers]
  obtain ⟨pu, hpu⟩ := List.exists_mem_of_ne_nil _ hs
  have hmem : ∃ pu ∈ ir.users p, (pu.userp == s) = true := by
    obtain ⟨h1, h2⟩ := List.mem_filter.mp hpu
    exact ⟨pu, h1, by simpa using h2⟩
  obtain ⟨pu, hpu, hpus⟩ := hmem
  have herase : (ir.users p ++ [(⟨i, t⟩ : PseudoUser)]).eraseP (fun pu => pu.userp == s) =
      (ir.users p).eraseP (fun pu => pu.userp == s) ++ [⟨i, t⟩] :=
    List.eraseP_append_left (p := fun pu : PseudoUser => pu.userp == s) hpus _ hpu
  unfold usePseudo deletePseudoUserListEntry
  simp only [deleteEntries_one]
  split
  · rw [hassign, hset, hset]
    simp [herase]
  · rw [hassign]
    simp

namespace UseInvariant

variable {ir : Ir} {i : InsnId} {s : Address} {p : Pseudo}

/-- The two slots take each other's pseudo one after the other: no pseudo loses its last user. -/
theorem switchPseudo_eq (h : UseInvariant ir) {j : InsnId} {t : Address} (hi : ir.Owns i s)
    (hj : ir.Owns j t) (hne : s ≠ t) : ir.switchPseudo i s j t =
      (ir.retargetSlot i (ir.load t) s).retargetSlot j (ir.load s) t := by
  set p1 := ir.load s with hp1
  set p2 := ir.load t with hp2
  set ir1 := ir.retargetSlot i p2 s with hir1
  have h1 : UseInvariant ir1 := h.retarget hi (h.available_of_owns hj)
  have hi1 : ir1.Owns i s := ((SameForm.retargetSlot ir i p2 s).owns i s).mpr hi
  have ht1 : ir1.load t = p2 := by rw [hir1, Ir.load_retargetSlot, if_neg (Ne.symm hne)]
  have hs1 : ir1.load s = p2 := by rw [hir1, Ir.load_retargetSlot, if_pos rfl]
  have hfirst : (((ir.usePseudo i p2 s).usePseudo j p1 t).removeUsage p1 s) =
      ir1.usePseudo j p1 t := by
    by_cases ht : hasUseList p1 = true
    · have hent : (ir.usePseudo i p2 s).entries p1 s ≠ [] := by
        rw [Ir.entries_usePseudo, h.exact i s hi p1 ht]
        simp [hp1]
      have hcomm := Ir.delete_usePseudo_comm (i := j) (t := t) hent
      have hstill : ((((ir.usePseudo i p2 s).usePseudo j p1 t).deletePseudoUserListEntry p1 s
          1).users p1) ≠ [] := by
        rw [hcomm]
        unfold Ir.usePseudo
        simp [ht]
      rw [Ir.removeUsage_of_users_ne_nil ht hstill, hcomm, hir1, Ir.retargetSlot, if_pos ht]
    · rw [Bool.not_eq_true] at ht
      rw [Ir.removeUsage_of_untracked ht, hir1, Ir.retargetSlot, ← hp1, ht, if_neg Bool.false_ne_true]
  have hsecond : (ir1.usePseudo j p1 t).removeUsage p2 t = ir1.retargetSlot j p1 t := by
    rw [Ir.retargetSlot, ht1]
    by_cases ht : hasUseList p2 = true
    · rw [if_pos ht]
      refine Ir.removeUsage_of_users_ne_nil ht (fun hu => ?_)
      have hx := h1.exact i s hi1 p2 ht
      rw [if_pos hs1] at hx
      have he : ((ir1.usePseudo j p1 t).deletePseudoUserListEntry p2 t 1).entries p2 s =
          ir1.entries p2 s := by
        simp [Ir.entries_delete, Ir.entries_usePseudo, hne]
      rw [hx, Ir.entries, hu] at he
      simp at he
    · rw [Bool.not_eq_true] at ht
      rw [Ir.removeUsage_of_untracked ht, ht, if_neg Bool.false_ne_true]
  rw [← hsecond, ← hfirst]
  rfl

theorem switchPseudo (h : UseInvariant ir) {j : InsnId} {t : Address} (hi : ir.Owns i s)
    (hj : ir.Owns j t) (hne : s ≠ t) : UseInvariant (ir.switchPseudo i s j t) := by
  have hsame := SameForm.retargetSlot ir i (ir.load t) s
  rw [h.switchPseudo_eq hi hj hne]
  exact (h.retarget hi (h.available_of_owns hj)).retarget ((hsame.owns j t).mpr hj)
    ((SameForm.available hsame).mpr (h.available_of_owns hi))

/-- Editing the other fields of an instruction. -/
theorem touch (h : UseInvariant ir) {f : Instruction → Instruction}
    (hform : (f (ir.insn i)).form = (ir.insn i).form) (hbb : (f (ir.insn i)).bb = (ir.insn i).bb)
    (htarget : (f (ir.insn i)).target = (ir.insn i).target)
    (hsrc1 : (f (ir.insn i)).src1 = (ir.insn i).src1)
    (hsrc2 : (f (ir.insn i)).src2 = (ir.insn i).src2)
    (hsrc3 : (f (ir.insn i)).src3 = (ir.insn i).src3) :
    UseInvariant (ir.setInsn i f) ∧ SameForm ir (ir.setInsn i f) ∧
      ∀ s, (ir.setInsn i f).load s = ir.load s := by
  have hload : ∀ s, (ir.setInsn i f).load s = ir.load s := by
    intro s
    cases s with
    | cell c => rfl
    | target j | src1 j | src2 j | src3 j =>
      by_cases hj : j = i
      · subst hj; simp [Ir.load, htarget, hsrc1, hsrc2, hsrc3]
      · simp [Ir.load, hj]
  have hsame : SameForm ir (ir.setInsn i f) := by
    refine ⟨fun j => ?_, fun j => ?_, rfl, rfl, rfl⟩
    · by_cases hj : j = i
      · subst hj; simpa using hform
      · simp [hj]
    · by_cases hj : j = i
      · subst hj; simpa using hbb
      · simp [hj]
  refine ⟨h.of_sameForm hsame (fun j s hj p hp => ?_) (fun p hp hsym pu hpu => ?_)
    (fun j s hj nr d hl hd => ?_) (fun nr d _ => hload (.target d))
    (fun p hp pu hpu => Or.inl ⟨p, hp, hpu⟩), hsame, hload⟩
  · rw [hload]
    exact h.exact j s hj p hp
  · rw [hload]
    exact h.back p hp hsym pu hpu
  · rw [hload] at hl
    exact h.defined j s hj nr d hl hd

theorem simplifyCondBranch (h : UseInvariant ir) {d : InsnId} {pp : Address}
    (hbr : ir.Owns i (.target i)) (hpp : ir.Owns d pp) :
    UseInvariant (ir.simplifyCondBranch i (ir.insn i).target d pp) := by
  have h1 := h.replaceUse hbr (h.available_of_owns hpp)
  unfold Ir.simplifyCondBranch
  dsimp only
  split
  · exact (h1.touch rfl rfl rfl rfl rfl rfl).1
  · exact h1

theorem simplifyAssociativeBinop (h : UseInvariant ir) (hi : ir.live i)
    (hop : (ir.insn i).opcode.isBinary = true) : UseInvariant (ir.simplifyAssociativeBinop i) := by
  have hslots : ∀ j, (ir.insn j).opcode = (ir.insn i).opcode →
      (ir.insn j).operandSlots j = [.src1 j, .src2 j] :=
    fun j hj => Instruction.operandSlots_of_isBinary (hj ▸ hop)
  unfold Ir.simplifyAssociativeBinop
  dsimp only
  split
  next nr hs =>
    split
    next => exact h
    next d hd =>
      split
      next hc =>
        obtain ⟨-, hdi, hopd, -⟩ := hc
        have ho1 : ir.Owns i (.src1 i) := ⟨hi, by rw [hslots i rfl]; simp⟩
        have ho2 : ir.Owns i (.src2 i) := ⟨hi, by rw [hslots i rfl]; simp⟩
        have hod : ir.Owns d (.src1 d) :=
          ⟨h.live_of_owns ho1 hs hd, by rw [hslots d hopd]; simp⟩
        exact h.switchPseudo hod ho2 (by simp)
      next => exact h
  next => exact h

/-- A load or store takes the symbol whose address an `OP_SYMADDR` computes. -/
theorem useSymbolAddress (h : UseInvariant ir) (ho : ir.Owns i (.src1 i)) {nr d : ℕ}
    (hs : ir.load (.src1 i) = .reg nr) (hd : ir.definition (.reg nr) = some d)
    (hop : (ir.insn d).opcode = .symaddr) (hdi : d ≠ i) :
    UseInvariant ((ir.killUse (some (.src1 i))).usePseudo i
      ((ir.killUse (some (.src1 i))).insn d).src1 (.src1 i)) := by
  have hod : ir.Owns d (.src1 d) :=
    ⟨h.live_of_owns ho hs hd, by simp [Instruction.operandSlots, hop]⟩
  have hne : Address.src1 d ≠ .src1 i := by simpa using hdi
  have he := h.emptySlot (s := .src1 i) (by simp)
  have hsame := SameForm.emptySlot ir (.src1 i)
  have hi1 : (ir.emptySlot (.src1 i)).load (.src1 i) = .void := by
    rw [Ir.load_emptySlot, if_pos rfl]
  have hd1 : (ir.emptySlot (.src1 i)).load (.src1 d) = (ir.insn d).src1 := by
    rw [Ir.load_emptySlot, if_neg hne]
    rfl
  have havail := (SameForm.available hsame).mpr (h.available_of_owns hod)
  rcases Ir.killUse_symaddr (s := .src1 i) (hs.symm ▸ hd) hop with hk | ⟨hk, hu⟩
  · rw [hk]
    refine he.usePseudo ((hsame.owns i _).mpr ho) (by rw [hi1]; rfl) ?_
    rw [show ((ir.emptySlot (.src1 i)).insn d).src1 = ir.load (.src1 d) from hd1]
    exact havail
  · -- The `OP_SYMADDR` is dead now, but what it holds is not its own result.
    have hkeep := (h.killUse_frame (s := .src1 i) (by simp)).1
    have hload : ((ir.killUse (some (.src1 i))).insn d).src1 = (ir.insn d).src1 := by
      rw [← hd1, hk]
      exact Ir.load_clearBb _ d (.src1 d)
    rw [hload]
    rw [hk] at hkeep ⊢
    refine hkeep.usePseudo ⟨(Ir.live_clearBb _ d i).mpr ⟨Ne.symm hdi, (hsame.live i).mpr ho.1⟩, ?_⟩
      (by rw [Ir.load_clearBb, hi1]; rfl) (fun n e hq hde => ?_)
    · have := ((hsame.owns i _).mpr ho).2
      simpa [Ir.clearBb, Function.update_of_ne (Ne.symm hdi)] using this
    · have hde' : ir.definition (.reg n) = some e := by
        rw [← hsame.definition]
        exact hde
      refine (Ir.live_clearBb _ d e).mpr ⟨?_, havail n e hq ((hsame.definition).symm ▸ hde')⟩
      rintro rfl
      have hsame' := h.definition_unique hd hde' (by rw [hop]; decide)
      have hl : (ir.emptySlot (.src1 i)).load (.src1 e) = ir.load (.src1 i) := by
        rw [hd1, hq, hs, hsame']
      exact he.load_ne_of_users_nil ((hsame.owns e _).mpr hod) (by rw [hs]; rfl) hu hl

/-- `simplify_one_memop` moves the address of a load or store back to what it is computed from. -/
theorem simplifyOneMemop (h : UseInvariant ir) (hi : ir.live i)
    (hmem : (ir.insn i).opcode = .load ∨ (ir.insn i).opcode = .store) (orig : Pseudo) :
    UseInvariant (ir.simplifyOneMemop i orig).1 := by
  have ho : ir.Owns i (.src1 i) := by
    rcases hmem with hm | hm <;> exact ⟨hi, by simp [Instruction.operandSlots, hm]⟩
  have hoffset : ∀ (new : Pseudo) (off : BitVec 64), ir.Available new → UseInvariant
      (((ir.setInsn i (fun insn => { insn with offset := insn.offset + off.setWidth 32 })).usePseudo i
        new (.src1 i)).removeUsage (ir.insn i).src1 (.src1 i)) := by
    intro new off hnew
    obtain ⟨h1, hs, hl⟩ := h.touch (i := i)
      (f := fun insn => { insn with offset := insn.offset + off.setWidth 32 }) rfl rfl rfl rfl rfl rfl
    have hu := h1.replaceUse ((hs.owns i (.src1 i)).mpr ho) (q := new) (hs.available.mpr hnew)
    rwa [hl] at hu
  have hvoid : ir.Available .void := fun _ _ he => by simp at he
  unfold Ir.simplifyOneMemop
  dsimp only
  split
  next nr d hs hd =>
    have hs' : ir.load (.src1 i) = .reg nr := hs
    rw [hs] at hd
    have hdl : ir.live d := h.live_of_owns ho hs' hd
    split
    next hop =>
      refine h.useSymbolAddress ho hs' hd hop.1 ?_
      rintro rfl
      rcases hmem with hm | hm <;> rw [hop.1] at hm <;> cases hm
    next =>
      split
      next hadd =>
        have hod : ∀ s, s ∈ [Address.src1 d, .src2 d] → ir.Owns d s := fun s hs =>
          ⟨hdl, by simpa [Instruction.operandSlots, hadd, Opcode.isBinary] using hs⟩
        have h1 := h.available_of_owns (hod (.src1 d) (by simp))
        have h2 := h.available_of_owns (hod (.src2 d) (by simp))
        split
        · split_ifs
          · exact h
          · exact hoffset _ _ hvoid
          · exact hoffset _ _ h1
        · split_ifs
          · exact h
          · exact hoffset _ _ hvoid
          · exact hoffset _ _ h2
        · exact h
      next => exact h
  next => exact h

/-- `kill_use` on one slot of an instruction leaves its other slots alone, as long as somebody
uses its result. -/
theorem killUse_owns (h : UseInvariant ir)
    (hst : ∀ j, s = .target j → (ir.insn j).opcode.storesTarget = true) {t : Address} {nr : ℕ}
    (ho : ir.Owns i t) (hne : t ≠ s) (hd : ir.definition (.reg nr) = some i)
    (hu : (ir.killUse (some s)).users (.reg nr) ≠ []) :
    (ir.killUse (some s)).Owns i t ∧ (ir.killUse (some s)).load t = ir.load t := by
  have hsame := SameForm.emptySlot ir s
  obtain ⟨-, hf⟩ := h.killUse_frame hst
  have hlive : (ir.killUse (some s)).live i := by
    by_contra hn
    exact hu (hf.died i nr ((hsame.live i).mpr ho.1) hn (by rw [hsame.definition]; exact hd))
  have ho' : (ir.killUse (some s)).Owns i t :=
    ⟨hlive, by
      rw [Instruction.operandSlots_of_form ((hf.form i).trans (hsame.form i))]
      exact ho.2⟩
  refine ⟨ho', (hf.slots i t ho').trans ?_⟩
  rw [Ir.load_emptySlot, if_neg hne]

theorem killUse_users_ne_nil (h : UseInvariant ir)
    (hst : ∀ j, s = .target j → (ir.insn j).opcode.storesTarget = true)
    (hu : (ir.killUse (some s)).users p ≠ []) : ir.users p ≠ [] := by
  intro hn
  have hsub := ((h.killUse_frame hst).2.users p).trans (ir.users_emptySlot_sublist s p)
  rw [hn] at hsub
  exact hu (List.sublist_nil.mp hsub)

theorem killUse_definition (h : UseInvariant ir)
    (hst : ∀ j, s = .target j → (ir.insn j).opcode.storesTarget = true) :
    (ir.killUse (some s)).definition = ir.definition :=
  (h.killUse_frame hst).2.definition.trans (SameForm.emptySlot ir s).definition

theorem killUse_opcode (h : UseInvariant ir)
    (hst : ∀ j, s = .target j → (ir.insn j).opcode.storesTarget = true) (j : InsnId) :
    ((ir.killUse (some s)).insn j).opcode = (ir.insn j).opcode :=
  (Instruction.opcode_of_form ((h.killUse_frame hst).2.form j)).trans
    ((SameForm.emptySlot ir s).opcode j)

/-- A live instruction takes another opcode. Its new slots are registered with what they hold
then, and no tracked pseudo but a symbol is left with an entry for a slot that it gives up. -/
theorem recast (h : UseInvariant ir) {f : Instruction → Instruction}
    (hbb : (f (ir.insn i)).bb = (ir.insn i).bb)
    (htarget : (f (ir.insn i)).target = (ir.insn i).target)
    (hold : (ir.insn i).opcode.hasResult = true) (hnew : (f (ir.insn i)).opcode.hasResult = true)
    (hback : ∀ p, hasUseList p = true → p.isSym = false → ∀ pu ∈ ir.users p,
      (ir.setInsn i f).load pu.userp = p ∨ (ir.setInsn i f).load pu.userp = .void)
    (hslot : ∀ s ∈ (f (ir.insn i)).operandSlots i, ir.Allocated s ∧ (∀ j, ir.Owns j s → j = i) ∧
      ir.Available ((ir.setInsn i f).load s) ∧ ∀ p, hasUseList p = true →
        ir.entries p s = if (ir.setInsn i f).load s = p then [⟨i, s⟩] else []) :
    UseInvariant (ir.setInsn i f) := by
  have hne : ∀ j, j ≠ i → (ir.setInsn i f).insn j = ir.insn j := fun j hj => by simp [hj]
  have hself : (ir.setInsn i f).insn i = f (ir.insn i) := by simp
  have hlive : ∀ j, (ir.setInsn i f).live j ↔ ir.live j := by
    intro j
    by_cases hj : j = i
    · subst hj
      simp [Ir.live, hbb]
    · simp [Ir.live, hj]
  have htargets : ∀ j, ((ir.setInsn i f).insn j).target = (ir.insn j).target := by
    intro j
    by_cases hj : j = i
    · subst hj
      rw [hself, htarget]
    · rw [hne j hj]
  -- Another instruction owns what it owned before, and its slots hold the same.
  have hother : ∀ j s, j ≠ i → (ir.setInsn i f).Owns j s →
      ir.Owns j s ∧ (ir.setInsn i f).load s = ir.load s := by
    intro j s hj ho
    have ho' : ir.Owns j s := ⟨(hlive j).mp ho.1, by have := ho.2; rwa [hne j hj] at this⟩
    refine ⟨ho', ?_⟩
    rcases Instruction.mem_operandSlots ho'.2 with rfl | rfl | rfl | ⟨rfl, -⟩ | ⟨c, rfl⟩ <;>
      simp [Ir.load, hj]
  have hmine : ∀ s, (ir.setInsn i f).Owns i s → s ∈ (f (ir.insn i)).operandSlots i := by
    intro s ho
    have := ho.2
    rwa [hself] at this
  have hst : ∀ j, ((ir.setInsn i f).insn j).opcode.storesTarget =
      (ir.insn j).opcode.storesTarget := by
    intro j
    by_cases hj : j = i
    · subst hj
      rw [hself, Opcode.not_storesTarget_of_hasResult hold,
        Opcode.not_storesTarget_of_hasResult hnew]
    · rw [hne j hj]
  refine ⟨fun j s hj p hp => ?_, hback, fun j s hj nr d hl hd => ?_, fun nr d hd => ?_,
    fun p d hd hreg => ?_, fun j hj hop => ?_, fun j k s hj hk => ?_, fun p hp pu hpu j hj => ?_,
    fun j hj => h.liveAllocated j ((hlive j).mp hj), fun j c hj => ?_, fun p hp pu hpu => ?_,
    h.definitionAllocated⟩
  · by_cases hji : j = i
    · subst hji
      exact (hslot s (hmine s hj)).2.2.2 p hp
    · obtain ⟨ho, hl⟩ := hother j s hji hj
      rw [hl]
      exact h.exact j s ho p hp
  · rw [hlive]
    by_cases hji : j = i
    · subst hji
      exact (hslot s (hmine s hj)).2.2.1 nr d hl hd
    · obtain ⟨ho, hl'⟩ := hother j s hji hj
      exact h.defined j s ho nr d (hl' ▸ hl) hd
  · rw [htargets, hst]
    refine (h.result nr d hd).imp_left (Or.imp_right fun hasm => ?_)
    by_cases hdi : d = i
    · subst hdi
      exact absurd hasm (Opcode.ne_asm_of_hasResult hold)
    · rwa [hne d hdi]
  · have ho := h.other p d hd hreg
    have hdi : d ≠ i := by
      rintro rfl
      rcases ho with ho | ho <;> rw [ho] at hold <;> exact absurd hold Bool.false_ne_true
    rw [hne d hdi]
    exact ho
  · rw [htargets]
    by_cases hji : j = i
    · subst hji
      exact h.defines j ((hlive j).mp hj) hold
    · rw [hne j hji] at hop
      exact h.defines j ((hlive j).mp hj) hop
  · by_cases hji : j = i
    · subst hji
      by_cases hki : k = j
      · exact hki.symm
      · exact ((hslot s (hmine s hj)).2.1 k (hother k s hki hk).1).symm
    · by_cases hki : k = i
      · subst hki
        exact (hslot s (hmine s hk)).2.1 j (hother j s hji hj).1
      · exact h.unique j k s (hother j s hji hj).1 (hother k s hki hk).1
  · rw [hst]
    exact h.targets p hp pu hpu j hj
  · by_cases hji : j = i
    · subst hji
      exact (hslot _ (hmine _ hj)).1
    · exact h.cellAllocated j c (hother j _ hji hj).1
  · have := h.userAllocated p hp pu hpu
    cases hs : pu.userp <;> rw [hs] at this <;> exact this

/-- A select between two constants becomes a comparison. -/
theorem selectToCompare (h : UseInvariant ir) (hi : ir.live i) (hop : (ir.insn i).opcode = .sel)
    {op : Opcode} {q : Pseudo} (hb : op.isBinary = true)
    (h2 : hasUseList (ir.insn i).src2 = false) (hq : hasUseList q = false) :
    UseInvariant (ir.setInsn i ({ · with opcode := op, src2 := q })) := by
  set f : Instruction → Instruction := ({ · with opcode := op, src2 := q })
  have hslots : ∀ s ∈ [Address.src1 i, .src2 i, .src3 i], ir.Owns i s := fun s hs =>
    ⟨hi, by simpa [Instruction.operandSlots, hop] using hs⟩
  have hload : ∀ s, (ir.setInsn i f).load s = if s = .src2 i then q else ir.load s := by
    intro s
    cases s with
    | cell c => rfl
    | target j | src1 j | src2 j | src3 j => by_cases hj : j = i <;> simp [Ir.load, hj, f]
  have hfree : ∀ p, hasUseList p = true → ir.entries p (.src2 i) = [] := by
    intro p hp
    rw [h.exact i _ (hslots _ (by simp)) p hp, if_neg]
    rintro rfl
    rw [show ir.load (.src2 i) = (ir.insn i).src2 from rfl, h2] at hp
    exact absurd hp Bool.false_ne_true
  have hne : ∀ p, hasUseList p = true → ∀ pu ∈ ir.users p, pu.userp ≠ .src2 i := by
    intro p hp pu hpu hs
    rw [Ir.mem_users_iff, hs, hfree p hp] at hpu
    exact absurd hpu List.not_mem_nil
  refine h.recast rfl rfl (by rw [hop]; rfl) ?_ (fun p hp hsym pu hpu => ?_) (fun s hs => ?_)
  · cases op <;> simp_all [Opcode.isBinary, Opcode.hasResult, f]
  · rw [hload, if_neg (hne p hp pu hpu)]
    exact h.back p hp hsym pu hpu
  · have hs' : s ∈ [Address.src1 i, .src2 i] := by
      rwa [Instruction.operandSlots_of_isBinary (by simpa [f] using hb)] at hs
    have ho := hslots s (List.mem_of_mem_take (i := 2) hs')
    refine ⟨h.allocated_of_owns ho, fun j hj => h.unique j i s hj ho, ?_, fun p hp => ?_⟩
    · rw [hload]
      split
      · rintro n d rfl
        simp [hasUseList] at hq
      · exact h.available_of_owns ho
    · rw [hload]
      split
      next hs2 =>
        rw [hs2, hfree p hp, if_neg]
        rintro rfl
        rw [hq] at hp
        exact absurd hp Bool.false_ne_true
      next => exact h.exact i s ho p hp

/-- `simplify_select`, for a select that does not choose its own result. -/
theorem simplifySelect (h : UseInvariant ir) (hi : ir.live i) (hop : (ir.insn i).opcode = .sel)
    (hself : sparseConstant (ir.insn i).src1 ∨ (ir.insn i).src2 = (ir.insn i).src3 →
      (if Ir.valueField (ir.insn i).src1 then (ir.insn i).src2 else (ir.insn i).src3) ≠
        (ir.insn i).target) :
    UseInvariant (ir.simplifySelect i) := by
  obtain ⟨nr, ht, hd⟩ := h.defines i hi (by rw [hop]; rfl)
  have hslots : (ir.insn i).operandSlots i = [.src1 i, .src2 i, .src3 i] := by
    simp [Instruction.operandSlots, hop]
  have ho2 : ir.Owns i (.src2 i) := ⟨hi, by rw [hslots]; simp⟩
  have ho3 : ir.Owns i (.src3 i) := ⟨hi, by rw [hslots]; simp⟩
  have hasm : (ir.insn i).opcode ≠ .asm := by rw [hop]; decide
  have hdead := h.deadInsn (i := i) hasm (a := some (.src1 i)) (b := some (.src2 i))
    (c := some (.src3 i)) (by simp) (by simp) (by simp)
  -- The condition and the arm not taken go, then the other arm takes the place of the result.
  have htake : ∀ kill t : Address, (∀ j, kill ≠ .target j) → t ≠ .src1 i → t ≠ kill →
      ir.Owns i t → ir.load t ≠ (ir.insn i).target →
      UseInvariant ((((ir.killUse (some (.src1 i))).killUse (some kill))).replaceWithPseudo i
        (ir.load t)) := by
    intro kill t hkill hne1 hnek ho hnt
    have hs1 : ∀ j, Address.src1 i = .target j → (ir.insn j).opcode.storesTarget = true := by simp
    have hk1 := (h.killUse_frame hs1).1
    have hs2 : ∀ j, kill = .target j →
        (((ir.killUse (some (.src1 i))).insn j).opcode.storesTarget = true) :=
      fun j hj => absurd hj (hkill j)
    have hk2 := (hk1.killUse_frame hs2).1
    have hd1 : (ir.killUse (some (.src1 i))).definition (.reg nr) = some i := by
      rw [h.killUse_definition hs1]; exact hd
    refine hk2.replaceWithPseudo (by rw [hk1.killUse_definition hs2]; exact hd1)
      (by rw [hk1.killUse_opcode hs2, h.killUse_opcode hs1]; exact hasm)
      (by rw [← ht]; exact hnt) (fun hu => ?_)
    obtain ⟨ho1, hl1⟩ := h.killUse_owns hs1 ho hne1 hd (hk1.killUse_users_ne_nil hs2 hu)
    obtain ⟨ho2, hl2⟩ := hk1.killUse_owns hs2 ho1 hnek hd1 hu
    rw [← hl1, ← hl2]
    exact hk2.available_of_owns ho2
  unfold Ir.simplifySelect
  split
  next ir1 hx => rwa [hx] at hdead
  next ir1 hx =>
    have hir : ir1 = ir := by
      unfold Ir.deadInsn at hx
      split at hx
      · simp at hx
      · exact (Prod.mk.inj hx).1.symm
    subst hir
    dsimp only
    split
    next hrule =>
      have htaken := hself hrule
      by_cases hv : Ir.valueField (ir1.insn i).src1 = true
      · rw [if_pos hv] at htaken
        simp only [hv, if_true]
        exact htake (.src3 i) (.src2 i) (by simp) (by simp) (by simp) ho2 htaken
      · rw [if_neg hv] at htaken
        simp only [hv]
        exact htake (.src2 i) (.src3 i) (by simp) (by simp) (by simp) ho3 htaken
    next =>
      split
      next val1 val2 he2 he3 =>
        have hval : hasUseList (ir1.insn i).src2 = false := by rw [he2]; rfl
        split_ifs
        · exact h.selectToCompare hi hop rfl hval (by rw [he3]; rfl)
        · exact h.selectToCompare hi hop rfl hval hval
        · exact h
      next => exact h

/-- The entries of an instruction that is out of its block may go. -/
theorem dropEntries (h : UseInvariant ir) (hi : ¬ ir.live i) (q : Pseudo) :
    UseInvariant (ir.setUsers q ((ir.users q).filter (fun pu => pu.insn ≠ i))) := by
  set ir' := ir.setUsers q ((ir.users q).filter (fun pu => pu.insn ≠ i))
  have hentries : ∀ p s, ir'.entries p s =
      if p = q then (ir.entries p s).filter (fun pu => pu.insn ≠ i) else ir.entries p s := by
    intro p s
    unfold Ir.entries
    by_cases hp : p = q
    · subst hp
      simp only [ir', Ir.setUsers_users, Function.update_self, if_true]
      rw [List.filter_filter, List.filter_filter]
      exact List.filter_congr (fun pu _ => Bool.and_comm _ _)
    · simp [ir', hp]
  have hsub : ∀ p, ∀ pu ∈ ir'.users p, pu ∈ ir.users p := by
    intro p pu hpu
    by_cases hp : p = q
    · subst hp
      simp only [ir', Ir.setUsers_users, Function.update_self] at hpu
      exact (List.mem_filter.mp hpu).1
    · simpa [ir', hp] using hpu
  refine h.of_sameForm (SameForm.setUsers ir _ _) (fun j s ho p hp => ?_)
    (fun p hp hsym pu hpu => ?_) (fun j s ho nr d hl hd => ?_) (fun nr d _ => rfl)
    (fun p hp pu hpu => Or.inl ⟨p, hp, hsub p pu hpu⟩)
  · have hji : j ≠ i := by
      rintro rfl
      exact hi ho.1
    rw [hentries, h.exact j s ho p hp, Ir.setUsers_load]
    split
    · split <;> simp [hji]
    · rfl
  · rw [Ir.setUsers_load]
    exact h.back p hp hsym pu (hsub p pu hpu)
  · rw [Ir.setUsers_load] at hl
    exact h.defined j s ho nr d hl hd

theorem dropPhiEntries (h : UseInvariant ir) (hi : ¬ ir.live i) (cs : List CellId) :
    UseInvariant (cs.foldl (Ir.dropPhiUsers i) ir) := by
  induction cs generalizing ir with
  | nil => exact h
  | cons c cs ih => exact ih (h.dropEntries hi (ir.cell c)) hi

end UseInvariant

theorem Ir.foldl_dropPhiUsers_setInsn (ir : Ir) (i : InsnId) (f : Instruction → Instruction)
    (cs : List CellId) : (cs.foldl (dropPhiUsers i) ir).setInsn i f =
      cs.foldl (dropPhiUsers i) (ir.setInsn i f) := by
  induction cs generalizing ir with
  | nil => rfl
  | cons c cs ih => exact ih _

namespace UseInvariant

variable {ir : Ir} {i : InsnId}

/-- `cse_one_instruction`: another live instruction computes the same. -/
theorem cseOneInstruction (h : UseInvariant ir) {d : InsnId} (hi : ir.live i) (hd : ir.live d)
    (hne : i ≠ d) (hopi : (ir.insn i).opcode.hasResult = true)
    (hopd : (ir.insn d).opcode.hasResult = true) : UseInvariant (ir.cseOneInstruction i d) := by
  obtain ⟨nr, hti, hdi⟩ := h.defines i hi hopi
  obtain ⟨m, htd, hdd⟩ := h.defines d hd hopd
  have htarget : (ir.insn d).target ≠ .reg nr := by
    intro he
    rw [htd] at he
    rw [he, hdi] at hdd
    exact hne (Option.some.inj hdd)
  have hasm := Opcode.ne_asm_of_hasResult hopi
  obtain ⟨h1, hs, hu⟩ := h.convertInstructionTarget hdi hasm htarget (fun _ n e he hde => by
    rw [htd] at he
    rw [← he, hdd] at hde
    exact Option.some.inj hde ▸ hd)
  set ir1 := ir.convertInstructionTarget i (ir.insn d).target
  have hd1 : ir1.definition (.reg nr) = some i := by
    rw [hs.definition]; exact hdi
  have h2 : UseInvariant (ir1.setInsn i ({ · with opcode := .nop, bb := none })) :=
    h1.retire rfl rfl rfl rfl rfl (Or.inr ⟨by rwa [hs.opcode], rfl⟩)
      (h1.unused_of_result_users_nil hu hd1 (by rwa [hs.opcode]))
  unfold Ir.cseOneInstruction
  dsimp only
  split
  · rw [Ir.foldl_dropPhiUsers_setInsn]
    exact h2.dropPhiEntries (by simp [Ir.live]) _
  · exact h2

end UseInvariant

end Sparse
