import Sparse.UseListInvariant

/-!
# Cascades of kills

`kill_use` empties one slot; if its pseudo has no other user, its definition is killed and
empties its own slots in turn. Nothing that a live instruction holds is touched on the way.
-/

namespace Sparse

theorem Ir.live_clearBb (ir : Ir) (d j : InsnId) : (ir.clearBb d).live j ↔ j ≠ d ∧ ir.live j := by
  by_cases hj : j = d
  · subst hj; simp [clearBb, live]
  · simp [clearBb, live, hj]

@[simp] theorem Ir.load_clearBb (ir : Ir) (d : InsnId) (s : Address) :
    (ir.clearBb d).load s = ir.load s := by
  cases s with
  | cell c => rfl
  | target j | src1 j | src2 j | src3 j =>
    by_cases hj : j = d
    · subst hj; simp [clearBb, load]
    · simp [clearBb, load, hj]

/-- What killing changes: instructions leave their blocks, their slots are emptied and lose
their entries, and a register loses its definition only after its last user. -/
structure KillFrame (ir ir' : Ir) : Prop where
  form : ∀ j, (ir'.insn j).form = (ir.insn j).form
  definition : ir'.definition = ir.definition
  nextInsn : ir'.nextInsn = ir.nextInsn
  nextCell : ir'.nextCell = ir.nextCell
  live : ∀ j, ir'.live j → ir.live j
  kept : ∀ j, ir.live j → (ir.insn j).opcode.killable = false → ir'.live j
  slots : ∀ j s, ir'.Owns j s → ir'.load s = ir.load s
  cells : ∀ c, ir'.load (.cell c) = ir.load (.cell c) ∧
    ∀ p, ir'.entries p (.cell c) = ir.entries p (.cell c)
  users : ∀ p, (ir'.users p).Sublist (ir.users p)
  died : ∀ j nr, ir.live j → ¬ ir'.live j → ir.definition (.reg nr) = some j →
    ir'.users (.reg nr) = []

namespace KillFrame

variable {ir ir' ir'' : Ir}

theorem refl (ir : Ir) : KillFrame ir ir :=
  ⟨fun _ => rfl, rfl, rfl, rfl, fun _ h => h, fun _ h _ => h, fun _ _ _ => rfl,
    fun _ => ⟨rfl, fun _ => rfl⟩, fun _ => List.Sublist.refl _, fun _ _ h h' => absurd h h'⟩

theorem owns (h : KillFrame ir ir') {j : InsnId} {s : Address} (ho : ir'.Owns j s) :
    ir.Owns j s :=
  ⟨h.live j ho.1, by rw [← Instruction.operandSlots_of_form (h.form j)]; exact ho.2⟩

theorem trans (h : KillFrame ir ir') (h' : KillFrame ir' ir'') : KillFrame ir ir'' where
  form j := (h'.form j).trans (h.form j)
  definition := h'.definition.trans h.definition
  nextInsn := h'.nextInsn.trans h.nextInsn
  nextCell := h'.nextCell.trans h.nextCell
  live j hj := h.live j (h'.live j hj)
  kept j hj hop :=
    h'.kept j (h.kept j hj hop) (by rwa [Instruction.opcode_of_form (h.form j)])
  slots j s hs := (h'.slots j s hs).trans (h.slots j s (h'.owns hs))
  cells c := ⟨(h'.cells c).1.trans (h.cells c).1, fun p => ((h'.cells c).2 p).trans ((h.cells c).2 p)⟩
  users p := (h'.users p).trans (h.users p)
  died j nr hj hn hd := by
    by_cases hj' : ir'.live j
    · exact h'.died j nr hj' hn (h.definition ▸ hd)
    · have := h.died j nr hj hj' hd
      exact List.sublist_nil.mp (this ▸ h'.users (.reg nr))

/-- Emptying a slot of a dead instruction. -/
theorem emptySlot {s : Address} (hc : ∀ c, s ≠ .cell c) (hs : ∀ j, ¬ ir.Owns j s) :
    KillFrame ir (ir.emptySlot s) := by
  have hsame := SameForm.emptySlot ir s
  have hload : ∀ s', s' ≠ s → (ir.emptySlot s).load s' = ir.load s' := fun s' hs => by
    rw [Ir.load_emptySlot, if_neg hs]
  refine ⟨hsame.form, hsame.definition, hsame.nextInsn, hsame.nextCell,
    fun j hj => (hsame.live j).mp hj, fun j hj _ => (hsame.live j).mpr hj, fun j s' ho => hload s' ?_,
    fun c => ⟨hload _ (Ne.symm (hc c)), fun p => ir.entries_emptySlot_of_ne p (Ne.symm (hc c))⟩,
    ir.users_emptySlot_sublist s, fun j nr hj hn _ => absurd ((hsame.live j).mpr hj) hn⟩
  rintro rfl
  exact hs j ((hsame.owns j s').mp ho)

end KillFrame

/-- An instruction that is out of its block owns no slot of its own. -/
theorem not_owns_of_not_live {ir : Ir} {i : InsnId} (hi : ¬ ir.live i) {s : Address}
    (hs : s.insn? = some i) (j : InsnId) : ¬ ir.Owns j s := by
  intro ho
  exact hi (UseInvariant.insn?_of_owns ho hs ▸ ho.1)

/-- The kill of a pseudo's definition, started when the pseudo has lost its users. -/
def KillKeeps (kill : Ir → InsnId → Ir) : Prop :=
  ∀ ir p d, UseInvariant ir → hasUseList p = true → ir.users p = [] →
    ir.definition p = some d → UseInvariant (kill ir d) ∧ KillFrame ir (kill ir d)

namespace KillKeeps

variable {kill : Ir → InsnId → Ir} {ir : Ir} {i : InsnId} {s : Address}

theorem dropDefinition (hkill : KillKeeps kill) (h : UseInvariant ir) (p : Pseudo) :
    UseInvariant (ir.dropDefinition kill p) ∧ KillFrame ir (ir.dropDefinition kill p) := by
  unfold Ir.dropDefinition
  split
  next hp =>
    cases hd : ir.definition p with
    | none => exact ⟨h, KillFrame.refl ir⟩
    | some d => exact hkill ir p d h hp.1 hp.2 hd
  next => exact ⟨h, KillFrame.refl ir⟩

/-- `kill_use` on a slot of an instruction that is already out of its block. -/
theorem killUseWith (hkill : KillKeeps kill) (h : UseInvariant ir) (hi : ¬ ir.live i)
    (hs : s.insn? = some i)
    (hst : ∀ j, s = .target j → (ir.insn j).opcode.storesTarget = true) :
    UseInvariant (ir.killUseWith kill s) ∧ KillFrame ir (ir.killUseWith kill s) := by
  rw [Ir.killUseWith_eq]
  have hf := KillFrame.emptySlot (s := s) (fun c hc => by simp [hc, Address.insn?] at hs)
    (not_owns_of_not_live hi hs)
  obtain ⟨h1, h2⟩ := hkill.dropDefinition (h.emptySlot hst) (ir.load s)
  exact ⟨h1, hf.trans h2⟩

end KillKeeps

/-- Taking an instruction without users out of its block. -/
theorem KillFrame.clearBb {ir : Ir} (h : UseInvariant ir) {p : Pseudo} {d : InsnId}
    (hp : hasUseList p = true) (hu : ir.users p = []) (hd : ir.definition p = some d)
    (hop : (ir.insn d).opcode.killable = true) :
    UseInvariant (ir.clearBb d) ∧ KillFrame ir (ir.clearBb d) ∧ ¬ (ir.clearBb d).live d := by
  have hreg : p.isReg = true := by
    by_contra hr
    rcases h.other p d hd (by simpa using hr) with ho | ho <;> rw [ho] at hop <;>
      exact absurd hop Bool.false_ne_true
  have hasm : (ir.insn d).opcode ≠ .asm := by
    intro ho
    rw [ho] at hop
    exact absurd hop Bool.false_ne_true
  have hform : ∀ j, ((ir.clearBb d).insn j).form = (ir.insn j).form := by
    intro j
    by_cases hj : j = d
    · subst hj; simp [Ir.clearBb, Instruction.form]
    · simp [Ir.clearBb, hj]
  have hlive := ir.live_clearBb d
  refine ⟨h.clearBb (fun nr hnr j s ho => h.unused_of_users_nil hp hu hd hasm nr hnr hreg j s ho),
    ⟨hform, rfl, rfl, rfl, fun j hj => ((hlive j).mp hj).2, fun j hj hj' => (hlive j).mpr ⟨?_, hj⟩,
      fun j s _ => ir.load_clearBb d s,
      fun c => ⟨rfl, fun p => rfl⟩, fun p => List.Sublist.refl _, fun j nr hj hn hdj => ?_⟩,
    fun hl => ((hlive d).mp hl).1 rfl⟩
  · rintro rfl
    rw [hop] at hj'
    exact absurd hj' (by simp)
  have hjd : j = d := by
    by_contra hne
    exact hn ((hlive j).mpr ⟨hne, hj⟩)
  subst hjd
  cases p with
  | reg n =>
    exact h.definition_unique hd hdj hasm ▸ hu
  | _ => simp [Pseudo.isReg] at hreg

theorem KillKeeps.killInstructionFuel (fuel : ℕ) : KillKeeps (Ir.killInstructionFuel fuel) := by
  induction fuel with
  | zero => exact fun ir p d h _ _ _ => ⟨h, KillFrame.refl ir⟩
  | succ fuel ih =>
    intro ir p i h hp hu hd
    -- One slot of the instruction after another, each time with the instruction dead.
    have huse : ∀ (ir0 : Ir) (s : Address), UseInvariant ir0 ∧ KillFrame ir ir0 ∧ ¬ ir0.live i →
        s.insn? = some i → (∀ j, s = .target j → (ir0.insn j).opcode.storesTarget = true) →
        UseInvariant (ir0.killUseWith (Ir.killInstructionFuel fuel) s) ∧
          KillFrame ir (ir0.killUseWith (Ir.killInstructionFuel fuel) s) ∧
          ¬ (ir0.killUseWith (Ir.killInstructionFuel fuel) s).live i := by
      rintro ir0 s ⟨h0, hf0, hi0⟩ hs hst
      obtain ⟨h1, hf1⟩ := ih.killUseWith h0 hi0 hs hst
      exact ⟨h1, hf0.trans hf1, fun hl => hi0 (hf1.live i hl)⟩
    unfold Ir.killInstructionFuel
    dsimp only
    split
    next => exact ⟨h, KillFrame.refl ir⟩
    next =>
      have hclear : (ir.insn i).opcode.killable = true → _ := KillFrame.clearBb h hp hu hd
      split
      next hop =>
        have h1 := huse _ (.src1 i) (hclear (by rw [hop]; rfl)) rfl (by simp)
        exact ⟨h1.1, h1.2.1⟩
      next hop =>
        have h1 := huse _ (.src1 i) (hclear (by rw [hop]; rfl)) rfl (by simp)
        exact ⟨h1.1, h1.2.1⟩
      next hop =>
        have h1 := hclear (by rw [hop]; rfl)
        exact ⟨h1.1, h1.2.1⟩
      next hop =>
        have h1 := hclear (by rw [hop]; rfl)
        exact ⟨h1.1, h1.2.1⟩
      next hop =>
        have h1 := huse _ (.src1 i) (hclear (by rw [hop]; rfl)) rfl (by simp)
        have h2 := huse _ (.src2 i) h1 rfl (by simp)
        have h3 := huse _ (.src3 i) h2 rfl (by simp)
        exact ⟨h3.1, h3.2.1⟩
      next hop =>
        have h1 := hclear (by rw [hop]; rfl)
        split
        next => exact ⟨h1.1, h1.2.1⟩
        next =>
          have h2 := huse _ (.target i) h1 rfl (fun j hj => by
            obtain rfl : i = j := by simpa using hj
            simp [Ir.clearBb, hop, Opcode.storesTarget])
          exact ⟨h2.1, h2.2.1⟩
      next =>
        split
        next hb =>
          have h1 := huse _ (.src1 i) (hclear (by
            cases hop : (ir.insn i).opcode <;> simp_all [Opcode.killable, Opcode.isBinary])) rfl
            (by simp)
          have h2 := huse _ (.src2 i) h1 rfl (by simp)
          exact ⟨h2.1, h2.2.1⟩
        next => exact ⟨h, KillFrame.refl ir⟩

theorem KillKeeps.killInstruction : KillKeeps Ir.killInstruction :=
  fun ir p d h hp hu hd => KillKeeps.killInstructionFuel _ ir p d h hp hu hd

/-! ## What kills leave alone -/

/-- An instruction without the slots that kills empty. -/
def Instruction.withoutSlots (insn : Instruction) : Instruction :=
  { insn with bb := none, target := .null, src1 := .null, src2 := .null, src3 := .null }

/-- Blocks and slots apart, the instructions are the same. -/
def SameRest (ir ir' : Ir) : Prop := ∀ j, (ir'.insn j).withoutSlots = (ir.insn j).withoutSlots

namespace SameRest

variable {ir ir' ir'' : Ir}

theorem trans (h : SameRest ir ir') (h' : SameRest ir' ir'') : SameRest ir ir'' :=
  fun j => (h' j).trans (h j)

theorem clearBb (ir : Ir) (i : InsnId) : SameRest ir (ir.clearBb i) := by
  intro j
  by_cases hj : j = i
  · subst hj
    simp [Ir.clearBb, Instruction.withoutSlots]
  · simp [Ir.clearBb, hj]

theorem assign (ir : Ir) (p : Pseudo) (s : Address) : SameRest ir (ir.assign p s) := by
  intro j
  cases s with
  | cell c => rfl
  | target i | src1 i | src2 i | src3 i =>
    by_cases hj : j = i
    · subst hj
      simp [Ir.assign, Instruction.withoutSlots]
    · simp [Ir.assign, hj]

theorem emptySlot (ir : Ir) (s : Address) : SameRest ir (ir.emptySlot s) := by
  unfold Ir.emptySlot
  split
  · exact (assign ir .void s).trans fun _ => rfl
  · exact assign ir .void s

theorem usePseudo (ir : Ir) (i : InsnId) (p : Pseudo) (s : Address) : SameRest ir (ir.usePseudo i p s) := by
  unfold Ir.usePseudo
  dsimp only
  split
  · exact (assign ir p s).trans fun _ => rfl
  · exact assign ir p s

theorem retargetSlot (ir : Ir) (i : InsnId) (p : Pseudo) (s : Address) :
    SameRest ir (ir.retargetSlot i p s) := by
  unfold Ir.retargetSlot
  split
  · exact (usePseudo ir i p s).trans fun _ => rfl
  · exact usePseudo ir i p s

section Kill

variable {kill : Ir → InsnId → Ir} (hkill : ∀ ir i, SameRest ir (kill ir i))
include hkill

theorem dropDefinition (ir : Ir) (p : Pseudo) : SameRest ir (ir.dropDefinition kill p) := by
  unfold Ir.dropDefinition
  split
  · split
    · exact hkill ir _
    · exact fun _ => rfl
  · exact fun _ => rfl

theorem killUseWith (ir : Ir) (s : Address) : SameRest ir (ir.killUseWith kill s) := by
  rw [Ir.killUseWith_eq]
  exact (emptySlot ir s).trans (dropDefinition hkill _ _)

end Kill

theorem killInstructionFuel (fuel : ℕ) (ir : Ir) (i : InsnId) :
    SameRest ir (Ir.killInstructionFuel fuel ir i) := by
  induction fuel generalizing ir i with
  | zero => exact fun _ => rfl
  | succ fuel ih =>
    have huse : ∀ {ir'}, SameRest ir ir' → ∀ s, SameRest ir (ir'.killUseWith (Ir.killInstructionFuel fuel) s) :=
      fun {ir'} h s => h.trans (killUseWith ih ir' s)
    have hclear := clearBb ir i
    unfold Ir.killInstructionFuel
    split
    · exact fun _ => rfl
    · split
      · exact huse hclear _
      · exact huse hclear _
      · exact hclear
      · exact hclear
      · exact huse (huse (huse hclear _) _) _
      · split
        · exact hclear
        · exact huse hclear _
      · split
        · exact huse (huse hclear _) _
        · exact fun _ => rfl

theorem killInstruction (ir : Ir) (i : InsnId) : SameRest ir (ir.killInstruction i) :=
  killInstructionFuel _ ir i

theorem killUse (ir : Ir) (s : Address) : SameRest ir (ir.killUse (some s)) := killUseWith killInstruction ir s

theorem opcode (h : SameRest ir ir') (j : InsnId) : (ir'.insn j).opcode = (ir.insn j).opcode := by
  have hop := congrArg Instruction.opcode (h j)
  exact hop

theorem offset (h : SameRest ir ir') (j : InsnId) : (ir'.insn j).offset = (ir.insn j).offset := by
  have hoff := congrArg Instruction.offset (h j)
  exact hoff

end SameRest

end Sparse
