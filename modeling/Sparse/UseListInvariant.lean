import Sparse.OperandRewrites

/-!
# The use lists match the operand slots

An operand slot of a live instruction is registered once with the pseudo it holds and
with no other. The invariant is about the entries that name a given slot: every
operation adds one such entry, removes the first, or hands all of them over.
-/

namespace Sparse

namespace Opcode

/-- The opcodes for which `target` is an operand. -/
def storesTarget : Opcode → Bool
  | br | switch | computedgoto | store | snop => true
  | _ => false

/-- The opcodes that `kill_instruction` acts on. -/
def killable : Opcode → Bool
  | notLin | neg | phi | symaddr | rangeLin | br => true
  | op => op.isBinary

/-- The opcodes whose `target` is always a register of their own. -/
def hasResult : Opcode → Bool
  | notLin | neg | sel | load | symaddr | setval | phi | cast | scast | fpcast | ptrcast => true
  | op => op.isBinary

theorem not_storesTarget_of_hasResult {op : Opcode} (h : op.hasResult = true) :
    op.storesTarget = false := by
  cases op <;> simp_all [hasResult, storesTarget, isBinary]

theorem ne_asm_of_hasResult {op : Opcode} (h : op.hasResult = true) : op ≠ .asm := by
  rintro rfl
  exact absurd h Bool.false_ne_true

theorem ne_asm_of_isBinary {op : Opcode} (h : op.isBinary = true) : op ≠ .asm := by
  rintro rfl
  exact absurd h Bool.false_ne_true

end Opcode

/-- The part of an instruction that decides which slots it owns. -/
def Instruction.form (insn : Instruction) :
    Opcode × List CellId × List CellId × List CellId :=
  (insn.opcode, insn.phiList, insn.arguments, insn.inputs)

theorem Instruction.operandSlots_of_form {x y : Instruction} (h : x.form = y.form) (i : InsnId) :
    x.operandSlots i = y.operandSlots i := by
  simp only [form, Prod.mk.injEq] at h
  obtain ⟨ho, hp, ha, hi⟩ := h
  simp only [operandSlots, ho, hp, ha, hi]

theorem Instruction.opcode_of_form {x y : Instruction} (h : x.form = y.form) :
    x.opcode = y.opcode := congrArg Prod.fst h

theorem Instruction.operandSlots_of_isBinary {insn : Instruction} {i : InsnId}
    (h : insn.opcode.isBinary = true) : insn.operandSlots i = [.src1 i, .src2 i] := by
  unfold operandSlots
  cases ho : insn.opcode <;> simp_all [Opcode.isBinary]

/-- An operand slot lies in its instruction, unless it is a list entry. -/
theorem Instruction.mem_operandSlots {insn : Instruction} {i : InsnId} {s : Address}
    (h : s ∈ insn.operandSlots i) :
    s = .src1 i ∨ s = .src2 i ∨ s = .src3 i ∨ (s = .target i ∧ insn.opcode.storesTarget = true) ∨
      ∃ c, s = .cell c := by
  revert h
  cases hop : insn.opcode <;>
    simp only [operandSlots, hop, Opcode.isBinary, List.mem_cons, List.mem_map, List.not_mem_nil,
      or_false, Opcode.storesTarget, if_true, if_false, Bool.false_eq_true, and_true] <;>
    intro h <;> (try exact absurd h id) <;> grind

namespace Ir

/-- The entries of the users of `p` that name the slot `s`. -/
def entries (ir : Ir) (p : Pseudo) (s : Address) : List PseudoUser :=
  (ir.users p).filter (fun pu => pu.userp = s)

theorem mem_users_iff {ir : Ir} {p : Pseudo} {pu : PseudoUser} :
    pu ∈ ir.users p ↔ pu ∈ ir.entries p pu.userp := by
  simp [entries]

theorem entries_usePseudo (ir : Ir) (i : InsnId) (q p : Pseudo) (s s' : Address) :
    (ir.usePseudo i q s).entries p s' =
      ir.entries p s' ++ if hasUseList q = true ∧ p = q ∧ s' = s then [⟨i, s⟩] else [] := by
  unfold usePseudo entries
  by_cases hq : hasUseList q = true
  · by_cases hp : p = q
    · subst hp
      by_cases hs : s' = s
      · subst hs; simp [hq]
      · simp [hq, hs, Ne.symm hs]
    · simp [hq, hp]
  · simp [hq]

theorem load_usePseudo (ir : Ir) (i : InsnId) (q : Pseudo) (s s' : Address) :
    (ir.usePseudo i q s).load s' = if s' = s then q else ir.load s' := by
  unfold usePseudo
  split
  · rw [setUsers_load, assign_load]
  · rw [assign_load]

/-- `use_pseudo` writes its slot and a use list. -/
theorem usePseudo_rest (ir : Ir) (i : InsnId) (p : Pseudo) (s : Address) :
    (ir.usePseudo i p s).insn = (ir.assign p s).insn ∧ (ir.usePseudo i p s).block = ir.block ∧
      (ir.usePseudo i p s).nextInsn = ir.nextInsn ∧
      (ir.usePseudo i p s).nextBlock = ir.nextBlock := by
  unfold usePseudo
  dsimp only
  split <;> simp

private theorem filter_eraseP (s s' : Address) (us : List PseudoUser) :
    (us.eraseP (fun pu => pu.userp == s)).filter (fun pu => decide (pu.userp = s')) =
      if s' = s then (us.filter (fun pu => decide (pu.userp = s'))).tail
      else us.filter (fun pu => decide (pu.userp = s')) := by
  induction us with
  | nil => simp
  | cons pu us ih =>
    by_cases hpu : pu.userp = s
    · by_cases hs : s' = s
      · simp [hpu, hs]
      · simp [hpu, hs, Ne.symm hs]
    · by_cases hs : s' = s
      · subst hs
        simp [hpu] at ih ⊢
        exact ih
      · by_cases hs' : pu.userp = s'
        · subst hs'
          simp [hpu] at ih ⊢
          exact ih
        · simp [hpu, hs, hs'] at ih ⊢
          exact ih

theorem entries_delete (ir : Ir) (q p : Pseudo) (s s' : Address) :
    (ir.deletePseudoUserListEntry q s 1).entries p s' =
      if p = q ∧ s' = s then (ir.entries p s').tail else ir.entries p s' := by
  unfold deletePseudoUserListEntry entries
  rw [deleteEntries_one]
  by_cases hp : p = q
  · subst hp
    simp only [setUsers_users, Function.update_self, true_and]
    exact filter_eraseP s s' (ir.users p)
  · simp [hp]

theorem users_delete_subset (ir : Ir) (q p : Pseudo) (s : Address) :
    ((ir.deletePseudoUserListEntry q s 1).users p).Sublist (ir.users p) := by
  unfold deletePseudoUserListEntry
  rw [deleteEntries_one]
  by_cases hp : p = q
  · subst hp
    simpa using List.eraseP_sublist
  · simp [hp]

@[simp] theorem load_delete (ir : Ir) (q : Pseudo) (s s' : Address) (count : ℕ) :
    (ir.deletePseudoUserListEntry q s count).load s' = ir.load s' := setUsers_load ir _ _ _

end Ir

/-- `p` is a register. -/
def Pseudo.isReg : Pseudo → Bool
  | .reg _ => true
  | _ => false

/-- `p` is a symbol. -/
def Pseudo.isSym : Pseudo → Bool
  | .sym _ => true
  | _ => false

/-- The instruction that an address lies in. -/
def Address.insn? : Address → Option InsnId
  | .target i | .src1 i | .src2 i | .src3 i => some i
  | .cell _ => none

/-- The address lies in an allocated instruction or list. -/
def Ir.Allocated (ir : Ir) : Address → Prop
  | .target i | .src1 i | .src2 i | .src3 i => i < ir.nextInsn
  | .cell c => c < ir.nextCell

/-- The users lists and the operand slots agree. The first three clauses say so; the others fix
which instruction defines a pseudo, which slots can be registered and what is not allocated.
An inline assembly defines its outputs, none of which is its target. -/
structure UseInvariant (ir : Ir) : Prop where
  exact : ∀ i s, ir.Owns i s → ∀ p, hasUseList p = true →
    ir.entries p s = if ir.load s = p then [⟨i, s⟩] else []
  back : ∀ p, hasUseList p = true → p.isSym = false → ∀ pu ∈ ir.users p,
    ir.load pu.userp = p ∨ ir.load pu.userp = .void
  defined : ∀ i s, ir.Owns i s → ∀ nr d, ir.load s = .reg nr →
    ir.definition (.reg nr) = some d → ir.live d
  result : ∀ nr d, ir.definition (.reg nr) = some d →
    ((ir.insn d).target = .reg nr ∨ (ir.insn d).opcode = .asm) ∧ (ir.insn d).opcode.storesTarget = false
  other : ∀ p d, ir.definition p = some d → p.isReg = false →
    (ir.insn d).opcode = .phisource ∨ (ir.insn d).opcode = .entry
  defines : ∀ i, ir.live i → (ir.insn i).opcode.hasResult = true →
    ∃ nr, (ir.insn i).target = .reg nr ∧ ir.definition (.reg nr) = some i
  unique : ∀ i j s, ir.Owns i s → ir.Owns j s → i = j
  targets : ∀ p, hasUseList p = true → ∀ pu ∈ ir.users p, ∀ j, pu.userp = .target j →
    (ir.insn j).opcode.storesTarget = true
  liveAllocated : ∀ i, ir.live i → i < ir.nextInsn
  cellAllocated : ∀ i c, ir.Owns i (.cell c) → c < ir.nextCell
  userAllocated : ∀ p, hasUseList p = true → ∀ pu ∈ ir.users p, ir.Allocated pu.userp
  definitionAllocated : ∀ p d, ir.definition p = some d → d < ir.nextInsn

/-- What the operations that edit operands and use lists leave alone. -/
structure SameForm (ir ir' : Ir) : Prop where
  form : ∀ j, (ir'.insn j).form = (ir.insn j).form
  bb : ∀ j, (ir'.insn j).bb = (ir.insn j).bb
  definition : ir'.definition = ir.definition
  nextInsn : ir'.nextInsn = ir.nextInsn
  nextCell : ir'.nextCell = ir.nextCell

namespace SameForm

variable {ir ir' ir'' : Ir}

theorem refl (ir : Ir) : SameForm ir ir := ⟨fun _ => rfl, fun _ => rfl, rfl, rfl, rfl⟩

theorem trans (h : SameForm ir ir') (h' : SameForm ir' ir'') : SameForm ir ir'' :=
  ⟨fun j => (h'.form j).trans (h.form j), fun j => (h'.bb j).trans (h.bb j),
    h'.definition.trans h.definition, h'.nextInsn.trans h.nextInsn, h'.nextCell.trans h.nextCell⟩

theorem setUsers (ir : Ir) (p : Pseudo) (us : List PseudoUser) : SameForm ir (ir.setUsers p us) :=
  ⟨fun _ => rfl, fun _ => rfl, rfl, rfl, rfl⟩

theorem assign (ir : Ir) (p : Pseudo) (a : Address) : SameForm ir (ir.assign p a) := by
  refine ⟨fun j => ?_, fun j => ?_, by simp, by simp, by simp⟩
  · cases a with
    | cell c => rfl
    | target i | src1 i | src2 i | src3 i =>
      by_cases hj : j = i
      · subst hj; simp [Ir.assign, Instruction.form]
      · simp [Ir.assign, hj]
  · cases a with
    | cell c => rfl
    | target i | src1 i | src2 i | src3 i =>
      by_cases hj : j = i
      · subst hj; simp [Ir.assign]
      · simp [Ir.assign, hj]

theorem usePseudo (ir : Ir) (i : InsnId) (q : Pseudo) (s : Address) :
    SameForm ir (ir.usePseudo i q s) := by
  unfold Ir.usePseudo
  dsimp only
  split
  · exact (assign ir q s).trans (setUsers _ _ _)
  · exact assign ir q s

theorem opcode (h : SameForm ir ir') (j : InsnId) : (ir'.insn j).opcode = (ir.insn j).opcode :=
  Instruction.opcode_of_form (h.form j)

theorem live (h : SameForm ir ir') (j : InsnId) : ir'.live j ↔ ir.live j := by
  unfold Ir.live
  rw [h.bb j]

theorem owns (h : SameForm ir ir') (i : InsnId) (s : Address) : ir'.Owns i s ↔ ir.Owns i s := by
  unfold Ir.Owns
  rw [h.live i, Instruction.operandSlots_of_form (h.form i)]

theorem allocated (h : SameForm ir ir') (s : Address) : ir'.Allocated s ↔ ir.Allocated s := by
  cases s <;> simp [Ir.Allocated, h.nextInsn, h.nextCell]

end SameForm

theorem Ir.usePseudo_target {ir : Ir} {i : InsnId} {p : Pseudo} {a : Address} {d : InsnId}
    (ha : a ≠ .target d) : ((ir.usePseudo i p a).insn d).target = (ir.insn d).target := by
  have := ir.load_usePseudo i p a (.target d)
  rwa [if_neg (Ne.symm ha)] at this

/-- The first half of `kill_use`: the slot is emptied and its entry removed. -/
def Ir.emptySlot (ir : Ir) (s : Address) : Ir :=
  if hasUseList (ir.load s) = true then
    (ir.assign .void s).deletePseudoUserListEntry (ir.load s) s 1
  else ir.assign .void s

theorem SameForm.emptySlot (ir : Ir) (s : Address) : SameForm ir (ir.emptySlot s) := by
  have ha := SameForm.assign ir .void s
  unfold Ir.emptySlot
  split
  · exact ha.trans (SameForm.setUsers _ _ _)
  · exact ha

namespace Ir

variable (ir : Ir) (p : Pseudo) {s s' : Address}

theorem load_emptySlot (s s' : Address) :
    (ir.emptySlot s).load s' = if s' = s then .void else ir.load s' := by
  unfold emptySlot
  split
  · rw [load_delete, assign_load]
  · rw [assign_load]

theorem entries_emptySlot_of_ne (hs : s' ≠ s) : (ir.emptySlot s).entries p s' = ir.entries p s' := by
  have hassign : (ir.assign .void s).entries p s' = ir.entries p s' := by simp [entries]
  unfold emptySlot
  split
  · rw [entries_delete, if_neg (fun hc => hs hc.2), hassign]
  · exact hassign

theorem users_emptySlot_sublist (s : Address) (p : Pseudo) :
    ((ir.emptySlot s).users p).Sublist (ir.users p) := by
  unfold emptySlot
  split
  · simpa using users_delete_subset (ir.assign .void s) (ir.load s) p s
  · simp

end Ir

/-- Another pseudo in a slot: `use_pseudo`, and the old entry goes. -/
def Ir.retargetSlot (ir : Ir) (i : InsnId) (q : Pseudo) (s : Address) : Ir :=
  if hasUseList (ir.load s) = true then
    (ir.usePseudo i q s).deletePseudoUserListEntry (ir.load s) s 1
  else ir.usePseudo i q s

theorem SameForm.retargetSlot (ir : Ir) (i : InsnId) (q : Pseudo) (s : Address) :
    SameForm ir (ir.retargetSlot i q s) := by
  have hu := SameForm.usePseudo ir i q s
  unfold Ir.retargetSlot
  split
  · exact hu.trans (SameForm.setUsers _ _ _)
  · exact hu

theorem Ir.load_retargetSlot (ir : Ir) (i : InsnId) (q : Pseudo) (s s' : Address) :
    (ir.retargetSlot i q s).load s' = if s' = s then q else ir.load s' := by
  unfold retargetSlot
  split
  · rw [load_delete, load_usePseudo]
  · rw [load_usePseudo]

/-- The second half of `kill_use` and of `remove_usage`: a pseudo without users loses its
definition. -/
def Ir.dropDefinition (kill : Ir → InsnId → Ir) (ir : Ir) (p : Pseudo) : Ir :=
  if hasUseList p = true ∧ ir.users p = [] then
    match ir.definition p with
    | some d => kill ir d
    | none => ir
  else ir

theorem Ir.killUseWith_eq (kill : Ir → InsnId → Ir) (ir : Ir) (s : Address) :
    ir.killUseWith kill s = (ir.emptySlot s).dropDefinition kill (ir.load s) := by
  unfold killUseWith removeUsageWith dropDefinition
  by_cases hp : hasUseList (ir.load s) = true
  · have hempty : ir.emptySlot s = (ir.assign .void s).deletePseudoUserListEntry (ir.load s) s 1 := if_pos hp
    rw [hempty]
    exact (if_pos hp).trans (if_congr (and_iff_right hp) rfl rfl).symm
  · have hempty : ir.emptySlot s = ir.assign .void s := if_neg hp
    rw [hempty]
    exact (if_neg hp).trans (if_neg fun h => hp h.1).symm

/-- `use_pseudo` on a slot, then `remove_usage` of what the slot held before: the old entry goes,
and what follows may drop the old pseudo. -/
theorem Ir.replaceUse_eq (ir : Ir) (i : InsnId) (q : Pseudo) (s : Address) :
    (ir.usePseudo i q s).removeUsage (ir.load s) s =
      (ir.retargetSlot i q s).dropDefinition Ir.killInstruction (ir.load s) := by
  unfold removeUsage removeUsageWith dropDefinition
  by_cases hp : hasUseList (ir.load s) = true
  · have hslot : ir.retargetSlot i q s = (ir.usePseudo i q s).deletePseudoUserListEntry (ir.load s) s 1 := if_pos hp
    rw [hslot]
    exact (if_pos hp).trans (if_congr (and_iff_right hp) rfl rfl).symm
  · have hslot : ir.retargetSlot i q s = ir.usePseudo i q s := if_neg hp
    rw [hslot]
    exact (if_neg hp).trans (if_neg fun h => hp h.1).symm

namespace UseInvariant

variable {ir : Ir} {i : InsnId} {s : Address} {q : Pseudo}

/-- No entry of a tracked pseudo names a live slot that holds something else. -/
theorem load_eq_of_mem (h : UseInvariant ir) (ho : ir.Owns i s) {p : Pseudo}
    (hp : hasUseList p = true) {pu : PseudoUser} (hpu : pu ∈ ir.users p) (hs : pu.userp = s) :
    ir.load s = p := by
  rw [Ir.mem_users_iff, hs, h.exact i s ho p hp] at hpu
  by_contra hne
  rw [if_neg hne] at hpu
  exact absurd hpu List.not_mem_nil

/-- A pseudo without users is in no live slot. -/
theorem load_ne_of_users_nil (h : UseInvariant ir) (ho : ir.Owns i s) {p : Pseudo}
    (hp : hasUseList p = true) (hu : ir.users p = []) : ir.load s ≠ p := by
  intro he
  have hx := h.exact i s ho p hp
  rw [if_pos he, Ir.entries, hu] at hx
  exact absurd hx (by simp)

theorem ne_target_of_owns (h : UseInvariant ir) (ho : ir.Owns i s) {nr d : ℕ}
    (hd : ir.definition (.reg nr) = some d) : s ≠ .target d := by
  rintro rfl
  have hres := (h.result nr d hd).2
  rcases Instruction.mem_operandSlots ho.2 with he | he | he | ⟨he, hst⟩ | ⟨c, he⟩
  · simp at he
  · simp at he
  · simp at he
  · obtain rfl : d = i := by simpa using he
    rw [hres] at hst
    exact absurd hst Bool.false_ne_true
  · simp at he

theorem targets_of_owns (ho : ir.Owns i s) {j : InsnId} (hs : s = .target j) :
    (ir.insn j).opcode.storesTarget = true := by
  rcases Instruction.mem_operandSlots ho.2 with he | he | he | ⟨he, hst⟩ | ⟨c, he⟩ <;>
    simp [hs] at he
  exact he ▸ hst

theorem insn?_of_owns (ho : ir.Owns i s) {j : InsnId} (hs : s.insn? = some j) : j = i := by
  rcases Instruction.mem_operandSlots ho.2 with he | he | he | ⟨he, -⟩ | ⟨c, he⟩ <;>
    rw [he] at hs <;> simp [Address.insn?] at hs <;> exact hs.symm

theorem allocated_of_owns (h : UseInvariant ir) (ho : ir.Owns i s) : ir.Allocated s := by
  have hi := h.liveAllocated i ho.1
  cases s with
  | cell c => exact h.cellAllocated i c ho
  | target j | src1 j | src2 j | src3 j =>
    obtain rfl : j = i := insn?_of_owns ho rfl
    exact hi

/-- An edit of operands and use lists keeps the invariant when it keeps the first three clauses,
leaves the results of definitions alone and adds entries for proper slots only. -/
theorem of_sameForm {ir' : Ir} (h : UseInvariant ir) (hsame : SameForm ir ir')
    (hexact : ∀ i s, ir.Owns i s → ∀ p, hasUseList p = true →
      ir'.entries p s = if ir'.load s = p then [⟨i, s⟩] else [])
    (hback : ∀ p, hasUseList p = true → p.isSym = false → ∀ pu ∈ ir'.users p,
      ir'.load pu.userp = p ∨ ir'.load pu.userp = .void)
    (hdefined : ∀ i s, ir.Owns i s → ∀ nr d, ir'.load s = .reg nr →
      ir.definition (.reg nr) = some d → ir.live d)
    (htarget : ∀ nr d, ir.definition (.reg nr) = some d →
      (ir'.insn d).target = (ir.insn d).target)
    (husers : ∀ p, hasUseList p = true → ∀ pu ∈ ir'.users p,
      (∃ p', hasUseList p' = true ∧ pu ∈ ir.users p') ∨ (ir.Allocated pu.userp ∧
        ∀ j, pu.userp = .target j → (ir.insn j).opcode.storesTarget = true)) :
    UseInvariant ir' where
  exact j s hj p hp := hexact j s ((hsame.owns j s).mp hj) p hp
  back := hback
  defined j s hj nr d hl hd := by
    rw [hsame.live]
    exact hdefined j s ((hsame.owns j s).mp hj) nr d hl (hsame.definition ▸ hd)
  result nr d hd := by
    rw [hsame.definition] at hd
    rw [htarget nr d hd, hsame.opcode]
    exact h.result nr d hd
  other p d hd hreg := by
    rw [hsame.definition] at hd
    rw [hsame.opcode]
    exact h.other p d hd hreg
  defines j hj hop := by
    rw [hsame.opcode] at hop
    obtain ⟨nr, ht, hd⟩ := h.defines j ((hsame.live j).mp hj) hop
    exact ⟨nr, (htarget nr j hd).trans ht, hsame.definition ▸ hd⟩
  unique j k s hj hk := h.unique j k s ((hsame.owns j s).mp hj) ((hsame.owns k s).mp hk)
  targets p hp pu hpu j hj := by
    rw [hsame.opcode]
    rcases husers p hp pu hpu with ⟨p', hp', hpu'⟩ | ⟨-, ht⟩
    · exact h.targets p' hp' pu hpu' j hj
    · exact ht j hj
  liveAllocated j hj := by
    rw [hsame.nextInsn]
    exact h.liveAllocated j ((hsame.live j).mp hj)
  cellAllocated j c hj := by
    rw [hsame.nextCell]
    exact h.cellAllocated j c ((hsame.owns j _).mp hj)
  userAllocated p hp pu hpu := by
    rw [hsame.allocated]
    rcases husers p hp pu hpu with ⟨p', hp', hpu'⟩ | ⟨ha, -⟩
    · exact h.userAllocated p' hp' pu hpu'
    · exact ha
  definitionAllocated p d hd := by
    rw [hsame.definition] at hd
    rw [hsame.nextInsn]
    exact h.definitionAllocated p d hd

/-- Put another pseudo into a live slot, in place of `use_pseudo` and the removal of the old
entry; what follows may drop the old pseudo. -/
theorem retarget (h : UseInvariant ir) (ho : ir.Owns i s)
    (hq : ∀ nr d, q = .reg nr → ir.definition (.reg nr) = some d → ir.live d) :
    UseInvariant (ir.retargetSlot i q s) := by
  set old := ir.load s with hold
  set ir' := ir.retargetSlot i q s with hir
  have hsame : SameForm ir ir' := SameForm.retargetSlot ir i q s
  have hload : ∀ s', ir'.load s' = if s' = s then q else ir.load s' := ir.load_retargetSlot i q s
  have hne : ∀ p s', s' ≠ s → ir'.entries p s' = ir.entries p s' := by
    intro p s' hs
    rw [hir, Ir.retargetSlot]
    split
    · simp [Ir.entries_delete, Ir.entries_usePseudo, hs]
    · simp [Ir.entries_usePseudo, hs]
  have hself : ∀ p, hasUseList p = true → ir'.entries p s = if q = p then [⟨i, s⟩] else [] := by
    intro p hp
    have hx : ir.entries p s = if old = p then [⟨i, s⟩] else [] := h.exact i s ho p hp
    have hpq : p = q ↔ q = p := eq_comm
    rw [hir, Ir.retargetSlot, ← hold]
    split
    next ht =>
      rw [Ir.entries_delete, Ir.entries_usePseudo, hx]
      by_cases hpo : p = old
      · by_cases he : q = p
        · simp [hpo.symm, he, hp]
        · simp [hpo.symm, hpq, he]
      · by_cases he : q = p
        · simp [hpo, Ne.symm hpo, he, hp]
        · simp [hpo, Ne.symm hpo, hpq, he]
    next ht =>
      have hpo : old ≠ p := by
        rintro rfl
        exact ht hp
      rw [Ir.entries_usePseudo, hx, if_neg hpo]
      by_cases he : q = p
      · simp [he, hp]
      · simp [hpq, he]
  have huser : ∀ p, hasUseList p = true → ∀ pu ∈ ir'.users p,
      (pu.userp = s ∧ q = p) ∨ (pu.userp ≠ s ∧ pu ∈ ir.users p) := by
    intro p hp pu hpu
    by_cases hs : pu.userp = s
    · rw [Ir.mem_users_iff, hs, hself p hp] at hpu
      by_cases hpq : q = p
      · exact Or.inl ⟨hs, hpq⟩
      · rw [if_neg hpq] at hpu
        exact absurd hpu List.not_mem_nil
    · rw [Ir.mem_users_iff, hne p _ hs, ← Ir.mem_users_iff] at hpu
      exact Or.inr ⟨hs, hpu⟩
  refine h.of_sameForm hsame (fun j s' hj p hp => ?_) (fun p hp hsym pu hpu => ?_)
    (fun j s' hj nr d hl hd => ?_) (fun nr d hd => ?_) (fun p hp pu hpu => ?_)
  · by_cases hs : s' = s
    · subst hs
      obtain rfl := h.unique i j s' ho hj
      rw [hself p hp, hload, if_pos rfl]
    · rw [hne p s' hs, h.exact j s' hj p hp, hload, if_neg hs]
  · rw [hload]
    rcases huser p hp pu hpu with ⟨hs, rfl⟩ | ⟨hs, hpu⟩
    · exact Or.inl (if_pos hs)
    · rw [if_neg hs]
      exact h.back p hp hsym pu hpu
  · rw [hload] at hl
    by_cases hs : s' = s
    · rw [if_pos hs] at hl
      exact hq nr d hl hd
    · rw [if_neg hs] at hl
      exact h.defined j s' hj nr d hl hd
  · have := hload (.target d)
    rwa [if_neg (Ne.symm (h.ne_target_of_owns ho hd))] at this
  · rcases huser p hp pu hpu with ⟨hs, -⟩ | ⟨-, hpu⟩
    · exact Or.inr ⟨hs ▸ h.allocated_of_owns ho, fun j hj => targets_of_owns (hs ▸ ho) hj⟩
    · exact Or.inl ⟨p, hp, hpu⟩

theorem emptySlot (h : UseInvariant ir) (hst : ∀ j, s = .target j →
      (ir.insn j).opcode.storesTarget = true) : UseInvariant (ir.emptySlot s) := by
  have hsame := SameForm.emptySlot ir s
  have husers : ∀ p, ∀ pu ∈ (ir.emptySlot s).users p, pu ∈ ir.users p :=
    fun p pu hpu => (ir.users_emptySlot_sublist s p).subset hpu
  refine h.of_sameForm hsame (fun j s' hj p hp => ?_) (fun p hp hsym pu hpu => ?_)
    (fun j s' hj nr d hl hd => ?_) (fun nr d hd => ?_) (fun p hp pu hpu => ?_)
  · by_cases hs : s' = s
    · subst hs
      have hvoid : Pseudo.void ≠ p := by
        rintro rfl
        exact absurd hp (by decide)
      have hx := h.exact j s' hj p hp
      have hassign : (ir.assign .void s').entries p s' = ir.entries p s' := by simp [Ir.entries]
      rw [Ir.load_emptySlot, if_pos rfl, if_neg hvoid]
      unfold Ir.emptySlot
      split
      next ht =>
        rw [Ir.entries_delete, hassign, hx]
        by_cases hpo : p = ir.load s'
        · simp [hpo]
        · simp [hpo, Ne.symm hpo]
      next ht =>
        have hpo : ir.load s' ≠ p := by
          rintro rfl
          exact ht hp
        rw [hassign, hx, if_neg hpo]
    · rw [ir.entries_emptySlot_of_ne p hs, h.exact j s' hj p hp, Ir.load_emptySlot, if_neg hs]
  · rw [Ir.load_emptySlot]
    by_cases hs : pu.userp = s
    · exact Or.inr (if_pos hs)
    · rw [if_neg hs]
      exact h.back p hp hsym pu (husers p pu hpu)
  · rw [Ir.load_emptySlot] at hl
    by_cases hs : s' = s
    · simp [hs] at hl
    · rw [if_neg hs] at hl
      exact h.defined j s' hj nr d hl hd
  · have hs : s ≠ .target d := by
      intro hs
      have := hst d hs
      rw [(h.result nr d hd).2] at this
      exact absurd this Bool.false_ne_true
    have := ir.load_emptySlot s (.target d)
    rwa [if_neg (Ne.symm hs)] at this
  · exact Or.inl ⟨p, hp, husers p pu hpu⟩

/-- Taking an instruction out of its block, when no live slot holds what it defines. The opcode
may become one of the no-ops. -/
theorem retire (h : UseInvariant ir) {f : Instruction → Instruction}
    (hbb : (f (ir.insn i)).bb = none) (htarget : (f (ir.insn i)).target = (ir.insn i).target)
    (hsrc1 : (f (ir.insn i)).src1 = (ir.insn i).src1)
    (hsrc2 : (f (ir.insn i)).src2 = (ir.insn i).src2)
    (hsrc3 : (f (ir.insn i)).src3 = (ir.insn i).src3)
    (hop : (f (ir.insn i)).opcode = (ir.insn i).opcode ∨
      (ir.insn i).opcode.hasResult = true ∧ (f (ir.insn i)).opcode.storesTarget = false)
    (hunused : ∀ nr, ir.definition (.reg nr) = some i → ∀ j s, ir.Owns j s → ir.load s ≠ .reg nr) :
    UseInvariant (ir.setInsn i f) := by
  have hne : ∀ j, j ≠ i → (ir.setInsn i f).insn j = ir.insn j := fun j hj => by simp [hj]
  have hself : (ir.setInsn i f).insn i = f (ir.insn i) := by simp
  have hlive : ∀ j, (ir.setInsn i f).live j ↔ j ≠ i ∧ ir.live j := by
    intro j
    by_cases hj : j = i
    · subst hj
      simp [Ir.live, hbb]
    · simp [Ir.live, hj]
  have howns : ∀ j s, (ir.setInsn i f).Owns j s → j ≠ i ∧ ir.Owns j s := by
    intro j s hj
    obtain ⟨hji, hl⟩ := (hlive j).mp hj.1
    have hs := hj.2
    rw [hne j hji] at hs
    exact ⟨hji, hl, hs⟩
  have hload : ∀ s, (ir.setInsn i f).load s = ir.load s := by
    intro s
    cases s with
    | cell c => rfl
    | target j | src1 j | src2 j | src3 j =>
      by_cases hj : j = i
      · subst hj; simp [Ir.load, htarget, hsrc1, hsrc2, hsrc3]
      · simp [Ir.load, hj]
  refine ⟨fun j s hj p hp => ?_, fun p hp hsym pu hpu => ?_, fun j s hj nr d hl hd => ?_,
    fun nr d hd => ?_, fun p d hd hreg => ?_, fun j hj hop => ?_, fun j k s hj hk => ?_,
    fun p hp pu hpu j hj => ?_, fun j hj => ?_, fun j c hj => h.cellAllocated j c (howns j _ hj).2,
    fun p hp pu hpu => ?_, h.definitionAllocated⟩
  · rw [hload]
    exact h.exact j s (howns j s hj).2 p hp
  · rw [hload]
    exact h.back p hp hsym pu hpu
  · rw [hload] at hl
    obtain ⟨-, ho⟩ := howns j s hj
    refine (hlive d).mpr ⟨?_, h.defined j s ho nr d hl hd⟩
    rintro rfl
    exact hunused nr hd j s ho hl
  · have hr := h.result nr d hd
    by_cases hdi : d = i
    · subst hdi
      rw [hself, htarget]
      rcases hop with he | ⟨hres, hs⟩
      · rw [he]
        exact hr
      · exact ⟨.inl (hr.1.resolve_right (Opcode.ne_asm_of_hasResult hres)), hs⟩
    · rw [hne d hdi]
      exact hr
  · have ho := h.other p d hd hreg
    by_cases hdi : d = i
    · subst hdi
      rw [hself]
      rcases hop with he | ⟨hs, -⟩
      · rw [he]
        exact ho
      · rcases ho with ho | ho <;> rw [ho] at hs <;> exact absurd hs Bool.false_ne_true
    · rw [hne d hdi]
      exact ho
  · obtain ⟨hji, hl⟩ := (hlive j).mp hj
    rw [hne j hji] at hop ⊢
    exact h.defines j hl hop
  · exact h.unique j k s (howns j s hj).2 (howns k s hk).2
  · have ht := h.targets p hp pu hpu j hj
    by_cases hji : j = i
    · subst hji
      rw [hself]
      rcases hop with he | ⟨hs, -⟩
      · rw [he]
        exact ht
      · rw [Opcode.not_storesTarget_of_hasResult hs] at ht
        exact absurd ht Bool.false_ne_true
    · rw [hne j hji]
      exact ht
  · exact h.liveAllocated j ((hlive j).mp hj).2
  · have := h.userAllocated p hp pu hpu
    cases hs : pu.userp <;> rw [hs] at this <;> exact this

theorem clearBb (h : UseInvariant ir)
    (hunused : ∀ nr, ir.definition (.reg nr) = some i → ∀ j s, ir.Owns j s → ir.load s ≠ .reg nr) :
    UseInvariant (ir.clearBb i) :=
  h.retire (f := ({ · with bb := none })) rfl rfl rfl rfl rfl (Or.inl rfl) hunused

/-- A register is the target of its definition, unless it is an output of an inline assembly. -/
theorem target_of_definition (h : UseInvariant ir) {nr : ℕ} {d : InsnId}
    (hd : ir.definition (.reg nr) = some d) (hasm : (ir.insn d).opcode ≠ .asm) :
    (ir.insn d).target = .reg nr := (h.result nr d hd).1.resolve_right hasm

/-- Only an inline assembly defines several registers. -/
theorem definition_unique (h : UseInvariant ir) {n nr : ℕ} {d : InsnId}
    (hd : ir.definition (.reg n) = some d) (hnr : ir.definition (.reg nr) = some d)
    (hasm : (ir.insn d).opcode ≠ .asm) : Pseudo.reg n = .reg nr :=
  (h.target_of_definition hd hasm).symm.trans (h.target_of_definition hnr hasm)

/-- An instruction whose result has no users defines nothing that a live slot holds. -/
theorem unused_of_users_nil (h : UseInvariant ir) {p : Pseudo} (hp : hasUseList p = true)
    (hu : ir.users p = []) {d : InsnId} (hd : ir.definition p = some d)
    (hasm : (ir.insn d).opcode ≠ .asm) (nr : ℕ)
    (hnr : ir.definition (.reg nr) = some d) (hreg : p.isReg = true) (j : InsnId) (s : Address)
    (ho : ir.Owns j s) : ir.load s ≠ .reg nr := by
  cases p with
  | reg n =>
    rw [← h.definition_unique hd hnr hasm]
    exact h.load_ne_of_users_nil ho hp hu
  | _ => simp [Pseudo.isReg] at hreg

/-- What `kill_instruction` may be called on: nothing live holds its result, or it has no case
for the opcode. -/
def Killable (ir : Ir) (i : InsnId) : Prop :=
  (ir.insn i).opcode.killable = false ∨
    ∀ nr, ir.definition (.reg nr) = some i → ∀ j s, ir.Owns j s → ir.load s ≠ .reg nr

theorem killable_of_users_nil (h : UseInvariant ir) {p : Pseudo} (hp : hasUseList p = true)
    (hu : ir.users p = []) {d : InsnId} (hd : ir.definition p = some d) : Killable ir d := by
  by_cases hasm : (ir.insn d).opcode = .asm
  · exact Or.inl (by rw [hasm]; rfl)
  by_cases hreg : p.isReg = true
  · exact Or.inr (fun nr hnr j s ho => h.unused_of_users_nil hp hu hd hasm nr hnr hreg j s ho)
  · exact Or.inl (by rcases h.other p d hd (by simpa using hreg) with ho | ho <;> rw [ho] <;> rfl)

section Kill

variable {kill : Ir → InsnId → Ir}
  (hkill : ∀ ir i, UseInvariant ir → Killable ir i → UseInvariant (kill ir i))
include hkill

theorem dropDefinition (h : UseInvariant ir) (p : Pseudo) :
    UseInvariant (ir.dropDefinition kill p) := by
  unfold Ir.dropDefinition
  split
  next hp =>
    cases hd : ir.definition p with
    | none => exact h
    | some d => exact hkill ir d h (h.killable_of_users_nil hp.1 hp.2 hd)
  next => exact h

theorem killUseWith (h : UseInvariant ir)
    (hst : ∀ j, s = .target j → (ir.insn j).opcode.storesTarget = true) :
    UseInvariant (ir.killUseWith kill s) := by
  rw [Ir.killUseWith_eq]
  exact dropDefinition hkill (h.emptySlot hst) _

end Kill

theorem killInstructionFuel (fuel : ℕ) (ir : Ir) (i : InsnId) (h : UseInvariant ir)
    (hk : Killable ir i) : UseInvariant (Ir.killInstructionFuel fuel ir i) := by
  induction fuel generalizing ir i with
  | zero => exact h
  | succ fuel ih =>
    have huse : ∀ ir s, UseInvariant ir → (∀ j, s ≠ .target j) →
        UseInvariant (ir.killUseWith (Ir.killInstructionFuel fuel) s) :=
      fun ir s h hs => killUseWith ih h (fun j hj => absurd hj (hs j))
    unfold Ir.killInstructionFuel
    dsimp only
    split
    next => exact h
    next =>
      have hclear : (ir.insn i).opcode.killable = true → UseInvariant (ir.clearBb i) := by
        intro hop
        refine h.clearBb ?_
        rcases hk with hno | hun
        · rw [hop] at hno
          exact absurd hno.symm Bool.false_ne_true
        · exact hun
      split
      next hop => exact huse _ _ (hclear (by rw [hop]; rfl)) (by simp)
      next hop => exact huse _ _ (hclear (by rw [hop]; rfl)) (by simp)
      next hop => exact hclear (by rw [hop]; rfl)
      next hop => exact hclear (by rw [hop]; rfl)
      next hop =>
        have h1 := huse _ (.src1 i) (hclear (by rw [hop]; rfl)) (by simp)
        exact huse _ (.src3 i) (huse _ (.src2 i) h1 (by simp)) (by simp)
      next hop =>
        have h1 := hclear (by rw [hop]; rfl)
        split
        next => exact h1
        next =>
          refine killUseWith ih h1 (fun j hj => ?_)
          obtain rfl : i = j := by simpa using hj
          simp [Ir.clearBb, hop, Opcode.storesTarget]
      next =>
        split
        next hb =>
          have h1 := huse _ (.src1 i) (hclear (by
            cases hop : (ir.insn i).opcode <;> simp_all [Opcode.killable, Opcode.isBinary])) (by simp)
          exact huse _ (.src2 i) h1 (by simp)
        next => exact h

theorem killInstruction (h : UseInvariant ir) (hk : Killable ir i) :
    UseInvariant (ir.killInstruction i) := killInstructionFuel _ ir i h hk

theorem killUse (h : UseInvariant ir) {a : Option Address}
    (hst : ∀ j, a = some (.target j) → (ir.insn j).opcode.storesTarget = true) :
    UseInvariant (ir.killUse a) := by
  cases a with
  | none => exact h
  | some s =>
    exact killUseWith (fun ir i h hk => killInstructionFuel _ ir i h hk) h
      (fun j hj => hst j (congrArg some hj))

/-- `use_pseudo` on a live slot, then `remove_usage` of what the slot held before. -/
theorem replaceUse (h : UseInvariant ir) (ho : ir.Owns i s)
    (hq : ∀ nr d, q = .reg nr → ir.definition (.reg nr) = some d → ir.live d) :
    UseInvariant ((ir.usePseudo i q s).removeUsage (ir.load s) s) := by
  rw [Ir.replaceUse_eq]
  exact dropDefinition (fun ir i h hk => killInstructionFuel _ ir i h hk) (h.retarget ho hq) _

/-- `use_pseudo` on a live slot that held nothing with a use list. -/
theorem usePseudo (h : UseInvariant ir) (ho : ir.Owns i s) (hold : hasUseList (ir.load s) = false)
    (hq : ∀ nr d, q = .reg nr → ir.definition (.reg nr) = some d → ir.live d) :
    UseInvariant (ir.usePseudo i q s) := by
  have hr := h.retarget ho hq
  rwa [Ir.retargetSlot, hold, if_neg Bool.false_ne_true] at hr

end UseInvariant

theorem SameForm.convertUsers (src : Pseudo) (ir : Ir) (us : List PseudoUser) :
    SameForm ir (Ir.convertUsers src ir us) := by
  induction us generalizing ir with
  | nil => exact refl ir
  | cons pu us ih =>
    unfold Ir.convertUsers
    split
    · exact ih ir
    · exact (assign ir src pu.userp).trans (ih _)

theorem Ir.convertUsers_users (src : Pseudo) (ir : Ir) (us : List PseudoUser) :
    (convertUsers src ir us).users = ir.users := by
  induction us generalizing ir with
  | nil => rfl
  | cons pu us ih =>
    unfold convertUsers
    rw [ih]
    split
    · rfl
    · simp

/-- The loop of `convert_instruction_target` rewrites the named slots that are not empty. -/
theorem Ir.convertUsers_load (src : Pseudo) (ir : Ir) (us : List PseudoUser) (s : Address) :
    (convertUsers src ir us).load s =
      if (∃ pu ∈ us, pu.userp = s) ∧ ir.load s ≠ .void then src else ir.load s := by
  induction us generalizing ir with
  | nil => simp [convertUsers]
  | cons pu us ih =>
    unfold convertUsers
    rw [ih]
    by_cases hv : ir.load pu.userp = .void
    · rw [if_pos hv]
      by_cases hs : pu.userp = s
      · subst hs
        simp [hv]
      · simp [hs]
    · rw [if_neg hv, assign_load]
      by_cases hs : s = pu.userp
      · subst hs
        simp [hv]
      · simp [hs, Ne.symm hs]

namespace UseInvariant

variable {ir : Ir} {i : InsnId} {nr : ℕ} {src : Pseudo}

/-- Every slot that holds the result of an instruction takes another pseudo instead. The claim
that the pseudo is alive is not needed when nothing uses the result. -/
theorem convertInstructionTarget (h : UseInvariant ir) (hd : ir.definition (.reg nr) = some i)
    (hasm : (ir.insn i).opcode ≠ .asm) (hne : src ≠ .reg nr)
    (hsrc : ir.users (.reg nr) ≠ [] → ∀ n d, src = .reg n → ir.definition (.reg n) = some d →
      ir.live d) :
    UseInvariant (ir.convertInstructionTarget i src) ∧
      SameForm ir (ir.convertInstructionTarget i src) ∧
      (ir.convertInstructionTarget i src).users (.reg nr) = [] := by
  have ht : (ir.insn i).target = .reg nr := h.target_of_definition hd hasm
  have heq : ir.convertInstructionTarget i src =
      ((Ir.convertUsers src ir (ir.users (.reg nr))).setUsers src
        (ir.users src ++ ir.users (.reg nr))).setUsers (.reg nr) [] := by
    unfold Ir.convertInstructionTarget
    simp only [ht, if_neg (Ne.symm hne), Ir.convertUsers_users]
  set ir' := ir.convertInstructionTarget i src with hir
  have hsame : SameForm ir ir' := by
    rw [heq]
    exact ((SameForm.convertUsers src ir _).trans (SameForm.setUsers _ _ _)).trans
      (SameForm.setUsers _ _ _)
  have husers : ∀ p, ir'.users p = if p = .reg nr then [] else if p = src then
      ir.users src ++ ir.users (.reg nr) else ir.users p := by
    intro p
    rw [heq]
    by_cases hp : p = .reg nr
    · simp [hp]
    · by_cases hps : p = src
      · subst hps; simp [hp]
      · simp [hp, hps, Ir.convertUsers_users]
  have hload : ∀ s, ir'.load s = if (∃ pu ∈ ir.users (.reg nr), pu.userp = s) ∧ ir.load s ≠ .void
      then src else ir.load s := by
    intro s
    rw [heq, Ir.setUsers_load, Ir.setUsers_load, Ir.convertUsers_load]
  have htrack : hasUseList (.reg nr) = true := rfl
  -- A live slot is named by the users of the result exactly when it holds the result.
  have hlive : ∀ j s, ir.Owns j s → ((∃ pu ∈ ir.users (.reg nr), pu.userp = s) ↔
      ir.load s = .reg nr) := by
    intro j s ho
    have hx := h.exact j s ho (.reg nr) htrack
    constructor
    · rintro ⟨pu, hpu, hs⟩
      exact h.load_eq_of_mem ho htrack hpu hs
    · intro hl
      rw [if_pos hl] at hx
      have hm : (⟨j, s⟩ : PseudoUser) ∈ ir.entries (.reg nr) s := by rw [hx]; exact List.mem_cons_self
      exact ⟨⟨j, s⟩, (List.mem_filter.mp hm).1, rfl⟩
  have hloadLive : ∀ j s, ir.Owns j s →
      ir'.load s = if ir.load s = .reg nr then src else ir.load s := by
    intro j s ho
    rw [hload]
    by_cases hl : ir.load s = .reg nr
    · rw [if_pos ⟨(hlive j s ho).mpr hl, by simp [hl]⟩, if_pos hl]
    · rw [if_neg (fun hc => hl ((hlive j s ho).mp hc.1)), if_neg hl]
  refine ⟨h.of_sameForm hsame (fun j s ho p hp => ?_) (fun p hp hsym pu hpu => ?_)
    (fun j s ho n d hl hdn => ?_) (fun n d hdn => ?_) (fun p hp pu hpu => ?_), hsame, ?_⟩
  · have hx := fun q hq => h.exact j s ho q hq
    unfold Ir.entries at hx ⊢
    rw [hloadLive j s ho, husers]
    by_cases hpt : p = .reg nr
    · subst hpt
      rw [if_pos rfl]
      by_cases hl : ir.load s = .reg nr
      · simp [hl, hne]
      · simp [hl]
    · rw [if_neg hpt]
      by_cases hps : p = src
      · subst hps
        rw [if_pos rfl, List.filter_append, hx p hp, hx (.reg nr) htrack]
        by_cases hl : ir.load s = .reg nr
        · simp [hl, Ne.symm hpt]
        · simp [hl]
      · rw [if_neg hps, hx p hp]
        by_cases hl : ir.load s = .reg nr
        · simp [hl, Ne.symm hpt, Ne.symm hps]
        · simp [hl]
  · rw [hload]
    rw [husers] at hpu
    by_cases hpt : p = .reg nr
    · simp [hpt] at hpu
    · rw [if_neg hpt] at hpu
      by_cases hn : (∃ pu' ∈ ir.users (.reg nr), pu'.userp = pu.userp) ∧ ir.load pu.userp ≠ .void
      · rw [if_pos hn]
        obtain ⟨⟨pu', hpu', hs⟩, hv⟩ := hn
        have hb : ir.load pu.userp = .reg nr := by
          have := h.back (.reg nr) htrack rfl pu' hpu'
          rw [hs] at this
          exact this.resolve_right hv
        by_cases hps : p = src
        · exact Or.inl hps.symm
        · rw [if_neg hps] at hpu
          rcases h.back p hp hsym pu hpu with he | he
          · exact absurd (he.symm.trans hb) hpt
          · exact absurd he hv
      · rw [if_neg hn]
        by_cases hps : p = src
        · subst hps
          rw [if_pos rfl, List.mem_append] at hpu
          rcases hpu with hpu | hpu
          · exact h.back p hp hsym pu hpu
          · right
            by_contra hv
            exact hn ⟨⟨pu, hpu, rfl⟩, hv⟩
        · rw [if_neg hps] at hpu
          exact h.back p hp hsym pu hpu
  · rw [hloadLive j s ho] at hl
    by_cases hr : ir.load s = .reg nr
    · rw [if_pos hr] at hl
      refine hsrc ?_ n d hl hdn
      obtain ⟨pu, hpu, -⟩ := (hlive j s ho).mpr hr
      exact List.ne_nil_of_mem hpu
    · rw [if_neg hr] at hl
      exact h.defined j s ho n d hl hdn
  · have hno : ¬ ∃ pu ∈ ir.users (.reg nr), pu.userp = .target d := by
      rintro ⟨pu, hpu, hs⟩
      have hst := h.targets (.reg nr) htrack pu hpu d hs
      rw [(h.result n d hdn).2] at hst
      exact absurd hst Bool.false_ne_true
    have := hload (.target d)
    rwa [if_neg (fun hc => hno hc.1)] at this
  · rw [husers] at hpu
    by_cases hpt : p = .reg nr
    · simp [hpt] at hpu
    · rw [if_neg hpt] at hpu
      by_cases hps : p = src
      · subst hps
        rw [if_pos rfl, List.mem_append] at hpu
        rcases hpu with hpu | hpu
        · exact Or.inl ⟨p, hp, hpu⟩
        · exact Or.inl ⟨.reg nr, htrack, hpu⟩
      · rw [if_neg hps] at hpu
        exact Or.inl ⟨p, hp, hpu⟩
  · rw [husers, if_pos rfl]

end UseInvariant

end Sparse
