import Sparse.LinearizedCode

/-!
# How linearization grows the graph

Code is only appended, and a block that waits to become active holds phi nodes at most. Each
operation of the builder keeps this, and leaves alone the blocks and the labels of others.
-/

namespace Sparse

namespace Entrypoint

/-- What holds between two operations of the builder. -/
structure Inv (ep : Entrypoint) : Prop where
  active_opened : ∀ bb ∈ ep.active, bb ∈ ep.bbs
  opened_lt : ∀ bb ∈ ep.bbs, bb < ep.nextBlock
  target_lt : ∀ l bb, ep.bbTarget l = some bb → bb < ep.nextBlock
  fresh : ∀ bb, ep.nextBlock ≤ bb → ep.insns bb = []
  waiting : ∀ bb, bb ∉ ep.bbs → ∀ insn ∈ ep.insns bb, insn = .phi
  target_inj : ∀ l l' bb, bb ∉ ep.bbs → ep.bbTarget l = some bb → ep.bbTarget l' = some bb → l = l'

/-- The label, if it has a block, waits for it to become active. -/
def Waits (ep : Entrypoint) (l : LabelId) : Prop := ∀ bb, ep.bbTarget l = some bb → bb ∉ ep.bbs

/-- A block that waits, and that only the given labels may lead to. -/
structure Held (ep : Entrypoint) (X : LabelId → Prop) (bb : BlockId) : Prop where
  lt : bb < ep.nextBlock
  waits : bb ∉ ep.bbs
  labels : ∀ l, ep.bbTarget l = some bb → X l

/-- The step from one state of the builder to another. The labels in `L` are placed, those in `A`
may be jumped to. Blocks below `n` and switches below `w` belong to the code around it. -/
structure Grows (n w : ℕ) (A L : LabelId → Prop) (ep ep' : Entrypoint) : Prop where
  block_le : ep.nextBlock ≤ ep'.nextBlock
  switch_le : ep.nextSwitch ≤ ep'.nextSwitch
  insns : ∀ bb, ep.insns bb <+: ep'.insns bb
  target : ∀ l bb, ep.bbTarget l = some bb → ep'.bbTarget l = some bb
  jumps : ∀ i < w, ep'.multijmpList i = ep.multijmpList i
  waits : ∀ l, ¬ L l → ep.Waits l → ep'.Waits l
  held : ∀ bb < n, ∀ X, (∀ l, X l → ¬ L l) → ep.Held X bb → ep'.Held X bb
  unbound : ∀ l, ¬ A l → ¬ L l → ep.bbTarget l = none → ep'.bbTarget l = none

namespace Grows

variable {n w : ℕ} {A L : LabelId → Prop} {ep ep' ep'' : Entrypoint}

theorem refl : Grows n w A L ep ep where
  block_le := Nat.le_refl _
  switch_le := Nat.le_refl _
  insns _ := List.prefix_rfl
  target _ _ h := h
  jumps _ _ := rfl
  waits _ _ h := h
  held _ _ _ _ h := h
  unbound _ _ _ h := h

theorem trans (h : Grows n w A L ep ep') (h' : Grows n w A L ep' ep'') : Grows n w A L ep ep'' where
  block_le := h.block_le.trans h'.block_le
  switch_le := h.switch_le.trans h'.switch_le
  insns bb := (h.insns bb).trans (h'.insns bb)
  target l bb hl := h'.target l bb (h.target l bb hl)
  jumps i hi := (h'.jumps i hi).trans (h.jumps i hi)
  waits l hl hw := h'.waits l hl (h.waits l hl hw)
  held bb hbb X hX hh := h'.held bb hbb X hX (h.held bb hbb X hX hh)
  unbound l hA hL hn := h'.unbound l hA hL (h.unbound l hA hL hn)

/-- A step that keeps to itself keeps to any wider bounds. -/
theorem mono {n' w' : ℕ} {A' L' : LabelId → Prop} (h : Grows n w A L ep ep') (hn : n' ≤ n)
    (hw : w' ≤ w) (hL : ∀ l, L l → L' l) (hA : ∀ l, A l → A' l ∨ L' l) :
    Grows n' w' A' L' ep ep' where
  block_le := h.block_le
  switch_le := h.switch_le
  insns := h.insns
  target := h.target
  jumps i hi := h.jumps i (hi.trans_le hw)
  waits l hl := h.waits l fun hl' => hl (hL l hl')
  held bb hbb X hX := h.held bb (hbb.trans_le hn) X fun l hl hl' => hX l hl (hL l hl')
  unbound l hA' hL' := h.unbound l (fun hl => (hA l hl).elim hA' hL') fun hl => hL' (hL l hl)

end Grows

/-- The graph that the code ends up in. -/
structure Covers (ep F : Entrypoint) : Prop where
  insns : ∀ bb, ep.insns bb <+: F.insns bb
  target : ∀ l bb, ep.bbTarget l = some bb → F.bbTarget l = some bb

/-- The switches from `w` on that have been made so far are complete. -/
def Completes (w : ℕ) (ep F : Entrypoint) : Prop :=
  ∀ i, w ≤ i → i < ep.nextSwitch → F.multijmpList i = ep.multijmpList i

section

variable {n w : ℕ} {A L : LabelId → Prop} {ep ep' F : Entrypoint}

theorem Covers.of_grows (h : Covers ep' F) (hg : Grows n w A L ep ep') : Covers ep F where
  insns bb := (hg.insns bb).trans (h.insns bb)
  target l bb hl := h.target l bb (hg.target l bb hl)

theorem Covers.refl : Covers ep ep := ⟨fun _ => List.prefix_rfl, fun _ _ h => h⟩

theorem Completes.of_grows {v : ℕ} (h : Completes w ep' F) (hg : Grows n v A L ep ep')
    (hv : ep.nextSwitch ≤ v) : Completes w ep F := fun i hi hlt =>
  (h i hi (hlt.trans_le hg.switch_le)).trans (hg.jumps i (hlt.trans_le hv))

theorem Completes.mono {v : ℕ} (h : Completes w ep F) (hv : w ≤ v) : Completes v ep F :=
  fun i hi => h i (hv.trans hi)

/-- Where the next instruction goes. -/
def point (ep : Entrypoint) : Option Point := ep.active.map fun bb => (bb, (ep.insns bb).length)

/-- The active block can take an instruction. -/
def Open (ep : Entrypoint) : Prop := ep.bbTerminated ep.active = false

/-- The active block, if there is one, has ended. -/
def Closed (ep : Entrypoint) : Prop := ∀ bb ∈ ep.active, ep.bbTerminated (some bb) = true

theorem mem_of_prefix {l m : List LinearInsn} {insn : LinearInsn} (h : l ++ [insn] <+: m) :
    m[l.length]? = some insn := by
  obtain ⟨t, rfl⟩ := h
  simp

theorem open_of_none (h : ep.active = none) : ep.Open := by rw [Open, h]; rfl

theorem closed_of_none (h : ep.active = none) : ep.Closed := by
  intro bb hbb
  rw [h] at hbb
  cases hbb

end

section Operations

variable {n w : ℕ} {A L X : LabelId → Prop} {ep F : Entrypoint} {bb : BlockId}

/-! ### Appending an instruction -/

theorem grows_addInstruction (bb : BlockId) (insn : LinearInsn) :
    Grows n w A L ep (ep.addInstruction bb insn) where
  block_le := Nat.le_refl _
  switch_le := Nat.le_refl _
  insns b := by
    unfold addInstruction
    dsimp only
    by_cases hb : b = bb
    · rw [hb, Function.update_self]
      exact List.prefix_append _ _
    · rw [Function.update_of_ne hb]
  target _ _ h := h
  jumps _ _ := rfl
  waits _ _ h := h
  held _ _ _ _ h := ⟨h.lt, h.waits, h.labels⟩
  unbound _ _ _ h := h

theorem Inv.addInstruction (h : ep.Inv) {insn : LinearInsn} (hlt : bb < ep.nextBlock)
    (hbb : bb ∈ ep.bbs ∨ insn = .phi) : (ep.addInstruction bb insn).Inv where
  active_opened := h.active_opened
  opened_lt := h.opened_lt
  target_lt := h.target_lt
  fresh b hb := by
    unfold Entrypoint.addInstruction
    dsimp only
    rw [Function.update_of_ne (Nat.ne_of_gt (hlt.trans_le hb))]
    exact h.fresh b hb
  waiting b hb i hi := by
    unfold Entrypoint.addInstruction at hi
    dsimp only at hi
    by_cases heq : b = bb
    · subst heq
      rw [Function.update_self, List.mem_append, List.mem_singleton] at hi
      rcases hi with hi | rfl
      · exact h.waiting b hb i hi
      · exact hbb.resolve_left hb
    · rw [Function.update_of_ne heq] at hi
      exact h.waiting b hb i hi
  target_inj := h.target_inj

theorem insns_addInstruction (bb : BlockId) (insn : LinearInsn) :
    (ep.addInstruction bb insn).insns bb = ep.insns bb ++ [insn] := by
  unfold addInstruction
  dsimp only
  rw [Function.update_self]

theorem insnAt_addInstruction {insn : LinearInsn} (h : Covers (ep.addInstruction bb insn) F) :
    F.insnAt (bb, (ep.insns bb).length) = some insn := by
  have hp := h.insns bb
  rw [insns_addInstruction] at hp
  exact mem_of_prefix hp

theorem Open.addInstruction (h : ep.Open) {insn : LinearInsn} (hinsn : insn.isTerminator = false) :
    (ep.addInstruction bb insn).Open := by
  unfold Open bbTerminated at h ⊢
  unfold Entrypoint.addInstruction
  dsimp only
  cases hact : ep.active with
  | none => rfl
  | some src =>
    rw [hact] at h
    dsimp only at h ⊢
    by_cases heq : src = bb
    · rw [heq, Function.update_self, List.getLast?_concat]
      exact hinsn
    · rwa [Function.update_of_ne heq]

/-- A phi node or a phi source does not keep control from the point where code goes on. -/
theorem flows_addInstruction (bb : BlockId) {insn : LinearInsn} {x : Point}
    (hinsn : insn = .phi ∨ insn = .phisource) (hx : ep.point = some x) : ∃ y, (ep.addInstruction bb insn).point = some y ∧
      ∀ F, Covers (ep.addInstruction bb insn) F → F.Flows x y := by
  obtain ⟨src, hact, rfl⟩ := Option.map_eq_some_iff.1 hx
  refine ⟨(src, ((ep.addInstruction bb insn).insns src).length), ?_, fun F hF => ?_⟩
  · exact congrArg (Option.map _) hact
  by_cases heq : src = bb
  · subst heq
    have hat := insnAt_addInstruction hF
    rw [insns_addInstruction, List.length_append]
    rcases hinsn with rfl | rfl
    · exact .single (.phi hat)
    · exact .single (.phisource hat)
  · rw [addInstruction]
    dsimp only
    rw [Function.update_of_ne heq]

theorem grows_addOneInsn (insn : LinearInsn) : Grows n w A L ep (ep.addOneInsn insn) := by
  unfold addOneInsn
  split
  · exact .refl
  · exact grows_addInstruction _ _

theorem Inv.addOneInsn (h : ep.Inv) (insn : LinearInsn) : (ep.addOneInsn insn).Inv := by
  unfold Entrypoint.addOneInsn
  split
  · exact h
  · rename_i bb hact
    have hbb := h.active_opened bb hact
    exact h.addInstruction (h.opened_lt bb hbb) (Or.inl hbb)

theorem active_addOneInsn (insn : LinearInsn) : (ep.addOneInsn insn).active = ep.active := by
  unfold addOneInsn
  split <;> rfl

theorem point_addOneInsn (insn : LinearInsn) :
    (ep.addOneInsn insn).point = ep.point.map fun x => (x.1, x.2 + 1) := by
  unfold point
  rw [active_addOneInsn]
  unfold addOneInsn
  split
  · rename_i hact
    rw [hact]
    rfl
  · rename_i bb hact
    rw [hact, Option.map_some, Option.map_some, Option.map_some, insns_addInstruction,
      List.length_append]
    rfl

theorem insnAt_addOneInsn {insn : LinearInsn} (h : Covers (ep.addOneInsn insn) F) :
    ∀ x ∈ ep.point, F.insnAt x = some insn := by
  intro x hx
  obtain ⟨bb, hact, rfl⟩ := Option.map_eq_some_iff.1 hx
  unfold addOneInsn at h
  rw [hact] at h
  exact insnAt_addInstruction h

theorem open_addOneInsn {insn : LinearInsn} (hinsn : insn.isTerminator = false) :
    (ep.addOneInsn insn).Open := by
  unfold Open
  rw [active_addOneInsn]
  unfold addOneInsn
  split
  · rename_i hact
    rw [hact]
    rfl
  · rename_i bb hact
    rw [hact, bbTerminated, insns_addInstruction, List.getLast?_concat]
    exact hinsn

theorem closed_addOneInsn {insn : LinearInsn} (hinsn : insn.isTerminator = true) :
    (ep.addOneInsn insn).Closed := by
  intro bb hbb
  rw [active_addOneInsn] at hbb
  unfold addOneInsn
  rw [hbb]
  dsimp only
  rw [bbTerminated, insns_addInstruction, List.getLast?_concat]
  exact hinsn

/-! ### Leaving the active block -/

theorem addGoto_eq (dst : BlockId) : ep.addGoto dst = (ep.addOneInsn (.br dst)).finishBlock := by
  unfold addGoto addOneInsn finishBlock
  cases hact : ep.active with
  | none => exact congrArg (fun a => { ep with active := a }) hact
  | some src => rfl

theorem grows_finishBlock : Grows n w A L ep ep.finishBlock where
  block_le := Nat.le_refl _
  switch_le := Nat.le_refl _
  insns _ := List.prefix_rfl
  target _ _ h := h
  jumps _ _ := rfl
  waits _ _ h := h
  held _ _ _ _ h := ⟨h.lt, h.waits, h.labels⟩
  unbound _ _ _ h := h

theorem Inv.finishBlock (h : ep.Inv) : ep.finishBlock.Inv where
  active_opened bb hbb := by cases hbb
  opened_lt := h.opened_lt
  target_lt := h.target_lt
  fresh := h.fresh
  waiting := h.waiting
  target_inj := h.target_inj

theorem grows_addGoto (dst : BlockId) : Grows n w A L ep (ep.addGoto dst) := by
  rw [addGoto_eq]
  exact (grows_addOneInsn _).trans grows_finishBlock

theorem Inv.addGoto (h : ep.Inv) (dst : BlockId) : (ep.addGoto dst).Inv := by
  rw [addGoto_eq]
  exact (h.addOneInsn _).finishBlock

theorem active_addGoto (dst : BlockId) : (ep.addGoto dst).active = none := by
  rw [addGoto_eq]
  rfl

theorem point_addGoto (dst : BlockId) : (ep.addGoto dst).point = none := by
  rw [point, active_addGoto]
  rfl

theorem insnAt_addGoto {dst : BlockId} (h : Covers (ep.addGoto dst) F) :
    ∀ x ∈ ep.point, F.insnAt x = some (.br dst) := by
  rw [addGoto_eq] at h
  exact insnAt_addOneInsn ⟨h.insns, h.target⟩

/-! ### Allocating and binding -/

theorem grows_allocBasicBlock : Grows n w A L ep ep.allocBasicBlock.1 where
  block_le := Nat.le_succ _
  switch_le := Nat.le_refl _
  insns _ := List.prefix_rfl
  target _ _ h := h
  jumps _ _ := rfl
  waits _ _ h := h
  held _ _ _ _ h := ⟨h.lt.trans (Nat.lt_succ_self _), h.waits, h.labels⟩
  unbound _ _ _ h := h

theorem Inv.allocBasicBlock (h : ep.Inv) : ep.allocBasicBlock.1.Inv where
  active_opened := h.active_opened
  opened_lt bb hbb := (h.opened_lt bb hbb).trans (Nat.lt_succ_self _)
  target_lt l bb hl := (h.target_lt l bb hl).trans (Nat.lt_succ_self _)
  fresh bb hbb := h.fresh bb ((Nat.le_succ _).trans hbb)
  waiting := h.waiting
  target_inj := h.target_inj

theorem held_allocBasicBlock (h : ep.Inv) : ep.allocBasicBlock.1.Held (fun _ => False) ep.nextBlock where
  lt := Nat.lt_succ_self _
  waits hbb := Nat.lt_irrefl _ (h.opened_lt _ hbb)
  labels l hl := Nat.lt_irrefl _ (h.target_lt l _ hl)

theorem Held.allocBasicBlock (h : ep.Held X bb) : ep.allocBasicBlock.1.Held X bb :=
  ⟨h.lt.trans (Nat.lt_succ_self _), h.waits, h.labels⟩

theorem Held.mono {Y : LabelId → Prop} (h : ep.Held X bb) (hXY : ∀ l, X l → Y l) : ep.Held Y bb :=
  ⟨h.lt, h.waits, fun l hl => hXY l (h.labels l hl)⟩

/-- Binding a label that has no block yet to a block of one's own, or to one that is open. -/
theorem grows_bindLabel {l : LabelId} (hl : ep.bbTarget l = none) (hlab : A l ∨ L l)
    (hn : n ≤ bb ∨ bb ∈ ep.bbs) (hbb : bb ∉ ep.bbs ∨ L l) : Grows n w A L ep (ep.bindLabel l bb) where
  block_le := Nat.le_refl _
  switch_le := Nat.le_refl _
  insns _ := List.prefix_rfl
  target l' b hl' := by
    unfold bindLabel
    dsimp only
    rw [Function.update_of_ne, hl']
    rintro rfl
    rw [hl] at hl'
    cases hl'
  jumps _ _ := rfl
  waits l' hL hw b hb := by
    unfold bindLabel at hb ⊢
    dsimp only at hb ⊢
    by_cases heq : l' = l
    · rw [heq, Function.update_self, Option.some.injEq] at hb
      exact hb ▸ hbb.resolve_right (heq ▸ hL)
    · rw [Function.update_of_ne heq] at hb
      exact hw b hb
  held b hb Y _ hh := by
    refine ⟨hh.lt, hh.waits, fun l' hl' => ?_⟩
    unfold bindLabel at hl'
    dsimp only at hl'
    by_cases heq : l' = l
    · rw [heq, Function.update_self, Option.some.injEq] at hl'
      subst hl'
      exact hn.elim (fun hle => absurd hb (Nat.not_lt.2 hle)) fun hmem => absurd hmem hh.waits
    · rw [Function.update_of_ne heq] at hl'
      exact hh.labels l' hl'
  unbound l' hA hL hnone := by
    unfold bindLabel
    dsimp only
    rw [Function.update_of_ne, hnone]
    rintro rfl
    exact hlab.elim hA hL

theorem Inv.bindLabel (h : ep.Inv) {l : LabelId} (hlt : bb < ep.nextBlock)
    (hheld : bb ∉ ep.bbs → ∀ l', ep.bbTarget l' = some bb → l' = l) :
    (ep.bindLabel l bb).Inv where
  active_opened := h.active_opened
  opened_lt := h.opened_lt
  target_lt l' b hb := by
    unfold Entrypoint.bindLabel at hb
    dsimp only at hb
    by_cases heq : l' = l
    · rw [heq, Function.update_self, Option.some.injEq] at hb
      exact hb ▸ hlt
    · rw [Function.update_of_ne heq] at hb
      exact h.target_lt l' b hb
  fresh := h.fresh
  waiting := h.waiting
  target_inj l₁ l₂ b hb h₁ h₂ := by
    unfold Entrypoint.bindLabel at h₁ h₂
    dsimp only at h₁ h₂
    by_cases heq₁ : l₁ = l <;> by_cases heq₂ : l₂ = l
    · rw [heq₁, heq₂]
    · rw [heq₁, Function.update_self, Option.some.injEq] at h₁
      subst h₁
      rw [Function.update_of_ne heq₂] at h₂
      exact heq₁.trans (hheld hb l₂ h₂).symm
    · rw [heq₂, Function.update_self, Option.some.injEq] at h₂
      subst h₂
      rw [Function.update_of_ne heq₁] at h₁
      exact (hheld hb l₁ h₁).trans heq₂.symm
    · rw [Function.update_of_ne heq₁] at h₁
      rw [Function.update_of_ne heq₂] at h₂
      exact h.target_inj l₁ l₂ b hb h₁ h₂

theorem bbTarget_bindLabel_ne {l l' : LabelId} (h : l' ≠ l) :
    (ep.bindLabel l bb).bbTarget l' = ep.bbTarget l' := by
  unfold bindLabel
  dsimp only
  rw [Function.update_of_ne h]

theorem bbTarget_bindLabel (l : LabelId) (bb : BlockId) :
    (ep.bindLabel l bb).bbTarget l = some bb := by
  unfold bindLabel
  dsimp only
  rw [Function.update_self]

/-- Binding a label leads to no other block. -/
theorem Held.bindLabel {b : BlockId} (h : ep.Held X b) (l : LabelId) (hne : b ≠ bb) :
    (ep.bindLabel l bb).Held X b := by
  refine ⟨h.lt, h.waits, fun l' hl' => ?_⟩
  by_cases heq : l' = l
  · rw [heq, bbTarget_bindLabel, Option.some.injEq] at hl'
    exact absurd hl'.symm hne
  · rw [bbTarget_bindLabel_ne heq] at hl'
    exact h.labels l' hl'

theorem Held.bindLabel_self (h : ep.Held (fun _ => False) bb) (l : LabelId) :
    (ep.bindLabel l bb).Held (· = l) bb := by
  refine ⟨h.lt, h.waits, fun l' hl' => ?_⟩
  by_contra heq
  rw [bbTarget_bindLabel_ne heq] at hl'
  exact h.labels l' hl'

/-- `get_bound_block`: the block of a label, made when it is first asked for. -/
theorem getBoundBlock_spec (h : ep.Inv) (hn : n ≤ ep.nextBlock) {l : LabelId} (hl : A l ∨ L l) :
    (ep.getBoundBlock l).1.Inv ∧ Grows n w A L ep (ep.getBoundBlock l).1 ∧
      (ep.getBoundBlock l).1.bbTarget l = some (ep.getBoundBlock l).2 ∧
      (ep.getBoundBlock l).2 < (ep.getBoundBlock l).1.nextBlock := by
  unfold getBoundBlock
  cases hbound : ep.bbTarget l with
  | some bb => exact ⟨h, .refl, hbound, h.target_lt l bb hbound⟩
  | none =>
    have hheld := held_allocBasicBlock h
    refine ⟨h.allocBasicBlock.bindLabel hheld.lt fun _ l' hl' => (hheld.labels l' hl').elim, ?_,
      bbTarget_bindLabel _ _, hheld.lt⟩
    exact grows_allocBasicBlock.trans
      (grows_bindLabel hbound hl (Or.inl hn) (Or.inl hheld.waits))

theorem active_getBoundBlock (l : LabelId) : (ep.getBoundBlock l).1.active = ep.active := by
  unfold getBoundBlock
  split <;> rfl

theorem Open.getBoundBlock (h : ep.Open) (l : LabelId) : (ep.getBoundBlock l).1.Open := by
  unfold Entrypoint.getBoundBlock
  split <;> exact h

theorem insns_getBoundBlock (l : LabelId) : (ep.getBoundBlock l).1.insns = ep.insns := by
  unfold getBoundBlock
  split <;> rfl

theorem point_getBoundBlock (l : LabelId) : (ep.getBoundBlock l).1.point = ep.point := by
  rw [point, active_getBoundBlock, insns_getBoundBlock]
  rfl

/-! ### Entering a block -/

/-- The block becomes active. -/
def enterBlock (ep : Entrypoint) (bb : BlockId) : Entrypoint :=
  { ep with active := some bb, bbs := ep.bbs ++ [bb] }

theorem grows_enterBlock (hheld : ep.Held X bb) (hX : ∀ l, X l → L l)
    (hn : n ≤ bb ∨ ∃ l, L l ∧ ep.bbTarget l = some bb) : Grows n w A L ep (ep.enterBlock bb) where
  block_le := Nat.le_refl _
  switch_le := Nat.le_refl _
  insns _ := List.prefix_rfl
  target _ _ h := h
  jumps _ _ := rfl
  waits l hl hw b hb hmem := by
    rcases List.mem_append.1 hmem with hmem | hmem
    · exact hw b hb hmem
    · obtain rfl := List.mem_singleton.1 hmem
      exact hl (hX l (hheld.labels l hb))
  held b hb Y hY hh := by
    refine ⟨hh.lt, fun hmem => ?_, hh.labels⟩
    rcases List.mem_append.1 hmem with hmem | hmem
    · exact hh.waits hmem
    · obtain rfl := List.mem_singleton.1 hmem
      obtain hn | ⟨l, hl, hbound⟩ := hn
      · exact absurd hb (Nat.not_lt.2 hn)
      · exact hY l (hh.labels l hbound) hl
  unbound _ _ _ h := h

theorem Inv.enterBlock (h : ep.Inv) (hheld : ep.Held X bb) : (ep.enterBlock bb).Inv where
  active_opened b hb := by
    obtain rfl := Option.some.inj hb
    exact List.mem_append_right _ (List.mem_singleton_self _)
  opened_lt b hb := by
    rcases List.mem_append.1 hb with hb | hb
    · exact h.opened_lt b hb
    · exact List.mem_singleton.1 hb ▸ hheld.lt
  target_lt := h.target_lt
  fresh := h.fresh
  waiting b hb := h.waiting b fun hmem => hb (List.mem_append_left _ hmem)
  target_inj l l' b hb := h.target_inj l l' b fun hmem => hb (List.mem_append_left _ hmem)

theorem open_of_phis {l : List LinearInsn} (h : ∀ insn ∈ l, insn = .phi) :
    l.getLast?.any LinearInsn.isTerminator = false := by
  cases hlast : l.getLast? with
  | none => rfl
  | some insn => rw [h insn (List.mem_of_getLast? hlast)]; rfl

/-- Control flows through the phi nodes that a block starts with. -/
theorem flows_phis {l : List LinearInsn} (h : ∀ insn ∈ l, insn = .phi) (hp : l <+: F.insns bb) :
    F.Flows (bb, 0) (bb, l.length) := by
  obtain ⟨t, ht⟩ := hp
  suffices hk : ∀ k ≤ l.length, F.Flows (bb, 0) (bb, k) from hk _ (Nat.le_refl _)
  intro k hk
  induction k with
  | zero => exact .refl
  | succ k ih =>
    refine (ih (Nat.le_of_succ_le hk)).tail (.phi ?_)
    rw [insnAt, ← ht, List.getElem?_append_left hk, List.getElem?_eq_getElem hk]
    exact congrArg some (h _ (List.getElem_mem _))

theorem setActiveblock_eq (bb : BlockId) : ep.setActiveblock bb =
    (if ep.bbTerminated ep.active then ep else ep.addGoto bb).enterBlock bb := rfl

theorem grows_setActiveblock (hheld : ep.Held X bb) (hX : ∀ l, X l → L l)
    (hn : n ≤ bb ∨ ∃ l, L l ∧ ep.bbTarget l = some bb) :
    Grows n w A L ep (ep.setActiveblock bb) := by
  rw [setActiveblock_eq]
  split
  · exact grows_enterBlock hheld hX hn
  · have hgoto : Grows (bb + 1) w A (fun _ => False) ep (ep.addGoto bb) := grows_addGoto bb
    have hheld' := hgoto.held bb (Nat.lt_succ_self bb) X (fun _ _ hf => hf) hheld
    refine (grows_addGoto bb).trans (grows_enterBlock hheld' hX ?_)
    exact hn.imp_right fun ⟨l, hl, hbound⟩ => ⟨l, hl, hgoto.target l bb hbound⟩

theorem Inv.setActiveblock (h : ep.Inv) (hheld : ep.Held X bb) : (ep.setActiveblock bb).Inv := by
  rw [setActiveblock_eq]
  split
  · exact h.enterBlock hheld
  · have hgoto : Grows (bb + 1) 0 (fun _ => False) (fun _ => False) ep (ep.addGoto bb) :=
      grows_addGoto bb
    exact (h.addGoto bb).enterBlock (hgoto.held bb (Nat.lt_succ_self bb) X (fun _ _ hf => hf) hheld)

theorem insns_setActiveblock (h : ep.Inv) (hbb : bb ∉ ep.bbs) :
    (ep.setActiveblock bb).insns bb = ep.insns bb := by
  rw [setActiveblock_eq]
  split
  · rfl
  · rw [addGoto_eq]
    unfold enterBlock finishBlock addOneInsn
    cases hact : ep.active with
    | none => rfl
    | some src =>
      have hne : bb ≠ src := by
        rintro rfl
        exact hbb (h.active_opened bb hact)
      dsimp only
      rw [addInstruction]
      dsimp only
      rw [Function.update_of_ne hne]

theorem point_setActiveblock (h : ep.Inv) (hbb : bb ∉ ep.bbs) :
    (ep.setActiveblock bb).point = some (bb, (ep.insns bb).length) := by
  rw [point, show (ep.setActiveblock bb).active = some bb from rfl, Option.map_some,
    insns_setActiveblock h hbb]

theorem open_setActiveblock (h : ep.Inv) (hbb : bb ∉ ep.bbs) : (ep.setActiveblock bb).Open := by
  rw [Open, show (ep.setActiveblock bb).active = some bb from rfl, bbTerminated,
    insns_setActiveblock h hbb]
  exact open_of_phis (h.waiting bb hbb)

/-- From the start of the block control flows to the point where its code goes on. -/
theorem flows_setActiveblock (h : ep.Inv) (hbb : bb ∉ ep.bbs)
    (hF : Covers (ep.setActiveblock bb) F) : F.Flows (bb, 0) (bb, (ep.insns bb).length) := by
  have hp := hF.insns bb
  rw [insns_setActiveblock h hbb] at hp
  exact flows_phis (h.waiting bb hbb) hp

/-- Control that arrives at the end of an open block flows on. -/
theorem flows_of_open (h : ep.Inv) (hopen : ep.Open) (hbb : bb ∉ ep.bbs)
    (hF : Covers (ep.setActiveblock bb) F) :
    ∀ x ∈ ep.point, F.Flows x (bb, (ep.insns bb).length) := by
  intro x hx
  have hflow := flows_setActiveblock h hbb hF
  rw [setActiveblock_eq, hopen, if_neg Bool.false_ne_true] at hF
  have hF' : Covers (ep.addGoto bb) F := ⟨hF.insns, hF.target⟩
  exact .trans (.single (.br (insnAt_addGoto hF' x hx))) hflow

/-- `set_activeblock` on a block that waits. -/
theorem setActiveblock_spec (h : ep.Inv) (hheld : ep.Held X bb) (hX : ∀ l, X l → L l)
    (hn : n ≤ bb) : (ep.setActiveblock bb).Inv ∧ (ep.setActiveblock bb).Open ∧
      Grows n w A L ep (ep.setActiveblock bb) ∧ ∃ y, (ep.setActiveblock bb).point = some y ∧
        ∀ F, Covers (ep.setActiveblock bb) F → F.Flows (bb, 0) y ∧
          (ep.Open → ∀ x ∈ ep.point, F.Flows x y) :=
  ⟨h.setActiveblock hheld, open_setActiveblock h hheld.waits,
    grows_setActiveblock hheld hX (Or.inl hn), _, point_setActiveblock h hheld.waits, fun _ hF =>
      ⟨flows_setActiveblock h hheld.waits hF, fun hopen => flows_of_open h hopen hheld.waits hF⟩⟩

/-- Another block that waits goes on waiting. -/
theorem Held.setActiveblock {b : BlockId} (hheld : ep.Held X b) (hne : b ≠ bb) :
    (ep.setActiveblock bb).Held X b := by
  have henter (ep : Entrypoint) (hheld : ep.Held X b) : (ep.enterBlock bb).Held X b := by
    refine ⟨hheld.lt, fun hmem => ?_, hheld.labels⟩
    rcases List.mem_append.1 hmem with hmem | hmem
    · exact hheld.waits hmem
    · exact hne (List.mem_singleton.1 hmem)
  rw [setActiveblock_eq]
  split
  · exact henter ep hheld
  · exact henter _ ((grows_addGoto (n := b + 1) (w := 0) (A := X) (L := fun _ => False) bb).held b
      (Nat.lt_succ_self b) X (fun _ _ hf => hf) hheld)

/-! ### Labels and branches -/

/-- Binding a label to the active block. -/
theorem bindLabel_active_spec (h : ep.Inv) (hact : ep.active = some bb) {l : LabelId}
    (hnone : ep.bbTarget l = none) (hl : L l) : (ep.bindLabel l bb).Inv ∧
      Grows n w A L ep (ep.bindLabel l bb) ∧ (ep.bindLabel l bb).bbTarget l = some bb := by
  have hbb := h.active_opened bb hact
  exact ⟨h.bindLabel (h.opened_lt bb hbb) fun hn => absurd hbb hn,
    grows_bindLabel hnone (Or.inr hl) (Or.inr hbb) (Or.inr hl), bbTarget_bindLabel l bb⟩

/-- A label without a block gets a new one, unless the active block is empty. -/
theorem addLabel_fresh_spec (h : ep.Inv) (hopen : ep.Open) {l : LabelId}
    (hnone : ep.bbTarget l = none) (hl : L l) (hn : n ≤ ep.nextBlock) {ep' : Entrypoint}
    (hep : ep' = (ep.allocBasicBlock.1.setActiveblock ep.nextBlock).bindLabel l ep.nextBlock) :
    ep'.Inv ∧ ep'.Open ∧ Grows n w A L ep ep' ∧
      ∃ y, ep'.point = some y ∧ ∀ F, Covers ep' F → F.LabelAt l ep.point y := by
  have halloc := h.allocBasicBlock
  have hheld := held_allocBasicBlock h
  have hset : Grows n w A L ep.allocBasicBlock.1 (ep.allocBasicBlock.1.setActiveblock ep.nextBlock) :=
    grows_setActiveblock hheld (fun _ hf => hf.elim) (Or.inl hn)
  have hnone' : (ep.allocBasicBlock.1.setActiveblock ep.nextBlock).bbTarget l = none := by
    have := (grows_setActiveblock (n := 0) (w := 0) (A := fun _ => False) (L := fun _ => False)
      hheld (fun _ hf => hf) (Or.inl (Nat.zero_le _))).unbound l not_false not_false hnone
    exact this
  obtain ⟨hinv, hgrows, hbound⟩ := bindLabel_active_spec (n := n) (w := w) (A := A) (L := L)
    (halloc.setActiveblock hheld) rfl hnone' hl
  subst hep
  refine ⟨hinv, open_setActiveblock halloc hheld.waits, (grows_allocBasicBlock.trans hset).trans
    hgrows, _, point_setActiveblock halloc hheld.waits, fun F hF => ?_⟩
  have hF' : Covers (ep.allocBasicBlock.1.setActiveblock ep.nextBlock) F :=
    hF.of_grows hgrows
  have hflow : ∀ x ∈ ep.point, F.Flows x _ :=
    @flows_of_open ep.allocBasicBlock.1 F _ halloc hopen hheld.waits hF'
  exact ⟨hflow, ep.nextBlock, hF.target l _ hbound,
    flows_setActiveblock halloc hheld.waits hF'⟩

/-- `add_label`: the label has a block now, which the next instruction goes to. -/
theorem addLabel_spec (h : ep.Inv) (hopen : ep.Open) {l : LabelId} (hw : ep.Waits l) (hl : L l)
    (hn : n ≤ ep.nextBlock) :
    (ep.addLabel l).Inv ∧ (ep.addLabel l).Open ∧ Grows n w A L ep (ep.addLabel l) ∧
      ∃ y, (ep.addLabel l).point = some y ∧
        ∀ F, Covers (ep.addLabel l) F → F.LabelAt l ep.point y := by
  unfold addLabel
  split
  · rename_i bb hbound
    have hheld : ep.Held (· = l) bb :=
      ⟨h.target_lt l bb hbound, hw bb hbound,
        fun l' hl' => h.target_inj l' l bb (hw bb hbound) hl' hbound⟩
    have hgrows : Grows n w A L ep (ep.setActiveblock bb) :=
      grows_setActiveblock hheld (fun _ heq => heq ▸ hl) (Or.inr ⟨l, hl, hbound⟩)
    refine ⟨h.setActiveblock hheld, open_setActiveblock h hheld.waits, hgrows, _,
      point_setActiveblock h hheld.waits, fun F hF => ⟨flows_of_open h hopen hheld.waits hF,
        bb, ?_, flows_setActiveblock h hheld.waits hF⟩⟩
    exact hF.target l bb (grows_setActiveblock (n := 0) (w := 0) (A := A) hheld
      (fun _ heq => heq) (Or.inl (Nat.zero_le _)) |>.target l bb hbound)
  · rename_i bb hnone hact
    split
    · rename_i hempty
      obtain ⟨hinv, hgrows, hbound⟩ :=
        bindLabel_active_spec (n := n) (w := w) (A := A) (L := L) h hact hnone hl
      have hpoint : ep.point = some (bb, 0) := by rw [point, hact, Option.map_some, hempty]; rfl
      refine ⟨hinv, hopen, hgrows, _, hpoint, fun F hF => ⟨?_, bb, hF.target l bb hbound, .refl⟩⟩
      intro x hx
      rw [hpoint] at hx
      exact Option.some.inj hx ▸ .refl
    · exact addLabel_fresh_spec h hopen hnone hl hn rfl
  · exact addLabel_fresh_spec h hopen ‹_› hl hn rfl

theorem grows_linearizeExpression (e : ExprId) : Grows n w A L ep (ep.linearizeExpression e) :=
  grows_addOneInsn _

/-- `linearize_cond_branch` made a test of the condition, and the block has ended. -/
structure CondSpec (n w : ℕ) (A L : LabelId → Prop) (c : Condition) (bbTrue bbFalse : BlockId)
    (ep ep' : Entrypoint) : Prop where
  inv : ep'.Inv
  closed : ep'.Closed
  grows : Grows n w A L ep ep'
  tests : ∀ F, Covers ep' F → ∀ x ∈ ep.point, F.Tests c x bbTrue bbFalse

theorem CondSpec.of_none {c : Condition} {bbTrue bbFalse : BlockId} (h : ep.Inv)
    (hact : ep.active = none) : CondSpec n w A L c bbTrue bbFalse ep ep := by
  refine ⟨h, closed_of_none hact, .refl, fun F _ x hx => ?_⟩
  rw [point, hact] at hx
  cases hx

/-- `linearize_logical_branch`: two tests, with a block of its own for the second. -/
theorem logicalBranch_spec {left right : Condition} {t f t' f' : BlockId} {ep₁ ep₂ : Entrypoint}
    (h : ep.Inv) (hn : n ≤ ep.nextBlock)
    (hleft : CondSpec (ep.nextBlock + 1) w A L left t f ep.allocBasicBlock.1 ep₁)
    (hright : (ep₁.setActiveblock ep.nextBlock).Inv → (ep₁.setActiveblock ep.nextBlock).Open →
      n ≤ (ep₁.setActiveblock ep.nextBlock).nextBlock →
      CondSpec n w A L right t' f' (ep₁.setActiveblock ep.nextBlock) ep₂) :
    ep₂.Inv ∧ ep₂.Closed ∧ Grows n w A L ep ep₂ ∧ ∀ F, Covers ep₂ F →
      (∀ x ∈ ep.point, F.Tests left x t f) ∧
        ∃ y, F.Flows (ep.nextBlock, 0) y ∧ F.Tests right y t' f' := by
  have hheld : ep₁.Held (fun _ => False) ep.nextBlock :=
    hleft.grows.held _ (Nat.lt_succ_self _) _ (fun _ hf => hf.elim) (held_allocBasicBlock h)
  have hset : Grows n w A L ep₁ (ep₁.setActiveblock ep.nextBlock) :=
    grows_setActiveblock hheld (fun _ hf => hf.elim) (Or.inl hn)
  have hgrows₁ : Grows n w A L ep ep₁ := grows_allocBasicBlock.trans
    (hleft.grows.mono (hn.trans (Nat.le_succ _)) (Nat.le_refl _) (fun _ hl => hl)
      fun _ hl => Or.inl hl)
  have hr := hright (hleft.inv.setActiveblock hheld) (open_setActiveblock hleft.inv hheld.waits)
    (hn.trans (hgrows₁.trans hset).block_le)
  refine ⟨hr.inv, hr.closed, (hgrows₁.trans hset).trans hr.grows, fun F hF =>
    ⟨?_, (ep.nextBlock, (ep₁.insns ep.nextBlock).length), ?_, ?_⟩⟩
  · exact hleft.tests F ((hF.of_grows hr.grows).of_grows hset)
  · exact flows_setActiveblock hleft.inv hheld.waits (hF.of_grows hr.grows)
  · exact hr.tests F hF _ (point_setActiveblock hleft.inv hheld.waits)

theorem linearizeCondBranch_spec (c : Condition) (h : ep.Inv) (hopen : ep.Open)
    (hn : n ≤ ep.nextBlock) (bbTrue bbFalse : BlockId) :
    CondSpec n w A L c bbTrue bbFalse ep (ep.linearizeCondBranch c bbTrue bbFalse) := by
  induction c generalizing ep n bbTrue bbFalse with
  | value truth =>
    unfold linearizeCondBranch
    split
    · exact .of_none h ‹_›
    · exact ⟨h.addGoto _, closed_of_none (active_addGoto _), grows_addGoto _,
        fun F hF => insnAt_addGoto hF⟩
  | logicalAnd left right ihl ihr =>
    unfold linearizeCondBranch
    split
    · exact .of_none h ‹_›
    · have hopen' : ep.allocBasicBlock.1.Open := hopen
      obtain ⟨hinv, hclosed, hgrows, htests⟩ := logicalBranch_spec h hn
        (ihl h.allocBasicBlock hopen' (Nat.le_refl _) ep.nextBlock bbFalse)
        fun hi ho hn' => ihr hi ho hn' bbTrue bbFalse
      refine ⟨hinv, hclosed, hgrows, fun F hF x hx => ?_⟩
      obtain ⟨hleft, y, hflow, hright⟩ := htests F hF
      exact ⟨ep.nextBlock, y, hleft x hx, hflow, hright⟩
  | logicalOr left right ihl ihr =>
    unfold linearizeCondBranch
    split
    · exact .of_none h ‹_›
    · have hopen' : ep.allocBasicBlock.1.Open := hopen
      obtain ⟨hinv, hclosed, hgrows, htests⟩ := logicalBranch_spec h hn
        (ihl h.allocBasicBlock hopen' (Nat.le_refl _) bbTrue ep.nextBlock)
        fun hi ho hn' => ihr hi ho hn' bbTrue bbFalse
      refine ⟨hinv, hclosed, hgrows, fun F hF x hx => ?_⟩
      obtain ⟨hleft, y, hflow, hright⟩ := htests F hF
      exact ⟨ep.nextBlock, y, hleft x hx, hflow, hright⟩
  | not unop ih =>
    unfold linearizeCondBranch
    split
    · exact .of_none h ‹_›
    · have hspec := ih (n := n) h hopen hn bbFalse bbTrue
      exact ⟨hspec.inv, hspec.closed, hspec.grows, hspec.tests⟩
  | compare e | other e =>
    unfold linearizeCondBranch
    split
    · exact .of_none h ‹_›
    · refine ⟨(h.addOneInsn _).addOneInsn _, closed_addOneInsn rfl,
        (grows_addOneInsn _).trans (grows_addOneInsn _), fun F hF x hx => ⟨?_, ?_⟩⟩
      · exact insnAt_addOneInsn
          (hF.of_grows (grows_addOneInsn (n := 0) (w := 0) (A := A) (L := L) _)) x hx
      · refine insnAt_addOneInsn hF _ ?_
        rw [linearizeExpression, point_addOneInsn, show ep.point = some x from hx]
        rfl

end Operations

end Entrypoint

end Sparse
