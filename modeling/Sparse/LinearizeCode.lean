import Sparse.LinearizeGrowth

/-!
# The code of a statement

What `linearize_statement` appends is the code of the statement, between the points where the
builder was and where it is then.
-/

namespace Sparse

open Entrypoint

/-- Where statements with these labels and exits can be linearized. -/
structure Ready (labels exits : List LabelId) (ep : Entrypoint) : Prop where
  inv : ep.Inv
  opened : ep.Open
  waits : ∀ l ∈ labels, ep.Waits l
  unbound : ∀ l ∈ exits, ep.bbTarget l = none

/-- The code between two states of the builder. -/
structure Emitted (A L : LabelId → Prop) (code : Entrypoint → Option Point → Option Point → Prop)
    (ep ep' : Entrypoint) : Prop where
  inv : ep'.Inv
  opened : ep'.Open
  grows : Grows ep.nextBlock ep.nextSwitch A L ep ep'
  code : ∀ F, Covers ep' F → Completes ep.nextSwitch ep' F → code F ep.point ep'.point

/-- Jumps, labels and exits are in order. -/
structure Statement.Sound (A : LabelId → Prop) (s : Statement) : Prop where
  distinct : s.Distinct
  jumps : s.Scoped A
  labels : ∀ l ∈ s.labels, A l
  exits : ∀ l ∈ s.exits, ¬ A l

structure Statements.Sound (A : LabelId → Prop) (ss : Statements) : Prop where
  distinct : ss.Distinct
  jumps : ss.Scoped A
  labels : ∀ l ∈ ss.labels, A l
  exits : ∀ l ∈ ss.exits, ¬ A l

/-- The names of the labels and exits of a statement. -/
def Statement.Names (s : Statement) (l : LabelId) : Prop := l ∈ s.labels ++ s.exits

def Statements.Names (ss : Statements) (l : LabelId) : Prop := l ∈ ss.labels ++ ss.exits

/-- The code of a statement is made wherever the statement may stand. -/
def Statement.Linearizes (s : Statement) : Prop := ∀ A ep, s.Sound A → Ready s.labels s.exits ep →
  Emitted A s.Names (fun F => s.CodeAt F) ep (ep.linearizeStatement s)

def Statements.Linearizes (ss : Statements) : Prop := ∀ A ep, ss.Sound A →
  Ready ss.labels ss.exits ep →
    Emitted A ss.Names (fun F => ss.CodeAt F) ep (ep.linearizeStatements ss)

section

variable {A L : LabelId → Prop} {ep ep' : Entrypoint} {n w : ℕ} {labels exits : List LabelId}

/-- Code elsewhere leaves a statement as it was to be linearized. -/
theorem Ready.of_grows (h : Ready labels exits ep) (hg : Grows n w A L ep ep') (hinv : ep'.Inv)
    (hopen : ep'.Open) (hlabels : ∀ l ∈ labels, ¬ L l) (hexits : ∀ l ∈ exits, ¬ A l ∧ ¬ L l) :
    Ready labels exits ep' where
  inv := hinv
  opened := hopen
  waits l hl := hg.waits l (hlabels l hl) (h.waits l hl)
  unbound l hl := hg.unbound l (hexits l hl).1 (hexits l hl).2 (h.unbound l hl)

theorem Ready.mono {labels' exits' : List LabelId} (h : Ready labels exits ep)
    (hlabels : labels' ⊆ labels) (hexits : exits' ⊆ exits) : Ready labels' exits' ep :=
  ⟨h.inv, h.opened, fun l hl => h.waits l (hlabels hl), fun l hl => h.unbound l (hexits hl)⟩

theorem linearizes_none : Statement.none.Linearizes := fun _ _ _ h =>
  ⟨h.inv, h.opened, .refl, fun _ _ _ => rfl⟩

theorem linearizes_expression (e : ExprId) : (Statement.expression e).Linearizes := by
  intro A ep _ h
  refine ⟨h.inv.addOneInsn _, open_addOneInsn rfl, grows_addOneInsn _, fun F hF _ => ⟨?_, ?_⟩⟩
  · exact point_addOneInsn _
  · exact insnAt_addOneInsn hF

theorem linearizes_goto (l : LabelId) : (Statement.goto l).Linearizes := by
  intro A ep hs h
  have hA : A l := hs.jumps
  unfold linearizeStatement
  split
  · rename_i hact
    have hpoint : ep.point = none := by rw [point, hact]; rfl
    refine ⟨h.inv, h.opened, .refl, fun F _ _ => ⟨hpoint, fun x hx => ?_⟩⟩
    rw [hpoint] at hx
    cases hx
  · obtain ⟨hinv, hgrows, hbound, -⟩ := getBoundBlock_spec (n := ep.nextBlock) (w := ep.nextSwitch)
      (A := A) (L := (Statement.goto l).Names) h.inv (Nat.le_refl _) (Or.inl hA)
    have hgoto : Grows ep.nextBlock ep.nextSwitch A (Statement.goto l).Names (ep.getBoundBlock l).1
        ((ep.getBoundBlock l).1.addGoto (ep.getBoundBlock l).2) := grows_addGoto _
    refine ⟨hinv.addGoto _, open_of_none (active_addGoto _), hgrows.trans hgoto, fun F hF _ =>
      ⟨point_addGoto _, fun x hx => ⟨_, insnAt_addGoto hF x ?_,
        (hF.of_grows hgoto).target l _ hbound⟩⟩⟩
    rwa [point_getBoundBlock]

/-- A label and the statement after it. -/
theorem emitted_label {l : LabelId} {s : Statement} (hs : s.Linearizes) (hsound : s.Sound A)
    (h : Ready (l :: s.labels) s.exits ep) (hl : ¬ s.Names l) (hL : L l)
    (hnames : ∀ l, s.Names l → L l) :
    Emitted A L (fun F p q => ∃ y, F.LabelAt l p y ∧ s.CodeAt F (some y) q) ep
      ((ep.addLabel l).linearizeStatement s) := by
  obtain ⟨hinv, hopen, hgrows, y, hpoint, hlabel⟩ := addLabel_spec (n := ep.nextBlock)
    (w := ep.nextSwitch) (A := A) (L := (· = l)) h.inv h.opened
    (h.waits l (List.mem_cons_self ..)) rfl (Nat.le_refl _)
  have hready : Ready s.labels s.exits (ep.addLabel l) := by
    refine Ready.of_grows (h.mono (List.subset_cons_self _ _) (fun _ h => h)) hgrows hinv hopen
      (fun l' hl' heq => hl ?_) fun l' hl' => ⟨hsound.exits l' hl', fun heq => hl ?_⟩
    · exact List.mem_append_left _ (heq ▸ hl')
    · exact List.mem_append_right _ (heq ▸ hl')
  have hbody := hs A (ep.addLabel l) hsound hready
  refine ⟨hbody.inv, hbody.opened, ?_, fun F hF hC => ⟨y, hlabel F (hF.of_grows hbody.grows), ?_⟩⟩
  · exact (hgrows.mono (Nat.le_refl _) (Nat.le_refl _) (fun _ heq => heq ▸ hL)
      fun _ hA => Or.inl hA).trans (hbody.grows.mono hgrows.block_le hgrows.switch_le hnames
        fun _ hA => Or.inl hA)
  · rw [← hpoint]
    exact hbody.code F hF (hC.mono hgrows.switch_le)

theorem linearizes_case {l : LabelId} {s : Statement} (hs : s.Linearizes) :
    (Statement.case l s).Linearizes := by
  intro A ep hsound h
  have hd := List.nodup_cons.1 hsound.distinct
  exact emitted_label hs ⟨hd.2, hsound.jumps, fun l' hl' => hsound.labels l'
    (List.mem_cons_of_mem _ hl'), hsound.exits⟩ h hd.1 (List.mem_cons_self ..)
    fun l' hl' => List.mem_cons_of_mem _ hl'

theorem linearizes_label {l : LabelId} {used : Bool} {s : Statement} (hs : s.Linearizes) :
    (Statement.label l used s).Linearizes := by
  intro A ep hsound h
  cases used with
  | false => exact ⟨h.inv, h.opened, .refl, fun _ _ _ => rfl⟩
  | true =>
    have hd := List.nodup_cons.1 hsound.distinct
    exact emitted_label hs ⟨hd.2, hsound.jumps, fun l' hl' => hsound.labels l'
      (List.mem_cons_of_mem _ hl'), hsound.exits⟩ h hd.1 (List.mem_cons_self ..)
      fun l' hl' => List.mem_cons_of_mem _ hl'

theorem linearizes_nil : Statements.nil.Linearizes := fun _ _ _ h =>
  ⟨h.inv, h.opened, .refl, fun _ _ _ => rfl⟩

theorem linearizes_cons {s : Statement} {ss : Statements} (hs : s.Linearizes)
    (hss : ss.Linearizes) : (Statements.cons s ss).Linearizes := by
  intro A ep hsound h
  have hd := hsound.distinct
  have hlabels := hsound.labels
  have hexits := hsound.exits
  simp only [Statements.Distinct, Statements.labels, Statements.exits, List.nodup_append,
    List.mem_append] at hd hlabels hexits
  have hsound₁ : s.Sound A := by
    refine ⟨?_, hsound.jumps.1, fun l hl => hlabels l (Or.inl hl), fun l hl => hexits l (Or.inl hl)⟩
    simp only [Statement.Distinct, List.nodup_append]
    grind
  have hsound₂ : ss.Sound A := by
    refine ⟨?_, hsound.jumps.2, fun l hl => hlabels l (Or.inr hl), fun l hl => hexits l (Or.inr hl)⟩
    simp only [Statements.Distinct, List.nodup_append]
    grind
  have hfirst := hs A ep hsound₁ (h.mono (List.subset_append_left _ _) (List.subset_append_left _ _))
  have hready : Ready ss.labels ss.exits (ep.linearizeStatement s) := by
    refine Ready.of_grows (h.mono (List.subset_append_right _ _) (List.subset_append_right _ _))
      hfirst.grows hfirst.inv hfirst.opened (fun l hl hl' => ?_)
      fun l hl => ⟨hsound₂.exits l hl, fun hl' => ?_⟩
    all_goals
      simp only [Statement.Names, List.mem_append] at hl'
      grind
  have hrest := hss A _ hsound₂ hready
  refine ⟨hrest.inv, hrest.opened, ?_, fun F hF hC => ⟨_, hfirst.code F (hF.of_grows hrest.grows) ?_,
    hrest.code F hF (hC.mono hfirst.grows.switch_le)⟩⟩
  · refine (hfirst.grows.mono (Nat.le_refl _) (Nat.le_refl _) (fun l hl => ?_)
      fun _ hA => Or.inl hA).trans (hrest.grows.mono hfirst.grows.block_le hfirst.grows.switch_le
        (fun l hl => ?_) fun _ hA => Or.inl hA)
    all_goals
      simp only [Statement.Names, Statements.Names, Statements.labels, Statements.exits,
        List.mem_append] at hl ⊢
      grind
  · exact hC.of_grows hrest.grows (Nat.le_refl _)

theorem linearizes_compound {ss : Statements} {ret : Option LabelId} (hss : ss.Linearizes) :
    (Statement.compound ss ret).Linearizes := by
  intro A ep hsound h
  have hd := hsound.distinct
  simp only [Statement.Distinct, Statement.labels, Statement.exits] at hd
  have hsound' : ss.Sound A := by
    refine ⟨?_, hsound.jumps, fun l hl => hsound.labels l (List.mem_append_left _ hl), hsound.exits⟩
    unfold Statements.Distinct
    grind
  have hbody := hss A ep hsound' (h.mono (List.subset_append_left _ _) (fun _ hl => hl))
  have hnames : ∀ l, ss.Names l → (Statement.compound ss ret).Names l := by
    intro l hl
    simp only [Statements.Names, Statement.Names, Statement.labels, Statement.exits,
      List.mem_append] at hl ⊢
    grind
  have hgrows := hbody.grows.mono (Nat.le_refl _) (Nat.le_refl _) hnames fun _ hA => Or.inl hA
  cases ret with
  | none => exact ⟨hbody.inv, hbody.opened, hgrows, fun F hF hC => ⟨_, hbody.code F hF hC, rfl⟩⟩
  | some l =>
    have hl : l ∉ ss.labels ++ ss.exits := by grind
    have hret : (Statement.compound ss (some l)).Names l := by
      simp [Statement.Names, Statement.labels]
    have hwaits := hbody.grows.waits l hl (h.waits l (by simp [Statement.labels]))
    obtain ⟨hinv, hopen, hlabel, y, hpoint, hat⟩ := addLabel_spec (n := ep.nextBlock)
      (w := (ep.linearizeStatements ss).nextSwitch) (A := A) hbody.inv hbody.opened hwaits hret
      hbody.grows.block_le
    refine ⟨hinv, hopen, hgrows.trans (hlabel.mono (Nat.le_refl _) hbody.grows.switch_le
      (fun _ hl => hl) fun _ hA => Or.inl hA), fun F hF hC => ⟨_, hbody.code F (hF.of_grows hlabel)
        (hC.of_grows hlabel (Nat.le_refl _)), y, hat F hF, hpoint⟩⟩

/-- The phi node and the phi source of a returned value. -/
def returnValue (ep : Entrypoint) (bbReturn : BlockId) (hasValue : Bool) : Entrypoint :=
  match ep.active with
  | some active =>
    if hasValue then
      (if ep.insns bbReturn = [] then ep.addInstruction bbReturn .phi else ep).addInstruction active
        .phisource
    else ep
  | none => ep

theorem returnValue_spec (hinv : ep.Inv) (hopen : ep.Open) {bbReturn : BlockId}
    (hlt : bbReturn < ep.nextBlock) (hasValue : Bool) :
    (returnValue ep bbReturn hasValue).Inv ∧ (returnValue ep bbReturn hasValue).Open ∧
      Grows n w A L ep (returnValue ep bbReturn hasValue) ∧ ∀ x ∈ ep.point,
        ∃ y ∈ (returnValue ep bbReturn hasValue).point,
          ∀ F, Covers (returnValue ep bbReturn hasValue) F → F.Flows x y := by
  unfold returnValue
  cases hact : ep.active with
  | none => exact ⟨hinv, hopen, .refl, fun x hx => ⟨x, hx, fun _ _ => .refl⟩⟩
  | some active =>
    have hactive := hinv.active_opened active hact
    cases hasValue with
    | false => exact ⟨hinv, hopen, .refl, fun x hx => ⟨x, hx, fun _ _ => .refl⟩⟩
    | true =>
      have hsource (ep : Entrypoint) (hinv : ep.Inv) (hopen : ep.Open) (hmem : active ∈ ep.bbs) :
          (ep.addInstruction active .phisource).Inv ∧ (ep.addInstruction active .phisource).Open ∧
            Grows n w A L ep (ep.addInstruction active .phisource) :=
        ⟨hinv.addInstruction (hinv.opened_lt _ hmem) (Or.inl hmem), hopen.addInstruction rfl,
          grows_addInstruction _ _⟩
      dsimp only
      rw [if_pos rfl]
      split
      · obtain ⟨hi, ho, hg⟩ := hsource _ (hinv.addInstruction hlt (Or.inr rfl))
          (hopen.addInstruction rfl) hactive
        refine ⟨hi, ho, (grows_addInstruction _ _).trans hg, fun x hx => ?_⟩
        obtain ⟨y, hy, hxy⟩ := flows_addInstruction bbReturn (Or.inl rfl) hx
        obtain ⟨z, hz, hyz⟩ := flows_addInstruction active (Or.inr rfl) hy
        exact ⟨z, hz, fun F hF => (hxy F (hF.of_grows hg)).trans (hyz F hF)⟩
      · obtain ⟨hi, ho, hg⟩ := hsource ep hinv hopen hactive
        refine ⟨hi, ho, hg, fun x hx => ?_⟩
        obtain ⟨y, hy, hxy⟩ := flows_addInstruction active (Or.inr rfl) hx
        exact ⟨y, hy, hxy⟩

theorem linearizeReturn_eq (expr : Option ExprId) (isVoid : Bool) (l : LabelId) :
    ep.linearizeReturn expr isVoid l =
      (returnValue (expr.elim (ep.getBoundBlock l).1 (ep.getBoundBlock l).1.linearizeExpression)
        (ep.getBoundBlock l).2 (expr.isSome && !isVoid)).addGoto (ep.getBoundBlock l).2 := by
  cases expr <;> rfl

theorem linearizes_ret (expr : Option ExprId) (isVoid : Bool) (l : LabelId) :
    (Statement.ret expr isVoid l).Linearizes := by
  intro A ep hsound h
  have hA : A l := hsound.jumps
  unfold linearizeStatement
  rw [linearizeReturn_eq]
  obtain ⟨hinv₁, hgrows₁, hbound, hlt⟩ := getBoundBlock_spec (n := ep.nextBlock)
    (w := ep.nextSwitch) (A := A) (L := (Statement.ret expr isVoid l).Names) h.inv (Nat.le_refl _)
    (Or.inl hA)
  have hopen₁ := h.opened.getBoundBlock l
  have hpoint₁ : (ep.getBoundBlock l).1.point = ep.point := point_getBoundBlock l
  generalize (ep.getBoundBlock l).1 = ep₁ at *
  generalize (ep.getBoundBlock l).2 = bbReturn at *
  have hvalue (ep₂ : Entrypoint) (hinv₂ : ep₂.Inv) (hopen₂ : ep₂.Open)
      (hgrows₂ : Grows ep.nextBlock ep.nextSwitch A (Statement.ret expr isVoid l).Names ep₁ ep₂)
      (heval : ∀ F, Covers ep₂ F → ∀ x ∈ ep.point, ∃ y ∈ ep₂.point,
        F.Evaluates expr x y) (hasValue : Bool) :
      Emitted A (Statement.ret expr isVoid l).Names
        (fun F => (Statement.ret expr isVoid l).CodeAt F) ep
        ((returnValue ep₂ bbReturn hasValue).addGoto bbReturn) := by
    obtain ⟨hinv₃, hopen₃, hgrows₃, hflow⟩ := returnValue_spec (n := ep.nextBlock)
      (w := ep.nextSwitch) (A := A) (L := (Statement.ret expr isVoid l).Names) hinv₂ hopen₂
      (hlt.trans_le hgrows₂.block_le) hasValue
    generalize returnValue ep₂ bbReturn hasValue = ep₃ at *
    have hgoto : Grows ep.nextBlock ep.nextSwitch A (Statement.ret expr isVoid l).Names ep₃
        (ep₃.addGoto bbReturn) := grows_addGoto _
    refine ⟨hinv₃.addGoto _, open_of_none (active_addGoto _),
      hgrows₁.trans (hgrows₂.trans (hgrows₃.trans hgoto)), fun F hF _ =>
        ⟨point_addGoto _, fun x hx => ?_⟩⟩
    have hF₃ := hF.of_grows hgoto
    have hF₂ := hF₃.of_grows hgrows₃
    obtain ⟨y, hy, heval⟩ := heval F hF₂ x hx
    obtain ⟨z, hz, hyz⟩ := hflow y hy
    exact ⟨y, z, bbReturn, heval, hyz F hF₃, insnAt_addGoto hF z hz,
      (hF₂.of_grows hgrows₂).target l _ hbound⟩
  cases expr with
  | none =>
    refine hvalue ep₁ hinv₁ hopen₁ .refl (fun F _ x hx => ⟨x, ?_, rfl⟩) _
    rwa [hpoint₁]
  | some e =>
    refine hvalue (ep₁.linearizeExpression e) (hinv₁.addOneInsn _) (open_addOneInsn rfl)
      (grows_addOneInsn _) (fun F hF x hx => ⟨(x.1, x.2 + 1), ?_, ?_, rfl⟩) _
    · rw [linearizeExpression, point_addOneInsn, hpoint₁, show ep.point = some x from hx]
      rfl
    · exact insnAt_addOneInsn hF x (hpoint₁ ▸ hx)

/-- A statement in a block of its own. -/
structure EmittedIn (n w : ℕ) (A L : LabelId → Prop) (s : Statement) (bb : BlockId)
    (ep ep' : Entrypoint) : Prop where
  inv : ep'.Inv
  opened : ep'.Open
  grows : Grows n w A L ep ep'
  held : ∀ X b, b ≠ bb → (∀ l, X l → ¬ s.Names l) → ep.Held X b → ep'.Held X b
  code : ∀ F, Covers ep' F → Completes w ep' F → ∃ y, F.Flows (bb, 0) y ∧
    (ep.Open → ∀ x ∈ ep.point, F.Flows x y) ∧ s.CodeAt F (some y) ep'.point

theorem emitted_in {X : LabelId → Prop} {s : Statement} {bb : BlockId} (hs : s.Linearizes)
    (hsound : s.Sound A) (hinv : ep.Inv) (hheld : ep.Held X bb) (hXL : ∀ l, X l → L l)
    (hX : ∀ l, X l → ¬ s.Names l) (hn : n ≤ bb) (hw : w ≤ ep.nextSwitch)
    (hwaits : ∀ l ∈ s.labels, ep.Waits l) (hunbound : ∀ l ∈ s.exits, ep.bbTarget l = none)
    (hnames : ∀ l, s.Names l → L l) :
    EmittedIn n w A L s bb ep ((ep.setActiveblock bb).linearizeStatement s) := by
  obtain ⟨hinv', hopen', hset, y, hpoint, hflow⟩ := setActiveblock_spec (n := n)
    (w := ep.nextSwitch) (A := fun _ => False) (L := X) hinv hheld (fun _ hl => hl) hn
  have hready : Ready s.labels s.exits (ep.setActiveblock bb) := by
    refine ⟨hinv', hopen', fun l hl => hset.waits l (fun hl' => hX l hl' ?_) (hwaits l hl),
      fun l hl => hset.unbound l not_false (fun hl' => hX l hl' ?_) (hunbound l hl)⟩
    · exact List.mem_append_left _ hl
    · exact List.mem_append_right _ hl
  have hbody := hs A _ hsound hready
  have hgrows : Grows n w A L ep ((ep.setActiveblock bb).linearizeStatement s) :=
    (hset.mono (Nat.le_refl _) hw hXL fun _ hf => hf.elim).trans
      (hbody.grows.mono (hn.trans (hheld.lt.le.trans hset.block_le)) (hw.trans hset.switch_le)
        hnames fun _ hA => Or.inl hA)
  refine ⟨hbody.inv, hbody.opened, hgrows, fun Y b hne hY hb => ?_, fun F hF hC => ⟨y, ?_⟩⟩
  · exact hbody.grows.held b (hb.lt.trans_le hset.block_le) Y hY (hb.setActiveblock hne)
  · obtain ⟨hstart, hin⟩ := hflow F (hF.of_grows hbody.grows)
    have hcode := hbody.code F hF (hC.mono (hw.trans hset.switch_le))
    rw [hpoint] at hcode
    exact ⟨hstart, hin, hcode⟩

theorem linearizes_ifThen {c : Condition} {s : Statement} (hs : s.Linearizes) :
    (Statement.ifThen c s).Linearizes := by
  intro A ep hsound h
  generalize hep₂ : ep.allocBasicBlock.1.allocBasicBlock.1 = ep₂
  generalize hep₃ : ep₂.linearizeCondBranch c ep.nextBlock (ep.nextBlock + 1) = ep₃
  generalize hep₄ : (ep₃.setActiveblock ep.nextBlock).linearizeStatement s = ep₄
  have heq : ep.linearizeStatement (.ifThen c s) = ep₄.setActiveblock (ep.nextBlock + 1) := by
    rw [← hep₄, ← hep₃, ← hep₂, linearizeStatement]
    rfl
  rw [heq]
  have halloc : Grows ep.nextBlock ep.nextSwitch A (fun _ => False) ep ep₂ := by
    rw [← hep₂]
    exact grows_allocBasicBlock.trans grows_allocBasicBlock
  have hcond : CondSpec (ep.nextBlock + 2) ep.nextSwitch A (fun _ => False) c ep.nextBlock
      (ep.nextBlock + 1) ep₂ ep₃ := by
    rw [← hep₃, ← hep₂]
    exact linearizeCondBranch_spec c h.inv.allocBasicBlock.allocBasicBlock h.opened (Nat.le_refl _) _ _
  have hgrows₃ := halloc.trans (hcond.grows.mono (Nat.le_add_right _ 2) (Nat.le_refl _)
    (fun _ hf => hf) fun _ hA => Or.inl hA)
  have hheld : ∀ b, ep₂.Held (fun _ => False) b → b < ep.nextBlock + 2 →
      ep₃.Held (fun _ => False) b := fun b hb hlt =>
    hcond.grows.held b hlt _ (fun _ hf => hf.elim) hb
  have htrue : ep₃.Held (fun _ => False) ep.nextBlock := by
    refine hheld _ ?_ (Nat.lt_add_of_pos_right (Nat.succ_pos 1))
    exact hep₂ ▸ (held_allocBasicBlock h.inv).allocBasicBlock
  have hend : ep₃.Held (fun _ => False) (ep.nextBlock + 1) :=
    hheld _ (hep₂ ▸ held_allocBasicBlock h.inv.allocBasicBlock) (Nat.lt_succ_self _)
  -- The statement in its block.
  have hbody : EmittedIn ep.nextBlock ep.nextSwitch A s.Names s ep.nextBlock ep₃ ep₄ := by
    rw [← hep₄]
    exact emitted_in hs ⟨hsound.distinct, hsound.jumps, hsound.labels, hsound.exits⟩ hcond.inv htrue
      (fun _ hf => hf.elim) (fun _ hf => hf.elim) (Nat.le_refl _) hgrows₃.switch_le
      (fun l hl => hgrows₃.waits l not_false (h.waits l hl))
      (fun l hl => hgrows₃.unbound l (hsound.exits l hl) not_false (h.unbound l hl)) fun _ hl => hl
  obtain ⟨hinv, hopen, hset, z, hpoint, hflow⟩ := setActiveblock_spec (n := ep.nextBlock)
    (w := ep₄.nextSwitch) (A := A) (L := s.Names) hbody.inv
    (hbody.held _ _ (Nat.succ_ne_self _) (fun _ hf => hf.elim) hend) (fun _ hf => hf.elim)
    (Nat.le_succ _)
  refine ⟨hinv, hopen, ?_, fun F hF hC => ?_⟩
  · exact ((hgrows₃.mono (Nat.le_refl _) (Nat.le_refl _) (fun _ hf => hf.elim)
      fun _ hA => Or.inl hA).trans hbody.grows).trans (hset.mono (Nat.le_refl _)
        (hgrows₃.switch_le.trans hbody.grows.switch_le) (fun _ hl => hl) fun _ hA => Or.inl hA)
  · have hF₄ := hF.of_grows hset
    obtain ⟨y, htrue, -, hcode⟩ := hbody.code F hF₄ (hC.of_grows hset (Nat.le_refl _))
    obtain ⟨hend, hin⟩ := hflow F hF
    refine ⟨_, _, y, _, z, fun x hx => ?_, htrue, hcode, hin hbody.opened, hend, hpoint⟩
    exact hcond.tests F (hF₄.of_grows hbody.grows) x (hep₂ ▸ hx)

theorem linearizes_ifElse {c : Condition} {s t : Statement} (hs : s.Linearizes)
    (ht : t.Linearizes) : (Statement.ifElse c s t).Linearizes := by
  intro A ep hsound h
  have hd := hsound.distinct
  have hlabels := hsound.labels
  have hexits := hsound.exits
  have hwaits := h.waits
  have hunbound := h.unbound
  simp only [Statement.Distinct, Statement.labels, Statement.exits, List.nodup_append,
    List.mem_append] at hd hlabels hexits hwaits hunbound
  have hsoundS : s.Sound A := by
    refine ⟨?_, hsound.jumps.1, fun l hl => hlabels l (Or.inl hl), fun l hl => hexits l (Or.inl hl)⟩
    simp only [Statement.Distinct, List.nodup_append]
    grind
  have hsoundT : t.Sound A := by
    refine ⟨?_, hsound.jumps.2, fun l hl => hlabels l (Or.inr hl), fun l hl => hexits l (Or.inr hl)⟩
    simp only [Statement.Distinct, List.nodup_append]
    grind
  have hnames : ∀ l, (s.Names l → (Statement.ifElse c s t).Names l) ∧
      (t.Names l → (Statement.ifElse c s t).Names l ∧ ¬ s.Names l) := by
    intro l
    simp only [Statement.Names, Statement.labels, Statement.exits, List.mem_append]
    grind
  generalize hep₂ : ep.allocBasicBlock.1.allocBasicBlock.1 = ep₂
  generalize hep₃ : ep₂.linearizeCondBranch c ep.nextBlock (ep.nextBlock + 1) = ep₃
  generalize hep₄ : (ep₃.setActiveblock ep.nextBlock).linearizeStatement s = ep₄
  generalize hep₅ : ep₄.allocBasicBlock.1.addGoto ep₄.nextBlock = ep₅
  generalize hep₆ : (ep₅.setActiveblock (ep.nextBlock + 1)).linearizeStatement t = ep₆
  have heq : ep.linearizeStatement (.ifElse c s t) = ep₆.setActiveblock ep₄.nextBlock := by
    rw [← hep₆, ← hep₅, ← hep₄, ← hep₃, ← hep₂, linearizeStatement]
    rfl
  rw [heq]
  have halloc : Grows ep.nextBlock ep.nextSwitch A (fun _ => False) ep ep₂ := by
    rw [← hep₂]
    exact grows_allocBasicBlock.trans grows_allocBasicBlock
  have hcond : CondSpec (ep.nextBlock + 2) ep.nextSwitch A (fun _ => False) c ep.nextBlock
      (ep.nextBlock + 1) ep₂ ep₃ := by
    rw [← hep₃, ← hep₂]
    exact linearizeCondBranch_spec c h.inv.allocBasicBlock.allocBasicBlock h.opened (Nat.le_refl _) _ _
  have hgrows₃ := halloc.trans (hcond.grows.mono (Nat.le_add_right _ 2) (Nat.le_refl _)
    (fun _ hf => hf) fun _ hA => Or.inl hA)
  have hheld : ∀ b, ep₂.Held (fun _ => False) b → b < ep.nextBlock + 2 →
      ep₃.Held (fun _ => False) b := fun b hb hlt =>
    hcond.grows.held b hlt _ (fun _ hf => hf.elim) hb
  have htrue : ep₃.Held (fun _ => False) ep.nextBlock := by
    refine hheld _ ?_ (Nat.lt_add_of_pos_right (Nat.succ_pos 1))
    exact hep₂ ▸ (held_allocBasicBlock h.inv).allocBasicBlock
  have hfalse : ep₃.Held (fun _ => False) (ep.nextBlock + 1) :=
    hheld _ (hep₂ ▸ held_allocBasicBlock h.inv.allocBasicBlock) (Nat.lt_succ_self _)
  -- The first statement in its block.
  have hfirst : EmittedIn ep.nextBlock ep.nextSwitch A s.Names s ep.nextBlock ep₃ ep₄ := by
    rw [← hep₄]
    exact emitted_in hs hsoundS hcond.inv htrue (fun _ hf => hf.elim) (fun _ hf => hf.elim)
      (Nat.le_refl _) hgrows₃.switch_le
      (fun l hl => hgrows₃.waits l not_false (hwaits l (Or.inl hl)))
      (fun l hl => hgrows₃.unbound l (hsoundS.exits l hl) not_false (hunbound l (Or.inl hl)))
      fun _ hl => hl
  have hgrows₄ := (hgrows₃.mono (Nat.le_refl _) (Nat.le_refl _) (fun _ hf => hf.elim)
    fun _ hA => Or.inl hA).trans hfirst.grows
  -- The jump over the second statement.
  have hjump : Grows ep₅.nextBlock ep₅.nextSwitch A (fun _ => False) ep₄ ep₅ := by
    rw [← hep₅]
    exact grows_allocBasicBlock.trans (grows_addGoto _)
  have hinv₅ : ep₅.Inv := hep₅ ▸ hfirst.inv.allocBasicBlock.addGoto _
  have hend : ep₅.Held (fun _ => False) ep₄.nextBlock := by
    rw [← hep₅]
    exact (grows_addGoto (n := ep₄.nextBlock + 1) (w := 0) (A := A) (L := fun _ => False) _).held _
      (Nat.lt_succ_self _) _ (fun _ hf => hf.elim) (held_allocBasicBlock hfirst.inv)
  have hfalse₅ : ep₅.Held (fun _ => False) (ep.nextBlock + 1) := by
    have := hfirst.held _ _ (Nat.succ_ne_self _) (fun _ hf => hf.elim) hfalse
    exact hjump.held _ (this.lt.trans_le hjump.block_le) _ (fun _ hf => hf.elim) this
  have hgrows₅ : Grows ep.nextBlock ep.nextSwitch A s.Names ep ep₅ :=
    hgrows₄.trans (hjump.mono (hgrows₄.block_le.trans hjump.block_le)
      (hgrows₄.switch_le.trans hjump.switch_le) (fun _ hf => hf.elim) fun _ hA => Or.inl hA)
  have hsecond : EmittedIn ep.nextBlock ep₅.nextSwitch A t.Names t (ep.nextBlock + 1) ep₅ ep₆ := by
    rw [← hep₆]
    refine emitted_in ht hsoundT hinv₅ hfalse₅ (fun _ hf => hf.elim) (fun _ hf => hf.elim)
      (Nat.le_succ _) (Nat.le_refl _)
      (fun l hl => hgrows₅.waits l ?_ (hwaits l (Or.inr hl)))
      (fun l hl => hgrows₅.unbound l (hsoundT.exits l hl) ?_ (hunbound l (Or.inr hl)))
      fun _ hl => hl
    · exact ((hnames l).2 (List.mem_append_left _ hl)).2
    · exact ((hnames l).2 (List.mem_append_right _ hl)).2
  have hneEnd : ep₄.nextBlock ≠ ep.nextBlock + 1 :=
    Nat.ne_of_gt ((hfirst.held _ _ (Nat.succ_ne_self _) (fun _ hf => hf.elim) hfalse).lt)
  obtain ⟨hinv, hopen, hset, z, hpoint, hflow⟩ := setActiveblock_spec (n := ep.nextBlock)
    (w := ep₆.nextSwitch) (A := A) (L := fun _ => False) hsecond.inv
    (hsecond.held _ _ hneEnd (fun _ hf => hf.elim) hend) (fun _ hf => hf)
    hgrows₄.block_le
  refine ⟨hinv, hopen, ?_, fun F hF hC => ?_⟩
  · refine (hgrows₅.mono (Nat.le_refl _) (Nat.le_refl _) (fun l hl => (hnames l).1 hl)
      fun _ hA => Or.inl hA).trans ((hsecond.grows.mono (Nat.le_refl _) hgrows₅.switch_le
        (fun l hl => ((hnames l).2 hl).1) fun _ hA => Or.inl hA).trans (hset.mono (Nat.le_refl _)
          (hgrows₅.switch_le.trans hsecond.grows.switch_le) (fun _ hf => hf.elim)
            fun _ hA => Or.inl hA))
  · have hF₆ := hF.of_grows hset
    have hF₅ := hF₆.of_grows hsecond.grows
    have hF₄ := hF₅.of_grows hjump
    have hgoto : Covers (ep₄.allocBasicBlock.1.addGoto ep₄.nextBlock) F := hep₅ ▸ hF₅
    have hC₆ := hC.of_grows hset (Nat.le_refl _)
    have hC₅ : Completes ep.nextSwitch ep₅ F := hC₆.of_grows hsecond.grows (Nat.le_refl _)
    obtain ⟨y, htrue, -, hcodeS⟩ := hfirst.code F hF₄ (hC₅.of_grows hjump hjump.switch_le)
    obtain ⟨y', hfalse, -, hcodeT⟩ := hsecond.code F hF₆ (hC₆.mono hgrows₅.switch_le)
    obtain ⟨hend, hin⟩ := hflow F hF
    refine ⟨_, _, y, y', _, _, z, fun x hx => ?_, htrue, hcodeS, hfalse, hcodeT, fun x hx => ?_,
      hin hsecond.opened, hpoint⟩
    · exact hcond.tests F (hF₄.of_grows hfirst.grows) x (hep₂ ▸ hx)
    · exact .head (.br (insnAt_addGoto hgoto x hx)) hend

/-! ### Loops -/

/-- The blocks of a loop, with its top active if it has a block of its own. -/
def loopStart (ep : Entrypoint) (postCondition : Option Condition) : Entrypoint :=
  let ep' := ep.allocBasicBlock.1.allocBasicBlock.1.allocBasicBlock.1
  match postCondition with
  | none => ep'.allocBasicBlock.1.setActiveblock (ep.nextBlock + 3)
  | some _ => ep'

/-- The block of the top of a loop. -/
def loopTop (ep : Entrypoint) (postCondition : Option Condition) : BlockId :=
  match postCondition with
  | none => ep.nextBlock + 3
  | some _ => ep.nextBlock

/-- The first test of a loop. -/
def loopTest (ep : Entrypoint) (preCondition : Option Condition) (loopBody loopEnd : BlockId) :
    Entrypoint :=
  match preCondition with
  | some c => ep.linearizeCondBranch c loopBody loopEnd
  | none => ep

/-- The loop before its body becomes active. -/
def loopHead (ep : Entrypoint) (preCondition postCondition : Option Condition)
    (cont brk : LabelId) : Entrypoint :=
  ((loopTest (loopStart ep postCondition) preCondition ep.nextBlock
    (ep.nextBlock + 2)).bindLabel cont (ep.nextBlock + 1)).bindLabel brk (ep.nextBlock + 2)

theorem enterIterator_eq (preCondition postCondition : Option Condition) (cont brk : LabelId) :
    ep.enterIterator preCondition postCondition cont brk =
      ((loopHead ep preCondition postCondition cont brk).setActiveblock ep.nextBlock,
        loopTop ep postCondition, ep.nextBlock, ep.nextBlock + 1, ep.nextBlock + 2) := by
  cases postCondition <;> cases preCondition <;> rfl

theorem loopStart_spec (hinv : ep.Inv) (hopen : ep.Open) (postCondition : Option Condition) :
    (loopStart ep postCondition).Inv ∧ (loopStart ep postCondition).Open ∧
      Grows ep.nextBlock ep.nextSwitch A L ep (loopStart ep postCondition) ∧
      (∀ b, ep.nextBlock ≤ b → b < ep.nextBlock + 3 →
        (loopStart ep postCondition).Held (fun _ => False) b) ∧
      ep.nextBlock + 3 ≤ (loopStart ep postCondition).nextBlock ∧
      ∀ F, Covers (loopStart ep postCondition) F →
        (∀ x ∈ ep.point, ∃ y ∈ (loopStart ep postCondition).point, F.Flows x y) ∧
        (postCondition = none → ∃ y ∈ (loopStart ep postCondition).point,
          F.Flows (loopTop ep postCondition, 0) y) := by
  have hinv₁ := hinv.allocBasicBlock
  have hinv₂ := hinv₁.allocBasicBlock
  have hinv₃ := hinv₂.allocBasicBlock
  have halloc : Grows ep.nextBlock ep.nextSwitch A L ep
      ep.allocBasicBlock.1.allocBasicBlock.1.allocBasicBlock.1 :=
    grows_allocBasicBlock.trans (grows_allocBasicBlock.trans grows_allocBasicBlock)
  have hheld : ∀ b, ep.nextBlock ≤ b → b < ep.nextBlock + 3 →
      ep.allocBasicBlock.1.allocBasicBlock.1.allocBasicBlock.1.Held (fun _ => False) b := by
    intro b hle hlt
    obtain rfl | rfl | rfl : b = ep.nextBlock ∨ b = ep.nextBlock + 1 ∨ b = ep.nextBlock + 2 := by
      have : (b : ℕ) < ep.nextBlock + 3 := hlt
      have : (ep.nextBlock : ℕ) ≤ b := hle
      rcases Nat.eq_or_lt_of_le hle with h | h
      · exact Or.inl h.symm
      rcases Nat.eq_or_lt_of_le h with h | h
      · exact Or.inr (Or.inl h.symm)
      · exact Or.inr (Or.inr (Nat.le_antisymm (Nat.le_of_lt_succ hlt) h))
    · exact (held_allocBasicBlock hinv).allocBasicBlock.allocBasicBlock
    · exact (held_allocBasicBlock hinv₁).allocBasicBlock
    · exact held_allocBasicBlock hinv₂
  cases postCondition with
  | some c =>
    exact ⟨hinv₃, hopen, halloc, hheld, Nat.le_refl _, fun F _ =>
      ⟨fun x hx => ⟨x, hx, .refl⟩, fun h => by cases h⟩⟩
  | none =>
    obtain ⟨hinv', hopen', hset, y, hpoint, hflow⟩ := setActiveblock_spec (n := ep.nextBlock)
      (w := ep.nextSwitch) (A := A) (L := L) hinv₃.allocBasicBlock (held_allocBasicBlock hinv₃)
      (fun _ hf => hf.elim) (Nat.le_add_right _ 3)
    refine ⟨hinv', hopen', (halloc.trans grows_allocBasicBlock).trans hset, fun b hle hlt =>
      (hheld b hle hlt).allocBasicBlock.setActiveblock (Nat.ne_of_lt hlt), ?_, fun F hF =>
        ⟨fun x hx => ⟨y, hpoint, (hflow F hF).2 hopen x hx⟩, fun _ => ⟨y, hpoint, (hflow F hF).1⟩⟩⟩
    exact Nat.le_trans (Nat.le_succ _) hset.block_le

theorem loopTest_spec (hinv : ep.Inv) (hopen : ep.Open) (preCondition : Option Condition)
    (loopBody loopEnd : BlockId) :
    (loopTest ep preCondition loopBody loopEnd).Inv ∧
      Grows ep.nextBlock w A L ep (loopTest ep preCondition loopBody loopEnd) ∧
      ∀ F, Covers (loopTest ep preCondition loopBody loopEnd) F → ∀ shape : LoopShape,
        shape.loopBody = loopBody → shape.loopEnd = loopEnd →
        ((loopTest ep preCondition loopBody loopEnd).Open →
          ∀ x ∈ (loopTest ep preCondition loopBody loopEnd).point, F.Flows x shape.bodyPoint) →
        ∀ x ∈ ep.point, F.EntersLoop preCondition shape x := by
  cases preCondition with
  | none => exact ⟨hinv, .refl, fun F _ shape _ _ hflow => hflow hopen⟩
  | some c =>
    have hcond := linearizeCondBranch_spec (n := ep.nextBlock) (w := w) (A := A) (L := L) c hinv
      hopen (Nat.le_refl _) loopBody loopEnd
    refine ⟨hcond.inv, hcond.grows, fun F hF shape hbody hend _ x hx => ?_⟩
    have := hcond.tests F hF x hx
    rwa [← hbody, ← hend] at this

/-- The loop up to its body: its labels have their blocks, and control enters it. -/
structure HeadSpec (A : LabelId → Prop) (preCondition postCondition : Option Condition)
    (cont brk : LabelId) (ep ep' : Entrypoint) : Prop where
  inv : ep'.Inv
  grows : Grows ep.nextBlock ep.nextSwitch A (fun l => l = cont ∨ l = brk) ep ep'
  held_body : ep'.Held (fun _ => False) ep.nextBlock
  held_continue : ep'.Held (· = cont) (ep.nextBlock + 1)
  held_end : ep'.Held (· = brk) (ep.nextBlock + 2)
  target_continue : ep'.bbTarget cont = some (ep.nextBlock + 1)
  target_break : ep'.bbTarget brk = some (ep.nextBlock + 2)
  enters : ∀ F, Covers ep' F → ∀ shape : LoopShape,
    shape.loopTop = loopTop ep postCondition → shape.loopBody = ep.nextBlock →
    shape.loopEnd = ep.nextBlock + 2 →
    (ep'.Open → ∀ x ∈ ep'.point, F.Flows x shape.bodyPoint) →
    (match postCondition with
      | none => ∃ y, F.Flows (shape.loopTop, 0) y ∧ F.EntersLoop preCondition shape y
      | some _ => shape.loopTop = shape.loopBody) ∧
    ∀ x ∈ ep.point, ∃ y, F.Flows x y ∧ F.EntersLoop preCondition shape y

theorem loopHead_spec (hinv : ep.Inv) (hopen : ep.Open) (preCondition postCondition : Option Condition)
    {cont brk : LabelId} (hcont : ep.bbTarget cont = none) (hbrk : ep.bbTarget brk = none)
    (hne : brk ≠ cont) : HeadSpec A preCondition postCondition cont brk ep
      (loopHead ep preCondition postCondition cont brk) := by
  obtain ⟨hinv₁, hopen₁, hgrows₁, hheld₁, hle₁, hstart⟩ := loopStart_spec (A := fun _ => False)
    (L := fun _ => False) hinv hopen postCondition
  unfold loopHead
  generalize loopStart ep postCondition = ep₁ at *
  obtain ⟨hinv₂, hgrows₂, htest⟩ := loopTest_spec (w := ep₁.nextSwitch) (A := fun _ => False)
    (L := fun _ => False) hinv₁ hopen₁ preCondition ep.nextBlock (ep.nextBlock + 2)
  generalize loopTest ep₁ preCondition ep.nextBlock (ep.nextBlock + 2) = ep₂ at *
  have hgrows : Grows ep.nextBlock ep.nextSwitch (fun _ => False) (fun _ => False) ep ep₂ :=
    hgrows₁.trans (hgrows₂.mono hgrows₁.block_le hgrows₁.switch_le (fun _ hf => hf)
      fun _ hf => hf.elim)
  have hheld : ∀ b, ep.nextBlock ≤ b → b < ep.nextBlock + 3 → ep₂.Held (fun _ => False) b :=
    fun b hle hlt => hgrows₂.held b (hlt.trans_le hle₁) _ (fun _ hf => hf.elim) (hheld₁ b hle hlt)
  have hbody := hheld ep.nextBlock (Nat.le_refl _) (Nat.lt_add_of_pos_right (Nat.succ_pos 2))
  have hcontinue := hheld (ep.nextBlock + 1) (Nat.le_succ _) (Nat.lt_succ_of_lt (Nat.lt_succ_self _))
  have hend := hheld (ep.nextBlock + 2) (Nat.le_add_right _ 2) (Nat.lt_succ_self _)
  have hcont₂ : ep₂.bbTarget cont = none := hgrows.unbound cont not_false not_false hcont
  have hbrk₂ : (ep₂.bindLabel cont (ep.nextBlock + 1)).bbTarget brk = none := by
    rw [bbTarget_bindLabel_ne hne]
    exact hgrows.unbound brk not_false not_false hbrk
  have hne₁ : ep.nextBlock + 2 ≠ ep.nextBlock + 1 := Nat.succ_ne_self _
  have hne₂ : ep.nextBlock ≠ ep.nextBlock + 2 := Nat.ne_of_lt (Nat.lt_add_of_pos_right (Nat.succ_pos 1))
  have hend' := hend.bindLabel cont hne₁
  have hbind₁ : Grows ep.nextBlock ep.nextSwitch A (fun l => l = cont ∨ l = brk) ep₂
      (ep₂.bindLabel cont (ep.nextBlock + 1)) :=
    grows_bindLabel hcont₂ (Or.inr (Or.inl rfl)) (Or.inl (Nat.le_succ _)) (Or.inl hcontinue.waits)
  have hbind₂ : Grows ep.nextBlock ep.nextSwitch A (fun l => l = cont ∨ l = brk)
      (ep₂.bindLabel cont (ep.nextBlock + 1))
      ((ep₂.bindLabel cont (ep.nextBlock + 1)).bindLabel brk (ep.nextBlock + 2)) :=
    grows_bindLabel hbrk₂ (Or.inr (Or.inr rfl)) (Or.inl (Nat.le_add_right _ 2)) (Or.inl hend.waits)
  refine ⟨?_, ?_, ?_, ?_, ?_, ?_, ?_, ?_⟩
  · exact (hinv₂.bindLabel hcontinue.lt fun _ l hl => (hcontinue.labels l hl).elim).bindLabel hend'.lt
      fun _ l hl => (hend'.labels l hl).elim
  · exact ((hgrows.mono (Nat.le_refl _) (Nat.le_refl _) (fun _ hf => hf.elim)
      fun _ hf => hf.elim).trans hbind₁).trans hbind₂
  · exact (hbody.bindLabel cont (Nat.succ_ne_self _).symm).bindLabel brk hne₂
  · exact (hcontinue.bindLabel_self cont).bindLabel brk hne₁.symm
  · exact hend'.bindLabel_self brk
  · rw [bbTarget_bindLabel_ne hne.symm, bbTarget_bindLabel]
  · exact bbTarget_bindLabel _ _
  · intro F hF shape htop hbody hend hflow
    have hF₂ := (hF.of_grows hbind₂).of_grows hbind₁
    have henters := htest F hF₂ shape hbody hend hflow
    obtain ⟨hin, htops⟩ := hstart F (hF₂.of_grows hgrows₂)
    refine ⟨?_, fun x hx => ?_⟩
    · cases postCondition with
      | none =>
        obtain ⟨y, hy, hyflow⟩ := htops rfl
        exact ⟨y, htop ▸ hyflow, henters y hy⟩
      | some c => exact htop.trans hbody.symm
    · obtain ⟨y, hy, hxy⟩ := hin x hx
      exact ⟨y, hxy, henters y hy⟩

/-- The end of an iteration. -/
def loopRepeat (ep : Entrypoint) (postCondition : Option Condition) (loopTop loopEnd : BlockId) :
    Entrypoint :=
  match postCondition with
  | none => ep.addGoto loopTop
  | some c => ep.linearizeCondBranch c loopTop loopEnd

theorem leaveIterator_eq (postCondition : Option Condition) (loopTop loopEnd : BlockId) :
    ep.leaveIterator postCondition loopTop loopEnd =
      (loopRepeat ep postCondition loopTop loopEnd).setActiveblock loopEnd := by
  cases postCondition <;> rfl

theorem loopRepeat_spec (hinv : ep.Inv) (hopen : ep.Open) (postCondition : Option Condition)
    (loopTop loopEnd : BlockId) :
    (loopRepeat ep postCondition loopTop loopEnd).Inv ∧
      Grows ep.nextBlock w A L ep (loopRepeat ep postCondition loopTop loopEnd) ∧
      ∀ F, Covers (loopRepeat ep postCondition loopTop loopEnd) F → ∀ shape : LoopShape,
        shape.loopTop = loopTop → shape.loopEnd = loopEnd →
        ∀ x ∈ ep.point, F.RepeatsLoop postCondition shape x := by
  cases postCondition with
  | none =>
    refine ⟨hinv.addGoto _, grows_addGoto _, fun F hF shape htop _ x hx => ?_⟩
    have := insnAt_addGoto hF x hx
    rwa [← htop] at this
  | some c =>
    have hcond := linearizeCondBranch_spec (n := ep.nextBlock) (w := w) (A := A) (L := L) c hinv
      hopen (Nat.le_refl _) loopTop loopEnd
    refine ⟨hcond.inv, hcond.grows, fun F hF shape htop hend x hx => ?_⟩
    have := hcond.tests F hF x hx
    rwa [← htop, ← hend] at this

theorem linearizes_iterator {pre body post : Statement} {preCondition postCondition : Option Condition}
    {cont brk : LabelId} (hpre : pre.Linearizes) (hbody : body.Linearizes)
    (hpost : post.Linearizes) :
    (Statement.iterator pre preCondition body post postCondition cont brk).Linearizes := by
  intro A ep hsound h
  have hd := hsound.distinct
  have hlabels := hsound.labels
  have hexits := hsound.exits
  have hwaits := h.waits
  have hunbound := h.unbound
  simp only [Statement.Distinct, Statement.labels, Statement.exits, List.nodup_append,
    List.nodup_cons, List.mem_append, List.mem_cons] at hd hlabels hexits hwaits hunbound
  obtain ⟨hjumpsPre, hjumpsBody, hjumpsPost⟩ := hsound.jumps
  have hsoundPre : pre.Sound A := by
    refine ⟨?_, hjumpsPre, fun l hl => hlabels l (Or.inl hl),
      fun l hl => hexits l (Or.inr (Or.inr (Or.inl hl)))⟩
    simp only [Statement.Distinct, List.nodup_append]
    grind
  have hsoundBody : body.Sound fun l => A l ∨ l = cont ∨ l = brk := by
    refine ⟨?_, hjumpsBody, fun l hl => Or.inl (hlabels l (Or.inr (Or.inl hl))), fun l hl => ?_⟩
    · simp only [Statement.Distinct, List.nodup_append]
      grind
    · have := hexits l (Or.inr (Or.inr (Or.inr (Or.inl hl))))
      grind
  have hsoundPost : post.Sound fun l => A l ∨ l = cont ∨ l = brk := by
    refine ⟨?_, hjumpsPost, fun l hl => Or.inl (hlabels l (Or.inr (Or.inr hl))), fun l hl => ?_⟩
    · simp only [Statement.Distinct, List.nodup_append]
      grind
    · have := hexits l (Or.inr (Or.inr (Or.inr (Or.inr hl))))
      grind
  have hnames : ∀ l, pre.Names l ∨ l = cont ∨ l = brk ∨ body.Names l ∨ post.Names l →
      (Statement.iterator pre preCondition body post postCondition cont brk).Names l := by
    intro l
    simp only [Statement.Names, Statement.labels, Statement.exits, List.mem_append, List.mem_cons]
    grind
  have hnamesBody : ∀ l, body.Names l → ¬ (pre.Names l ∨ l = cont ∨ l = brk) := by
    intro l
    simp only [Statement.Names, List.mem_append]
    grind
  have hnamesPost : ∀ l, post.Names l → ¬ (pre.Names l ∨ l = cont ∨ l = brk ∨ body.Names l) := by
    intro l
    simp only [Statement.Names, List.mem_append]
    grind
  have hcontPre : ¬ pre.Names cont ∧ ¬ pre.Names brk ∧ brk ≠ cont := by
    simp only [Statement.Names, List.mem_append]
    grind
  have hfirst := hpre A ep hsoundPre ⟨h.inv, h.opened, fun l hl => hwaits l (Or.inl hl),
    fun l hl => hunbound l (Or.inr (Or.inr (Or.inl hl)))⟩
  generalize hep₁ : ep.linearizeStatement pre = ep₁ at hfirst
  have hhead : HeadSpec A preCondition postCondition cont brk ep₁
      (loopHead ep₁ preCondition postCondition cont brk) :=
    loopHead_spec hfirst.inv hfirst.opened preCondition postCondition
      (hfirst.grows.unbound cont (hexits cont (Or.inl rfl)) hcontPre.1 (hunbound cont (Or.inl rfl)))
      (hfirst.grows.unbound brk (hexits brk (Or.inr (Or.inl rfl))) hcontPre.2.1
        (hunbound brk (Or.inr (Or.inl rfl)))) hcontPre.2.2
  generalize hep₂ : loopHead ep₁ preCondition postCondition cont brk = ep₂ at hhead
  generalize hep₃ : (ep₂.setActiveblock ep₁.nextBlock).linearizeStatement body = ep₃
  generalize hep₄ : ep₃.addGoto (ep₁.nextBlock + 1) = ep₄
  generalize hep₅ : (ep₄.setActiveblock (ep₁.nextBlock + 1)).linearizeStatement post = ep₅
  generalize hep₆ : loopRepeat ep₅ postCondition (loopTop ep₁ postCondition) (ep₁.nextBlock + 2) = ep₆
  have heq : ep.linearizeStatement (.iterator pre preCondition body post postCondition cont brk) =
      ep₆.setActiveblock (ep₁.nextBlock + 2) := by
    rw [linearizeStatement, hep₁, enterIterator_eq, hep₂]
    dsimp only
    rw [hep₃, hep₄, hep₅, leaveIterator_eq, hep₆]
  rw [heq]
  have hgrows₂ : Grows ep.nextBlock ep.nextSwitch A (fun l => pre.Names l ∨ l = cont ∨ l = brk)
      ep ep₂ :=
    (hfirst.grows.mono (Nat.le_refl _) (Nat.le_refl _) (fun _ hl => Or.inl hl)
      fun _ hA => Or.inl hA).trans (hhead.grows.mono hfirst.grows.block_le hfirst.grows.switch_le
        (fun _ hl => Or.inr hl) fun _ hA => Or.inl hA)
  have hbodySpec : EmittedIn ep.nextBlock ep₂.nextSwitch (fun l => A l ∨ l = cont ∨ l = brk)
      body.Names body ep₁.nextBlock ep₂ ep₃ := by
    rw [← hep₃]
    refine emitted_in hbody hsoundBody hhead.inv hhead.held_body (fun _ hf => hf.elim)
      (fun _ hf => hf.elim) hfirst.grows.block_le (Nat.le_refl _)
      (fun l hl => hgrows₂.waits l (hnamesBody l (List.mem_append_left _ hl))
        (hwaits l (Or.inr (Or.inl hl))))
      (fun l hl => hgrows₂.unbound l (fun hA => hsoundBody.exits l hl (Or.inl hA))
        (hnamesBody l (List.mem_append_right _ hl))
        (hunbound l (Or.inr (Or.inr (Or.inr (Or.inl hl)))))) fun _ hl => hl
  have hjump : Grows ep₃.nextBlock ep₃.nextSwitch A (fun _ => False) ep₃ ep₄ :=
    hep₄ ▸ grows_addGoto _
  have hinv₄ : ep₄.Inv := hep₄ ▸ hbodySpec.inv.addGoto _
  have hgrows₄ : Grows ep.nextBlock ep.nextSwitch A
      (fun l => pre.Names l ∨ l = cont ∨ l = brk ∨ body.Names l) ep ep₄ := by
    refine (hgrows₂.mono (Nat.le_refl _) (Nat.le_refl _) (fun l hl => ?_) fun _ hA => Or.inl hA).trans
      ((hbodySpec.grows.mono (Nat.le_refl _) hgrows₂.switch_le
        (fun l hl => Or.inr (Or.inr (Or.inr hl))) fun l hA => ?_).trans
          (hjump.mono (hgrows₂.block_le.trans hbodySpec.grows.block_le)
            (hgrows₂.switch_le.trans hbodySpec.grows.switch_le) (fun _ hf => hf.elim)
              fun _ hA => Or.inl hA))
    · tauto
    · tauto
  have hcont₄ : ep₄.Held (· = cont) (ep₁.nextBlock + 1) := by
    have hheld := hbodySpec.held _ _ (Nat.succ_ne_self _) (fun l hl hl' =>
      hnamesBody l hl' (Or.inr (Or.inl hl))) hhead.held_continue
    exact hjump.held _ hheld.lt _ (fun _ _ hf => hf) hheld
  have hend₄ : ep₄.Held (· = brk) (ep₁.nextBlock + 2) := by
    have hheld := hbodySpec.held _ _ (Nat.ne_of_gt (Nat.lt_add_of_pos_right (Nat.succ_pos 1)))
      (fun l hl hl' => hnamesBody l hl' (Or.inr (Or.inr hl))) hhead.held_end
    exact hjump.held _ hheld.lt _ (fun _ _ hf => hf) hheld
  have hpostSpec : EmittedIn ep.nextBlock ep₄.nextSwitch (fun l => A l ∨ l = cont ∨ l = brk)
      (fun l => l = cont ∨ post.Names l) post (ep₁.nextBlock + 1) ep₄ ep₅ := by
    rw [← hep₅]
    refine emitted_in hpost hsoundPost hinv₄ hcont₄ (fun _ hl => Or.inl hl)
      (fun l hl hl' => hnamesPost l hl' (Or.inr (Or.inl hl)))
      (hfirst.grows.block_le.trans (Nat.le_succ _)) (Nat.le_refl _)
      (fun l hl => hgrows₄.waits l (hnamesPost l (List.mem_append_left _ hl))
        (hwaits l (Or.inr (Or.inr hl))))
      (fun l hl => hgrows₄.unbound l (fun hA => hsoundPost.exits l hl (Or.inl hA))
        (hnamesPost l (List.mem_append_right _ hl))
        (hunbound l (Or.inr (Or.inr (Or.inr (Or.inr hl)))))) fun _ hl => Or.inr hl
  have hend₅ : ep₅.Held (· = brk) (ep₁.nextBlock + 2) :=
    hpostSpec.held _ _ (Nat.succ_ne_self _) (fun l hl hl' =>
      hnamesPost l hl' (Or.inr (Or.inr (Or.inl hl)))) hend₄
  obtain ⟨hinv₆, hrepeat, hrepeats⟩ := loopRepeat_spec (w := ep₅.nextSwitch) (A := A)
    (L := fun _ => False) hpostSpec.inv hpostSpec.opened postCondition (loopTop ep₁ postCondition)
    (ep₁.nextBlock + 2)
  rw [hep₆] at hinv₆ hrepeat hrepeats
  have hend₆ := hrepeat.held _ hend₅.lt _ (fun _ _ hf => hf) hend₅
  obtain ⟨hinv, hopen, hset, z, hpoint, hflow⟩ := setActiveblock_spec (n := ep.nextBlock)
    (w := ep₆.nextSwitch) (A := A) (L := (· = brk)) hinv₆ hend₆ (fun _ hl => hl)
    (hfirst.grows.block_le.trans (Nat.le_add_right _ 2))
  have hswitch₅ := hgrows₄.switch_le.trans hpostSpec.grows.switch_le
  refine ⟨hinv, hopen, ?_, fun F hF hC => ?_⟩
  · refine (hgrows₄.mono (Nat.le_refl _) (Nat.le_refl _) (fun l hl => hnames l ?_)
      fun _ hA => Or.inl hA).trans ((hpostSpec.grows.mono (Nat.le_refl _) hgrows₄.switch_le
        (fun l hl => hnames l ?_) fun l hA => ?_).trans ((hrepeat.mono
          (hgrows₄.block_le.trans hpostSpec.grows.block_le) hswitch₅ (fun _ hf => hf.elim)
            fun _ hA => Or.inl hA).trans (hset.mono (Nat.le_refl _)
              (hswitch₅.trans hrepeat.switch_le) (fun l hl => hnames l ?_) fun _ hA => Or.inl hA)))
    · tauto
    · tauto
    · rcases hA with hA | hA | hA
      · exact Or.inl hA
      · exact Or.inr (hnames l (Or.inr (Or.inl hA)))
      · exact Or.inr (hnames l (Or.inr (Or.inr (Or.inl hA))))
    · tauto
  · have hF₆ := hF.of_grows hset
    have hF₅ := hF₆.of_grows hrepeat
    have hF₄ := hF₅.of_grows hpostSpec.grows
    have hF₃ := hF₄.of_grows hjump
    have hF₂ := hF₃.of_grows hbodySpec.grows
    have hF₁ := hF₂.of_grows hhead.grows
    have hC₅ := (hC.of_grows hset (Nat.le_refl _)).of_grows hrepeat (Nat.le_refl _)
    have hC₄ := hC₅.of_grows hpostSpec.grows (Nat.le_refl _)
    have hC₃ := hC₄.of_grows hjump (Nat.le_refl _)
    have hC₂ := hC₃.of_grows hbodySpec.grows (Nat.le_refl _)
    have hC₁ := hC₂.of_grows hhead.grows (Nat.le_refl _)
    obtain ⟨bodyPoint, hbodyFlow, hbodyIn, hbodyCode⟩ :=
      hbodySpec.code F hF₃ (hC₃.mono hgrows₂.switch_le)
    obtain ⟨continuePoint, hcontFlow, -, hpostCode⟩ :=
      hpostSpec.code F hF₅ (hC₅.mono hgrows₄.switch_le)
    obtain ⟨hendFlow, -⟩ := hflow F hF
    let shape : LoopShape := ⟨loopTop ep₁ postCondition, ep₁.nextBlock, ep₁.nextBlock + 1,
      ep₁.nextBlock + 2, bodyPoint, ep₃.point, continuePoint, ep₅.point, z⟩
    obtain ⟨htop, henters⟩ := hhead.enters F hF₂ shape rfl rfl rfl hbodyIn
    have hgoto : Covers (ep₃.addGoto (ep₁.nextBlock + 1)) F := hep₄ ▸ hF₄
    refine ⟨shape, ep₁.point, hep₁ ▸ hfirst.code F hF₁ hC₁, henters, ⟨htop, hbodyFlow, hbodyCode,
      fun x hx => ?_, hcontFlow, hpostCode, hrepeats F hF₆ shape rfl rfl, hendFlow⟩,
      hF₂.target _ _ hhead.target_continue, hF₂.target _ _ hhead.target_break, hpoint⟩
    exact .head (.br (insnAt_addGoto hgoto x hx)) hcontFlow

/-! ### Switches -/

/-- The switch instruction, with a list for its jumps. -/
def startSwitch (ep : Entrypoint) (e : ExprId) : Entrypoint :=
  let ep := ep.linearizeExpression e
  let insn := ep.nextSwitch
  (Entrypoint.addOneInsn { ep with
    nextSwitch := insn + 1
    multijmpList := Function.update ep.multijmpList insn [] } (.switch e insn)).finishBlock

theorem enterSwitch_eq (e : ExprId) (cases : List SwitchCase) (brk : LabelId) (switchEnd : BlockId) :
    ep.enterSwitch e cases brk switchEnd =
      (((startSwitch ep e).addCases (ep.linearizeExpression e).nextSwitch cases none).1.bindLabel brk
          switchEnd,
        ((startSwitch ep e).addCases (ep.linearizeExpression e).nextSwitch cases none).2) := rfl

theorem nextSwitch_addOneInsn (insn : LinearInsn) :
    (ep.addOneInsn insn).nextSwitch = ep.nextSwitch ∧
      (ep.addOneInsn insn).multijmpList = ep.multijmpList := by
  unfold addOneInsn
  split <;> exact ⟨rfl, rfl⟩

theorem startSwitch_spec (hinv : ep.Inv) (e : ExprId) :
    (startSwitch ep e).Inv ∧ (startSwitch ep e).active = none ∧
      Grows n ep.nextSwitch A L ep (startSwitch ep e) ∧
      (startSwitch ep e).nextSwitch = ep.nextSwitch + 1 ∧
      (startSwitch ep e).multijmpList ep.nextSwitch = [] ∧
      ∀ F, Covers (startSwitch ep e) F → ∀ x ∈ ep.point, F.insnAt x = some (.eval e) ∧
        F.insnAt (x.1, x.2 + 1) = some (.switch e ep.nextSwitch) := by
  have hexpr : Grows n ep.nextSwitch A L ep (ep.linearizeExpression e) := grows_linearizeExpression e
  have hinv₁ : (ep.linearizeExpression e).Inv := hinv.addOneInsn _
  have hnext : (ep.linearizeExpression e).nextSwitch = ep.nextSwitch := (nextSwitch_addOneInsn _).1
  have hpoint : (ep.linearizeExpression e).point = ep.point.map fun x => (x.1, x.2 + 1) :=
    point_addOneInsn _
  have heval : ∀ F, Covers (ep.linearizeExpression e) F → ∀ x ∈ ep.point,
      F.insnAt x = some (.eval e) := fun F hF => insnAt_addOneInsn hF
  unfold startSwitch
  generalize ep.linearizeExpression e = ep₁ at *
  dsimp only
  rw [hnext]
  have hnew : Grows n ep.nextSwitch A L ep₁ { ep₁ with
      nextSwitch := ep.nextSwitch + 1
      multijmpList := Function.update ep₁.multijmpList ep.nextSwitch [] } := by
    refine ⟨Nat.le_refl _, ?_, fun _ => List.prefix_rfl, fun _ _ h => h, fun i hi => ?_,
      fun _ _ h => h, fun _ _ _ _ h => ⟨h.lt, h.waits, h.labels⟩, fun _ _ _ h => h⟩
    · rw [hnext]
      exact Nat.le_succ _
    · dsimp only
      rw [Function.update_of_ne (Nat.ne_of_lt hi)]
  have hinv₂ : Entrypoint.Inv { ep₁ with
      nextSwitch := ep.nextSwitch + 1
      multijmpList := Function.update ep₁.multijmpList ep.nextSwitch [] } :=
    ⟨hinv₁.active_opened, hinv₁.opened_lt, hinv₁.target_lt, hinv₁.fresh, hinv₁.waiting,
      hinv₁.target_inj⟩
  have hlist : Function.update ep₁.multijmpList ep.nextSwitch [] ep.nextSwitch = [] :=
    Function.update_self ..
  generalize hep₂ : ({ ep₁ with
      nextSwitch := ep.nextSwitch + 1
      multijmpList := Function.update ep₁.multijmpList ep.nextSwitch [] } : Entrypoint) = ep₂ at *
  have hswitch : Grows n ep.nextSwitch A L ep₂
      (ep₂.addOneInsn (.switch e ep.nextSwitch)).finishBlock :=
    (grows_addOneInsn _).trans grows_finishBlock
  refine ⟨(hinv₂.addOneInsn _).finishBlock, rfl, (hexpr.trans hnew).trans hswitch, ?_, ?_,
    fun F hF x hx => ?_⟩
  · exact (nextSwitch_addOneInsn _).1.trans (by rw [← hep₂])
  · exact (congrFun (nextSwitch_addOneInsn _).2 _).trans (by rw [← hep₂]; exact hlist)
  · have hF₂ := hF.of_grows hswitch
    refine ⟨heval F (hF₂.of_grows hnew) x hx, ?_⟩
    have hF' : Covers (ep₂.addOneInsn (.switch e ep.nextSwitch)) F := ⟨hF.insns, hF.target⟩
    refine insnAt_addOneInsn hF' _ ?_
    have : ep₂.point = ep₁.point := by rw [← hep₂]; rfl
    rw [this, hpoint, show ep.point = some x from hx]
    rfl

/-- What `linearize_switch` knows of its cases: their jumps, and the block of the default. -/
structure CasesSpec (n : ℕ) (A L : LabelId → Prop) (insn : InsnId) (cases : List SwitchCase)
    (defaultCase : Option BlockId) (ep : Entrypoint) (r : Entrypoint × Option BlockId) : Prop where
  inv : r.1.Inv
  grows : Grows n insn A L ep r.1
  active : r.1.active = ep.active
  nextSwitch : r.1.nextSwitch = ep.nextSwitch
  jumps : ∀ F, Covers r.1 F → r.1.multijmpList insn = ep.multijmpList insn ++ F.jumps cases
  default : ∀ F, Covers r.1 F → r.2 = ((cases.reverse.find? (·.caseExpression.isNone)).map
    fun c => (F.bbTarget c.label).getD 0).or defaultCase

theorem addCases_spec (insn : InsnId) (cases : List SwitchCase) (defaultCase : Option BlockId)
    (hinv : ep.Inv) (hA : ∀ c ∈ cases, A c.label) (hn : n ≤ ep.nextBlock) :
    CasesSpec n A L insn cases defaultCase ep (ep.addCases insn cases defaultCase) := by
  induction cases generalizing ep defaultCase with
  | nil => exact ⟨hinv, .refl, rfl, rfl, fun F _ => (List.append_nil _).symm, fun F _ => rfl⟩
  | cons c cs ih =>
    obtain ⟨hinv₁, hgrows₁, hbound, -⟩ := getBoundBlock_spec (n := n) (w := insn) (A := A) (L := L)
      hinv hn (Or.inl (hA c (List.mem_cons_self ..)))
    have hA' : ∀ c ∈ cs, A c.label := fun c hc => hA c (List.mem_cons_of_mem _ hc)
    have hactive : (ep.getBoundBlock c.label).1.active = ep.active := active_getBoundBlock c.label
    have hsame : (ep.getBoundBlock c.label).1.nextSwitch = ep.nextSwitch ∧
        (ep.getBoundBlock c.label).1.multijmpList = ep.multijmpList := by
      unfold getBoundBlock
      split <;> exact ⟨rfl, rfl⟩
    unfold addCases
    generalize ep.getBoundBlock c.label = bound at *
    obtain ⟨ep₁, bbCase⟩ := bound
    dsimp only at hinv₁ hgrows₁ hbound hactive hsame ⊢
    have htarget : ∀ ep₂, Grows n insn A L ep₁ ep₂ → ∀ F, Covers ep₂ F →
        (F.bbTarget c.label).getD 0 = bbCase := fun ep₂ hg F hF => by
      rw [(hF.of_grows hg).target _ _ hbound, Option.getD_some]
    have hdefault : ∀ F : Entrypoint, ((c :: cs).reverse.find? (·.caseExpression.isNone)).map
        (fun c => (F.bbTarget c.label).getD 0) =
          ((cs.reverse.find? (·.caseExpression.isNone)).map
            fun c => (F.bbTarget c.label).getD 0).or
              (if c.caseExpression.isNone then some ((F.bbTarget c.label).getD 0) else none) := by
      intro F
      rw [List.reverse_cons, List.find?_append, Option.map_or, List.find?_singleton]
      cases c.caseExpression <;> rfl
    cases hjump : c.jump bbCase with
    | none =>
      have hnone : c.caseExpression = none := Option.map_eq_none_iff.1 hjump
      have hrest := ih (some bbCase) hinv₁ hA' (hn.trans hgrows₁.block_le)
      refine ⟨hrest.inv, hgrows₁.trans hrest.grows, hrest.active.trans hactive,
        hrest.nextSwitch.trans hsame.1, fun F hF => ?_, fun F hF => ?_⟩
      · have hnojump : c.jump ((F.bbTarget c.label).getD 0) = none := by
          rwa [htarget _ hrest.grows F hF]
        rw [hrest.jumps F hF, hsame.2,
          show F.jumps (c :: cs) = F.jumps cs from List.filterMap_cons_none hnojump]
      · rw [hrest.default F hF, hdefault, hnone, htarget _ hrest.grows F hF, Option.or_assoc]
        rfl
    | some jmp =>
      have hsome : c.caseExpression.isNone = false := by
        cases hc : c.caseExpression with
        | none => rw [SwitchCase.jump, hc] at hjump; cases hjump
        | some low => rfl
      have hadd : Grows n insn A L ep₁ (ep₁.addMultijmp insn jmp) := by
        refine ⟨Nat.le_refl _, Nat.le_refl _, fun _ => List.prefix_rfl, fun _ _ h => h,
          fun i hi => ?_, fun _ _ h => h, fun _ _ _ _ h => ⟨h.lt, h.waits, h.labels⟩,
          fun _ _ _ h => h⟩
        unfold addMultijmp
        dsimp only
        rw [Function.update_of_ne (Nat.ne_of_lt hi)]
      have hinv₂ : (ep₁.addMultijmp insn jmp).Inv := ⟨hinv₁.active_opened, hinv₁.opened_lt,
        hinv₁.target_lt, hinv₁.fresh, hinv₁.waiting, hinv₁.target_inj⟩
      have hrest := ih defaultCase hinv₂ hA' (hn.trans hgrows₁.block_le)
      refine ⟨hrest.inv, (hgrows₁.trans hadd).trans hrest.grows, hrest.active.trans hactive,
        hrest.nextSwitch.trans hsame.1, fun F hF => ?_, fun F hF => ?_⟩
      · have hjump' : c.jump ((F.bbTarget c.label).getD 0) = some jmp := by
          rwa [htarget _ (hadd.trans hrest.grows) F hF]
        rw [hrest.jumps F hF,
          show F.jumps (c :: cs) = jmp :: F.jumps cs from List.filterMap_cons_some hjump',
          addMultijmp]
        dsimp only
        rw [Function.update_self, hsame.2, List.append_assoc]
        rfl
      · rw [hrest.default F hF, hdefault, hsome, if_neg Bool.false_ne_true, Option.or_none]

theorem leaveSwitch_spec (insn : InsnId) (defaultCase : Option BlockId) {switchEnd : BlockId}
    {X : LabelId → Prop} (hinv : ep.Inv) (hheld : ep.Held X switchEnd) (hX : ∀ l, X l → L l)
    (hn : n ≤ switchEnd) :
    (ep.leaveSwitch insn switchEnd defaultCase).Inv ∧
      (ep.leaveSwitch insn switchEnd defaultCase).Open ∧
      Grows n insn A L ep (ep.leaveSwitch insn switchEnd defaultCase) ∧
      (∀ i ≠ insn, (ep.leaveSwitch insn switchEnd defaultCase).multijmpList i = ep.multijmpList i) ∧
      (ep.leaveSwitch insn switchEnd defaultCase).multijmpList insn = (ep.multijmpList insn ++
        [(⟨defaultCase.getD switchEnd, 1, 0⟩ : Multijmp)]).mergeSort multijmpLe ∧
      (ep.leaveSwitch insn switchEnd defaultCase).nextSwitch = ep.nextSwitch ∧
      ∃ z, (ep.leaveSwitch insn switchEnd defaultCase).point = some z ∧
        ∀ F, Covers (ep.leaveSwitch insn switchEnd defaultCase) F → F.Flows (switchEnd, 0) z ∧
          (ep.Open → ∀ x ∈ ep.point, F.Flows x z) := by
  obtain ⟨hinv', hopen', hset, z, hpoint, hflow⟩ := setActiveblock_spec (n := n) (w := insn)
    (A := A) (L := L) hinv hheld hX hn
  have hsame : (ep.setActiveblock switchEnd).multijmpList = ep.multijmpList ∧
      (ep.setActiveblock switchEnd).nextSwitch = ep.nextSwitch := by
    rw [setActiveblock_eq]
    split
    · exact ⟨rfl, rfl⟩
    · rw [addGoto_eq]
      exact ⟨(nextSwitch_addOneInsn _).2, (nextSwitch_addOneInsn _).1⟩
  unfold leaveSwitch
  generalize ep.setActiveblock switchEnd = ep' at *
  unfold sortSwitchCases addMultijmp
  dsimp only
  refine ⟨⟨hinv'.active_opened, hinv'.opened_lt, hinv'.target_lt, hinv'.fresh, hinv'.waiting,
    hinv'.target_inj⟩, hopen', ⟨hset.block_le, hset.switch_le, hset.insns, hset.target,
      fun i hi => ?_, hset.waits, fun b hb X hX hh => ?_, hset.unbound⟩, fun i hi => ?_, ?_,
        hsame.2, z, hpoint, fun F hF => hflow F ⟨hF.insns, hF.target⟩⟩
  · dsimp only
    rw [Function.update_of_ne (Nat.ne_of_lt hi), Function.update_of_ne (Nat.ne_of_lt hi)]
    exact hset.jumps i hi
  · have := hset.held b hb X hX hh
    exact ⟨this.lt, this.waits, this.labels⟩
  · rw [Function.update_of_ne hi, Function.update_of_ne hi, hsame.1]
  · rw [Function.update_self, Function.update_self, hsame.1]

theorem linearizes_switch {e : ExprId} {cases : List SwitchCase} {brk : LabelId} {s : Statement}
    (hs : s.Linearizes) : (Statement.switch e cases brk s).Linearizes := by
  intro A ep hsound h
  have hd := hsound.distinct
  have hexits := hsound.exits
  simp only [Statement.Distinct, Statement.labels, Statement.exits, List.nodup_append,
    List.nodup_cons, List.mem_cons] at hd hexits
  obtain ⟨hjumps, hdisjoint, hcases⟩ := hsound.jumps
  have hbrk : ep.bbTarget brk = none := h.unbound brk (List.mem_cons_self ..)
  have hsoundBody : s.Sound fun l => A l ∨ l = brk := by
    refine ⟨?_, hjumps, fun l hl => Or.inl (hsound.labels l hl), fun l hl => ?_⟩
    · simp only [Statement.Distinct, List.nodup_append]
      grind
    · have := hexits l (Or.inr hl)
      grind
  have hnames : ∀ l, s.Names l → (Statement.switch e cases brk s).Names l ∧ l ≠ brk := by
    intro l
    simp only [Statement.Names, Statement.labels, Statement.exits, List.mem_append, List.mem_cons]
    grind
  have hbrkName : (Statement.switch e cases brk s).Names brk := by
    simp [Statement.Names, Statement.exits]
  have hinv₁ := h.inv.allocBasicBlock
  have halloc : Grows ep.nextBlock ep.nextSwitch A (fun _ => False) ep ep.allocBasicBlock.1 :=
    grows_allocBasicBlock
  have hend₁ := held_allocBasicBlock h.inv
  have hpoint₁ : ep.allocBasicBlock.1.point = ep.point := rfl
  unfold linearizeStatement
  dsimp only
  split
  · -- Without an active block nothing is made.
    rename_i hact
    have hsame : (ep.allocBasicBlock.1.linearizeExpression e).active = ep.active :=
      active_addOneInsn _
    have hnone : ep.active = none := hsame.symm.trans hact
    have hpoint : ep.point = none := by rw [point, hnone]; rfl
    refine ⟨hinv₁.addOneInsn _, open_of_none hact, (grows_allocBasicBlock.trans
      (grows_linearizeExpression e)), fun F _ _ => ?_⟩
    rw [hpoint, point, hact]
    rfl
  · rename_i hact
    have hinsn : (ep.allocBasicBlock.1.linearizeExpression e).nextSwitch = ep.nextSwitch :=
      (nextSwitch_addOneInsn _).1
    rw [enterSwitch_eq, hinsn]
    dsimp only
    obtain ⟨hinv₂, hact₂, hgrows₂, hnext₂, hlist₂, hswitch⟩ := startSwitch_spec
      (n := ep.nextBlock + 1) (A := A) (L := fun _ => False) hinv₁ e
    generalize startSwitch ep.allocBasicBlock.1 e = ep₂ at *
    have hspec : CasesSpec ep₂.nextBlock A (fun _ => False) ep.nextSwitch cases none ep₂
        (ep₂.addCases ep.nextSwitch cases none) :=
      addCases_spec _ cases none hinv₂ (fun c hc => hsound.labels _ (hcases c hc)) (Nat.le_refl _)
    generalize ep₂.addCases ep.nextSwitch cases none = r at *
    change Emitted A _ _ ep (((r.1.bindLabel brk ep.nextBlock).linearizeStatement s).leaveSwitch
      ep.nextSwitch ep.nextBlock r.2)
    have hgrows₃ : Grows ep.nextBlock ep.nextSwitch A (fun _ => False) ep r.1 :=
      (halloc.trans (hgrows₂.mono (Nat.le_succ _) (Nat.le_refl _) (fun _ hf => hf)
        fun _ hA => Or.inl hA)).trans (hspec.grows.mono ((Nat.le_succ _).trans hgrows₂.block_le)
          (Nat.le_refl _) (fun _ hf => hf) fun _ hA => Or.inl hA)
    have hend₂ := hgrows₂.held _ (Nat.lt_succ_self _) _ (fun _ hf => hf.elim) hend₁
    have hend₃ := hspec.grows.held _ hend₂.lt _ (fun _ hf => hf.elim) hend₂
    have hbrk₃ : r.1.bbTarget brk = none :=
      hgrows₃.unbound brk (hexits brk (Or.inl rfl)) not_false hbrk
    have hend₄ := hend₃.bindLabel_self brk
    have hbind : Grows ep.nextBlock r.1.nextSwitch A (Statement.switch e cases brk s).Names r.1
        (r.1.bindLabel brk ep.nextBlock) :=
      grows_bindLabel hbrk₃ (Or.inr hbrkName) (Or.inl (Nat.le_refl _)) (Or.inl hend₃.waits)
    have hinv₄ : (r.1.bindLabel brk ep.nextBlock).Inv :=
      hspec.inv.bindLabel hend₃.lt fun _ l hl => (hend₃.labels l hl).elim
    have hact₄ : (r.1.bindLabel brk ep.nextBlock).active = none := hspec.active.trans hact₂
    have hnext₄ : (r.1.bindLabel brk ep.nextBlock).nextSwitch = ep.nextSwitch + 1 :=
      hspec.nextSwitch.trans hnext₂
    have hgrows₄ : Grows ep.nextBlock ep.nextSwitch A (· = brk) ep (r.1.bindLabel brk ep.nextBlock) :=
      (hgrows₃.mono (Nat.le_refl _) (Nat.le_refl _) (fun _ hf => hf.elim)
        fun _ hA => Or.inl hA).trans
          (grows_bindLabel hbrk₃ (Or.inr rfl) (Or.inl (Nat.le_refl _)) (Or.inl hend₃.waits))
    have hready : Ready s.labels s.exits (r.1.bindLabel brk ep.nextBlock) := by
      refine Ready.of_grows (h.mono (fun _ hl => hl) (List.subset_cons_self _ _)) hgrows₄ hinv₄
        (open_of_none hact₄) (fun l hl => ?_) fun l hl => ⟨fun hA => ?_, ?_⟩
      · exact (hnames l (List.mem_append_left _ hl)).2
      · exact hsoundBody.exits l hl (Or.inl hA)
      · exact (hnames l (List.mem_append_right _ hl)).2
    have hbody := hs _ _ hsoundBody hready
    have hpoint₄ : (r.1.bindLabel brk ep.nextBlock).point = none := by rw [point, hact₄]; rfl
    have htarget₄ : (r.1.bindLabel brk ep.nextBlock).bbTarget brk = some ep.nextBlock :=
      bbTarget_bindLabel _ _
    have hlist₄ : ∀ F, Covers (r.1.bindLabel brk ep.nextBlock) F →
        (r.1.bindLabel brk ep.nextBlock).multijmpList ep.nextSwitch = F.jumps cases := by
      intro F hF
      have := hspec.jumps F (hF.of_grows hbind)
      rwa [show ep₂.multijmpList ep.nextSwitch = [] from hlist₂, List.nil_append] at this
    generalize r.1.bindLabel brk ep.nextBlock = ep₄ at *
    generalize hep₅ : ep₄.linearizeStatement s = ep₅ at *
    have hend₅ := hbody.grows.held _ hend₄.lt _ (fun l hl hl' => (hnames l hl').2 hl) hend₄
    obtain ⟨hinv, hopen, hleave, hother, hlist, hnext, z, hpoint, hflow⟩ := leaveSwitch_spec
      ep.nextSwitch r.2 (n := ep.nextBlock) (A := A) (L := (· = brk)) hbody.inv hend₅
      (fun _ hl => hl) (Nat.le_refl _)
    have hname : ∀ l, l = brk → (Statement.switch e cases brk s).Names l := by
      rintro l rfl
      exact hbrkName
    refine ⟨hinv, hopen, ?_, fun F hF hC => ?_⟩
    · exact (hgrows₄.mono (Nat.le_refl _) (Nat.le_refl _) hname fun _ hA => Or.inl hA).trans
        ((hbody.grows.mono hgrows₄.block_le hgrows₄.switch_le (fun l hl => (hnames l hl).1)
          fun l hA => hA.imp_right (hname l)).trans (hleave.mono (Nat.le_refl _) (Nat.le_refl _)
            hname fun _ hA => Or.inl hA))
    · have hF₅ := hF.of_grows hleave
      have hF₄ := hF₅.of_grows hbody.grows
      have hF₃ := hF₄.of_grows hbind
      have hF₂ := hF₃.of_grows hspec.grows
      obtain ⟨bb, hbb⟩ := Option.ne_none_iff_exists'.1 hact
      have hactive : ep.active = some bb := by
        have hsame : (ep.allocBasicBlock.1.linearizeExpression e).active = ep.active :=
          active_addOneInsn _
        rw [← hbb, hsame]
      have hpoint₀ : ep.point = some (bb, (ep.insns bb).length) := by rw [point, hactive]; rfl
      rw [hpoint₀]
      obtain ⟨heval, hat⟩ := hswitch F hF₂ _ hpoint₀
      obtain ⟨hendFlow, hin⟩ := hflow F hF
      have hnext₅ : ep.nextSwitch < ep₅.nextSwitch :=
        (Nat.lt_of_lt_of_eq (Nat.lt_succ_self _) hnext₄.symm).trans_le hbody.grows.switch_le
      -- The jumps of this switch, and of the switches in its body.
      have hdefault : r.2.getD ep.nextBlock = F.defaultBlock cases ep.nextBlock := by
        rw [hspec.default F hF₃, Option.or_none, Entrypoint.defaultBlock]
      have hjumpsF : F.multijmpList ep.nextSwitch = (F.jumps cases ++
          [(⟨F.defaultBlock cases ep.nextBlock, 1, 0⟩ : Multijmp)]).mergeSort multijmpLe := by
        rw [hC ep.nextSwitch (Nat.le_refl _) (hnext.symm ▸ hnext₅), hlist,
          hbody.grows.jumps _ (hnext₄.symm ▸ Nat.lt_succ_self _), hlist₄ F hF₄, hdefault]
      have hC₅ : Completes ep₄.nextSwitch ep₅ F := fun i hi hlt =>
        (hC i (hgrows₄.switch_le.trans hi) (hnext.symm ▸ hlt)).trans
          (hother i (Nat.ne_of_gt (hnext₄.symm.le.trans hi)))
      have hcode := hbody.code F hF₅ hC₅
      rw [hpoint₄] at hcode
      refine ⟨ep.nextBlock, ep₅.point, z, ⟨ep.nextSwitch, heval, hat, hjumpsF⟩, hdisjoint,
        hsoundBody.distinct, hcode, hin hbody.opened, ?_, hendFlow, hpoint⟩
      exact hF₄.target _ _ htarget₄

end

mutual

theorem Statement.linearizes : ∀ s : Statement, s.Linearizes
  | .none => linearizes_none
  | .expression e => linearizes_expression e
  | .ret expr isVoid l => linearizes_ret expr isVoid l
  | .case _ s => linearizes_case s.linearizes
  | .label _ _ s => linearizes_label s.linearizes
  | .goto l => linearizes_goto l
  | .compound ss _ => linearizes_compound ss.linearizes
  | .ifThen _ s => linearizes_ifThen s.linearizes
  | .ifElse _ s t => linearizes_ifElse s.linearizes t.linearizes
  | .switch _ _ _ s => linearizes_switch s.linearizes
  | .iterator pre _ body post _ _ _ =>
    linearizes_iterator pre.linearizes body.linearizes post.linearizes

theorem Statements.linearizes : ∀ ss : Statements, ss.Linearizes
  | .nil => linearizes_nil
  | .cons s ss => linearizes_cons s.linearizes ss.linearizes

end

end Sparse
