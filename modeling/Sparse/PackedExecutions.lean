import Sparse.SilentKills

/-!
# Packing basic blocks

`pack_basic_blocks` lets the parents of a block that only branches go past it, kills the block when none
of them is left, and joins a block to its only parent. An execution comes to the same instructions
that show, after the same ones, and they read the same.
-/

namespace Sparse

open ProgramPaths

/-! ## Where jumps lead -/

namespace Instruction

variable {insn insn' insn'' : Instruction} {env : Pseudo → BitVec 64} {old new x : BlockId} {ptr : BranchSlot}

/-- The instruction names `x`, and goes there if it is a branch or a switch. -/
def Leads (insn : Instruction) (env : Pseudo → BitVec 64) (x : BlockId) : Prop :=
  x ∈ insn.successors ∧ (insn.opcode.chooses = true → insn.choice env = some x)

theorem mem_successors_of_goesTo (hop : insn.opcode = .br) (hgo : insn.goesTo env = some x) : x ∈ insn.successors := by
  unfold goesTo at hgo
  unfold successors
  rw [hop]
  dsimp only
  split at hgo
  · rename_i ht hf
    rw [ht, hf]
    split at hgo
    · simp [← Option.some.inj hgo]
    · simp [← Option.some.inj hgo]
  · rw [hgo]
    simp

theorem mem_successors_of_choice (hop : insn.opcode.chooses = true) (hgo : insn.choice env = some x) :
    x ∈ insn.successors := by
  rcases Opcode.eq_of_chooses hop with hop | hop
  · rw [choice_of_br hop] at hgo
    exact mem_successors_of_goesTo hop hgo
  · rw [choice, if_pos hop, Option.map_eq_some_iff] at hgo
    obtain ⟨jmp, hjmp, rfl⟩ := hgo
    rw [successors, hop]
    exact List.mem_map_of_mem (FlowInvariant.mem_of_selectJump hjmp)

/-- A default takes every value that is left. -/
theorem exists_selectJump {jmps : List Multijmp} (h : ∃ jmp ∈ jmps, jmp.stop.slt jmp.begin = true) (value : BitVec 64) :
    ∃ jmp, Ir.selectJump value jmps = some jmp := by
  induction jmps with
  | nil =>
    obtain ⟨jmp, hjmp, -⟩ := h
    cases hjmp
  | cons jmp jmps ih =>
    obtain ⟨default, hdefault, hstop⟩ := h
    unfold Ir.selectJump
    split
    · exact ⟨jmp, rfl⟩
    · rename_i hrange
      split
      · exact ⟨jmp, rfl⟩
      · rcases List.mem_cons.1 hdefault with rfl | hrest
        · exact absurd hstop hrange
        · exact ih ⟨default, hrest, hstop⟩

theorem exists_choice (hop : insn.opcode.chooses = true) (h : insn.Decides) : ∃ y, insn.choice env = some y := by
  rcases Opcode.eq_of_chooses hop with hop | hop
  · obtain ⟨t, ht⟩ := Option.ne_none_iff_exists'.1 (h.branch hop)
    rw [choice_of_br hop]
    cases hf : insn.bbFalse with
    | none => exact ⟨t, by rw [goesTo, ht, hf]⟩
    | some f =>
      rw [goesTo_eq ht hf]
      split
      · exact ⟨t, rfl⟩
      · exact ⟨f, rfl⟩
  · obtain ⟨jmp, hjmp⟩ := exists_selectJump (h.switch hop) (env insn.target)
    exact ⟨jmp.target, by rw [choice, if_pos hop, hjmp, Option.map_some]⟩

theorem leads_of_chooses (hop : insn.opcode.chooses = true) : insn.Leads env x ↔ insn.choice env = some x :=
  ⟨fun h => h.2 hop, fun h => ⟨mem_successors_of_choice hop h, fun _ => h⟩⟩

theorem leads_of_br (hop : insn.opcode = .br) : insn.Leads env x ↔ insn.goesTo env = some x := by
  rw [leads_of_chooses (by rw [hop]; rfl), choice_of_br hop]

theorem leads_congr (hflow : insn'.flow = insn.flow) {env' : Pseudo → BitVec 64}
    (henv : insn.opcode.chooses = true → env' insn'.target = env insn.target) :
    insn'.Leads env' x ↔ insn.Leads env x := by
  unfold Leads
  rw [successors_of_flow hflow, opcode_of_flow hflow]
  exact and_congr_right fun _ => forall_congr' fun hop => by rw [choice_congr hflow (henv hop)]

/-- An instruction without the blocks that it names. -/
def withoutBranches (insn : Instruction) : Instruction :=
  { insn with bbTrue := none, bbFalse := none, multijmpList := [] }

/-- Some jumps to `old` go to `new` instead. -/
structure Redirects (old new : BlockId) (insn insn' : Instruction) : Prop where
  rest : insn'.withoutBranches = insn.withoutBranches
  other : insn.opcode.isJump = false → insn' = insn
  decides : insn.Decides → insn'.Decides
  kept : ∀ env x, insn.Leads env x → insn'.Leads env x ∨ x = old ∧ insn'.Leads env new
  moved : ∀ env x, insn'.Leads env x → insn.Leads env x ∨ x = new ∧ insn.Leads env old

namespace Redirects

theorem refl (old new : BlockId) (insn : Instruction) : Redirects old new insn insn :=
  ⟨rfl, fun _ => rfl, fun h => h, fun _ _ h => .inl h, fun _ _ h => .inl h⟩

theorem opcode (h : Redirects old new insn insn') : insn'.opcode = insn.opcode := by
  have hop := congrArg Instruction.opcode h.rest
  exact hop

theorem trans (h : Redirects old new insn insn') (h' : Redirects old new insn' insn'') :
    Redirects old new insn insn'' where
  rest := h'.rest.trans h.rest
  other hop := (h'.other (by rw [h.opcode]; exact hop)).trans (h.other hop)
  decides hd := h'.decides (h.decides hd)
  kept env x hx := by
    rcases h.kept env x hx with hx | ⟨rfl, hnew⟩
    · exact h'.kept env x hx
    · rcases h'.kept env new hnew with hnew | ⟨-, hnew⟩
      · exact .inr ⟨rfl, hnew⟩
      · exact .inr ⟨rfl, hnew⟩
  moved env x hx := by
    rcases h'.moved env x hx with hx | ⟨rfl, hold⟩
    · exact h.moved env x hx
    · rcases h.moved env old hold with hold | ⟨-, hold⟩
      · exact .inr ⟨rfl, hold⟩
      · exact .inr ⟨rfl, hold⟩

/-- The choice says where the jump leads. -/
theorem of_choice (hrest : insn'.withoutBranches = insn.withoutBranches) (hop : insn.opcode.chooses = true)
    (hdecides : insn.Decides → insn'.Decides)
    (hchoice : ∀ env, insn'.choice env = insn.choice env ∨ insn.choice env = some old ∧ insn'.choice env = some new) :
    Redirects old new insn insn' := by
  have hsame : insn'.opcode = insn.opcode := by
    have hsame := congrArg Instruction.opcode hrest
    exact hsame
  have hop' : insn'.opcode.chooses = true := by rw [hsame]; exact hop
  refine ⟨hrest, fun hjump => ?_, hdecides, fun env x hx => ?_, fun env x hx => ?_⟩
  · rw [Opcode.isJump_of_chooses hop] at hjump
    cases hjump
  · rw [leads_of_chooses hop] at hx
    rw [leads_of_chooses hop', leads_of_chooses hop']
    rcases hchoice env with hsame | ⟨hold, hnew⟩
    · exact .inl (hsame.trans hx)
    · rw [hold] at hx
      exact .inr ⟨(Option.some.inj hx).symm, hnew⟩
  · rw [leads_of_chooses hop'] at hx
    rw [leads_of_chooses hop, leads_of_chooses hop]
    rcases hchoice env with hsame | ⟨hold, hnew⟩
    · exact .inl (hsame.symm.trans hx)
    · rw [hnew] at hx
      exact .inr ⟨(Option.some.inj hx).symm, hold⟩

/-- The slot of a branch takes part in the choice of the branch. -/
theorem setBranch_br (hop : insn.opcode = .br) (ho : insn.branch ptr = some old) (hptr : ∀ n, ptr ≠ .jump n) :
    Redirects old new insn (insn.setBranch new ptr) := by
  have hop' : (insn.setBranch new ptr).opcode = .br := (setBranch_opcode insn new ptr).trans hop
  refine .of_choice (by cases ptr <;> rfl) (by rw [hop]; rfl) (fun hd => ⟨fun _ => ?_, fun hswitch => ?_⟩) fun env => ?_
  · cases ptr with
    | bbTrue => exact Option.some_ne_none new
    | bbFalse | jump n => exact hd.branch hop
  · rw [hop'] at hswitch
    cases hswitch
  · rw [choice_of_br hop, choice_of_br hop']
    cases ptr with
    | jump n => exact absurd rfl (hptr n)
    | bbTrue =>
      have ht : insn.bbTrue = some old := ho
      cases hf : insn.bbFalse with
      | none =>
        unfold goesTo
        rw [ht, hf]
        exact .inr ⟨rfl, by simp [setBranch, hf]⟩
      | some f =>
        have hnew : (insn.setBranch new .bbTrue).goesTo env = if env insn.target ≠ 0 then some new else some f :=
          goesTo_eq rfl hf
        rw [hnew, goesTo_eq ht hf]
        by_cases hcond : env insn.target ≠ 0
        · rw [if_pos hcond, if_pos hcond]
          exact .inr ⟨rfl, rfl⟩
        · rw [if_neg hcond, if_neg hcond]
          exact .inl rfl
    | bbFalse =>
      have hf : insn.bbFalse = some old := ho
      cases ht : insn.bbTrue with
      | none =>
        unfold goesTo
        exact .inl (by simp [setBranch, ht])
      | some t =>
        have hnew : (insn.setBranch new .bbFalse).goesTo env = if env insn.target ≠ 0 then some t else some new :=
          goesTo_eq ht rfl
        rw [hnew, goesTo_eq ht hf]
        by_cases hcond : env insn.target ≠ 0
        · rw [if_pos hcond, if_pos hcond]
          exact .inl rfl
        · rw [if_neg hcond, if_neg hcond]
          exact .inr ⟨rfl, rfl⟩

/-- A value selects the entry that it selected, and that may have a new target. -/
theorem selectJump_modify {jmps : List Multijmp} {n : ℕ} {jmp : Multijmp} (hjmp : jmps[n]? = some jmp)
    (new : BlockId) (value : BitVec 64) :
    Ir.selectJump value (jmps.modify n ({ · with target := new })) = Ir.selectJump value jmps ∨
      Ir.selectJump value jmps = some jmp ∧
        Ir.selectJump value (jmps.modify n ({ · with target := new })) = some { jmp with target := new } := by
  induction jmps generalizing n with
  | nil => exact .inl (by simp)
  | cons first jmps ih =>
    cases n with
    | zero =>
      obtain rfl : first = jmp := Option.some.inj hjmp
      simp only [List.modify_zero_cons, Ir.selectJump]
      split
      · exact .inr ⟨rfl, rfl⟩
      · split
        · exact .inr ⟨rfl, rfl⟩
        · exact .inl rfl
    | succ n =>
      simp only [List.modify_succ_cons, Ir.selectJump]
      split
      · exact .inl rfl
      · split
        · exact .inl rfl
        · exact ih hjmp

/-- The slot of a switch is the target of one of its entries. -/
theorem setBranch_switch {n : ℕ} (hop : insn.opcode = .switch) (ho : insn.branch (.jump n) = some old) :
    Redirects old new insn (insn.setBranch new (.jump n)) := by
  have hop' : (insn.setBranch new (.jump n)).opcode = .switch := hop
  simp only [branch, Option.map_eq_some_iff] at ho
  obtain ⟨jmp, hj, rfl⟩ := ho
  refine .of_choice rfl (by rw [hop]; rfl) (fun hd => ⟨fun hbr => ?_, fun _ => ?_⟩) fun env => ?_
  · rw [hop'] at hbr
    cases hbr
  · obtain ⟨default, hdefault, hstop⟩ := hd.switch hop
    obtain ⟨k, hk, rfl⟩ := List.mem_iff_getElem.1 hdefault
    have hk' : k < (insn.multijmpList.modify n ({ · with target := new })).length := by simpa using hk
    refine ⟨(insn.multijmpList.modify n ({ · with target := new }))[k], List.getElem_mem hk', ?_⟩
    rw [List.getElem_modify]
    split <;> exact hstop
  · rw [choice, if_pos hop', choice, if_pos hop]
    rcases selectJump_modify hj new (env insn.target) with hsame | ⟨hold, hnew⟩
    · exact .inl (congrArg (Option.map Multijmp.target) hsame)
    · exact .inr ⟨by rw [hold, Option.map_some], congrArg (Option.map Multijmp.target) hnew⟩

theorem setBranch (hm : ptr.MemOf insn.opcode) (ho : insn.branch ptr = some old) :
    Redirects old new insn (insn.setBranch new ptr) := by
  cases ptr with
  | bbTrue | bbFalse => exact setBranch_br hm ho (by simp)
  | jump n => exact setBranch_switch hm ho

end Redirects

end Instruction

namespace Ir

variable {ir ir' ir'' : Ir} {M : Meaning} {e b b' bb parent old new t x : BlockId} {br i j : InsnId} {p : Pseudo}
  {done : List InsnId}

/-- The jumps of the executions are those of the last instructions. -/
theorem jumps_iff (h : FlowInvariant ∅ ir) : (ir.runs M e).jumps done b x ↔
    ∃ i, ir.lastInstruction b = some i ∧ (ir.insn i).Leads (ir.env M done) x := by
  constructor
  · rintro ⟨hx, hgo⟩
    have hcount := h.named b (Set.notMem_empty b) (h.live_of_mem_children hx).1 x
    have hmem : x ∈ ir.successors b := by
      rw [← List.count_pos_iff, ← hcount]
      exact List.count_pos_iff.2 hx
    unfold successors at hmem
    split at hmem
    · rename_i i hl
      exact ⟨i, hl, hmem, hgo i hl⟩
    · exact absurd hmem List.not_mem_nil
  · rintro ⟨i, hl, hmem, hgo⟩
    refine ⟨(h.mem_children_iff hl).2 hmem, fun i' hl' => ?_⟩
    rw [hl] at hl'
    obtain rfl := Option.some.inj hl'
    exact hgo

/-- Blocks that end in the same jump go on to the same blocks. -/
theorem Prunes.jumps_iff (hp : Prunes ir ir') (h : ir.FlowInput e) (h' : ir'.FlowInput e) (hblind : M.Blind ir.hidden)
    (hlast : ∀ i, (ir.insn i).opcode.isJump = true → (ir'.lastInstruction b' = some i ↔ ir.lastInstruction b = some i))
    (hflow : ∀ i, (ir'.insn i).flow = (ir.insn i).flow)
    (htarget : ∀ i, ir.lastInstruction b = some i → (ir.insn i).opcode.chooses = true →
      (ir'.insn i).target = (ir.insn i).target) :
    (ir'.runs M e).jumps done b' x ↔ (ir.runs M e).jumps done b x := by
  rw [Ir.jumps_iff h'.flow, Ir.jumps_iff h.flow]
  refine exists_congr fun i => ?_
  by_cases hjump : (ir.insn i).opcode.isJump = true
  · rw [hlast i hjump]
    refine and_congr_right fun hl => Instruction.leads_congr (hflow i) fun hop => ?_
    obtain ⟨hlive, -⟩ := h'.branches b' i ((hlast i hjump).2 hl) (by rw [hp.opcode]; exact hop)
    have ho : ir'.Owns i (.target i) :=
      ⟨hlive, Instruction.target_mem_operandSlots (by rw [hp.opcode]; exact hop) i⟩
    have hlasting : ir'.Lasting (ir'.insn i).target := h'.lasting_of_owns ho
    rw [hp.env_eq h h' hblind hlasting rfl, htarget i hl hop]
  · have hnone : ∀ insn : Instruction, insn.opcode = (ir.insn i).opcode → ∀ env, ¬ insn.Leads env x := by
      intro insn hop env hx
      have hmem := hx.1
      rw [Instruction.successors_of_isJump (by rw [hop]; exact Bool.eq_false_of_not_eq_true hjump)] at hmem
      cases hmem
    exact iff_of_false (fun hx => hnone _ (hp.opcode i) _ hx.2) fun hx => hnone _ rfl _ hx.2

/-! ## Going past a block -/

/-- Some jumps to `old` go to `new` instead, and nothing else changes but the edges. -/
structure Redirects (old new : BlockId) (ir ir' : Ir) : Prop where
  insns : ∀ b, (ir'.block b).insns = (ir.block b).insns
  parents : ∀ b, b ≠ new → (ir.block b).parents = [] → (ir'.block b).parents = []
  insn : ∀ i, (ir.insn i).Redirects old new (ir'.insn i)
  cell : ir'.cell = ir.cell
  users : ir'.users = ir.users
  definition : ir'.definition = ir.definition
  nextInsn : ir'.nextInsn = ir.nextInsn
  nextCell : ir'.nextCell = ir.nextCell

namespace Redirects

theorem refl (old new : BlockId) (ir : Ir) : Redirects old new ir ir :=
  ⟨fun _ => rfl, fun _ _ h => h, fun _ => .refl _ _ _, rfl, rfl, rfl, rfl, rfl⟩

theorem trans (h : Redirects old new ir ir') (h' : Redirects old new ir' ir'') : Redirects old new ir ir'' where
  insns b := (h'.insns b).trans (h.insns b)
  parents b hb hnil := h'.parents b hb (h.parents b hb hnil)
  insn i := (h.insn i).trans (h'.insn i)
  cell := h'.cell.trans h.cell
  users := h'.users.trans h.users
  definition := h'.definition.trans h.definition
  nextInsn := h'.nextInsn.trans h.nextInsn
  nextCell := h'.nextCell.trans h.nextCell

theorem rewriteBranch {ptr : BranchSlot} (hm : ptr.MemOf (ir.insn br).opcode) :
    Redirects old new ir (ir.rewriteBranch bb br ptr old new).1 := by
  by_cases hc : (ir.insn br).branch ptr ≠ some old ∨ new = old
  · rw [Ir.rewriteBranch, if_pos hc]
    exact refl old new ir
  · obtain ⟨ho, hne⟩ := not_or.1 hc
    rw [not_not] at ho
    rw [rewriteBranch_eq ir bb br ptr ho hne]
    refine ⟨fun _ => rfl, fun b hb hnil => ?_, fun i => ?_, rfl, rfl, rfl, rfl, rfl⟩
    · simp only [withGraph, AdjacencyLists.Graph.redirect, graph, if_neg hb]
      split
      · rw [hnil, List.erase_nil]
      · exact hnil
    · by_cases hi : i = br
      · subst hi
        simpa [withGraph] using Instruction.Redirects.setBranch hm ho
      · simpa [withGraph, hi] using Instruction.Redirects.refl old new (ir.insn i)

theorem rewriteBranches (ptrs : List BranchSlot) (hm : ∀ ptr ∈ ptrs, ptr.MemOf (ir.insn br).opcode) :
    Redirects old new ir (Ir.rewriteBranches bb br old new ptrs ir).1 := by
  induction ptrs generalizing ir with
  | nil => exact refl old new ir
  | cons ptr ptrs ih =>
    have hfirst : Redirects old new ir (ir.rewriteBranch bb br ptr old new).1 :=
      rewriteBranch (hm ptr List.mem_cons_self)
    refine hfirst.trans (ih fun q hq => ?_)
    rw [(hfirst.insn br).opcode]
    exact hm q (List.mem_cons_of_mem ptr hq)

theorem rewriteParentBranch : Redirects old new ir (ir.rewriteParentBranch bb old new).1 := by
  unfold Ir.rewriteParentBranch
  cases ir.lastInstruction bb with
  | none => exact refl old new ir
  | some i =>
    dsimp only
    split
    · exact refl old new ir
    · split
      next hop =>
        refine rewriteBranches _ fun ptr hptr => ?_
        rcases List.mem_pair.1 hptr with rfl | rfl <;> exact hop
      next hop =>
        refine rewriteBranches _ fun ptr hptr => ?_
        obtain ⟨n, -, rfl⟩ := List.mem_map.1 hptr
        exact hop
      next => exact refl old new ir

theorem rewriteParents (fuel : ℕ) : Redirects old new ir (Ir.rewriteParents old new fuel ir).1 := by
  induction fuel generalizing ir with
  | zero => exact refl old new ir
  | succ fuel ih =>
    unfold Ir.rewriteParents
    split
    next => exact refl old new ir
    next parent _ _ =>
      have hfirst : Redirects old new ir (ir.rewriteParentBranch parent old new).1 := rewriteParentBranch
      split
      next ir' hr =>
        rw [hr] at hfirst
        exact hfirst.trans ih
      next ir' hr =>
        rw [hr] at hfirst
        exact hfirst

theorem live (h : Redirects old new ir ir') (i : InsnId) : ir'.live i ↔ ir.live i := by
  have hsame := congrArg Instruction.bb (h.insn i).rest
  have hbb : (ir'.insn i).bb = (ir.insn i).bb := hsame
  unfold Ir.live
  rw [hbb]

theorem load (h : Redirects old new ir ir') (s : Address) : ir'.load s = ir.load s := by
  cases s with
  | target i =>
    have hsame := congrArg Instruction.target (h.insn i).rest
    exact hsame
  | src1 i =>
    have hsame := congrArg Instruction.src1 (h.insn i).rest
    exact hsame
  | src2 i =>
    have hsame := congrArg Instruction.src2 (h.insn i).rest
    exact hsame
  | src3 i =>
    have hsame := congrArg Instruction.src3 (h.insn i).rest
    exact hsame
  | cell c => exact congrFun h.cell c

theorem form (h : Redirects old new ir ir') (i : InsnId) : (ir'.insn i).form = (ir.insn i).form := by
  have hsame := congrArg Instruction.form (h.insn i).rest
  exact hsame

theorem prunes (h : Redirects old new ir ir') : Prunes ir ir' :=
  .of_same h.form (fun i hi => by rw [(h.insn i).other hi]) h.live h.load h.definition

theorem uses (h : Redirects old new ir ir') (huses : UseInvariant ir) : UseInvariant ir' :=
  huses.of_same h.form h.live h.load h.users h.definition h.nextInsn h.nextCell

theorem lastInstruction (h : Redirects old new ir ir') (b : BlockId) :
    ir'.lastInstruction b = ir.lastInstruction b := by
  rw [Ir.lastInstruction, h.insns, Ir.lastInstruction]

theorem input (hr : Redirects old new ir ir') (h : ir.FlowInput e) (hflow : FlowInvariant ∅ ir') (hne : e ≠ new) :
    ir'.FlowInput e := by
  refine h.of_prunes hr.prunes (hr.uses h.uses) hflow (hr.parents e hne h.entry) (fun i hi _ => ?_) fun b i hl hop => ?_
  · rw [hr.insns]
    exact hi
  · rw [hr.lastInstruction] at hl
    obtain ⟨hlive, hdecides⟩ := h.branches b i hl hop
    exact ⟨(hr.live i).2 hlive, (hr.insn i).decides hdecides⟩

section

variable (hr : Redirects old new ir ir') (h : ir.FlowInput e) (h' : ir'.FlowInput e) (hblind : M.Blind ir.hidden)
include hr h h' hblind

/-- The jump in the second function looks at the same value. -/
theorem leads_env (hl : ir'.lastInstruction b = some i) :
    (ir'.insn i).Leads (ir'.env M done) x ↔ (ir'.insn i).Leads (ir.env M done) x := by
  refine Instruction.leads_congr rfl fun hop => ?_
  have ho : ir'.Owns i (.target i) := ⟨(h'.branches b i hl hop).1, Instruction.target_mem_operandSlots hop i⟩
  have hlasting : ir'.Lasting (ir'.insn i).target := h'.lasting_of_owns ho
  exact hr.prunes.env_eq h h' hblind hlasting rfl

theorem jumps_kept (hj : (ir.runs M e).jumps done b x) :
    (ir'.runs M e).jumps done b x ∨ x = old ∧ (ir'.runs M e).jumps done b new := by
  obtain ⟨i, hl, hx⟩ := (jumps_iff h.flow).1 hj
  have hl' : ir'.lastInstruction b = some i := (hr.lastInstruction b).trans hl
  have hjumps : ∀ y, (ir'.insn i).Leads (ir.env M done) y → (ir'.runs M e).jumps done b y := fun y hy =>
    (jumps_iff h'.flow).2 ⟨i, hl', (hr.leads_env h h' hblind hl').2 hy⟩
  exact ((hr.insn i).kept _ x hx).imp (hjumps x) fun hnew => ⟨hnew.1, hjumps new hnew.2⟩

theorem jumps_moved (hj : (ir'.runs M e).jumps done b x) :
    (ir.runs M e).jumps done b x ∨ x = new ∧ (ir.runs M e).jumps done b old := by
  obtain ⟨i, hl', hx⟩ := (jumps_iff h'.flow).1 hj
  have hl : ir.lastInstruction b = some i := (hr.lastInstruction b).symm.trans hl'
  have hjumps : ∀ y, (ir.insn i).Leads (ir.env M done) y → (ir.runs M e).jumps done b y := fun y hy =>
    (jumps_iff h.flow).2 ⟨i, hl, hy⟩
  exact ((hr.insn i).moved _ x ((hr.leads_env h h' hblind hl').1 hx)).imp (hjumps x) fun hold =>
    ⟨hold.1, hjumps old hold.2⟩

end

end Redirects

/-- Constants have their values on all paths. -/
theorem FlowInput.env_val (h : ir.FlowInput e) (value : BitVec 64) (done : List InsnId) :
    ir.env M done (.val value) = M.initial (.val value) := by
  have hnone : ∀ j ∈ done, ir.Computes j → (ir.insn j).target ≠ .val value := by
    rintro j - ⟨hlive, hdef, hentry⟩ htarget
    rw [htarget] at hdef
    rcases h.uses.other _ j hdef rfl with hop | hop
    · obtain ⟨⟨k, hk⟩, -⟩ := h.sources j hlive hop
      rw [htarget] at hk
      cases hk
    · exact hentry hop
  rw [← List.append_nil done, env_append hnone]
  rfl

/-- Jumps to a block that only branches go to where it branches. -/
theorem Redirects.simplified (hr : Redirects bb t ir ir') (h : ir.FlowInput e) (hflow : FlowInvariant ∅ ir')
    (hne : e ≠ t) (hblind : M.Blind ir.hidden) (hconst : ∀ value, M.initial (.val value) = value)
    (hstill : ∀ i ∈ (ir.block bb).insns, ir.still i = true) (hl : ir.lastInstruction bb = some br)
    (hop : (ir.insn br).opcode = .br)
    (hgo : ∀ env : Pseudo → BitVec 64, (∀ value, env (.val value) = value) → (ir.insn br).goesTo env = some t) :
    Simplified M e ir ir' := by
  have h' := hr.input h hflow hne
  have hgoes : ∀ done, (ir.insn br).goesTo (ir.env M done) = some t := fun done =>
    hgo _ fun value => (h.env_val value done).trans (hconst value)
  have hbypass : Bypasses ir.still (ir.runs M e) (ir'.runs M e) bb t := {
    entry := rfl
    code := funext hr.insns
    silent := hstill
    leave := fun done => (jumps_iff h.flow).2 ⟨br, hl, (Instruction.leads_of_br hop).2 (hgoes done)⟩
    left := fun done x hj => by
      obtain ⟨i, hl', hx⟩ := (jumps_iff h.flow).1 hj
      rw [hl] at hl'
      obtain rfl := Option.some.inj hl'
      rw [Instruction.leads_of_br hop, hgoes done] at hx
      exact (Option.some.inj hx).symm
    kept := fun done b x hj => hr.jumps_kept h h' hblind hj
    moved := fun done b x hj => hr.jumps_moved h h' hblind hj }
  exact .of_shadows h h' hr.prunes hblind (hbypass.forward (hr.prunes.sees h h' hblind))
    (hbypass.backward ((Prunes.refl ir).sees h h hblind))

/-- `rewrite_branch_bb` redirects to where the branch goes, or does nothing. -/
theorem rewriteBranchBb_spec (ir : Ir) (bb : BlockId) (br : InsnId) :
    ir.rewriteBranchBb bb br = (ir, none) ∨
      ∃ t, Redirects bb t ir (ir.rewriteBranchBb bb br).1 ∧
        ∀ env : Pseudo → BitVec 64, (∀ value, env (.val value) = value) → (ir.insn br).goesTo env = some t := by
  unfold rewriteBranchBb
  dsimp only
  split
  next t f ht hf =>
    split
    next value hvalue =>
      refine .inr ⟨if value ≠ 0 then t else f, .rewriteParents _, fun env henv => ?_⟩
      rw [goesTo_eq ht hf, hvalue, henv]
      split <;> rfl
    next => exact .inl rfl
  next hboth =>
    cases ht : (ir.insn br).bbTrue with
    | none => exact .inl rfl
    | some t =>
      refine .inr ⟨t, .rewriteParents _, fun env _ => ?_⟩
      cases hf : (ir.insn br).bbFalse with
      | none => rw [Instruction.goesTo, ht, hf]
      | some f => exact absurd hf (hboth t f ht)

/-! ## Killing a block -/

/-- A block that nothing goes to is killed. -/
theorem killBb_simplified (h : ir.FlowInput e) (hblind : M.Blind ir.hidden) (hne : e ≠ bb)
    (hparents : (ir.block bb).parents = []) (hstill : ∀ i ∈ (ir.block bb).insns, ir.still i = true) :
    Simplified M e ir (ir.killBb bb) := by
  obtain ⟨huses, hp, hkeeps⟩ := killBb_of_still h.uses h.dead h.symbols h.flow hstill
  have hother : ∀ b, b ≠ bb → ((ir.killBb bb).block b).insns = (ir.block b).insns := fun b hb => by
    rw [killBb_block_of_ne h.flow.consistent hb]
  have hself : (ir.killBb bb).lastInstruction bb = none := by
    rw [Ir.lastInstruction, killBb_block_self h.flow.consistent]
    rfl
  have hlast : ∀ b, b ≠ bb → (ir.killBb bb).lastInstruction b = ir.lastInstruction b := fun b hb => by
    rw [Ir.lastInstruction, hother b hb, Ir.lastInstruction]
  -- The branches and switches of the other blocks are not among what is killed.
  have hbranch : ∀ b i, b ≠ bb → ir.lastInstruction b = some i → (ir.insn i).opcode.chooses = true →
      (ir.killBb bb).live i ∧ ((ir.killBb bb).insn i).target = (ir.insn i).target := fun b i hb hl hop =>
    hkeeps i (fun hmem => hb (h.flow.owner b bb i (lastInstruction_mem hl) hmem)) (h.branches b i hl hop).1 hop
  have h' : (ir.killBb bb).FlowInput e := by
    refine h.of_prunes hp huses (h.flow.killBb (by simp [hparents])) ?_ (fun i hi _ => ?_) fun b i hl hop => ?_
    · rw [killBb_block_of_ne h.flow.consistent hne, h.entry]
      rfl
    · rw [hother e hne]
      exact hi
    · by_cases hb : b = bb
      · rw [hb, hself] at hl
        cases hl
      · rw [hlast b hb] at hl
        exact ⟨(hbranch b i hb hl hop).1, (h.branches b i hl hop).2.of_flow (killBb_flow h.flow.consistent bb i)⟩
  have hforgets : Forgets (ir.runs M e) ((ir.killBb bb).runs M e) bb := {
    entry := rfl
    start := hne
    code := hother
    into := fun done b hj => by
      have hmem := h.flow.mem_parents_iff.2 hj.1
      rw [hparents] at hmem
      cases hmem
    other := fun done b x hb => by
      refine hp.jumps_iff h h' hblind (fun i _ => by rw [hlast b hb]) (killBb_flow h.flow.consistent bb)
        fun i hl hop => ?_
      exact (hbranch b i hb hl hop).2 }
  exact .of_shadows h h' hp hblind (hforgets.forward (hp.sees h h' hblind))
    (hforgets.backward ((Prunes.refl ir).sees h h hblind))

/-! ## Joining a block to its parent -/

/-- The instructions that are handed over stay as they are, and so does what they share. -/
theorem moveInsns_same (ir : Ir) (bb parent : BlockId) :
    ((ir.moveInsns bb parent).cell = ir.cell ∧ (ir.moveInsns bb parent).users = ir.users ∧
      (ir.moveInsns bb parent).definition = ir.definition ∧ (ir.moveInsns bb parent).nextInsn = ir.nextInsn ∧
      (ir.moveInsns bb parent).nextCell = ir.nextCell) ∧
    ∀ i, ∃ c, (ir.moveInsns bb parent).insn i = { ir.insn i with bb := c } ∧ (c ≠ none ↔ ir.live i) := by
  have hfold : ∀ (is : List InsnId) (ir : Ir), let ir' := is.foldl (fun ir i =>
      if (ir.insn i).bb = none then ir else ir.setInsn i ({ · with bb := some parent })) ir
      (ir'.cell = ir.cell ∧ ir'.users = ir.users ∧ ir'.definition = ir.definition ∧ ir'.nextInsn = ir.nextInsn ∧
        ir'.nextCell = ir.nextCell) ∧
      ∀ i, ∃ c, ir'.insn i = { ir.insn i with bb := c } ∧ (c ≠ none ↔ ir.live i) := by
    intro is
    induction is with
    | nil => exact fun ir => ⟨⟨rfl, rfl, rfl, rfl, rfl⟩, fun i => ⟨(ir.insn i).bb, rfl, Iff.rfl⟩⟩
    | cons k is ih =>
      intro ir
      rw [List.foldl_cons]
      by_cases hk : (ir.insn k).bb = none
      · rw [if_pos hk]
        exact ih ir
      · rw [if_neg hk]
        obtain ⟨hrest, hinsns⟩ := ih (ir.setInsn k ({ · with bb := some parent }))
        refine ⟨hrest, fun i => ?_⟩
        obtain ⟨c, hinsn, hc⟩ := hinsns i
        refine ⟨c, ?_, ?_⟩
        · rw [hinsn]
          by_cases hi : i = k
          · subst hi
            simp
          · simp [hi]
        · rw [hc]
          unfold Ir.live
          by_cases hi : i = k
          · subst hi
            simp [hk]
          · simp [hi]
  exact hfold _ ir

theorem moveInsns_prunes (huses : UseInvariant ir) (bb parent : BlockId) :
    UseInvariant (ir.moveInsns bb parent) ∧ Prunes ir (ir.moveInsns bb parent) := by
  obtain ⟨⟨hcell, husers, hdef, hnext, hcells⟩, hinsn⟩ := moveInsns_same ir bb parent
  have hform : ∀ j, ((ir.moveInsns bb parent).insn j).form = (ir.insn j).form := fun j => by
    obtain ⟨c, hj, -⟩ := hinsn j
    rw [hj]
    rfl
  have hlive : ∀ j, (ir.moveInsns bb parent).live j ↔ ir.live j := fun j => by
    obtain ⟨c, hj, hc⟩ := hinsn j
    rw [← hc, Ir.live, hj]
  have hload : ∀ s, (ir.moveInsns bb parent).load s = ir.load s := by
    intro s
    cases s with
    | cell c => exact congrFun hcell c
    | target j | src1 j | src2 j | src3 j =>
      obtain ⟨c, hj, -⟩ := hinsn j
      simp only [Ir.load, hj]
  refine ⟨huses.of_same hform hlive hload husers hdef hnext hcells, .of_same hform (fun j _ => ?_) hlive hload hdef⟩
  obtain ⟨c, hj, -⟩ := hinsn j
  rw [hj]
  rfl

/-- The lists of instructions after the merge, and the blocks without parents. -/
theorem mergeIntoParent_block (h : FlowInvariant ∅ ir) (hne : parent ≠ bb)
    (hall : ∀ x ∈ (ir.block bb).parents, x = parent) :
    ((ir.mergeIntoParent bb parent).block bb).insns = [] ∧
      ((ir.mergeIntoParent bb parent).block parent).insns = (ir.block parent).insns.dropLast ++ (ir.block bb).insns ∧
      (∀ x, x ≠ bb → x ≠ parent → ((ir.mergeIntoParent bb parent).block x).insns = (ir.block x).insns) ∧
      ∀ x, (ir.block x).parents = [] → ((ir.mergeIntoParent bb parent).block x).parents = [] := by
  rw [(sameFlow_mergeIntoParent h.consistent hne hall).block]
  refine ⟨?_, ?_, fun x hx hxp => ?_, fun x hx => ?_⟩
  · simp [concatInsns, deleteLastInstruction, withGraph]
  · simp [concatInsns, deleteLastInstruction, withGraph, hne, hne.symm]
  · simp [concatInsns, deleteLastInstruction, withGraph, hx, hxp]
  · by_cases hxb : x = bb
    · subst hxb
      simp [concatInsns, deleteLastInstruction, withGraph, AdjacencyLists.Graph.absorb, graph, hne.symm]
    · by_cases hxp : x = parent
      · subst hxp
        simp [concatInsns, deleteLastInstruction, withGraph, AdjacencyLists.Graph.absorb, graph, hxb, hx]
      · simp [concatInsns, deleteLastInstruction, withGraph, AdjacencyLists.Graph.absorb, graph, hxb, hxp, hx]

/-- The merge loses the jump at the end of the parent. -/
theorem mergeIntoParent_prunes (h : FlowInvariant ∅ ir) (huses : UseInvariant ir) (hne : parent ≠ bb)
    (hall : ∀ x ∈ (ir.block bb).parents, x = parent) {last : InsnId} (hl : ir.lastInstruction parent = some last)
    (hjump : (ir.insn last).opcode.isJump = true) :
    UseInvariant (ir.mergeIntoParent bb parent) ∧ Prunes ir (ir.mergeIntoParent bb parent) ∧
      ∀ j, j ≠ last → KeepsBranch ir (ir.mergeIntoParent bb parent) j := by
  set shaped := (ir.withGraph (ir.graph.absorb bb parent)).deleteLastInstruction parent with hshaped
  have hload : ∀ s, shaped.load s = ir.load s := by
    intro s
    cases s <;> rfl
  have hprunes₁ : Prunes ir shaped := .of_same (fun _ => rfl) (fun _ _ => rfl) (fun _ => Iff.rfl) hload rfl
  have huses₁ : UseInvariant shaped := huses.of_same (fun _ => rfl) (fun _ => Iff.rfl) hload rfl rfl rfl rfl
  have hstill : shaped.still last = true := by
    have hjump' : (shaped.insn last).opcode.isJump = true := hjump
    simp [still, hjump']
  obtain ⟨huses₂, hprunes₂, hkeeps⟩ := killInstruction_of_still huses₁ hstill
  obtain ⟨huses₃, hprunes₃⟩ := moveInsns_prunes huses₂ bb parent
  have hmerge : ir.mergeIntoParent bb parent = (shaped.killInstruction last).moveInsns bb parent := by
    have hl' : (ir.withGraph (ir.graph.absorb bb parent)).lastInstruction parent = some last := hl
    unfold mergeIntoParent
    simp only [mergeIntoParent_edges h.consistent hne hall, hl', hshaped]
  rw [hmerge]
  refine ⟨huses₃, (hprunes₁.trans hprunes₂).trans hprunes₃, fun j hj hlive hop => ?_⟩
  obtain ⟨c, hmoved, hc⟩ := (moveInsns_same (shaped.killInstruction last) bb parent).2 j
  obtain ⟨hlive', htarget⟩ := hkeeps j hj hlive hop
  rw [Ir.live, hmoved]
  exact ⟨hc.2 hlive', htarget⟩

/-- The parent ends as the block did, or without a jump. -/
theorem mergeIntoParent_last (h : FlowInvariant ∅ ir) (hne : parent ≠ bb)
    (hall : ∀ x ∈ (ir.block bb).parents, x = parent) (hi : (ir.insn i).opcode.isJump = true) :
    (ir.mergeIntoParent bb parent).lastInstruction parent = some i ↔ ir.lastInstruction bb = some i := by
  obtain ⟨-, hjoined, -⟩ := mergeIntoParent_block h hne hall
  rw [Ir.lastInstruction, Ir.lastInstruction, hjoined, List.getLast?_append]
  cases hb : (ir.block bb).insns.getLast? with
  | some k => rw [Option.some_or]
  | none =>
    refine iff_of_false (fun hd => ?_) (by simp)
    rw [Option.none_or] at hd
    have hnot := h.jumpLast parent i (List.mem_of_getLast? hd)
    rw [hi] at hnot
    cases hnot

theorem mergeIntoParent_last_of_ne (h : FlowInvariant ∅ ir) (hne : parent ≠ bb)
    (hall : ∀ x ∈ (ir.block bb).parents, x = parent) (hb : b ≠ bb) (hbp : b ≠ parent) :
    (ir.mergeIntoParent bb parent).lastInstruction b = ir.lastInstruction b := by
  obtain ⟨-, -, hother, -⟩ := mergeIntoParent_block h hne hall
  rw [Ir.lastInstruction, hother b hb hbp, Ir.lastInstruction]

/-- The jump that is lost ends no other block. -/
theorem ne_of_lastInstruction (h : FlowInvariant ∅ ir) {last : InsnId} (hl : ir.lastInstruction parent = some last)
    (hb : b ≠ parent) (hli : ir.lastInstruction b = some i) : i ≠ last := by
  rintro rfl
  exact hb (h.owner b parent i (lastInstruction_mem hli) (lastInstruction_mem hl))

section

variable (h : ir.FlowInput e) (hne : parent ≠ bb) (hparent : parent ∈ (ir.block bb).parents)
  (hall : ∀ x ∈ (ir.block bb).parents, x = parent) (honly : ∀ x ∈ (ir.block parent).children, x = bb)
include h hne hparent hall honly

theorem mergeIntoParent_input : (ir.mergeIntoParent bb parent).FlowInput e := by
  obtain ⟨last, hl, hjump⟩ := exists_last h.flow (h.flow.mem_parents_iff.1 hparent)
  obtain ⟨hself, hjoined, hother, hparents⟩ := mergeIntoParent_block h.flow hne hall
  obtain ⟨huses, hp, hbr⟩ := mergeIntoParent_prunes h.flow h.uses hne hall hl hjump
  refine h.of_prunes hp huses (h.flow.mergeIntoParent hne hall hparent honly) (hparents e h.entry)
    (fun i hi hop => ?_) fun b i hli hop => ?_
  · by_cases hep : e = parent
    · subst hep
      rw [hjoined]
      rw [← List.dropLast_append_getLast? last hl] at hi
      rcases List.mem_append.1 hi with hi | hi
      · exact List.mem_append_left _ hi
      · obtain rfl := List.mem_singleton.1 hi
        rw [hop] at hjump
        cases hjump
    · rw [hother e (h.ne_of_mem_parents hparent) hep]
      exact hi
  · have hkeep : ∀ b, b ≠ parent → ir.lastInstruction b = some i →
        (ir.mergeIntoParent bb parent).live i ∧ ((ir.mergeIntoParent bb parent).insn i).Decides := by
      intro b hb hli
      obtain ⟨hlive, hdecides⟩ := h.branches b i hli hop
      exact ⟨(hbr i (ne_of_lastInstruction h.flow hl hb hli) hlive hop).1,
        hdecides.of_flow ((sameFlow_mergeIntoParent h.flow.consistent hne hall).flow i)⟩
    by_cases hb : b = bb
    · rw [hb, Ir.lastInstruction, hself] at hli
      cases hli
    · by_cases hbp : b = parent
      · subst hbp
        exact hkeep bb (Ne.symm hne) ((mergeIntoParent_last h.flow hne hall (Opcode.isJump_of_chooses hop)).1 hli)
      · exact hkeep b hbp (by rw [← mergeIntoParent_last_of_ne h.flow hne hall hb hbp]; exact hli)

/-- A block is joined to its only parent. -/
theorem mergeIntoParent_simplified (hblind : M.Blind ir.hidden) : Simplified M e ir (ir.mergeIntoParent bb parent) := by
  have hchild : bb ∈ (ir.block parent).children := h.flow.mem_parents_iff.1 hparent
  obtain ⟨last, hl, hjump⟩ := exists_last h.flow hchild
  obtain ⟨-, hjoined, hother, -⟩ := mergeIntoParent_block h.flow hne hall
  obtain ⟨-, hp, hbr⟩ := mergeIntoParent_prunes h.flow h.uses hne hall hl hjump
  have h' := mergeIntoParent_input h hne hparent hall honly
  have hflow : ∀ i, ((ir.mergeIntoParent bb parent).insn i).flow = (ir.insn i).flow :=
    (sameFlow_mergeIntoParent h.flow.consistent hne hall).flow
  have hcond : ∀ b, b ≠ parent → ∀ i, ir.lastInstruction b = some i → (ir.insn i).opcode.chooses = true →
      ((ir.mergeIntoParent bb parent).insn i).target = (ir.insn i).target := fun b hb i hli hop =>
    (hbr i (ne_of_lastInstruction h.flow hl hb hli) (h.branches b i hli hop).1 hop).2
  have habsorbs : Absorbs ir.still (ir.runs M e) ((ir.mergeIntoParent bb parent).runs M e) parent bb
      (ir.block parent).insns.dropLast last := {
    entry := rfl
    ne := hne
    start := h.ne_of_mem_parents hparent
    above := (List.dropLast_append_getLast? last hl).symm
    joined := hjoined
    code := fun b hb hbb => hother b hbb hb
    silent := by simp [still, hjump]
    leave := fun done x => by
      refine ⟨fun hj => honly x hj.1, ?_⟩
      rintro rfl
      rw [Ir.jumps_iff h.flow]
      refine ⟨last, hl, (h.flow.mem_children_iff hl).1 hchild, fun hop => ?_⟩
      obtain ⟨-, hdecides⟩ := h.branches parent last hl hop
      obtain ⟨y, hy⟩ : ∃ y, (ir.insn last).choice (ir.env M done) = some y := Instruction.exists_choice hop hdecides
      have hmem := (h.flow.mem_children_iff hl).2 (Instruction.mem_successors_of_choice hop hy)
      rw [hy, honly y hmem]
    into := fun done b hj => hall b (h.flow.mem_parents_iff.2 hj.1)
    fin := fun done x => hp.jumps_iff h h' hblind (fun i => mergeIntoParent_last h.flow hne hall) hflow
      (hcond bb (Ne.symm hne))
    other := fun done b x hb hbb => hp.jumps_iff h h' hblind
      (fun i _ => by rw [mergeIntoParent_last_of_ne h.flow hne hall hbb hb]) hflow (hcond b hb) }
  exact .of_shadows h h' hp hblind (habsorbs.forward (hp.sees h h' hblind))
    (habsorbs.backward ((Prunes.refl ir).sees h h hblind))

end

theorem packIntoParent_simplified (h : ir.FlowInput e) (hblind : M.Blind ir.hidden) (bb : BlockId) :
    Simplified M e ir (ir.packIntoParent bb) := by
  unfold packIntoParent
  split
  next => exact .refl h
  next parent hp =>
    obtain ⟨hmem, hall⟩ := FlowInvariant.onlyParent_spec hp
    split
    · exact .refl h
    · rename_i hne
      split
      · rename_i hc
        have honly : ∀ x ∈ (ir.block parent).children, x = bb := fun x hx =>
          of_decide_eq_true (List.all_eq_true.1 hc x hx)
        exact mergeIntoParent_simplified h hne hmem hall honly hblind
      · exact .refl h

/-! ## The whole pass -/

/-- What stands before the first active instruction is still. -/
theorem still_of_firstActive {is : List InsnId} (hi : ir.firstActive is = some i) :
    ∃ pre post, is = pre ++ i :: post ∧ ∀ j ∈ pre, ir.still j = true := by
  induction is with
  | nil => cases hi
  | cons j is ih =>
    have hskip : ir.firstActive is = some i → ir.still j = true →
        ∃ pre post, j :: is = pre ++ i :: post ∧ ∀ j ∈ pre, ir.still j = true := by
      intro hrest hj
      obtain ⟨pre, post, rfl, hpre⟩ := ih hrest
      exact ⟨j :: pre, post, rfl, List.forall_mem_cons.2 ⟨hj, hpre⟩⟩
    unfold firstActive at hi
    split at hi
    · rename_i hdead
      exact hskip hi (by simp [still, Ir.live, hdead])
    · split at hi
      next hop => exact hskip hi (by simp [still, hop, Opcode.isNop])
      next hop => exact hskip hi (by simp [still, hop, Opcode.isNop])
      next hop => exact hskip hi (by simp [still, hop, Opcode.isNop])
      next =>
        obtain rfl := Option.some.inj hi
        exact ⟨[], is, rfl, by simp⟩

/-- A block whose first active instruction is a branch does nothing else. -/
theorem still_of_branch (h : FlowInvariant ∅ ir) (hf : ir.firstActive (ir.block bb).insns = some br)
    (hop : (ir.insn br).opcode = .br) : ∀ i ∈ (ir.block bb).insns, ir.still i = true := by
  obtain ⟨pre, post, hinsns, hpre⟩ := still_of_firstActive hf
  have hbr : ir.still br = true := by simp [still, hop, Opcode.isJump]
  have hl := h.lastInstruction_of_isJump (FlowInvariant.mem_of_firstActive hf) (by rw [hop]; rfl)
  have hpost : post = [] := by
    by_contra hne
    have hmem : br ∈ (ir.block bb).insns.dropLast := by
      rw [hinsns, List.dropLast_append_cons]
      cases post with
      | nil => exact absurd rfl hne
      | cons k post => simp
    have hnot := h.jumpLast bb br hmem
    rw [hop] at hnot
    cases hnot
  intro i hi
  rw [hinsns, hpost] at hi
  rcases List.mem_append.1 hi with hi | hi
  · exact hpre i hi
  · obtain rfl := List.mem_singleton.1 hi
    exact hbr

/-- One block. -/
theorem packBasicBlock_simplified (h : ir.FlowInput e) (hblind : M.Blind ir.hidden)
    (hconst : ∀ value, M.initial (.val value) = value) (bb : BlockId) : Simplified M e ir (ir.packBasicBlock bb) := by
  unfold packBasicBlock
  split
  next => exact packIntoParent_simplified h hblind bb
  next first hf =>
    split
    next hop =>
      have hl := h.flow.lastInstruction_of_isJump (FlowInvariant.mem_of_firstActive hf) (by rw [hop]; rfl)
      have hstill := still_of_branch h.flow hf hop
      obtain ⟨hflow, -, hdone⟩ := h.flow.rewriteBranchBb hl hop
      have hentry : e ≠ bb := by
        rintro rfl
        obtain ⟨i, hi, hlive, hent⟩ := h.starts
        have hquiet := hstill i hi
        rw [still_eq_false.2 ⟨hlive, by rw [hent]; exact ⟨rfl, rfl⟩⟩] at hquiet
        cases hquiet
      have hredirect : Simplified M e ir (ir.rewriteBranchBb bb first).1 ∧
          ∀ b, ((ir.rewriteBranchBb bb first).1.block b).insns = (ir.block b).insns := by
        rcases rewriteBranchBb_spec ir bb first with hnone | ⟨t, hr, hgo⟩
        · rw [hnone]
          exact ⟨.refl h, fun _ => rfl⟩
        · refine ⟨hr.simplified h hflow ?_ hblind hconst hstill hl hop hgo, hr.insns⟩
          have hgoes := hgo (ir.env M []) fun value => (h.env_val value []).trans (hconst value)
          have hchild := (h.flow.mem_children_iff hl).2 (Instruction.mem_successors_of_goesTo hop hgoes)
          exact h.ne_of_mem_parents (h.flow.mem_parents_iff.2 hchild)
      obtain ⟨hsimple, hinsns⟩ := hredirect
      have hblind' : M.Blind (ir.rewriteBranchBb bb first).1.hidden := by
        rw [hsimple.prunes.hidden_eq]
        exact hblind
      split
      next ir' t hr =>
        rw [hr] at hsimple hinsns hblind' hdone
        refine hsimple.trans (killBb_simplified hsimple.input hblind' hentry (hdone t rfl) fun i hi => ?_)
        rw [hinsns] at hi
        exact hsimple.prunes.still_mono (hstill i hi)
      next ir' hr =>
        rw [hr] at hsimple hblind'
        exact hsimple.trans (packIntoParent_simplified hsimple.input hblind' bb)
    next => exact packIntoParent_simplified h hblind bb

/-- `pack_basic_blocks` loses no instruction that shows, and every execution before it has one after it that
comes to the same instructions that show with the same values, and the other way round. -/
theorem packBasicBlocks_preserves (h : ir.FlowInput e) (hblind : M.Blind ir.hidden)
    (hconst : ∀ value, M.initial (.val value) = value) : Simplified M e ir ir.packBasicBlocks := by
  unfold packBasicBlocks
  generalize ir.bbs = bbs
  induction bbs generalizing ir with
  | nil => exact .refl h
  | cons bb bbs ih =>
    have hfirst := packBasicBlock_simplified h hblind hconst bb
    have hblind' : M.Blind (ir.packBasicBlock bb).hidden := by
      rw [hfirst.prunes.hidden_eq]
      exact hblind
    exact hfirst.trans (ih hfirst.input hblind')

end Ir

/-- `switch (x) { case 1: if (1) return -x; } return 8;` -/
def constantDetour : Ir where
  insn
    | 0 => { opcode := .entry, bb := some 0 }
    | 1 => { opcode := .switch, bb := some 0, target := .arg 1, multijmpList := [⟨1, 1, 1⟩, ⟨3, 1, 0⟩] }
    | 2 => { opcode := .br, bb := some 1, target := .val 1, bbTrue := some 2, bbFalse := some 3 }
    | 3 => { opcode := .neg, size := 32, bb := some 2, target := .reg 0, src1 := .arg 1 }
    | 4 => { opcode := .ret, bb := some 2, src1 := .reg 0 }
    | 5 => { opcode := .ret, bb := some 3, src1 := .val 8 }
    | _ => { opcode := .badop }
  block
    | 0 => { children := [1, 3], insns := [0, 1] }
    | 1 => { parents := [0], children := [2, 3], insns := [2] }
    | 2 => { parents := [1], insns := [3, 4] }
    | 3 => { parents := [0, 1], insns := [5] }
    | _ => {}
  cell _ := .null
  definition
    | .arg 1 => some 0
    | .reg 0 => some 3
    | _ => none
  users
    | .arg 1 => [⟨1, .target 1⟩, ⟨3, .src1 3⟩]
    | .reg 0 => [⟨4, .src1 4⟩]
    | _ => []
  bbs := [0, 1, 2, 3]
  entry := 0
  nextInsn := 6
  nextBlock := 4
  nextCell := 0
  nextReg := 1
  nextPhi := 0
  bbGeneration := 0

private theorem constantDetour_live {i : InsnId} (h : constantDetour.live i) : i < 6 := by
  by_contra hi
  match i with
  | 0 | 1 | 2 | 3 | 4 | 5 => exact hi (by decide)
  | n + 6 => exact h rfl

private theorem constantDetour_empty {b : BlockId} (hb : 4 ≤ b) : constantDetour.block b = {} := by
  match b with
  | 0 | 1 | 2 | 3 => exact absurd hb (by decide)
  | n + 4 => rfl

private theorem constantDetour_use : UseInvariant constantDetour := by
  refine .of_check [.arg 1, .reg 0] (fun i hi hl => ?_) (fun p hp => ?_) (by decide)
  · exact absurd (constantDetour_live hl) (Nat.not_lt.2 hi)
  · simp only [constantDetour]
    split <;> simp_all

/-- The entry defines the argument, and the negation the register. -/
private theorem constantDetour_definition {p : Pseudo} {d : InsnId} (hd : constantDetour.definition p = some d) :
    p.isSym = false ∧ constantDetour.still d = false := by
  simp only [constantDetour] at hd
  split at hd
  · obtain rfl := Option.some.inj hd
    exact ⟨rfl, by decide⟩
  · obtain rfl := Option.some.inj hd
    exact ⟨rfl, by decide⟩
  · cases hd

private theorem constantDetour_input : constantDetour.FlowInput 0 where
  uses := constantDetour_use
  flow := .of_check (fun _ hb => constantDetour_empty hb) (by decide)
  entry := rfl
  starts := ⟨0, by decide, by decide, rfl⟩
  branches b i hl hop := by
    rcases Nat.lt_or_ge b 4 with hb | hb
    · have hall : ∀ b < 4, ∀ i ∈ (constantDetour.block b).insns, constantDetour.live i ∧
          ((constantDetour.insn i).opcode = .br → (constantDetour.insn i).bbTrue ≠ none) ∧
          ((constantDetour.insn i).opcode = .switch →
            ∃ jmp ∈ (constantDetour.insn i).multijmpList, jmp.stop.slt jmp.begin = true) := by decide
      obtain ⟨hlive, hbr, hswitch⟩ := hall b hb i (List.mem_of_getLast? hl)
      exact ⟨hlive, hbr, hswitch⟩
    · rw [Ir.lastInstruction, constantDetour_empty hb] at hl
      cases hl
  dead p d hd hstill := by
    rw [(constantDetour_definition hd).2] at hstill
    cases hstill
  symbols p d hd := (constantDetour_definition hd).1
  sources d hlive hop := by
    have hall : ∀ d < 6, (constantDetour.insn d).opcode ≠ .phisource := by decide
    exact absurd hop (hall d (constantDetour_live hlive))
  phis i hlive hop := by
    have hall : ∀ i < 6, (constantDetour.insn i).opcode ≠ .phi := by decide
    exact absurd hop (hall i (constantDetour_live hlive))

/-- Constants have their values, and everything else is one. -/
def onesMeaning : Meaning where
  initial
    | .val value => value
    | _ => 1
  pure _ _ _ _ values := values.headD 0
  constant _ := 0
  effect _ _ := 0

theorem constantDetour_packed : Ir.Simplified onesMeaning 0 constantDetour constantDetour.packBasicBlocks :=
  Ir.packBasicBlocks_preserves constantDetour_input (fun _ _ => rfl) (fun _ => rfl)

/-- The case leads to the negation at once. -/
example : (constantDetour.packBasicBlocks.insn 1).multijmpList = [⟨2, 1, 1⟩, ⟨3, 1, 0⟩] := by decide

end Sparse
