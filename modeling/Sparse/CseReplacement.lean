import Sparse.CommonSubexpressions
import Sparse.HoistedInstructions
import Sparse.IfConversion
import Sparse.UseListKills
import Sparse.UseListRewrites

/-!
# One instruction for two

`cse_one_instruction` lets the readers of one instruction read another. If that one is executed first
wherever either was read, and computes the same, the function stays in SSA form.
-/

namespace Sparse

open ProgramPaths

namespace UseInvariant

variable {ir : Ir} {i j : InsnId} {nr : ℕ} {src : Pseudo} {s : Address}

theorem convertInstructionTarget_eq (ht : (ir.insn i).target = .reg nr) (hne : src ≠ .reg nr) :
    ir.convertInstructionTarget i src =
      ((Ir.convertUsers src ir (ir.users (.reg nr))).setUsers src (ir.users src ++ ir.users (.reg nr))).setUsers
        (.reg nr) [] := by
  unfold Ir.convertInstructionTarget
  simp only [ht, if_neg (Ne.symm hne), Ir.convertUsers_users]

/-- An operand that held the result holds the other pseudo. -/
theorem convertInstructionTarget_load (h : UseInvariant ir) (ht : (ir.insn i).target = .reg nr)
    (hne : src ≠ .reg nr) (ho : ir.Owns j s) :
    (ir.convertInstructionTarget i src).load s = if ir.load s = .reg nr then src else ir.load s := by
  rw [convertInstructionTarget_eq ht hne, Ir.setUsers_load, Ir.setUsers_load, Ir.convertUsers_load]
  by_cases hl : ir.load s = .reg nr
  · have hexact := h.exact j s ho (.reg nr) rfl
    rw [if_pos hl] at hexact
    have hmem : (⟨j, s⟩ : PseudoUser) ∈ ir.entries (.reg nr) s := by
      rw [hexact]
      exact List.mem_cons_self
    rw [if_pos ⟨⟨_, (List.mem_filter.1 hmem).1, rfl⟩, by simp [hl]⟩, if_pos hl]
  · rw [if_neg hl, if_neg]
    rintro ⟨⟨pu, hpu, heq⟩, -⟩
    exact hl (h.load_eq_of_mem ho rfl hpu heq)

/-- Targets that are results stay. -/
theorem convertInstructionTarget_target (h : UseInvariant ir) (ht : (ir.insn i).target = .reg nr)
    (hne : src ≠ .reg nr) (hj : (ir.insn j).opcode.storesTarget = false) :
    ((ir.convertInstructionTarget i src).insn j).target = (ir.insn j).target := by
  have hload : (ir.convertInstructionTarget i src).load (.target j) = ir.load (.target j) := by
    rw [convertInstructionTarget_eq ht hne, Ir.setUsers_load, Ir.setUsers_load, Ir.convertUsers_load, if_neg]
    rintro ⟨⟨pu, hpu, heq⟩, -⟩
    rw [h.targets (.reg nr) rfl pu hpu j heq] at hj
    cases hj
  exact hload

end UseInvariant

theorem SameRest.convertUsers (src : Pseudo) (ir : Ir) (us : List PseudoUser) :
    SameRest ir (Ir.convertUsers src ir us) := by
  induction us generalizing ir with
  | nil => exact fun _ => rfl
  | cons pu us ih =>
    unfold Ir.convertUsers
    split
    · exact ih ir
    · exact (assign ir src pu.userp).trans (ih _)

theorem SameRest.convertInstructionTarget (ir : Ir) (i : InsnId) (src : Pseudo) :
    SameRest ir (ir.convertInstructionTarget i src) := by
  unfold Ir.convertInstructionTarget
  dsimp only
  split
  · exact fun _ => rfl
  · exact (convertUsers src ir _).trans fun _ => rfl

/-- What the slots of an instruction do not decide. -/
theorem Instruction.of_withoutSlots {x y : Instruction} (h : x.withoutSlots = y.withoutSlots) :
    x.opcode = y.opcode ∧ x.size = y.size ∧ x.phiList = y.phiList ∧ x.origType = y.origType ∧ x.form = y.form ∧
      x.flow = y.flow := by
  simp only [withoutSlots, Instruction.mk.injEq] at h
  simp only [form, flow, Prod.mk.injEq]
  tauto

theorem Instruction.arithmetic_of_withoutSlots {x y : Instruction} (h : x.withoutSlots = y.withoutSlots) :
    x.arithmetic = y.arithmetic := by
  simp only [withoutSlots, Instruction.mk.injEq] at h
  tauto

theorem Instruction.operandSlots_of_withoutSlots {x y : Instruction} (h : x.withoutSlots = y.withoutSlots) (i : InsnId) :
    x.operandSlots i = y.operandSlots i := operandSlots_of_form (of_withoutSlots h).2.2.2.2.1 i

namespace Ir

/-- `gone` is out of the code, and what read it reads `kept`. -/
structure Merges (ir ir' : Ir) (kept gone : InsnId) : Prop where
  uses : UseInvariant ir'
  rest : ∀ j, j ≠ gone → (ir'.insn j).withoutSlots = (ir.insn j).withoutSlots
  nop : (ir'.insn gone).opcode = .nop
  live : ∀ j, ir'.live j ↔ j ≠ gone ∧ ir.live j
  load : ∀ j s, ir'.Owns j s → ir'.load s = if ir.load s = (ir.insn gone).target then (ir.insn kept).target else ir.load s
  target : ∀ j, (ir.insn j).opcode.storesTarget = false → (ir'.insn j).target = (ir.insn j).target
  bb : ∀ j, j ≠ gone → j ≠ kept → (ir'.insn j).bb = (ir.insn j).bb
  definition : ir'.definition = ir.definition
  entry : ir'.entry = ir.entry

variable {ir ir' : Ir} {kept gone : InsnId}

/-- What `cse_one_instruction` does; if a phi goes, the pseudos of its sources have fewer users. -/
theorem cseOneInstruction_eq (ir : Ir) (i d : InsnId) : ∃ users, ir.cseOneInstruction i d =
    ({ ir.convertInstructionTarget i (ir.insn d).target with users := users } : Ir).setInsn i
      ({ · with opcode := .nop, bb := none }) := by
  have hdrop : ∀ (cs : List CellId) (ir₁ : Ir),
      cs.foldl (dropPhiUsers i) ir₁ = { ir₁ with users := (cs.foldl (dropPhiUsers i) ir₁).users } := by
    intro cs
    induction cs with
    | nil => exact fun _ => rfl
    | cons c cs ih => exact fun ir₁ => ih (dropPhiUsers i ir₁ c)
  unfold cseOneInstruction
  dsimp only
  split
  · rw [hdrop]
    exact ⟨_, rfl⟩
  · exact ⟨_, rfl⟩

/-- Out of its block an instruction keeps its slots. -/
theorem load_setInsn_nop (ir : Ir) (i : InsnId) (s : Address) :
    (ir.setInsn i ({ · with opcode := .nop, bb := none })).load s = ir.load s := by
  cases s with
  | cell c => rfl
  | target j | src1 j | src2 j | src3 j =>
    by_cases hj : j = i
    · subst hj
      simp [Ir.load]
    · simp [Ir.load, hj]

theorem cseOneInstruction_merges (h : UseInvariant ir) (hkept : ir.live kept) (hgone : ir.live gone) (hne : gone ≠ kept)
    (hopkept : (ir.insn kept).opcode.hasResult = true) (hopgone : (ir.insn gone).opcode.hasResult = true) :
    Merges ir (ir.cseOneInstruction gone kept) kept gone ∧
      ((ir.cseOneInstruction gone kept).insn kept).bb = (ir.insn kept).bb ∧
      (ir.cseOneInstruction gone kept).block = ir.block := by
  obtain ⟨nr, htarget, hdef⟩ := h.defines gone hgone hopgone
  obtain ⟨m, htargetk, hdefk⟩ := h.defines kept hkept hopkept
  have hsrc : (ir.insn kept).target ≠ .reg nr := by
    intro heq
    rw [htargetk] at heq
    rw [heq, hdef] at hdefk
    exact hne (Option.some.inj hdefk)
  have hform := (h.convertInstructionTarget hdef (Opcode.ne_asm_of_hasResult hopgone) hsrc fun _ n d hn hd => by
    rw [htargetk] at hn
    rw [← hn, hdefk] at hd
    exact Option.some.inj hd ▸ hkept).2.1
  have hflow := SameFlow.convertInstructionTarget ir gone (ir.insn kept).target
  have hrest := SameRest.convertInstructionTarget ir gone (ir.insn kept).target
  have hload := fun j s (ho : ir.Owns j s) => h.convertInstructionTarget_load htarget hsrc ho
  have hstay := fun j (hj : (ir.insn j).opcode.storesTarget = false) => h.convertInstructionTarget_target htarget hsrc hj
  obtain ⟨users, heq⟩ := cseOneInstruction_eq ir gone kept
  have huses := h.cseOneInstruction hgone hkept hne hopgone hopkept
  rw [heq] at huses ⊢
  generalize ir.convertInstructionTarget gone (ir.insn kept).target = ir₁ at *
  set ir₂ : Ir := { ir₁ with users := users }
  have hinsn : ∀ j, j ≠ gone → (ir₂.setInsn gone ({ · with opcode := .nop, bb := none })).insn j = ir₁.insn j :=
    fun j hj => by simp [ir₂, hj]
  have hlive : ∀ j, (ir₂.setInsn gone ({ · with opcode := .nop, bb := none })).live j ↔ j ≠ gone ∧ ir.live j := by
    intro j
    by_cases hj : j = gone
    · simp [Ir.live, hj]
    · rw [← hform.live j]
      simp [Ir.live, ir₂, hj]
  refine ⟨⟨huses, fun j hj => ?_, by simp, hlive, fun j s ho => ?_, fun j hj => ?_, fun j hj _ => ?_,
    hform.definition, hflow.entry⟩, ?_, hflow.block⟩
  · rw [hinsn j hj]
    exact hrest j
  · obtain ⟨hj, hl⟩ := (hlive j).1 ho.1
    have hslots := ho.2
    rw [hinsn j hj, Instruction.operandSlots_of_withoutSlots (hrest j)] at hslots
    rw [load_setInsn_nop, htarget]
    exact hload j s ⟨hl, hslots⟩
  · have hsame := load_setInsn_nop ir₂ gone (.target j)
    exact hsame.trans (hstay j hj)
  · rw [hinsn j hj]
    exact hform.bb j
  · rw [hinsn kept hne.symm]
    exact hform.bb kept

end Ir

/-- The opcodes that `clean_up_one_instruction` hashes, phis apart. -/
def Opcode.isOperation (op : Opcode) : Bool := op.isPure || op = .sel

/-- The opcodes that `clean_up_one_instruction` hashes. -/
def Opcode.isHashed (op : Opcode) : Bool := op.isOperation || op = .phi

theorem Opcode.of_isHashed {op : Opcode} (h : op.isHashed = true) :
    op.hasResult = true ∧ op.isJump = false ∧ op ≠ .phisource ∧ op ≠ .entry ∧ op ≠ .nop := by
  cases op <;> simp_all [isHashed, isOperation, isPure, isBinary, hasResult, isJump]

theorem Opcode.isHashed_of_isOperation {op : Opcode} (h : op.isOperation = true) : op.isHashed = true := by
  rw [isHashed, h, Bool.true_or]

theorem Opcode.ne_phi_of_isOperation {op : Opcode} (h : op.isOperation = true) : op ≠ .phi := by
  rintro rfl
  cases h

theorem Opcode.isOperation_of_isHashed {op : Opcode} (h : op.isHashed = true) (hphi : op ≠ .phi) :
    op.isOperation = true := by
  simpa [isHashed, hphi] using h

theorem Instruction.successors_of_isJump {x : Instruction} (h : x.opcode.isJump = false) : x.successors = [] := by
  unfold successors
  cases hop : x.opcode <;> simp_all [Opcode.isJump]

namespace Ir

variable {ir ir' : Ir} {e : BlockId} {kept gone : InsnId}

/-- `kept` stands for `gone`, at a place that every path to a reader of either comes by and that comes
after what both read. -/
structure Replaces (ir ir' : Ir) (e : BlockId) (kept gone : InsnId) : Prop extends Merges ir ir' kept gone where
  flow : FlowInvariant ∅ ir'
  children : ∀ b, (ir'.block b).children = (ir.block b).children
  code : ∀ b, (ir'.block b).insns.filter (· ≠ kept) = (ir.block b).insns.filter (· ≠ kept)
  last : ∀ b, (ir.block b).children ≠ [] → ir'.lastInstruction b = ir.lastInstruction b
  nodup : ∀ b, (ir'.block b).insns.Nodup
  placed : ∀ b, (ir'.insn kept).bb = some b → kept ∈ (ir'.block b).insns
  reader : ∀ j, j ≠ kept → (ir.paths e).Precedes kept j ∨ (ir.paths e).Precedes gone j →
    (ir'.paths e).Precedes kept j
  operand : ∀ d, (ir.insn d).opcode.storesTarget = false → (ir.paths e).Precedes d kept →
    (ir.paths e).Precedes d gone → (ir'.paths e).Precedes (if d = gone then kept else d) kept

/-- The two instructions can be one. -/
structure Mergeable (ir : Ir) (kept gone : InsnId) : Prop where
  ne : gone ≠ kept
  liveKept : ir.live kept
  liveGone : ir.live gone
  opKept : (ir.insn kept).opcode.isHashed = true
  opGone : (ir.insn gone).opcode.isHashed = true
  opcode : (ir.insn kept).opcode = (ir.insn gone).opcode
  operands : ir.operands kept = ir.operands gone

namespace Mergeable

variable (hm : ir.Mergeable kept gone)
include hm

/-- The registers of the two. -/
theorem targets (h : ir.SsaForm e) : (∃ m, (ir.insn kept).target = .reg m ∧ ir.definition (.reg m) = some kept) ∧
    ∃ nr, (ir.insn gone).target = .reg nr ∧ ir.definition (.reg nr) = some gone :=
  ⟨h.uses.defines kept hm.liveKept (Opcode.of_isHashed hm.opKept).1,
    h.uses.defines gone hm.liveGone (Opcode.of_isHashed hm.opGone).1⟩

/-- A register that one of the two reads, the other reads too. -/
theorem reads (h : ir.SsaForm e) {s : Address} (hs : s ∈ (ir.insn kept).operandSlots kept) {nr : ℕ} {d : InsnId}
    (hl : ir.load s = .reg nr) (hd : ir.definition (.reg nr) = some d) :
    ∃ s', ir.Owns gone s' ∧ ir.load s' = ir.load s := by
  by_cases hphi : (ir.insn kept).opcode = .phi
  · -- a phi reads no registers
    obtain ⟨c, hc, rfl⟩ : ∃ c ∈ (ir.insn kept).phiList, Address.cell c = s := by
      simpa [Instruction.operandSlots, hphi] using hs
    have hcell : ir.cell c = .reg nr := hl
    obtain ⟨hsource, htarget⟩ := h.entries kept hm.liveKept hphi c hc d (hcell ▸ hd)
    have hlive := h.uses.defined kept (.cell c) ⟨hm.liveKept, hs⟩ nr d hl hd
    obtain ⟨⟨k, hk⟩, -⟩ := h.source d hlive hsource
    rw [hk, hcell] at htarget
    cases htarget
  · have hmem : ir.load s ∈ ir.operands gone := by
      rw [← hm.operands, Ir.operands, if_neg hphi]
      exact List.mem_map_of_mem hs
    rw [Ir.operands, if_neg (hm.opcode ▸ hphi)] at hmem
    obtain ⟨s', hs', heq⟩ := List.mem_map.1 hmem
    exact ⟨s', ⟨hm.liveGone, hs'⟩, heq⟩

/-- Phi sources are neither of the two. -/
theorem ne_of_phisource {d : InsnId} (hop : (ir.insn d).opcode = .phisource) : d ≠ gone ∧ d ≠ kept := by
  constructor
  · rintro rfl
    exact (Opcode.of_isHashed hm.opGone).2.2.1 hop
  · rintro rfl
    exact (Opcode.of_isHashed hm.opKept).2.2.1 hop

/-- A branch or a switch is not one of the two. -/
theorem ne_of_chooses {i : InsnId} (hop : (ir.insn i).opcode.chooses = true) : i ≠ gone := by
  rintro rfl
  have hjump := (Opcode.of_isHashed hm.opGone).2.1
  rw [Opcode.isJump_of_chooses hop] at hjump
  cases hjump

end Mergeable

namespace Replaces

variable (hr : Replaces ir ir' e kept gone) (h : ir.SsaForm e) (hm : ir.Mergeable kept gone)
include hr

theorem paths_jumps : (ir'.paths e).jumps = (ir.paths e).jumps := by
  funext done b c
  exact congrArg (c ∈ ·) (hr.children b)

/-- An operand of the new function is one of the old. -/
theorem owns {j : InsnId} {s : Address} (ho : ir'.Owns j s) : j ≠ gone ∧ ir.Owns j s := by
  obtain ⟨hj, hl⟩ := (hr.live j).1 ho.1
  exact ⟨hj, hl, Instruction.operandSlots_of_withoutSlots (hr.rest j hj) j ▸ ho.2⟩

theorem opcode {j : InsnId} (hj : j ≠ gone) : (ir'.insn j).opcode = (ir.insn j).opcode :=
  (Instruction.of_withoutSlots (hr.rest j hj)).1

theorem phiList {j : InsnId} (hj : j ≠ gone) : (ir'.insn j).phiList = (ir.insn j).phiList :=
  (Instruction.of_withoutSlots (hr.rest j hj)).2.2.1

include h hm

/-- Registers are computed before they are read. -/
theorem defined {j : InsnId} {s : Address} (ho : ir'.Owns j s) {nr : ℕ} {d : InsnId} (hl : ir'.load s = .reg nr)
    (hd : ir'.definition (.reg nr) = some d) : (ir'.paths e).Precedes d j := by
  obtain ⟨⟨m, htk, hdk⟩, ng, htg, hdg⟩ := hm.targets h
  obtain ⟨-, ho₀⟩ := hr.owns ho
  rw [hr.definition] at hd
  rw [hr.load j s ho] at hl
  by_cases hp : ir.load s = (ir.insn gone).target
  · rw [if_pos hp, htk] at hl
    obtain rfl : d = kept := by
      rw [← hl, hdk] at hd
      exact (Option.some.inj hd).symm
    have hbefore := h.defined j s ho₀ ng gone (hp.trans htg) hdg
    by_cases hj : j = d
    · subst hj
      obtain ⟨s', ho', heq⟩ := hm.reads h ho₀.2 (hp.trans htg) hdg
      have hself := h.defined gone s' ho' ng gone (heq.trans (hp.trans htg)) hdg
      have hmoved := hr.operand gone (h.uses.result ng gone hdg).2 hbefore hself
      rwa [if_pos rfl] at hmoved
    · exact hr.reader j hj (.inr hbefore)
  · rw [if_neg hp] at hl
    have hdne : d ≠ gone := by
      rintro rfl
      exact hp (hl.trans (h.results nr d hd).symm)
    have hbefore := h.defined j s ho₀ nr d hl hd
    by_cases hj : j = kept
    · subst hj
      obtain ⟨s', ho', heq⟩ := hm.reads h ho₀.2 hl hd
      have hmoved := hr.operand d (h.uses.result nr d hd).2 hbefore (h.defined gone s' ho' nr d (heq.trans hl) hd)
      rwa [if_neg hdne] at hmoved
    · by_cases hdk : d = kept
      · exact hdk ▸ hr.reader j hj (.inl (hdk ▸ hbefore))
      · exact hbefore.of_filter (P := ir.paths e) (Q := ir'.paths e) rfl paths_free hr.paths_jumps hr.code hdk hj

/-- The entry of a live phi is the same. -/
theorem cell {i : InsnId} (hi : ir'.live i) (hop : (ir'.insn i).opcode = .phi) {c : CellId}
    (hc : c ∈ (ir'.insn i).phiList) : ir'.cell c = ir.cell c := by
  obtain ⟨-, ng, htg, hdg⟩ := hm.targets h
  have howns : ir'.Owns i (.cell c) := ⟨hi, by simpa [Instruction.operandSlots, hop] using hc⟩
  obtain ⟨hne, hlive⟩ := (hr.live i).1 hi
  rw [hr.opcode hne] at hop
  rw [hr.phiList hne] at hc
  refine (hr.load i (.cell c) howns).trans (if_neg fun heq => ?_)
  have hentry := (h.entries i hlive hop c hc gone (by rw [← hdg, ← htg]; exact congrArg ir.definition heq)).1
  exact (Opcode.of_isHashed hm.opGone).2.2.1 hentry

theorem phiSources {i : InsnId} (hi : ir'.live i) (hop : (ir'.insn i).opcode = .phi) :
    ir'.phiSources i = ir.phiSources i := by
  obtain ⟨hne, hlive⟩ := (hr.live i).1 hi
  have hdefs : (ir'.insn i).phiList.filterMap (fun c => ir'.definition (ir'.cell c)) =
      (ir.insn i).phiList.filterMap fun c => ir.definition (ir.cell c) := by
    rw [← hr.phiList hne]
    refine List.filterMap_congr fun c hc => ?_
    rw [hr.definition, hr.cell h hm hi hop hc]
  unfold Ir.phiSources
  rw [hdefs]
  refine List.filter_congr fun d hd => ?_
  obtain ⟨c, hc, hdef⟩ := List.mem_filterMap.1 hd
  rw [hr.opcode hne] at hop
  have hne := (hm.ne_of_phisource (h.entries i hlive hop c hc d hdef).1).1
  rw [decide_eq_decide, hr.live d]
  exact and_iff_right hne

/-- The function stays in SSA form. -/
theorem ssaForm : ir'.SsaForm e where
  uses := hr.uses
  flow := hr.flow
  results nr d hd := by
    rw [hr.definition] at hd
    rw [hr.target d (h.uses.result nr d hd).2]
    exact h.results nr d hd
  entry := List.eq_nil_iff_forall_not_mem.2 fun p hp => by
    rw [hr.flow.mem_parents_iff, hr.children] at hp
    exact h.not_jump_entry hp
  nodup := hr.nodup
  placed i b hb := by
    have hlive : ir'.live i := by
      rw [live, hb]
      exact Option.some_ne_none b
    obtain ⟨hne, -⟩ := (hr.live i).1 hlive
    by_cases hi : i = kept
    · subst hi
      exact hr.placed b hb
    · rw [hr.bb i hne hi] at hb
      have hmem : i ∈ (ir.block b).insns.filter (· ≠ kept) :=
        List.mem_filter.2 ⟨h.placed i b hb, decide_eq_true hi⟩
      rw [← hr.code] at hmem
      exact (List.mem_filter.1 hmem).1
  defined j s ho nr d hl hd := hr.defined h hm ho hl hd
  source d hd hop := by
    obtain ⟨hne, hlive⟩ := (hr.live d).1 hd
    have howns : ir'.Owns d (.src1 d) := ⟨hd, by simp [Instruction.operandSlots, hop]⟩
    rw [hr.opcode hne] at hop
    obtain ⟨htarget, hdef, hsrc⟩ := h.source d hlive hop
    obtain ⟨⟨m, htk, -⟩, -⟩ := hm.targets h
    rw [hr.target d (by rw [hop]; rfl), hr.definition]
    refine ⟨htarget, hdef, fun k hk => ?_⟩
    have hl := (hr.load d _ howns).symm.trans hk
    split at hl
    · rw [htk] at hl
      cases hl
    · exact hsrc k hl
  entries i hi hop c hc d hd := by
    obtain ⟨hne, hlive⟩ := (hr.live i).1 hi
    rw [hr.definition, hr.cell h hm hi hop hc] at hd
    rw [hr.cell h hm hi hop hc]
    rw [hr.opcode hne] at hop
    rw [hr.phiList hne] at hc
    obtain ⟨hsrc, htarget⟩ := h.entries i hlive hop c hc d hd
    rw [hr.opcode (hm.ne_of_phisource hsrc).1, hr.target d (by rw [hsrc]; rfl)]
    exact ⟨hsrc, htarget⟩
  agree i hi hop d hd d' hd' hbb := by
    obtain ⟨hne, hlive⟩ := (hr.live i).1 hi
    rw [hr.phiSources h hm hi hop] at hd hd'
    rw [hr.opcode hne] at hop
    have hsame : ∀ d ∈ ir.phiSources i, (ir'.insn d).bb = (ir.insn d).bb ∧ (ir'.insn d).src1 =
        if (ir.insn d).src1 = (ir.insn gone).target then (ir.insn kept).target else (ir.insn d).src1 := by
      intro d hd
      obtain ⟨hdlive, hdop⟩ := h.source_of_mem hlive hop hd
      obtain ⟨hgone, hkept⟩ := hm.ne_of_phisource hdop
      have howns : ir'.Owns d (.src1 d) :=
        ⟨(hr.live d).2 ⟨hgone, hdlive⟩, by simp [Instruction.operandSlots, hr.opcode hgone, hdop]⟩
      exact ⟨hr.bb d hgone hkept, hr.load d _ howns⟩
    rw [(hsame d hd).1, (hsame d' hd').1] at hbb
    rw [(hsame d hd).2, (hsame d' hd').2, h.agree i hlive hop d hd d' hd' hbb]

end Replaces

end Ir

end Sparse
