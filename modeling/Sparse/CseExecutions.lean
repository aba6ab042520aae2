import Sparse.CsePlacement
import Sparse.SilentInstructions

/-!
# Executions after common subexpressions are replaced

A function in which one instruction stands for another shows the same executions if every instruction
reads what it read. That holds of operations with the same operands: an operation that every path to a
reader has executed has the value there that its operands give there.
-/

namespace Sparse

open ProgramPaths

/-- What loads and calls yield does not depend on which silent instructions were executed. -/
def Meaning.Blind (M : Meaning) (S : InsnId → Bool) : Prop :=
  ∀ i done, M.effect i done = M.effect i (visible S done)

namespace Ir

variable {ir ir' : Ir} {M : Meaning} {e b : BlockId} {i j kept gone : InsnId} {rest rest' done done' : List InsnId}
  {p : Pseudo}

/-- The instructions that compute something of their operands only, choose among phi sources, or do
nothing. -/
def silent (ir : Ir) (i : InsnId) : Bool := (ir.insn i).opcode.isHashed || (ir.insn i).opcode = .nop

/-- What the operands of an instruction hold. -/
def reads (ir : Ir) (M : Meaning) (done : List InsnId) (i : InsnId) : List (BitVec 64) :=
  ((ir.insn i).operandSlots i).map fun s => ir.env M done (ir.load s)

/-- What an operation yields with some values. -/
def operation (ir : Ir) (M : Meaning) (env : Pseudo → BitVec 64) (i : InsnId) : BitVec 64 := ir.result M [] env i

theorem result_of_isOperation (hi : (ir.insn i).opcode.isOperation = true) (env : Pseudo → BitVec 64) :
    ir.result M done env i = ir.operation M env i := by
  unfold operation result
  cases hop : (ir.insn i).opcode <;> simp_all [Opcode.isOperation, Opcode.isPure, Opcode.isBinary]

/-- Instructions that are the same but for their operands yield the same, if the operands hold the
same. -/
theorem result_congr (hrest : (ir'.insn i).withoutSlots = (ir.insn i).withoutSlots)
    (hphi : (ir.insn i).opcode ≠ .phi) {env env' : Pseudo → BitVec 64}
    (henv : ∀ s ∈ (ir.insn i).operandSlots i, env' (ir'.load s) = env (ir.load s))
    (heffect : M.effect i done' = M.effect i done) :
    ir'.result M done' env' i = ir.result M done env i := by
  obtain ⟨hop, hsize, -, htype, -⟩ := Instruction.of_withoutSlots hrest
  have harithmetic := Instruction.arithmetic_of_withoutSlots hrest
  have hslots := Instruction.operandSlots_of_withoutSlots hrest i
  have hmap : (((ir'.insn i).operandSlots i).map ir'.load).map env' =
      (((ir.insn i).operandSlots i).map ir.load).map env := by
    rw [hslots, List.map_map, List.map_map]
    exact List.map_congr_left henv
  have hsrc1 : .src1 i ∈ (ir.insn i).operandSlots i → env' (ir'.insn i).src1 = env (ir.insn i).src1 := henv (.src1 i)
  have hsrc2 : .src2 i ∈ (ir.insn i).operandSlots i → env' (ir'.insn i).src2 = env (ir.insn i).src2 := henv (.src2 i)
  have hsrc3 : .src3 i ∈ (ir.insn i).operandSlots i → env' (ir'.insn i).src3 = env (ir.insn i).src3 := henv (.src3 i)
  unfold result
  cases hi : (ir.insn i).opcode with
  | phi => exact absurd hi hphi
  | phisource =>
    rw [hi] at hop
    simp only [hop, hi]
    exact hsrc1 (by simp [Instruction.operandSlots, hi])
  | sel =>
    rw [hi] at hop
    simp only [hop, hi]
    rw [hsrc1 (by simp [Instruction.operandSlots, hi]), hsrc2 (by simp [Instruction.operandSlots, hi]),
      hsrc3 (by simp [Instruction.operandSlots, hi])]
  | _ =>
    rw [hi] at hop
    simp only [hop, hi, hmap, hsize, htype, harithmetic, heffect]

/-- Operations with the same operands yield the same. -/
theorem operation_eq {P : Pointers ir} (hsame : SameComputation P i j) (hi : (ir.insn i).opcode.isOperation = true)
    (hconstant : ∀ i j, P.val i = P.val j → M.constant i = M.constant j) (env : Pseudo → BitVec 64) :
    ir.operation M env i = ir.operation M env j := by
  have hphi := Opcode.ne_phi_of_isOperation hi
  have hop := hsame.opcode
  have hoperands : ((ir.insn i).operandSlots i).map ir.load = ((ir.insn j).operandSlots j).map ir.load := by
    have heq := hsame.operands
    rwa [operands, operands, if_neg hphi, if_neg (hop ▸ hphi)] at heq
  have htype : (if (ir.insn i).opcode.isCast = true then (ir.insn i).origType else none) =
      if (ir.insn i).opcode.isCast = true then (ir.insn j).origType else none := by
    split
    · rename_i hcast
      exact hsame.origType hcast
    · rfl
  have harithmetic : (if (ir.insn i).opcode.readsArithmetic = true then (ir.insn i).arithmetic else .integer) =
      if (ir.insn i).opcode.readsArithmetic = true then (ir.insn j).arithmetic else .integer := by
    split
    · rename_i hreads
      exact hsame.arithmetic hreads
    · rfl
  unfold operation result
  dsimp only
  rw [← hop, ← hsame.size]
  cases hi' : (ir.insn i).opcode with
  | sel =>
    simp only [Instruction.operandSlots, ← hop, hi', List.map_cons, List.map_nil, List.cons.injEq, load] at hoperands
    simp only [hoperands]
  | setval => simp only [hconstant i j (hsame.val hi')]
  | phi => exact absurd hi' hphi
  | phisource =>
    rw [hi'] at hi
    exact absurd hi (by decide)
  | _ =>
    rw [hi'] at htype harithmetic hi
    first
    | exact absurd hi (by decide)
    | simp only [hoperands, htype, harithmetic]
      rfl

/-- A result keeps its value while what computes it is not executed. -/
theorem env_append_of_notMem {k : List InsnId} (hi : ir.Computes i) (hk : i ∉ k) :
    ir.env M (k ++ done) (ir.insn i).target = ir.env M done (ir.insn i).target :=
  env_append fun d hd hc heq => by
    have hdef := hc.2.1
    rw [heq, hi.2.1] at hdef
    exact hk (Option.some.inj hdef ▸ hd)

/-! ## Available operations -/

/-- At a reader, an operation has the value that its operands give there. -/
theorem SsaForm.available (h : ir.SsaForm e) (hop : (ir.insn i).opcode.isOperation = true) (hlive : ir.live i)
    (hphi : ∀ s, ir.Owns i s → (ir.load s).isPhi = false) (hp : (ir.paths e).Precedes i j)
    (hr : (ir.paths e).Reached b (j :: rest) done) :
    ir.env M done (ir.insn i).target = ir.operation M (ir.env M done) i := by
  obtain ⟨hresult, -, -, hentry, -⟩ := Opcode.of_isHashed (Opcode.isHashed_of_isOperation hop)
  obtain ⟨nr, htarget, hdef⟩ := h.uses.defines i hlive hresult
  have hcomputes : ir.Computes i := ⟨hlive, htarget ▸ hdef, hentry⟩
  -- the last time that the operation was executed
  obtain ⟨k, hist, rfl, hk⟩ := List.eq_append_cons_of_mem (hp b rest done hr)
  obtain ⟨c, s, hc, -⟩ := hr.split
  have hself : ¬ (ir.paths e).Precedes i i := fun hself => hself.not_self hc
  have hkeep : ∀ s, ir.Owns i s → ir.env M (k ++ i :: hist) (ir.load s) = ir.env M hist (ir.load s) := by
    intro s hs
    rw [List.append_cons]
    refine env_append fun d hd hcomp heq => ?_
    cases hl : ir.load s with
    | reg m =>
      rw [hl] at heq
      have hbefore := h.defined i s hs m d hl (heq ▸ hcomp.2.1)
      rcases List.mem_append.1 hd with hd | hd
      · exact hbefore.not_between h.placed_paths paths_free hp hr hk hd
      · exact hself (List.mem_singleton.1 hd ▸ hbefore)
    | null | void | sym _ | val _ | arg _ | phi _ =>
      obtain ⟨n, hn⟩ := h.phi_of_computes hcomp (by rw [heq, hl]; rfl)
      have hnot := hphi s hs
      rw [← heq, hn] at hnot
      cases hnot
  rw [env_append_of_notMem hcomputes hk, env_cons_self hcomputes, result_of_isOperation hop]
  exact (result_congr rfl (Opcode.ne_phi_of_isOperation hop) (fun s hs => hkeep s ⟨hlive, hs⟩) rfl).symm

/-! ## One for two -/

/-- A function that common subexpressions can be replaced in. The entry stands in the block that the
executions start in, only phis read the pseudos of phi sources, and a branch or switch at the end of a block is
in the block. -/
structure CseInput (ir : Ir) (e : BlockId) : Prop extends SsaForm ir e where
  entryBlock : (ir.insn ir.entry).bb = some e
  entryOp : (ir.insn ir.entry).opcode = .entry
  phiReads : ∀ i s, ir.Owns i s → (ir.insn i).opcode ≠ .phi → (ir.load s).isPhi = false
  branches : ∀ b i, ir.lastInstruction b = some i → (ir.insn i).opcode.chooses = true → ir.live i

theorem Remarked.cseInput (hr : Remarked ir ir') (h : ir.CseInput e) : ir'.CseInput e where
  toSsaForm := hr.ssaForm h.toSsaForm
  entryBlock := by
    rw [hr.frame]
    exact h.entryBlock
  entryOp := by
    rw [hr.frame]
    exact h.entryOp
  phiReads := by
    rw [hr.frame]
    exact h.phiReads
  branches b i hl hop := by
    rw [lastInstruction, hr.insns] at hl
    rw [hr.insn] at hop
    rw [live, hr.insn]
    exact h.branches b i hl hop

namespace Replaces

variable (hr : Replaces ir ir' e kept gone) (h : ir.CseInput e) (hm : ir.Mergeable kept gone)
include hr h hm

/-- The function can be worked on again. -/
theorem cseInput : ir'.CseInput e where
  toSsaForm := hr.ssaForm h.toSsaForm hm
  entryBlock := by
    have hop := h.entryOp
    rw [hr.entry, hr.bb ir.entry]
    · exact h.entryBlock
    · rintro heq
      exact (Opcode.of_isHashed hm.opGone).2.2.2.1 (heq ▸ hop)
    · rintro heq
      exact (Opcode.of_isHashed hm.opKept).2.2.2.1 (heq ▸ hop)
  entryOp := by
    have hop := h.entryOp
    rw [hr.entry, hr.opcode]
    · exact hop
    · rintro heq
      exact (Opcode.of_isHashed hm.opGone).2.2.2.1 (heq ▸ hop)
  phiReads i s ho hop := by
    obtain ⟨⟨m, htk, -⟩, -⟩ := hm.targets h.toSsaForm
    obtain ⟨hne, ho₀⟩ := hr.owns ho
    rw [hr.load i s ho]
    rw [hr.opcode hne] at hop
    split
    · rw [htk]
      rfl
    · exact h.phiReads i s ho₀ hop
  branches b i hl hop := by
    have hne : i ≠ gone := by
      rintro rfl
      rw [hr.nop] at hop
      cases hop
    rw [hr.opcode hne] at hop
    have hnk : i ≠ kept := by
      rintro rfl
      have hjump := (Opcode.of_isHashed hm.opKept).2.1
      rw [Opcode.isJump_of_chooses hop] at hjump
      cases hjump
    have hmem : i ∈ (ir'.block b).insns.filter (· ≠ kept) :=
      List.mem_filter.2 ⟨List.mem_of_getLast? hl, decide_eq_true hnk⟩
    rw [hr.code] at hmem
    obtain ⟨last, hlast⟩ : ∃ last, ir.lastInstruction b = some last := by
      cases hnone : ir.lastInstruction b with
      | some last => exact ⟨last, rfl⟩
      | none =>
        rw [lastInstruction, List.getLast?_eq_none_iff] at hnone
        rw [hnone] at hmem
        exact absurd hmem List.not_mem_nil
    have hsplit := (List.mem_filter.1 hmem).1
    rw [← List.dropLast_append_getLast? last hlast, List.mem_append, List.mem_singleton] at hsplit
    rcases hsplit with hi | rfl
    · have hjump := h.flow.jumpLast b i hi
      rw [Opcode.isJump_of_chooses hop] at hjump
      cases hjump
    · exact (hr.live i).2 ⟨hne, h.branches b i hlast hop⟩

/-- No path comes to an instruction that reads what it computes. -/
theorem not_reads_self {s : Address} (ho : ir'.Owns kept s) (hp : (ir'.paths e).Precedes kept i)
    (hQ : (ir'.paths e).Reached b (i :: rest') done') :
    ir.load s ≠ (ir.insn kept).target ∧ ir.load s ≠ (ir.insn gone).target := by
  obtain ⟨⟨m, htk, hdk⟩, -⟩ := hm.targets h.toSsaForm
  by_contra hself
  have hload : ir'.load s = .reg m := by
    rw [hr.load kept s ho, ← htk]
    split
    · rfl
    · rename_i hne
      by_contra hother
      exact hself ⟨hother, hne⟩
  have hkept := hr.defined h.toSsaForm hm ho hload (by rw [hr.definition]; exact hdk)
  obtain ⟨k, hist, rfl⟩ := List.append_of_mem (hp b rest' done' hQ)
  obtain ⟨c, s', hc, -⟩ := hQ.split
  exact hkept.not_self hc

/-- What an instruction reads is the same, if all but the two registers are the same. -/
theorem load_value (hopk : (ir.insn kept).opcode.isOperation = true)
    (hvalue : ∀ env, ir.operation M env kept = ir.operation M env gone) {s : Address} (ho : ir'.Owns i s)
    (hP : (ir.paths e).Reached b (i :: rest) done) (hQ : (ir'.paths e).Reached b (i :: rest') done')
    (henv : ∀ p, p ≠ (ir.insn kept).target → p ≠ (ir.insn gone).target → ir'.env M done' p = ir.env M done p) :
    ir'.env M done' (ir'.load s) = ir.env M done (ir.load s) := by
  obtain ⟨⟨m, htk, hdk⟩, ng, htg, hdg⟩ := hm.targets h.toSsaForm
  have h' := hr.cseInput h hm
  have hne := hm.ne.symm
  have hrest := hr.rest kept hne
  have hphik := Opcode.ne_phi_of_isOperation hopk
  have hopg : (ir.insn gone).opcode.isOperation = true := hm.opcode ▸ hopk
  obtain ⟨-, ho₀⟩ := hr.owns ho
  by_cases hp : ir.load s = (ir.insn kept).target ∨ ir.load s = (ir.insn gone).target
  · have hload : ir'.load s = .reg m := by
      rw [hr.load i s ho, ← htk]
      split
      · rfl
      · exact hp.resolve_right ‹_›
    have hbefore := hr.defined h.toSsaForm hm ho hload (by rw [hr.definition]; exact hdk)
    have htk' : (ir'.insn kept).target = .reg m := by
      rw [hr.target kept (h.uses.result m kept hdk).2, htk]
    have hold : ir.env M done (ir.load s) = ir.operation M (ir.env M done) kept := by
      rcases hp with hp | hp
      · have hbefore := h.defined i s ho₀ m kept (hp.trans htk) hdk
        rw [hp]
        exact h.available hopk hm.liveKept (fun s hs => h.phiReads kept s hs hphik) hbefore hP
      · have hbefore := h.defined i s ho₀ ng gone (hp.trans htg) hdg
        rw [hp, hvalue]
        exact h.available hopg hm.liveGone
          (fun s hs => h.phiReads gone s hs (Opcode.ne_phi_of_isOperation hopg)) hbefore hP
    have hlive' := (hr.live kept).2 ⟨hne, hm.liveKept⟩
    have hop' : (ir'.insn kept).opcode = (ir.insn kept).opcode := hr.opcode hne
    have hnew := h'.available (M := M) (hop' ▸ hopk) hlive'
      (fun s hs => h'.phiReads kept s hs (hop' ▸ hphik)) hbefore hQ
    rw [hload, ← htk', hnew, hold]
    refine result_congr hrest hphik (fun s hs => ?_) rfl
    have ho : ir'.Owns kept s := ⟨hlive', Instruction.operandSlots_of_withoutSlots hrest kept ▸ hs⟩
    obtain ⟨hnk, hng⟩ := hr.not_reads_self h hm ho hbefore hQ
    rw [hr.load kept s ho, if_neg hng]
    exact henv _ hnk hng
  · rw [not_or] at hp
    rw [hr.load i s ho, if_neg hp.2]
    exact henv _ hp.1 hp.2

end Replaces

/-- What defines a pseudo does not store. -/
theorem storesTarget_of_definition (h : UseInvariant ir) (hd : ir.definition p = some i) :
    (ir.insn i).opcode.storesTarget = false := by
  cases p with
  | reg nr => exact (h.result nr i hd).2
  | null | void | sym _ | val _ | arg _ | phi _ =>
    rcases h.other _ i hd rfl with hop | hop <;> rw [hop] <;> rfl

/-- A pseudo keeps its value when another one is computed. -/
theorem env_cons_of_ne (hp : p ≠ (ir.insn i).target) : ir.env M (i :: done) p = ir.env M done p := by
  rw [env]
  split
  · rw [Function.update_of_ne hp]
  · rfl

/-- After what both functions have executed, the pseudos have the same values, but for those of the
instruction that is gone and of one that is moved. -/
structure Agree (ir ir' : Ir) (M : Meaning) (S : InsnId → Bool) (kept gone : InsnId) (done done' : List InsnId) :
    Prop where
  env : ∀ p, (S kept = true → p ≠ (ir.insn kept).target) → p ≠ (ir.insn gone).target →
    ir'.env M done' p = ir.env M done p
  trace : visible S done' = visible S done

/-- Only the instruction that is kept may stand elsewhere, and every instruction reads what it read. -/
structure Matches (ir ir' : Ir) (M : Meaning) (e : BlockId) (S : InsnId → Bool) (kept gone : InsnId) : Prop where
  moved : ∀ i, S i = true → i = kept
  code : ∀ b, visible S (ir'.block b).insns = visible S (ir.block b).insns
  load : ∀ {b i s rest rest' done done'}, ir'.Owns i s → (ir.paths e).Reached b (i :: rest) done →
    (ir'.paths e).Reached b (i :: rest') done' → Agree ir ir' M S kept gone done done' →
    ir'.env M done' (ir'.load s) = ir.env M done (ir.load s)

theorem silent_of_isHashed (hi : (ir.insn i).opcode.isHashed = true) : ir.silent i = true := by
  rw [silent, hi, Bool.true_or]

namespace Replaces

variable (hr : Replaces ir ir' e kept gone) (h : ir.CseInput e) (hm : ir.Mergeable kept gone)
include hr h hm

omit hm in
theorem computes_iff (hi : i ≠ gone) : ir'.Computes i ↔ ir.Computes i := by
  have htarget : (ir.insn i).opcode.storesTarget = false → (ir'.insn i).target = (ir.insn i).target := hr.target i
  have hlive : ir'.live i ↔ ir.live i := (hr.live i).trans (and_iff_right hi)
  unfold Computes
  rw [hr.opcode hi, hr.definition, hlive]
  refine and_congr_right fun _ => and_congr_left fun _ => ⟨fun hd => ?_, fun hd => ?_⟩
  · have hstore := storesTarget_of_definition hr.uses (p := (ir'.insn i).target) (by rw [hr.definition]; exact hd)
    rw [hr.opcode hi] at hstore
    rwa [← htarget hstore]
  · rwa [htarget (storesTarget_of_definition h.uses hd)]

/-- One operation that is moved stands for the other. -/
theorem operation_matches (hopk : (ir.insn kept).opcode.isOperation = true)
    (hvalue : ∀ env, ir.operation M env kept = ir.operation M env gone) :
    Matches ir ir' M e (fun i => i = kept) kept gone where
  moved _ hi := of_decide_eq_true hi
  code b := by
    have hcode := hr.code b
    simp only [visible, ← decide_not]
    exact hcode
  load ho hP hQ ha := hr.load_value h hm hopk hvalue ho hP hQ fun p hpk => ha.env p fun _ => hpk

variable {S : InsnId → Bool} (hx : Matches ir ir' M e S kept gone)
include hx

omit hr h in
/-- Effects do not see the two. -/
theorem effect_eq (hblind : M.Blind ir.silent) (ha : Agree ir ir' M S kept gone done done') (i : InsnId) :
    M.effect i done' = M.effect i done := by
  have hsilent : ∀ j, S j = true → ir.silent j = true := fun j hj =>
    hx.moved j hj ▸ silent_of_isHashed hm.opKept
  rw [hblind i done', hblind i done, ← visible_visible hsilent done', ha.trace, visible_visible hsilent]

/-- An instruction other than the two yields the same. -/
theorem result_eq (hblind : M.Blind ir.silent) (hi : i ≠ gone) (hlive : ir.live i)
    (hP : (ir.paths e).Reached b (i :: rest) done) (hQ : (ir'.paths e).Reached b (i :: rest') done')
    (ha : Agree ir ir' M S kept gone done done') :
    ir'.result M done' (ir'.env M done') i = ir.result M done (ir.env M done) i := by
  have hlive' : ir'.live i := (hr.live i).2 ⟨hi, hlive⟩
  have heffect := effect_eq hm hx hblind ha i
  by_cases hphi : (ir.insn i).opcode = .phi
  · have hphi' : (ir'.insn i).opcode = .phi := (hr.opcode hi).trans hphi
    have hfind : done'.find? (fun d => d ∈ ir.phiSources i) = done.find? fun d => d ∈ ir.phiSources i := by
      have hnot : ∀ d, S d = true → decide (d ∈ ir.phiSources i) = false := fun d hd => by
        refine decide_eq_false fun hmem => ?_
        exact (hm.ne_of_phisource (h.source_of_mem hlive hphi hmem).2).2 (hx.moved d hd)
      rw [← find?_visible hnot done', ha.trace, find?_visible hnot]
    unfold result
    simp only [hphi, hphi', hr.phiSources h.toSsaForm hm hlive' hphi', hfind, heffect]
    cases hd : done.find? fun d => d ∈ ir.phiSources i with
    | none => rfl
    | some d =>
      have hmem : d ∈ ir.phiSources i := by simpa using List.find?_some hd
      obtain ⟨hdlive, hdop⟩ := h.source_of_mem hlive hphi hmem
      obtain ⟨⟨k, hk⟩, -⟩ := h.source d hdlive hdop
      obtain ⟨⟨m, htk, -⟩, ng, htg, -⟩ := hm.targets h.toSsaForm
      dsimp only
      rw [hr.target d (by rw [hdop]; rfl), hk]
      exact ha.env _ (fun _ => by rw [htk]; exact nofun) (by rw [htg]; exact nofun)
  · refine result_congr (hr.rest i hi) hphi (fun s hs => ?_) heffect
    exact hx.load ⟨hlive', Instruction.operandSlots_of_withoutSlots (hr.rest i hi) i ▸ hs⟩ hP hQ ha

/-- The values after one more instruction. -/
theorem env_eq (hblind : M.Blind ir.silent) (hP : (ir.paths e).Reached b (i :: rest) done)
    (hQ : (ir'.paths e).Reached b (i :: rest') done') (ha : Agree ir ir' M S kept gone done done')
    (hpk : S kept = true → p ≠ (ir.insn kept).target) (hpg : p ≠ (ir.insn gone).target) :
    ir'.env M (i :: done') p = ir.env M (i :: done) p := by
  by_cases hg : i = gone
  · subst hg
    have hnot : ¬ ir'.Computes i := fun hc => ((hr.live i).1 hc.1).1 rfl
    rw [env, if_neg hnot, env_cons_of_ne hpg]
    exact ha.env p hpk hpg
  · by_cases hc : ir.Computes i
    · have htarget := hr.target i (storesTarget_of_definition h.uses hc.2.1)
      rw [env, if_pos ((hr.computes_iff h hg).2 hc), env, if_pos hc, htarget,
        hr.result_eq h hm hx hblind hg hc.1 hP hQ ha, Function.update_apply, Function.update_apply,
        ha.env p hpk hpg]
    · rw [env, if_neg fun hc' => hc ((hr.computes_iff h hg).1 hc'), env, if_neg hc]
      exact ha.env p hpk hpg

omit hr in
/-- What shows before a jump agrees, if it agrees after it. -/
theorem agree_before (h' : ir'.CseInput e) (hop : (ir.insn i).opcode.chooses = true)
    (hop' : (ir'.insn i).opcode.chooses = true) (ha : Agree ir ir' M S kept gone (i :: done) (i :: done')) :
    Agree ir ir' M S kept gone done done' := by
  have hi : S i = false := Bool.eq_false_of_not_eq_true fun hi => by
    have hjump := (Opcode.of_isHashed hm.opKept).2.1
    rw [← hx.moved i hi, Opcode.isJump_of_chooses hop] at hjump
    cases hjump
  have htrace := ha.trace
  rw [visible_cons hi, visible_cons hi] at htrace
  refine ⟨fun p hpk hpg => ?_, (List.cons.inj htrace).2⟩
  have henv := ha.env p hpk hpg
  rwa [env, if_neg (h'.not_computes_of_chooses hop'), env, if_neg (h.not_computes_of_chooses hop)] at henv

/-- A branch or a switch at the end of both goes to the same block. -/
theorem choice_eq {c : BlockId} (hc : c ∈ (ir.block b).children) (hP : (ir.paths e).Reached b [] done)
    (hQ : (ir'.paths e).Reached b [] done') (ha : Agree ir ir' M S kept gone done done')
    (hlast : ir.lastInstruction b = some i) (hop : (ir.insn i).opcode.chooses = true) :
    (ir'.insn i).choice (ir'.env M done') = (ir.insn i).choice (ir.env M done) := by
  have hg : i ≠ gone := hm.ne_of_chooses hop
  have hop' : (ir'.insn i).opcode.chooses = true := by rw [hr.opcode hg]; exact hop
  have hlast' := (hr.last b (List.ne_nil_of_mem hc)).trans hlast
  have h' := hr.cseInput h hm
  obtain ⟨hist, rfl, hP'⟩ := hP.last (List.dropLast_append_getLast? i hlast).symm
  obtain ⟨hist', rfl, hQ'⟩ := hQ.last (List.dropLast_append_getLast? i hlast').symm
  have ho : ir'.Owns i (.target i) :=
    ⟨(hr.live i).2 ⟨hg, h.branches b i hlast hop⟩, Instruction.target_mem_operandSlots hop' i⟩
  have hcond : ir'.env M hist' (ir'.insn i).target = ir.env M hist (ir.insn i).target :=
    hx.load ho hP' hQ' (agree_before h hm hx h' hop hop' ha)
  rw [env, if_neg (h'.not_computes_of_chooses hop'), env, if_neg (h.not_computes_of_chooses hop)]
  exact Instruction.choice_congr (Instruction.of_withoutSlots (hr.rest i hg)).2.2.2.2.2 hcond

/-- The executions of both functions correspond, but for an instruction that is moved. -/
theorem silently (hblind : M.Blind ir.silent) :
    Silently S (Agree ir ir' M S kept gone) (ir.runs M e) (ir'.runs M e) where
  entry := rfl
  code := hx.code
  start := ⟨fun _ _ _ => rfl, rfl⟩
  left {b i rest done done'} hi _ ha := by
    obtain rfl := hx.moved i hi
    exact ⟨fun p hpk hpg => by rw [env_cons_of_ne (hpk hi), ha.env p hpk hpg],
      by rw [visible_cons_silent hi, ha.trace]⟩
  right {b i rest done done'} hi _ ha := by
    obtain rfl := hx.moved i hi
    obtain ⟨⟨m, htk, hdk⟩, -⟩ := hm.targets h.toSsaForm
    have htarget := hr.target i (h.uses.result m i hdk).2
    exact ⟨fun p hpk hpg => by rw [env_cons_of_ne (by rw [htarget]; exact hpk hi), ha.env p hpk hpg],
      by rw [visible_cons_silent hi, ha.trace]⟩
  both {b i rest rest' done done'} hi hP hQ ha := by
    refine ⟨fun p hpk hpg => ?_, by rw [visible_cons hi, visible_cons hi, ha.trace]⟩
    exact hr.env_eq h hm hx hblind (reached_of_runs hP) (reached_of_runs hQ) ha hpk hpg
  jumps {b c done done'} hP hQ ha := by
    change (c ∈ (ir.block b).children ∧ _) ↔ c ∈ (ir'.block b).children ∧ _
    rw [hr.children]
    refine and_congr_right fun hc => ?_
    rw [hr.last b (List.ne_nil_of_mem hc)]
    refine forall_congr' fun i => forall_congr' fun hlast => ?_
    constructor
    · intro hgo hop
      have hig : i ≠ gone := by
        rintro rfl
        rw [hr.nop] at hop
        cases hop
      rw [hr.opcode hig] at hop
      rw [hr.choice_eq h hm hx hc (reached_of_runs hP) (reached_of_runs hQ) ha hlast hop]
      exact hgo hop
    · intro hgo hop
      rw [← hr.choice_eq h hm hx hc (reached_of_runs hP) (reached_of_runs hQ) ha hlast hop]
      exact hgo (by rw [hr.opcode (hm.ne_of_chooses hop)]; exact hop)

end Replaces

/-! ## The same executions -/

/-- Wherever an execution of `ir` comes to an instruction that shows, one of `ir'` comes to it after the
same instructions that show, and what it reads is the same. -/
def Reproduces (S : InsnId → Bool) (M : Meaning) (e : BlockId) (ir ir' : Ir) : Prop :=
  ∀ b j rest done, S j = false → (ir.runs M e).Reached b (j :: rest) done →
    ∃ rest' done', (ir'.runs M e).Reached b (j :: rest') done' ∧ visible S rest' = visible S rest ∧
      visible S done' = visible S done ∧ (ir.live j → ir'.reads M done' j = ir.reads M done j)

/-- Both functions show the same. -/
structure SameBehaviour (S : InsnId → Bool) (M : Meaning) (e : BlockId) (ir ir' : Ir) : Prop where
  rest : ∀ j, S j = false → (ir'.insn j).withoutSlots = (ir.insn j).withoutSlots ∧ (ir'.live j ↔ ir.live j)
  follows : Reproduces S M e ir ir'
  followed : Reproduces S M e ir' ir

section

variable {S : InsnId → Bool} {ir'' : Ir}

theorem Reproduces.trans (h : Reproduces S M e ir ir') (h' : Reproduces S M e ir' ir'')
    (hlive : ∀ j, S j = false → ir.live j → ir'.live j) : Reproduces S M e ir ir'' := by
  intro b j rest done hj hr
  obtain ⟨rest', done', hr', hrest, hdone, hreads⟩ := h b j rest done hj hr
  obtain ⟨rest'', done'', hr'', hrest', hdone', hreads'⟩ := h' b j rest' done' hj hr'
  exact ⟨rest'', done'', hr'', hrest'.trans hrest, hdone'.trans hdone,
    fun hl => (hreads' (hlive j hj hl)).trans (hreads hl)⟩

namespace SameBehaviour

theorem refl (S : InsnId → Bool) (M : Meaning) (e : BlockId) (ir : Ir) : SameBehaviour S M e ir ir :=
  ⟨fun _ _ => ⟨rfl, Iff.rfl⟩, fun _ _ rest done _ hr => ⟨rest, done, hr, rfl, rfl, fun _ => rfl⟩,
    fun _ _ rest done _ hr => ⟨rest, done, hr, rfl, rfl, fun _ => rfl⟩⟩

theorem trans (h : SameBehaviour S M e ir ir') (h' : SameBehaviour S M e ir' ir'') : SameBehaviour S M e ir ir'' where
  rest j hj := ⟨(h'.rest j hj).1.trans (h.rest j hj).1, (h'.rest j hj).2.trans (h.rest j hj).2⟩
  follows := h.follows.trans h'.follows fun j hj => (h.rest j hj).2.2
  followed := h'.followed.trans h.followed fun j hj => (h'.rest j hj).2.1

end SameBehaviour

namespace Remarked

variable (hr : Remarked ir ir')
include hr

theorem env (done : List InsnId) : ir'.env M done = ir.env M done := by
  rw [hr.frame]
  induction done with
  | nil => rfl
  | cons i done ih =>
    unfold Ir.env
    rw [ih]
    rfl

theorem runs : ir'.runs M e = ir.runs M e := by
  unfold Ir.runs
  simp only [hr.insns, hr.children, lastInstruction, hr.insn, hr.env]

theorem reads (done : List InsnId) (i : InsnId) : ir'.reads M done i = ir.reads M done i := by
  unfold Ir.reads
  rw [hr.env, hr.frame]
  rfl

theorem sameBehaviour (S : InsnId → Bool) : SameBehaviour S M e ir ir' := by
  have hlive : ∀ j, ir'.live j ↔ ir.live j := fun j => by rw [live, hr.insn, live]
  refine ⟨fun j _ => ⟨by rw [hr.insn], hlive j⟩, fun b j rest done _ hreach => ?_, fun b j rest done _ hreach => ?_⟩
  · refine ⟨rest, done, ?_, rfl, rfl, fun _ => hr.reads done j⟩
    rw [hr.runs]
    exact hreach
  · rw [hr.runs] at hreach
    exact ⟨rest, done, hreach, rfl, rfl, fun _ => (hr.reads done j).symm⟩

end Remarked

end

namespace Replaces

variable (hr : Replaces ir ir' e kept gone) (h : ir.CseInput e) (hm : ir.Mergeable kept gone)
include hr h hm

omit h in
theorem silent_eq : ir'.silent = ir.silent := by
  funext j
  by_cases hj : j = gone
  · subst hj
    rw [silent_of_isHashed hm.opGone, silent, hr.nop]
    rfl
  · rw [silent, hr.opcode hj, silent]

variable {S : InsnId → Bool} (hx : Matches ir ir' M e S kept gone)
include hx

omit h hm in
theorem reads_eq (hj : j ≠ gone) (hlive : ir.live j) (hP : (ir.paths e).Reached b (j :: rest) done)
    (hQ : (ir'.paths e).Reached b (j :: rest') done') (ha : Agree ir ir' M S kept gone done done') :
    ir'.reads M done' j = ir.reads M done j := by
  have hslots := Instruction.operandSlots_of_withoutSlots (hr.rest j hj) j
  unfold reads
  rw [hslots]
  refine List.map_congr_left fun s hs => ?_
  exact hx.load ⟨(hr.live j).2 ⟨hj, hlive⟩, hslots ▸ hs⟩ hP hQ ha

theorem sameBehaviour (hblind : M.Blind ir.silent) : SameBehaviour ir.silent M e ir ir' := by
  have hcoarse : ∀ j, S j = true → ir.silent j = true := fun j hj => hx.moved j hj ▸ silent_of_isHashed hm.opKept
  have hshown : ∀ {j}, ir.silent j = false → j ≠ gone ∧ S j = false := by
    intro j hj
    refine ⟨?_, Bool.eq_false_of_not_eq_true fun hS => ?_⟩
    · rintro rfl
      rw [silent_of_isHashed hm.opGone] at hj
      cases hj
    · rw [hcoarse j hS] at hj
      cases hj
  have hvisible : ∀ {l l'}, visible S l' = visible S l → visible ir.silent l' = visible ir.silent l :=
    fun {l l'} heq => by rw [← visible_visible hcoarse l', heq, visible_visible hcoarse]
  have hsim := hr.silently h hm hx hblind
  have hlive : ∀ {j}, j ≠ gone → (ir'.live j ↔ ir.live j) := fun hj => (hr.live _).trans (and_iff_right hj)
  refine ⟨fun j hj => ?_, fun b j rest done hj hreach => ?_, fun b j rest done hj hreach => ?_⟩
  · obtain ⟨hjg, -⟩ := hshown hj
    exact ⟨hr.rest j hjg, hlive hjg⟩
  · obtain ⟨hjg, hjk⟩ := hshown hj
    obtain ⟨rest', done', hreach', hrest, hdone, ha⟩ := hsim.follow_to hjk hreach
    exact ⟨rest', done', hreach', hvisible hrest, hvisible hdone, fun hl =>
      hr.reads_eq hx hjg hl (reached_of_runs hreach) (reached_of_runs hreach') ha⟩
  · obtain ⟨hjg, hjk⟩ := hshown hj
    obtain ⟨rest', done', hreach', hrest, hdone, ha⟩ := hsim.symm.follow_to hjk hreach
    exact ⟨rest', done', hreach', hvisible hrest, hvisible hdone, fun hl =>
      (hr.reads_eq hx hjg ((hlive hjg).1 hl) (reached_of_runs hreach') (reached_of_runs hreach) ha).symm⟩

end Replaces

end Ir

end Sparse
