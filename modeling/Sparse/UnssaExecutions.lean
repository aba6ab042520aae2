import Sparse.Unssa

/-!
# Executions of functions with copies

A copy sets its target to the value of its operand, also a target with more than one copy into it.
What the copies into temporaries leave is what the phis chose.
-/

namespace Sparse

open ProgramPaths

namespace Ir

variable (ir : Ir) (M : Meaning)

/-- The values of the pseudos after what was executed, in a function with copies. -/
def copyEnv : List InsnId → Pseudo → BitVec 64
  | [] => M.initial
  | i :: done =>
    if ir.live i ∧ (ir.insn i).opcode = .copy then
      Function.update (copyEnv done) (ir.insn i).target (copyEnv done (ir.insn i).src1)
    else if ir.Computes i then
      Function.update (copyEnv done) (ir.insn i).target (ir.result M done (copyEnv done) i)
    else copyEnv done

/-- The executions of a function with copies. -/
def copyRuns (e : BlockId) : Program BlockId InsnId where
  entry := e
  code b := (ir.block b).insns
  jumps done b c := c ∈ (ir.block b).children ∧
    ∀ i, ir.lastInstruction b = some i → (ir.insn i).opcode.chooses = true →
      (ir.insn i).choice (ir.copyEnv M done) = some c

/-- The instructions that were there before others were allocated. -/
def erase (l : List InsnId) : List InsnId := l.filter (· < ir.nextInsn)

/-- The same for instructions that were allocated later: they are not seen. -/
def erased : Meaning := { M with effect := fun i done => M.effect i (ir.erase done) }

/-- `p` is an allocated register or no register, and not the pseudo of a phi source. -/
def Plain (p : Pseudo) : Prop := p.isPhi = false ∧ ∀ nr, p = .reg nr → nr < ir.nextReg

/-- A function that is to leave SSA form. The pseudos of phi sources are read by phis only. -/
structure Translatable (ir : Ir) : Prop extends UnssaInput ir where
  copies : ∀ i, ir.live i → (ir.insn i).opcode ≠ .copy
  operands : ∀ i s, ir.Owns i s → (ir.insn i).opcode ≠ .phi → ir.Plain (ir.load s)
  phiTarget : ∀ i, ir.live i → (ir.insn i).opcode = .phi →
    ∃ nr, (ir.insn i).target = .reg nr ∧ ir.definition (.reg nr) = some i
  source : ∀ d, ir.live d → (ir.insn d).opcode = .phisource →
    (ir.insn d).target.isPhi = true ∧ ir.definition (ir.insn d).target = some d
  entries : ∀ i, ir.live i → (ir.insn i).opcode = .phi → ∀ d ∈ ir.phiSources i, (ir.insn d).opcode = .phisource
  branches : ∀ b i, ir.lastInstruction b = some i → (ir.insn i).opcode.chooses = true → ir.live i

/-- A phi none of whose sources was executed yields what was in its temporary at the start. -/
def PhisStart (ir ir' : Ir) (M : Meaning) : Prop :=
  ∀ i, ir.live i → (ir.insn i).opcode = .phi → ∀ done, (∀ d ∈ done, d ∉ ir.phiSources i) →
    M.effect i done = M.initial (ir'.insn i).src1

/-- What the phi would choose. -/
def chosen (done : List InsnId) (tmp : Pseudo) (i : InsnId) : BitVec 64 :=
  match done.find? (fun d => d ∈ ir.phiSources i) with
  | some d => ir.env M done (ir.insn d).target
  | none => M.initial tmp

variable {ir M} {ir' : Ir} {done k : List InsnId} {i j d : InsnId} {p q : Pseudo}

/-- A pseudo keeps its value while nothing writes it. -/
theorem copyEnv_append
    (hk : ∀ j ∈ k, ir.live j ∧ (ir.insn j).opcode = .copy ∨ ir.Computes j → (ir.insn j).target ≠ p) :
    ir.copyEnv M (k ++ done) p = ir.copyEnv M done p := by
  induction k with
  | nil => rfl
  | cons j k ih =>
    have ih := ih fun j' hj' => hk j' (List.mem_cons_of_mem j hj')
    rw [List.cons_append, copyEnv]
    split_ifs with hcopy hcomp
    · rw [Function.update_of_ne (hk j List.mem_cons_self (.inl hcopy)).symm, ih]
    · rw [Function.update_of_ne (hk j List.mem_cons_self (.inr hcomp)).symm, ih]
    · exact ih

/-- Copies of one operand to other pseudos. -/
theorem copyEnv_copies (hk : ∀ j ∈ k, ir.live j ∧ (ir.insn j).opcode = .copy ∧ (ir.insn j).src1 = p)
    (hp : ∀ j ∈ k, (ir.insn j).target ≠ p) :
    ir.copyEnv M (k ++ done) q =
      if ∃ j ∈ k, (ir.insn j).target = q then ir.copyEnv M done p else ir.copyEnv M done q := by
  induction k with
  | nil => simp
  | cons j k ih =>
    obtain ⟨hlive, hop, hsrc⟩ := hk j List.mem_cons_self
    have hp' : ∀ j' ∈ k, (ir.insn j').target ≠ p := fun j' hj' => hp j' (List.mem_cons_of_mem j hj')
    have ih := ih (fun j' hj' => hk j' (List.mem_cons_of_mem j hj')) hp'
    have hkeep : ir.copyEnv M (k ++ done) p = ir.copyEnv M done p := copyEnv_append fun j' hj' _ => hp' j' hj'
    rw [List.cons_append, copyEnv, if_pos ⟨hlive, hop⟩, hsrc, hkeep, Function.update_apply, ih]
    by_cases hq : q = (ir.insn j).target
    · rw [if_pos hq, if_pos ⟨j, List.mem_cons_self, hq.symm⟩]
    · rw [if_neg hq]
      refine if_congr ?_ rfl rfl
      rw [List.exists_mem_cons_iff, or_iff_right fun h => hq h.symm]

theorem erase_append (l l' : List InsnId) : ir.erase (l ++ l') = ir.erase l ++ ir.erase l' :=
  List.filter_append _ _

theorem erase_singleton (hi : i < ir.nextInsn) : ir.erase [i] = [i] := by simp [erase, hi]

theorem erase_fresh (hk : ∀ j ∈ k, ir.nextInsn ≤ j) : ir.erase k = [] :=
  List.filter_eq_nil_iff.2 fun j hj => by simpa using hk j hj

theorem Plain.not_temporary (hp : ir.Plain p) {nr : ℕ} (hnr : ir.nextReg ≤ nr) : p ≠ .reg nr := fun h =>
  absurd (hp.2 nr h) (not_lt.2 hnr)

/-- The operands of an instruction that is not rewritten are the same. -/
theorem load_operand (hinsn : ir'.insn i = ir.insn i) (hcell : ir'.cell = ir.cell) {s : Address}
    (hs : s ∈ (ir.insn i).operandSlots i) : ir'.load s = ir.load s := by
  rcases Instruction.mem_operandSlots hs with rfl | rfl | rfl | ⟨rfl, -⟩ | ⟨c, rfl⟩
  · simp only [load, hinsn]
  · simp only [load, hinsn]
  · simp only [load, hinsn]
  · simp only [load, hinsn]
  · simp only [load, hcell]

namespace Translatable

variable (h : Translatable ir)
include h

/-- An instruction that is not rewritten yields the same. -/
theorem result_eq (hlive : ir.live i) (hphi : (ir.insn i).opcode ≠ .phi) (hinsn : ir'.insn i = ir.insn i)
    (hcell : ir'.cell = ir.cell) {done' : List InsnId} (htrace : ir.erase done' = done)
    {env env' : Pseudo → BitVec 64} (henv : ∀ p, ir.Plain p → env' p = env p) :
    ir'.result (ir.erased M) done' env' i = ir.result M done env i := by
  have hslot : ∀ s ∈ (ir.insn i).operandSlots i, env' (ir.load s) = env (ir.load s) := fun s hs =>
    henv _ (h.operands i s ⟨hlive, hs⟩ hphi)
  have hmap : (((ir.insn i).operandSlots i).map ir'.load).map env' =
      (((ir.insn i).operandSlots i).map ir.load).map env := by
    rw [List.map_map, List.map_map]
    refine List.map_congr_left fun s hs => ?_
    rw [Function.comp_apply, load_operand hinsn hcell hs]
    exact hslot s hs
  have hsrc1 : .src1 i ∈ (ir.insn i).operandSlots i → env' (ir.insn i).src1 = env (ir.insn i).src1 := hslot (.src1 i)
  have hsrc2 : .src2 i ∈ (ir.insn i).operandSlots i → env' (ir.insn i).src2 = env (ir.insn i).src2 := hslot (.src2 i)
  have hsrc3 : .src3 i ∈ (ir.insn i).operandSlots i → env' (ir.insn i).src3 = env (ir.insn i).src3 := hslot (.src3 i)
  cases hop : (ir.insn i).opcode with
  | phi => exact absurd hop hphi
  | phisource =>
    simp only [result, hinsn, hop]
    exact hsrc1 (by simp [Instruction.operandSlots, hop])
  | sel =>
    simp only [result, hinsn, hop]
    rw [hsrc1 (by simp [Instruction.operandSlots, hop]), hsrc2 (by simp [Instruction.operandSlots, hop]),
      hsrc3 (by simp [Instruction.operandSlots, hop])]
  | _ => simp only [result, hinsn, hop, hmap, erased, htrace]

/-- What computes a pseudo has not computed that of another phi source. -/
theorem env_source (hd : ir.live d) (hop : (ir.insn d).opcode = .phisource) (hne : i ≠ d) :
    ir.env M (i :: done) (ir.insn d).target = ir.env M done (ir.insn d).target := by
  refine env_append (k := [i]) fun j hj hc heq => ?_
  rw [List.mem_singleton.1 hj] at hc heq
  have hdef := hc.2.1
  rw [heq, (h.source d hd hop).2] at hdef
  exact hne (Option.some.inj hdef).symm

theorem phiSources_spec (hlive : ir.live j) (hop : (ir.insn j).opcode = .phi) (hd : d ∈ ir.phiSources j) :
    ir.live d ∧ (ir.insn d).opcode = .phisource :=
  ⟨of_decide_eq_true (List.mem_filter.1 hd).2, h.entries j hlive hop d hd⟩

/-- An instruction that the phi does not choose from leaves its choice. -/
theorem chosen_cons (hlive : ir.live j) (hop : (ir.insn j).opcode = .phi) (hi : i ∉ ir.phiSources j) :
    ir.chosen M (i :: done) p j = ir.chosen M done p j := by
  rw [chosen, chosen, List.find?_cons_of_neg (by simpa using hi)]
  cases hfind : done.find? fun d => d ∈ ir.phiSources j with
  | none => rfl
  | some d =>
    have hd : d ∈ ir.phiSources j := by simpa using List.find?_some hfind
    obtain ⟨hdlive, hdop⟩ := h.phiSources_spec hlive hop hd
    exact h.env_source hdlive hdop fun heq => hi (heq ▸ hd)

end Translatable

/-- The state after what both functions have executed: what can be read is the same, and each
temporary holds what its phi would choose. -/
structure Related (ir ir' : Ir) (M : Meaning) (phis done done' : List InsnId) : Prop where
  trace : ir.erase done' = done
  plain : ∀ p, ir.Plain p → ir'.copyEnv (ir.erased M) done' p = ir.env M done p
  temporary : ∀ i ∈ phis, ir'.copyEnv (ir.erased M) done' (ir'.insn i).src1 = ir.chosen M done (ir'.insn i).src1 i

namespace Related

variable {phis done' seg : List InsnId}

theorem start : Related ir ir' M phis [] [] := ⟨rfl, fun _ _ => rfl, fun _ _ => rfl⟩

theorem computes_iff (ht : Unssaed ir ir' phis) (hinsn : ir'.insn i = ir.insn i) :
    ir'.Computes i ↔ ir.Computes i := by
  simp only [Computes, live, hinsn, ht.definition]

variable (h : Translatable ir) (ht : Unssaed ir ir' phis) (hr : Related ir ir' M phis done done')
include h ht

/-- What computes a value does not write a temporary. -/
theorem temporary_ne (hj : j ∈ phis) (hc : ir.Computes i) : (ir'.insn j).src1 ≠ (ir.insn i).target := by
  obtain ⟨nr, hnr, hcopy⟩ := ht.copy j hj
  rw [hcopy]
  rintro htarget
  have hdef := hc.2.1
  rw [← htarget, h.registers nr hnr] at hdef
  cases hdef

include hr

theorem step_other (hi : i < ir.nextInsn) (hphi : ir.live i → (ir.insn i).opcode ≠ .phi)
    (hsource : (ir.insn i).opcode = .phisource → ∀ phi ∈ phis, i ∉ ir.phiSources phi)
    (hinsn : ir'.insn i = ir.insn i) : Related ir ir' M phis (i :: done) (i :: done') := by
  have htrace : ir.erase (i :: done') = i :: done := by
    rw [← List.singleton_append, erase_append, erase_singleton hi, hr.trace, List.singleton_append]
  have hcopy : ¬ (ir'.live i ∧ (ir'.insn i).opcode = .copy) := by
    rw [live, hinsn]
    exact fun hcopy => h.copies i hcopy.1 hcopy.2
  have hchosen : ∀ j ∈ phis, ir.chosen M (i :: done) (ir'.insn j).src1 j = ir.chosen M done (ir'.insn j).src1 j :=
    fun j hj => by
      obtain ⟨hlive, hop⟩ := ht.phi j hj
      refine h.chosen_cons hlive hop fun hi => ?_
      exact hsource (h.phiSources_spec hlive hop hi).2 j hj hi
  by_cases hc : ir.Computes i
  · have hresult := h.result_eq (M := M) hc.1 (hphi hc.1) hinsn ht.cell hr.trace hr.plain
    have henv : ir'.copyEnv (ir.erased M) (i :: done') = Function.update (ir'.copyEnv (ir.erased M) done')
        (ir.insn i).target (ir.result M done (ir.env M done) i) := by
      rw [copyEnv, if_neg hcopy, if_pos ((computes_iff ht hinsn).2 hc), hresult, hinsn]
    refine ⟨htrace, fun p hp => ?_, fun j hj => ?_⟩
    · rw [henv, env, if_pos hc, Function.update_apply, Function.update_apply, hr.plain p hp]
    · rw [henv, Function.update_of_ne (temporary_ne h ht hj hc), hchosen j hj, hr.temporary j hj]
  · have henv : ir'.copyEnv (ir.erased M) (i :: done') = ir'.copyEnv (ir.erased M) done' := by
      rw [copyEnv, if_neg hcopy, if_neg fun hc' => hc ((computes_iff ht hinsn).1 hc')]
    refine ⟨htrace, fun p hp => ?_, fun j hj => ?_⟩
    · rw [henv, env, if_neg hc, hr.plain p hp]
    · rw [henv, hchosen j hj, hr.temporary j hj]

theorem step_phi (hstart : PhisStart ir ir' M) (hi : i < ir.nextInsn) (hmem : i ∈ phis) :
    Related ir ir' M phis (i :: done) (i :: done') := by
  obtain ⟨hlive, hop⟩ := ht.phi i hmem
  obtain ⟨nr, hnr, hinsn⟩ := ht.copy i hmem
  obtain ⟨r, htarget, hdef⟩ := h.phiTarget i hlive hop
  have hc : ir.Computes i := ⟨hlive, htarget ▸ hdef, by rw [hop]; decide⟩
  have hresult : ir.result M done (ir.env M done) i = ir.chosen M done (ir'.insn i).src1 i := by
    simp only [result, hop, chosen]
    cases hfind : done.find? fun d => d ∈ ir.phiSources i with
    | some d => rfl
    | none => exact hstart i hlive hop done fun d hd => by simpa using List.find?_eq_none.1 hfind d hd
  have hcopy : ir'.live i ∧ (ir'.insn i).opcode = .copy := by
    rw [live, hinsn]
    exact ⟨hlive, rfl⟩
  have hsame : (ir'.insn i).target = (ir.insn i).target := by rw [hinsn]
  have henv : ir'.copyEnv (ir.erased M) (i :: done') = Function.update (ir'.copyEnv (ir.erased M) done')
      (ir.insn i).target (ir.result M done (ir.env M done) i) := by
    rw [copyEnv, if_pos hcopy, hsame, hr.temporary i hmem, hresult]
  refine ⟨?_, fun p hp => ?_, fun j hj => ?_⟩
  · rw [← List.singleton_append, erase_append, erase_singleton hi, hr.trace, List.singleton_append]
  · rw [henv, env, if_pos hc, Function.update_apply, Function.update_apply, hr.plain p hp]
  · obtain ⟨hjlive, hjop⟩ := ht.phi j hj
    rw [henv, Function.update_of_ne (temporary_ne h ht hj hc), hr.temporary j hj, h.chosen_cons hjlive hjop]
    intro hi
    rw [(h.phiSources_spec hjlive hjop hi).2] at hop
    cases hop

theorem step_source {front : List InsnId} (hi : i < ir.nextInsn) (hlive : ir.live i)
    (hop : (ir.insn i).opcode = .phisource) (hfresh : ∀ j ∈ front, ir.nextInsn ≤ j)
    (hcopy : ∀ j ∈ front ++ [i], ir'.live j ∧ (ir'.insn j).opcode = .copy ∧ (ir'.insn j).src1 = (ir.insn i).src1)
    (htarget : ∀ p, (∃ j ∈ front ++ [i], (ir'.insn j).target = p) ↔
      ∃ phi ∈ phis, i ∈ ir.phiSources phi ∧ (ir'.insn phi).src1 = p) :
    Related ir ir' M phis (i :: done) ((front ++ [i]).reverse ++ done') := by
  have hplain : ir.Plain (ir.insn i).src1 :=
    h.operands i (.src1 i) ⟨hlive, by simp [Instruction.operandSlots, hop]⟩ (by rw [hop]; decide)
  have hnot : ∀ p, ir.Plain p → ¬ ∃ j ∈ front ++ [i], (ir'.insn j).target = p := fun p hp hj => by
    obtain ⟨phi, hphi, -, rfl⟩ := (htarget p).1 hj
    obtain ⟨nr, hnr, hinsn⟩ := ht.copy phi hphi
    exact hp.not_temporary hnr (by rw [hinsn])
  have hc : ir.Computes i := ⟨hlive, (h.source i hlive hop).2, by rw [hop]; decide⟩
  have hresult : ir.result M done (ir.env M done) i = ir.env M done (ir.insn i).src1 := by simp only [result, hop]
  have henv : ∀ q, ir'.copyEnv (ir.erased M) ((front ++ [i]).reverse ++ done') q =
      if ∃ j ∈ front ++ [i], (ir'.insn j).target = q then ir.env M done (ir.insn i).src1
      else ir'.copyEnv (ir.erased M) done' q := fun q => by
    rw [copyEnv_copies (p := (ir.insn i).src1) (fun j hj => hcopy j (List.mem_reverse.1 hj))
      fun j hj heq => hnot _ hplain ⟨j, List.mem_reverse.1 hj, heq⟩, hr.plain _ hplain]
    simp only [List.mem_reverse]
  refine ⟨?_, fun p hp => ?_, fun j hj => ?_⟩
  · rw [List.reverse_append, List.append_assoc, erase_append, List.reverse_singleton, erase_singleton hi, erase_append,
      erase_fresh fun j hj => hfresh j (List.mem_reverse.1 hj), hr.trace]
    rfl
  · have hne : p ≠ (ir.insn i).target := fun heq => by
      have hphi := (h.source i hlive hop).1
      rw [← heq, hp.1] at hphi
      cases hphi
    rw [henv, if_neg (hnot p hp), env, if_pos hc, Function.update_of_ne hne, hr.plain p hp]
  · obtain ⟨hjlive, hjop⟩ := ht.phi j hj
    rw [henv]
    by_cases hsrc : i ∈ ir.phiSources j
    · rw [if_pos ((htarget _).2 ⟨j, hj, hsrc, rfl⟩), chosen, List.find?_cons_of_pos (by simpa using hsrc)]
      simp only
      rw [env_cons_self hc, hresult]
    · rw [if_neg, h.chosen_cons hjlive hjop hsrc, hr.temporary j hj]
      intro hmem
      obtain ⟨phi, hphi, hmem, heq⟩ := (htarget _).1 hmem
      exact hsrc (ht.apart phi hphi j hj heq ▸ hmem)

theorem step (hstart : PhisStart ir ir' M) (hR : Translates ir ir' phis i seg) :
    Related ir ir' M phis (i :: done) (seg.reverse ++ done') := by
  cases hR with
  | other hi hphi hsource hinsn => exact hr.step_other h ht hi hphi hsource hinsn
  | phi hi hmem => exact hr.step_phi h ht hstart hi hmem
  | source hi hlive hop hfresh hcopy htarget => exact hr.step_source h ht hi hlive hop hfresh hcopy htarget

end Related

section

variable {phis done' seg rest rest' : List InsnId} {e b : BlockId}

theorem getLast?_of_translates (i : InsnId) (seg : List InsnId) (hR : Translates ir ir' phis i seg) :
    seg.getLast? = some i := by
  cases hR <;> simp

theorem erase_expands (he : Expands (Translates ir ir' phis) rest rest') : ir.erase rest' = rest := by
  induction he with
  | nil => rfl
  | @cons i seg rest rest' hR _ ih =>
    rw [erase_append, ih]
    cases hR with
    | other hi => rw [erase_singleton hi]; rfl
    | phi hi => rw [erase_singleton hi]; rfl
    | source hi _ _ hfresh => rw [erase_append, erase_fresh hfresh, erase_singleton hi]; rfl

/-- Inside of what stands for an instruction nothing has happened yet that can be read. -/
theorem inside_of_translates {pre post : List InsnId} (ht : Unssaed ir ir' phis)
    (hR : Translates ir ir' phis i (pre ++ post)) (hpost : post ≠ []) :
    ir.erase pre.reverse = [] ∧ ir.erase post = [i] ∧ ∀ p, ir.Plain p →
      ir'.copyEnv (ir.erased M) (pre.reverse ++ done') p = ir'.copyEnv (ir.erased M) done' p := by
  have hsplit : ∀ front, pre ++ post = front ++ [i] → front = pre ++ post.dropLast ∧ post = post.dropLast ++ [i] := by
    intro front heq
    rw [← List.dropLast_append_getLast hpost, ← List.append_assoc] at heq
    obtain ⟨hfront, hlast⟩ := List.append_inj' heq rfl
    refine ⟨hfront.symm, ?_⟩
    rw [← hlast, List.dropLast_append_getLast hpost]
  have halone : i < ir.nextInsn → pre ++ post = [i] → ir.erase pre.reverse = [] ∧ ir.erase post = [i] ∧
      ∀ p, ir.Plain p → ir'.copyEnv (ir.erased M) (pre.reverse ++ done') p = ir'.copyEnv (ir.erased M) done' p := by
    intro hi heq
    obtain ⟨hfront, hlast⟩ := hsplit [] heq
    obtain ⟨rfl, hdrop⟩ := List.append_eq_nil_iff.1 hfront.symm
    rw [hlast, hdrop]
    exact ⟨rfl, erase_singleton hi, fun _ _ => rfl⟩
  generalize hseg : pre ++ post = seg at hR
  cases hR with
  | other hi => exact halone hi hseg
  | phi hi => exact halone hi hseg
  | source hi hlive hop hfresh hcopy htarget =>
    obtain ⟨rfl, hlast⟩ := hsplit _ hseg
    have hpre : ∀ j ∈ pre, j ∈ pre ++ post.dropLast := fun j hj => List.mem_append_left _ hj
    refine ⟨erase_fresh fun j hj => hfresh j (hpre j (List.mem_reverse.1 hj)), ?_,
      fun p hp => copyEnv_append fun j hj _ heq => ?_⟩
    · rw [hlast, erase_append, erase_fresh fun j hj => hfresh j (List.mem_append_right _ hj), erase_singleton hi]
      rfl
    · have hj : j ∈ pre ++ post.dropLast ++ [i] := List.mem_append_left _ (hpre j (List.mem_reverse.1 hj))
      obtain ⟨phi, hphi, -, hsrc⟩ := (htarget p).1 ⟨j, hj, heq⟩
      obtain ⟨nr, hnr, hinsn⟩ := ht.copy phi hphi
      exact hp.not_temporary hnr (by rw [← hsrc, hinsn])

variable (h : Translatable ir) (ht : Unssaed ir ir' phis)
include h ht

theorem related_of_traces (hstart : PhisStart ir ir' M) (hT : Traces (Translates ir ir' phis) done done') :
    Related ir ir' M phis done done' := by
  induction hT with
  | nil => exact .start
  | cons hR _ ih => exact ih.step h ht hstart hR

/-- A branch or a switch is not rewritten. -/
theorem choice_of_translates (hr : Related ir ir' M phis done done')
    (hlive : (ir.insn i).opcode.chooses = true → ir.live i) (hR : Translates ir ir' phis i seg) :
    (ir'.insn i).opcode.chooses = (ir.insn i).opcode.chooses ∧ ((ir.insn i).opcode.chooses = true →
      (ir'.insn i).choice (ir'.copyEnv (ir.erased M) done') = (ir.insn i).choice (ir.env M done)) := by
  cases hR with
  | other _ _ _ hinsn =>
    rw [hinsn]
    refine ⟨rfl, fun hop => Instruction.choice_congr rfl ?_⟩
    have howns : ir.Owns i (.target i) := ⟨hlive hop, Instruction.target_mem_operandSlots hop i⟩
    refine hr.plain (ir.insn i).target (h.operands i _ howns ?_)
    rintro hphi
    rw [hphi] at hop
    cases hop
  | phi _ hmem =>
    obtain ⟨nr, -, hinsn⟩ := ht.copy i hmem
    rw [hinsn, (ht.phi i hmem).2]
    exact ⟨rfl, nofun⟩
  | source _ _ hop _ hcopy =>
    rw [(hcopy i (by simp)).2.1, hop]
    exact ⟨rfl, nofun⟩

/-- The rewritten function is the function with its instructions expanded, also where it branches. -/
theorem expansion (hstart : PhisStart ir ir' M) :
    Expansion (Translates ir ir' phis) (ir.runs M e) (ir'.copyRuns (ir.erased M) e) where
  entry := rfl
  code := ht.code
  ne_nil i seg hR := by cases hR <;> simp
  jumps b c done done' hT := by
    have hr := related_of_traces h ht hstart hT
    have hlast : ir'.lastInstruction b = ir.lastInstruction b := (ht.code b).getLast? getLast?_of_translates
    change (_ ∧ _) ↔ _ ∧ _
    rw [ht.children, hlast]
    refine and_congr_right fun _ => forall_congr' fun i => forall_congr' fun hi => ?_
    obtain ⟨seg, hR⟩ := (ht.code b).exists_seg (List.mem_of_getLast? hi)
    obtain ⟨hop, hchoice⟩ := choice_of_translates h ht hr (h.branches b i hi) hR
    rw [hop]
    exact forall_congr' fun hchooses => by rw [hchoice hchooses]

/-- A point of an execution of the rewritten function. -/
theorem follows_spec (hstart : PhisStart ir ir' M) (hf : Follows (Translates ir ir' phis) rest done rest' done') :
    ir.erase rest' = rest ∧ ir.erase done' = done ∧
      ∀ p, ir.Plain p → ir'.copyEnv (ir.erased M) done' p = ir.env M done p := by
  cases hf with
  | between he hT =>
    have hr := related_of_traces h ht hstart hT
    exact ⟨erase_expands he, hr.trace, hr.plain⟩
  | inside hR hpost he hT =>
    have hr := related_of_traces h ht hstart hT
    obtain ⟨hpre, hpost, hplain⟩ := inside_of_translates ht hR hpost
    refine ⟨?_, ?_, fun p hp => (hplain p hp).trans (hr.plain p hp)⟩
    · rw [erase_append, hpost, erase_expands he]
      rfl
    · rw [erase_append, hpre, hr.trace]
      rfl

end

/-- `unssa` leaves no phi, and no other instruction than phis and phi sources changes. The executions
are those of before with the added copies in them, and what is read has the same values. -/
theorem unssa_preserves {e : BlockId} (h : Translatable ir) (hstart : PhisStart ir ir.unssa M) :
    (∀ b, ∀ i ∈ (ir.unssa.block b).insns, ir.unssa.live i → (ir.unssa.insn i).opcode ≠ .phi) ∧
      (∀ b, ∀ i ∈ (ir.block b).insns, (ir.insn i).opcode ≠ .phi → (ir.insn i).opcode ≠ .phisource →
        ir.unssa.insn i = ir.insn i) ∧
      (∀ b rest done, (ir.runs M e).Reached b rest done →
        ∃ rest' done', (ir.unssa.copyRuns (ir.erased M) e).Reached b rest' done' ∧
          ir.erase rest' = rest ∧ ir.erase done' = done) ∧
      ∀ b rest' done', (ir.unssa.copyRuns (ir.erased M) e).Reached b rest' done' →
        (ir.runs M e).Reached b (ir.erase rest') (ir.erase done') ∧
          ∀ p, ir.Plain p → ir.unssa.copyEnv (ir.erased M) done' p = ir.env M (ir.erase done') p := by
  obtain ⟨phis, ht⟩ := h.toUnssaInput.unssa_spec
  have hexp := expansion (e := e) h ht hstart
  refine ⟨fun b i hi hlive hop => ?_, fun b i hi hphi hsource => ?_, fun b rest done hr => ?_,
    fun b rest' done' hr => ?_⟩
  · obtain ⟨i₀, -, seg, hR, hi⟩ := (ht.code b).mem_seg hi
    cases hR with
    | other _ hphi _ hinsn =>
      rw [List.mem_singleton.1 hi] at hlive hop
      rw [live, hinsn] at hlive
      rw [hinsn] at hop
      exact hphi hlive hop
    | phi _ hmem =>
      obtain ⟨nr, -, hinsn⟩ := ht.copy i₀ hmem
      rw [List.mem_singleton.1 hi, hinsn] at hop
      cases hop
    | source _ _ _ _ hcopy =>
      rw [(hcopy i hi).2.1] at hop
      cases hop
  · obtain ⟨seg, hR⟩ := (ht.code b).exists_seg hi
    cases hR with
    | other _ _ _ hinsn => exact hinsn
    | phi _ hmem => exact absurd (ht.phi i hmem).2 hphi
    | source _ _ hop => exact absurd hop hsource
  · obtain ⟨rest', done', hr', he, hT⟩ := hexp.follow hr
    exact ⟨rest', done', hr', erase_expands he, (related_of_traces h ht hstart hT).trace⟩
  · obtain ⟨rest, done, hr', hf⟩ := hexp.follows hr
    obtain ⟨hrest, hdone, hplain⟩ := follows_spec h ht hstart hf
    rw [hrest, hdone]
    exact ⟨hr', hplain⟩

/-! ## Functions with finitely many names -/

instance (ir : Ir) : (p : Pseudo) → Decidable (ir.Plain p)
  | .reg nr => decidable_of_iff (nr < ir.nextReg)
      ⟨fun h => ⟨rfl, fun _ heq => Pseudo.reg.inj heq ▸ h⟩, fun h => h.2 nr rfl⟩
  | .phi _ => isFalse fun h => Bool.noConfusion h.1
  | .null | .void | .sym _ | .val _ | .arg _ => isTrue ⟨rfl, nofun⟩

/-- The clauses about the instructions. -/
def TranslatableCheck (ir : Ir) (i : InsnId) : Prop :=
  ir.live i → (ir.insn i).opcode ≠ .copy ∧
    ((ir.insn i).opcode ≠ .phi → ∀ s ∈ (ir.insn i).operandSlots i, ir.Plain (ir.load s)) ∧
    ((ir.insn i).opcode = .phi → (ir.insn i).target.isReg = true ∧ ir.definition (ir.insn i).target = some i ∧
      ∀ d ∈ ir.phiSources i, (ir.insn d).opcode = .phisource) ∧
    ((ir.insn i).opcode = .phisource → (ir.insn i).target.isPhi = true ∧ ir.definition (ir.insn i).target = some i)

instance (ir : Ir) (i : InsnId) : Decidable (ir.TranslatableCheck i) := by
  unfold TranslatableCheck
  infer_instance

/-- The clauses about the blocks. -/
def ListCheck (ir : Ir) (b : BlockId) : Prop :=
  (ir.block b).insns.Nodup ∧
    (∀ i ∈ (ir.block b).insns, i < ir.nextInsn ∧ (ir.live i → b ∈ ir.bbs) ∧
      ∀ c < ir.nextBlock, i ∈ (ir.block c).insns → b = c) ∧
    ∀ i ∈ (ir.lastInstruction b).toList, (ir.insn i).opcode.chooses = true → ir.live i

instance (ir : Ir) (b : BlockId) : Decidable (ir.ListCheck b) := by
  unfold ListCheck
  infer_instance

theorem Translatable.of_check {ir : Ir} (hlive : ∀ i, ir.live i → i < ir.nextInsn)
    (hempty : ∀ b, ir.nextBlock ≤ b → ir.block b = {})
    (hregisters : ∀ nr, ir.nextReg ≤ nr → ir.definition (.reg nr) = none) (hvoid : ir.definition .void = none)
    (hdistinct : ir.bbs.Nodup) (hblocks : ∀ b < ir.nextBlock, ir.ListCheck b)
    (hinsns : ∀ i < ir.nextInsn, ir.TranslatableCheck i) : Translatable ir := by
  have hlists : ∀ b, b < ir.nextBlock ∨ (ir.block b).insns = [] := fun b => by
    rcases Nat.lt_or_ge b ir.nextBlock with hb | hb
    · exact .inl hb
    · exact .inr (by rw [hempty b hb])
  have hmem : ∀ b, ∀ i ∈ (ir.block b).insns, b < ir.nextBlock := fun b i hi =>
    (hlists b).resolve_right fun hnil => by
      rw [hnil] at hi
      exact absurd hi List.not_mem_nil
  have hcheck : ∀ i, ir.TranslatableCheck i := fun i hl => hinsns i (hlive i hl) hl
  refine ⟨⟨fun b => ?_, fun b c i hb hc => ?_, fun b i hi => ?_, fun b i hi => ?_, hdistinct, hregisters,
    fun i hl _ => hlive i hl, hvoid⟩, fun i hl => (hcheck i hl).1, fun i s hs hop => (hcheck i hs.1).2.1 hop s hs.2,
    fun i hl hop => ?_, fun d hl => (hcheck d hl).2.2.2, fun i hl hop => ((hcheck i hl).2.2.1 hop).2.2,
    fun b i hi => ?_⟩
  · rcases hlists b with hb | hb
    · exact (hblocks b hb).1
    · rw [hb]
      exact List.nodup_nil
  · exact ((hblocks b (hmem b i hb)).2.1 i hb).2.2 c (hmem c i hc) hc
  · exact ((hblocks b (hmem b i hi)).2.1 i hi).1
  · exact ((hblocks b (hmem b i hi)).2.1 i hi).2.1
  · obtain ⟨hreg, hdef, -⟩ := (hcheck i hl).2.2.1 hop
    cases htarget : (ir.insn i).target with
    | reg nr => exact ⟨nr, rfl, htarget ▸ hdef⟩
    | null | void | sym _ | val _ | arg _ | phi _ =>
      rw [htarget] at hreg
      cases hreg
  · exact (hblocks b (hmem b i (List.mem_of_getLast? hi))).2.2 i (by rw [hi]; exact List.mem_singleton_self i)

end Ir

/-- `for (a = 1, b = 0; a; swap(a, b)); return b;` -/
def swapLoop : Ir where
  insn
    | 0 => { opcode := .entry, bb := some 0 }
    | 1 => { opcode := .phisource, size := 32, bb := some 0, target := .phi 0, src1 := .val 1 }
    | 2 => { opcode := .phisource, size := 32, bb := some 0, target := .phi 1, src1 := .val 0 }
    | 3 => { opcode := .br, bb := some 0, bbTrue := some 1 }
    | 4 => { opcode := .phi, size := 32, bb := some 1, target := .reg 0, phiList := [0, 2] }
    | 5 => { opcode := .phi, size := 32, bb := some 1, target := .reg 1, phiList := [1, 3] }
    | 6 => { opcode := .phisource, size := 32, bb := some 1, target := .phi 2, src1 := .reg 1 }
    | 7 => { opcode := .phisource, size := 32, bb := some 1, target := .phi 3, src1 := .reg 0 }
    | 8 => { opcode := .br, bb := some 1, target := .reg 0, bbTrue := some 1, bbFalse := some 2 }
    | 9 => { opcode := .ret, bb := some 2, src1 := .reg 1 }
    | _ => { opcode := .badop }
  block
    | 0 => { children := [1], insns := [0, 1, 2, 3] }
    | 1 => { parents := [0, 1], children := [1, 2], insns := [4, 5, 6, 7, 8] }
    | 2 => { parents := [1], insns := [9] }
    | _ => {}
  cell
    | 0 => .phi 0
    | 1 => .phi 1
    | 2 => .phi 2
    | 3 => .phi 3
    | _ => .null
  definition
    | .phi 0 => some 1
    | .phi 1 => some 2
    | .phi 2 => some 6
    | .phi 3 => some 7
    | .reg 0 => some 4
    | .reg 1 => some 5
    | _ => none
  users
    | .phi 0 => [⟨4, .cell 0⟩]
    | .phi 1 => [⟨5, .cell 1⟩]
    | .phi 2 => [⟨4, .cell 2⟩]
    | .phi 3 => [⟨5, .cell 3⟩]
    | .reg 0 => [⟨7, .src1 7⟩, ⟨8, .target 8⟩]
    | .reg 1 => [⟨6, .src1 6⟩, ⟨9, .src1 9⟩]
    | _ => []
  bbs := [0, 1, 2]
  entry := 0
  nextInsn := 10
  nextBlock := 3
  nextCell := 4
  nextReg := 2
  nextPhi := 4
  bbGeneration := 0

def swapLoopMeaning : Meaning where
  initial
    | .val v => v
    | _ => 0#64
  pure _ _ _ _ _ := 0#64
  constant _ := 0#64
  effect _ _ := 0#64

private theorem swapLoop_translatable : Ir.Translatable swapLoop := by
  refine .of_check (fun i hi => ?_) (fun b hb => ?_) (fun nr hnr => ?_) rfl (by decide) (by decide) (by decide)
  · by_contra hge
    match i with
    | 0 | 1 | 2 | 3 | 4 | 5 | 6 | 7 | 8 | 9 => exact hge (by decide)
    | n + 10 => exact hi rfl
  · match b with
    | 0 | 1 | 2 => exact absurd hb (by decide)
    | n + 3 => rfl
  · match nr with
    | 0 | 1 => exact absurd hnr (by decide)
    | n + 2 => rfl

/-- The loop is left after one swap. -/
private theorem swapLoop_reached :
    (swapLoop.runs swapLoopMeaning 0).Reached 2 [9] [8, 7, 6, 5, 4, 8, 7, 6, 5, 4, 3, 2, 1, 0] := by
  have hstart : (swapLoop.runs swapLoopMeaning 0).Reached 0 [] [3, 2, 1, 0] :=
    Program.Goes.refl.exec.exec.exec.exec
  have hfirst : (swapLoop.runs swapLoopMeaning 0).Reached 1 [] [8, 7, 6, 5, 4, 3, 2, 1, 0] := by
    refine (hstart.jump ⟨by decide, fun i hi _ => ?_⟩).exec.exec.exec.exec.exec
    obtain rfl : 3 = i := Option.some.inj hi
    rfl
  have hsecond : (swapLoop.runs swapLoopMeaning 0).Reached 1 [] [8, 7, 6, 5, 4, 8, 7, 6, 5, 4, 3, 2, 1, 0] := by
    refine (hfirst.jump ⟨by decide, fun i hi _ => ?_⟩).exec.exec.exec.exec.exec
    obtain rfl : 8 = i := Option.some.inj hi
    decide
  refine hsecond.jump ⟨by decide, fun i hi _ => ?_⟩
  obtain rfl : 8 = i := Option.some.inj hi
  decide

theorem swapLoop_unssa : ∃ rest' done',
    (swapLoop.unssa.copyRuns (swapLoop.erased swapLoopMeaning) 0).Reached 2 rest' done' ∧ swapLoop.erase rest' = [9] ∧
      swapLoop.unssa.copyEnv (swapLoop.erased swapLoopMeaning) done' (.reg 1) = 1 := by
  have hphis : ∀ i < 10, (swapLoop.insn i).opcode = .phi →
      swapLoopMeaning.initial (swapLoop.unssa.insn i).src1 = 0 := by decide
  have hstart : Ir.PhisStart swapLoop swapLoop.unssa swapLoopMeaning := fun i hl hop _ _ =>
    (hphis i (swapLoop_translatable.phis i hl hop) hop).symm
  obtain ⟨-, -, hfollow, hvalues⟩ := Ir.unssa_preserves (e := 0) swapLoop_translatable hstart
  obtain ⟨rest', done', hr, hrest, hdone⟩ := hfollow 2 [9] _ swapLoop_reached
  refine ⟨rest', done', hr, hrest, ?_⟩
  rw [(hvalues 2 rest' done' hr).2 (.reg 1) (by decide), hdone]
  decide

end Sparse
