import Sparse.Executions

/-!
# Turning a phi into a select

`if_convert_phi` replaces a phi with two sources by a select in front of the branch that decides
between them. On every execution the select yields at the branch what the phi yields later.
-/

namespace Sparse

open ProgramPaths

/-- What `if_convert_phi` inserts, and where. -/
theorem Ir.insertSelect_spec {ir : Ir} {i br : InsnId} (hi : i ≠ ir.nextInsn) (hbr : br ≠ ir.nextInsn)
    (bb : BlockId) (p q : Pseudo) :
    let ir' := (ir.insertSelect bb br i p q).clearPhi i
    ir'.nextInsn = ir.nextInsn + 1 ∧
      ir'.insn ir.nextInsn =
        { opcode := .sel, size := (ir.insn i).size, bb := some bb, target := (ir.insn i).target,
          src1 := (ir.insn br).target, src2 := p, src3 := q } ∧
      (ir'.block bb).insns = (ir.block bb).insns.dropLast ++ [ir.nextInsn, br] := by
  have hclear : ∀ (cs : List CellId) (ir₁ : Ir),
      let ir₂ := cs.foldl (fun ir c => ir.assign .void (.cell c)) ir₁
      ir₂.nextInsn = ir₁.nextInsn ∧ ir₂.insn = ir₁.insn ∧ ir₂.block = ir₁.block := by
    intro cs
    induction cs with
    | nil => exact fun _ => ⟨rfl, rfl, rfl⟩
    | cons c cs ih =>
      intro ir₁
      obtain ⟨h1, h2, h3⟩ := ih (ir₁.assign .void (.cell c))
      exact ⟨h1.trans (by simp), h2.trans rfl, h3.trans (by simp)⟩
  intro ir'
  obtain ⟨h1, h2, h3⟩ := hclear ((ir.insertSelect bb br i p q).insn i).phiList
    ((ir.insertSelect bb br i p q).clearBb i)
  refine ⟨h1.trans ?_, ?_, ?_⟩
  · simp [insertSelect, clearBb, usePseudo_rest, deleteLastInstruction]
  · rw [show ir'.insn = _ from h2]
    simp [insertSelect, clearBb, usePseudo_rest, deleteLastInstruction, assign, Ne.symm hi, hi, hbr]
  · rw [show ir'.block = _ from h3]
    simp [insertSelect, clearBb, usePseudo_rest, deleteLastInstruction]

/-- What `if_convert_phi` has found when it inserts a select: the two sources stand in the two
parents of the phi's block, and the same block is the parent of both that `phi_parent` finds. -/
structure Ir.Converts (ir : Ir) (i : InsnId) (bb source bb1 bb2 : BlockId) (br d1 d2 : InsnId) :
    Prop where
  block : (ir.insn i).bb = some bb
  sources : ir.phiSources i = [d1, d2]
  stands1 : (ir.insn d1).bb = some bb1
  stands2 : (ir.insn d2).bb = some bb2
  parents : (ir.block bb).parents = [bb1, bb2] ∨ (ir.block bb).parents = [bb2, bb1]
  parent1 : ir.phiParent bb1 (ir.insn d1).src1 = some source
  parent2 : ir.phiParent bb2 (ir.insn d2).src1 = some source
  last : ir.lastInstruction source = some br
  opcode : (ir.insn br).opcode = .br

/-- The arms are the other way round. -/
def Ir.Swapped (ir : Ir) (br : InsnId) (bb1 bb2 : BlockId) : Prop :=
  (ir.insn br).bbTrue = some bb2 ∨ (ir.insn br).bbFalse = some bb1

instance (ir : Ir) (br : InsnId) (bb1 bb2 : BlockId) : Decidable (ir.Swapped br bb1 bb2) := by
  unfold Ir.Swapped; infer_instance

theorem Ir.ifConvertPhi_cases (ir : Ir) (i : InsnId) :
    ir.ifConvertPhi i = ir ∨ ∃ bb source bb1 bb2 br d1 d2,
      ir.Converts i bb source bb1 bb2 br d1 d2 ∧
      ir.ifConvertPhi i =
        (if ir.Swapped br bb1 bb2 then
          ir.insertSelect source br i (ir.insn d2).src1 (ir.insn d1).src1
        else ir.insertSelect source br i (ir.insn d1).src1 (ir.insn d2).src1).clearPhi i := by
  unfold ifConvertPhi
  split
  · rename_i bb c1 c2 hbb hlist
    split
    · rename_i parent1 parent2 d1 d2 hparents hd1 hd2
      split
      · rename_i bb1 bb2 hbb1 hbb2
        split
        · exact Or.inl rfl
        · rename_i hdirect
          split
          · exact Or.inl rfl
          · rename_i source hsource
            split
            · exact Or.inl rfl
            · rename_i hsame
              unfold insertSelectFor
              split
              · exact Or.inl rfl
              · rename_i br hlast
                split
                · exact Or.inl rfl
                · rename_i hop
                  refine Or.inr ⟨bb, source, bb1, bb2, br, d1, d2, ⟨hbb, ?_, hbb1, hbb2, ?_, hsource,
                    not_not.mp hsame, hlast, not_not.mp hop⟩, ?_⟩
                  · simp [phiSources, hlist, hd1, hd2, live, hbb1, hbb2]
                  · rw [hparents]
                    grind
                  · by_cases hswapped : ir.Swapped br bb1 bb2
                    · rw [if_pos hswapped]
                      exact if_pos hswapped
                    · rw [if_neg hswapped]
                      exact if_neg hswapped
      · exact Or.inl rfl
    · exact Or.inl rfl
  · exact Or.inl rfl

/-- One way from the branch to the phi: its source stands in the block of the branch, or in a block
between the two that has no other way in or out and does not compute what the source records. -/
def Ir.Arm (ir : Ir) (bb source X : BlockId) (p : Pseudo) : Prop :=
  X = source ∨ X ≠ source ∧ (ir.block X).parents = [source] ∧ (ir.block X).children = [bb] ∧
    ∀ nr d, p = .reg nr → ir.definition p = some d → (ir.insn d).bb ≠ some X

theorem Ir.arm_of_phiParent {ir : Ir} {bb source X : BlockId} {p : Pseudo}
    (h : ir.phiParent X p = some source) (hchild : bb ∈ (ir.block X).children) :
    ir.Arm bb source X p := by
  by_cases hX : X = source
  · exact Or.inl hX
  · unfold phiParent at h
    dsimp only at h
    split_ifs at h with hhere hone
    · exact absurd (Option.some.inj h) hX
    · exact absurd (Option.some.inj h) hX
    · push Not at hone
      obtain ⟨c, hc⟩ := List.length_eq_one_iff.mp hone.1
      obtain ⟨q, hq⟩ := List.length_eq_one_iff.mp hone.2
      rw [hq] at h
      rw [hc, List.mem_singleton] at hchild
      refine Or.inr ⟨hX, ?_, ?_, fun nr d hp hd hb => hhere ?_⟩
      · rw [hq, Option.some.inj h]
      · rw [hc, hchild]
      · subst hp
        simp [hd, hb]

/-! ## Along one arm -/

namespace Ir.SsaForm

variable {ir : Ir} {e bb source X : BlockId} {i br d : InsnId} {M : Meaning} {rest done : List InsnId}

/-- The last instruction of a block ends its code. -/
theorem code_eq_of_last (hlast : ir.lastInstruction source = some br) :
    (ir.block source).insns = (ir.block source).insns.dropLast ++ [br] :=
  (List.dropLast_append_getLast? br hlast).symm

/-- What a phi source records is computed before it. -/
theorem precedes_source (h : ir.SsaForm e) (hd : ir.live d) (hop : (ir.insn d).opcode = .phisource)
    {j : InsnId} (hj : ir.Computes j) (ht : (ir.insn j).target = (ir.insn d).src1) :
    (ir.paths e).Precedes j d := by
  cases hp : (ir.insn d).src1 with
  | reg nr =>
    have howns : ir.Owns d (.src1 d) := ⟨hd, by simp [Instruction.operandSlots, hop]⟩
    exact h.defined d (.src1 d) howns nr j hp (by rw [← hp, ← ht]; exact hj.2.1)
  | null | void | sym _ | val _ | arg _ | phi _ =>
    obtain ⟨k, hk⟩ := h.phi_of_computes hj (by rw [ht, hp]; rfl)
    exact absurd (ht.symm.trans hk) ((h.source d hd hop).2.2 k)

/-- After a phi source, nothing in its block changes what it recorded or what it reads. -/
theorem env_after_source (h : ir.SsaForm e) {l₁ l₂ : List InsnId}
    (hcode : (ir.block X).insns = l₁ ++ d :: l₂) (hd : ir.live d)
    (hop : (ir.insn d).opcode = .phisource) {k : List InsnId} (hk : ∀ j ∈ k, j ∈ l₂)
    (hr : (ir.paths e).Reached X (d :: l₂) done) :
    ir.env M (k ++ d :: done) (ir.insn d).target = ir.env M done (ir.insn d).src1 ∧
      ir.env M (k ++ d :: done) (ir.insn d).src1 = ir.env M done (ir.insn d).src1 := by
  obtain ⟨⟨n, hn⟩, hdef, hphi⟩ := h.source d hd hop
  have hcomputes : ir.Computes d := ⟨hd, hdef, by simp [hop]⟩
  have hnotMem : d ∉ l₂ := by
    have hnodup := h.nodup X
    rw [hcode, List.nodup_append, List.nodup_cons] at hnodup
    exact hnodup.2.1.1
  constructor
  · rw [env_append, env_cons_self hcomputes]
    · simp [result, hop]
    · intro j hj hc ht
      have he : some j = some d := by rw [← hc.2.1, ht, hdef]
      exact hnotMem (Option.some.inj he ▸ hk j hj)
  · rw [List.append_cons]
    refine env_append (fun j hj hc ht => ?_)
    have hpre := h.precedes_source hd hop hc ht
    rcases List.mem_append.mp hj with hj | hj
    · exact (h.placed_paths.precedes hcode (hk j hj)).asymm hpre hr
    · obtain rfl := List.mem_singleton.mp hj
      exact hpre.asymm hpre hr

theorem source_of_mem (h : ir.SsaForm e) (hi : ir.live i) (hphi : (ir.insn i).opcode = .phi)
    (hd : d ∈ ir.phiSources i) : ir.live d ∧ (ir.insn d).opcode = .phisource := by
  obtain ⟨hmem, hlive⟩ := List.mem_filter.mp hd
  obtain ⟨c, hc, hdef⟩ := List.mem_filterMap.mp hmem
  exact ⟨of_decide_eq_true hlive, (h.entries i hi hphi c hc d hdef).1⟩

/-- A path that has executed the block of a source has it, or another source of the same block, as
the last source of the phi. -/
theorem last_source (h : ir.SsaForm e) (hi : ir.live i) (hphi : (ir.insn i).opcode = .phi)
    (hd : d ∈ ir.phiSources i) (hX : (ir.insn d).bb = some X) :
    ∃ d' ∈ ir.phiSources i, (ir.insn d').bb = some X ∧ (ir.insn d').src1 = (ir.insn d).src1 ∧
      ∀ done, ((ir.block X).insns.reverse ++ done).find? (fun d => d ∈ ir.phiSources i) = some d' := by
  have hmem : d ∈ (ir.block X).insns.reverse := List.mem_reverse.mpr (h.placed d X hX)
  obtain ⟨d', hd'⟩ := Option.isSome_iff_exists.mp
    (List.find?_isSome.mpr ⟨d, hmem, decide_eq_true hd⟩ :
      ((ir.block X).insns.reverse.find? (fun d => d ∈ ir.phiSources i)).isSome)
  have hsource : d' ∈ ir.phiSources i := by simpa using List.find?_some hd'
  have hlive := (h.source_of_mem hi hphi hsource).1
  have hbb := h.bb_of_mem (List.mem_reverse.mp (List.mem_of_find?_eq_some hd')) hlive
  refine ⟨d', hsource, hbb, h.agree i hi hphi d' hsource d hd (hbb.trans hX.symm), fun done => ?_⟩
  rw [List.find?_append, hd']
  rfl

/-- At the end of an arm, the phi would yield what its source recorded, and that is what the source
reads at the branch. -/
theorem arm_value (h : ir.SsaForm e) (hi : ir.live i) (hphi : (ir.insn i).opcode = .phi)
    (hlast : ir.lastInstruction source = some br) (hbr : (ir.insn br).opcode = .br)
    (hd : d ∈ ir.phiSources i) (hX : (ir.insn d).bb = some X)
    (harm : ir.Arm bb source X (ir.insn d).src1) (hr : (ir.runs M e).Reached X [] done) :
    ∃ k hist, done = k ++ br :: hist ∧ br ∉ k ∧ (X = source ∧ k = [] ∨
        X ≠ source ∧ (ir.runs M e).jumps (br :: hist) source X) ∧
      ∃ d' ∈ ir.phiSources i, done.find? (fun d => d ∈ ir.phiSources i) = some d' ∧
        (ir.insn d').bb = some X ∧ ir.env M done (ir.insn d').target = ir.env M hist (ir.insn d).src1 := by
  obtain ⟨d', hd', hbb', hsame, hfind⟩ := h.last_source hi hphi hd hX
  obtain ⟨hlive', hop'⟩ := h.source_of_mem hi hphi hd'
  obtain ⟨pre, done₀, hcode, rfl, hentered⟩ := hr.entered
  rw [List.append_nil] at hcode
  obtain rfl : (ir.block X).insns = pre := hcode
  obtain ⟨l₁, l₂, hsplit⟩ := List.append_of_mem (h.placed d' X hbb')
  have hat : (ir.runs M e).Reached X (d' :: l₂) (l₁.reverse ++ done₀) := hentered.reached hsplit
  have hdone : (ir.block X).insns.reverse ++ done₀ = l₂.reverse ++ d' :: (l₁.reverse ++ done₀) := by
    simp [hsplit]
  have hrecorded := (h.env_after_source (M := M) hsplit hlive' hop'
    (k := l₂.reverse) (fun j hj => List.mem_reverse.mp hj) (Ir.reached_of_runs hat)).1
  rcases harm with rfl | ⟨hne, hparents, -, hfar⟩
  · -- the source stands in the block of the branch
    have hend := code_eq_of_last hlast
    rcases List.eq_nil_or_concat l₂ with rfl | ⟨l, last, rfl⟩
    · rw [hsplit, List.dropLast_concat] at hend
      obtain rfl : d' = br := by simpa using hend
      rw [hbr] at hop'
      cases hop'
    · obtain rfl : last = br := by
        have hl := hlast
        rw [Ir.lastInstruction, hsplit, List.concat_eq_append, ← List.cons_append,
          ← List.append_assoc, List.getLast?_concat] at hl
        exact Option.some.inj hl
      refine ⟨[], l.reverse ++ d' :: (l₁.reverse ++ done₀), by simp [hdone], List.not_mem_nil,
        Or.inl ⟨rfl, rfl⟩, d', hd', hfind done₀, hbb', ?_⟩
      have hkept := (h.env_after_source (M := M) hsplit hlive' hop' (k := l.reverse)
        (fun j hj => by simp [List.mem_reverse.mp hj]) (Ir.reached_of_runs hat)).2
      rw [hdone, hrecorded, ← hsame, hkept]
  · -- the source stands in a block of its own, which the branch enters
    obtain ⟨c, hc, hjump, hmem⟩ := h.entered_parent (by simp [hparents]) hentered
    obtain rfl : c = source := by simpa [hparents] using hmem
    obtain ⟨pre, done₁, hpre, rfl, -⟩ := hc.entered
    rw [List.append_nil] at hpre
    obtain rfl : (ir.block c).insns = pre := hpre
    have hend := code_eq_of_last hlast
    have hbrmem : br ∈ (ir.block c).insns := by
      rw [hend]
      simp
    have hrev : (ir.block c).insns.reverse ++ done₁ =
        br :: ((ir.block c).insns.dropLast.reverse ++ done₁) := by
      rw [hend]
      simp
    rw [hrev] at hjump
    refine ⟨(ir.block X).insns.reverse, (ir.block c).insns.dropLast.reverse ++ done₁, by rw [hrev],
      fun hin => hne (h.flow.owner X c br (List.mem_reverse.mp hin) hbrmem), Or.inr ⟨hne, hjump⟩,
      d', hd', hfind _, hbb', ?_⟩
    rw [hdone, hrecorded, hsame, hrev, List.append_cons]
    refine env_append (fun j hj hcomp ht => ?_)
    rcases List.mem_append.mp hj with hj | hj
    · have hjX := h.bb_of_mem (i := j) (b := X) (by simp [hsplit, List.mem_reverse.mp hj]) hcomp.1
      cases hp : (ir.insn d).src1 with
      | reg nr => exact hfar nr j hp (by rw [← ht]; exact hcomp.2.1) hjX
      | null | void | sym _ | val _ | arg _ | phi _ =>
        obtain ⟨n, hn⟩ := h.phi_of_computes hcomp (by rw [ht, hp]; rfl)
        exact absurd (hsame.trans (ht.symm.trans hn)) ((h.source d' hlive' hop').2.2 n)
    · obtain rfl := List.mem_singleton.mp hj
      exact h.not_computes_of_chooses (by rw [hbr]; rfl) hcomp

end Ir.SsaForm

/-! ## The phi and its select -/

/-- The block that the branch goes to for a source in `X`. -/
def Ir.towards (bb source X : BlockId) : BlockId := if X = source then bb else X

namespace Ir.Converts

variable {ir : Ir} {e bb source bb1 bb2 : BlockId} {i br d1 d2 : InsnId} {M : Meaning}
  {rest done : List InsnId}

theorem arm1 (hc : ir.Converts i bb source bb1 bb2 br d1 d2) (h : ir.SsaForm e) :
    ir.Arm bb source bb1 (ir.insn d1).src1 :=
  arm_of_phiParent hc.parent1 (h.mem_children_iff.mpr (by rcases hc.parents with hp | hp <;> simp [hp]))

theorem arm2 (hc : ir.Converts i bb source bb1 bb2 br d1 d2) (h : ir.SsaForm e) :
    ir.Arm bb source bb2 (ir.insn d2).src1 :=
  arm_of_phiParent hc.parent2 (h.mem_children_iff.mpr (by rcases hc.parents with hp | hp <;> simp [hp]))

/-- A block with two parents is not one of the arms, and the branch does not stand in it: no path
would come there. -/
theorem apart (hc : ir.Converts i bb source bb1 bb2 br d1 d2) (h : ir.SsaForm e)
    (hr : (ir.paths e).Reached bb rest done) : source ≠ bb ∧ bb1 ≠ bb ∧ bb2 ≠ bb := by
  have hparents : ∀ c, c ∈ (ir.block bb).parents → c = bb1 ∨ c = bb2 := by
    intro c
    rcases hc.parents with hp | hp <;> simp only [hp, List.mem_cons, List.not_mem_nil, or_false] <;>
      tauto
  have hlen : (ir.block bb).parents.length = 2 := by rcases hc.parents with hp | hp <;> simp [hp]
  have hsource : source ≠ bb := by
    rintro rfl
    refine Program.Reached.notMem_of_closed (S := fun c => c = source ∨ c = bb1 ∨ c = bb2) ?_ ?_ hr
      (Or.inl rfl)
    · have hentry : ∀ c, (ir.block c).parents ≠ [] → e ≠ c := fun c hne he => hne (he ▸ h.entry)
      have hsrc := hentry source (by intro hn; simp [hn] at hlen)
      have harm : ∀ X p, ir.Arm source source X p → e ≠ X := by
        rintro X p (rfl | ⟨-, hp, -⟩)
        · exact hsrc
        · exact hentry X (by simp [hp])
      rintro (he | he | he)
      · exact hsrc he
      · exact harm _ _ (hc.arm1 h) he
      · exact harm _ _ (hc.arm2 h) he
    · intro _ b c hj hcS
      have hb : b ∈ (ir.block c).parents := h.mem_children_iff.mp hj
      have harm : ∀ X p, ir.Arm source source X p → c = X → b = source ∨ b = bb1 ∨ b = bb2 := by
        rintro X p (rfl | ⟨-, hp, -⟩) rfl
        · exact Or.inr (hparents b hb)
        · rw [hp, List.mem_singleton] at hb
          exact Or.inl hb
      rcases hcS with rfl | hcS | hcS
      · exact Or.inr (hparents b hb)
      · exact harm _ _ (hc.arm1 h) hcS
      · exact harm _ _ (hc.arm2 h) hcS
  have hne : ∀ X p, ir.Arm bb source X p → X ≠ bb := by
    rintro X p (rfl | ⟨-, hp, -⟩) rfl
    · exact hsource rfl
    · simp [hp] at hlen
  exact ⟨hsource, hne _ _ (hc.arm1 h), hne _ _ (hc.arm2 h)⟩

/-- On an execution that comes to the phi along one arm, the branch went that way when it was last
executed, and the phi yields what the source of the arm reads at the branch. -/
theorem along_arm (hc : ir.Converts i bb source bb1 bb2 br d1 d2) (h : ir.SsaForm e) (hi : ir.live i)
    (hphi : (ir.insn i).opcode = .phi) {d X : InsnId} (hd : d ∈ ir.phiSources i)
    (hX : (ir.insn d).bb = some X) (harm : ir.Arm bb source X (ir.insn d).src1) {pre done₀ : List InsnId}
    (hcode : (ir.block bb).insns = pre ++ i :: rest) (hr : (ir.runs M e).Reached X [] done₀)
    (hj : (ir.runs M e).jumps done₀ X bb) :
    ∃ k hist, pre.reverse ++ done₀ = k ++ br :: hist ∧ br ∉ k ∧
      (ir.insn br).goesTo (ir.env M hist) = some (towards bb source X) ∧
      ir.result M (pre.reverse ++ done₀) (ir.env M (pre.reverse ++ done₀)) i =
        ir.env M hist (ir.insn d).src1 := by
  obtain ⟨hsource, hbb1, hbb2⟩ := hc.apart h (Ir.reached_of_runs (hr.jump hj))
  obtain ⟨k, hist, rfl, hk, hway, d', hd', hfind, hbb', hvalue⟩ :=
    h.arm_value hi hphi hc.last hc.opcode hd hX harm hr
  have hbrmem : br ∈ (ir.block source).insns := List.mem_of_getLast? hc.last
  have hmem : ∀ j ∈ pre, j ∈ (ir.block bb).insns := fun j hj => by simp [hcode, hj]
  have hnotSource : ∀ j ∈ pre, j ∉ ir.phiSources i := by
    intro j hj hs
    have hbb := h.bb_of_mem (hmem j hj) (h.source_of_mem hi hphi hs).1
    rw [hc.sources] at hs
    rcases List.mem_cons.mp hs with rfl | hs
    · exact hbb1 (Option.some.inj (hc.stands1.symm.trans hbb))
    · obtain rfl := List.mem_singleton.mp hs
      exact hbb2 (Option.some.inj (hc.stands2.symm.trans hbb))
  refine ⟨pre.reverse ++ k, hist, by simp, ?_, ?_, ?_⟩
  · intro hin
    rcases List.mem_append.mp hin with hin | hin
    · exact hsource (h.flow.owner source bb br hbrmem (hmem br (List.mem_reverse.mp hin)))
    · exact hk hin
  · have hchooses : (ir.insn br).opcode.chooses = true := by rw [hc.opcode]; rfl
    have henv : ir.env M (br :: hist) = ir.env M hist := if_neg (h.not_computes_of_chooses hchooses)
    rw [← henv, ← Instruction.choice_of_br hc.opcode]
    rcases hway with ⟨rfl, rfl⟩ | ⟨hne, hjump⟩
    · rw [towards, if_pos rfl]
      exact hj.2 br hc.last hchooses
    · rw [towards, if_neg hne]
      exact hjump.2 br hc.last hchooses
  · have hnone : pre.reverse.find? (fun d => d ∈ ir.phiSources i) = none := by
      rw [List.find?_eq_none]
      intro j hj
      simpa using hnotSource j (List.mem_reverse.mp hj)
    have hlast : (pre.reverse ++ (k ++ br :: hist)).find? (fun d => d ∈ ir.phiSources i) = some d' := by
      rw [List.find?_append, hnone, hfind]
      rfl
    have hresult : ir.result M (pre.reverse ++ (k ++ br :: hist))
        (ir.env M (pre.reverse ++ (k ++ br :: hist))) i =
        ir.env M (pre.reverse ++ (k ++ br :: hist)) (ir.insn d').target := by
      simp only [result, hphi, hlast]
    obtain ⟨hlive', hop'⟩ := h.source_of_mem hi hphi hd'
    have hdef := (h.source d' hlive' hop').2.1
    rw [hresult, ← hvalue]
    refine env_append (fun j hj hcomp ht => ?_)
    have he : some j = some d' := by rw [← hcomp.2.1, ht, hdef]
    exact hnotSource j (List.mem_reverse.mp hj) (Option.some.inj he ▸ hd')

/-- The two arms of the branch are the ways to the two sources. -/
theorem successors (hc : ir.Converts i bb source bb1 bb2 br d1 d2) (h : ir.SsaForm e)
    (hapart : source ≠ bb ∧ bb1 ≠ bb ∧ bb2 ≠ bb) (hne : bb1 ≠ bb2) :
    towards bb source bb1 ≠ towards bb source bb2 ∧
      ((ir.insn br).bbTrue = some (towards bb source bb1) ∧
          (ir.insn br).bbFalse = some (towards bb source bb2) ∨
        (ir.insn br).bbTrue = some (towards bb source bb2) ∧
          (ir.insn br).bbFalse = some (towards bb source bb1)) := by
  have htowards : towards bb source bb1 ≠ towards bb source bb2 := by
    unfold towards
    split
    · rename_i he
      subst he
      rw [if_neg (Ne.symm hne)]
      exact hapart.2.2.symm
    · split
      · exact hapart.2.1
      · exact hne
  refine ⟨htowards, ?_⟩
  have hchild : ∀ X p, ir.Arm bb source X p → X ∈ (ir.block bb).parents →
      towards bb source X ∈ (ir.block source).children := by
    intro X p harm hX
    unfold towards
    split
    · rename_i he
      subst he
      exact h.mem_children_iff.mpr hX
    · rename_i hns
      rcases harm with he | ⟨-, hp, -⟩
      · exact absurd he hns
      · exact h.mem_children_iff.mpr (by simp [hp])
  have h1 := hchild bb1 _ (hc.arm1 h) (by rcases hc.parents with hp | hp <;> simp [hp])
  have h2 := hchild bb2 _ (hc.arm2 h) (by rcases hc.parents with hp | hp <;> simp [hp])
  have hkilled : (ir.block source).killed = false := by
    by_contra hk
    rw [(h.flow.killed source (by simpa using hk)).2.1] at h1
    exact List.not_mem_nil h1
  have hperm := h.flow.perm (Set.notMem_empty source) hkilled
  rw [hperm.mem_iff] at h1 h2
  have hsucc : ir.successors source = (ir.insn br).bbTrue.toList ++ (ir.insn br).bbFalse.toList := by
    simp [Ir.successors, hc.last, Instruction.successors, hc.opcode]
  rw [hsucc] at h1 h2
  simp only [List.mem_append, Option.mem_toList] at h1 h2
  rcases h1 with h1 | h1 <;> rcases h2 with h2 | h2
  · exact absurd (Option.some.inj (h1.symm.trans h2)) htowards
  · exact Or.inl ⟨h1, h2⟩
  · exact Or.inr ⟨h2, h1⟩
  · exact absurd (Option.some.inj (h1.symm.trans h2)) htowards

/-- The test of the two arms finds out which way round they are. -/
theorem swapped_iff (hc : ir.Converts i bb source bb1 bb2 br d1 d2) (h : ir.SsaForm e)
    (hapart : source ≠ bb ∧ bb1 ≠ bb ∧ bb2 ≠ bb) (hne : bb1 ≠ bb2) :
    ir.Swapped br bb1 bb2 ↔ (ir.insn br).bbTrue = some (towards bb source bb2) := by
  obtain ⟨htowards, ⟨ht, hf⟩ | ⟨ht, hf⟩⟩ := hc.successors h hapart hne
  · rw [Swapped, ht, hf, Option.some.injEq, Option.some.injEq, Option.some.injEq]
    refine iff_of_false ?_ htowards
    unfold towards
    rintro (h2 | h1)
    · split at h2
      · exact hapart.2.2 h2.symm
      · exact hne h2
    · split at h1
      · exact hapart.2.1 h1.symm
      · exact hne h1.symm
  · rw [Swapped, ht, hf, Option.some.injEq, Option.some.injEq]
    refine iff_of_true ?_ rfl
    unfold towards
    by_cases h2 : bb2 = source
    · exact Or.inr (if_neg (fun h1 => hne (h1.trans h2.symm)))
    · exact Or.inl (if_neg h2)

/-- What a source records is computed on every path to the branch. -/
theorem available (hc : ir.Converts i bb source bb1 bb2 br d1 d2) (h : ir.SsaForm e) {d X : InsnId}
    (hd : ir.live d) (hop : (ir.insn d).opcode = .phisource) (hX : (ir.insn d).bb = some X)
    (harm : ir.Arm bb source X (ir.insn d).src1) (hr : (ir.paths e).Reached source (br :: rest) done)
    {nr : ℕ} {d₀ : InsnId} (hreg : (ir.insn d).src1 = .reg nr)
    (hdef : ir.definition (.reg nr) = some d₀) : d₀ ∈ done := by
  have howns : ir.Owns d (.src1 d) := ⟨hd, by simp [Instruction.operandSlots, hop]⟩
  have hprecedes := h.defined d (.src1 d) howns nr d₀ hreg hdef
  have hend := SsaForm.code_eq_of_last hc.last
  obtain ⟨pre, done₀, hcode, rfl, hentered⟩ := hr.entered
  obtain ⟨rfl, rfl⟩ := h.placed_paths.split_unique hend hcode
  obtain ⟨l₁, l₂, hsplit⟩ := List.append_of_mem (h.placed d X hX)
  rcases harm with rfl | ⟨-, hparents, -, hfar⟩
  · have hmem : d ∈ (ir.block X).insns.dropLast := by
      have hd' := h.placed d X hX
      rw [hend, List.mem_append, List.mem_singleton] at hd'
      refine hd'.resolve_right ?_
      rintro rfl
      rw [hc.opcode] at hop
      cases hop
    obtain ⟨l₁, l₂, hpre⟩ := List.append_of_mem hmem
    have hat : (ir.paths e).Reached X (d :: (l₂ ++ [br])) (l₁.reverse ++ done₀) :=
      hentered.reached (by rw [hcode, hpre]; simp)
    have hin := hprecedes X _ _ hat
    rw [hpre]
    simp only [List.mem_append, List.mem_reverse, List.mem_cons] at hin ⊢
    tauto
  · have hjump : X ∈ (ir.block source).children := h.mem_children_iff.mpr (by simp [hparents])
    have hat : (ir.paths e).Reached X (d :: l₂)
        (l₁.reverse ++ br :: ((ir.block source).insns.dropLast.reverse ++ done₀)) :=
      Program.Entered.reached (Or.inr ⟨source, hr.exec, hjump⟩) hsplit
    have hin := hprecedes X _ _ hat
    rcases List.mem_append.mp hin with hin | hin
    · have hlive := h.uses.defined d (.src1 d) howns nr d₀ hreg hdef
      have hbb := h.bb_of_mem (i := d₀) (b := X) (by simp [hsplit, List.mem_reverse.mp hin]) hlive
      exact absurd hbb (hfar nr d₀ hreg (hreg ▸ hdef))
    · rcases List.mem_cons.mp hin with rfl | hin
      · have hstore := (h.uses.result nr d₀ hdef).2
        simp [hc.opcode, Opcode.storesTarget] at hstore
      · exact hin

end Ir.Converts

/-- `return c ? 1 : 2;` -/
def chosenArm : Ir where
  insn
    | 0 => { opcode := .entry, bb := some 0 }
    | 1 => { opcode := .br, bb := some 0, target := .arg 1, bbTrue := some 1, bbFalse := some 2 }
    | 2 => { opcode := .phisource, size := 32, bb := some 1, target := .phi 0, src1 := .val 1 }
    | 3 => { opcode := .br, bb := some 1, bbTrue := some 3 }
    | 4 => { opcode := .phisource, size := 32, bb := some 2, target := .phi 1, src1 := .val 2 }
    | 5 => { opcode := .br, bb := some 2, bbTrue := some 3 }
    | 6 => { opcode := .phi, size := 32, bb := some 3, target := .reg 0, phiList := [0, 1] }
    | 7 => { opcode := .ret, bb := some 3, src1 := .reg 0 }
    | _ => { opcode := .badop }
  block
    | 0 => { children := [1, 2], insns := [0, 1] }
    | 1 => { parents := [0], children := [3], insns := [2, 3] }
    | 2 => { parents := [0], children := [3], insns := [4, 5] }
    | 3 => { parents := [1, 2], insns := [6, 7] }
    | _ => {}
  cell
    | 0 => .phi 0
    | 1 => .phi 1
    | _ => .null
  definition
    | .arg 1 => some 0
    | .phi 0 => some 2
    | .phi 1 => some 4
    | .reg 0 => some 6
    | _ => none
  users
    | .arg 1 => [⟨1, .target 1⟩]
    | .phi 0 => [⟨6, .cell 0⟩]
    | .phi 1 => [⟨6, .cell 1⟩]
    | .reg 0 => [⟨7, .src1 7⟩]
    | _ => []
  bbs := [0, 1, 2, 3]
  entry := 0
  nextInsn := 8
  nextBlock := 4
  nextCell := 2
  nextReg := 1
  nextPhi := 2
  bbGeneration := 0

private theorem chosenArm_live {i : InsnId} (h : chosenArm.live i) : i < 8 := by
  by_contra hi
  match i with
  | 0 | 1 | 2 | 3 | 4 | 5 | 6 | 7 => exact hi (by decide)
  | n + 8 => exact h rfl

private theorem chosenArm_empty {b : BlockId} (hb : 4 ≤ b) : chosenArm.block b = {} := by
  match b with
  | 0 | 1 | 2 | 3 => exact absurd hb (by decide)
  | n + 4 => rfl

private theorem chosenArm_use : UseInvariant chosenArm := by
  refine .of_check [.arg 1, .phi 0, .phi 1, .reg 0] (fun i hi hl => ?_) (fun p hp => ?_) (by decide)
  · exact absurd (chosenArm_live hl) (Nat.not_lt.2 hi)
  · simp only [chosenArm]
    split <;> simp_all

private theorem chosenArm_flow : FlowInvariant ∅ chosenArm :=
  .of_check (fun _ hb => chosenArm_empty hb) (by decide)

/-- The only register is computed in front of the instruction that reads it. -/
private theorem chosenArm_ssa : chosenArm.SsaForm 0 := by
  refine .of_check chosenArm_use chosenArm_flow (fun _ hb => chosenArm_empty hb)
    (fun i s ho nr d hl hd => ?_) (by decide)
  have hreads : ∀ i < 8, ∀ s ∈ (chosenArm.insn i).operandSlots i,
      (chosenArm.load s).isReg = true → i = 7 ∧ chosenArm.load s = .reg 0 := by decide
  obtain ⟨rfl, hreg⟩ := hreads i (chosenArm_live ho.1) s ho.2 (by rw [hl]; rfl)
  obtain rfl : d = 6 := by
    rw [← hl, hreg] at hd
    exact (Option.some.inj hd).symm
  have hplaced : (chosenArm.paths 0).Placed := by
    refine ⟨fun b => ?_, fun b c j => chosenArm_flow.owner b c j⟩
    rcases Nat.lt_or_ge b 4 with hb | hb
    · have hnodup : ∀ b < 4, (chosenArm.block b).insns.Nodup := by decide
      exact hnodup b hb
    · change (chosenArm.block b).insns.Nodup
      rw [chosenArm_empty hb]
      exact List.nodup_nil
  have hcode : (chosenArm.paths 0).code 3 = [] ++ 6 :: [7] := rfl
  exact hplaced.precedes hcode List.mem_cons_self

/-- An execution with the condition set. -/
def chosenArmMeaning : Meaning where
  initial _ := 1
  pure _ _ _ _ _ := 0
  constant _ := 0
  effect _ _ := 0

private theorem chosenArm_reached : (chosenArm.runs chosenArmMeaning 0).Reached 3 [6, 7] [3, 2, 1, 0] := by
  have hother : ∀ j ∈ [1, 0], chosenArm.definition (chosenArm.insn j).target ≠ some j := by decide
  have hcond : chosenArm.env chosenArmMeaning ([1, 0] ++ []) (.arg 1) =
      chosenArm.env chosenArmMeaning [] (.arg 1) :=
    Ir.env_append (fun j hj hc => absurd hc.2.1 (hother j hj))
  have hfirst : (chosenArm.runs chosenArmMeaning 0).Reached 0 [] [1, 0] := Program.Goes.refl.exec.exec
  have harm : (chosenArm.runs chosenArmMeaning 0).jumps [1, 0] 0 1 := by
    refine ⟨by decide, fun i hlast _ => ?_⟩
    obtain rfl : 1 = i := Option.some.inj hlast
    have hset : chosenArm.env chosenArmMeaning [1, 0] (.arg 1) = 1 := hcond
    simp [chosenArm, Instruction.choice, Instruction.goesTo] at hset ⊢
    simp [hset]
  have hsecond : (chosenArm.runs chosenArmMeaning 0).Reached 1 [] [3, 2, 1, 0] := (hfirst.jump harm).exec.exec
  refine hsecond.jump ⟨by decide, fun i hlast _ => ?_⟩
  obtain rfl : 3 = i := Option.some.inj hlast
  rfl

end Sparse
