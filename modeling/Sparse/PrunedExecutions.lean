import Sparse.CseExecutions
import Sparse.ReshapedPaths

/-!
# Executions of a function that lost instructions

A function whose flow is simplified loses jumps, no-ops and computations that nothing uses. What is left
reads the same values, whatever becomes of the blocks.
-/

namespace Sparse

open ProgramPaths

/-- `OP_NOP`, `OP_LNOP` and `OP_SNOP`. -/
def Opcode.isNop : Opcode → Bool
  | .nop | .lnop | .snop => true
  | _ => false

/-- The jump leads somewhere: a branch names a block, and a switch has a default. -/
structure Instruction.Decides (insn : Instruction) : Prop where
  branch : insn.opcode = .br → insn.bbTrue ≠ none
  switch : insn.opcode = .switch → ∃ jmp ∈ insn.multijmpList, jmp.stop.slt jmp.begin = true

theorem Instruction.Decides.of_flow {insn insn' : Instruction} (h : insn.Decides) (hflow : insn'.flow = insn.flow) :
    insn'.Decides := by
  simp only [flow, Prod.mk.injEq] at hflow
  obtain ⟨hop, htrue, -, hlist⟩ := hflow
  exact ⟨fun hbr => htrue ▸ h.branch (hop ▸ hbr), fun hswitch => hlist ▸ h.switch (hop ▸ hswitch)⟩

namespace Ir

variable {ir ir' ir'' : Ir} {M : Meaning} {e b : BlockId} {i j : InsnId} {p : Pseudo} {done done' : List InsnId}

/-- The instruction is out of the code, a jump or a no-op. -/
def still (ir : Ir) (i : InsnId) : Bool := !decide (ir.live i) || (ir.insn i).opcode.isJump || (ir.insn i).opcode.isNop

/-- The instruction may be taken out of the code when nothing uses its result. -/
def hidden (ir : Ir) (i : InsnId) : Bool := ir.still i || (ir.insn i).opcode.killable

theorem still_eq_false : ir.still i = false ↔
    ir.live i ∧ (ir.insn i).opcode.isJump = false ∧ (ir.insn i).opcode.isNop = false := by
  simp [still, and_assoc]

theorem hidden_of_still (h : ir.still i = true) : ir.hidden i = true := by rw [hidden, h, Bool.true_or]

theorem hidden_eq_false : ir.hidden i = false ↔ ir.still i = false ∧ (ir.insn i).opcode.killable = false := by
  simp [hidden]

/-- No operand in the code holds the pseudo. -/
def Unread (ir : Ir) (p : Pseudo) : Prop := ∀ j s, ir.Owns j s → ir.load s ≠ p

/-- What computes the pseudo, if anything does, is in the code. -/
def Lasting (ir : Ir) (p : Pseudo) : Prop := ∀ d, ir.definition p = some d → ir.still d = false

/-- A function whose flow can be simplified. It starts in a block without parents that has the entry in
it, its branches and switches are in the code and lead somewhere, nothing in the code reads what is out
of it, symbols have no definition, phi sources define their pseudos and phis read those. -/
structure FlowInput (ir : Ir) (e : BlockId) : Prop where
  uses : UseInvariant ir
  flow : FlowInvariant ∅ ir
  entry : (ir.block e).parents = []
  starts : ∃ i ∈ (ir.block e).insns, ir.live i ∧ (ir.insn i).opcode = .entry
  branches : ∀ b i, ir.lastInstruction b = some i → (ir.insn i).opcode.chooses = true →
    ir.live i ∧ (ir.insn i).Decides
  dead : ∀ p d, ir.definition p = some d → ir.still d = true → ir.Unread p
  symbols : ∀ p d, ir.definition p = some d → p.isSym = false
  sources : ∀ d, ir.live d → (ir.insn d).opcode = .phisource →
    (∃ k, (ir.insn d).target = .phi k) ∧ ir.definition (ir.insn d).target = some d
  phis : ∀ i, ir.live i → (ir.insn i).opcode = .phi → ∀ c ∈ (ir.insn i).phiList, ∀ d,
    ir.definition (ir.cell c) = some d → (ir.insn d).opcode = .phisource

/-- Instructions are lost, and what is left reads what it read. -/
structure Prunes (ir ir' : Ir) : Prop where
  form : ∀ j, (ir'.insn j).form = (ir.insn j).form
  rest : ∀ j, (ir.insn j).opcode.isJump = false → (ir'.insn j).withoutSlots = (ir.insn j).withoutSlots
  target : ∀ j, (ir.insn j).opcode.storesTarget = false → (ir'.insn j).target = (ir.insn j).target
  definition : ir'.definition = ir.definition
  live : ∀ j, ir'.live j → ir.live j
  kept : ∀ j, ir.hidden j = false → ir'.live j
  slots : ∀ j s, ir'.Owns j s → ir'.load s = ir.load s
  died : ∀ p d, ir.definition p = some d → ir'.still d = true → ir.still d = true ∨ ir'.Unread p

namespace Prunes

theorem refl (ir : Ir) : Prunes ir ir :=
  ⟨fun _ => rfl, fun _ _ => rfl, fun _ _ => rfl, rfl, fun _ h => h,
    fun _ h => (still_eq_false.1 (hidden_eq_false.1 h).1).1, fun _ _ _ => rfl, fun _ _ _ h => .inl h⟩

section

variable (h : Prunes ir ir')
include h

theorem opcode (j : InsnId) : (ir'.insn j).opcode = (ir.insn j).opcode := Instruction.opcode_of_form (h.form j)

theorem owns {s : Address} (ho : ir'.Owns j s) : ir.Owns j s :=
  ⟨h.live j ho.1, Instruction.operandSlots_of_form (h.form j) j ▸ ho.2⟩

theorem unread (hp : ir.Unread p) : ir'.Unread p := by
  intro j s ho
  rw [h.slots j s ho]
  exact hp j s (h.owns ho)

theorem still_mono (hi : ir.still i = true) : ir'.still i = true := by
  by_contra hnot
  obtain ⟨hlive, hjump, hnop⟩ := still_eq_false.1 (Bool.eq_false_of_not_eq_true hnot)
  rw [h.opcode] at hjump hnop
  rw [still_eq_false.2 ⟨h.live i hlive, hjump, hnop⟩] at hi
  cases hi

theorem lasting (hp : ir'.Lasting p) : ir.Lasting p := by
  intro d hd
  by_contra hstill
  have hlast := hp d (by rw [h.definition]; exact hd)
  rw [h.still_mono (Bool.eq_true_of_not_eq_false hstill)] at hlast
  cases hlast

theorem hidden_eq : ir'.hidden = ir.hidden := by
  funext j
  cases hj : ir.hidden j with
  | false =>
    obtain ⟨hstill, hkill⟩ := hidden_eq_false.1 hj
    obtain ⟨-, hjump, hnop⟩ := still_eq_false.1 hstill
    refine hidden_eq_false.2 ⟨still_eq_false.2 ⟨h.kept j hj, ?_⟩, ?_⟩
    · rw [h.opcode]
      exact ⟨hjump, hnop⟩
    · rw [h.opcode]
      exact hkill
  | true =>
    rw [hidden, Bool.or_eq_true] at hj ⊢
    rw [h.opcode]
    exact hj.imp_left h.still_mono

end

theorem trans (h : Prunes ir ir') (h' : Prunes ir' ir'') : Prunes ir ir'' where
  form j := (h'.form j).trans (h.form j)
  rest j hj := (h'.rest j (by rw [h.opcode]; exact hj)).trans (h.rest j hj)
  target j hj := (h'.target j (by rw [h.opcode]; exact hj)).trans (h.target j hj)
  definition := h'.definition.trans h.definition
  live j hj := h.live j (h'.live j hj)
  kept j hj := h'.kept j (by rw [h.hidden_eq]; exact hj)
  slots j s hs := (h'.slots j s hs).trans (h.slots j s (h'.owns hs))
  died p d hd hstill := by
    rcases h'.died p d (by rw [h.definition]; exact hd) hstill with hd' | hd'
    · exact (h.died p d hd hd').imp_right h'.unread
    · exact .inr hd'

/-- Nothing reads what is out of the code. -/
theorem dead (h : Prunes ir ir') (hdead : ∀ p d, ir.definition p = some d → ir.still d = true → ir.Unread p)
    (p : Pseudo) (d : InsnId) (hd : ir'.definition p = some d) (hstill : ir'.still d = true) : ir'.Unread p := by
  rw [h.definition] at hd
  exact (h.died p d hd hstill).elim (fun hold => h.unread (hdead p d hd hold)) id

end Prunes

namespace FlowInput

variable (h : ir.FlowInput e)
include h

/-- What an instruction in the code reads is computed in the code. -/
theorem lasting_of_owns {s : Address} (ho : ir.Owns j s) : ir.Lasting (ir.load s) := by
  intro d hd
  by_contra hstill
  exact h.dead _ d hd (Bool.eq_true_of_not_eq_false hstill) j s ho rfl

/-- Nothing goes to the block of the entry. -/
theorem ne_of_mem_parents {c : BlockId} (hc : c ∈ (ir.block b).parents) : e ≠ b := by
  rintro rfl
  rw [h.entry] at hc
  cases hc

theorem lasting_of_source {d : InsnId} (hlive : ir.live d) (hop : (ir.insn d).opcode = .phisource) :
    ir.Lasting (ir.insn d).target := by
  intro d' hd'
  rw [(h.sources d hlive hop).2] at hd'
  obtain rfl := Option.some.inj hd'
  exact still_eq_false.2 ⟨hlive, by rw [hop]; rfl, by rw [hop]; rfl⟩

/-- The input of the next simplification. -/
theorem of_prunes (hp : Prunes ir ir') (huses : UseInvariant ir') (hflow : FlowInvariant ∅ ir')
    (hentry : (ir'.block e).parents = [])
    (hstarts : ∀ i ∈ (ir.block e).insns, (ir.insn i).opcode = .entry → i ∈ (ir'.block e).insns)
    (hbranches : ∀ b i, ir'.lastInstruction b = some i → (ir.insn i).opcode.chooses = true →
      ir'.live i ∧ (ir'.insn i).Decides) :
    ir'.FlowInput e where
  uses := huses
  flow := hflow
  entry := hentry
  starts := by
    obtain ⟨i, hi, hlive, hop⟩ := h.starts
    refine ⟨i, hstarts i hi hop, hp.kept i ?_, by rw [hp.opcode]; exact hop⟩
    exact hidden_eq_false.2 ⟨still_eq_false.2 ⟨hlive, by rw [hop]; rfl, by rw [hop]; rfl⟩, by rw [hop]; rfl⟩
  branches b i hl hop := hbranches b i hl (by rw [← hp.opcode]; exact hop)
  dead := hp.dead h.dead
  symbols p d hd := h.symbols p d (by rw [← hp.definition]; exact hd)
  sources d hlive hop := by
    rw [hp.opcode] at hop
    rw [hp.target d (by rw [hop]; rfl), hp.definition]
    exact h.sources d (hp.live d hlive) hop
  phis i hlive hop c hc d hd := by
    have hslot := hp.slots i (.cell c) ⟨hlive, by simpa [Instruction.operandSlots, hop] using hc⟩
    have hcell : ir'.cell c = ir.cell c := hslot
    have hlist : (ir'.insn i).phiList = (ir.insn i).phiList := congrArg (fun f => f.2.1) (hp.form i)
    rw [hp.opcode] at hop ⊢
    rw [hp.definition, hcell] at hd
    exact h.phis i (hp.live i hlive) hop c (hlist ▸ hc) d hd

end FlowInput

/-! ## Values -/

theorem blind_still (hblind : M.Blind ir.hidden) : M.Blind ir.still := fun i done => by
  rw [hblind i done, hblind i (visible ir.still done), visible_visible (fun j hj => hidden_of_still hj)]

namespace Prunes

variable (hp : Prunes ir ir') (h : ir.FlowInput e) (h' : ir'.FlowInput e)
include hp h h'

theorem computes_iff (hlive : ir'.live i) (hi : ir.still i = false) : ir'.Computes i ↔ ir.Computes i := by
  unfold Computes
  rw [hp.opcode, hp.definition, iff_true_intro hlive, iff_true_intro (hp.live i hlive), true_and, true_and]
  refine and_congr_left fun _ => ?_
  have hjump := (still_eq_false.1 hi).2.1
  have hnop := (still_eq_false.1 hi).2.2
  by_cases hstore : (ir.insn i).opcode.storesTarget = true
  · constructor
    · intro hd
      have hnot := storesTarget_of_definition h'.uses (p := (ir'.insn i).target) (by rw [hp.definition]; exact hd)
      rw [hp.opcode, hstore] at hnot
      cases hnot
    · intro hd
      have hnot := storesTarget_of_definition h.uses hd
      rw [hstore] at hnot
      cases hnot
  · rw [hp.target i (Bool.eq_false_of_not_eq_true hstore)]

/-- The sources of a phi are in the code before and after. -/
theorem phiSources_eq (hlive : ir'.live i) (hop : (ir'.insn i).opcode = .phi) :
    ir'.phiSources i = ir.phiSources i ∧
      ∀ d ∈ ir.phiSources i, (ir.insn d).opcode = .phisource ∧ ir'.live d ∧ ir.still d = false := by
  have hlist : (ir'.insn i).phiList = (ir.insn i).phiList := congrArg (fun f => f.2.1) (hp.form i)
  have hop₀ : (ir.insn i).opcode = .phi := by rw [← hp.opcode]; exact hop
  have howns : ∀ c ∈ (ir.insn i).phiList, ir'.Owns i (.cell c) := fun c hc =>
    ⟨hlive, by simpa [Instruction.operandSlots, hop, hlist] using hc⟩
  have hcell : ∀ c ∈ (ir.insn i).phiList, ir'.cell c = ir.cell c := fun c hc => hp.slots i (.cell c) (howns c hc)
  have hmap : (ir'.insn i).phiList.filterMap (fun c => ir'.definition (ir'.cell c)) =
      (ir.insn i).phiList.filterMap fun c => ir.definition (ir.cell c) := by
    rw [hlist]
    refine List.filterMap_congr fun c hc => ?_
    rw [hcell c hc, hp.definition]
  have hsource : ∀ d ∈ (ir.insn i).phiList.filterMap (fun c => ir.definition (ir.cell c)),
      (ir.insn d).opcode = .phisource ∧ ir'.live d ∧ ir.still d = false := by
    intro d hd
    obtain ⟨c, hc, hdef⟩ := List.mem_filterMap.1 hd
    have hlast := h'.lasting_of_owns (howns c hc)
    have hlast₀ := hp.lasting hlast
    have hload : ir'.load (.cell c) = ir.cell c := hcell c hc
    rw [hload] at hlast hlast₀
    exact ⟨h.phis i (hp.live i hlive) hop₀ c hc d hdef,
      (still_eq_false.1 (hlast d (by rw [hp.definition]; exact hdef))).1, hlast₀ d hdef⟩
  unfold phiSources
  rw [hmap]
  refine ⟨List.filter_congr fun d hd => ?_, fun d hd => hsource d (List.mem_of_mem_filter hd)⟩
  obtain ⟨-, hlived, -⟩ := hsource d hd
  rw [decide_eq_decide]
  exact iff_of_true hlived (hp.live d hlived)

variable (hblind : M.Blind ir.hidden)
include hblind

/-- An instruction that is left yields the same, if what is left has the same values. -/
theorem result_eq (hlive : ir'.live i) (hi : ir.still i = false)
    (henv : ∀ p, ir'.Lasting p → ir'.env M done p = ir.env M (visible ir.still done) p) :
    ir'.result M done (ir'.env M done) i =
      ir.result M (visible ir.still done) (ir.env M (visible ir.still done)) i := by
  have heffect : M.effect i done = M.effect i (visible ir.still done) := blind_still hblind i done
  by_cases hphi : (ir.insn i).opcode = .phi
  · have hphi' : (ir'.insn i).opcode = .phi := by rw [hp.opcode]; exact hphi
    obtain ⟨hsources, hall⟩ := hp.phiSources_eq h h' hlive hphi'
    have hfind : (visible ir.still done).find? (fun d => d ∈ ir.phiSources i) =
        done.find? fun d => d ∈ ir.phiSources i := by
      refine find?_visible (fun d hd => decide_eq_false fun hmem => ?_) done
      rw [(hall d hmem).2.2] at hd
      cases hd
    unfold result
    simp only [hphi, hphi', hsources, hfind, heffect]
    cases hd : done.find? fun d => d ∈ ir.phiSources i with
    | none => rfl
    | some d =>
      have hmem : d ∈ ir.phiSources i := by simpa using List.find?_some hd
      obtain ⟨hop, hlived, -⟩ := hall d hmem
      have hlast := h'.lasting_of_source hlived (by rw [hp.opcode]; exact hop)
      have htarget : (ir'.insn d).target = (ir.insn d).target := hp.target d (by rw [hop]; rfl)
      dsimp only
      rw [henv _ hlast, htarget]
  · refine result_congr (hp.rest i (still_eq_false.1 hi).2.1) hphi (fun s hs => ?_) heffect
    have ho : ir'.Owns i s := ⟨hlive, (Instruction.operandSlots_of_form (hp.form i) i).symm ▸ hs⟩
    rw [henv _ (h'.lasting_of_owns ho), hp.slots i s ho]

/-- What is computed in the code has the same value, whatever jumps and no-ops were executed. -/
theorem env_visible (hlast : ir'.Lasting p) : ir'.env M done p = ir.env M (visible ir.still done) p := by
  induction done generalizing p with
  | nil => rfl
  | cons i done ih =>
    have hne : ∀ {x : Ir}, x.definition = ir.definition → ir'.still i = true → x.Computes i →
        p ≠ (x.insn i).target := by
      rintro x hx hstill hc rfl
      have hnot := hlast i (by rw [hp.definition, ← hx]; exact hc.2.1)
      rw [hstill] at hnot
      cases hnot
    cases hi : ir.still i with
    | true =>
      rw [visible_cons_silent hi, env]
      split
      · rename_i hc
        rw [Function.update_of_ne (hne hp.definition (hp.still_mono hi) hc)]
        exact ih hlast
      · exact ih hlast
    | false =>
      rw [visible_cons hi]
      by_cases hlive : ir'.live i
      · have hiff := hp.computes_iff h h' hlive hi
        by_cases hc : ir.Computes i
        · have htarget := hp.target i (storesTarget_of_definition h.uses hc.2.1)
          rw [env, if_pos (hiff.2 hc), env, if_pos hc, htarget, Function.update_apply, Function.update_apply,
            hp.result_eq h h' hblind hlive hi (fun p hp' => ih hp'), ih hlast]
        · rw [env, if_neg (fun hc' => hc (hiff.1 hc')), env, if_neg hc]
          exact ih hlast
      · have hstill : ir'.still i = true := by
          by_contra hnot
          exact hlive (still_eq_false.1 (Bool.eq_false_of_not_eq_true hnot)).1
        rw [env, if_neg (fun hc => hlive hc.1), env]
        split
        · rename_i hc
          rw [Function.update_of_ne (hne rfl hstill hc)]
          exact ih hlast
        · exact ih hlast

/-- The same after histories in which the same shows. -/
theorem env_eq (hlast : ir'.Lasting p) (hdone : visible ir.still done' = visible ir.still done) :
    ir'.env M done' p = ir.env M done p := by
  rw [hp.env_visible h h' hblind hlast, hdone, ← (Prunes.refl ir).env_visible h h hblind (hp.lasting hlast)]

/-- Branches and switches look at what is left only. -/
theorem sees : (ir'.runs M e).Sees ir.still := by
  rintro done done' b c hdone ⟨hc, hgo⟩
  refine ⟨hc, fun i hl hop => ?_⟩
  have hlive := (h'.branches b i hl hop).1
  have ho : ir'.Owns i (.target i) := ⟨hlive, Instruction.target_mem_operandSlots hop i⟩
  have hlast : ir'.Lasting (ir'.insn i).target := h'.lasting_of_owns ho
  have hvalue : ir'.env M done' (ir'.insn i).target = ir'.env M done (ir'.insn i).target := by
    rw [hp.env_visible h h' hblind hlast, hdone, ← hp.env_visible h h' hblind hlast]
  rw [Instruction.choice_congr rfl hvalue]
  exact hgo i hl hop

theorem reads_eq (hj : ir.hidden j = false) (hdone : visible ir.still done' = visible ir.still done) :
    ir'.reads M done' j = ir.reads M done j := by
  have hslots := Instruction.operandSlots_of_form (hp.form j) j
  unfold reads
  rw [hslots]
  refine List.map_congr_left fun s hs => ?_
  have ho : ir'.Owns j s := ⟨hp.kept j hj, hslots.symm ▸ hs⟩
  rw [hp.env_eq h h' hblind (h'.lasting_of_owns ho) hdone, hp.slots j s ho]

end Prunes

/-! ## The same executions -/

/-- Wherever an execution of `ir` comes to an instruction that shows, one of `ir'` comes to it after the
same instructions that show, and it reads the same. -/
def Mirrors (S : InsnId → Bool) (M : Meaning) (e : BlockId) (ir ir' : Ir) : Prop :=
  ∀ b j rest done, S j = false → (ir.runs M e).Reached b (j :: rest) done →
    ∃ b' rest' done', (ir'.runs M e).Reached b' (j :: rest') done' ∧ visible S done' = visible S done ∧
      ir'.reads M done' j = ir.reads M done j

theorem Mirrors.trans {S : InsnId → Bool} (h : Mirrors S M e ir ir') (h' : Mirrors S M e ir' ir'') :
    Mirrors S M e ir ir'' := by
  intro b j rest done hj hr
  obtain ⟨b', rest', done', hr', hdone, hreads⟩ := h b j rest done hj hr
  obtain ⟨b'', rest'', done'', hr'', hdone', hreads'⟩ := h' b' j rest' done' hj hr'
  exact ⟨b'', rest'', done'', hr'', hdone'.trans hdone, hreads'.trans hreads⟩

/-- The function lost what does not show, and shows what it showed. -/
structure Simplified (M : Meaning) (e : BlockId) (ir ir' : Ir) : Prop where
  input : ir'.FlowInput e
  prunes : Prunes ir ir'
  mirrors : Mirrors ir.hidden M e ir ir'
  mirrored : Mirrors ir.hidden M e ir' ir

namespace Simplified

theorem refl (h : ir.FlowInput e) : Simplified M e ir ir :=
  ⟨h, .refl ir, fun b _ rest done _ hr => ⟨b, rest, done, hr, rfl, rfl⟩,
    fun b _ rest done _ hr => ⟨b, rest, done, hr, rfl, rfl⟩⟩

theorem trans (h : Simplified M e ir ir') (h' : Simplified M e ir' ir'') : Simplified M e ir ir'' where
  input := h'.input
  prunes := h.prunes.trans h'.prunes
  mirrors := h.mirrors.trans (h.prunes.hidden_eq ▸ h'.mirrors)
  mirrored := (h.prunes.hidden_eq ▸ h'.mirrored : Mirrors ir.hidden M e ir'' ir').trans h.mirrored

/-- Points that correspond in both directions make the executions the same. -/
theorem of_shadows {At At' : BlockId → List InsnId → BlockId → List InsnId → Prop} (h : ir.FlowInput e)
    (h' : ir'.FlowInput e) (hp : Prunes ir ir') (hblind : M.Blind ir.hidden)
    (hforward : Shadows ir.still (ir.runs M e) (ir'.runs M e) At)
    (hbackward : Shadows ir.still (ir'.runs M e) (ir.runs M e) At') : Simplified M e ir ir' := by
  have hvisible : ∀ {l l'}, visible ir.still l' = visible ir.still l → visible ir.hidden l' = visible ir.hidden l :=
    fun {l l'} heq => by
      rw [← visible_visible (fun j hj => hidden_of_still hj) l', heq, visible_visible (fun j hj => hidden_of_still hj)]
  refine ⟨h', hp, fun b j rest done hj hr => ?_, fun b j rest done hj hr => ?_⟩
  · obtain ⟨c, r, hist, hr', hhist⟩ := hforward.comes_to (hidden_eq_false.1 hj).1 hr
    exact ⟨c, r, hist, hr', hvisible hhist, hp.reads_eq h h' hblind hj hhist⟩
  · obtain ⟨c, r, hist, hr', hhist⟩ := hbackward.comes_to (hidden_eq_false.1 hj).1 hr
    exact ⟨c, r, hist, hr', hvisible hhist, (hp.reads_eq h h' hblind hj hhist.symm).symm⟩

end Simplified

end Ir

end Sparse
