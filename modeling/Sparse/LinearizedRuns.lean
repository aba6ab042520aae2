import Sparse.LinearizedSwitch

/-!
# The linearized code simulates the statements

Every step of a statement is matched by steps of its code, and a jump arrives where the block
of its label starts.
-/

namespace Sparse

open Relation StutterSimulation

section Graph

variable {o : Oracle} {ep : Entrypoint} {h : List Event} {x y : Point}
  {v : ExprId → BitVec 64}

theorem graph_steps_eval {e : ExprId} (hx : ep.insnAt x = some (.eval e)) :
    (ep.graph o).StepsTo ⟨h, x, v⟩
      ⟨o.eval h e, (x.1, x.2 + 1), Function.update v e (o h e)⟩ := by
  simp [Machine.StepsTo, Entrypoint.graph, Entrypoint.step, hx]

theorem graph_steps_br {bb : BlockId} (hx : ep.insnAt x = some (.br bb)) :
    (ep.graph o).StepsTo ⟨h, x, v⟩ ⟨h, (bb, 0), v⟩ := by
  simp [Machine.StepsTo, Entrypoint.graph, Entrypoint.step, hx]

theorem graph_steps_cbr {e : ExprId} {bbTrue bbFalse : BlockId}
    (hx : ep.insnAt x = some (.cbr e bbTrue bbFalse)) :
    (ep.graph o).StepsTo ⟨h, x, v⟩ ⟨h, (if v e = 0 then bbFalse else bbTrue, 0), v⟩ := by
  simp [Machine.StepsTo, Entrypoint.graph, Entrypoint.step, hx]

theorem graph_steps_switch {e : ExprId} {insn : InsnId} {jmp : Multijmp}
    (hx : ep.insnAt x = some (.switch e insn))
    (hjmp : Ir.selectJump (v e) (ep.multijmpList insn) = some jmp) :
    (ep.graph o).StepsTo ⟨h, x, v⟩ ⟨h, (jmp.target, 0), v⟩ := by
  simp [Machine.StepsTo, Entrypoint.graph, Entrypoint.step, hx, hjmp]

theorem graph_steps_passes (hxy : ep.Passes x y) :
    (ep.graph o).StepsTo ⟨h, x, v⟩ ⟨h, y, v⟩ := by
  cases hxy <;> simp [Machine.StepsTo, Entrypoint.graph, Entrypoint.step, *]

theorem graph_steps_flows (hxy : ep.Flows x y) :
    ReflTransGen (ep.graph o).StepsTo ⟨h, x, v⟩ ⟨h, y, v⟩ := by
  induction hxy with
  | refl => exact .refl
  | tail _ hstep ih => exact ih.tail (graph_steps_passes hstep)

/-- The code of a condition evaluates what C evaluates and goes to the block of the outcome. -/
theorem graph_steps_tests (c : Condition) {bbTrue bbFalse : BlockId}
    (hc : ep.Tests c x bbTrue bbFalse) : ∃ v', TransGen (ep.graph o).StepsTo ⟨h, x, v⟩
      ⟨(c.eval o h).1, (if (c.eval o h).2 then bbTrue else bbFalse, 0), v'⟩ := by
  induction c generalizing x bbTrue bbFalse h v with
  | value truth => exact ⟨v, .single (graph_steps_br hc)⟩
  | logicalAnd left right ihl ihr =>
    obtain ⟨next, y, hl, hflow, hr⟩ := hc
    obtain ⟨v₁, h₁⟩ := ihl (h := h) (v := v) hl
    rcases hleft : left.eval o h with ⟨h', _ | _⟩
    · simp only [hleft] at h₁
      exact ⟨v₁, by simpa [Condition.eval, hleft] using h₁⟩
    · simp only [hleft] at h₁
      obtain ⟨v₂, h₂⟩ := ihr (h := h') (v := v₁) hr
      refine ⟨v₂, ?_⟩
      simpa [Condition.eval, hleft] using (h₁.trans_left (graph_steps_flows hflow)).trans h₂
  | logicalOr left right ihl ihr =>
    obtain ⟨next, y, hl, hflow, hr⟩ := hc
    obtain ⟨v₁, h₁⟩ := ihl (h := h) (v := v) hl
    rcases hleft : left.eval o h with ⟨h', _ | _⟩
    · simp only [hleft] at h₁
      obtain ⟨v₂, h₂⟩ := ihr (h := h') (v := v₁) hr
      refine ⟨v₂, ?_⟩
      simpa [Condition.eval, hleft] using (h₁.trans_left (graph_steps_flows hflow)).trans h₂
    · simp only [hleft] at h₁
      exact ⟨v₁, by simpa [Condition.eval, hleft] using h₁⟩
  | not unop ih =>
    obtain ⟨v', hsteps⟩ := ih (h := h) (v := v) hc
    refine ⟨v', ?_⟩
    rcases hunop : unop.eval o h with ⟨h', _ | _⟩ <;> simpa [Condition.eval, hunop] using hsteps
  | compare e | other e =>
    refine ⟨Function.update v e (o h e), .tail (.single (graph_steps_eval hc.1)) ?_⟩
    have := graph_steps_cbr (o := o) (h := o.eval h e) (v := Function.update v e (o h e)) hc.2
    by_cases hz : o h e = 0 <;> simpa [Condition.eval, hz] using this

end Graph

variable {ep : Entrypoint}

mutual

/-- Code after a statement has an active block as `Statement.active` says. -/
theorem Statement.isSome_of_codeAt {p q : Option Point} :
    ∀ s : Statement, s.CodeAt ep p q → q.isSome = s.active p.isSome
  | .none, h => by rw [h]; rfl
  | .expression _, h => by rw [h.1, Option.isSome_map]; rfl
  | .ret _ _ _, h | .goto _, h => by rw [h.1]; rfl
  | .case _ s, ⟨_, _, h⟩ => s.isSome_of_codeAt h
  | .label _ true s, h => by
    obtain ⟨_, -, h⟩ := h
    exact s.isSome_of_codeAt h
  | .label _ false _, h => by
    rw [show q = p from h]
    rfl
  | .compound ss Option.none, ⟨_, h, hq⟩ => by
    rw [show q = _ from hq, ss.isSome_of_codeAt h]
    simp [Statement.active]
  | .compound _ (some _), ⟨_, _, _, _, hq⟩ => by simp [hq, Statement.active]
  | .ifThen _ _, ⟨_, _, _, _, _, _, _, _, _, _, hq⟩ => by rw [hq]; rfl
  | .ifElse _ _ _, ⟨_, _, _, _, _, _, _, _, _, _, _, _, _, _, hq⟩ => by rw [hq]; rfl
  | .switch _ _ _ _, h => by
    cases p with
    | none => rw [show q = Option.none from h]; rfl
    | some x =>
      obtain ⟨_, _, _, -, -, -, -, -, -, -, rfl⟩ := h
      rfl
  | .iterator _ _ _ _ _ _ _, ⟨_, _, _, _, _, _, _, hq⟩ => by rw [hq]; rfl

theorem Statements.isSome_of_codeAt {p q : Option Point} :
    ∀ ss : Statements, ss.CodeAt ep p q → q.isSome = ss.active p.isSome
  | .nil, h => by rw [h]; rfl
  | .cons s ss, ⟨_, hs, hss⟩ => by
    rw [ss.isSome_of_codeAt hss, s.isSome_of_codeAt hs]
    rfl

end

/-- What is left to do comes after any point that control flows from. -/
theorem Kont.CodeAt.of_flows {k : Kont} {p q : Option Point} (h : k.CodeAt ep q)
    (hpq : ∀ x ∈ p, ∃ y ∈ q, ep.Flows x y) : k.CodeAt ep p := by
  cases k with
  | stop =>
    intro x hx
    obtain ⟨y, hy, hxy⟩ := hpq x hx
    obtain ⟨z, hyz, hz⟩ := h y hy
    exact ⟨z, hxy.trans hyz, hz⟩
  | seq ss k =>
    obtain ⟨p', m, hflow, hrest⟩ := h
    refine ⟨p', m, fun x hx => ?_, hrest⟩
    obtain ⟨y, hy, hxy⟩ := hpq x hx
    obtain ⟨z, hz, hyz⟩ := hflow y hy
    exact ⟨z, hz, hxy.trans hyz⟩
  | loopPre loop k | loopPost loop k =>
    obtain ⟨shape, hloop, hflow, hk⟩ := h
    refine ⟨shape, hloop, fun x hx => ?_, hk⟩
    obtain ⟨y, hy, hxy⟩ := hpq x hx
    obtain ⟨z, hyz, hz⟩ := hflow y hy
    exact ⟨z, hxy.trans hyz, hz⟩
  | loopBody loop k =>
    obtain ⟨shape, hloop, hflow, hk⟩ := h
    refine ⟨shape, hloop, fun x hx => ?_, hk⟩
    obtain ⟨y, hy, hxy⟩ := hpq x hx
    exact hxy.trans (hflow y hy)

mutual

/-- A label is only found where it stands. -/
theorem Statement.mem_of_findLabel (l : LabelId) :
    ∀ (s : Statement) (k : Kont), s.findLabel l k ≠ Option.none → l ∈ s.labels ++ s.exits
  | .none, _, h | .expression _, _, h | .ret _ _ _, _, h | .goto _, _, h => absurd rfl h
  | .case l' s, k, h | .label l' _ s, k, h => by
    have ih := s.mem_of_findLabel l k
    simp only [Statement.findLabel, Statement.labels, Statement.exits] at h ⊢
    grind
  | .compound ss ret, k, h => by
    have ih := ss.mem_of_findLabel l k
    simp only [Statement.findLabel, Statement.labels, Statement.exits] at h ⊢
    grind
  | .ifThen _ s, k, h => s.mem_of_findLabel l k h
  | .ifElse _ s t, k, h => by
    have ihs := s.mem_of_findLabel l k
    have iht := t.mem_of_findLabel l k
    simp only [Statement.findLabel, Statement.labels, Statement.exits] at h ⊢
    grind
  | .switch _ _ brk s, k, h => by
    have ih := s.mem_of_findLabel l k
    simp only [Statement.findLabel, Statement.labels, Statement.exits] at h ⊢
    grind
  | .iterator pre preCondition body post postCondition cont brk, k, h => by
    have ihpre := pre.mem_of_findLabel l (.loopPre ⟨preCondition, body, post, postCondition⟩ k)
    have ihbody := body.mem_of_findLabel l (.loopBody ⟨preCondition, body, post, postCondition⟩ k)
    have ihpost := post.mem_of_findLabel l (.loopPost ⟨preCondition, body, post, postCondition⟩ k)
    simp only [Statement.findLabel, Statement.labels, Statement.exits] at h ⊢
    grind

theorem Statements.mem_of_findLabel (l : LabelId) :
    ∀ (ss : Statements) (k : Kont), ss.findLabel l k ≠ Option.none → l ∈ ss.labels ++ ss.exits
  | .nil, _, h => absurd rfl h
  | .cons s ss, k, h => by
    have ihs := s.mem_of_findLabel l (.seq ss k)
    have ihss := ss.mem_of_findLabel l k
    simp only [Statements.findLabel, Statements.labels, Statements.exits] at h ⊢
    grind

end

/-- A jump to the label arrives at the code that `found` names. -/
def Entrypoint.LandsAt (ep : Entrypoint) (l : LabelId) (found : Option Config) : Prop :=
  ∃ cfg bb y, found = some cfg ∧ ep.bbTarget l = some bb ∧ ep.Flows (bb, 0) y ∧ cfg.CodeAt ep y

theorem Entrypoint.LandsAt.or_left {l : LabelId} {found other : Option Config}
    (h : ep.LandsAt l found) : ep.LandsAt l (found.or other) := by
  obtain ⟨cfg, bb, y, rfl, hrest⟩ := h
  exact ⟨cfg, bb, y, rfl, hrest⟩

theorem Entrypoint.LandsAt.or_right {l : LabelId} {found other : Option Config}
    (h : ep.LandsAt l other) (hnone : found = none) : ep.LandsAt l (found.or other) := by
  rwa [hnone, Option.none_or]

theorem Entrypoint.LabelAt.landsAt {l : LabelId} {p : Option Point} {y : Point} {cfg : Config}
    (h : ep.LabelAt l p y) (hcfg : cfg.CodeAt ep y) : ep.LandsAt l (some cfg) := by
  obtain ⟨-, bb, hbb, hflow⟩ := h
  exact ⟨cfg, bb, y, rfl, hbb, hflow, hcfg⟩

theorem Statement.findLabel_eq_none {l : LabelId} {s : Statement} {k : Kont}
    (h : l ∉ s.labels ++ s.exits) : s.findLabel l k = Option.none :=
  Classical.not_not.1 fun hne => h (s.mem_of_findLabel l k hne)

theorem Statements.findLabel_eq_none {l : LabelId} {ss : Statements} {k : Kont}
    (h : l ∉ ss.labels ++ ss.exits) : ss.findLabel l k = Option.none :=
  Classical.not_not.1 fun hne => h (ss.mem_of_findLabel l k hne)

mutual

theorem Statement.mem_of_placed (l : LabelId) :
    ∀ (s : Statement) (r : Bool), l ∈ s.placed r → l ∈ s.labels ++ s.exits
  | .none, _, h | .expression _, _, h | .ret _ _ _, _, h | .goto _, _, h => h
  | .case _ s, _, h => by
    have ih := s.mem_of_placed l true
    simp only [Statement.placed, Statement.labels, Statement.exits] at h ⊢
    grind
  | .label _ used s, _, h => by
    have ih := s.mem_of_placed l true
    simp only [Statement.placed, Statement.labels, Statement.exits] at h ⊢
    grind
  | .compound ss ret, r, h => by
    have ih := ss.mem_of_placed l r
    simp only [Statement.placed, Statement.labels, Statement.exits] at h ⊢
    grind
  | .ifThen _ s, _, h => s.mem_of_placed l true h
  | .ifElse _ s t, _, h => by
    have ihs := s.mem_of_placed l true
    have iht := t.mem_of_placed l true
    simp only [Statement.placed, Statement.labels, Statement.exits] at h ⊢
    grind
  | .switch _ _ brk s, r, h => by
    have ih := s.mem_of_placed l false
    simp only [Statement.placed, Statement.labels, Statement.exits] at h ⊢
    grind
  | .iterator pre _ body post _ cont brk, r, h => by
    have ihpre := pre.mem_of_placed l r
    have ihbody := body.mem_of_placed l true
    have ihpost := post.mem_of_placed l true
    simp only [Statement.placed, Statement.labels, Statement.exits] at h ⊢
    grind

theorem Statements.mem_of_placed (l : LabelId) :
    ∀ (ss : Statements) (r : Bool), l ∈ ss.placed r → l ∈ ss.labels ++ ss.exits
  | .nil, _, h => h
  | .cons s ss, r, h => by
    have ihs := s.mem_of_placed l r
    have ihss := ss.mem_of_placed l (s.active r)
    simp only [Statements.placed, Statements.labels, Statements.exits] at h ⊢
    grind

end

mutual

/-- A jump to a label that is kept arrives at its code. -/
theorem Statement.landsAt (l : LabelId) : ∀ (s : Statement) {p q : Option Point} {k : Kont},
    s.CodeAt ep p q → k.CodeAt ep q → s.Distinct → l ∈ s.placed p.isSome →
      ep.LandsAt l (s.findLabel l k)
  | .none, _, _, _, _, _, _, h | .expression _, _, _, _, _, _, _, h
  | .ret _ _ _, _, _, _, _, _, _, h | .goto _, _, _, _, _, _, _, h =>
    absurd h List.not_mem_nil
  | .case l' s, p, q, k, ⟨y, hl, hs⟩, hk, hd, h => by
    have hds : s.Distinct := (List.nodup_cons.1 hd).2
    rw [Statement.findLabel]
    by_cases heq : l' = l
    · rw [if_pos heq]
      exact (heq ▸ hl).landsAt ⟨q, hs, hk⟩
    · rw [if_neg heq]
      exact s.landsAt l hs hk hds ((List.mem_cons.1 h).resolve_left (Ne.symm heq))
  | .label l' true s, p, q, k, ⟨y, hl, hs⟩, hk, hd, h => by
    have hds : s.Distinct := (List.nodup_cons.1 hd).2
    rw [Statement.findLabel]
    by_cases heq : l' = l
    · rw [if_pos heq]
      exact (heq ▸ hl).landsAt ⟨q, hs, hk⟩
    · rw [if_neg heq]
      exact s.landsAt l hs hk hds ((List.mem_cons.1 h).resolve_left (Ne.symm heq))
  | .label _ false _, _, _, _, _, _, _, h => absurd h List.not_mem_nil
  | .compound ss ret, p, q, k, ⟨m, hss, hret⟩, hk, hd, h => by
    have hds : ss.Distinct := by
      simp only [Statement.Distinct, Statement.labels, Statement.exits] at hd
      unfold Statements.Distinct
      grind
    have hkm : k.CodeAt ep m := by
      refine hk.of_flows fun x hx => ?_
      cases ret with
      | none => exact ⟨x, (show q = m from hret) ▸ hx, .refl⟩
      | some l' =>
        obtain ⟨y, hy, rfl⟩ := hret
        exact ⟨y, rfl, hy.1 x hx⟩
    rw [Statement.findLabel]
    rcases List.mem_append.1 h with hl | hl
    · exact (ss.landsAt l hss hkm hds hl).or_left
    · obtain rfl : ret = some l := Option.mem_toList.1 hl
      obtain ⟨y, hy, rfl⟩ := hret
      refine (Entrypoint.LandsAt.or_right ?_) (Statements.findLabel_eq_none fun hmem => ?_)
      · rw [if_pos rfl]
        exact hy.landsAt hk
      · simp only [Statement.Distinct, Statement.labels, Statement.exits] at hd
        grind
  | .ifThen _ s, p, q, k, ⟨_, _, y, m, z, _, _, hs, hm, _, hq⟩, hk, hd, h => by
    exact s.landsAt l hs (hk.of_flows fun x hx => ⟨z, hq, hm x hx⟩) hd h
  | .ifElse _ s t, p, q, k, ⟨_, _, y, y', m, m', z, _, _, hs, _, ht, hm, hm', hq⟩, hk, hd, h => by
    have hds : s.Distinct ∧ t.Distinct := by
      simp only [Statement.Distinct, Statement.labels, Statement.exits] at hd ⊢
      grind
    rw [Statement.findLabel]
    rcases List.mem_append.1 h with h | h
    · exact (s.landsAt l hs (hk.of_flows fun x hx => ⟨z, hq, hm x hx⟩) hds.1 h).or_left
    · refine (t.landsAt l ht (hk.of_flows fun x hx => ⟨z, hq, hm' x hx⟩) hds.2 h).or_right
        (Statement.findLabel_eq_none fun hmem => ?_)
      have := t.mem_of_placed l _ h
      simp only [Statement.Distinct, Statement.labels, Statement.exits] at hd
      grind
  | .switch _ _ brk s, p, q, k, hcode, hk, hd, h => by
    cases p with
    | none => exact absurd h List.not_mem_nil
    | some x =>
      obtain ⟨switchEnd, m, z, -, -, hds, hs, hm, hbrk, hflow, hq⟩ := hcode
      rw [Statement.findLabel]
      rcases List.mem_cons.1 h with rfl | h
      · refine Entrypoint.LandsAt.or_right ?_ (Statement.findLabel_eq_none fun hmem => ?_)
        · rw [if_pos rfl]
          exact ⟨_, switchEnd, z, rfl, hbrk, hflow, show k.CodeAt ep (some z) from hq ▸ hk⟩
        · simp only [Statement.Distinct, Statement.labels, Statement.exits] at hd
          grind
      · exact (s.landsAt l hs (hk.of_flows fun x hx => ⟨z, hq, hm x hx⟩) hds h).or_left
  | .iterator pre preCondition body post postCondition cont brk, p, q, k,
      ⟨shape, m, hpre, henter, hloop, hcont, hbrk, hq⟩, hk, hd, h => by
    simp only [Statement.Distinct, Statement.labels, Statement.exits, List.nodup_append,
      List.nodup_cons, List.mem_append, List.mem_cons] at hd
    have hds : pre.Distinct ∧ body.Distinct ∧ post.Distinct := by
      simp only [Statement.Distinct, List.nodup_append]
      grind
    have hk' : k.CodeAt ep (some shape.endPoint) := hq ▸ hk
    have hkpost : (Kont.loopPost ⟨preCondition, body, post, postCondition⟩ k).CodeAt ep
        shape.continueEnd :=
      ⟨shape, hloop, fun x hx => ⟨x, .refl, hloop.continue_end x hx⟩, hk'⟩
    simp only [Statement.findLabel]
    have hnone (s : Statement) (k : Kont) (hl : l ∉ s.labels ++ s.exits) :
        s.findLabel l k = Option.none := Statement.findLabel_eq_none hl
    rcases List.mem_cons.1 h with rfl | h
    · -- `continue`
      refine .or_right (.or_right (.or_right ?_ (hnone _ _ ?_)) (hnone _ _ ?_)) (hnone _ _ ?_)
      · rw [if_pos rfl]
        exact ⟨_, _, _, rfl, hcont, hloop.continue_flows, _, hloop.continue_code, hkpost⟩
      all_goals grind
    rcases List.mem_cons.1 h with rfl | h
    · -- `break`
      refine .or_right (.or_right (.or_right ?_ (hnone _ _ ?_)) (hnone _ _ ?_)) (hnone _ _ ?_)
      · rw [if_neg (by grind), if_pos rfl]
        exact ⟨_, _, _, rfl, hbrk, hloop.end_flows, hk'⟩
      all_goals grind
    rcases List.mem_append.1 h with h | h
    · exact (pre.landsAt l (k := .loopPre ⟨preCondition, body, post, postCondition⟩ k) hpre
        ⟨shape, hloop, henter, hk'⟩ hds.1 h).or_left
    rcases List.mem_append.1 h with h | h
    · have := body.mem_of_placed l _ h
      refine .or_right (.or_left ?_) (hnone _ _ (by grind))
      exact body.landsAt l (k := .loopBody ⟨preCondition, body, post, postCondition⟩ k)
        hloop.body_code ⟨shape, hloop, hloop.body_end, hk'⟩ hds.2.1 h
    · have := post.mem_of_placed l _ h
      refine .or_right (.or_right (.or_left ?_) (hnone _ _ (by grind))) (hnone _ _ (by grind))
      exact post.landsAt l hloop.continue_code hkpost hds.2.2 h

theorem Statements.landsAt (l : LabelId) : ∀ (ss : Statements) {p q : Option Point} {k : Kont},
    ss.CodeAt ep p q → k.CodeAt ep q → ss.Distinct → l ∈ ss.placed p.isSome →
      ep.LandsAt l (ss.findLabel l k)
  | .nil, _, _, _, _, _, _, h => absurd h List.not_mem_nil
  | .cons s ss, p, q, k, ⟨m, hs, hss⟩, hk, hd, h => by
    have hds : s.Distinct := by
      simp only [Statements.Distinct, Statements.labels, Statements.exits] at hd
      unfold Statement.Distinct
      grind
    have hdss : ss.Distinct := by
      simp only [Statements.Distinct, Statements.labels, Statements.exits] at hd
      unfold Statements.Distinct
      grind
    rw [Statements.findLabel]
    rcases List.mem_append.1 h with h | h
    · exact (s.landsAt l (k := .seq ss k) hs ⟨m, q, fun x hx => ⟨x, hx, .refl⟩, hss, hk⟩ hds h).or_left
    · rw [← s.isSome_of_codeAt hs] at h
      refine (ss.landsAt l hss hk hdss h).or_right (Statement.findLabel_eq_none fun hmem => ?_)
      have := ss.mem_of_placed l _ h
      simp only [Statements.Distinct, Statements.labels, Statements.exits] at hd
      grind

end

end Sparse
