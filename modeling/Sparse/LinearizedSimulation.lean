import Sparse.LinearizedRuns

/-!
# The graph simulates the statements

A run of a function body and a run of its graph evaluate the same expressions, as long as the
run of the body keeps to code that is made.
-/

namespace Sparse

open Relation StutterSimulation

mutual

/-- How long a statement can run without an event or a jump. -/
def Statement.size : Statement → ℕ
  | .none | .expression _ | .ret _ _ _ | .goto _ | .ifThen _ _ | .ifElse _ _ _
  | .switch _ _ _ _ => 2
  | .case _ s | .label _ _ s => s.size + 1
  | .compound ss _ => ss.size + 1
  | .iterator pre _ body post _ _ _ => pre.size + body.size + post.size + 1

def Statements.size : Statements → ℕ
  | .nil => 2
  | .cons s ss => s.size + ss.size + 1

end

def Kont.size : Kont → ℕ
  | .stop => 0
  | .seq ss k => ss.size + k.size
  | .loopPre loop k => loop.body.size + loop.post.size + k.size
  | .loopBody loop k => loop.post.size + k.size
  | .loopPost _ k => k.size

/-- It goes down with every step that the graph may have no step for. -/
def Config.size : Config → ℕ
  | .run s k => s.size + k.size
  | .runs ss k => ss.size + k.size
  | .resume k => k.size + 1

section History

variable {o : Oracle} {h : List Event}

theorem prefix_eval (e : ExprId) : h <+: o.eval h e := List.prefix_append _ _

theorem Condition.prefix_eval (c : Condition) : h <+: (c.eval o h).1 := by
  induction c generalizing h with
  | value truth => exact List.prefix_rfl
  | logicalAnd left right ihl ihr =>
    have hl := ihl (h := h)
    rcases hleft : left.eval o h with ⟨h', _ | _⟩
    · simpa [Condition.eval, hleft] using hl
    · simpa [Condition.eval, hleft] using hl.trans (by simpa [hleft] using ihr (h := h'))
  | logicalOr left right ihl ihr =>
    have hl := ihl (h := h)
    rcases hleft : left.eval o h with ⟨h', _ | _⟩
    · simpa [Condition.eval, hleft] using hl.trans (by simpa [hleft] using ihr (h := h'))
    · simpa [Condition.eval, hleft] using hl
  | not unop ih => exact ih
  | compare e | other e => exact Sparse.prefix_eval e

theorem Condition.choose_eq (c : Condition) (yes no : Config) :
    c.choose o h yes no = ((c.eval o h).1, if (c.eval o h).2 then yes else no) := by
  rcases hc : c.eval o h with ⟨h', _ | _⟩ <;> simp [Condition.choose, hc]

theorem Condition.prefix_choose (c : Condition) (yes no : Config) :
    h <+: (c.choose o h yes no).1 := by
  rw [c.choose_eq]
  exact c.prefix_eval

theorem Loop.prefix_enter (loop : Loop) (k : Kont) : h <+: (loop.enter o h k).1 := by
  unfold Loop.enter
  split
  · exact List.prefix_rfl
  · exact Condition.prefix_choose _ _ _

theorem Loop.prefix_again (loop : Loop) (k : Kont) : h <+: (loop.again o h k).1 := by
  unfold Loop.again
  split
  · exact loop.prefix_enter k
  · exact Condition.prefix_choose _ _ _

theorem Statement.prefix_step {body : Statement} {c c' : List Event × Config}
    (hstep : body.step o c = some c') : c.1 <+: c'.1 := by
  revert hstep
  fun_cases Statement.step o body c <;> intro hstep <;>
    simp only [Option.map_eq_some_iff, Option.some.injEq, reduceCtorEq] at hstep
  all_goals first
    | (obtain ⟨_, -, rfl⟩ := hstep; first | exact Sparse.prefix_eval _ | exact List.prefix_rfl)
    | (subst hstep; first
        | exact Sparse.prefix_eval _
        | exact List.prefix_rfl
        | exact Condition.prefix_choose _ _ _
        | exact Loop.prefix_enter _ _
        | exact Loop.prefix_again _ _)

end History

/-- A function body as a machine. -/
def Statement.machine (o : Oracle) (body : Statement) :
    Machine (List Event × Config) Event where
  step := body.step o
  history := Prod.fst
  done c := c.2 = .resume .stop
  grows _ _ := body.prefix_step
  stops c h := by
    obtain ⟨h', cfg⟩ := c
    obtain rfl : cfg = .resume .stop := h
    rfl

section Steps

variable {o : Oracle} {ep : Entrypoint} {h : List Event} {x : Point} {v : ExprId → BitVec 64}

/-- The graph passes on to the code of a configuration, in one step or more. -/
def Advances (o : Oracle) (ep : Entrypoint) (g : GraphState) (c : List Event × Config) : Prop :=
  ∃ y v', TransGen (ep.graph o).StepsTo g ⟨c.1, y, v'⟩ ∧ c.2.CodeAt ep y

theorem Advances.of_step {g g' : GraphState} {c : List Event × Config}
    (hstep : (ep.graph o).StepsTo g g') (h : Advances o ep g' c) : Advances o ep g c := by
  obtain ⟨y, v', hsteps, hcode⟩ := h
  exact ⟨y, v', .head hstep hsteps, hcode⟩

theorem Advances.of_flows {y : Point} {c : List Event × Config} (hflow : ep.Flows x y)
    (hc : Advances o ep ⟨h, y, v⟩ c) : Advances o ep ⟨h, x, v⟩ c := by
  obtain ⟨z, v', hsteps, hcode⟩ := hc
  exact ⟨z, v', .trans_right (graph_steps_flows hflow) hsteps, hcode⟩

/-- A branch to the block of a label arrives at what the label is found at. -/
theorem advances_br {l : LabelId} {bb : BlockId} {found : Option Config} {cfg : Config}
    (hx : ep.insnAt x = some (.br bb)) (hbb : ep.bbTarget l = some bb)
    (hland : ep.LandsAt l found) (hfound : found = some cfg) :
    Advances o ep ⟨h, x, v⟩ (h, cfg) := by
  obtain ⟨cfg', bb', y, heq, hbb', hflow, hcode⟩ := hland
  obtain rfl : cfg' = cfg := Option.some.inj (heq.symm.trans hfound)
  obtain rfl : bb' = bb := Option.some.inj (hbb'.symm.trans hbb)
  exact ⟨y, v, .trans_left (.single (graph_steps_br hx)) (graph_steps_flows hflow), hcode⟩

/-- A test goes to the code of what C chooses. -/
theorem advances_tests {c : Condition} {bbTrue bbFalse : BlockId} {y z : Point} {yes no : Config}
    (hc : ep.Tests c x bbTrue bbFalse) (htrue : ep.Flows (bbTrue, 0) y) (hyes : yes.CodeAt ep y)
    (hfalse : ep.Flows (bbFalse, 0) z) (hno : no.CodeAt ep z) :
    Advances o ep ⟨h, x, v⟩ (c.choose o h yes no) := by
  obtain ⟨v', hsteps⟩ := graph_steps_tests (o := o) (h := h) (v := v) c hc
  rw [c.choose_eq]
  cases hout : (c.eval o h).2
  · exact ⟨z, v', by simpa [hout] using hsteps.trans_left (graph_steps_flows (by simpa [hout])), by
      simpa using hno⟩
  · exact ⟨y, v', by simpa [hout] using hsteps.trans_left (graph_steps_flows (by simpa [hout])), by
      simpa using hyes⟩

theorem advances_enter {loop : Loop} {shape : Entrypoint.LoopShape} {k : Kont}
    {c : Condition} (hpre : loop.preCondition = some c) (hloop : loop.CodeAt ep shape)
    (hk : k.CodeAt ep (some shape.endPoint)) (hx : ep.EntersLoop loop.preCondition shape x) :
    Advances o ep ⟨h, x, v⟩ (loop.enter o h k) := by
  rw [hpre] at hx
  rw [Loop.enter, hpre]
  exact advances_tests hx hloop.body_flows
    ⟨shape.bodyEnd, hloop.body_code, shape, hloop, hloop.body_end, hk⟩ hloop.end_flows hk

/-- The test at the end of an iteration takes at least the branch to the top of the loop. -/
theorem advances_again {loop : Loop} {shape : Entrypoint.LoopShape} {k : Kont}
    (hloop : loop.CodeAt ep shape) (hk : k.CodeAt ep (some shape.endPoint))
    (hx : ep.RepeatsLoop loop.postCondition shape x) :
    Advances o ep ⟨h, x, v⟩ (loop.again o h k) := by
  have htop := hloop.top
  cases hpost : loop.postCondition with
  | none =>
    rw [hpost] at hx htop
    obtain ⟨y, hflow, henter⟩ := htop
    rw [Loop.again, hpost]
    have hstep := graph_steps_br (o := o) (h := h) (v := v) hx
    cases hpre : loop.preCondition with
    | none =>
      rw [hpre] at henter
      rw [Loop.enter, hpre]
      exact ⟨shape.bodyPoint, v,
        .trans_left (.single hstep) (graph_steps_flows (hflow.trans henter)),
        shape.bodyEnd, hloop.body_code, shape, hloop, hloop.body_end, hk⟩
    | some c => exact .of_step hstep (.of_flows hflow (advances_enter hpre hloop hk henter))
  | some c =>
    rw [hpost] at hx htop
    rw [Loop.again, hpost]
    have hx' : ep.Tests c x shape.loopBody shape.loopEnd := htop ▸ hx
    exact advances_tests hx' hloop.body_flows
      ⟨shape.bodyEnd, hloop.body_code, shape, hloop, hloop.body_end, hk⟩ hloop.end_flows hk

/-- A switch goes to the case that C selects. -/
theorem advances_switch {e : ExprId} {cases : List SwitchCase} {brk : LabelId} {s : Statement}
    {k : Kont} {c' : List Event × Config} {body : Statement}
    (hcode : (Config.run (.switch e cases brk s) k).CodeAt ep x)
    (hkeeps : body.Keeps o (h, .run (.switch e cases brk s) k))
    (hstep : body.step o (h, .run (.switch e cases brk s) k) = some c') :
    Advances o ep ⟨h, x, v⟩ c' := by
  obtain ⟨q, ⟨switchEnd, m, z, ⟨insn, heval, hswitch, hjumps⟩, hdisjoint, hd, hs, hm, hbrk,
    hflow, rfl⟩, hk⟩ := hcode
  obtain ⟨hfits, hplaced⟩ := hkeeps
  obtain ⟨jmp, hjmp, htarget⟩ := selectJump_sorted ep (o h e) hdisjoint hfits switchEnd
  rw [← hjumps] at hjmp
  refine .of_step (graph_steps_eval heval) ?_
  have hjump := graph_steps_switch (o := o) (h := o.eval h e)
    (v := Function.update v e (o h e)) hswitch (by simpa using hjmp)
  simp only [Statement.step] at hstep
  cases hselect : selectCase cases (o h e) with
  | none =>
    rw [hselect] at hstep htarget
    obtain rfl := Option.some.inj hstep
    rw [show jmp.target = switchEnd from htarget] at hjump
    exact ⟨z, _, .trans_left (.single hjump) (graph_steps_flows hflow), hk⟩
  | some c =>
    rw [hselect] at hstep htarget
    obtain ⟨cfg, hfound, rfl⟩ := Option.map_eq_some_iff.1 hstep
    have hkm : k.CodeAt ep m := hk.of_flows fun x hx => ⟨z, rfl, hm x hx⟩
    obtain ⟨cfg', bb, y, heq, hbb, hflow', hcode⟩ :=
      s.landsAt c.label hs hkm hd (hplaced c hselect)
    obtain rfl : cfg' = cfg := Option.some.inj (heq.symm.trans hfound)
    rw [show jmp.target = bb by simpa only [hbb, Option.getD_some] using htarget] at hjump
    exact ⟨y, _, .trans_left (.single hjump) (graph_steps_flows hflow'), hcode⟩

/-- Every step of a body is a step of the graph or goes on within the code at hand. -/
theorem advances_of_step {body : Statement} {x₀ : Point} {q₀ : Option Point}
    (hbody : body.CodeAt ep (some x₀) q₀) (hstop : Kont.stop.CodeAt ep q₀) (hd : body.Distinct)
    {cfg : Config} {c' : List Event × Config} (hcode : cfg.CodeAt ep x)
    (hkeeps : body.Keeps o (h, cfg)) (hstep : body.step o (h, cfg) = some c') :
    Advances o ep ⟨h, x, v⟩ c' ∨
      ∃ y, ep.Flows x y ∧ c'.1 = h ∧ c'.2.CodeAt ep y ∧ c'.2.size < cfg.size := by
  have hland (l : LabelId) (hl : l ∈ body.placed true) : ep.LandsAt l (body.findLabel l .stop) :=
    body.landsAt l hbody hstop hd hl
  cases cfg with
  | run s k =>
    cases s with
    | none =>
      obtain ⟨q, rfl, hk⟩ := hcode
      obtain rfl := Option.some.inj hstep
      refine Or.inr ⟨x, .refl, rfl, hk, ?_⟩
      simp only [Config.size, Statement.size]
      omega
    | expression e =>
      obtain ⟨q, ⟨rfl, hx⟩, hk⟩ := hcode
      obtain rfl := Option.some.inj hstep
      exact Or.inl ⟨_, _, .single (graph_steps_eval (hx x rfl)), hk⟩
    | ret expr isVoid l =>
      obtain ⟨q, ⟨rfl, hx⟩, hk⟩ := hcode
      obtain ⟨y, z, bb, heval, hflow, hbr, hbb⟩ := hx x rfl
      cases expr with
      | none =>
        obtain rfl : y = x := heval
        obtain ⟨cfg, hfound, rfl⟩ := Option.map_eq_some_iff.1 hstep
        exact Or.inl (.of_flows hflow (advances_br hbr hbb (hland l hkeeps) hfound))
      | some e =>
        obtain ⟨heval, rfl⟩ := heval
        obtain ⟨cfg, hfound, rfl⟩ := Option.map_eq_some_iff.1 hstep
        exact Or.inl (.of_step (graph_steps_eval heval)
          (.of_flows hflow (advances_br hbr hbb (hland l hkeeps) hfound)))
    | goto l =>
      obtain ⟨q, ⟨rfl, hx⟩, hk⟩ := hcode
      obtain ⟨bb, hbr, hbb⟩ := hx x rfl
      obtain ⟨cfg, hfound, rfl⟩ := Option.map_eq_some_iff.1 hstep
      exact Or.inl (advances_br hbr hbb (hland l hkeeps) hfound)
    | case l s =>
      obtain ⟨q, ⟨y, hl, hs⟩, hk⟩ := hcode
      obtain rfl := Option.some.inj hstep
      exact Or.inr ⟨y, hl.1 x rfl, rfl, ⟨q, hs, hk⟩, by simp [Config.size, Statement.size]⟩
    | label l used s =>
      obtain rfl : used = true := hkeeps
      obtain ⟨q, ⟨y, hl, hs⟩, hk⟩ := hcode
      obtain rfl := Option.some.inj hstep
      exact Or.inr ⟨y, hl.1 x rfl, rfl, ⟨q, hs, hk⟩, by simp [Config.size, Statement.size]⟩
    | compound ss ret =>
      obtain ⟨q, ⟨m, hss, hret⟩, hk⟩ := hcode
      obtain rfl := Option.some.inj hstep
      refine Or.inr ⟨x, .refl, rfl, ⟨m, hss, hk.of_flows fun x hx => ?_⟩, by
        simp [Config.size, Statement.size]⟩
      cases ret with
      | none => exact ⟨x, (show q = m from hret) ▸ hx, .refl⟩
      | some l =>
        obtain ⟨y, hy, rfl⟩ := hret
        exact ⟨y, rfl, hy.1 x hx⟩
    | ifThen c s =>
      obtain ⟨q, ⟨bbTrue, endif, y, m, z, hc, htrue, hs, hm, hend, rfl⟩, hk⟩ := hcode
      obtain rfl := Option.some.inj hstep
      exact Or.inl (advances_tests (hc x rfl) htrue
        ⟨m, hs, hk.of_flows fun x hx => ⟨z, rfl, hm x hx⟩⟩ hend hk)
    | ifElse c s t =>
      obtain ⟨q, ⟨bbTrue, bbFalse, y, y', m, m', z, hc, htrue, hs, hfalse, ht, hm, hm', rfl⟩, hk⟩ :=
        hcode
      obtain rfl := Option.some.inj hstep
      exact Or.inl (advances_tests (hc x rfl) htrue
        ⟨m, hs, hk.of_flows fun x hx => ⟨z, rfl, hm x hx⟩⟩ hfalse
        ⟨m', ht, hk.of_flows fun x hx => ⟨z, rfl, hm' x hx⟩⟩)
    | switch e cases brk s => exact Or.inl (advances_switch hcode hkeeps hstep)
    | iterator pre preCondition lbody post postCondition cont brk =>
      obtain ⟨q, ⟨shape, m, hpre, henter, hloop, -, -, rfl⟩, hk⟩ := hcode
      obtain rfl := Option.some.inj hstep
      refine Or.inr ⟨x, .refl, rfl, ⟨m, hpre, shape, hloop, henter, hk⟩, ?_⟩
      simp only [Config.size, Statement.size, Kont.size]
      omega
  | runs ss k =>
    cases ss with
    | nil =>
      obtain ⟨q, rfl, hk⟩ := hcode
      obtain rfl := Option.some.inj hstep
      refine Or.inr ⟨x, .refl, rfl, hk, ?_⟩
      simp only [Config.size, Statements.size]
      omega
    | cons s ss =>
      obtain ⟨q, ⟨m, hs, hss⟩, hk⟩ := hcode
      obtain rfl := Option.some.inj hstep
      refine Or.inr ⟨x, .refl, rfl, ⟨m, hs, m, q, fun x hx => ⟨x, hx, .refl⟩, hss, hk⟩, ?_⟩
      simp only [Config.size, Statements.size, Kont.size]
      omega
  | resume k =>
    cases k with
    | stop => cases hstep
    | seq ss k =>
      obtain ⟨p, m, hflow, hss, hk⟩ := hcode
      obtain rfl := Option.some.inj hstep
      obtain ⟨y, rfl, hxy⟩ := hflow x rfl
      exact Or.inr ⟨y, hxy, rfl, ⟨m, hss, hk⟩, by simp [Config.size, Kont.size]⟩
    | loopPre loop k =>
      obtain ⟨shape, hloop, henter, hk⟩ := hcode
      obtain rfl := Option.some.inj hstep
      obtain ⟨y, hxy, hy⟩ := henter x rfl
      cases hpre : loop.preCondition with
      | none =>
        rw [hpre] at hy
        refine Or.inr ⟨shape.bodyPoint, hxy.trans hy, ?_⟩
        simp only [Loop.enter, hpre, Config.size, Kont.size, true_and]
        exact ⟨⟨shape.bodyEnd, hloop.body_code, shape, hloop, hloop.body_end, hk⟩, by omega⟩
      | some c => exact Or.inl (.of_flows hxy (advances_enter hpre hloop hk hy))
    | loopBody loop k =>
      obtain ⟨shape, hloop, hflow, hk⟩ := hcode
      obtain rfl := Option.some.inj hstep
      refine Or.inr ⟨shape.continuePoint, hflow x rfl, rfl, ⟨shape.continueEnd, hloop.continue_code,
        shape, hloop, fun x hx => ⟨x, .refl, hloop.continue_end x hx⟩, hk⟩, ?_⟩
      simp [Config.size, Kont.size]
    | loopPost loop k =>
      obtain ⟨shape, hloop, hrepeat, hk⟩ := hcode
      obtain rfl := Option.some.inj hstep
      obtain ⟨y, hxy, hy⟩ := hrepeat x rfl
      exact Or.inl (.of_flows hxy (advances_again hloop hk hy))

/-- A run that keeps to the code does not get stuck. -/
theorem exists_step {body : Statement} {x₀ : Point} {q₀ : Option Point}
    (hbody : body.CodeAt ep (some x₀) q₀) (hstop : Kont.stop.CodeAt ep q₀) (hd : body.Distinct)
    {cfg : Config} (hcode : cfg.CodeAt ep x) (hkeeps : body.Keeps o (h, cfg))
    (hne : cfg ≠ .resume .stop) : ∃ c', body.step o (h, cfg) = some c' := by
  have hland {l : LabelId} (hl : l ∈ body.placed true) : ∃ cfg, body.findLabel l .stop = some cfg :=
    (body.landsAt l hbody hstop hd hl).imp fun _ h => h.choose_spec.choose_spec.1
  cases cfg with
  | run s k =>
    cases s with
    | goto l =>
      obtain ⟨cfg, hfound⟩ := hland hkeeps
      exact ⟨_, by rw [Statement.step, hfound, Option.map_some]⟩
    | ret expr isVoid l =>
      obtain ⟨cfg, hfound⟩ := hland hkeeps
      cases expr <;> exact ⟨_, by rw [Statement.step, hfound, Option.map_some]⟩
    | switch e cases brk s =>
      simp only [Statement.step]
      cases hselect : selectCase cases (o h e) with
      | none => exact ⟨_, rfl⟩
      | some c =>
        obtain ⟨q, ⟨switchEnd, m, z, -, -, hds, hs, hm, -, -, rfl⟩, hk⟩ := hcode
        obtain ⟨cfg, -, -, hfound, -⟩ := s.landsAt c.label hs
          (hk.of_flows fun x hx => ⟨z, rfl, hm x hx⟩) hds (hkeeps.2 c hselect)
        simp only [hfound, Option.map_some]
        exact ⟨_, rfl⟩
    | _ => exact ⟨_, rfl⟩
  | runs ss k => cases ss <;> exact ⟨_, rfl⟩
  | resume k =>
    cases k with
    | stop => exact absurd rfl hne
    | _ => exact ⟨_, rfl⟩

end Steps

/-- The run stays within the code that is made, and the graph is where it is. -/
def Matches (o : Oracle) (body : Statement) (ep : Entrypoint) (c : List Event × Config)
    (g : GraphState) : Prop :=
  (∀ n, body.Keeps o ((body.machine o).advance^[n] c)) ∧ c.1 = g.history ∧ c.2.CodeAt ep g.point

theorem linearized_simulation {o : Oracle} {body : Statement} {ep : Entrypoint} {x₀ : Point}
    {q₀ : Option Point} (hbody : body.CodeAt ep (some x₀) q₀) (hstop : Kont.stop.CodeAt ep q₀)
    (hd : body.Distinct) :
    Simulation (body.machine o) (ep.graph o) (fun c => c.2.size) (Matches o body ep) where
  history _ _ h := h.2.1
  step := by
    rintro ⟨h, cfg⟩ ⟨_, x, v⟩ c' ⟨hkeeps, rfl, hcode⟩ hstep
    have hnext (n : ℕ) : body.Keeps o ((body.machine o).advance^[n] c') := by
      have := hkeeps (n + 1)
      rwa [Function.iterate_succ_apply, Machine.advance_of_step hstep] at this
    obtain ⟨y, v', hsteps, hy⟩ | ⟨y, hflow, hhist, hy, hlt⟩ :=
      advances_of_step (v := v) hbody hstop hd hcode (hkeeps 0) hstep
    · exact ⟨_, ⟨hnext, rfl, hy⟩, Or.inl hsteps⟩
    · exact ⟨⟨h, y, v⟩, ⟨hnext, hhist, hy⟩, Or.inr ⟨graph_steps_flows hflow, hlt⟩⟩
  halt := by
    rintro ⟨h, cfg⟩ ⟨_, x, v⟩ ⟨hkeeps, rfl, hcode⟩ hnone
    have hdone : cfg = .resume .stop := by
      by_contra hne
      obtain ⟨c', hstep⟩ := exists_step hbody hstop hd hcode (hkeeps 0) hne
      exact Option.some_ne_none c' (hstep.symm.trans hnone)
    subst hdone
    obtain ⟨y, hflow, hret⟩ := hcode x rfl
    exact ⟨rfl, ⟨h, y, v⟩, graph_steps_flows hflow, hret, rfl⟩

end Sparse
