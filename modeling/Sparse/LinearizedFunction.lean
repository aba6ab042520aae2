import Sparse.LinearizedSimulation
import Sparse.LinearizeCode

/-!
# A linearized function does what its body does
-/

namespace Sparse

open Entrypoint StutterSimulation

/-- Where a function starts. -/
def graphStart : GraphState := ⟨[], (0, 0), fun _ => 0⟩

/-- The entry block before the body. -/
def entryBlock : Entrypoint :=
  (allocEntrypoint.allocBasicBlock.1.setActiveblock 0).addOneInsn .entry

theorem entryBlock_inv : entryBlock.Inv := by
  have halloc : allocEntrypoint.Inv := ⟨fun _ h => (by cases h), fun _ h => (by cases h),
    fun _ _ h => (by cases h), fun _ _ => rfl, fun _ _ _ h => (by cases h),
    fun _ _ _ _ h => (by cases h)⟩
  exact (halloc.allocBasicBlock.setActiveblock (held_allocBasicBlock halloc)).addOneInsn _

theorem entryBlock_ready (stmt : Statement) : Ready stmt.labels stmt.exits entryBlock :=
  ⟨entryBlock_inv, open_addOneInsn rfl, fun _ _ _ h => (by cases h), fun _ _ => rfl⟩

theorem Statement.WellFormed.sound {stmt : Statement} (h : stmt.WellFormed) :
    stmt.Sound (· ∈ stmt.labels) :=
  ⟨h.nodup, h.jumps, fun _ hl => hl, fun l hl hl' => (List.nodup_append.1 h.nodup).2.2 l hl' l hl rfl⟩

/-- The graph of a function holds the code of its body, and returns after it. -/
theorem linearizeFn_code {stmt : Statement} (h : stmt.WellFormed) :
    ∃ q, stmt.CodeAt (linearizeFn stmt) (some (0, 1)) q ∧
      Kont.stop.CodeAt (linearizeFn stmt) q ∧ (linearizeFn stmt).insnAt (0, 0) = some .entry := by
  have hbody := stmt.linearizes _ _ h.sound (entryBlock_ready stmt)
  have hpoint : entryBlock.point = some (0, 1) := rfl
  have hret : linearizeFn stmt = (entryBlock.linearizeStatement stmt).addOneInsn .ret := by
    unfold linearizeFn
    change (if (entryBlock.linearizeStatement stmt).active.isSome ∧ ¬ (entryBlock.linearizeStatement
      stmt).bbTerminated (entryBlock.linearizeStatement stmt).active then _ else _) = _
    rw [show (entryBlock.linearizeStatement stmt).bbTerminated
      (entryBlock.linearizeStatement stmt).active = false from hbody.opened]
    cases hact : (entryBlock.linearizeStatement stmt).active with
    | none =>
      unfold addOneInsn
      rw [hact]
      rfl
    | some bb => rfl
  have hgrows : Grows 0 (entryBlock.linearizeStatement stmt).nextSwitch (fun _ => False)
      (fun _ => False) (entryBlock.linearizeStatement stmt) (linearizeFn stmt) :=
    hret ▸ grows_addOneInsn _
  have hF : Covers (linearizeFn stmt) (linearizeFn stmt) := .refl
  have hbody' := hF.of_grows hgrows
  have hcomplete : Completes entryBlock.nextSwitch (entryBlock.linearizeStatement stmt)
      (linearizeFn stmt) := Completes.of_grows (fun _ _ _ => rfl) hgrows (Nat.le_refl _)
  refine ⟨_, hpoint ▸ hbody.code _ hbody' hcomplete, ?_, ?_⟩
  · intro x hx
    exact ⟨x, .refl, insnAt_addOneInsn (hret ▸ hF) x hx⟩
  · obtain ⟨t, ht⟩ := (hbody'.of_grows hbody.grows).insns 0
    rw [insnAt, ← ht]
    rfl

/-- The graph of a function evaluates, in every run that stays within the code that is made, what
C evaluates, and ends when C does. -/
theorem linearizeFn_events (o : Oracle) (stmt : Statement) (h : stmt.WellFormed)
    (hkeeps : ∀ n, stmt.Keeps o ((stmt.machine o).advance^[n] ([], .run stmt .stop)))
    (events : List Event) :
    ((stmt.machine o).Emits ([], .run stmt .stop) events ↔
      ((linearizeFn stmt).graph o).Emits graphStart events) ∧
    ((stmt.machine o).Halts ([], .run stmt .stop) events ↔
      ((linearizeFn stmt).graph o).Halts graphStart events) := by
  obtain ⟨q, hcode, hstop, hentry⟩ := linearizeFn_code h
  have hsim := linearized_simulation (o := o) hcode hstop h.nodup
  have hstart : ((linearizeFn stmt).graph o).StepsTo graphStart ⟨[], (0, 1), fun _ => 0⟩ :=
    graph_steps_passes (.entry hentry)
  have hmatch : Matches o stmt (linearizeFn stmt) ([], .run stmt .stop) ⟨[], (0, 1), fun _ => 0⟩ :=
    ⟨hkeeps, rfl, q, hcode, hstop⟩
  exact ⟨(hsim.emits_iff hmatch events).trans (Machine.emits_of_stepsTo hstart events).symm,
    (hsim.halts_iff hmatch events).trans (Machine.halts_of_stepsTo hstart events).symm⟩

/-- `goto l; l: g();` -/
def usedLabel : Statement :=
  .compound (.cons (.goto 0) (.cons (.label 0 true (.expression 0)) .nil)) none

theorem usedLabel_events :
    ((usedLabel.machine fun _ _ => 0).Emits ([], .run usedLabel .stop) [⟨0, 0⟩] ↔
      ((linearizeFn usedLabel).graph fun _ _ => 0).Emits graphStart [⟨0, 0⟩]) ∧
    ((usedLabel.machine fun _ _ => 0).Halts ([], .run usedLabel .stop) [⟨0, 0⟩] ↔
      ((linearizeFn usedLabel).graph fun _ _ => 0).Halts graphStart [⟨0, 0⟩]) := by
  refine linearizeFn_events (fun _ _ => 0) usedLabel ⟨by decide, ?_⟩ ?_ [⟨0, 0⟩]
  · simp [usedLabel, Statement.Scoped, Statements.Scoped, Statement.labels, Statements.labels]
  · rintro (_ | _ | _ | _ | _ | _ | n)
    · trivial
    · trivial
    · exact List.mem_singleton_self 0
    · trivial
    · trivial
    · trivial
    · rw [show n + 1 + 1 + 1 + 1 + 1 + 1 = n + 6 from rfl, Function.iterate_add_apply,
        Machine.iterate_of_halted rfl]
      trivial

/-- `l: g();` without a jump to `l`. -/
def unusedLabel : Statement := .label 0 false (.expression 0)

/-- The statement after a label that nothing jumps to is dropped. -/
theorem unusedLabel_events : unusedLabel.WellFormed ∧
    ¬ ∀ events, ((unusedLabel.machine fun _ _ => 0).Emits ([], .run unusedLabel .stop) events ↔
      ((linearizeFn unusedLabel).graph fun _ _ => 0).Emits graphStart events) := by
  refine ⟨⟨by decide, trivial⟩, fun hsame => ?_⟩
  obtain ⟨n, hn⟩ := (hsame [⟨0, 0⟩]).1 ⟨2, List.prefix_rfl⟩
  have hend : ((linearizeFn unusedLabel).graph fun _ _ => 0).step
      (((linearizeFn unusedLabel).graph fun _ _ => 0).advance^[1] graphStart) = none := rfl
  have hempty : ((linearizeFn unusedLabel).graph fun _ _ => 0).history
      (((linearizeFn unusedLabel).graph fun _ _ => 0).advance^[n] graphStart) = [] := by
    cases n with
    | zero => rfl
    | succ n =>
      rw [Machine.iterate_eq_of_le hend (Nat.succ_le_succ (Nat.zero_le n))]
      rfl
  rw [hempty, List.prefix_nil] at hn
  cases hn

end Sparse
