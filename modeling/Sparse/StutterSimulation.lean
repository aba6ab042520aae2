import Mathlib.Logic.Function.Iterate
import Mathlib.Data.List.Infix
import Mathlib.Logic.Relation

/-!
# Simulations that may stutter

Two deterministic machines record a history. A simulation matches each step of the first by
some steps of the second, or by none when a measure of the first goes down. The two machines
then record the same histories, and one of them ends if and only if the other does.
-/

namespace StutterSimulation

/-- A deterministic machine with a history. A state without a successor may be `done` or stuck. -/
structure Machine (S E : Type*) where
  step : S → Option S
  history : S → List E
  done : S → Prop
  grows : ∀ s s', step s = some s' → history s <+: history s'
  stops : ∀ s, done s → step s = none

namespace Machine

variable {S E : Type*} (m : Machine S E)

def StepsTo (s s' : S) : Prop := m.step s = some s'

/-- One step; a state without a successor stays. -/
def advance (s : S) : S := (m.step s).getD s

/-- The run from `s` records at least `h`. -/
def Emits (s : S) (h : List E) : Prop := ∃ n, h <+: m.history (m.advance^[n] s)

/-- The run from `s` ends properly, with exactly the history `h`. -/
def Halts (s : S) (h : List E) : Prop :=
  ∃ n, m.done (m.advance^[n] s) ∧ m.history (m.advance^[n] s) = h

variable {m} {s s' : S}

theorem advance_of_step (h : m.step s = some s') : m.advance s = s' := by simp [advance, h]

theorem advance_of_halted (h : m.step s = none) : m.advance s = s := by simp [advance, h]

theorem iterate_of_halted (h : m.step s = none) (n : ℕ) : m.advance^[n] s = s :=
  Function.iterate_fixed (advance_of_halted h) n

theorem history_advance (s : S) : m.history s <+: m.history (m.advance s) := by
  cases h : m.step s with
  | none => rw [advance_of_halted h]
  | some s' =>
    rw [advance_of_step h]
    exact m.grows s s' h

theorem history_iterate (n : ℕ) (s : S) : m.history s <+: m.history (m.advance^[n] s) := by
  induction n generalizing s with
  | zero => exact List.prefix_rfl
  | succ n ih =>
    rw [Function.iterate_succ_apply]
    exact (history_advance s).trans (ih _)

theorem history_mono {n k : ℕ} (h : n ≤ k) (s : S) :
    m.history (m.advance^[n] s) <+: m.history (m.advance^[k] s) := by
  obtain ⟨d, rfl⟩ := Nat.exists_eq_add_of_le h
  rw [Nat.add_comm, Function.iterate_add_apply]
  exact history_iterate d _

/-- A run that has ended by step `n` is in the same state at every later step. -/
theorem iterate_eq_of_le {n k : ℕ} (h : m.step (m.advance^[n] s) = none) (hnk : n ≤ k) :
    m.advance^[k] s = m.advance^[n] s := by
  obtain ⟨d, rfl⟩ := Nat.exists_eq_add_of_le hnk
  rw [Nat.add_comm, Function.iterate_add_apply]
  exact iterate_of_halted h d

theorem exists_iterate_of_steps (h : Relation.ReflTransGen m.StepsTo s s') :
    ∃ k, m.advance^[k] s = s' := by
  induction h with
  | refl => exact ⟨0, rfl⟩
  | tail _ hstep ih =>
    obtain ⟨k, rfl⟩ := ih
    exact ⟨k + 1, by rw [Function.iterate_succ_apply', advance_of_step hstep]⟩

theorem exists_iterate_of_progress (h : Relation.TransGen m.StepsTo s s') :
    m.step s ≠ none ∧ ∃ k, 0 < k ∧ m.advance^[k] s = s' := by
  obtain ⟨t, hst, htail⟩ := Relation.TransGen.head'_iff.1 h
  obtain ⟨k, rfl⟩ := exists_iterate_of_steps htail
  refine ⟨?_, k + 1, Nat.succ_pos k, ?_⟩
  · rw [show m.step s = some t from hst]
    exact Option.some_ne_none t
  · rw [Function.iterate_succ_apply, advance_of_step hst]

/-- The first step may be left out of a run. -/
theorem emits_of_stepsTo (h : m.StepsTo s s') (l : List E) : m.Emits s l ↔ m.Emits s' l := by
  constructor
  · rintro ⟨n, hn⟩
    cases n with
    | zero => exact ⟨0, hn.trans (m.grows s s' h)⟩
    | succ n =>
      rw [Function.iterate_succ_apply, advance_of_step h] at hn
      exact ⟨n, hn⟩
  · rintro ⟨n, hn⟩
    exact ⟨n + 1, by rwa [Function.iterate_succ_apply, advance_of_step h]⟩

theorem halts_of_stepsTo (h : m.StepsTo s s') (l : List E) : m.Halts s l ↔ m.Halts s' l := by
  constructor
  · rintro ⟨n, hd, hn⟩
    cases n with
    | zero => exact absurd (h.symm.trans (m.stops s hd)) (Option.some_ne_none s')
    | succ n =>
      rw [Function.iterate_succ_apply, advance_of_step h] at hd hn
      exact ⟨n, hd, hn⟩
  · rintro ⟨n, hd, hn⟩
    exact ⟨n + 1, by rwa [Function.iterate_succ_apply, advance_of_step h],
      by rwa [Function.iterate_succ_apply, advance_of_step h]⟩

end Machine

/-- `R` matches the states of the first machine to states of the second. -/
structure Simulation {C G E : Type*} (source : Machine C E) (target : Machine G E)
    (measure : C → ℕ) (R : C → G → Prop) : Prop where
  history : ∀ c g, R c g → source.history c = target.history g
  step : ∀ c g c', R c g → source.step c = some c' → ∃ g', R c' g' ∧
    (Relation.TransGen target.StepsTo g g' ∨
      Relation.ReflTransGen target.StepsTo g g' ∧ measure c' < measure c)
  halt : ∀ c g, R c g → source.step c = none → source.done c ∧
    ∃ g', Relation.ReflTransGen target.StepsTo g g' ∧ target.done g' ∧
      target.history g' = target.history g

namespace Simulation

variable {C G E : Type*} {source : Machine C E} {target : Machine G E} {measure : C → ℕ}
  {R : C → G → Prop} {c : C} {g : G}

/-- A step of the source is matched by a run of the target, which is empty only if the measure
goes down. -/
theorem matches_step (h : Simulation source target measure R) {c' : C} (hr : R c g)
    (hs : source.step c = some c') : ∃ k, R c' (target.advance^[k] g) ∧
      (target.step g ≠ none ∧ 0 < k ∨ measure c' < measure c) := by
  obtain ⟨g', hr', hprogress | ⟨hsteps, hlt⟩⟩ := h.step c g c' hr hs
  · obtain ⟨hne, k, hk, rfl⟩ := Machine.exists_iterate_of_progress hprogress
    exact ⟨k, hr', Or.inl ⟨hne, hk⟩⟩
  · obtain ⟨k, rfl⟩ := Machine.exists_iterate_of_steps hsteps
    exact ⟨k, hr', Or.inr hlt⟩

theorem matches_halt (h : Simulation source target measure R) (hr : R c g)
    (hs : source.step c = none) : source.done c ∧ ∃ k, target.done (target.advance^[k] g) ∧
      target.history (target.advance^[k] g) = target.history g := by
  obtain ⟨hd, g', hsteps, hdone, hhist⟩ := h.halt c g hr hs
  obtain ⟨k, rfl⟩ := Machine.exists_iterate_of_steps hsteps
  exact ⟨hd, k, hdone, hhist⟩

/-- Every state of the source's run is matched. -/
theorem reaches (h : Simulation source target measure R) (hr : R c g) (n : ℕ) :
    ∃ k, R (source.advance^[n] c) (target.advance^[k] g) := by
  induction n with
  | zero => exact ⟨0, hr⟩
  | succ n ih =>
    obtain ⟨k, hk⟩ := ih
    rw [Function.iterate_succ_apply']
    cases hs : source.step (source.advance^[n] c) with
    | none =>
      rw [Machine.advance_of_halted hs]
      exact ⟨k, hk⟩
    | some c' =>
      obtain ⟨j, hj, -⟩ := h.matches_step hk hs
      rw [Machine.advance_of_step hs]
      exact ⟨j + k, by rw [Function.iterate_add_apply]; exact hj⟩

/-- The source stops when the target has: it can only stutter for so long. -/
theorem halts_of_target_halted (h : Simulation source target measure R) (hr : R c g)
    (hg : target.step g = none) : ∃ n, source.step (source.advance^[n] c) = none := by
  induction hm : measure c using Nat.strong_induction_on generalizing c with
  | _ d ih =>
    cases hs : source.step c with
    | none => exact ⟨0, hs⟩
    | some c' =>
      obtain ⟨k, hk, ⟨hne, -⟩ | hlt⟩ := h.matches_step hr hs
      · exact absurd hg hne
      · rw [Machine.iterate_of_halted hg] at hk
        obtain ⟨n, hn⟩ := ih (measure c') (hm ▸ hlt) hk rfl
        refine ⟨n + 1, ?_⟩
        rw [Function.iterate_succ_apply, Machine.advance_of_step hs]
        exact hn

/-- The source stops, or its run goes on past any point of the target's run. -/
theorem catches_up (h : Simulation source target measure R) (hr : R c g) (N : ℕ) :
    (∃ n, source.step (source.advance^[n] c) = none) ∨
      ∃ n k, N ≤ k ∧ R (source.advance^[n] c) (target.advance^[k] g) := by
  induction N with
  | zero => exact Or.inr ⟨0, 0, Nat.le_refl 0, hr⟩
  | succ N ih =>
    obtain hstop | ⟨n, k, hk, hR⟩ := ih
    · exact Or.inl hstop
    · induction hm : measure (source.advance^[n] c) using Nat.strong_induction_on
        generalizing n k with
      | _ d ihd =>
        cases hs : source.step (source.advance^[n] c) with
        | none => exact Or.inl ⟨n, hs⟩
        | some c' =>
          have hnext : source.advance^[n + 1] c = c' := by
            rw [Function.iterate_succ_apply', Machine.advance_of_step hs]
          obtain ⟨j, hj, hprogress⟩ := h.matches_step hR hs
          rw [← hnext, ← Function.iterate_add_apply] at hj
          rcases hprogress with ⟨-, hpos⟩ | hlt
          · exact Or.inr ⟨n + 1, j + k, by omega, hj⟩
          · exact ihd _ (by rw [hnext, ← hm]; exact hlt) (n + 1) (j + k) (by omega) hj rfl

theorem emits_iff (h : Simulation source target measure R) (hr : R c g) (l : List E) :
    source.Emits c l ↔ target.Emits g l := by
  constructor
  · rintro ⟨n, hn⟩
    obtain ⟨k, hk⟩ := h.reaches hr n
    exact ⟨k, h.history _ _ hk ▸ hn⟩
  · rintro ⟨N, hN⟩
    obtain ⟨n, hn⟩ | ⟨n, k, hk, hR⟩ := h.catches_up hr N
    · -- The source has ended, and so does the target with the same history.
      obtain ⟨k, hR⟩ := h.reaches hr n
      obtain ⟨-, j, hdone, hhist⟩ := h.matches_halt hR hn
      rw [← Function.iterate_add_apply] at hdone hhist
      refine ⟨n, ?_⟩
      rw [h.history _ _ hR, ← hhist]
      rcases Nat.le_total N (j + k) with hle | hle
      · exact hN.trans (Machine.history_mono hle g)
      · rwa [Machine.iterate_eq_of_le (target.stops _ hdone) hle] at hN
    · refine ⟨n, ?_⟩
      rw [h.history _ _ hR]
      exact hN.trans (Machine.history_mono hk g)

theorem halts_iff (h : Simulation source target measure R) (hr : R c g) (l : List E) :
    source.Halts c l ↔ target.Halts g l := by
  have hstop : ∀ n, source.step (source.advance^[n] c) = none → ∃ k,
      source.done (source.advance^[n] c) ∧ target.done (target.advance^[k] g) ∧
        target.history (target.advance^[k] g) = source.history (source.advance^[n] c) := by
    intro n hn
    obtain ⟨k, hR⟩ := h.reaches hr n
    obtain ⟨hd, j, hdone, hhist⟩ := h.matches_halt hR hn
    rw [← Function.iterate_add_apply] at hdone hhist
    exact ⟨j + k, hd, hdone, hhist.trans (h.history _ _ hR).symm⟩
  constructor
  · rintro ⟨n, hd, rfl⟩
    obtain ⟨k, -, hdone, hhist⟩ := hstop n (source.stops _ hd)
    exact ⟨k, hdone, hhist⟩
  · rintro ⟨N, hd, rfl⟩
    have hN := target.stops _ hd
    have hsource : ∃ n, source.step (source.advance^[n] c) = none := by
      obtain hn | ⟨n, k, hk, hR⟩ := h.catches_up hr N
      · exact hn
      · rw [Machine.iterate_eq_of_le hN hk] at hR
        obtain ⟨m, hm⟩ := h.halts_of_target_halted hR hN
        exact ⟨m + n, by rw [Function.iterate_add_apply]; exact hm⟩
    obtain ⟨n, hn⟩ := hsource
    obtain ⟨k, hdn, hdone, hhist⟩ := hstop n hn
    refine ⟨n, hdn, ?_⟩
    rw [← hhist]
    rcases Nat.le_total N k with hle | hle
    · rw [Machine.iterate_eq_of_le hN hle]
    · rw [Machine.iterate_eq_of_le (target.stops _ hdone) hle]

end Simulation

end StutterSimulation
