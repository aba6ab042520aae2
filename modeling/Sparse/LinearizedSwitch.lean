import Sparse.LinearizedCode
import Mathlib.Data.List.Pairwise

/-!
# The jumps of a switch

The sorted jumps of a switch choose the case that C chooses, if the values of the cases fit in
an `int`.
-/

namespace Sparse

open Ir (selectJump)

/-- The jump of a default. -/
def Multijmp.isDefault (jmp : Multijmp) : Bool := jmp.stop.slt jmp.begin

/-- The value lies between the bounds of a jump. -/
def Multijmp.holds (jmp : Multijmp) (value : BitVec 64) : Bool :=
  (jmp.begin.signExtend 64).sle value && value.sle (jmp.stop.signExtend 64)

theorem selectJump_eq_find (value : BitVec 64) (jmps : List Multijmp) :
    selectJump value jmps = jmps.find? fun jmp => jmp.isDefault || jmp.holds value := by
  induction jmps with
  | nil => rfl
  | cons jmp jmps ih =>
    rw [selectJump, ih, List.find?_cons]
    cases hd : jmp.stop.slt jmp.begin
    · cases hh : jmp.holds value <;>
        simp_all [Multijmp.isDefault, Multijmp.holds]
    · simp [Multijmp.isDefault, hd]

theorem multijmpLe_total (a b : Multijmp) :
    (Entrypoint.multijmpLe a b || Entrypoint.multijmpLe b a) = true := by
  unfold Entrypoint.multijmpLe
  simp only [BitVec.slt_eq_decide, BitVec.sle_eq_decide, ← BitVec.toInt_inj]
  grind

theorem multijmpLe_trans (a b c : Multijmp) (hab : Entrypoint.multijmpLe a b = true)
    (hbc : Entrypoint.multijmpLe b c = true) : Entrypoint.multijmpLe a c = true := by
  unfold Entrypoint.multijmpLe at *
  simp only [BitVec.slt_eq_decide, BitVec.sle_eq_decide, ← BitVec.toInt_inj] at *
  grind

/-- The default comes last. -/
theorem isDefault_of_multijmpLe {a b : Multijmp} (h : Entrypoint.multijmpLe a b = true)
    (ha : a.isDefault = true) : b.isDefault = true := by
  unfold Multijmp.isDefault at *
  rw [Entrypoint.multijmpLe, if_pos ha] at h
  exact h

section

variable {c : SwitchCase} {bb : BlockId} {jmp : Multijmp}

theorem target_of_jump (h : c.jump bb = some jmp) : jmp.target = bb := by
  unfold SwitchCase.jump at h
  obtain ⟨low, -, rfl⟩ := Option.map_eq_some_iff.1 h
  dsimp only
  split <;> rfl

theorem not_isDefault_of_jump (h : c.jump bb = some jmp) : jmp.isDefault = false := by
  unfold SwitchCase.jump at h
  obtain ⟨low, -, rfl⟩ := Option.map_eq_some_iff.1 h
  unfold Multijmp.isDefault
  dsimp only
  split
  · simp only [BitVec.slt_eq_decide, decide_eq_true_eq, decide_eq_false_iff_not] at *
    omega
  · simp_all

/-- A jump covers the values of its case when these fit. -/
theorem holds_of_jump (hc : c.fits) (h : c.jump bb = some jmp) (value : BitVec 64) :
    jmp.holds value = c.holds value := by
  unfold SwitchCase.jump at h
  obtain ⟨low, hlow, rfl⟩ := Option.map_eq_some_iff.1 h
  obtain ⟨hbegin, hstop, hle⟩ := hc low hlow
  have hordered : ((c.caseTo.getD low).setWidth 32).slt (low.setWidth 32) = false := by
    have hb := congrArg BitVec.toInt hbegin
    have hs := congrArg BitVec.toInt hstop
    rw [BitVec.toInt_signExtend_of_le (by omega)] at hb hs
    simp only [BitVec.slt_eq_decide, BitVec.sle_eq_decide, decide_eq_true_eq,
      decide_eq_false_iff_not] at *
    omega
  simp [Multijmp.holds, SwitchCase.holds, hlow, hordered, hbegin, hstop]

theorem exists_jump (value : BitVec 64) (h : c.holds value = true) (bb : BlockId) :
    ∃ jmp, c.jump bb = some jmp := by
  unfold SwitchCase.holds at h
  unfold SwitchCase.jump
  cases he : c.caseExpression with
  | none => simp [he] at h
  | some low => exact ⟨_, rfl⟩

end

variable {cases : List SwitchCase} {ep : Entrypoint} {value : BitVec 64}

theorem mem_jumps {jmp : Multijmp} (h : jmp ∈ ep.jumps cases) :
    ∃ c ∈ cases, c.jump ((ep.bbTarget c.label).getD 0) = some jmp :=
  List.mem_filterMap.1 h

/-- Only one case holds a value. -/
theorem eq_of_holds (hd : disjointCases cases) {c c' : SwitchCase} (hc : c ∈ cases)
    (hc' : c' ∈ cases) (h : c.holds value = true) (h' : c'.holds value = true) : c = c' := by
  by_contra hne
  have : Std.Symm fun c c' : SwitchCase => ∀ v, ¬ (c.holds v = true ∧ c'.holds v = true) :=
    ⟨fun _ _ hab v hv => hab v hv.symm⟩
  exact List.Pairwise.forall hd hc hc' hne value ⟨h, h'⟩

/-- The sorted jumps lead a value where C does. -/
theorem selectJump_sorted (ep : Entrypoint) (value : BitVec 64) (hd : disjointCases cases) (hfits : ∀ c ∈ cases, c.fits)
    (switchEnd : BlockId) : ∃ jmp,
      selectJump value ((ep.jumps cases ++
        [(⟨ep.defaultBlock cases switchEnd, 1, 0⟩ : Multijmp)]).mergeSort Entrypoint.multijmpLe) =
          some jmp ∧
      jmp.target = match selectCase cases value with
        | some c => (ep.bbTarget c.label).getD 0
        | none => switchEnd := by
  set default : Multijmp := ⟨ep.defaultBlock cases switchEnd, 1, 0⟩ with hdefault
  set jmps := (ep.jumps cases ++ [default]).mergeSort Entrypoint.multijmpLe with hjmps
  have hsorted : jmps.Pairwise fun a b => Entrypoint.multijmpLe a b = true :=
    List.pairwise_mergeSort multijmpLe_trans multijmpLe_total _
  have hmem (jmp) : jmp ∈ jmps ↔ jmp ∈ ep.jumps cases ∨ jmp = default := by
    rw [hjmps, List.mem_mergeSort, List.mem_append, List.mem_singleton]
  have hlast : default.isDefault = true := by rw [hdefault]; rfl
  have hsome : (selectJump value jmps).isSome := by
    rw [selectJump_eq_find, List.find?_isSome]
    exact ⟨default, (hmem default).2 (Or.inr rfl), by simp [hlast]⟩
  obtain ⟨jmp, hjmp⟩ := Option.isSome_iff_exists.1 hsome
  refine ⟨jmp, hjmp, ?_⟩
  rw [selectJump_eq_find, List.find?_eq_some_iff_append] at hjmp
  obtain ⟨hp, before, after, heq, hbefore⟩ := hjmp
  have hin : jmp ∈ jmps := by simp [heq]
  cases hfind : cases.find? (·.holds value) with
  | none =>
    -- No jump holds the value, so the first that is taken is the default.
    have hjd : jmp = default := by
      refine ((hmem jmp).1 hin).resolve_left fun hj => ?_
      obtain ⟨c, hc, hcj⟩ := mem_jumps hj
      rw [not_isDefault_of_jump hcj, holds_of_jump (hfits c hc) hcj, Bool.false_or] at hp
      exact List.find?_eq_none.1 hfind c hc hp
    rw [hjd, hdefault, selectCase, hfind, Option.none_or, Entrypoint.defaultBlock]
    cases cases.reverse.find? (·.caseExpression.isNone) <;> rfl
  | some c =>
    have hc := List.mem_of_find?_eq_some hfind
    have hholds : c.holds value = true := by simpa using List.find?_some hfind
    obtain ⟨j, hj⟩ := exists_jump value hholds ((ep.bbTarget c.label).getD 0)
    have hjin : j ∈ jmps := (hmem j).2 (Or.inl (List.mem_filterMap.2 ⟨c, hc, hj⟩))
    -- The jump of the case is not the default, so the default is not found before it.
    have hnd : jmp.isDefault = false := by
      by_contra hjd
      rw [Bool.not_eq_false] at hjd
      have hjb : j ∈ before ∨ j ∈ after := by
        rw [heq, List.mem_append, List.mem_cons] at hjin
        rcases hjin with h | rfl | h
        · exact Or.inl h
        · rw [not_isDefault_of_jump hj] at hjd
          exact absurd hjd Bool.false_ne_true
        · exact Or.inr h
      rcases hjb with h | h
      · have := hbefore j h
        rw [holds_of_jump (hfits c hc) hj, hholds] at this
        simp at this
      · rw [heq, List.pairwise_append, List.pairwise_cons] at hsorted
        have := isDefault_of_multijmpLe (hsorted.2.1.1 j h) hjd
        rw [not_isDefault_of_jump hj] at this
        exact absurd this Bool.false_ne_true
    rw [hnd, Bool.false_or] at hp
    rcases (hmem jmp).1 hin with hj' | rfl
    · obtain ⟨c', hc', hcj⟩ := mem_jumps hj'
      rw [holds_of_jump (hfits c' hc') hcj] at hp
      obtain rfl := eq_of_holds hd hc hc' hholds hp
      rw [selectCase, hfind, Option.some_or, target_of_jump hcj]
    · rw [hlast] at hnd
      exact absurd hnd (by decide)

end Sparse
