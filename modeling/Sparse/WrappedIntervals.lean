import Mathlib

/-!
# Intervals of integers that are known modulo a number

A machine word holds the start of an interval of integers modulo `W`. Such intervals are compared by
their ends, which wrap as well. The integers stand in pages of `W`; what the comparison finds is
decided by the pages and by the intervals that leave their page.
-/

namespace WrappedIntervals

/-- As many integers as `length` says, from `start` on. -/
structure Interval where
  start : ℤ
  length : ℕ
  deriving DecidableEq, Repr

namespace Interval

def points (i : Interval) : Set ℤ :=
  Set.Ico i.start (i.start + i.length)

variable (W : ℤ)

/-- The interval comes to the end of the page that it starts in. -/
def Leaves (i : Interval) : Prop :=
  W ≤ i.start % W + i.length

/-- The wrapped end is not behind the other start. -/
def EndsBefore (i j : Interval) : Prop :=
  (i.start % W + i.length) % W ≤ j.start % W

/-- In the page each starts in front of the end of the other. -/
def Meets (i j : Interval) : Prop :=
  i.start % W < j.start % W + j.length ∧ j.start % W < i.start % W + i.length

/-- What the wrapped ends cannot confuse: an interval that comes to the end of its page shares nothing
with the other, and two that stay in their pages and meet there are not empty and have one page. -/
def Distinct (i j : Interval) : Prop :=
  (Leaves W i ∨ Leaves W j → Disjoint i.points j.points) ∧
    (¬ Leaves W i → ¬ Leaves W j → Meets W i j →
      i.start / W = j.start / W ∧ i.length ≠ 0 ∧ j.length ≠ 0)

variable {W} {i j : Interval}

theorem disjoint_points : Disjoint i.points j.points ↔
    i.length = 0 ∨ j.length = 0 ∨ i.start + i.length ≤ j.start ∨ j.start + j.length ≤ i.start := by
  rw [points, points, Set.Ico_disjoint_Ico]
  omega

/-- An interval in front of the end of its page wraps nowhere. -/
theorem endsBefore_of_not_leaves (hW : 0 < W) (hi : ¬ Leaves W i) :
    EndsBefore W i j ↔ i.start % W + i.length ≤ j.start % W := by
  have hpos := Int.emod_nonneg i.start hW.ne'
  rw [EndsBefore, Int.emod_eq_of_lt (by omega) (not_le.mp hi)]

/-- The end of an interval that leaves its page is at the start of the next one. -/
theorem endsBefore_of_leaves (hW : 0 < W) (hi : Leaves W i) (hlen : i.length ≤ W) :
    EndsBefore W i j ↔ i.start % W + i.length - W ≤ j.start % W := by
  have hlt := Int.emod_lt_of_pos i.start hW
  rw [EndsBefore, ← Int.sub_emod_right, Int.emod_eq_of_lt (by rw [Leaves] at hi; omega) (by omega)]

/-- The comparison of the wrapped ends. -/
theorem endsBefore_or_iff (hW : 0 < W) (hlen : i.length + j.length ≤ W) :
    EndsBefore W i j ∨ EndsBefore W j i ↔ Leaves W i ∨ Leaves W j ∨ ¬ Meets W i j := by
  have hilt := Int.emod_lt_of_pos i.start hW
  have hjlt := Int.emod_lt_of_pos j.start hW
  have hipos := Int.emod_nonneg i.start hW.ne'
  have hjpos := Int.emod_nonneg j.start hW.ne'
  by_cases hi : Leaves W i
  · have hends := endsBefore_of_leaves (j := j) hW hi (by omega)
    by_cases hj : Leaves W j
    · rw [hends, endsBefore_of_leaves hW hj (by omega)]
      simp only [hi, hj, true_or, iff_true]
      omega
    · rw [hends, endsBefore_of_not_leaves hW hj]
      simp only [hi, true_or, iff_true]
      omega
  · have hends := endsBefore_of_not_leaves (j := j) hW hi
    by_cases hj : Leaves W j
    · rw [hends, endsBefore_of_leaves hW hj (by omega)]
      simp only [hj, true_or, or_true, iff_true]
      omega
    · rw [hends, endsBefore_of_not_leaves hW hj, Meets]
      simp only [hi, hj, false_or]
      omega

/-- Two intervals of one page meet in it where they share a point. -/
theorem disjoint_iff_of_page (hpage : i.start / W = j.start / W) (hi : i.length ≠ 0)
    (hj : j.length ≠ 0) : Disjoint i.points j.points ↔ ¬ Meets W i j := by
  have hidiv := Int.emod_add_mul_ediv i.start W
  have hjdiv := Int.emod_add_mul_ediv j.start W
  rw [hpage] at hidiv
  generalize W * (j.start / W) = offset at hidiv hjdiv
  rw [disjoint_points, Meets]
  omega

/-- An interval that does not leave its page has its points there. -/
theorem div_eq_of_mem (hW : 0 < W) (hi : ¬ Leaves W i) {x : ℤ} (hx : x ∈ i.points) :
    x / W = i.start / W := by
  have hdiv := Int.emod_add_mul_ediv i.start W
  have hpos := Int.emod_nonneg i.start hW.ne'
  obtain ⟨hle, hlt⟩ := hx
  rw [Leaves, not_le] at hi
  have hx : x = (x - i.start + i.start % W) + W * (i.start / W) := by omega
  rw [hx, Int.add_mul_ediv_left _ _ hW.ne', Int.ediv_eq_zero_of_lt (by omega) (by omega), Int.zero_add]

/-- Intervals of different pages share nothing, unless one leaves its page. -/
theorem disjoint_of_page_ne (hW : 0 < W) (hi : ¬ Leaves W i) (hj : ¬ Leaves W j)
    (hpage : i.start / W ≠ j.start / W) : Disjoint i.points j.points :=
  Set.disjoint_left.mpr fun _ hxi hxj =>
    hpage ((div_eq_of_mem hW hi hxi).symm.trans (div_eq_of_mem hW hj hxj))

/-- The wrapped ends tell the truth about two intervals exactly if nothing confuses them. -/
theorem endsBefore_or_iff_disjoint_iff (hW : 0 < W) (hlen : i.length + j.length ≤ W) :
    (EndsBefore W i j ∨ EndsBefore W j i ↔ Disjoint i.points j.points) ↔ Distinct W i j := by
  rw [endsBefore_or_iff hW hlen, Distinct, ← or_assoc]
  by_cases hleave : Leaves W i ∨ Leaves W j
  · simp only [hleave, true_or, true_iff, forall_const]
    refine (and_iff_left (fun hi hj => ?_)).symm
    exact absurd hleave (not_or.mpr ⟨hi, hj⟩)
  · simp only [hleave, false_or, false_implies, true_and]
    rw [not_or] at hleave
    simp only [hleave, not_false_eq_true, forall_const]
    by_cases hpage : i.start / W = j.start / W
    · by_cases hempty : i.length = 0 ∨ j.length = 0
      · have hdisjoint : Disjoint i.points j.points := disjoint_points.mpr (by tauto)
        simp only [hdisjoint, iff_true]
        tauto
      · rw [not_or] at hempty
        rw [disjoint_iff_of_page hpage hempty.1 hempty.2]
        simp [hpage, hempty]
    · have hdisjoint := disjoint_of_page_ne hW hleave.1 hleave.2 hpage
      simp only [hdisjoint, iff_true, hpage, false_and, imp_false]

end Interval

end WrappedIntervals
