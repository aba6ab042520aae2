import Mathlib.Algebra.Order.Group.Nat
import Mathlib.Data.List.Basic
import Mathlib.Logic.Function.Basic

/-!
# Lists in arrays that end at the first empty slot

An array holds a list when its slots are the entries of the list and all the slots
behind are empty. Entries are read up to the first empty slot, and one is inserted by
moving those behind it up.
-/

namespace TerminatedArrays

variable {α : Type}

/-- The entries from a slot up to the first empty one, at most `fuel` of them. -/
def scan (slots : ℕ → Option α) : ℕ → ℕ → List α
  | 0, _ => []
  | fuel + 1, p =>
    match slots p with
    | none => []
    | some a => a :: scan slots fuel (p + 1)

/-- The entry goes to the slot and each entry from there on one slot up, as far as the
first empty one. -/
def insertAt : ℕ → (ℕ → Option α) → ℕ → α → ℕ → Option α
  | 0, slots, _, _ => slots
  | fuel + 1, slots, p, a =>
    match slots p with
    | none => Function.update slots p (some a)
    | some b => insertAt fuel (Function.update slots p (some a)) (p + 1) b

/-- The slots are the entries of the list, and empty behind it. -/
def Holds (slots : ℕ → Option α) (xs : List α) : Prop :=
  ∀ i, slots i = xs[i]?

namespace Holds

variable {slots : ℕ → Option α} {xs ys zs : List α} {a : α} {p fuel : ℕ}

theorem scan_eq (h : Holds slots xs) (hf : xs.length ≤ p + fuel) :
    scan slots fuel p = xs.drop p := by
  induction fuel generalizing p with
  | zero => exact (List.drop_eq_nil_of_le hf).symm
  | succ fuel ih =>
    unfold scan
    rw [h p]
    rcases Nat.lt_or_ge p xs.length with hp | hp
    · rw [List.getElem?_eq_getElem hp, List.drop_eq_getElem_cons hp]
      exact congrArg _ (ih (by omega))
    · rw [List.getElem?_eq_none hp, List.drop_eq_nil_of_le hp]

theorem update_append (h : Holds slots (ys ++ a :: zs)) (b : α) :
    Holds (Function.update slots ys.length (some b)) (ys ++ b :: zs) := by
  intro i
  rcases Nat.lt_trichotomy i ys.length with hi | rfl | hi
  · rw [Function.update_of_ne hi.ne, h i, List.getElem?_append_left hi,
      List.getElem?_append_left hi]
  · rw [Function.update_self, List.getElem?_append_right (Nat.le_refl _), Nat.sub_self]
    rfl
  · rw [Function.update_of_ne hi.ne', h i, List.getElem?_append_right hi.le,
      List.getElem?_append_right hi.le]
    obtain ⟨k, hk⟩ := Nat.exists_eq_add_of_lt hi
    have hsub : i - ys.length = k + 1 := by omega
    rw [hsub]
    rfl

theorem update_end (h : Holds slots ys) (b : α) :
    Holds (Function.update slots ys.length (some b)) (ys ++ [b]) := by
  intro i
  rcases Nat.lt_trichotomy i ys.length with hi | rfl | hi
  · rw [Function.update_of_ne hi.ne, h i, List.getElem?_append_left hi]
  · rw [Function.update_self, List.getElem?_append_right (Nat.le_refl _), Nat.sub_self]
    rfl
  · rw [Function.update_of_ne hi.ne', h i, List.getElem?_eq_none hi.le, List.getElem?_eq_none]
    rw [List.length_append]
    exact hi

theorem insertAt_append (h : Holds slots (ys ++ zs)) (hf : zs.length < fuel) :
    Holds (insertAt fuel slots ys.length a) (ys ++ a :: zs) := by
  induction zs generalizing slots ys a fuel with
  | nil =>
    obtain ⟨fuel, rfl⟩ := Nat.exists_eq_add_of_lt hf
    rw [List.append_nil] at h
    have hfree : slots ys.length = none := (h _).trans (List.getElem?_eq_none (Nat.le_refl _))
    unfold insertAt
    rw [hfree]
    exact h.update_end a
  | cons b zs ih =>
    cases fuel with
    | zero => exact absurd hf (Nat.not_lt_zero _)
    | succ fuel =>
      have hslot : slots ys.length = some b := by
        rw [h ys.length, List.getElem?_append_right (Nat.le_refl _), Nat.sub_self]
        rfl
      unfold insertAt
      rw [hslot]
      have hupdated := h.update_append a
      have hsplit : ys ++ a :: zs = (ys ++ [a]) ++ zs := List.append_cons ys a zs
      rw [hsplit] at hupdated
      have hrest := ih hupdated (Nat.lt_of_succ_lt_succ hf) (a := b)
      rw [List.length_append, ← List.append_cons] at hrest
      exact hrest

/-- Emptying a slot ends the list there. -/
theorem scan_cut {q : ℕ} (h : Holds slots xs) (hp : p ≤ q) (hf : q ≤ p + fuel) :
    scan (Function.update slots q none) fuel p = (xs.take q).drop p := by
  induction fuel generalizing p with
  | zero =>
    refine (List.drop_eq_nil_of_le ?_).symm
    rw [List.length_take]
    omega
  | succ fuel ih =>
    unfold scan
    rcases Nat.eq_or_lt_of_le hp with rfl | hlt
    · rw [Function.update_self, List.drop_eq_nil_of_le]
      rw [List.length_take]
      omega
    · rw [Function.update_of_ne hlt.ne, h p]
      rcases Nat.lt_or_ge p xs.length with hpx | hpx
      · have hdrop : (xs.take q).drop p = xs[p] :: (xs.take q).drop (p + 1) := by
          rw [List.drop_eq_getElem_cons (by rw [List.length_take]; omega), List.getElem_take]
        rw [List.getElem?_eq_getElem hpx, hdrop]
        exact congrArg _ (ih hlt (by omega))
      · rw [List.getElem?_eq_none hpx, List.drop_eq_nil_of_le]
        rw [List.length_take]
        omega

end Holds

end TerminatedArrays
