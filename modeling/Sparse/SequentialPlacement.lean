import Mathlib.Algebra.Order.Group.Nat
import Mathlib.Data.List.Basic

/-!
# Items placed one after the other

Items are placed from a running position: each starts at or after it and moves it on
by a rule of its own. What every item keeps clear for those after it, it keeps clear
for all of them, up to the last position.
-/

namespace SequentialPlacement

/-- The least multiple of `a` that is not below `p`. -/
def roundUp (p a : ℕ) : ℕ :=
  (p + (a - 1)) / a * a

section Rounding

variable {p q a : ℕ}

theorem dvd_roundUp : a ∣ roundUp p a :=
  Nat.dvd_mul_left _ _

theorem le_roundUp (ha : 0 < a) : p ≤ roundUp p a := by
  have hdiv := Nat.div_add_mod (p + (a - 1)) a
  have hmod := Nat.mod_lt (p + (a - 1)) ha
  rw [roundUp, Nat.mul_comm]
  omega

theorem roundUp_lt (ha : 0 < a) : roundUp p a < p + a := by
  have hle := Nat.div_mul_le_self (p + (a - 1)) a
  rw [roundUp]
  omega

theorem roundUp_le (hq : a ∣ q) (h : p ≤ q) : roundUp p a ≤ q := by
  rcases Nat.eq_zero_or_pos a with rfl | ha
  · rw [roundUp, Nat.mul_zero]
    exact Nat.zero_le _
  · obtain ⟨k, rfl⟩ := hq
    have hlt : p + (a - 1) < (k + 1) * a := by
      rw [Nat.add_mul, Nat.mul_comm k a]
      omega
    have hdiv : (p + (a - 1)) / a ≤ k := Nat.le_of_lt_succ ((Nat.div_lt_iff_lt_mul ha).2 hlt)
    rw [roundUp, Nat.mul_comm a k]
    exact Nat.mul_le_mul_right a hdiv

theorem roundUp_of_dvd (ha : 0 < a) (h : a ∣ p) : roundUp p a = p :=
  Nat.le_antisymm (roundUp_le h (Nat.le_refl p)) (le_roundUp ha)

end Rounding

/-- Where an item starts from a position, and the position after it. -/
structure Rule (ι : Type*) where
  start : ℕ → ι → ℕ
  next : ℕ → ι → ℕ

namespace Rule

variable {ι : Type*} (r : Rule ι)

/-- The items with their starts. -/
def places : ℕ → List ι → List (ι × ℕ)
  | _, [] => []
  | p, x :: xs => (x, r.start p x) :: places (r.next p x) xs

/-- The position after the last item. -/
def final : ℕ → List ι → ℕ
  | p, [] => p
  | p, x :: xs => final (r.next p x) xs

/-- The rule only moves on. -/
def Advances (x : ι) : Prop :=
  ∀ p, p ≤ r.start p x ∧ r.start p x ≤ r.next p x

variable {r} {p : ℕ} {xs : List ι}

theorem map_fst_places (p : ℕ) (xs : List ι) : (r.places p xs).map Prod.fst = xs := by
  induction xs generalizing p with
  | nil => rfl
  | cons x xs ih => rw [places, List.map_cons, ih]

theorem le_final (h : ∀ x ∈ xs, r.Advances x) : p ≤ r.final p xs := by
  induction xs generalizing p with
  | nil => exact Nat.le_refl p
  | cons x xs ih =>
    have hx := h x List.mem_cons_self p
    exact Nat.le_trans (Nat.le_trans hx.1 hx.2) (ih fun y hy => h y (List.mem_cons_of_mem _ hy))

theorem le_of_mem_places (h : ∀ x ∈ xs, r.Advances x) {y : ι × ℕ} (hy : y ∈ r.places p xs) : p ≤ y.2 := by
  induction xs generalizing p with
  | nil => exact absurd hy List.not_mem_nil
  | cons x xs ih =>
    have hx := h x List.mem_cons_self p
    rcases List.mem_cons.1 hy with rfl | hy
    · exact hx.1
    · exact Nat.le_trans (Nat.le_trans hx.1 hx.2) (ih (fun z hz => h z (List.mem_cons_of_mem _ hz)) hy)

/-- What holds of every start holds of all places. -/
theorem of_mem_places {P : ι → ℕ → Prop} (h : ∀ x ∈ xs, ∀ p, P x (r.start p x)) {y : ι × ℕ}
    (hy : y ∈ r.places p xs) : P y.1 y.2 := by
  induction xs generalizing p with
  | nil => exact absurd hy List.not_mem_nil
  | cons x xs ih =>
    rcases List.mem_cons.1 hy with rfl | hy
    · exact h x List.mem_cons_self p
    · exact ih (fun z hz => h z (List.mem_cons_of_mem _ hz)) hy

variable (bound : ι → ℕ → ℕ)

/-- An item is clear of all later ones. -/
theorem places_pairwise (h : ∀ x ∈ xs, r.Advances x)
    (hbound : ∀ x ∈ xs, ∀ p, bound x (r.start p x) ≤ r.next p x) :
    (r.places p xs).Pairwise fun y z => bound y.1 y.2 ≤ z.2 := by
  induction xs generalizing p with
  | nil => exact List.Pairwise.nil
  | cons x xs ih =>
    have h' : ∀ y ∈ xs, r.Advances y := fun y hy => h y (List.mem_cons_of_mem _ hy)
    refine List.pairwise_cons.2 ⟨fun z hz => ?_, ih h' fun y hy => hbound y (List.mem_cons_of_mem _ hy)⟩
    exact Nat.le_trans (hbound x List.mem_cons_self p) (le_of_mem_places h' hz)

theorem bound_le_final (h : ∀ x ∈ xs, r.Advances x)
    (hbound : ∀ x ∈ xs, ∀ p, bound x (r.start p x) ≤ r.next p x) {y : ι × ℕ} (hy : y ∈ r.places p xs) :
    bound y.1 y.2 ≤ r.final p xs := by
  induction xs generalizing p with
  | nil => exact absurd hy List.not_mem_nil
  | cons x xs ih =>
    have h' : ∀ y ∈ xs, r.Advances y := fun y hy => h y (List.mem_cons_of_mem _ hy)
    rcases List.mem_cons.1 hy with rfl | hy
    · exact Nat.le_trans (hbound x List.mem_cons_self p) (le_final h')
    · exact ih h' (fun z hz => hbound z (List.mem_cons_of_mem _ hz)) hy

end Rule

end SequentialPlacement
