import Mathlib.Data.Prod.Basic

/-!
# Iterating rounds until nothing changes

A round works through a state and carries a flag that is raised when it changes
anything. When every change lowers a measure, repeating the round until the flag stays
down ends, and ends in a state that the round leaves alone.
-/

namespace StableIteration

variable {S : Type*}

/-- Repeat a round until it leaves its flag down. The fuel bounds the number of rounds. -/
def iterate (round : S × Bool → S × Bool) : ℕ → S → Option S
  | 0, _ => none
  | fuel + 1, s =>
    match round (s, false) with
    | (s', true) => iterate round fuel s'
    | (s', false) => some s'

/-- `y` comes from `x` by changes that raise the flag and lower the measure. -/
def Advance (inv : S → Prop) (measure : S → ℕ) (x y : S × Bool) : Prop :=
  inv x.1 → inv y.1 ∧ (y = x ∨ y.2 = true ∧ measure y.1 < measure x.1)

namespace Advance

variable {inv : S → Prop} {measure : S → ℕ} {x y z : S × Bool}

theorem refl (x : S × Bool) : Advance inv measure x x := fun h => ⟨h, Or.inl rfl⟩

theorem trans (hxy : Advance inv measure x y) (hyz : Advance inv measure y z) :
    Advance inv measure x z := by
  intro hx
  obtain ⟨hy, hcase⟩ := hxy hx
  obtain ⟨hz, hcase'⟩ := hyz hy
  refine ⟨hz, ?_⟩
  rcases hcase' with rfl | ⟨hflag, hlt⟩
  · exact hcase
  · rcases hcase with rfl | ⟨_, hlt'⟩
    · exact Or.inr ⟨hflag, hlt⟩
    · exact Or.inr ⟨hflag, Nat.lt_trans hlt hlt'⟩

/-- A flag that is down was never raised. -/
theorem eq_of_down (h : Advance inv measure x y) (hx : inv x.1) (hy : y.2 = false) : y = x := by
  rcases (h hx).2 with he | ⟨hflag, -⟩
  · exact he
  · simp [hy] at hflag

theorem foldl {A : Type*} {f : S × Bool → A → S × Bool} {as : List A}
    (hf : ∀ a ∈ as, ∀ x, Advance inv measure x (f x a)) (x : S × Bool) :
    Advance inv measure x (as.foldl f x) := by
  induction as generalizing x with
  | nil => exact refl x
  | cons a as ih =>
    exact (hf a List.mem_cons_self x).trans
      (ih (fun b hb => hf b (List.mem_cons_of_mem a hb)) (f x a))

/-- When a whole sequence of steps leaves the flag down, so does each of them. -/
theorem foldl_stable {A : Type*} {f : S × Bool → A → S × Bool} {as : List A}
    (hf : ∀ a ∈ as, ∀ x, Advance inv measure x (f x a)) (hx : inv x.1)
    (hstable : as.foldl f x = x) (hdown : x.2 = false) : ∀ a ∈ as, f x a = x := by
  induction as with
  | nil => simp
  | cons a as ih =>
    have hrest := foldl (fun b hb => hf b (List.mem_cons_of_mem a hb)) (f x a)
    have hfirst := hf a List.mem_cons_self x
    rw [List.foldl_cons] at hstable
    have ha : f x a = x := by
      refine hfirst.eq_of_down hx ?_
      rcases (hrest (hfirst hx).1).2 with he | ⟨hflag, -⟩
      · rw [← he, hstable, hdown]
      · rw [hstable, hdown] at hflag
        exact absurd hflag Bool.false_ne_true
    rw [ha] at hstable
    intro b hb
    rcases List.mem_cons.mp hb with rfl | hb
    · exact ha
    · exact ih (fun c hc => hf c (List.mem_cons_of_mem a hc)) hstable b hb

end Advance

/-- The iteration ends, keeps the invariant and ends in a state the round leaves alone. -/
theorem iterate_of_advance {inv : S → Prop} {measure : S → ℕ} {round : S × Bool → S × Bool}
    (hround : ∀ x, Advance inv measure x (round x)) {s : S} (hs : inv s) {fuel : ℕ}
    (hfuel : measure s < fuel) :
    ∃ s', iterate round fuel s = some s' ∧ inv s' ∧ round (s', false) = (s', false) := by
  induction fuel generalizing s with
  | zero => exact absurd hfuel (Nat.not_lt_zero _)
  | succ fuel ih =>
    obtain ⟨hinv, hcase⟩ := hround (s, false) hs
    rcases hr : round (s, false) with ⟨s', flag⟩
    rw [hr] at hinv hcase
    cases flag with
    | true =>
      rcases hcase with he | ⟨-, hlt⟩
      · simp at he
      · obtain ⟨t, h1, h2⟩ := ih hinv (Nat.lt_of_lt_of_le hlt (Nat.lt_succ_iff.mp hfuel))
        exact ⟨t, by simp only [iterate, hr, h1], h2⟩
    | false =>
      rcases hcase with he | ⟨hflag, -⟩
      · obtain rfl : s' = s := congrArg Prod.fst he
        exact ⟨s', by simp only [iterate, hr], hinv, hr⟩
      · simp at hflag

end StableIteration
