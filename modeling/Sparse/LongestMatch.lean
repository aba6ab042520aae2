import Mathlib.Data.List.Basic
import Mathlib.Data.Nat.Find

/-!
# Longest match

Texts over a set of lexemes, each with its own text. At the front of a text stands the
lexeme with the longest text that fits there; cut off one after the other these lexemes
split the whole text.
-/

namespace LongestMatch

/-- The lexemes: no text is empty, and some lexeme stands at the front of every text. -/
structure Grammar (α ι : Type*) where
  text : ι → List α
  Valid : ι → Prop
  ne_nil : ∀ x, Valid x → text x ≠ []
  starts : ∀ l, l ≠ [] → ∃ x, Valid x ∧ text x <+: l

variable {α ι : Type*} (G : Grammar α ι)

namespace Grammar

/-- `x` is a lexeme at the front of `l`, and no lexeme there is longer. -/
structure Longest (l : List α) (x : ι) : Prop where
  valid : G.Valid x
  isPrefix : G.text x <+: l
  longest : ∀ y, G.Valid y → G.text y <+: l → (G.text y).length ≤ (G.text x).length

/-- The text is cut into longest matches. -/
inductive Splits : List α → List ι → Prop
  | nil : Splits [] []
  | cons {x : ι} {rest : List α} {xs : List ι} (hx : G.Longest (G.text x ++ rest) x) (hrest : Splits rest xs) :
      Splits (G.text x ++ rest) (x :: xs)

variable {G} {l : List α} {x y : ι} {xs : List ι}

theorem exists_longest (h : l ≠ []) : ∃ x, G.Longest l x := by
  classical
  obtain ⟨x, hx, hpre⟩ := G.starts l h
  let P (n : ℕ) : Prop := ∃ y, G.Valid y ∧ G.text y <+: l ∧ (G.text y).length = n
  obtain ⟨y, hy, hyl, hlen⟩ : P (Nat.findGreatest P l.length) :=
    Nat.findGreatest_spec hpre.length_le ⟨x, hx, hpre, rfl⟩
  refine ⟨y, hy, hyl, fun z hz hzl => ?_⟩
  rw [hlen]
  exact Nat.le_findGreatest hzl.length_le ⟨z, hz, hzl, rfl⟩

/-- Every text is cut into longest matches. -/
theorem exists_splits (l : List α) : ∃ xs, G.Splits l xs := by
  induction hn : l.length using Nat.strongRecOn generalizing l with
  | ind n ih =>
    cases l with
    | nil => exact ⟨[], .nil⟩
    | cons a l =>
      obtain ⟨x, hx⟩ := G.exists_longest (List.cons_ne_nil a l)
      obtain ⟨rest, hrest⟩ := hx.isPrefix
      have hpos := List.length_pos_of_ne_nil (G.ne_nil x hx.valid)
      have hlen : rest.length < n := by
        rw [← hn, ← hrest, List.length_append]
        omega
      obtain ⟨xs, hxs⟩ := ih rest.length hlen rest rfl
      rw [← hrest] at hx ⊢
      exact ⟨x :: xs, .cons hx hxs⟩

theorem Splits.flatMap_text (h : G.Splits l xs) : xs.flatMap G.text = l := by
  induction h with
  | nil => rfl
  | cons hx hrest ih => rw [List.flatMap_cons, ih]

end Grammar

end LongestMatch
