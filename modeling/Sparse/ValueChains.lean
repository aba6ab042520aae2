import Mathlib.Data.BitVec

/-!
# Chains of links with amounts

Each element may have a link to another one, with an amount. What a chain of links adds up to,
where it stops, and that it does not come back to an element if it stops.
-/

namespace ValueChains

variable {α M : Type*} [AddMonoid M]

/-- The links from `p` lead to `q` and add up to `total`. -/
inductive Leads (next : α → Option (α × M)) : α → M → α → Prop
  | refl (p : α) : Leads next p 0 p
  | step {p q r : α} {amount total : M} :
      next p = some (q, amount) → Leads next q total r → Leads next p (amount + total) r

/-- The links from `p` come to an end. -/
def Stops (next : α → Option (α × M)) (p : α) : Prop :=
  ∃ total q, Leads next p total q ∧ next q = none

variable {next : α → Option (α × M)} {p q r b : α} {amount total more : M}

namespace Leads

theorem single (h : next p = some (q, amount)) : Leads next p amount q := by
  simpa using step h (refl q)

theorem trans (h : Leads next p total q) (h' : Leads next q more r) : Leads next p (total + more) r := by
  induction h with
  | refl p => simpa using h'
  | step hn _ ih =>
    rw [add_assoc]
    exact step hn (ih h')

theorem tail (h : Leads next p total q) (hn : next q = some (r, amount)) :
    Leads next p (total + amount) r := h.trans (single hn)

/-- What a chain that stops has on its way leads to its end. -/
theorem rest (h : Leads next p total q) (hb : Leads next p more b) (hstop : next b = none) :
    ∃ left, Leads next q left b ∧ more = total + left := by
  induction h generalizing more with
  | refl p => exact ⟨more, hb, (zero_add more).symm⟩
  | step hn _ ih =>
    cases hb with
    | refl =>
      rw [hstop] at hn
      cases hn
    | step hn' hb =>
      obtain ⟨rfl, rfl⟩ := Prod.mk.inj (Option.some.inj (hn.symm.trans hn'))
      obtain ⟨left, hleft, rfl⟩ := ih hb
      exact ⟨left, hleft, (add_assoc ..).symm⟩

/-- A chain stops at one place, with one sum. -/
theorem stop_unique (h : Leads next p total q) (hq : next q = none) (h' : Leads next p more r)
    (hr : next r = none) : q = r ∧ total = more := by
  obtain ⟨left, hleft, rfl⟩ := h.rest h' hr
  cases hleft with
  | refl => exact ⟨rfl, (add_zero total).symm⟩
  | step hn _ =>
    rw [hq] at hn
    cases hn

/-- A chain that stops does not come back. -/
theorem not_back (h : Leads next p total b) (hstop : next b = none) (hn : next p = some (q, amount)) :
    ¬ Leads next q more p := by
  induction h generalizing q amount more with
  | refl p =>
    rw [hstop] at hn
    cases hn
  | @step p q' r amount' total' hn' hrest ih =>
    intro hback
    obtain ⟨rfl, rfl⟩ := Prod.mk.inj (Option.some.inj (hn.symm.trans hn'))
    cases hback with
    | refl => exact ih hstop hn (refl _)
    | step hn₂ hback => exact ih hstop hn₂ (hback.tail hn)

end Leads

end ValueChains
