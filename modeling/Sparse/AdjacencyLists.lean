import Mathlib.Data.List.Count
import Mathlib.Logic.Function.Basic

/-!
# Graphs that store every edge twice

A directed multigraph that keeps, for each vertex, the list of its children and
the list of its parents. The two are consistent when an edge occurs equally often
in both. Each operation below edits both sides of the edges it touches and keeps
the graph consistent.
-/

namespace AdjacencyLists

/-- Parents and children of every vertex, with multiplicity. -/
structure Graph (V : Type*) where
  parents : V → List V
  children : V → List V

namespace Graph

variable {V : Type*} [DecidableEq V] (g : Graph V) (b p c old new : V)

/-- An edge is listed at its head as often as at its tail. -/
def Consistent (g : Graph V) : Prop :=
  ∀ p c, (g.parents c).count p = (g.children p).count c

/-- Let one edge from `b` to `old` lead to `new`. -/
def redirect : Graph V where
  parents x :=
    if x = new then g.parents x ++ [b] else if x = old then (g.parents x).erase b else g.parents x
  children x := if x = b then (g.children x).replace old new else g.children x

/-- Remove one edge from `p` to `c`. -/
def dropEdge : Graph V where
  parents x := if x = c then (g.parents x).erase p else g.parents x
  children x := if x = p then (g.children x).erase c else g.children x

/-- Remove every edge at `b`. -/
def isolate : Graph V where
  parents x := if x = b then [] else (g.parents x).filter (· ≠ b)
  children x := if x = b then [] else (g.children x).filter (· ≠ b)

/-- Let `p` take over the children of `b`, whose only parent it was. -/
def absorb : Graph V where
  parents x := if x = b then [] else (g.parents x).map (fun y => if y = b then p else y)
  children x := if x = b then [] else if x = p then g.children b else g.children x

variable {g b p c old new}

theorem Consistent.mem_iff (h : g.Consistent) : p ∈ g.parents c ↔ c ∈ g.children p := by
  rw [← List.count_pos_iff, ← List.count_pos_iff, h p c]

/-- Consistency does not see the order of the lists. -/
theorem Consistent.of_perm {g' : Graph V} (h : g.Consistent)
    (hp : ∀ x, (g'.parents x).Perm (g.parents x))
    (hc : ∀ x, (g'.children x).Perm (g.children x)) : g'.Consistent := by
  intro p c
  rw [(hp c).count_eq, (hc p).count_eq, h p c]

private theorem count_replace_of_mem {xs : List V} (h : old ∈ xs) (a : V) :
    (xs.replace old new).count a =
      xs.count a + (if a = new then 1 else 0) - if a = old then 1 else 0 := by
  rw [List.count_replace, if_pos (by simpa using h)]
  simp only [beq_iff_eq, eq_comm (a := a)]

private theorem count_erase_eq (xs : List V) (e a : V) :
    (xs.erase e).count a = xs.count a - if a = e then 1 else 0 := by
  rw [List.count_erase]
  simp only [beq_iff_eq, eq_comm (a := a)]

theorem Consistent.redirect (h : g.Consistent) (hne : old ≠ new) (hm : old ∈ g.children b) :
    (g.redirect b old new).Consistent := by
  intro p c
  have hpc := h p c
  simp only [Graph.redirect]
  by_cases hp : p = b
  · subst hp
    simp only [if_true, count_replace_of_mem hm, ← hpc]
    split_ifs with hn ho ho
    · exact absurd (ho.symm.trans hn) hne
    · simp [List.count_append]
    · simp
    · rfl
  · rw [if_neg hp, ← hpc]
    split_ifs with hn ho
    · simp [List.count_append, Ne.symm hp]
    · simp [hp]
    · rfl

theorem Consistent.dropEdge (h : g.Consistent) : (g.dropEdge p c).Consistent := by
  intro q d
  simp only [Graph.dropEdge]
  split_ifs with hd hq hq
  · rw [count_erase_eq, count_erase_eq, if_pos hq, if_pos hd, h q d]
  · rw [count_erase_eq, if_neg hq, h q d, Nat.sub_zero]
  · rw [count_erase_eq, if_neg hd, h q d, Nat.sub_zero]
  · exact h q d

private theorem count_filter_ne (xs : List V) (a b : V) :
    (xs.filter (· ≠ b)).count a = if a = b then 0 else xs.count a := by
  by_cases h : a = b
  · rw [if_pos h, List.count_eq_zero]
    simp [h]
  · rw [if_neg h]
    exact List.count_filter (by simpa using h)

theorem Consistent.isolate (h : g.Consistent) : (g.isolate b).Consistent := by
  intro p c
  simp only [Graph.isolate]
  by_cases hc : c = b
  · subst hc
    by_cases hp : p = c
    · simp [hp]
    · rw [if_pos rfl, if_neg hp, count_filter_ne]
      simp
  · by_cases hp : p = b
    · subst hp
      rw [if_neg hc, if_pos rfl, count_filter_ne]
      simp
    · rw [if_neg hc, if_neg hp, count_filter_ne, count_filter_ne, if_neg hp, if_neg hc, h p c]

private theorem count_map_merge (xs : List V) {p b : V} (hne : p ≠ b) (a : V) :
    (xs.map (fun y => if y = b then p else y)).count a =
      if a = b then 0 else if a = p then xs.count p + xs.count b else xs.count a := by
  induction xs with
  | nil => simp
  | cons x xs ih =>
    simp only [List.map_cons, List.count_cons, ih, beq_iff_eq]
    grind

theorem Consistent.absorb (h : g.Consistent) (hne : p ≠ b) (hp : ∀ x ∈ g.parents b, x = p)
    (hc : ∀ x ∈ g.children p, x = b) : (g.absorb b p).Consistent := by
  intro q c
  have hb : ∀ x, b ∈ g.children x → x = p := fun x hx => hp x (h.mem_iff.mpr hx)
  simp only [Graph.absorb]
  by_cases hcb : c = b
  · subst hcb
    have hz : ∀ x, x ≠ p → c ∉ g.children x := fun x hx hm => hx (hb x hm)
    rw [if_pos rfl, List.count_nil, eq_comm, List.count_eq_zero]
    split_ifs with h1 h2
    · simp
    · exact hz c hne.symm
    · exact hz q h2
  · rw [if_neg hcb, count_map_merge _ hne]
    by_cases hqb : q = b
    · simp [hqb]
    · rw [if_neg hqb, if_neg hqb]
      by_cases hqp : q = p
      · subst hqp
        have hz : (g.children q).count c = 0 :=
          List.count_eq_zero.mpr (fun hm => hcb (hc c hm))
        simp [h q c, h b c, hz]
      · rw [if_neg hqp, if_neg hqp, h q c]

end Graph

end AdjacencyLists
