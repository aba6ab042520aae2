import Mathlib.Data.List.Basic
import Mathlib.Data.List.Perm.Basic

/-!
# Stable sorting by merging runs

A rearrangement is stable when it keeps the order of the elements that the order
does not tell apart. Insertion from the back and the merge of two sorted lists are
stable, and a list of lists whose runs of `k` are sorted gets runs of twice that
length when they are merged in pairs.
-/

namespace StableSorting

variable {α : Type*} {le : α → α → Bool}

structure TotalPreorder (le : α → α → Bool) : Prop where
  trans : ∀ a b c, le a b → le b c → le a c
  total : ∀ a b, le a b ∨ le b a

/-- The order does not tell the elements apart. -/
def tied (le : α → α → Bool) (a b : α) : Bool :=
  le a b && le b a

def Sorted (le : α → α → Bool) (xs : List α) : Prop :=
  xs.Pairwise fun a b => le a b

/-- The same elements, those tied to each other in the same order. -/
structure Rearranges (le : α → α → Bool) (xs ys : List α) : Prop where
  perm : ys.Perm xs
  stable : ∀ a, ys.filter (tied le a) = xs.filter (tied le a)

variable {xs ys zs us : List α} {a b p : α}

namespace Rearranges

theorem refl (xs : List α) : Rearranges le xs xs :=
  ⟨.refl xs, fun _ => rfl⟩

theorem trans (h : Rearranges le xs ys) (h' : Rearranges le ys zs) : Rearranges le xs zs :=
  ⟨h'.perm.trans h.perm, fun a => (h'.stable a).trans (h.stable a)⟩

theorem append (h : Rearranges le xs ys) (h' : Rearranges le zs us) :
    Rearranges le (xs ++ zs) (ys ++ us) where
  perm := h.perm.append h'.perm
  stable a := by
    rw [List.filter_append, List.filter_append, h.stable a, h'.stable a]

end Rearranges

/-! ## Insertion -/

/-- Insertion from the back: what stands before `p` has its last element first. -/
def insertBack (le : α → α → Bool) (p : α) : List α → List α
  | [] => [p]
  | q :: before => if le q p then p :: q :: before else q :: insertBack le p before

theorem insertBack_perm (p : α) (before : List α) : (insertBack le p before).Perm (p :: before) := by
  induction before with
  | nil => exact .refl _
  | cons q before ih =>
    rw [insertBack]
    split
    · exact .refl _
    · exact (ih.cons q).trans (.swap p q before)

theorem insertBack_sorted (hle : TotalPreorder le) {before : List α}
    (hb : before.Pairwise fun a b => le b a) (p : α) :
    (insertBack le p before).Pairwise fun a b => le b a := by
  induction before with
  | nil => exact List.pairwise_singleton _ _
  | cons q before ih =>
    obtain ⟨hq, hrest⟩ := List.pairwise_cons.1 hb
    rw [insertBack]
    split
    · rename_i hqp
      refine List.pairwise_cons.2 ⟨fun b hbmem => ?_, hb⟩
      rcases List.mem_cons.1 hbmem with rfl | hbmem
      · exact hqp
      · exact hle.trans _ _ _ (hq b hbmem) hqp
    · rename_i hqp
      refine List.pairwise_cons.2 ⟨fun b hbmem => ?_, ih hrest⟩
      rcases List.mem_cons.1 ((insertBack_perm p before).mem_iff.1 hbmem) with rfl | hbmem
      · exact (hle.total q b).resolve_left hqp
      · exact hq b hbmem

theorem insertBack_filter (hle : TotalPreorder le) (p a : α) (before : List α) :
    (insertBack le p before).filter (tied le a) = (p :: before).filter (tied le a) := by
  induction before with
  | nil => rfl
  | cons q before ih =>
    rw [insertBack]
    split
    · rfl
    · rename_i hqp
      -- At most one of the two that change places is tied to `a`.
      have hone : ¬ (tied le a q = true ∧ tied le a p = true) := by
        rintro ⟨hq, hp⟩
        simp only [tied, Bool.and_eq_true] at hq hp
        exact hqp (hle.trans _ _ _ hq.2 hp.1)
      rw [List.filter_cons, ih, List.filter_cons, List.filter_cons, List.filter_cons]
      by_cases hq : tied le a q = true
      · have hp : ¬ tied le a p = true := fun hp => hone ⟨hq, hp⟩
        rw [if_neg hp, if_neg hp]
      · rw [if_neg hq, if_neg hq]

/-- Insertion of one element after the other. -/
theorem foldl_insertBack (hle : TotalPreorder le) {before : List α} (hb : before.Pairwise fun a b => le b a)
    (xs : List α) :
    let after := xs.foldl (fun before p => insertBack le p before) before
    Rearranges le (before.reverse ++ xs) after.reverse ∧ Sorted le after.reverse := by
  induction xs generalizing before with
  | nil =>
    rw [List.foldl_nil, List.append_nil]
    exact ⟨.refl _, List.pairwise_reverse.2 hb⟩
  | cons p xs ih =>
    rw [List.foldl_cons]
    obtain ⟨hrearranges, hsorted⟩ := ih (insertBack_sorted hle hb p)
    have hone : Rearranges le (before.reverse ++ [p]) (insertBack le p before).reverse := by
      have hsplit : before.reverse ++ [p] = (p :: before).reverse := by simp
      rw [hsplit]
      refine ⟨?_, fun a => ?_⟩
      · exact ((insertBack le p before).reverse_perm.trans (insertBack_perm p before)).trans
          (p :: before).reverse_perm.symm
      · rw [List.filter_reverse, List.filter_reverse, insertBack_filter hle]
    refine ⟨?_, hsorted⟩
    rw [List.append_cons]
    exact (hone.append (.refl xs)).trans hrearranges

/-! ## Merging -/

theorem merge_rearranges (hle : TotalPreorder le) (hx : Sorted le xs) :
    Rearranges le (xs ++ ys) (List.merge xs ys le) := by
  refine ⟨List.merge_perm_append le, fun a => ?_⟩
  induction xs generalizing ys with
  | nil => rw [List.nil_merge, List.nil_append]
  | cons x xs ihx =>
    induction ys with
    | nil => rw [List.merge_right, List.append_nil]
    | cons y ys ihy =>
      obtain ⟨hxs, hrest⟩ := List.pairwise_cons.1 hx
      by_cases hxy : le x y = true
      · rw [List.cons_merge_cons_pos _ _ _ hxy, List.filter_cons, ihx hrest, List.cons_append,
          List.filter_cons]
      · rw [List.cons_merge_cons_neg _ _ _ hxy, List.filter_cons, ihy, List.filter_append,
          List.filter_append]
        by_cases hy : tied le a y = true
        · -- What is tied to `y` comes before `x`, so that nothing of the first list is.
          have hnone : (x :: xs).filter (tied le a) = [] := by
            rw [List.filter_eq_nil_iff]
            intro b hb htied
            simp only [tied, Bool.and_eq_true] at htied hy
            refine hxy ?_
            have hby := hle.trans _ _ _ htied.2 hy.1
            rcases List.mem_cons.1 hb with rfl | hb
            · exact hby
            · exact hle.trans _ _ _ (hxs b hb) hby
          rw [hnone, if_pos hy, List.nil_append, List.nil_append, List.filter_cons, if_pos hy]
        · rw [if_neg hy, List.filter_cons_of_neg hy]

theorem merge_sorted (hle : TotalPreorder le) (hx : Sorted le xs) (hy : Sorted le ys) :
    Sorted le (List.merge xs ys le) := by
  refine List.pairwise_merge (fun a b c => hle.trans a b c) (fun a b => ?_) xs ys hx hy
  simpa using hle.total a b

/-- What is not above the head of the second list comes first. -/
theorem merge_append (hxs : ∀ a ∈ xs, le a p) :
    List.merge (xs ++ zs) (p :: ys) le = xs ++ List.merge zs (p :: ys) le := by
  induction xs with
  | nil => rfl
  | cons x xs ih =>
    rw [List.cons_append, List.cons_merge_cons_pos _ _ _ (hxs x List.mem_cons_self),
      ih fun a ha => hxs a (List.mem_cons_of_mem _ ha), List.cons_append]

/-- Lists that are in order already. -/
theorem merge_of_sorted_append (h : Sorted le (xs ++ ys)) : List.merge xs ys le = xs ++ ys :=
  List.merge_of_le fun a b ha hb => (List.pairwise_append.1 h).2.2 a ha b hb

/-! ## Runs -/

/-- The runs of `k` lists are sorted. -/
inductive Runs (le : α → α → Bool) (k : ℕ) : List (List α) → Prop
  | last {cs : List (List α)} : cs.length ≤ k → Sorted le cs.flatten → Runs le k cs
  | cons {r rest : List (List α)} : r.length = k → Sorted le r.flatten → Runs le k rest →
      Runs le k (r ++ rest)

/-- Whole runs of `k` lists. -/
inductive FullRuns (le : α → α → Bool) (k : ℕ) : List (List α) → Prop
  | nil : FullRuns le k []
  | cons {r rest : List (List α)} : r.length = k → Sorted le r.flatten → FullRuns le k rest →
      FullRuns le k (r ++ rest)

variable {k : ℕ} {cs ds : List (List α)}

theorem Runs.split (h : Runs le k cs) :
    Sorted le (cs.take k).flatten ∧ Runs le k (cs.drop k) := by
  cases h with
  | last hlength hsorted =>
    rw [List.take_of_length_le hlength, List.drop_of_length_le hlength]
    exact ⟨hsorted, .last (Nat.zero_le k) List.Pairwise.nil⟩
  | cons hlength hsorted hrest =>
    rw [List.take_left' hlength, List.drop_left' hlength]
    exact ⟨hsorted, hrest⟩

theorem Runs.single (h : ∀ c ∈ cs, Sorted le c) : Runs le 1 cs := by
  induction cs with
  | nil => exact .last (Nat.zero_le 1) List.Pairwise.nil
  | cons c cs ih =>
    have hc : Sorted le [c].flatten := by
      simpa using h c List.mem_cons_self
    exact .cons rfl hc (ih fun d hd => h d (List.mem_cons_of_mem _ hd))

theorem FullRuns.append (h : FullRuns le k cs) (h' : Runs le k ds) : Runs le k (cs ++ ds) := by
  induction h with
  | nil => exact h'
  | cons hlength hsorted _ ih =>
    rw [List.append_assoc]
    exact .cons hlength hsorted ih

theorem FullRuns.concat (h : FullRuns le k cs) (hlength : ds.length = k)
    (hsorted : Sorted le ds.flatten) : FullRuns le k (cs ++ ds) := by
  induction h with
  | nil =>
    have hone := FullRuns.cons hlength hsorted .nil
    rwa [List.append_nil] at hone
  | cons hlength' hsorted' _ ih =>
    rw [List.append_assoc]
    exact .cons hlength' hsorted' ih

/-- A list that is in order as a whole. -/
theorem Runs.of_sorted (hk : 0 < k) (h : Sorted le cs.flatten) : Runs le k cs := by
  induction hn : cs.length using Nat.strongRecOn generalizing cs with
  | _ n ih =>
    rcases Nat.lt_or_ge k cs.length with hlong | hshort
    · rw [← List.take_append_drop k cs] at h ⊢
      rw [List.flatten_append] at h
      obtain ⟨htake, hdrop, -⟩ := List.pairwise_append.1 h
      exact .cons (List.length_take_of_le (Nat.le_of_lt hlong)) htake (ih _ (by rw [List.length_drop]; omega) hdrop rfl)
    · exact .last hshort h

theorem Runs.sorted (h : Runs le k cs) (hlength : cs.length ≤ k) : Sorted le cs.flatten := by
  have hsplit := h.split.1
  rwa [List.take_of_length_le hlength] at hsplit

end StableSorting
