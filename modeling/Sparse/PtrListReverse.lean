import Sparse.PtrListSequences

/-!
# Reverse iterations that insert at their cursor

`FOR_EACH_PTR_REVERSE` with a body that calls `INSERT_CURRENT`. An insertion that
splits a full block moves the cursor with the current entry, so the iteration goes on
with the entries before it, each once, and the new entries are left behind.
-/

namespace Sparse.PtrList
open CircularChain

variable {P σ : Type}

/-- The variables of `FOR_EACH_PTR_REVERSE`, and what else its body changes. -/
structure ReverseCursor (P σ : Type) where
  heap : Heap P
  list : ℕ
  nr : ℕ
  state : σ

/-- `INSERT_CURRENT`. -/
def ReverseCursor.insert (c : ReverseCursor P σ) (new : Entry P) : ReverseCursor P σ :=
  let (heap, list, nr) := insertCurrent c.heap new c.list c.nr
  { c with heap := heap, list := list, nr := nr }

/-- The loops of `FOR_EACH_PTR_REVERSE`. The body may fail to return. -/
def reverseLoop (head : ℕ) (body : Entry P → ReverseCursor P σ → Option (ReverseCursor P σ)) :
    ℕ → ReverseCursor P σ → Option (ReverseCursor P σ)
  | 0, _ => none
  | fuel + 1, c =>
    match c.nr with
    | nr + 1 =>
      match c.heap.ptrEntry c.list nr with
      | .entry ptr => (body ptr { c with nr := nr }).bind (reverseLoop head body fuel)
      | _ => none
    | 0 =>
      if c.list = head then some c
      else
        let list := c.heap.links.prev c.list
        reverseLoop head body fuel { c with list := list, nr := c.heap.nr list }

/-- `FOR_EACH_PTR_REVERSE`: the heap and the state it leaves. -/
def forEachPtrReverseDo (body : Entry P → ReverseCursor P σ → Option (ReverseCursor P σ)) (fuel : ℕ)
    (h : Heap P) (s : σ) : Option ℕ → Option (Heap P × σ)
  | none => some (h, s)
  | some head =>
    let list := h.links.prev head
    (reverseLoop head body fuel ⟨h, list, h.nr list, s⟩).map fun c => (c.heap, c.state)

/-! ## On sequences -/

/-- What a body inserts that puts the entries `news` in front of the current one. -/
def insertsFront (f : Entry P → σ → Option (σ × List (Entry P))) (ptr : Entry P)
    (c : ReverseCursor P σ) : Option (ReverseCursor P σ) :=
  (f ptr c.state).map fun (s, news) => news.foldl ReverseCursor.insert { c with state := s }

/-- The sequence after the iteration: from the last entry on, what the body inserts stands in
front of each, the last insertion first. -/
def weave (f : Entry P → σ → Option (σ × List (Entry P))) :
    List (Entry P) → σ → Option (σ × List (Entry P))
  | [], s => some (s, [])
  | e :: es, s => do
    let (s, after) ← weave f es s
    let (s, news) ← f e.untag s
    some (s, news.reverse ++ e :: after)

variable {f : Entry P → σ → Option (σ × List (Entry P))} {h : Heap P} {listp : Option ℕ}
  {bs xs ys : List ℕ} {b nr : ℕ} {s s' : σ} {es es' out : List (Entry P)}

/-- The last entry is the first that the body sees. -/
theorem weave_concat {e : Entry P} (hweave : weave f (es ++ [e]) s = some (s', out)) :
    ∃ s₁ news out₁, f e.untag s = some (s₁, news) ∧ weave f es s₁ = some (s', out₁) ∧
      out = out₁ ++ (news.reverse ++ [e]) := by
  induction es generalizing s' out with
  | nil =>
    simp only [List.nil_append, weave, Option.bind_eq_bind, Option.bind_some] at hweave
    obtain ⟨⟨s₁, news⟩, hf, heq⟩ := Option.bind_eq_some_iff.1 hweave
    obtain ⟨rfl, rfl⟩ := Prod.mk.inj (Option.some.inj heq)
    exact ⟨s₁, news, [], hf, rfl, rfl⟩
  | cons a es ih =>
    simp only [List.cons_append, weave, Option.bind_eq_bind] at hweave
    obtain ⟨⟨s₂, after⟩, hes, hweave⟩ := Option.bind_eq_some_iff.1 hweave
    obtain ⟨⟨s₃, front⟩, hf, heq⟩ := Option.bind_eq_some_iff.1 hweave
    obtain ⟨rfl, rfl⟩ := Prod.mk.inj (Option.some.inj heq)
    obtain ⟨s₁, news, out₁, hlast, hfirst, rfl⟩ := ih hes
    refine ⟨s₁, news, front.reverse ++ a :: out₁, hlast, ?_, by simp⟩
    simp only [weave, Option.bind_eq_bind, hfirst, Option.bind_some, hf]

/-- The insertions of one body: what stands before the cursor stays, and the new entries stand in
front of the current one. -/
theorem foldl_insert_acts (news : List (Entry P)) (hh : Holds h listp (xs ++ b :: ys))
    (hnr : nr < h.nr b) (s : σ) :
    ∃ h' xs' b' nr' ys', news.foldl ReverseCursor.insert (⟨h, b, nr, s⟩ : ReverseCursor P σ) =
        ⟨h', b', nr', s⟩ ∧
      Acts h (xs ++ b :: ys) h' listp (xs' ++ b' :: ys')
        (before h xs b nr ++ (news.reverse ++ from_ h b nr ys)) ∧
      before h' xs' b' nr' = before h xs b nr ∧ nr' < h'.nr b' := by
  induction news generalizing h xs b nr ys with
  | nil =>
    exact ⟨h, xs, b, nr, ys, rfl, ⟨hh, Change.refl .., (before_append_from h xs b nr ys).symm⟩, rfl, hnr⟩
  | cons e news ih =>
    obtain ⟨xs₁, b₁, nr₁, ys₁, hcursor, hacts, hbefore, hnr₁, -⟩ := insertCurrent_acts hh hnr e
    obtain ⟨h', xs', b', nr', ys', hfold, hacts', hbefore', hnr'⟩ := ih hacts.holds hnr₁
    refine ⟨h', xs', b', nr', ys', ?_, ⟨hacts'.holds, hacts.change.trans hacts'.change, ?_⟩,
      hbefore'.trans hbefore, hnr'⟩
    · show news.foldl ReverseCursor.insert ⟨(insertCurrent h e b nr).1, (insertCurrent h e b nr).2.1,
        (insertCurrent h e b nr).2.2, s⟩ = _
      rw [hcursor, hfold]
    · have hseq := hacts.sequence
      rw [← before_append_from _ xs₁ b₁ nr₁ ys₁, hbefore] at hseq
      rw [hacts'.sequence, hbefore, List.append_cancel_left hseq]
      simp

/-- The iteration from the cursor on leaves the sequence woven. -/
theorem reverseLoop_weave {head : ℕ} (hh : Holds h (some head) (xs ++ b :: ys)) (hnr : nr ≤ h.nr b)
    (hweave : weave f (before h xs b nr) s = some (s', out)) :
    ∃ n c bs', (∀ fuel ≥ n, reverseLoop head (insertsFront f) fuel ⟨h, b, nr, s⟩ = some c) ∧
      c.state = s' ∧ Acts h (xs ++ b :: ys) c.heap (some head) bs' (out ++ from_ h b nr ys) := by
  -- Every entry read leaves fewer before the cursor, and every block left fewer blocks.
  induction hlen : (before h xs b nr).length using Nat.strong_induction_on
    generalizing h xs b nr ys s out with
  | _ len ihentry =>
  induction hblocks : xs.length using Nat.strong_induction_on generalizing xs b nr ys with
  | _ blocks ihblock =>
  have hback : backward h.links head b = xs.getLast? := by
    obtain ⟨t, -, -, hbs, -, -, hring⟩ := hh.last
    exact hring.backward_eq hbs.symm
  cases nr with
  | zero =>
    have hfrom : from_ h b 0 ys = sequence h (b :: ys) := by simp [from_]
    rcases List.eq_nil_or_concat' xs with rfl | ⟨xs, a, rfl⟩
    · have hhead : b = head := by
        by_contra hne
        rw [backward, if_neg hne] at hback
        exact absurd hback (by simp)
      obtain ⟨rfl, rfl⟩ := Prod.mk.inj (Option.some.inj (show some (s, []) = some (s', out) by
        simpa [before, weave] using hweave))
      refine ⟨1, ⟨h, b, 0, s⟩, b :: ys, fun fuel hfuel => ?_, rfl, hh, Change.refl .., ?_⟩
      · obtain ⟨fuel, rfl⟩ := Nat.exists_eq_add_of_le' hfuel
        simp [reverseLoop, hhead]
      · rw [hfrom, List.nil_append]
    · have hne : b ≠ head := by
        rintro rfl
        rw [backward, if_pos rfl] at hback
        exact absurd hback (by simp)
      have hprev : h.links.prev b = a := by
        rw [backward, if_neg hne] at hback
        simpa using hback
      have hsame : before h xs a (h.nr a) = before h (xs ++ [a]) b 0 := by
        simp [before, sequence_append, Heap.nr]
      have hfroma : from_ h a (h.nr a) (b :: ys) = from_ h b 0 ys := by
        simp [from_, Heap.nr]
      rw [List.append_assoc] at hh ⊢
      obtain ⟨n, c, bs', hloop, hstate, hacts⟩ := ihblock xs.length (by simp [← hblocks]) hh
        (Nat.le_refl _) (hsame ▸ hweave) (hsame ▸ hlen) rfl
      refine ⟨n + 1, c, bs', fun fuel hfuel => ?_, hstate, hfroma ▸ hacts⟩
      obtain ⟨fuel, rfl⟩ := Nat.exists_eq_add_of_le' (Nat.le_of_add_left_le hfuel)
      simpa only [reverseLoop, if_neg hne, hprev] using hloop fuel (by omega)
  | succ nr =>
    have hnr' : nr < (h.list b).length := hnr
    have hbefore : before h xs b (nr + 1) = before h xs b nr ++ [(h.list b)[nr]] := by
      rw [before, before, List.take_add_one, List.getElem?_eq_getElem hnr', List.append_assoc]
      rfl
    have hentry : h.ptrEntry b nr = .entry ((h.list b)[nr]).untag := by
      simp [Heap.ptrEntry, List.getElem?_eq_getElem hnr']
    rw [hbefore] at hweave
    obtain ⟨s₁, news, out₁, hf, hfirst, rfl⟩ := weave_concat hweave
    obtain ⟨h', xs', b', nr', ys', hfold, hacts, hkept, hcursor⟩ :=
      foldl_insert_acts news hh hnr s₁
    have hseq := hacts.sequence
    rw [← before_append_from _ xs' b' nr' ys', hkept] at hseq
    obtain ⟨n, c, bs', hloop, hstate, hacts'⟩ := ihentry (before h xs b nr).length
      (by simp [← hlen, hbefore]) hacts.holds hcursor.le (hkept ▸ hfirst) (by rw [hkept])
    refine ⟨n + 1, c, bs', fun fuel hfuel => ?_, hstate, hacts'.holds,
      hacts.change.trans hacts'.change, ?_⟩
    · obtain ⟨fuel, rfl⟩ := Nat.exists_eq_add_of_le' (Nat.le_of_add_left_le hfuel)
      simp only [reverseLoop, hentry, insertsFront, hf, Option.map_some, Option.bind_some, hfold]
      exact hloop fuel (by omega)
    · have hfrom : from_ h b nr ys = (h.list b)[nr] :: from_ h b (nr + 1) ys := by
        rw [from_, from_, List.drop_eq_getElem_cons hnr', List.cons_append]
      rw [hacts'.sequence, List.append_cancel_left hseq, hfrom]
      simp

/-- `FOR_EACH_PTR_REVERSE` with a body that inserts at its cursor leaves the list woven, whatever
blocks the insertions split. -/
theorem forEachPtrReverseDo_weave (hh : Holds h listp bs)
    (hweave : weave f (sequence h bs) s = some (s', out)) :
    ∃ n h' bs', (∀ fuel ≥ n, forEachPtrReverseDo (insertsFront f) fuel h s listp = some (h', s')) ∧
      Acts h bs h' listp bs' out := by
  cases listp with
  | none =>
    obtain rfl := hh.eq_nil
    obtain ⟨rfl, rfl⟩ := Prod.mk.inj (Option.some.inj (show some (s, []) = some (s', out) from hweave))
    exact ⟨0, h, [], fun _ _ => rfl, hh, Change.refl .., rfl⟩
  | some head =>
    obtain ⟨t, zs, z, -, rfl, hlast, -⟩ := hh.last
    have hbefore : before h zs z (h.nr z) = sequence h (zs ++ [z]) := by
      simp [before, sequence_append, Heap.nr]
    obtain ⟨n, c, bs', hloop, rfl, hacts⟩ :=
      reverseLoop_weave hh (Nat.le_refl (h.nr z)) (hbefore ▸ hweave)
    refine ⟨n, c.heap, bs', fun fuel hfuel => ?_, hacts.holds, hacts.change, ?_⟩
    · simp only [forEachPtrReverseDo, hlast.2, hloop fuel hfuel, Option.map_some]
    · rw [hacts.sequence]
      simp [from_, Heap.nr]

end Sparse.PtrList
