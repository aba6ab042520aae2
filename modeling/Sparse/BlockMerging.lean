import Sparse.PtrListOperations
import Sparse.StableSorting

/-!
# Merging the blocks of pointer lists

`merge_block_seqs` merges two sequences of blocks that follow each other in a circle. What it has
taken goes through a buffer into the blocks that are used up; a block of the second sequence that is
used up is moved in front of the block of the first one. No block changes its fill.
-/

namespace Sparse.PtrList
open CircularChain StableSorting

variable {P : Type}

/-- `FLUSH_TO`. A buffer with too few entries would be read behind its end. What is left is copied to the front
of the buffer as `memmove` does, also where it overlaps with its new place. -/
def flushTo (h : Heap P) (buffer : List (Entry P)) (b : ℕ) : Option (Heap P × List (Entry P)) :=
  if h.nr b ≤ buffer.length then some (h.setList b (buffer.take (h.nr b)), buffer.drop (h.nr b)) else none

/-- `DUMP_TO`. A buffer with too many entries would be written behind the end of the block. -/
def dumpTo (h : Heap P) (buffer : List (Entry P)) (b : ℕ) : Option (Heap P) :=
  if buffer.length ≤ h.nr b then some (h.setList b (buffer ++ (h.list b).drop buffer.length)) else none

/-- `do { b = b->next; if (--n == 0) ... } while (b->nr == 0)`; no blocks are left where `n` is zero. -/
def nextFilled (h : Heap P) : ℕ → ℕ → ℕ × ℕ
  | b, 0 => (b, 0)
  | b, n + 1 =>
    let b := h.links.next b
    if n = 0 ∨ h.nr b ≠ 0 then (b, n) else nextFilled h b n

/-- `while (b1 != b2)` in front of `DUMP_TO(b2)`. -/
def flushUntil (fuel : ℕ) (h : Heap P) (buffer : List (Entry P)) (b1 b2 : ℕ) :
    Option (Heap P × List (Entry P)) :=
  match fuel with
  | 0 => none
  | fuel + 1 =>
    if b1 = b2 then some (h, buffer)
    else do
      let (h, buffer) ← flushTo h buffer b1
      flushUntil fuel h buffer (h.links.next b1) b2

/-- The variables of the loop of `merge_block_seqs`; `nbuf` is the length of the buffer. -/
structure Merge (P : Type) where
  heap : Heap P
  b1 : ℕ
  n : ℕ
  i1 : ℕ
  b2 : ℕ
  m : ℕ
  i2 : ℕ
  buffer : List (Entry P)
  newhead : ℕ

namespace Merge

/-- The element of `b1` is in the buffer. -/
def takeFirst (fuel : ℕ) (s : Merge P) : Option (Merge P ⊕ (Heap P × ℕ)) :=
  if s.i1 + 1 < s.heap.nr s.b1 then some (.inl { s with i1 := s.i1 + 1 })
  else do
    let (h, buffer) ← flushTo s.heap s.buffer s.b1
    let (b1, n) := nextFilled h s.b1 s.n
    if n = 0 then do
      let (h, buffer) ← flushUntil fuel h buffer b1 s.b2
      let h ← dumpTo h buffer s.b2
      some (.inr (h, s.newhead))
    else some (.inl { s with heap := h, b1 := b1, n := n, i1 := 0, buffer := buffer })

/-- The element of `b2` is in the buffer. -/
def takeSecond (s : Merge P) : Option (Merge P ⊕ (Heap P × ℕ)) :=
  if s.i2 + 1 < s.heap.nr s.b2 then some (.inl { s with i2 := s.i2 + 1 })
  else do
    let l := s.b2
    let b2 := s.heap.links.next l
    let h := s.heap.join (s.heap.links.prev l) b2
    let h := (h.join l s.b1).join (h.links.prev s.b1) l
    let newhead := if s.b1 = s.newhead then l else s.newhead
    let (h, buffer) ← flushTo h s.buffer l
    let (b2, m) := nextFilled h (h.links.prev b2) s.m
    if m = 0 then do
      let h ← dumpTo h buffer s.b1
      some (.inr (h, newhead))
    else some (.inl { s with heap := h, b2 := b2, m := m, i2 := 0, buffer := buffer, newhead := newhead })

variable (cmp : Entry P → Entry P → ℤ)

/-- The body of the loop of `merge_block_seqs`, with what it returns in the end. Nothing comes of an
index outside a block and of a full buffer. -/
def step (fuel : ℕ) (s : Merge P) : Option (Merge P ⊕ (Heap P × ℕ)) :=
  match s.heap.ptrEntry s.b1 s.i1, s.heap.ptrEntry s.b2 s.i2 with
  | .entry d1, .entry d2 =>
    if 2 * listNodeNr ≤ s.buffer.length then none
    else if cmp d1 d2 ≤ 0 then takeFirst fuel { s with buffer := s.buffer ++ [d1] }
    else takeSecond { s with buffer := s.buffer ++ [d2] }
  | _, _ => none

def loop : ℕ → Merge P → Option (Heap P × ℕ)
  | 0, _ => none
  | fuel + 1, s =>
    match s.step cmp (fuel + 1) with
    | none => none
    | some (.inl s) => loop fuel s
    | some (.inr result) => some result

end Merge

variable (cmp : Entry P → Entry P → ℤ)

/-- The quick skip of `merge_block_seqs`; no blocks are left where `n` is zero. -/
def skipBlocks (h : Heap P) (b2 : ℕ) : ℕ → ℕ → Option (ℕ × ℕ)
  | b1, 0 => some (b1, 0)
  | b1, n + 1 => do
    let skip ←
      if h.nr b1 = 0 then some true
      else
        match h.ptrEntry b1 ((h.nr b1 : ℤ) - 1), h.ptrEntry b2 0 with
        | .entry d1, .entry d2 => some (decide (cmp d1 d2 < 0))
        | _, _ => none
    if skip then skipBlocks h b2 (h.links.next b1) n else some (b1, n + 1)

/-- `merge_block_seqs`. -/
def mergeBlockSeqs (fuel : ℕ) (h : Heap P) (b1 n b2 m : ℕ) : Option (Heap P × ℕ) :=
  let (b2, m) := if h.nr b2 = 0 then nextFilled h b2 m else (b2, m)
  if m = 0 then some (h, b1)
  else do
    let (first, n) ← skipBlocks cmp h b2 b1 n
    if n = 0 then some (h, b1)
    else Merge.loop cmp fuel ⟨h, first, n, 0, b2, m, 0, [], b1⟩

/-! ## Blocks of which the entries change -/

variable {cmp} {h h' h'' : Heap P} {b c : ℕ} {xs ys bs : List ℕ} {es buffer : List (Entry P)}

/-- The entries of the blocks change but not their number, and the links of what stands in the circle. -/
structure SameFills (h : Heap P) (blocks ring : List ℕ) (h' : Heap P) : Prop where
  nr : ∀ b, h'.nr b = h.nr b
  list : ∀ b ∉ blocks, h'.list b = h.list b
  next : ∀ b ∉ ring, h'.links.next b = h.links.next b
  prev : ∀ b ∉ ring, h'.links.prev b = h.links.prev b
  fresh : h'.fresh = h.fresh

namespace SameFills

variable {blocks ring : List ℕ}

theorem refl (h : Heap P) (blocks ring : List ℕ) : SameFills h blocks ring h :=
  ⟨fun _ => rfl, fun _ _ => rfl, fun _ _ => rfl, fun _ _ => rfl, rfl⟩

theorem trans (h₁ : SameFills h blocks ring h') (h₂ : SameFills h' blocks ring h'') :
    SameFills h blocks ring h'' :=
  ⟨fun b => (h₂.nr b).trans (h₁.nr b), fun b hb => (h₂.list b hb).trans (h₁.list b hb),
    fun b hb => (h₂.next b hb).trans (h₁.next b hb), fun b hb => (h₂.prev b hb).trans (h₁.prev b hb),
    h₂.fresh.trans h₁.fresh⟩

theorem setList (hb : b ∈ blocks) (hes : es.length = h.nr b) : SameFills h blocks ring (h.setList b es) where
  nr c := by
    rcases eq_or_ne c b with rfl | hc
    · rw [Heap.nr, Heap.setList_self, hes]
    · rw [Heap.nr, Heap.setList_of_ne h hc, Heap.nr]
  list c hc := Heap.setList_of_ne h (ne_of_mem_of_not_mem hb hc).symm es
  next _ _ := rfl
  prev _ _ := rfl
  fresh := rfl

theorem join {a a' : ℕ} (ha : a ∈ ring) (ha' : a' ∈ ring) : SameFills h blocks ring (h.join a a') where
  nr _ := rfl
  list _ _ := rfl
  next _ hc := Function.update_of_ne (ne_of_mem_of_not_mem ha hc).symm ..
  prev _ hc := Function.update_of_ne (ne_of_mem_of_not_mem ha' hc).symm ..
  fresh := rfl

end SameFills

theorem Heap.setList_eq_self (hb : h.list b = es) : h.setList b es = h := by
  rw [Heap.setList, Function.update_eq_self_iff.2 hb.symm]

theorem sequence_setList_of_notMem (hb : b ∉ xs) : sequence (h.setList b es) xs = sequence h xs :=
  sequence_congr fun _ hc => Heap.setList_of_ne h (ne_of_mem_of_not_mem hc hb) es

theorem sequence_of_empty (hxs : ∀ b ∈ xs, h.list b = []) : sequence h xs = [] :=
  List.flatMap_eq_nil_iff.2 hxs

theorem flushTo_eq (hnr : h.nr b ≤ buffer.length) :
    flushTo h buffer b = some (h.setList b (buffer.take (h.nr b)), buffer.drop (h.nr b)) := if_pos hnr

theorem dumpTo_eq (hnr : buffer.length ≤ h.nr b) :
    dumpTo h buffer b = some (h.setList b (buffer ++ (h.list b).drop buffer.length)) := if_pos hnr

theorem ptrEntry_eq {i : ℕ} {d : Entry P} (hd : (h.list b)[i]? = some d) (huntag : d.untag = d) :
    h.ptrEntry b i = .entry d := by
  obtain ⟨hi, rfl⟩ := List.getElem?_eq_some_iff.1 hd
  exact (ptrEntry_of_lt hi).trans (congrArg Read.entry huntag)

/-- The next block that is not empty, behind `b` and in front of `c`. -/
theorem nextFilled_spec (hchain : (b :: (xs ++ [c])).IsChain h.links.Linked) :
    (∃ skipped b' rest, xs = skipped ++ b' :: rest ∧ (∀ x ∈ skipped, h.list x = []) ∧ h.list b' ≠ [] ∧
        nextFilled h b (xs.length + 1) = (b', rest.length + 1)) ∨
      (∀ x ∈ xs, h.list x = []) ∧ nextFilled h b (xs.length + 1) = (c, 0) := by
  induction xs generalizing b with
  | nil =>
    have hnext : h.links.next b = c := (List.isChain_cons_cons.1 hchain).1.1
    refine .inr ⟨fun x hx => absurd hx List.not_mem_nil, ?_⟩
    simp [nextFilled, hnext]
  | cons x xs ih =>
    obtain ⟨hlink, hrest⟩ := List.isChain_cons_cons.1 hchain
    have hstep : nextFilled h b ((x :: xs).length + 1) =
        if h.nr x ≠ 0 then (x, xs.length + 1) else nextFilled h x (xs.length + 1) := by
      rw [List.length_cons, nextFilled, hlink.1]
      simp
    rw [hstep]
    by_cases hx : h.list x = []
    · rw [if_neg (by rw [Heap.nr, hx]; simp)]
      rcases ih hrest with ⟨skipped, b', rest, rfl, hskipped, hb', heq⟩ | ⟨hempty, heq⟩
      · exact .inl ⟨x :: skipped, b', rest, rfl, List.forall_mem_cons.2 ⟨hx, hskipped⟩, hb', heq⟩
      · exact .inr ⟨List.forall_mem_cons.2 ⟨hx, hempty⟩, heq⟩
    · rw [if_pos (by rw [Heap.nr]; simpa using hx)]
      exact .inl ⟨[], x, xs, rfl, fun y hy => absurd hy List.not_mem_nil, hx, rfl⟩

/-- Empty blocks take nothing. -/
theorem flushUntil_empty {fuel : ℕ} (hchain : (xs ++ [c]).IsChain h.links.Linked) (hc : c ∉ xs)
    (hxs : ∀ x ∈ xs, h.list x = []) (hhead : (xs ++ [c]).head? = some b) (hfuel : xs.length < fuel) :
    flushUntil fuel h buffer b c = some (h, buffer) := by
  induction xs generalizing b fuel with
  | nil =>
    obtain ⟨fuel, rfl⟩ : ∃ k, fuel = k + 1 := ⟨fuel - 1, by simp at hfuel; omega⟩
    obtain rfl : c = b := by simpa using hhead
    rw [flushUntil, if_pos rfl]
  | cons x xs ih =>
    obtain ⟨fuel, rfl⟩ : ∃ k, fuel = k + 1 := ⟨fuel - 1, by simp at hfuel; omega⟩
    obtain rfl : x = b := by simpa using hhead
    obtain ⟨hx, hxs⟩ := List.forall_mem_cons.1 hxs
    have hnr : h.nr x = 0 := by rw [Heap.nr, hx, List.length_nil]
    have hflush : flushTo h buffer x = some (h, buffer) := by
      rw [flushTo_eq (by omega), hnr, List.take_zero, List.drop_zero, Heap.setList_eq_self hx]
    have hne : x ≠ c := fun heq => hc (heq ▸ List.mem_cons_self)
    have hnext : (xs ++ [c]).head? = some (h.links.next x) := by
      cases xs with
      | nil => exact congrArg some (List.isChain_cons_cons.1 hchain).1.1.symm
      | cons y ys => exact congrArg some (List.isChain_cons_cons.1 hchain).1.1.symm
    rw [flushUntil, if_neg hne, hflush]
    exact ih hchain.tail (fun hmem => hc (List.mem_cons_of_mem _ hmem)) hxs hnext (by simpa using hfuel)

/-! ## The loop -/

/-- The order that the comparison follows. -/
def leOf (cmp : Entry P → Entry P → ℤ) (a b : Entry P) : Bool := cmp a b ≤ 0

theorem leOf_iff {a b : Entry P} : leOf cmp a b = true ↔ cmp a b ≤ 0 := by rw [leOf, decide_eq_true_iff]

/-- What the loop of `merge_block_seqs` keeps, with the finished blocks `D`, the blocks `R1` behind `b1`,
the empty ones `E` in front of `b2` and the blocks `R2` behind it. What was taken and the merge of what
is left make `T`. -/
structure Merging (cmp : Entry P → Entry P → ℤ) (h₀ : Heap P) (blocks post : List ℕ) (T : List (Entry P))
    (s : Merge P) (D R1 E R2 : List ℕ) : Prop where
  ring : Ring s.heap.links (D ++ s.b1 :: (R1 ++ E ++ s.b2 :: R2) ++ post)
  perm : (D ++ s.b1 :: (R1 ++ E ++ s.b2 :: R2)).Perm blocks
  fills : SameFills h₀ blocks (blocks ++ post) s.heap
  full : ∀ b ∈ blocks, h₀.nr b ≤ listNodeNr
  n : s.n = R1.length + 1
  m : s.m = R2.length + 1
  empty : ∀ b ∈ E, s.heap.list b = []
  i1 : s.i1 < s.heap.nr s.b1
  i2 : s.i2 < s.heap.nr s.b2
  nbuf : s.buffer.length = s.i1 + s.i2
  newhead : (D ++ [s.b1]).head? = some s.newhead
  untagged1 : ∀ e ∈ (s.heap.list s.b1).drop s.i1 ++ sequence s.heap R1, e.untag = e
  untagged2 : ∀ e ∈ (s.heap.list s.b2).drop s.i2 ++ sequence s.heap R2, e.untag = e
  merged : sequence s.heap D ++ (s.buffer ++ List.merge ((s.heap.list s.b1).drop s.i1 ++ sequence s.heap R1)
    ((s.heap.list s.b2).drop s.i2 ++ sequence s.heap R2) (leOf cmp)) = T

/-- What `merge_block_seqs` leaves of the blocks: the same blocks in the order `bs`. -/
structure Merged (h₀ : Heap P) (blocks post : List ℕ) (T : List (Entry P)) (result : Heap P × ℕ) (bs : List ℕ) :
    Prop where
  ring : Ring result.1.links (bs ++ post)
  perm : bs.Perm blocks
  fills : SameFills h₀ blocks (blocks ++ post) result.1
  head : bs.head? = some result.2
  merged : sequence result.1 bs = T

/-- How many entries the loop has still to take. -/
def Merge.left (s : Merge P) (R1 R2 : List ℕ) : ℕ :=
  ((s.heap.list s.b1).drop s.i1 ++ sequence s.heap R1).length +
    ((s.heap.list s.b2).drop s.i2 ++ sequence s.heap R2).length

/-- The loop goes on with fewer entries to take, or is finished. -/
def Advances (cmp : Entry P → Entry P → ℤ) (h₀ : Heap P) (blocks post : List ℕ) (T : List (Entry P)) (left : ℕ) :
    Option (Merge P ⊕ (Heap P × ℕ)) → Prop
  | none => False
  | some (.inl s) => ∃ D R1 E R2, Merging cmp h₀ blocks post T s D R1 E R2 ∧ s.left R1 R2 < left
  | some (.inr result) => ∃ bs, Merged h₀ blocks post T result bs

namespace Merging

variable {h₀ : Heap P} {blocks post D R1 E R2 : List ℕ} {T : List (Entry P)} {s : Merge P} {d1 d2 : Entry P}
  (hM : Merging cmp h₀ blocks post T s D R1 E R2)
include hM

theorem nodup : (D ++ s.b1 :: (R1 ++ E ++ s.b2 :: R2)).Nodup := (List.nodup_append.1 hM.ring.nodup).1

/-- The current blocks stand in one place. -/
theorem apart : (s.b1 ∉ D ∧ s.b1 ∉ R1 ∧ s.b1 ∉ E ∧ s.b1 ≠ s.b2 ∧ s.b1 ∉ R2) ∧
    s.b2 ∉ D ∧ s.b2 ∉ R1 ∧ s.b2 ∉ E ∧ s.b2 ∉ R2 := by
  have hnodup := hM.nodup
  simp only [List.nodup_append, List.nodup_cons, List.mem_append, List.mem_cons, not_or] at hnodup
  obtain ⟨-, ⟨⟨⟨h1, h2⟩, h3, h4⟩, -, ⟨h5, -⟩, hR⟩, hD⟩ := hnodup
  refine ⟨⟨fun h => hD _ h _ (.inl rfl) rfl, h1, h2, h3, h4⟩, fun h => hD _ h _ (.inr (.inr (.inl rfl))) rfl,
    fun h => hR _ (.inl h) _ (.inl rfl) rfl, fun h => hR _ (.inr h) _ (.inl rfl) rfl, h5⟩

theorem mem_b1 : s.b1 ∈ blocks := hM.perm.mem_iff.1 (by simp)

theorem mem_b2 : s.b2 ∈ blocks := hM.perm.mem_iff.1 (by simp)

/-- The buffer has room for one entry more. -/
theorem nbuf_lt : s.buffer.length < 2 * listNodeNr := by
  have h1 := hM.full s.b1 hM.mem_b1
  have h2 := hM.full s.b2 hM.mem_b2
  have hi1 := hM.i1
  have hi2 := hM.i2
  rw [hM.fills.nr] at hi1 hi2
  have := hM.nbuf
  omega

theorem takeFirst (hd1 : (s.heap.list s.b1)[s.i1]? = some d1) (hd2 : (s.heap.list s.b2)[s.i2]? = some d2)
    (hle : cmp d1 d2 ≤ 0) {fuel : ℕ} (hfuel : blocks.length < fuel) :
    Advances cmp h₀ blocks post T (s.left R1 R2)
      (({ s with buffer := s.buffer ++ [d1] } : Merge P).takeFirst fuel) := by
  obtain ⟨⟨hD, hR1, hE, hne, hR2⟩, hD2, -, hE2, -⟩ := hM.apart
  have hdrop1 : (s.heap.list s.b1).drop s.i1 = d1 :: (s.heap.list s.b1).drop (s.i1 + 1) := by
    rw [List.drop_eq_getElem_cons (List.getElem?_eq_some_iff.1 hd1).1, (List.getElem?_eq_some_iff.1 hd1).2]
  have hdrop2 : (s.heap.list s.b2).drop s.i2 = d2 :: (s.heap.list s.b2).drop (s.i2 + 1) := by
    rw [List.drop_eq_getElem_cons (List.getElem?_eq_some_iff.1 hd2).1, (List.getElem?_eq_some_iff.1 hd2).2]
  have hmerged := hM.merged
  rw [hdrop1, hdrop2, List.cons_append, List.cons_append, List.cons_merge_cons_pos _ _ _ (leOf_iff.2 hle),
    ← List.cons_append, ← hdrop2, List.append_cons] at hmerged
  have hleft : ((s.heap.list s.b1).drop (s.i1 + 1) ++ sequence s.heap R1).length +
      ((s.heap.list s.b2).drop s.i2 ++ sequence s.heap R2).length < s.left R1 R2 := by
    rw [Merge.left, hdrop1, List.cons_append, List.length_cons]
    omega
  have huntagged : ∀ e ∈ (s.heap.list s.b1).drop (s.i1 + 1) ++ sequence s.heap R1, e.untag = e := fun e he =>
    hM.untagged1 e (by rw [hdrop1]; exact List.mem_cons_of_mem _ he)
  rw [Merge.takeFirst]
  split_ifs with hmore
  · refine ⟨D, R1, E, R2, ⟨hM.ring, hM.perm, hM.fills, hM.full, hM.n, hM.m, hM.empty, hmore, hM.i2, ?_, hM.newhead,
      huntagged, hM.untagged2, hmerged⟩, hleft⟩
    simp only [List.length_append, List.length_singleton, hM.nbuf]
    omega
  · -- The block is used up.
    have hnr : s.heap.nr s.b1 = s.i1 + 1 := le_antisymm (Nat.le_of_not_lt hmore) hM.i1
    have hend : (s.heap.list s.b1).drop (s.i1 + 1) = [] := List.drop_eq_nil_iff.2 (by rw [← hnr]; rfl)
    rw [hend, List.nil_append] at hmerged hleft huntagged
    obtain ⟨buffer, hbuffer⟩ : ∃ buffer, buffer = s.buffer ++ [d1] := ⟨_, rfl⟩
    have hlength : buffer.length = s.heap.nr s.b1 + s.i2 := by
      rw [hbuffer, List.length_append, List.length_singleton, hM.nbuf, hnr]
      omega
    rw [← hbuffer] at hmerged ⊢
    obtain ⟨h, hh⟩ : ∃ h, h = s.heap.setList s.b1 (buffer.take (s.heap.nr s.b1)) := ⟨_, rfl⟩
    have hfills : SameFills s.heap blocks (blocks ++ post) h := by
      rw [hh]
      exact .setList hM.mem_b1 (by rw [List.length_take]; omega)
    have hflush : flushTo s.heap buffer s.b1 = some (h, buffer.drop (s.heap.nr s.b1)) := by
      rw [flushTo_eq (by omega), hh]
    have hself : h.list s.b1 = buffer.take (s.heap.nr s.b1) := by rw [hh, Heap.setList_self]
    have hlist : ∀ c, c ≠ s.b1 → h.list c = s.heap.list c := fun c hc => by rw [hh, Heap.setList_of_ne _ hc]
    have hseq : ∀ xs : List ℕ, s.b1 ∉ xs → sequence h xs = sequence s.heap xs := fun xs hxs => by
      rw [hh, sequence_setList_of_notMem hxs]
    have hring : Ring h.links (D ++ s.b1 :: (R1 ++ E ++ s.b2 :: R2) ++ post) := by
      rw [hh]
      exact hM.ring
    have hb2 : h.list s.b2 = s.heap.list s.b2 := hlist _ hne.symm
    have hempty : ∀ b ∈ E, h.list b = [] := fun b hb => by
      rw [hlist b (ne_of_mem_of_not_mem hb hE), hM.empty b hb]
    obtain ⟨c, rest, hc⟩ : ∃ c rest, E ++ s.b2 :: R2 = c :: rest := List.exists_cons_of_ne_nil (by simp)
    have hchain : (s.b1 :: (R1 ++ [c])).IsChain h.links.Linked := by
      have hpath := hring.path.chain
      rw [List.append_assoc R1, hc] at hpath
      refine List.IsChain.infix hpath ⟨D, rest ++ post, ?_⟩
      simp
    simp only [hflush, Option.bind_eq_bind, Option.bind_some, hM.n]
    rcases nextFilled_spec hchain with ⟨skipped, b', R1', hR1eq, hskipped, hb', heq⟩ | ⟨hnone, heq⟩
    · have hold : sequence s.heap R1 = h.list b' ++ sequence h R1' := by
        rw [← hseq R1 hR1, hR1eq, sequence_append, sequence_cons, sequence_of_empty hskipped, List.nil_append]
      rw [hold] at hmerged hleft huntagged
      simp only [heq, if_neg (Nat.succ_ne_zero R1'.length)]
      refine ⟨D ++ s.b1 :: skipped, R1', E, R2, ⟨?_, ?_, hM.fills.trans hfills, hM.full, rfl, hM.m, hempty, ?_, ?_, ?_,
        ?_, ?_, ?_, ?_⟩, ?_⟩
      · rw [hR1eq] at hring
        simpa using hring
      · have hperm := hM.perm
        rw [hR1eq] at hperm
        simpa using hperm
      · exact List.length_pos_iff.2 hb'
      · change s.i2 < h.nr s.b2
        rw [hfills.nr]
        exact hM.i2
      · simp only [List.length_drop, hlength, Nat.add_sub_cancel_left, Nat.zero_add]
      · rw [← hM.newhead]
        cases D <;> rfl
      · simpa only [List.drop_zero] using huntagged
      · simpa only [hb2, hseq R2 hR2] using hM.untagged2
      · rw [← hmerged]
        simp only [sequence_append, sequence_cons, hseq D hD, hself, sequence_of_empty hskipped, List.append_nil,
          List.drop_zero, hb2, hseq R2 hR2]
        rw [List.append_assoc, ← List.append_assoc (buffer.take _), List.take_append_drop]
      · simpa only [Merge.left, List.drop_zero, hb2, hseq R2 hR2] using hleft
    · have hR1nil : sequence s.heap R1 = [] := by rw [← hseq R1 hR1, sequence_of_empty hnone]
      rw [hR1nil, List.nil_merge] at hmerged
      have hhead : (E ++ [s.b2]).head? = some c := by
        cases E with
        | nil => exact congrArg some (List.cons.inj hc).1
        | cons x E => exact congrArg some (List.cons.inj hc).1
      have hE2chain : (E ++ [s.b2]).IsChain h.links.Linked :=
        List.IsChain.infix hring.path.chain ⟨D ++ s.b1 :: R1, R2 ++ post, by simp⟩
      have hElength : E.length < fuel := by
        have hcount := hM.perm.length_eq
        simp only [List.length_append, List.length_cons] at hcount
        omega
      have hnr2 : h.nr s.b2 = s.heap.nr s.b2 := hfills.nr s.b2
      have hdump : (buffer.drop (s.heap.nr s.b1)).length = s.i2 := by
        rw [List.length_drop, hlength, Nat.add_sub_cancel_left]
      have hi2 := hM.i2
      simp only [heq, if_true, flushUntil_empty hE2chain hE2 hempty hhead hElength, Option.bind_some,
        dumpTo_eq (hdump.trans_le (hnr2 ▸ hi2.le)), hdump]
      have hlast : SameFills h blocks (blocks ++ post)
          (h.setList s.b2 (buffer.drop (s.heap.nr s.b1) ++ (h.list s.b2).drop s.i2)) := by
        refine .setList hM.mem_b2 ?_
        rw [List.length_append, hdump, List.length_drop]
        exact Nat.add_sub_cancel' (hnr2.symm ▸ hi2.le : s.i2 ≤ h.nr s.b2)
      refine ⟨D ++ s.b1 :: (R1 ++ E ++ s.b2 :: R2), ⟨hring, hM.perm, (hM.fills.trans hfills).trans hlast, ?_, ?_⟩⟩
      · rw [← hM.newhead]
        cases D <;> rfl
      · have hnodup := hM.nodup
        have hsplit : D ++ s.b1 :: (R1 ++ E ++ s.b2 :: R2) = (D ++ s.b1 :: (R1 ++ E)) ++ s.b2 :: R2 := by simp
        rw [hsplit] at hnodup ⊢
        simp only
        rw [sequence_setList hnodup, ← hmerged]
        simp only [sequence_append, sequence_cons, hseq D hD, hself, sequence_of_empty hnone, sequence_of_empty hempty,
          List.append_nil, hb2, hseq R2 hR2, List.append_assoc]
        rw [← List.append_assoc (buffer.take _), List.take_append_drop]

/-- The second block is moved in front of the first. -/
theorem moved : Ring (((s.heap.join (s.heap.links.prev s.b2) (s.heap.links.next s.b2)).join s.b2 s.b1).join
      ((s.heap.join (s.heap.links.prev s.b2) (s.heap.links.next s.b2)).links.prev s.b1) s.b2).links
    (D ++ s.b2 :: s.b1 :: (R1 ++ E ++ R2) ++ post) := by
  obtain ⟨L, hL⟩ : ∃ L, L = s.heap.links.join (s.heap.links.prev s.b2) (s.heap.links.next s.b2) := ⟨_, rfl⟩
  have hnodup := hM.ring.nodup
  have hout : Ring L (s.b1 :: (R1 ++ E ++ R2 ++ post ++ D)) := by
    have hring : Ring s.heap.links ((D ++ s.b1 :: (R1 ++ E)) ++ s.b2 :: (R2 ++ post)) := by simpa using hM.ring
    have hunlink := hring.unlink (by simp)
    rw [← hL] at hunlink
    have hrot : Ring L (D ++ (s.b1 :: (R1 ++ E ++ R2 ++ post))) := by simpa using hunlink
    simpa using hrot.rotate
  have hnot : s.b2 ∉ s.b1 :: (R1 ++ E ++ R2 ++ post ++ D) := by
    have hsplit : (D ++ s.b1 :: (R1 ++ E)) ++ s.b2 :: (R2 ++ post) =
        D ++ s.b1 :: (R1 ++ E ++ s.b2 :: R2) ++ post := by simp
    rw [← hsplit, List.nodup_middle, List.nodup_cons] at hnodup
    intro hmem
    refine hnodup.1 ?_
    simp only [List.mem_append, List.mem_cons] at hmem ⊢
    tauto
  have hprev : s.b2 ≠ L.prev s.b1 := fun heq => hnot (heq ▸ hout.prev_mem List.mem_cons_self)
  have hne : s.b1 ≠ s.b2 := fun heq => hnot (heq ▸ List.mem_cons_self)
  have hinsert := hout.insert hnot
  rw [← Links.join_comm hprev hne] at hinsert
  have hfinal : Ring ((L.join s.b2 s.b1).join (L.prev s.b1) s.b2)
      ((s.b1 :: (R1 ++ E ++ R2 ++ post)) ++ (D ++ [s.b2])) := by simpa using hinsert
  rw [hL] at hfinal
  simpa using hfinal.rotate

theorem moved_fills : SameFills s.heap blocks (blocks ++ post)
    (((s.heap.join (s.heap.links.prev s.b2) (s.heap.links.next s.b2)).join s.b2 s.b1).join
      ((s.heap.join (s.heap.links.prev s.b2) (s.heap.links.next s.b2)).links.prev s.b1) s.b2) := by
  have hmem : ∀ c, c ∈ D ++ s.b1 :: (R1 ++ E ++ s.b2 :: R2) ++ post → c ∈ blocks ++ post := fun c hc =>
    (hM.perm.append_right post).mem_iff.1 hc
  have hb1 : s.b1 ∈ blocks ++ post := hmem _ (by simp)
  have hb2 : s.b2 ∈ D ++ s.b1 :: (R1 ++ E ++ s.b2 :: R2) ++ post := by simp
  have hprev := hmem _ (hM.ring.prev_mem hb2)
  have hnext := hmem _ (hM.ring.next_mem hb2)
  have hmoved : (s.heap.join (s.heap.links.prev s.b2) (s.heap.links.next s.b2)).links.prev s.b1 ∈ blocks ++ post := by
    have hupdate : (s.heap.join (s.heap.links.prev s.b2) (s.heap.links.next s.b2)).links.prev s.b1 =
        if s.b1 = s.heap.links.next s.b2 then s.heap.links.prev s.b2 else s.heap.links.prev s.b1 :=
      Function.update_apply ..
    rw [hupdate]
    split_ifs
    · exact hprev
    · exact hmem _ (hM.ring.prev_mem (by simp))
  exact ((SameFills.join hprev hnext).trans (.join (hmem _ hb2) hb1)).trans (.join hmoved (hmem _ hb2))

/-- The blocks behind one that was moved. -/
theorem nextFilled_moved {h : Heap P} (hring : Ring h.links (D ++ s.b2 :: s.b1 :: (R1 ++ E ++ R2) ++ post)) :
    (∃ skipped b' rest, R2 = skipped ++ b' :: rest ∧ (∀ x ∈ skipped, h.list x = []) ∧ h.list b' ≠ [] ∧
        nextFilled h (h.links.prev (s.heap.links.next s.b2)) s.m = (b', rest.length + 1)) ∨
      (∀ x ∈ R2, h.list x = []) ∧ ∃ c, nextFilled h (h.links.prev (s.heap.links.next s.b2)) s.m = (c, 0) := by
  rw [hM.m]
  cases R2 with
  | nil =>
    refine .inr ⟨fun x hx => absurd hx List.not_mem_nil, h.links.next (h.links.prev (s.heap.links.next s.b2)), ?_⟩
    simp [nextFilled]
  | cons r R2 =>
    obtain ⟨init, z, hz⟩ := (List.eq_nil_or_concat' (s.b1 :: (R1 ++ E))).resolve_left (List.cons_ne_nil _ _)
    obtain ⟨c, rest, hc⟩ : ∃ c rest, post ++ (D ++ s.b2 :: init) = c :: rest :=
      List.exists_cons_of_ne_nil (by simp)
    have hnext : s.heap.links.next s.b2 = r := by
      have hold : Ring s.heap.links ((D ++ s.b1 :: (R1 ++ E)) ++ s.b2 :: r :: (R2 ++ post)) := by simpa using hM.ring
      exact hold.linked.1
    have hrot : Ring h.links (z :: (r :: R2 ++ c :: rest)) := by
      have hcut : Ring h.links ((D ++ s.b2 :: init) ++ (z :: (r :: R2) ++ post)) := by
        have hsame : D ++ s.b2 :: s.b1 :: (R1 ++ E ++ r :: R2) ++ post =
            D ++ s.b2 :: (s.b1 :: (R1 ++ E)) ++ (r :: R2 ++ post) := by simp
        rw [hsame, hz] at hring
        simpa using hring
      have hback := hcut.rotate
      rw [← hc]
      simpa using hback
    have hchain : (z :: (r :: R2 ++ [c])).IsChain h.links.Linked :=
      List.IsChain.infix hrot.path.chain ⟨[], rest, by simp⟩
    have hprev : h.links.prev r = z := (List.isChain_cons_cons.1 hchain).1.2
    rw [hnext, hprev]
    rcases nextFilled_spec hchain with hfound | ⟨hempty, heq⟩
    · exact .inl hfound
    · exact .inr ⟨hempty, c, heq⟩

theorem takeSecond (hd1 : (s.heap.list s.b1)[s.i1]? = some d1) (hd2 : (s.heap.list s.b2)[s.i2]? = some d2)
    (hle : ¬ cmp d1 d2 ≤ 0) :
    Advances cmp h₀ blocks post T (s.left R1 R2) ({ s with buffer := s.buffer ++ [d2] } : Merge P).takeSecond := by
  obtain ⟨⟨hD, hR1, hE, hne, hR2⟩, hD2, hR12, hE2, hR22⟩ := hM.apart
  have hdrop1 : (s.heap.list s.b1).drop s.i1 = d1 :: (s.heap.list s.b1).drop (s.i1 + 1) := by
    rw [List.drop_eq_getElem_cons (List.getElem?_eq_some_iff.1 hd1).1, (List.getElem?_eq_some_iff.1 hd1).2]
  have hdrop2 : (s.heap.list s.b2).drop s.i2 = d2 :: (s.heap.list s.b2).drop (s.i2 + 1) := by
    rw [List.drop_eq_getElem_cons (List.getElem?_eq_some_iff.1 hd2).1, (List.getElem?_eq_some_iff.1 hd2).2]
  have hmerged := hM.merged
  rw [hdrop1, hdrop2, List.cons_append, List.cons_append, List.cons_merge_cons_neg _ _ _ fun h => hle (leOf_iff.1 h),
    ← List.cons_append, ← hdrop1, List.append_cons] at hmerged
  have hleft : ((s.heap.list s.b1).drop s.i1 ++ sequence s.heap R1).length +
      ((s.heap.list s.b2).drop (s.i2 + 1) ++ sequence s.heap R2).length < s.left R1 R2 := by
    rw [Merge.left, hdrop2, List.cons_append, List.length_cons]
    omega
  have huntagged : ∀ e ∈ (s.heap.list s.b2).drop (s.i2 + 1) ++ sequence s.heap R2, e.untag = e := fun e he =>
    hM.untagged2 e (by rw [hdrop2]; exact List.mem_cons_of_mem _ he)
  rw [Merge.takeSecond]
  by_cases hmore : s.i2 + 1 < s.heap.nr s.b2
  · rw [if_pos hmore]
    refine ⟨D, R1, E, R2, ⟨hM.ring, hM.perm, hM.fills, hM.full, hM.n, hM.m, hM.empty, hM.i1, hmore, ?_, hM.newhead,
      hM.untagged1, huntagged, hmerged⟩, hleft⟩
    simp only [List.length_append, List.length_singleton, hM.nbuf, Nat.add_assoc]
  · -- The block is used up and moved.
    rw [if_neg hmore]
    have hnr : s.heap.nr s.b2 = s.i2 + 1 := le_antisymm (Nat.le_of_not_lt hmore) hM.i2
    have hend : (s.heap.list s.b2).drop (s.i2 + 1) = [] := List.drop_eq_nil_iff.2 (by rw [← hnr]; rfl)
    rw [hend, List.nil_append] at hmerged hleft huntagged
    obtain ⟨buffer, hbuffer⟩ : ∃ buffer, buffer = s.buffer ++ [d2] := ⟨_, rfl⟩
    have hlength : buffer.length = s.heap.nr s.b2 + s.i1 := by
      rw [hbuffer, List.length_append, List.length_singleton, hM.nbuf, hnr]
      omega
    rw [← hbuffer] at hmerged ⊢
    have hring := hM.moved
    have hfills := hM.moved_fills
    simp only
    generalize hmoved : ((s.heap.join (s.heap.links.prev s.b2) (s.heap.links.next s.b2)).join s.b2 s.b1).join
      ((s.heap.join (s.heap.links.prev s.b2) (s.heap.links.next s.b2)).links.prev s.b1) s.b2 = g at hring hfills ⊢
    have hglist : g.list = s.heap.list := by rw [← hmoved]; rfl
    have hgnr : g.nr s.b2 = s.heap.nr s.b2 := hfills.nr s.b2
    obtain ⟨h, hh⟩ : ∃ h, h = g.setList s.b2 (buffer.take (s.heap.nr s.b2)) := ⟨_, rfl⟩
    have hfills : SameFills s.heap blocks (blocks ++ post) h := by
      rw [hh]
      exact hfills.trans (.setList hM.mem_b2 (by rw [List.length_take]; omega))
    have hflush : flushTo g buffer s.b2 = some (h, buffer.drop (s.heap.nr s.b2)) := by
      rw [flushTo_eq (by omega), hh, hgnr]
    have hself : h.list s.b2 = buffer.take (s.heap.nr s.b2) := by rw [hh, Heap.setList_self]
    have hlist : ∀ c, c ≠ s.b2 → h.list c = s.heap.list c := fun c hc => by rw [hh, Heap.setList_of_ne _ hc, hglist]
    have hseq : ∀ xs : List ℕ, s.b2 ∉ xs → sequence h xs = sequence s.heap xs := fun xs hxs =>
      sequence_congr fun c hc => hlist c (ne_of_mem_of_not_mem hc hxs)
    have hring : Ring h.links (D ++ s.b2 :: s.b1 :: (R1 ++ E ++ R2) ++ post) := by
      rw [hh]
      exact hring
    have hb1 : h.list s.b1 = s.heap.list s.b1 := hlist _ hne
    have hempty : ∀ b ∈ E, h.list b = [] := fun b hb => by
      rw [hlist b (ne_of_mem_of_not_mem hb hE2), hM.empty b hb]
    have hperm : (D ++ s.b2 :: s.b1 :: (R1 ++ E ++ R2)).Perm blocks := by
      refine List.Perm.trans ?_ hM.perm
      refine List.Perm.append_left D ?_
      have hswap : ((s.b1 :: (R1 ++ E)) ++ s.b2 :: R2).Perm (s.b2 :: ((s.b1 :: (R1 ++ E)) ++ R2)) := List.perm_middle
      exact hswap.symm
    have hhead : (D ++ [s.b2]).head? = some (if s.b1 = s.newhead then s.b2 else s.newhead) := by
      have hnew := hM.newhead
      cases D with
      | nil => rw [if_pos (Option.some.inj hnew)]; rfl
      | cons x D =>
        obtain rfl : x = s.newhead := Option.some.inj hnew
        rw [if_neg fun heq => hD (by rw [heq]; exact List.mem_cons_self)]
        rfl
    simp only [hflush, Option.bind_eq_bind, Option.bind_some]
    rcases hM.nextFilled_moved hring with ⟨skipped, b', R2', hR2eq, hskipped, hb', heq⟩ | ⟨hnone, c, heq⟩
    · have hold : sequence s.heap R2 = h.list b' ++ sequence h R2' := by
        rw [← hseq R2 hR22, hR2eq, sequence_append, sequence_cons, sequence_of_empty hskipped, List.nil_append]
      rw [hold] at hmerged hleft huntagged
      simp only [heq, if_neg (Nat.succ_ne_zero R2'.length)]
      refine ⟨D ++ [s.b2], R1, E ++ skipped, R2', ⟨?_, ?_, hM.fills.trans hfills, hM.full, hM.n, rfl, ?_, ?_, ?_, ?_,
        ?_, ?_, ?_, ?_⟩, ?_⟩
      · rw [hR2eq] at hring
        simpa using hring
      · rw [hR2eq] at hperm
        simpa using hperm
      · intro b hb
        rcases List.mem_append.1 hb with hb | hb
        · exact hempty b hb
        · exact hskipped b hb
      · change s.i1 < h.nr s.b1
        rw [hfills.nr]
        exact hM.i1
      · exact List.length_pos_iff.2 hb'
      · simp only [List.length_drop, hlength, Nat.add_sub_cancel_left, Nat.add_zero]
      · rw [← hhead]
        cases D <;> rfl
      · simpa only [hb1, hseq R1 hR12] using hM.untagged1
      · simpa only [List.drop_zero] using huntagged
      · rw [← hmerged]
        simp only [sequence_append, sequence_cons, sequence_nil, hseq D hD2, hself, List.append_nil, List.drop_zero,
          hb1, hseq R1 hR12]
        rw [List.append_assoc, ← List.append_assoc (buffer.take _), List.take_append_drop]
      · simpa only [Merge.left, List.drop_zero, hb1, hseq R1 hR12] using hleft
    · have hR2nil : sequence s.heap R2 = [] := by rw [← hseq R2 hR22, sequence_of_empty hnone]
      rw [hR2nil, List.merge_right] at hmerged
      have hnr1 : h.nr s.b1 = s.heap.nr s.b1 := hfills.nr s.b1
      have hdump : (buffer.drop (s.heap.nr s.b2)).length = s.i1 := by
        rw [List.length_drop, hlength, Nat.add_sub_cancel_left]
      have hi1 : s.i1 ≤ h.nr s.b1 := hnr1.symm ▸ hM.i1.le
      simp only [heq, if_true, dumpTo_eq (hdump.trans_le hi1), hdump, Option.bind_some]
      have hlast : SameFills h blocks (blocks ++ post)
          (h.setList s.b1 (buffer.drop (s.heap.nr s.b2) ++ (h.list s.b1).drop s.i1)) := by
        refine .setList hM.mem_b1 ?_
        rw [List.length_append, hdump, List.length_drop]
        exact Nat.add_sub_cancel' hi1
      refine ⟨D ++ s.b2 :: s.b1 :: (R1 ++ E ++ R2), ⟨hring, hperm, (hM.fills.trans hfills).trans hlast, ?_, ?_⟩⟩
      · rw [← hhead]
        cases D <;> rfl
      · have hnodup := (List.nodup_append.1 hring.nodup).1
        have hsplit : D ++ s.b2 :: s.b1 :: (R1 ++ E ++ R2) = (D ++ [s.b2]) ++ s.b1 :: (R1 ++ E ++ R2) := by simp
        rw [hsplit] at hnodup ⊢
        simp only
        rw [sequence_setList hnodup, ← hmerged]
        simp only [sequence_append, sequence_cons, sequence_nil, hseq D hD2, hself, sequence_of_empty hnone,
          sequence_of_empty hempty, List.append_nil, hb1, hseq R1 hR12, List.append_assoc]
        rw [← List.append_assoc (buffer.take _), List.take_append_drop]

/-- One step of the loop: the buffer has room, and no index is outside of its block. -/
theorem step {fuel : ℕ} (hfuel : blocks.length < fuel) :
    Advances cmp h₀ blocks post T (s.left R1 R2) (s.step cmp fuel) := by
  obtain ⟨d1, hd1⟩ : ∃ d, (s.heap.list s.b1)[s.i1]? = some d := ⟨_, List.getElem?_eq_getElem hM.i1⟩
  obtain ⟨d2, hd2⟩ : ∃ d, (s.heap.list s.b2)[s.i2]? = some d := ⟨_, List.getElem?_eq_getElem hM.i2⟩
  have hmem : ∀ b (i : ℕ) d xs, (s.heap.list b)[i]? = some d → d ∈ (s.heap.list b).drop i ++ xs := by
    intro b i d xs hd
    refine List.mem_append_left _ (List.mem_of_getElem? (i := 0) ?_)
    rw [List.getElem?_drop, Nat.add_zero, hd]
  have hread1 := ptrEntry_eq hd1 (hM.untagged1 d1 (hmem _ _ _ _ hd1))
  have hread2 := ptrEntry_eq hd2 (hM.untagged2 d2 (hmem _ _ _ _ hd2))
  simp only [Merge.step, hread1, hread2, if_neg (Nat.not_le.2 hM.nbuf_lt)]
  by_cases hle : cmp d1 d2 ≤ 0
  · rw [if_pos hle]
    exact hM.takeFirst hd1 hd2 hle hfuel
  · rw [if_neg hle]
    exact hM.takeSecond hd1 hd2 hle

omit hM in
theorem loop {fuel : ℕ} (hM : Merging cmp h₀ blocks post T s D R1 E R2) (hfuel : s.left R1 R2 + blocks.length < fuel) :
    ∃ result bs, s.loop cmp fuel = some result ∧ Merged h₀ blocks post T result bs := by
  induction fuel generalizing s D R1 E R2 with
  | zero => omega
  | succ fuel ih =>
    have hstep := hM.step (show blocks.length < fuel + 1 by omega)
    rw [Merge.loop]
    cases hs : s.step cmp (fuel + 1) with
    | none =>
      rw [hs] at hstep
      exact hstep.elim
    | some next =>
      rw [hs] at hstep
      cases next with
      | inl s' =>
        obtain ⟨D', R1', E', R2', hM', hless⟩ := hstep
        exact ih hM' (by omega)
      | inr result =>
        obtain ⟨bs, hmerged⟩ := hstep
        exact ⟨result, bs, rfl, hmerged⟩

end Merging

/-! ## Two sequences of blocks -/

variable {h : Heap P} {B1 B2 post : List ℕ} {b1 b2 : ℕ} {p : Entry P} {fuel : ℕ}

/-- The blocks that the quick skip passes have no entry above `p`. -/
theorem skipBlocks_spec (hle : TotalPreorder (leOf cmp)) (hp : (h.list b2).head? = some p) (huntag : p.untag = p)
    (huntagged : ∀ e ∈ sequence h xs, e.untag = e) (hsorted : ∀ b ∈ xs, Sorted (leOf cmp) (h.list b))
    (hchain : (xs ++ [c]).IsChain h.links.Linked) (hhead : (xs ++ [c]).head? = some b1) :
    (∃ skipped b rest, xs = skipped ++ b :: rest ∧ h.list b ≠ [] ∧ (∀ e ∈ sequence h skipped, leOf cmp e p) ∧
        skipBlocks cmp h b2 b1 xs.length = some (b, rest.length + 1)) ∨
      (∀ e ∈ sequence h xs, leOf cmp e p) ∧ skipBlocks cmp h b2 b1 xs.length = some (c, 0) := by
  induction xs generalizing b1 with
  | nil =>
    obtain rfl : c = b1 := by simpa using hhead
    exact .inr ⟨fun e he => absurd he List.not_mem_nil, rfl⟩
  | cons x xs ih =>
    obtain rfl : x = b1 := by simpa using hhead
    obtain ⟨hx, hxs⟩ := List.forall_mem_cons.1 hsorted
    have hnext : (xs ++ [c]).head? = some (h.links.next x) := by
      cases xs with
      | nil => exact congrArg some (List.isChain_cons_cons.1 hchain).1.1.symm
      | cons y ys => exact congrArg some (List.isChain_cons_cons.1 hchain).1.1.symm
    have ih := ih (fun e he => huntagged e (List.mem_append_right _ he)) hxs hchain.tail hnext
    -- The entries of a block that is skipped come before `p`.
    have hskip : (∀ e ∈ h.list x, leOf cmp e p) →
        skipBlocks cmp h b2 x (x :: xs).length = skipBlocks cmp h b2 (h.links.next x) xs.length →
        (∃ skipped b rest, x :: xs = skipped ++ b :: rest ∧ h.list b ≠ [] ∧
            (∀ e ∈ sequence h skipped, leOf cmp e p) ∧
            skipBlocks cmp h b2 x (x :: xs).length = some (b, rest.length + 1)) ∨
          (∀ e ∈ sequence h (x :: xs), leOf cmp e p) ∧
            skipBlocks cmp h b2 x (x :: xs).length = some (c, 0) := by
      intro hall heq
      have hcons : ∀ {zs : List ℕ}, (∀ e ∈ sequence h zs, leOf cmp e p) → ∀ e ∈ sequence h (x :: zs), leOf cmp e p := by
        intro zs hzs e he
        rcases List.mem_append.1 he with he | he
        · exact hall e he
        · exact hzs e he
      rw [heq]
      rcases ih with ⟨skipped, b, rest, rfl, hb, hbelow, hres⟩ | ⟨hbelow, hres⟩
      · exact .inl ⟨x :: skipped, b, rest, rfl, hb, hcons hbelow, hres⟩
      · exact .inr ⟨hcons hbelow, hres⟩
    rcases List.eq_nil_or_concat' (h.list x) with hempty | ⟨init, last, hlast⟩
    · have hnr : h.nr x = 0 := by rw [Heap.nr, hempty, List.length_nil]
      refine hskip (fun e he => absurd (hempty ▸ he) List.not_mem_nil) ?_
      simp [skipBlocks, hnr]
    · have hnr : h.nr x = init.length + 1 := by rw [Heap.nr, hlast, List.length_append, List.length_singleton]
      have hlastuntag : last.untag = last := huntagged last (List.mem_append_left _ (by rw [hlast]; simp))
      have hread1 : h.ptrEntry x ((h.nr x : ℤ) - 1) = .entry last := by
        have hindex : ((h.nr x : ℤ) - 1) = (init.length : ℤ) := by omega
        rw [hindex]
        exact ptrEntry_eq (by rw [hlast]; simp) hlastuntag
      have hread2 : h.ptrEntry b2 0 = .entry p := by
        rw [List.head?_eq_getElem?] at hp
        exact ptrEntry_eq hp huntag
      have hstep : skipBlocks cmp h b2 x (x :: xs).length =
          if cmp last p < 0 then skipBlocks cmp h b2 (h.links.next x) xs.length else some (x, xs.length + 1) := by
        rw [List.length_cons, skipBlocks, if_neg (by omega), hread1, hread2]
        simp
      by_cases hless : cmp last p < 0
      · refine hskip (fun e he => ?_) (by rw [hstep, if_pos hless])
        have hlastp : leOf cmp last p = true := leOf_iff.2 (Int.le_of_lt hless)
        rw [hlast] at he hx
        rcases List.mem_append.1 he with he | he
        · exact hle.trans _ _ _ ((List.pairwise_append.1 hx).2.2 e he last List.mem_cons_self) hlastp
        · rw [List.mem_singleton.1 he]
          exact hlastp
      · refine .inl ⟨[], x, xs, rfl, ?_, fun e he => absurd he List.not_mem_nil, by rw [hstep, if_neg hless]⟩
        rw [hlast]
        simp

/-- The empty blocks in front of the first block that is not empty. -/
theorem firstFilled_spec (hchain : (B2 ++ [c]).IsChain h.links.Linked) (hb2 : B2.head? = some b2) :
    (∃ E b R, B2 = E ++ b :: R ∧ (∀ x ∈ E, h.list x = []) ∧ h.list b ≠ [] ∧
        (if h.nr b2 = 0 then nextFilled h b2 B2.length else (b2, B2.length)) = (b, R.length + 1)) ∨
      (∀ x ∈ B2, h.list x = []) ∧
        (if h.nr b2 = 0 then nextFilled h b2 B2.length else (b2, B2.length)).2 = 0 := by
  obtain ⟨t, rfl⟩ : ∃ t, B2 = b2 :: t := by
    cases B2 with
    | nil => cases hb2
    | cons x t => exact ⟨t, by rw [Option.some.inj hb2]⟩
  by_cases hempty : h.list b2 = []
  · rw [if_pos (by rw [Heap.nr, hempty, List.length_nil]), List.length_cons]
    rcases nextFilled_spec hchain with ⟨skipped, b, R, rfl, hskipped, hb, heq⟩ | ⟨hall, heq⟩
    · exact .inl ⟨b2 :: skipped, b, R, rfl, List.forall_mem_cons.2 ⟨hempty, hskipped⟩, hb, heq⟩
    · exact .inr ⟨List.forall_mem_cons.2 ⟨hempty, hall⟩, by rw [heq]⟩
  · rw [if_neg (by rw [Heap.nr]; simpa using hempty)]
    exact .inl ⟨[], b2, t, rfl, fun x hx => absurd hx List.not_mem_nil, hempty, rfl⟩

/-- `merge_block_seqs` merges what stands in the blocks. -/
theorem mergeBlockSeqs_spec (hle : TotalPreorder (leOf cmp)) (hring : Ring h.links (B1 ++ B2 ++ post))
    (hb1 : B1.head? = some b1) (hb2 : B2.head? = some b2) (hfull : ∀ b ∈ B1 ++ B2, h.nr b ≤ listNodeNr)
    (huntagged : ∀ e ∈ sequence h (B1 ++ B2), e.untag = e) (hsorted : Sorted (leOf cmp) (sequence h B1))
    (hfuel : (sequence h (B1 ++ B2)).length + (B1 ++ B2).length < fuel) :
    ∃ result bs, mergeBlockSeqs cmp fuel h b1 B1.length b2 B2.length = some result ∧
      Merged h (B1 ++ B2) post (List.merge (sequence h B1) (sequence h B2) (leOf cmp)) result bs := by
  have hchain2 : ∃ c, (B2 ++ [c]).IsChain h.links.Linked := by
    have hrot : Ring h.links (B2 ++ (post ++ B1)) := by
      rw [List.append_assoc] at hring
      simpa using hring.rotate
    obtain ⟨c, rest, hc⟩ : ∃ c rest, post ++ B1 = c :: rest := by
      refine List.exists_cons_of_ne_nil fun hnil => ?_
      rw [(List.append_eq_nil_iff.1 hnil).2] at hb1
      cases hb1
    rw [hc] at hrot
    exact ⟨c, List.IsChain.infix hrot.path.chain ⟨[], rest, by simp⟩⟩
  have hhead : (B1 ++ B2).head? = some b1 := by
    cases B1 with
    | nil => cases hb1
    | cons x t => exact hb1
  obtain ⟨c2, hchain2⟩ := hchain2
  rw [mergeBlockSeqs]
  rcases firstFilled_spec hchain2 hb2 with ⟨E, b, R, rfl, hE, hb, heq⟩ | ⟨hnone, heq⟩
  · simp only [heq, if_neg (Nat.succ_ne_zero R.length)]
    obtain ⟨p, es, hp⟩ := List.exists_cons_of_ne_nil hb
    have hseq2 : sequence h (E ++ b :: R) = h.list b ++ sequence h R := by
      rw [sequence_append, sequence_of_empty hE, List.nil_append, sequence_cons]
    have huntag2 : ∀ e ∈ h.list b ++ sequence h R, e.untag = e := fun e he => by
      rw [← hseq2] at he
      exact huntagged e (by rw [sequence_append]; exact List.mem_append_right _ he)
    have huntag1 : ∀ e ∈ sequence h B1, e.untag = e := fun e he =>
      huntagged e (by rw [sequence_append]; exact List.mem_append_left _ he)
    have hmerge : ∀ xs ys : List (Entry P), (∀ e ∈ xs, leOf cmp e p) →
        List.merge (xs ++ ys) (h.list b ++ sequence h R) (leOf cmp) =
          xs ++ List.merge ys (h.list b ++ sequence h R) (leOf cmp) := fun xs ys hxs => by
      rw [hp, List.cons_append]
      exact merge_append hxs
    obtain ⟨c, rest, hc⟩ : ∃ c rest, E ++ b :: R = c :: rest := List.exists_cons_of_ne_nil (by simp)
    have hchain1 : (B1 ++ [c]).IsChain h.links.Linked := by
      have hpath := hring.path.chain
      rw [hc] at hpath
      exact List.IsChain.infix hpath ⟨[], rest ++ post, by simp⟩
    have hblock : ∀ x ∈ B1, Sorted (leOf cmp) (h.list x) := fun x hx => by
      obtain ⟨us, vs, rfl⟩ := List.append_of_mem hx
      rw [sequence_append, sequence_cons] at hsorted
      exact (List.pairwise_append.1 (List.pairwise_append.1 hsorted).2.1).1
    have hhead1 : (B1 ++ [c]).head? = some b1 := by
      cases B1 with
      | nil => cases hb1
      | cons x t => exact hb1
    have hpmem : p ∈ h.list b ++ sequence h R := by
      rw [hp]
      exact List.mem_cons_self
    rcases skipBlocks_spec hle (show (h.list b).head? = some p by rw [hp]; rfl) (huntag2 p hpmem) huntag1 hblock
      hchain1 hhead1 with ⟨D, x, R1, rfl, hx, hbelow, hskip⟩ | ⟨hbelow, hskip⟩
    · simp only [hskip, Option.bind_eq_bind, Option.bind_some, if_neg (Nat.succ_ne_zero R1.length)]
      have hM : Merging cmp h ((D ++ x :: R1) ++ (E ++ b :: R)) post
          (List.merge (sequence h (D ++ x :: R1)) (sequence h (E ++ b :: R)) (leOf cmp))
          ⟨h, x, R1.length + 1, 0, b, R.length + 1, 0, [], b1⟩ D R1 E R := by
        refine ⟨by simpa using hring, by simp, .refl _ _ _, hfull, rfl, rfl, hE, List.length_pos_iff.2 hx,
          List.length_pos_iff.2 hb, rfl, ?_, ?_, ?_, ?_⟩
        · rw [← hb1]
          cases D <;> rfl
        · intro e he
          refine huntag1 e ?_
          rw [sequence_append]
          exact List.mem_append_right _ he
        · exact huntag2
        · simp only [List.drop_zero, List.nil_append]
          rw [hseq2, sequence_append h D, hmerge _ _ hbelow, sequence_cons]
      refine hM.loop ?_
      refine Nat.lt_of_le_of_lt (Nat.add_le_add_right ?_ _) hfuel
      simp only [Merge.left, List.drop_zero, sequence_append, sequence_cons, List.length_append]
      omega
    · simp only [hskip, Option.bind_eq_bind, Option.bind_some, if_true]
      refine ⟨_, B1 ++ (E ++ b :: R), rfl, hring, .refl _, .refl _ _ _, hhead, ?_⟩
      have hall := hmerge (sequence h B1) [] hbelow
      rw [List.append_nil, List.nil_merge] at hall
      rw [sequence_append h B1, hseq2, hall]
  · simp only [heq, if_true]
    refine ⟨_, B1 ++ B2, rfl, hring, .refl _, .refl _ _ _, hhead, ?_⟩
    rw [sequence_append, sequence_of_empty hnone, List.merge_right, List.append_nil]

end Sparse.PtrList
