import Sparse.BlockMerging

/-!
# Sorting pointer lists

`sort_list` sorts the entries of each block and then merges runs of 1, 2, 4 and so on blocks in pairs,
until one run takes in the whole list.
-/

namespace Sparse.PtrList
open CircularChain StableSorting

variable {P : Type} (cmp : Entry P → Entry P → ℤ)

/-- `array_sort`: one entry after the other goes back past those that are above it. What stands in
front of the index `i` has its last entry first here. -/
def arraySort (ptr : List (Entry P)) : List (Entry P) :=
  (ptr.foldl (fun before p => insertBack (leOf cmp) p before) []).reverse

/-- The first loop over `i` in `sort_list`: none where it comes to the head. -/
def secondBlock (h : Heap P) (head : ℕ) : ℕ → ℕ → Option ℕ
  | 0, block2 => some block2
  | i + 1, block2 =>
    let block2 := h.links.next block2
    if block2 = head then none else secondBlock h head i block2

/-- The second loop over `i`, with `next` and how often it ran. -/
def nextRun (h : Heap P) (head : ℕ) : ℕ → ℕ → ℕ × ℕ
  | 0, next => (next, 0)
  | i + 1, next =>
    let next := h.links.next next
    if next = head then (next, 1)
    else
      let (next, i) := nextRun h head i next
      (next, i + 1)

/-- The loop over `block1`, with the list and whether it is in order. -/
def mergePass (fuel blocks : ℕ) : ℕ → Heap P → ℕ → ℕ → Option (Heap P × ℕ × Bool)
  | 0, _, _, _ => none
  | rounds + 1, h, head, block1 =>
    match secondBlock h head blocks block1 with
    | none => some (h, head, decide (block1 = head))
    | some block2 => do
      let (next, i) := nextRun h head blocks block2
      let (h, newhead) ← mergeBlockSeqs cmp fuel h block1 blocks block2 i
      let head := if block1 = head then newhead else head
      if next = head then some (h, head, false) else mergePass fuel blocks rounds h head next

def mergePasses (fuel : ℕ) : ℕ → ℕ → Heap P → ℕ → Option (Heap P × ℕ)
  | 0, _, _, _ => none
  | passes + 1, blocks, h, head => do
    let (h, head, done) ← mergePass cmp fuel blocks fuel h head head
    if done then some (h, head) else mergePasses fuel passes (2 * blocks) h head

/-- `sort_list`. -/
def sortList (fuel : ℕ) (h : Heap P) : Option ℕ → Option (Heap P × Option ℕ)
  | none => some (h, none)
  | some head => do
    let h ← nodeLoop (fun h => forward h.links head)
      (fun b h => (h.setList b (arraySort cmp (h.list b)), false)) fuel head h
    let (h, head) ← mergePasses cmp fuel fuel 1 h head
    some (h, some head)

variable {cmp} {h h' : Heap P} {bs pre todo post xs : List ℕ} {b head block : ℕ} {k : ℕ}

theorem arraySort_rearranges (hle : TotalPreorder (leOf cmp)) (es : List (Entry P)) :
    Rearranges (leOf cmp) es (arraySort cmp es) ∧ Sorted (leOf cmp) (arraySort cmp es) := by
  have hfold := foldl_insertBack hle List.Pairwise.nil es
  rw [List.reverse_nil, List.nil_append] at hfold
  exact hfold

/-! ## The loops over `i` -/

/-- From a block of a circle to the head again. -/
theorem chain_to_head (hring : Ring h.links (pre ++ todo)) (hhead : (pre ++ todo).head? = some head)
    (htodo : todo ≠ []) : (todo ++ [head]).IsChain h.links.Linked ∧ head ∉ todo.tail := by
  cases pre with
  | nil =>
    cases todo with
    | nil => exact absurd rfl htodo
    | cons x t =>
      obtain rfl : x = head := Option.some.inj hhead
      exact ⟨hring.2, (List.nodup_cons.1 hring.1).1⟩
  | cons x pre =>
    obtain rfl : x = head := Option.some.inj hhead
    have hchain : (todo ++ [x]).IsChain h.links.Linked :=
      List.IsChain.infix hring.rotate.path.chain ⟨[], pre, by simp⟩
    refine ⟨hchain, fun hmem => ?_⟩
    exact (List.nodup_cons.1 hring.nodup).1 (List.mem_append_right _ (List.mem_of_mem_tail hmem))

theorem secondBlock_none (hchain : (block :: (xs ++ [head])).IsChain h.links.Linked) (hlength : xs.length < k) :
    secondBlock h head k block = none := by
  induction k generalizing block xs with
  | zero => omega
  | succ k ih =>
    cases xs with
    | nil =>
      have hnext : h.links.next block = head := (List.isChain_cons_cons.1 hchain).1.1
      simp [secondBlock, hnext]
    | cons x xs =>
      have hnext : h.links.next block = x := (List.isChain_cons_cons.1 hchain).1.1
      rw [secondBlock, hnext]
      split_ifs
      · rfl
      · exact ih (List.isChain_cons_cons.1 hchain).2 (by simpa using hlength)

theorem secondBlock_some (hchain : (block :: (xs ++ [head])).IsChain h.links.Linked) (hhead : head ∉ xs)
    {rest : List ℕ} (hsplit : block :: xs = pre ++ b :: rest) (hlength : pre.length = k) :
    secondBlock h head k block = some b := by
  induction k generalizing block xs pre with
  | zero =>
    obtain rfl := List.length_eq_zero_iff.1 hlength
    exact congrArg some (List.cons.inj hsplit).1
  | succ k ih =>
    cases pre with
    | nil => cases hlength
    | cons y pre =>
      obtain ⟨rfl, hrest⟩ := List.cons.inj hsplit
      cases xs with
      | nil => exact absurd hrest.symm (List.append_ne_nil_of_right_ne_nil _ (List.cons_ne_nil _ _))
      | cons x xs =>
        have hnext : h.links.next block = x := (List.isChain_cons_cons.1 hchain).1.1
        obtain ⟨hx, hxs⟩ := not_or.1 (fun hmem => hhead (List.mem_cons.2 hmem))
        rw [secondBlock, hnext]
        simp only [if_neg (Ne.symm hx)]
        exact ih (List.isChain_cons_cons.1 hchain).2 hxs hrest (by simpa using hlength)

theorem nextRun_last (hchain : (block :: (xs ++ [head])).IsChain h.links.Linked) (hhead : head ∉ xs)
    (hlength : xs.length < k) : nextRun h head k block = (head, xs.length + 1) := by
  induction k generalizing block xs with
  | zero => omega
  | succ k ih =>
    cases xs with
    | nil =>
      have hnext : h.links.next block = head := (List.isChain_cons_cons.1 hchain).1.1
      simp [nextRun, hnext]
    | cons x xs =>
      have hnext : h.links.next block = x := (List.isChain_cons_cons.1 hchain).1.1
      obtain ⟨hx, hxs⟩ := not_or.1 (fun hmem => hhead (List.mem_cons.2 hmem))
      rw [nextRun, hnext]
      simp only [if_neg (Ne.symm hx), ih (List.isChain_cons_cons.1 hchain).2 hxs (by simpa using hlength)]
      rfl

theorem nextRun_next (hchain : (block :: (xs ++ [head])).IsChain h.links.Linked) (hhead : head ∉ xs)
    {rest : List ℕ} (hsplit : block :: xs = pre ++ b :: rest) (hlength : pre.length = k) :
    nextRun h head k block = (b, k) := by
  induction k generalizing block xs pre with
  | zero =>
    obtain rfl := List.length_eq_zero_iff.1 hlength
    rw [nextRun, (List.cons.inj hsplit).1]
  | succ k ih =>
    cases pre with
    | nil => cases hlength
    | cons y pre =>
      obtain ⟨rfl, hrest⟩ := List.cons.inj hsplit
      cases xs with
      | nil => exact absurd hrest.symm (List.append_ne_nil_of_right_ne_nil _ (List.cons_ne_nil _ _))
      | cons x xs =>
        have hnext : h.links.next block = x := (List.isChain_cons_cons.1 hchain).1.1
        obtain ⟨hx, hxs⟩ := not_or.1 (fun hmem => hhead (List.mem_cons.2 hmem))
        rw [nextRun, hnext]
        simp only [if_neg (Ne.symm hx), ih (List.isChain_cons_cons.1 hchain).2 hxs hrest (by simpa using hlength)]

/-! ## Passes -/

/-- What merging in pairs keeps of the list with the blocks `bs₀`, which has become that with `bs`. -/
structure Sorting (cmp : Entry P → Entry P → ℤ) (h₀ : Heap P) (bs₀ : List ℕ) (h : Heap P) (head : ℕ)
    (bs : List ℕ) : Prop where
  ring : Ring h.links bs
  head : bs.head? = some head
  perm : bs.Perm bs₀
  fills : SameFills h₀ bs₀ bs₀ h
  rearranges : Rearranges (leOf cmp) (sequence h₀ bs₀) (sequence h bs)

/-- The entries can be sorted: no block is overfull and no entry has a tag. -/
structure Sortable (h₀ : Heap P) (bs₀ : List ℕ) : Prop where
  full : ∀ b ∈ bs₀, h₀.nr b ≤ listNodeNr
  untagged : ∀ e ∈ sequence h₀ bs₀, e.untag = e

theorem SameFills.mono {blocks ring blocks' ring' : List ℕ} (hf : SameFills h blocks ring h')
    (hblocks : blocks ⊆ blocks') (hring : ring ⊆ ring') : SameFills h blocks' ring' h' :=
  ⟨hf.nr, fun b hb => hf.list b fun hmem => hb (hblocks hmem), fun b hb => hf.next b fun hmem => hb (hring hmem),
    fun b hb => hf.prev b fun hmem => hb (hring hmem), hf.fresh⟩

theorem flatten_map (h : Heap P) (xs : List ℕ) : (xs.map h.list).flatten = sequence h xs := List.flatMap_def.symm

section
variable {h₀ : Heap P} {bs₀ B1 B2 : List ℕ} {fuel : ℕ}

/-- The merge of two runs. -/
theorem Sorting.merge (hle : TotalPreorder (leOf cmp)) (hsortable : Sortable h₀ bs₀)
    (hS : Sorting cmp h₀ bs₀ h head (pre ++ (B1 ++ B2) ++ post)) {b1 b2 : ℕ} (hb1 : B1.head? = some b1)
    (hb2 : B2.head? = some b2) (hsorted1 : Sorted (leOf cmp) (sequence h B1))
    (hfuel : (sequence h₀ bs₀).length + bs₀.length < fuel) :
    ∃ h' newhead bs, mergeBlockSeqs cmp fuel h b1 B1.length b2 B2.length = some (h', newhead) ∧
      Sorting cmp h₀ bs₀ h' (if pre = [] then newhead else head) (pre ++ bs ++ post) ∧
      bs.length = (B1 ++ B2).length ∧ bs.head? = some newhead ∧
      sequence h' bs = List.merge (sequence h B1) (sequence h B2) (leOf cmp) ∧ pre.map h'.list = pre.map h.list ∧
      post.map h'.list = post.map h.list := by
  have hmem : ∀ b ∈ B1 ++ B2, b ∈ bs₀ := fun b hb =>
    hS.perm.mem_iff.1 (List.mem_append_left _ (List.mem_append_right _ hb))
  have hsub : sequence h (B1 ++ B2) ⊆ sequence h (pre ++ (B1 ++ B2) ++ post) := fun e he => by
    rw [sequence_append, sequence_append h pre]
    exact List.mem_append_left _ (List.mem_append_right _ he)
  have hring : Ring h.links (B1 ++ B2 ++ (post ++ pre)) := by
    have hcut : Ring h.links (pre ++ (B1 ++ B2 ++ post)) := by simpa using hS.ring
    simpa using hcut.rotate
  have hlength : (sequence h (B1 ++ B2)).length + (B1 ++ B2).length < fuel := by
    refine Nat.lt_of_le_of_lt (Nat.add_le_add ?_ ?_) hfuel
    · rw [← hS.rearranges.perm.length_eq]
      simp only [sequence_append, List.length_append]
      omega
    · rw [← hS.perm.length_eq]
      simp only [List.length_append]
      omega
  obtain ⟨⟨h', newhead⟩, bs, heq, hM⟩ := mergeBlockSeqs_spec hle hring hb1 hb2
    (fun b hb => by rw [hS.fills.nr]; exact hsortable.full b (hmem b hb))
    (fun e he => hsortable.untagged e (hS.rearranges.perm.mem_iff.1 (hsub he))) hsorted1 hlength
  have hnodup := hS.ring.nodup
  simp only [List.nodup_append, List.mem_append] at hnodup
  obtain ⟨⟨-, -, hpre⟩, -, hpost⟩ := hnodup
  have hlistpre : ∀ b ∈ pre, h'.list b = h.list b := fun b hb =>
    hM.fills.list b fun hmem => hpre b hb b (List.mem_append.1 hmem) rfl
  have hlistpost : ∀ b ∈ post, h'.list b = h.list b := fun b hb =>
    hM.fills.list b fun hmem => hpost b (.inr (List.mem_append.1 hmem)) b hb rfl
  have hperm : (pre ++ bs ++ post).Perm bs₀ := ((hM.perm.append_left pre).append_right post).trans hS.perm
  refine ⟨h', newhead, bs, heq, ⟨?_, ?_, hperm, hS.fills.trans (hM.fills.mono ?_ ?_), ?_⟩, hM.perm.length_eq, hM.head,
    hM.merged, List.map_congr_left hlistpre, List.map_congr_left hlistpost⟩
  · have hcut : Ring h'.links ((bs ++ post) ++ pre) := by simpa using hM.ring
    simpa using hcut.rotate
  · cases pre with
    | nil =>
      have hhead := hM.head
      cases bs with
      | nil => cases hhead
      | cons x t => exact hhead
    | cons x pre => exact hS.head
  · exact fun b hb => hmem b hb
  · intro b hb
    refine hS.perm.mem_iff.1 ?_
    simp only [List.mem_append] at hb ⊢
    tauto
  · refine hS.rearranges.trans ?_
    rw [sequence_append, sequence_append h pre, sequence_append h', sequence_append h' pre, sequence_congr hlistpre,
      sequence_congr hlistpost, hM.merged, sequence_append h B1]
    exact ((Rearranges.refl _).append (merge_rearranges hle hsorted1)).append (.refl _)

/-- What a pass has still to merge: either the runs behind it are merged and those in front are not, or
the whole list is in order, where the first block was moved in the last merge of the pass. -/
def InRuns (cmp : Entry P → Entry P → ℤ) (k : ℕ) (h : Heap P) (pre todo : List ℕ) : Prop :=
  FullRuns (leOf cmp) (2 * k) (pre.map h.list) ∧ Runs (leOf cmp) k (todo.map h.list) ∨
    pre ≠ [] ∧ Sorted (leOf cmp) (sequence h (pre ++ todo))

theorem InRuns.last (hk : 0 < k) (hruns : InRuns cmp k h pre todo) (hlength : todo.length ≤ k) :
    (pre = [] → Sorted (leOf cmp) (sequence h todo)) ∧ Runs (leOf cmp) (2 * k) ((pre ++ todo).map h.list) := by
  rcases hruns with ⟨hpre, htodo⟩ | ⟨hne, hsorted⟩
  · have hall := htodo.sorted (by simpa using hlength)
    refine ⟨fun _ => by rwa [← flatten_map], ?_⟩
    rw [List.map_append]
    exact hpre.append (.last (by rw [List.length_map]; omega) hall)
  · exact ⟨fun hnil => absurd hnil hne, .of_sorted (by omega) (by rwa [flatten_map])⟩

theorem InRuns.pair (hruns : InRuns cmp k h pre (B1 ++ B2 ++ post)) (h1 : B1.length = k)
    (h2 : B2.length = k ∨ post = [] ∧ B2.length ≤ k) :
    Sorted (leOf cmp) (sequence h B1) ∧ Sorted (leOf cmp) (sequence h B2) := by
  rcases hruns with ⟨-, htodo⟩ | ⟨-, hsorted⟩
  · rw [List.append_assoc, List.map_append] at htodo
    obtain ⟨hfirst, hrest⟩ := htodo.split
    rw [List.take_left' (by rw [List.length_map, h1]), flatten_map] at hfirst
    rw [List.drop_left' (by rw [List.length_map, h1]), List.map_append] at hrest
    refine ⟨hfirst, ?_⟩
    have hsecond := hrest.split.1
    rcases h2 with h2 | ⟨rfl, h2⟩
    · rwa [List.take_left' (by rw [List.length_map, h2]), flatten_map] at hsecond
    · rwa [List.map_nil, List.append_nil, List.take_of_length_le (by rwa [List.length_map]), flatten_map] at hsecond
  · simp only [sequence_append] at hsorted
    have hpair := (List.pairwise_append.1 (List.pairwise_append.1 hsorted).2.1).1
    exact ⟨(List.pairwise_append.1 hpair).1, (List.pairwise_append.1 hpair).2.1⟩

/-- The runs after two of them were merged. -/
theorem InRuns.step (hle : TotalPreorder (leOf cmp)) (hruns : InRuns cmp k h pre (B1 ++ B2 ++ post))
    (h1 : B1.length = k) (h2 : B2.length = k ∨ post = [] ∧ B2.length ≤ k) (hlength : bs.length = (B1 ++ B2).length)
    (hmerged : sequence h' bs = List.merge (sequence h B1) (sequence h B2) (leOf cmp))
    (hpre : pre.map h'.list = pre.map h.list) (hpost : post.map h'.list = post.map h.list) :
    Sorted (leOf cmp) (sequence h' bs) ∧ (post ≠ [] → bs ≠ [] → InRuns cmp k h' (pre ++ bs) post) ∧
      (post = [] → 0 < k → Runs (leOf cmp) (2 * k) ((pre ++ bs).map h'.list)) := by
  obtain ⟨hs1, hs2⟩ := hruns.pair h1 h2
  have hsorted : Sorted (leOf cmp) (sequence h' bs) := by
    rw [hmerged]
    exact merge_sorted hle hs1 hs2
  have hwhole : pre ≠ [] → Sorted (leOf cmp) (sequence h (pre ++ (B1 ++ B2 ++ post))) →
      Sorted (leOf cmp) (sequence h' (pre ++ bs ++ post)) := fun _ hall => by
    have hflat : ∀ {xs : List ℕ}, xs.map h'.list = xs.map h.list → sequence h' xs = sequence h xs := fun hxs => by
      rw [← flatten_map, hxs, flatten_map]
    have hpair : Sorted (leOf cmp) (sequence h B1 ++ sequence h B2) := by
      simp only [sequence_append] at hall
      exact (List.pairwise_append.1 (List.pairwise_append.1 hall).2.1).1
    rw [sequence_append, sequence_append, hflat hpre, hflat hpost, hmerged, merge_of_sorted_append hpair]
    simpa only [sequence_append, List.append_assoc] using hall
  refine ⟨hsorted, fun hpostne hbs => ?_, fun hnil hk => ?_⟩
  · rcases hruns with ⟨hdone, htodo⟩ | ⟨hne, hall⟩
    · refine .inl ⟨?_, ?_⟩
      · rw [List.map_append, hpre]
        refine hdone.concat ?_ (by rwa [flatten_map])
        rw [List.length_map, hlength, List.length_append, h1]
        rcases h2 with h2 | ⟨h2, -⟩
        · omega
        · exact absurd h2 hpostne
      · rw [hpost]
        rw [List.map_append] at htodo
        have hrest := htodo.split.2
        rw [List.map_append, List.append_assoc, List.drop_left' (by rw [List.length_map, h1])] at hrest
        rcases h2 with h2 | ⟨h2, -⟩
        · have hlast := hrest.split.2
          rwa [List.drop_left' (by rw [List.length_map, h2])] at hlast
        · exact absurd h2 hpostne
    · exact .inr ⟨List.append_ne_nil_of_left_ne_nil hne _, hwhole hne hall⟩
  · have hshort : bs.length ≤ 2 * k := by
      rw [hlength, List.length_append, h1]
      rcases h2 with h2 | ⟨-, h2⟩ <;> omega
    rcases hruns with ⟨hdone, -⟩ | ⟨hne, hall⟩
    · rw [List.map_append, hpre]
      exact hdone.append (.last (by rwa [List.length_map]) (by rwa [flatten_map]))
    · refine .of_sorted (by omega) ?_
      have hfinal := hwhole hne hall
      rwa [hnil, List.append_nil, ← flatten_map] at hfinal

/-- The second run of a pair, and where the next pair starts. -/
theorem nextRun_spec {block2 : ℕ} {rest : List ℕ} (hk : 0 < k)
    (hchain : (block2 :: (rest ++ [head])).IsChain h.links.Linked) (hhead : head ∉ rest) :
    ∃ B2 post next, block2 :: rest = B2 ++ post ∧ B2.head? = some block2 ∧
      nextRun h head k block2 = (next, B2.length) ∧
      (post = [] ∧ next = head ∧ B2.length ≤ k ∨ post.head? = some next ∧ B2.length = k) := by
  rcases Nat.lt_or_ge rest.length k with hshort | hlong
  · exact ⟨block2 :: rest, [], head, by simp, rfl, nextRun_last hchain hhead hshort, .inl ⟨rfl, rfl, hshort⟩⟩
  · have hlength : ((block2 :: rest).take k).length = k := List.length_take_of_le (by simp; omega)
    obtain ⟨next, post, hpost⟩ : ∃ next post, (block2 :: rest).drop k = next :: post :=
      List.exists_cons_of_ne_nil fun hnil => by
        rw [List.drop_eq_nil_iff, List.length_cons] at hnil
        omega
    have hsplit : block2 :: rest = (block2 :: rest).take k ++ next :: post := by
      rw [← hpost, List.take_append_drop]
    refine ⟨(block2 :: rest).take k, next :: post, next, hsplit, ?_, ?_, .inr ⟨rfl, hlength⟩⟩
    · rw [List.head?_take, if_neg (by omega)]
      rfl
    · rw [nextRun_next hchain hhead hsplit hlength, hlength]

theorem mergePass_spec (hle : TotalPreorder (leOf cmp)) (hsortable : Sortable h₀ bs₀) (hk : 0 < k)
    (hfuel : (sequence h₀ bs₀).length + bs₀.length < fuel) {rounds : ℕ} (hS : Sorting cmp h₀ bs₀ h head (pre ++ todo))
    (hblock : todo.head? = some block) (hruns : InRuns cmp k h pre todo) (hlong : pre = [] ∨ k < bs₀.length)
    (hrounds : todo.length ≤ rounds) :
    ∃ h' head' done bs, mergePass cmp fuel k rounds h head block = some (h', head', done) ∧
      Sorting cmp h₀ bs₀ h' head' bs ∧
      if done then Sorted (leOf cmp) (sequence h' bs)
      else Runs (leOf cmp) (2 * k) (bs.map h'.list) ∧ k < bs₀.length := by
  induction rounds generalizing h head pre todo block with
  | zero =>
    rw [List.length_eq_zero_iff.1 (Nat.le_zero.1 hrounds)] at hblock
    cases hblock
  | succ rounds ih =>
    obtain ⟨t, rfl⟩ : ∃ t, todo = block :: t := by
      cases todo with
      | nil => cases hblock
      | cons x t => exact ⟨t, by rw [Option.some.inj hblock]⟩
    have hfirst : block = head ↔ pre = [] := by
      have hhead := hS.head
      cases pre with
      | nil => exact iff_of_true (Option.some.inj hhead) rfl
      | cons x pre =>
        obtain rfl : x = head := Option.some.inj hhead
        refine iff_of_false (fun heq => ?_) (List.cons_ne_nil _ _)
        have hnodup := (List.nodup_cons.1 hS.ring.nodup).1
        exact hnodup (by rw [heq]; simp)
    obtain ⟨hchain, hnot⟩ := chain_to_head hS.ring hS.head (List.cons_ne_nil _ _)
    rw [mergePass]
    rcases Nat.lt_or_ge t.length k with hshort | hfar
    · obtain ⟨hsorted, hnext⟩ := hruns.last hk (by rw [List.length_cons]; omega)
      rw [secondBlock_none hchain hshort]
      refine ⟨h, head, decide (block = head), pre ++ block :: t, rfl, hS, ?_⟩
      by_cases hnil : pre = []
      · rw [if_pos (decide_eq_true (hfirst.2 hnil)), hnil]
        exact hsorted hnil
      · rw [if_neg (by simpa [hfirst] using hnil)]
        exact ⟨hnext, hlong.resolve_left hnil⟩
    · have hlength : ((block :: t).take k).length = k := List.length_take_of_le (by simp; omega)
      obtain ⟨block2, rest, hrest⟩ : ∃ block2 rest, (block :: t).drop k = block2 :: rest :=
        List.exists_cons_of_ne_nil fun hnil => by
          rw [List.drop_eq_nil_iff, List.length_cons] at hnil
          omega
      obtain ⟨B1, hB1⟩ : ∃ B1, B1 = (block :: t).take k := ⟨_, rfl⟩
      rw [← hB1] at hlength
      have hsplit : block :: t = B1 ++ block2 :: rest := by rw [hB1, ← hrest, List.take_append_drop]
      have hb1 : B1.head? = some block := by
        rw [hB1, List.head?_take, if_neg (by omega)]
        rfl
      have hlarge : k < bs₀.length := by
        rw [← hS.perm.length_eq, List.length_append, List.length_cons]
        omega
      have hrestchain : (block2 :: (rest ++ [head])).IsChain h.links.Linked := by
        rw [hsplit] at hchain
        exact List.IsChain.infix hchain ⟨B1, [], by simp⟩
      have hrestnot : head ∉ rest := fun hmem => by
        refine hnot ?_
        rw [hsplit]
        cases B1 with
        | nil => cases hb1
        | cons x B1 => simp [hmem]
      obtain ⟨B2, post, next, hpair, hb2, hnext, hend⟩ := nextRun_spec hk hrestchain hrestnot
      rw [secondBlock_some hchain hnot hsplit hlength]
      rw [hpair, ← List.append_assoc] at hsplit
      rw [hsplit] at hS hruns hrounds
      have h2 : B2.length = k ∨ post = [] ∧ B2.length ≤ k :=
        hend.elim (fun h => .inr ⟨h.1, h.2.2⟩) fun h => .inl h.2
      rw [← List.append_assoc] at hS
      obtain ⟨h', newhead, bs, hmerge, hS', hcount, hhead', hmerged, hpremap, hpostmap⟩ :=
        hS.merge hle hsortable hb1 hb2 (hruns.pair hlength h2).1 hfuel
      obtain ⟨hsorted, hgo, hstop⟩ := hruns.step hle hlength h2 hcount hmerged hpremap hpostmap
      rw [hlength] at hmerge
      have hbs : bs ≠ [] := fun hnil => by rw [hnil] at hhead'; cases hhead'
      simp only [hnext, hmerge, Option.bind_eq_bind, Option.bind_some, hfirst]
      have hcount' : bs.length = B1.length + B2.length := by rw [hcount, List.length_append]
      simp only [List.length_append] at hrounds
      rcases hend with ⟨rfl, rfl, -⟩ | ⟨hpost, hB2⟩
      · rw [List.append_nil] at hS'
        by_cases hsame : next = if pre = [] then newhead else next
        · rw [if_pos hsame, ← hsame]
          rw [← hsame] at hS'
          exact ⟨h', next, false, pre ++ bs, rfl, hS', hstop rfl hk, hlarge⟩
        · -- All blocks were merged, and another one has become the first.
          rw [if_neg hsame]
          have hnil : pre = [] := by
            by_contra hne
            exact hsame (if_neg hne).symm
          subst hnil
          rw [if_pos rfl] at hsame hS' ⊢
          rw [List.nil_append] at hS'
          have hmem : next ∈ bs := by
            have hin : next ∈ bs₀ := hS.perm.mem_iff.1 (List.mem_of_head? hS.head)
            exact hS'.perm.mem_iff.2 hin
          obtain ⟨us, vs, rfl⟩ := List.append_of_mem hmem
          have hus : us ≠ [] := by
            rintro rfl
            exact hsame (Option.some.inj hhead')
          refine ih hS' rfl (.inr ⟨hus, hsorted⟩) (.inr hlarge) ?_
          have hpos := List.length_pos_iff.2 hus
          simp only [List.length_append, List.length_cons, List.length_nil] at hcount' hrounds ⊢
          omega
      · obtain ⟨t', rfl⟩ : ∃ t', post = next :: t' := by
          cases post with
          | nil => cases hpost
          | cons x t' => exact ⟨t', by rw [Option.some.inj hpost]⟩
        have hne : next ≠ if pre = [] then newhead else head := by
          intro heq
          have hhead := hS'.head
          rw [← heq] at hhead
          obtain ⟨x, us, hus⟩ := List.exists_cons_of_ne_nil (List.append_ne_nil_of_right_ne_nil pre hbs)
          have hnodup := hS'.ring.nodup
          rw [hus] at hhead hnodup
          obtain rfl : x = next := Option.some.inj hhead
          exact (List.nodup_cons.1 hnodup).1 (by simp)
        rw [if_neg hne]
        refine ih hS' rfl (hgo (List.cons_ne_nil _ _) hbs) (.inr hlarge) ?_
        simp only [List.length_cons] at hrounds ⊢
        omega

theorem mergePasses_spec (hle : TotalPreorder (leOf cmp)) (hsortable : Sortable h₀ bs₀) (hk : 0 < k)
    (hfuel : (sequence h₀ bs₀).length + bs₀.length < fuel) {passes : ℕ} (hS : Sorting cmp h₀ bs₀ h head bs)
    (hruns : Runs (leOf cmp) k (bs.map h.list)) (hpos : 0 < passes) (hpasses : bs₀.length < passes + k) :
    ∃ h' head' bs', mergePasses cmp fuel passes k h head = some (h', head') ∧ Sorting cmp h₀ bs₀ h' head' bs' ∧
      Sorted (leOf cmp) (sequence h' bs') := by
  induction passes generalizing h head bs k with
  | zero => omega
  | succ passes ih =>
    have hrounds : bs.length ≤ fuel := by
      rw [hS.perm.length_eq]
      omega
    obtain ⟨h', head', done, bs', hpass, hS', hdone⟩ := mergePass_spec hle hsortable hk hfuel
      (show Sorting cmp h₀ bs₀ h head ([] ++ bs) from hS) hS.head (.inl ⟨.nil, hruns⟩) (.inl rfl) hrounds
    rw [mergePasses]
    simp only [hpass, Option.bind_eq_bind, Option.bind_some]
    cases done with
    | true => exact ⟨h', head', bs', rfl, hS', by simpa using hdone⟩
    | false =>
      obtain ⟨hruns', hless⟩ : Runs (leOf cmp) (2 * k) (bs'.map h'.list) ∧ k < bs₀.length := by simpa using hdone
      exact ih (by omega) hS' hruns' (by omega) (by omega)

end

/-! ## The whole list -/

theorem sequence_rearranges {xs : List ℕ} (hxs : ∀ b ∈ xs, Rearranges (leOf cmp) (h.list b) (h'.list b)) :
    Rearranges (leOf cmp) (sequence h xs) (sequence h' xs) := by
  induction xs with
  | nil => exact .refl _
  | cons x xs ih =>
    obtain ⟨hx, hrest⟩ := List.forall_mem_cons.1 hxs
    exact hx.append (ih hrest)

/-- The first loop of `sort_list`. -/
theorem sortBlocks_spec (hle : TotalPreorder (leOf cmp)) {fuel : ℕ} (hring : Ring h.links bs)
    (hhead : bs.head? = some head) (hfuel : bs.length ≤ fuel) :
    ∃ h', nodeLoop (fun h => forward h.links head) (fun b h => (h.setList b (arraySort cmp (h.list b)), false))
        fuel head h = some h' ∧ Sorting cmp h bs h' head bs ∧ ∀ b ∈ bs, Sorted (leOf cmp) (h'.list b) := by
  obtain ⟨t, rfl⟩ : ∃ t, bs = head :: t := by
    cases bs with
    | nil => cases hhead
    | cons x t => exact ⟨t, by rw [Option.some.inj hhead]⟩
  have hnodup := hring.nodup
  obtain ⟨h', heq, hlinks, hfresh, hlist⟩ : ∃ h', nodeLoop (fun h => forward h.links head)
      (fun b h => (h.setList b (arraySort cmp (h.list b)), false)) fuel head h = some h' ∧ h'.links = h.links ∧
        h'.fresh = h.fresh ∧ ∀ b, h'.list b = if b ∈ head :: t then arraySort cmp (h.list b) else h.list b := by
    refine nodeLoop_invariant (fun done (g : Heap P) => g.links = h.links ∧ g.fresh = h.fresh ∧
        ∀ b, g.list b = if b ∈ done then arraySort cmp (h.list b) else h.list b) _
      (fun done b todo g hxs hinv => ?_) (fun done b todo g hxs hinv => ?_) (fun g hinv => hinv)
      (show head :: t = [] ++ head :: t from rfl) ⟨rfl, rfl, fun b => by simp⟩ hfuel
    · rw [hinv.1]
      exact hring.forward_eq hxs
    · obtain ⟨hlinks, hfresh, hlist⟩ := hinv
      rw [hxs, List.nodup_middle, List.nodup_cons] at hnodup
      have hb : b ∉ done := fun hmem => hnodup.1 (List.mem_append_left _ hmem)
      refine ⟨hlinks, hfresh, fun c => ?_⟩
      rcases eq_or_ne c b with rfl | hne
      · simp [hlist, hb]
      · simp [Heap.setList_of_ne _ hne, hlist, hne]
  refine ⟨h', heq, ⟨hlinks ▸ hring, rfl, .refl _, ⟨fun b => ?_, fun b hb => ?_, fun b _ => by rw [hlinks],
    fun b _ => by rw [hlinks], hfresh⟩, sequence_rearranges fun b hb => ?_⟩, fun b hb => ?_⟩
  · rw [Heap.nr, Heap.nr, hlist]
    split_ifs
    · exact (arraySort_rearranges hle _).1.perm.length_eq
    · rfl
  · rw [hlist, if_neg hb]
  · rw [hlist, if_pos hb]
    exact (arraySort_rearranges hle _).1
  · rw [hlist, if_pos hb]
    exact (arraySort_rearranges hle _).2

/-- `sort_list` is a stable sort. It ends, reads and writes nothing outside a block or its buffer, and
leaves the same blocks with the same numbers of entries. -/
theorem sortList_stable {listp : Option ℕ} {fuel : ℕ} (hle : TotalPreorder (leOf cmp)) (hh : Holds h listp bs)
    (huntagged : ∀ e ∈ sequence h bs, e.untag = e) (hfuel : (sequence h bs).length + bs.length < fuel) :
    ∃ h' listp' bs', sortList cmp fuel h listp = some (h', listp') ∧ Holds h' listp' bs' ∧ Change h bs h' bs' ∧
      bs'.Perm bs ∧ (∀ b, h'.nr b = h.nr b) ∧ Rearranges (leOf cmp) (sequence h bs) (sequence h' bs') ∧
      Sorted (leOf cmp) (sequence h' bs') := by
  cases listp with
  | none =>
    obtain rfl := hh.eq_nil
    exact ⟨h, none, [], rfl, hh, .refl _ _, .refl _, fun _ => rfl, .refl _, List.Pairwise.nil⟩
  | some head =>
    have hne : bs ≠ [] := fun hnil => by
      have hhead := hh.head
      rw [hnil] at hhead
      cases hhead
    obtain ⟨g, hloop, hS, hsorted⟩ := sortBlocks_spec hle (hh.ring hne) hh.head.symm
      (show bs.length ≤ fuel by omega)
    have hruns : Runs (leOf cmp) 1 (bs.map g.list) := .single fun c hc => by
      obtain ⟨b, hb, rfl⟩ := List.mem_map.1 hc
      exact hsorted b hb
    have hlength := List.length_pos_iff.2 hne
    obtain ⟨h', head', bs', hpasses, hS', hfinal⟩ := mergePasses_spec hle ⟨hh.fill, huntagged⟩ Nat.one_pos hfuel hS
      hruns (show 0 < fuel by omega) (by omega)
    refine ⟨h', some head', bs', ?_, ⟨hS'.head.symm, fun _ => hS'.ring, fun b hb => ?_, fun b hb => ?_⟩,
      ⟨fun c _ hc => hS'.fills.next c hc, fun c _ hc => hS'.fills.prev c hc, fun c _ hc => hS'.fills.list c hc,
        hS'.fills.fresh.ge, fun b hb => .inl (hS'.perm.mem_iff.1 hb)⟩, hS'.perm, hS'.fills.nr, hS'.rearranges, hfinal⟩
    · rw [sortList]
      simp only [hloop, hpasses, Option.bind_eq_bind, Option.bind_some]
    · rw [hS'.fills.nr]
      exact hh.fill b (hS'.perm.mem_iff.1 hb)
    · rw [hS'.fills.fresh]
      exact hh.fresh b (hS'.perm.mem_iff.1 hb)

/-- Two blocks of numbered keys. -/
def keyedBlocks : Heap (ℕ × ℕ) where
  links := ⟨fun b => 1 - b, fun b => 1 - b⟩
  list
    | 0 => [⟨(3, 0), 0⟩, ⟨(1, 1), 0⟩]
    | 1 => [⟨(2, 2), 0⟩, ⟨(1, 3), 0⟩]
    | _ => []
  fresh := 2

def keyCmp (a b : Entry (ℕ × ℕ)) : ℤ := a.ptr.1 - b.ptr.1

theorem keyedBlocks_sorted : ∃ h' listp' bs', sortList keyCmp 7 keyedBlocks (some 0) = some (h', listp') ∧
    Holds h' listp' bs' ∧ Rearranges (leOf keyCmp) (sequence keyedBlocks [0, 1]) (sequence h' bs') ∧
    Sorted (leOf keyCmp) (sequence h' bs') := by
  have hle : TotalPreorder (leOf keyCmp) := by
    refine ⟨fun a b c hab hbc => ?_, fun a b => ?_⟩
    · rw [leOf_iff, keyCmp] at *
      omega
    · rw [leOf_iff, leOf_iff, keyCmp, keyCmp]
      omega
  have hholds : Holds keyedBlocks (some 0) [0, 1] := by
    refine ⟨rfl, fun _ => ⟨by decide, ?_⟩, by decide, by decide⟩
    refine .cons_cons ⟨rfl, rfl⟩ (.cons_cons ⟨rfl, rfl⟩ (.singleton _))
  obtain ⟨h', listp', bs', hsort, hholds', -, -, -, hrearranges, hsorted⟩ :=
    sortList_stable hle hholds (by decide) (show _ < 7 by decide)
  exact ⟨h', listp', bs', hsort, hholds', hrearranges, hsorted⟩

end Sparse.PtrList
