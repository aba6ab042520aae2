import Sparse.PtrListEntries

/-!
# Pointer lists over whole runs

Several list variables over one heap. Every operation acts on the sequence of its
own list as the sequence operation it is named for, so that the lists of every
reachable store are sequences, and the readers read them. What relies on blocks
that are not empty does so after every operation but `undo_ptr_list_last` and a
`DELETE_CURRENT` that is not packed yet.
-/

namespace Sparse.PtrList
open CircularChain

variable {ι P : Type} [DecidableEq ι]

/-- The list variables of a program. -/
structure Store (ι P : Type) where
  heap : Heap P
  lists : ι → Option ℕ

/-- No list has a block yet. -/
def Store.empty : Store ι P where
  heap := ⟨⟨id, id⟩, fun _ => [], 0⟩
  lists _ := none

/-- The operations; those of a running iteration have the block and index of its cursor. -/
inductive Op (ι P : Type)
  | add (i : ι) (e : Entry P)
  | insertCurrent (i : ι) (block nr : ℕ) (e : Entry P)
  | deleteCurrent (i : ι) (block nr : ℕ)
  | pack (i : ι)
  | split (i : ι) (block : ℕ)
  | deleteEntry (i : ι) (entry : P) (count : ℤ)
  | replaceEntry (i : ι) (old new : P) (count : ℤ)
  | undoLast (i : ι)
  | deleteLast (i : ι)
  | concat (a i : ι)

namespace Op

/-- The list that changes. -/
def target : Op ι P → ι
  | add i _ => i
  | insertCurrent i _ _ _ => i
  | deleteCurrent i _ _ => i
  | pack i => i
  | split i _ => i
  | deleteEntry i _ _ => i
  | replaceEntry i _ _ _ => i
  | undoLast i => i
  | deleteLast i => i
  | concat _ i => i

/-- The operation on the store, with the entry it returns. -/
def exec [DecidableEq P] (fuel : ℕ) (s : Store ι P) : Op ι P → Except Failure (Store ι P × Option (Entry P))
  | add i e =>
    let r := addPtrList s.heap (s.lists i) e
    .ok (⟨r.1, Function.update s.lists i (some r.2)⟩, none)
  | insertCurrent _ block nr e => .ok (⟨(PtrList.insertCurrent s.heap e block nr).1, s.lists⟩, none)
  | deleteCurrent _ block nr => .ok (⟨PtrList.deleteCurrent s.heap block nr, s.lists⟩, none)
  | pack i =>
    match packPtrList fuel s.heap (s.lists i) with
    | none => .error .outOfFuel
    | some r => .ok (⟨r.1, Function.update s.lists i r.2⟩, none)
  | split _ block => .ok (⟨splitPtrListHead s.heap block, s.lists⟩, none)
  | deleteEntry i entry count =>
    match deletePtrListEntry fuel s.heap entry count (s.lists i) with
    | .error f => .error f
    | .ok r => .ok (⟨r.1, Function.update s.lists i r.2⟩, none)
  | replaceEntry i old new count =>
    match replacePtrListEntry fuel s.heap old new count (s.lists i) with
    | .error f => .error f
    | .ok h => .ok (⟨h, s.lists⟩, none)
  | undoLast i =>
    match undoPtrListLast fuel s.heap (s.lists i) with
    | none => .error .outOfFuel
    | some r => .ok (⟨r.1, s.lists⟩, r.2)
  | deleteLast i =>
    let r := deletePtrListLast s.heap (s.lists i)
    .ok (⟨r.1, Function.update s.lists i r.2.1⟩, r.2.2)
  | concat a i =>
    match concatPtrList fuel s.heap (s.lists a) (s.lists i) with
    | none => .error .outOfFuel
    | some r => .ok (⟨r.1, Function.update s.lists i r.2⟩, none)

/-- The operation on sequences. -/
def apply [DecidableEq P] (xs : ι → List (Entry P)) (position : ℕ) : Op ι P → List (Entry P)
  | add i e => xs i ++ [e]
  | insertCurrent i _ _ e => (xs i).insertIdx position e
  | deleteCurrent i _ _ => (xs i).eraseIdx position
  | pack i => xs i
  | split i _ => xs i
  | deleteEntry i entry count => deleteEntries (points entry) (xs i) count.toNat
  | replaceEntry i old new count => replaceEntries (points old) ⟨new, 0⟩ (xs i) count.toNat
  | undoLast i => (xs i).dropLast
  | deleteLast i => (xs i).dropLast
  | concat a i => xs i ++ (xs a).map Entry.untag

/-- What the operation returns. -/
def returned (xs : ι → List (Entry P)) : Op ι P → Option (Entry P)
  | undoLast i => (xs i).getLast?
  | deleteLast i => (xs i).getLast?
  | _ => none

/-- The operation may leave an empty block. -/
def unpacks (s : Store ι P) : Op ι P → Bool
  | undoLast _ => true
  | deleteCurrent _ _ _ => true
  | split _ block => decide (s.heap.nr block < 2)
  | _ => false

/-- The operation leaves no empty block. -/
def packs : Op ι P → Bool
  | pack _ => true
  | deleteEntry _ _ _ => true
  | deleteLast _ => true
  | _ => false

end Op

/-- Every variable holds its blocks, and no two share one. -/
structure Valid (s : Store ι P) (blocks : ι → List ℕ) : Prop where
  holds : ∀ i, Holds s.heap (s.lists i) (blocks i)
  disjoint : ∀ i j, i ≠ j → ∀ b ∈ blocks i, b ∉ blocks j

/-- The sequences of the lists. -/
def sequences (s : Store ι P) (blocks : ι → List ℕ) (i : ι) : List (Entry P) :=
  sequence s.heap (blocks i)

/-- The number of entries before a cursor. -/
def position (h : Heap P) (bs : List ℕ) (block nr : ℕ) : ℕ :=
  (sequence h (bs.takeWhile (· ≠ block))).length + nr

namespace Op

/-- The position of the cursor of the operation. -/
def position (s : Store ι P) (blocks : ι → List ℕ) : Op ι P → ℕ
  | insertCurrent i block nr _ => PtrList.position s.heap (blocks i) block nr
  | deleteCurrent i block nr => PtrList.position s.heap (blocks i) block nr
  | _ => 0

/-- How the operation is used: a cursor is at an entry, a count is not more than
there are occurrences, a list is not added to itself, and `delete_ptr_list_last`
finds a list without empty blocks. -/
def Admissible [DecidableEq P] (s : Store ι P) (blocks : ι → List ℕ) : Op ι P → Prop
  | insertCurrent i block nr _ => block ∈ blocks i ∧ nr < s.heap.nr block
  | deleteCurrent i block nr => block ∈ blocks i ∧ nr < s.heap.nr block
  | split i block => block ∈ blocks i
  | deleteEntry i entry count => count.toNat ≤ (sequences s blocks i).countP (points entry)
  | replaceEntry i old _ count => count.toNat ≤ (sequences s blocks i).countP (points old)
  | deleteLast i => Packed s.heap (blocks i)
  | concat a i => a ≠ i
  | _ => True

end Op

variable {s s' : Store ι P} {blocks : ι → List ℕ} {i : ι}

/-- A change of one list of a valid store. -/
theorem Valid.acts (hv : Valid s blocks) {h' : Heap P} {listp' : Option ℕ} {bs' : List ℕ}
    {es : List (Entry P)} (hacts : Acts s.heap (blocks i) h' listp' bs' es) :
    Valid ⟨h', Function.update s.lists i listp'⟩ (Function.update blocks i bs') ∧
      sequences (⟨h', Function.update s.lists i listp'⟩ : Store ι P) (Function.update blocks i bs') =
        Function.update (sequences s blocks) i es := by
  have hframe : ∀ j, j ≠ i → Holds h' (s.lists j) (blocks j) ∧
      sequence h' (blocks j) = sequence s.heap (blocks j) ∧ ∀ c ∈ blocks j, c ∉ bs' := fun j hj =>
    hacts.change.frame (hv.disjoint j i hj) (hv.holds j)
  refine ⟨⟨fun j => ?_, fun j k hjk => ?_⟩, ?_⟩
  · rcases eq_or_ne j i with rfl | hj
    · simpa only [Function.update_self] using hacts.holds
    · simpa only [Function.update_of_ne hj] using (hframe j hj).1
  · rcases eq_or_ne j i with rfl | hj
    · rw [Function.update_self, Function.update_of_ne hjk.symm]
      exact fun b hb hbk => (hframe k hjk.symm).2.2 b hbk hb
    · rw [Function.update_of_ne hj]
      rcases eq_or_ne k i with rfl | hk
      · rw [Function.update_self]
        exact (hframe j hj).2.2
      · rw [Function.update_of_ne hk]
        exact hv.disjoint j k hjk
  · funext j
    rcases eq_or_ne j i with rfl | hj
    · simp only [sequences, Function.update_self]
      exact hacts.sequence
    · simp only [sequences, Function.update_of_ne hj]
      exact (hframe j hj).2.1

/-- What the operation does to a valid store. -/
structure Executes [DecidableEq P] (s : Store ι P) (blocks : ι → List ℕ) (op : Op ι P) (s' : Store ι P)
    (blocks' : ι → List ℕ) : Prop where
  valid : Valid s' blocks'
  sequences : sequences s' blocks' =
    Function.update (sequences s blocks) op.target (op.apply (sequences s blocks) (op.position s blocks))
  others : ∀ i, i ≠ op.target → blocks' i = blocks i ∧ (Packed s.heap (blocks i) → Packed s'.heap (blocks' i))
  kept : op.unpacks s = false → Packed s.heap (blocks op.target) → Packed s'.heap (blocks' op.target)
  packed : op.packs = true → Packed s'.heap (blocks' op.target)

/-- A change of the target of an operation. -/
theorem Valid.executes [DecidableEq P] (hv : Valid s blocks) (op : Op ι P) {h' : Heap P} {listp' : Option ℕ}
    {bs' : List ℕ} {es : List (Entry P)} (hacts : Acts s.heap (blocks op.target) h' listp' bs' es)
    (hes : es = op.apply (sequences s blocks) (op.position s blocks))
    (hkept : op.unpacks s = false → Packed s.heap (blocks op.target) → Packed h' bs')
    (hpacked : op.packs = true → Packed h' bs') :
    Executes s blocks op ⟨h', Function.update s.lists op.target listp'⟩
      (Function.update blocks op.target bs') where
  valid := (hv.acts hacts).1
  sequences := by
    rw [(hv.acts hacts).2, hes]
  others i hi := by
    rw [Function.update_of_ne hi]
    refine ⟨rfl, fun hp b hb => ?_⟩
    rw [hacts.change.list b ((hv.holds i).fresh b hb) (hv.disjoint i _ hi b hb)]
    exact hp b hb
  kept hu hp := by
    rw [Function.update_self]
    exact hkept hu hp
  packed hp := by
    rw [Function.update_self]
    exact hpacked hp

/-- A change of the target that keeps its first block. -/
theorem Valid.executes_same [DecidableEq P] (hv : Valid s blocks) (op : Op ι P) {h' : Heap P}
    {bs' : List ℕ} {es : List (Entry P)}
    (hacts : Acts s.heap (blocks op.target) h' (s.lists op.target) bs' es)
    (hes : es = op.apply (sequences s blocks) (op.position s blocks))
    (hkept : op.unpacks s = false → Packed s.heap (blocks op.target) → Packed h' bs')
    (hpacked : op.packs = true → Packed h' bs') :
    Executes s blocks op ⟨h', s.lists⟩ (Function.update blocks op.target bs') := by
  have hex := hv.executes op hacts hes hkept hpacked
  rwa [Function.update_eq_self] at hex

/-- The entries before a cursor are those of the blocks before and of its own. -/
theorem position_eq {h : Heap P} {xs ys : List ℕ} {b nr : ℕ} (hn : (xs ++ b :: ys).Nodup)
    (hnr : nr ≤ h.nr b) : position h (xs ++ b :: ys) b nr = (before h xs b nr).length := by
  have htake : (xs ++ b :: ys).takeWhile (· ≠ b) = xs := by
    have hxs : ∀ c ∈ xs, decide (c ≠ b) = true := fun c hc => by
      simpa using (List.nodup_append.1 hn).2.2 c hc b List.mem_cons_self
    rw [List.takeWhile_append_of_pos hxs, List.takeWhile_cons_of_neg (by simp), List.append_nil]
  have hnr' : nr ≤ (h.list b).length := hnr
  rw [position, htake, before, List.length_append, List.length_take, Nat.min_eq_left hnr']

theorem insertIdx_length_append {α : Type} (xs ys : List α) (a : α) :
    (xs ++ ys).insertIdx xs.length a = xs ++ a :: ys := by
  induction xs with
  | nil => rfl
  | cons x xs ih => rw [List.cons_append, List.length_cons, List.insertIdx_succ_cons, ih, List.cons_append]

theorem eraseIdx_length_append {α : Type} (xs ys : List α) :
    (xs ++ ys).eraseIdx xs.length = xs ++ ys.tail := by
  rw [List.eraseIdx_append_of_length_le (Nat.le_refl _), Nat.sub_self, List.eraseIdx_zero]

/-- Every operation, used as it is meant to be, does to its own list what it is named
for. -/
theorem exec_executes [DecidableEq P] (hv : Valid s blocks) {op : Op ι P} (hadm : op.Admissible s blocks) {fuel : ℕ}
    (hfuel : s.heap.fresh ≤ fuel) :
    ∃ s' blocks', op.exec fuel s = .ok (s', op.returned (sequences s blocks)) ∧
      Executes s blocks op s' blocks' := by
  have hlength : ∀ j, (blocks j).length ≤ fuel := fun j => (hv.holds j).length_le.trans hfuel
  have hcursor : ∀ {j block nr}, block ∈ blocks j → nr < s.heap.nr block →
      ∃ xs ys, blocks j = xs ++ block :: ys ∧
        position s.heap (blocks j) block nr = (before s.heap xs block nr).length := by
    intro j block nr hmem hnr
    obtain ⟨xs, ys, hbs⟩ := List.append_of_mem hmem
    refine ⟨xs, ys, hbs, ?_⟩
    rw [hbs]
    exact position_eq (hbs ▸ (hv.holds j).nodup) hnr.le
  cases op with
  | add i e =>
    obtain ⟨bs', hacts, hpacked⟩ := addPtrList_acts (hv.holds i) e
    have hex := hv.executes (Op.add i e) hacts rfl (fun _ => hpacked) (by simp [Op.packs])
    exact ⟨_, _, rfl, hex⟩
  | insertCurrent i block nr e =>
    obtain ⟨xs, ys, hbs, hpos⟩ := hcursor hadm.1 hadm.2
    obtain ⟨xs', b', nr', ys', -, hacts, -, -, hpacked⟩ :=
      insertCurrent_acts (hbs ▸ hv.holds i) hadm.2 e
    rw [← hbs] at hacts hpacked
    have hseq : before s.heap xs block nr ++ e :: from_ s.heap block nr ys =
        (Op.insertCurrent i block nr e).apply (sequences s blocks)
          ((Op.insertCurrent i block nr e).position s blocks) := by
      show _ = (sequence s.heap (blocks i)).insertIdx (position s.heap (blocks i) block nr) e
      rw [hpos, hbs, ← before_append_from s.heap xs block nr ys, insertIdx_length_append]
    have hex := hv.executes_same (Op.insertCurrent i block nr e) hacts hseq (fun _ => hpacked)
      (by simp [Op.packs])
    exact ⟨_, _, rfl, hex⟩
  | deleteCurrent i block nr =>
    obtain ⟨xs, ys, hbs, hpos⟩ := hcursor hadm.1 hadm.2
    obtain ⟨hacts, -⟩ := deleteCurrent_acts (hbs ▸ hv.holds i) hadm.2
    rw [← hbs] at hacts
    have hseq : before s.heap xs block nr ++ (from_ s.heap block nr ys).tail =
        (Op.deleteCurrent i block nr).apply (sequences s blocks)
          ((Op.deleteCurrent i block nr).position s blocks) := by
      show _ = (sequence s.heap (blocks i)).eraseIdx (position s.heap (blocks i) block nr)
      rw [hpos, hbs, ← before_append_from s.heap xs block nr ys, eraseIdx_length_append]
    have hex := hv.executes_same (Op.deleteCurrent i block nr) hacts hseq (by simp [Op.unpacks])
      (by simp [Op.packs])
    exact ⟨_, _, rfl, hex⟩
  | pack i =>
    obtain ⟨h', listp', heq, hacts, hpacked⟩ := packPtrList_acts (hv.holds i) (hlength i)
    have hex := hv.executes (Op.pack i) hacts rfl (fun _ _ => hpacked) (fun _ => hpacked)
    refine ⟨_, _, ?_, hex⟩
    simp only [Op.exec, heq]
    rfl
  | split i block =>
    obtain ⟨xs, ys, hbs⟩ := List.append_of_mem hadm
    obtain ⟨hacts, -⟩ := splitPtrListHead_acts (hbs ▸ hv.holds i)
    have hkept : (Op.split i block).unpacks s = false → Packed s.heap (blocks i) →
        Packed (splitPtrListHead s.heap block) (xs ++ block :: s.heap.fresh :: ys) := by
      intro hu hp
      have hnr : 2 ≤ s.heap.nr block := Nat.not_lt.1 (of_decide_eq_false hu)
      rw [hbs] at hp
      exact splitPtrListHead_packed (hbs ▸ hv.holds i) hnr hp
    rw [← hbs] at hacts
    have hex := hv.executes_same (Op.split i block) hacts rfl hkept (by simp [Op.packs])
    exact ⟨_, _, rfl, hex⟩
  | deleteEntry i entry count =>
    obtain ⟨h', listp', bs', heq, hacts, hpacked⟩ :=
      deletePtrListEntry_acts (hv.holds i) entry hadm (hlength i)
    have hex := hv.executes (Op.deleteEntry i entry count) hacts rfl (fun _ _ => hpacked)
      (fun _ => hpacked)
    refine ⟨_, _, ?_, hex⟩
    simp only [Op.exec, heq]
    rfl
  | replaceEntry i old new count =>
    obtain ⟨h', heq, hacts, hpacked⟩ := replacePtrListEntry_acts (hv.holds i) old new hadm (hlength i)
    have hex := hv.executes_same (Op.replaceEntry i old new count) hacts rfl (fun _ => hpacked)
      (by simp [Op.packs])
    refine ⟨_, _, ?_, hex⟩
    simp only [Op.exec, heq]
    rfl
  | undoLast i =>
    obtain ⟨h', heq, hacts⟩ := undoPtrListLast_acts (hv.holds i) (hlength i)
    have hex := hv.executes_same (Op.undoLast i) hacts rfl (by simp [Op.unpacks]) (by simp [Op.packs])
    refine ⟨_, _, ?_, hex⟩
    simp only [Op.exec, heq]
    rfl
  | deleteLast i =>
    obtain ⟨h', listp', bs', heq, hacts, hpacked⟩ := deletePtrListLast_acts (hv.holds i) hadm
    have hex := hv.executes (Op.deleteLast i) hacts rfl (fun _ _ => hpacked) (fun _ => hpacked)
    refine ⟨_, _, ?_, hex⟩
    simp only [Op.exec, heq]
    rfl
  | concat a i =>
    obtain ⟨h', listp', bs', heq, hacts, hpacked⟩ :=
      concatPtrList_acts (hv.holds a) (hv.holds i) (hv.disjoint a i hadm) (hlength a)
    have hex := hv.executes (Op.concat a i) hacts rfl (fun _ => hpacked) (by simp [Op.packs])
    refine ⟨_, _, ?_, hex⟩
    simp only [Op.exec, heq]
    rfl

/-! ## What is read of a list -/

/-- The readers that pass over empty blocks read the sequence. -/
structure Reads (h : Heap P) (listp : Option ℕ) (es : List (Entry P)) : Prop where
  size : ∀ fuel, h.fresh ≤ fuel → ptrListSize fuel h listp = some es.length
  linearize : ∀ fuel, h.fresh ≤ fuel → ∀ max, linearizePtrList fuel h max listp = some (es.take max)
  forEach : ∀ fuel, h.fresh ≤ fuel → forEachPtr fuel h listp = some (es.map Entry.untag)
  forEachReverse : ∀ fuel, h.fresh ≤ fuel →
    forEachPtrReverse fuel h listp = some (es.map Entry.untag).reverse

/-- The readers of one entry read the sequence, and none reads outside a block. -/
structure ReadsEntries (h : Heap P) (listp : Option ℕ) (es : List (Entry P)) : Prop where
  first : firstPtrList h listp = (es.head?.map fun e => Read.entry e.untag).getD .null
  last : lastPtrList h listp = (es.getLast?.map fun e => Read.entry e.untag).getD .null
  prepare : (prepare h listp).ptr = (es.head?.map fun e => Read.entry e.untag).getD .null
  next : ∀ head, listp = some head → ∀ k, ((next h head)^[k] (PtrList.prepare h listp)).ptr =
    (es[k]?.map fun e => Read.entry e.untag).getD .null

/-- An entry inserted at the cursor `(block, nr)`: the rest of a reverse iteration is
the same, and a forward iteration comes to the current entry again. -/
structure InsertsAtCursor (h : Heap P) (head block nr : ℕ) (e : Entry P) : Prop where
  entry : ((insertCurrent h e block nr).1.list (insertCurrent h e block nr).2.1)[
    (insertCurrent h e block nr).2.2]? = some e
  reverse : ∀ fuel, h.fresh < fuel →
    forEachPtrReverseFrom fuel (insertCurrent h e block nr).1 head (insertCurrent h e block nr).2.1
      (insertCurrent h e block nr).2.2 = forEachPtrReverseFrom fuel h head block nr
  forward : ∀ fuel, h.fresh < fuel →
    forEachPtrFrom fuel (insertCurrent h e block nr).1 head (insertCurrent h e block nr).2.1
      ((insertCurrent h e block nr).2.2 + 1) = forEachPtrFrom fuel h head block nr

theorem Holds.reads {h : Heap P} {listp : Option ℕ} {bs : List ℕ} (hh : Holds h listp bs) :
    Reads h listp (sequence h bs) where
  size _ hfuel := ptrListSize_eq hh (hh.length_le.trans hfuel)
  linearize _ hfuel := linearizePtrList_eq hh (hh.length_le.trans hfuel)
  forEach _ hfuel := forEachPtr_eq hh (hh.length_le.trans hfuel)
  forEachReverse _ hfuel := forEachPtrReverse_eq hh (hh.length_le.trans hfuel)

theorem Holds.readsEntries {h : Heap P} {listp : Option ℕ} {bs : List ℕ} (hh : Holds h listp bs)
    (hpacked : Packed h bs) : ReadsEntries h listp (sequence h bs) where
  first := firstPtrList_eq hh hpacked
  last := lastPtrList_eq hh hpacked
  prepare := by
    cases listp with
    | none =>
      obtain rfl := hh.eq_nil
      rfl
    | some head =>
      have hnext := next_eq hh hpacked 0
      rwa [← List.head?_eq_getElem?] at hnext
  next head hhead := by
    subst hhead
    exact next_eq hh hpacked

theorem insertCurrent_fresh (h : Heap P) (e : Entry P) (block nr : ℕ) :
    (insertCurrent h e block nr).1.fresh ≤ h.fresh + 1 := by
  rw [insertCurrent]
  by_cases hfull : h.nr block = listNodeNr
  · simp only [if_pos hfull, Heap.setList_fresh]
    split <;> exact Nat.le_refl _
  · simp only [if_neg hfull, Heap.setList_fresh]
    exact Nat.le_succ _

theorem Holds.insertsAtCursor {h : Heap P} {head block nr : ℕ} {bs : List ℕ}
    (hh : Holds h (some head) bs) (hmem : block ∈ bs) (hnr : nr < h.nr block) (e : Entry P) :
    InsertsAtCursor h head block nr e := by
  obtain ⟨xs, ys, rfl⟩ := List.append_of_mem hmem
  obtain ⟨xs', b', nr', ys', hcursor, hacts, hbefore, hnr', -⟩ := insertCurrent_acts hh hnr e
  have hfresh := insertCurrent_fresh h e block nr
  have hlen := hh.length_le
  have hlen' := hacts.holds.length_le
  simp only [List.length_append, List.length_cons] at hlen hlen'
  -- What stands from the new cursor on is the entry and what stood from the old one on.
  have hseq := hacts.sequence
  rw [← before_append_from _ xs' b' nr' ys', hbefore] at hseq
  have hfrom := List.append_cancel_left hseq
  have hdrop := List.drop_eq_getElem_cons hnr'
  have hcons := hfrom
  rw [from_, hdrop, List.cons_append] at hcons
  have hcursor₁ := congrArg Prod.fst hcursor
  have hcursor₂ := congrArg Prod.snd hcursor
  dsimp only at hcursor₁ hcursor₂
  refine ⟨?_, fun fuel hfuel => ?_, fun fuel hfuel => ?_⟩
  · rw [hcursor₁, hcursor₂, List.getElem?_eq_getElem hnr', (List.cons.inj hcons).1]
  · rw [hcursor₁, hcursor₂, forEachPtrReverseFrom_eq hacts.holds (by omega),
      forEachPtrReverseFrom_eq hh (by omega), hbefore]
  · rw [hcursor₁, hcursor₂, forEachPtrFrom_eq hacts.holds (by omega), forEachPtrFrom_eq hh (by omega),
      ← (List.cons.inj hcons).2, from_]

/-! ## Reachable stores -/

/-- The stores of a program that uses the operations as they are meant to be used. -/
inductive Reaches [DecidableEq P] : Store ι P → Prop
  | empty : Reaches Store.empty
  | step {s s' : Store ι P} {blocks : ι → List ℕ} (op : Op ι P) (fuel : ℕ) (e : Option (Entry P)) :
      Reaches s → Valid s blocks → op.Admissible s blocks → s.heap.fresh ≤ fuel →
      op.exec fuel s = .ok (s', e) → Reaches s'

theorem Reaches.valid [DecidableEq P] (hr : Reaches s) : ∃ blocks, Valid s blocks := by
  cases hr with
  | empty =>
    exact ⟨fun _ => [], fun i => ⟨rfl, fun hne => absurd rfl hne, by simp, by simp⟩, by simp⟩
  | step op fuel e hr hv hadm hfuel hexec =>
    obtain ⟨s'', blocks', heq, hex⟩ := exec_executes hv hadm hfuel
    rw [heq] at hexec
    obtain ⟨rfl, -⟩ := Prod.mk.inj (Except.ok.inj hexec)
    exact ⟨blocks', hex.valid⟩

/-- The lists of a reachable store are sequences: the readers read them, and the
operations act on them. -/
theorem reaches_sequences [DecidableEq P] {s : Store ι P} (hr : Reaches s) :
    ∃ blocks, Valid s blocks ∧
      (∀ i, Reads s.heap (s.lists i) (sequences s blocks i)) ∧
      (∀ i, Packed s.heap (blocks i) → ReadsEntries s.heap (s.lists i) (sequences s blocks i)) ∧
      (∀ (op : Op ι P) (fuel : ℕ), op.Admissible s blocks → s.heap.fresh ≤ fuel →
        ∃ s' blocks', op.exec fuel s = .ok (s', op.returned (sequences s blocks)) ∧
          Executes s blocks op s' blocks' ∧ Reaches s') ∧
      ∀ i head block nr e, s.lists i = some head → block ∈ blocks i → nr < s.heap.nr block →
        InsertsAtCursor s.heap head block nr e := by
  obtain ⟨blocks, hv⟩ := hr.valid
  refine ⟨blocks, hv, fun i => (hv.holds i).reads, fun i => (hv.holds i).readsEntries, ?_, ?_⟩
  · intro op fuel hadm hfuel
    obtain ⟨s', blocks', heq, hex⟩ := exec_executes hv hadm hfuel
    exact ⟨s', blocks', heq, hex, hr.step op fuel _ hv hadm hfuel heq⟩
  · intro i head block nr e hhead hmem hnr
    have hh := hv.holds i
    rw [hhead] at hh
    exact hh.insertsAtCursor hmem hnr e

/-- One entry in one list. -/
def added : Store Unit ℕ where
  heap := (addPtrList (Store.empty : Store Unit ℕ).heap none ⟨7, 0⟩).1
  lists := Function.update (fun _ => none) () (some 0)

theorem added_reaches : Reaches added :=
  Reaches.empty.step (.add () ⟨7, 0⟩) 0 none
    ⟨fun _ => ⟨rfl, fun hne => absurd rfl hne, by simp, by simp⟩, by simp⟩ trivial (Nat.le_refl 0) rfl

theorem reaches_sequences_added :
    ∃ blocks, Valid added blocks ∧
      (∀ i, Reads added.heap (added.lists i) (sequences added blocks i)) ∧
      (∀ i, Packed added.heap (blocks i) →
        ReadsEntries added.heap (added.lists i) (sequences added blocks i)) ∧
      (∀ (op : Op Unit ℕ) (fuel : ℕ), op.Admissible added blocks → added.heap.fresh ≤ fuel →
        ∃ s' blocks', op.exec fuel added = .ok (s', op.returned (sequences added blocks)) ∧
          Executes added blocks op s' blocks' ∧ Reaches s') ∧
      ∀ i head block nr e, added.lists i = some head → block ∈ blocks i → nr < added.heap.nr block →
        InsertsAtCursor added.heap head block nr e :=
  reaches_sequences added_reaches

/-- `undo_ptr_list_last` leaves an empty block, in which `first_ptr_list` and
`last_ptr_list` read an index outside; and a forward iteration that inserts at its
cursor comes to the current entry again. -/
theorem undo_reads_outside :
    (∃ s : Store Unit ℕ, Reaches s ∧ ptrListSize 1 s.heap (s.lists ()) = some 0 ∧
      firstPtrList s.heap (s.lists ()) = .outside ∧ lastPtrList s.heap (s.lists ()) = .outside) ∧
    forEachPtrFrom 1 added.heap 0 0 0 = some [⟨7, 0⟩] ∧
      (insertCurrent added.heap ⟨5, 0⟩ 0 0).2 = (0, 0) ∧
      forEachPtrFrom 1 (insertCurrent added.heap ⟨5, 0⟩ 0 0).1 0 0 1 = some [⟨7, 0⟩] := by
  obtain ⟨blocks, hv⟩ := added_reaches.valid
  refine ⟨⟨⟨added.heap.setList 0 [], added.lists⟩, ?_, rfl, rfl, rfl⟩, rfl, rfl, rfl⟩
  exact added_reaches.step (.undoLast ()) 1 (some ⟨7, 0⟩) hv trivial (Nat.le_refl 1) rfl

end Sparse.PtrList
