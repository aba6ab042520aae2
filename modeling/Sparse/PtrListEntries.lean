import Sparse.PtrListOperations

/-!
# Deleting, replacing and moving entries of pointer lists

`delete_ptr_list_entry` and `replace_ptr_list_entry` go through the blocks with
a count; `undo_ptr_list_last` and `delete_ptr_list_last` take the last entry,
and `concat_ptr_list` adds the entries of another list.
-/

namespace Sparse.PtrList
open CircularChain

variable {P : Type} {h h' : Heap P} {listp : Option ℕ} {bs bs' xs ys : List ℕ} {b : ℕ}
  {e : Entry P} {es : List (Entry P)}

/-! ## Loops with a count -/

/-- What a loop does in one block agrees with what it does to a sequence. -/
structure Blockwise (f : List (Entry P) → ℤ → List (Entry P) × ℤ × Bool)
    (F : List (Entry P) → ℤ → List (Entry P)) (q : Entry P → Bool) : Prop where
  length : ∀ es count, (f es count).1.length ≤ es.length
  stop : ∀ es rest count, (f es count).2.2 = true →
    F (es ++ rest) count = (f es count).1 ++ rest ∧ (f es count).2.1 ≤ 0
  go : ∀ es rest count, (f es count).2.2 = false →
    F (es ++ rest) count = (f es count).1 ++ F rest (f es count).2.1
  nil : ∀ count, F [] count = []
  count : ∀ es rest count, (f es count).2.2 = false → count.toNat ≤ (es ++ rest).countP q →
    (f es count).2.1.toNat ≤ rest.countP q

/-- The loop over the blocks of a list. -/
theorem blockLoop {f : List (Entry P) → ℤ → List (Entry P) × ℤ × Bool}
    {F : List (Entry P) → ℤ → List (Entry P)} {q : Entry P → Bool} (hf : Blockwise f F q)
    {head : ℕ} (hh : Holds h (some head) bs) {count : ℤ}
    (hcount : count.toNat ≤ (sequence h bs).countP q) {fuel : ℕ} (hfuel : bs.length ≤ fuel) :
    ∃ s : Heap P × ℤ, nodeLoop (fun s => forward s.1.links head)
        (fun b (s : Heap P × ℤ) =>
          ((s.1.setList b (f (s.1.list b) s.2).1, (f (s.1.list b) s.2).2.1),
            (f (s.1.list b) s.2).2.2)) fuel head (h, count) = some s ∧
      Acts h bs s.1 (some head) bs (F (sequence h bs) count) ∧ s.2 ≤ 0 ∧
      ((∀ es count, es ≠ [] → (f es count).1 ≠ []) → Packed h bs → Packed s.1 bs) := by
  refine nodeLoop_blocks hh
    (fun done (s : Heap P × ℤ) => Holds s.1 (some head) bs ∧ Change h bs s.1 bs ∧
      ((∀ es count, es ≠ [] → (f es count).1 ≠ []) → Packed h bs → Packed s.1 bs) ∧
      (∀ c, c ∉ done → s.1.list c = h.list c) ∧ ∀ todo, bs = done ++ todo →
        F (sequence h bs) count = sequence s.1 done ++ F (sequence h todo) s.2 ∧
          s.2.toNat ≤ (sequence h todo).countP q)
    _ (fun s => s.1.links) (fun done s hs => hs.1.ring_some) ?_ ?_ ?_ hfuel
  · intro done b todo s hxs ⟨hholds, hchange, hpacked, hrest, hseq⟩
    obtain ⟨hF, hleft⟩ := hseq (b :: todo) hxs
    have hn : (done ++ b :: todo).Nodup := hxs ▸ hh.nodup
    obtain ⟨-, hbtodo, hdisjoint⟩ := List.nodup_append.1 hn
    have hb : b ∉ done := fun hmem => hdisjoint b hmem b List.mem_cons_self rfl
    have hlistb : s.1.list b = h.list b := hrest b hb
    have htodo : ∀ c ∈ todo, s.1.list c = h.list c := fun c hc =>
      hrest c fun hmem => hdisjoint c hmem c (List.mem_cons_of_mem _ hc) rfl
    have hbmem : b ∈ bs := by
      rw [hxs]
      simp
    have hfill : (f (s.1.list b) s.2).1.length ≤ listNodeNr :=
      (hf.length _ _).trans (hholds.fill b hbmem)
    have hholds' := hholds.setList (b := b) hfill
    have hchange' := hchange.trans (Change.setList hbmem s.1 (f (s.1.list b) s.2).1)
    have hpacked' : (∀ es count, es ≠ [] → (f es count).1 ≠ []) → Packed h bs →
        Packed (s.1.setList b (f (s.1.list b) s.2).1) bs := by
      intro hkeeps hp c hc
      rcases eq_or_ne c b with rfl | hcb
      · rw [Heap.setList_self]
        exact hkeeps _ _ (hpacked hkeeps hp c hc)
      · rw [Heap.setList_of_ne _ hcb]
        exact hpacked hkeeps hp c hc
    have hseqb : sequence h (b :: todo) = s.1.list b ++ sequence h todo := by
      rw [sequence_cons, hlistb]
    dsimp only
    split
    · rename_i hstop
      obtain ⟨heq, hzero⟩ := hf.stop (s.1.list b) (sequence h todo) s.2 hstop
      refine ⟨⟨hholds', hchange', ?_⟩, hzero, hpacked'⟩
      rw [hF, hseqb, heq, hxs, sequence_setList hn, sequence_congr htodo]
    · rename_i hgo
      have hgo' : (f (s.1.list b) s.2).2.2 = false := by simpa using hgo
      refine ⟨hholds', hchange', hpacked', fun c hc => ?_, fun todo' htodo' => ?_⟩
      · rw [List.mem_append, List.mem_singleton, not_or] at hc
        rw [Heap.setList_of_ne _ hc.2]
        exact hrest c hc.1
      · obtain rfl : todo = todo' := by
          rw [hxs, List.append_assoc] at htodo'
          simpa using htodo'
        have hdone : ∀ c ∈ done, c ≠ b := fun c hc => hdisjoint c hc b List.mem_cons_self
        rw [hseqb] at hF hleft
        refine ⟨?_, hf.count _ _ _ hgo' hleft⟩
        rw [hF, hf.go _ _ _ hgo', sequence_append,
          sequence_congr fun c hc => Heap.setList_of_ne s.1 (hdone c hc) _]
        simp
  · intro s ⟨hholds, hchange, hpacked, hrest, hseq⟩
    obtain ⟨hF, hleft⟩ := hseq [] (by simp)
    rw [sequence_nil, hf.nil, List.append_nil] at hF
    refine ⟨⟨hholds, hchange, hF.symm⟩, ?_, hpacked⟩
    simpa using hleft
  · refine ⟨hh, Change.refl h bs, fun _ hp => hp, fun c _ => rfl, fun todo htodo => ?_⟩
    rw [List.nil_append] at htodo
    rw [← htodo, sequence_nil, List.nil_append]
    exact ⟨rfl, hcount⟩

/-! ## `delete_ptr_list_entry` and `replace_ptr_list_entry` -/

section
variable [DecidableEq P]

/-- The entry has the pointer. -/
def points (p : P) (e : Entry P) : Bool :=
  decide (e.ptr = p)

/-- The first `count` occurrences replaced, or all when `count` is not positive. -/
def replaceEntries (q : Entry P → Bool) (new : Entry P) : List (Entry P) → ℕ → List (Entry P)
  | [], _ => []
  | e :: es, count =>
    if q e then if count = 1 then new :: es else new :: replaceEntries q new es (count - 1)
    else e :: replaceEntries q new es count

theorem deleteInBlock_append (entry : P) (before after : List (Entry P)) (count : ℤ) :
    deleteInBlock entry before after count =
      (before ++ (deleteInBlock entry [] after count).1, (deleteInBlock entry [] after count).2) := by
  induction after generalizing before count with
  | nil => simp [deleteInBlock]
  | cons e after ih =>
    rw [deleteInBlock, deleteInBlock]
    split
    · split
      · simp
      · exact ih before (count - 1)
    · rw [ih (before ++ [e]) count, ih ([] ++ [e]) count]
      simp

theorem toNat_sub_one {count : ℤ} (hcount : count - 1 ≠ 0) :
    ¬ count.toNat = 1 ∧ (count - 1).toNat = count.toNat - 1 := by
  omega

theorem toNat_eq_one {count : ℤ} (hcount : count - 1 = 0) : count.toNat = 1 := by
  omega

theorem deleteInBlock_blockwise (entry : P) :
    Blockwise (deleteInBlock entry []) (fun es count => deleteEntries (points entry) es count.toNat)
      (points entry) where
  length es count := by
    induction es generalizing count with
    | nil => simp [deleteInBlock]
    | cons e es ih =>
      rw [deleteInBlock]
      split
      · split
        · simp
        · exact (ih (count - 1)).trans (Nat.le_succ _)
      · rw [deleteInBlock_append]
        simpa using ih count
  stop es rest count hstop := by
    induction es generalizing count with
    | nil => simp [deleteInBlock] at hstop
    | cons e es ih =>
      rw [deleteInBlock] at hstop ⊢
      rw [List.cons_append, deleteEntries]
      by_cases he : e.ptr = entry
      · rw [if_pos he] at hstop ⊢
        rw [if_pos (by simp [points, he])]
        by_cases hone : count - 1 = 0
        · rw [if_pos hone, if_pos (toNat_eq_one hone)]
          simp
        · obtain ⟨hne, hsub⟩ := toNat_sub_one hone
          rw [if_neg hone] at hstop ⊢
          rw [if_neg hne, ← hsub]
          exact ih (count - 1) hstop
      · rw [if_neg he, deleteInBlock_append] at hstop ⊢
        rw [if_neg (by simp [points, he])]
        obtain ⟨heq, hzero⟩ := ih count hstop
        exact ⟨by rw [heq]; rfl, hzero⟩
  go es rest count hgo := by
    induction es generalizing count with
    | nil => simp [deleteInBlock]
    | cons e es ih =>
      rw [deleteInBlock] at hgo ⊢
      rw [List.cons_append, deleteEntries]
      by_cases he : e.ptr = entry
      · rw [if_pos he] at hgo ⊢
        rw [if_pos (by simp [points, he])]
        by_cases hone : count - 1 = 0
        · rw [if_pos hone] at hgo
          exact Bool.noConfusion hgo
        · obtain ⟨hne, hsub⟩ := toNat_sub_one hone
          rw [if_neg hone] at hgo ⊢
          rw [if_neg hne, ← hsub]
          exact ih (count - 1) hgo
      · rw [if_neg he, deleteInBlock_append] at hgo ⊢
        rw [if_neg (by simp [points, he]), ih count hgo]
        rfl
  nil count := rfl
  count es rest count hgo hle := by
    induction es generalizing count with
    | nil => simpa [deleteInBlock] using hle
    | cons e es ih =>
      rw [deleteInBlock] at hgo ⊢
      rw [List.cons_append, List.countP_cons] at hle
      by_cases he : e.ptr = entry
      · rw [if_pos he] at hgo ⊢
        rw [if_pos (by simp [points, he])] at hle
        by_cases hone : count - 1 = 0
        · rw [if_pos hone] at hgo
          exact Bool.noConfusion hgo
        · rw [if_neg hone] at hgo ⊢
          exact ih (count - 1) hgo (by omega)
      · rw [if_neg he, deleteInBlock_append] at hgo ⊢
        rw [if_neg (by simp [points, he])] at hle
        exact ih count hgo hle

theorem replaceInBlock_blockwise (old new : P) :
    Blockwise (replaceInBlock old new)
      (fun es count => replaceEntries (points old) ⟨new, 0⟩ es count.toNat) (points old) where
  length es count := by
    induction es generalizing count with
    | nil => simp [replaceInBlock]
    | cons e es ih =>
      rw [replaceInBlock]
      split
      · split
        · simp
        · simpa using ih (count - 1)
      · simpa using ih count
  stop es rest count hstop := by
    induction es generalizing count with
    | nil => simp [replaceInBlock] at hstop
    | cons e es ih =>
      rw [replaceInBlock] at hstop ⊢
      rw [List.cons_append, replaceEntries]
      by_cases he : e.ptr = old
      · rw [if_pos he] at hstop ⊢
        rw [if_pos (by simp [points, he])]
        by_cases hone : count - 1 = 0
        · rw [if_pos hone, if_pos (toNat_eq_one hone)]
          simp
        · obtain ⟨hne, hsub⟩ := toNat_sub_one hone
          rw [if_neg hone] at hstop ⊢
          rw [if_neg hne, ← hsub]
          obtain ⟨heq, hzero⟩ := ih (count - 1) hstop
          exact ⟨by rw [heq]; rfl, hzero⟩
      · rw [if_neg he] at hstop ⊢
        rw [if_neg (by simp [points, he])]
        obtain ⟨heq, hzero⟩ := ih count hstop
        exact ⟨by rw [heq]; rfl, hzero⟩
  go es rest count hgo := by
    induction es generalizing count with
    | nil => simp [replaceInBlock]
    | cons e es ih =>
      rw [replaceInBlock] at hgo ⊢
      rw [List.cons_append, replaceEntries]
      by_cases he : e.ptr = old
      · rw [if_pos he] at hgo ⊢
        rw [if_pos (by simp [points, he])]
        by_cases hone : count - 1 = 0
        · rw [if_pos hone] at hgo
          exact Bool.noConfusion hgo
        · obtain ⟨hne, hsub⟩ := toNat_sub_one hone
          rw [if_neg hone] at hgo ⊢
          rw [if_neg hne, ← hsub, ih (count - 1) hgo]
          rfl
      · rw [if_neg he] at hgo ⊢
        rw [if_neg (by simp [points, he]), ih count hgo]
        rfl
  nil count := rfl
  count es rest count hgo hle := by
    induction es generalizing count with
    | nil => simpa [replaceInBlock] using hle
    | cons e es ih =>
      rw [replaceInBlock] at hgo ⊢
      rw [List.cons_append, List.countP_cons] at hle
      by_cases he : e.ptr = old
      · rw [if_pos he] at hgo ⊢
        rw [if_pos (by simp [points, he])] at hle
        by_cases hone : count - 1 = 0
        · rw [if_pos hone] at hgo
          exact Bool.noConfusion hgo
        · rw [if_neg hone] at hgo ⊢
          exact ih (count - 1) hgo (by omega)
      · rw [if_neg he] at hgo ⊢
        rw [if_neg (by simp [points, he])] at hle
        exact ih count hgo hle

/-- The first `count` occurrences go, all when `count` is not positive; the list is packed. -/
theorem deletePtrListEntry_acts (hh : Holds h listp bs) (entry : P) {count : ℤ}
    (hcount : count.toNat ≤ (sequence h bs).countP (points entry)) {fuel : ℕ}
    (hfuel : bs.length ≤ fuel) :
    ∃ h' listp' bs', deletePtrListEntry fuel h entry count listp = .ok (h', listp') ∧
      Acts h bs h' listp' bs' (deleteEntries (points entry) (sequence h bs) count.toNat) ∧
      Packed h' bs' := by
  cases listp with
  | none =>
    obtain rfl := hh.eq_nil
    have hle : ¬ 0 < count := by
      have hzero : count.toNat ≤ 0 := hcount
      omega
    refine ⟨h, none, [], ?_, ⟨hh, Change.refl h [], rfl⟩, by simp [Packed]⟩
    simp only [deletePtrListEntry]
    show (if 0 < count then Except.error Failure.assertion else _) = _
    rw [if_neg hle]
    rfl
  | some head =>
    obtain ⟨s, heq, hacts, hleft, -⟩ := blockLoop (deleteInBlock_blockwise entry) hh hcount hfuel
    obtain ⟨h', listp', hpack, hacts', hpacked⟩ := packPtrList_acts hacts.holds hfuel
    refine ⟨h', listp', _, ?_, ⟨hacts'.holds, hacts.change.trans hacts'.change, ?_⟩, hpacked⟩
    · simp only [deletePtrListEntry]
      rw [heq]
      show (if 0 < s.2 then Except.error Failure.assertion else _) = _
      rw [if_neg (by omega)]
      show (packPtrList fuel s.1 (some head)).elim _ _ = _
      rw [hpack]
      rfl
    · rw [hacts'.sequence, hacts.sequence]

theorem replacePtrListEntry_acts (hh : Holds h listp bs) (old new : P) {count : ℤ}
    (hcount : count.toNat ≤ (sequence h bs).countP (points old)) {fuel : ℕ}
    (hfuel : bs.length ≤ fuel) :
    ∃ h', replacePtrListEntry fuel h old new count listp = .ok h' ∧
      Acts h bs h' listp bs (replaceEntries (points old) ⟨new, 0⟩ (sequence h bs) count.toNat) ∧
      (Packed h bs → Packed h' bs) := by
  cases listp with
  | none =>
    obtain rfl := hh.eq_nil
    have hle : ¬ 0 < count := by
      have hzero : count.toNat ≤ 0 := hcount
      omega
    refine ⟨h, ?_, ⟨hh, Change.refl h [], rfl⟩, fun hp => hp⟩
    simp only [replacePtrListEntry]
    show (if 0 < count then Except.error Failure.assertion else _) = _
    rw [if_neg hle]
  | some head =>
    obtain ⟨s, heq, hacts, hleft, hpacked⟩ := blockLoop (replaceInBlock_blockwise old new) hh hcount hfuel
    refine ⟨s.1, ?_, hacts, hpacked fun es count hne hnil => hne ?_⟩
    · simp only [replacePtrListEntry]
      rw [heq]
      show (if 0 < s.2 then Except.error Failure.assertion else _) = _
      rw [if_neg (by omega)]
    · cases es with
      | nil => rfl
      | cons e es =>
        rw [replaceInBlock] at hnil
        split at hnil
        · split at hnil <;> exact absurd hnil (List.cons_ne_nil _ _)
        · exact absurd hnil (List.cons_ne_nil _ _)

end

/-! ## The last entry -/

/-- `undo_ptr_list_last` passes over empty blocks and does not pack. -/
theorem undoPtrListLast_acts (hh : Holds h listp bs) {fuel : ℕ} (hfuel : bs.length ≤ fuel) :
    ∃ h', undoPtrListLast fuel h listp = some (h', (sequence h bs).getLast?) ∧
      Acts h bs h' listp bs (sequence h bs).dropLast := by
  cases listp with
  | none =>
    obtain rfl := hh.eq_nil
    exact ⟨h, rfl, hh, Change.refl h [], rfl⟩
  | some head =>
    obtain ⟨t, zs, z, rfl, hz, hlast, hring⟩ := hh.last
    have hrev : (head :: t).reverse = [] ++ z :: zs.reverse := by
      rw [hz]
      simp
    have hlength : zs.reverse.length < fuel := by
      have hlen := congrArg List.length hz
      simp only [List.length_append, List.length_cons, List.length_nil, List.length_reverse] at hlen hfuel ⊢
      omega
    have hloop : ∃ s : Heap P × Option (Entry P),
        undoPtrListLast fuel h (some head) = some s ∧
          s.2 = (sequence h (head :: t)).getLast? ∧
          Acts h (head :: t) s.1 (some head) (head :: t) (sequence h (head :: t)).dropLast := by
      rw [undoPtrListLast, hlast.2]
      refine nodeLoop_invariant
        (fun done s => s = (h, none) ∧ ∀ c ∈ done, h.list c = []) _ ?_ ?_ ?_ hrev ⟨rfl, by simp⟩ hlength
      · rintro done b todo s hxs ⟨rfl, -⟩
        have hxs' : head :: t = todo.reverse ++ b :: done.reverse := by
          rw [← List.reverse_reverse (head :: t), hxs]
          simp
        rw [hring.backward_eq hxs', List.getLast?_reverse]
      · rintro done b todo s hxs ⟨rfl, hdone⟩
        have hxs' : head :: t = todo.reverse ++ b :: done.reverse := by
          rw [← List.reverse_reverse (head :: t), hxs]
          simp
        have hempty : sequence h done.reverse = [] := by
          rw [sequence, List.flatMap_eq_nil_iff]
          exact fun c hc => hdone c (List.mem_reverse.1 hc)
        have hseq : sequence h (head :: t) = sequence h todo.reverse ++ h.list b := by
          rw [hxs', sequence_append, sequence_cons, hempty, List.append_nil]
        have hbmem : b ∈ head :: t := by
          rw [hxs']
          simp
        rcases List.eq_nil_or_concat' (h.list b) with hnil | ⟨es, e, hes⟩
        · simp only [hnil, List.getLast?_nil, Bool.false_eq_true, if_false]
          refine ⟨trivial, fun c hc => ?_⟩
          rw [List.mem_append, List.mem_singleton] at hc
          rcases hc with hc | rfl
          · exact hdone c hc
          · exact hnil
        · have hfill : es.length ≤ listNodeNr := by
            have hle := hh.fill b hbmem
            rw [Heap.nr, hes, List.length_append, List.length_singleton] at hle
            omega
          simp only [hes, List.getLast?_concat, List.dropLast_concat, if_true]
          refine ⟨?_, hh.setList hfill, Change.setList hbmem h es, ?_⟩
          · rw [hseq, hes, ← List.append_assoc, List.getLast?_concat]
          · have hn : (todo.reverse ++ b :: done.reverse).Nodup := hxs' ▸ hh.nodup
            rw [hseq, hxs', sequence_setList hn, hempty, List.append_nil, hes, ← List.append_assoc,
              List.dropLast_concat]
      · rintro s ⟨rfl, hdone⟩
        have hempty : sequence h (head :: t) = [] := by
          rw [sequence, List.flatMap_eq_nil_iff]
          exact fun c hc => hdone c (List.mem_reverse.2 hc)
        rw [hempty]
        exact ⟨rfl, hh, Change.refl h _, hempty⟩
    obtain ⟨s, heq, hs, hacts⟩ := hloop
    exact ⟨s.1, by rw [heq, ← hs], hacts⟩

/-- `delete_ptr_list_last` unlinks the last block when that becomes empty. -/
theorem deletePtrListLast_acts (hh : Holds h listp bs) (hpacked : Packed h bs) :
    ∃ h' listp' bs', deletePtrListLast h listp = (h', listp', (sequence h bs).getLast?) ∧
      Acts h bs h' listp' bs' (sequence h bs).dropLast ∧ Packed h' bs' := by
  cases listp with
  | none =>
    obtain rfl := hh.eq_nil
    exact ⟨h, none, [], rfl, ⟨hh, Change.refl h [], rfl⟩, by simp [Packed]⟩
  | some head =>
    obtain ⟨t, zs, z, hbs, rfl, hlast, hring⟩ := hh.last
    obtain ⟨es, e, hes⟩ := (List.eq_nil_or_concat' (h.list z)).resolve_left (hpacked z (by simp))
    have hseq : sequence h (zs ++ [z]) = (sequence h zs ++ es) ++ [e] := by
      rw [sequence_append, sequence_cons, sequence_nil, List.append_nil, hes, List.append_assoc]
    have hn : (zs ++ z :: []).Nodup := hh.nodup
    have hfill : es.length ≤ listNodeNr := by
      have hle := hh.fill z (by simp)
      rw [Heap.nr, hes, List.length_append, List.length_singleton] at hle
      omega
    have hholds := hh.setList (b := z) hfill
    have hzs : ∀ c ∈ zs, c ≠ z := fun c hc =>
      (List.nodup_append.1 hn).2.2 c hc z (List.mem_singleton_self z)
    have hlist : ∀ c ∈ zs, (h.setList z es).list c = h.list c := fun c hc =>
      Heap.setList_of_ne h (hzs c hc) es
    rw [deletePtrListLast, hlast.2, hes, List.getLast?_concat, List.dropLast_concat, hseq, List.getLast?_concat,
      List.dropLast_concat, Heap.nr, Heap.setList_self]
    by_cases hempty : es = []
    · rw [if_pos (by rw [hempty]; rfl), hempty, List.append_nil]
      rw [hempty] at hholds hlist
      have hring' : Ring (h.setList z []).links (zs ++ z :: []) := hbs ▸ hring
      have hnext : (h.setList z []).links.next z = head := hlast.1
      refine ⟨_, _, zs, rfl, ⟨⟨?_, fun hne => ?_, fun c hc => ?_, fun c hc => ?_⟩, ⟨?_, ?_, ?_, ?_, ?_⟩,
        ?_⟩, ?_⟩
      · cases zs with
        | nil =>
          obtain ⟨rfl, -⟩ := List.cons.inj hbs
          rw [if_pos rfl]
          rfl
        | cons c zs =>
          obtain ⟨rfl, -⟩ := List.cons.inj hbs
          rw [if_neg (Ne.symm (hzs c List.mem_cons_self))]
          rfl
      · have hunlink := hring'.unlink (by simpa using hne)
        rw [hnext, List.append_nil] at hunlink
        exact hunlink
      · exact hholds.fill c (List.mem_append_left _ hc)
      · exact hholds.fresh c (List.mem_append_left _ hc)
      · intro c _ hc
        refine Function.update_of_ne ?_ ..
        rintro rfl
        exact hc (hring'.prev_mem (by simp))
      · intro c _ hc
        refine Function.update_of_ne ?_ ..
        rintro rfl
        rw [hbs] at hc
        exact hc List.mem_cons_self
      · intro c _ hc
        refine Heap.setList_of_ne h ?_ []
        rintro rfl
        exact hc (by simp)
      · exact Nat.le_refl _
      · exact fun c hc => Or.inl (List.mem_append_left _ hc)
      · exact sequence_congr hlist
      · intro c hc
        rw [Heap.join_list, hlist c hc]
        exact hpacked c (List.mem_append_left _ hc)
    · rw [if_neg (by rwa [List.length_eq_zero_iff])]
      refine ⟨_, _, zs ++ [z], rfl, ⟨hholds, Change.setList (by simp) h es, ?_⟩, fun c hc => ?_⟩
      · rw [sequence_setList hn]
        simp
      · rw [List.mem_append, List.mem_singleton] at hc
        rcases hc with hc | rfl
        · rw [hlist c hc]
          exact hpacked c (List.mem_append_left _ hc)
        · rw [Heap.setList_self]
          exact hempty

/-! ## Concatenation -/

/-- Adding several entries. -/
theorem addAll_acts (hh : Holds h listp bs) (es : List (Entry P)) :
    let s := es.foldl (fun s e => ((addPtrList s.1 s.2 e).1, some (addPtrList s.1 s.2 e).2)) (h, listp)
    ∃ bs', Acts h bs s.1 s.2 bs' (sequence h bs ++ es) ∧ (Packed h bs → Packed s.1 bs') := by
  induction es generalizing h listp bs with
  | nil => exact ⟨bs, ⟨hh, Change.refl h bs, by simp⟩, id⟩
  | cons e es ih =>
    obtain ⟨bs₁, hacts, hpacked⟩ := addPtrList_acts hh e
    obtain ⟨bs₂, hacts', hpacked'⟩ := ih hacts.holds
    refine ⟨bs₂, ⟨hacts'.holds, hacts.change.trans hacts'.change, ?_⟩, fun hp => hpacked' (hpacked hp)⟩
    rw [List.foldl_cons, hacts'.sequence, hacts.sequence, List.append_assoc]
    rfl

/-- The pointers of another list come after those of the list. -/
theorem concatPtrList_acts {lista : Option ℕ} {as : List ℕ} (ha : Holds h lista as)
    (hh : Holds h listp bs) (hdisjoint : ∀ a ∈ as, a ∉ bs) {fuel : ℕ} (hfuel : as.length ≤ fuel) :
    ∃ h' listp' bs', concatPtrList fuel h lista listp = some (h', listp') ∧
      Acts h bs h' listp' bs' (sequence h bs ++ (sequence h as).map Entry.untag) ∧
      (Packed h bs → Packed h' bs') := by
  cases lista with
  | none =>
    obtain rfl := ha.eq_nil
    exact ⟨h, listp, bs, rfl, ⟨hh, Change.refl h bs, by simp⟩, id⟩
  | some head =>
    have hloop : ∃ s : Heap P × Option ℕ,
        nodeLoop (fun s => forward s.1.links head)
          (fun block s =>
            (((s.1.list block).map Entry.untag).foldl
              (fun s e => ((addPtrList s.1 s.2 e).1, some (addPtrList s.1 s.2 e).2)) s, false))
          fuel head (h, listp) = some s ∧
        ∃ bs', Acts h bs s.1 s.2 bs' (sequence h bs ++ (sequence h as).map Entry.untag) ∧
          (Packed h bs → Packed s.1 bs') := by
      refine nodeLoop_blocks ha (fun done (s : Heap P × Option ℕ) => ∃ bs',
          Acts h bs s.1 s.2 bs' (sequence h bs ++ (sequence h done).map Entry.untag) ∧
            (Packed h bs → Packed s.1 bs')) _ (fun s => s.1.links) ?_ ?_ (fun s hs => hs)
        ⟨bs, ⟨hh, Change.refl h bs, by simp⟩, id⟩ hfuel
      · rintro done s ⟨bs', hacts, -⟩
        exact (hacts.change.frame hdisjoint ha).1.ring_some
      · rintro done b todo s hxs ⟨bs', hacts, hpacked⟩
        have hb : b ∈ as := by
          rw [hxs]
          simp
        have hlist : s.1.list b = h.list b := hacts.change.list b (ha.fresh b hb) (hdisjoint b hb)
        obtain ⟨bs₂, hacts₂, hpacked₂⟩ := addAll_acts hacts.holds ((s.1.list b).map Entry.untag)
        rw [if_neg Bool.false_ne_true]
        refine ⟨bs₂, ⟨hacts₂.holds, hacts.change.trans hacts₂.change, ?_⟩, fun hp => hpacked₂ (hpacked hp)⟩
        rw [hacts₂.sequence, hacts.sequence, hlist, sequence_append, List.map_append, sequence_cons,
          sequence_nil, List.append_nil, List.append_assoc]
    obtain ⟨s, heq, bs', hacts, hpacked⟩ := hloop
    exact ⟨s.1, s.2, bs', heq, hacts, hpacked⟩

end Sparse.PtrList
