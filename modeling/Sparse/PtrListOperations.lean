import Sparse.PtrListSequences

/-!
# The operations of pointer lists on their sequences

The loops over the blocks: packing, deleting and replacing entries, taking the
last entry and concatenation, and the readers.
-/

namespace Sparse.PtrList
open CircularChain

variable {P : Type} {h h' : Heap P} {listp : Option ℕ} {bs bs' xs ys : List ℕ} {b : ℕ}
  {e : Entry P} {es : List (Entry P)}

/-! ## Deleting at the cursor and packing -/

/-- The current entry goes, and the cursor is left in front of what followed it. -/
theorem deleteCurrent_acts (hh : Holds h listp (xs ++ b :: ys)) {nr : ℕ} (hnr : nr < h.nr b) :
    Acts h (xs ++ b :: ys) (deleteCurrent h b nr) listp (xs ++ b :: ys)
        (before h xs b nr ++ (from_ h b nr ys).tail) ∧
      before (deleteCurrent h b nr) xs b nr = before h xs b nr := by
  have hnr' : nr < (h.list b).length := hnr
  have hfill := hh.fill b (by simp)
  have hlength : ((h.list b).eraseIdx nr).length ≤ listNodeNr := by
    rw [List.length_eraseIdx_of_lt hnr']
    rw [Heap.nr] at hfill
    omega
  have hxs : ∀ c ∈ xs, c ≠ b := fun c hc =>
    (List.nodup_append.1 hh.nodup).2.2 c hc b List.mem_cons_self
  have hdrop : (h.list b).drop nr = (h.list b)[nr] :: (h.list b).drop (nr + 1) :=
    List.drop_eq_getElem_cons hnr'
  have herase : (h.list b).eraseIdx nr = (h.list b).take nr ++ (h.list b).drop (nr + 1) :=
    List.eraseIdx_eq_take_drop_succ ..
  refine ⟨⟨hh.setList hlength, Change.setList (by simp) h _, ?_⟩, ?_⟩
  · rw [deleteCurrent, sequence_setList hh.nodup, before, from_, hdrop, herase, List.cons_append,
      List.tail_cons, List.append_assoc, List.append_assoc]
  · rw [deleteCurrent, before, before, Heap.setList_self,
      sequence_congr fun c hc => Heap.setList_of_ne h (hxs c hc) _, herase,
      List.take_append_of_le_length, List.take_take, Nat.min_self]
    rw [List.length_take]
    omega

/-- The blocks that are not empty. -/
def full (h : Heap P) (bs : List ℕ) : List ℕ :=
  bs.filter fun b => !(h.list b).isEmpty

theorem sequence_full (h : Heap P) (bs : List ℕ) : sequence h (full h bs) = sequence h bs := by
  induction bs with
  | nil => rfl
  | cons b bs ih =>
    unfold full at ih ⊢
    rw [List.filter_cons]
    cases hb : h.list b with
    | nil => simpa [hb] using ih
    | cons e es => simpa [hb] using ih

theorem full_cons_of_nil (hb : h.list b = []) (bs : List ℕ) : full h (b :: bs) = full h bs := by
  rw [full, List.filter_cons, if_neg (by simp [hb])]
  rfl

theorem full_cons_of_ne (hb : h.list b ≠ []) (bs : List ℕ) : full h (b :: bs) = b :: full h bs := by
  rw [full, List.filter_cons, if_pos (by simp [hb])]
  rfl

/-- What `pack_ptr_list` leaves of the blocks `bs`. -/
structure Packs (h : Heap P) (bs : List ℕ) (h' : Heap P) (listp' : Option ℕ) (bs' : List ℕ) :
    Prop where
  list : h'.list = h.list
  fresh : h'.fresh = h.fresh
  head : listp' = bs'.head?
  ring : bs' ≠ [] → Ring h'.links bs'
  next : ∀ c, c ∉ bs → h'.links.next c = h.links.next c
  prev : ∀ c, c ∉ bs → h'.links.prev c = h.links.prev c

/-- The loop of `pack_ptr_list` with the blocks `done` behind it. -/
theorem packLoop_packs {fuel head entry : ℕ} {done todo : List ℕ}
    (hring : Ring h.links (done ++ entry :: todo)) (hhead : some head = (done ++ [entry]).head?)
    (hfuel : todo.length < fuel) :
    ∃ h' listp', packLoop fuel h head entry = some (h', listp') ∧
      Packs h (done ++ entry :: todo) h' listp' (done ++ full h (entry :: todo)) := by
  induction fuel generalizing h head entry done todo with
  | zero => simp at hfuel
  | succ fuel ih =>
    obtain ⟨t, hxs⟩ : ∃ t, head :: t = done ++ entry :: todo := by
      cases done with
      | nil =>
        obtain rfl : head = entry := by simpa using hhead
        exact ⟨todo, rfl⟩
      | cons c done =>
        obtain rfl : head = c := by simpa using hhead
        exact ⟨done ++ entry :: todo, rfl⟩
    have hforward := Ring.forward_eq (hxs ▸ hring) hxs
    have hmem : entry ∈ done ++ entry :: todo := by simp
    have hnextmem := hring.next_mem hmem
    have hprevmem := hring.prev_mem hmem
    -- The links outside the circle do not change.
    have hframe : ∀ {h' listp' bs'}, Packs (h.join (h.links.prev entry) (h.links.next entry))
        (done ++ todo) h' listp' bs' → Packs h (done ++ entry :: todo) h' listp' bs' := by
      intro h' listp' bs' hp
      have hout : ∀ c, c ∉ done ++ entry :: todo → c ∉ done ++ todo := by
        intro c hc hin
        refine hc ?_
        simp only [List.mem_append, List.mem_cons] at hin ⊢
        tauto
      refine ⟨hp.list, hp.fresh, hp.head, hp.ring, fun c hc => (hp.next c (hout c hc)).trans ?_,
        fun c hc => (hp.prev c (hout c hc)).trans ?_⟩
      · exact Function.update_of_ne (by rintro rfl; exact hc hprevmem) ..
      · exact Function.update_of_ne (by rintro rfl; exact hc hnextmem) ..
    rw [packLoop]
    dsimp only
    by_cases hempty : h.list entry = []
    · rw [if_pos (by rw [Heap.nr, hempty, List.length_nil]), full_cons_of_nil hempty]
      cases todo with
      | nil =>
        have hnext : h.links.next entry = head := by
          by_contra hne
          rw [forward, if_neg hne] at hforward
          simp at hforward
        cases done with
        | nil =>
          obtain rfl : head = entry := by simpa using hhead
          rw [if_pos hnext]
          exact ⟨h, none, rfl, rfl, rfl, rfl, fun hne => absurd rfl hne, fun _ _ => rfl, fun _ _ => rfl⟩
        | cons c done =>
          obtain rfl : head = c := by simpa using hhead
          have hne : head ≠ entry := by
            rintro rfl
            have hnodup := hring.nodup
            simp at hnodup
          rw [if_neg (by rw [hnext]; exact hne), if_neg hne.symm, if_pos hnext]
          refine ⟨_, _, rfl, hframe ⟨rfl, rfl, rfl, fun _ => ?_, fun _ _ => rfl, fun _ _ => rfl⟩⟩
          exact hring.unlink (by simp)
      | cons y todo =>
        have hnext : h.links.next entry = y ∧ y ≠ head := by
          rw [forward] at hforward
          split at hforward
          · simp at hforward
          · rename_i hne
            obtain rfl := Option.some.inj hforward
            exact ⟨rfl, hne⟩
        have hne : y ≠ entry := by
          rintro rfl
          have hnodup := (List.nodup_append.1 hring.nodup).2.1
          simp at hnodup
        have hring' : Ring (h.join (h.links.prev entry) (h.links.next entry)).links
            (done ++ y :: todo) := hring.unlink (by simp)
        have hfuel' : todo.length < fuel := by simpa using hfuel
        rw [hnext.1] at hring' hframe
        rw [hnext.1, if_neg hne]
        cases done with
        | nil =>
          obtain rfl : head = entry := by simpa using hhead
          rw [if_pos rfl]
          obtain ⟨h', listp', heq, hp⟩ := ih hring' rfl hfuel'
          exact ⟨h', listp', heq, hframe hp⟩
        | cons c done =>
          have hhead' : head = c := by simpa using hhead
          have hne' : entry ≠ head := by
            rintro rfl
            have hnodup := hring.nodup
            rw [← hhead'] at hnodup
            simp at hnodup
          rw [if_neg hne', if_neg hnext.2]
          obtain ⟨h', listp', heq, hp⟩ := ih hring' (congrArg some hhead') hfuel'
          exact ⟨h', listp', heq, hframe hp⟩
    · rw [if_neg (by rw [Heap.nr, List.length_eq_zero_iff]; exact hempty), full_cons_of_ne hempty]
      cases todo with
      | nil =>
        have hnext : h.links.next entry = head := by
          by_contra hne
          rw [forward, if_neg hne] at hforward
          simp at hforward
        rw [if_pos hnext]
        refine ⟨h, some head, rfl, rfl, rfl, ?_, fun _ => hring, fun _ _ => rfl, fun _ _ => rfl⟩
        exact hhead
      | cons y todo =>
        have hnext : h.links.next entry = y ∧ y ≠ head := by
          rw [forward] at hforward
          split at hforward
          · simp at hforward
          · rename_i hne
            obtain rfl := Option.some.inj hforward
            exact ⟨rfl, hne⟩
        rw [hnext.1, if_neg hnext.2]
        have hring' : Ring h.links ((done ++ [entry]) ++ y :: todo) := by simpa using hring
        have hhead' : some head = ((done ++ [entry]) ++ [y]).head? := by
          rw [hhead]
          cases done <;> rfl
        obtain ⟨h', listp', heq, hp⟩ := ih hring' hhead' (by simpa using hfuel)
        refine ⟨h', listp', heq, ?_⟩
        simpa using hp

theorem packPtrList_acts (hh : Holds h listp bs) {fuel : ℕ} (hfuel : bs.length ≤ fuel) :
    ∃ h' listp', packPtrList fuel h listp = some (h', listp') ∧
      Acts h bs h' listp' (full h bs) (sequence h bs) ∧ Packed h' (full h bs) := by
  cases listp with
  | none =>
    obtain rfl := hh.eq_nil
    exact ⟨h, none, rfl, ⟨hh, Change.refl h [], rfl⟩, by simp [Packed, full]⟩
  | some head =>
    obtain ⟨t, -, -, rfl, -, -, hring⟩ := hh.last
    have hring' : Ring h.links ([] ++ head :: t) := hring
    obtain ⟨h', listp', heq, hp⟩ := packLoop_packs hring' rfl hfuel
    have hsub : ∀ c ∈ full h (head :: t), c ∈ head :: t := fun c hc => List.mem_of_mem_filter hc
    refine ⟨h', listp', heq, ⟨⟨hp.head, hp.ring, fun c hc => ?_, fun c hc => ?_⟩, ⟨?_, ?_, ?_, ?_, ?_⟩,
      ?_⟩, fun c hc => ?_⟩
    · rw [Heap.nr, hp.list]
      exact hh.fill c (hsub c hc)
    · rw [hp.fresh]
      exact hh.fresh c (hsub c hc)
    · exact fun c _ hc => hp.next c hc
    · exact fun c _ hc => hp.prev c hc
    · exact fun c _ _ => by rw [hp.list]
    · exact Nat.le_of_eq hp.fresh.symm
    · exact fun c hc => Or.inl (hsub c hc)
    · rw [sequence_congr fun c _ => congrFun hp.list c]
      exact sequence_full h (head :: t)
    · rw [hp.list]
      simpa using (List.mem_filter.1 hc).2

/-! ## Readers -/

/-- A loop over all blocks of a list that changes no link. -/
theorem nodeLoop_blocks {σ : Type} {head : ℕ} (hh : Holds h (some head) bs)
    {body : ℕ → σ → σ × Bool} (Inv : List ℕ → σ → Prop) (Post : σ → Prop) (links : σ → CircularChain.Links ℕ)
    (hlinks : ∀ done s, Inv done s → Ring (links s) bs)
    (hbody : ∀ done b todo s, bs = done ++ b :: todo → Inv done s →
      if (body b s).2 then Post (body b s).1 else Inv (done ++ [b]) (body b s).1)
    (hend : ∀ s, Inv bs s → Post s) {s : σ} (hinv : Inv [] s) {fuel : ℕ} (hfuel : bs.length ≤ fuel) :
    ∃ s', nodeLoop (fun s => forward (links s) head) body fuel head s = some s' ∧ Post s' := by
  obtain ⟨t, -, -, rfl, -, -, -⟩ := hh.last
  refine nodeLoop_invariant Inv Post (fun done b todo s hxs hs => ?_) hbody hend
    (List.nil_append _).symm hinv hfuel
  exact (hlinks _ s hs).forward_eq hxs

theorem Holds.ring_some {head : ℕ} (hh : Holds h (some head) bs) : Ring h.links bs := by
  obtain ⟨t, -, -, rfl, -, -, hring⟩ := hh.last
  exact hring

theorem ptrListSize_eq (hh : Holds h listp bs) {fuel : ℕ} (hfuel : bs.length ≤ fuel) :
    ptrListSize fuel h listp = some (sequence h bs).length := by
  cases listp with
  | none =>
    rw [hh.eq_nil]
    rfl
  | some head =>
    have hloop : ∃ n, nodeLoop (fun _ => forward h.links head) (fun b nr => (nr + h.nr b, false))
        fuel head 0 = some n ∧ n = (sequence h bs).length := by
      refine nodeLoop_blocks hh (fun done n => n = (sequence h done).length) _ (fun _ => h.links)
        (fun _ _ _ => hh.ring_some) (fun done b todo n _ hn => ?_) (fun n hn => hn) rfl hfuel
      rw [if_neg Bool.false_ne_true, hn, sequence_append, List.length_append, sequence_cons,
        sequence_nil, List.append_nil]
      rfl
    obtain ⟨n, heq, hn⟩ := hloop
    rw [ptrListSize, heq, hn]

theorem linearizePtrList_eq (hh : Holds h listp bs) {fuel : ℕ} (hfuel : bs.length ≤ fuel)
    (max : ℕ) : linearizePtrList fuel h max listp = some ((sequence h bs).take max) := by
  cases listp with
  | none =>
    rw [hh.eq_nil]
    simp [linearizePtrList]
  | some head =>
    rw [linearizePtrList]
    split
    · rename_i hmax
      rw [hmax, List.take_zero]
    · rename_i hmax
      have hloop : ∃ s, nodeLoop (fun _ => forward h.links head)
          (fun b (s : List (Entry P) × ℕ) =>
            let i := if h.nr b > s.2 then s.2 else h.nr b
            ((s.1 ++ (h.list b).take i, s.2 - i), decide (s.2 - i = 0)))
          fuel head ([], max) = some s ∧ s.1 = (sequence h bs).take max := by
        refine nodeLoop_blocks hh
          (fun done s => s.1 = sequence h done ∧ (sequence h done).length + s.2 = max ∧ s.2 ≠ 0) _
          (fun _ => h.links) (fun _ _ _ => hh.ring_some) (fun done b todo s hxs hs => ?_)
          (fun s hs => ?_) ⟨rfl, by simp, hmax⟩ hfuel
        · obtain ⟨harr, hleft, hne⟩ := hs
          dsimp only
          have hlen : h.nr b = (h.list b).length := rfl
          by_cases hle : h.nr b < s.2
          · have hi : (if h.nr b > s.2 then s.2 else h.nr b) = h.nr b := if_neg (by omega)
            have hcont : ¬ decide (s.2 - h.nr b = 0) = true := by
              rw [decide_eq_true_eq]
              omega
            rw [hi, if_neg hcont, harr, List.take_of_length_le (by omega), sequence_append]
            refine ⟨by simp, ?_, by omega⟩
            simp only [sequence_cons, sequence_nil, List.append_nil, List.length_append]
            omega
          · have hi : (if h.nr b > s.2 then s.2 else h.nr b) = s.2 := by
              split <;> omega
            have hstop : decide (s.2 - s.2 = 0) = true := by simp
            have hmax' : max - (sequence h done).length = s.2 := by omega
            have hshort : s.2 - (h.list b).length = 0 := by omega
            have hfirst : (sequence h done).take max = sequence h done :=
              List.take_of_length_le (by omega)
            rw [hi, if_pos hstop, harr, hxs, sequence_append, sequence_cons, List.take_append, hfirst,
              hmax', List.take_append, hshort, List.take_zero, List.append_nil]
        · rw [hs.1, List.take_of_length_le (by omega)]
      obtain ⟨s, heq, hs⟩ := hloop
      rw [heq, Option.map_some, hs]

theorem forEachPtr_eq (hh : Holds h listp bs) {fuel : ℕ} (hfuel : bs.length ≤ fuel) :
    forEachPtr fuel h listp = some ((sequence h bs).map Entry.untag) := by
  cases listp with
  | none =>
    rw [hh.eq_nil]
    rfl
  | some head =>
    have hloop : ∃ acc, nodeLoop (fun _ => forward h.links head)
        (fun b acc => (acc ++ (h.list b).map Entry.untag, false)) fuel head [] = some acc ∧
        acc = (sequence h bs).map Entry.untag := by
      refine nodeLoop_blocks hh (fun done acc => acc = (sequence h done).map Entry.untag) _
        (fun _ => h.links) (fun _ _ _ => hh.ring_some) (fun done b todo acc _ hacc => ?_)
        (fun acc hacc => hacc) rfl hfuel
      rw [if_neg Bool.false_ne_true, hacc, sequence_append, List.map_append, sequence_cons,
        sequence_nil, List.append_nil]
    obtain ⟨acc, heq, hacc⟩ := hloop
    rw [forEachPtr, heq, hacc]

/-- The rest of an iteration is what stands from its cursor on. -/
theorem forEachPtrFrom_eq {head : ℕ} (hh : Holds h (some head) (xs ++ b :: ys)) {fuel : ℕ}
    (hfuel : ys.length < fuel) (nr : ℕ) :
    forEachPtrFrom fuel h head b nr = some ((from_ h b nr ys).map Entry.untag) := by
  induction ys generalizing xs b fuel nr with
  | nil =>
    obtain ⟨fuel, rfl⟩ := Nat.exists_eq_succ_of_ne_zero (Nat.ne_of_gt hfuel)
    obtain ⟨t, zs, z, -, hz, hlast, -⟩ := hh.last
    obtain rfl : b = z := (List.cons.inj (List.append_inj' hz rfl).2).1
    rw [forEachPtrFrom]
    rw [if_pos hlast.1]
    simp [from_]
  | cons c ys ih =>
    obtain ⟨fuel, rfl⟩ := Nat.exists_eq_succ_of_ne_zero (Nat.ne_of_gt (Nat.lt_of_le_of_lt (Nat.zero_le _) hfuel))
    have hring := hh.ring_some
    have hh' : Holds h (some head) ((xs ++ [b]) ++ c :: ys) := by
      rw [List.append_assoc]
      exact hh
    have hne : c ≠ head := by
      rintro rfl
      have hnodup := hring.nodup
      cases xs with
      | nil =>
        obtain rfl : c = b := by simpa using hh.head
        simp at hnodup
      | cons d xs =>
        obtain rfl : c = d := by simpa using hh.head
        simp at hnodup
    rw [forEachPtrFrom]
    rw [hring.linked.1, if_neg hne, ih hh' (by simpa using hfuel)]
    simp [from_]

/-- The rest of a reverse iteration is what stands before its cursor. -/
theorem forEachPtrReverseFrom_eq {head : ℕ} (hh : Holds h (some head) (xs ++ b :: ys)) {fuel : ℕ}
    (hfuel : xs.length < fuel) (nr : ℕ) :
    forEachPtrReverseFrom fuel h head b nr =
      some ((before h xs b nr).map Entry.untag).reverse := by
  induction xs using List.reverseRecOn generalizing b ys fuel nr with
  | nil =>
    obtain ⟨fuel, rfl⟩ := Nat.exists_eq_succ_of_ne_zero (Nat.ne_of_gt hfuel)
    have hhead : b = head := by
      simpa using hh.head.symm
    rw [forEachPtrReverseFrom]
    dsimp only
    rw [if_pos hhead]
    rfl
  | append_singleton us c ih =>
    obtain ⟨fuel, rfl⟩ := Nat.exists_eq_succ_of_ne_zero (Nat.ne_of_gt (Nat.lt_of_le_of_lt (Nat.zero_le _) hfuel))
    have hblocks : us ++ c :: b :: ys = us ++ [c] ++ b :: ys := by simp
    have hh' : Holds h (some head) (us ++ c :: b :: ys) := hblocks ▸ hh
    have hring := hh'.ring_some
    have hne : b ≠ head := by
      rintro rfl
      have hnodup := hring.nodup
      cases us with
      | nil =>
        obtain rfl : b = c := by simpa using hh'.head
        simp at hnodup
      | cons d us =>
        obtain rfl : b = d := by simpa using hh'.head
        simp at hnodup
    rw [forEachPtrReverseFrom]
    dsimp only
    rw [if_neg hne, hring.linked.2, ih hh' (by simpa using hfuel)]
    simp [before, sequence_append, Heap.nr]

theorem forEachPtrReverse_eq (hh : Holds h listp bs) {fuel : ℕ} (hfuel : bs.length ≤ fuel) :
    forEachPtrReverse fuel h listp = some ((sequence h bs).map Entry.untag).reverse := by
  cases listp with
  | none =>
    rw [hh.eq_nil]
    rfl
  | some head =>
    obtain ⟨t, zs, z, -, hz, hlast, -⟩ := hh.last
    subst hz
    have hlength : zs.length < fuel := by
      rw [List.length_append, List.length_singleton] at hfuel
      exact hfuel
    rw [forEachPtrReverse, hlast.2, forEachPtrReverseFrom_eq hh hlength]
    simp [before, sequence_append, Heap.nr]

/-! ### Readers that rely on packed blocks -/

theorem ptrEntry_of_lt {i : ℕ} (hi : i < (h.list b).length) :
    h.ptrEntry b i = .entry (h.list b)[i].untag := by
  simp [Heap.ptrEntry, hi]

theorem firstPtrList_eq (hh : Holds h listp bs) (hpacked : Packed h bs) :
    firstPtrList h listp =
      ((sequence h bs).head?.map fun e => Read.entry e.untag).getD .null := by
  cases listp with
  | none =>
    rw [hh.eq_nil]
    rfl
  | some head =>
    obtain ⟨t, -, -, rfl, -, -, -⟩ := hh.last
    obtain ⟨e, es, hes⟩ := List.exists_cons_of_ne_nil (hpacked head List.mem_cons_self)
    have hi : 0 < (h.list head).length := by simp [hes]
    rw [firstPtrList]
    refine (ptrEntry_of_lt hi).trans ?_
    simp [hes]

theorem lastPtrList_eq (hh : Holds h listp bs) (hpacked : Packed h bs) :
    lastPtrList h listp =
      ((sequence h bs).getLast?.map fun e => Read.entry e.untag).getD .null := by
  cases listp with
  | none =>
    rw [hh.eq_nil]
    rfl
  | some head =>
    obtain ⟨t, zs, z, -, rfl, hlast, -⟩ := hh.last
    obtain ⟨es, e, hes⟩ := (List.eq_nil_or_concat' (h.list z)).resolve_left (hpacked z (by simp))
    have hi : es.length < (h.list z).length := by simp [hes]
    have hindex : ((h.nr z : ℤ) - 1) = (es.length : ℕ) := by
      rw [Heap.nr, hes]
      simp
    rw [lastPtrList, hlast.2, hindex, ptrEntry_of_lt hi]
    simp [sequence_append, hes]

/-- Where `PREPARE_PTR_LIST` and `NEXT_PTR_LIST` are: what is left of the list, the
current entry first. -/
inductive NextAt (h : Heap P) (bs : List ℕ) : NextCursor P → List (Entry P) → Prop
  | at_ {xs ys : List ℕ} {b nr : ℕ} {e : Entry P} {es : List (Entry P)} (hbs : bs = xs ++ b :: ys)
      (hes : (h.list b).drop nr = e :: es) :
      NextAt h bs ⟨.entry e.untag, b, nr⟩ (e :: es ++ sequence h ys)
  | done {b nr : ℕ} : NextAt h bs ⟨.null, b, nr⟩ []

theorem prepare_at (hh : Holds h listp bs) (hpacked : Packed h bs) :
    NextAt h bs (prepare h listp) (sequence h bs) := by
  cases listp with
  | none =>
    obtain rfl := hh.eq_nil
    exact .done
  | some head =>
    obtain ⟨t, -, -, rfl, -, -, -⟩ := hh.last
    obtain ⟨e, es, hes⟩ := List.exists_cons_of_ne_nil (hpacked head List.mem_cons_self)
    have hi : 0 < (h.list head).length := by simp [hes]
    have hread : h.ptrEntry head 0 = .entry e.untag := by
      refine (ptrEntry_of_lt hi).trans ?_
      simp [hes]
    rw [prepare, hread, sequence_cons, hes]
    have hbs : head :: t = [] ++ head :: t := rfl
    exact .at_ hbs (by rw [List.drop_zero, hes])

theorem next_at {head : ℕ} {c : NextCursor P} {left : List (Entry P)}
    (hh : Holds h (some head) bs) (hpacked : Packed h bs) (hc : NextAt h bs c left) :
    NextAt h bs (next h head c) left.tail := by
  cases hc with
  | done => exact .done
  | @at_ xs ys b nr e es hbs hes =>
    obtain ⟨t, -, -, rfl, -, -, hring⟩ := hh.last
    have hlen : (h.list b).length - nr = es.length + 1 := by
      rw [← List.length_drop, hes, List.length_cons]
    have hdrop : (h.list b).drop (nr + 1) = es := by
      rw [← List.tail_drop, hes, List.tail_cons]
    rw [next]
    dsimp only
    split
    · rename_i hlt
      have hlt' : nr + 1 < (h.list b).length := hlt
      have hcons := List.drop_eq_getElem_cons hlt'
      rw [hdrop] at hcons
      have hread : h.ptrEntry b ((nr : ℤ) + 1) = .entry (h.list b)[nr + 1].untag := ptrEntry_of_lt hlt'
      rw [hread, List.cons_append, List.tail_cons, hcons]
      exact .at_ hbs (hdrop.trans hcons)
    · rename_i hge
      have hes' : es = [] := by
        rw [Heap.nr] at hge
        exact List.eq_nil_of_length_eq_zero (by omega)
      have hforward := hring.forward_eq hbs
      rw [forward] at hforward
      rw [hes', List.cons_append, List.tail_cons, List.nil_append]
      cases ys with
      | nil =>
        have hnext : h.links.next b = head := by
          by_contra hne
          rw [if_neg hne] at hforward
          simp at hforward
        rw [if_pos hnext]
        exact .done
      | cons y ys =>
        have hnext : h.links.next b = y ∧ y ≠ head := by
          split at hforward
          · simp at hforward
          · rename_i hne
            obtain rfl := Option.some.inj hforward
            exact ⟨rfl, hne⟩
        rw [hnext.1, if_neg hnext.2]
        have hbs' : head :: t = (xs ++ [b]) ++ y :: ys := by
          rw [hbs, List.append_assoc]
          rfl
        obtain ⟨e', es', hy⟩ := List.exists_cons_of_ne_nil (hpacked y (by rw [hbs']; simp))
        have hi : 0 < (h.list y).length := by simp [hy]
        have hread : h.ptrEntry y 0 = .entry e'.untag := by
          refine (ptrEntry_of_lt hi).trans ?_
          simp [hy]
        rw [hread, sequence_cons, hy]
        exact .at_ hbs' (by rw [List.drop_zero, hy])

/-- `NEXT_PTR_LIST` comes to every entry of the list, and then to `NULL`. -/
theorem next_eq {head : ℕ} (hh : Holds h (some head) bs) (hpacked : Packed h bs) (k : ℕ) :
    ((next h head)^[k] (prepare h (some head))).ptr =
      (((sequence h bs)[k]?).map fun e => Read.entry e.untag).getD .null := by
  have hat : NextAt h bs ((next h head)^[k] (prepare h (some head))) ((sequence h bs).drop k) := by
    induction k with
    | zero => exact prepare_at hh hpacked
    | succ k ih =>
      rw [Function.iterate_succ_apply', ← List.tail_drop]
      exact next_at hh hpacked ih
  rw [← List.head?_drop]
  generalize (next h head)^[k] (prepare h (some head)) = c at hat ⊢
  generalize (sequence h bs).drop k = left at hat ⊢
  cases hat with
  | at_ hbs hes => rfl
  | done => rfl

end Sparse.PtrList
