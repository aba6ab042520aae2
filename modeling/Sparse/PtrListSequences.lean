import Sparse.PtrListBlocks

/-!
# The sequence of a pointer list

A list variable holds the blocks of a circle, and its sequence is what the blocks
hold in their order. Every change acts on the sequence of its own list and leaves
all other blocks as they are.
-/

namespace Sparse.PtrList
open CircularChain

variable {P : Type}

/-- The variable holds the list with the blocks `bs`. -/
structure Holds (h : Heap P) (listp : Option ℕ) (bs : List ℕ) : Prop where
  head : listp = bs.head?
  ring : bs ≠ [] → Ring h.links bs
  fill : ∀ b ∈ bs, h.nr b ≤ listNodeNr
  fresh : ∀ b ∈ bs, b < h.fresh

def sequence (h : Heap P) (bs : List ℕ) : List (Entry P) :=
  bs.flatMap h.list

/-- No block is empty. -/
def Packed (h : Heap P) (bs : List ℕ) : Prop :=
  ∀ b ∈ bs, h.list b ≠ []

/-- A change of the list with the blocks `bs`, which leaves `bs'`: the blocks of
other lists stay, and new blocks are new. -/
structure Change (h : Heap P) (bs : List ℕ) (h' : Heap P) (bs' : List ℕ) : Prop where
  next : ∀ c, c < h.fresh → c ∉ bs → h'.links.next c = h.links.next c
  prev : ∀ c, c < h.fresh → c ∉ bs → h'.links.prev c = h.links.prev c
  list : ∀ c, c < h.fresh → c ∉ bs → h'.list c = h.list c
  fresh : h.fresh ≤ h'.fresh
  blocks : ∀ b ∈ bs', b ∈ bs ∨ h.fresh ≤ b

variable {h h' h'' : Heap P} {listp : Option ℕ} {bs bs' bs'' cs xs ys : List ℕ} {b : ℕ}
  {e : Entry P} {es : List (Entry P)}

namespace Change

theorem refl (h : Heap P) (bs : List ℕ) : Change h bs h bs where
  next _ _ _ := rfl
  prev _ _ _ := rfl
  list _ _ _ := rfl
  fresh := Nat.le_refl _
  blocks _ hb := Or.inl hb

theorem trans (h₁ : Change h bs h' bs') (h₂ : Change h' bs' h'' bs'') : Change h bs h'' bs'' := by
  have hout : ∀ c, c < h.fresh → c ∉ bs → c < h'.fresh ∧ c ∉ bs' := by
    intro c hc hbs
    refine ⟨Nat.lt_of_lt_of_le hc h₁.fresh, fun hmem => ?_⟩
    rcases h₁.blocks c hmem with hin | hle
    · exact hbs hin
    · omega
  refine ⟨fun c hc hbs => ?_, fun c hc hbs => ?_, fun c hc hbs => ?_, h₁.fresh.trans h₂.fresh,
    fun b hb => ?_⟩
  · obtain ⟨hc', hbs'⟩ := hout c hc hbs
    rw [h₂.next c hc' hbs', h₁.next c hc hbs]
  · obtain ⟨hc', hbs'⟩ := hout c hc hbs
    rw [h₂.prev c hc' hbs', h₁.prev c hc hbs]
  · obtain ⟨hc', hbs'⟩ := hout c hc hbs
    rw [h₂.list c hc' hbs', h₁.list c hc hbs]
  · rcases h₂.blocks b hb with hin | hle
    · exact h₁.blocks b hin
    · exact Or.inr (h₁.fresh.trans hle)

/-- A list that shares no block with the changed one. -/
theorem frame (hchange : Change h bs h' bs') (hdisjoint : ∀ c ∈ cs, c ∉ bs)
    (hcs : Holds h listp cs) :
    Holds h' listp cs ∧ sequence h' cs = sequence h cs ∧ (∀ c ∈ cs, c ∉ bs') := by
  have hlist : ∀ c ∈ cs, h'.list c = h.list c := fun c hc =>
    hchange.list c (hcs.fresh c hc) (hdisjoint c hc)
  refine ⟨⟨hcs.head, fun hne => ?_, fun c hc => ?_, fun c hc => ?_⟩, ?_, fun c hc hbs' => ?_⟩
  · exact (hcs.ring hne).congr (fun c hc => hchange.next c (hcs.fresh c hc) (hdisjoint c hc))
      fun c hc => hchange.prev c (hcs.fresh c hc) (hdisjoint c hc)
  · rw [Heap.nr, hlist c hc]
    exact hcs.fill c hc
  · exact Nat.lt_of_lt_of_le (hcs.fresh c hc) hchange.fresh
  · exact List.flatMap_congr hlist
  · rcases hchange.blocks c hbs' with hin | hle
    · exact hdisjoint c hc hin
    · exact absurd (hcs.fresh c hc) (Nat.not_lt.2 hle)

end Change

theorem sequence_append (h : Heap P) (xs ys : List ℕ) :
    sequence h (xs ++ ys) = sequence h xs ++ sequence h ys :=
  List.flatMap_append

@[simp] theorem sequence_cons (h : Heap P) (b : ℕ) (xs : List ℕ) :
    sequence h (b :: xs) = h.list b ++ sequence h xs := rfl

@[simp] theorem sequence_nil (h : Heap P) : sequence h [] = [] := rfl

theorem sequence_congr (hlist : ∀ c ∈ xs, h'.list c = h.list c) : sequence h' xs = sequence h xs :=
  List.flatMap_congr hlist

/-- The sequence after the entries of one block change. -/
theorem sequence_setList (hn : (xs ++ b :: ys).Nodup) (h : Heap P) (es : List (Entry P)) :
    sequence (h.setList b es) (xs ++ b :: ys) = sequence h xs ++ (es ++ sequence h ys) := by
  obtain ⟨-, hys, hdisjoint⟩ := List.nodup_append.1 hn
  have hx : ∀ c ∈ xs, c ≠ b := fun c hc => hdisjoint c hc b List.mem_cons_self
  have hy : ∀ c ∈ ys, c ≠ b := by
    rintro c hc rfl
    exact (List.nodup_cons.1 hys).1 hc
  rw [sequence_append, sequence_cons, Heap.setList_self,
    sequence_congr fun c hc => Heap.setList_of_ne h (hx c hc) es,
    sequence_congr fun c hc => Heap.setList_of_ne h (hy c hc) es]

namespace Holds

theorem nodup (hh : Holds h listp bs) : bs.Nodup := by
  by_cases hbs : bs = []
  · rw [hbs]
    exact List.nodup_nil
  · exact (hh.ring hbs).nodup

/-- A list has fewer blocks than were ever made. -/
theorem length_le (hh : Holds h listp bs) : bs.length ≤ h.fresh := by
  have hsub : bs ⊆ List.range h.fresh := fun b hb => List.mem_range.2 (hh.fresh b hb)
  simpa using (List.subperm_of_subset hh.nodup hsub).length_le

/-- The entries of one block change. -/
theorem setList (hh : Holds h listp bs) (hes : es.length ≤ listNodeNr) :
    Holds (h.setList b es) listp bs where
  head := hh.head
  ring hne := hh.ring hne
  fill c hc := by
    rcases eq_or_ne c b with rfl | hne
    · rw [Heap.nr, Heap.setList_self]
      exact hes
    · rw [Heap.nr, Heap.setList_of_ne h hne]
      exact hh.fill c hc
  fresh c hc := hh.fresh c hc

end Holds

theorem Change.setList (hb : b ∈ bs) (h : Heap P) (es : List (Entry P)) :
    Change h bs (h.setList b es) bs where
  next _ _ _ := rfl
  prev _ _ _ := rfl
  list c _ hc := Heap.setList_of_ne h (by
    rintro rfl
    exact hc hb) es
  fresh := Nat.le_refl _
  blocks _ hb := Or.inl hb

/-- What a change does to its list. -/
structure Acts (h : Heap P) (bs : List ℕ) (h' : Heap P) (listp' : Option ℕ) (bs' : List ℕ)
    (es : List (Entry P)) : Prop where
  holds : Holds h' listp' bs'
  change : Change h bs h' bs'
  sequence : sequence h' bs' = es

/-! ## Adding and splitting -/

/-- The variable points to the first block, and the link back is the last. -/
theorem Holds.last {head : ℕ} (hh : Holds h (some head) bs) :
    ∃ t zs z, bs = head :: t ∧ bs = zs ++ [z] ∧ h.links.Linked z head ∧ Ring h.links (head :: t) := by
  cases bs with
  | nil =>
    have hhead := hh.head
    simp at hhead
  | cons c t =>
    obtain rfl : head = c := by simpa using hh.head
    have hring := hh.ring (by simp)
    obtain ⟨zs, z, hz, hlast⟩ := hring.exists_last
    exact ⟨t, zs, z, rfl, hz, hlast, hring⟩

theorem Holds.eq_nil (hh : Holds h none bs) : bs = [] := by
  cases bs with
  | nil => rfl
  | cons c t =>
    have hhead := hh.head
    simp at hhead

/-- A new block takes no part in the lists that exist. -/
theorem Holds.fresh_not_mem (hh : Holds h listp bs) : h.fresh ∉ bs := fun hmem =>
  Nat.lt_irrefl _ (hh.fresh _ hmem)

theorem Heap.alloc_list (h : Heap P) {c : ℕ} (hc : c ≠ h.fresh) : h.alloc.1.list c = h.list c :=
  Function.update_of_ne hc ..

/-- A new block in the circle of a list. -/
theorem Holds.grow (hh : Holds h listp bs) {listp' : Option ℕ} (hhead : listp' = bs'.head?)
    (hring : Ring h'.links bs') (hmem : ∀ c, c ∈ bs' → c ∈ bs ∨ c = h.fresh)
    (hfresh : h'.fresh = h.fresh + 1) (hfill : ∀ c ∈ bs', h'.nr c ≤ listNodeNr)
    (hnext : ∀ c, c < h.fresh → c ∉ bs → h'.links.next c = h.links.next c)
    (hprev : ∀ c, c < h.fresh → c ∉ bs → h'.links.prev c = h.links.prev c)
    (hlist : ∀ c, c < h.fresh → c ∉ bs → h'.list c = h.list c) (es : List (Entry P))
    (hes : sequence h' bs' = es) : Acts h bs h' listp' bs' es where
  holds := by
    refine ⟨hhead, fun _ => hring, hfill, fun c hc => ?_⟩
    rw [hfresh]
    rcases hmem c hc with hin | rfl
    · exact Nat.lt_succ_of_lt (hh.fresh c hin)
    · exact Nat.lt_succ_self _
  change := by
    refine ⟨hnext, hprev, hlist, by omega, fun c hc => ?_⟩
    exact (hmem c hc).imp_right fun hcf => Nat.le_of_eq hcf.symm
  sequence := hes

theorem addPtrList_full {head z : ℕ} (hprev : h.links.prev head = z) (hfull : listNodeNr ≤ h.nr z)
    (e : Entry P) : addPtrList h (some head) e =
      (((h.alloc.1.join z h.fresh).join h.fresh head).setList h.fresh [e], head) := by
  simp only [addPtrList, hprev, if_pos hfull]
  rfl

theorem addPtrList_room {head z : ℕ} (hprev : h.links.prev head = z)
    (hroom : ¬ listNodeNr ≤ h.nr z) (e : Entry P) :
    addPtrList h (some head) e = (h.setList z (h.list z ++ [e]), head) := by
  simp only [addPtrList, hprev, if_neg hroom]

theorem addPtrList_acts (hh : Holds h listp bs) (e : Entry P) :
    ∃ bs', Acts h bs (addPtrList h listp e).1 (some (addPtrList h listp e).2) bs'
        (sequence h bs ++ [e]) ∧
      (Packed h bs → Packed (addPtrList h listp e).1 bs') := by
  cases listp with
  | none =>
    obtain rfl := hh.eq_nil
    have hpath : Path h.links [h.fresh] := ⟨List.nodup_singleton _, .singleton _⟩
    have hring := hpath.close (List.nil_append _).symm
    have hmem : ∀ c, c ∈ [h.fresh] → c ∈ ([] : List ℕ) ∨ c = h.fresh := by simp
    refine ⟨[h.fresh], hh.grow rfl hring hmem rfl ?_ ?_ ?_ ?_ _ ?_, fun _ => ?_⟩
    · simp [addPtrList, Heap.alloc, Heap.nr, listNodeNr]
    · intro c hc _
      exact Function.update_of_ne (by omega) ..
    · intro c hc _
      exact Function.update_of_ne (by omega) ..
    · intro c hc _
      have hcf : c ≠ h.fresh := by omega
      exact (Heap.setList_of_ne _ hcf _).trans (Heap.alloc_list h hcf)
    · simp [addPtrList, Heap.alloc, sequence]
    · simp [addPtrList, Heap.alloc, Packed]
  | some head =>
    obtain ⟨t, zs, z, rfl, hz, hlast, hring⟩ := hh.last
    have hzmem : z ∈ head :: t := by
      rw [hz]
      simp
    by_cases hfull : listNodeNr ≤ h.nr z
    · rw [addPtrList_full hlast.2 hfull]
      have hnew := hh.fresh_not_mem
      have hins := hring.insert hnew
      rw [hlast.2] at hins
      have hne : ∀ c ∈ head :: t, c ≠ h.fresh := by
        rintro c hc rfl
        exact hnew hc
      have hlist : ∀ c, c ≠ h.fresh →
          (((h.alloc.1.join z h.fresh).join h.fresh head).setList h.fresh [e]).list c =
            h.list c := fun c hc => (Heap.setList_of_ne _ hc _).trans (Heap.alloc_list h hc)
      have hmem : ∀ c, c ∈ head :: (t ++ [h.fresh]) → c ∈ head :: t ∨ c = h.fresh := by
        intro c hc
        rwa [← List.cons_append, List.mem_append, List.mem_singleton] at hc
      refine ⟨head :: (t ++ [h.fresh]), hh.grow rfl hins hmem rfl ?_ ?_ ?_ ?_ _ ?_, ?_⟩
      · intro c hc
        rcases hmem c hc with hin | rfl
        · rw [Heap.nr, hlist c (hne c hin)]
          exact hh.fill c hin
        · rw [Heap.nr, Heap.setList_self]
          exact Nat.le_of_ble_eq_true rfl
      · intro c hc hout
        show Function.update (Function.update h.links.next z h.fresh) h.fresh head c = _
        rw [Function.update_of_ne (by omega), Function.update_of_ne]
        rintro rfl
        exact hout hzmem
      · intro c hc hout
        show Function.update (Function.update h.links.prev h.fresh z) head h.fresh c = _
        rw [Function.update_of_ne, Function.update_of_ne (by omega)]
        rintro rfl
        exact hout List.mem_cons_self
      · intro c hc _
        exact hlist c (by omega)
      · rw [← List.cons_append, sequence_append, sequence_congr fun c hc => hlist c (hne c hc)]
        simp
      · intro hpacked c hc
        rcases hmem c hc with hin | rfl
        · rw [hlist c (hne c hin)]
          exact hpacked c hin
        · rw [Heap.setList_self]
          simp
    · rw [addPtrList_room hlast.2 hfull]
      have hes : (h.list z ++ [e]).length ≤ listNodeNr := by
        rw [List.length_append, List.length_singleton]
        exact Nat.lt_of_not_le hfull
      have hn := hh.nodup
      refine ⟨head :: t, ⟨hh.setList hes, Change.setList hzmem h _, ?_⟩, fun hpacked c hc => ?_⟩
      · rw [hz] at hn ⊢
        rw [sequence_setList hn, sequence_append]
        simp
      · rcases eq_or_ne c z with rfl | hcz
        · simp
        · rw [Heap.setList_of_ne h hcz]
          exact hpacked c hc

/-- A split puts a new block behind its block and keeps the sequence. -/
theorem splitPtrListHead_acts (hh : Holds h listp (xs ++ b :: ys)) :
    Acts h (xs ++ b :: ys) (splitPtrListHead h b) listp (xs ++ b :: h.fresh :: ys)
        (sequence h (xs ++ b :: ys)) ∧
      (splitPtrListHead h b).links.next b = h.fresh ∧
      (splitPtrListHead h b).list b = (h.list b).take (h.nr b - h.nr b / 2) ∧
      (splitPtrListHead h b).list h.fresh = (h.list b).drop (h.nr b - h.nr b / 2) ∧
      ∀ c, c ≠ b → c ≠ h.fresh → (splitPtrListHead h b).list c = h.list c := by
  have hnew := hh.fresh_not_mem
  have hbmem : b ∈ xs ++ b :: ys := by simp
  have hbf : b ≠ h.fresh := by
    rintro rfl
    exact hnew hbmem
  have hlist : ∀ c, c ≠ b → c ≠ h.fresh → (splitPtrListHead h b).list c = h.list c := by
    intro c hcb hcf
    exact (Heap.setList_of_ne _ hcf _).trans ((Heap.setList_of_ne _ hcb _).trans (Heap.alloc_list h hcf))
  have hlistb : (splitPtrListHead h b).list b = (h.list b).take (h.nr b - h.nr b / 2) :=
    (Heap.setList_of_ne _ hbf _).trans (Heap.setList_self ..)
  have hlistf : (splitPtrListHead h b).list h.fresh = (h.list b).drop (h.nr b - h.nr b / 2) :=
    Heap.setList_self ..
  have hlinks : (splitPtrListHead h b).links =
      (h.links.join h.fresh (h.links.next b)).join b h.fresh := rfl
  -- The circle from the block behind `b` on ends with `b`.
  have hring : Ring h.links (ys ++ xs ++ [b]) := by
    have hcut : Ring h.links ((xs ++ [b]) ++ ys) := by simpa using hh.ring (by simp)
    simpa using hcut.rotate
  obtain ⟨x, t, hxt⟩ := List.exists_cons_of_ne_nil hring.ne_nil
  rw [hxt] at hring
  obtain ⟨zs, z, hz, hlast⟩ := hring.exists_last
  obtain rfl : z = b := by
    rw [← hxt] at hz
    exact ((List.cons.inj (List.append_inj' hz rfl).2).1).symm
  have hxmem : x ∈ xs ++ z :: ys := by
    have hx : x ∈ ys ++ xs ++ [z] := by
      rw [hxt]
      exact List.mem_cons_self
    simpa [or_comm, or_assoc, or_left_comm] using hx
  have hxf : x ≠ h.fresh := by
    rintro rfl
    exact hnew hxmem
  have hnew' : h.fresh ∉ x :: t := by
    rw [← hxt]
    simpa [or_comm, or_assoc, or_left_comm, not_or, and_comm, and_assoc, and_left_comm] using hnew
  have hins := hring.insert hnew'
  rw [hlast.2, Links.join_comm hbf hxf.symm, ← List.cons_append, ← hxt] at hins
  have hring' : Ring (splitPtrListHead h z).links (xs ++ z :: h.fresh :: ys) := by
    rw [hlinks, hlast.1]
    have hcut : Ring ((h.links.join h.fresh x).join z h.fresh) (ys ++ (xs ++ [z, h.fresh])) := by
      simpa using hins
    simpa using hcut.rotate
  have hmem : ∀ c, c ∈ xs ++ z :: h.fresh :: ys → c ∈ xs ++ z :: ys ∨ c = h.fresh := by
    intro c hc
    simp only [List.mem_append, List.mem_cons] at hc ⊢
    tauto
  refine ⟨hh.grow ?_ hring' hmem rfl ?_ ?_ ?_ ?_ _ ?_, ?_, hlistb, hlistf, hlist⟩
  · rw [hh.head]
    cases xs <;> rfl
  · intro c hc
    have hz := hh.fill z hbmem
    rw [Heap.nr] at hz
    rcases eq_or_ne c h.fresh with rfl | hcf
    · rw [Heap.nr, hlistf, List.length_drop]
      omega
    · rcases eq_or_ne c z with rfl | hcz
      · rw [Heap.nr, hlistb, List.length_take]
        omega
      · rw [Heap.nr, hlist c hcz hcf]
        exact hh.fill c ((hmem c hc).resolve_right hcf)
  · intro c hc hout
    rw [hlinks]
    show Function.update (Function.update h.links.next h.fresh _) z h.fresh c = _
    rw [Function.update_of_ne, Function.update_of_ne (by omega)]
    rintro rfl
    exact hout hbmem
  · intro c hc hout
    rw [hlinks, hlast.1]
    show Function.update (Function.update h.links.prev x h.fresh) h.fresh z c = _
    rw [Function.update_of_ne (by omega), Function.update_of_ne]
    rintro rfl
    exact hout hxmem
  · intro c hc hout
    refine hlist c ?_ (by omega)
    rintro rfl
    exact hout hbmem
  · have hn := hh.nodup
    obtain ⟨-, hys, hdisjoint⟩ := List.nodup_append.1 hn
    have hxs : ∀ c ∈ xs, (splitPtrListHead h z).list c = h.list c := fun c hc =>
      hlist c (hdisjoint c hc z List.mem_cons_self) (by
        rintro rfl
        exact hnew (List.mem_append_left _ hc))
    have hys' : ∀ c ∈ ys, (splitPtrListHead h z).list c = h.list c := by
      intro c hc
      refine hlist c ?_ ?_
      · rintro rfl
        exact (List.nodup_cons.1 hys).1 hc
      · rintro rfl
        exact hnew (List.mem_append_right _ (List.mem_cons_of_mem _ hc))
    rw [sequence_append, sequence_cons, sequence_cons, sequence_congr hxs, sequence_congr hys',
      hlistb, hlistf, ← List.append_assoc (List.take _ _), List.take_append_drop, sequence_append,
      sequence_cons]
  · rw [hlinks]
    exact Function.update_self ..

/-- The halves of a block with two entries are not empty. -/
theorem splitPtrListHead_packed (hh : Holds h listp (xs ++ b :: ys)) (hnr : 2 ≤ h.nr b)
    (hpacked : Packed h (xs ++ b :: ys)) :
    Packed (splitPtrListHead h b) (xs ++ b :: h.fresh :: ys) := by
  obtain ⟨-, -, hlistb, hlistf, hlist⟩ := splitPtrListHead_acts hh
  have hlength : (h.list b).length = h.nr b := rfl
  intro c hc hnil
  rcases eq_or_ne c h.fresh with rfl | hcf
  · rw [hlistf, List.drop_eq_nil_iff] at hnil
    omega
  · rcases eq_or_ne c b with rfl | hcb
    · rw [hlistb, List.take_eq_nil_iff] at hnil
      rcases hnil with hnil | hnil
      · omega
      · rw [hnil, List.length_nil] at hlength
        omega
    · rw [hlist c hcb hcf] at hnil
      refine hpacked c ?_ hnil
      simpa [hcf] using hc

/-! ## The cursor of an iteration -/

/-- What stands before the cursor. -/
def before (h : Heap P) (xs : List ℕ) (b nr : ℕ) : List (Entry P) :=
  sequence h xs ++ (h.list b).take nr

/-- What stands from the cursor on. -/
def from_ (h : Heap P) (b nr : ℕ) (ys : List ℕ) : List (Entry P) :=
  (h.list b).drop nr ++ sequence h ys

theorem before_append_from (h : Heap P) (xs : List ℕ) (b nr : ℕ) (ys : List ℕ) :
    before h xs b nr ++ from_ h b nr ys = sequence h (xs ++ b :: ys) := by
  rw [before, from_, sequence_append, sequence_cons, List.append_assoc, ← List.append_assoc (List.take _ _),
    List.take_append_drop]

/-- The insertion in a block that is not full. -/
theorem insertAt_acts (hh : Holds h listp (xs ++ b :: ys)) {nr : ℕ} (hnr : nr < h.nr b)
    (hroom : h.nr b < listNodeNr) (e : Entry P) :
    Acts h (xs ++ b :: ys) (h.setList b ((h.list b).take nr ++ e :: (h.list b).drop nr)) listp
        (xs ++ b :: ys) (before h xs b nr ++ e :: from_ h b nr ys) ∧
      before (h.setList b ((h.list b).take nr ++ e :: (h.list b).drop nr)) xs b nr =
        before h xs b nr ∧
      nr < (h.setList b ((h.list b).take nr ++ e :: (h.list b).drop nr)).nr b ∧
      (Packed h (xs ++ b :: ys) →
        Packed (h.setList b ((h.list b).take nr ++ e :: (h.list b).drop nr)) (xs ++ b :: ys)) := by
  have hnr' : nr < (h.list b).length := hnr
  have hlength : ((h.list b).take nr ++ e :: (h.list b).drop nr).length = h.nr b + 1 := by
    rw [List.length_append, List.length_cons, List.length_take, List.length_drop, Heap.nr]
    omega
  have hxs : ∀ c ∈ xs, c ≠ b := fun c hc =>
    (List.nodup_append.1 hh.nodup).2.2 c hc b List.mem_cons_self
  refine ⟨⟨hh.setList (by omega), Change.setList (by simp) h _, ?_⟩, ?_, ?_, fun hpacked c hc => ?_⟩
  · rw [sequence_setList hh.nodup, before, from_]
    simp
  · rw [before, before, Heap.setList_self,
      sequence_congr fun c hc => Heap.setList_of_ne h (hxs c hc) _, List.take_append_of_le_length,
      List.take_take, Nat.min_self]
    rw [List.length_take]
    omega
  · rw [Heap.nr, Heap.setList_self, hlength]
    omega
  · rcases eq_or_ne c b with rfl | hcb
    · rw [Heap.setList_self]
      simp
    · rw [Heap.setList_of_ne h hcb]
      exact hpacked c hc

/-- The entry goes in at the cursor, in front of the current one. -/
theorem insertCurrent_acts (hh : Holds h listp (xs ++ b :: ys)) {nr : ℕ} (hnr : nr < h.nr b)
    (e : Entry P) :
    ∃ xs' b' nr' ys', (insertCurrent h e b nr).2 = (b', nr') ∧
      Acts h (xs ++ b :: ys) (insertCurrent h e b nr).1 listp (xs' ++ b' :: ys')
        (before h xs b nr ++ e :: from_ h b nr ys) ∧
      before (insertCurrent h e b nr).1 xs' b' nr' = before h xs b nr ∧
      nr' < (insertCurrent h e b nr).1.nr b' ∧
      (Packed h (xs ++ b :: ys) → Packed (insertCurrent h e b nr).1 (xs' ++ b' :: ys')) := by
  by_cases hfull : h.nr b = listNodeNr
  · obtain ⟨hsplit, hnext, hlistb, hlistf, hlist⟩ := splitPtrListHead_acts hh
    have hlength : (h.list b).length = 29 := hfull
    have hhalf : h.nr b - h.nr b / 2 = 15 := by rw [Heap.nr, hlength]
    rw [hhalf] at hlistb hlistf
    have hnrb : (splitPtrListHead h b).nr b = 15 := by
      rw [Heap.nr, hlistb, List.length_take, hlength]
      rfl
    have hnrf : (splitPtrListHead h b).nr h.fresh = 14 := by
      rw [Heap.nr, hlistf, List.length_drop, hlength]
    have hxs : sequence (splitPtrListHead h b) xs = sequence h xs := by
      refine sequence_congr fun c hc => hlist c ?_ ?_
      · exact (List.nodup_append.1 hh.nodup).2.2 c hc b List.mem_cons_self
      · rintro rfl
        exact hh.fresh_not_mem (List.mem_append_left _ hc)
    have hpacked : Packed h (xs ++ b :: ys) →
        Packed (splitPtrListHead h b) (xs ++ b :: h.fresh :: ys) :=
      splitPtrListHead_packed hh (by rw [Heap.nr, hlength]; decide)
    -- What comes from the cursor on is the same because what comes before it is.
    have hfrom : ∀ {h' : Heap P} {xs' ys' : List ℕ} {b' nr' : ℕ},
        Acts h (xs ++ b :: ys) h' listp (xs' ++ b' :: ys') (sequence h (xs ++ b :: ys)) →
        before h' xs' b' nr' = before h xs b nr → from_ h' b' nr' ys' = from_ h b nr ys := by
      intro h' xs' ys' b' nr' hacts hsame
      have hseq := hacts.sequence
      rw [← before_append_from h' xs' b' nr' ys', ← before_append_from h xs b nr ys, hsame] at hseq
      exact List.append_cancel_left hseq
    by_cases hlow : 15 ≤ nr
    · -- The cursor moves to the new block.
      have heq : insertCurrent h e b nr =
          ((splitPtrListHead h b).setList h.fresh
            (((splitPtrListHead h b).list h.fresh).take (nr - 15) ++
              e :: ((splitPtrListHead h b).list h.fresh).drop (nr - 15)), h.fresh, nr - 15) := by
        simp only [insertCurrent, if_pos hfull, hnrb, if_pos hlow, hnext]
      have hsplit' : Acts h (xs ++ b :: ys) (splitPtrListHead h b) listp
          ((xs ++ [b]) ++ h.fresh :: ys) (sequence h (xs ++ b :: ys)) := by
        simpa using hsplit
      have hnr' : nr - 15 < (splitPtrListHead h b).nr h.fresh := by
        rw [Heap.nr, hlength] at hnr
        omega
      have hsame : before (splitPtrListHead h b) (xs ++ [b]) h.fresh (nr - 15) =
          before h xs b nr := by
        rw [before, before, sequence_append, hxs, sequence_cons, sequence_nil, List.append_nil, hlistb,
          hlistf, List.append_assoc, ← List.take_add, Nat.add_sub_cancel' hlow]
      obtain ⟨hacts, hbefore, hcursor, hpack⟩ :=
        insertAt_acts hsplit'.holds hnr' (by rw [hnrf]; decide) e
      refine ⟨xs ++ [b], h.fresh, nr - 15, ys, by rw [heq], ?_, ?_, ?_, fun hp => ?_⟩
      · rw [heq]
        refine ⟨hacts.holds, hsplit'.change.trans hacts.change, ?_⟩
        rw [hacts.sequence, hsame, hfrom hsplit' hsame]
      · rw [heq, hbefore, hsame]
      · rw [heq]
        exact hcursor
      · rw [heq]
        exact hpack (by simpa using hpacked hp)
    · have heq : insertCurrent h e b nr =
          ((splitPtrListHead h b).setList b
            (((splitPtrListHead h b).list b).take nr ++ e :: ((splitPtrListHead h b).list b).drop nr),
            b, nr) := by
        simp only [insertCurrent, if_pos hfull, hnrb, if_neg hlow]
      have hnr' : nr < (splitPtrListHead h b).nr b := by omega
      have hsame : before (splitPtrListHead h b) xs b nr = before h xs b nr := by
        rw [before, before, hxs, hlistb, List.take_take, Nat.min_eq_left (by omega)]
      obtain ⟨hacts, hbefore, hcursor, hpack⟩ :=
        insertAt_acts hsplit.holds hnr' (by rw [hnrb]; decide) e
      refine ⟨xs, b, nr, h.fresh :: ys, by rw [heq], ?_, ?_, ?_, fun hp => ?_⟩
      · rw [heq]
        refine ⟨hacts.holds, hsplit.change.trans hacts.change, ?_⟩
        rw [hacts.sequence, hsame, hfrom hsplit hsame]
      · rw [heq, hbefore, hsame]
      · rw [heq]
        exact hcursor
      · rw [heq]
        exact hpack (hpacked hp)
  · have heq : insertCurrent h e b nr =
        (h.setList b ((h.list b).take nr ++ e :: (h.list b).drop nr), b, nr) := by
      simp only [insertCurrent, if_neg hfull]
    have hroom : h.nr b < listNodeNr := Nat.lt_of_le_of_ne (hh.fill b (by simp)) hfull
    obtain ⟨hacts, hbefore, hcursor, hpacked⟩ := insertAt_acts hh hnr hroom e
    rw [heq]
    exact ⟨xs, b, nr, ys, rfl, hacts, hbefore, hcursor, hpacked⟩

end Sparse.PtrList
