import Mathlib.Data.List.Chain
import Mathlib.Data.List.Nodup
import Mathlib.Logic.Function.Basic
import Mathlib.Order.Nat

/-!
# Circular chains of nodes

Nodes linked both ways in a circle, as the list of the nodes in the order of the
links from any of them. A chain without its closing link is a path; surgery on a
circle opens it to a path, extends the path and closes it again.
-/

namespace CircularChain

variable {ι : Type*}

structure Links (ι : Type*) where
  next : ι → ι
  prev : ι → ι

namespace Links

def Linked (L : Links ι) (a b : ι) : Prop :=
  L.next a = b ∧ L.prev b = a

variable [DecidableEq ι]

/-- Link `a` to `b`, both ways. -/
def join (L : Links ι) (a b : ι) : Links ι where
  next := Function.update L.next a b
  prev := Function.update L.prev b a

variable {L : Links ι} {a b c d : ι}

theorem linked_join (L : Links ι) (a b : ι) : (L.join a b).Linked a b :=
  ⟨Function.update_self .., Function.update_self ..⟩

theorem join_comm (hac : a ≠ c) (hbd : b ≠ d) :
    (L.join a b).join c d = (L.join c d).join a b := by
  simp only [join, Function.update_comm hac.symm, Function.update_comm hbd.symm]

theorem Linked.join (h : L.Linked c d) (hc : c ≠ a) (hd : d ≠ b) : (L.join a b).Linked c d :=
  ⟨(Function.update_of_ne hc ..).trans h.1, (Function.update_of_ne hd ..).trans h.2⟩

end Links

/-- Distinct nodes, each linked to the next. -/
structure Path (L : Links ι) (xs : List ι) : Prop where
  nodup : xs.Nodup
  chain : xs.IsChain L.Linked

/-- The nodes of a circle, from one of them on. -/
def Ring (L : Links ι) : List ι → Prop
  | [] => False
  | x :: t => (x :: t).Nodup ∧ (x :: (t ++ [x])).IsChain L.Linked

variable {L L' : Links ι} {a b x y : ι} {t u xs ys zs : List ι}

namespace Ring

theorem ne_nil (h : Ring L xs) : xs ≠ [] := by
  rintro rfl
  exact h

theorem nodup (h : Ring L xs) : xs.Nodup := by
  cases xs with
  | nil => exact h.elim
  | cons x t => exact h.1

theorem path (h : Ring L xs) : Path L xs := by
  cases xs with
  | nil => exact h.elim
  | cons x t =>
    have hchain : ((x :: t) ++ [x]).IsChain L.Linked := h.2
    exact ⟨h.1, hchain.left_of_append⟩

/-- The circle from another of its nodes. -/
theorem rotate (h : Ring L (xs ++ ys)) : Ring L (ys ++ xs) := by
  cases xs with
  | nil => simpa using h
  | cons x t =>
    cases ys with
    | nil => simpa using h
    | cons y u =>
      obtain ⟨hnodup, hchain⟩ := h
      have hnodup' : ((x :: t) ++ (y :: u)).Nodup := hnodup
      refine ⟨List.nodup_append_comm.1 hnodup', ?_⟩
      have hsplit : ((x :: t) ++ y :: (u ++ [x])).IsChain L.Linked := by
        simpa using hchain
      obtain ⟨hleft, hright⟩ := List.isChain_split.1 hsplit
      have hjoined : ((y :: u) ++ x :: (t ++ [y])).IsChain L.Linked :=
        List.isChain_split.2 ⟨hright, hleft⟩
      simpa using hjoined

/-- Neighbours in the list are linked. -/
theorem linked (h : Ring L (xs ++ a :: b :: ys)) : L.Linked a b := by
  have hchain := h.path.chain
  rw [List.isChain_append_cons_cons] at hchain
  exact hchain.2.1

/-- The last node is linked to the first. -/
theorem exists_last (h : Ring L (x :: t)) : ∃ zs z, x :: t = zs ++ [z] ∧ L.Linked z x := by
  obtain ⟨zs, z, hz⟩ := (List.eq_nil_or_concat' (x :: t)).resolve_left (by simp)
  have hchain : (zs ++ z :: [x]).IsChain L.Linked := by
    have hring := h.2
    rw [show x :: (t ++ [x]) = (x :: t) ++ [x] from rfl, hz] at hring
    simpa using hring
  exact ⟨zs, z, hz, (List.isChain_append_cons_cons.1 hchain).2.1⟩

theorem next_mem (h : Ring L xs) (ha : a ∈ xs) : L.next a ∈ xs := by
  obtain ⟨us, vs, rfl⟩ := List.append_of_mem ha
  have hring := h.rotate
  cases hvs : vs ++ us with
  | nil =>
    have hsingle : Ring L [a] := by simpa [hvs] using hring
    obtain ⟨zs, z, hz, hlast⟩ := hsingle.exists_last
    have hz' : [] ++ [a] = zs ++ [z] := hz
    obtain ⟨rfl, hza⟩ := List.append_inj' hz' rfl
    rw [(List.cons.inj hza).1, hlast.1, (List.cons.inj hza).1]
    simp
  | cons b t =>
    have hcons : Ring L ([] ++ a :: b :: t) := by
      rw [← hvs]
      exact hring
    have hb : b ∈ vs ++ us := by
      rw [hvs]
      exact List.mem_cons_self
    rw [hcons.linked.1]
    simp only [List.mem_append, List.mem_cons] at hb ⊢
    tauto

theorem prev_mem (h : Ring L xs) (ha : a ∈ xs) : L.prev a ∈ xs := by
  obtain ⟨us, vs, rfl⟩ := List.append_of_mem ha
  obtain ⟨zs, z, hz, hlast⟩ := Ring.exists_last (x := a) (t := vs ++ us) h.rotate
  have hmem : z ∈ a :: (vs ++ us) := by
    rw [hz]
    simp
  rw [hlast.2]
  simp only [List.mem_append, List.mem_cons] at hmem ⊢
  tauto

/-- Only the links of the nodes of the circle count. -/
theorem congr (h : Ring L xs) (hnext : ∀ a ∈ xs, L'.next a = L.next a)
    (hprev : ∀ a ∈ xs, L'.prev a = L.prev a) : Ring L' xs := by
  cases xs with
  | nil => exact h
  | cons x t =>
    refine ⟨h.1, List.IsChain.imp_of_mem_imp ?_ h.2⟩
    intro a b ha hb hab
    have hmem : ∀ c ∈ x :: (t ++ [x]), c ∈ x :: t := by
      intro c hc
      simpa [or_comm] using hc
    exact ⟨(hnext a (hmem a ha)).trans hab.1, (hprev b (hmem b hb)).trans hab.2⟩

end Ring

/-! ## Surgery -/

section
variable [DecidableEq ι]

/-- A chain whose links the new one does not replace. -/
theorem isChain_join {a b : ι} (h : xs.IsChain L.Linked) (ha : a ∉ xs.dropLast)
    (hb : b ∉ xs.tail) : xs.IsChain (L.join a b).Linked := by
  induction xs with
  | nil => exact .nil
  | cons x t ih =>
    cases t with
    | nil => exact .singleton x
    | cons y u =>
      rw [List.isChain_cons_cons] at h ⊢
      rw [List.dropLast_cons_cons, List.mem_cons, not_or] at ha
      rw [List.tail_cons, List.mem_cons, not_or] at hb
      exact ⟨h.1.join (Ne.symm ha.1) (Ne.symm hb.1), ih h.2 ha.2 hb.2⟩

/-- A new node at the end of a path. -/
theorem Path.extend {z : ι} (h : Path L (xs ++ [z])) (ha : a ∉ xs ++ [z]) :
    Path (L.join z a) (xs ++ [z] ++ [a]) := by
  have hz : z ∉ xs := fun hz => (List.nodup_append.1 h.nodup).2.2 z hz z (by simp) rfl
  refine ⟨?_, ?_⟩
  · rw [List.nodup_append]
    refine ⟨h.nodup, List.nodup_singleton a, fun b hb c hc hbc => ha ?_⟩
    rw [← List.mem_singleton.1 hc, ← hbc]
    exact hb
  · rw [List.append_assoc]
    refine List.isChain_append_cons_cons.2 ⟨?_, Links.linked_join L z a, .singleton a⟩
    refine isChain_join h.chain ?_ fun hmem => ha (List.mem_of_mem_tail hmem)
    rwa [List.dropLast_concat]

/-- A path whose ends are joined is a circle. -/
theorem Path.close {z : ι} (h : Path L (x :: t)) (hz : x :: t = zs ++ [z]) :
    Ring (L.join z x) (x :: t) := by
  refine ⟨h.nodup, ?_⟩
  have hlast : x :: (t ++ [x]) = zs ++ z :: [x] := by
    rw [← List.cons_append, hz, List.append_assoc]
    rfl
  rw [hlast]
  refine List.isChain_append_cons_cons.2 ⟨?_, Links.linked_join L z x, .singleton x⟩
  rw [← hz]
  refine isChain_join h.chain ?_ (List.nodup_cons.1 h.nodup).1
  rw [hz, List.dropLast_concat]
  intro hmem
  have hnodup := h.nodup
  rw [hz] at hnodup
  exact (List.nodup_append.1 hnodup).2.2 z hmem z (by simp) rfl

namespace Ring

/-- A new node before the first, at the end of the circle. -/
theorem insert (h : Ring L (x :: t)) (ha : a ∉ x :: t) :
    Ring ((L.join (L.prev x) a).join a x) (x :: (t ++ [a])) := by
  obtain ⟨zs, z, hz, hlast⟩ := h.exists_last
  have hpath := h.path
  rw [hz] at hpath ha
  have hext := hpath.extend ha
  rw [← hz] at hext
  have hend : x :: (t ++ [a]) = (x :: t) ++ [a] := rfl
  rw [hlast.2]
  exact Path.close hext hend

/-- The first node taken out. -/
theorem erase (h : Ring L (a :: b :: t)) :
    Ring (L.join (L.prev a) (L.next a)) (b :: t) := by
  obtain ⟨zs, z, hz, hlast⟩ := h.exists_last
  have hring : Ring L ([] ++ a :: b :: t) := h
  have hnext : L.next a = b := hring.linked.1
  rw [hlast.2, hnext]
  have hpath : Path L (b :: t) := ⟨(List.nodup_cons.1 h.nodup).2, h.path.chain.tail⟩
  cases zs with
  | nil => simp at hz
  | cons c zs => exact hpath.close (List.cons.inj hz).2

/-- A node taken out of the circle. -/
theorem unlink (h : Ring L (xs ++ a :: ys)) (hne : ys ++ xs ≠ []) :
    Ring (L.join (L.prev a) (L.next a)) (xs ++ ys) := by
  have hring := h.rotate
  obtain ⟨b, t, hbt⟩ := List.exists_cons_of_ne_nil hne
  rw [List.cons_append, hbt] at hring
  refine Ring.rotate ?_
  rw [hbt]
  exact hring.erase

end Ring

end

/-! ## Loops over the nodes -/

section
variable {σ : Type*}

/-- A loop that goes from node to node; the body says whether to break. -/
def nodeLoop (succ : σ → ι → Option ι) (body : ι → σ → σ × Bool) : ℕ → ι → σ → Option σ
  | 0, _, _ => none
  | fuel + 1, b, s =>
    let r := body b s
    if r.2 then some r.1
    else
      match succ r.1 b with
      | none => some r.1
      | some b' => nodeLoop succ body fuel b' r.1

/-- What holds of the nodes already visited. -/
theorem nodeLoop_invariant {succ : σ → ι → Option ι} {body : ι → σ → σ × Bool}
    (Inv : List ι → σ → Prop) (Post : σ → Prop)
    (hsucc : ∀ done b todo s, xs = done ++ b :: todo → Inv (done ++ [b]) s → succ s b = todo.head?)
    (hbody : ∀ done b todo s, xs = done ++ b :: todo → Inv done s →
      if (body b s).2 then Post (body b s).1 else Inv (done ++ [b]) (body b s).1)
    (hend : ∀ s, Inv xs s → Post s) {done todo : List ι} {s : σ} (hxs : xs = done ++ x :: todo)
    (hinv : Inv done s) {fuel : ℕ} (hfuel : todo.length < fuel) :
    ∃ s', nodeLoop succ body fuel x s = some s' ∧ Post s' := by
  induction fuel generalizing done x todo s with
  | zero => simp at hfuel
  | succ fuel ih =>
    have hstep := hbody done x todo s hxs hinv
    rw [nodeLoop]
    cases hbreak : (body x s).2 with
    | true =>
      rw [hbreak, if_pos rfl] at hstep
      exact ⟨(body x s).1, if_pos rfl, hstep⟩
    | false =>
      rw [hbreak, if_neg Bool.false_ne_true] at hstep
      have hnext := hsucc done x todo _ hxs hstep
      cases todo with
      | nil =>
        refine ⟨(body x s).1, ?_, hend _ (hxs ▸ hstep)⟩
        simp only [hnext, Bool.false_eq_true, if_false, List.head?_nil]
      | cons y rest =>
        obtain ⟨s', hs', hpost⟩ := ih (by simpa using hxs) hstep (by simpa using hfuel)
        refine ⟨s', ?_, hpost⟩
        simp only [hnext, Bool.false_eq_true, if_false, List.head?_cons, hs']

end

/-- The next node, unless it is the one the loop started at. -/
def forward [DecidableEq ι] (L : Links ι) (head b : ι) : Option ι :=
  if L.next b = head then none else some (L.next b)

/-- The node before, unless this is the first. -/
def backward [DecidableEq ι] (L : Links ι) (head b : ι) : Option ι :=
  if b = head then none else some (L.prev b)

theorem Ring.forward_eq [DecidableEq ι] (h : Ring L (x :: t)) (hxs : x :: t = xs ++ b :: ys) :
    forward L x b = ys.head? := by
  cases ys with
  | nil =>
    obtain ⟨zs, z, hz, hlast⟩ := h.exists_last
    have hb : b = z := by
      rw [hxs] at hz
      exact (List.append_inj' hz rfl).2 |> List.cons.inj |>.1
    rw [forward, hb, if_pos hlast.1]
    rfl
  | cons c ys =>
    have hring : Ring L (xs ++ b :: c :: ys) := hxs ▸ h
    have hne : c ≠ x := by
      rintro rfl
      have hnodup := h.nodup
      rw [hxs] at hnodup
      cases xs with
      | nil =>
        obtain ⟨rfl, -⟩ := List.cons.inj hxs
        simp at hnodup
      | cons d xs =>
        obtain ⟨rfl, -⟩ := List.cons.inj hxs
        simp at hnodup
    rw [forward, hring.linked.1, if_neg hne]
    rfl

theorem Ring.backward_eq [DecidableEq ι] (h : Ring L (x :: t)) (hxs : x :: t = xs ++ b :: ys) :
    backward L x b = xs.getLast? := by
  rcases List.eq_nil_or_concat' xs with rfl | ⟨us, c, rfl⟩
  · obtain ⟨rfl, -⟩ := List.cons.inj hxs
    rw [backward, if_pos rfl]
    rfl
  · have hxs' : x :: t = us ++ c :: b :: ys := by
      simpa using hxs
    have hring : Ring L (us ++ c :: b :: ys) := hxs' ▸ h
    have hne : b ≠ x := by
      rintro rfl
      have hnodup := h.nodup
      rw [hxs'] at hnodup
      cases us with
      | nil =>
        obtain ⟨rfl, -⟩ := List.cons.inj hxs'
        simp at hnodup
      | cons d us =>
        obtain ⟨rfl, -⟩ := List.cons.inj hxs'
        simp at hnodup
    rw [backward, if_neg hne, hring.linked.2]
    simp

end CircularChain
