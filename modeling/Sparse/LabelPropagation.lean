import Mathlib.Data.Finset.Card
import Mathlib.Logic.Function.Basic

/-!
# Propagating labels through a graph

A depth-first search that labels the nodes it comes to, hands the label a node has
at its end on to the successors, and gives up where a node comes to have two labels
or does not accept its own. When it does not give up, the labels are those of all
paths.
-/

namespace LabelPropagation

variable {ν L : Type*}

/-- What a node makes of its label, if it accepts it, and where that goes. -/
structure System (ν L : Type*) where
  transfer : ν → L → Option L
  succ : ν → List ν

/-- The labels of the paths from a node with a label. -/
inductive System.Reaches (S : System ν L) (entry : ν) (label : L) : ν → L → Prop
  | start : S.Reaches entry label entry label
  | step {a b : ν} {x y : L} : S.Reaches entry label a x → S.transfer a x = some y → b ∈ S.succ a →
      S.Reaches entry label b y

section
variable {σ : Type*}

/-- The nodes one after the other, until one gives up. -/
def visitList (visit : σ → ν → Option (σ × Bool)) : σ → List ν → Option (σ × Bool)
  | s, [] => some (s, true)
  | s, c :: cs =>
    match visit s c with
    | none => none
    | some (s, false) => some (s, false)
    | some (s, true) => visitList visit s cs

variable {visit visit' : σ → ν → Option (σ × Bool)} {s s' : σ} {c : ν} {cs : List ν} {ok : Bool}

theorem visitList_cons (h : visitList visit s (c :: cs) = some (s', true)) :
    ∃ t, visit s c = some (t, true) ∧ visitList visit t cs = some (s', true) := by
  rw [visitList] at h
  split at h
  · contradiction
  · simp at h
  · rename_i t ht
    exact ⟨t, ht, h⟩

/-- A list of visits ends where each visit from a state with the invariant does. -/
theorem visitList_terminates {Inv : σ → Prop}
    (hvisit : ∀ s, Inv s → ∀ c ∈ cs, ∃ r, visit s c = some r ∧ Inv r.1) (hs : Inv s) :
    ∃ r, visitList visit s cs = some r ∧ Inv r.1 := by
  induction cs generalizing s with
  | nil => exact ⟨_, rfl, hs⟩
  | cons c cs ih =>
    obtain ⟨⟨t, ok⟩, ht, hinv⟩ := hvisit s hs c List.mem_cons_self
    rw [visitList, ht]
    cases ok with
    | false => exact ⟨_, rfl, hinv⟩
    | true => exact ih (fun s hs c hc => hvisit s hs c (List.mem_cons_of_mem _ hc)) hinv

end

variable [DecidableEq ν] [DecidableEq L]

/-- The search, with whether it did not give up. -/
def System.visit (S : System ν L) : ℕ → (ν → Option L) → ν → L → Option ((ν → Option L) × Bool)
  | 0, _, _, _ => none
  | fuel + 1, marks, a, x =>
    match marks a with
    | some y => some (marks, decide (y = x))
    | none =>
      let marks := Function.update marks a (some x)
      match S.transfer a x with
      | none => some (marks, false)
      | some y => visitList (fun marks c => S.visit fuel marks c y) marks (S.succ a)

/-- Labels are only added. -/
def Extends (marks marks' : ν → Option L) : Prop :=
  ∀ a x, marks a = some x → marks' a = some x

/-- The node accepts its label and has handed it on. -/
def System.Complete (S : System ν L) (marks : ν → Option L) (a : ν) (x : L) : Prop :=
  ∃ y, S.transfer a x = some y ∧ ∀ c ∈ S.succ a, marks c = some y

variable {S : System ν L} {marks marks' marks'' : ν → Option L} {a entry : ν} {x y label : L}

omit [DecidableEq ν] [DecidableEq L] in
theorem Extends.trans (h : Extends marks marks') (h' : Extends marks' marks'') :
    Extends marks marks'' :=
  fun a x hx => h' a x (h a x hx)

omit [DecidableEq ν] [DecidableEq L] in
theorem System.Complete.mono (h : S.Complete marks a x) (hext : Extends marks marks') :
    S.Complete marks' a x := by
  obtain ⟨y, hy, hc⟩ := h
  exact ⟨y, hy, fun c hmem => hext c y (hc c hmem)⟩

omit [DecidableEq L] in
theorem extends_update (hnone : marks a = none) (x : L) :
    Extends marks (Function.update marks a (some x)) := by
  intro b y hy
  rw [Function.update_of_ne]
  · exact hy
  · rintro rfl
    simp [hnone] at hy

/-- What one visit that does not give up has done: the new labels are complete. -/
structure System.Visited (S : System ν L) (marks marks' : ν → Option L) : Prop where
  extends_ : Extends marks marks'
  complete : ∀ b y, marks b = none → marks' b = some y → S.Complete marks' b y

omit [DecidableEq ν] [DecidableEq L] in
theorem System.Visited.refl (S : System ν L) (marks : ν → Option L) : S.Visited marks marks where
  extends_ _ _ h := h
  complete b y hnone hsome := by simp [hnone] at hsome

omit [DecidableEq ν] [DecidableEq L] in
theorem System.Visited.trans (h : S.Visited marks marks') (h' : S.Visited marks' marks'') :
    S.Visited marks marks'' where
  extends_ := h.extends_.trans h'.extends_
  complete b y hnone hsome := by
    cases hb : marks' b with
    | none => exact h'.complete b y hb hsome
    | some z =>
      have hz := h'.extends_ b z hb
      rw [hsome, Option.some.injEq] at hz
      rw [hz]
      exact (h.complete b z hnone hb).mono h'.extends_

/-- The successors of a node. -/
theorem visitList_visited {fuel : ℕ} {cs : List ν}
    (hvisit : ∀ marks marks' c, S.visit fuel marks c y = some (marks', true) →
      S.Visited marks marks' ∧ marks' c = some y)
    (h : visitList (fun marks c => S.visit fuel marks c y) marks cs = some (marks', true)) :
    S.Visited marks marks' ∧ ∀ c ∈ cs, marks' c = some y := by
  induction cs generalizing marks with
  | nil =>
    simp only [visitList, Option.some.injEq, Prod.mk.injEq, and_true] at h
    subst h
    exact ⟨.refl S marks, by simp⟩
  | cons c cs ih =>
    obtain ⟨t, ht, hrest⟩ := visitList_cons h
    obtain ⟨hc, hcy⟩ := hvisit _ _ _ ht
    obtain ⟨hcs, hcsy⟩ := ih hrest
    refine ⟨hc.trans hcs, fun d hd => ?_⟩
    rcases List.mem_cons.1 hd with rfl | hd
    · exact hcs.extends_ _ _ hcy
    · exact hcsy d hd

theorem visit_visited {fuel : ℕ} (h : S.visit fuel marks a x = some (marks', true)) :
    S.Visited marks marks' ∧ marks' a = some x := by
  induction fuel generalizing marks marks' a x with
  | zero => simp [System.visit] at h
  | succ fuel ih =>
    rw [System.visit] at h
    split at h
    · rename_i y hy
      simp only [Option.some.injEq, Prod.mk.injEq, decide_eq_true_eq] at h
      obtain ⟨rfl, rfl⟩ := h
      exact ⟨.refl S marks, hy⟩
    · rename_i hnone
      dsimp only at h
      split at h
      · simp at h
      · rename_i y hy
        obtain ⟨hlist, hsucc⟩ := visitList_visited (fun _ _ _ hv => ih hv) h
        have hax : marks' a = some x := hlist.extends_ a x (Function.update_self ..)
        refine ⟨⟨(extends_update hnone x).trans hlist.extends_, fun b z hb hz => ?_⟩, hax⟩
        rcases eq_or_ne b a with rfl | hne
        · rw [hax, Option.some.injEq] at hz
          subst hz
          exact ⟨y, hy, hsucc⟩
        · exact hlist.complete b z (by rw [Function.update_of_ne hne, hb]) hz

/-- A search from no labels that does not give up: every path to a node comes with
its label, which the node accepts. -/
theorem visit_sound {fuel : ℕ} (h : S.visit fuel (fun _ => none) entry label = some (marks', true))
    (hr : S.Reaches entry label a x) : marks' a = some x ∧ ∃ y, S.transfer a x = some y := by
  obtain ⟨hvisited, hentry⟩ := visit_visited h
  have hcomplete : ∀ b y, marks' b = some y → S.Complete marks' b y := fun b y =>
    hvisited.complete b y rfl
  have hlabel : marks' a = some x := by
    induction hr with
    | start => exact hentry
    | step _ htransfer hmem ih =>
      obtain ⟨y, hy, hc⟩ := hcomplete _ _ ih
      rw [htransfer, Option.some.injEq] at hy
      rw [hy]
      exact hc _ hmem
  obtain ⟨y, hy, -⟩ := hcomplete a x hlabel
  exact ⟨hlabel, y, hy⟩

/-! ## Termination -/

/-- The nodes without a label. -/
def unlabelled (nodes : Finset ν) (marks : ν → Option L) : Finset ν :=
  nodes.filter fun a => marks a = none

omit [DecidableEq ν] [DecidableEq L] in
theorem unlabelled_subset (nodes : Finset ν) (h : Extends marks marks') :
    unlabelled nodes marks' ⊆ unlabelled nodes marks := by
  intro b hb
  simp only [unlabelled, Finset.mem_filter] at hb ⊢
  refine ⟨hb.1, ?_⟩
  by_contra hsome
  obtain ⟨y, hy⟩ := Option.ne_none_iff_exists'.1 hsome
  simp [h b y hy] at hb

theorem visit_terminates {nodes : Finset ν} (hclosed : ∀ a ∈ nodes, ∀ b ∈ S.succ a, b ∈ nodes)
    {fuel : ℕ} (ha : a ∈ nodes) (hfuel : (unlabelled nodes marks).card < fuel) :
    ∃ r, S.visit fuel marks a x = some r ∧ Extends marks r.1 := by
  induction fuel generalizing marks a x with
  | zero => simp at hfuel
  | succ fuel ih =>
    rw [System.visit]
    split
    · exact ⟨_, rfl, fun _ _ h => h⟩
    · rename_i hnone
      have hext := extends_update hnone x
      -- One node more has its label, so that fewer are left for the successors.
      have hless : (unlabelled nodes (Function.update marks a (some x))).card <
          (unlabelled nodes marks).card := by
        refine Finset.card_lt_card (Finset.ssubset_iff_of_subset ?_ |>.2 ⟨a, ?_, ?_⟩)
        · exact unlabelled_subset nodes hext
        · simp [unlabelled, ha, hnone]
        · simp [unlabelled]
      dsimp only
      split
      · exact ⟨_, rfl, hext⟩
      · rename_i y hy
        have hvisit : ∀ m, Extends (Function.update marks a (some x)) m → ∀ c ∈ S.succ a,
            ∃ r, S.visit fuel m c y = some r ∧ Extends (Function.update marks a (some x)) r.1 := by
          intro m hm c hc
          have hcard := Finset.card_le_card (unlabelled_subset nodes hm)
          obtain ⟨r, hr, hr'⟩ := ih (hclosed a ha c hc) (Nat.lt_of_le_of_lt hcard (by omega))
          exact ⟨r, hr, hm.trans hr'⟩
        obtain ⟨r, hr, hinv⟩ := visitList_terminates hvisit fun _ _ h => h
        exact ⟨r, hr, hext.trans hinv⟩

end LabelPropagation
