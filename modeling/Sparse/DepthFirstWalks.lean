import Mathlib.Data.Finset.Card
import Mathlib.Logic.Function.Basic
import Mathlib.Logic.Relation

/-!
# Depth-first walks that can give up

A walk follows the edges of a node in order. It looks at each node that an edge leads to and
passes it by, enters it unless its vertex is marked, or gives up. When no vertex has two nodes,
a walk that starts without marks comes to its end exactly if nothing that it could enter makes it
give up.
-/

namespace DepthFirstWalks

/-- What a walk does about a node that an edge leads to. -/
inductive Verdict
  | giveUp | pass | enter
  deriving DecidableEq, Repr

/-- The nodes of a walk. Several nodes may share a vertex; the vertices carry the marks. -/
structure Plan (N V : Type*) where
  vertex : N → V
  edges : N → List N
  look : N → Verdict
  shut : N → Bool

/-- The nodes that a walk looked at, in order, the marks it leaves, and whether it came to its
end. -/
structure Outcome (N V : Type*) where
  looked : List N
  marks : V → Bool
  finished : Bool

namespace Outcome

variable {N V : Type*} (o : Outcome N V) (ns : List N)

/-- The outcome of a walk that looked at some nodes before. -/
def after : Outcome N V := { o with looked := ns ++ o.looked }

@[simp] theorem after_looked : (o.after ns).looked = ns ++ o.looked := rfl
@[simp] theorem after_marks : (o.after ns).marks = o.marks := rfl
@[simp] theorem after_finished : (o.after ns).finished = o.finished := rfl

end Outcome

namespace Plan

variable {N V : Type*} [DecidableEq V] (plan : Plan N V)

/-- The walk along a list of edges. -/
def follow (enter : (V → Bool) → N → Outcome N V) : (V → Bool) → List N → Outcome N V
  | marks, [] => ⟨[], marks, true⟩
  | marks, n :: ns =>
    match plan.look n with
    | .giveUp => ⟨[n], marks, false⟩
    | .pass => (follow enter marks ns).after [n]
    | .enter =>
      if marks (plan.vertex n) then (follow enter marks ns).after [n]
      else
        let o := enter (Function.update marks (plan.vertex n) true) n
        if o.finished then (follow enter o.marks ns).after (n :: o.looked) else o.after [n]

/-- The walk from a node. The fuel bounds the depth of the recursion. -/
def walk : ℕ → (V → Bool) → N → Outcome N V
  | 0, marks, _ => ⟨[], marks, true⟩
  | fuel + 1, marks, n =>
    if plan.shut n then ⟨[], marks, false⟩ else plan.follow (walk fuel) marks (plan.edges n)

/-- The edges that a walk can go along. -/
def Enters (a b : N) : Prop := b ∈ plan.edges a ∧ plan.look b = .enter

/-- Something makes the walk give up at this node. -/
def Blocked (a : N) : Prop := plan.shut a = true ∨ ∃ b ∈ plan.edges a, plan.look b = .giveUp

/-- A walk that gives up met a reason for it. -/
theorem blocked_of_not_finished (fuel : ℕ) (marks : V → Bool) (a : N)
    (h : (plan.walk fuel marks a).finished = false) :
    ∃ b, Relation.ReflTransGen plan.Enters a b ∧ plan.Blocked b := by
  induction fuel generalizing marks a with
  | zero => simp [walk] at h
  | succ fuel ih =>
    rw [walk] at h
    split at h
    · exact ⟨a, .refl, Or.inl ‹_›⟩
    · suffices hlist : ∀ ns : List N, ns ⊆ plan.edges a → ∀ marks : V → Bool,
          (plan.follow (plan.walk fuel) marks ns).finished = false →
          ∃ b, Relation.ReflTransGen plan.Enters a b ∧ plan.Blocked b from
        hlist _ (List.Subset.refl _) _ h
      intro ns hns
      induction ns with
      | nil => intro marks h; simp [follow] at h
      | cons n ns ihns =>
        intro marks h
        obtain ⟨hn, hns⟩ := List.cons_subset.mp hns
        rw [follow] at h
        cases hl : plan.look n with
        | giveUp => exact ⟨a, .refl, Or.inr ⟨n, hn, hl⟩⟩
        | pass => exact ihns hns marks (by simpa [hl] using h)
        | enter =>
          simp only [hl] at h
          split at h
          · exact ihns hns marks (by simpa using h)
          · split at h
            · exact ihns hns _ (by simpa using h)
            · rename_i hf
              obtain ⟨b, hreach, hb⟩ := ih _ n (by simpa using hf)
              exact ⟨b, .head ⟨hn, hl⟩ hreach, hb⟩

end Plan

section Unmarked

variable {V : Type*} {vs : Finset V} {marks marks' : V → Bool} {v : V}

/-- The vertices of a finite set that a walk can still mark. -/
def unmarked (vs : Finset V) (marks : V → Bool) : Finset V := vs.filter (fun v => marks v = false)

theorem card_unmarked_mono (h : ∀ v, marks v = true → marks' v = true) :
    (unmarked vs marks').card ≤ (unmarked vs marks).card := by
  apply Finset.card_le_card
  intro v hv
  rw [unmarked, Finset.mem_filter] at hv ⊢
  refine ⟨hv.1, ?_⟩
  by_contra hm
  rw [h v (by simpa using hm)] at hv
  exact absurd hv.2 (by simp)

theorem card_unmarked_update [DecidableEq V] (hv : v ∈ vs) (hm : marks v = false) :
    (unmarked vs (Function.update marks v true)).card < (unmarked vs marks).card := by
  apply Finset.card_lt_card
  rw [Finset.ssubset_iff_of_subset]
  · exact ⟨v, by simp [unmarked, hv, hm], by simp [unmarked]⟩
  · intro w hw
    rw [unmarked, Finset.mem_filter] at hw ⊢
    refine ⟨hw.1, ?_⟩
    by_cases hwv : w = v
    · rwa [hwv]
    · simpa [hwv] using hw.2

end Unmarked

/-! ## Walks whose nodes are the vertices -/

namespace Plan

variable {V : Type*} [DecidableEq V] (plan : Plan V V)

/-- Nothing makes the walk give up at this vertex, and the vertices behind it are marked. -/
def Done (marks : V → Bool) (v : V) : Prop :=
  ¬ plan.Blocked v ∧ ∀ b, plan.Enters v b → marks b = true

/-- What a walk that came to its end leaves behind: marks stay, and what it marked is done. -/
structure Settled (marks marks' : V → Bool) : Prop where
  mono : ∀ v, marks v = true → marks' v = true
  closed : ∀ v, marks' v = true → marks v = false → plan.Done marks' v

variable {plan} {marks marks' marks'' : V → Bool}

omit [DecidableEq V] in
theorem Done.mono {v : V} (h : plan.Done marks v) (hm : ∀ v, marks v = true → marks' v = true) :
    plan.Done marks' v := ⟨h.1, fun b hb => hm b (h.2 b hb)⟩

omit [DecidableEq V] in
theorem Settled.refl (marks : V → Bool) : plan.Settled marks marks :=
  ⟨fun _ h => h, fun v h h' => by simp [h] at h'⟩

omit [DecidableEq V] in
theorem Settled.trans (h : plan.Settled marks marks') (h' : plan.Settled marks' marks'') :
    plan.Settled marks marks'' where
  mono v hv := h'.mono v (h.mono v hv)
  closed v hv hm := by
    cases hv' : marks' v with
    | true => exact (h.closed v hv' hm).mono h'.mono
    | false => exact h'.closed v hv hv'

/-- A vertex is marked before the walk enters it, and done when the walk leaves it. -/
theorem Settled.enter {n : V} (h : plan.Settled (Function.update marks n true) marks')
    (hn : plan.Done marks' n) : plan.Settled marks marks' where
  mono v hv := h.mono v (by
    by_cases hvn : v = n
    · simp [hvn]
    · simpa [hvn] using hv)
  closed v hv hm := by
    by_cases hvn : v = n
    · exact hvn ▸ hn
    · exact h.closed v hv (by simpa [hvn] using hm)

variable (plan)

/-- A walk that comes to its end settles its node, if the fuel reaches for the vertices that are
not marked yet. -/
theorem settled_of_finished (hv : plan.vertex = id) {vs : Finset V}
    (hvs : ∀ a b, plan.Enters a b → b ∈ vs) (fuel : ℕ) (marks : V → Bool) (a : V)
    (hfuel : (unmarked vs marks).card < fuel) (h : (plan.walk fuel marks a).finished = true) :
    plan.Settled marks (plan.walk fuel marks a).marks ∧
      plan.Done (plan.walk fuel marks a).marks a := by
  induction fuel generalizing marks a with
  | zero => exact absurd hfuel (Nat.not_lt_zero _)
  | succ fuel ih =>
    rw [walk] at h ⊢
    split at h
    · cases h
    · rename_i hshut
      rw [if_neg hshut]
      suffices hlist : ∀ ns : List V, ns ⊆ plan.edges a → ∀ marks : V → Bool,
          (unmarked vs marks).card ≤ fuel →
          (plan.follow (plan.walk fuel) marks ns).finished = true →
          plan.Settled marks (plan.follow (plan.walk fuel) marks ns).marks ∧
            ∀ n ∈ ns, plan.look n ≠ .giveUp ∧
              (plan.look n = .enter → (plan.follow (plan.walk fuel) marks ns).marks n = true) by
        obtain ⟨hs, hall⟩ := hlist _ (List.Subset.refl _) _ (Nat.lt_succ_iff.mp hfuel) h
        refine ⟨hs, ?_, fun b hb => (hall b hb.1).2 hb.2⟩
        rintro (hs | ⟨b, hb, hg⟩)
        · exact hshut hs
        · exact (hall b hb).1 hg
      intro ns hns
      induction ns with
      | nil => exact fun marks _ _ => ⟨Settled.refl marks, by simp⟩
      | cons n ns ihns =>
        intro marks hcard hfin
        obtain ⟨hn, hns⟩ := List.cons_subset.mp hns
        rw [follow] at hfin ⊢
        cases hl : plan.look n with
        | giveUp => simp [hl] at hfin
        | pass =>
          simp only [hl, Outcome.after_finished, Outcome.after_marks] at hfin ⊢
          obtain ⟨hs, hall⟩ := ihns hns marks hcard hfin
          refine ⟨hs, fun k hk => ?_⟩
          rcases List.mem_cons.mp hk with rfl | hk
          · simp [hl]
          · exact hall k hk
        | enter =>
          simp only [hl, hv, id] at hfin ⊢
          by_cases hm : marks n = true
          · rw [if_pos hm] at hfin ⊢
            obtain ⟨hs, hall⟩ := ihns hns marks hcard hfin
            refine ⟨hs, fun k hk => ?_⟩
            rcases List.mem_cons.mp hk with rfl | hk
            · exact ⟨by simp [hl], fun _ => hs.mono k hm⟩
            · exact hall k hk
          · rw [if_neg hm] at hfin ⊢
            split at hfin
            · rename_i ho
              rw [if_pos ho]
              have hlt := card_unmarked_update (hvs a n ⟨hn, hl⟩)
                (Bool.eq_false_of_not_eq_true hm)
              obtain ⟨hs, hd⟩ := ih _ n (hlt.trans_le hcard) ho
              have hs' := hs.enter hd
              obtain ⟨hs'', hall⟩ := ihns hns _ ((card_unmarked_mono hs'.mono).trans hcard) hfin
              refine ⟨hs'.trans hs'', fun k hk => ?_⟩
              rcases List.mem_cons.mp hk with rfl | hk
              · exact ⟨by simp [hl], fun _ => hs''.mono k (hs.mono k (by simp))⟩
              · exact hall k hk
            · rename_i ho
              simp [ho] at hfin

/-- A walk that starts without marks comes to its end exactly if nothing behind its node makes it
give up. -/
theorem walk_finished_iff (hv : plan.vertex = id) {vs : Finset V}
    (hvs : ∀ a b, plan.Enters a b → b ∈ vs) {fuel : ℕ} (hfuel : vs.card < fuel) (a : V) :
    (plan.walk fuel (fun _ => false) a).finished = true ↔
      ∀ b, Relation.ReflTransGen plan.Enters a b → ¬ plan.Blocked b := by
  constructor
  · intro h
    obtain ⟨hs, hd⟩ := plan.settled_of_finished hv hvs fuel _ a
      ((Finset.card_filter_le _ _).trans_lt hfuel) h
    intro b hb
    suffices h : plan.Done (plan.walk fuel (fun _ => false) a).marks b from h.1
    induction hb with
    | refl => exact hd
    | tail _ hstep ih => exact hs.closed _ (ih.2 _ hstep) rfl
  · intro h
    by_contra hf
    obtain ⟨b, hreach, hb⟩ := plan.blocked_of_not_finished fuel _ a (Bool.eq_false_of_not_eq_true hf)
    exact h b hreach hb

end Plan

end DepthFirstWalks
