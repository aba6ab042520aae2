import Mathlib.Data.List.Sort
import Mathlib.Data.List.Perm.Basic

/-!
# Flattening initializers

`expand_expression` on the trees that an evaluated initializer is: lists in braces, and
positions with the offset of what they hold. A position of one element is merged with the
position below it, or gives its offset to the entries of the list below it; every list is
sorted by the bit offsets of its entries. Offsets lie in an object whose size in bits is an
`int`, so no sum of them wraps. A node belongs to one list only, so overwriting it is
replacing it.
-/

namespace Sparse

/-- An initializer: a scalar expression, `EXPR_INITIALIZER` or `EXPR_POS`. -/
inductive Initializer (L : Type)
  | leaf (expr : L)
  | list (exprList : List (Initializer L))
  | pos (initOffset initNr : ℕ) (initExpr : Initializer L)

namespace Initializer

variable {L : Type}

section

variable (leafBits : L → ℕ)

/-- `bit_offset`; of an expression the `bit_offset` of its type counts, which is zero for an
aggregate. -/
def bitOffset : Initializer L → ℕ
  | leaf expr => leafBits expr
  | list _ => 0
  | pos initOffset _ initExpr => 8 * initOffset + bitOffset initExpr

/-- `sort_expression_list`; `sort_list` is a stable sort. -/
def sortExpressionList (exprList : List (Initializer L)) : List (Initializer L) :=
  exprList.insertionSort fun a b => a.bitOffset leafBits ≤ b.bitOffset leafBits

end

/-- The loop of `expand_pos_expression` over the entries of a nested list. -/
def rebase (offset : ℕ) : Initializer L → Initializer L
  | pos initOffset initNr initExpr => pos (initOffset + offset) initNr initExpr
  | entry => pos offset 1 entry

mutual

/-- The number of nodes, an entry without a position counted with the one it may get. -/
def weight : Initializer L → ℕ
  | leaf _ => 1
  | list exprList => 1 + weights exprList
  | pos _ _ initExpr => 1 + weight initExpr

def weights : List (Initializer L) → ℕ
  | [] => 0
  | pos _ _ initExpr :: entries => 1 + weight initExpr + weights entries
  | leaf _ :: entries => 2 + weights entries
  | list exprList :: entries => 2 + weights exprList + weights entries

end

variable {leafBits : L → ℕ} {entries : List (Initializer L)} {e t : Initializer L}

theorem weights_cons (offset : ℕ) (e : Initializer L) (entries : List (Initializer L)) :
    weights (e :: entries) = weight (rebase offset e) + weights entries := by
  cases e with
  | pos o n t => rfl
  | leaf expr => rfl
  | list entries =>
    simp only [weights, rebase, weight]
    omega

theorem weight_le_rebase (offset : ℕ) (e : Initializer L) : weight e ≤ weight (rebase offset e) := by
  cases e <;> simp [rebase, weight]

theorem weight_lt_of_mem (h : e ∈ entries) : weight e < weight (list entries) := by
  induction entries with
  | nil => simp at h
  | cons a entries ih =>
    rw [weight, weights_cons 0]
    rcases List.mem_cons.1 h with rfl | h
    · have := weight_le_rebase 0 e
      omega
    · have := ih h
      rw [weight] at this
      omega

theorem weights_map_rebase (offset : ℕ) (entries : List (Initializer L)) :
    weights (entries.map (rebase offset)) = weights entries := by
  induction entries with
  | nil => rfl
  | cons e entries ih =>
    have hagain : ∀ e : Initializer L, weight (rebase 0 (rebase offset e)) = weight (rebase offset e) := by
      intro e
      cases e <;> simp [rebase, weight]
    rw [List.map_cons, weights_cons 0, weights_cons offset, ih, hagain]

/-- `expand_expression` on an initializer, with `expand_pos_expression`. -/
def expandExpression (leafBits : L → ℕ) : Initializer L → Initializer L
  | leaf expr => leaf expr
  | list exprList =>
    list ((sortExpressionList leafBits exprList).attach.map fun entry => expandExpression leafBits entry.1)
  | pos initOffset initNr initExpr =>
    if initNr = 1 then
      match initExpr with
      | pos nestedOffset nestedNr nestedExpr =>
        expandExpression leafBits (pos (initOffset + nestedOffset) nestedNr nestedExpr)
      | list exprList => expandExpression leafBits (list (exprList.map (rebase initOffset)))
      | leaf expr => pos initOffset initNr (expandExpression leafBits (leaf expr))
    else pos initOffset initNr (expandExpression leafBits initExpr)
termination_by e => e.weight
decreasing_by
  · exact weight_lt_of_mem ((List.mem_insertionSort _).1 entry.2)
  · simp [weight]
  · simp [weight, weights_map_rebase]
  · simp [weight]
  · simp [weight]

theorem expandExpression_leaf (expr : L) : expandExpression leafBits (leaf expr) = leaf expr := by
  rw [expandExpression]

theorem expandExpression_list (entries : List (Initializer L)) :
    expandExpression leafBits (list entries) =
      list ((sortExpressionList leafBits entries).map (expandExpression leafBits)) := by
  rw [expandExpression]
  exact congrArg list List.attach_map_val

theorem expandExpression_single_pos (o o' n : ℕ) (t : Initializer L) :
    expandExpression leafBits (pos o 1 (pos o' n t)) = expandExpression leafBits (pos (o + o') n t) := by
  conv_lhs => unfold expandExpression
  rw [if_pos rfl]

theorem expandExpression_single_list (o : ℕ) (entries : List (Initializer L)) :
    expandExpression leafBits (pos o 1 (list entries)) =
      expandExpression leafBits (list (entries.map (rebase o))) := by
  conv_lhs => unfold expandExpression
  rw [if_pos rfl]

theorem expandExpression_single_leaf (o : ℕ) (expr : L) :
    expandExpression leafBits (pos o 1 (leaf expr)) = pos o 1 (leaf expr) := by
  conv_lhs => unfold expandExpression
  rw [if_pos rfl]
  exact congrArg (pos o 1) (expandExpression_leaf expr)

theorem expandExpression_range {n : ℕ} (h : n ≠ 1) (o : ℕ) (t : Initializer L) :
    expandExpression leafBits (pos o n t) = pos o n (expandExpression leafBits t) := by
  conv_lhs => unfold expandExpression
  rw [if_neg h]

/-- Induction as the expansion goes. -/
theorem expand_induction {motive : Initializer L → Prop}
    (leaf : ∀ expr, motive (.leaf expr))
    (list : ∀ entries, (∀ e ∈ entries, motive e) → motive (.list entries))
    (single_leaf : ∀ o expr, motive (.pos o 1 (.leaf expr)))
    (single_pos : ∀ o o' n t, motive (.pos (o + o') n t) → motive (.pos o 1 (.pos o' n t)))
    (single_list : ∀ o entries, motive (.list (entries.map (rebase o))) → motive (.pos o 1 (.list entries)))
    (range : ∀ o n t, n ≠ 1 → motive t → motive (.pos o n t)) (t : Initializer L) : motive t := by
  induction hw : t.weight using Nat.strong_induction_on generalizing t with
  | _ w ih =>
  cases t with
  | leaf expr => exact leaf expr
  | list entries => exact list entries fun e he => ih _ (hw ▸ weight_lt_of_mem he) e rfl
  | pos o n t =>
    by_cases hn : n = 1
    · subst hn
      cases t with
      | leaf expr => exact single_leaf o expr
      | pos o' n t => exact single_pos o o' n t (ih _ (by simp [← hw, weight]) _ rfl)
      | list entries =>
        exact single_list o entries (ih _ (by simp [← hw, weight, weights_map_rebase]) _ rfl)
    · exact range o n t hn (ih _ (by simp [← hw, weight]) t rfl)

/-! ## What an initializer says -/

mutual

/-- What stands where, in an initializer at the byte `base` for `nr` elements: the byte, the number of
elements and the expression. -/
def denote : ℕ → ℕ → Initializer L → List (ℕ × ℕ × L)
  | base, nr, leaf expr => [(base, nr, expr)]
  | base, nr, list entries => denotes base nr entries
  | base, nr, pos o n t => denote (base + o) (nr * n) t

def denotes : ℕ → ℕ → List (Initializer L) → List (ℕ × ℕ × L)
  | _, _, [] => []
  | base, nr, e :: entries => denote base nr e ++ denotes base nr entries

end

/-- The absolute bit offset of what stands somewhere. -/
def absoluteBit (leafBits : L → ℕ) (x : ℕ × ℕ × L) : ℕ :=
  8 * x.1 + leafBits x.2.2

/-- What stands where: the absolute bit offset, the number of elements and the expression. -/
def triples (leafBits : L → ℕ) (t : Initializer L) : List (ℕ × ℕ × L) :=
  (denote 0 1 t).map fun x => (absoluteBit leafBits x, x.2)

theorem denotes_eq (base nr : ℕ) (entries : List (Initializer L)) :
    denotes base nr entries = entries.flatMap (denote base nr) := by
  induction entries with
  | nil => rw [denotes, List.flatMap_nil]
  | cons e entries ih => rw [denotes, ih, List.flatMap_cons]

theorem denote_rebase (base nr o : ℕ) (e : Initializer L) :
    denote base nr (rebase o e) = denote (base + o) nr e := by
  cases e with
  | pos o' n t => rw [rebase, denote, denote, Nat.add_assoc, Nat.add_comm o']
  | leaf expr => simp only [rebase, denote, Nat.mul_one]
  | list entries => simp only [rebase, denote, Nat.mul_one]

theorem denotes_map_rebase (base nr o : ℕ) (entries : List (Initializer L)) :
    denotes base nr (entries.map (rebase o)) = denotes (base + o) nr entries := by
  rw [denotes_eq, denotes_eq, List.flatMap_map]
  exact List.flatMap_congr fun e _ => denote_rebase base nr o e

theorem sortExpressionList_perm (entries : List (Initializer L)) :
    (sortExpressionList leafBits entries).Perm entries :=
  List.perm_insertionSort _ entries

theorem mem_sortExpressionList : e ∈ sortExpressionList leafBits entries ↔ e ∈ entries :=
  List.mem_insertionSort _

/-- Expansion leaves what stands where. -/
theorem denote_expandExpression (t : Initializer L) (base nr : ℕ) :
    (denote base nr (expandExpression leafBits t)).Perm (denote base nr t) := by
  induction t using expand_induction generalizing base nr with
  | leaf expr => rw [expandExpression_leaf]
  | list entries ih =>
    rw [expandExpression_list, denote, denote, denotes_eq, denotes_eq, List.flatMap_map]
    exact (sortExpressionList_perm entries).flatMap fun e he => ih e (mem_sortExpressionList.1 he) base nr
  | single_leaf o expr => rw [expandExpression_single_leaf]
  | single_pos o o' n t ih =>
    rw [expandExpression_single_pos]
    refine (ih base nr).trans ?_
    rw [denote, denote, denote, Nat.mul_one, Nat.add_assoc]
  | single_list o entries ih =>
    rw [expandExpression_single_list]
    refine (ih base nr).trans ?_
    rw [denote, denotes_map_rebase, denote, denote, Nat.mul_one]
  | range o n t hn ih =>
    rw [expandExpression_range hn, denote, denote]
    exact ih (base + o) (nr * n)

/-! ## The order of the entries -/

/-- The least absolute bit offset of what stands in an entry. In an empty list nothing does. -/
def StandsAt (leafBits : L → ℕ) (k : ℕ) (e : Initializer L) : Prop :=
  (∃ x ∈ denote 0 1 e, absoluteBit leafBits x = k) ∧ ∀ x ∈ denote 0 1 e, k ≤ absoluteBit leafBits x

/-- The first entry does not stand behind the second. -/
def NotBehind (leafBits : L → ℕ) (a b : Initializer L) : Prop :=
  ∀ m k, StandsAt leafBits m a → StandsAt leafBits k b → m ≤ k

/-- Every list has its entries in non-decreasing order of their absolute bit offsets. -/
inductive Ordered (leafBits : L → ℕ) : Initializer L → Prop
  | leaf (expr : L) : Ordered leafBits (leaf expr)
  | list {entries : List (Initializer L)} : entries.Pairwise (NotBehind leafBits) →
      (∀ e ∈ entries, Ordered leafBits e) → Ordered leafBits (list entries)
  | pos {o n : ℕ} {t : Initializer L} : Ordered leafBits t → Ordered leafBits (pos o n t)

/-- Of two entries the one with the less `bit_offset`, and where it is the same the first, stands in the relation
to the other. -/
def ByOffset (leafBits : L → ℕ) (R : Initializer L → Initializer L → Prop) (entries : List (Initializer L)) : Prop :=
  entries.Pairwise fun a b => if a.bitOffset leafBits ≤ b.bitOffset leafBits then R a b else R b a

/-- In every list the entries stand in the order of their `bit_offset`. An entry that holds a list may stand
behind its `bit_offset`, and another entry between the two. -/
inductive InPlace (leafBits : L → ℕ) : Initializer L → Prop
  | leaf (expr : L) : InPlace leafBits (leaf expr)
  | list {entries : List (Initializer L)} : ByOffset leafBits (NotBehind leafBits) entries →
      (∀ e ∈ entries, InPlace leafBits e) → InPlace leafBits (list entries)
  | pos {o n : ℕ} {t : Initializer L} : InPlace leafBits t → InPlace leafBits (pos o n t)

mutual

theorem denote_add (base nr o : ℕ) :
    ∀ t : Initializer L, denote (base + o) nr t = (denote base nr t).map fun x => (x.1 + o, x.2)
  | leaf expr => rfl
  | list entries => by rw [denote, denote, denotes_add]
  | pos o' n t => by rw [denote, denote, Nat.add_right_comm, denote_add]

theorem denotes_add (base nr o : ℕ) :
    ∀ entries : List (Initializer L), denotes (base + o) nr entries =
      (denotes base nr entries).map fun x => (x.1 + o, x.2)
  | [] => rfl
  | e :: entries => by rw [denotes, denotes, denote_add, denotes_add, List.map_append]

end

/-- An entry of a list that gives its offset to its entries stands as much further behind. -/
theorem standsAt_rebase {o k : ℕ} :
    StandsAt leafBits (8 * o + k) (rebase o e) ↔ StandsAt leafBits k e := by
  have hbit : ∀ x : ℕ × ℕ × L, absoluteBit leafBits (x.1 + o, x.2) = 8 * o + absoluteBit leafBits x := by
    intro x
    simp only [absoluteBit]
    omega
  unfold StandsAt
  rw [denote_rebase, denote_add]
  simp only [List.mem_map, exists_exists_and_eq_and, forall_exists_index, and_imp, forall_apply_eq_imp_iff₂, hbit,
    Nat.add_left_cancel_iff, Nat.add_le_add_iff_left]

theorem StandsAt.le_of_rebase {o k : ℕ} (h : StandsAt leafBits k (rebase o e)) : 8 * o ≤ k := by
  obtain ⟨⟨x, hx, rfl⟩, -⟩ := h
  rw [denote_rebase, denote_add, List.mem_map] at hx
  obtain ⟨y, -, rfl⟩ := hx
  simp only [absoluteBit]
  omega

theorem notBehind_rebase {o : ℕ} {a b : Initializer L} :
    NotBehind leafBits (rebase o a) (rebase o b) ↔ NotBehind leafBits a b := by
  constructor
  · intro h m k hm hk
    exact Nat.le_of_add_le_add_left (h _ _ (standsAt_rebase.2 hm) (standsAt_rebase.2 hk))
  · intro h m k hm hk
    obtain ⟨m, rfl⟩ := Nat.exists_eq_add_of_le hm.le_of_rebase
    obtain ⟨k, rfl⟩ := Nat.exists_eq_add_of_le hk.le_of_rebase
    exact Nat.add_le_add_left (h m k (standsAt_rebase.1 hm) (standsAt_rebase.1 hk)) _

/-- An expanded entry stands where the entry stood. -/
theorem standsAt_expandExpression {k : ℕ} :
    StandsAt leafBits k (expandExpression leafBits t) ↔ StandsAt leafBits k t := by
  unfold StandsAt
  simp only [(denote_expandExpression t 0 1).mem_iff]

theorem notBehind_expandExpression {a b : Initializer L} :
    NotBehind leafBits (expandExpression leafBits a) (expandExpression leafBits b) ↔ NotBehind leafBits a b := by
  simp only [NotBehind, standsAt_expandExpression]

theorem sortExpressionList_pairwise (entries : List (Initializer L)) :
    (sortExpressionList leafBits entries).Pairwise fun a b => a.bitOffset leafBits ≤ b.bitOffset leafBits := by
  have htotal : Std.Total fun a b : Initializer L => a.bitOffset leafBits ≤ b.bitOffset leafBits :=
    ⟨fun a b => Nat.le_total _ _⟩
  have htrans : IsTrans (Initializer L) fun a b => a.bitOffset leafBits ≤ b.bitOffset leafBits :=
    ⟨fun _ _ _ => Nat.le_trans⟩
  exact List.pairwise_insertionSort _ entries

/-- The sorted list has its entries in the relation when those of the list are. -/
theorem sortExpressionList_pairwise_iff {R : Initializer L → Initializer L → Prop} :
    (sortExpressionList leafBits entries).Pairwise R ↔ ByOffset leafBits R entries := by
  have hinsert : ∀ (e : Initializer L) {l : List (Initializer L)},
      l.Pairwise (fun a b => a.bitOffset leafBits ≤ b.bitOffset leafBits) →
        ((l.orderedInsert (fun a b => a.bitOffset leafBits ≤ b.bitOffset leafBits) e).Pairwise R ↔
          (∀ b ∈ l, if e.bitOffset leafBits ≤ b.bitOffset leafBits then R e b else R b e) ∧ l.Pairwise R) := by
    intro e l hl
    induction l with
    | nil => simp
    | cons b l ih =>
      obtain ⟨hb, hl⟩ := List.pairwise_cons.1 hl
      rw [List.orderedInsert]
      split
      · rename_i hle
        have hall : (∀ c ∈ b :: l, R e c) ↔
            ∀ c ∈ b :: l, if e.bitOffset leafBits ≤ c.bitOffset leafBits then R e c else R c e := by
          refine forall₂_congr fun c hc => ?_
          rw [if_pos]
          rcases List.mem_cons.1 hc with rfl | hc
          · exact hle
          · exact Nat.le_trans hle (hb c hc)
        rw [List.pairwise_cons, hall]
      · rename_i hlt
        rw [List.pairwise_cons, ih hl, List.forall_mem_cons, if_neg hlt, List.pairwise_cons]
        simp only [List.mem_orderedInsert, forall_eq_or_imp]
        tauto
  unfold ByOffset
  induction entries with
  | nil => simp [sortExpressionList]
  | cons e entries ih =>
    rw [List.pairwise_cons, sortExpressionList, List.insertionSort_cons]
    refine (hinsert e (sortExpressionList_pairwise entries)).trans (and_congr ?_ ih)
    exact forall_congr' fun b => imp_congr_left mem_sortExpressionList

theorem byOffset_map_rebase {R : Initializer L → Initializer L → Prop} {o : ℕ} :
    ByOffset leafBits R (entries.map (rebase o)) ↔
      ByOffset leafBits (fun a b => R (rebase o a) (rebase o b)) entries := by
  have hkey : ∀ e : Initializer L, (rebase o e).bitOffset leafBits = 8 * o + e.bitOffset leafBits := by
    intro e
    cases e with
    | leaf expr => rfl
    | list entries => rfl
    | pos o' n t => rw [rebase, bitOffset, bitOffset, Nat.mul_add]; omega
  simp only [ByOffset, List.pairwise_map, hkey, Nat.add_le_add_iff_left]

theorem inPlace_pos {o n : ℕ} : InPlace leafBits (pos o n t) ↔ InPlace leafBits t :=
  ⟨fun | .pos h => h, .pos⟩

theorem inPlace_rebase {o : ℕ} : InPlace leafBits (rebase o e) ↔ InPlace leafBits e := by
  cases e with
  | leaf expr => exact inPlace_pos
  | list entries => exact inPlace_pos
  | pos o' n t => rw [rebase, inPlace_pos, inPlace_pos]

theorem inPlace_list_map_rebase {o : ℕ} :
    InPlace leafBits (list (entries.map (rebase o))) ↔ InPlace leafBits (list entries) := by
  constructor
  · rintro (_ | ⟨hsorted, hall⟩)
    rw [byOffset_map_rebase] at hsorted
    simp only [notBehind_rebase] at hsorted
    exact .list hsorted fun e he => inPlace_rebase.1 (hall _ (List.mem_map_of_mem he))
  · rintro (_ | ⟨hsorted, hall⟩)
    refine .list ?_ fun e he => ?_
    · rw [byOffset_map_rebase]
      simp only [notBehind_rebase]
      exact hsorted
    · obtain ⟨a, ha, rfl⟩ := List.mem_map.1 he
      exact inPlace_rebase.2 (hall a ha)

/-- The lists of the expanded initializer are in order if the entries stand in the order of their offsets. -/
theorem ordered_expandExpression_iff (t : Initializer L) :
    Ordered leafBits (expandExpression leafBits t) ↔ InPlace leafBits t := by
  induction t using expand_induction with
  | leaf expr =>
    rw [expandExpression_leaf]
    exact ⟨fun _ => .leaf expr, fun _ => .leaf expr⟩
  | list entries ih =>
    rw [expandExpression_list]
    constructor
    · rintro (_ | ⟨hsorted, hall⟩)
      rw [List.pairwise_map] at hsorted
      simp only [notBehind_expandExpression, sortExpressionList_pairwise_iff] at hsorted
      exact .list hsorted fun e he =>
        (ih e he).1 (hall _ (List.mem_map_of_mem (mem_sortExpressionList.2 he)))
    · rintro (_ | ⟨hsorted, hall⟩)
      refine .list ?_ fun e he => ?_
      · rw [List.pairwise_map]
        simp only [notBehind_expandExpression, sortExpressionList_pairwise_iff]
        exact hsorted
      · obtain ⟨a, ha, rfl⟩ := List.mem_map.1 he
        exact (ih a (mem_sortExpressionList.1 ha)).2 (hall a (mem_sortExpressionList.1 ha))
  | single_leaf o expr =>
    rw [expandExpression_single_leaf]
    exact ⟨fun _ => .pos (.leaf expr), fun _ => .pos (.leaf expr)⟩
  | single_pos o o' n t ih => rw [expandExpression_single_pos, ih, inPlace_pos, inPlace_pos, inPlace_pos]
  | single_list o entries ih => rw [expandExpression_single_list, ih, inPlace_list_map_rebase, inPlace_pos]
  | range o n t hn ih =>
    rw [expandExpression_range hn, inPlace_pos, ← ih]
    exact ⟨fun | .pos h => h, .pos⟩

/-! ## Expanding again -/

/-- What `bit_offset` finds of an entry when it is expanded, in lists that give `base` to their entries:
the offset of a position that gives it to a sublist is gone. -/
def keptOffset (leafBits : L → ℕ) : ℕ → Initializer L → ℕ
  | base, leaf expr => 8 * base + leafBits expr
  | _, list _ => 0
  | base, pos o n t =>
    if n = 1 then keptOffset leafBits (base + o) t else 8 * (base + o) + keptOffset leafBits 0 t

/-- The entries of every list, in the order of their bit offsets, are still in order when they are
expanded. -/
inductive Tidy (leafBits : L → ℕ) : ℕ → Initializer L → Prop
  | leaf (base : ℕ) (expr : L) : Tidy leafBits base (leaf expr)
  | list {base : ℕ} {entries : List (Initializer L)} :
      ByOffset leafBits (fun a b => keptOffset leafBits base a ≤ keptOffset leafBits base b) entries →
      (∀ e ∈ entries, Tidy leafBits base e) → Tidy leafBits base (list entries)
  | single {base o : ℕ} {t : Initializer L} :
      Tidy leafBits (base + o) t → Tidy leafBits base (pos o 1 t)
  | range {base o n : ℕ} {t : Initializer L} : n ≠ 1 → Tidy leafBits 0 t → Tidy leafBits base (pos o n t)

/-- Sorting leaves every list as it is. -/
inductive Settled (leafBits : L → ℕ) : Initializer L → Prop
  | leaf (expr : L) : Settled leafBits (leaf expr)
  | list {entries : List (Initializer L)} :
      entries.Pairwise (fun a b => a.bitOffset leafBits ≤ b.bitOffset leafBits) →
      (∀ e ∈ entries, Settled leafBits e) → Settled leafBits (list entries)
  | pos {o n : ℕ} {t : Initializer L} : Settled leafBits t → Settled leafBits (pos o n t)

/-- No position can be merged. -/
inductive Expanded : Initializer L → Prop
  | leaf (expr : L) : Expanded (leaf expr)
  | list {entries : List (Initializer L)} : (∀ e ∈ entries, Expanded e) → Expanded (list entries)
  | single (o : ℕ) (expr : L) : Expanded (pos o 1 (leaf expr))
  | range {o n : ℕ} {t : Initializer L} : n ≠ 1 → Expanded t → Expanded (pos o n t)

theorem expanded_expandExpression (t : Initializer L) : Expanded (expandExpression leafBits t) := by
  induction t using expand_induction with
  | leaf expr =>
    rw [expandExpression_leaf]
    exact .leaf expr
  | list entries ih =>
    rw [expandExpression_list]
    refine .list fun e he => ?_
    obtain ⟨a, ha, rfl⟩ := List.mem_map.1 he
    exact ih a (mem_sortExpressionList.1 ha)
  | single_leaf o expr =>
    rw [expandExpression_single_leaf]
    exact .single o expr
  | single_pos o o' n t ih => rwa [expandExpression_single_pos]
  | single_list o entries ih => rwa [expandExpression_single_list]
  | range o n t hn ih =>
    rw [expandExpression_range hn]
    exact .range hn ih

theorem keptOffset_single (base o : ℕ) (t : Initializer L) :
    keptOffset leafBits base (pos o 1 t) = keptOffset leafBits (base + o) t := by
  conv_lhs => unfold keptOffset
  rw [if_pos rfl]

theorem keptOffset_pos_add (base o o' n : ℕ) (t : Initializer L) :
    keptOffset leafBits base (pos (o + o') n t) = keptOffset leafBits (base + o) (pos o' n t) := by
  rw [keptOffset, keptOffset, Nat.add_assoc]

theorem keptOffset_rebase (base o : ℕ) (e : Initializer L) :
    keptOffset leafBits base (rebase o e) = keptOffset leafBits (base + o) e := by
  cases e with
  | leaf expr => exact keptOffset_single base o (leaf expr)
  | list entries => exact keptOffset_single base o (list entries)
  | pos o' n t => rw [rebase, Nat.add_comm, keptOffset_pos_add]

theorem bitOffset_expandExpression (t : Initializer L) :
    (expandExpression leafBits t).bitOffset leafBits = keptOffset leafBits 0 t := by
  induction t using expand_induction with
  | leaf expr =>
    rw [expandExpression_leaf, bitOffset, keptOffset, Nat.mul_zero, Nat.zero_add]
  | list entries => rw [expandExpression_list, bitOffset, keptOffset]
  | single_leaf o expr =>
    rw [expandExpression_single_leaf, bitOffset, bitOffset, keptOffset_single, keptOffset, Nat.zero_add]
  | single_pos o o' n t ih =>
    rw [expandExpression_single_pos, ih, keptOffset_pos_add, keptOffset_single]
  | single_list o entries ih =>
    rw [expandExpression_single_list, ih, keptOffset_single, keptOffset, keptOffset]
  | range o n t hn ih =>
    rw [expandExpression_range hn, bitOffset, ih, keptOffset, if_neg hn, Nat.zero_add]

theorem Expanded.bitOffset_eq (h : Expanded t) :
    (expandExpression leafBits t).bitOffset leafBits = t.bitOffset leafBits := by
  induction h with
  | leaf expr => rw [expandExpression_leaf]
  | list h => rw [expandExpression_list, bitOffset, bitOffset]
  | single o expr => rw [expandExpression_single_leaf]
  | range hn h ih => rw [expandExpression_range hn, bitOffset, bitOffset, ih]

/-- Expanding again only sorts. -/
theorem Expanded.expand_eq_iff (h : Expanded t) : expandExpression leafBits t = t ↔ Settled leafBits t := by
  induction h with
  | leaf expr => exact ⟨fun _ => .leaf expr, fun _ => expandExpression_leaf expr⟩
  | @list entries h ih =>
    rw [expandExpression_list, list.injEq]
    constructor
    · intro heq
      have hsorted : entries.Pairwise fun a b => a.bitOffset leafBits ≤ b.bitOffset leafBits := by
        rw [← heq, List.pairwise_map]
        refine (sortExpressionList_pairwise entries).imp_of_mem fun {a b} ha hb hab => ?_
        rw [(h a (mem_sortExpressionList.1 ha)).bitOffset_eq, (h b (mem_sortExpressionList.1 hb)).bitOffset_eq]
        exact hab
      have hsame : sortExpressionList leafBits entries = entries := hsorted.insertionSort_eq
      rw [hsame] at heq
      have hfixed : ∀ e ∈ entries, expandExpression leafBits e = id e :=
        List.map_inj_left.1 (heq.trans (List.map_id entries).symm)
      exact .list hsorted fun e he => (ih e he).1 (hfixed e he)
    · rintro (_ | ⟨hsorted, hall⟩)
      have hsame : sortExpressionList leafBits entries = entries := hsorted.insertionSort_eq
      rw [hsame]
      exact (List.map_congr_left fun e he => (ih e he).2 (hall e he)).trans (List.map_id entries)
  | single o expr => exact ⟨fun _ => .pos (.leaf expr), fun _ => expandExpression_single_leaf o expr⟩
  | @range o n t hn h ih =>
    rw [expandExpression_range hn, pos.injEq, ih]
    constructor
    · rintro ⟨-, -, hsettled⟩
      exact .pos hsettled
    · rintro (_ | _ | hsettled)
      exact ⟨rfl, rfl, hsettled⟩

theorem tidy_single (base o : ℕ) (t : Initializer L) :
    Tidy leafBits base (pos o 1 t) ↔ Tidy leafBits (base + o) t := by
  constructor
  · rintro (_ | _ | h | ⟨hn, -⟩)
    · exact h
    · exact absurd rfl hn
  · exact .single

theorem tidy_range {n : ℕ} (hn : n ≠ 1) (base o : ℕ) (t : Initializer L) :
    Tidy leafBits base (pos o n t) ↔ Tidy leafBits 0 t := by
  constructor
  · rintro (_ | _ | _ | ⟨-, h⟩)
    · exact absurd rfl hn
    · exact h
  · exact .range hn

theorem tidy_pos_add (base o o' n : ℕ) (t : Initializer L) :
    Tidy leafBits base (pos (o + o') n t) ↔ Tidy leafBits (base + o) (pos o' n t) := by
  by_cases hn : n = 1
  · rw [hn, tidy_single, tidy_single, Nat.add_assoc]
  · rw [tidy_range hn, tidy_range hn]

theorem tidy_rebase (base o : ℕ) (e : Initializer L) :
    Tidy leafBits base (rebase o e) ↔ Tidy leafBits (base + o) e := by
  cases e with
  | leaf expr => exact tidy_single base o (leaf expr)
  | list entries => exact tidy_single base o (list entries)
  | pos o' n t => rw [rebase, Nat.add_comm, tidy_pos_add]

theorem tidy_list_map_rebase (base o : ℕ) (entries : List (Initializer L)) :
    Tidy leafBits base (list (entries.map (rebase o))) ↔ Tidy leafBits (base + o) (list entries) := by
  constructor
  · rintro (_ | ⟨hsorted, hall⟩)
    rw [byOffset_map_rebase] at hsorted
    simp only [keptOffset_rebase] at hsorted
    exact .list hsorted fun e he => (tidy_rebase base o e).1 (hall _ (List.mem_map_of_mem he))
  · rintro (_ | ⟨hsorted, hall⟩)
    refine .list ?_ fun e he => ?_
    · rw [byOffset_map_rebase]
      simp only [keptOffset_rebase]
      exact hsorted
    · obtain ⟨a, ha, rfl⟩ := List.mem_map.1 he
      exact (tidy_rebase base o a).2 (hall a ha)

theorem settled_expandExpression_iff (t : Initializer L) :
    Settled leafBits (expandExpression leafBits t) ↔ Tidy leafBits 0 t := by
  induction t using expand_induction with
  | leaf expr =>
    rw [expandExpression_leaf]
    exact ⟨fun _ => .leaf 0 expr, fun _ => .leaf expr⟩
  | list entries ih =>
    rw [expandExpression_list]
    constructor
    · rintro (_ | ⟨hsorted, hall⟩)
      rw [List.pairwise_map] at hsorted
      simp only [bitOffset_expandExpression, sortExpressionList_pairwise_iff] at hsorted
      exact .list hsorted fun e he =>
        (ih e he).1 (hall _ (List.mem_map_of_mem (mem_sortExpressionList.2 he)))
    · rintro (_ | ⟨hsorted, hall⟩)
      refine .list ?_ fun e he => ?_
      · rw [List.pairwise_map]
        simp only [bitOffset_expandExpression, sortExpressionList_pairwise_iff]
        exact hsorted
      · obtain ⟨a, ha, rfl⟩ := List.mem_map.1 he
        exact (ih a (mem_sortExpressionList.1 ha)).2 (hall a (mem_sortExpressionList.1 ha))
  | single_leaf o expr =>
    rw [expandExpression_single_leaf]
    exact ⟨fun _ => .single (.leaf _ expr), fun _ => .pos (.leaf expr)⟩
  | single_pos o o' n t ih =>
    rw [expandExpression_single_pos, ih, tidy_pos_add, tidy_single]
  | single_list o entries ih =>
    rw [expandExpression_single_list, ih, tidy_list_map_rebase, tidy_single]
  | range o n t hn ih =>
    rw [expandExpression_range hn, tidy_range hn, ← ih]
    exact ⟨fun | .pos h => h, .pos⟩

/-- Expanding an initializer leaves what stands where. It puts every list in order exactly if the entries
stand in the order of their bit offsets, and expanding again changes nothing exactly if in every list the
entries, in the order of their bit offsets, are still in order when the offset of a position that is merged
into a sublist does not count any more. -/
theorem expandExpression_flattens_iff (leafBits : L → ℕ) (t : Initializer L) :
    ((triples leafBits (expandExpression leafBits t)).Perm (triples leafBits t) ∧
      Ordered leafBits (expandExpression leafBits t) ∧
      expandExpression leafBits (expandExpression leafBits t) = expandExpression leafBits t) ↔
        InPlace leafBits t ∧ Tidy leafBits 0 t := by
  have hagain : expandExpression leafBits (expandExpression leafBits t) = expandExpression leafBits t ↔
      Tidy leafBits 0 t :=
    (expanded_expandExpression t).expand_eq_iff.trans (settled_expandExpression_iff t)
  rw [ordered_expandExpression_iff, hagain, and_iff_right]
  exact (denote_expandExpression t 0 1).map _

/-- `struct { int a, b; struct { int c; } s; } x = { 1, 2, { 3 } };` -/
def braced : Initializer ℕ :=
  list [pos 0 1 (leaf 1), pos 4 1 (leaf 2), pos 8 1 (list [pos 0 1 (leaf 3)])]

/-- The second expansion moves the sublist before the second member. -/
theorem braced_reordered :
    expandExpression (fun _ => 0) braced =
        list [pos 0 1 (leaf 1), pos 4 1 (leaf 2), list [pos 8 1 (leaf 3)]] ∧
      expandExpression (fun _ => 0) (expandExpression (fun _ => 0) braced) =
        list [pos 0 1 (leaf 1), list [pos 8 1 (leaf 3)], pos 4 1 (leaf 2)] ∧
      ¬ ∀ t : Initializer ℕ, expandExpression (fun _ => 0) (expandExpression (fun _ => 0) t) =
        expandExpression (fun _ => 0) t := by
  have hinner : expandExpression (fun _ => 0) (list [pos 8 1 (leaf 3)]) = list [pos 8 1 (leaf 3)] := by
    rw [expandExpression_list]
    exact congrArg (fun t => list [t]) (expandExpression_single_leaf 8 3)
  have hfirst : expandExpression (fun _ => 0) braced =
      list [pos 0 1 (leaf 1), pos 4 1 (leaf 2), list [pos 8 1 (leaf 3)]] := by
    have hsort : sortExpressionList (fun _ => 0)
        [pos 0 1 (leaf 1), pos 4 1 (leaf 2), pos 8 1 (list [pos 0 1 (leaf 3)])] =
          [pos 0 1 (leaf 1), pos 4 1 (leaf 2), pos 8 1 (list [pos 0 1 (leaf 3)])] := rfl
    rw [braced, expandExpression_list, hsort]
    simp only [List.map_cons, List.map_nil, expandExpression_single_leaf, expandExpression_single_list, rebase,
      Nat.zero_add, hinner]
  have hsecond : expandExpression (fun _ => 0) (expandExpression (fun _ => 0) braced) =
      list [pos 0 1 (leaf 1), list [pos 8 1 (leaf 3)], pos 4 1 (leaf 2)] := by
    have hsort : sortExpressionList (fun _ => 0)
        [pos 0 1 (leaf 1), pos 4 1 (leaf 2), list [pos 8 1 (leaf 3)]] =
          [pos 0 1 (leaf 1), list [pos 8 1 (leaf 3)], pos 4 1 (leaf 2)] := rfl
    rw [hfirst, expandExpression_list, hsort]
    simp only [List.map_cons, List.map_nil, expandExpression_single_leaf, hinner]
  refine ⟨hfirst, hsecond, fun hall => ?_⟩
  have hsame := hall braced
  rw [hsecond, hfirst] at hsame
  simp at hsame

end Initializer

end Sparse
