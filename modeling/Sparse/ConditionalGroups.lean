import Mathlib.Data.List.Basic
import Mathlib.Order.Nat

/-!
# Nested conditional groups

The open groups of a conditional compilation, the innermost first. A group is
the list of its branches so far, the open branch first. A branch accepts when
its condition is true, or when it has none; the selected branch of a group is
the first that accepts, so that a branch after the one without a condition is
never selected.
-/

namespace ConditionalGroups

/-- A branch with a condition, or the one taken otherwise. -/
inductive Branch
  | condition (value : Bool)
  | otherwise
  deriving DecidableEq, Repr

namespace Branch

def accepts : Branch → Bool
  | condition value => value
  | otherwise => true

def isOtherwise : Branch → Bool
  | condition _ => false
  | otherwise => true

end Branch

/-- An open group: the file it is in, its number in that file, its branches. -/
structure Group where
  file : ℕ
  id : ℕ
  branches : List Branch
  deriving DecidableEq, Repr

namespace Group

/-- Some branch so far accepts. -/
def decided (g : Group) : Bool :=
  g.branches.any Branch.accepts

/-- The branch without a condition has been seen. -/
def seenOtherwise (g : Group) : Bool :=
  g.branches.any Branch.isOtherwise

/-- The open branch is the selected one. -/
def selected (g : Group) : Bool :=
  match g.branches with
  | [] => false
  | b :: earlier => b.accepts && !earlier.any Branch.accepts

/-- A new branch of the group. -/
def branch (b : Branch) (g : Group) : Group :=
  { g with branches := b :: g.branches }

@[simp] theorem branch_file (b : Branch) (g : Group) : (g.branch b).file = g.file := rfl
@[simp] theorem branch_id (b : Branch) (g : Group) : (g.branch b).id = g.id := rfl

@[simp] theorem branch_selected (b : Branch) (g : Group) :
    (g.branch b).selected = (b.accepts && !g.decided) := rfl

@[simp] theorem branch_decided (b : Branch) (g : Group) :
    (g.branch b).decided = (b.accepts || g.decided) := rfl

@[simp] theorem branch_seenOtherwise (b : Branch) (g : Group) :
    (g.branch b).seenOtherwise = (b.isOtherwise || g.seenOtherwise) := rfl

theorem decided_of_selected {g : Group} (h : g.selected = true) : g.decided = true := by
  unfold selected at h
  unfold decided
  split at h
  · simp at h
  · rename_i b earlier hb
    rw [Bool.and_eq_true] at h
    rw [hb, List.any_cons, h.1, Bool.true_or]

theorem decided_of_seenOtherwise {g : Group} (h : g.seenOtherwise = true) : g.decided = true := by
  obtain ⟨b, hb, ho⟩ := List.any_eq_true.1 h
  refine List.any_eq_true.2 ⟨b, hb, ?_⟩
  cases b with
  | condition _ => simp [Branch.isOtherwise] at ho
  | otherwise => rfl

end Group

/-- Every open group has its selected branch open. -/
def Live (stack : List Group) : Prop :=
  ∀ g ∈ stack, g.selected = true

instance (stack : List Group) : Decidable (Live stack) := by
  unfold Live
  infer_instance

@[simp] theorem live_nil : Live [] := by
  intro g hg
  simp at hg

@[simp] theorem live_cons (g : Group) (stack : List Group) :
    Live (g :: stack) ↔ g.selected = true ∧ Live stack :=
  List.forall_mem_cons

/-- A conditional directive, with the value its condition has. -/
inductive Conditional
  | opening (value : Bool)
  | elif (value : Bool)
  | otherwise
  | endif
  deriving DecidableEq, Repr

/-- What happens to the open groups of the nested files. -/
inductive Action
  | directive (file : ℕ) (c : Conditional)
  | close (file : ℕ)
  deriving DecidableEq, Repr

/-- The open groups, and how many groups each file has opened. -/
structure Open where
  stack : List Group
  opened : ℕ → ℕ

namespace Open

def initial : Open := ⟨[], fun _ => 0⟩

/-- A branch of the innermost group, when that is in the file. -/
def branch (file : ℕ) (b : Branch) : List Group → List Group
  | [] => []
  | g :: below => if g.file = file then g.branch b :: below else g :: below

/-- The end of the innermost group, when that is in the file. -/
def pop (file : ℕ) : List Group → List Group
  | [] => []
  | g :: below => if g.file = file then below else g :: below

def directive (o : Open) (file : ℕ) : Conditional → Open
  | .opening value =>
    { stack := ⟨file, o.opened file, [.condition value]⟩ :: o.stack
      opened := Function.update o.opened file (o.opened file + 1) }
  | .elif value => { o with stack := branch file (.condition value) o.stack }
  | .otherwise => { o with stack := branch file .otherwise o.stack }
  | .endif => { o with stack := pop file o.stack }

/-- The groups a file leaves open end with the file. -/
def close (o : Open) (file : ℕ) : Open :=
  { o with stack := o.stack.dropWhile (·.file = file) }

def advance (o : Open) : Action → Open
  | .directive file c => o.directive file c
  | .close file => o.close file

def run (o : Open) (actions : List Action) : Open :=
  actions.foldl advance o

/-- The innermost group is in the file, so `#elif`, `#else` and `#endif` match it. -/
def Matched (o : Open) (file : ℕ) : Prop :=
  ∃ g ∈ o.stack.head?, g.file = file

theorem branch_of_not_matched {o : Open} {file : ℕ} (h : ¬ o.Matched file) (b : Branch) :
    branch file b o.stack = o.stack := by
  cases hs : o.stack with
  | nil => rfl
  | cons g below =>
    rw [branch, if_neg fun hf => h ⟨g, by rw [hs]; rfl, hf⟩]

theorem pop_of_not_matched {o : Open} {file : ℕ} (h : ¬ o.Matched file) :
    pop file o.stack = o.stack := by
  cases hs : o.stack with
  | nil => rfl
  | cons g below =>
    rw [pop, if_neg fun hf => h ⟨g, by rw [hs]; rfl, hf⟩]

/-- Groups are numbered in the order in which their file opens them. -/
def Numbered (o : Open) : Prop :=
  ∀ g ∈ o.stack, g.id < o.opened g.file

variable {o : Open} {file : ℕ}

@[simp] theorem opened_opening (o : Open) (file : ℕ) (v : Bool) :
    (o.directive file (.opening v)).opened file = o.opened file + 1 :=
  Function.update_self ..

theorem opened_le_advance (o : Open) (a : Action) (f : ℕ) : o.opened f ≤ (o.advance a).opened f := by
  rcases a with ⟨file, _ | _ | _ | _⟩ | file <;>
    simp only [advance, directive, close] <;> try exact Nat.le_refl _
  rcases eq_or_ne f file with rfl | h
  · rw [Function.update_self]
    exact Nat.le_succ _
  · rw [Function.update_of_ne h]

/-- The groups after an action were there before, but for the one it opens. -/
theorem mem_advance {a : Action} {g : Group} (hg : g ∈ (o.advance a).stack) :
    (∃ g' ∈ o.stack, g'.file = g.file ∧ g'.id = g.id) ∨
      ∃ v, a = .directive g.file (.opening v) ∧ g.id = o.opened g.file := by
  have hbranch : ∀ f b, g ∈ branch f b o.stack → ∃ g' ∈ o.stack, g'.file = g.file ∧ g'.id = g.id := by
    intro f b hg
    cases hs : o.stack with
    | nil => simp [branch, hs] at hg
    | cons g₀ below =>
      rw [hs, branch] at hg
      split at hg
      · rcases List.mem_cons.1 hg with rfl | hg
        · exact ⟨g₀, List.mem_cons_self, rfl, rfl⟩
        · exact ⟨g, List.mem_cons_of_mem _ hg, rfl, rfl⟩
      · exact ⟨g, hg, rfl, rfl⟩
  rcases a with ⟨f, c⟩ | f
  · cases c with
    | opening v =>
      rcases List.mem_cons.1 hg with rfl | hg
      · exact Or.inr ⟨v, rfl, rfl⟩
      · exact Or.inl ⟨g, hg, rfl, rfl⟩
    | elif v => exact Or.inl (hbranch f _ hg)
    | otherwise => exact Or.inl (hbranch f _ hg)
    | endif =>
      refine Or.inl ?_
      simp only [advance, directive] at hg
      cases hs : o.stack with
      | nil => simp [pop, hs] at hg
      | cons g₀ below =>
        rw [hs, pop] at hg
        split at hg
        · exact ⟨g, List.mem_cons_of_mem _ hg, rfl, rfl⟩
        · exact ⟨g, hg, rfl, rfl⟩
  · exact Or.inl ⟨g, (List.dropWhile_suffix _).subset hg, rfl, rfl⟩

theorem Numbered.advance (h : o.Numbered) (a : Action) : (o.advance a).Numbered := by
  intro g hg
  rcases mem_advance hg with ⟨g', hg', hf, hid⟩ | ⟨v, rfl, hid⟩
  · rw [← hid, ← hf]
    exact Nat.lt_of_lt_of_le (h g' hg') (opened_le_advance o a g'.file)
  · rw [hid, Open.advance, opened_opening]
    exact Nat.lt_succ_self _

theorem Numbered.run (h : o.Numbered) (actions : List Action) : (o.run actions).Numbered := by
  induction actions generalizing o with
  | nil => exact h
  | cons a actions ih => exact ih (h.advance a)

/-! ## The group an opening directive opens -/

/-- Group `id` of `file` is open above `below`, or gone for good. -/
structure Above (file id : ℕ) (below : List Group) (o : Open) : Prop where
  later : id < o.opened file
  place : (∃ inner g, o.stack = inner ++ g :: below ∧ g.file = file ∧ g.id = id ∧
      ∀ h ∈ inner, ¬(h.file = file ∧ h.id = id)) ∨
    ∀ h ∈ o.stack, ¬(h.file = file ∧ h.id = id)

variable {id : ℕ} {below : List Group}

theorem above_opening (o : Open) (file : ℕ) (v : Bool) :
    Above file (o.opened file) o.stack (o.directive file (.opening v)) where
  later := by
    rw [opened_opening]
    exact Nat.lt_succ_self _
  place := Or.inl ⟨[], _, rfl, rfl, rfl, by simp⟩

theorem Above.advance (h : Above file id below o)
    (hbelow : ∀ g ∈ below, ¬(g.file = file ∧ g.id = id)) (a : Action) :
    Above file id below (o.advance a) := by
  refine ⟨Nat.lt_of_lt_of_le h.later (opened_le_advance o a file), ?_⟩
  rcases h.place with ⟨inner, g, hs, hf, hid, hinner⟩ | hgone
  · rcases a with ⟨f, c⟩ | f
    · have hbranch : ∀ b, ∃ inner g, branch f b o.stack = inner ++ g :: below ∧ g.file = file ∧
          g.id = id ∧ ∀ h ∈ inner, ¬(h.file = file ∧ h.id = id) := by
        intro b
        rw [hs]
        cases inner with
        | nil =>
          rw [List.nil_append, branch]
          split
          · exact ⟨[], g.branch b, rfl, hf, hid, by simp⟩
          · exact ⟨[], g, rfl, hf, hid, by simp⟩
        | cons g₀ inner =>
          rw [List.cons_append, branch]
          rw [List.forall_mem_cons] at hinner
          split
          · exact ⟨g₀.branch b :: inner, g, rfl, hf, hid, List.forall_mem_cons.2 hinner⟩
          · exact ⟨g₀ :: inner, g, rfl, hf, hid, List.forall_mem_cons.2 hinner⟩
      cases c with
      | opening v =>
        refine Or.inl ⟨⟨f, o.opened f, [.condition v]⟩ :: inner, g, ?_, hf, hid, ?_⟩
        · rw [Open.advance, directive, hs]
          rfl
        · refine List.forall_mem_cons.2 ⟨?_, hinner⟩
          rintro ⟨rfl, hopened⟩
          exact absurd hopened (Nat.ne_of_gt h.later)
      | elif v => exact Or.inl (hbranch _)
      | otherwise => exact Or.inl (hbranch _)
      | endif =>
        cases inner with
        | nil =>
          rw [List.nil_append] at hs
          rw [Open.advance, directive, hs, pop]
          split
          · exact Or.inr hbelow
          · exact Or.inl ⟨[], g, rfl, hf, hid, by simp⟩
        | cons g₀ inner =>
          rw [List.forall_mem_cons] at hinner
          rw [Open.advance, directive, hs, List.cons_append, pop]
          split
          · exact Or.inl ⟨inner, g, rfl, hf, hid, hinner.2⟩
          · exact Or.inl ⟨g₀ :: inner, g, rfl, hf, hid, List.forall_mem_cons.2 hinner⟩
    · rw [Open.advance, close, hs]
      clear hs
      induction inner with
      | nil =>
        rw [List.nil_append, List.dropWhile_cons]
        split
        · exact Or.inr fun k hk => hbelow k ((List.dropWhile_suffix _).subset hk)
        · exact Or.inl ⟨[], g, rfl, hf, hid, by simp⟩
      | cons g₀ inner ih =>
        rw [List.forall_mem_cons] at hinner
        rw [List.cons_append, List.dropWhile_cons]
        split
        · exact ih hinner.2
        · exact Or.inl ⟨g₀ :: inner, g, rfl, hf, hid, List.forall_mem_cons.2 hinner⟩
  · refine Or.inr fun g hg hsame => ?_
    rcases mem_advance hg with ⟨g', hg', hf, hid⟩ | ⟨v, -, hid⟩
    · exact hgone g' hg' ⟨hf.trans hsame.1, hid.trans hsame.2⟩
    · rw [hsame.1, hsame.2] at hid
      exact absurd hid (Nat.ne_of_lt h.later)

theorem Above.run (h : Above file id below o)
    (hbelow : ∀ g ∈ below, ¬(g.file = file ∧ g.id = id)) (actions : List Action) :
    Above file id below (o.run actions) := by
  induction actions generalizing o with
  | nil => exact h
  | cons a actions ih => exact ih (h.advance hbelow a)

/-- The `#endif` that closes a group leaves the groups there were before it was opened. -/
theorem pop_opening (h : o.Numbered) (file : ℕ) (v : Bool) (actions : List Action)
    (hmatch : ∃ g ∈ ((o.directive file (.opening v)).run actions).stack.head?,
      g.file = file ∧ g.id = o.opened file) :
    (((o.directive file (.opening v)).run actions).directive file .endif).stack = o.stack := by
  have hbelow : ∀ g ∈ o.stack, ¬(g.file = file ∧ g.id = o.opened file) := by
    rintro g hg ⟨hf, hid⟩
    have hlt := h g hg
    rw [hf, hid] at hlt
    exact absurd hlt (Nat.lt_irrefl _)
  have habove := (above_opening o file v).run hbelow actions
  obtain ⟨g, hg, hf, hid⟩ := hmatch
  obtain ⟨rest, hs⟩ : ∃ rest, ((o.directive file (.opening v)).run actions).stack = g :: rest := by
    cases hstack : ((o.directive file (.opening v)).run actions).stack with
    | nil => simp [hstack] at hg
    | cons g₀ rest =>
      rw [hstack] at hg
      exact ⟨rest, by rw [Option.some.inj hg]⟩
  show pop file _ = _
  rw [hs, pop, if_pos hf]
  rcases habove.place with ⟨inner, g', hs', hf', hid', hinner⟩ | hgone
  · rw [hs] at hs'
    cases inner with
    | nil => exact (List.cons.inj hs').2
    | cons g₀ inner =>
      rw [List.cons_append] at hs'
      obtain rfl := (List.cons.inj hs').1
      exact absurd ⟨hf, hid⟩ (hinner g List.mem_cons_self)
  · rw [hs] at hgone
    exact absurd ⟨hf, hid⟩ (hgone g List.mem_cons_self)

end Open

end ConditionalGroups
