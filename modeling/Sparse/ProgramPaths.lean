import Mathlib.Data.List.Chain
import Mathlib.Data.List.Nodup
import Mathlib.Logic.Relation

/-!
# Paths through a program of blocks

A path executes the instructions of a block one after the other and jumps to another block at its
end. A point of a path is a block with the instructions left in it and the instructions executed so
far, the latest first. An instruction precedes another if every path to the second has executed the
first.
-/

namespace ProgramPaths

/-- Blocks of instructions, and the jumps that are possible after what was executed before. -/
structure Program (B I : Type*) where
  entry : B
  code : B → List I
  jumps : List I → B → B → Prop

namespace Program

variable {B I : Type*} (P : Program B I)

/-- The points that a path can go on to from a point. -/
inductive Goes (b₀ : B) (rest₀ done₀ : List I) : B → List I → List I → Prop
  | refl : Goes b₀ rest₀ done₀ b₀ rest₀ done₀
  | exec {b i rest done} (h : Goes b₀ rest₀ done₀ b (i :: rest) done) :
      Goes b₀ rest₀ done₀ b rest (i :: done)
  | jump {b c done} (h : Goes b₀ rest₀ done₀ b [] done) (hj : P.jumps done b c) :
      Goes b₀ rest₀ done₀ c (P.code c) done

/-- The points of the paths from the entry. -/
def Reached : B → List I → List I → Prop := P.Goes P.entry (P.code P.entry) []

/-- A path comes to the start of a block. -/
def Entered (b : B) (done : List I) : Prop :=
  b = P.entry ∧ done = [] ∨ ∃ c, P.Reached c [] done ∧ P.jumps done c b

/-- Every path to `j` has executed `i`. -/
def Precedes (i j : I) : Prop := ∀ b rest done, P.Reached b (j :: rest) done → i ∈ done

/-- The jumps do not depend on the past. -/
def Free : Prop := ∀ done done' b c, P.jumps done b c → P.jumps done' b c

/-- Every path of jumps from the entry to `c` passes through `b`. -/
def Dominates (b c : B) : Prop :=
  ∀ path : List B, List.IsChain (P.jumps []) (P.entry :: path) →
    (P.entry :: path).getLast (List.cons_ne_nil _ _) = c → b ∈ P.entry :: path

/-- A jump that avoids a block. -/
def Avoids (b x y : B) : Prop := P.jumps [] x y ∧ x ≠ b ∧ y ≠ b

/-- An instruction stands in one place of one block. -/
structure Placed : Prop where
  nodup : ∀ b, (P.code b).Nodup
  apart : ∀ b c i, i ∈ P.code b → i ∈ P.code c → b = c

variable {P} {b b₀ b₁ c : B} {i j d : I} {rest rest₀ rest₁ done done₀ done₁ k h : List I}

theorem Goes.trans (h₁ : P.Goes b₀ rest₀ done₀ b₁ rest₁ done₁) (h₂ : P.Goes b₁ rest₁ done₁ b rest done) :
    P.Goes b₀ rest₀ done₀ b rest done := by
  induction h₂ with
  | refl => exact h₁
  | exec _ ih => exact ih.exec
  | jump _ hj ih => exact ih.jump hj

/-- What a path executes from one point to the next goes in front. -/
theorem Goes.append (h : P.Goes b₀ rest₀ done₀ b rest done) : ∃ k, done = k ++ done₀ := by
  induction h with
  | refl => exact ⟨[], rfl⟩
  | exec _ ih =>
    obtain ⟨k, rfl⟩ := ih
    exact ⟨_ :: k, rfl⟩
  | jump _ _ ih => exact ih

/-- A path through one block. -/
theorem Goes.block (pre : List I) : P.Goes b (pre ++ rest) done b rest (pre.reverse ++ done) := by
  induction pre generalizing done with
  | nil => exact .refl
  | cons i pre ih =>
    rw [List.reverse_cons, List.append_assoc]
    have hi : P.Goes b (i :: (pre ++ rest)) done b (pre ++ rest) (i :: done) := .exec .refl
    exact hi.trans ih

/-- A path that enters a block comes to every place in it. -/
theorem Entered.reached (he : P.Entered b done) {pre : List I} (hcode : P.code b = pre ++ rest) :
    P.Reached b rest (pre.reverse ++ done) := by
  have hstart : P.Reached b (pre ++ rest) done := by
    rw [← hcode]
    rcases he with ⟨rfl, rfl⟩ | ⟨c, hc, hj⟩
    · exact .refl
    · exact hc.jump hj
  exact hstart.trans (.block pre)

/-- Where jumps do not depend on the past, neither do paths. -/
theorem Goes.splice (hfree : P.Free) (h : P.Goes b₀ rest₀ done₀ b rest (k ++ done₀)) (done₁ : List I) :
    P.Goes b₀ rest₀ done₁ b rest (k ++ done₁) := by
  generalize hd : k ++ done₀ = done at h
  induction h generalizing k with
  | refl =>
    obtain rfl : k = [] := by simpa using hd
    exact .refl
  | exec hgo ih =>
    cases k with
    | nil =>
      obtain ⟨k', hk'⟩ := hgo.append
      have hlen := congrArg List.length (hd.trans (congrArg _ hk'))
      simp at hlen
      omega
    | cons i' k =>
      obtain ⟨rfl, htail⟩ := List.cons.inj hd
      exact (ih htail).exec
  | jump _ hj ih => exact (ih hd).jump (hfree _ _ _ _ hj)

/-- An instruction splits the code of its block in one way. -/
theorem Placed.split_unique (hP : P.Placed) {pre pre₁ : List I} (hcode : P.code b = pre ++ i :: rest)
    (hcode₁ : P.code b = pre₁ ++ i :: rest₁) : pre = pre₁ ∧ rest = rest₁ := by
  have hnodup := hP.nodup b
  rw [hcode, List.nodup_append, List.nodup_cons] at hnodup
  have heq := hcode.symm.trans hcode₁
  rw [List.append_cons_inj_of_notMem (fun hi => hnodup.2.2 i hi i List.mem_cons_self rfl)
    hnodup.2.1.1] at heq
  exact ⟨heq.1, heq.2.2⟩

namespace Reached

/-- A path that has executed an instruction came by it before. -/
theorem split (hr : P.Reached b rest (k ++ i :: h)) :
    ∃ c s, P.Reached c (i :: s) h ∧ P.Goes c s (i :: h) b rest (k ++ i :: h) := by
  generalize hd : k ++ i :: h = done at hr
  induction hr generalizing k with
  | refl => cases k <;> simp at hd
  | @exec b i' rest done hgo ih =>
    cases k with
    | nil =>
      obtain ⟨rfl, rfl⟩ := List.cons.inj hd
      exact ⟨b, rest, hgo, .refl⟩
    | cons i'' k =>
      obtain ⟨rfl, htail⟩ := List.cons.inj hd
      obtain ⟨c, s, hc, hgo'⟩ := ih htail
      exact ⟨c, s, hc, hgo'.exec⟩
  | jump _ hj ih =>
    obtain ⟨c, s, hc, hgo'⟩ := ih hd
    exact ⟨c, s, hc, hgo'.jump hj⟩

/-- A path in a block has entered it and executed what stands before. -/
theorem entered (hr : P.Reached b rest done) :
    ∃ pre done₀, P.code b = pre ++ rest ∧ done = pre.reverse ++ done₀ ∧ P.Entered b done₀ := by
  induction hr with
  | refl => exact ⟨[], [], rfl, rfl, Or.inl ⟨rfl, rfl⟩⟩
  | @exec b i rest done hgo ih =>
    obtain ⟨pre, done₀, hcode, rfl, he⟩ := ih
    exact ⟨pre ++ [i], done₀, by simp [hcode], by simp, he⟩
  | @jump b c done hgo hj _ => exact ⟨[], done, rfl, rfl, Or.inr ⟨b, hgo, hj⟩⟩

theorem mem_code (hr : P.Reached b rest done) (hi : i ∈ rest) : i ∈ P.code b := by
  obtain ⟨pre, _, hcode, -⟩ := hr.entered
  rw [hcode]
  exact List.mem_append_right pre hi

/-- An instruction determines where a path to it stands. -/
theorem unique (hP : P.Placed) (hb : P.Reached b (i :: rest) done)
    (hc : P.Reached c (i :: rest₁) done₁) : b = c ∧ rest = rest₁ := by
  obtain rfl := hP.apart b c i (hb.mem_code List.mem_cons_self) (hc.mem_code List.mem_cons_self)
  obtain ⟨pre, _, hcode, -⟩ := hb.entered
  obtain ⟨pre₁, _, hcode₁, -⟩ := hc.entered
  exact ⟨rfl, (hP.split_unique hcode hcode₁).2⟩

/-- No path reaches a set of blocks that it would have to enter from inside. -/
theorem notMem_of_closed {S : B → Prop} (hentry : ¬ S P.entry)
    (hclosed : ∀ done b c, P.jumps done b c → S c → S b) (hr : P.Reached b rest done) : ¬ S b := by
  induction hr with
  | refl => exact hentry
  | exec _ ih => exact ih
  | jump _ hj ih => exact fun hc => ih (hclosed _ _ _ hj hc)

end Reached

/-- What stands earlier in the block is executed before. -/
theorem Placed.precedes (hP : P.Placed) {pre post : List I} (hcode : P.code b = pre ++ i :: post)
    (hj : j ∈ post) : P.Precedes i j := by
  intro c rest done hr
  obtain rfl := hP.apart b c j (by simp [hcode, hj]) (hr.mem_code List.mem_cons_self)
  obtain ⟨pre₁, done₀, hcode₁, rfl, -⟩ := hr.entered
  obtain ⟨mid, post', rfl⟩ := List.append_of_mem hj
  rw [← List.cons_append, ← List.append_assoc] at hcode
  obtain ⟨rfl, -⟩ := hP.split_unique hcode hcode₁
  simp

theorem Placed.precedes_of_sublist (hP : P.Placed) (h : [i, j].Sublist (P.code b)) : P.Precedes i j := by
  obtain ⟨front, back, hcode, hi, hj⟩ := List.cons_sublist_iff.1 h
  obtain ⟨pre, mid, rfl⟩ := List.append_of_mem hi
  rw [List.append_assoc] at hcode
  exact hP.precedes hcode (List.mem_append_right mid (List.singleton_sublist.1 hj))

/-- Two instructions that precede each other are never reached. -/
theorem Precedes.asymm (hij : P.Precedes i j) (hji : P.Precedes j i) :
    ¬ P.Reached b (i :: rest) done := by
  intro hr
  induction hn : done.length using Nat.strongRecOn generalizing b rest done with
  | _ n ih =>
    obtain ⟨k, h, rfl⟩ := List.append_of_mem (hji _ _ _ hr)
    obtain ⟨c, s, hc, -⟩ := hr.split
    obtain ⟨k', h', rfl⟩ := List.append_of_mem (hij _ _ _ hc)
    obtain ⟨c', s', hc', -⟩ := hc.split
    refine ih h'.length ?_ hc' rfl
    subst hn
    simp
    omega

/-- On a path from `i` to `j`, what precedes `i` is not executed again: a path could have gone
there without `i`. -/
theorem Precedes.not_between (hP : P.Placed) (hfree : P.Free) (hdi : P.Precedes d i)
    (hij : P.Precedes i j) (hr : P.Reached b (j :: rest) (k ++ i :: h)) (hk : i ∉ k) : d ∉ k := by
  intro hd
  obtain ⟨k₁, k₂, rfl⟩ := List.append_of_mem hd
  have hdone : k₁ ++ d :: k₂ ++ i :: h = k₁ ++ d :: (k₂ ++ i :: h) := by simp
  rw [hdone] at hr
  obtain ⟨c, s, hc, hgo⟩ := hr.split
  -- the first time that the path came to `i`
  obtain ⟨m, n, hmn, hn⟩ : ∃ m n, k₂ ++ i :: h = m ++ i :: n ∧ i ∉ n := by
    have hi : i ∈ (k₂ ++ i :: h).reverse := by simp
    obtain ⟨n, m, hnm, hn⟩ := List.eq_append_cons_of_mem hi
    exact ⟨m.reverse, n.reverse, by rw [← List.reverse_reverse (k₂ ++ i :: h), hnm]; simp,
      by simpa using hn⟩
  have hc' := hc
  rw [hmn] at hc'
  obtain ⟨c₁, s₁, hfirst, -⟩ := hc'.split
  obtain ⟨n₁, n₂, rfl⟩ := List.append_of_mem (hdi _ _ _ hfirst)
  obtain ⟨c₂, s₂, hearly, -⟩ := hfirst.split
  obtain ⟨rfl, rfl⟩ := hearly.unique hP hc
  have hshort : P.Reached b (j :: rest) (k₁ ++ d :: n₂) :=
    hearly.exec.trans (hgo.splice hfree (d :: n₂))
  have hi := hij _ _ _ hshort
  simp only [List.mem_append, List.mem_cons, not_or] at hi hn hk
  rcases hi with hi | rfl | hi
  · exact hk.1 hi
  · exact hk.2.1 rfl
  · exact hn.2.2 hi

/-! ## Dominance -/

/-- A block is not dominated exactly if jumps that avoid the other lead to it. -/
theorem dominates_iff : P.Dominates b c ↔
    ¬ (P.entry ≠ b ∧ Relation.ReflTransGen (P.Avoids b) P.entry c) := by
  constructor
  · rintro hd ⟨hentry, hreach⟩
    obtain ⟨path, hchain, hlast⟩ := List.exists_isChain_cons_of_relationReflTransGen hreach
    have hmem := hd path (hchain.imp (fun _ _ h => h.1)) hlast
    have havoid : ∀ (path : List B) (x : B), List.IsChain (P.Avoids b) (x :: path) → b ∉ path := by
      intro path
      induction path with
      | nil => simp
      | cons y path ih =>
        intro x hx
        rw [List.isChain_cons_cons] at hx
        simp only [List.mem_cons, not_or]
        exact ⟨hx.1.2.2.symm, ih y hx.2⟩
    rcases List.mem_cons.mp hmem with he | hmem
    · exact hentry he.symm
    · exact havoid path P.entry hchain hmem
  · intro hnot path hchain hlast
    by_contra hmem
    refine hnot ⟨fun he => hmem (by simp [he]), ?_⟩
    refine List.relationReflTransGen_of_exists_isChain_cons path ?_ hlast
    clear hlast hnot
    generalize P.entry = x at hchain hmem
    induction path generalizing x with
    | nil => exact List.isChain_singleton x
    | cons y path ih =>
      rw [List.isChain_cons_cons] at hchain ⊢
      simp only [List.mem_cons, not_or] at hmem
      exact ⟨⟨hchain.1, Ne.symm hmem.1, Ne.symm hmem.2.1⟩, ih y hchain.2 (by simpa using hmem.2)⟩

/-- What stands in a dominating block is executed before. -/
theorem Dominates.precedes (hP : P.Placed) (hfree : P.Free) (hd : P.Dominates b c) (hne : b ≠ c)
    (hi : i ∈ P.code b) (hj : j ∈ P.code c) : P.Precedes i j := by
  have hpaths : ∀ x rest done, P.Reached x rest done → i ∈ done ∨ x = b ∨
      P.entry ≠ b ∧ Relation.ReflTransGen (P.Avoids b) P.entry x := by
    intro x rest done hr
    induction hr with
    | refl =>
      by_cases he : P.entry = b
      · exact Or.inr (Or.inl he)
      · exact Or.inr (Or.inr ⟨he, .refl⟩)
    | exec _ ih => exact ih.imp_left (List.mem_cons_of_mem _)
    | @jump x y done hgo hjump ih =>
      have hfresh := hfree _ [] _ _ hjump
      by_cases hx : x = b
      · subst hx
        obtain ⟨pre, done₀, hcode, rfl, -⟩ := Reached.entered hgo
        rw [List.append_nil] at hcode
        exact Or.inl (by simp [← hcode, hi])
      · refine ih.imp_right (fun h => ?_)
        obtain ⟨hentry, hreach⟩ := h.resolve_left hx
        by_cases hy : y = b
        · exact Or.inl hy
        · exact Or.inr ⟨hentry, hreach.tail ⟨hfresh, hx, hy⟩⟩
  intro x rest done hr
  obtain rfl := hP.apart c x j hj (hr.mem_code List.mem_cons_self)
  rcases hpaths _ _ _ hr with h | h | h
  · exact h
  · exact absurd h.symm hne
  · exact absurd h (dominates_iff.mp hd)

/-! ## Moving one instruction -/

/-- Two programs that differ in the places of one instruction have the same paths otherwise. -/
theorem Reached.filter [DecidableEq I] {Q : Program B I} (hentry : Q.entry = P.entry) (hfree : P.Free)
    (hjumps : ∀ done b c, Q.jumps done b c → P.jumps done b c)
    (hcode : ∀ b, (Q.code b).filter (· ≠ i) = (P.code b).filter (· ≠ i))
    (hr : Q.Reached b rest done) : ∃ rest' done', P.Reached b rest' done' ∧
      rest'.filter (· ≠ i) = rest.filter (· ≠ i) ∧ done'.filter (· ≠ i) = done.filter (· ≠ i) := by
  induction hr with
  | refl =>
    rw [hentry]
    exact ⟨_, [], .refl, (hcode _).symm, rfl⟩
  | @exec b j rest done hgo ih =>
    obtain ⟨rest', done', hr', hrest, hdone⟩ := ih
    by_cases hj : j = i
    · exact ⟨rest', done', hr', by simpa [hj] using hrest, by simpa [hj] using hdone⟩
    · rw [List.filter_cons_of_pos (by simpa using hj), List.filter_eq_cons_iff] at hrest
      obtain ⟨l₁, l₂, rfl, hl₁, -, hrest⟩ := hrest
      refine ⟨l₂, j :: (l₁.reverse ++ done'), (hr'.trans (.block l₁)).exec, hrest, ?_⟩
      have hnone : l₁.reverse.filter (· ≠ i) = [] := by
        rw [List.filter_eq_nil_iff]
        exact fun x hx => hl₁ x (List.mem_reverse.mp hx)
      rw [List.filter_cons_of_pos (by simpa using hj), List.filter_cons_of_pos (by simpa using hj),
        List.filter_append, hnone, hdone, List.nil_append]
  | @jump b c done hgo hj ih =>
    obtain ⟨rest', done', hr', hrest, hdone⟩ := ih
    have hall : rest'.reverse.filter (· ≠ i) = [] := by
      rw [List.filter_reverse, hrest]
      rfl
    have hend : P.Reached b [] (rest'.reverse ++ done') := by
      rw [← List.append_nil rest'] at hr'
      exact hr'.trans (.block rest')
    exact ⟨_, _, hend.jump (hfree _ _ _ _ (hjumps _ _ _ hj)), (hcode c).symm,
      by rw [List.filter_append, hall, hdone, List.nil_append]⟩

end Program

end ProgramPaths
