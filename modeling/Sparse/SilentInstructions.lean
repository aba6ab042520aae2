import Sparse.ProgramPaths

/-!
# Programs that differ in silent instructions

Two programs have the same code up to instructions that do not show. If such an instruction keeps what
their histories have in common, and both jump alike after that, each path of the one corresponds to a
path of the other.
-/

namespace ProgramPaths

variable {B I : Type*}

/-- What shows of a list of instructions. -/
def visible (S : I → Bool) (l : List I) : List I := l.filter fun i => !S i

/-- Two programs whose code differs in silent instructions only, and a relation of what they have
executed that every step keeps. -/
structure Silently (S : I → Bool) (Rel : List I → List I → Prop) (P Q : Program B I) : Prop where
  entry : Q.entry = P.entry
  code : ∀ b, visible S (Q.code b) = visible S (P.code b)
  start : Rel [] []
  left : ∀ {b i rest done done'}, S i = true → P.Reached b (i :: rest) done → Rel done done' → Rel (i :: done) done'
  right : ∀ {b i rest done done'}, S i = true → Q.Reached b (i :: rest) done' → Rel done done' → Rel done (i :: done')
  both : ∀ {b i rest rest' done done'}, S i = false → P.Reached b (i :: rest) done →
    Q.Reached b (i :: rest') done' → Rel done done' → Rel (i :: done) (i :: done')
  jumps : ∀ {b c done done'}, P.Reached b [] done → Q.Reached b [] done' → Rel done done' →
    (P.jumps done b c ↔ Q.jumps done' b c)

section

variable {S : I → Bool} {Rel : List I → List I → Prop} {P Q : Program B I} {b : B} {i j : I}
  {rest rest' done done' l : List I}

@[simp] theorem visible_nil : visible S [] = [] := rfl

theorem visible_cons_silent (h : S i = true) : visible S (i :: l) = visible S l := by simp [visible, h]

theorem visible_cons (h : S i = false) : visible S (i :: l) = i :: visible S l := by simp [visible, h]

/-- What shows is among what shows when fewer instructions are silent. -/
theorem visible_visible {S₁ : I → Bool} (h : ∀ i, S₁ i = true → S i = true) (l : List I) :
    visible S (visible S₁ l) = visible S l := by
  unfold visible
  rw [List.filter_filter]
  refine List.filter_congr fun i _ => ?_
  cases h₁ : S₁ i with
  | true => simp [h i h₁]
  | false => simp

/-- What is found among what shows. -/
theorem find?_visible {q : I → Bool} (h : ∀ i, S i = true → q i = false) (l : List I) :
    (visible S l).find? q = l.find? q := by
  unfold visible
  rw [List.find?_filter]
  congr 1
  funext i
  cases hi : S i with
  | true => simp [h i hi]
  | false => simp

/-- A list that starts with what shows, after silent instructions. -/
theorem visible_eq_cons (h : visible S l = i :: rest) :
    ∃ l₁ l₂, l = l₁ ++ i :: l₂ ∧ (∀ j ∈ l₁, S j = true) ∧ visible S l₂ = rest := by
  obtain ⟨l₁, l₂, rfl, hl₁, -, hrest⟩ := List.filter_eq_cons_iff.1 h
  exact ⟨l₁, l₂, rfl, fun j hj => by simpa using hl₁ j hj, hrest⟩

namespace Silently

theorem symm (h : Silently S Rel P Q) : Silently S (fun done done' => Rel done' done) Q P where
  entry := h.entry.symm
  code b := (h.code b).symm
  start := h.start
  left := h.right
  right := h.left
  both hi hP hQ hrel := h.both hi hQ hP hrel
  jumps hP hQ hrel := (h.jumps hQ hP hrel).symm

variable (h : Silently S Rel P Q)
include h

/-- Silent instructions are executed until one shows. -/
theorem settle {l₁ l₂ : List I} (hl₁ : ∀ i ∈ l₁, S i = true) (hr : Q.Reached b (l₁ ++ l₂) done')
    (hrel : Rel done done') : Q.Reached b l₂ (l₁.reverse ++ done') ∧ Rel done (l₁.reverse ++ done') ∧
      visible S (l₁.reverse ++ done') = visible S done' := by
  induction l₁ generalizing done' with
  | nil => exact ⟨hr, hrel, rfl⟩
  | cons i l₁ ih =>
    have hi := hl₁ i List.mem_cons_self
    rw [List.reverse_cons, List.append_assoc, List.singleton_append]
    obtain ⟨hreach, hrel', hvisible⟩ :=
      ih (fun j hj => hl₁ j (List.mem_cons_of_mem i hj)) hr.exec (h.right hi hr hrel)
    exact ⟨hreach, hrel', hvisible.trans (visible_cons_silent hi)⟩

/-- A path of the first program is followed by one of the second. -/
theorem follow (hr : P.Reached b rest done) : ∃ rest' done', Q.Reached b rest' done' ∧
    visible S rest' = visible S rest ∧ visible S done' = visible S done ∧ Rel done done' := by
  induction hr with
  | refl =>
    have hstart : Q.Reached P.entry (Q.code P.entry) [] := by
      rw [← h.entry]
      exact .refl
    exact ⟨_, [], hstart, h.code _, rfl, h.start⟩
  | @exec b i rest done hgo ih =>
    obtain ⟨rest', done', hr', hrest, hdone, hrel⟩ := ih
    cases hi : S i with
    | true =>
      rw [visible_cons_silent hi] at hrest
      exact ⟨rest', done', hr', hrest, by rw [visible_cons_silent hi, hdone], h.left hi hgo hrel⟩
    | false =>
      rw [visible_cons hi] at hrest
      obtain ⟨l₁, l₂, rfl, hl₁, hl₂⟩ := visible_eq_cons hrest
      obtain ⟨hreach, hrel', hvisible⟩ := h.settle hl₁ hr' hrel
      exact ⟨l₂, _, hreach.exec, hl₂, by rw [visible_cons hi, visible_cons hi, hvisible, hdone],
        h.both hi hgo hreach hrel'⟩
  | @jump b c done hgo hj ih =>
    obtain ⟨rest', done', hr', hrest, hdone, hrel⟩ := ih
    have hsilent : ∀ i ∈ rest', S i = true := fun i hi => by simpa using List.filter_eq_nil_iff.1 hrest i hi
    rw [← List.append_nil rest'] at hr'
    obtain ⟨hreach, hrel', hvisible⟩ := h.settle hsilent hr' hrel
    exact ⟨_, _, hreach.jump ((h.jumps hgo hreach hrel').1 hj), h.code c, hvisible.trans hdone, hrel'⟩

/-- Where the first program comes to an instruction that shows, so does the second. -/
theorem follow_to (hj : S j = false) (hr : P.Reached b (j :: rest) done) :
    ∃ rest' done', Q.Reached b (j :: rest') done' ∧ visible S rest' = visible S rest ∧
      visible S done' = visible S done ∧ Rel done done' := by
  obtain ⟨rest', done', hr', hrest, hdone, hrel⟩ := h.follow hr
  rw [visible_cons hj] at hrest
  obtain ⟨l₁, l₂, rfl, hl₁, hl₂⟩ := visible_eq_cons hrest
  obtain ⟨hreach, hrel', hvisible⟩ := h.settle hl₁ hr' hrel
  exact ⟨l₂, _, hreach, hl₂, hvisible.trans hdone, hrel'⟩

end Silently

end

end ProgramPaths
