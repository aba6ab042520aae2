import Sparse.ProgramPaths

/-!
# Programs with expanded instructions

One program has a sequence of instructions where another has one instruction. If both jump alike
after what corresponds, every path of the one corresponds to a path of the other.
-/

namespace ProgramPaths

variable {B I J : Type*}

/-- Each instruction has become a sequence that is related to it. -/
inductive Expands (R : I → List J → Prop) : List I → List J → Prop
  | nil : Expands R [] []
  | cons {i seg rest rest'} (h : R i seg) (ht : Expands R rest rest') : Expands R (i :: rest) (seg ++ rest')

/-- The same for what was executed, the latest first. -/
inductive Traces (R : I → List J → Prop) : List I → List J → Prop
  | nil : Traces R [] []
  | cons {i seg done done'} (h : R i seg) (ht : Traces R done done') :
      Traces R (i :: done) (seg.reverse ++ done')

/-- A point of a path corresponds to a point between two instructions or inside of one. -/
inductive Follows (R : I → List J → Prop) : List I → List I → List J → List J → Prop
  | between {rest done rest' done'} (he : Expands R rest rest') (ht : Traces R done done') :
      Follows R rest done rest' done'
  | inside {i pre post rest done rest' done'} (h : R i (pre ++ post)) (hpost : post ≠ [])
      (he : Expands R rest rest') (ht : Traces R done done') :
      Follows R (i :: rest) done (post ++ rest') (pre.reverse ++ done')

variable {R R' : I → List J → Prop} {rest done : List I} {rest' done' : List J}

theorem Expands.imp (h : Expands R rest rest') (himp : ∀ i ∈ rest, ∀ seg, R i seg → R' i seg) :
    Expands R' rest rest' := by
  induction h with
  | nil => exact .nil
  | cons h ht ih =>
    exact .cons (himp _ List.mem_cons_self _ h) (ih fun i hi => himp i (List.mem_cons_of_mem _ hi))

/-- Every instruction has its sequence. -/
theorem Expands.exists_seg (h : Expands R rest rest') {i : I} (hi : i ∈ rest) : ∃ seg, R i seg := by
  induction h with
  | nil => exact absurd hi List.not_mem_nil
  | cons h ht ih =>
    rcases List.mem_cons.1 hi with rfl | hi
    · exact ⟨_, h⟩
    · exact ih hi

theorem Expands.mem_seg (h : Expands R rest rest') {j : J} (hj : j ∈ rest') :
    ∃ i ∈ rest, ∃ seg, R i seg ∧ j ∈ seg := by
  induction h with
  | nil => exact absurd hj List.not_mem_nil
  | @cons i seg rest rest' h ht ih =>
    rcases List.mem_append.1 hj with hj | hj
    · exact ⟨i, List.mem_cons_self, seg, h, hj⟩
    · obtain ⟨i', hi', hseg⟩ := ih hj
      exact ⟨i', List.mem_cons_of_mem _ hi', hseg⟩

/-- Where each sequence ends with the instruction itself, the last instruction is the same. -/
theorem Expands.getLast? {R : I → List I → Prop} {rest rest' : List I} (h : Expands R rest rest')
    (hlast : ∀ i seg, R i seg → seg.getLast? = some i) : rest'.getLast? = rest.getLast? := by
  induction h with
  | nil => rfl
  | @cons i seg rest rest' h ht ih =>
    rw [List.getLast?_append, ih, hlast i seg h]
    cases hrest : rest.getLast? with
    | none => rw [List.getLast?_eq_none_iff.1 hrest]; rfl
    | some j => rw [List.getLast?_cons, hrest]; rfl

/-- Instructions that stand for themselves. -/
theorem Expands.same (l : List I) {R : I → List I → Prop} (h : ∀ i ∈ l, R i [i]) : Expands R l l := by
  induction l with
  | nil => exact .nil
  | cons i l ih => exact .cons (h i List.mem_cons_self) (ih fun j hj => h j (List.mem_cons_of_mem _ hj))

/-- The first program with its instructions expanded is the second one. -/
structure Expansion (R : I → List J → Prop) (P : Program B I) (Q : Program B J) : Prop where
  entry : Q.entry = P.entry
  code : ∀ b, Expands R (P.code b) (Q.code b)
  jumps : ∀ b c done done', Traces R done done' → (Q.jumps done' b c ↔ P.jumps done b c)
  ne_nil : ∀ i seg, R i seg → seg ≠ []

namespace Expansion

variable {P : Program B I} {Q : Program B J} {b : B} (h : Expansion R P Q)
include h

/-- A path of the first program is followed by one of the second. -/
theorem follow (hr : P.Reached b rest done) :
    ∃ rest' done', Q.Reached b rest' done' ∧ Expands R rest rest' ∧ Traces R done done' := by
  induction hr with
  | refl =>
    have hstart : Q.Reached P.entry (Q.code P.entry) [] := by
      rw [← h.entry]
      exact .refl
    exact ⟨_, [], hstart, h.code _, .nil⟩
  | exec _ ih =>
    obtain ⟨rest', done', hr', hexp, htr⟩ := ih
    cases hexp with
    | cons hR hrest => exact ⟨_, _, hr'.trans (.block _), hrest, .cons hR htr⟩
  | jump _ hj ih =>
    obtain ⟨rest', done', hr', hexp, htr⟩ := ih
    cases hexp
    exact ⟨_, done', hr'.jump ((h.jumps _ _ _ _ htr).2 hj), h.code _, htr⟩

/-- A path of the second program follows one of the first. -/
theorem follows (hr : Q.Reached b rest' done') :
    ∃ rest done, P.Reached b rest done ∧ Follows R rest done rest' done' := by
  induction hr with
  | refl =>
    have hcode : Expands R (P.code P.entry) (Q.code Q.entry) := by
      rw [h.entry]
      exact h.code _
    rw [h.entry] at hcode ⊢
    exact ⟨_, [], .refl, .between hcode .nil⟩
  | @exec b j rest' done' _ ih =>
    obtain ⟨rest, done, hr, hf⟩ := ih
    generalize hcode : j :: rest' = code at hf
    cases hf with
    | between he ht =>
      cases he with
      | nil => cases hcode
      | @cons i seg rest _ hR hrest =>
        cases seg with
        | nil => exact absurd rfl (h.ne_nil _ _ hR)
        | cons j' post =>
          obtain ⟨rfl, rfl⟩ := List.cons.inj hcode
          cases post with
          | nil => exact ⟨rest, _, hr.exec, .between hrest (.cons hR ht)⟩
          | cons j' post =>
            have hsplit : R i ([j] ++ j' :: post) := hR
            exact ⟨_, _, hr, .inside hsplit (List.cons_ne_nil _ _) hrest ht⟩
    | @inside i pre post rest done _ done₀ hR hpost he ht =>
      cases post with
      | nil => exact absurd rfl hpost
      | cons j' post =>
        obtain ⟨rfl, rfl⟩ := List.cons.inj hcode
        have hsplit : pre ++ j :: post = (pre ++ [j]) ++ post := by simp
        rw [hsplit] at hR
        have hdone : j :: (pre.reverse ++ done₀) = (pre ++ [j]).reverse ++ done₀ := by simp
        rw [hdone]
        cases post with
        | nil =>
          rw [List.append_nil] at hR
          exact ⟨rest, _, hr.exec, .between he (.cons hR ht)⟩
        | cons j' post => exact ⟨_, _, hr, .inside hR (List.cons_ne_nil _ _) he ht⟩
  | @jump b c done' _ hj ih =>
    obtain ⟨rest, done, hr, hf⟩ := ih
    generalize hcode : ([] : List J) = code at hf
    cases hf with
    | between he ht =>
      cases he with
      | nil => exact ⟨_, done, hr.jump ((h.jumps _ _ _ _ ht).1 hj), .between (h.code c) ht⟩
      | cons hR hrest => exact absurd (List.append_eq_nil_iff.1 hcode.symm).1 (h.ne_nil _ _ hR)
    | inside hR hpost he ht => exact absurd (List.append_eq_nil_iff.1 hcode.symm).1 hpost

end Expansion

end ProgramPaths
