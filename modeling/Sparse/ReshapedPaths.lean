import Sparse.SilentInstructions

/-!
# Programs whose blocks are passed by or joined

A block of silent instructions that goes to one block only can be passed by, and a block that comes
after one block only can be joined to it. The paths come to the same instructions that show, after the
same ones.
-/

namespace ProgramPaths

variable {B I : Type*}

namespace Program

variable (T : I → Bool) (P : Program B I)

/-- Some path comes to the point, after what shows of `done`. -/
def Comes (done : List I) (b : B) (rest : List I) : Prop :=
  ∃ done', P.Reached b rest done' ∧ visible T done' = visible T done

/-- The jumps depend on what shows only. -/
def Sees : Prop := ∀ done done' b c, visible T done' = visible T done → P.jumps done b c → P.jumps done' b c

variable {T P} {b c : B} {i j : I} {rest done done' l : List I}

theorem Comes.congr (h : P.Comes T done b rest) (hd : visible T done = visible T done') : P.Comes T done' b rest := by
  obtain ⟨hist, hr, hhist⟩ := h
  exact ⟨hist, hr, hhist.trans hd⟩

theorem Comes.start : P.Comes T [] P.entry (P.code P.entry) := ⟨[], .refl, rfl⟩

theorem Comes.exec (h : P.Comes T done b (i :: rest)) : P.Comes T (i :: done) b rest := by
  obtain ⟨hist, hr, hhist⟩ := h
  refine ⟨i :: hist, hr.exec, ?_⟩
  cases hi : T i with
  | true => rw [visible_cons_silent hi, visible_cons_silent hi, hhist]
  | false => rw [visible_cons hi, visible_cons hi, hhist]

/-- Silent instructions are executed. -/
theorem Comes.skip (hl : ∀ i ∈ l, T i = true) (h : P.Comes T done b (l ++ rest)) : P.Comes T done b rest := by
  induction l with
  | nil => exact h
  | cons i l ih =>
    have hi := hl i List.mem_cons_self
    exact ih (fun j hj => hl j (List.mem_cons_of_mem i hj)) (h.exec.congr (visible_cons_silent hi))

theorem Comes.jump (hsees : P.Sees T) (h : P.Comes T done b []) (hj : P.jumps done b c) :
    P.Comes T done c (P.code c) := by
  obtain ⟨hist, hr, hhist⟩ := h
  exact ⟨hist, hr.jump (hsees done hist b c hhist hj), hhist⟩

end Program

open Program

/-- To each point of the first program correspond points of the second, which goes on as far as it has to. -/
structure Shadows (T : I → Bool) (P Q : Program B I) (At : B → List I → B → List I → Prop) : Prop where
  start : At P.entry (P.code P.entry) Q.entry (Q.code Q.entry)
  exec : ∀ {b i rest done c r}, At b (i :: rest) c r → Q.Comes T done c r →
    ∃ c' r', Q.Comes T (i :: done) c' r' ∧ At b rest c' r'
  jump : ∀ {b x done c r}, P.jumps done b x → At b [] c r → Q.Comes T done c r →
    ∃ c' r', Q.Comes T done c' r' ∧ At x (P.code x) c' r'
  meet : ∀ {b j rest done c r}, T j = false → At b (j :: rest) c r → Q.Comes T done c r →
    ∃ c' r', Q.Comes T done c' (j :: r')

section

variable {T : I → Bool} {P Q : Program B I} {At : B → List I → B → List I → Prop} {b bb p t : B} {j last : I}
  {rest done pre : List I}

theorem Shadows.comes (h : Shadows T P Q At) (hr : P.Reached b rest done) :
    ∃ c r, Q.Comes T done c r ∧ At b rest c r := by
  induction hr with
  | refl => exact ⟨_, _, .start, h.start⟩
  | exec _ ih =>
    obtain ⟨c, r, hcomes, hat⟩ := ih
    exact h.exec hat hcomes
  | jump _ hj ih =>
    obtain ⟨c, r, hcomes, hat⟩ := ih
    exact h.jump hj hat hcomes

/-- Where the first program comes to an instruction that shows, so does the second. -/
theorem Shadows.comes_to (h : Shadows T P Q At) (hj : T j = false) (hr : P.Reached b (j :: rest) done) :
    ∃ c r, Q.Comes T done c (j :: r) := by
  obtain ⟨c, r, hcomes, hat⟩ := h.comes hr
  exact h.meet hj hat hcomes

/-! ## A block that is passed by -/

/-- Jumps to `bb` go to `t` instead, some or all of them, which is where `bb` goes. -/
structure Bypasses (T : I → Bool) (P Q : Program B I) (bb t : B) : Prop where
  entry : Q.entry = P.entry
  code : Q.code = P.code
  silent : ∀ i ∈ P.code bb, T i = true
  leave : ∀ done, P.jumps done bb t
  left : ∀ done x, P.jumps done bb x → x = t
  kept : ∀ done b x, P.jumps done b x → Q.jumps done b x ∨ x = bb ∧ Q.jumps done b t
  moved : ∀ done b x, Q.jumps done b x → P.jumps done b x ∨ x = t ∧ P.jumps done b bb

/-- Inside the block that is passed by, the second program is already behind it. -/
theorem Bypasses.forward (h : Bypasses T P Q bb t) (hQ : Q.Sees T) :
    Shadows T P Q fun b rest c r => c = b ∧ r = rest ∨ b = bb ∧ (∀ i ∈ rest, T i = true) ∧ c = t ∧ r = Q.code t where
  start := .inl ⟨h.entry, by rw [h.code, h.entry]⟩
  exec := by
    rintro b i rest done c r (⟨rfl, rfl⟩ | ⟨rfl, hrest, rfl, rfl⟩) hcomes
    · exact ⟨_, _, hcomes.exec, .inl ⟨rfl, rfl⟩⟩
    · exact ⟨_, _, hcomes.congr (visible_cons_silent (hrest i List.mem_cons_self)).symm,
        .inr ⟨rfl, fun k hk => hrest k (List.mem_cons_of_mem i hk), rfl, rfl⟩⟩
  jump := by
    rintro b x done c r hj (⟨rfl, rfl⟩ | ⟨rfl, -, rfl, rfl⟩) hcomes
    · rcases h.kept done c x hj with hj | ⟨rfl, hj⟩
      · exact ⟨x, _, hcomes.jump hQ hj, .inl ⟨rfl, by rw [h.code]⟩⟩
      · exact ⟨t, _, hcomes.jump hQ hj, .inr ⟨rfl, h.silent, rfl, rfl⟩⟩
    · obtain rfl := h.left done x hj
      exact ⟨x, _, hcomes, .inl ⟨rfl, by rw [h.code]⟩⟩
  meet := by
    rintro b j rest done c r hj (⟨rfl, rfl⟩ | ⟨rfl, hrest, rfl, rfl⟩) hcomes
    · exact ⟨_, _, hcomes⟩
    · have hsilent := hrest j List.mem_cons_self
      rw [hj] at hsilent
      cases hsilent

/-- The first program goes through the block. -/
theorem Bypasses.backward (h : Bypasses T P Q bb t) (hP : P.Sees T) :
    Shadows T Q P fun b rest c r => c = b ∧ r = rest where
  start := ⟨h.entry.symm, by rw [h.code, h.entry]⟩
  exec := by
    rintro b i rest done c r ⟨rfl, rfl⟩ hcomes
    exact ⟨_, _, hcomes.exec, rfl, rfl⟩
  jump := by
    rintro b x done c r hj ⟨rfl, rfl⟩ hcomes
    refine ⟨x, P.code x, ?_, rfl, by rw [h.code]⟩
    rcases h.moved done c x hj with hj | ⟨rfl, hj⟩
    · exact hcomes.jump hP hj
    · have hin := hcomes.jump hP hj
      rw [← List.append_nil (P.code bb)] at hin
      exact (hin.skip h.silent).jump hP (h.leave done)
  meet := by
    rintro b j rest done c r - ⟨rfl, rfl⟩ hcomes
    exact ⟨_, _, hcomes⟩

/-! ## A block that is joined to the one before -/

/-- The code of `bb` takes the place of the jump at the end of `p`, which goes nowhere else. -/
structure Absorbs (T : I → Bool) (P Q : Program B I) (p bb : B) (pre : List I) (last : I) : Prop where
  entry : Q.entry = P.entry
  ne : p ≠ bb
  start : P.entry ≠ bb
  above : P.code p = pre ++ [last]
  joined : Q.code p = pre ++ P.code bb
  code : ∀ b, b ≠ p → b ≠ bb → Q.code b = P.code b
  silent : T last = true
  leave : ∀ done x, P.jumps done p x ↔ x = bb
  into : ∀ done b, P.jumps done b bb → b = p
  fin : ∀ done x, Q.jumps done p x ↔ P.jumps done bb x
  other : ∀ done b x, b ≠ p → b ≠ bb → (Q.jumps done b x ↔ P.jumps done b x)

/-- The points of the two programs: in other blocks, in what is left of `p`, and in what was `bb`. -/
inductive JoinedAt (P : Program B I) (p bb : B) (last : I) : B → List I → B → List I → Prop
  | same {x r} (hp : x ≠ p) (hb : x ≠ bb) : JoinedAt P p bb last x r x r
  | above (s : List I) : JoinedAt P p bb last p (s ++ [last]) p (s ++ P.code bb)
  | between : JoinedAt P p bb last p [] p (P.code bb)
  | below (r : List I) : JoinedAt P p bb last bb r p r

namespace Absorbs

variable (h : Absorbs T P Q p bb pre last)
include h

theorem at_code {x : B} (hx : x ≠ bb) : JoinedAt P p bb last x (P.code x) x (Q.code x) := by
  by_cases hp : x = p
  · subst hp
    rw [h.above, h.joined]
    exact .above pre
  · rw [h.code x hp hx]
    exact .same hp hx

theorem forward (hQ : Q.Sees T) : Shadows T P Q (JoinedAt P p bb last) where
  start := by
    rw [h.entry]
    exact h.at_code h.start
  exec := by
    intro b i rest done c r hat hcomes
    generalize hrest : i :: rest = full at hat
    cases hat with
    | same hp hb =>
      subst hrest
      exact ⟨_, _, hcomes.exec, .same hp hb⟩
    | above s =>
      cases s with
      | nil =>
        obtain ⟨rfl, rfl⟩ := List.cons.inj hrest
        exact ⟨_, _, hcomes.congr (visible_cons_silent h.silent).symm, .between⟩
      | cons k s =>
        obtain ⟨rfl, rfl⟩ := List.cons.inj hrest
        exact ⟨_, _, hcomes.exec, .above s⟩
    | between => cases hrest
    | below =>
      subst hrest
      exact ⟨_, _, hcomes.exec, .below rest⟩
  jump := by
    intro b x done c r hj hat hcomes
    generalize hrest : ([] : List I) = full at hat
    cases hat with
    | same hp hb =>
      subst hrest
      have hx : x ≠ bb := fun hx => hp (h.into done b (hx ▸ hj))
      exact ⟨x, _, hcomes.jump hQ ((h.other done b x hp hb).2 hj), h.at_code hx⟩
    | above s => cases s <;> cases hrest
    | between =>
      obtain rfl := (h.leave done x).1 hj
      exact ⟨_, _, hcomes, .below _⟩
    | below =>
      subst hrest
      have hx : x ≠ bb := fun hx => h.ne (h.into done bb (hx ▸ hj)).symm
      exact ⟨x, _, hcomes.jump hQ ((h.fin done x).2 hj), h.at_code hx⟩
  meet := by
    intro b j rest done c r hj hat hcomes
    generalize hrest : j :: rest = full at hat
    cases hat with
    | same =>
      subst hrest
      exact ⟨_, _, hcomes⟩
    | above s =>
      cases s with
      | nil =>
        obtain ⟨rfl, -⟩ := List.cons.inj hrest
        rw [h.silent] at hj
        cases hj
      | cons k s =>
        obtain ⟨rfl, -⟩ := List.cons.inj hrest
        exact ⟨_, _, hcomes⟩
    | between => cases hrest
    | below =>
      subst hrest
      exact ⟨_, _, hcomes⟩

/-- The first program executes the jump before it goes on in `bb`. -/
theorem enter (hP : P.Sees T) (hcomes : P.Comes T done p [last]) : P.Comes T done bb (P.code bb) := by
  have hend : P.Comes T done p [] := hcomes.exec.congr (visible_cons_silent h.silent)
  exact hend.jump hP ((h.leave done bb).2 rfl)

theorem backward (hP : P.Sees T) : Shadows T Q P fun b rest c r => JoinedAt P p bb last c r b rest where
  start := by
    rw [h.entry]
    exact h.at_code h.start
  exec := by
    intro b i rest done c r hat hcomes
    generalize hrest : i :: rest = full at hat
    cases hat with
    | same hp hb =>
      subst hrest
      exact ⟨_, _, hcomes.exec, .same hp hb⟩
    | above s =>
      cases s with
      | nil =>
        have hin := h.enter hP hcomes
        rw [List.nil_append] at hrest
        rw [← hrest] at hin
        exact ⟨_, _, hin.exec, .below rest⟩
      | cons k s =>
        obtain ⟨rfl, rfl⟩ := List.cons.inj hrest
        exact ⟨_, _, hcomes.exec, .above s⟩
    | between =>
      have hin := hcomes.jump hP ((h.leave done bb).2 rfl)
      rw [← hrest] at hin
      exact ⟨_, _, hin.exec, .below rest⟩
    | below =>
      subst hrest
      exact ⟨_, _, hcomes.exec, .below rest⟩
  jump := by
    intro b x done c r hj hat hcomes
    generalize hrest : ([] : List I) = full at hat
    have hbelow : P.Comes T done bb [] → b = p →
        ∃ c' r', P.Comes T done c' r' ∧ JoinedAt P p bb last c' r' x (Q.code x) := by
      rintro hin rfl
      have hj' := (h.fin done x).1 hj
      have hx : x ≠ bb := fun hx => h.ne (h.into done bb (hx ▸ hj')).symm
      exact ⟨x, _, hin.jump hP hj', h.at_code hx⟩
    cases hat with
    | same hp hb =>
      subst hrest
      have hj' := (h.other done _ x hp hb).1 hj
      have hx : x ≠ bb := fun hx => hp (h.into done _ (hx ▸ hj'))
      exact ⟨x, _, hcomes.jump hP hj', h.at_code hx⟩
    | above s =>
      cases s with
      | nil =>
        have hin := h.enter hP hcomes
        rw [List.nil_append] at hrest
        rw [← hrest] at hin
        exact hbelow hin rfl
      | cons k s => cases hrest
    | between =>
      have hin := hcomes.jump hP ((h.leave done bb).2 rfl)
      rw [← hrest] at hin
      exact hbelow hin rfl
    | below =>
      subst hrest
      exact hbelow hcomes rfl
  meet := by
    intro b j rest done c r hj hat hcomes
    generalize hrest : j :: rest = full at hat
    cases hat with
    | same =>
      subst hrest
      exact ⟨_, _, hcomes⟩
    | above s =>
      cases s with
      | nil =>
        have hin := h.enter hP hcomes
        rw [List.nil_append] at hrest
        rw [← hrest] at hin
        exact ⟨_, _, hin⟩
      | cons k s =>
        obtain ⟨rfl, -⟩ := List.cons.inj hrest
        exact ⟨_, _, hcomes⟩
    | between =>
      have hin := hcomes.jump hP ((h.leave done bb).2 rfl)
      rw [← hrest] at hin
      exact ⟨_, _, hin⟩
    | below =>
      subst hrest
      exact ⟨_, _, hcomes⟩

end Absorbs

/-! ## A block that nothing goes to -/

/-- No jump goes to `bb`, which may have changed. -/
structure Forgets (P Q : Program B I) (bb : B) : Prop where
  entry : Q.entry = P.entry
  start : P.entry ≠ bb
  code : ∀ b, b ≠ bb → Q.code b = P.code b
  into : ∀ done b, ¬ P.jumps done b bb
  other : ∀ done b x, b ≠ bb → (Q.jumps done b x ↔ P.jumps done b x)

theorem Forgets.forward (h : Forgets P Q bb) (hQ : Q.Sees T) :
    Shadows T P Q fun b rest c r => b ≠ bb ∧ c = b ∧ r = rest where
  start := ⟨h.start, h.entry, by rw [h.entry, h.code _ h.start]⟩
  exec := by
    rintro b i rest done c r ⟨hb, rfl, rfl⟩ hcomes
    exact ⟨_, _, hcomes.exec, hb, rfl, rfl⟩
  jump := by
    rintro b x done c r hj ⟨hb, rfl, rfl⟩ hcomes
    have hx : x ≠ bb := fun hx => h.into done c (hx ▸ hj)
    exact ⟨x, _, hcomes.jump hQ ((h.other done c x hb).2 hj), hx, rfl, h.code x hx⟩
  meet := by
    rintro b j rest done c r - ⟨-, rfl, rfl⟩ hcomes
    exact ⟨_, _, hcomes⟩

theorem Forgets.backward (h : Forgets P Q bb) (hP : P.Sees T) :
    Shadows T Q P fun b rest c r => b ≠ bb ∧ c = b ∧ r = rest where
  start := ⟨h.entry ▸ h.start, h.entry.symm, by rw [h.entry, h.code _ h.start]⟩
  exec := by
    rintro b i rest done c r ⟨hb, rfl, rfl⟩ hcomes
    exact ⟨_, _, hcomes.exec, hb, rfl, rfl⟩
  jump := by
    rintro b x done c r hj ⟨hb, rfl, rfl⟩ hcomes
    have hj' := (h.other done c x hb).1 hj
    have hx : x ≠ bb := fun hx => h.into done c (hx ▸ hj')
    exact ⟨x, _, hcomes.jump hP hj', hx, rfl, (h.code x hx).symm⟩
  meet := by
    rintro b j rest done c r - ⟨-, rfl, rfl⟩ hcomes
    exact ⟨_, _, hcomes⟩

end

end ProgramPaths
