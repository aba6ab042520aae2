import Sparse.ProgramPaths

/-!
# Programs with an instruction moved up

Two blocks with one block above them have an instruction each. In another program the first of the two
stands at the end of the block above. It is then executed before all that either of the two preceded, and
after all that both of them came after.
-/

namespace ProgramPaths.Program

variable {B I : Type*} {P Q : Program B I} {b c b₁ b₂ : B} {i j k d i₁ i₂ : I} {rest done : List I}

theorem Precedes.trans (hij : P.Precedes i j) (hjk : P.Precedes j k) : P.Precedes i k := by
  intro b rest done hr
  obtain ⟨l, h, rfl⟩ := List.append_of_mem (hjk b rest done hr)
  obtain ⟨c, s, hc, -⟩ := hr.split
  exact List.mem_append_right l (List.mem_cons_of_mem j (hij c s h hc))

/-- An instruction that precedes itself is never reached. -/
theorem Precedes.not_self (h : P.Precedes i i) : ¬ P.Reached b (i :: rest) done := h.asymm h

/-- A path at the end of a block has just executed its last instruction. -/
theorem Reached.last (hr : P.Reached b [] done) {pre : List I} (hcode : P.code b = pre ++ [i]) :
    ∃ done', done = i :: done' ∧ P.Reached b [i] done' := by
  obtain ⟨pre', done₀, hcode', rfl, he⟩ := hr.entered
  rw [List.append_nil] at hcode'
  refine ⟨pre.reverse ++ done₀, ?_, he.reached hcode⟩
  rw [← hcode', hcode]
  simp

variable [DecidableEq I]

/-- Where only one instruction has other places, the others precede each other as before. -/
theorem Precedes.of_filter (hentry : Q.entry = P.entry) (hfree : P.Free) (hjumps : Q.jumps = P.jumps)
    (hcode : ∀ b, (Q.code b).filter (· ≠ i) = (P.code b).filter (· ≠ i)) (hd : d ≠ i) (hj : j ≠ i)
    (h : P.Precedes d j) : Q.Precedes d j := by
  intro b rest done hr
  obtain ⟨rest', done', hr', hrest, hdone⟩ :=
    hr.filter hentry hfree (fun done b c hjump => by rwa [hjumps] at hjump) hcode
  rw [List.filter_cons_of_pos (by simpa using hj), List.filter_eq_cons_iff] at hrest
  obtain ⟨l₁, l₂, rfl, hl₁, -, -⟩ := hrest
  have hmem : d ∈ (l₁.reverse ++ done').filter (· ≠ i) :=
    List.mem_filter.2 ⟨h b l₂ _ (hr'.trans (.block l₁)), by simpa using hd⟩
  rw [List.filter_append, List.filter_eq_nil_iff.2 fun x hx => hl₁ x (List.mem_reverse.1 hx), List.nil_append,
    hdone] at hmem
  exact (List.mem_filter.1 hmem).1

/-- `Q` is `P` with `i₁` moved out of `b₁` to the end of `c`, in front of the last instruction there.
Nothing but `c` comes before `b₁` and before `b₂`, where `i₂` stands. -/
structure Hoists (P Q : Program B I) (c b₁ b₂ : B) (i₁ i₂ last : I) : Prop where
  entry : Q.entry = P.entry
  jumps : Q.jumps = P.jumps
  free : P.Free
  placed : P.Placed
  code : ∀ b, (Q.code b).filter (· ≠ i₁) = (P.code b).filter (· ≠ i₁)
  moved : ∃ pre, P.code c = pre ++ [last] ∧ Q.code c = pre ++ [i₁, last]
  gone : ∀ b, b ≠ c → i₁ ∉ Q.code b
  stands₁ : i₁ ∈ P.code b₁
  stands₂ : i₂ ∈ P.code b₂
  only₁ : ∀ done b, P.jumps done b b₁ → b = c
  only₂ : ∀ done b, P.jumps done b b₂ → b = c
  into₁ : ∀ done, P.jumps done c b₁
  into₂ : ∀ done, P.jumps done c b₂
  entry₁ : P.entry ≠ b₁
  entry₂ : P.entry ≠ b₂
  apart : b₁ ≠ b₂
  above : c ≠ b₁

namespace Hoists

variable {last : I} (h : Hoists P Q c b₁ b₂ i₁ i₂ last)
include h

theorem code_eq (hb : b ≠ b₁) : (Q.code b).filter (· ≠ i₁) = P.code b := by
  rw [h.code, List.filter_eq_self]
  intro i hi
  refine decide_eq_true fun heq => hb ?_
  exact h.placed.apart b b₁ i hi (heq ▸ h.stands₁)

/-- A path that has not executed the moved instruction is a path of before, and has not come to the two
blocks. -/
theorem reached_before (hr : Q.Reached b rest done) (hi : i₁ ∉ done) :
    P.Reached b (rest.filter (· ≠ i₁)) done ∧ i₂ ∉ done ∧ b ≠ b₁ ∧ b ≠ b₂ := by
  induction hr with
  | refl =>
    rw [h.entry, h.code_eq h.entry₁]
    exact ⟨.refl, List.not_mem_nil, h.entry₁, h.entry₂⟩
  | @exec b i rest done hgo ih =>
    rw [List.mem_cons, not_or] at hi
    obtain ⟨hr, h₂, hb₁, hb₂⟩ := ih hi.2
    rw [List.filter_cons_of_pos (by simpa using Ne.symm hi.1)] at hr
    refine ⟨hr.exec, ?_, hb₁, hb₂⟩
    rw [List.mem_cons, not_or]
    refine ⟨fun heq => hb₂ ?_, h₂⟩
    exact h.placed.apart b b₂ i (hr.mem_code List.mem_cons_self) (heq ▸ h.stands₂)
  | @jump b b' done hgo hj ih =>
    obtain ⟨hr, h₂, -, -⟩ := ih hi
    have hb : b ≠ c := by
      rintro rfl
      obtain ⟨pre, done₀, hcode, rfl, -⟩ := Reached.entered hgo
      obtain ⟨pre', -, hpre⟩ := h.moved
      rw [List.append_nil, hpre] at hcode
      exact hi (by simp [← hcode])
    rw [h.jumps] at hj
    have hb₁ : b' ≠ b₁ := fun heq => hb (h.only₁ done b (heq ▸ hj))
    have hb₂ : b' ≠ b₂ := fun heq => hb (h.only₂ done b (heq ▸ hj))
    rw [h.code_eq hb₁]
    exact ⟨hr.jump hj, h₂, hb₁, hb₂⟩

/-- What either of the two preceded comes after the moved one. -/
theorem precedes_reader (hj : j ≠ i₁) (hp : P.Precedes i₁ j ∨ P.Precedes i₂ j) : Q.Precedes i₁ j := by
  intro b rest done hr
  by_contra hi
  obtain ⟨hr', h₂, -⟩ := h.reached_before hr hi
  rw [List.filter_cons_of_pos (by simpa using hj)] at hr'
  rcases hp with hp | hp
  · exact hi (hp b _ done hr')
  · exact h₂ (hp b _ done hr')

/-- A path to the moved instruction comes from a path to the end of its block. -/
theorem reached_end (hr : Q.Reached b (i₁ :: rest) done) :
    ∃ done', P.Reached c [last] done' ∧ ∀ d ∈ done', d ≠ i₁ → d ∈ done := by
  obtain rfl : b = c := by
    by_contra hb
    exact h.gone b hb (hr.mem_code List.mem_cons_self)
  obtain ⟨pre, hP, hQ⟩ := h.moved
  have hnot : i₁ ∉ P.code b := fun hi => h.above (h.placed.apart b b₁ i₁ hi h.stands₁)
  rw [hP, List.mem_append, List.mem_singleton, not_or] at hnot
  obtain ⟨pre₁, done₀, hcode, -, -⟩ := hr.entered
  rw [hQ, List.append_cons_inj_of_notMem hnot.1 (by simpa using hnot.2)] at hcode
  obtain ⟨rest', done', hr', hrest, hdone⟩ :=
    hr.filter h.entry h.free (fun done b c hjump => by rwa [h.jumps] at hjump) h.code
  have hrest' : rest'.filter (· ≠ i₁) = rest' := List.filter_eq_self.2 fun i hi => decide_eq_true fun heq => by
    have hmem := hr'.mem_code hi
    rw [hP, List.mem_append, List.mem_singleton, heq] at hmem
    exact hmem.elim hnot.1 hnot.2
  rw [hrest', ← hcode.2.2, List.filter_cons_of_neg (by simp), List.filter_cons_of_pos (by simpa using Ne.symm hnot.2),
    List.filter_nil] at hrest
  refine ⟨done', hrest ▸ hr', fun d hd hne => ?_⟩
  have hmem : d ∈ done'.filter (· ≠ i₁) := List.mem_filter.2 ⟨hd, decide_eq_true hne⟩
  rw [hdone] at hmem
  exact (List.mem_filter.1 hmem).1

/-- What both come after precedes the moved one, which stands for both. -/
theorem precedes_moved (hd : d ≠ last) (hp₁ : P.Precedes d i₁) (hp₂ : P.Precedes d i₂) :
    Q.Precedes (if d = i₂ then i₁ else d) i₁ := by
  intro b rest done hr
  obtain ⟨done', hend, hdone⟩ := h.reached_end hr
  obtain ⟨u₁, v₁, hu₁⟩ := List.append_of_mem h.stands₁
  obtain ⟨u₂, v₂, hu₂⟩ := List.append_of_mem h.stands₂
  have hr₁ : P.Reached b₁ (i₁ :: v₁) (u₁.reverse ++ last :: done') :=
    Entered.reached (.inr ⟨c, hend.exec, h.into₁ _⟩) hu₁
  have hr₂ : P.Reached b₂ (i₂ :: v₂) (u₂.reverse ++ last :: done') :=
    Entered.reached (.inr ⟨c, hend.exec, h.into₂ _⟩) hu₂
  have hne₁ : d ≠ i₁ := by
    rintro rfl
    exact hp₁.not_self hr₁
  have hne₂ : d ≠ i₂ := by
    rintro rfl
    exact hp₂.not_self hr₂
  rw [if_neg hne₂]
  have hmem₁ := hp₁ b₁ v₁ _ hr₁
  have hmem₂ := hp₂ b₂ v₂ _ hr₂
  rw [List.mem_append, List.mem_reverse, List.mem_cons] at hmem₁ hmem₂
  rcases hmem₁ with hu | rfl | hmem
  · rcases hmem₂ with hu' | rfl | hmem
    · refine absurd (h.placed.apart b₁ b₂ d ?_ ?_) h.apart
      · rw [hu₁]
        exact List.mem_append_left _ hu
      · rw [hu₂]
        exact List.mem_append_left _ hu'
    · exact absurd rfl hd
    · exact hdone d hmem hne₁
  · exact absurd rfl hd
  · exact hdone d hmem hne₁

end Hoists

end ProgramPaths.Program
