import Sparse.IncludeGuards

/-!
# Skipping a constant file

When every token that an argument takes from a file finds the stream dirty, a
file that is marked constant has all its contents under its guard, and reading
it again where the guard is defined changes nothing. Among the arguments of a
macro the `STREAMBEGIN` of the file ends the argument, so there skipping shows.
-/

namespace Sparse.Preprocess
open ConditionalGroups

variable {M : Type} {env : Environment M}

/-! ## The first reading -/

/-- The next step marks the stream whose contents it takes: an argument takes
tokens only of dirty streams, the line it handles is one of the stream it handles
it for, and the `#` of the line is one of the file. -/
structure Marks (st : State M) : Prop where
  line : ∀ {t tail}, st.input = t :: tail → t.startsLine = true → t.expanded = false
  own : ∀ {t tail name s}, st.input = t :: tail → t.startsLine = true →
    st.mode = .collecting name s → t.stream = s
  taken : ∀ {t tail name}, st.input = t :: tail → t.expanded = false → t.isMarker = false →
    t.startsLine = false →
    (st.mode = .expanding name ∧ t.kind = .special "(" ∨ ∃ s, st.mode = .collecting name s) →
    (st.streams t.stream).dirty = true

/-- The input after the front of nested files and expansions is what is left of
the file; the stream agrees with the contents before. -/
def Reading (n : ℕ) (body rest : List Token) (st : State M) : Prop :=
  ∃ ns front left pre, st.input = front ++ (left ++ streamEnd n :: rest) ∧ Layout ns front ∧
    n ∉ ns ∧ FileBody n left ∧ items body = pre ++ items left ∧ Guarding pre (st.streams n)

variable {n : ℕ} {body rest : List Token} {st st' : State M}

theorem Layout.eq_nil {ns : List ℕ} (h : Layout ns []) : ns = [] := by
  cases h
  rfl

/-- The token at the head of the input is one of the front, one of the file, or its end. -/
theorem Reading.head (h : Reading n body rest st) {t : Token} {tail : List Token}
    (hin : st.input = t :: tail) :
    (∃ ns front left pre, tail = front ++ (left ++ streamEnd n :: rest) ∧ Layout ns (t :: front) ∧
        n ∉ ns ∧ FileBody n left ∧ items body = pre ++ items left ∧
        Guarding pre (st.streams n)) ∨
      (∃ left pre, tail = left ++ streamEnd n :: rest ∧ FileBody n (t :: left) ∧
        items body = pre ++ items (t :: left) ∧ Guarding pre (st.streams n)) ∨
      t = streamEnd n := by
  obtain ⟨ns, front, left, pre, hinput, hl, hn, hbody, hitems, hg⟩ := h
  rw [hin] at hinput
  cases front with
  | cons u front =>
    obtain ⟨rfl, htail⟩ := List.cons.inj hinput
    exact Or.inl ⟨ns, front, left, pre, htail, hl, hn, hbody, hitems, hg⟩
  | nil =>
    cases left with
    | cons u left =>
      obtain ⟨rfl, htail⟩ := List.cons.inj hinput
      exact Or.inr (Or.inl ⟨left, pre, htail, hbody, hitems, hg⟩)
    | nil => exact Or.inr (Or.inr (List.cons.inj hinput).1)

theorem FileBody.tail {t : Token} {left : List Token} (h : FileBody n (t :: left)) :
    FileBody n left := fun u hu => h u (List.mem_cons_of_mem _ hu)

/-- A token that is neither a marker nor the start of a line. -/
theorem Reading.token (h : Reading n body rest st) {t : Token} {tail : List Token}
    (hin : st.input = t :: tail) (hline : t.startsLine = false) (hmark : t.isMarker = false)
    (hin' : st'.input = tail)
    (hstream : st'.streams n = st.streams n ∨ st'.streams n = (st.streams n).dirtyStream)
    (hown : t.expanded = false → t.stream = n → st'.streams n = (st.streams n).dirtyStream) :
    Reading n body rest st' := by
  have hend : t.kind ≠ .streamEnd := by
    intro hk
    simp [Token.isMarker, hk] at hmark
  rcases h.head hin with ⟨ns, front, left, pre, htail, hl, hn, hbody, hitems, hg⟩ |
    ⟨left, pre, htail, hbody, hitems, hg⟩ | rfl
  · refine ⟨ns, front, left, pre, hin'.trans htail, hl.tail hend, hn, hbody, hitems, ?_⟩
    rcases hstream with hs | hs
    · rw [hs]
      exact hg
    · rw [hs]
      exact hg.dirtyStream
  · obtain ⟨hs, hexp, -⟩ := hbody t List.mem_cons_self
    refine ⟨[], [], left, pre ++ [.content], hin'.trans htail, .nil, by simp, hbody.tail, ?_, ?_⟩
    · rw [hitems, items_token hline, List.append_assoc]
      rfl
    · rw [hown hexp hs]
      exact hg.dirty_content
  · exact absurd rfl hend

/-- A marker that is not the end of the file. -/
theorem Reading.marker (h : Reading n body rest st) {t : Token} {tail : List Token}
    (hin : st.input = t :: tail) (hmark : t.kind = .streamBegin ∨ t.kind = .streamEnd)
    (hne : t ≠ streamEnd n) (hin' : st'.input = tail)
    (hstream : ∀ f, f ≠ t.stream → st'.streams f = st.streams f)
    (hbegin : t.kind = .streamBegin → st'.streams n = st.streams n) :
    Reading n body rest st' := by
  rcases h.head hin with ⟨ns, front, left, pre, htail, hl, hn, hbody, hitems, hg⟩ |
    ⟨left, pre, htail, hbody, hitems, hg⟩ | rfl
  · rcases hmark with hk | hk
    · refine ⟨ns, front, left, pre, hin'.trans htail, hl.tail (by simp [hk]), hn, hbody, hitems, ?_⟩
      rw [hbegin hk]
      exact hg
    · obtain ⟨ns', rfl, -, hl'⟩ := hl.of_end hk
      rw [List.mem_cons, not_or] at hn
      refine ⟨ns', front, left, pre, hin'.trans htail, hl', hn.2, hbody, hitems, ?_⟩
      rw [hstream n hn.1]
      exact hg
  · have hplain := (hbody t List.mem_cons_self).2.2
    rcases hmark with hk | hk <;> simp [Token.isMarker, hk] at hplain
  · exact absurd rfl hne

/-- A step that leaves the file and its stream alone. -/
theorem Reading.append (h : Reading n body rest st) {ts : List Token}
    (hts : ∀ t ∈ ts, t.expanded = true ∧ t.isMarker = false) (hin : st'.input = ts ++ st.input)
    (hstream : st'.streams n = st.streams n) : Reading n body rest st' := by
  obtain ⟨ns, front, left, pre, hinput, hl, hn, hbody, hitems, hg⟩ := h
  refine ⟨ns, ts ++ front, left, pre, ?_, hl.expanded_append hts, hn, hbody, hitems, ?_⟩
  · rw [hin, hinput, List.append_assoc]
  · rw [hstream]
    exact hg

/-- What a live directive inserts goes in front. -/
theorem Reading.insertion {ns : List ℕ} {front inserted : List Token}
    (hl : Layout ns front) (hn : n ∉ ns) (hins : Insertion st inserted)
    (hmem : ∀ m ∈ n :: ns, streamEnd m ∈ st.input) :
    ∃ ns', Layout ns' (inserted ++ front) ∧ n ∉ ns' := by
  cases hins with
  | none => exact ⟨ns, hl, hn⟩
  | pragma hts => exact ⟨ns, hl.expanded_append fun t ht => ⟨(hts t ht).1, (hts t ht).2.1⟩, hn⟩
  | @«include» m file hfile hstream hfresh =>
    have hne : ∀ k ∈ n :: ns, k ≠ m := fun k hk => hfresh _ (hmem k hk)
    refine ⟨m :: ns, hl.file_append (fun hm => hne m (List.mem_cons_of_mem _ hm) rfl) hfile, ?_⟩
    rw [List.mem_cons, not_or]
    exact ⟨hne n List.mem_cons_self, hn⟩

theorem Layout.streamEnd_mem_append {ns : List ℕ} {front : List Token} (hl : Layout ns front)
    (us : List Token) : ∀ m ∈ n :: ns, streamEnd m ∈ front ++ (us ++ streamEnd n :: rest) := by
  intro m hm
  rcases List.mem_cons.1 hm with rfl | hm
  · simp
  · exact List.mem_append_left _ (hl.streamEnd_mem hm)

/-- A line that is handled for its own stream. -/
theorem Reading.line (h : Reading n body rest st) {t : Token} {tail : List Token} {e : Event}
    (hin : st.input = t :: tail) (hline : t.startsLine = true) (hexp : t.expanded = false)
    (hstep : LineStep env t.stream t.stream (splitLine tail).1 (splitLine tail).2 st e st') :
    Reading n body rest st' := by
  have hend : t.kind ≠ .streamEnd := by
    intro hk
    simp [Token.startsLine, hk] at hline
  rcases h.head hin with ⟨ns, front, left, pre, htail, hl, hn, hbody, hitems, hg⟩ |
    ⟨left, pre, htail, hbody, hitems, hg⟩ | rfl
  · -- A line of a nested file ends before that file does.
    obtain ⟨ns', rfl⟩ := hl.stream_eq hexp
    have hl' := hl.tail hend
    rw [List.mem_cons, not_or] at hn
    have hsplit : (splitLine tail).2 = (splitLine front).2 ++ (left ++ streamEnd n :: rest) := by
      rw [htail, splitLine_append ⟨_, hl'.streamEnd_mem List.mem_cons_self, rfl⟩]
    have hother : ∀ s, Guarding pre (Function.update st.streams t.stream s n) := by
      intro s
      rw [Function.update_of_ne hn.1]
      exact hg
    have hnot : n ∉ t.stream :: ns' := by
      rw [List.mem_cons, not_or]
      exact hn
    cases hstep with
    | null hd =>
      exact ⟨_, _, left, pre, hsplit, hl'.splitLine, hnot, hbody, hitems, hg⟩
    | conditional hd hc =>
      exact ⟨_, _, left, pre, hsplit, hl'.splitLine, hnot, hbody, hitems, hother _⟩
    | dead hd hfn =>
      exact ⟨_, _, left, pre, hsplit, hl'.splitLine, hnot, hbody, hitems, hother _⟩
    | @live macros inserted hd hfn hins =>
      have hmem : ∀ m ∈ n :: t.stream :: ns', streamEnd m ∈ st.input := by
        rw [hin, htail, ← List.cons_append]
        exact hl.streamEnd_mem_append left
      obtain ⟨ns, hins', hn'⟩ := Reading.insertion hl'.splitLine hnot hins hmem
      refine ⟨ns, _, left, pre, ?_, hins', hn', hbody, hitems, hother _⟩
      rw [hsplit, List.append_assoc]
  · -- A line of the file.
    obtain ⟨hs, -, -⟩ := hbody t List.mem_cons_self
    have hsplit := splitLine_end left n rest
    rw [← htail] at hsplit
    have hbody' : FileBody n (splitLine left).2 := by
      intro u hu
      rw [splitLine_eq] at hu
      exact hbody.tail u ((List.dropWhile_suffix _).subset hu)
    have hinput : (splitLine tail).2 = [] ++ ((splitLine left).2 ++ streamEnd n :: rest) := by
      rw [hsplit]
      rfl
    rw [items_line hline] at hitems
    have hitems' : ∀ d, directiveOf (splitLine tail).1 = d →
        items body = (pre ++ [d.item]) ++ items (splitLine left).2 := by
      intro d hd
      rw [hitems, ← hd, hsplit, List.append_assoc]
      rfl
    have hself : ∀ {its s}, Guarding its s → Guarding its (Function.update st.streams n s n) := by
      intro its s hs
      rw [Function.update_self]
      exact hs
    rw [hs] at hstep
    cases hstep with
    | null hd => exact ⟨[], [], _, _, hinput, .nil, by simp, hbody', hitems' _ hd, hg.blank⟩
    | @conditional d c hd hc =>
      exact ⟨[], [], _, _, hinput, .nil, by simp, hbody', hitems' d hd,
        hself (hg.handle hc st.falseNesting)⟩
    | dead hd hfn =>
      exact ⟨[], [], _, _, hinput, .nil, by simp, hbody', hitems' _ hd, hself hg.dirty_content⟩
    | @live macros inserted hd hfn hins =>
      have hmem : ∀ m ∈ [n], streamEnd m ∈ st.input := by
        intro m hm
        rw [List.mem_singleton.1 hm, hin, htail]
        simp
      obtain ⟨ns, hins', hn'⟩ := Reading.insertion .nil (by simp) hins hmem
      refine ⟨ns, _, _, _, ?_, hins', hn', hbody', hitems' _ hd, hself hg.dirty_content⟩
      rw [hinput, List.append_nil]
      rfl
  · exact absurd rfl hend

theorem dirtyStream_of_dirty {s : Stream} (h : s.dirty = true) : s.dirtyStream = s := by
  rw [Stream.dirtyStream, if_pos h]

theorem update_dirty_or (streams : ℕ → Stream) (s : ℕ) :
    Function.update streams s (streams s).dirtyStream n = streams n ∨
      Function.update streams s (streams s).dirtyStream n = (streams n).dirtyStream := by
  rcases eq_or_ne n s with rfl | h
  · exact Or.inr (Function.update_self ..)
  · exact Or.inl (Function.update_of_ne h ..)

/-- One step of the loops before the end of the file. -/
theorem Reading.step (h : Reading n body rest st) (hmarks : Marks st) {e : Event}
    (hstep : Step env st e st') (hend : e ≠ .streamEnd n) : Reading n body rest st' := by
  have hident : ∀ {t : Token} {name : String}, t.kind = .ident name →
      t.startsLine = false ∧ t.isMarker = false := by
    intro t name hk
    simp [Token.startsLine, Token.isMarker, hk]
  have hspecial : ∀ {t : Token} {op : String}, t.kind = .special op → t.isMarker = false := by
    intro t op hk
    simp [Token.isMarker, hk]
  have htaken : ∀ {t tail name}, st.input = t :: tail → t.isMarker = false →
      t.startsLine = false → (st.mode = .expanding name ∧ t.kind = .special "(" ∨
        ∃ s, st.mode = .collecting name s) →
      t.expanded = false → t.stream = n → st.streams n = (st.streams n).dirtyStream := by
    rintro t tail name hin hmark hline hmode hexp rfl
    exact (dirtyStream_of_dirty (hmarks.taken hin hexp hmark hline hmode)).symm
  have hplain : ∀ {t : Token}, t.stream = n →
      Function.update st.streams t.stream (st.streams t.stream).dirtyStream n =
        (st.streams n).dirtyStream := by
    rintro t rfl
    exact Function.update_self ..
  cases hstep with
  | scanLine hmode hin hline hstep => exact h.line hin hline (hmarks.line hin hline) hstep
  | collectLine hmode hin hline hstep =>
    rw [← hmarks.own hin hline hmode] at hstep
    exact h.line hin hline (hmarks.line hin hline) hstep
  | @scanEnd t tail hmode hin hkind =>
    refine h.marker hin (Or.inr hkind) ?_ rfl (fun f hf => ?_) (by simp [hkind])
    · rintro rfl
      exact hend rfl
    · exact Function.update_of_ne hf ..
  | @collectEnd name t s tail hmode hin hkind =>
    refine h.marker hin (Or.inr hkind) ?_ rfl (fun f hf => rfl) (by simp [hkind])
    rintro rfl
    exact hend rfl
  | scanBegin hmode hin hkind =>
    refine h.marker hin (Or.inl hkind) ?_ rfl (fun f hf => rfl) (fun _ => rfl)
    rintro rfl
    simp [streamEnd] at hkind
  | collectBegin hmode hin hkind =>
    refine h.marker hin (Or.inl hkind) ?_ rfl (fun f hf => rfl) (fun _ => rfl)
    rintro rfl
    simp [streamEnd] at hkind
  | @scanDead t tail hmode hin hline hkind hfn =>
    exact h.token hin hline hkind rfl (update_dirty_or st.streams t.stream) fun _ hs => hplain hs
  | @scanKeep t tail hmode hin hline hkind hfn =>
    exact h.token hin hline hkind rfl (update_dirty_or st.streams t.stream) fun _ hs => hplain hs
  | @scanExpand t tail name hmode hin hkind hfn =>
    obtain ⟨hline, hmark⟩ := hident hkind
    exact h.token hin hline hmark rfl (update_dirty_or st.streams t.stream) fun _ hs => hplain hs
  | @call name t tail hmode hin hkind hfn =>
    have hline : t.startsLine = false := by simp [Token.startsLine, hkind]
    exact h.token hin hline (hspecial hkind) rfl (Or.inl rfl)
      (htaken hin (hspecial hkind) hline (Or.inl ⟨hmode, hkind⟩))
  | collectDead hmode hin hline hkind hfn =>
    exact h.token hin hline hkind rfl (Or.inl rfl) (htaken hin hkind hline (Or.inr ⟨_, hmode⟩))
  | collectTake hmode hin hline hkind hfn =>
    exact h.token hin hline hkind rfl (Or.inl rfl) (htaken hin hkind hline (Or.inr ⟨_, hmode⟩))
  | @collectStop name t s tail hmode hin hkind hfn =>
    have hplain : t.startsLine = false ∧ t.isMarker = false := by
      rcases hkind with hk | hk <;> simp [Token.startsLine, Token.isMarker, hk]
    exact h.token hin hplain.1 hplain.2 rfl (Or.inl rfl)
      (htaken hin hplain.2 hplain.1 (Or.inr ⟨_, hmode⟩))
  | collectEof hmode hin => exact h.append (List.forall_mem_nil _) rfl rfl
  | nextArgument hmode => exact h.append (List.forall_mem_nil _) rfl rfl
  | expanded hmode hts => exact h.append hts rfl rfl
  | notExpanded hmode => exact h.append (List.forall_mem_nil _) rfl rfl

/-- The file is about to be read, after its `STREAMBEGIN`. -/
structure Opens (st : State M) (n : ℕ) (body rest : List Token) : Prop where
  input : st.input = body ++ streamEnd n :: rest
  stream : st.streams n = Stream.initial
  file : FileBody n body

theorem Opens.reading (h : Opens st n body rest) : Reading n body rest st := by
  refine ⟨[], [], body, [], h.input, .nil, by simp, h.file, rfl, ?_⟩
  rw [h.stream]
  exact .start

theorem Reading.run {start : State M} (h : Reading n body rest start) {trace : List Event}
    (hrun : Run env Marks start trace st) (hend : .streamEnd n ∉ trace) :
    Reading n body rest st := by
  induction hrun with
  | nil => exact h
  | step hrun hok hstep ih =>
    rw [List.mem_append, not_or] at hend
    refine (ih hend.1).step hok hstep fun he => hend.2 ?_
    rw [he]
    exact List.mem_singleton_self _

/-- At its end the whole file has been read. -/
theorem Reading.at_end (h : Reading n body rest st) {t : Token} {tail : List Token}
    (hin : st.input = t :: tail) (hkind : t.kind = .streamEnd) (hs : t.stream = n) :
    Guarding (items body) (st.streams n) := by
  obtain ⟨ns, front, left, pre, hinput, hl, hn, hbody, hitems, hg⟩ := h
  rw [hin] at hinput
  cases front with
  | cons u front =>
    obtain ⟨rfl, -⟩ := List.cons.inj hinput
    obtain ⟨ns', rfl, -, -⟩ := hl.of_end hkind
    exact absurd (hs ▸ List.mem_cons_self) hn
  | nil =>
    cases left with
    | cons u left =>
      obtain ⟨rfl, -⟩ := List.cons.inj hinput
      have hplain := (hbody t List.mem_cons_self).2.2
      simp [Token.isMarker, hkind] at hplain
    | nil =>
      rw [items_nil, List.append_nil] at hitems
      rw [hitems]
      exact hg

/-- The contents of a file that is marked constant are covered by its guard. -/
theorem Reading.covered (h : Reading n body rest st) (hstep : Step env st (.streamEnd n) st')
    (hconstant : (st'.streams n).constant = true) :
    (Frames.initial.run (items body)).open_ = [] ∧
      Covered (st'.streams n).protect .initial (items body) := by
  cases hstep with
  | scanLine hmode hin hline hstep => cases hstep
  | collectLine hmode hin hline hstep => cases hstep
  | collectEnd hmode hin hkind =>
    have hg := h.at_end hin hkind rfl
    rw [hg.constant] at hconstant
    exact Bool.noConfusion hconstant
  | @scanEnd t tail hmode hin hkind =>
    have hg := h.at_end hin hkind rfl
    simp only [endStream, Function.update_self] at hconstant ⊢
    cases htop : (st.streams t.stream).topIf with
    | cons top below =>
      simp [htop, Stream.nestingError, hg.constant] at hconstant
    | nil =>
      cases hd : (st.streams t.stream).dirty with
      | true => simp [htop, hd, hg.constant] at hconstant
      | false => simpa [htop, hd] using hg.covered hd htop

/-! ## Another reading -/

/-- A group of the second reading: the first branch of a guard that is defined is
not selected. -/
def Answers (env : Environment M) (macros : M) (n : ℕ) (f : Frame) (g : Group) : Prop :=
  g.file = n ∧ ∀ name, f.guard = some name → env.defined macros name = true → g.selected = false

/-- Nothing but the stream of the file and the counter differs. -/
structure Unaffected (n : ℕ) (st st' : State M) : Prop where
  macros : st'.macros = st.macros
  output : st'.output = st.output
  mode : st'.mode = st.mode
  streams : ∀ f, f ≠ n → st'.streams f = st.streams f

/-- The second reading of the file has come to `left`. -/
structure Rereading (env : Environment M) (body : List Token) (n : ℕ) (rest : List Token)
    (start st : State M) (left : List Token) (pre : List Item) (o : Open) : Prop where
  input : st.input = inStream n left ++ streamEnd n :: rest
  suffix : left <:+ body
  contents : items body = pre ++ items left
  encodes : Encodes n (st.streams n) st.falseNesting o
  answers : List.Forall₂ (Answers env start.macros n) (Frames.initial.run pre).open_ o.stack
  unaffected : Unaffected n start st

variable {start : State M} {left : List Token} {pre : List Item} {o : Open}

theorem exists_answer {macros : M} {fs : List Frame} {gs : List Group} {f : Frame}
    (h : List.Forall₂ (Answers env macros n) fs gs) (hf : f ∈ fs) :
    ∃ g ∈ gs, Answers env macros n f g := by
  induction h with
  | nil => simp at hf
  | cons hg _ ih =>
    rcases List.mem_cons.1 hf with rfl | hf
    · exact ⟨_, List.mem_cons_self, hg⟩
    · obtain ⟨g, hmem, hans⟩ := ih hf
      exact ⟨g, List.mem_cons_of_mem _ hmem, hans⟩

theorem answers_unguard {macros : M} {fs : List Frame} {gs : List Group}
    (h : List.Forall₂ (Answers env macros n) fs gs) (b : Branch) :
    List.Forall₂ (Answers env macros n) (Frames.unguard fs) (Open.branch n b gs) := by
  cases h with
  | nil => exact .nil
  | cons hg hrest =>
    rw [Open.branch, if_pos hg.1]
    exact .cons ⟨hg.1, fun name hname => by simp at hname⟩ hrest

theorem answers_pop {macros : M} {fs : List Frame} {gs : List Group}
    (h : List.Forall₂ (Answers env macros n) fs gs) :
    List.Forall₂ (Answers env macros n) fs.tail (Open.pop n gs) := by
  cases h with
  | nil => exact .nil
  | cons hg hrest =>
    rw [Open.pop, if_pos hg.1]
    exact hrest

/-- The groups after a conditional line of the second reading. -/
theorem answers_directive {macros : M} {f : Frames} {d : Directive} {c : Conditional}
    (h : List.Forall₂ (Answers env macros n) f.open_ o.stack)
    (hc : conditionalOf env macros d = some c) :
    List.Forall₂ (Answers env macros n) (f.advance d.item).open_ (o.directive n c).stack := by
  have hopening : ∀ v, List.Forall₂ (Answers env macros n) (f.push none).open_
      (o.directive n (.opening v)).stack := fun v =>
    .cons ⟨rfl, fun name hname => by simp at hname⟩ h
  cases d with
  | ifdef args =>
    obtain rfl := Option.some.inj hc
    exact hopening _
  | ifndef args =>
    obtain rfl := Option.some.inj hc
    refine .cons ⟨rfl, fun name hname hdefined => ?_⟩ h
    simp only at hname
    simp [hname, hdefined, Group.selected, Branch.accepts]
  | if_ expr =>
    obtain rfl := Option.some.inj hc
    exact hopening _
  | elif expr =>
    obtain rfl := Option.some.inj hc
    exact answers_unguard h _
  | else_ =>
    obtain rfl := Option.some.inj hc
    exact answers_unguard h _
  | endif =>
    obtain rfl := Option.some.inj hc
    exact answers_pop h
  | null => simp [conditionalOf] at hc
  | normal => simp [conditionalOf] at hc

theorem answers_file {macros : M} {fs : List Frame} {gs : List Group}
    (h : List.Forall₂ (Answers env macros n) fs gs) : ∀ g ∈ gs, g.file = n := by
  induction h with
  | nil => simp
  | cons hg _ ih => exact List.forall_mem_cons.2 ⟨hg.1, ih⟩

theorem Rereading.onTop (h : Rereading env body n rest start st left pre o) : OnTop n o.stack :=
  Or.inl fun g hg => answers_file h.answers g (List.mem_of_mem_head? hg)

/-- Contents of the file are dead. -/
theorem Rereading.dead {protect : Option String} (h : Rereading env body n rest start st left pre o)
    (hcov : Covered protect .initial (items body))
    (hdefined : ∀ name ∈ protect, env.defined start.macros name = true) {its : List Item}
    (hitems : items left = .content :: its) : st.falseNesting ≠ 0 := by
  rw [h.contents, hitems] at hcov
  obtain ⟨name, hname, k, hk⟩ := hcov.drop.1 rfl
  obtain ⟨g, hg, -, hans⟩ := exists_answer h.answers hk
  rw [h.encodes.count, Ne, deadCount_eq_zero_iff]
  intro hlive
  have hselected := hlive g hg
  rw [hans name rfl (hdefined name hname)] at hselected
  exact Bool.noConfusion hselected

/-- A line of the second reading. -/
theorem Rereading.line {protect : Option String} {t : Token}
    (h : Rereading env body n rest start st (t :: left) pre o)
    (hcov : Covered protect .initial (items body))
    (hdefined : ∀ name ∈ protect, env.defined start.macros name = true)
    (hline : t.startsLine = true) {e : Event}
    (hstep : LineStep env n n (splitLine (inStream n left ++ streamEnd n :: rest)).1
      (splitLine (inStream n left ++ streamEnd n :: rest)).2 st e st') :
    ∃ left' pre' o', Rereading env body n rest start st' left' pre' o' ∧ left'.length < (t :: left).length := by
  rw [splitLine_end, inStream_splitLine] at hstep
  have hitems : ∀ {d}, directiveOf (inStream n (splitLine left).1) = d →
      items body = (pre ++ [d.item]) ++ items (splitLine left).2 := by
    rintro d rfl
    rw [h.contents, items_line hline, inStream_directive, List.append_assoc]
    rfl
  have hsuffix : (splitLine left).2 <:+ body := by
    rw [splitLine_eq]
    exact (List.dropWhile_suffix _).trans ((List.suffix_cons t left).trans h.suffix)
  have hstreams : ∀ s, Unaffected n start
      { st with streams := Function.update st.streams n s } := fun s =>
    ⟨h.unaffected.macros, h.unaffected.output, h.unaffected.mode, fun f hf =>
      (Function.update_of_ne hf ..).trans (h.unaffected.streams f hf)⟩
  have hlen : (splitLine left).2.length < (t :: left).length := Nat.lt_succ_of_le (splitLine_length left)
  have hadvance : ∀ d : Directive, d = .normal ∨ d = .null →
      Frames.initial.run (pre ++ [d.item]) = Frames.initial.run pre := by
    rintro d (rfl | rfl) <;> exact Frames.run_snoc ..
  cases hstep with
  | null hd =>
    refine ⟨_, _, o, ⟨rfl, hsuffix, hitems hd, h.encodes, ?_, ?_⟩, hlen⟩
    · rw [hadvance _ (Or.inr rfl)]
      exact h.answers
    · exact ⟨h.unaffected.macros, h.unaffected.output, h.unaffected.mode, h.unaffected.streams⟩
  | @conditional d c hd hc =>
    have hc' := hc
    rw [h.unaffected.macros] at hc'
    refine ⟨_, _, o.directive n c, ⟨rfl, hsuffix, hitems hd, ?_, ?_, ?_⟩, hlen⟩
    · simp only [Function.update_self]
      exact (handle_encodes hc h.encodes h.onTop).1
    · rw [Frames.run_snoc]
      exact answers_directive h.answers hc'
    · have hs := hstreams (handle env st.macros d (st.streams n) st.falseNesting).stream
      exact ⟨hs.macros, hs.output, hs.mode, hs.streams⟩
  | dead hd hfn =>
    refine ⟨_, _, o, ⟨rfl, hsuffix, hitems hd, ?_, ?_, ?_⟩, hlen⟩
    · simp only [Function.update_self]
      exact h.encodes.congr (Stream.dirtyStream_topIf _) (Stream.dirtyStream_opened _)
    · rw [hadvance _ (Or.inl rfl)]
      exact h.answers
    · have hs := hstreams (st.streams n).dirtyStream
      exact ⟨hs.macros, hs.output, hs.mode, hs.streams⟩
  | live hd hfn hins =>
    have hcontent : items (t :: left) = .content :: items (splitLine left).2 := by
      rw [items_line hline, ← inStream_directive n, hd]
      rfl
    exact absurd hfn (h.dead hcov hdefined hcontent)

/-- The head of the input is the end of the file or one of its tokens. -/
theorem Rereading.head (h : Rereading env body n rest start st left pre o)
    (hfile : FileBody n (inStream n body)) {t : Token} {tail : List Token} (hin : st.input = t :: tail) :
    (left = [] ∧ t = streamEnd n ∧ tail = rest) ∨
      ∃ u left', left = u :: left' ∧ t = { u with stream := n } ∧
        tail = inStream n left' ++ streamEnd n :: rest ∧ t.isMarker = false := by
  rw [h.input] at hin
  cases hleft : left with
  | nil =>
    rw [hleft] at hin
    obtain ⟨rfl, rfl⟩ := List.cons.inj hin
    exact Or.inl ⟨rfl, rfl, rfl⟩
  | cons u left' =>
    rw [hleft] at hin
    obtain ⟨rfl, rfl⟩ := List.cons.inj hin
    refine Or.inr ⟨u, left', rfl, rfl, rfl, (hfile { u with stream := n } ?_).2.2⟩
    refine List.mem_map.2 ⟨u, h.suffix.subset ?_, rfl⟩
    rw [hleft]
    exact List.mem_cons_self

/-- One step of the second reading. -/
theorem Rereading.step {protect : Option String}
    (h : Rereading env body n rest start st left pre o) (hfile : FileBody n (inStream n body))
    (hmode : start.mode = .scan) (hcov : Covered protect .initial (items body))
    (hdefined : ∀ name ∈ protect, env.defined start.macros name = true) {e : Event}
    (hstep : Step env st e st') (hend : e ≠ .streamEnd n) :
    ∃ left' pre' o', Rereading env body n rest start st' left' pre' o' ∧ left'.length < left.length := by
  rw [← h.unaffected.mode] at hmode
  have hlive : ∀ {t tail}, st.input = t :: tail → t.startsLine = false → t.isMarker = false →
      st.falseNesting ≠ 0 := by
    intro t tail hin hline hmark
    rcases h.head hfile hin with ⟨-, rfl, -⟩ | ⟨u, left', rfl, rfl, -, -⟩
    · simp [streamEnd, Token.isMarker] at hmark
    · exact h.dead hcov hdefined (items_token hline)
  cases hstep with
  | scanLine hmode' hin hline hstep =>
    rcases h.head hfile hin with ⟨-, rfl, -⟩ | ⟨u, left', rfl, rfl, rfl, -⟩
    · simp [streamEnd, Token.startsLine] at hline
    · exact h.line hcov hdefined hline hstep
  | scanEnd hmode' hin hkind =>
    rcases h.head hfile hin with ⟨-, rfl, -⟩ | ⟨u, left', -, rfl, -, -⟩ <;> exact absurd rfl hend
  | scanBegin hmode' hin hkind =>
    rcases h.head hfile hin with ⟨-, rfl, -⟩ | ⟨u, left', -, rfl, -, hmark⟩
    · simp [streamEnd] at hkind
    · have hk : u.kind = .streamBegin := hkind
      simp [Token.isMarker, hk] at hmark
  | @scanDead t tail hmode' hin hline hkind hfn =>
    rcases h.head hfile hin with ⟨-, rfl, -⟩ | ⟨u, left', rfl, rfl, rfl, -⟩
    · simp [streamEnd, Token.isMarker] at hkind
    · obtain ⟨htop, hopened⟩ := update_dirty st.streams n n
      refine ⟨left', pre ++ [.content], o, ⟨rfl, (List.suffix_cons u left').trans h.suffix, ?_,
        h.encodes.congr htop hopened, ?_, h.unaffected.macros, h.unaffected.output, h.unaffected.mode,
        fun f hf => ?_⟩, Nat.lt_succ_self _⟩
      · have hline' : u.startsLine = false := hline
        rw [h.contents, items_token hline', List.append_assoc]
        rfl
      · rw [Frames.run_snoc]
        exact h.answers
      · rw [← h.unaffected.streams f hf]
        exact Function.update_of_ne hf ..
  | scanKeep hmode' hin hline hkind hfn => exact absurd hfn (hlive hin hline hkind)
  | scanExpand hmode' hin hkind hfn =>
    exact absurd hfn (hlive hin (by simp [Token.startsLine, hkind]) (by simp [Token.isMarker, hkind]))
  | call hmode' => simp [hmode] at hmode'
  | collectLine hmode' => simp [hmode] at hmode'
  | collectEnd hmode' => simp [hmode] at hmode'
  | collectBegin hmode' => simp [hmode] at hmode'
  | collectDead hmode' => simp [hmode] at hmode'
  | collectTake hmode' => simp [hmode] at hmode'
  | collectStop hmode' => simp [hmode] at hmode'
  | collectEof hmode' => simp [hmode] at hmode'
  | nextArgument hmode' => simp [hmode] at hmode'
  | expanded hmode' => simp [hmode] at hmode'
  | notExpanded hmode' => simp [hmode] at hmode'

/-- Before its end the second reading goes on. -/
theorem Rereading.progress {protect : Option String} {u : Token}
    (h : Rereading env body n rest start st (u :: left) pre o) (hfile : FileBody n (inStream n body))
    (hmode : start.mode = .scan) (hcov : Covered protect .initial (items body))
    (hdefined : ∀ name ∈ protect, env.defined start.macros name = true) :
    ∃ e st', Step env st e st' ∧ e ≠ .streamEnd n := by
  rw [← h.unaffected.mode] at hmode
  have hin : st.input = { u with stream := n } :: (inStream n left ++ streamEnd n :: rest) := h.input
  cases hline : u.startsLine with
  | false =>
    obtain ⟨hnil, -⟩ | ⟨_, _, -, -, -, hmark⟩ := h.head hfile hin
    · cases hnil
    · exact ⟨_, _, .scanDead hmode hin hline hmark (h.dead hcov hdefined (items_token hline)), by simp⟩
  | true =>
    have hscan := fun e st' => @Step.scanLine M env st _ _ e st' hmode hin hline
    have hconditional : ∀ {d c}, directiveOf (splitLine (inStream n left ++ streamEnd n :: rest)).1 = d →
        conditionalOf env st.macros d = some c → ∃ e st', Step env st e st' ∧ e ≠ .streamEnd n :=
      fun hd hc => ⟨_, _, hscan _ _ (.conditional hd hc), by simp⟩
    cases hd : directiveOf (splitLine (inStream n left ++ streamEnd n :: rest)).1 with
    | null => exact ⟨_, _, hscan _ _ (.null hd), by simp⟩
    | ifdef args => exact hconditional hd rfl
    | ifndef args => exact hconditional hd rfl
    | if_ expr => exact hconditional hd rfl
    | elif expr => exact hconditional hd rfl
    | else_ => exact hconditional hd rfl
    | endif => exact hconditional hd rfl
    | normal =>
      have hcontent : items (u :: left) = .content :: items (splitLine left).2 := by
        rw [splitLine_end, inStream_splitLine] at hd
        rw [items_line hline, ← inStream_directive n, hd]
        rfl
      exact ⟨_, _, hscan _ _ (.dead hd (h.dead hcov hdefined hcontent)), by simp⟩

/-! ## Skipping -/

/-- The file is about to be read, from its `STREAMBEGIN` on. -/
structure Included (st : State M) (n : ℕ) (body rest : List Token) : Prop where
  input : st.input = streamBegin n :: (body ++ streamEnd n :: rest)
  stream : st.streams n = Stream.initial
  file : FileBody n body

/-- The states differ in the stream of the file alone. -/
structure SameBut (n : ℕ) (st st' : State M) : Prop where
  unaffected : Unaffected n st st'
  input : st'.input = st.input
  falseNesting : st'.falseNesting = st.falseNesting

/-- The first step passes the `STREAMBEGIN`. -/
theorem Included.step (h : Included start n (inStream n body) rest) (hfn : start.falseNesting = 0)
    (hmode : start.mode = .scan) {e : Event} (hstep : Step env start e st) :
    e = .internal ∧ Rereading env body n rest start st body [] Open.initial := by
  have hencodes : Encodes n (start.streams n) start.falseNesting Open.initial := by
    rw [h.stream, hfn]
    exact ⟨rfl, rfl, rfl⟩
  have hhead : ∀ {t tail}, start.input = t :: tail →
      t = streamBegin n ∧ tail = inStream n body ++ streamEnd n :: rest := by
    intro t tail hin
    rw [h.input] at hin
    obtain ⟨rfl, rfl⟩ := List.cons.inj hin
    exact ⟨rfl, rfl⟩
  cases hstep with
  | scanBegin hmode' hin hkind =>
    exact ⟨rfl, (hhead hin).2, List.suffix_refl _, rfl, hencodes, .nil, rfl, rfl, rfl, fun _ _ => rfl⟩
  | scanLine hmode' hin hline hstep =>
    rw [(hhead hin).1] at hline
    simp [streamBegin, Token.startsLine] at hline
  | scanEnd hmode' hin hkind => simp [(hhead hin).1, streamBegin] at hkind
  | scanDead hmode' hin hline hkind hfn' => exact absurd hfn hfn'
  | scanKeep hmode' hin hline hkind hfn' => simp [(hhead hin).1, streamBegin, Token.isMarker] at hkind
  | scanExpand hmode' hin hkind hfn' => simp [(hhead hin).1, streamBegin] at hkind
  | call hmode' => simp [hmode] at hmode'
  | collectLine hmode' => simp [hmode] at hmode'
  | collectEnd hmode' => simp [hmode] at hmode'
  | collectBegin hmode' => simp [hmode] at hmode'
  | collectDead hmode' => simp [hmode] at hmode'
  | collectTake hmode' => simp [hmode] at hmode'
  | collectStop hmode' => simp [hmode] at hmode'
  | collectEof hmode' => simp [hmode] at hmode'
  | nextArgument hmode' => simp [hmode] at hmode'
  | expanded hmode' => simp [hmode] at hmode'
  | notExpanded hmode' => simp [hmode] at hmode'

/-- The second reading from the `STREAMBEGIN` on. -/
theorem Included.run {protect : Option String} (h : Included start n (inStream n body) rest)
    (hfn : start.falseNesting = 0) (hmode : start.mode = .scan) (hcov : Covered protect .initial (items body))
    (hdefined : ∀ name ∈ protect, env.defined start.macros name = true) {ok : State M → Prop}
    {trace : List Event} (hrun : Run env ok start trace st) (hend : .streamEnd n ∉ trace) :
    st = start ∨ ∃ left pre o, Rereading env body n rest start st left pre o := by
  induction hrun with
  | nil => exact Or.inl rfl
  | @step trace st st' e hrun hok hstep ih =>
    rw [List.mem_append, not_or] at hend
    right
    rcases ih hend.1 with heq | ⟨left, pre, o, h'⟩
    · rw [heq] at hstep
      exact ⟨_, _, _, (h.step hfn hmode hstep).2⟩
    · obtain ⟨left', pre', o', h', -⟩ := h'.step h.file hmode hcov hdefined hstep fun he => hend.2 (by
        rw [he]
        exact List.mem_singleton_self _)
      exact ⟨left', pre', o', h'⟩

/-- The second reading can be led to the end of the file. -/
theorem Rereading.to_end {protect : Option String} (h : Rereading env body n rest start st left pre o)
    (hfile : FileBody n (inStream n body)) (hmode : start.mode = .scan) (hcov : Covered protect .initial (items body))
    (hdefined : ∀ name ∈ protect, env.defined start.macros name = true) {trace : List Event}
    (hrun : Run env (fun _ => True) start trace st) (hend : .streamEnd n ∉ trace) :
    ∃ trace' st', Run env (fun _ => True) start trace' st' ∧ .streamEnd n ∉ trace' ∧
      ∃ pre' o', Rereading env body n rest start st' [] pre' o' := by
  induction hlen : left.length using Nat.strong_induction_on generalizing left pre o st trace with
  | _ k ih =>
  cases left with
  | nil => exact ⟨trace, st, hrun, hend, pre, o, h⟩
  | cons u left =>
    obtain ⟨e, st', hstep, he⟩ := h.progress hfile hmode hcov hdefined
    obtain ⟨left', pre', o', h', hlt⟩ := h.step hfile hmode hcov hdefined hstep he
    refine ih left'.length (hlen ▸ hlt) h' (hrun.step trivial hstep) ?_ rfl
    rw [List.mem_append, not_or, List.mem_singleton]
    exact ⟨hend, he.symm⟩

/-- With the contents its groups end. -/
theorem Rereading.closed (h : Rereading env body n rest start st [] pre o)
    (hclosed : (Frames.initial.run (items body)).open_ = []) : st.falseNesting = 0 ∧ (st.streams n).topIf = [] := by
  have hans := h.answers
  have hcontents := h.contents
  rw [items_nil, List.append_nil] at hcontents
  rw [← hcontents, hclosed] at hans
  have hstack : o.stack = [] := by
    cases hs : o.stack with
    | nil => rfl
    | cons g below =>
      rw [hs] at hans
      cases hans
  exact ⟨by rw [h.encodes.count, hstack]; rfl, by rw [h.encodes.topIf, hstack]; rfl⟩

/-- The state behind the file. -/
theorem Rereading.finish (h : Rereading env body n rest start st left pre o)
    (hfile : FileBody n (inStream n body)) (hmode : start.mode = .scan) (hfn : start.falseNesting = 0)
    (hclosed : (Frames.initial.run (items body)).open_ = []) (hstep : Step env st (.streamEnd n) st') :
    SameBut n { start with input := rest } st' := by
  rw [← h.unaffected.mode] at hmode
  generalize he : Event.streamEnd n = e at hstep
  cases hstep with
  | scanEnd hmode' hin hkind =>
    obtain ⟨rfl, rfl, rfl⟩ | ⟨u, left', -, rfl, -, hmark⟩ := h.head hfile hin
    · obtain ⟨hzero, htop⟩ := h.closed hclosed
      refine ⟨⟨h.unaffected.macros, h.unaffected.output, h.unaffected.mode, fun f hf => ?_⟩, rfl, ?_⟩
      · exact (Function.update_of_ne hf ..).trans (h.unaffected.streams f hf)
      · simp [endStream, streamEnd, htop, hzero, hfn]
    · have hk : u.kind = .streamEnd := hkind
      simp [Token.isMarker, hk] at hmark
  | scanLine hmode' hin hline hstep => cases hstep <;> cases he
  | collectEnd hmode' => simp [hmode] at hmode'
  | collectLine hmode' => simp [hmode] at hmode'
  | _ => cases he

/-- Reading the file once more, from a live position with the mode where the protecting macro is defined:
within the file no macro, no output and no other stream changes, and the reading comes to the end of the
file, behind which everything but the stream of the file is as if it had been skipped. -/
def Skippable (env : Environment M) (body : List Token) (protect : Option String) (mode : Mode) : Prop :=
  ∀ {n rest start}, Included start n (inStream n body) rest → start.falseNesting = 0 → start.mode = mode →
    (∀ name ∈ protect, env.defined start.macros name = true) →
    (∀ {trace st}, Run env (fun _ => True) start trace st → .streamEnd n ∉ trace →
      Unaffected n start st ∧
        ∀ st', Step env st (.streamEnd n) st' → SameBut n { start with input := rest } st') ∧
      ∃ trace st st', Run env (fun _ => True) start trace st ∧ .streamEnd n ∉ trace ∧
        Step env st (.streamEnd n) st'

/-- A file that a run with `ok` marks constant may be skipped where the mode is one of `at_`. -/
def SkipsConstantFiles (env : Environment M) (ok : State M → Prop) (at_ : Mode → Prop) : Prop :=
  ∀ {n body rest start trace st st'}, Opens start n body rest → Run env ok start trace st →
    .streamEnd n ∉ trace → Step env st (.streamEnd n) st' → (st'.streams n).constant = true →
    ∀ mode, at_ mode → Skippable env body (st'.streams n).protect mode

theorem skipsConstantFiles_of_marks (env : Environment M) : SkipsConstantFiles env Marks (· = .scan) := by
  intro n body rest start trace st st' hopens hrun hend hstep hconstant mode hscan
  obtain ⟨hclosed, hcov⟩ := (hopens.reading.run hrun hend).covered hstep hconstant
  intro n' rest' start' hincluded hfn hmode hdefined
  replace hmode : start'.mode = .scan := hmode.trans hscan
  have hbegin : Step env start' .internal { start' with input := inStream n' body ++ streamEnd n' :: rest' } :=
    .scanBegin hmode hincluded.input rfl
  refine ⟨fun {trace st} hrun' hend' => ?_, ?_⟩
  · rcases hincluded.run hfn hmode hcov hdefined hrun' hend' with rfl | ⟨left, pre, o, h⟩
    · refine ⟨⟨rfl, rfl, rfl, fun _ _ => rfl⟩, fun st' hstep' => ?_⟩
      cases (hincluded.step hfn hmode hstep').1
    · exact ⟨h.unaffected, fun st' hstep' => h.finish hincluded.file hmode hfn hclosed hstep'⟩
  · obtain ⟨trace, st, hrun', hend', pre, o, h⟩ := (hincluded.step hfn hmode hbegin).2.to_end hincluded.file hmode
      hcov hdefined (.step .nil trivial hbegin) (by simp)
    have hmode' : st.mode = .scan := h.unaffected.mode.trans hmode
    exact ⟨trace, st, _, hrun', hend', @Step.scanEnd M env st (streamEnd n') rest' hmode' h.input rfl⟩

/-! ### A file with a guard -/

/-- Whether `M` is defined. -/
def singleMacro : Environment Bool where
  defined m name := m && name = "M"
  value _ _ := false

/-- `#ifndef M`, `#define M`, `x` and `#endif`. -/
def guardedFile : List Token :=
  [⟨.special "#", 0, true, false, false⟩, ⟨.ident "ifndef", 0, false, false, false⟩,
    ⟨.ident "M", 0, false, false, false⟩,
    ⟨.special "#", 0, true, false, false⟩, ⟨.ident "define", 0, false, false, false⟩,
    ⟨.ident "M", 0, false, false, false⟩, ⟨.ident "x", 0, true, false, false⟩,
    ⟨.special "#", 0, true, false, false⟩, ⟨.ident "endif", 0, false, false, false⟩]

def guardedStart : State Bool where
  macros := false
  streams _ := Stream.initial
  falseNesting := 0
  input := guardedFile ++ [streamEnd 0]
  output := []
  mode := .scan

theorem guardedStart_opens : Opens guardedStart 0 guardedFile [] where
  input := rfl
  stream := rfl
  file := by
    unfold FileBody
    decide

theorem marks_of_scan (hmode : st.mode = .scan) (hhead : ∀ t ∈ st.input.head?, t.expanded = false) :
    Marks st where
  line hin _ := hhead _ (by rw [hin]; rfl)
  own _ _ hm := by simp [hmode] at hm
  taken _ _ _ _ hm := by
    rcases hm with ⟨hm, -⟩ | ⟨s, hm⟩ <;> simp [hmode] at hm

/-- The first reading takes the file to its end, and its stream is marked constant. -/
theorem guardedStart_run : ∃ trace st st', Run singleMacro Marks guardedStart trace st ∧ .streamEnd 0 ∉ trace ∧
    Step singleMacro st (.streamEnd 0) st' ∧ (st'.streams 0).constant = true ∧
      (st'.streams 0).protect = some "M" := by
  have hguard : Run singleMacro Marks guardedStart _ _ :=
    .step .nil (marks_of_scan rfl (by decide)) (.scanLine rfl rfl rfl (.conditional rfl rfl))
  have hdefine := hguard.step (marks_of_scan rfl (by decide)) (.scanLine rfl rfl rfl
    (@LineStep.live Bool _ 0 0 _ _ _ true _ rfl rfl .none))
  have hkeep := hdefine.step (marks_of_scan rfl (by decide)) (.scanKeep rfl rfl rfl rfl rfl)
  have hendif := hkeep.step (marks_of_scan rfl (by decide))
    (.scanLine rfl rfl rfl (.conditional rfl rfl))
  exact ⟨_, _, _, hendif, by decide, @Step.scanEnd Bool singleMacro _ (streamEnd 0) [] rfl rfl rfl, by decide,
    by decide⟩

theorem skippable_guardedFile : Skippable singleMacro guardedFile (some "M") .scan := by
  obtain ⟨trace, st, st', hrun, hend, hstep, hconstant, hprotect⟩ := guardedStart_run
  rw [← hprotect]
  exact @skipsConstantFiles_of_marks Bool singleMacro _ _ _ _ _ _ _ guardedStart_opens hrun hend hstep hconstant _ rfl

/-! ### An argument that ends after the guard -/

/-- `#ifndef M`, `#define M`, `F (`, `#endif` and `x )`. -/
def leakyFile : List Token :=
  [⟨.special "#", 0, true, false, false⟩, ⟨.ident "ifndef", 0, false, false, false⟩,
    ⟨.ident "M", 0, false, false, false⟩,
    ⟨.special "#", 0, true, false, false⟩, ⟨.ident "define", 0, false, false, false⟩,
    ⟨.ident "M", 0, false, false, false⟩,
    ⟨.ident "F", 0, true, false, false⟩, ⟨.special "(", 0, false, false, false⟩,
    ⟨.special "#", 0, true, false, false⟩, ⟨.ident "endif", 0, false, false, false⟩,
    ⟨.ident "x", 0, true, false, false⟩, ⟨.special ")", 0, false, false, false⟩]

def leakyStart : State Bool where
  macros := false
  streams _ := Stream.initial
  falseNesting := 0
  input := leakyFile ++ [streamEnd 0]
  output := []
  mode := .scan

theorem leakyStart_opens : Opens leakyStart 0 leakyFile [] where
  input := rfl
  stream := rfl
  file := by
    unfold FileBody
    decide

/-- The file is included once more where `M` is defined. -/
def onceMore (body : List Token) (mode : Mode) : State Bool where
  macros := true
  streams _ := Stream.initial
  falseNesting := 0
  input := streamBegin 1 :: (inStream 1 body ++ [streamEnd 1])
  output := []
  mode := mode

theorem onceMore_included (body : List Token) (mode : Mode) (h : FileBody 1 (inStream 1 body)) :
    Included (onceMore body mode) 1 (inStream 1 body) [] :=
  ⟨rfl, rfl, h⟩

/-- The first reading takes `x )` as the argument of `F` and leaves the stream
clean; the second puts `x` out. -/
private theorem not_skippable_leakyFile : ¬ SkipsConstantFiles singleMacro (fun _ => True) (· = .scan) := by
  intro h
  have hguard : Run singleMacro (fun _ => True) leakyStart _ _ :=
    .step .nil trivial (.scanLine rfl rfl rfl (.conditional rfl rfl))
  have hdefine := hguard.step trivial (.scanLine rfl rfl rfl
    (@LineStep.live Bool _ 0 0 _ _ _ true _ rfl rfl .none))
  have hcall := (hdefine.step trivial (.scanExpand rfl rfl rfl rfl)).step trivial
    (.call rfl rfl rfl rfl)
  have hendif := hcall.step trivial (.collectLine rfl rfl rfl (.conditional rfl rfl))
  have hargument := (hendif.step trivial (.collectTake rfl rfl rfl rfl rfl)).step trivial
    (.collectStop rfl rfl (Or.inr rfl) rfl)
  have hexpanded := hargument.step trivial
    (@Step.expanded Bool _ _ [] ⟨_, Or.inr ⟨_, rfl⟩⟩ (List.forall_mem_nil _))
  have hskip : Skippable singleMacro leakyFile _ .scan := h leakyStart_opens hexpanded (by decide)
    (@Step.scanEnd Bool singleMacro _ (streamEnd 0) [] rfl rfl rfl) (by decide) _ rfl
  have hincluded := onceMore_included leakyFile .scan (by unfold FileBody; decide)
  have hguard' : Run singleMacro (fun _ => True) (onceMore leakyFile .scan) _ _ :=
    (Run.step .nil trivial (.scanBegin rfl rfl rfl)).step trivial (.scanLine rfl rfl rfl (.conditional rfl rfl))
  have hdefine' := hguard'.step trivial (.scanLine rfl rfl rfl (.dead rfl (by decide)))
  have hname' := (hdefine'.step trivial (.scanDead rfl rfl rfl rfl (by decide))).step trivial
    (.scanDead rfl rfl rfl rfl (by decide))
  have hendif' := hname'.step trivial (.scanLine rfl rfl rfl (.conditional rfl rfl))
  have hkeep' := hendif'.step trivial (.scanKeep rfl rfl rfl rfl rfl)
  have hunaffected := ((hskip hincluded rfl rfl (by decide)).1 hkeep' (by decide)).1
  exact absurd hunaffected.output (by decide)

/-- The name of the macro whose arguments are collected. -/
def macroName : Token :=
  ⟨.ident "F", 0, true, false, false⟩

/-- Neither condition can be left out: what an argument takes from the file, and an `#include` among the
arguments of a macro, which the `STREAMBEGIN` of the file ends. -/
theorem not_skipsConstantFiles : ¬ SkipsConstantFiles singleMacro (fun _ => True) (· = .scan) ∧
    ¬ SkipsConstantFiles singleMacro Marks (fun mode => ∃ name s, mode = .collecting name s) := by
  refine ⟨not_skippable_leakyFile, fun h => ?_⟩
  obtain ⟨trace, st, st', hrun, hend, hstep, hconstant, hprotect⟩ := guardedStart_run
  have hskip : Skippable singleMacro guardedFile (st'.streams 0).protect (.collecting macroName 0) :=
    h guardedStart_opens hrun hend hstep hconstant _ ⟨macroName, 0, rfl⟩
  rw [hprotect] at hskip
  have hincluded := onceMore_included guardedFile (.collecting macroName 0) (by unfold FileBody; decide)
  have hbegin : Run singleMacro (fun _ => True) (onceMore guardedFile (.collecting macroName 0)) _ _ :=
    .step .nil trivial (.collectBegin rfl rfl rfl)
  exact absurd ((hskip hincluded rfl rfl (by decide)).1 hbegin (by decide)).1.mode (by decide)

end Sparse.Preprocess
