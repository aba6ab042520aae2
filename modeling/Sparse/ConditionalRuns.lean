import Mathlib.Data.List.TakeDrop
import Sparse.ConditionalTracking

/-!
# Conditional groups over whole runs

In a run in which no argument of a macro takes the end of a file with an open
group, no line is handled for another file than its own, and no line starts with
a `#` from an expansion, the stacks and the counter encode the open groups of
the nested files at every step.
-/

namespace Sparse.Preprocess
open ConditionalGroups

variable {M : Type} {env : Environment M}

/-! ## The nested files in the input -/

theorem splitLine_eq (ts : List Token) :
    splitLine ts = (ts.takeWhile fun t => !t.newline, ts.dropWhile fun t => !t.newline) := by
  rw [splitLine, List.span_eq_takeWhile_dropWhile]

/-- The input is the rest of the innermost file, then that of the file around it,
and so on; tokens of expansions may stand anywhere. -/
inductive Layout : List ℕ → List Token → Prop
  | nil : Layout [] []
  | expanded {ns : List ℕ} {t : Token} {ts : List Token} (hexp : t.expanded = true)
      (hmark : t.isMarker = false) (h : Layout ns ts) : Layout ns (t :: ts)
  | file {n : ℕ} {ns : List ℕ} {t : Token} {ts : List Token} (hstream : t.stream = n)
      (hmark : t.isMarker = false) (h : Layout (n :: ns) ts) : Layout (n :: ns) (t :: ts)
  | begin_ {n : ℕ} {ns : List ℕ} {ts : List Token} (h : Layout (n :: ns) ts) :
      Layout (n :: ns) (streamBegin n :: ts)
  | end_ {n : ℕ} {ns : List ℕ} {ts : List Token} (hn : n ∉ ns) (h : Layout ns ts) :
      Layout (n :: ns) (streamEnd n :: ts)

namespace Layout

variable {n : ℕ} {ns : List ℕ} {t : Token} {ts : List Token}

theorem streamEnd_mem (h : Layout ns ts) (hn : n ∈ ns) : streamEnd n ∈ ts := by
  induction h with
  | nil => simp at hn
  | expanded _ _ _ ih => exact List.mem_cons_of_mem _ (ih hn)
  | file _ _ _ ih => exact List.mem_cons_of_mem _ (ih hn)
  | begin_ _ ih => exact List.mem_cons_of_mem _ (ih hn)
  | end_ _ _ ih =>
    rcases List.mem_cons.1 hn with rfl | hn
    · exact List.mem_cons_self
    · exact List.mem_cons_of_mem _ (ih hn)

theorem not_mem (h : Layout ns ts) : ∀ {n ns'}, ns = n :: ns' → n ∉ ns' := by
  induction h with
  | nil =>
    intro n ns' hns
    simp at hns
  | expanded _ _ _ ih => exact fun hns => ih hns
  | file _ _ _ ih => exact fun hns => ih hns
  | begin_ _ ih => exact fun hns => ih hns
  | end_ hn _ _ =>
    intro n ns' hns
    obtain ⟨rfl, rfl⟩ := List.cons.inj hns
    exact hn

/-- The rest of the input after a token that is not the end of a file. -/
theorem tail (h : Layout ns (t :: ts)) (ht : t.kind ≠ .streamEnd) : Layout ns ts := by
  cases h with
  | expanded _ _ h => exact h
  | file _ _ h => exact h
  | begin_ h => exact h
  | end_ _ _ => exact absurd rfl ht

/-- The end of a file is that of the innermost one. -/
theorem of_end (h : Layout ns (t :: ts)) (ht : t.kind = .streamEnd) :
    ∃ ns', ns = t.stream :: ns' ∧ t.stream ∉ ns' ∧ Layout ns' ts := by
  cases h with
  | expanded _ hmark _ => simp [Token.isMarker, ht] at hmark
  | file _ hmark _ => simp [Token.isMarker, ht] at hmark
  | begin_ _ => simp [streamBegin] at ht
  | end_ hn h => exact ⟨_, rfl, hn, h⟩

/-- A token that is not from an expansion belongs to the innermost file. -/
theorem stream_eq (h : Layout ns (t :: ts)) (ht : t.expanded = false) :
    ∃ ns', ns = t.stream :: ns' := by
  cases h with
  | expanded hexp _ _ =>
    rw [ht] at hexp
    exact Bool.noConfusion hexp
  | file hstream _ _ => exact ⟨_, by rw [hstream]⟩
  | begin_ _ => exact ⟨_, rfl⟩
  | end_ _ _ => exact ⟨_, rfl⟩

/-- A line ends before the end of its file. -/
theorem splitLine (h : Layout ns ts) : Layout ns (splitLine ts).2 := by
  have hspan : (Preprocess.splitLine ts).2 = ts.dropWhile fun t => !t.newline := by
    rw [splitLine_eq]
  rw [hspan]
  clear hspan
  induction h with
  | nil => exact .nil
  | expanded hexp hmark h ih =>
    rw [List.dropWhile_cons]
    split
    · exact ih
    · exact .expanded hexp hmark h
  | file hstream hmark h ih =>
    rw [List.dropWhile_cons]
    split
    · exact ih
    · exact .file hstream hmark h
  | begin_ h ih => exact .begin_ h
  | end_ hn h ih => exact .end_ hn h

theorem expanded_append (h : Layout ns ts) {us : List Token}
    (hus : ∀ t ∈ us, t.expanded = true ∧ t.isMarker = false) : Layout ns (us ++ ts) := by
  induction us with
  | nil => exact h
  | cons u us ih =>
    rw [List.forall_mem_cons] at hus
    exact .expanded hus.1.1 hus.1.2 (ih hus.2)

theorem file_append (h : Layout ns ts) (hn : n ∉ ns) {body : List Token} (hbody : FileBody n body) :
    Layout (n :: ns) (streamBegin n :: body ++ [streamEnd n] ++ ts) := by
  have hrest : Layout (n :: ns) (body ++ (streamEnd n :: ts)) := by
    induction body with
    | nil => exact .end_ hn h
    | cons t body ih =>
      have ht := hbody t List.mem_cons_self
      exact .file ht.1 ht.2.2 (ih fun u hu => hbody u (List.mem_cons_of_mem _ hu))
  have heq : streamBegin n :: body ++ [streamEnd n] ++ ts =
      streamBegin n :: (body ++ (streamEnd n :: ts)) := by
    simp
  rw [heq]
  exact .begin_ hrest

end Layout

/-! ## The order of the groups -/

/-- The groups of an inner file are above those of the files around it, which are live. -/
def Ordered : List ℕ → List Group → Prop
  | [], stack => stack = []
  | n :: ns, stack => ∃ inner below, stack = inner ++ below ∧ (∀ g ∈ inner, g.file = n) ∧
      Live below ∧ Ordered ns below

theorem Ordered.file_mem {ns : List ℕ} {stack : List Group} (h : Ordered ns stack) :
    ∀ g ∈ stack, g.file ∈ ns := by
  induction ns generalizing stack with
  | nil =>
    intro g hg
    rw [show stack = [] from h] at hg
    simp at hg
  | cons n ns ih =>
    obtain ⟨inner, below, rfl, hinner, -, hbelow⟩ := h
    intro g hg
    rcases List.mem_append.1 hg with hg | hg
    · exact hinner g hg ▸ List.mem_cons_self
    · exact List.mem_cons_of_mem _ (ih hbelow g hg)

variable {n : ℕ} {ns : List ℕ} {o : Open}

theorem Ordered.ne_of_not_mem {stack : List Group} (h : Ordered ns stack) (hn : n ∉ ns) :
    ∀ g ∈ stack, g.file ≠ n := by
  rintro g hg rfl
  exact hn (h.file_mem g hg)

theorem Ordered.onTop {stack : List Group} (h : Ordered (n :: ns) stack) (hn : n ∉ ns) :
    OnTop n stack := by
  obtain ⟨inner, below, rfl, hinner, -, hbelow⟩ := h
  cases inner with
  | nil => exact Or.inr (hbelow.ne_of_not_mem hn)
  | cons g inner =>
    refine Or.inl fun g' hg' => ?_
    rw [← Option.some.inj hg']
    exact hinner g List.mem_cons_self

theorem Ordered.directive (h : Ordered (n :: ns) o.stack) (hn : n ∉ ns) (c : Conditional) :
    Ordered (n :: ns) (o.directive n c).stack := by
  obtain ⟨inner, below, hs, hinner, hlive, hbelow⟩ := h
  have hne : ∀ g ∈ below, g.file ≠ n := hbelow.ne_of_not_mem hn
  have hbranch : ∀ b, Ordered (n :: ns) (Open.branch n b o.stack) := by
    intro b
    rw [hs]
    cases inner with
    | nil =>
      cases below with
      | nil => exact ⟨[], [], rfl, by simp, hlive, hbelow⟩
      | cons g below =>
        rw [List.nil_append, Open.branch, if_neg (hne g List.mem_cons_self)]
        exact ⟨[], g :: below, rfl, by simp, hlive, hbelow⟩
    | cons g inner =>
      rw [List.forall_mem_cons] at hinner
      rw [List.cons_append, Open.branch, if_pos hinner.1]
      exact ⟨g.branch b :: inner, below, rfl, List.forall_mem_cons.2 hinner, hlive, hbelow⟩
  cases c with
  | opening v =>
    exact ⟨⟨n, o.opened n, [.condition v]⟩ :: inner, below, by rw [Open.directive, hs]; rfl,
      List.forall_mem_cons.2 ⟨rfl, hinner⟩, hlive, hbelow⟩
  | elif v => exact hbranch _
  | otherwise => exact hbranch _
  | endif =>
    rw [Open.directive, hs]
    cases inner with
    | nil =>
      cases below with
      | nil => exact ⟨[], [], rfl, by simp, hlive, hbelow⟩
      | cons g below =>
        rw [List.nil_append, Open.pop, if_neg (hne g List.mem_cons_self)]
        exact ⟨[], g :: below, rfl, by simp, hlive, hbelow⟩
    | cons g inner =>
      rw [List.forall_mem_cons] at hinner
      rw [List.cons_append, Open.pop, if_pos hinner.1]
      exact ⟨inner, below, rfl, hinner.2, hlive, hbelow⟩

/-- The groups of other files do not change. -/
theorem topIfOf_directive {f : ℕ} (hf : f ≠ n) (c : Conditional) :
    topIfOf f (o.directive n c).stack = topIfOf f o.stack := by
  have hbranch : ∀ b, topIfOf f (Open.branch n b o.stack) = topIfOf f o.stack := by
    intro b
    cases hs : o.stack with
    | nil => rfl
    | cons g below =>
      rw [Open.branch]
      split
      · rename_i hg
        rw [topIfOf, topIfOf, Group.branch_file, if_neg (by omega), if_neg (by omega)]
      · rfl
  cases c with
  | opening v =>
    rw [Open.directive, topIfOf, if_neg (Ne.symm hf)]
  | elif v => exact hbranch _
  | otherwise => exact hbranch _
  | endif =>
    rw [Open.directive]
    cases hs : o.stack with
    | nil => rfl
    | cons g below =>
      rw [Open.pop]
      split
      · rename_i hg
        rw [topIfOf, if_neg (by omega)]
      · rfl

theorem topIfOf_append {f : ℕ} {inner below : List Group} (h : ∀ g ∈ inner, g.file ≠ f) :
    topIfOf f (inner ++ below) = topIfOf f below := by
  induction inner with
  | nil => rfl
  | cons g inner ih =>
    rw [List.forall_mem_cons] at h
    rw [List.cons_append, topIfOf, if_neg h.1, ih h.2]

/-- What is left when a file ends. -/
theorem dropWhile_inner {inner below : List Group} (hinner : ∀ g ∈ inner, g.file = n)
    (hbelow : ∀ g ∈ below, g.file ≠ n) :
    (inner ++ below).dropWhile (fun g => decide (g.file = n)) = below := by
  induction inner with
  | nil =>
    cases below with
    | nil => rfl
    | cons g below =>
      rw [List.nil_append, List.dropWhile_cons, if_neg]
      simpa using hbelow g List.mem_cons_self
  | cons g inner ih =>
    rw [List.forall_mem_cons] at hinner
    rw [List.cons_append, List.dropWhile_cons, if_pos (by simpa using hinner.1), ih hinner.2]

/-! ## The invariant -/

/-- The next step of the loops does not lose a file: in an argument it takes no
end of a file that has an open group, the line it handles is one of the stream
it handles it for, and the `#` of the line is one of the file. -/
structure Fits (st : State M) : Prop where
  line : ∀ {t tail}, st.input = t :: tail → t.startsLine = true → t.expanded = false
  own : ∀ {t tail name s}, st.input = t :: tail → t.startsLine = true →
    st.mode = .collecting name s → t.stream = s
  closed : ∀ {t tail name s}, st.input = t :: tail → t.kind = .streamEnd →
    st.mode = .collecting name s → (st.streams t.stream).topIf = []

/-- The state encodes the open groups of the nested files. -/
structure Tracks (st : State M) (o : Open) : Prop where
  files : ∃ ns, Layout ns st.input ∧ Ordered ns o.stack
  encodes : ∀ f, Encodes f (st.streams f) st.falseNesting o
  numbered : o.Numbered

/-- What an event should be, by the open groups before it. -/
def Event.Correct (o : Open) : Event → Prop
  | .conditional file c hasExpression evaluated =>
    evaluated = true ↔ hasExpression = true ∧ Decides o file c
  | .directive effect => effect = true ↔ Live o.stack
  | .token effect => effect = true ↔ Live o.stack
  | .streamEnd _ => True
  | .internal => True

/-- The open groups after an event. -/
def afterEvent (o : Open) (e : Event) : Open :=
  openGroups o [e]

variable {st st' : State M}

theorem Tracks.live (h : Tracks st o) : st.falseNesting = 0 ↔ Live o.stack := by
  rw [(h.encodes 0).count, deadCount_eq_zero_iff]

/-- A step that leaves the open groups and the stacks alone. -/
theorem Tracks.same (h : Tracks st o) (hin : ∀ ns, Layout ns st.input → Layout ns st'.input)
    (htop : ∀ f, (st'.streams f).topIf = (st.streams f).topIf ∧
      (st'.streams f).opened = (st.streams f).opened)
    (hfn : st'.falseNesting = st.falseNesting) : Tracks st' o where
  files := by
    obtain ⟨ns, hl, ho⟩ := h.files
    exact ⟨ns, hin ns hl, ho⟩
  encodes f := by
    rw [hfn]
    exact (h.encodes f).congr (htop f).1 (htop f).2
  numbered := h.numbered

theorem update_dirty (streams : ℕ → Stream) (s f : ℕ) :
    (Function.update streams s (streams s).dirtyStream f).topIf = (streams f).topIf ∧
      (Function.update streams s (streams s).dirtyStream f).opened = (streams f).opened := by
  rcases eq_or_ne f s with rfl | h
  · rw [Function.update_self]
    exact ⟨Stream.dirtyStream_topIf _, Stream.dirtyStream_opened _⟩
  · rw [Function.update_of_ne h]
    exact ⟨rfl, rfl⟩

/-- A line of the innermost file, handled for that file. -/
theorem Tracks.lineStep (h : Tracks st o) {t : Token} {tail : List Token} {e : Event}
    (hin : st.input = t :: tail) (hline : t.startsLine = true) (hexp : t.expanded = false)
    (hstep : LineStep env t.stream t.stream (splitLine tail).1 (splitLine tail).2 st e st') :
    Tracks st' (afterEvent o e) ∧ e.Correct o := by
  have hend : t.kind ≠ .streamEnd := by
    rintro hk
    simp [Token.startsLine, hk] at hline
  have hrest : ∀ ns, Layout ns st.input → Layout ns (splitLine tail).2 := fun ns hl =>
    ((hin ▸ hl).tail hend).splitLine
  obtain ⟨ns, hl, ho⟩ := h.files
  obtain ⟨ns, rfl⟩ := (hin ▸ hl).stream_eq hexp
  have hn : t.stream ∉ ns := hl.not_mem rfl
  cases hstep with
  | null hd => exact ⟨h.same hrest (fun f => ⟨rfl, rfl⟩) rfl, trivial⟩
  | @conditional d c hd hc =>
    obtain ⟨henc, heval⟩ := handle_encodes hc (h.encodes t.stream) (ho.onTop hn)
    refine ⟨⟨⟨_, hrest _ hl, ho.directive hn c⟩, fun f => ?_,
      h.numbered.advance (.directive t.stream c)⟩, heval⟩
    rcases eq_or_ne f t.stream with rfl | hf
    · simp only [Function.update_self]
      exact henc
    · simp only [Function.update_of_ne hf]
      refine ⟨?_, henc.count, ?_⟩
      · rw [(h.encodes f).topIf]
        exact (topIfOf_directive hf c).symm
      · rw [(h.encodes f).opened]
        cases c <;> simp [afterEvent, openGroups, Open.run, Event.action, Open.advance,
          Open.directive, Function.update_of_ne hf]
  | dead hd hfn =>
    exact ⟨h.same hrest (update_dirty st.streams t.stream) rfl,
      iff_of_false Bool.false_ne_true (mt h.live.2 hfn)⟩
  | @live macros inserted hd hfn hins =>
    have hcorrect : (Event.directive true).Correct o := iff_of_true rfl (h.live.1 hfn)
    refine ⟨?_, hcorrect⟩
    cases hins with
    | none => exact h.same hrest (update_dirty st.streams t.stream) rfl
    | pragma hts =>
      refine h.same (fun ns hl => (hrest ns hl).expanded_append fun u hu => ?_)
        (update_dirty st.streams t.stream) rfl
      exact ⟨(hts u hu).1, (hts u hu).2.1⟩
    | @«include» n body hbody hstream hfresh =>
      have hnew : n ∉ t.stream :: ns := fun hmem =>
        hfresh _ (hl.streamEnd_mem hmem) rfl
      refine ⟨⟨n :: t.stream :: ns, (hrest _ hl).file_append hnew hbody, ?_⟩, fun f => ?_,
        h.numbered⟩
      · exact ⟨[], o.stack, rfl, by simp, h.live.1 hfn, ho⟩
      · obtain ⟨htop, hopened⟩ := update_dirty st.streams t.stream f
        exact (h.encodes f).congr htop hopened

/-- The end of a file. -/
theorem Tracks.endStream (h : Tracks st o) {t : Token} {tail : List Token}
    (hin : st.input = t :: tail) (hkind : t.kind = .streamEnd) :
    Tracks { endStream st t.stream with input := tail } (o.close t.stream) := by
  obtain ⟨ns, hl, ho⟩ := h.files
  obtain ⟨ns, rfl, hn, htail⟩ := (hin ▸ hl).of_end hkind
  obtain ⟨inner, below, hs, hinner, hlive, hbelow⟩ := ho
  have hne := hbelow.ne_of_not_mem hn
  have hclose : (o.close t.stream).stack = below := by
    rw [Open.close, hs]
    exact dropWhile_inner hinner hne
  have hcount : deadCount below = 0 := (deadCount_eq_zero_iff below).2 hlive
  have hcount' : (if !(st.streams t.stream).topIf.isEmpty then 0 else st.falseNesting) = 0 := by
    split
    · rfl
    · rename_i hempty
      have hnil : (st.streams t.stream).topIf = [] := by simpa using hempty
      rw [(h.encodes t.stream).topIf, hs] at hnil
      cases inner with
      | nil => rw [(h.encodes t.stream).count, hs, List.nil_append, hcount]
      | cons g inner =>
        rw [List.cons_append, topIfOf, if_pos (hinner g List.mem_cons_self)] at hnil
        simp at hnil
  refine ⟨⟨ns, htail, hclose ▸ hbelow⟩, fun f => ?_, h.numbered.advance (.close t.stream)⟩
  refine ⟨?_, ?_, ?_⟩
  · rw [hclose]
    rcases eq_or_ne f t.stream with rfl | hf
    · rw [topIfOf_of_forall_ne hne]
      simp only [Preprocess.endStream, Function.update_self]
      split_ifs with hopen hdirty hdirty
      · rfl
      · rfl
      · simpa using hopen
      · simpa using hopen
    · have hsame : topIfOf f o.stack = topIfOf f below := by
        rw [hs]
        exact topIfOf_append fun g hg => by rw [hinner g hg]; exact Ne.symm hf
      simp only [Preprocess.endStream, Function.update_of_ne hf]
      rw [(h.encodes f).topIf, hsame]
  · rw [hclose, hcount]
    exact hcount'
  · rw [show (o.close t.stream).opened = o.opened from rfl, ← (h.encodes f).opened]
    rcases eq_or_ne f t.stream with rfl | hf
    · simp only [Preprocess.endStream, Function.update_self]
      split_ifs <;> rfl
    · simp only [Preprocess.endStream, Function.update_of_ne hf]

/-- One step of the loops. -/
theorem Tracks.step (h : Tracks st o) (hfits : Fits st) {e : Event} (hstep : Step env st e st') :
    Tracks st' (afterEvent o e) ∧ e.Correct o := by
  have hkeep : ∀ {t tail}, st.input = t :: tail → t.kind ≠ .streamEnd →
      ∀ ns, Layout ns st.input → Layout ns tail := fun hin hend ns hl => (hin ▸ hl).tail hend
  have hplain : ∀ {t : Token}, t.isMarker = false → t.kind ≠ .streamEnd := by
    rintro t hmark hk
    simp [Token.isMarker, hk] at hmark
  cases hstep with
  | scanLine hmode hin hline hstep => exact h.lineStep hin hline (hfits.line hin hline) hstep
  | collectLine hmode hin hline hstep =>
    rw [← hfits.own hin hline hmode] at hstep
    exact h.lineStep hin hline (hfits.line hin hline) hstep
  | scanEnd hmode hin hkind => exact ⟨h.endStream hin hkind, trivial⟩
  | @collectEnd name t s tail hmode hin hkind =>
    have hnil := hfits.closed hin hkind hmode
    have hclose := h.endStream hin hkind
    refine ⟨?_, trivial⟩
    obtain ⟨ns, hl, ho⟩ := hclose.files
    refine ⟨⟨ns, hl, ho⟩, fun f => ?_, hclose.numbered⟩
    have hencodes := hclose.encodes f
    have hfn : (Preprocess.endStream st t.stream).falseNesting = st.falseNesting := by
      simp [Preprocess.endStream, hnil]
    have hstream : ((Preprocess.endStream st t.stream).streams f).topIf = (st.streams f).topIf ∧
        ((Preprocess.endStream st t.stream).streams f).opened = (st.streams f).opened := by
      rcases eq_or_ne f t.stream with rfl | hf
      · simp only [Preprocess.endStream, Function.update_self, hnil, List.isEmpty_nil, Bool.not_true,
          Bool.false_eq_true, if_false]
        split_ifs <;> simp [hnil]
      · simp [Preprocess.endStream, Function.update_of_ne hf]
    exact ⟨hstream.1.symm.trans hencodes.topIf, hfn.symm.trans hencodes.count,
      hstream.2.symm.trans hencodes.opened⟩
  | scanBegin hmode hin hkind =>
    exact ⟨h.same (hkeep hin (by simp [hkind])) (fun f => ⟨rfl, rfl⟩) rfl, trivial⟩
  | collectBegin hmode hin hkind =>
    exact ⟨h.same (hkeep hin (by simp [hkind])) (fun f => ⟨rfl, rfl⟩) rfl, trivial⟩
  | @scanDead t tail hmode hin hline hkind hfn =>
    exact ⟨h.same (hkeep hin (hplain hkind)) (update_dirty st.streams t.stream) rfl,
      iff_of_false Bool.false_ne_true (mt h.live.2 hfn)⟩
  | @scanKeep t tail hmode hin hline hkind hfn =>
    exact ⟨h.same (hkeep hin (hplain hkind)) (update_dirty st.streams t.stream) rfl,
      iff_of_true rfl (h.live.1 hfn)⟩
  | @scanExpand t tail name hmode hin hkind hfn =>
    exact ⟨h.same (hkeep hin (by simp [hkind])) (update_dirty st.streams t.stream) rfl,
      iff_of_true rfl (h.live.1 hfn)⟩
  | call hmode hin hkind hfn =>
    exact ⟨h.same (hkeep hin (by simp [hkind])) (fun f => ⟨rfl, rfl⟩) rfl,
      iff_of_true rfl (h.live.1 hfn)⟩
  | collectDead hmode hin hline hkind hfn =>
    exact ⟨h.same (hkeep hin (hplain hkind)) (fun f => ⟨rfl, rfl⟩) rfl,
      iff_of_false Bool.false_ne_true (mt h.live.2 hfn)⟩
  | collectTake hmode hin hline hkind hfn =>
    exact ⟨h.same (hkeep hin (hplain hkind)) (fun f => ⟨rfl, rfl⟩) rfl,
      iff_of_true rfl (h.live.1 hfn)⟩
  | collectStop hmode hin hkind hfn =>
    refine ⟨h.same (hkeep hin ?_) (fun f => ⟨rfl, rfl⟩) rfl, iff_of_true rfl (h.live.1 hfn)⟩
    rcases hkind with hk | hk <;> simp [hk]
  | collectEof hmode hin => exact ⟨h.same (fun ns hl => hl) (fun f => ⟨rfl, rfl⟩) rfl, trivial⟩
  | nextArgument hmode => exact ⟨h.same (fun ns hl => hl) (fun f => ⟨rfl, rfl⟩) rfl, trivial⟩
  | expanded hmode hts =>
    exact ⟨h.same (fun ns hl => hl.expanded_append hts) (fun f => ⟨rfl, rfl⟩) rfl, trivial⟩
  | notExpanded hmode => exact ⟨h.same (fun ns hl => hl) (fun f => ⟨rfl, rfl⟩) rfl, trivial⟩

/-- The whole run. -/
theorem Tracks.run {start : State M} (h : Tracks start o) {trace : List Event}
    (hrun : Run env Fits start trace st) : Tracks st (openGroups o trace) := by
  induction hrun with
  | nil => exact h
  | step hrun hok hstep ih =>
    rw [openGroups_append]
    exact (ih.step hok hstep).1

/-! ## Unmatched directives and the end of a group -/

/-- An unmatched directive changes neither the stack nor the counter. -/
theorem Tracks.unmatched (h : Tracks st o) (hfits : Fits st) {file : ℕ} {c : Conditional}
    {hasExpression evaluated : Bool} (hc : ∀ v, c ≠ .opening v) (hunmatched : ¬ o.Matched file)
    (hstep : Step env st (.conditional file c hasExpression evaluated) st') :
    (st'.streams file).topIf = (st.streams file).topIf ∧ st'.falseNesting = st.falseNesting := by
  have hafter := (h.step hfits hstep).1.encodes file
  have hstack : (o.directive file c).stack = o.stack := by
    have hbranch : ∀ b, Open.branch file b o.stack = o.stack := fun b =>
      Open.branch_of_not_matched hunmatched b
    cases c with
    | opening v => exact absurd rfl (hc v)
    | elif v => exact hbranch _
    | otherwise => exact hbranch _
    | endif => exact Open.pop_of_not_matched hunmatched
  constructor
  · rw [hafter.topIf, (h.encodes file).topIf]
    exact congrArg (topIfOf file) hstack
  · rw [hafter.count, (h.encodes file).count]
    exact congrArg deadCount hstack

/-- The `#endif` of a group restores what its opening directive found. -/
theorem Tracks.restored (h : Tracks st o) {st₁ st₂ st₃ : State M} (hfits : Fits st) {file : ℕ}
    {v he ev he' ev' : Bool} {trace : List Event}
    (hopen : Step env st (.conditional file (.opening v) he ev) st₁)
    (hrun : Run env Fits st₁ trace st₂) (hfits₂ : Fits st₂)
    (hinner : ∃ g ∈ (openGroups (o.directive file (.opening v)) trace).stack.head?,
      g.file = file ∧ g.id = o.opened file)
    (hend : Step env st₂ (.conditional file .endif he' ev') st₃) :
    (st₃.streams file).topIf = (st.streams file).topIf ∧ st₃.falseNesting = st.falseNesting := by
  have hinside : Tracks st₂ (openGroups (o.directive file (.opening v)) trace) :=
    (h.step hfits hopen).1.run hrun
  have hafter := (hinside.step hfits₂ hend).1.encodes file
  have hstack := Open.pop_opening h.numbered file v (trace.filterMap Event.action) hinner
  constructor
  · rw [hafter.topIf, (h.encodes file).topIf]
    exact congrArg (topIfOf file) hstack
  · rw [hafter.count, (h.encodes file).count]
    exact congrArg deadCount hstack

/-! ## Whole runs -/

/-- No group is open yet. -/
def State.noGroups (st : State M) : Open :=
  ⟨[], fun n => (st.streams n).opened⟩

/-- The preprocessor is given the tokens of nested files, and no stream has an
open conditional. -/
structure Starts (st : State M) : Prop where
  mode : st.mode = .scan
  falseNesting : st.falseNesting = 0
  topIf : ∀ n, (st.streams n).topIf = []
  files : ∃ ns, Layout ns st.input

theorem Starts.tracks (h : Starts st) : Tracks st st.noGroups where
  files := by
    obtain ⟨ns, hl⟩ := h.files
    refine ⟨ns, hl, ?_⟩
    clear hl
    induction ns with
    | nil => rfl
    | cons n ns ih => exact ⟨[], [], rfl, by simp, live_nil, ih⟩
  encodes f := ⟨h.topIf f, h.falseNesting, rfl⟩
  numbered := by
    intro g hg
    simp [State.noGroups] at hg

/-- In every run all of whose steps start in a state with `ok`: the counter is
zero exactly at live positions; every next event has the effect that the open
groups give it; unmatched directives change nothing; and the `#endif` of a group
restores what its opening directive found. -/
structure FollowsGroups (env : Environment M) (ok : State M → Prop) (start : State M) : Prop where
  live : ∀ {trace st}, Run env ok start trace st →
    (st.falseNesting = 0 ↔ Live (openGroups start.noGroups trace).stack)
  correct : ∀ {trace st e st'}, Run env ok start trace st → ok st → Step env st e st' →
    e.Correct (openGroups start.noGroups trace)
  unmatched : ∀ {trace st st' file c he ev}, Run env ok start trace st → ok st →
    (∀ v, c ≠ .opening v) → ¬ (openGroups start.noGroups trace).Matched file →
    Step env st (.conditional file c he ev) st' →
    (st'.streams file).topIf = (st.streams file).topIf ∧ st'.falseNesting = st.falseNesting
  restored : ∀ {trace st st₁ trace' st₂ st₃ file v he ev he' ev'}, Run env ok start trace st →
    ok st → Step env st (.conditional file (.opening v) he ev) st₁ →
    Run env ok st₁ trace' st₂ → ok st₂ →
    (∃ g ∈ (openGroups ((openGroups start.noGroups trace).directive file (.opening v))
        trace').stack.head?,
      g.file = file ∧ g.id = (openGroups start.noGroups trace).opened file) →
    Step env st₂ (.conditional file .endif he' ev') st₃ →
    (st₃.streams file).topIf = (st.streams file).topIf ∧ st₃.falseNesting = st.falseNesting

theorem followsGroups_of_fits (env : Environment M) {start : State M} (h : Starts start) :
    FollowsGroups env Fits start where
  live hrun := (h.tracks.run hrun).live
  correct hrun hfits hstep := ((h.tracks.run hrun).step hfits hstep).2
  unmatched hrun hfits hc hunmatched hstep :=
    (h.tracks.run hrun).unmatched hfits hc hunmatched hstep
  restored hrun hfits hopen hrun' hfits' hinner hend :=
    (h.tracks.run hrun).restored hfits hopen hrun' hfits' hinner hend

/-! ## An end of a file inside an argument -/

/-- No macro is defined for `#ifdef`, and every expression is zero. -/
def zeroEnvironment : Environment Unit where
  defined _ _ := false
  value _ _ := false

/-- `F (` and, on a line of its own, `#if 0`. -/
def unclosedArgument : List Token :=
  [⟨.ident "F", 1, true, false, false⟩, ⟨.special "(", 1, false, false, false⟩,
    ⟨.special "#", 1, true, false, false⟩, ⟨.ident "if", 1, false, false, false⟩,
    ⟨.number, 1, false, false, false⟩]

theorem unclosedArgument_fileBody : FileBody 1 unclosedArgument := by
  unfold FileBody
  decide

/-- `#include` and `x`. -/
def includer : List Token :=
  [⟨.special "#", 0, true, false, false⟩, ⟨.ident "include", 0, false, false, false⟩,
    ⟨.ident "x", 0, true, false, false⟩]

def includerStart : State Unit where
  macros := ()
  streams _ := Stream.initial
  falseNesting := 0
  input := streamBegin 0 :: includer ++ [streamEnd 0]
  output := []
  mode := .scan

theorem includerStart_starts : Starts includerStart where
  mode := rfl
  falseNesting := rfl
  topIf _ := rfl
  files := ⟨[0], .begin_ (.file rfl rfl (.file rfl rfl (.file rfl rfl (.end_ (by simp) .nil))))⟩

theorem followsGroups_includer : FollowsGroups zeroEnvironment Fits includerStart :=
  followsGroups_of_fits zeroEnvironment includerStart_starts

/-- The end of the included file is taken while the `#if` is open, and the rest of
the including file stays dead. -/
theorem not_followsGroups_includer :
    ¬ FollowsGroups zeroEnvironment (fun _ => True) includerStart := by
  intro h
  have hbegin : Run zeroEnvironment (fun _ => True) includerStart _ _ :=
    .step .nil trivial (.scanBegin rfl rfl rfl)
  have hinclude := hbegin.step trivial (.scanLine rfl rfl rfl
    (@LineStep.live Unit _ 0 0 _ _ _ () _ rfl rfl
      (@Insertion.include _ _ 1 unclosedArgument unclosedArgument_fileBody rfl (by decide))))
  have hname := (hinclude.step trivial (.scanBegin rfl rfl rfl)).step trivial
    (.scanExpand rfl rfl rfl rfl)
  have hif := (hname.step trivial (.call rfl rfl rfl rfl)).step trivial
    (.collectLine rfl rfl rfl (.conditional rfl rfl))
  have hend := hif.step trivial (.collectEnd rfl rfl rfl)
  exact absurd ((h.live hend).2 (by decide)) (by decide)

end Sparse.Preprocess
