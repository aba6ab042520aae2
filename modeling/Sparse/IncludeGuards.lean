import Sparse.ConditionalRuns

/-!
# Include guards

A file is marked constant when its stream is clean at its end. The fields
`dirty`, `ifndef` and `protect` depend on the contents of the file alone: they
say that all of it so far stands under `#ifndef` of the protecting macro.
-/

namespace Sparse.Preprocess
open ConditionalGroups

/-! ## The contents of a file -/

/-- What a piece of a file means for its guard: a token or an ordinary
directive, a line without one, or a conditional. -/
inductive Item
  | content
  | blank
  | ifndef (name : Option String)
  | opening
  | elif
  | else_
  | endif
  deriving DecidableEq, Repr

def Directive.item : Directive → Item
  | .null => .blank
  | .ifdef _ => .opening
  | .ifndef args => .ifndef (argumentIdent args)
  | .if_ _ => .opening
  | .elif _ => .elif
  | .else_ => .else_
  | .endif => .endif
  | .normal => .content

theorem splitLine_length (ts : List Token) : (splitLine ts).2.length ≤ ts.length := by
  rw [splitLine_eq]
  exact (List.dropWhile_suffix _).length_le

/-- A line ends inside the tokens that have one with `newline`. -/
theorem splitLine_append {ts : List Token} (h : ∃ t ∈ ts, t.newline = true) (us : List Token) :
    splitLine (ts ++ us) = ((splitLine ts).1, (splitLine ts).2 ++ us) := by
  simp only [splitLine_eq]
  induction ts with
  | nil => simp at h
  | cons t ts ih =>
    cases hn : t.newline with
    | true => simp [hn]
    | false =>
      have hrest : ∃ u ∈ ts, u.newline = true := by
        obtain ⟨u, hu, hnu⟩ := h
        rcases List.mem_cons.1 hu with rfl | hu
        · rw [hn] at hnu
          exact Bool.noConfusion hnu
        · exact ⟨u, hu, hnu⟩
      obtain ⟨htake, hdrop⟩ := Prod.mk.inj (ih hrest)
      simp [hn, htake, hdrop]

/-- A line before the end of a file. -/
theorem splitLine_end (ts : List Token) (n : ℕ) (us : List Token) :
    splitLine (ts ++ streamEnd n :: us) = ((splitLine ts).1, (splitLine ts).2 ++ streamEnd n :: us) := by
  simp only [splitLine_eq]
  induction ts with
  | nil => simp [streamEnd]
  | cons t ts ih =>
    obtain ⟨htake, hdrop⟩ := Prod.mk.inj ih
    cases hn : t.newline <;> simp [hn, htake, hdrop]

/-- The pieces of a file in their order. -/
def items : List Token → List Item
  | [] => []
  | t :: tail =>
    if t.startsLine then (directiveOf (splitLine tail).1).item :: items (splitLine tail).2
    else .content :: items tail
termination_by ts => ts.length
decreasing_by
  · have := splitLine_length tail
    simp only [List.length_cons]
    omega
  · simp

theorem items_nil : items [] = [] := by
  rw [items]

theorem items_line {t : Token} {tail : List Token} (h : t.startsLine = true) :
    items (t :: tail) = (directiveOf (splitLine tail).1).item :: items (splitLine tail).2 := by
  rw [items, if_pos h]

theorem items_token {t : Token} {tail : List Token} (h : t.startsLine = false) :
    items (t :: tail) = .content :: items tail := by
  rw [items, if_neg (by simp [h])]

/-! ### Another reading -/

/-- The tokens of the file when it is read as stream `n`. -/
def inStream (n : ℕ) (body : List Token) : List Token :=
  body.map fun t => { t with stream := n }

theorem inStream_splitLine (n : ℕ) (ts : List Token) :
    splitLine (inStream n ts) = (inStream n (splitLine ts).1, inStream n (splitLine ts).2) := by
  simp only [splitLine_eq, inStream]
  induction ts with
  | nil => rfl
  | cons t ts ih =>
    obtain ⟨htake, hdrop⟩ := Prod.mk.inj ih
    cases hn : t.newline <;> simp [hn, htake, hdrop]

theorem inStream_argumentIdent (n : ℕ) (args : List Token) :
    argumentIdent (inStream n args) = argumentIdent args := by
  cases args <;> rfl

theorem inStream_directive (n : ℕ) (line : List Token) :
    (directiveOf (inStream n line)).item = (directiveOf line).item := by
  cases line with
  | nil => rfl
  | cons t rest =>
    simp only [inStream, List.map_cons, directiveOf]
    split <;> simp only [Directive.item]
    exact congrArg Item.ifndef (inStream_argumentIdent n rest)

/-! ## The frames of a file -/

/-- An open group of the file: its node, and while its first branch is open the
name that its `#ifndef` tests. -/
structure Frame where
  id : ℕ
  guard : Option String
  deriving DecidableEq, Repr

structure Frames where
  open_ : List Frame
  opened : ℕ

namespace Frames

def initial : Frames :=
  ⟨[], 0⟩

def push (f : Frames) (guard : Option String) : Frames :=
  ⟨⟨f.opened, guard⟩ :: f.open_, f.opened + 1⟩

/-- The first branch of the innermost group ends. -/
def unguard : List Frame → List Frame
  | [] => []
  | top :: below => { top with guard := none } :: below

def advance (f : Frames) : Item → Frames
  | .content => f
  | .blank => f
  | .ifndef name => f.push name
  | .opening => f.push none
  | .elif => { f with open_ := unguard f.open_ }
  | .else_ => { f with open_ := unguard f.open_ }
  | .endif => { f with open_ := f.open_.tail }

def run (f : Frames) (its : List Item) : Frames :=
  its.foldl advance f

theorem run_append (f : Frames) (xs ys : List Item) : f.run (xs ++ ys) = (f.run xs).run ys :=
  List.foldl_append

/-- The macro is the guard of an open group. -/
def Guarded (f : Frames) (name : String) : Prop :=
  ∃ k, ⟨k, some name⟩ ∈ f.open_

end Frames

/-- All contents stand in the first branch of `#ifndef` of the macro; without a
macro there are none. -/
def Covered (protect : Option String) : Frames → List Item → Prop
  | _, [] => True
  | f, it :: rest =>
    (it = .content → ∃ name ∈ protect, f.Guarded name) ∧ Covered protect (f.advance it) rest

theorem Covered.append {protect : Option String} {f : Frames} {xs ys : List Item}
    (hx : Covered protect f xs) (hy : Covered protect (f.run xs) ys) :
    Covered protect f (xs ++ ys) := by
  induction xs generalizing f with
  | nil => exact hy
  | cons it xs ih => exact ⟨hx.1, ih hx.2 hy⟩

/-- What comes after a prefix is covered from the frames of the prefix. -/
theorem Covered.drop {protect : Option String} {f : Frames} {xs ys : List Item}
    (h : Covered protect f (xs ++ ys)) : Covered protect (f.run xs) ys := by
  induction xs generalizing f with
  | nil => exact h
  | cons it xs ih => exact ih h.2

theorem Covered.of_none {f : Frames} {xs : List Item} (h : Covered none f xs)
    (protect : Option String) : Covered protect f xs := by
  induction xs generalizing f with
  | nil => trivial
  | cons it xs ih =>
    refine ⟨fun hit => ?_, ih h.2⟩
    obtain ⟨name, hname, -⟩ := h.1 hit
    simp at hname

theorem Covered.snoc {protect : Option String} {f : Frames} {xs : List Item} {it : Item}
    (h : Covered protect f xs) (hit : it = .content → ∃ name ∈ protect, (f.run xs).Guarded name) :
    Covered protect f (xs ++ [it]) :=
  h.append ⟨hit, trivial⟩

/-! ## The guard fields of a stream -/

theorem Frames.run_snoc (f : Frames) (xs : List Item) (it : Item) :
    f.run (xs ++ [it]) = (f.run xs).advance it := by
  rw [run_append]
  rfl

@[simp] theorem Frames.unguard_ids (fs : List Frame) :
    (unguard fs).map Frame.id = fs.map Frame.id := by
  cases fs <;> rfl

/-- The fields of the stream agree with the contents of the file so far. -/
structure Guarding (pre : List Item) (s : Stream) : Prop where
  ids : s.topIf.map IfToken.id = (Frames.initial.run pre).open_.map Frame.id
  opened : s.opened = (Frames.initial.run pre).opened
  ifndef : ∀ k ∈ s.ifndef, ∃ name ∈ s.protect, ⟨k, some name⟩ ∈ (Frames.initial.run pre).open_
  clean : s.dirty = false → Covered (if s.ifndef = none then s.protect else none) .initial pre
  dirty : s.dirty = true → ∀ name ∈ s.protect,
    s.ifndef ≠ none ∧ Covered (some name) .initial pre
  constant : s.constant = false

theorem Guarding.start : Guarding [] Stream.initial where
  ids := rfl
  opened := rfl
  ifndef k hk := by simp [Stream.initial] at hk
  clean _ := trivial
  dirty hd := by simp [Stream.initial] at hd
  constant := rfl

namespace Guarding

variable {pre : List Item} {s s' : Stream}

/-- Only the kinds of the nodes differ. -/
theorem with_topIf (h : Guarding pre s) {topIf : List IfToken}
    (hids : topIf.map IfToken.id = s.topIf.map IfToken.id) :
    Guarding pre { s with topIf := topIf } :=
  ⟨hids.trans h.ids, h.opened, h.ifndef, h.clean, h.dirty, h.constant⟩

/-- A nesting error rules the guard out for good. -/
theorem nestingError (h : Guarding pre s) : Guarding pre s.nestingError where
  ids := h.ids
  opened := h.opened
  ifndef k hk := by simp [Stream.nestingError] at hk
  clean hd := by simp [Stream.nestingError] at hd
  dirty _ name hname := by simp [Stream.nestingError] at hname
  constant := h.constant

theorem dirtyStream (h : Guarding pre s) : Guarding pre s.dirtyStream := by
  unfold Stream.dirtyStream
  split
  · exact h
  · rename_i hd
    have hclean := h.clean (by simpa using hd)
    refine ⟨h.ids, h.opened, fun k hk => ?_, fun hd' => by simp at hd', fun _ name hname => ?_,
      h.constant⟩
    · obtain ⟨name, hname, hmem⟩ := h.ifndef k hk
      exact ⟨name, by simpa [Option.isSome_of_mem hk] using hname, hmem⟩
    · cases hi : s.ifndef with
      | none => simp [hi] at hname
      | some k =>
        rw [hi, if_neg (by simp)] at hclean
        exact ⟨by simp, hclean.of_none _⟩

theorem dirtyStream_dirty (s : Stream) : s.dirtyStream.dirty = true := by
  unfold Stream.dirtyStream
  split
  · assumption
  · rfl

theorem blank (h : Guarding pre s) : Guarding (pre ++ [.blank]) s := by
  have hrun := Frames.run_snoc .initial pre .blank
  refine ⟨by rw [hrun]; exact h.ids, by rw [hrun]; exact h.opened, by rw [hrun]; exact h.ifndef,
    fun hd => (h.clean hd).snoc (by simp), fun hd name hname => ?_, h.constant⟩
  obtain ⟨hi, hcov⟩ := h.dirty hd name hname
  exact ⟨hi, hcov.snoc (by simp)⟩

/-- Contents of a stream that is dirty already. -/
theorem content (h : Guarding pre s) (hd : s.dirty = true) : Guarding (pre ++ [.content]) s := by
  have hrun := Frames.run_snoc .initial pre .content
  refine ⟨by rw [hrun]; exact h.ids, by rw [hrun]; exact h.opened, by rw [hrun]; exact h.ifndef,
    fun hd' => ?_, fun _ name hname => ?_, h.constant⟩
  · rw [hd] at hd'
    exact Bool.noConfusion hd'
  · obtain ⟨hi, hcov⟩ := h.dirty hd name hname
    obtain ⟨k, hk⟩ := Option.ne_none_iff_exists'.1 hi
    obtain ⟨name', hname', hmem⟩ := h.ifndef k hk
    obtain rfl := Option.mem_unique hname hname'
    exact ⟨hi, hcov.snoc fun _ => ⟨name, rfl, k, hmem⟩⟩

theorem dirty_content (h : Guarding pre s) : Guarding (pre ++ [.content]) s.dirtyStream :=
  h.dirtyStream.content (dirtyStream_dirty s)

/-! ### Opening a group -/

/-- A group that is not the guard. -/
theorem push (h : Guarding pre s) {it : Item} {guard : Option String}
    (hit : it = .ifndef guard ∨ it = .opening ∧ guard = none) (fn : ℕ) (v e : Bool) :
    Guarding (pre ++ [it]) (preprocessorIf s fn v e).stream := by
  have hadvance : (Frames.initial.run pre).advance it = (Frames.initial.run pre).push guard := by
    rcases hit with rfl | ⟨rfl, rfl⟩ <;> rfl
  have hne : it ≠ .content := by
    rcases hit with rfl | ⟨rfl, rfl⟩ <;> simp
  have hrun := Frames.run_snoc .initial pre it
  rw [hadvance] at hrun
  refine ⟨?_, ?_, fun k hk => ?_, fun hd => (h.clean hd).snoc fun h => absurd h hne,
    fun hd name hname => ?_, h.constant⟩
  · simp [preprocessorIf, hrun, Frames.push, h.ids, h.opened]
  · simp [preprocessorIf, hrun, Frames.push, h.opened]
  · obtain ⟨name, hname, hmem⟩ := h.ifndef k hk
    exact ⟨name, hname, by rw [hrun]; exact List.mem_cons_of_mem _ hmem⟩
  · obtain ⟨hi, hcov⟩ := h.dirty hd name hname
    exact ⟨hi, hcov.snoc fun h => absurd h hne⟩

theorem handleIfdef (h : Guarding pre s) (defined : String → Bool) (args : List Token) (fn : ℕ) :
    Guarding (pre ++ [.opening]) (handleIfdef defined args s fn).stream := by
  unfold Preprocess.handleIfdef
  cases argumentIdent args with
  | some name => exact h.push (Or.inr ⟨rfl, rfl⟩) _ _ _
  | none => exact h.dirtyStream.push (Or.inr ⟨rfl, rfl⟩) _ _ _

theorem handleIf (h : Guarding pre s) (v : Bool) (fn : ℕ) :
    Guarding (pre ++ [.opening]) (handleIf v s fn).stream := by
  unfold Preprocess.handleIf
  split
  · exact h.dirtyStream.push (Or.inr ⟨rfl, rfl⟩) _ _ _
  · exact h.dirtyStream.push (Or.inr ⟨rfl, rfl⟩) _ _ _

/-- The first guard of a file, or one of the same macro. -/
theorem guard (h : Guarding pre s) {name : String} (hd : s.dirty = false) (hi : s.ifndef = none)
    (hp : s.protect = none ∨ s.protect = some name) (fn : ℕ) (v e : Bool) {d : Bool}
    (hdirty : d = true ↔ s.protect = some name) :
    Guarding (pre ++ [.ifndef (some name)])
      (preprocessorIf { s with ifndef := some s.opened, protect := some name, dirty := d } fn v
        e).stream := by
  have hrun := Frames.run_snoc .initial pre (.ifndef (some name))
  have hclean := h.clean hd
  rw [if_pos hi] at hclean
  refine ⟨?_, ?_, fun k hk => ?_, fun hd' => ?_, fun hd' name' hname' => ?_, h.constant⟩
  · simp [preprocessorIf, hrun, Frames.advance, Frames.push, h.ids, h.opened]
  · simp [preprocessorIf, hrun, Frames.advance, Frames.push, h.opened]
  · obtain rfl := Option.mem_some_iff.1 hk
    refine ⟨name, rfl, ?_⟩
    rw [hrun, h.opened]
    exact List.mem_cons_self
  · rw [if_neg (by simp [preprocessorIf])]
    rcases hp with hp | hp
    · rw [hp] at hclean
      exact hclean.snoc (by simp)
    · rw [hdirty.2 hp] at hd'
      exact Bool.noConfusion hd'
  · obtain rfl := Option.mem_some_iff.1 hname'
    refine ⟨by simp [preprocessorIf], ?_⟩
    rw [hdirty.1 hd'] at hclean
    exact hclean.snoc (by simp)

theorem handleIfndef (h : Guarding pre s) (defined : String → Bool) (args : List Token) (fn : ℕ) :
    Guarding (pre ++ [.ifndef (argumentIdent args)]) (handleIfndef defined args s fn).stream := by
  unfold Preprocess.handleIfndef
  cases argumentIdent args with
  | none => exact h.dirtyStream.push (Or.inl rfl) _ _ _
  | some name =>
    dsimp only
    split_ifs with hclean hnone hsame
    · have hor : s.protect = none ∨ s.protect = some name := Or.inl hnone
      have hguard := h.guard hclean.1 hclean.2 hor fn (!defined name) false (d := false)
        (by simp [hnone])
      rw [← hclean.1] at hguard
      exact hguard
    · have hor : s.protect = none ∨ s.protect = some name := Or.inr hsame
      have hguard := h.guard hclean.1 hclean.2 hor fn (!defined name) false (d := true)
        (by simp [hsame])
      have hstream : { s with ifndef := some s.opened, dirty := true } =
          { s with ifndef := some s.opened, protect := some name, dirty := true } := by
        rw [← hsame]
      rw [hstream]
      exact hguard
    · exact h.push (Or.inl rfl) _ _ _
    · exact h.push (Or.inl rfl) _ _ _

/-! ### Branches and ends -/

theorem endGroup_nestingError (s : Stream) : s.endGroup.nestingError = s.nestingError := by
  unfold Stream.endGroup
  split_ifs <;> rfl

/-- The first branch of the guard is not open after `end_group`. -/
theorem endGroup_ifndef (s : Stream) :
    ∀ k ∈ s.endGroup.ifndef, s.topIf.head?.map IfToken.id ≠ some k := by
  intro k hk htop
  unfold Stream.endGroup at hk
  split_ifs at hk with h
  · simp at hk
  · simp at hk
  · simp at hk
  · exact h (hk.trans htop.symm)

theorem endGroup (h : Guarding pre s) (htop : s.topIf ≠ []) : Guarding pre s.endGroup := by
  unfold Stream.endGroup
  split
  · rename_i hguard
    have hi : s.ifndef ≠ none := by
      obtain ⟨top, below, hs⟩ := List.exists_cons_of_ne_nil htop
      rw [hguard, hs]
      simp
    split_ifs with hd hp
    · have hclean := h.clean hd
      rw [if_neg hi] at hclean
      refine ⟨h.ids, h.opened, by simp, fun _ => by simpa using hclean, fun hd' => ?_, h.constant⟩
      rw [hd] at hd'
      exact Bool.noConfusion hd'
    · obtain ⟨name, hname⟩ := Option.isSome_iff_exists.1 hp
      obtain ⟨-, hcov⟩ := h.dirty (by simpa using hd) name hname
      refine ⟨h.ids, h.opened, by simp, fun _ => ?_, by simp, h.constant⟩
      simpa [hname] using hcov
    · refine ⟨h.ids, h.opened, by simp, fun hd' => absurd hd' hd, fun _ name hname => ?_, h.constant⟩
      exact absurd (Option.isSome_of_mem hname) hp
  · exact h

/-- A new branch of a group that is not the guard. -/
theorem unguard (h : Guarding pre s) {it : Item} (hit : it = .elif ∨ it = .else_)
    (hne : ∀ k ∈ s.ifndef, s.topIf.head?.map IfToken.id ≠ some k) : Guarding (pre ++ [it]) s := by
  have hrun : Frames.initial.run (pre ++ [it]) = { Frames.initial.run pre with
      open_ := Frames.unguard (Frames.initial.run pre).open_ } := by
    rw [Frames.run_snoc]
    rcases hit with rfl | rfl <;> rfl
  have hcontent : it ≠ .content := by
    rcases hit with rfl | rfl <;> simp
  refine ⟨?_, ?_, fun k hk => ?_, fun hd => (h.clean hd).snoc fun h => absurd h hcontent,
    fun hd name hname => ?_, h.constant⟩
  · rw [hrun, Frames.unguard_ids]
    exact h.ids
  · rw [hrun]
    exact h.opened
  · obtain ⟨name, hname, hmem⟩ := h.ifndef k hk
    refine ⟨name, hname, ?_⟩
    rw [hrun]
    have hids := h.ids
    cases hf : (Frames.initial.run pre).open_ with
    | nil => simp [hf] at hmem
    | cons top below =>
      rw [hf] at hmem hids
      rcases List.mem_cons.1 hmem with rfl | hmem
      · refine absurd ?_ (hne k hk)
        rw [← List.head?_map, hids]
        rfl
      · exact List.mem_cons_of_mem _ hmem
  · obtain ⟨hi, hcov⟩ := h.dirty hd name hname
    exact ⟨hi, hcov.snoc fun h => absurd h hcontent⟩

/-- The end of a group that is not the guard. -/
theorem pop (h : Guarding pre s) (hne : ∀ k ∈ s.ifndef, s.topIf.head?.map IfToken.id ≠ some k) :
    Guarding (pre ++ [.endif]) { s with topIf := s.topIf.tail } := by
  have hrun := Frames.run_snoc .initial pre .endif
  refine ⟨?_, ?_, fun k hk => ?_, fun hd => (h.clean hd).snoc (by simp), fun hd name hname => ?_,
    h.constant⟩
  · rw [hrun]
    show s.topIf.tail.map IfToken.id = (Frames.initial.run pre).open_.tail.map Frame.id
    rw [List.map_tail, h.ids, List.map_tail]
  · rw [hrun]
    exact h.opened
  · obtain ⟨name, hname, hmem⟩ := h.ifndef k hk
    refine ⟨name, hname, ?_⟩
    rw [hrun]
    show _ ∈ (Frames.initial.run pre).open_.tail
    have hids := h.ids
    cases hf : (Frames.initial.run pre).open_ with
    | nil => simp [hf] at hmem
    | cons top below =>
      rw [hf] at hmem hids
      rcases List.mem_cons.1 hmem with rfl | hmem
      · refine absurd ?_ (hne k hk)
        rw [← List.head?_map, hids]
        rfl
      · exact hmem
  · obtain ⟨hi, hcov⟩ := h.dirty hd name hname
    exact ⟨hi, hcov.snoc (by simp)⟩

/-- A directive without an open group. -/
theorem unmatched (h : Guarding pre s) {it : Item} (hit : it = .elif ∨ it = .else_ ∨ it = .endif)
    (htop : s.topIf = []) : Guarding (pre ++ [it]) s.endGroup.nestingError := by
  have hne : ∀ k ∈ s.nestingError.ifndef, s.nestingError.topIf.head?.map IfToken.id ≠ some k := by
    intro k hk
    simp [Stream.nestingError] at hk
  rw [endGroup_nestingError]
  rcases hit with rfl | rfl | rfl
  · exact h.nestingError.unguard (Or.inl rfl) hne
  · exact h.nestingError.unguard (Or.inr rfl) hne
  · have hpop := h.nestingError.pop hne
    rw [Stream.nestingError_topIf, htop] at hpop
    rw [show s.nestingError = { s.nestingError with topIf := [] } by
      rw [← htop]
      rfl]
    exact hpop

theorem handleElif (h : Guarding pre s) (v : Bool) (fn : ℕ) :
    Guarding (pre ++ [.elif]) (handleElif v s fn).stream := by
  unfold Preprocess.handleElif
  dsimp only
  have htop : s.endGroup.topIf = s.topIf := Stream.endGroup_topIf s
  split
  · rename_i hnil
    exact h.unmatched (Or.inl rfl) (htop.symm.trans hnil)
  · rename_i top below hcons
    have hcons' : s.topIf = top :: below := htop.symm.trans hcons
    have hgroup := h.endGroup (by rw [hcons']; simp)
    have hdirty : Guarding (pre ++ [.elif]) s.endGroup.dirtyStream := by
      refine hgroup.dirtyStream.unguard (Or.inl rfl) fun k hk => ?_
      rw [Stream.dirtyStream_topIf, htop]
      refine endGroup_ifndef s k ?_
      unfold Stream.dirtyStream at hk
      split at hk <;> exact hk
    split
    · rw [endGroup_nestingError]
      refine h.nestingError.unguard (Or.inl rfl) fun k hk => ?_
      simp [Stream.nestingError] at hk
    · split
      · exact hdirty
      · split
        · exact hdirty
        · refine hdirty.with_topIf ?_
          rw [Stream.dirtyStream_topIf, hcons]
          rfl

theorem handleElse (h : Guarding pre s) (fn : ℕ) :
    Guarding (pre ++ [.else_]) (handleElse s fn).stream := by
  unfold Preprocess.handleElse
  dsimp only
  have htop : s.endGroup.topIf = s.topIf := Stream.endGroup_topIf s
  split
  · rename_i hnil
    exact h.unmatched (Or.inr (Or.inl rfl)) (htop.symm.trans hnil)
  · rename_i top below hcons
    have hcons' : s.topIf = top :: below := htop.symm.trans hcons
    split
    · rw [endGroup_nestingError]
      have herror : Guarding (pre ++ [.else_]) s.nestingError := by
        refine h.nestingError.unguard (Or.inr rfl) fun k hk => ?_
        simp [Stream.nestingError] at hk
      refine herror.with_topIf ?_
      rw [Stream.nestingError_topIf, hcons']
      rfl
    · have hgroup : Guarding (pre ++ [.else_]) s.endGroup := by
        refine (h.endGroup (by rw [hcons']; simp)).unguard (Or.inr rfl) ?_
        rw [htop]
        exact endGroup_ifndef s
      refine hgroup.with_topIf ?_
      rw [hcons]
      rfl

theorem handleEndif (h : Guarding pre s) (fn : ℕ) :
    Guarding (pre ++ [.endif]) (handleEndif s fn).stream := by
  unfold Preprocess.handleEndif
  dsimp only
  have htop : s.endGroup.topIf = s.topIf := Stream.endGroup_topIf s
  split
  · rename_i hnil
    exact h.unmatched (Or.inr (Or.inr rfl)) (htop.symm.trans hnil)
  · rename_i top below hcons
    have hcons' : s.topIf = top :: below := htop.symm.trans hcons
    have hpop := (h.endGroup (by rw [hcons']; simp)).pop (by
      rw [htop]
      exact endGroup_ifndef s)
    rw [hcons] at hpop
    exact hpop

/-- A conditional line of the file. -/
theorem handle {M : Type} {env : Environment M} {macros : M} {d : Directive} {c : Conditional}
    (hc : conditionalOf env macros d = some c) (h : Guarding pre s) (fn : ℕ) :
    Guarding (pre ++ [d.item]) (handle env macros d s fn).stream := by
  cases d with
  | ifdef args => exact h.handleIfdef _ args fn
  | ifndef args => exact h.handleIfndef _ args fn
  | if_ expr => exact h.handleIf _ fn
  | elif expr => exact h.handleElif _ fn
  | else_ => exact h.handleElse fn
  | endif => exact h.handleEndif fn
  | null => simp [conditionalOf] at hc
  | normal => simp [conditionalOf] at hc

/-- A clean stream without open groups: its file is covered by the guard. -/
theorem covered (h : Guarding pre s) (hd : s.dirty = false) (htop : s.topIf = []) :
    (Frames.initial.run pre).open_ = [] ∧ Covered s.protect .initial pre := by
  have hopen : (Frames.initial.run pre).open_ = [] := by
    have hids := h.ids
    rw [htop] at hids
    exact List.map_eq_nil_iff.1 hids.symm
  refine ⟨hopen, ?_⟩
  have hi : s.ifndef = none := by
    refine Option.eq_none_iff_forall_not_mem.2 fun k hk => ?_
    obtain ⟨name, -, hmem⟩ := h.ifndef k hk
    rw [hopen] at hmem
    simp at hmem
  have hclean := h.clean hd
  rwa [if_pos hi] at hclean

end Guarding

end Sparse.Preprocess
