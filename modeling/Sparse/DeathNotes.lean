import Sparse.LivenessFixpoint
import Sparse.PtrListReverse
import Sparse.PtrListRuns

/-!
# Death notes

`track_pseudo_death` marks where in its block each pseudo dies: backwards through the
instructions of a block it inserts an `OP_DEATHNOTE` in front of the first that it finds to
use a pseudo which is not live any more. The instructions of a block are a pointer list, and
the notes go into its blocks during the iteration. What `track_bb_phi_uses` records before
is read by none of this.
-/

namespace Sparse

open PtrList CircularChain

/-- `add_pseudo_exclusive`. -/
def addPseudoExclusive (list : List Pseudo) (pseudo : Pseudo) : List Pseudo :=
  if pseudo ∈ list then list else list ++ [pseudo]

/-- `merge_pseudo_list`. -/
def mergePseudoList (src dest : List Pseudo) : List Pseudo :=
  src.foldl addPseudoExclusive dest

/-- `death_use` and `death_def`, with `live_list` and `dead_list`. -/
def deathUse (lists : List Pseudo × List Pseudo) : Usage → List Pseudo × List Pseudo
  | .use _ pseudo =>
    if trackablePseudo pseudo ∧ pseudo ∉ lists.1 then (lists.1 ++ [pseudo], lists.2 ++ [pseudo])
    else lists
  | .define _ _ => lists

/-- A note as `track_pseudo_death_bb` fills it in. -/
def deathnote (bb : BlockId) (dead : Pseudo) : Instruction :=
  { opcode := .deathnote, bb := some bb, target := dead }

namespace Ir

/-- `__alloc_instruction`, and what is stored in the new instruction. -/
def allocInstruction (ir : Ir) (insn : Instruction) : Ir × InsnId :=
  ({ ir with insn := Function.update ir.insn ir.nextInsn insn, nextInsn := ir.nextInsn + 1 }, ir.nextInsn)

/-- `live` at the end of a block. -/
def liveAtEnd (ir : Ir) (bb : BlockId) : List Pseudo :=
  (ir.block bb).children.foldl (fun live child => mergePseudoList (ir.block child).needs live) []

end Ir

/-- The loop over `dead_list`. -/
def insertDeathnote (bb : BlockId) (c : ReverseCursor InsnId (Ir × List Pseudo)) (dead : Pseudo) :
    ReverseCursor InsnId (Ir × List Pseudo) :=
  let (ir, note) := c.state.1.allocInstruction (deathnote bb dead)
  { c with state := (ir, c.state.2) }.insert ⟨note, 0⟩

/-- The body of the loop of `track_pseudo_death_bb`. -/
def markDeaths (nesting : ℕ) (bb : BlockId) (insn : Entry InsnId)
    (c : ReverseCursor InsnId (Ir × List Pseudo)) : Option (ReverseCursor InsnId (Ir × List Pseudo)) :=
  let (ir, live) := c.state
  if (ir.insn insn.ptr).bb = none then some c
  else
    (ir.trackInstructionUsage nesting bb insn.ptr).map fun events =>
      let (live, dead) := events.foldl deathUse (live, [])
      dead.foldl (insertDeathnote bb) { c with state := (ir, live) }

/-- `track_pseudo_death_bb`. The list `insns` is the instruction list of the block. -/
def trackPseudoDeathBb (nesting fuel : ℕ) (ir : Ir) (h : Heap InsnId) (insns : Option ℕ) (bb : BlockId) :
    Option (Heap InsnId × Ir) :=
  (forEachPtrReverseDo (markDeaths nesting bb) fuel h (ir, ir.liveAtEnd bb) insns).map
    fun (h, ir, _) => (h, ir)

/-- One round of the second loop of `track_pseudo_death`. -/
def trackDeathsOf (nesting fuel : ℕ) (x : Ir × Store BlockId InsnId) (bb : BlockId) :
    Option (Ir × Store BlockId InsnId) :=
  (trackPseudoDeathBb nesting fuel x.1 x.2.heap (x.2.lists bb) bb).map
    fun (h, ir) => (ir, { x.2 with heap := h })

/-- `track_pseudo_death`. -/
def trackPseudoDeath (nesting fuel : ℕ) (ir : Ir) (s : Store BlockId InsnId) :
    Option (Ir × Store BlockId InsnId) :=
  ir.bbs.foldlM (trackDeathsOf nesting fuel) (ir, s)

/-! ## What the notes should be -/

namespace Ir

/-- An instruction in a block uses the pseudo. -/
def Uses (ir : Ir) (i : InsnId) (p : Pseudo) : Prop :=
  ir.live i ∧ p ∈ ir.uses i

/-- A child of the block needs the pseudo. -/
def NeededBelow (ir : Ir) (bb : BlockId) (p : Pseudo) : Prop :=
  ∃ child ∈ (ir.block bb).children, p ∈ (ir.block child).needs

/-- The last use of the pseudo is among the instructions. -/
def Dies (ir : Ir) (needed : Pseudo → Prop) (insns : List InsnId) (p : Pseudo) : Prop :=
  trackablePseudo p ∧ ¬ needed p ∧ ∃ i ∈ insns, ir.Uses i p

end Ir

/-- The second heap has more instructions, and these are notes. -/
structure Noted (ir ir' : Ir) : Prop where
  frame : ir' = { ir with insn := ir'.insn, nextInsn := ir'.nextInsn }
  next : ir.nextInsn ≤ ir'.nextInsn
  old : ∀ i < ir.nextInsn, ir'.insn i = ir.insn i
  new : ∀ i, ir'.insn i = ir.insn i ∨ ∃ bb p, ir'.insn i = deathnote bb p

/-- One new note is for the pseudo, and only new notes stand between it and the last
instruction that uses the pseudo. -/
def OneNote (ir ir' : Ir) (p : Pseudo) (insns : List InsnId) : Prop :=
  ∃ front note notes i back, insns = front ++ note :: (notes ++ i :: back) ∧
    (ir.nextInsn ≤ note ∧ (ir'.insn note).target = p) ∧ (∀ j ∈ notes, ir.nextInsn ≤ j) ∧
    (i < ir.nextInsn ∧ ir.Uses i p) ∧ (∀ j ∈ back, j < ir.nextInsn → ¬ ir.Uses j p) ∧
    ∀ j ∈ front ++ notes ++ back, ir.nextInsn ≤ j → (ir'.insn j).target ≠ p

/-- The instructions `insns` became `insns'`: the others are as they were and in their order, and
what is new are the notes of the pseudos that die, one for each. -/
structure ExactNotes (ir : Ir) (bb : BlockId) (needed : Pseudo → Prop) (insns : List InsnId) (ir' : Ir)
    (insns' : List InsnId) : Prop where
  noted : Noted ir ir'
  others : insns'.filter (· < ir.nextInsn) = insns
  allocated : ∀ i ∈ insns', i < ir'.nextInsn
  notes : ∀ i ∈ insns', ir.nextInsn ≤ i → ∃ p, ir'.insn i = deathnote bb p ∧ ir.Dies needed insns p
  one : ∀ p, ir.Dies needed insns p → OneNote ir ir' p insns'

variable {ir ir' ir'' : Ir} {bb : BlockId} {needed : Pseudo → Prop} {insns insns' : List InsnId}
  {p : Pseudo} {i : InsnId} {nesting : ℕ}

namespace Noted

theorem refl (ir : Ir) : Noted ir ir :=
  ⟨rfl, Nat.le_refl _, fun _ _ => rfl, fun _ => .inl rfl⟩

theorem trans (h : Noted ir ir') (h' : Noted ir' ir'') : Noted ir ir'' where
  frame := by rw [h'.frame, h.frame]
  next := h.next.trans h'.next
  old i hi := (h'.old i (Nat.lt_of_lt_of_le hi h.next)).trans (h.old i hi)
  new i := by
    rcases h'.new i with heq | hnote
    · rw [heq]
      exact h.new i
    · exact .inr hnote

theorem block (h : Noted ir ir') : ir'.block = ir.block := by rw [h.frame]

theorem cell (h : Noted ir ir') : ir'.cell = ir.cell := by rw [h.frame]

theorem definition (h : Noted ir ir') : ir'.definition = ir.definition := by rw [h.frame]

theorem uses (h : Noted ir ir') (hi : i < ir.nextInsn) : ir'.uses i = ir.uses i := by
  rw [Ir.uses, Ir.uses, h.old i hi, h.cell]

theorem live_iff (h : Noted ir ir') (hi : i < ir.nextInsn) : ir'.live i ↔ ir.live i := by
  rw [Ir.live, Ir.live, h.old i hi]

/-- The callbacks are still called on the instructions there were. -/
theorem trackInstructionUsage_isSome (h : Noted ir ir') (hi : i < ir.nextInsn)
    (hu : (ir.trackInstructionUsage nesting bb i).isSome) :
    (ir'.trackInstructionUsage nesting bb i).isSome := by
  refine Ir.trackInstructionUsage_isSome_congr h.cell h.definition (fun j => ?_) (h.old i hi) hu
  exact (h.new j).imp_right fun ⟨b, q, hnote⟩ => by simp [hnote, deathnote]

end Noted

/-! ## The notes of one instruction -/

/-- The notes for the pseudos `dead`, made in their order. -/
def deathnotes (bb : BlockId) : List Pseudo → Ir → Ir × List InsnId
  | [], ir => (ir, [])
  | dead :: deads, ir =>
    let (ir, note) := ir.allocInstruction (deathnote bb dead)
    let (ir, notes) := deathnotes bb deads ir
    (ir, note :: notes)

theorem noted_allocInstruction (ir : Ir) (bb : BlockId) (p : Pseudo) :
    Noted ir (ir.allocInstruction (deathnote bb p)).1 where
  frame := rfl
  next := Nat.le_succ _
  old _ hi := Function.update_of_ne hi.ne ..
  new i := by
    rcases eq_or_ne i ir.nextInsn with rfl | hne
    · exact .inr ⟨bb, p, Function.update_self ..⟩
    · exact .inl (Function.update_of_ne hne ..)

theorem deathnotes_spec (bb : BlockId) (dead : List Pseudo) (ir : Ir) :
    Noted ir (deathnotes bb dead ir).1 ∧
      (∀ i ∈ (deathnotes bb dead ir).2, ir.nextInsn ≤ i ∧ i < (deathnotes bb dead ir).1.nextInsn) ∧
      (deathnotes bb dead ir).2.map (deathnotes bb dead ir).1.insn = dead.map (deathnote bb) := by
  induction dead generalizing ir with
  | nil => exact ⟨.refl ir, by simp [deathnotes], rfl⟩
  | cons p dead ih =>
    have halloc := noted_allocInstruction ir bb p
    obtain ⟨hnoted, hnotes, hmap⟩ := ih (ir.allocInstruction (deathnote bb p)).1
    have hnext : ir.nextInsn < (ir.allocInstruction (deathnote bb p)).1.nextInsn := Nat.lt_succ_self _
    refine ⟨halloc.trans hnoted, fun i hi => ?_, ?_⟩
    · rcases List.mem_cons.1 hi with rfl | hi
      · exact ⟨Nat.le_refl _, Nat.lt_of_lt_of_le hnext hnoted.next⟩
      · exact ⟨hnext.le.trans (hnotes i hi).1, (hnotes i hi).2⟩
    · have hfirst : (ir.allocInstruction (deathnote bb p)).1.insn ir.nextInsn = deathnote bb p :=
        Function.update_self ..
      simp only [deathnotes, List.map_cons, hmap]
      exact congrArg (· :: _) ((hnoted.old _ hnext).trans hfirst)

/-- The lists after some events, from the list `before` on: a pseudo joins both lists once, if it is
tracked and not live. -/
structure Found (before : List Pseudo) (events : List Usage) (lists : List Pseudo × List Pseudo) :
    Prop where
  nodup : lists.2.Nodup
  live : ∀ p, p ∈ lists.1 ↔ p ∈ before ∨ trackablePseudo p ∧ ∃ b, .use b p ∈ events
  dead : ∀ p, p ∈ lists.2 ↔ p ∉ before ∧ trackablePseudo p ∧ ∃ b, .use b p ∈ events

theorem Found.foldl (before : List Pseudo) (events : List Usage) :
    Found before events (events.foldl deathUse (before, [])) := by
  induction events using List.reverseRecOn with
  | nil => exact ⟨List.nodup_nil, by simp, by simp⟩
  | append_singleton events u ih =>
    rw [List.foldl_append, List.foldl_cons, List.foldl_nil]
    generalize events.foldl deathUse (before, []) = lists at ih ⊢
    obtain ⟨hnodup, hlive, hdead⟩ := ih
    cases u with
    | define b q =>
      refine ⟨hnodup, fun p => ?_, fun p => ?_⟩
      · simpa [deathUse] using hlive p
      · simpa [deathUse] using hdead p
    | use b q =>
      have hmem : ∀ p, (∃ b', Usage.use b' p ∈ events ++ [.use b q]) ↔
          (∃ b', .use b' p ∈ events) ∨ p = q := by
        simp [exists_or]
      rw [deathUse]
      split_ifs with hq
      · have hnew : q ∉ lists.2 := fun hmem =>
          hq.2 ((hlive q).2 (.inr ((hdead q).1 hmem).2))
        refine ⟨hnodup.append (List.nodup_singleton q) (List.disjoint_singleton.2 hnew), fun p => ?_, fun p => ?_⟩
        · rw [hmem, List.mem_append, List.mem_singleton, hlive]
          grind
        · rw [hmem, List.mem_append, List.mem_singleton, hdead]
          grind
      · refine ⟨hnodup, fun p => ?_, fun p => ?_⟩
        · rw [hmem, hlive]
          grind
        · rw [hmem, hdead]
          grind

/-! ## The notes of a block -/

/-- A list of instructions as a pointer list holds it. -/
def entries (insns : List InsnId) : List (Entry InsnId) :=
  insns.map (⟨·, 0⟩)

/-- What the loop puts in front of one instruction. -/
def noteDeaths (nesting : ℕ) (bb : BlockId) (insn : Entry InsnId) (s : Ir × List Pseudo) :
    Option ((Ir × List Pseudo) × List (Entry InsnId)) :=
  let (ir, live) := s
  if (ir.insn insn.ptr).bb = none then some ((ir, live), [])
  else
    (ir.trackInstructionUsage nesting bb insn.ptr).map fun events =>
      let (live, dead) := events.foldl deathUse (live, [])
      let (ir, notes) := deathnotes bb dead ir
      ((ir, live), entries notes)

theorem noteDeaths_of_dead {live : List Pseudo} (h : ¬ ir.live i) :
    noteDeaths nesting bb ⟨i, 0⟩ (ir, live) = some ((ir, live), entries []) :=
  if_pos (not_not.1 h)

theorem noteDeaths_of_live {live : List Pseudo} {events : List Usage} (h : ir.live i)
    (hevents : ir.trackInstructionUsage nesting bb i = some events) :
    noteDeaths nesting bb ⟨i, 0⟩ (ir, live) =
      some (((deathnotes bb (events.foldl deathUse (live, [])).2 ir).1, (events.foldl deathUse (live, [])).1),
        entries (deathnotes bb (events.foldl deathUse (live, [])).2 ir).2) := by
  rw [noteDeaths, if_neg h, hevents, Option.map_some]

theorem weave_entries_cons {f : Entry InsnId → Ir × List Pseudo → Option ((Ir × List Pseudo) × List (Entry InsnId))}
    {s s' s'' : Ir × List Pseudo} {news : List InsnId}
    (hweave : weave f (entries insns) s = some (s', entries insns'))
    (hf : f ⟨i, 0⟩ s' = some (s'', entries news)) :
    weave f (entries (i :: insns)) s = some (s'', entries (news.reverse ++ i :: insns')) := by
  rw [entries, List.map_cons, weave, ← entries, hweave]
  simp only [Option.bind_eq_bind, Option.bind_some, Entry.untag, hf]
  simp [entries]

theorem foldl_insertDeathnote (dead : List Pseudo) (c : ReverseCursor InsnId (Ir × List Pseudo)) :
    dead.foldl (insertDeathnote bb) c =
      (entries (deathnotes bb dead c.state.1).2).foldl ReverseCursor.insert
        { c with state := ((deathnotes bb dead c.state.1).1, c.state.2) } := by
  induction dead generalizing c with
  | nil => rfl
  | cons p dead ih => exact ih (insertDeathnote bb c p)

theorem markDeaths_eq : markDeaths nesting bb = insertsFront (noteDeaths nesting bb) := by
  funext insn c
  obtain ⟨h, list, nr, ir, live⟩ := c
  simp only [markDeaths, insertsFront, noteDeaths]
  split_ifs with hbb
  · rfl
  · rw [Option.map_map]
    exact congrArg (Option.map · _) (funext fun events => foldl_insertDeathnote _ _)

/-- One more instruction in front: the notes for what dies there. -/
theorem ExactNotes.cons (h : ExactNotes ir bb needed insns ir' insns') (hi : i < ir.nextInsn)
    {dead : List Pseudo} (hnodup : dead.Nodup)
    (hdead : ∀ p, p ∈ dead ↔ trackablePseudo p ∧ ¬ needed p ∧ (∀ j ∈ insns, ¬ ir.Uses j p) ∧ ir.Uses i p) :
    ExactNotes ir bb needed (i :: insns) (deathnotes bb dead ir').1
      ((deathnotes bb dead ir').2.reverse ++ i :: insns') := by
  obtain ⟨hnoted, hnew, hmap⟩ := deathnotes_spec bb dead ir'
  have hnotes : ∀ j ∈ (deathnotes bb dead ir').2, ir.nextInsn ≤ j := fun j hj =>
    h.noted.next.trans (hnew j hj).1
  have hnote : ∀ j ∈ (deathnotes bb dead ir').2, ∃ p ∈ dead,
      (deathnotes bb dead ir').1.insn j = deathnote bb p := by
    intro j hj
    have hmem := List.mem_map_of_mem (f := (deathnotes bb dead ir').1.insn) hj
    rw [hmap] at hmem
    obtain ⟨p, hp, heq⟩ := List.mem_map.1 hmem
    exact ⟨p, hp, heq.symm⟩
  have hold : ∀ j ∈ insns', (deathnotes bb dead ir').1.insn j = ir'.insn j := fun j hj =>
    hnoted.old j (h.allocated j hj)
  have hmore : ∀ p, ir.Dies needed insns p → ir.Dies needed (i :: insns) p :=
    fun _ ⟨ht, hn, j, hj, hu⟩ => ⟨ht, hn, j, List.mem_cons_of_mem i hj, hu⟩
  refine ⟨h.noted.trans hnoted, ?_, fun j hj => ?_, fun j hj hnext => ?_, fun p hp => ?_⟩
  · have hnone : (deathnotes bb dead ir').2.reverse.filter (· < ir.nextInsn) = [] :=
      List.filter_eq_nil_iff.2 fun j hj => by simpa using hnotes j (List.mem_reverse.1 hj)
    rw [List.filter_append, hnone, List.nil_append, List.filter_cons_of_pos (by simpa using hi), h.others]
  · rcases List.mem_append.1 hj with hj | hj
    · exact (hnew j (List.mem_reverse.1 hj)).2
    · rcases List.mem_cons.1 hj with rfl | hj
      · exact Nat.lt_of_lt_of_le hi (h.noted.trans hnoted).next
      · exact Nat.lt_of_lt_of_le (h.allocated j hj) hnoted.next
  · rcases List.mem_append.1 hj with hj | hj
    · obtain ⟨p, hp, heq⟩ := hnote j (List.mem_reverse.1 hj)
      obtain ⟨ht, hn, -, hu⟩ := (hdead p).1 hp
      exact ⟨p, heq, ht, hn, i, List.mem_cons_self, hu⟩
    · rcases List.mem_cons.1 hj with rfl | hj
      · exact absurd hi (Nat.not_lt.2 hnext)
      · obtain ⟨p, heq, hp⟩ := h.notes j hj hnext
        exact ⟨p, (hold j hj).trans heq, hmore p hp⟩
  · by_cases hlater : ∃ j ∈ insns, ir.Uses j p
    · -- The note stands already, and none of the new ones is for this pseudo.
      obtain ⟨front, note, notes, k, back, rfl, ⟨hnew', htarget⟩, hbetween, hlast, hback, hone⟩ :=
        h.one p ⟨hp.1, hp.2.1, hlater⟩
      refine ⟨(deathnotes bb dead ir').2.reverse ++ i :: front, note, notes, k, back, by simp,
        ⟨hnew', by rw [hold note (by simp), htarget]⟩, hbetween, hlast, hback, fun j hj hnext => ?_⟩
      have hcases : j ∈ (deathnotes bb dead ir').2 ∨ j = i ∨ j ∈ front ++ notes ++ back := by
        simpa [or_assoc] using hj
      rcases hcases with hj | rfl | hj
      · obtain ⟨q, hq, heq⟩ := hnote j hj
        rw [heq]
        rintro rfl
        obtain ⟨k, hk, hu⟩ := hlater
        exact ((hdead _).1 hq).2.2.1 k hk hu
      · exact absurd hi (Nat.not_lt.2 hnext)
      · rw [hold j (by simp only [List.mem_append, List.mem_cons] at hj ⊢; tauto)]
        exact hone j hj hnext
    · -- The instruction is the last that uses the pseudo.
      have hnone : ∀ j ∈ insns, ¬ ir.Uses j p := fun j hj hu => hlater ⟨j, hj, hu⟩
      have hu : ir.Uses i p := by
        obtain ⟨-, -, j, hj, hu⟩ := hp
        rcases List.mem_cons.1 hj with rfl | hj
        · exact hu
        · exact absurd hu (hnone j hj)
      have htargets : (deathnotes bb dead ir').2.map (fun j => ((deathnotes bb dead ir').1.insn j).target) =
          dead := by
        have htarget := congrArg (List.map Instruction.target) hmap
        rw [List.map_map, List.map_map] at htarget
        exact htarget.trans (List.map_id dead)
      obtain ⟨note, hmem, htarget⟩ := List.mem_map.1 (htargets.symm ▸ (hdead p).2 ⟨hp.1, hp.2.1, hnone, hu⟩)
      obtain ⟨front, notes, hsplit⟩ := List.append_of_mem (List.mem_reverse.2 hmem)
      have hin : ∀ j ∈ front ++ note :: notes, j ∈ (deathnotes bb dead ir').2 := fun j hj =>
        List.mem_reverse.1 (hsplit ▸ hj)
      refine ⟨front, note, notes, i, insns', by rw [hsplit]; simp, ⟨hnotes note hmem, htarget⟩,
        fun j hj => hnotes j (hin j (by simp [hj])), ⟨hi, hu⟩, fun j hj hlt => ?_, fun j hj hnext => ?_⟩
      · have hkept : j ∈ insns := by
          rw [← h.others]
          exact List.mem_filter.2 ⟨hj, by simpa using hlt⟩
        exact hnone j hkept
      · rcases List.mem_append.1 hj with hj | hj
        · have hdistinct : ((front ++ note :: notes).map
              (fun j => ((deathnotes bb dead ir').1.insn j).target)).Nodup := by
            rw [← hsplit, List.map_reverse, htargets]
            exact List.nodup_reverse.2 hnodup
          rw [← htarget]
          intro heq
          rw [List.map_append, List.map_cons, List.nodup_middle, List.nodup_cons, ← List.map_append] at hdistinct
          exact hdistinct.1 (List.mem_map.2 ⟨j, hj, heq⟩)
        · obtain ⟨q, heq, -, -, hq⟩ := h.notes j hj hnext
          rw [hold j hj, heq]
          rintro rfl
          exact hlater hq

/-- The loop of `track_pseudo_death_bb` on the sequence of the instructions. -/
theorem weave_noteDeaths (live : List Pseudo)
    (hinsns : ∀ i ∈ insns, i < ir.nextInsn ∧
      (ir.live i → (ir.trackInstructionUsage nesting bb i).isSome)) :
    ∃ ir' live' insns', weave (noteDeaths nesting bb) (entries insns) (ir, live) =
        some ((ir', live'), entries insns') ∧
      ExactNotes ir bb (· ∈ live) insns ir' insns' ∧
      ∀ p, p ∈ live' ↔ p ∈ live ∨ trackablePseudo p ∧ ∃ j ∈ insns, ir.Uses j p := by
  induction insns with
  | nil =>
    have hnone : ∀ p, ¬ ir.Dies (· ∈ live) [] p := fun p ⟨_, _, i, hi, _⟩ => by simp at hi
    exact ⟨ir, live, [], rfl, ⟨.refl ir, rfl, by simp, by simp, fun p hp => absurd hp (hnone p)⟩, by simp⟩
  | cons i insns ih =>
    obtain ⟨ir', live', insns', hweave, hexact, hlive⟩ :=
      ih fun j hj => hinsns j (List.mem_cons_of_mem i hj)
    obtain ⟨hi, husage⟩ := hinsns i List.mem_cons_self
    by_cases hbb : ir.live i
    · obtain ⟨events, hevents⟩ := Option.isSome_iff_exists.1
        (hexact.noted.trackInstructionUsage_isSome hi (husage hbb))
      have hfound := Found.foldl live' events
      have huse : ∀ p, (∃ b, Usage.use b p ∈ events) ↔ ir.Uses i p := fun p => by
        simp only [(Ir.mem_trackInstructionUsage hevents _ p).1, hexact.noted.uses hi, exists_eq_left, Ir.Uses,
          hbb, true_and]
      refine ⟨(deathnotes bb (events.foldl deathUse (live', [])).2 ir').1,
        (events.foldl deathUse (live', [])).1,
        (deathnotes bb (events.foldl deathUse (live', [])).2 ir').2.reverse ++ i :: insns', ?_,
        hexact.cons hi hfound.nodup fun p => ?_, fun p => ?_⟩
      · exact weave_entries_cons hweave (noteDeaths_of_live ((hexact.noted.live_iff hi).2 hbb) hevents)
      · rw [hfound.dead, huse, hlive]
        simp only [not_or, not_and, not_exists]
        tauto
      · rw [hfound.live, huse, hlive]
        simp only [List.mem_cons, exists_eq_or_imp]
        rw [or_assoc, ← and_or_left, or_comm (b := ir.Uses i p)]
    · have hnot : ∀ p, ¬ ir.Uses i p := fun p hu => hbb hu.1
      refine ⟨ir', live', i :: insns', ?_, ?_, fun p => ?_⟩
      · exact weave_entries_cons hweave (noteDeaths_of_dead (mt (hexact.noted.live_iff hi).1 hbb))
      · have hnil : ([] : List Pseudo).Nodup := List.nodup_nil
        exact hexact.cons hi hnil fun p => by simp [hnot p]
      · rw [hlive]
        simp [hnot p]

theorem mem_mergePseudoList {src dest : List Pseudo} :
    p ∈ mergePseudoList src dest ↔ p ∈ dest ∨ p ∈ src := by
  induction src generalizing dest with
  | nil => simp [mergePseudoList]
  | cons q src ih =>
    have hadd : p ∈ addPseudoExclusive dest q ↔ p ∈ dest ∨ p = q := by
      rw [addPseudoExclusive]
      split_ifs with hq
      · exact ⟨.inl, Or.rec id fun h => h ▸ hq⟩
      · simp
    rw [mergePseudoList, List.foldl_cons, ← mergePseudoList, ih, hadd, List.mem_cons, or_assoc]

theorem mem_liveAtEnd : p ∈ ir.liveAtEnd bb ↔ ir.NeededBelow bb p := by
  have hfold : ∀ (children : List BlockId) (live : List Pseudo),
      p ∈ children.foldl (fun live child => mergePseudoList (ir.block child).needs live) live ↔
        p ∈ live ∨ ∃ child ∈ children, p ∈ (ir.block child).needs := by
    intro children
    induction children with
    | nil => simp
    | cons child children ih =>
      intro live
      rw [List.foldl_cons, ih, mem_mergePseudoList]
      simp only [List.mem_cons, exists_eq_or_imp, or_assoc]
  rw [Ir.liveAtEnd, hfold]
  simp [Ir.NeededBelow]

/-- One call leaves exact notes, however the insertions split the blocks of the list. -/
theorem trackPseudoDeathBb_exact {h : Heap InsnId} {listp : Option ℕ} {bs : List ℕ} (hh : Holds h listp bs)
    (hseq : sequence h bs = entries insns)
    (hinsns : ∀ i ∈ insns, i < ir.nextInsn ∧
      (ir.live i → (ir.trackInstructionUsage nesting bb i).isSome)) :
    ∃ n h' ir' bs' insns', (∀ fuel ≥ n, trackPseudoDeathBb nesting fuel ir h listp bb = some (h', ir')) ∧
      Acts h bs h' listp bs' (entries insns') ∧ ExactNotes ir bb (ir.NeededBelow bb) insns ir' insns' := by
  obtain ⟨ir', live', insns', hweave, hexact, -⟩ := weave_noteDeaths (ir.liveAtEnd bb) hinsns
  obtain ⟨n, h', bs', hloop, hacts⟩ := forEachPtrReverseDo_weave hh (hseq ▸ hweave)
  have hneeded : (· ∈ ir.liveAtEnd bb) = ir.NeededBelow bb := funext fun p => propext mem_liveAtEnd
  refine ⟨n, h', ir', bs', insns', fun fuel hfuel => ?_, hacts, hneeded ▸ hexact⟩
  rw [trackPseudoDeathBb, markDeaths_eq, hloop fuel hfuel]
  rfl

/-! ## The pass -/

/-- The state between two calls, after those for the blocks `done_`. -/
structure Between (nesting : ℕ) (ir : Ir) (done_ : List BlockId) (x : Ir × Store BlockId InsnId)
    (blocks : BlockId → List ℕ) (insns : BlockId → List InsnId) : Prop where
  valid : Valid x.2 blocks
  noted : Noted ir x.1
  sequences : ∀ bb ∈ ir.bbs, sequences x.2 blocks bb = entries (insns bb)
  usage : ∀ bb ∈ ir.bbs, ∀ i ∈ insns bb, i < x.1.nextInsn ∧
    (x.1.live i → (x.1.trackInstructionUsage nesting bb i).isSome)
  untouched : ∀ bb ∈ ir.bbs, bb ∉ done_ → insns bb = (ir.block bb).insns

/-- A call of `track_pseudo_death_bb` for the block `bb`, after those for the blocks `done_`, leaves
exact notes in the list of the block, and all other lists as they are. -/
def ExactCall (ir : Ir) (done_ : List BlockId) (bb : BlockId) (x y : Ir × Store BlockId InsnId) : Prop :=
  ∃ blocks insns blocks' insns', Noted ir x.1 ∧
    (Valid x.2 blocks ∧ sequences x.2 blocks bb = entries insns) ∧
    (Valid y.2 blocks' ∧ sequences y.2 blocks' bb = entries insns') ∧
    (bb ∉ done_ → insns = (ir.block bb).insns) ∧
    ExactNotes x.1 bb (ir.NeededBelow bb) insns y.1 insns' ∧
    ∀ b, b ≠ bb → sequences y.2 blocks' b = sequences x.2 blocks b

theorem Between.call {done_ : List BlockId} {x : Ir × Store BlockId InsnId} {blocks : BlockId → List ℕ}
    {lists : BlockId → List InsnId} (h : Between nesting ir done_ x blocks lists) (hbb : bb ∈ ir.bbs) :
    ∃ n y blocks' lists', (∀ fuel ≥ n, trackDeathsOf nesting fuel x bb = some y) ∧
      ExactCall ir done_ bb x y ∧ Between nesting ir (done_ ++ [bb]) y blocks' lists' := by
  obtain ⟨n, h', ir', bs', insns', hcall, hacts, hexact⟩ :=
    trackPseudoDeathBb_exact (h.valid.holds bb) (h.sequences bb hbb) (h.usage bb hbb)
  have hneeded : x.1.NeededBelow bb = ir.NeededBelow bb := by
    funext p
    rw [Ir.NeededBelow, Ir.NeededBelow, h.noted.block]
  rw [hneeded] at hexact
  obtain ⟨hvalid, hsequences⟩ := h.valid.acts hacts
  rw [Function.update_eq_self] at hvalid hsequences
  refine ⟨n, (ir', ⟨h', x.2.lists⟩), Function.update blocks bb bs', Function.update lists bb insns',
    fun fuel hfuel => ?_, ⟨blocks, lists bb, Function.update blocks bb bs', insns', h.noted,
      ⟨h.valid, h.sequences bb hbb⟩, ⟨hvalid, ?_⟩, h.untouched bb hbb, hexact, fun b hb => ?_⟩,
    hvalid, h.noted.trans hexact.noted, fun b hb => ?_, fun b hb i hi => ?_, fun b hb hdone => ?_⟩
  · rw [trackDeathsOf, hcall fuel hfuel]
    rfl
  · rw [hsequences, Function.update_self]
  · rw [hsequences, Function.update_of_ne hb]
  · rw [hsequences]
    rcases eq_or_ne b bb with rfl | hne
    · rw [Function.update_self, Function.update_self]
    · rw [Function.update_of_ne hne, Function.update_of_ne hne, h.sequences b hb]
  · have hkept : ∀ b ∈ ir.bbs, ∀ i ∈ lists b, i < ir'.nextInsn ∧
        (ir'.live i → (ir'.trackInstructionUsage nesting b i).isSome) := fun b hb i hi => by
      obtain ⟨hlt, husage⟩ := h.usage b hb i hi
      exact ⟨Nat.lt_of_lt_of_le hlt hexact.noted.next, fun hlive =>
        hexact.noted.trackInstructionUsage_isSome hlt (husage ((hexact.noted.live_iff hlt).1 hlive))⟩
    rcases eq_or_ne b bb with rfl | hne
    · rw [Function.update_self] at hi
      by_cases hold : i < x.1.nextInsn
      · refine hkept b hb i ?_
        rw [← hexact.others]
        exact List.mem_filter.2 ⟨hi, by simpa using hold⟩
      · obtain ⟨p, hnote, -⟩ := hexact.notes i hi (Nat.le_of_not_lt hold)
        refine ⟨hexact.allocated i hi, fun _ => ?_⟩
        simp [Ir.trackInstructionUsage, hnote, deathnote]
    · rw [Function.update_of_ne hne] at hi
      exact hkept b hb i hi
  · rw [List.mem_append, List.mem_singleton, not_or] at hdone
    rw [Function.update_of_ne hdone.2, h.untouched b hb hdone.1]

/-- Death notes are exact: after liveness tracking, `track_pseudo_death` returns, and every one of its
calls of `track_pseudo_death_bb` puts one note for each tracked pseudo that the block uses and
none of its children needs in front of the last instruction that uses it, and does nothing else. -/
theorem trackPseudoDeath_exact {ir₀ : Ir} (hlive : ir₀.trackPseudoLiveness nesting = some ir)
    {s : Store BlockId InsnId} {blocks : BlockId → List ℕ} (hs : Valid s blocks)
    (hinsns : ∀ bb ∈ ir.bbs, sequences s blocks bb = entries (ir.block bb).insns)
    (halloc : ∀ bb ∈ ir.bbs, ∀ i ∈ (ir.block bb).insns, i < ir.nextInsn) :
    ∃ n, ∀ fuel ≥ n, (trackPseudoDeath nesting fuel ir s).isSome ∧
      ∀ done_ bb todo, ir.bbs = done_ ++ bb :: todo → ∃ x y,
        done_.foldlM (trackDeathsOf nesting fuel) (ir, s) = some x ∧
        trackDeathsOf nesting fuel x bb = some y ∧ ExactCall ir done_ bb x y := by
  have hstart : Between nesting ir [] (ir, s) blocks fun bb => (ir.block bb).insns :=
    ⟨hs, .refl ir, hinsns, fun bb hbb i hi =>
      ⟨halloc bb hbb i hi, SameCode.trackInstructionUsage_isSome hlive hbb hi⟩, fun _ _ _ => rfl⟩
  have hrun : ∀ bbs : List BlockId, (∀ bb ∈ bbs, bb ∈ ir.bbs) → ∃ n x blocks lists,
      (∀ fuel ≥ n, bbs.foldlM (trackDeathsOf nesting fuel) (ir, s) = some x) ∧
      Between nesting ir bbs x blocks lists ∧
      ∀ fuel ≥ n, ∀ done_ bb todo, bbs = done_ ++ bb :: todo → ∃ x y,
        done_.foldlM (trackDeathsOf nesting fuel) (ir, s) = some x ∧
        trackDeathsOf nesting fuel x bb = some y ∧ ExactCall ir done_ bb x y := by
    intro bbs hbbs
    induction bbs using List.reverseRecOn with
    | nil => exact ⟨0, (ir, s), blocks, _, fun _ _ => rfl, hstart, fun _ _ done_ bb todo h => by simp at h⟩
    | append_singleton bbs b ih =>
      obtain ⟨n, x, blocks₁, lists₁, hx, hbetween, hcalls⟩ := ih fun bb hbb => hbbs bb (by simp [hbb])
      obtain ⟨m, y, blocks₂, lists₂, hy, hexact, hbetween'⟩ := hbetween.call (hbbs b (by simp))
      refine ⟨max n m, y, blocks₂, lists₂, fun fuel hfuel => ?_, hbetween', fun fuel hfuel done_ bb todo h => ?_⟩
      · rw [List.foldlM_append, hx fuel (le_of_max_le_left hfuel)]
        simp [hy fuel (le_of_max_le_right hfuel)]
      · rcases List.eq_nil_or_concat' todo with rfl | ⟨todo, c, rfl⟩
        · obtain ⟨rfl, hb⟩ := List.append_inj' h rfl
          obtain rfl := (List.cons.inj hb).1
          exact ⟨x, y, hx fuel (le_of_max_le_left hfuel), hy fuel (le_of_max_le_right hfuel), hexact⟩
        · rw [← List.cons_append, ← List.append_assoc] at h
          exact hcalls fuel (le_of_max_le_left hfuel) done_ bb todo (List.append_inj' h rfl).1
  obtain ⟨n, x, -, -, hx, -, hcalls⟩ := hrun ir.bbs fun _ h => h
  refine ⟨n, fun fuel hfuel => ⟨?_, hcalls fuel hfuel⟩⟩
  rw [trackPseudoDeath, hx fuel hfuel]
  rfl

def selfLoopTracked : Ir :=
  (selfLoop.trackPseudoLiveness 4).getD selfLoop

/-- The instruction lists of `selfLoop`, of one block each. -/
def selfLoopLists : Store BlockId InsnId where
  heap := ⟨⟨id, id⟩, fun b => entries (selfLoop.block b).insns, 3⟩
  lists b := if b < 3 then some b else none

theorem trackPseudoDeath_exact_selfLoop : ∃ n, ∀ fuel ≥ n,
    (trackPseudoDeath 4 fuel selfLoopTracked selfLoopLists).isSome ∧
      ∀ done_ bb todo, selfLoopTracked.bbs = done_ ++ bb :: todo → ∃ x y,
        done_.foldlM (trackDeathsOf 4 fuel) (selfLoopTracked, selfLoopLists) = some x ∧
        trackDeathsOf 4 fuel x bb = some y ∧ ExactCall selfLoopTracked done_ bb x y := by
  have htracked : selfLoop.trackPseudoLiveness 4 = some selfLoopTracked := by
    have hsome : (selfLoop.trackPseudoLiveness 4).isSome := by decide
    obtain ⟨ir, hir⟩ := Option.isSome_iff_exists.1 hsome
    rw [selfLoopTracked, hir, Option.getD_some]
  have hsame := SameCode.trackPseudoLiveness htracked
  have hblock : ∀ b, (selfLoopTracked.block b).insns = (selfLoop.block b).insns := fun b => by
    rw [hsame.block b]
  have hnext : selfLoopTracked.nextInsn = 4 := by
    rw [hsame.frame]
    rfl
  have hlisted : ∀ b, b ∈ selfLoopTracked.bbs → b < 3 := fun b hb => by
    rw [hsame.bbs] at hb
    simp only [selfLoop, List.mem_cons, List.not_mem_nil, or_false] at hb
    rcases hb with rfl | rfl | rfl <;> decide
  have hvalid : Valid selfLoopLists fun b => if b < 3 then [b] else [] := by
    refine ⟨fun b => ?_, fun b c hne x hx hx' => ?_⟩
    · by_cases hb : b < 3
      · simp only [selfLoopLists, if_pos hb]
        refine ⟨rfl, fun _ => ⟨List.nodup_singleton b, by simp [Links.Linked]⟩, ?_, by simpa using hb⟩
        rcases b with _ | _ | _ | b <;> simp [Heap.nr, entries, selfLoop, listNodeNr]
      · simp only [selfLoopLists, if_neg hb]
        exact ⟨rfl, fun hnil => absurd rfl hnil, by simp, by simp⟩
    · split_ifs at hx hx' <;> simp_all
  refine trackPseudoDeath_exact htracked hvalid (fun b hb => ?_) fun b hb i hi => ?_
  · simp [sequences, PtrList.sequence, hlisted b hb, hblock, selfLoopLists]
  · rw [hblock] at hi
    have hall : ∀ b < 3, ∀ i ∈ (selfLoop.block b).insns, i < 4 := by decide
    rw [hnext]
    exact hall b (hlisted b hb) i hi

end Sparse
