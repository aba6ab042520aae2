import Sparse.LivenessEvents
import Mathlib.Data.Finset.Prod
import Mathlib.Data.Finset.Card

/-!
# The fixpoint of the liveness equations

`track_pseudo_liveness` ends: every round that changes anything adds a pair of a listed
block and a used pseudo. When it ends the lists satisfy the equations, so each `needs`
list holds exactly the pseudos live on entry to its block.
-/

namespace Sparse

open StableIteration

/-- The heaps differ in the lists of liveness tracking only. -/
structure SameCode (ir ir' : Ir) : Prop where
  frame : ir' = { ir with block := ir'.block }
  block : ∀ b, ir'.block b =
    { ir.block b with needs := (ir'.block b).needs, defines := (ir'.block b).defines }

namespace SameCode

variable {ir ir' ir'' : Ir}

theorem refl (ir : Ir) : SameCode ir ir := ⟨rfl, fun _ => rfl⟩

theorem trans (h : SameCode ir ir') (h' : SameCode ir' ir'') : SameCode ir ir'' where
  frame := by rw [h'.frame, h.frame]
  block b := by rw [h'.block b, h.block b]

theorem setBlock (ir : Ir) (bb : BlockId) (f : BasicBlock → BasicBlock)
    (hf : ∀ b, f b = { b with needs := (f b).needs, defines := (f b).defines }) :
    SameCode ir (ir.setBlock bb f) where
  frame := rfl
  block b := by
    by_cases hb : b = bb
    · subst hb
      simpa using hf (ir.block b)
    · simp [hb]

theorem addNeed (s : Ir × Bool) (bb : BlockId) (p : Pseudo) :
    SameCode s.1 (Ir.addNeed s bb p).1 := by
  unfold Ir.addNeed
  split
  · exact refl s.1
  · exact setBlock s.1 bb (fun b => { b with needs := b.needs ++ [p] }) (fun _ => rfl)

theorem children (h : SameCode ir ir') (b : BlockId) :
    (ir'.block b).children = (ir.block b).children := by rw [h.block b]

theorem parents (h : SameCode ir ir') (b : BlockId) :
    (ir'.block b).parents = (ir.block b).parents := by rw [h.block b]

theorem bbs (h : SameCode ir ir') : ir'.bbs = ir.bbs := by rw [h.frame]

theorem comesFromOutside (h : SameCode ir ir') (bb : BlockId) (p : Pseudo) :
    ir'.comesFromOutside bb p = ir.comesFromOutside bb p := by
  have hi : ir'.insn = ir.insn := by rw [h.frame]
  have hd : ir'.definition = ir.definition := by rw [h.frame]
  cases p <;> simp only [Ir.comesFromOutside, hi, hd]

end SameCode

namespace Ir

@[simp] theorem addNeed_needs (s : Ir × Bool) (bb b : BlockId) (p q : Pseudo) :
    q ∈ ((addNeed s bb p).1.block b).needs ↔ q ∈ (s.1.block b).needs ∨ (b = bb ∧ q = p) := by
  unfold addNeed
  split
  next hp =>
    constructor
    · exact Or.inl
    · rintro (hq | ⟨rfl, rfl⟩)
      · exact hq
      · exact hp
  next =>
    by_cases hb : b = bb
    · subst hb; simp
    · simp [hb]

theorem addNeed_nodup {s : Ir × Bool} {b : BlockId} (h : (s.1.block b).needs.Nodup) (bb : BlockId)
    (p : Pseudo) : ((addNeed s bb p).1.block b).needs.Nodup := by
  unfold addNeed
  split
  next => exact h
  next hp =>
    by_cases hb : b = bb
    · subst hb
      simpa using h.append (List.nodup_singleton p) (List.disjoint_singleton.mpr hp)
    · simpa [hb] using h

@[simp] theorem addNeed_defines (s : Ir × Bool) (bb b : BlockId) (p : Pseudo) :
    ((addNeed s bb p).1.block b).defines = (s.1.block b).defines := by
  unfold addNeed
  split
  next => rfl
  next =>
    by_cases hb : b = bb
    · subst hb; simp
    · simp [hb]

end Ir

/-- The lists after the first loop of `track_pseudo_liveness`. -/
structure Recorded (ir : Ir) (us : List Usage) (ir' : Ir) : Prop where
  code : SameCode ir ir'
  nodup : ∀ b ∈ ir.bbs, (ir'.block b).needs.Nodup
  needs : ∀ b ∈ ir.bbs, ∀ p, p ∈ (ir'.block b).needs ↔
    .use b p ∈ us ∧ trackablePseudo p = true ∧ ir.comesFromOutside b p = true
  defines : ∀ b ∈ ir.bbs, ∀ p, p ∈ (ir'.block b).defines ↔ .define b p ∈ us

theorem Recorded.foldl {ir : Ir}
    (hc : ∀ b ∈ ir.bbs, (ir.block b).needs = [] ∧ (ir.block b).defines = [])
    (us : List Usage) : Recorded ir us (us.foldl Ir.record (ir, false)).1 := by
  induction us using List.reverseRecOn with
  | nil =>
    refine ⟨SameCode.refl ir, fun b hb => ?_, fun b hb p => ?_, fun b hb p => ?_⟩
    · simp [(hc b hb).1]
    · simp [(hc b hb).1]
    · simp [(hc b hb).2]
  | append_singleton us u ih =>
    rw [List.foldl_append, List.foldl_cons, List.foldl_nil]
    generalize us.foldl Ir.record (ir, false) = s at ih ⊢
    cases u with
    | use bb q =>
      simp only [Ir.record, ih.code.comesFromOutside]
      split
      next hq =>
        refine ⟨ih.code.trans (SameCode.addNeed s bb q),
          fun b hb => Ir.addNeed_nodup (ih.nodup b hb) bb q, fun b hb p => ?_, fun b hb p => ?_⟩
        · rw [Ir.addNeed_needs, ih.needs b hb]
          simp only [List.mem_append, List.mem_singleton, Usage.use.injEq]
          constructor
          · rintro (⟨h1, h2⟩ | ⟨rfl, rfl⟩)
            · exact ⟨Or.inl h1, h2⟩
            · exact ⟨Or.inr ⟨rfl, rfl⟩, by simpa using hq⟩
          · rintro ⟨h1 | h1, h2⟩
            · exact Or.inl ⟨h1, h2⟩
            · exact Or.inr h1
        · rw [Ir.addNeed_defines, ih.defines b hb]
          simp
      next hq =>
        refine ⟨ih.code, ih.nodup, fun b hb p => ?_, fun b hb p => ?_⟩
        · rw [ih.needs b hb]
          simp only [List.mem_append, List.mem_singleton, Usage.use.injEq]
          constructor
          · exact fun ⟨h1, h2⟩ => ⟨Or.inl h1, h2⟩
          · rintro ⟨h1 | ⟨rfl, rfl⟩, h2⟩
            · exact ⟨h1, h2⟩
            · exact absurd h2 hq
        · rw [ih.defines b hb]
          simp
    | define bb q =>
      have hset := SameCode.setBlock s.1 bb (fun b => { b with defines := b.defines ++ [q] })
        (fun _ => rfl)
      refine ⟨ih.code.trans hset, fun b hl => ?_, fun b hl p => ?_, fun b hl p => ?_⟩
      · by_cases hb : b = bb
        · subst hb; simpa [Ir.record] using ih.nodup b hl
        · simpa [Ir.record, hb] using ih.nodup b hl
      · have hsame : ((Ir.record s (.define bb q)).1.block b).needs = (s.1.block b).needs := by
          by_cases hb : b = bb
          · subst hb; simp [Ir.record]
          · simp [Ir.record, hb]
        rw [hsame, ih.needs b hl]
        simp
      · by_cases hb : b = bb
        · subst hb
          simp [Ir.record, ih.defines b hl]
        · simp [Ir.record, hb, ih.defines b hl]

theorem Ir.comesFromOutside_reg {ir : Ir} {bb : BlockId} {nr : ℕ} :
    ir.comesFromOutside bb (.reg nr) = true ↔
      ∀ d, ir.definition (.reg nr) = some d → (ir.insn d).bb = some bb →
        (ir.insn d).opcode = .phi := by
  unfold comesFromOutside
  cases hd : ir.definition (.reg nr) with
  | none => simp [hd]
  | some d => simp [hd, ← imp_iff_not_or]

namespace LivenessInput

variable {ir ir1 : Ir} {us : List Usage} {fuel : ℕ}

/-- The condition of `insn_uses` picks out the exposed uses. -/
theorem exposedUse_iff (h : LivenessInput ir) {bb : BlockId} (hb : bb ∈ ir.bbs) (p : Pseudo) :
    ir.ExposedUse bb p ↔ (∃ i ∈ (ir.block bb).insns, ir.live i ∧ p ∈ ir.uses i) ∧
      trackablePseudo p = true ∧ ir.comesFromOutside bb p = true := by
  constructor
  · rintro ⟨ht, before, i, after, hl, hlive, hu, hno⟩
    refine ⟨⟨i, by simp [hl], hlive, hu⟩, ht, ?_⟩
    cases p with
    | reg nr =>
      rw [Ir.comesFromOutside_reg]
      intro d hd hbb
      by_contra hop
      obtain ⟨hd1, hd2⟩ := h.definedFirst bb hb before i after hl hlive nr hu d hd hbb hop
      exact hno d hd1 (by simp [Ir.live, hbb]) hd2
    | arg nr => rfl
    | _ => simp [trackablePseudo] at ht
  · rintro ⟨⟨i, hi, hlive, hu⟩, ht, hc⟩
    obtain ⟨before, after, hl⟩ := List.append_of_mem hi
    refine ⟨ht, before, i, after, hl, hlive, hu, fun j hj hjlive hd => ?_⟩
    have hjb : j ∈ (ir.block bb).insns := by simp [hl, hj]
    obtain ⟨⟨nr, rfl⟩, hdef⟩ := h.single bb hb j hjb hjlive p hd
    exact Ir.not_isPhi_of_mem (Or.inr hd)
      (Ir.comesFromOutside_reg.mp hc j hdef (h.inBlock bb hb j hjb hjlive))

theorem mem_recorded_needs (h : LivenessInput ir) (hus : ir.usage fuel = some us)
    (hr : Recorded ir us ir1) {bb : BlockId} (hb : bb ∈ ir.bbs) (p : Pseudo) :
    p ∈ (ir1.block bb).needs ↔ ir.ExposedUse bb p := by
  rw [hr.needs bb hb, h.exposedUse_iff hb, Ir.mem_usage hus]
  refine and_congr_left (fun _ => ⟨?_, ?_⟩)
  · rintro ⟨b, _, i, hi, hlive, es, hes, hu⟩
    obtain ⟨rfl, hp⟩ := (Ir.mem_trackInstructionUsage hes bb p).1.mp hu
    exact ⟨i, hi, hlive, hp⟩
  · rintro ⟨i, hi, hlive, hp⟩
    obtain ⟨es, hes⟩ := Ir.exists_of_usage hus hb hi hlive
    exact ⟨bb, hb, i, hi, hlive, es, hes, (Ir.mem_trackInstructionUsage hes bb p).1.mpr ⟨rfl, hp⟩⟩

theorem mem_recorded_defines (hus : ir.usage fuel = some us) (hr : Recorded ir us ir1)
    {bb : BlockId} (hb : bb ∈ ir.bbs) (p : Pseudo) :
    p ∈ (ir1.block bb).defines ↔ ir.Defines bb p := by
  rw [hr.defines bb hb, Ir.mem_usage hus]
  constructor
  · rintro ⟨b, hbb, i, hi, hlive, es, hes, hu⟩
    rcases (Ir.mem_trackInstructionUsage hes bb p).2.mp hu with ⟨rfl, hp⟩ | ⟨hop, hp, hs⟩
    · exact Or.inl ⟨i, hi, hlive, hp⟩
    · exact Or.inr ⟨b, hbb, i, hi, hlive, hop, hp, hs⟩
  · rintro (⟨i, hi, hlive, hp⟩ | ⟨b, hbb, i, hi, hlive, hop, hp, hs⟩)
    · obtain ⟨es, hes⟩ := Ir.exists_of_usage hus hb hi hlive
      exact ⟨bb, hb, i, hi, hlive, es, hes,
        (Ir.mem_trackInstructionUsage hes bb p).2.mpr (Or.inl ⟨rfl, hp⟩)⟩
    · obtain ⟨es, hes⟩ := Ir.exists_of_usage hus hbb hi hlive
      exact ⟨b, hbb, i, hi, hlive, es, hes,
        (Ir.mem_trackInstructionUsage hes bb p).2.mpr (Or.inr ⟨hop, hp, hs⟩)⟩

end LivenessInput

/-- The pseudos that the instructions of the listed blocks use. -/
def Ir.usedPseudos (ir : Ir) : Finset Pseudo :=
  ((ir.bbs.flatMap fun b => (ir.block b).insns).flatMap ir.uses).toFinset

theorem Ir.ExposedUse.mem_usedPseudos {ir : Ir} {bb : BlockId} (hb : bb ∈ ir.bbs) {p : Pseudo}
    (h : ir.ExposedUse bb p) : p ∈ ir.usedPseudos := by
  obtain ⟨-, before, i, after, hl, -, hu, -⟩ := h
  rw [usedPseudos, List.mem_toFinset]
  exact List.mem_flatMap.mpr ⟨i, List.mem_flatMap.mpr ⟨bb, hb, by simp [hl]⟩, hu⟩

/-- The invariant of the `do` loop, which starts from the recorded lists `ir1`. -/
structure Solving (ir ir1 ir' : Ir) : Prop where
  code : SameCode ir1 ir'
  defines : ∀ b, (ir'.block b).defines = (ir1.block b).defines
  nodup : ∀ b ∈ ir.bbs, (ir'.block b).needs.Nodup
  mono : ∀ b, ∀ p ∈ (ir1.block b).needs, p ∈ (ir'.block b).needs
  live : ∀ b ∈ ir.bbs, ∀ p ∈ (ir'.block b).needs, ir.LiveIn b p ∧ p ∈ ir.usedPseudos

/-- The pairs of a listed block and a used pseudo that the lists do not hold yet. -/
def Ir.missing (ir ir' : Ir) : ℕ :=
  ((ir.bbs.toFinset ×ˢ ir.usedPseudos).filter (fun x => x.2 ∉ (ir'.block x.1).needs)).card

theorem Ir.missing_addNeed_lt {ir : Ir} {s : Ir × Bool} {bb : BlockId} {p : Pseudo}
    (hb : bb ∈ ir.bbs) (hu : p ∈ ir.usedPseudos) (hp : p ∉ (s.1.block bb).needs) :
    ir.missing (Ir.addNeed s bb p).1 < ir.missing s.1 := by
  apply Finset.card_lt_card
  rw [Finset.ssubset_iff_of_subset]
  · refine ⟨(bb, p), ?_, ?_⟩
    · rw [Finset.mem_filter, Finset.mem_product, List.mem_toFinset]
      exact ⟨⟨hb, hu⟩, hp⟩
    · rw [Finset.mem_filter, Ir.addNeed_needs]
      simp
  · intro x hx
    rw [Finset.mem_filter] at hx ⊢
    refine ⟨hx.1, fun hm => hx.2 ?_⟩
    rw [Ir.addNeed_needs]
    exact Or.inl hm

namespace Solving

variable {ir ir1 : Ir} {us : List Usage} {fuel : ℕ}

theorem initial (h : LivenessInput ir) (hus : ir.usage fuel = some us) (hr : Recorded ir us ir1) :
    Solving ir ir1 ir1 where
  code := SameCode.refl ir1
  defines _ := rfl
  nodup := hr.nodup
  mono _ _ hp := hp
  live b hb p hp := by
    have he := (h.mem_recorded_needs hus hr hb p).mp hp
    exact ⟨⟨b, .refl, he⟩, he.mem_usedPseudos hb⟩

/-- One parent of a block takes over one of its needs. -/
theorem advance_parent (h : LivenessInput ir) (hus : ir.usage fuel = some us)
    (hr : Recorded ir us ir1) {bb parent : BlockId} (hb : bb ∈ ir.bbs)
    (hp : parent ∈ (ir.block bb).parents) {need : Pseudo} (hn : ir.LiveIn bb need)
    (hu : need ∈ ir.usedPseudos) (s : Ir × Bool) :
    Advance (Solving ir ir1) ir.missing s
      (if need ∈ (s.1.block parent).defines then s else Ir.addNeed s parent need) := by
  intro hs
  have hpar : parent ∈ ir.bbs := h.parents bb hb parent hp
  split
  next => exact ⟨hs, Or.inl rfl⟩
  next hd =>
    rw [hs.defines, LivenessInput.mem_recorded_defines hus hr hpar] at hd
    have hlive : ir.LiveIn parent need := by
      obtain ⟨last, hpath, hexp⟩ := hn
      exact ⟨last, .head ⟨(h.edges parent bb).mp hp, hd⟩ hpath, hexp⟩
    refine ⟨⟨hs.code.trans (SameCode.addNeed s parent need), fun b => ?_,
      fun b hb => Ir.addNeed_nodup (hs.nodup b hb) parent need, fun b p hm => ?_, fun b hbb p hm => ?_⟩, ?_⟩
    · rw [Ir.addNeed_defines, hs.defines]
    · rw [Ir.addNeed_needs]
      exact Or.inl (hs.mono b p hm)
    · rw [Ir.addNeed_needs] at hm
      rcases hm with hm | ⟨rfl, rfl⟩
      · exact hs.live b hbb p hm
      · exact ⟨hlive, hu⟩
    · by_cases hm : need ∈ (s.1.block parent).needs
      · exact Or.inl (if_pos hm)
      · refine Or.inr ⟨?_, Ir.missing_addNeed_lt hpar hu hm⟩
        rw [Ir.addNeed, if_neg hm]

theorem advance_need (h : LivenessInput ir) (hus : ir.usage fuel = some us)
    (hr : Recorded ir us ir1) {bb : BlockId} (hb : bb ∈ ir.bbs) {need : Pseudo}
    (hn : ir.LiveIn bb need) (hu : need ∈ ir.usedPseudos) (s : Ir × Bool) :
    Advance (Solving ir ir1) ir.missing s (Ir.needInParent bb s need) := by
  intro hs
  refine Advance.foldl (fun parent hp x => advance_parent h hus hr hb ?_ hn hu x) s hs
  rwa [hs.code.parents, hr.code.parents] at hp

theorem advance_block (h : LivenessInput ir) (hus : ir.usage fuel = some us)
    (hr : Recorded ir us ir1) {bb : BlockId} (hb : bb ∈ ir.bbs) (s : Ir × Bool) :
    Advance (Solving ir ir1) ir.missing s (Ir.trackBbLiveness s bb) := by
  intro hs
  exact Advance.foldl (fun need hn x => advance_need h hus hr hb (hs.live bb hb need hn).1
    (hs.live bb hb need hn).2 x) s hs

theorem advance_round (h : LivenessInput ir) (hus : ir.usage fuel = some us)
    (hr : Recorded ir us ir1) (s : Ir × Bool) :
    Advance (Solving ir ir1) ir.missing s (Ir.livenessRound s) := by
  intro hs
  refine Advance.foldl (fun bb hb x => advance_block h hus hr ?_ x) s hs
  rwa [List.mem_reverse, hs.code.bbs, hr.code.bbs] at hb

/-- When a round changes nothing the lists satisfy the liveness equations. -/
theorem closed_of_stable (h : LivenessInput ir) (hus : ir.usage fuel = some us)
    (hr : Recorded ir us ir1) {ir' : Ir} (hs : Solving ir ir1 ir')
    (hstable : Ir.livenessRound (ir', false) = (ir', false)) {bb parent : BlockId} (hb : bb ∈ ir.bbs)
    (hp : parent ∈ (ir.block bb).parents) {need : Pseudo} (hn : need ∈ (ir'.block bb).needs)
    (hd : ¬ ir.Defines parent need) : need ∈ (ir'.block parent).needs := by
  have hbbs : ir'.bbs = ir.bbs := hs.code.bbs.trans hr.code.bbs
  have hlive := hs.live bb hb
  have hblock : Ir.trackBbLiveness (ir', false) bb = (ir', false) :=
    Advance.foldl_stable (fun b hm x => advance_block h hus hr
      (by rwa [List.mem_reverse, hbbs] at hm) x) hs hstable rfl bb (by simpa [hbbs] using hb)
  have hneed : Ir.needInParent bb (ir', false) need = (ir', false) :=
    Advance.foldl_stable (fun q hm x => advance_need h hus hr hb (hlive q hm).1 (hlive q hm).2 x)
      hs hblock rfl need hn
  have hparents : (ir'.block bb).parents = (ir.block bb).parents :=
    (hs.code.parents bb).trans (hr.code.parents bb)
  have hstep := Advance.foldl_stable (fun q hm x => advance_parent h hus hr hb
    (hparents ▸ hm) (hlive need hn).1 (hlive need hn).2 x) hs hneed rfl parent (by rwa [hparents])
  have hpar : parent ∈ ir.bbs := h.parents bb hb parent hp
  rw [← LivenessInput.mem_recorded_defines hus hr hpar, ← hs.defines] at hd
  rw [if_neg hd] at hstep
  by_contra hm
  rw [Ir.addNeed, if_neg hm] at hstep
  exact absurd (congrArg Prod.snd hstep) (by simp)

/-- A stable solution holds every live pseudo. -/
theorem mem_of_liveIn (h : LivenessInput ir) (hus : ir.usage fuel = some us)
    (hr : Recorded ir us ir1) {ir' : Ir} (hs : Solving ir ir1 ir')
    (hstable : Ir.livenessRound (ir', false) = (ir', false)) {bb : BlockId} (hb : bb ∈ ir.bbs)
    {p : Pseudo} (hp : ir.LiveIn bb p) : p ∈ (ir'.block bb).needs := by
  obtain ⟨last, hpath, hexp⟩ := hp
  induction hpath using Relation.ReflTransGen.head_induction_on with
  | refl => exact hs.mono last p ((h.mem_recorded_needs hus hr hb p).mpr hexp)
  | head hstep _ ih =>
    obtain ⟨hc, hd⟩ := hstep
    exact closed_of_stable h hus hr hs hstable (h.children _ hb _ hc) ((h.edges _ _).mpr hc)
      (ih (h.children _ hb _ hc)) hd

end Solving

/-- The final loop filters each listed block's definitions and changes nothing else. -/
theorem Ir.foldl_pruneDefines (bbs : List BlockId) (ir : Ir) :
    (∀ b, ((bbs.foldl pruneDefines ir).block b).needs = (ir.block b).needs) ∧
      (∀ b, ((bbs.foldl pruneDefines ir).block b).children = (ir.block b).children) ∧
      ∀ b p, p ∈ ((bbs.foldl pruneDefines ir).block b).defines ↔ p ∈ (ir.block b).defines ∧
        (b ∈ bbs → ∃ c ∈ (ir.block b).children, p ∈ (ir.block c).needs) := by
  induction bbs generalizing ir with
  | nil => simp
  | cons bb bbs ih =>
    have hneeds : ∀ b, ((ir.pruneDefines bb).block b).needs = (ir.block b).needs := by
      intro b
      by_cases hb : b = bb
      · subst hb; simp [pruneDefines]
      · simp [pruneDefines, hb]
    have hchildren : ∀ b, ((ir.pruneDefines bb).block b).children = (ir.block b).children := by
      intro b
      by_cases hb : b = bb
      · subst hb; simp [pruneDefines]
      · simp [pruneDefines, hb]
    obtain ⟨h1, h2, h3⟩ := ih (ir.pruneDefines bb)
    rw [List.foldl_cons]
    refine ⟨fun b => (h1 b).trans (hneeds b), fun b => (h2 b).trans (hchildren b), fun b p => ?_⟩
    rw [h3]
    simp only [hneeds, hchildren, List.mem_cons]
    by_cases hb : b = bb
    · subst hb
      simp only [pruneDefines, setBlock_block, Function.update_self, List.mem_filter, List.any_eq_true,
        decide_eq_true_eq]
      tauto
    · simp [pruneDefines, hb]

/-- Liveness tracking changes the lists only. -/
theorem SameCode.foldl {S A : Type*} (g : S → Ir) {f : S → A → S}
    (hf : ∀ s a, SameCode (g s) (g (f s a))) (as : List A) (s : S) :
    SameCode (g s) (g (as.foldl f s)) := by
  induction as generalizing s with
  | nil => exact .refl (g s)
  | cons a as ih => exact (hf s a).trans (ih (f s a))

theorem SameCode.livenessRound (s : Ir × Bool) : SameCode s.1 (Ir.livenessRound s).1 := by
  refine foldl Prod.fst (fun s bb => foldl Prod.fst (fun s need => foldl Prod.fst (fun s parent => ?_) _ s) _ s) _ s
  split
  · exact .refl s.1
  · exact .addNeed s parent need

theorem SameCode.trackPseudoLiveness {ir ir' : Ir} {fuel : ℕ} (h : ir.trackPseudoLiveness fuel = some ir') :
    SameCode ir ir' := by
  obtain ⟨solved, hsolved, rfl⟩ := Option.map_eq_some_iff.mp h
  obtain ⟨us, -, hiterate⟩ := Option.bind_eq_some_iff.mp hsolved
  have hrecord : SameCode ir (us.foldl Ir.record (ir, false)).1 := by
    refine foldl Prod.fst (fun s u => ?_) us (ir, false)
    cases u with
    | use bb p =>
      rw [Ir.record]
      split
      · exact .addNeed s bb p
      · exact .refl s.1
    | define bb p => exact .setBlock s.1 bb (fun b => { b with defines := b.defines ++ [p] }) fun _ => rfl
  have hprune : ∀ ir₁ bb, SameCode ir₁ (Ir.pruneDefines ir₁ bb) := fun ir₁ bb =>
    .setBlock ir₁ bb (fun b => { b with defines := b.defines.filter _ }) fun _ => rfl
  have hrounds : ∀ fuel (ir₁ : Ir), iterate Ir.livenessRound fuel ir₁ = some solved → SameCode ir₁ solved := by
    intro fuel
    induction fuel with
    | zero => simp [iterate]
    | succ fuel ih =>
      intro ir₁ hiterate
      have hround := SameCode.livenessRound (ir₁, false)
      rw [iterate] at hiterate
      split at hiterate
      next ir₂ heq =>
        rw [heq] at hround
        exact hround.trans (ih ir₂ hiterate)
      next ir₂ heq =>
        rw [heq] at hround
        rwa [Option.some.inj hiterate] at hround
  exact (hrecord.trans (hrounds fuel _ hiterate)).trans
    (foldl id hprune solved.bbs solved)

/-- What liveness tracking went through can be gone through again. -/
theorem SameCode.trackInstructionUsage_isSome {ir ir' : Ir} {fuel : ℕ}
    (h : ir.trackPseudoLiveness fuel = some ir') {bb : BlockId} (hbb : bb ∈ ir'.bbs) {i : InsnId}
    (hi : i ∈ (ir'.block bb).insns) (hlive : ir'.live i) : (ir'.trackInstructionUsage fuel bb i).isSome := by
  have hsame := SameCode.trackPseudoLiveness h
  have hinsn : ir'.insn = ir.insn := by rw [hsame.frame]
  obtain ⟨solved, hsolved, -⟩ := Option.map_eq_some_iff.mp h
  obtain ⟨us, hus, -⟩ := Option.bind_eq_some_iff.mp hsolved
  rw [hsame.bbs] at hbb
  rw [hsame.block bb] at hi
  rw [Ir.live, hinsn] at hlive
  obtain ⟨events, hevents⟩ := Ir.exists_of_usage hus hbb hi hlive
  refine Ir.trackInstructionUsage_isSome_congr (by rw [hsame.frame]) (by rw [hsame.frame])
    (fun j => .inl (congrFun hinsn j)) (congrFun hinsn i) ?_
  rw [hevents]
  rfl

/-- Liveness tracking ends. Before the pruning the needs of a listed block are the pseudos live on
entry to it, each once; after it the definitions left are those that a child needs. -/
theorem trackPseudoLiveness_correct {ir : Ir} (h : LivenessInput ir) :
    ∃ n, ∀ fuel ≥ n, ∃ solved pruned, ir.solveLiveness fuel = some solved ∧
      ir.trackPseudoLiveness fuel = some pruned ∧
      (∀ b ∈ ir.bbs, (solved.block b).needs.Nodup ∧
        ∀ p, p ∈ (solved.block b).needs ↔ ir.LiveIn b p) ∧
      ∀ b ∈ ir.bbs, ∀ p, p ∈ (pruned.block b).defines ↔
        ir.Defines b p ∧ ∃ c ∈ (ir.block b).children, p ∈ (solved.block c).needs := by
  obtain ⟨n, hn⟩ := Ir.usage_terminates h.nesting
  refine ⟨max n ((ir.bbs.toFinset ×ˢ ir.usedPseudos).card + 1), fun fuel hfuel => ?_⟩
  obtain ⟨us, hus⟩ := Option.isSome_iff_exists.mp (hn fuel (le_trans (le_max_left _ _) hfuel))
  have hr := Recorded.foldl h.cleared us
  have hmeasure : ir.missing (us.foldl Ir.record (ir, false)).1 < fuel := by
    have hle := Finset.card_filter_le (ir.bbs.toFinset ×ˢ ir.usedPseudos)
      (fun x => x.2 ∉ ((us.foldl Ir.record (ir, false)).1.block x.1).needs)
    exact lt_of_le_of_lt hle (le_trans (le_max_right _ _) hfuel)
  obtain ⟨solved, hsolve, hs, hstable⟩ := iterate_of_advance
    (fun x => Solving.advance_round h hus hr x) (Solving.initial h hus hr) hmeasure
  have hbbs : solved.bbs = ir.bbs := hs.code.bbs.trans hr.code.bbs
  have hsolved : ir.solveLiveness fuel = some solved := by
    rw [Ir.solveLiveness, hus]
    exact hsolve
  refine ⟨solved, solved.bbs.foldl Ir.pruneDefines solved, hsolved, ?_, ?_, ?_⟩
  · rw [Ir.trackPseudoLiveness, hsolved]
    rfl
  · intro b hb
    exact ⟨hs.nodup b hb, fun p => ⟨fun hp => (hs.live b hb p hp).1,
      fun hp => Solving.mem_of_liveIn h hus hr hs hstable hb hp⟩⟩
  · intro b hb p
    obtain ⟨-, -, hdef⟩ := Ir.foldl_pruneDefines solved.bbs solved
    rw [hdef, hs.defines, LivenessInput.mem_recorded_defines hus hr hb, hs.code.children,
      hr.code.children]
    simp [hbbs, hb]

/-- A block that branches back to itself on a register set before the loop. -/
def selfLoop : Ir where
  insn
    | 0 => { opcode := .setval, bb := some 0, target := .reg 0 }
    | 1 => { opcode := .br, bb := some 0, bbTrue := some 1 }
    | 2 => { opcode := .br, bb := some 1, target := .reg 0, bbTrue := some 1, bbFalse := some 2 }
    | _ => { opcode := .ret, bb := some 2, src1 := .reg 0 }
  block
    | 0 => { children := [1], insns := [0, 1] }
    | 1 => { parents := [0, 1], children := [1, 2], insns := [2] }
    | 2 => { parents := [1], insns := [3] }
    | _ => {}
  cell _ := .void
  definition p := if p = .reg 0 then some 0 else none
  users _ := []
  bbs := [0, 1, 2]
  entry := 0
  nextInsn := 4
  nextBlock := 3
  nextCell := 0
  nextReg := 1
  nextPhi := 0
  bbGeneration := 0

private theorem selfLoop_input : LivenessInput selfLoop where
  edges p c := by
    rcases p with _ | _ | _ | p <;> rcases c with _ | _ | _ | c <;> simp [selfLoop]
  children b hb c hc := by
    rcases b with _ | _ | _ | b <;> simp_all [selfLoop]
  parents b hb p hp := by
    rcases b with _ | _ | _ | b <;> simp_all [selfLoop]
    tauto
  cleared b _ := by
    rcases b with _ | _ | _ | b <;> simp [selfLoop]
  inBlock b hb i hi _ := by
    rcases b with _ | _ | _ | b <;> simp_all [selfLoop]
    rcases hi with rfl | rfl <;> rfl
  single b hb i hi _ p hp := by
    have hi3 : i = 0 ∨ i = 1 ∨ i = 2 ∨ i = 3 := by
      rcases b with _ | _ | _ | b <;> simp_all [selfLoop]
      tauto
    rcases hi3 with rfl | rfl | rfl | rfl <;>
      simp_all [selfLoop, Ir.defines, Opcode.isBinary]
  definedFirst b hb before i after hl hlive nr hu d hd hbb hop := by
    obtain ⟨rfl, rfl⟩ : nr = 0 ∧ d = 0 := by
      simp only [selfLoop, Pseudo.reg.injEq, Option.ite_none_right_eq_some, Option.some.injEq] at hd
      exact ⟨hd.1, hd.2.symm⟩
    obtain rfl : b = 0 := by simpa [selfLoop, eq_comm] using hbb
    refine ⟨?_, by simp [selfLoop, Ir.defines]⟩
    have hi : i ≠ 0 := by
      rintro rfl
      simp [selfLoop, Ir.uses, Opcode.isBinary] at hu
    rcases before with _ | ⟨j, before⟩
    · simp only [selfLoop, List.nil_append, List.cons.injEq] at hl
      exact absurd hl.1.symm hi
    · simp only [selfLoop, List.cons_append, List.cons.injEq] at hl
      rw [← hl.1]
      exact List.mem_cons_self
  nesting := by
    refine ⟨fun i => ⟨i, fun d hd => ?_⟩⟩
    obtain ⟨c, hc, hdef, -⟩ := hd
    simp [selfLoop] at hdef

theorem selfLoop_liveness : ∃ n, ∀ fuel ≥ n, ∃ solved pruned,
    selfLoop.solveLiveness fuel = some solved ∧ selfLoop.trackPseudoLiveness fuel = some pruned ∧
    (∀ b ∈ selfLoop.bbs, (solved.block b).needs.Nodup ∧
      ∀ p, p ∈ (solved.block b).needs ↔ selfLoop.LiveIn b p) ∧
    ∀ b ∈ selfLoop.bbs, ∀ p, p ∈ (pruned.block b).defines ↔
      selfLoop.Defines b p ∧ ∃ c ∈ (selfLoop.block b).children, p ∈ (solved.block c).needs :=
  trackPseudoLiveness_correct selfLoop_input

example : ((selfLoop.trackPseudoLiveness 4).map fun ir =>
    ((ir.block 0).needs, (ir.block 1).needs, (ir.block 0).defines)) =
      some ([], [.reg 0], [.reg 0]) := by decide

end Sparse
