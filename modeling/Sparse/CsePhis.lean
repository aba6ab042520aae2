import Sparse.CseExecutions

/-!
# One phi for two

A phi takes what the last of its sources to be executed recorded. Phis of one block whose sources read
the same pseudos in the same blocks take the same, unless a source is executed between the two. So one
of them stands for the other.
-/

namespace Sparse

open ProgramPaths

namespace Ir

variable {ir ir' : Ir} {M : Meaning} {e b c : BlockId} {i j d kept gone : InsnId} {rest done l : List InsnId}

/-- What a phi takes, if one of its sources was executed. -/
def phiValue (ir : Ir) (M : Meaning) (done : List InsnId) (i : InsnId) : Option (BitVec 64) :=
  (done.find? fun d => d ∈ ir.phiSources i).map fun d => ir.env M done (ir.insn d).target

theorem result_of_phi (hop : (ir.insn i).opcode = .phi) :
    ir.result M done (ir.env M done) i = (ir.phiValue M done i).getD (M.effect i done) := by
  unfold result phiValue
  simp only [hop]
  cases done.find? fun d => d ∈ ir.phiSources i <;> rfl

/-- Where a source of the first phi stands, one of the second stands that records the same. -/
def Covers (ir : Ir) (i j : InsnId) : Prop :=
  ∀ d ∈ ir.phiSources i, ∃ d' ∈ ir.phiSources j, (ir.insn d').bb = (ir.insn d).bb ∧ (ir.insn d').src1 = (ir.insn d).src1

/-- Two phis of one block. Their sources record the same in the same blocks, and those that stand in the
block of the phis stand behind both. -/
structure TwinPhis (ir : Ir) (b : BlockId) (i j : InsnId) : Prop where
  first : ir.live i ∧ (ir.insn i).opcode = .phi
  second : ir.live j ∧ (ir.insn j).opcode = .phi
  order : [i, j].Sublist (ir.block b).insns
  covers : ir.Covers i j
  covered : ir.Covers j i
  behind : ∀ d, d ∈ ir.phiSources i ∨ d ∈ ir.phiSources j → (ir.insn d).bb = some b →
    [j, d].Sublist (ir.block b).insns

section

variable {front back : List InsnId} (hnodup : (front ++ j :: back).Nodup)
include hnodup

theorem mem_front (h : [i, j].Sublist (front ++ j :: back)) : i ∈ front := by
  obtain ⟨l, r, heq, hl, hr⟩ := List.sublist_append_iff.1 h
  cases l with
  | nil =>
    subst heq
    cases hr with
    | cons _ hr => simp [List.nodup_append, hr.subset (List.mem_cons_of_mem i List.mem_cons_self)] at hnodup
    | cons_cons _ hr => simp [List.nodup_append, hr.subset List.mem_cons_self] at hnodup
  | cons x l =>
    obtain rfl := (List.cons.inj heq).1
    exact hl.subset List.mem_cons_self

theorem mem_back (h : [j, d].Sublist (front ++ j :: back)) : d ∈ back := by
  obtain ⟨l, r, heq, hl, hr⟩ := List.sublist_append_iff.1 h
  cases l with
  | nil =>
    subst heq
    exact List.singleton_sublist.1 (List.cons_sublist_cons.1 hr)
  | cons x l =>
    obtain rfl := (List.cons.inj heq).1
    exact absurd rfl ((List.nodup_append.1 hnodup).2.2 j (hl.subset List.mem_cons_self) j List.mem_cons_self)

end

/-! ## Phis take the same -/

namespace SsaForm

variable (h : ir.SsaForm e)
include h

/-- What executes no source does not change what a phi takes. -/
theorem phiValue_append (hi : ir.live i) (hphi : (ir.insn i).opcode = .phi) (hl : ∀ d ∈ l, d ∉ ir.phiSources i) :
    ir.phiValue M (l ++ done) i = ir.phiValue M done i := by
  have hnone : l.find? (fun d => d ∈ ir.phiSources i) = none :=
    List.find?_eq_none.2 fun d hd => by simpa using hl d hd
  unfold phiValue
  rw [List.find?_append, hnone, Option.none_or]
  cases hfind : done.find? fun d => d ∈ ir.phiSources i with
  | none => rfl
  | some d =>
    have hmem : d ∈ ir.phiSources i := by simpa using List.find?_some hfind
    obtain ⟨hlive, hop⟩ := h.source_of_mem hi hphi hmem
    have hcomputes : ir.Computes d := ⟨hlive, (h.source d hlive hop).2.1, by simp [hop]⟩
    rw [Option.map_some, Option.map_some, env_append_of_notMem hcomputes fun hd => hl d hd hmem]

/-- At the end of a block with a source, a phi takes what that source reads. -/
theorem phiValue_block (hi : ir.live i) (hphi : (ir.insn i).opcode = .phi) (hd : d ∈ ir.phiSources i)
    (hb : (ir.insn d).bb = some b) (he : (ir.paths e).Entered b done) :
    ir.phiValue M ((ir.block b).insns.reverse ++ done) i =
      some (ir.env M ((ir.block b).insns.reverse ++ done) (ir.insn d).src1) := by
  obtain ⟨d', hd', hb', hsame, hfind⟩ := h.last_source hi hphi hd hb
  obtain ⟨hlive, hop⟩ := h.source_of_mem hi hphi hd'
  obtain ⟨l₁, l₂, hsplit⟩ := List.append_of_mem (h.placed d' b hb')
  obtain ⟨htarget, hsrc⟩ := h.env_after_source (M := M) hsplit hlive hop (k := l₂.reverse)
    (fun j hj => List.mem_reverse.1 hj) (he.reached hsplit)
  have hdone : (ir.block b).insns.reverse ++ done = l₂.reverse ++ d' :: (l₁.reverse ++ done) := by simp [hsplit]
  rw [phiValue, hfind, Option.map_some, hdone, htarget, ← hsame, hsrc]

/-- Where a block is entered, phis whose sources record the same in the same blocks take the same. -/
theorem phiValue_entered (hi : ir.live i ∧ (ir.insn i).opcode = .phi) (hj : ir.live j ∧ (ir.insn j).opcode = .phi)
    (hij : ir.Covers i j) (hji : ir.Covers j i) (hr : (ir.paths e).Reached b rest done) :
    ∃ pre done₀, (ir.block b).insns = pre ++ rest ∧ done = pre.reverse ++ done₀ ∧
      (ir.paths e).Entered b done₀ ∧ ir.phiValue M done₀ i = ir.phiValue M done₀ j := by
  induction hr with
  | refl => exact ⟨[], [], rfl, rfl, .inl ⟨rfl, rfl⟩, rfl⟩
  | @exec b i' rest done hgo ih =>
    obtain ⟨pre, done₀, hcode, rfl, he, hvalue⟩ := ih
    exact ⟨pre ++ [i'], done₀, by simp [hcode], by simp, he, hvalue⟩
  | @jump b c done hgo hjump ih =>
    refine ⟨[], done, rfl, rfl, .inr ⟨b, hgo, hjump⟩, ?_⟩
    obtain ⟨pre, done₀, hcode, rfl, he, hvalue⟩ := ih
    rw [List.append_nil] at hcode
    subst hcode
    by_cases hsource : ∃ d ∈ ir.phiSources i, (ir.insn d).bb = some b
    · -- the block has sources of both
      obtain ⟨d, hd, hb⟩ := hsource
      obtain ⟨d', hd', hb', hsame⟩ := hij d hd
      rw [h.phiValue_block hi.1 hi.2 hd hb he, h.phiValue_block hj.1 hj.2 hd' (hb'.trans hb) he, hsame]
    · -- it has sources of neither
      have hnot : ∀ d ∈ (ir.block b).insns.reverse, d ∉ ir.phiSources i := fun d hd hmem =>
        hsource ⟨d, hmem, h.bb_of_mem (List.mem_reverse.1 hd) (h.source_of_mem hi.1 hi.2 hmem).1⟩
      have hnot' : ∀ d ∈ (ir.block b).insns.reverse, d ∉ ir.phiSources j := fun d hd hmem => by
        obtain ⟨d', hd', hb', -⟩ := hji d hmem
        exact hsource ⟨d', hd', hb'.trans (h.bb_of_mem (List.mem_reverse.1 hd) (h.source_of_mem hj.1 hj.2 hmem).1)⟩
      rw [h.phiValue_append hi.1 hi.2 hnot, h.phiValue_append hj.1 hj.2 hnot', hvalue]

/-- A phi has the value that it took when its block was entered, if its sources in the block stand behind it. -/
theorem phi_value {pre : List InsnId} (hi : ir.live i) (hphi : (ir.insn i).opcode = .phi)
    (hpre : ∀ d ∈ pre, d ∉ ir.phiSources i) {k : List InsnId} (hk : i ∉ k) :
    ir.env M (k ++ i :: (pre ++ done)) (ir.insn i).target =
      (ir.phiValue M done i).getD (M.effect i (pre ++ done)) := by
  obtain ⟨nr, htarget, hdef⟩ := h.uses.defines i hi (by rw [hphi]; rfl)
  have hcomputes : ir.Computes i := ⟨hi, by rw [htarget, hdef], by simp [hphi]⟩
  rw [env_append_of_notMem hcomputes hk, env_cons_self hcomputes, result_of_phi hphi, h.phiValue_append hi hphi hpre]

/-- Wherever the second of two phis is read, both have the same value. -/
theorem env_twinPhis (ht : ir.TwinPhis b i j) (hundefined : ∀ done done', M.effect i done = M.effect j done')
    (hp : (ir.paths e).Precedes j d) (hr : (ir.paths e).Reached c (d :: rest) done) :
    ir.env M done (ir.insn j).target = ir.env M done (ir.insn i).target := by
  have hij := h.placed_paths.precedes_of_sublist ht.order
  have hmem : j ∈ (ir.block b).insns := ht.order.subset (by simp)
  -- the last time that the second phi was executed
  obtain ⟨k, hist, rfl, hk⟩ := List.eq_append_cons_of_mem (hp c rest done hr)
  obtain ⟨b', s, hb', -⟩ := hr.split
  obtain rfl := h.flow.owner b' b j (hb'.mem_code List.mem_cons_self) hmem
  have hki := hij.not_between h.placed_paths paths_free hp hr hk
  obtain ⟨front, done₀, hcode, rfl, -, hvalue⟩ :=
    h.phiValue_entered (M := M) ht.first ht.second ht.covers ht.covered hb'
  have hnodup := h.nodup b'
  have horder := ht.order
  rw [hcode] at hnodup horder
  have hsources : ∀ x ∈ front, x ∉ ir.phiSources i ∧ x ∉ ir.phiSources j := by
    intro x hx
    rw [← not_or]
    intro hmem
    have hlive : ir.live x :=
      hmem.elim (fun hx => (h.source_of_mem ht.first.1 ht.first.2 hx).1) fun hx =>
        (h.source_of_mem ht.second.1 ht.second.2 hx).1
    have hbehind := ht.behind x hmem (h.bb_of_mem (by rw [hcode]; exact List.mem_append_left _ hx) hlive)
    rw [hcode] at hbehind
    have hback := List.mem_cons_of_mem j (mem_back hnodup hbehind)
    exact (List.nodup_append.1 hnodup).2.2 x hx x hback rfl
  have hsecond : ir.env M (k ++ j :: (front.reverse ++ done₀)) (ir.insn j).target =
      (ir.phiValue M done₀ j).getD (M.effect j (front.reverse ++ done₀)) :=
    h.phi_value ht.second.1 ht.second.2 (fun x hx => (hsources x (List.mem_reverse.1 hx)).2) hk
  obtain ⟨pre, mid, rfl⟩ := List.append_of_mem (mem_front hnodup horder)
  have hapart : i ∉ k ++ j :: mid.reverse := by
    simp only [List.nodup_append, List.nodup_cons, List.mem_append, List.mem_cons] at hnodup
    simp only [List.mem_append, List.mem_cons, List.mem_reverse, not_or]
    exact ⟨hki, hnodup.2.2 i (.inr (.inl rfl)) j (.inl rfl), hnodup.1.2.1.1⟩
  have hfirst : ir.env M (k ++ j :: mid.reverse ++ i :: (pre.reverse ++ done₀)) (ir.insn i).target =
      (ir.phiValue M done₀ i).getD (M.effect i (pre.reverse ++ done₀)) :=
    h.phi_value ht.first.1 ht.first.2
      (fun x hx => (hsources x (List.mem_append_left _ (List.mem_reverse.1 hx))).1) hapart
  have hdone : k ++ j :: mid.reverse ++ i :: (pre.reverse ++ done₀) =
      k ++ j :: ((pre ++ i :: mid).reverse ++ done₀) := by simp
  rw [hdone] at hfirst
  rw [hsecond, hfirst, hvalue, hundefined (pre.reverse ++ done₀)]

end SsaForm

/-- Sources that compare equal record the same. -/
theorem SsaForm.covers (h : ir.SsaForm e) (hi : ir.live i) (hphi : (ir.insn i).opcode = .phi)
    (hsources : ir.sources i = ir.sources j) : ir.Covers i j := by
  intro d hd
  obtain ⟨hmem, hlive⟩ := List.mem_filter.1 hd
  obtain ⟨c, hc, hdef⟩ := List.mem_filterMap.1 hmem
  obtain ⟨hop, htarget⟩ := h.entries i hi hphi c hc d hdef
  obtain ⟨⟨k, hk⟩, -⟩ := h.source d (of_decide_eq_true hlive) hop
  have hnotVoid : ir.cell c ≠ .void := by
    rw [← htarget, hk]
    exact nofun
  have hfirst : ((ir.insn d).src1, (ir.insn d).bb) ∈ ir.sources j := by
    rw [← hsources]
    exact List.mem_map.2 ⟨ir.insn d, List.mem_filterMap.2 ⟨c, hc, by simp [phiDef, hnotVoid, hdef]⟩, rfl⟩
  obtain ⟨x, hx, heq⟩ := List.mem_map.1 hfirst
  obtain ⟨c', hc', hx⟩ := List.mem_filterMap.1 hx
  obtain ⟨hsrc, hbb⟩ := Prod.mk.inj heq
  unfold phiDef at hx
  split at hx
  · cases hx
  · obtain ⟨d', hdef', rfl⟩ := Option.map_eq_some_iff.1 hx
    have hlive' : ir.live d' := by
      rw [live, hbb]
      exact of_decide_eq_true hlive
    exact ⟨d', List.mem_filter.2 ⟨List.mem_filterMap.2 ⟨c', hc', hdef'⟩, decide_eq_true hlive'⟩, hbb, hsrc⟩

/-! ## The places of phis and their sources -/

/-- The blocks that the sources of a phi stand in. -/
def sourceBlocks (ir : Ir) (i : InsnId) : List (Option BlockId) := (ir.sources i).map Prod.snd

/-- Two phis stand in one block, in front of the sources that they have there. -/
def Beside (ir : Ir) (i j : InsnId) : Prop :=
  (ir.insn i).bb = (ir.insn j).bb ∧ ∀ b ∈ (ir.insn i).bb.toList, ∀ d ∈ ir.phiSources i ++ ir.phiSources j,
    (ir.insn d).bb = some b → [i, d].Sublist (ir.block b).insns ∧ [j, d].Sublist (ir.block b).insns

instance (ir : Ir) (i j : InsnId) : Decidable (ir.Beside i j) := by
  unfold Beside
  infer_instance

/-- The phis that are left have the sources that they had, and all stand where they stood. -/
structure SamePhis (ir ir' : Ir) : Prop where
  sources : ∀ i, ir'.live i → (ir'.insn i).opcode = .phi → ir'.phiSources i = ir.phiSources i
  blocks : ∀ i, ir'.live i → (ir'.insn i).opcode = .phi → ir'.sourceBlocks i = ir.sourceBlocks i
  bb : ∀ i, ir'.live i → (ir'.insn i).opcode = .phi ∨ (ir'.insn i).opcode = .phisource →
    (ir'.insn i).bb = (ir.insn i).bb
  order : ∀ i d b, ir'.live i → ir'.live d → (ir'.insn i).opcode = .phi → (ir'.insn d).opcode = .phisource →
    [i, d].Sublist (ir.block b).insns → [i, d].Sublist (ir'.block b).insns

namespace SamePhis

theorem refl (ir : Ir) : SamePhis ir ir :=
  ⟨fun _ _ _ => rfl, fun _ _ _ => rfl, fun _ _ _ => rfl, fun _ _ _ _ _ _ _ hs => hs⟩

theorem of_remarked (hr : Remarked ir ir') : SamePhis ir ir' where
  sources i _ _ := by rw [hr.frame]; rfl
  blocks i _ _ := by rw [hr.frame]; rfl
  bb i _ _ := by rw [hr.insn]
  order i d b _ _ _ _ hs := by rwa [hr.insns]

/-- Two phis that are left still stand in front of their sources. -/
theorem beside (hs : SamePhis ir ir') (h : ir'.SsaForm e) (hi : ir'.live i) (hopi : (ir'.insn i).opcode = .phi)
    (hj : ir'.live j) (hopj : (ir'.insn j).opcode = .phi) (hb : ir.Beside i j) : ir'.Beside i j := by
  obtain ⟨hbb, hbehind⟩ := hb
  have hbi := hs.bb i hi (.inl hopi)
  refine ⟨by rw [hbi, hs.bb j hj (.inl hopj), hbb], fun b hb d hd hdb => ?_⟩
  obtain ⟨hlive, hop⟩ : ir'.live d ∧ (ir'.insn d).opcode = .phisource :=
    (List.mem_append.1 hd).elim (h.source_of_mem hi hopi) (h.source_of_mem hj hopj)
  rw [hs.sources i hi hopi, hs.sources j hj hopj] at hd
  rw [hs.bb d hlive (.inr hop)] at hdb
  obtain ⟨hdi, hdj⟩ := hbehind b (hbi ▸ hb) d hd hdb
  exact ⟨hs.order i d b hi hlive hopi hop hdi, hs.order j d b hj hlive hopj hop hdj⟩

end SamePhis

namespace Replaces

variable (hr : Replaces ir ir' e kept gone) (h : ir.SsaForm e) (hm : ir.Mergeable kept gone)
include hr h hm

theorem sourceBlocks (hi : ir'.live i) (hop : (ir'.insn i).opcode = .phi) : ir'.sourceBlocks i = ir.sourceBlocks i := by
  obtain ⟨hne, hlive⟩ := (hr.live i).1 hi
  have hphi : (ir.insn i).opcode = .phi := hr.opcode hne ▸ hop
  have hblocks : ∀ ir : Ir, ir.sourceBlocks i =
      (ir.insn i).phiList.filterMap fun c => (ir.phiDef c).map Instruction.bb := fun ir => by
    rw [Ir.sourceBlocks, Ir.sources, phiDefs, List.map_map, List.map_filterMap]
    rfl
  rw [hblocks, hblocks, ← hr.phiList hne]
  refine List.filterMap_congr fun c hc => ?_
  rw [phiDef, phiDef, hr.cell h hm hi hop hc, hr.definition]
  split
  · rfl
  · cases hd : ir.definition (ir.cell c) with
    | none => rfl
    | some d =>
      obtain ⟨hdgone, hdkept⟩ := hm.ne_of_phisource (h.entries i hlive hphi c (hr.phiList hne ▸ hc) d hd).1
      simp [hr.bb d hdgone hdkept]

/-- Phis and their sources stay, unless an operation is moved. -/
theorem samePhis (hplace : (ir.insn kept).opcode.isOperation = true ∨ ir'.block = ir.block) : SamePhis ir ir' where
  sources i hi hop := hr.phiSources h hm hi hop
  blocks i hi hop := hr.sourceBlocks h hm hi hop
  bb i hi hop := by
    obtain ⟨hne, hlive⟩ := (hr.live i).1 hi
    by_cases hk : i = kept
    · subst hk
      obtain ⟨b, hb⟩ := Option.ne_none_iff_exists'.1 hlive
      obtain ⟨b', hb'⟩ := Option.ne_none_iff_exists'.1 hi
      rcases hplace with hoperation | hblock
      · rw [hr.opcode hne] at hop
        rcases hop with hop | hop <;> rw [hop] at hoperation <;> cases hoperation
      · have hmem := hr.placed b' hb'
        rw [hblock] at hmem
        rw [hb, hb', h.flow.owner b' b i hmem (h.placed i b hb)]
    · exact hr.bb i hne hk
  order i d b _ _ hi hd hs := by
    rcases hplace with hoperation | hblock
    · have hkept : ∀ x, (ir'.insn x).opcode = .phi ∨ (ir'.insn x).opcode = .phisource → x ≠ kept := by
        rintro x hx rfl
        rw [hr.opcode hm.ne.symm] at hx
        rcases hx with hx | hx <;> rw [hx] at hoperation <;> cases hoperation
      have hfilter := hs.filter (· ≠ kept)
      rw [← hr.code] at hfilter
      have hpair : [i, d].filter (· ≠ kept) = [i, d] := by simp [hkept i (.inl hi), hkept d (.inr hd)]
      rw [hpair] at hfilter
      exact hfilter.trans List.filter_sublist
    · rwa [hblock]

end Replaces

/-- Two phis that compare equal. Without a source executed, both take the same. -/
structure PhiPair (ir : Ir) (M : Meaning) (i j : InsnId) : Prop where
  phi : (ir.insn i).opcode = .phi
  phi' : (ir.insn j).opcode = .phi
  covers : ir.Covers i j
  covered : ir.Covers j i
  beside : ir.Beside i j
  undefined : ∀ done done', M.effect i done = M.effect j done'

namespace PhiPair

variable (hp : ir.PhiPair M i j)
include hp

theorem symm : ir.PhiPair M j i where
  phi := hp.phi'
  phi' := hp.phi
  covers := hp.covered
  covered := hp.covers
  beside := by
    obtain ⟨hbb, hbehind⟩ := hp.beside
    refine ⟨hbb.symm, fun b hb d hd hdb => (hbehind b (hbb ▸ hb) d ?_ hdb).symm⟩
    rw [List.mem_append] at hd ⊢
    exact hd.symm
  undefined done done' := (hp.undefined done' done).symm

theorem remarked (hr : Remarked ir ir') : ir'.PhiPair M i j where
  phi := by rw [hr.insn]; exact hp.phi
  phi' := by rw [hr.insn]; exact hp.phi'
  covers := by rw [hr.frame]; exact hp.covers
  covered := by rw [hr.frame]; exact hp.covered
  beside := by
    obtain ⟨hbb, hbehind⟩ := hp.beside
    refine ⟨by rw [hr.insn]; exact hbb, fun b hb d hd hdb => ?_⟩
    rw [hr.insn] at hb hdb
    rw [hr.frame] at hd
    rw [hr.insns]
    exact hbehind b hb d hd hdb
  undefined := hp.undefined

theorem twinPhis (hm : ir.Mergeable i j) (hin : InBlock ir ir' b i j) (hb : (ir.insn i).bb = some b) :
    ir.TwinPhis b i j where
  first := ⟨hm.liveKept, hp.phi⟩
  second := ⟨hm.liveGone, hp.phi'⟩
  order := hin.order
  covers := hp.covers
  covered := hp.covered
  behind d hd hdb := (hp.beside.2 b (by simp [hb]) d (List.mem_append.2 hd) hdb).2

end PhiPair

/-- One phi stands for the other where both are. -/
theorem Replaces.phi_matches (hr : Replaces ir ir' e kept gone) (h : ir.CseInput e) (hm : ir.Mergeable kept gone)
    (hblock : ir'.block = ir.block) (ht : ir.TwinPhis b kept gone)
    (hundefined : ∀ done done', M.effect kept done = M.effect gone done') :
    Matches ir ir' M e (fun _ => false) kept gone where
  moved _ hi := by cases hi
  code b := by rw [hblock]
  load {b i s rest rest' done done'} ho hP hQ ha := by
    have hstays : ∀ {p : Pseudo}, false = true → p ≠ (ir.insn kept).target := fun hfalse => by cases hfalse
    obtain ⟨⟨m, htk, hdk⟩, ng, htg, hdg⟩ := hm.targets h.toSsaForm
    obtain ⟨-, ho₀⟩ := hr.owns ho
    have hdone : done' = done := by
      have htrace := ha.trace
      simpa [visible] using htrace
    subst hdone
    have hkept : (ir.insn kept).target ≠ (ir.insn gone).target := by
      intro heq
      rw [htk, htg] at heq
      rw [heq, hdg] at hdk
      exact hm.ne (Option.some.inj hdk)
    rw [hr.load i s ho]
    split
    · rename_i hs
      rw [ha.env _ hstays hkept, hs]
      exact (h.env_twinPhis ht hundefined (h.defined i s ho₀ ng gone (hs.trans htg) hdg) hP).symm
    · rename_i hs
      exact ha.env _ hstays hs

end Ir

end Sparse
