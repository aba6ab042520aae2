import Sparse.Liveness
import Mathlib.Order.Lattice

/-!
# What liveness tracking records

A pseudo is live on entry to a block when some path from the block reaches an exposed
use of it before passing a block that defines it. The events of `track_pseudo_liveness`
are the uses and definitions this speaks of; the recursion of `phi_defines` ends when
no phi node is its own source.
-/

namespace Sparse

namespace Ir

variable (ir : Ir)

/-- The blocks that hold a source of a phi node, possibly through other phi nodes. -/
inductive PhiSource : InsnId → BlockId → Prop
  | direct {i d : InsnId} {c : CellId} {bb : BlockId} :
      c ∈ (ir.insn i).phiList → ir.cell c ≠ .void → ir.definition (ir.cell c) = some d →
      (ir.insn d).bb = some bb → (ir.insn d).opcode ≠ .phi → PhiSource i bb
  | nested {i d : InsnId} {c : CellId} {bb : BlockId} :
      c ∈ (ir.insn i).phiList → ir.cell c ≠ .void → ir.definition (ir.cell c) = some d →
      ir.live d → (ir.insn d).opcode = .phi → PhiSource d bb → PhiSource i bb

/-- The phi node `d` is a source of the phi node `i`. -/
def NestedPhi (d i : InsnId) : Prop :=
  ∃ c ∈ (ir.insn i).phiList, ir.definition (ir.cell c) = some d ∧ (ir.insn d).opcode = .phi

/-- The block defines the pseudo; the target of a phi node is defined where its sources are. -/
def Defines (bb : BlockId) (p : Pseudo) : Prop :=
  (∃ i ∈ (ir.block bb).insns, ir.live i ∧ p ∈ ir.defines i) ∨
    ∃ b ∈ ir.bbs, ∃ i ∈ (ir.block b).insns, ir.live i ∧ (ir.insn i).opcode = .phi ∧
      p = (ir.insn i).target ∧ ir.PhiSource i bb

/-- The block uses the pseudo before any instruction of its own defines it. -/
def ExposedUse (bb : BlockId) (p : Pseudo) : Prop :=
  trackablePseudo p ∧ ∃ before i after, (ir.block bb).insns = before ++ i :: after ∧ ir.live i ∧
    p ∈ ir.uses i ∧ ∀ j ∈ before, ir.live j → p ∉ ir.defines j

/-- Some path from the block reaches an exposed use before it passes a definition. -/
def LiveIn (bb : BlockId) (p : Pseudo) : Prop :=
  ∃ last, Relation.ReflTransGen
      (fun x y => y ∈ (ir.block x).children ∧ ¬ ir.Defines x p) bb last ∧ ir.ExposedUse last p

end Ir

/-- An entrypoint as liveness tracking meets it: edges within the listed blocks, cleared lists,
instructions that lie in their block, one definition for each register, placed before its uses
in its block, and no phi node that is its own source. -/
structure LivenessInput (ir : Ir) : Prop where
  edges : ∀ p c, p ∈ (ir.block c).parents ↔ c ∈ (ir.block p).children
  children : ∀ b ∈ ir.bbs, ∀ c ∈ (ir.block b).children, c ∈ ir.bbs
  parents : ∀ b ∈ ir.bbs, ∀ p ∈ (ir.block b).parents, p ∈ ir.bbs
  cleared : ∀ b ∈ ir.bbs, (ir.block b).needs = [] ∧ (ir.block b).defines = []
  inBlock : ∀ b ∈ ir.bbs, ∀ i ∈ (ir.block b).insns, ir.live i → (ir.insn i).bb = some b
  single : ∀ b ∈ ir.bbs, ∀ i ∈ (ir.block b).insns, ir.live i → ∀ p ∈ ir.defines i,
    (∃ nr, p = .reg nr) ∧ ir.definition p = some i
  definedFirst : ∀ b ∈ ir.bbs, ∀ before i after, (ir.block b).insns = before ++ i :: after →
    ir.live i → ∀ nr, .reg nr ∈ ir.uses i → ∀ d, ir.definition (.reg nr) = some d →
    (ir.insn d).bb = some b → (ir.insn d).opcode ≠ .phi → d ∈ before ∧ .reg nr ∈ ir.defines d
  nesting : WellFounded ir.NestedPhi

section Concat

variable {A B : Type*} {f : A → Option (List B)}

private theorem isSome_mapM_flatten {as : List A} (h : ∀ a ∈ as, (f a).isSome) :
    ((as.mapM f).map List.flatten).isSome := by
  rw [Option.isSome_map]
  induction as with
  | nil => rfl
  | cons a as ih =>
    obtain ⟨x, hx⟩ := Option.isSome_iff_exists.mp (h a List.mem_cons_self)
    obtain ⟨xs, hxs⟩ := Option.isSome_iff_exists.mp
      (ih (fun b hb => h b (List.mem_cons_of_mem a hb)))
    simp [List.mapM_cons, hx, hxs]

private theorem isSome_of_mapM_flatten {as : List A} {bs : List B}
    (h : (as.mapM f).map List.flatten = some bs) : ∀ a ∈ as, (f a).isSome := by
  induction as generalizing bs with
  | nil => simp
  | cons a as ih =>
    obtain ⟨ls, hls, rfl⟩ := Option.map_eq_some_iff.mp h
    rw [List.mapM_cons] at hls
    obtain ⟨x, hx, hls⟩ := Option.bind_eq_some_iff.mp hls
    obtain ⟨xs, hxs, -⟩ := Option.bind_eq_some_iff.mp hls
    intro b hb
    rcases List.mem_cons.mp hb with rfl | hb
    · rw [hx]; rfl
    · exact ih (show (as.mapM f).map List.flatten = some xs.flatten by rw [hxs]; rfl) b hb

private theorem mem_mapM_flatten {as : List A} {bs : List B}
    (h : (as.mapM f).map List.flatten = some bs) (b : B) :
    b ∈ bs ↔ ∃ a ∈ as, ∃ l, f a = some l ∧ b ∈ l := by
  induction as generalizing bs with
  | nil =>
    obtain rfl : [] = bs := by simpa using h
    simp
  | cons a as ih =>
    obtain ⟨ls, hls, rfl⟩ := Option.map_eq_some_iff.mp h
    rw [List.mapM_cons] at hls
    obtain ⟨x, hx, hls⟩ := Option.bind_eq_some_iff.mp hls
    obtain ⟨xs, hxs, hls⟩ := Option.bind_eq_some_iff.mp hls
    obtain rfl : x :: xs = ls := by simpa using hls
    have hi := ih (show (as.mapM f).map List.flatten = some xs.flatten by rw [hxs]; rfl)
    rw [List.flatten_cons, List.mem_append, hi]
    simp [hx]

end Concat

private theorem exists_fuel {A : Type*} {P : ℕ → A → Prop} (as : List A)
    (h : ∀ a ∈ as, ∃ n, ∀ m ≥ n, P m a) : ∃ n, ∀ m ≥ n, ∀ a ∈ as, P m a := by
  induction as with
  | nil => exact ⟨0, by simp⟩
  | cons a as ih =>
    obtain ⟨n, hn⟩ := h a List.mem_cons_self
    obtain ⟨k, hk⟩ := ih (fun b hb => h b (List.mem_cons_of_mem a hb))
    refine ⟨max n k, fun m hm b hb => ?_⟩
    rcases List.mem_cons.mp hb with rfl | hb
    · exact hn m (le_trans (le_max_left n k) hm)
    · exact hk m (le_trans (le_max_right n k) hm) b hb

namespace Ir

variable {ir : Ir}

/-- What one entry of a phi list contributes to `phi_defines`. -/
private def entryDefines (ir : Ir) (fuel : ℕ) (phi : CellId) : Option (List BlockId) :=
  if ir.cell phi = .void then some []
  else
    match ir.definition (ir.cell phi) with
    | none => some []
    | some d =>
      match (ir.insn d).bb with
      | none => some []
      | some bb => if (ir.insn d).opcode = .phi then phiDefines ir fuel d else some [bb]

private theorem phiDefines_succ (fuel : ℕ) (i : InsnId) :
    ir.phiDefines (fuel + 1) i =
      ((ir.insn i).phiList.mapM (ir.entryDefines fuel)).map List.flatten := rfl

/-- Enough fuel takes `phi_defines` through any nesting that ends. -/
theorem phiDefines_terminates (h : WellFounded ir.NestedPhi) (i : InsnId) :
    ∃ n, ∀ fuel ≥ n, (ir.phiDefines fuel i).isSome := by
  induction i using h.induction with
  | _ i ih =>
    have hentry : ∀ c ∈ (ir.insn i).phiList, ∃ n, ∀ fuel ≥ n, (ir.entryDefines fuel c).isSome := by
      intro c hc
      unfold entryDefines
      split_ifs with hv
      · exact ⟨0, fun _ _ => rfl⟩
      · split
        next => exact ⟨0, fun _ _ => rfl⟩
        next d hd =>
          split
          next => exact ⟨0, fun _ _ => rfl⟩
          next bb hbb =>
            split_ifs with hop
            · exact ih d ⟨c, hc, hd, hop⟩
            · exact ⟨0, fun _ _ => rfl⟩
    obtain ⟨n, hn⟩ := exists_fuel _ hentry
    refine ⟨n + 1, fun fuel hfuel => ?_⟩
    obtain ⟨k, rfl⟩ : ∃ k, fuel = k + 1 := ⟨fuel - 1, by omega⟩
    rw [phiDefines_succ]
    exact isSome_mapM_flatten (hn k (by omega))

/-- The recursion still ends when instructions become others than phi nodes. -/
theorem phiDefines_isSome_congr {ir' : Ir} (hcell : ir'.cell = ir.cell)
    (hdefinition : ir'.definition = ir.definition)
    (hinsn : ∀ j, ir'.insn j = ir.insn j ∨ (ir'.insn j).opcode ≠ .phi) {fuel : ℕ} {i : InsnId}
    (hi : ir'.insn i = ir.insn i) (h : (ir.phiDefines fuel i).isSome) :
    (ir'.phiDefines fuel i).isSome := by
  induction fuel generalizing i with
  | zero => simp [phiDefines] at h
  | succ fuel ih =>
    obtain ⟨bs, hbs⟩ := Option.isSome_iff_exists.mp h
    rw [phiDefines_succ] at hbs ⊢
    rw [hi]
    refine isSome_mapM_flatten fun c hc => ?_
    have hentry := isSome_of_mapM_flatten hbs c hc
    unfold entryDefines at hentry ⊢
    rw [hcell, hdefinition]
    split_ifs with hv
    · rfl
    · rw [if_neg hv] at hentry
      split
      next => rfl
      next d hd =>
        simp only [hd] at hentry
        split
        next => rfl
        next b hb =>
          split_ifs with hop
          · have hsame := (hinsn d).resolve_right (not_not_intro hop)
            rw [hsame] at hb hop
            simp only [hb, if_pos hop] at hentry
            exact ih hsame hentry
          · rfl

theorem trackInstructionUsage_isSome_congr {ir' : Ir} (hcell : ir'.cell = ir.cell)
    (hdefinition : ir'.definition = ir.definition)
    (hinsn : ∀ j, ir'.insn j = ir.insn j ∨ (ir'.insn j).opcode ≠ .phi) {fuel : ℕ} {bb : BlockId}
    {i : InsnId} (hi : ir'.insn i = ir.insn i) (h : (ir.trackInstructionUsage fuel bb i).isSome) :
    (ir'.trackInstructionUsage fuel bb i).isSome := by
  unfold trackInstructionUsage at h ⊢
  rw [hi]
  split_ifs at h ⊢
  · rw [Option.isSome_map] at h ⊢
    exact phiDefines_isSome_congr hcell hdefinition hinsn hi h
  · rfl

theorem mem_phiDefines {fuel : ℕ} {i : InsnId} {bs : List BlockId}
    (h : ir.phiDefines fuel i = some bs) (bb : BlockId) : bb ∈ bs ↔ ir.PhiSource i bb := by
  induction fuel generalizing i bs with
  | zero => simp [phiDefines] at h
  | succ fuel ih =>
    rw [phiDefines_succ] at h
    rw [mem_mapM_flatten h]
    constructor
    · rintro ⟨c, hc, l, hl, hb⟩
      unfold entryDefines at hl
      split_ifs at hl with hv
      · obtain rfl := Option.some.inj hl
        exact absurd hb List.not_mem_nil
      · split at hl
        next =>
          obtain rfl := Option.some.inj hl
          exact absurd hb List.not_mem_nil
        next d hd =>
          split at hl
          next =>
            obtain rfl := Option.some.inj hl
            exact absurd hb List.not_mem_nil
          next b hbb =>
            split_ifs at hl with hop
            · exact .nested hc hv hd (by simp [live, hbb]) hop ((ih hl).mp hb)
            · obtain rfl := Option.some.inj hl
              obtain rfl := List.mem_singleton.mp hb
              exact .direct hc hv hd hbb hop
    · intro hs
      have hall := isSome_of_mapM_flatten h
      cases hs with
      | @direct i d c bb hc hv hd hbb hop =>
        refine ⟨c, hc, [bb], ?_, List.mem_singleton_self bb⟩
        simp only [entryDefines, if_neg hv, hd, hbb, if_neg hop]
      | @nested i d c bb hc hv hd hlive hop hs =>
        obtain ⟨b, hb⟩ := Option.ne_none_iff_exists'.mp hlive
        have he : ir.entryDefines fuel c = ir.phiDefines fuel d := by
          simp only [entryDefines, if_neg hv, hd, hb, if_pos hop]
        obtain ⟨l, hl⟩ := Option.isSome_iff_exists.mp (hall c hc)
        exact ⟨c, hc, l, hl, (ih (he ▸ hl)).mpr hs⟩

theorem not_isPhi_of_mem {i : InsnId} {p : Pseudo} (h : p ∈ ir.uses i ∨ p ∈ ir.defines i) :
    (ir.insn i).opcode ≠ .phi := by
  intro hop
  simp [uses, defines, hop, Opcode.isBinary] at h

/-- The events of one instruction. -/
theorem mem_trackInstructionUsage {fuel : ℕ} {bb : BlockId} {i : InsnId} {us : List Usage}
    (h : ir.trackInstructionUsage fuel bb i = some us) (b : BlockId) (p : Pseudo) :
    (.use b p ∈ us ↔ b = bb ∧ p ∈ ir.uses i) ∧
      (.define b p ∈ us ↔ (b = bb ∧ p ∈ ir.defines i) ∨
        ((ir.insn i).opcode = .phi ∧ p = (ir.insn i).target ∧ ir.PhiSource i b)) := by
  unfold trackInstructionUsage at h
  split_ifs at h with hop
  · obtain ⟨bs, hbs, rfl⟩ := Option.map_eq_some_iff.mp h
    have hno : ∀ p, p ∉ ir.uses i ∧ p ∉ ir.defines i := fun p =>
      ⟨fun hm => not_isPhi_of_mem (Or.inl hm) hop, fun hm => not_isPhi_of_mem (Or.inr hm) hop⟩
    constructor
    · simp [(hno p).1]
    · simp only [List.mem_map, Usage.define.injEq, (hno p).2, and_false, false_or, hop, true_and]
      constructor
      · rintro ⟨c, hc, rfl, rfl⟩
        exact ⟨rfl, (mem_phiDefines hbs c).mp hc⟩
      · rintro ⟨rfl, hs⟩
        exact ⟨b, (mem_phiDefines hbs b).mpr hs, rfl, rfl⟩
  · obtain rfl := Option.some.inj h
    simp only [List.mem_append, List.mem_map, hop, false_and, or_false]
    constructor
    · constructor
      · rintro (⟨q, hq, he⟩ | ⟨q, hq, he⟩)
        · simp only [Usage.use.injEq] at he
          exact ⟨he.1.symm, he.2 ▸ hq⟩
        · simp at he
      · rintro ⟨rfl, hp⟩
        exact Or.inl ⟨p, hp, rfl⟩
    · constructor
      · rintro (⟨q, hq, he⟩ | ⟨q, hq, he⟩)
        · simp at he
        · simp only [Usage.define.injEq] at he
          exact ⟨he.1.symm, he.2 ▸ hq⟩
      · rintro ⟨rfl, hp⟩
        exact Or.inr ⟨p, hp, rfl⟩

theorem usage_terminates (h : WellFounded ir.NestedPhi) :
    ∃ n, ∀ fuel ≥ n, (ir.usage fuel).isSome := by
  have hinsn : ∀ bb i, ∃ n, ∀ fuel ≥ n, (ir.trackInstructionUsage fuel bb i).isSome := by
    intro bb i
    obtain ⟨n, hn⟩ := phiDefines_terminates h i
    refine ⟨n, fun fuel hf => ?_⟩
    unfold trackInstructionUsage
    split_ifs
    · rw [Option.isSome_map]
      exact hn fuel hf
    · rfl
  have hblock : ∀ bb, ∃ n, ∀ fuel ≥ n, (ir.blockUsage fuel bb).isSome := by
    intro bb
    obtain ⟨n, hn⟩ := exists_fuel (ir.block bb).insns (fun i _ => hinsn bb i)
    refine ⟨n, fun fuel hf => isSome_mapM_flatten (fun i hi => ?_)⟩
    split_ifs
    · rfl
    · exact hn fuel hf i hi
  obtain ⟨n, hn⟩ := exists_fuel ir.bbs (fun bb _ => hblock bb)
  exact ⟨n, fun fuel hf => isSome_mapM_flatten (hn fuel hf)⟩

theorem mem_usage {fuel : ℕ} {us : List Usage} (h : ir.usage fuel = some us) (u : Usage) :
    u ∈ us ↔ ∃ bb ∈ ir.bbs, ∃ i ∈ (ir.block bb).insns, ir.live i ∧
      ∃ es, ir.trackInstructionUsage fuel bb i = some es ∧ u ∈ es := by
  rw [mem_mapM_flatten h]
  constructor
  · rintro ⟨bb, hbb, l, hl, hu⟩
    obtain ⟨i, hi, es, hes, hu⟩ := (mem_mapM_flatten hl u).mp hu
    split_ifs at hes with hlive
    · obtain rfl := Option.some.inj hes
      exact absurd hu List.not_mem_nil
    · exact ⟨bb, hbb, i, hi, hlive, es, hes, hu⟩
  · rintro ⟨bb, hbb, i, hi, hlive, es, hes, hu⟩
    obtain ⟨l, hl⟩ := Option.isSome_iff_exists.mp (isSome_of_mapM_flatten h bb hbb)
    exact ⟨bb, hbb, l, hl, (mem_mapM_flatten hl u).mpr ⟨i, hi, es, by rw [if_neg hlive, hes], hu⟩⟩

theorem exists_of_usage {fuel : ℕ} {us : List Usage} (h : ir.usage fuel = some us) {bb : BlockId}
    (hb : bb ∈ ir.bbs) {i : InsnId} (hi : i ∈ (ir.block bb).insns) (hlive : ir.live i) :
    ∃ es, ir.trackInstructionUsage fuel bb i = some es := by
  obtain ⟨l, hl⟩ := Option.isSome_iff_exists.mp (isSome_of_mapM_flatten h bb hb)
  have hs := isSome_of_mapM_flatten hl i hi
  rw [if_neg hlive] at hs
  exact Option.isSome_iff_exists.mp hs

end Ir

end Sparse
