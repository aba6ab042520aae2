import Sparse.LinearizedFunction
import Sparse.LinearizedSwitch
import Sparse.BitFieldAccesses
import Mathlib.Data.List.Nodup

/-!
# Where a switch on a constant goes

The bounds of a case are kept as `int`, exchanged when they are out of order, and compared with
the word of the value as a signed number of 64 bits. The value goes to its case when these
truncated bounds hold its word, and those of no case that is sorted before.
-/

namespace Sparse
open MaskedWords Entrypoint
open Ir (selectJump)

/-! ## The first element of a sorted list -/

section

variable {α : Type*} {le : α → α → Bool} {l : List α} {x y : α}

/-- A stable sort leaves `x` before `y`. -/
def Precedes (le : α → α → Bool) (l : List α) (x y : α) : Prop :=
  le x y = true ∧ (le y x = true → [x, y].Sublist l)

/-- Two elements of a list stand in one order or the other. -/
theorem pair_sublist (hx : x ∈ l) (hy : y ∈ l) (hne : x ≠ y) : [x, y].Sublist l ∨ [y, x].Sublist l := by
  obtain ⟨before, after, rfl⟩ := List.append_of_mem hx
  rcases List.mem_append.1 hy with hy | hy
  · exact Or.inr ((List.singleton_sublist.2 hy).append (List.singleton_sublist.2 List.mem_cons_self))
  · have hafter : y ∈ after := (List.mem_cons.1 hy).resolve_left hne.symm
    exact Or.inl (((List.singleton_sublist.2 hafter).cons_cons x).trans (List.sublist_append_right before _))

/-- An element that stands before another one is found before it. -/
theorem mem_of_pair_sublist {before after : List α} (hl : (before ++ x :: after).Nodup)
    (h : [y, x].Sublist (before ++ x :: after)) : y ∈ before := by
  obtain ⟨front, back, heq, hfront, hback⟩ := List.sublist_append_iff.1 h
  cases front with
  | nil =>
    obtain rfl : back = [y, x] := heq.symm
    have hx : x ∉ after := (List.nodup_cons.1 (List.nodup_append.1 hl).2.1).1
    cases hback with
    | cons _ hback => exact absurd (hback.subset (by simp)) hx
    | cons_cons _ hback => exact absurd (hback.subset (by simp)) hx
  | cons z front =>
    obtain rfl : y = z := (List.cons.inj heq).1
    exact hfront.subset List.mem_cons_self

/-- In a list without duplicates only one of the two orders is there. -/
theorem not_pair_sublist (hl : l.Nodup) (h : [x, y].Sublist l) : ¬[y, x].Sublist l := by
  intro h'
  obtain ⟨before, after, rfl⟩ := List.append_of_mem (h.subset List.mem_cons_self)
  have hy : y ∈ before := mem_of_pair_sublist hl h'
  obtain ⟨front, back, rfl⟩ := List.append_of_mem hy
  rw [List.append_assoc, List.cons_append] at h hl
  have hx : x ∈ front := mem_of_pair_sublist hl h
  exact (List.nodup_append.1 hl).2.2 x hx x (by simp) rfl

/-- The element of a sorted list that a search finds. -/
theorem find?_mergeSort_eq_some (htrans : ∀ a b c, le a b = true → le b c = true → le a c = true)
    (htotal : ∀ a b, (le a b || le b a) = true) (hl : l.Nodup) {p : α → Bool} :
    (l.mergeSort le).find? p = some x ↔ x ∈ l ∧ p x = true ∧ ∀ y ∈ l, p y = true → y = x ∨ Precedes le l x y := by
  have hfound : ∀ {x}, (l.mergeSort le).find? p = some x → x ∈ l ∧ p x = true ∧
      ∀ y ∈ l, p y = true → y = x ∨ Precedes le l x y := by
    intro x h
    obtain ⟨hp, before, after, heq, hbefore⟩ := List.find?_eq_some_iff_append.1 h
    have hx : x ∈ l := List.mem_mergeSort.1 (List.mem_of_find?_eq_some h)
    have hsorted := List.pairwise_mergeSort htrans htotal l
    have hnodup : (l.mergeSort le).Nodup := (List.mergeSort_perm l le).nodup_iff.2 hl
    rw [heq] at hsorted hnodup
    refine ⟨hx, hp, fun y hy hpy => ?_⟩
    have hmem : y ∈ before ++ x :: after := heq ▸ List.mem_mergeSort.2 hy
    rcases List.mem_append.1 hmem with hb | ha
    · exact absurd hpy (by simpa using hbefore y hb)
    · rcases List.mem_cons.1 ha with rfl | ha
      · exact Or.inl rfl
      · refine or_iff_not_imp_left.2 fun hne => ⟨?_, fun hle => ?_⟩
        · exact (List.pairwise_cons.1 (List.pairwise_append.1 hsorted).2.1).1 y ha
        · refine (pair_sublist hx hy (Ne.symm hne)).resolve_right fun hyx => ?_
          have hback := List.pair_sublist_mergeSort htrans htotal hle hyx
          rw [heq] at hback
          have hb := mem_of_pair_sublist hnodup hback
          exact (List.nodup_append.1 hnodup).2.2 y hb y (List.mem_cons_of_mem _ ha) rfl
  refine ⟨hfound, fun ⟨hx, hp, hfirst⟩ => ?_⟩
  obtain ⟨z, hz⟩ := Option.isSome_iff_exists.1 (List.find?_isSome.2 ⟨x, List.mem_mergeSort.2 hx, hp⟩)
  obtain ⟨hmem, hpz, hother⟩ := hfound hz
  rcases hfirst z hmem hpz with rfl | hxz
  · exact hz
  · rcases hother x hx hp with rfl | hzx
    · exact hz
    · exact absurd (hzx.2 hxz.1) (not_pair_sublist hl (hxz.2 hzx.1))

end

/-! ## The cases of a switch -/

/-- An integer constant that bounds a case, with the bits above its type clear. -/
structure CaseValue where
  ctype : IntType
  value : BitVec 64
  canonical : Canonical ctype.bitSize value

/-- A case symbol, with its `case_expression` and its `case_to`. -/
structure CaseLabel where
  label : LabelId
  caseExpression : Option CaseValue
  caseTo : Option CaseValue

/-- The bound in the type of the switch. -/
def CaseValue.converted (type : IntType) (bound : CaseValue) : ℤ :=
  type.value (generateCast bound.ctype type.bitSize bound.value)

namespace CaseLabel

/-- The words that `linearize_switch` reads. -/
def words (c : CaseLabel) : SwitchCase :=
  ⟨c.label, c.caseExpression.map CaseValue.value, c.caseTo.map CaseValue.value⟩

/-- The value lies between the bounds of the case, which C converts to the type of the switch. -/
def contains (type : IntType) (c : CaseLabel) (x : BitVec 64) : Bool :=
  match c.caseExpression with
  | none => false
  | some low => low.converted type ≤ type.value x ∧ type.value x ≤ (c.caseTo.getD low).converted type

/-- The word lies between the bounds as the jump of the case has them. -/
def shows (c : CaseLabel) (x : BitVec 64) : Bool := (c.words.jump 0).any (·.holds x)

/-- The jump of one case is sorted before that of another. -/
def SortedBefore (cases : List CaseLabel) (c c' : CaseLabel) : Prop :=
  ∃ jmp ∈ c.words.jump 0, ∃ jmp' ∈ c'.words.jump 0,
    multijmpLe jmp jmp' = true ∧ (multijmpLe jmp' jmp = true → [c, c'].Sublist cases)

end CaseLabel

/-- The case that C goes to, or its default. -/
def chosenCase (type : IntType) (cases : List CaseLabel) (x : BitVec 64) : Option CaseLabel :=
  (cases.find? (·.contains type x)).or (cases.reverse.find? (·.caseExpression.isNone))

/-- No value of the type lies in two cases. -/
def DisjointLabels (type : IntType) (cases : List CaseLabel) : Prop :=
  cases.Pairwise fun c c' => ∀ x, Canonical type.bitSize x → ¬(c.contains type x = true ∧ c'.contains type x = true)

/-- The truncated bounds of the case that contains the value show it, and those of the cases
sorted before do not; without such a case no truncated bounds show it. -/
structure Shown (type : IntType) (cases : List CaseLabel) (x : BitVec 64) : Prop where
  shows : ∀ c ∈ cases, c.contains type x = true → c.shows x = true
  first : ∀ c ∈ cases, c.contains type x = true → ∀ c' ∈ cases, c'.shows x = true →
    c' = c ∨ CaseLabel.SortedBefore cases c c'
  default : (∀ c ∈ cases, c.contains type x = false) → ∀ c ∈ cases, c.shows x = false

/-- The switch on a constant goes to the block of the case that C chooses, or to its end. -/
def Dispatches (ep : Entrypoint) (insn : InsnId) (type : IntType) (cases : List CaseLabel)
    (switchEnd : BlockId) (x : BitVec 64) : Prop :=
  (selectJump x (ep.multijmpList insn)).map Multijmp.target =
    some (match chosenCase type cases x with
      | some c => (ep.bbTarget c.label).getD 0
      | none => switchEnd)

/-- Where `linearize_switch` stands before the loop over the case symbols. -/
structure SwitchStarted (ep : Entrypoint) (insn : InsnId) (cases : List CaseLabel) (switchEnd : BlockId) :
    Prop where
  inv : ep.Inv
  list : ep.multijmpList insn = []
  labels : (cases.map CaseLabel.label).Nodup
  waits : ∀ c ∈ cases, ep.Waits c.label
  held : ep.Held (fun _ => False) switchEnd

section

variable {type : IntType} {cases : List CaseLabel} {c c' : CaseLabel} {F : Entrypoint} {insn : InsnId}
  {switchEnd : BlockId} {x : BitVec 64} {jmp jmp' : Multijmp}

/-- The jump of a case to its block. -/
def CaseLabel.jump (F : Entrypoint) (c : CaseLabel) : Option Multijmp := c.words.jump ((F.bbTarget c.label).getD 0)

theorem jump_target (c : SwitchCase) (bb : BlockId) :
    c.jump bb = (c.jump 0).map fun jmp => { jmp with target := bb } := by
  unfold SwitchCase.jump
  rw [Option.map_map]
  congr 1
  funext value
  dsimp only [Function.comp_apply]
  split
  · rfl
  · rfl

theorem shows_of_jump (h : c.jump F = some jmp) : c.shows x = jmp.holds x := by
  rw [CaseLabel.jump, jump_target, Option.map_eq_some_iff] at h
  obtain ⟨jmp₀, h₀, rfl⟩ := h
  rw [CaseLabel.shows, h₀]
  rfl

theorem jump_of_shows (h : c.shows x = true) : ∃ jmp, c.jump F = some jmp := by
  rw [CaseLabel.shows, Option.any_eq_true] at h
  obtain ⟨jmp₀, h₀, -⟩ := h
  exact ⟨_, by rw [CaseLabel.jump, jump_target, h₀, Option.map_some]⟩

theorem jump_of_contains (h : c.contains type x = true) : ∃ jmp, c.jump F = some jmp := by
  rw [CaseLabel.contains] at h
  cases hlow : c.caseExpression with
  | none =>
    rw [hlow] at h
    cases h
  | some low =>
    rw [CaseLabel.jump, SwitchCase.jump, CaseLabel.words, hlow]
    exact ⟨_, rfl⟩

theorem sortedBefore_iff (h : c.jump F = some jmp) (h' : c'.jump F = some jmp') :
    CaseLabel.SortedBefore cases c c' ↔
      multijmpLe jmp jmp' = true ∧ (multijmpLe jmp' jmp = true → [c, c'].Sublist cases) := by
  rw [CaseLabel.jump, jump_target, Option.map_eq_some_iff] at h h'
  obtain ⟨jmp₀, h₀, rfl⟩ := h
  obtain ⟨jmp₁, h₁, rfl⟩ := h'
  rw [CaseLabel.SortedBefore, h₀, h₁]
  constructor
  · rintro ⟨_, hmem, _, hmem', hle⟩
    obtain rfl := Option.mem_some.1 hmem
    obtain rfl := Option.mem_some.1 hmem'
    exact hle
  · intro hle
    exact ⟨jmp₀, rfl, jmp₁, rfl, hle⟩

/-- Every case has a block of its own, and none the end of the switch. -/
structure OwnBlocks (F : Entrypoint) (cases : List CaseLabel) (switchEnd : BlockId) : Prop where
  nodup : cases.Nodup
  inj : ∀ c ∈ cases, ∀ c' ∈ cases, (F.bbTarget c.label).getD 0 = (F.bbTarget c'.label).getD 0 → c = c'
  ne_end : ∀ c ∈ cases, (F.bbTarget c.label).getD 0 ≠ switchEnd

/-- The jumps of the cases in their order, and the default. -/
def unsortedJumps (F : Entrypoint) (cases : List CaseLabel) (switchEnd : BlockId) : List Multijmp :=
  cases.filterMap (·.jump F) ++ [⟨F.defaultBlock (cases.map CaseLabel.words) switchEnd, 1, 0⟩]

theorem unsortedJumps_eq (F : Entrypoint) (cases : List CaseLabel) (switchEnd : BlockId) :
    F.jumps (cases.map CaseLabel.words) ++ [⟨F.defaultBlock (cases.map CaseLabel.words) switchEnd, 1, 0⟩] =
      unsortedJumps F cases switchEnd := by
  rw [unsortedJumps, Entrypoint.jumps, List.filterMap_map]
  rfl

theorem mem_unsortedJumps : jmp ∈ unsortedJumps F cases switchEnd ↔
    (∃ c ∈ cases, c.jump F = some jmp) ∨ jmp = ⟨F.defaultBlock (cases.map CaseLabel.words) switchEnd, 1, 0⟩ := by
  rw [unsortedJumps, List.mem_append, List.mem_filterMap, List.mem_singleton]

theorem isDefault_default (bb : BlockId) : Multijmp.isDefault ⟨bb, 1, 0⟩ = true := rfl

theorem target_of_caseJump (h : c.jump F = some jmp) : jmp.target = (F.bbTarget c.label).getD 0 := target_of_jump h

theorem unsortedJumps_nodup (hown : OwnBlocks F cases switchEnd) : (unsortedJumps F cases switchEnd).Nodup := by
  refine List.nodup_append.2 ⟨?_, List.nodup_singleton _, ?_⟩
  · rw [List.Nodup, List.pairwise_filterMap]
    refine hown.nodup.imp_of_mem fun {c c'} hc hc' hne jmp hjmp jmp' hjmp' heq => hne ?_
    exact hown.inj c hc c' hc' (by rw [← target_of_caseJump hjmp, ← target_of_caseJump hjmp', heq])
  · rintro jmp hmem _ hdefault rfl
    obtain ⟨c, -, hjmp⟩ := List.mem_filterMap.1 hmem
    have hnot : jmp.isDefault = false := not_isDefault_of_jump hjmp
    rw [List.mem_singleton.1 hdefault, isDefault_default] at hnot
    exact Bool.noConfusion hnot

/-- The order of the jumps is that of the cases. -/
theorem precedes_iff (hown : OwnBlocks F cases switchEnd) (hc : c ∈ cases) (hc' : c' ∈ cases) (hne : c ≠ c')
    (h : c.jump F = some jmp) (h' : c'.jump F = some jmp') :
    Precedes multijmpLe (unsortedJumps F cases switchEnd) jmp jmp' ↔ CaseLabel.SortedBefore cases c c' := by
  have hlift : ∀ {c c' : CaseLabel} {jmp jmp'}, c.jump F = some jmp → c'.jump F = some jmp' →
      [c, c'].Sublist cases → [jmp, jmp'].Sublist (unsortedJumps F cases switchEnd) := by
    intro c c' jmp jmp' h h' hsub
    have hmap := hsub.filterMap (·.jump F)
    rw [List.filterMap_cons_some h, List.filterMap_cons_some h', List.filterMap_nil] at hmap
    exact hmap.trans (List.sublist_append_left _ _)
  rw [sortedBefore_iff h h', Precedes]
  refine and_congr_right fun _ => forall_congr' fun _ => ⟨fun hsub => ?_, hlift h h'⟩
  refine (pair_sublist hc hc' hne).resolve_right fun hback => ?_
  exact not_pair_sublist (unsortedJumps_nodup hown) hsub (hlift h' h hback)

/-- What the sorted table of a switch selects. -/
theorem selectJump_eq_some (hown : OwnBlocks F cases switchEnd) :
    selectJump x ((unsortedJumps F cases switchEnd).mergeSort multijmpLe) = some jmp ↔
      jmp ∈ unsortedJumps F cases switchEnd ∧ (jmp.isDefault || jmp.holds x) = true ∧
        ∀ jmp' ∈ unsortedJumps F cases switchEnd, (jmp'.isDefault || jmp'.holds x) = true →
          jmp' = jmp ∨ Precedes multijmpLe (unsortedJumps F cases switchEnd) jmp jmp' := by
  rw [selectJump_eq_find]
  exact find?_mergeSort_eq_some multijmpLe_trans multijmpLe_total (unsortedJumps_nodup hown)

/-- The case is taken when its bounds show the value, and it comes before the others that do. -/
theorem selects_case_iff (hown : OwnBlocks F cases switchEnd) (hc : c ∈ cases) (h : c.jump F = some jmp) :
    selectJump x ((unsortedJumps F cases switchEnd).mergeSort multijmpLe) = some jmp ↔
      c.shows x = true ∧ ∀ c' ∈ cases, c'.shows x = true → c' = c ∨ CaseLabel.SortedBefore cases c c' := by
  have hnot : jmp.isDefault = false := not_isDefault_of_jump h
  rw [selectJump_eq_some hown, hnot, Bool.false_or, shows_of_jump h]
  constructor
  · rintro ⟨-, hholds, hfirst⟩
    refine ⟨hholds, fun c' hc' hshows => or_iff_not_imp_left.2 fun hne => ?_⟩
    obtain ⟨jmp', h'⟩ := jump_of_shows (F := F) hshows
    rw [shows_of_jump h'] at hshows
    have hmem : jmp' ∈ unsortedJumps F cases switchEnd := mem_unsortedJumps.2 (Or.inl ⟨c', hc', h'⟩)
    rcases hfirst jmp' hmem (by rw [hshows, Bool.or_true]) with rfl | hprec
    · exact absurd (hown.inj c' hc' c hc (by rw [← target_of_caseJump h', ← target_of_caseJump h])) hne
    · exact (precedes_iff hown hc hc' (Ne.symm hne) h h').1 hprec
  · rintro ⟨hholds, hfirst⟩
    refine ⟨mem_unsortedJumps.2 (Or.inl ⟨c, hc, h⟩), hholds, fun jmp' hmem hp => ?_⟩
    rcases mem_unsortedJumps.1 hmem with ⟨c', hc', h'⟩ | rfl
    · rw [not_isDefault_of_jump h', Bool.false_or, ← shows_of_jump h'] at hp
      rcases eq_or_ne c' c with rfl | hne
      · exact Or.inl (Option.some.inj (h'.symm.trans h))
      · exact Or.inr ((precedes_iff hown hc hc' hne.symm h h').2 ((hfirst c' hc' hp).resolve_left hne))
    · -- The default is sorted behind every case.
      right
      refine ⟨?_, fun hback => ?_⟩
      · rcases Bool.or_eq_true_iff.1 (multijmpLe_total jmp _) with hle | hback
        · exact hle
        · rw [isDefault_of_multijmpLe hback (isDefault_default _)] at hnot
          exact Bool.noConfusion hnot
      · rw [isDefault_of_multijmpLe hback (isDefault_default _)] at hnot
        exact Bool.noConfusion hnot

/-- The default is taken when no bounds show the value. -/
theorem selects_default_iff (hown : OwnBlocks F cases switchEnd) :
    selectJump x ((unsortedJumps F cases switchEnd).mergeSort multijmpLe) =
      some ⟨F.defaultBlock (cases.map CaseLabel.words) switchEnd, 1, 0⟩ ↔ ∀ c ∈ cases, c.shows x = false := by
  rw [selectJump_eq_some hown]
  constructor
  · rintro ⟨-, -, hfirst⟩ c hc
    rw [Bool.eq_false_iff]
    intro hshows
    obtain ⟨jmp, h⟩ := jump_of_shows (F := F) hshows
    have hnot : jmp.isDefault = false := not_isDefault_of_jump h
    rw [shows_of_jump h] at hshows
    rcases hfirst jmp (mem_unsortedJumps.2 (Or.inl ⟨c, hc, h⟩)) (by rw [hshows, Bool.or_true]) with rfl | hprec
    · exact Bool.noConfusion hnot
    · rw [isDefault_of_multijmpLe hprec.1 (isDefault_default _)] at hnot
      exact Bool.noConfusion hnot
  · intro hnone
    refine ⟨mem_unsortedJumps.2 (Or.inr rfl), rfl, fun jmp hmem hp => ?_⟩
    rcases mem_unsortedJumps.1 hmem with ⟨c, hc, h⟩ | rfl
    · rw [not_isDefault_of_jump h, Bool.false_or, ← shows_of_jump h, hnone c hc] at hp
      exact Bool.noConfusion hp
    · exact Or.inl rfl

/-- The block of the default belongs to no other case. -/
theorem defaultBlock_ne (hown : OwnBlocks F cases switchEnd) (hc : c ∈ cases) (h : c.jump F = some jmp) :
    F.defaultBlock (cases.map CaseLabel.words) switchEnd ≠ (F.bbTarget c.label).getD 0 := by
  rw [Entrypoint.defaultBlock]
  cases hfind : (cases.map CaseLabel.words).reverse.find? (·.caseExpression.isNone) with
  | none => exact (hown.ne_end c hc).symm
  | some w =>
    intro heq
    obtain ⟨d, hd, rfl⟩ := List.mem_map.1 (List.mem_reverse.1 (List.mem_of_find?_eq_some hfind))
    obtain rfl := hown.inj d hd c hc heq
    have hnone := List.find?_some hfind
    rw [CaseLabel.jump, SwitchCase.jump, Option.isNone_iff_eq_none.1 hnone] at h
    cases h

/-- Only one case contains a value. -/
theorem eq_of_contains (hd : DisjointLabels type cases) (hx : Canonical type.bitSize x) (hc : c ∈ cases)
    (hc' : c' ∈ cases) (h : c.contains type x = true) (h' : c'.contains type x = true) : c' = c := by
  by_contra hne
  have hsymm : Std.Symm fun c c' : CaseLabel => ∀ x, Canonical type.bitSize x →
      ¬(c.contains type x = true ∧ c'.contains type x = true) := ⟨fun _ _ hab v hv h => hab v hv h.symm⟩
  exact List.Pairwise.forall hd hc' hc hne x hx ⟨h', h⟩

theorem dispatches_of_table (hown : OwnBlocks F cases switchEnd)
    (hlist : F.multijmpList insn = (unsortedJumps F cases switchEnd).mergeSort multijmpLe)
    (hd : DisjointLabels type cases) (hx : Canonical type.bitSize x) :
    Dispatches F insn type cases switchEnd x ↔ Shown type cases x := by
  rw [Dispatches, hlist, chosenCase]
  cases hfind : cases.find? (·.contains type x) with
  | some c =>
    have hc : c ∈ cases := List.mem_of_find?_eq_some hfind
    have hcontains : c.contains type x = true := by simpa using List.find?_some hfind
    obtain ⟨jmp, h⟩ := jump_of_contains (F := F) hcontains
    have htarget : (selectJump x ((unsortedJumps F cases switchEnd).mergeSort multijmpLe)).map Multijmp.target =
        some ((F.bbTarget c.label).getD 0) ↔
          selectJump x ((unsortedJumps F cases switchEnd).mergeSort multijmpLe) = some jmp := by
      rw [Option.map_eq_some_iff]
      constructor
      · rintro ⟨jmp', hselect, heq⟩
        rcases mem_unsortedJumps.1 ((selectJump_eq_some hown).1 hselect).1 with ⟨c', hc', h'⟩ | rfl
        · obtain rfl := hown.inj c' hc' c hc (by rw [← target_of_caseJump h', heq])
          rw [hselect, ← h', h]
        · exact absurd heq (defaultBlock_ne hown hc h)
      · exact fun hselect => ⟨jmp, hselect, target_of_caseJump h⟩
    rw [Option.some_or, htarget, selects_case_iff hown hc h]
    constructor
    · rintro ⟨hshows, hfirst⟩
      refine ⟨fun c' hc' h' => ?_, fun c' hc' h' => ?_, fun hnone => ?_⟩
      · rwa [eq_of_contains hd hx hc hc' hcontains h']
      · rwa [eq_of_contains hd hx hc hc' hcontains h']
      · exact absurd hcontains (by rw [hnone c hc]; exact Bool.false_ne_true)
    · exact fun hshown => ⟨hshown.shows c hc hcontains, hshown.first c hc hcontains⟩
  | none =>
    have hnone : ∀ c ∈ cases, c.contains type x = false := fun c hc => by
      simpa using List.find?_eq_none.1 hfind c hc
    have hdefault : (match cases.reverse.find? (·.caseExpression.isNone) with
        | some c => (F.bbTarget c.label).getD 0
        | none => switchEnd) = F.defaultBlock (cases.map CaseLabel.words) switchEnd := by
      rw [Entrypoint.defaultBlock, ← List.map_reverse, List.find?_map]
      have hsame : ((·.caseExpression.isNone) ∘ CaseLabel.words : CaseLabel → Bool) = (·.caseExpression.isNone) := by
        funext c
        simp [CaseLabel.words]
      rw [hsame]
      cases cases.reverse.find? (·.caseExpression.isNone) with
      | none => rfl
      | some c => rfl
    have htarget : (selectJump x ((unsortedJumps F cases switchEnd).mergeSort multijmpLe)).map Multijmp.target =
        some (F.defaultBlock (cases.map CaseLabel.words) switchEnd) ↔
          selectJump x ((unsortedJumps F cases switchEnd).mergeSort multijmpLe) =
            some ⟨F.defaultBlock (cases.map CaseLabel.words) switchEnd, 1, 0⟩ := by
      rw [Option.map_eq_some_iff]
      constructor
      · rintro ⟨jmp, hselect, heq⟩
        rcases mem_unsortedJumps.1 ((selectJump_eq_some hown).1 hselect).1 with ⟨c, hc, h⟩ | rfl
        · exact absurd (heq.symm.trans (target_of_caseJump h)) (defaultBlock_ne hown hc h)
        · exact hselect
      · exact fun hselect => ⟨_, hselect, rfl⟩
    rw [Option.none_or, hdefault, htarget, selects_default_iff hown]
    constructor
    · intro hshows
      refine ⟨fun c hc h => ?_, fun c hc h => ?_, fun _ => hshows⟩
      · exact absurd h (by rw [hnone c hc]; exact Bool.false_ne_true)
      · exact absurd h (by rw [hnone c hc]; exact Bool.false_ne_true)
    · exact fun hshown => hshown.default hnone

/-! ### The table that is made -/

/-- The cases get blocks. -/
theorem addCases_bound (insn : InsnId) {ep : Entrypoint} (hinv : ep.Inv) (words : List SwitchCase)
    (defaultCase : Option BlockId) :
    ∀ w ∈ words, ((ep.addCases insn words defaultCase).1.bbTarget w.label).isSome := by
  induction words generalizing ep defaultCase with
  | nil => exact fun _ h => absurd h List.not_mem_nil
  | cons w words ih =>
    obtain ⟨hinv₁, -, hbound, -⟩ := getBoundBlock_spec (n := 0) (w := insn) (A := fun _ => True)
      (L := fun _ => False) hinv (Nat.zero_le _) (l := w.label) (Or.inl trivial)
    have hrest : ∀ {ep'} defaultCase, Entrypoint.Inv ep' →
        ep'.bbTarget w.label = (ep.getBoundBlock w.label).1.bbTarget w.label →
          ∀ v ∈ w :: words, ((ep'.addCases insn words defaultCase).1.bbTarget v.label).isSome := by
      intro ep' defaultCase hinv' hsame v hv
      rcases List.mem_cons.1 hv with rfl | hv
      · have hspec := addCases_spec (n := 0) (A := fun _ => True) (L := fun _ => False) insn words
          defaultCase hinv' (fun _ _ => trivial) (Nat.zero_le _)
        rw [hspec.grows.target _ _ (hsame.trans hbound), Option.isSome_some]
      · exact ih hinv' defaultCase v hv
    unfold addCases
    generalize ep.getBoundBlock w.label = bound at *
    obtain ⟨ep₁, bbCase⟩ := bound
    dsimp only at hinv₁ hbound hrest ⊢
    cases w.jump bbCase with
    | none => exact hrest _ hinv₁ rfl
    | some jmp =>
      exact hrest _ ⟨hinv₁.active_opened, hinv₁.opened_lt, hinv₁.target_lt, hinv₁.fresh, hinv₁.waiting,
        hinv₁.target_inj⟩ rfl

theorem bbTarget_addOneInsn {ep : Entrypoint} (insn : LinearInsn) : (ep.addOneInsn insn).bbTarget = ep.bbTarget := by
  unfold addOneInsn
  split
  · rfl
  · rfl

theorem leaveSwitch_table (ep : Entrypoint) (insn : InsnId) (switchEnd : BlockId) (defaultCase : Option BlockId) :
    (ep.leaveSwitch insn switchEnd defaultCase).multijmpList insn = (ep.multijmpList insn ++
        [(⟨defaultCase.getD switchEnd, 1, 0⟩ : Multijmp)]).mergeSort multijmpLe ∧
      (ep.leaveSwitch insn switchEnd defaultCase).bbTarget = ep.bbTarget := by
  have hsame : (ep.setActiveblock switchEnd).multijmpList = ep.multijmpList ∧
      (ep.setActiveblock switchEnd).bbTarget = ep.bbTarget := by
    rw [setActiveblock_eq]
    split
    · exact ⟨rfl, rfl⟩
    · rw [addGoto_eq]
      exact ⟨(nextSwitch_addOneInsn _).2, bbTarget_addOneInsn _⟩
  unfold leaveSwitch
  generalize ep.setActiveblock switchEnd = ep' at *
  unfold sortSwitchCases addMultijmp
  dsimp only
  rw [Function.update_self, Function.update_self, hsame.1]
  exact ⟨rfl, hsame.2⟩

/-- Where the switch is left, its cases have their own blocks and its table is sorted. -/
theorem SwitchStarted.table {ep ep' : Entrypoint} (h : SwitchStarted ep insn cases switchEnd) {n : ℕ}
    {A L : LabelId → Prop}
    (hbody : Grows n (insn + 1) A L (ep.addCases insn (cases.map CaseLabel.words) none).1 ep') :
    let r := ep.addCases insn (cases.map CaseLabel.words) none
    let F := ep'.leaveSwitch insn switchEnd r.2
    OwnBlocks F cases switchEnd ∧ F.multijmpList insn = (unsortedJumps F cases switchEnd).mergeSort multijmpLe := by
  dsimp only
  have hspec := addCases_spec (n := ep.nextBlock) (A := fun _ => True) (L := fun _ => False) insn
    (cases.map CaseLabel.words) none h.inv (fun _ _ => trivial) (le_refl _)
  have hbound := addCases_bound insn h.inv (cases.map CaseLabel.words) none
  generalize ep.addCases insn (cases.map CaseLabel.words) none = r at *
  obtain ⟨hlist, htarget⟩ := leaveSwitch_table ep' insn switchEnd r.2
  generalize ep'.leaveSwitch insn switchEnd r.2 = F at *
  have hblock : ∀ c ∈ cases, ∃ bb, r.1.bbTarget c.label = some bb ∧ F.bbTarget c.label = some bb := by
    intro c hc
    obtain ⟨bb, hbb⟩ := Option.isSome_iff_exists.1 (hbound _ (List.mem_map_of_mem hc))
    exact ⟨bb, hbb, by rw [htarget]; exact hbody.target _ _ hbb⟩
  have hcovers : Covers r.1 ep' := ⟨hbody.insns, hbody.target⟩
  refine ⟨⟨h.labels.of_map _, fun c hc c' hc' heq => ?_, fun c hc heq => ?_⟩, ?_⟩
  · obtain ⟨bb, hbb, hF⟩ := hblock c hc
    obtain ⟨bb', hbb', hF'⟩ := hblock c' hc'
    rw [hF, hF', Option.getD_some, Option.getD_some] at heq
    subst heq
    have hwaits := hspec.grows.waits _ not_false (h.waits c hc) bb hbb
    exact List.inj_on_of_nodup_map h.labels hc hc' (hspec.inv.target_inj _ _ bb hwaits hbb hbb')
  · obtain ⟨bb, hbb, hF⟩ := hblock c hc
    rw [hF, Option.getD_some] at heq
    have hheld := hspec.grows.held switchEnd h.held.lt _ (fun _ hf => hf.elim) h.held
    exact hheld.labels _ (heq ▸ hbb)
  · rw [hlist, hbody.jumps insn (Nat.lt_succ_self _), hspec.jumps ep' hcovers, h.list, List.nil_append,
      hspec.default ep' hcovers, Option.or_none, ← unsortedJumps_eq, Entrypoint.jumps, Entrypoint.jumps,
      Entrypoint.defaultBlock, htarget]

/-- A switch on a constant goes where C goes, if and only if the bounds kept for its cases show
the value as the cases themselves do. -/
theorem switch_dispatches_iff {ep ep' : Entrypoint} (h : SwitchStarted ep insn cases switchEnd) {n : ℕ}
    {A L : LabelId → Prop}
    (hbody : Grows n (insn + 1) A L (ep.addCases insn (cases.map CaseLabel.words) none).1 ep')
    (hd : DisjointLabels type cases) (hx : Canonical type.bitSize x) :
    Dispatches (ep'.leaveSwitch insn switchEnd (ep.addCases insn (cases.map CaseLabel.words) none).2) insn type
      cases switchEnd x ↔ Shown type cases x := by
  obtain ⟨hown, hlist⟩ := h.table hbody
  exact dispatches_of_table hown hlist hd hx

/-! ## Cases that are kept as they are -/

/-- A bound that is no negative number, fits in an `int` and means the same in the type of the switch. -/
structure CaseValue.Plain (type : IntType) (bound : CaseValue) : Prop where
  same : generateCast bound.ctype type.bitSize bound.value = bound.value
  small : bound.value.toNat < 2 ^ 31
  nonneg : type.unsigned = false → bound.value.toNat < 2 ^ (type.bitSize - 1)

theorem CaseValue.Plain.converted {bound : CaseValue} (h : bound.Plain type) :
    bound.converted type = bound.value.toNat := by
  rw [CaseValue.converted, h.same, IntType.value]
  split
  · rfl
  · rename_i hsigned
    exact signExtended_toInt_of_lt type.bitSize_pos type.bitSize_le (h.nonneg (by simpa using hsigned))

theorem sle_of_small {y z : BitVec 64} (hy : y.toNat < 2 ^ 31) (hz : z.toNat < 2 ^ 31) :
    (y.sle x && x.sle z) = decide (y.toNat ≤ x.toNat ∧ x.toNat ≤ z.toNat) := by
  have hy' : y.toInt = y.toNat := BitVec.toInt_eq_toNat_of_lt (by omega)
  have hz' : z.toInt = z.toNat := BitVec.toInt_eq_toNat_of_lt (by omega)
  have hx := x.isLt
  rw [BitVec.sle_eq_decide, BitVec.sle_eq_decide, ← Bool.decide_and, decide_eq_decide, hy', hz',
    BitVec.toInt_eq_toNat_cond]
  split
  · omega
  · omega

/-- The value of a word between plain bounds is the word itself. -/
theorem contains_of_plain (hx : Canonical type.bitSize x) {low high : CaseValue}
    (hlow : low.Plain type) (hhigh : high.Plain type) :
    low.converted type ≤ type.value x ∧ type.value x ≤ high.converted type ↔
      low.value.toNat ≤ x.toNat ∧ x.toNat ≤ high.value.toNat := by
  rw [hlow.converted, hhigh.converted, IntType.value]
  split
  · omega
  · rename_i hsigned
    have hhigh' := hhigh.nonneg (by simpa using hsigned)
    by_cases hsmall : x.toNat < 2 ^ (type.bitSize - 1)
    · rw [signExtended_toInt_of_lt type.bitSize_pos type.bitSize_le hsmall]
      omega
    · rw [signExtended_toInt_of_le type.bitSize_pos type.bitSize_le hx (Nat.le_of_not_lt hsmall)]
      have hlt : (x.toNat : ℤ) < 2 ^ type.bitSize := by exact_mod_cast hx
      omega

theorem signExtend_of_small {y : BitVec 64} (hy : y.toNat < 2 ^ 31) : (y.setWidth 32).signExtend 64 = y := by
  have hword : (y.setWidth 32).toNat = y.toNat := by rw [BitVec.toNat_setWidth, Nat.mod_eq_of_lt (by omega)]
  refine BitVec.eq_of_toInt_eq ?_
  rw [BitVec.toInt_signExtend_of_le (by omega), BitVec.toInt_eq_toNat_of_lt (by omega), hword,
    BitVec.toInt_eq_toNat_of_lt (by omega)]

/-- Plain bounds in order are kept. -/
theorem shows_of_plain (hx : Canonical type.bitSize x)
    (hplain : ∀ low ∈ c.caseExpression, low.Plain type ∧ (c.caseTo.getD low).Plain type ∧
      low.value.toNat ≤ (c.caseTo.getD low).value.toNat) : c.shows x = c.contains type x := by
  cases hlow : c.caseExpression with
  | none =>
    rw [CaseLabel.shows, CaseLabel.contains, CaseLabel.words, SwitchCase.jump, hlow]
    rfl
  | some low =>
    obtain ⟨hl, hh, hle⟩ := hplain low hlow
    have hhigh : (c.caseTo.map CaseValue.value).getD low.value = (c.caseTo.getD low).value := by
      cases c.caseTo with
      | none => rfl
      | some _ => rfl
    have hfits : c.words.fits := by
      intro value hvalue
      rw [CaseLabel.words, hlow] at hvalue
      obtain rfl := Option.mem_some.1 hvalue
      have hsle := sle_of_small (x := low.value) hl.small hh.small
      rw [decide_eq_true ⟨Nat.le_refl _, hle⟩, Bool.and_eq_true] at hsle
      refine ⟨signExtend_of_small hl.small, ?_, ?_⟩
      · exact hhigh ▸ signExtend_of_small hh.small
      · exact hhigh ▸ hsle.2
    obtain ⟨jmp, h⟩ : ∃ jmp, c.words.jump 0 = some jmp := by
      rw [SwitchCase.jump, CaseLabel.words, hlow]
      exact ⟨_, rfl⟩
    have hholds : c.shows x = c.words.holds x := by
      rw [CaseLabel.shows, h, Option.any_some, holds_of_jump hfits h]
    rw [hholds, CaseLabel.contains, hlow]
    dsimp only
    rw [decide_eq_decide.2 (contains_of_plain hx hl hh), ← sle_of_small hl.small hh.small, ← hhigh]
    rw [SwitchCase.holds, CaseLabel.words, hlow]
    rfl

/-- A switch whose cases are plain goes where C goes, for every value. -/
theorem shown_of_plain (hd : DisjointLabels type cases) (hx : Canonical type.bitSize x)
    (hplain : ∀ c ∈ cases, ∀ low ∈ c.caseExpression, low.Plain type ∧ (c.caseTo.getD low).Plain type ∧
      low.value.toNat ≤ (c.caseTo.getD low).value.toNat) : Shown type cases x where
  shows c hc h := by rwa [shows_of_plain hx (hplain c hc)]
  first c hc h c' hc' h' := by
    rw [shows_of_plain hx (hplain c' hc')] at h'
    exact Or.inl (eq_of_contains hd hx hc hc' h h')
  default hnone c hc := by rw [shows_of_plain hx (hplain c hc), hnone c hc]

end

/-! ## Switches without a body -/

/-- The start of a function, with a block for the end of its switch. -/
def switchStart : Entrypoint := entryBlock.allocBasicBlock.1

theorem switchStart_started {cases : List CaseLabel} (h : (cases.map CaseLabel.label).Nodup) :
    SwitchStarted switchStart 0 cases 1 where
  inv := entryBlock_inv.allocBasicBlock
  list := rfl
  labels := h
  waits _ _ _ h := by cases h
  held := held_allocBasicBlock entryBlock_inv

/-- The switch on the cases, without a body. -/
def emptySwitch (cases : List CaseLabel) : Entrypoint :=
  (switchStart.addCases 0 (cases.map CaseLabel.words) none).1.leaveSwitch 0 1
    (switchStart.addCases 0 (cases.map CaseLabel.words) none).2

/-- The type `int`, and the type `long`. -/
def switchInt : IntType := ⟨32, false, IntType.int_pos, IntType.int_le⟩

def switchLong : IntType := ⟨64, false, by decide, by decide⟩

/-- `case 7:`, `case 3 ... 5:`, `default:` and `case 1:` in a switch on a `long`, the constants of type `int`. -/
def fourCases : List CaseLabel :=
  [⟨0, some ⟨switchInt, 7#64, by decide⟩, none⟩,
    ⟨1, some ⟨switchInt, 3#64, by decide⟩, some ⟨switchInt, 5#64, by decide⟩⟩,
    ⟨2, none, none⟩,
    ⟨3, some ⟨switchInt, 1#64, by decide⟩, none⟩]

private theorem fourCases_plain : ∀ c ∈ fourCases, ∀ low ∈ c.caseExpression,
    low.Plain switchLong ∧ (c.caseTo.getD low).Plain switchLong ∧
      low.value.toNat ≤ (c.caseTo.getD low).value.toNat := by
  have hplain : ∀ {value : BitVec 64} (h : Canonical switchInt.bitSize value), value.toNat < 2 ^ 31 →
      generateCast switchInt switchLong.bitSize value = value → CaseValue.Plain switchLong ⟨switchInt, value, h⟩ :=
    fun _ hsmall hsame => ⟨hsame, hsmall, fun _ => Nat.lt_of_lt_of_le hsmall (by decide)⟩
  intro c hc low hlow
  simp only [fourCases, List.mem_cons, List.not_mem_nil, or_false] at hc
  rcases hc with rfl | rfl | rfl | rfl
  · obtain rfl := Option.mem_some.1 hlow
    exact ⟨hplain _ (by decide) (by decide), hplain _ (by decide) (by decide), by decide⟩
  · obtain rfl := Option.mem_some.1 hlow
    exact ⟨hplain _ (by decide) (by decide), hplain _ (by decide) (by decide), by decide⟩
  · exact absurd hlow (Option.not_mem_none _)
  · obtain rfl := Option.mem_some.1 hlow
    exact ⟨hplain _ (by decide) (by decide), hplain _ (by decide) (by decide), by decide⟩

private theorem fourCases_disjoint : DisjointLabels switchLong fourCases := by
  have hseven : CaseValue.converted switchLong ⟨switchInt, 7#64, by decide⟩ = 7 := by decide
  have hthree : CaseValue.converted switchLong ⟨switchInt, 3#64, by decide⟩ = 3 := by decide
  have hfive : CaseValue.converted switchLong ⟨switchInt, 5#64, by decide⟩ = 5 := by decide
  have hone : CaseValue.converted switchLong ⟨switchInt, 1#64, by decide⟩ = 1 := by decide
  simp only [DisjointLabels, fourCases, List.pairwise_cons, List.mem_cons, List.not_mem_nil, or_false,
    forall_eq_or_imp, forall_eq, CaseLabel.contains, Option.getD_some, Option.getD_none, decide_eq_true_eq, hseven,
    hthree, hfive, hone]
  refine ⟨⟨fun x _ => by omega, fun x _ => by simp, fun x _ => by omega⟩, ⟨fun x _ => by simp, fun x _ => by omega⟩,
    fun x _ => by simp, fun _ h => absurd h id, .nil⟩

/-- The range takes 4, the default takes 2 and the last case takes 1. -/
theorem switch_dispatches_iff_fourCases :
    (Dispatches (emptySwitch fourCases) 0 switchLong fourCases 1 4#64 ∧
      Dispatches (emptySwitch fourCases) 0 switchLong fourCases 1 2#64 ∧
      Dispatches (emptySwitch fourCases) 0 switchLong fourCases 1 1#64) ∧
    (chosenCase switchLong fourCases 4#64).map CaseLabel.label = some 1 ∧
      (chosenCase switchLong fourCases 2#64).map CaseLabel.label = some 2 ∧
      (chosenCase switchLong fourCases 1#64).map CaseLabel.label = some 3 := by
  have hstarted : SwitchStarted switchStart 0 fourCases 1 := switchStart_started (by decide)
  have hbody : Grows 0 1 (fun _ => True) (fun _ => True) (switchStart.addCases 0 (fourCases.map CaseLabel.words) none).1
      (switchStart.addCases 0 (fourCases.map CaseLabel.words) none).1 := .refl
  have hshown : ∀ {x}, Canonical switchLong.bitSize x → Shown switchLong fourCases x := fun hx =>
    shown_of_plain fourCases_disjoint hx fourCases_plain
  have hdispatches : ∀ {x}, Canonical switchLong.bitSize x →
      Dispatches (emptySwitch fourCases) 0 switchLong fourCases 1 x := fun hx =>
    (switch_dispatches_iff hstarted hbody fourCases_disjoint hx).2 (hshown hx)
  exact ⟨⟨hdispatches (by decide), hdispatches (by decide), hdispatches (by decide)⟩, by decide, by decide, by decide⟩

/-- The case -1 of a switch on an `int` is not taken for -1, and the case `0x100000001` of a switch
on a `long` is taken for 1. -/
theorem switch_not_dispatched :
    let c : CaseLabel := ⟨0, some ⟨switchInt, 0xffffffff#64, by decide⟩, none⟩
    let c' : CaseLabel := ⟨0, some ⟨switchLong, 0x100000001#64, by decide⟩, none⟩
    ¬Dispatches (emptySwitch [c]) 0 switchInt [c] 1 0xffffffff#64 ∧
      ¬Dispatches (emptySwitch [c']) 0 switchLong [c'] 1 1#64 := by
  have hdispatches : ∀ (type : IntType) (c : CaseLabel) (x : BitVec 64), Canonical type.bitSize x →
      (Dispatches (emptySwitch [c]) 0 type [c] 1 x ↔ Shown type [c] x) := by
    intro type c x hx
    have hstarted : SwitchStarted switchStart 0 [c] 1 := switchStart_started (List.nodup_singleton _)
    obtain ⟨hown, hlist⟩ := hstarted.table (n := 0) (A := fun _ => True) (L := fun _ => True) .refl
    exact dispatches_of_table hown hlist (List.pairwise_singleton _ _) hx
  refine ⟨fun h => ?_, fun h => ?_⟩
  · have hshown := ((hdispatches _ _ _ (by decide)).1 h).shows _ List.mem_cons_self (by decide)
    exact absurd hshown (by decide)
  · have hshown := ((hdispatches _ _ _ (by decide)).1 h).default
      (fun c hc => by rw [List.mem_singleton.1 hc]; decide) _ List.mem_cons_self
    exact absurd hshown (by decide)

end Sparse
