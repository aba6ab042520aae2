import Sparse.StorageRuns
import Mathlib.Algebra.Group.Nat.Defs

/-!
# Pseudos that share storage

Two pseudos have one storage object at a block exactly where a chain of edges and of phi
sources with several users links them. An edge links entries of one pseudo; a phi source
links the targets it feeds, which at other blocks can hold different values.
-/

namespace Sparse.Storage

open LabelJoining

variable {storageHash : Key → ℕ} {ir : Ir} {users : InsnId → List InsnId} {bb : BlockId} {a b : Key}

/-! ## Values -/

/-- The values of all pseudos. -/
abbrev Env := Pseudo → BitVec 64

/-- What instructions other than phi nodes and their sources compute, and where control goes. -/
structure Meaning where
  value : InsnId → Env → Pseudo → BitVec 64
  takes : BlockId → Env → BlockId → Prop

/-- One instruction. A phi source gives its value to the phi nodes it feeds. -/
def execInsn (ir : Ir) (users : InsnId → List InsnId) (m : Meaning) (env : Env) (i : InsnId) : Env :=
  if (ir.insn i).bb = none then env
  else
    match (ir.insn i).opcode with
    | .phisource =>
      (users i).foldl (fun env' phi => Function.update env' (ir.insn phi).target (env (ir.insn i).src1)) env
    | .phi => env
    | _ => (ir.defines i).foldl (fun env' pseudo => Function.update env' pseudo (m.value i env pseudo)) env

def execBlock (ir : Ir) (users : InsnId → List InsnId) (m : Meaning) (env : Env) (bb : BlockId) : Env :=
  (ir.block bb).insns.foldl (execInsn ir users m) env

/-- Control enters a block with these values. -/
inductive Arrives (ir : Ir) (users : InsnId → List InsnId) (m : Meaning) : BlockId → Env → Prop
  | entry {bb : BlockId} {env : Env} : (ir.insn ir.entry).bb = some bb → (∀ v, env (.val v) = v) →
      Arrives ir users m bb env
  | edge {bb child : BlockId} {env : Env} : Arrives ir users m bb env → bb ∈ ir.bbs →
      child ∈ (ir.block bb).children → m.takes bb (execBlock ir users m env bb) child →
      Arrives ir users m child (execBlock ir users m env bb)

/-- The pseudos can hold different values when control enters the block. -/
def DifferIn (ir : Ir) (users : InsnId → List InsnId) (m : Meaning) (bb : BlockId) (p q : Pseudo) : Prop :=
  ∃ env, Arrives ir users m bb env ∧ env p ≠ env q

/-- The pseudos can hold different values when control leaves the block. -/
def DifferOut (ir : Ir) (users : InsnId → List InsnId) (m : Meaning) (bb : BlockId) (p q : Pseudo) : Prop :=
  ∃ env, Arrives ir users m bb env ∧ execBlock ir users m env bb p ≠ execBlock ir users m env bb q

/-- Pseudos that can hold different values at a block satisfy a relation of their entries there. -/
structure Apart (ir : Ir) (users : InsnId → List InsnId) (m : Meaning) (R : Key → Key → Prop) : Prop where
  atEntry : ∀ bb p q, p ≠ q → p ∈ (ir.block bb).needs → q ∈ (ir.block bb).needs → DifferIn ir users m bb p q →
    R ⟨bb, p, .storIn⟩ ⟨bb, q, .storIn⟩
  atExit : ∀ bb ∈ ir.bbs, ∀ p q, p ≠ q → LiveOut ir bb p → LiveOut ir bb q → DifferOut ir users m bb p q →
    R ⟨bb, p, .storOut⟩ ⟨bb, q, .storOut⟩

/-! ## Links -/

/-- What one edge, or one phi source with several users, links. -/
inductive Linked (ir : Ir) (users : InsnId → List InsnId) : Key → Key → Prop
  | edge {bb child : BlockId} {pseudo : Pseudo} : bb ∈ ir.bbs → child ∈ (ir.block bb).children →
      pseudo ∈ (ir.block child).needs → Linked ir users ⟨bb, pseudo, .storOut⟩ ⟨child, pseudo, .storIn⟩
  | phis {bb : BlockId} {i phi phi' : InsnId} : bb ∈ ir.bbs → i ∈ (ir.block bb).insns → feeds ir i →
      phi ∈ users i → phi' ∈ users i → LiveOut ir bb (ir.insn phi).target → LiveOut ir bb (ir.insn phi').target →
      Linked ir users (phiKey ir bb phi) (phiKey ir bb phi')

/-- A chain of links. -/
abbrev Chained (ir : Ir) (users : InsnId → List InsnId) : Key → Key → Prop :=
  Relation.EqvGen (Linked ir users)

/-- An entry at the end of a block is for a pseudo that is live there. -/
def Due (ir : Ir) (key : Key) : Prop :=
  key.inout = .storOut → LiveOut ir key.bb key.pseudo

/-- Which labels may become equal. -/
def Mergeable (ir : Ir) (users : InsnId → List InsnId) (a b : Key) : Prop :=
  Chained ir users a b ∧ Due ir a ∧ Due ir b

theorem mergeable_partial : Partial (Mergeable ir users) where
  symm h := ⟨h.1.symm, h.2.2, h.2.1⟩
  trans h h' := ⟨h.1.trans _ _ _ h'.1, h.2.1, h'.2.2⟩

theorem mergeable_allows (hbb : bb ∈ ir.bbs) : Allows ir users (Mergeable ir users) bb where
  edge child hchild _ hp := ⟨.rel _ _ (.edge hbb hchild hp), fun _ => ⟨child, hchild, hp⟩, nofun⟩
  phis _ hi hf _ hphi _ hphi' hself hself' :=
    ⟨.rel _ _ (.phis hbb hi hf hphi hphi' (hself.2.1 rfl) (hself'.2.1 rfl)), hself.2.1, hself'.2.1⟩

theorem initial_respects (E : Key → Key → Prop) : Respects E (find storageHash (State.initial users)) := by
  rintro a b ⟨σ, ha, -⟩
  exact absurd ha nofun

/-- The entries that have storage are those at the ends of edges and of the arguments. -/
theorem find_ne_none_of_arrives {s : State} {entry : BlockId} (hentry : (ir.insn ir.entry).bb = some entry)
    (hargs : ∀ arg ∈ (ir.block entry).needs, find storageHash s ⟨entry, arg, .storIn⟩ ≠ none)
    (hedges : ∀ bb ∈ ir.bbs, SharesEdges storageHash ir bb s) {m : Meaning} {env : Env}
    (harrives : Arrives ir users m bb env) {p : Pseudo} (hp : p ∈ (ir.block bb).needs) :
    find storageHash s ⟨bb, p, .storIn⟩ ≠ none := by
  cases harrives with
  | entry hbb _ =>
    rw [hentry] at hbb
    obtain rfl := Option.some.inj hbb
    exact hargs p hp
  | edge _ hparent hchild _ => exact (hedges _ hparent _ hchild p hp).symm.ne_none

/-- Where control arrives, two pseudos have one storage object exactly where a chain of links joins them. -/
theorem setUpStorage_chained (storageHash : Key → ℕ) {ir : Ir} (users : InsnId → List InsnId) {entry : BlockId}
    (hentry : (ir.insn ir.entry).bb = some entry) (hinsns : (insnsOf ir ir.bbs).Nodup) :
    ∃ s, setUpStorage storageHash ir (State.initial users) = some s ∧
      (∀ bb p q m env, p ∈ (ir.block bb).needs → Arrives ir users m bb env →
        ((lookupStorage storageHash s ⟨bb, p, .storIn⟩).1 = (lookupStorage storageHash s ⟨bb, q, .storIn⟩).1 ↔
          Chained ir users ⟨bb, p, .storIn⟩ ⟨bb, q, .storIn⟩)) ∧
      ∀ bb ∈ ir.bbs, ∀ p q, LiveOut ir bb p →
        ((lookupStorage storageHash s ⟨bb, p, .storOut⟩).1 = (lookupStorage storageHash s ⟨bb, q, .storOut⟩).1 ↔
          Chained ir users ⟨bb, p, .storOut⟩ ⟨bb, q, .storOut⟩) := by
  have hcons : Consistent storageHash (State.initial users) := State.initial_consistent users
  have hallows : ∀ bb ∈ ir.bbs, Allows ir users (Mergeable ir users) bb := fun bb hbb => mergeable_allows hbb
  obtain ⟨s, hs, hprog, hargs, hedges, htargets⟩ :=
    setUpStorage_spec mergeable_partial hcons hentry (fun arg _ => ⟨.refl _, nofun, nofun⟩) hallows
  have hrespects := hprog.respects (initial_respects _)
  have hall : ∀ a b, Linked ir users a b → Share (find storageHash s) a b := by
    intro a b hab
    cases hab with
    | edge hbb hchild hp => exact hedges _ hbb _ hchild _ hp
    | phis hbb hi hf hphi hphi' hl hl' => exact htargets hinsns _ hbb _ hi hf _ hphi _ hphi' hl hl'
  have hiff : ∀ {a b : Key}, find storageHash s a ≠ none →
      (find storageHash s a = find storageHash s b ↔ Chained ir users a b) := by
    intro a b ha
    refine Iff.trans ⟨fun heq => ?_, Share.eq⟩ (share_iff_eqvGen hrespects (fun h => h.1) hall ha)
    obtain ⟨σ, hσ, -⟩ := share_self ha
    exact ⟨σ, hσ, heq ▸ hσ⟩
  refine ⟨s, hs, fun bb p q m env hp harrives => ?_, fun bb hbb p q hl => ?_⟩
  · exact hiff (find_ne_none_of_arrives hentry hargs hedges harrives hp)
  · obtain ⟨child, hchild, hp⟩ := hl
    exact hiff (hedges bb hbb child hchild p hp).ne_none

/-- Storage keeps apart what can differ exactly where no chain of links joins it. -/
theorem apart_iff_not_chained (storageHash : Key → ℕ) {ir : Ir} (users : InsnId → List InsnId) (m : Meaning)
    {entry : BlockId} (hentry : (ir.insn ir.entry).bb = some entry) (hinsns : (insnsOf ir ir.bbs).Nodup) :
    ∃ s, setUpStorage storageHash ir (State.initial users) = some s ∧
      (Apart ir users m (fun a b => (lookupStorage storageHash s a).1 ≠ (lookupStorage storageHash s b).1) ↔
        Apart ir users m fun a b => ¬Chained ir users a b) := by
  obtain ⟨s, hs, hin, hout⟩ := setUpStorage_chained storageHash users hentry hinsns
  refine ⟨s, hs, fun h => ⟨fun bb p q hpq hp hq hd hchain => ?_, fun bb hbb p q hpq hp hq hd hchain => ?_⟩,
    fun h => ⟨fun bb p q hpq hp hq hd heq => ?_, fun bb hbb p q hpq hp hq hd heq => ?_⟩⟩
  · obtain ⟨env, harrives, hne⟩ := hd
    exact h.atEntry bb p q hpq hp hq ⟨env, harrives, hne⟩ ((hin bb p q m env hp harrives).2 hchain)
  · exact h.atExit bb hbb p q hpq hp hq hd ((hout bb hbb p q hp).2 hchain)
  · obtain ⟨env, harrives, hne⟩ := hd
    exact h.atEntry bb p q hpq hp hq ⟨env, harrives, hne⟩ ((hin bb p q m env hp harrives).1 heq)
  · exact h.atExit bb hbb p q hpq hp hq hd ((hout bb hbb p q hp).1 heq)

/-- Where no phi source feeds two targets that are live out of its block, no chain joins two pseudos. -/
theorem Chained.pseudo_eq (hsingle : ∀ bb ∈ ir.bbs, ∀ i ∈ (ir.block bb).insns, feeds ir i → ∀ phi ∈ users i,
      ∀ phi' ∈ users i, LiveOut ir bb (ir.insn phi).target → LiveOut ir bb (ir.insn phi').target →
        (ir.insn phi).target = (ir.insn phi').target) (h : Chained ir users a b) : a.pseudo = b.pseudo := by
  induction h with
  | rel a b hab =>
    cases hab with
    | edge _ _ _ => rfl
    | phis hbb hi hf hphi hphi' hl hl' => exact hsingle _ hbb _ hi hf _ hphi _ hphi' hl hl'
  | refl a => rfl
  | symm a b _ ih => exact ih.symm
  | trans a b c _ _ ih ih' => exact ih.trans ih'

/-- Without such a phi source all pseudos are kept apart, whatever their values. -/
theorem apart_of_single (storageHash : Key → ℕ) {ir : Ir} (users : InsnId → List InsnId) (m : Meaning)
    {entry : BlockId} (hentry : (ir.insn ir.entry).bb = some entry) (hinsns : (insnsOf ir ir.bbs).Nodup)
    (hsingle : ∀ bb ∈ ir.bbs, ∀ i ∈ (ir.block bb).insns, feeds ir i → ∀ phi ∈ users i,
      ∀ phi' ∈ users i, LiveOut ir bb (ir.insn phi).target → LiveOut ir bb (ir.insn phi').target →
        (ir.insn phi).target = (ir.insn phi').target) :
    ∃ s, setUpStorage storageHash ir (State.initial users) = some s ∧
      Apart ir users m fun a b => (lookupStorage storageHash s a).1 ≠ (lookupStorage storageHash s b).1 := by
  obtain ⟨s, hs, hin, hout⟩ := setUpStorage_chained storageHash users hentry hinsns
  refine ⟨s, hs, fun bb p q hpq hp _ ⟨env, harrives, _⟩ heq => ?_, fun bb hbb p q hpq hp _ _ heq => ?_⟩
  · exact hpq (Chained.pseudo_eq hsingle ((hin bb p q m env hp harrives).1 heq))
  · exact hpq (Chained.pseudo_eq hsingle ((hout bb hbb p q hp).1 heq))

/-- The branch of the diamond. -/
def diamondMeaning : Meaning where
  value _ _ _ := 0
  takes bb env child := bb = 0 → (child = 1 ↔ env (.arg 1) ≠ 0)

theorem apart_iff_not_chained_diamond :
    ∃ s, setUpStorage (fun _ => 0) diamond (State.initial (phiUsers diamond)) = some s ∧
      (Apart diamond (phiUsers diamond) diamondMeaning
          (fun a b => (lookupStorage (fun _ => 0) s a).1 ≠ (lookupStorage (fun _ => 0) s b).1) ↔
        Apart diamond (phiUsers diamond) diamondMeaning fun a b => ¬Chained diamond (phiUsers diamond) a b) :=
  have hentry : (diamond.insn diamond.entry).bb = some 0 := rfl
  apart_iff_not_chained (fun _ => 0) (phiUsers diamond) diamondMeaning hentry (by decide)

/-- The values of the pseudos where the argument is 0. -/
def diamondEnv : Env
  | .val v => v
  | _ => 0

/-- The two pseudos are 1 and 2 after the second block, but have one storage object. -/
theorem diamond_conflated :
    diamondInput.trackPseudoLiveness 4 = some diamond ∧
      ∃ s, setUpStorage (fun _ => 0) diamond (State.initial (phiUsers diamond)) = some s ∧
        ¬Apart diamond (phiUsers diamond) diamondMeaning
          fun a b => (lookupStorage (fun _ => 0) s a).1 ≠ (lookupStorage (fun _ => 0) s b).1 := by
  have hlive : (diamondInput.trackPseudoLiveness 4).isSome = true := by decide
  have hrun : ((setUpStorage (fun _ => 0) diamond (State.initial (phiUsers diamond))).map fun s =>
      ((lookupStorage (fun _ => 0) s ⟨3, .reg 1, .storIn⟩).1, (lookupStorage (fun _ => 0) s ⟨3, .reg 2, .storIn⟩).1)) =
        some (some 1, some 1) := by decide
  have hdiffer : DifferIn diamond (phiUsers diamond) diamondMeaning 3 (.reg 1) (.reg 2) := by
    have h₀ : Arrives diamond (phiUsers diamond) diamondMeaning 0 diamondEnv := .entry rfl fun _ => rfl
    have h₂ : Arrives diamond (phiUsers diamond) diamondMeaning 2
        (execBlock diamond (phiUsers diamond) diamondMeaning diamondEnv 0) :=
      h₀.edge (by decide) (by decide) fun _ => by decide
    have h₃ : Arrives diamond (phiUsers diamond) diamondMeaning 3
        (execBlock diamond (phiUsers diamond) diamondMeaning
          (execBlock diamond (phiUsers diamond) diamondMeaning diamondEnv 0) 2) :=
      h₂.edge (by decide) (by decide) fun h => absurd h (by decide)
    exact ⟨_, h₃, by decide⟩
  obtain ⟨s, hs, hlookups⟩ := Option.map_eq_some_iff.1 hrun
  have hsame : (lookupStorage (fun _ => 0) s ⟨3, .reg 1, .storIn⟩).1 =
      (lookupStorage (fun _ => 0) s ⟨3, .reg 2, .storIn⟩).1 :=
    (congrArg Prod.fst hlookups).trans (congrArg Prod.snd hlookups).symm
  refine ⟨?_, s, hs, fun h => h.atEntry 3 (.reg 1) (.reg 2) (by decide) (by decide) (by decide) hdiffer hsame⟩
  obtain ⟨ir, hir⟩ := Option.isSome_iff_exists.1 hlive
  rw [diamond, hir, Option.getD_some]

end Sparse.Storage
