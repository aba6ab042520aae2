import Sparse.StorageLinks

/-!
# `set_up_storage` over an entrypoint

The run joins the labels of the two ends of every edge, and of the targets that one phi
source feeds. It makes no other labels equal, and none that was made equal differ again.
-/

namespace Sparse.Storage

open LabelJoining

variable {storageHash : Key → ℕ} {s s' s'' : State} {σ : StorageId} {x y : Key} {E : Key → Key → Prop}

/-- What a run of operations does, where `E` says which labels may become equal. -/
structure Progress (storageHash : Key → ℕ) (E : Key → Key → Prop) (s s' : State) : Prop where
  consistent : Consistent storageHash s'
  keeps : ∀ {a b}, Share (find storageHash s) a b → Share (find storageHash s') a b
  respects : Respects E (find storageHash s) → Respects E (find storageHash s')

namespace Progress

theorem refl (h : Consistent storageHash s) : Progress storageHash E s s := ⟨h, id, id⟩

theorem trans (h : Progress storageHash E s s') (h' : Progress storageHash E s' s'') :
    Progress storageHash E s s'' :=
  ⟨h'.consistent, fun hs => h'.keeps (h.keeps hs), fun hr => h'.respects (h.respects hr)⟩

theorem of_find (h : Consistent storageHash s') (hfind : find storageHash s' = find storageHash s) :
    Progress storageHash E s s' :=
  ⟨h, fun hs => hfind ▸ hs, fun hr => hfind ▸ hr⟩

theorem of_join (hE : Partial E) (h : Consistent storageHash s')
    (hjoin : Join (find storageHash s) x y (find storageHash s'))
    (hxy : Respects E (find storageHash s) → E x y) : Progress storageHash E s s' :=
  ⟨h, hjoin.keeps, fun hr => hjoin.respects hE hr (hxy hr)⟩

end Progress

/-! ## One edge -/

/-- An object that one key has is given to another. -/
theorem addStorage_progress (hE : Partial E) (h : Consistent storageHash s)
    (hx : find storageHash s x = some σ) (hy : find storageHash s y = none) (hxy : E x y) :
    Progress storageHash E s (addStorage storageHash s σ y) ∧
      Share (find storageHash (addStorage storageHash s σ y)) x y := by
  have hfind : find storageHash (addStorage storageHash s σ y) =
      Function.update (find storageHash s) y (some σ) := by
    rw [find_addStorage h, if_pos hy]
  have hjoin : Join (find storageHash s) x y (find storageHash (addStorage storageHash s σ y)) :=
    hfind ▸ .right hx hy
  exact ⟨.of_join hE (addStorage_consistent h (h.lt_of_find hx) (h.type_of_find hx) y) hjoin fun _ => hxy, hjoin.share⟩

/-- A new object for a key. -/
theorem alloc_progress (hE : Partial E) (h : Consistent storageHash s) (object : StorageObject)
    (hobject : object.users = []) (htype : object.type ≠ .regBad) (hxx : E x x) :
    Progress storageHash E s
        (addStorage storageHash
          { s with
            storage := Function.update s.storage s.nextStorage object
            nextStorage := s.nextStorage + 1 } s.nextStorage x) ∧
      find storageHash
          (addStorage storageHash
            { s with
              storage := Function.update s.storage s.nextStorage object
              nextStorage := s.nextStorage + 1 } s.nextStorage x) =
        if find storageHash s x = none then Function.update (find storageHash s) x (some s.nextStorage)
        else find storageHash s := by
  have halloc := alloc_consistent h hobject
  have hnew : (Function.update s.storage s.nextStorage object s.nextStorage).type ≠ .regBad := by
    rwa [Function.update_self]
  have hfind := find_addStorage halloc s.nextStorage x
  have hsame : find storageHash
      { s with
        storage := Function.update s.storage s.nextStorage object
        nextStorage := s.nextStorage + 1 } = find storageHash s := rfl
  rw [hsame] at hfind
  refine ⟨?_, hfind⟩
  have hcons := addStorage_consistent halloc (Nat.lt_succ_self _) hnew x
  by_cases hx : find storageHash s x = none
  · rw [if_pos hx] at hfind
    refine .of_join hE hcons (x := x) (y := x) ?_ fun _ => hxx
    rw [hfind]
    exact .fresh hx fun a ha => Nat.lt_irrefl _ (h.lt_of_find ha)
  · rw [if_neg hx] at hfind
    exact .of_find hcons hfind

/-- Two objects become one. -/
theorem combineStorage_progress (hE : Partial E) (h : Consistent storageHash s) {τ : StorageId} (hne : σ ≠ τ)
    (hx : find storageHash s x = some σ) (hy : find storageHash s y = some τ)
    (hxy : Respects E (find storageHash s) → E x y) :
    ∃ s', combineStorage s σ τ = some s' ∧ Progress storageHash E s s' ∧ Share (find storageHash s') x y ∧
      find storageHash s' y = some τ ∧ s'.phiUsers = s.phiUsers := by
  obtain ⟨s', hs', hcons, hfind, hphi⟩ := combineStorage_spec h hne (h.lt_of_find hy) (h.type_of_find hy)
  have hjoin : Join (find storageHash s) x y (find storageHash s') := hfind ▸ .merge hx hy
  refine ⟨s', hs', .of_join hE hcons hjoin hxy, hjoin.share, ?_, hphi⟩
  rw [hfind, merge, hy, Option.map_some, ite_self]

theorem setUpPseudo_spec (hE : Partial E) (h : Consistent storageHash s) {bb child : BlockId} {pseudo : Pseudo}
    (hedge : E ⟨bb, pseudo, .storOut⟩ ⟨child, pseudo, .storIn⟩) :
    ∃ s', setUpPseudo storageHash bb child s pseudo = some s' ∧ Progress storageHash E s s' ∧
      Share (find storageHash s') ⟨bb, pseudo, .storOut⟩ ⟨child, pseudo, .storIn⟩ ∧
      s'.phiUsers = s.phiUsers := by
  have h₂ := lookupStorage_consistent (lookupStorage_consistent h ⟨bb, pseudo, .storOut⟩) ⟨child, pseudo, .storIn⟩
  have hfind₂ : find storageHash (lookupStorage storageHash (lookupStorage storageHash s ⟨bb, pseudo, .storOut⟩).2
      ⟨child, pseudo, .storIn⟩).2 = find storageHash s := rfl
  have hphi₂ : (lookupStorage storageHash (lookupStorage storageHash s ⟨bb, pseudo, .storOut⟩).2
      ⟨child, pseudo, .storIn⟩).2.phiUsers = s.phiUsers := rfl
  rw [setUpPseudo]
  dsimp only
  rw [lookupStorage_fst, lookupStorage_fst, find_lookupStorage]
  generalize (lookupStorage storageHash (lookupStorage storageHash s ⟨bb, pseudo, .storOut⟩).2
    ⟨child, pseudo, .storIn⟩).2 = s₂ at h₂ hfind₂ hphi₂ ⊢
  have hstart : Progress storageHash E s s₂ := .of_find h₂ hfind₂
  have hne : (⟨child, pseudo, .storIn⟩ : Key) ≠ ⟨bb, pseudo, .storOut⟩ := fun heq => by
    injection heq with _ _ hio
    exact absurd hio nofun
  rw [← hfind₂]
  cases hout : find storageHash s₂ ⟨bb, pseudo, .storOut⟩ with
  | none =>
    cases hin : find storageHash s₂ ⟨child, pseudo, .storIn⟩ with
    | none =>
      obtain ⟨hprog, hfind⟩ := alloc_progress hE h₂ {} rfl nofun (hE.trans hedge (hE.symm hedge))
      rw [if_pos hout] at hfind
      obtain ⟨hprog', hshare⟩ := addStorage_progress hE hprog.consistent
        (by rw [hfind]; exact Function.update_self ..)
        (by rw [hfind, Function.update_of_ne hne]; exact hin) hedge
      exact ⟨_, rfl, (hstart.trans hprog).trans hprog', hshare, hphi₂⟩
    | some childIn =>
      obtain ⟨hprog, hshare⟩ := addStorage_progress hE h₂ hin hout (hE.symm hedge)
      obtain ⟨l, hl, hl'⟩ := hshare
      exact ⟨_, rfl, hstart.trans hprog, ⟨l, hl', hl⟩, hphi₂⟩
  | some parentOut =>
    cases hin : find storageHash s₂ ⟨child, pseudo, .storIn⟩ with
    | none =>
      obtain ⟨hprog, hshare⟩ := addStorage_progress hE h₂ hout hin hedge
      exact ⟨_, rfl, hstart.trans hprog, hshare, hphi₂⟩
    | some childIn =>
      by_cases heq : parentOut = childIn
      · exact ⟨s₂, if_pos heq, hstart, ⟨childIn, heq ▸ hout, hin⟩, hphi₂⟩
      · obtain ⟨s', hs', hprog, hshare, -, hphi⟩ := combineStorage_progress hE h₂ heq hout hin fun _ => hedge
        exact ⟨s', (if_neg heq).trans hs', hstart.trans hprog, hshare, hphi.trans hphi₂⟩

/-! ## The users of one phi source -/

/-- The key that a phi node has at the end of a block of a source. -/
def phiKey (ir : Ir) (bb : BlockId) (phi : InsnId) : Key :=
  ⟨bb, (ir.insn phi).target, .storOut⟩

theorem combinePhiUsers_cons (ir : Ir) (bb : BlockId) (s : State) (last : Option StorageId) (phi : InsnId)
    (phis : List InsnId) :
    combinePhiUsers storageHash ir bb s last (phi :: phis) =
      match find storageHash s (phiKey ir bb phi), (lookupStorage storageHash s (phiKey ir bb phi)).2 with
      | none, s => combinePhiUsers storageHash ir bb s last phis
      | some storage, s =>
        match last with
        | some last =>
          if storage ≠ last then
            match combineStorage s storage last with
            | none => none
            | some s => (combinePhiUsers storageHash ir bb s (some last) phis).map fun r => (r.1, phi :: r.2)
          else (combinePhiUsers storageHash ir bb s (some storage) phis).map fun r => (r.1, phi :: r.2)
        | none => (combinePhiUsers storageHash ir bb s (some storage) phis).map fun r => (r.1, phi :: r.2) := by
  rw [combinePhiUsers, ← phiKey, ← lookupStorage_fst]
  generalize lookupStorage storageHash s (phiKey ir bb phi) = r
  obtain ⟨found, s₁⟩ := r
  cases found with
  | none => rfl
  | some storage => rfl

theorem combinePhiUsers_spec (hE : Partial E) {ir : Ir} {bb : BlockId} {phis : List InsnId}
    (h : Consistent storageHash s) {last : Option StorageId} (hlast : ∀ storage, last = some storage →
      find storageHash s x = some storage)
    (hx : last ≠ none → ∀ phi ∈ phis, E x x → E (phiKey ir bb phi) (phiKey ir bb phi) → E x (phiKey ir bb phi))
    (hphis : ∀ phi ∈ phis, ∀ phi' ∈ phis, E (phiKey ir bb phi) (phiKey ir bb phi) →
      E (phiKey ir bb phi') (phiKey ir bb phi') → E (phiKey ir bb phi) (phiKey ir bb phi')) :
    ∃ s' kept label, combinePhiUsers storageHash ir bb s last phis = some (s', kept) ∧
      Progress storageHash E s s' ∧ s'.phiUsers = s.phiUsers ∧
      (∀ phi ∈ kept, phi ∈ phis) ∧ (last ≠ none → find storageHash s' x = some label) ∧
      ∀ phi ∈ phis, find storageHash s (phiKey ir bb phi) ≠ none →
        find storageHash s' (phiKey ir bb phi) = some label := by
  induction phis generalizing s last x with
  | nil =>
    refine ⟨s, [], last.getD 0, rfl, .refl h, rfl, fun _ => id, fun hne => ?_, fun phi hmem => absurd hmem List.not_mem_nil⟩
    obtain ⟨storage, rfl⟩ := Option.ne_none_iff_exists'.1 hne
    exact hlast storage rfl
  | cons phi phis ih =>
    have h₁ := lookupStorage_consistent h (phiKey ir bb phi)
    have hfind₁ : find storageHash (lookupStorage storageHash s (phiKey ir bb phi)).2 = find storageHash s := rfl
    have hphi₁ : (lookupStorage storageHash s (phiKey ir bb phi)).2.phiUsers = s.phiUsers := rfl
    rw [combinePhiUsers_cons]
    generalize (lookupStorage storageHash s (phiKey ir bb phi)).2 = s₁ at h₁ hfind₁ hphi₁ ⊢
    have hstart : Progress storageHash E s s₁ := .of_find h₁ hfind₁
    have hx' : last ≠ none → ∀ phi' ∈ phis, E x x → E (phiKey ir bb phi') (phiKey ir bb phi') →
        E x (phiKey ir bb phi') := fun hne phi' hmem => hx hne phi' (List.mem_cons_of_mem _ hmem)
    have hphis' : ∀ phi' ∈ phis, ∀ phi'' ∈ phis, E (phiKey ir bb phi') (phiKey ir bb phi') →
        E (phiKey ir bb phi'') (phiKey ir bb phi'') → E (phiKey ir bb phi') (phiKey ir bb phi'') :=
      fun phi' hmem phi'' hmem' => hphis phi' (List.mem_cons_of_mem _ hmem) phi'' (List.mem_cons_of_mem _ hmem')
    rw [← hfind₁] at hlast ⊢
    cases hfound : find storageHash s₁ (phiKey ir bb phi) with
    | none =>
      obtain ⟨s', kept, label, hs', hprog, hphi, hkept, hlabel, hall⟩ := ih h₁ hlast hx' hphis'
      refine ⟨s', kept, label, hs', hstart.trans hprog, hphi.trans hphi₁,
        fun phi' hmem => List.mem_cons_of_mem _ (hkept phi' hmem), hlabel, fun phi' hmem hne => ?_⟩
      rcases List.mem_cons.1 hmem with rfl | hmem
      · exact absurd hfound hne
      · exact hall phi' hmem hne
    | some storage =>
      cases last with
      | none =>
        obtain ⟨s', kept, label, hs', hprog, hphi, hkept, hlabel, hall⟩ := ih h₁ (x := phiKey ir bb phi)
          (fun σ hσ => Option.some.inj hσ ▸ hfound)
          (fun _ phi' hmem => hphis phi List.mem_cons_self phi' (List.mem_cons_of_mem _ hmem)) hphis'
        refine ⟨s', phi :: kept, label, ?_, hstart.trans hprog, hphi.trans hphi₁,
          List.cons_subset_cons phi hkept, fun hne => absurd rfl hne,
          fun phi' hmem hne => ?_⟩
        · show (combinePhiUsers storageHash ir bb s₁ (some storage) phis).map _ = _
          rw [hs']
          rfl
        · rcases List.mem_cons.1 hmem with rfl | hmem
          · exact hlabel nofun
          · exact hall phi' hmem hne
      | some l =>
        have hl : find storageHash s₁ x = some l := hlast l rfl
        by_cases heq : storage = l
        · subst heq
          obtain ⟨s', kept, label, hs', hprog, hphi, hkept, hlabel, hall⟩ := ih h₁ hlast hx' hphis'
          have hx₁ := hlabel nofun
          have hshare := hprog.keeps ⟨storage, hl, hfound⟩
          refine ⟨s', phi :: kept, label, ?_, hstart.trans hprog, hphi.trans hphi₁,
            List.cons_subset_cons phi hkept, fun _ => hx₁,
            fun phi' hmem hne => ?_⟩
          · show (if storage ≠ storage then _ else (combinePhiUsers storageHash ir bb s₁ (some storage) phis).map _) = _
            rw [if_neg (not_not.2 rfl), hs']
            rfl
          · rcases List.mem_cons.1 hmem with rfl | hmem
            · exact hshare.eq.symm.trans hx₁
            · exact hall phi' hmem hne
        · obtain ⟨s₂, hs₂, hprog₂, hshare₂, hl₂, hphi₂⟩ := combineStorage_progress hE h₁ heq hfound hl
            fun hr => hE.symm (hx nofun phi List.mem_cons_self (hr ⟨l, hl, hl⟩) (hr ⟨storage, hfound, hfound⟩))
          obtain ⟨s', kept, label, hs', hprog, hphi, hkept, hlabel, hall⟩ := ih hprog₂.consistent
            (fun σ hσ => Option.some.inj hσ ▸ hl₂) hx' hphis'
          have hx₂ := hlabel nofun
          refine ⟨s', phi :: kept, label, ?_, (hstart.trans hprog₂).trans hprog, (hphi.trans hphi₂).trans hphi₁,
            List.cons_subset_cons phi hkept, fun _ => hx₂, fun phi' hmem hne => ?_⟩
          · show (if storage ≠ l then (match combineStorage s₁ storage l with | none => none | some s => _) else _) = _
            rw [if_pos heq, hs₂]
            dsimp only
            rw [hs']
            rfl
          · rcases List.mem_cons.1 hmem with rfl | hmem
            · exact (hprog.keeps hshare₂).eq.trans hx₂
            · exact hall phi' hmem (hprog₂.keeps (share_self hne)).ne_none

variable {ir : Ir} {bb : BlockId} {users : InsnId → List InsnId}

/-- What `combine_phi_storage` looks at. -/
def feeds (ir : Ir) (i : InsnId) : Prop :=
  (ir.insn i).bb ≠ none ∧ (ir.insn i).opcode = .phisource

/-- The labels of the phi nodes of one source may become equal where they have labels at all. -/
def AllowsPhis (ir : Ir) (users : InsnId → List InsnId) (E : Key → Key → Prop) (bb : BlockId) (i : InsnId) : Prop :=
  feeds ir i → ∀ phi ∈ users i, ∀ phi' ∈ users i, E (phiKey ir bb phi) (phiKey ir bb phi) →
    E (phiKey ir bb phi') (phiKey ir bb phi') → E (phiKey ir bb phi) (phiKey ir bb phi')

/-- The keys of the phi nodes of one source share a label if they have labels at all. -/
def SharesPhis (storageHash : Key → ℕ) (ir : Ir) (bb : BlockId) (i : InsnId) (s s' : State) : Prop :=
  feeds ir i → ∀ phi ∈ s.phiUsers i, ∀ phi' ∈ s.phiUsers i, find storageHash s (phiKey ir bb phi) ≠ none →
    find storageHash s (phiKey ir bb phi') ≠ none →
      Share (find storageHash s') (phiKey ir bb phi) (phiKey ir bb phi')

theorem combinePhi_spec (hE : Partial E) (h : Consistent storageHash s)
    (husers : ∀ j, ∀ phi ∈ s.phiUsers j, phi ∈ users j) {i : InsnId} (hallows : AllowsPhis ir users E bb i) :
    ∃ s', combinePhi storageHash ir bb s i = some s' ∧ Progress storageHash E s s' ∧
      (∀ j, ∀ phi ∈ s'.phiUsers j, phi ∈ users j) ∧ (∀ j, j ≠ i → s'.phiUsers j = s.phiUsers j) ∧
      SharesPhis storageHash ir bb i s s' := by
  rw [combinePhi]
  by_cases hfeeds : feeds ir i
  · rw [if_neg (by rw [not_or, not_not]; exact hfeeds)]
    have hphis : ∀ phi ∈ s.phiUsers i, ∀ phi' ∈ s.phiUsers i, E (phiKey ir bb phi) (phiKey ir bb phi) →
        E (phiKey ir bb phi') (phiKey ir bb phi') → E (phiKey ir bb phi) (phiKey ir bb phi') :=
      fun phi hmem phi' hmem' => hallows hfeeds phi (husers i phi hmem) phi' (husers i phi' hmem')
    have hlast : ∀ storage, (none : Option StorageId) = some storage →
        find storageHash s ⟨bb, .null, .storIn⟩ = some storage := nofun
    obtain ⟨s', kept, label, hs', hprog, hphi, hkept, -, hall⟩ :=
      combinePhiUsers_spec hE h hlast (fun hne => absurd rfl hne) hphis
    have hcons : Consistent storageHash { s' with phiUsers := Function.update s'.phiUsers i kept } :=
      ⟨hprog.consistent.table, hprog.consistent.users, hprog.consistent.nodup, hprog.consistent.allocated,
        hprog.consistent.inUse, hprog.consistent.returned⟩
    refine ⟨{ s' with phiUsers := Function.update s'.phiUsers i kept }, by rw [hs']; rfl,
      hprog.trans (.of_find hcons rfl), fun j phi hmem => ?_, fun j hne => ?_, fun _ phi hmem phi' hmem' hne hne' => ?_⟩
    · have hmem' : phi ∈ Function.update s'.phiUsers i kept j := hmem
      rcases eq_or_ne j i with rfl | hne
      · rw [Function.update_self] at hmem'
        exact husers j phi (hkept phi hmem')
      · rw [Function.update_of_ne hne, hphi] at hmem'
        exact husers j phi hmem'
    · show Function.update s'.phiUsers i kept j = _
      rw [Function.update_of_ne hne, hphi]
    · exact ⟨label, hall phi hmem hne, hall phi' hmem' hne'⟩
  · rw [if_pos (by rwa [feeds, Classical.not_and_iff_not_or_not, not_not] at hfeeds)]
    exact ⟨s, rfl, .refl h, husers, fun _ _ => rfl, fun hf => absurd hf hfeeds⟩

/-- A step that keeps what is shared keeps it for what has labels before. -/
theorem SharesPhis.of_progress {i : InsnId} {s₀ s₁ : State} (h : SharesPhis storageHash ir bb i s s')
    (hphi : s.phiUsers i = s₀.phiUsers i) (hbefore : Progress storageHash E s₀ s) (hafter : Progress storageHash E s' s₁) :
    SharesPhis storageHash ir bb i s₀ s₁ := by
  intro hf phi hmem phi' hmem' hne hne'
  rw [← hphi] at hmem hmem'
  exact hafter.keeps (h hf phi hmem phi' hmem' (hbefore.keeps (share_self hne)).ne_none
    (hbefore.keeps (share_self hne')).ne_none)

theorem combinePhis_spec (hE : Partial E) {insns : List InsnId} (h : Consistent storageHash s)
    (husers : ∀ j, ∀ phi ∈ s.phiUsers j, phi ∈ users j) (hallows : ∀ i ∈ insns, AllowsPhis ir users E bb i) :
    ∃ s', insns.foldlM (combinePhi storageHash ir bb) s = some s' ∧ Progress storageHash E s s' ∧
      (∀ j, ∀ phi ∈ s'.phiUsers j, phi ∈ users j) ∧ (∀ j ∉ insns, s'.phiUsers j = s.phiUsers j) ∧
      (insns.Nodup → ∀ i ∈ insns, SharesPhis storageHash ir bb i s s') := by
  induction insns generalizing s with
  | nil => exact ⟨s, rfl, .refl h, husers, fun _ _ => rfl, fun _ _ hmem => absurd hmem List.not_mem_nil⟩
  | cons i insns ih =>
    obtain ⟨s₁, hs₁, hprog₁, husers₁, hframe₁, hshares₁⟩ := combinePhi_spec hE h husers (hallows i List.mem_cons_self)
    obtain ⟨s', hs', hprog, husers', hframe, hshares⟩ := ih hprog₁.consistent husers₁ fun j hmem =>
      hallows j (List.mem_cons_of_mem _ hmem)
    refine ⟨s', ?_, hprog₁.trans hprog, husers', fun j hmem => ?_, fun hn j hmem => ?_⟩
    · rw [List.foldlM_cons, hs₁]
      exact hs'
    · rw [List.mem_cons, not_or] at hmem
      rw [hframe j hmem.2, hframe₁ j hmem.1]
    · obtain ⟨hnotin, hn'⟩ := List.nodup_cons.1 hn
      rcases List.mem_cons.1 hmem with rfl | hmem
      · exact hshares₁.of_progress rfl (.refl h) hprog
      · have hne : j ≠ i := fun heq => hnotin (heq ▸ hmem)
        exact (hshares hn' j hmem).of_progress (hframe₁ j hne) hprog₁ (.refl hprog.consistent)

/-! ## One block -/

theorem setUpPseudos_spec (hE : Partial E) {child : BlockId} {needs : List Pseudo} (h : Consistent storageHash s)
    (hedge : ∀ pseudo ∈ needs, E ⟨bb, pseudo, .storOut⟩ ⟨child, pseudo, .storIn⟩) :
    ∃ s', needs.foldlM (setUpPseudo storageHash bb child) s = some s' ∧ Progress storageHash E s s' ∧
      s'.phiUsers = s.phiUsers ∧
      ∀ pseudo ∈ needs, Share (find storageHash s') ⟨bb, pseudo, .storOut⟩ ⟨child, pseudo, .storIn⟩ := by
  induction needs generalizing s with
  | nil => exact ⟨s, rfl, .refl h, rfl, fun _ hmem => absurd hmem List.not_mem_nil⟩
  | cons pseudo needs ih =>
    obtain ⟨s₁, hs₁, hprog₁, hshare₁, hphi₁⟩ := setUpPseudo_spec hE h (hedge pseudo List.mem_cons_self)
    obtain ⟨s', hs', hprog, hphi, hshare⟩ := ih hprog₁.consistent fun p hmem => hedge p (List.mem_cons_of_mem _ hmem)
    refine ⟨s', ?_, hprog₁.trans hprog, hphi.trans hphi₁, fun p hmem => ?_⟩
    · rw [List.foldlM_cons, hs₁]
      exact hs'
    · rcases List.mem_cons.1 hmem with rfl | hmem
      · exact hprog.keeps hshare₁
      · exact hshare p hmem

theorem setUpChildren_spec (hE : Partial E) {children : List BlockId} (h : Consistent storageHash s)
    (hedge : ∀ child ∈ children, ∀ pseudo ∈ (ir.block child).needs,
      E ⟨bb, pseudo, .storOut⟩ ⟨child, pseudo, .storIn⟩) :
    ∃ s', children.foldlM (fun s child => (ir.block child).needs.foldlM (setUpPseudo storageHash bb child) s) s =
        some s' ∧ Progress storageHash E s s' ∧ s'.phiUsers = s.phiUsers ∧
      ∀ child ∈ children, ∀ pseudo ∈ (ir.block child).needs,
        Share (find storageHash s') ⟨bb, pseudo, .storOut⟩ ⟨child, pseudo, .storIn⟩ := by
  induction children generalizing s with
  | nil => exact ⟨s, rfl, .refl h, rfl, fun _ hmem => absurd hmem List.not_mem_nil⟩
  | cons child children ih =>
    obtain ⟨s₁, hs₁, hprog₁, hphi₁, hshare₁⟩ := setUpPseudos_spec hE h (hedge child List.mem_cons_self)
    obtain ⟨s', hs', hprog, hphi, hshare⟩ := ih hprog₁.consistent fun c hmem => hedge c (List.mem_cons_of_mem _ hmem)
    refine ⟨s', ?_, hprog₁.trans hprog, hphi.trans hphi₁, fun c hmem p hp => ?_⟩
    · rw [List.foldlM_cons, hs₁]
      exact hs'
    · rcases List.mem_cons.1 hmem with rfl | hmem
      · exact hprog.keeps (hshare₁ p hp)
      · exact hshare c hmem p hp

/-- The two ends of every edge from a block share labels. -/
def SharesEdges (storageHash : Key → ℕ) (ir : Ir) (bb : BlockId) (s : State) : Prop :=
  ∀ child ∈ (ir.block bb).children, ∀ pseudo ∈ (ir.block child).needs,
    Share (find storageHash s) ⟨bb, pseudo, .storOut⟩ ⟨child, pseudo, .storIn⟩

/-- What the labels of the two ends of the edges from a block, and of its phi sources, may do. -/
structure Allows (ir : Ir) (users : InsnId → List InsnId) (E : Key → Key → Prop) (bb : BlockId) : Prop where
  edge : ∀ child ∈ (ir.block bb).children, ∀ pseudo ∈ (ir.block child).needs,
    E ⟨bb, pseudo, .storOut⟩ ⟨child, pseudo, .storIn⟩
  phis : ∀ i ∈ (ir.block bb).insns, AllowsPhis ir users E bb i

/-- The pseudo is live into a child of the block. -/
def LiveOut (ir : Ir) (bb : BlockId) (pseudo : Pseudo) : Prop :=
  ∃ child ∈ (ir.block bb).children, pseudo ∈ (ir.block child).needs

/-- The targets that a phi source feeds and that are live out of its block share labels. -/
def SharesTargets (storageHash : Key → ℕ) (ir : Ir) (users : InsnId → List InsnId) (bb : BlockId) (s : State) : Prop :=
  ∀ i ∈ (ir.block bb).insns, feeds ir i → ∀ phi ∈ users i, ∀ phi' ∈ users i,
    LiveOut ir bb (ir.insn phi).target → LiveOut ir bb (ir.insn phi').target →
      Share (find storageHash s) (phiKey ir bb phi) (phiKey ir bb phi')

theorem setUpBlock_spec (hE : Partial E) (h : Consistent storageHash s)
    (husers : ∀ j, ∀ phi ∈ s.phiUsers j, phi ∈ users j) (hallows : Allows ir users E bb) :
    ∃ s', ((setUpBbStorage storageHash ir s bb).bind fun s => combinePhiStorage storageHash ir s bb) = some s' ∧
      Progress storageHash E s s' ∧ (∀ j, ∀ phi ∈ s'.phiUsers j, phi ∈ users j) ∧
      (∀ j ∉ (ir.block bb).insns, s'.phiUsers j = s.phiUsers j) ∧ SharesEdges storageHash ir bb s' ∧
      ((ir.block bb).insns.Nodup → SharesTargets storageHash ir s.phiUsers bb s') := by
  obtain ⟨s₁, hs₁, hprog₁, hphi₁, hshare₁⟩ := setUpChildren_spec hE h hallows.edge
  obtain ⟨s', hs', hprog, husers', hframe, hshare⟩ :=
    combinePhis_spec hE hprog₁.consistent (hphi₁ ▸ husers) hallows.phis
  refine ⟨s', ?_, hprog₁.trans hprog, husers', fun j hmem => (hframe j hmem).trans (congrFun hphi₁ j),
    fun child hmem p hp => hprog.keeps (hshare₁ child hmem p hp), fun hn i hi hf phi hmem phi' hmem' hl hl' => ?_⟩
  · have hedges : setUpBbStorage storageHash ir s bb = some s₁ := hs₁
    rw [hedges]
    exact hs'
  · obtain ⟨child, hchild, hp⟩ := hl
    obtain ⟨child', hchild', hp'⟩ := hl'
    rw [← hphi₁] at hmem hmem'
    exact hshare hn i hi hf phi hmem phi' hmem' (hshare₁ child hchild _ hp).ne_none (hshare₁ child' hchild' _ hp').ne_none

/-! ## The whole run -/

/-- The instructions of some blocks. -/
def insnsOf (ir : Ir) (bbs : List BlockId) : List InsnId :=
  bbs.flatMap fun bb => (ir.block bb).insns

theorem setUpBlocks_spec (hE : Partial E) {bbs : List BlockId} (h : Consistent storageHash s)
    (husers : ∀ j, ∀ phi ∈ s.phiUsers j, phi ∈ users j) (hallows : ∀ bb ∈ bbs, Allows ir users E bb) :
    ∃ s', bbs.foldlM
        (fun s bb => (setUpBbStorage storageHash ir s bb).bind fun s => combinePhiStorage storageHash ir s bb) s =
          some s' ∧ Progress storageHash E s s' ∧ (∀ bb ∈ bbs, SharesEdges storageHash ir bb s') ∧
      ((insnsOf ir bbs).Nodup → ∀ bb ∈ bbs, SharesTargets storageHash ir s.phiUsers bb s') := by
  induction bbs generalizing s with
  | nil =>
    exact ⟨s, rfl, .refl h, fun _ hmem => absurd hmem List.not_mem_nil, fun _ _ hmem => absurd hmem List.not_mem_nil⟩
  | cons bb bbs ih =>
    obtain ⟨s₁, hs₁, hprog₁, husers₁, hframe, hedges₁, htargets₁⟩ :=
      setUpBlock_spec hE h husers (hallows bb List.mem_cons_self)
    obtain ⟨s', hs', hprog, hedges, htargets⟩ := ih hprog₁.consistent husers₁ fun b hmem =>
      hallows b (List.mem_cons_of_mem _ hmem)
    refine ⟨s', ?_, hprog₁.trans hprog, fun b hmem => ?_, fun hn b hmem => ?_⟩
    · rw [List.foldlM_cons, hs₁]
      exact hs'
    · rcases List.mem_cons.1 hmem with rfl | hmem
      · exact fun child hchild p hp => hprog.keeps (hedges₁ child hchild p hp)
      · exact hedges b hmem
    · rw [insnsOf, List.flatMap_cons] at hn
      obtain ⟨hbb, hrest, hdisjoint⟩ := List.nodup_append.1 hn
      rcases List.mem_cons.1 hmem with rfl | hmem
      · exact fun i hi hf phi hphi phi' hphi' hl hl' => hprog.keeps (htargets₁ hbb i hi hf phi hphi phi' hphi' hl hl')
      · intro i hi hf phi hphi phi' hphi' hl hl'
        have hnotin : i ∉ (ir.block bb).insns := fun hin =>
          hdisjoint i hin i (List.mem_flatMap.2 ⟨b, hmem, hi⟩) rfl
        rw [← hframe i hnotin] at hphi hphi'
        exact htargets hrest b hmem i hi hf phi hphi phi' hphi' hl hl'

theorem setUpArgument_spec (hE : Partial E) (h : Consistent storageHash s) {arg : Pseudo}
    (hself : E ⟨bb, arg, .storIn⟩ ⟨bb, arg, .storIn⟩) :
    Progress storageHash E s (setUpArgument storageHash bb s arg) ∧
      (setUpArgument storageHash bb s arg).phiUsers = s.phiUsers ∧
      find storageHash (setUpArgument storageHash bb s arg) ⟨bb, arg, .storIn⟩ ≠ none := by
  obtain ⟨object, hobject, htype, heq⟩ : ∃ object : StorageObject, object.users = [] ∧ object.type ≠ .regBad ∧
      setUpArgument storageHash bb s arg =
        addStorage storageHash
          { s with
            storage := Function.update s.storage s.nextStorage object
            nextStorage := s.nextStorage + 1 } s.nextStorage ⟨bb, arg, .storIn⟩ := by
    cases arg with
    | arg nr =>
      refine ⟨{ type := .regArg, regno := nr }, rfl, nofun, ?_⟩
      rw [setUpArgument]
      simp only [allocStorage, Function.update_idem]
    | null => exact ⟨{}, rfl, nofun, rfl⟩
    | void => exact ⟨{}, rfl, nofun, rfl⟩
    | reg nr => exact ⟨{}, rfl, nofun, rfl⟩
    | sym symbol => exact ⟨{}, rfl, nofun, rfl⟩
    | val value => exact ⟨{}, rfl, nofun, rfl⟩
    | phi nr => exact ⟨{}, rfl, nofun, rfl⟩
  obtain ⟨hprog, hfind⟩ := alloc_progress hE h object hobject htype hself
  rw [heq]
  refine ⟨hprog, rfl, ?_⟩
  rw [hfind]
  split
  · rw [Function.update_self]
    exact nofun
  · next hne => exact hne

theorem setUpArguments_spec (hE : Partial E) {args : List Pseudo} (h : Consistent storageHash s)
    (hself : ∀ arg ∈ args, E ⟨bb, arg, .storIn⟩ ⟨bb, arg, .storIn⟩) :
    Progress storageHash E s (args.foldl (setUpArgument storageHash bb) s) ∧
      (args.foldl (setUpArgument storageHash bb) s).phiUsers = s.phiUsers ∧
      ∀ arg ∈ args, find storageHash (args.foldl (setUpArgument storageHash bb) s) ⟨bb, arg, .storIn⟩ ≠ none := by
  induction args generalizing s with
  | nil => exact ⟨.refl h, rfl, fun _ hmem => absurd hmem List.not_mem_nil⟩
  | cons arg args ih =>
    obtain ⟨hprog₁, hphi₁, hfound₁⟩ := setUpArgument_spec hE h (hself arg List.mem_cons_self)
    obtain ⟨hprog, hphi, hfound⟩ := ih hprog₁.consistent fun a hmem => hself a (List.mem_cons_of_mem _ hmem)
    refine ⟨hprog₁.trans hprog, hphi.trans hphi₁, fun a hmem => ?_⟩
    rcases List.mem_cons.1 hmem with rfl | hmem
    · exact (hprog.keeps (share_self hfound₁)).ne_none
    · exact hfound a hmem

theorem nameOne_spec (h : Consistent storageHash s) (n : ℕ) (hash : HashId) :
    Consistent storageHash (nameOne (s, n) hash).1 ∧
      find storageHash (nameOne (s, n) hash).1 = find storageHash s := by
  rw [nameOne]
  dsimp only
  split
  · exact ⟨h, rfl⟩
  · have hfields : ∀ storage, (Function.update s.storage (s.hash hash).storage
        { s.storage (s.hash hash).storage with name := n + 1 } storage).users = (s.storage storage).users ∧
          (Function.update s.storage (s.hash hash).storage
            { s.storage (s.hash hash).storage with name := n + 1 } storage).type = (s.storage storage).type := by
      intro storage
      rcases eq_or_ne storage (s.hash hash).storage with rfl | hne
      · rw [Function.update_self]
        exact ⟨rfl, rfl⟩
      · rw [Function.update_of_ne hne]
        exact ⟨rfl, rfl⟩
    refine ⟨⟨h.table, fun storage other => ?_, fun storage => ?_, h.allocated, fun other hlt => ?_, h.returned⟩, rfl⟩
    · exact (hfields storage).1 ▸ h.users storage other
    · exact (hfields storage).1 ▸ h.nodup storage
    · exact (hfields (s.hash other).storage).2 ▸ h.inUse other hlt

theorem nameStorage_spec (h : Consistent storageHash s) :
    Consistent storageHash (nameStorage s) ∧ find storageHash (nameStorage s) = find storageHash s := by
  rw [nameStorage]
  generalize (List.range maxStorageHash).flatMap s.table = hashes
  generalize 0 = n
  induction hashes generalizing s n with
  | nil => exact ⟨h, rfl⟩
  | cons hash hashes ih =>
    obtain ⟨hcons, hfind⟩ := nameOne_spec h n hash
    rw [List.foldl_cons, ← hfind]
    exact ih hcons (nameOne (s, n) hash).2

/-- `set_up_storage` makes the labels equal that it has to, and no others. -/
theorem setUpStorage_spec (hE : Partial E) (h : Consistent storageHash s) {entry : BlockId}
    (hentry : (ir.insn ir.entry).bb = some entry)
    (hself : ∀ arg ∈ (ir.block entry).needs, E ⟨entry, arg, .storIn⟩ ⟨entry, arg, .storIn⟩)
    (hallows : ∀ bb ∈ ir.bbs, Allows ir s.phiUsers E bb) :
    ∃ s', setUpStorage storageHash ir s = some s' ∧ Progress storageHash E s s' ∧
      (∀ arg ∈ (ir.block entry).needs, find storageHash s' ⟨entry, arg, .storIn⟩ ≠ none) ∧
      (∀ bb ∈ ir.bbs, SharesEdges storageHash ir bb s') ∧
      ((insnsOf ir ir.bbs).Nodup → ∀ bb ∈ ir.bbs, SharesTargets storageHash ir s.phiUsers bb s') := by
  obtain ⟨hprog₁, hphi₁, hfound₁⟩ := setUpArguments_spec hE h hself
  have husers : ∀ j, ∀ phi ∈ ((ir.block entry).needs.foldl (setUpArgument storageHash entry) s).phiUsers j,
      phi ∈ s.phiUsers j := fun j phi hmem => hphi₁ ▸ hmem
  obtain ⟨s₂, hs₂, hprog₂, hedges, htargets⟩ := setUpBlocks_spec hE hprog₁.consistent husers hallows
  obtain ⟨hcons, hfind⟩ := nameStorage_spec hprog₂.consistent
  have hname : Progress storageHash E s₂ (nameStorage s₂) := .of_find hcons hfind
  refine ⟨nameStorage s₂, ?_, (hprog₁.trans hprog₂).trans hname, fun arg hmem => ?_, fun bb hmem child hchild p hp => ?_,
    fun hn bb hmem i hi hf phi hphi phi' hphi' hl hl' => ?_⟩
  · rw [setUpStorage, hentry]
    dsimp only
    rw [setUpArgumentStorage, hs₂]
    rfl
  · exact (hname.keeps (hprog₂.keeps (share_self (hfound₁ arg hmem)))).ne_none
  · exact hname.keeps (hedges bb hmem child hchild p hp)
  · rw [← hphi₁] at hphi hphi'
    exact hname.keeps (htargets hn bb hmem i hi hf phi hphi phi' hphi' hl hl')

/-- For every entrypoint the storage at both ends of every edge is one object, and no lookup,
during the run or after it, returns an object that has been retired. -/
theorem setUpStorage_agrees (storageHash : Key → ℕ) {ir : Ir} {s : State} (h : Consistent storageHash s)
    {entry : BlockId} (hentry : (ir.insn ir.entry).bb = some entry) :
    ∃ s', setUpStorage storageHash ir s = some s' ∧
      (∀ bb ∈ ir.bbs, ∀ child ∈ (ir.block bb).children, ∀ pseudo ∈ (ir.block child).needs, ∃ storage,
        (lookupStorage storageHash s' ⟨bb, pseudo, .storOut⟩).1 = some storage ∧
          (lookupStorage storageHash s' ⟨child, pseudo, .storIn⟩).1 = some storage) ∧
      .regBad ∉ s'.returned ∧
      ∀ key storage, (lookupStorage storageHash s' key).1 = some storage →
        (s'.storage storage).type ≠ .regBad := by
  have hE : Partial (fun _ _ : Key => True) := ⟨fun _ => trivial, fun _ _ => trivial⟩
  obtain ⟨s', hs', hprog, -, hedges, -⟩ := setUpStorage_spec hE h hentry (fun _ _ => trivial) fun bb _ =>
    ⟨fun _ _ _ _ => trivial, fun _ _ _ _ _ _ _ _ _ => trivial⟩
  exact ⟨s', hs', hedges, hprog.consistent.returned, fun key storage hfound => hprog.consistent.type_of_find hfound⟩

/-- `if (arg) { a = 5; b = 5; } else { a = 1; b = 2; } return a + b;` with one phi source for the
two assignments of 5, before its liveness is known. -/
def diamondInput : Ir where
  insn
    | 0 => { opcode := .entry, bb := some 0 }
    | 1 => { opcode := .br, bb := some 0, target := .arg 1, bbTrue := some 1, bbFalse := some 2 }
    | 2 => { opcode := .phisource, bb := some 1, target := .phi 1, src1 := .val 5 }
    | 3 => { opcode := .br, bb := some 1, bbTrue := some 3 }
    | 4 => { opcode := .phisource, bb := some 2, target := .phi 2, src1 := .val 1 }
    | 5 => { opcode := .phisource, bb := some 2, target := .phi 3, src1 := .val 2 }
    | 6 => { opcode := .br, bb := some 2, bbTrue := some 3 }
    | 7 => { opcode := .phi, bb := some 3, target := .reg 1, phiList := [0, 1] }
    | 8 => { opcode := .phi, bb := some 3, target := .reg 2, phiList := [2, 3] }
    | 9 => { opcode := .addLin, bb := some 3, target := .reg 3, src1 := .reg 1, src2 := .reg 2 }
    | _ => { opcode := .ret, bb := some 3, src1 := .reg 3 }
  block
    | 0 => { children := [1, 2], insns := [0, 1] }
    | 1 => { parents := [0], children := [3], insns := [2, 3] }
    | 2 => { parents := [0], children := [3], insns := [4, 5, 6] }
    | 3 => { parents := [1, 2], insns := [7, 8, 9, 10] }
    | _ => {}
  cell
    | 0 => .phi 1
    | 1 => .phi 2
    | 2 => .phi 1
    | _ => .phi 3
  definition
    | .phi 1 => some 2
    | .phi 2 => some 4
    | .phi 3 => some 5
    | .reg 1 => some 7
    | .reg 2 => some 8
    | .reg 3 => some 9
    | _ => none
  users _ := []
  bbs := [0, 1, 2, 3]
  entry := 0
  nextInsn := 11
  nextBlock := 4
  nextCell := 4
  nextReg := 4
  nextPhi := 4
  bbGeneration := 0

/-- The same with its liveness. -/
def diamond : Ir := (diamondInput.trackPseudoLiveness 4).getD diamondInput

theorem setUpStorage_agrees_diamond :
    ∃ s, setUpStorage (fun _ => 0) diamond (State.initial (phiUsers diamond)) = some s ∧ .regBad ∉ s.returned ∧
      ∃ storage, (lookupStorage (fun _ => 0) s ⟨1, .reg 1, .storOut⟩).1 = some storage ∧
        (lookupStorage (fun _ => 0) s ⟨3, .reg 1, .storIn⟩).1 = some storage := by
  have hentry : (diamond.insn diamond.entry).bb = some 0 := rfl
  obtain ⟨s, hs, hedges, hreturned, -⟩ :=
    setUpStorage_agrees (fun _ => 0) (State.initial_consistent (phiUsers diamond)) hentry
  exact ⟨s, hs, hreturned, hedges 1 (by decide) 3 (by decide) (.reg 1) (by decide)⟩

end Sparse.Storage
