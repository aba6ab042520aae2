import Sparse.Storage
import Sparse.LabelJoining
import Mathlib.Data.List.Find
import Mathlib.Data.List.Nodup

/-!
# Storage agrees across every edge

What a lookup finds is a label of its key. Every operation of `storage.c` joins the
labels of two keys or leaves all as they are, so that an edge whose ends were made
equal early stays equal, and a retired object is the label of no key.
-/

namespace Sparse.Storage

open LabelJoining

variable {storageHash : Key → ℕ} {s s' : State} {σ τ : StorageId} {x y : Key}

/-- The entries in the table are allocated, and the users of an object are the entries that hold it. -/
structure Consistent (storageHash : Key → ℕ) (s : State) : Prop where
  table : ∀ k, ∀ hash ∈ s.table k, hash < s.nextHash
  users : ∀ storage hash, hash ∈ (s.storage storage).users ↔ hash < s.nextHash ∧ (s.hash hash).storage = storage
  nodup : ∀ storage, (s.storage storage).users.Nodup
  allocated : ∀ hash < s.nextHash, (s.hash hash).storage < s.nextStorage
  inUse : ∀ hash < s.nextHash, (s.storage (s.hash hash).storage).type ≠ .regBad
  returned : .regBad ∉ s.returned

theorem State.initial_consistent (phiUsers : InsnId → List InsnId) :
    Consistent storageHash (State.initial phiUsers) where
  table _ _ h := absurd h List.not_mem_nil
  users _ hash := ⟨fun h => absurd h List.not_mem_nil, fun h => absurd h.1 (Nat.not_lt_zero hash)⟩
  nodup _ := List.nodup_nil
  allocated hash h := absurd h (Nat.not_lt_zero hash)
  inUse hash h := absurd h (Nat.not_lt_zero hash)
  returned := List.not_mem_nil

namespace Consistent

/-- What is found is in an allocated entry. -/
theorem exists_hash (h : Consistent storageHash s) (hfind : find storageHash s x = some σ) :
    ∃ hash < s.nextHash, (s.hash hash).storage = σ := by
  obtain ⟨hash, hfound, hstorage⟩ := Option.map_eq_some_iff.1 hfind
  exact ⟨hash, h.table _ hash (List.mem_of_find?_eq_some hfound), hstorage⟩

theorem lt_of_find (h : Consistent storageHash s) (hfind : find storageHash s x = some σ) :
    σ < s.nextStorage := by
  obtain ⟨hash, hlt, rfl⟩ := h.exists_hash hfind
  exact h.allocated hash hlt

theorem type_of_find (h : Consistent storageHash s) (hfind : find storageHash s x = some σ) :
    (s.storage σ).type ≠ .regBad := by
  obtain ⟨hash, hlt, rfl⟩ := h.exists_hash hfind
  exact h.inUse hash hlt

theorem users_of_ge (h : Consistent storageHash s) (hσ : s.nextStorage ≤ σ) :
    (s.storage σ).users = [] := by
  refine List.eq_nil_iff_forall_not_mem.2 fun hash hmem => ?_
  obtain ⟨hlt, heq⟩ := (h.users σ hash).1 hmem
  exact Nat.not_lt.2 hσ (heq ▸ h.allocated hash hlt)

end Consistent

/-! ## The operations -/

theorem lookupStorage_fst (s : State) (key : Key) :
    (lookupStorage storageHash s key).1 = find storageHash s key := rfl

theorem find_lookupStorage (s : State) (key : Key) :
    find storageHash (lookupStorage storageHash s key).2 = find storageHash s := rfl

theorem lookupStorage_consistent (h : Consistent storageHash s) (key : Key) :
    Consistent storageHash (lookupStorage storageHash s key).2 where
  table := h.table
  users := h.users
  nodup := h.nodup
  allocated := h.allocated
  inUse := h.inUse
  returned hmem := by
    rcases List.mem_append.1 hmem with hmem | hmem
    · exact h.returned hmem
    · obtain ⟨storage, hfound, htype⟩ := List.mem_map.1 hmem
      exact h.type_of_find (Option.mem_toList.1 hfound) htype

/-- The walk along a list of entries. -/
def findIn (s : State) (key : Key) (hashes : List HashId) : Option StorageId :=
  (hashes.find? fun hash => (s.hash hash).key = key).map fun hash => (s.hash hash).storage

theorem findIn_congr {hashes : List HashId} (heq : ∀ hash ∈ hashes, s'.hash hash = s.hash hash) (key : Key) :
    findIn s' key hashes = findIn s key hashes := by
  have hfind : (hashes.find? fun hash => (s'.hash hash).key = key) =
      hashes.find? fun hash => (s.hash hash).key = key :=
    List.find?_congr fun hash hmem => by rw [heq hash hmem]
  rw [findIn, findIn, hfind]
  cases hfound : hashes.find? fun hash => (s.hash hash).key = key with
  | none => rfl
  | some hash => rw [Option.map_some, Option.map_some, heq hash (List.mem_of_find?_eq_some hfound)]

theorem findIn_append (key : Key) (hashes hashes' : List HashId) :
    findIn s key (hashes ++ hashes') = (findIn s key hashes).or (findIn s key hashes') := by
  rw [findIn, List.find?_append, Option.map_or]
  rfl

theorem findIn_singleton (key : Key) (hash : HashId) :
    findIn s key [hash] = if (s.hash hash).key = key then some (s.hash hash).storage else none := by
  rw [findIn, List.find?_singleton]
  by_cases h : (s.hash hash).key = key
  · rw [if_pos h, if_pos (decide_eq_true h), Option.map_some]
  · rw [if_neg h, if_neg (by simpa using h), Option.map_none]

/-- An entry behind those that are there is found where none of them is. -/
theorem find_addStorage (h : Consistent storageHash s) (σ : StorageId) (key : Key) :
    find storageHash (addStorage storageHash s σ key) =
      if find storageHash s key = none then Function.update (find storageHash s) key (some σ)
      else find storageHash s := by
  have hnew : (addStorage storageHash s σ key).hash s.nextHash = ⟨key, σ⟩ := Function.update_self ..
  have hold : ∀ k, ∀ hash ∈ s.table k, (addStorage storageHash s σ key).hash hash = s.hash hash :=
    fun k hash hmem => Function.update_of_ne (Nat.ne_of_lt (h.table k hash hmem)) ..
  have hother : ∀ other, find storageHash (addStorage storageHash s σ key) other =
      (find storageHash s other).or (if key = other then some σ else none) := by
    intro other
    show findIn _ other (Function.update s.table (storageHash key) (s.table (storageHash key) ++ [s.nextHash])
      (storageHash other)) = _
    by_cases hbucket : storageHash other = storageHash key
    · rw [hbucket, Function.update_self, findIn_append, findIn_congr (hold _), findIn_singleton, hnew, ← hbucket]
      rfl
    · have hne : key ≠ other := fun heq => hbucket (heq ▸ rfl)
      rw [Function.update_of_ne hbucket, findIn_congr (hold _), if_neg hne, Option.or_none]
      rfl
  funext other
  rw [hother]
  by_cases heq : key = other
  · subst heq
    rw [if_pos rfl]
    cases hfound : find storageHash s key with
    | none => rw [if_pos rfl, Function.update_self, Option.none_or]
    | some τ => rw [if_neg nofun, hfound, Option.some_or]
  · rw [if_neg heq, Option.or_none]
    split
    · rw [Function.update_of_ne (Ne.symm heq)]
    · rfl

/-- An entry in the table for an object that is allocated and not retired. -/
theorem addStorage_consistent (h : Consistent storageHash s) (hlt : σ < s.nextStorage)
    (htype : (s.storage σ).type ≠ .regBad) (key : Key) :
    Consistent storageHash (addStorage storageHash s σ key) := by
  have hnew : (addStorage storageHash s σ key).hash s.nextHash = ⟨key, σ⟩ := Function.update_self ..
  have hold : ∀ hash < s.nextHash, (addStorage storageHash s σ key).hash hash = s.hash hash :=
    fun hash hhash => Function.update_of_ne (Nat.ne_of_lt hhash) ..
  have hself : (addStorage storageHash s σ key).storage σ =
      { s.storage σ with users := (s.storage σ).users ++ [s.nextHash] } := Function.update_self ..
  have hother : ∀ storage, storage ≠ σ → (addStorage storageHash s σ key).storage storage = s.storage storage :=
    fun storage hne => Function.update_of_ne hne ..
  have htypes : ∀ storage, ((addStorage storageHash s σ key).storage storage).type = (s.storage storage).type := by
    intro storage
    rcases eq_or_ne storage σ with rfl | hne
    · rw [hself]
    · rw [hother storage hne]
  refine ⟨fun k hash hmem => ?_, fun storage hash => ?_, fun storage => ?_, fun hash hhash => ?_,
    fun hash hhash => ?_, h.returned⟩
  · have hmem' : hash ∈ s.table k ∨ hash = s.nextHash := by
      rcases eq_or_ne k (storageHash key) with rfl | hne
      · have htable : (addStorage storageHash s σ key).table (storageHash key) =
            s.table (storageHash key) ++ [s.nextHash] := Function.update_self ..
        rw [htable] at hmem
        simpa using hmem
      · have htable : (addStorage storageHash s σ key).table k = s.table k := Function.update_of_ne hne ..
        exact .inl (htable ▸ hmem)
    rcases hmem' with hmem' | rfl
    · exact Nat.lt_succ_of_lt (h.table k hash hmem')
    · exact Nat.lt_succ_self _
  · have hn : s.nextHash ∉ (s.storage storage).users := fun hmem =>
      Nat.lt_irrefl _ ((h.users storage s.nextHash).1 hmem).1
    have hlt' : hash < (addStorage storageHash s σ key).nextHash ↔ hash < s.nextHash ∨ hash = s.nextHash :=
      Nat.lt_succ_iff_lt_or_eq
    have husers : hash ∈ ((addStorage storageHash s σ key).storage storage).users ↔
        hash ∈ (s.storage storage).users ∨ (hash = s.nextHash ∧ storage = σ) := by
      rcases eq_or_ne storage σ with rfl | hne
      · rw [hself]
        simp
      · rw [hother storage hne]
        simp [hne]
    rw [husers, hlt', h.users]
    rcases eq_or_ne hash s.nextHash with rfl | hne
    · rw [hnew]
      simp [eq_comm]
    · simp only [hne, false_and, or_false]
      exact and_congr_right fun hhash => by rw [hold hash hhash]
  · rcases eq_or_ne storage σ with rfl | hne
    · rw [hself]
      refine List.nodup_append.2 ⟨h.nodup storage, List.nodup_singleton _, fun a ha b hb heq => ?_⟩
      rw [List.mem_singleton.1 hb] at heq
      exact Nat.lt_irrefl _ ((h.users storage s.nextHash).1 (heq ▸ ha)).1
    · rw [hother storage hne]
      exact h.nodup storage
  · rcases Nat.lt_succ_iff_lt_or_eq.1 hhash with hhash | rfl
    · rw [hold hash hhash]
      exact h.allocated hash hhash
    · rw [hnew]
      exact hlt
  · rw [htypes]
    rcases Nat.lt_succ_iff_lt_or_eq.1 hhash with hhash | rfl
    · rw [hold hash hhash]
      exact h.inUse hash hhash
    · rw [hnew]
      exact htype

/-- A new object, with no users yet. -/
theorem alloc_consistent (h : Consistent storageHash s) {object : StorageObject} (hobject : object.users = []) :
    Consistent storageHash
      { s with
        storage := Function.update s.storage s.nextStorage object
        nextStorage := s.nextStorage + 1 } := by
  have husers : ∀ storage,
      (Function.update s.storage s.nextStorage object storage).users = (s.storage storage).users := by
    intro storage
    rcases eq_or_ne storage s.nextStorage with rfl | hne
    · rw [Function.update_self, hobject, h.users_of_ge (Nat.le_refl _)]
    · rw [Function.update_of_ne hne]
  refine ⟨h.table, fun storage hash => ?_, fun storage => ?_, fun hash hhash => ?_, fun hash hhash => ?_,
    h.returned⟩
  · show hash ∈ (Function.update s.storage s.nextStorage object storage).users ↔ _
    rw [husers]
    exact h.users storage hash
  · show (Function.update s.storage s.nextStorage object storage).users.Nodup
    rw [husers]
    exact h.nodup storage
  · exact Nat.lt_succ_of_lt (h.allocated hash hhash)
  · show (Function.update s.storage s.nextStorage object (s.hash hash).storage).type ≠ _
    rw [Function.update_of_ne (Nat.ne_of_lt (h.allocated hash hhash))]
    exact h.inUse hash hhash

/-! ## Two objects become one -/

/-- The entries after the users of one object have been moved to another. -/
def moved (s : State) (dst : StorageId) (useps : List HashId) (hash : HashId) : StorageHash :=
  if hash ∈ useps then { s.hash hash with storage := dst } else s.hash hash

theorem moveUsers_eq {src dst : StorageId} {useps : List HashId}
    (hsrc : ∀ usep ∈ useps, (s.hash usep).storage = src) (hn : useps.Nodup) :
    moveUsers src dst s useps =
      some
        { s with
          hash := moved s dst useps
          storage := Function.update s.storage dst
            { s.storage dst with users := (s.storage dst).users ++ useps } } := by
  induction useps generalizing s with
  | nil =>
    rw [moveUsers, List.append_nil, Function.update_eq_self]
    rfl
  | cons usep useps ih =>
    obtain ⟨hnotin, hn'⟩ := List.nodup_cons.1 hn
    have hrest : ∀ other ∈ useps, other ≠ usep := fun other hmem heq => hnotin (heq ▸ hmem)
    have hsrc' : ∀ other ∈ useps,
        (Function.update s.hash usep { s.hash usep with storage := dst } other).storage = src := by
      intro other hmem
      rw [Function.update_of_ne (hrest other hmem)]
      exact hsrc other (List.mem_cons_of_mem _ hmem)
    have hhash : ∀ s₁ : State, s₁.hash = Function.update s.hash usep { s.hash usep with storage := dst } →
        moved s₁ dst useps = moved s dst (usep :: useps) := by
      intro s₁ heq
      funext hash
      rw [moved, moved, heq]
      rcases eq_or_ne hash usep with rfl | hne
      · rw [if_neg hnotin, if_pos List.mem_cons_self, Function.update_self]
      · simp only [Function.update_of_ne hne, List.mem_cons, hne, false_or]
    rw [moveUsers, if_pos (hsrc usep List.mem_cons_self), ih hsrc' hn', hhash _ rfl]
    simp only [addUser, Function.update_self, Function.update_idem, List.append_assoc, List.singleton_append]

/-- `combine_storage` gives the keys of one object the other; the assertion holds. -/
theorem combineStorage_eq (h : Consistent storageHash s) (src dst : StorageId) :
    combineStorage s src dst =
      some
        { s with
          hash := moved s dst (s.storage src).users
          storage := Function.update
            (Function.update s.storage dst
              { s.storage dst with users := (s.storage dst).users ++ (s.storage src).users })
            src
            { (Function.update s.storage dst
                { s.storage dst with users := (s.storage dst).users ++ (s.storage src).users } src) with
              type := .regBad, users := [] } } := by
  rw [combineStorage, moveUsers_eq (fun usep hmem => ((h.users src usep).1 hmem).2) (h.nodup src)]
  rfl

theorem combineStorage_fields (h : Consistent storageHash s) (hne : σ ≠ τ) :
    ∃ s', combineStorage s σ τ = some s' ∧
      (∀ hash, (s'.hash hash).key = (s.hash hash).key) ∧
      (∀ hash < s.nextHash, (s'.hash hash).storage =
        if (s.hash hash).storage = σ then τ else (s.hash hash).storage) ∧
      (s'.storage σ).users = [] ∧
      (s'.storage τ).users = (s.storage τ).users ++ (s.storage σ).users ∧
      (∀ storage, storage ≠ σ → storage ≠ τ → (s'.storage storage).users = (s.storage storage).users) ∧
      (∀ storage, storage ≠ σ → (s'.storage storage).type = (s.storage storage).type) ∧
      s'.table = s.table ∧ s'.nextHash = s.nextHash ∧ s'.nextStorage = s.nextStorage ∧
      s'.returned = s.returned ∧ s'.phiUsers = s.phiUsers := by
  refine ⟨_, combineStorage_eq h σ τ, fun hash => ?_, fun hash hhash => ?_, ?_, ?_, fun storage hσ hτ => ?_,
    fun storage hσ => ?_, rfl, rfl, rfl, rfl, rfl⟩
  · show (moved s τ (s.storage σ).users hash).key = _
    rw [moved]
    split
    · rfl
    · rfl
  · show (moved s τ (s.storage σ).users hash).storage = _
    have hmem : hash ∈ (s.storage σ).users ↔ (s.hash hash).storage = σ := by
      rw [h.users]
      exact and_iff_right hhash
    rw [moved]
    by_cases hsrc : (s.hash hash).storage = σ
    · rw [if_pos (hmem.2 hsrc), if_pos hsrc]
    · rw [if_neg (hmem.not.2 hsrc), if_neg hsrc]
  · simp only [Function.update_self]
  · simp only [Function.update_of_ne hne.symm, Function.update_self]
  · simp only [Function.update_of_ne hσ, Function.update_of_ne hτ]
  · rcases eq_or_ne storage τ with rfl | hτ
    · simp only [Function.update_of_ne hσ, Function.update_self]
    · simp only [Function.update_of_ne hσ, Function.update_of_ne hτ]

theorem combineStorage_spec (h : Consistent storageHash s) (hne : σ ≠ τ) (hτ : τ < s.nextStorage)
    (htype : (s.storage τ).type ≠ .regBad) :
    ∃ s', combineStorage s σ τ = some s' ∧ Consistent storageHash s' ∧
      find storageHash s' = merge (find storageHash s) σ τ ∧ s'.phiUsers = s.phiUsers := by
  obtain ⟨s', hs', hkey, hstorage, hσ, hτusers, hother, htypes, htable, hnext, hnextStorage, hreturned, hphi⟩ :=
    combineStorage_fields h hne
  refine ⟨s', hs', ⟨fun k hash hmem => ?_, fun storage hash => ?_, fun storage => ?_, fun hash hhash => ?_,
    fun hash hhash => ?_, hreturned ▸ h.returned⟩, ?_, hphi⟩
  · rw [htable] at hmem
    exact hnext ▸ h.table k hash hmem
  · rw [hnext]
    rcases eq_or_ne storage σ with rfl | hsrc
    · rw [hσ]
      refine ⟨fun hmem => absurd hmem List.not_mem_nil, fun ⟨hhash, heq⟩ => ?_⟩
      rw [hstorage hash hhash] at heq
      split at heq
      · exact absurd heq.symm hne
      · next hnot => exact absurd heq hnot
    · rcases eq_or_ne storage τ with rfl | hdst
      · rw [hτusers, List.mem_append, h.users, h.users]
        constructor
        · rintro (⟨hhash, heq⟩ | ⟨hhash, heq⟩)
          · refine ⟨hhash, ?_⟩
            rw [hstorage hash hhash, heq, if_neg hsrc]
          · refine ⟨hhash, ?_⟩
            rw [hstorage hash hhash, if_pos heq]
        · rintro ⟨hhash, heq⟩
          rw [hstorage hash hhash] at heq
          split at heq
          · next hold => exact .inr ⟨hhash, hold⟩
          · exact .inl ⟨hhash, heq⟩
      · rw [hother storage hsrc hdst, h.users]
        refine and_congr_right fun hhash => ?_
        rw [hstorage hash hhash]
        split
        · next hold =>
          rw [hold]
          exact ⟨fun heq => absurd heq.symm hsrc, fun heq => absurd heq.symm hdst⟩
        · exact Iff.rfl
  · rcases eq_or_ne storage σ with rfl | hsrc
    · rw [hσ]
      exact List.nodup_nil
    · rcases eq_or_ne storage τ with rfl | hdst
      · rw [hτusers]
        refine List.nodup_append.2 ⟨h.nodup storage, h.nodup σ, fun a ha b hb heq => ?_⟩
        rw [heq, h.users] at ha
        rw [h.users] at hb
        exact hne (hb.2.symm.trans ha.2)
      · rw [hother storage hsrc hdst]
        exact h.nodup storage
  · rw [hnext] at hhash
    rw [hstorage hash hhash, hnextStorage]
    split
    · exact hτ
    · exact h.allocated hash hhash
  · rw [hnext] at hhash
    rw [hstorage hash hhash]
    split
    · rw [htypes τ hne.symm]
      exact htype
    · next hnot =>
      rw [htypes _ hnot]
      exact h.inUse hash hhash
  · funext key
    show findIn s' key (s'.table (storageHash key)) = (findIn s key (s.table (storageHash key))).map _
    have hfind : ((s.table (storageHash key)).find? fun hash => (s'.hash hash).key = key) =
        (s.table (storageHash key)).find? fun hash => (s.hash hash).key = key :=
      List.find?_congr fun hash _ => by rw [hkey hash]
    rw [htable, findIn, findIn, hfind]
    cases hfound : (s.table (storageHash key)).find? fun hash => (s.hash hash).key = key with
    | none => rfl
    | some hash =>
      rw [Option.map_some, Option.map_some, Option.map_some,
        hstorage hash (h.table _ hash (List.mem_of_find?_eq_some hfound))]

end Sparse.Storage
