import Sparse.Liveness

/-!
# Storage of pseudos between blocks

`storage.c` gives each pseudo that is live across an edge a storage object at both ends
of the edge. A storage object knows the entries of the hash table that hold it, and two
objects become one by rewriting those entries.
-/

namespace Sparse.Storage

/-- `enum storage_type`. -/
inductive StorageType
  | regUdef | regReg | regStack | regFrame | regSym | regArg | regBad
  deriving DecidableEq, Repr

/-- `enum inout_enum`. -/
inductive Inout
  | storIn | storOut
  deriving DecidableEq, Repr

/-- The name of a `struct storage`. -/
abbrev StorageId := ℕ

/-- The name of a `struct storage_hash`, and of its field `storage`. -/
abbrev HashId := ℕ

/-- `struct storage`. -/
structure StorageObject where
  type : StorageType := .regUdef
  regno : ℕ := 0
  name : ℕ := 0
  users : List HashId := []
  deriving DecidableEq, Repr

/-- What an entry is for. -/
structure Key where
  bb : BlockId
  pseudo : Pseudo
  inout : Inout
  deriving DecidableEq, Repr

/-- `struct storage_hash`. -/
structure StorageHash where
  key : Key
  storage : StorageId
  deriving DecidableEq, Repr

/-- The table and the objects. Names from `nextHash` and `nextStorage` on are not allocated.
`returned` is not in the source: the types of the objects that lookups have returned so far. -/
structure State where
  hash : HashId → StorageHash
  storage : StorageId → StorageObject
  table : ℕ → List HashId
  phiUsers : InsnId → List InsnId
  nextHash : ℕ
  nextStorage : ℕ
  returned : List StorageType

/-- The state before the first function, with the phi nodes that each phi source feeds. -/
def State.initial (phiUsers : InsnId → List InsnId) : State where
  hash _ := ⟨⟨0, .null, .storIn⟩, 0⟩
  storage _ := {}
  table _ := []
  phiUsers := phiUsers
  nextHash := 0
  nextStorage := 0
  returned := []

/-- `MAX_STORAGE_HASH`. -/
def maxStorageHash : ℕ := 64

section

-- the hash value of a key, which depends on addresses
variable (storageHash : Key → ℕ)

/-- The walk of `lookup_storage`. -/
def find (s : State) (key : Key) : Option StorageId :=
  ((s.table (storageHash key)).find? fun hash => (s.hash hash).key = key).map fun hash => (s.hash hash).storage

/-- `lookup_storage`. -/
def lookupStorage (s : State) (key : Key) : Option StorageId × State :=
  let found := find storageHash s key
  (found, { s with returned := s.returned ++ found.toList.map fun storage => (s.storage storage).type })

/-- `alloc_storage`. -/
def allocStorage (s : State) : State × StorageId :=
  ({ s with
      storage := Function.update s.storage s.nextStorage {}
      nextStorage := s.nextStorage + 1 }, s.nextStorage)

/-- `add_ptr_list(&storage->users, usep)`. -/
def addUser (s : State) (storage : StorageId) (usep : HashId) : State :=
  { s with
    storage := Function.update s.storage storage
      { s.storage storage with users := (s.storage storage).users ++ [usep] } }

/-- `add_storage`. -/
def addStorage (s : State) (storage : StorageId) (key : Key) : State :=
  let hash := s.nextHash
  let s := addUser s storage hash
  { s with
    hash := Function.update s.hash hash ⟨key, storage⟩
    nextHash := hash + 1
    table := Function.update s.table (storageHash key) (s.table (storageHash key) ++ [hash]) }

end

/-- The loop of `combine_storage`; it fails where the assertion does. -/
def moveUsers (src dst : StorageId) : State → List HashId → Option State
  | s, [] => some s
  | s, usep :: useps =>
    if (s.hash usep).storage = src then
      moveUsers src dst
        (addUser { s with hash := Function.update s.hash usep { s.hash usep with storage := dst } } dst usep)
        useps
    else none

/-- `combine_storage`. -/
def combineStorage (s : State) (src dst : StorageId) : Option State :=
  (moveUsers src dst s (s.storage src).users).map fun s =>
    { s with storage := Function.update s.storage src { s.storage src with type := .regBad, users := [] } }

section

variable (storageHash : Key → ℕ)

/-- The body of the loops of `set_up_bb_storage`. -/
def setUpPseudo (bb child : BlockId) (s : State) (pseudo : Pseudo) : Option State :=
  let (parentOut, s) := lookupStorage storageHash s ⟨bb, pseudo, .storOut⟩
  let (childIn, s) := lookupStorage storageHash s ⟨child, pseudo, .storIn⟩
  match parentOut, childIn with
  | some parentOut, none => some (addStorage storageHash s parentOut ⟨child, pseudo, .storIn⟩)
  | some parentOut, some childIn =>
    if parentOut = childIn then some s else combineStorage s parentOut childIn
  | none, some childIn => some (addStorage storageHash s childIn ⟨bb, pseudo, .storOut⟩)
  | none, none =>
    let (s, parentOut) := allocStorage s
    let s := addStorage storageHash s parentOut ⟨bb, pseudo, .storOut⟩
    some (addStorage storageHash s parentOut ⟨child, pseudo, .storIn⟩)

/-- `set_up_bb_storage`. -/
def setUpBbStorage (ir : Ir) (s : State) (bb : BlockId) : Option State :=
  (ir.block bb).children.foldlM
    (fun s child => (ir.block child).needs.foldlM (setUpPseudo storageHash bb child) s) s

/-- The body of the loop of `set_up_argument_storage`. -/
def setUpArgument (bb : BlockId) (s : State) (arg : Pseudo) : State :=
  let (s, storage) := allocStorage s
  let s :=
    match arg with
    | .arg nr => { s with storage := Function.update s.storage storage { type := .regArg, regno := nr } }
    | _ => s
  addStorage storageHash s storage ⟨bb, arg, .storIn⟩

/-- `set_up_argument_storage`. -/
def setUpArgumentStorage (ir : Ir) (s : State) (bb : BlockId) : State :=
  (ir.block bb).needs.foldl (setUpArgument storageHash bb) s

/-- The loop over the users of one phi source, with `last` and the users that stay in the list. -/
def combinePhiUsers (ir : Ir) (bb : BlockId) :
    State → Option StorageId → List InsnId → Option (State × List InsnId)
  | s, _, [] => some (s, [])
  | s, last, phi :: phis =>
    match lookupStorage storageHash s ⟨bb, (ir.insn phi).target, .storOut⟩ with
    | (none, s) => combinePhiUsers ir bb s last phis
    | (some storage, s) =>
      match last with
      | some last =>
        if storage ≠ last then
          match combineStorage s storage last with
          | none => none
          | some s => (combinePhiUsers ir bb s (some last) phis).map fun r => (r.1, phi :: r.2)
        else (combinePhiUsers ir bb s (some storage) phis).map fun r => (r.1, phi :: r.2)
      | none => (combinePhiUsers ir bb s (some storage) phis).map fun r => (r.1, phi :: r.2)

/-- The body of the loop of `combine_phi_storage`. -/
def combinePhi (ir : Ir) (bb : BlockId) (s : State) (insn : InsnId) : Option State :=
  if (ir.insn insn).bb = none ∨ (ir.insn insn).opcode ≠ .phisource then some s
  else
    (combinePhiUsers storageHash ir bb s none (s.phiUsers insn)).map fun r =>
      { r.1 with phiUsers := Function.update r.1.phiUsers insn r.2 }

/-- `combine_phi_storage`. -/
def combinePhiStorage (ir : Ir) (s : State) (bb : BlockId) : Option State :=
  (ir.block bb).insns.foldlM (combinePhi storageHash ir bb) s

end

/-- The body of the loops of `name_storage`. -/
def nameOne (s : State × ℕ) (hash : HashId) : State × ℕ :=
  let storage := (s.1.hash hash).storage
  if (s.1.storage storage).name ≠ 0 then s
  else
    ({ s.1 with storage := Function.update s.1.storage storage { s.1.storage storage with name := s.2 + 1 } },
      s.2 + 1)

/-- `name_storage`. -/
def nameStorage (s : State) : State :=
  (((List.range maxStorageHash).flatMap s.table).foldl nameOne (s, 0)).1

/-- `set_up_storage`. -/
def setUpStorage (storageHash : Key → ℕ) (ir : Ir) (s : State) : Option State :=
  match (ir.insn ir.entry).bb with
  | none => none
  | some bb =>
    (ir.bbs.foldlM
      (fun s bb => (setUpBbStorage storageHash ir s bb).bind fun s => combinePhiStorage storageHash ir s bb)
      (setUpArgumentStorage storageHash ir s bb)).map nameStorage

/-! ## The users of phi sources -/

/-- `track_phi_uses`. -/
def trackPhiUses (ir : Ir) (users : InsnId → List InsnId) (insn : InsnId) : InsnId → List InsnId :=
  (ir.insn insn).phiList.foldl
    (fun users phi =>
      if ir.cell phi = .void then users
      else
        match ir.definition (ir.cell phi) with
        | none => users
        | some d => Function.update users d (users d ++ [insn]))
    users

/-- `track_bb_phi_uses`. -/
def trackBbPhiUses (ir : Ir) (users : InsnId → List InsnId) (bb : BlockId) : InsnId → List InsnId :=
  (ir.block bb).insns.foldl
    (fun users insn =>
      if (ir.insn insn).bb ≠ none ∧ (ir.insn insn).opcode = .phi then trackPhiUses ir users insn else users)
    users

/-- The first loop of `track_pseudo_death`. -/
def phiUsers (ir : Ir) : InsnId → List InsnId :=
  ir.bbs.foldl (trackBbPhiUses ir) fun _ => []

end Sparse.Storage
