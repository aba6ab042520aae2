import Sparse.DepthFirstWalks
import Sparse.UseListInvariant

/-!
# The search for dominating stores

Before a load is replaced, the blocks above it are searched for the stores and loads that it can
take its value from. The search puts a phi source into a parent as soon as it finds one there, and
it may give up in a parent that it looks at later. What it leaves behind then is decided by the
order of the walk over the blocks as they were before.
-/

namespace Sparse

open DepthFirstWalks

/-- `bytes_to_bits`, for the offsets of memory operations. -/
def Instruction.startBit (insn : Instruction) : BitVec 32 := insn.offset * 8

/-- `overlapping_memop`. The sums wrap as unsigned integers. -/
def overlappingMemop (a b : Instruction) : Bool :=
  if BitVec.ofNat 32 a.size + a.startBit ≤ b.startBit then false
  else if BitVec.ofNat 32 b.size + b.startBit ≤ a.startBit then false
  else true

/-- `same_memop`. -/
def sameMemop (a b : Instruction) : Bool := a.offset = b.offset && a.size = b.size

/-- The answers 0, 1 and -1 of `dominates`. -/
inductive Dominance
  | no | yes | unknown
  deriving DecidableEq, Repr

/-- What the scan of a parent comes to: `return 0`, `no_dominance` or `found_dominator`. -/
inductive Scan
  | giveUp
  | nothing
  | found (one : InsnId)
  deriving DecidableEq, Repr

namespace Ir

/-- `dominates`: does `dom` decide what the access of `i` to `pseudo` finds? -/
def dominates (ir : Ir) (pseudo : Pseudo) (i dom : InsnId) (isLocal : Bool) : Dominance :=
  let insn := ir.insn i
  let dom := ir.insn dom
  if dom.opcode = .call ∨ dom.opcode = .entry then
    if isLocal then .no else .unknown
  else if dom.opcode ≠ .load ∧ dom.opcode ≠ .store then .no
  else if dom.src1 ≠ pseudo then
    if isLocal then .no
    -- two explicitly different symbols never alias
    else if dom.src1.isSym then .no
    else .unknown
  else if !sameMemop insn dom then
    if dom.opcode = .load then .no
    else if !overlappingMemop insn dom then .no
    else .unknown
  else .yes

section Search

variable (pseudo : Pseudo) (i : InsnId) (isLocal : Bool)

/-- The loop over the instructions of a parent, given from the last one on. -/
def scanParent (ir : Ir) (loads : Bool) : List InsnId → Scan
  | [] => .nothing
  | one :: rest =>
    if one = i then .nothing
    else
      match ir.dominates pseudo i one isLocal with
      | .unknown => if (ir.insn one).opcode = .load then scanParent ir loads rest else .giveUp
      | .no => scanParent ir loads rest
      | .yes =>
        if (ir.insn one).opcode = .load ∧ loads = false then scanParent ir loads rest
        else .found one

variable (generation : ℕ)

/-- The loop over the parents of a block. -/
def visitParents (search : Ir × List CellId → BlockId → (Ir × List CellId) × Bool) (loads : Bool) :
    Ir × List CellId → List BlockId → (Ir × List CellId) × Bool
  | s, [] => (s, true)
  | s, parent :: parents =>
    match s.1.scanParent pseudo i isLocal loads (s.1.block parent).insns.reverse with
    | .giveUp => (s, false)
    | .nothing =>
      if (s.1.block parent).generation = generation then visitParents search loads s parents
      else
        match search (s.1.setBlock parent ({ · with generation := generation }), s.2) parent with
        | (s, true) => visitParents search loads s parents
        | (s, false) => (s, false)
    | .found one =>
      let (ir, c) := s.1.addDominator i parent (s.1.insn one).target (s.1.insn one).size
      visitParents search loads (ir, s.2 ++ [c]) parents

/-- The search from a block; `orphan` is the answer for a block without parents. The fuel bounds
the depth of the recursion. -/
def searchParents (orphan : Bool) :
    ℕ → Ir × List CellId → BlockId → Bool → (Ir × List CellId) × Bool
  | 0, s, _, _ => (s, true)
  | fuel + 1, s, bb, loads =>
    let parents := (s.1.block bb).parents
    let loads := loads && decide (parents.length ≤ 1)
    if parents = [] then (s, orphan)
    else
      visitParents pseudo i isLocal generation
        (fun s parent => searchParents orphan fuel s parent loads) loads s parents

/-- `find_dominating_parents`. -/
def findDominatingParents (s : Ir × List CellId) (bb : BlockId) (loads : Bool) :
    (Ir × List CellId) × Bool :=
  searchParents pseudo i isLocal generation isLocal (s.1.nextBlock + 1) s bb loads

/-- `find_dominating_parents_mem`: the same search, but a block without parents counts as one
that the walk came to the end of. -/
def findDominatingParentsMem (s : Ir × List CellId) (bb : BlockId) (loads : Bool) :
    (Ir × List CellId) × Bool :=
  searchParents pseudo i isLocal generation true (s.1.nextBlock + 1) s bb loads

/-- What both callers make of a search: they replace the load if the search came to its end and
the value is known. The second component tells whether the load was replaced. -/
def useDominators : (Ir × List CellId) × Bool → Ir × Bool
  | ((ir, _), false) => (ir, false)
  | ((ir, []), true) => if isLocal then (ir.convertLoadInstruction i (.val 0), true) else (ir, false)
  | ((ir, dominators), true) => (ir.rewriteLoadInstruction i dominators, true)

/-- The loop of `find_dominating_stores` over the block of the load: the last access before the load
that dominates it, and whether something after that access may touch the same memory. -/
def scanBlock (ir : Ir) : Option InsnId → Bool → List InsnId → Option (Option InsnId × Bool)
  | _, _, [] => none
  | dom, unsure, one :: rest =>
    if one = i then some (dom, unsure)
    else
      match ir.dominates pseudo i one isLocal with
      | .unknown =>
        if (ir.insn one).opcode = .load then scanBlock ir dom unsure rest
        else scanBlock ir none true rest
      | .no => scanBlock ir dom unsure rest
      | .yes => scanBlock ir (some one) false rest

/-- `find_dominating_stores`. The second component is what it returns. -/
def findDominatingStores (ir : Ir) : Ir × Bool :=
  match (ir.insn i).bb with
  | none => (ir.setInsn i ({ · with opcode := .lnop }), true)
  | some bb =>
    match ir.scanBlock pseudo i isLocal none false (ir.block bb).insns with
    | none | some (_, true) => (ir, false)
    | some (some dom, false) => (ir.convertLoadInstruction i (ir.insn dom).target, true)
    | some (none, false) =>
      useDominators i isLocal (findDominatingParents pseudo i isLocal generation
        (ir.setBlock bb ({ · with generation := generation }), []) bb true)

end Search

/-- `address_taken`. -/
def addressTaken (ir : Ir) (pseudo : Pseudo) : Bool :=
  (ir.users pseudo).any (fun pu =>
    ir.live pu.insn && (ir.insn pu.insn).opcode != .load && (ir.insn pu.insn).opcode != .store)

/-- `local_pseudo`; `visible` tells which symbols are static or not local. -/
def localPseudo (ir : Ir) (visible : SymbolId → Bool) (pseudo : Pseudo) : Bool :=
  match pseudo with
  | .sym symbol => !visible symbol && !ir.addressTaken pseudo
  | _ => false

/-- The loop of `simplify_loads` over what stands before a load, given from the nearest on. -/
def scanAbove (ir : Ir) (pseudo : Pseudo) (i : InsnId) (isLocal : Bool) : List InsnId → Scan
  | [] => .nothing
  | dom :: rest =>
    if (ir.insn dom).bb = none then scanAbove ir pseudo i isLocal rest
    else
      match ir.dominates pseudo i dom isLocal with
      | .no => scanAbove ir pseudo i isLocal rest
      | .unknown =>
        if (ir.insn dom).opcode = .load then scanAbove ir pseudo i isLocal rest else .giveUp
      | .yes => .found dom

/-- What `simplify_loads` does about one load. The second component tells whether the load was
replaced. -/
def simplifyLoad (ir : Ir) (visible : SymbolId → Bool) (bb : BlockId) (i : InsnId) : Ir × Bool :=
  let pseudo := (ir.insn i).src1
  let isLocal := ir.localPseudo visible pseudo
  match ir.scanAbove pseudo i isLocal ((ir.block bb).insns.takeWhile (· ≠ i)).reverse with
  | .giveUp => (ir, false)
  | .found dom => (ir.convertLoadInstruction i (ir.insn dom).target, true)
  | .nothing =>
    let generation := ir.bbGeneration + 1
    useDominators i isLocal (findDominatingParentsMem pseudo i isLocal generation
      ({ ir with bbGeneration := generation }.setBlock bb ({ · with generation := generation }), [])
      bb true)

end Ir

/-! ## The walk over the blocks as they were -/

/-- The walk of the search over blocks that stay as they are: what the scan of a parent comes to
decides whether the walk gives up, passes the parent by or goes on to what is above it. A node is a
block with the flag `loads` that the walk reaches it with. -/
def Ir.parentPlan (ir : Ir) (pseudo : Pseudo) (i : InsnId) (isLocal orphan : Bool) :
    Plan (BlockId × Bool) BlockId where
  vertex := Prod.fst
  edges n :=
    let parents := (ir.block n.1).parents
    parents.map (fun parent => (parent, n.2 && decide (parents.length ≤ 1)))
  look n :=
    match ir.scanParent pseudo i isLocal n.2 (ir.block n.1).insns.reverse with
    | .giveUp => .giveUp
    | .nothing => .enter
    | .found _ => .pass
  shut n := decide ((ir.block n.1).parents = []) && !orphan

/-- The walk from a block, with the marks that the blocks have. -/
def Ir.parentWalk (ir : Ir) (pseudo : Pseudo) (i : InsnId) (isLocal orphan : Bool) (generation : ℕ)
    (bb : BlockId) (loads : Bool) : Outcome (BlockId × Bool) BlockId :=
  (ir.parentPlan pseudo i isLocal orphan).walk (ir.nextBlock + 1)
    (fun b => decide ((ir.block b).generation = generation)) (bb, loads)

/-- Only the generation marks of blocks differ. -/
structure OnlyMarks (ir ir' : Ir) : Prop where
  frame : ir' = { ir with block := ir'.block }
  block : ∀ b, ir'.block b = { ir.block b with generation := (ir'.block b).generation }

/-- What a search that comes to nothing has to leave alone: the instruction lists, the use lists
and the load. -/
structure LeavesCode (i : InsnId) (ir ir' : Ir) : Prop where
  insns : ∀ b, (ir'.block b).insns = (ir.block b).insns
  users : ir'.users = ir.users
  load : ir'.insn i = ir.insn i

namespace OnlyMarks

variable {ir ir' : Ir}

theorem refl (ir : Ir) : OnlyMarks ir ir := ⟨rfl, fun _ => rfl⟩

theorem setGeneration (h : OnlyMarks ir ir') (b : BlockId) (generation : ℕ) :
    OnlyMarks ir (ir'.setBlock b ({ · with generation := generation })) where
  frame := by rw [h.frame]; rfl
  block x := by
    by_cases hx : x = b
    · subst hx
      simp only [Ir.setBlock_block, Function.update_self]
      rw [h.block x]
    · simpa [hx] using h.block x

theorem leavesCode (h : OnlyMarks ir ir') (i : InsnId) : LeavesCode i ir ir' where
  insns b := by rw [h.block b]
  users := by rw [h.frame]
  load := by rw [h.frame]

end OnlyMarks

theorem dropLast_append_getLast {α : Type*} (l : List α) : l.dropLast ++ l.getLast?.toList = l := by
  rw [List.dropLast_eq_take, List.take_append_getLast?]

/-- What one dominator adds to the blocks and the instructions. -/
theorem Ir.addDominator_spec (ir : Ir) (i : InsnId) (parent : BlockId) (p : Pseudo) (size : ℕ) :
    let ir' := (ir.addDominator i parent p size).1
    (∀ j, j ≠ ir.nextInsn → ir'.insn j = ir.insn j) ∧
      (ir'.insn ir.nextInsn).opcode = .phisource ∧ ir'.nextInsn = ir.nextInsn + 1 ∧
      ir'.nextBlock = ir.nextBlock ∧ ir'.block = (ir.setBlock parent (fun b =>
        { b with insns := b.insns.dropLast ++ ir.nextInsn :: b.insns.getLast?.toList })).block := by
  simp only [addDominator, allocPhi, deleteLastInstruction, usePseudo_rest]
  refine ⟨fun j hj => ?_, ?_, ?_, ?_, ?_⟩
  · simp [assign, usePseudo_rest, hj]
  · simp [assign, usePseudo_rest]
  · simp [usePseudo_rest]
  · simp [usePseudo_rest]
  · simp [usePseudo_rest, lastInstruction]

/-- A search under way, next to the walk over the blocks as they were: the marks are the same, and
the code has the old instructions and `found` new phi sources. -/
structure Tracks (ir₀ : Ir) (generation : ℕ) (marks : BlockId → Bool) (found : ℕ)
    (s : Ir × List CellId) : Prop where
  marks : ∀ b, marks b = decide ((s.1.block b).generation = generation)
  parents : ∀ b, (s.1.block b).parents = (ir₀.block b).parents
  nextInsn : ir₀.nextInsn ≤ s.1.nextInsn
  old : ∀ j < ir₀.nextInsn, s.1.insn j = ir₀.insn j
  new : ∀ j, ir₀.nextInsn ≤ j → j < s.1.nextInsn → (s.1.insn j).opcode = .phisource
  insns : ∀ b, (s.1.block b).insns.filter (· < ir₀.nextInsn) = (ir₀.block b).insns
  allocated : ∀ b, ∀ j ∈ (s.1.block b).insns, j < s.1.nextInsn
  dominators : s.2.length = found
  clean : found = 0 → OnlyMarks ir₀ s.1
  grown : found ≠ 0 → ∃ b, ∃ j ∈ (s.1.block b).insns, ir₀.nextInsn ≤ j

namespace Tracks

variable {ir₀ : Ir} {generation : ℕ} {marks : BlockId → Bool} {found : ℕ} {s : Ir × List CellId}

theorem start (hall : ∀ b, ∀ j ∈ (ir₀.block b).insns, j < ir₀.nextInsn) (generation : ℕ) :
    Tracks ir₀ generation (fun b => decide ((ir₀.block b).generation = generation)) 0 (ir₀, []) where
  marks _ := rfl
  parents _ := rfl
  nextInsn := Nat.le_refl _
  old _ _ := rfl
  new _ hj hj' := absurd hj (Nat.not_le.mpr hj')
  insns b := List.filter_eq_self.mpr (fun j hj => decide_eq_true (hall b j hj))
  allocated := hall
  dominators := rfl
  clean _ := OnlyMarks.refl ir₀
  grown h := absurd rfl h

theorem mark (h : Tracks ir₀ generation marks found s) (parent : BlockId) :
    Tracks ir₀ generation (Function.update marks parent true) found
      (s.1.setBlock parent ({ · with generation := generation }), s.2) where
  marks b := by
    by_cases hb : b = parent
    · subst hb; simp
    · simpa [hb] using h.marks b
  parents b := by
    by_cases hb : b = parent
    · subst hb; simpa using h.parents b
    · simpa [hb] using h.parents b
  nextInsn := h.nextInsn
  old := h.old
  new := h.new
  insns b := by
    by_cases hb : b = parent
    · subst hb; simpa using h.insns b
    · simpa [hb] using h.insns b
  allocated b := by
    by_cases hb : b = parent
    · subst hb; simpa using h.allocated b
    · simpa [hb] using h.allocated b
  dominators := h.dominators
  clean hf := (h.clean hf).setGeneration parent generation
  grown hf := by
    obtain ⟨b, j, hj, hnew⟩ := h.grown hf
    refine ⟨b, j, ?_, hnew⟩
    by_cases hb : b = parent
    · subst hb; simpa using hj
    · simpa [hb] using hj

theorem add (h : Tracks ir₀ generation marks found s) (i : InsnId) (parent : BlockId) (p : Pseudo)
    (size : ℕ) :
    Tracks ir₀ generation marks (found + 1)
      ((s.1.addDominator i parent p size).1, s.2 ++ [(s.1.addDominator i parent p size).2]) := by
  obtain ⟨hinsn, hnew, hnext, -, hblock⟩ := s.1.addDominator_spec i parent p size
  set ir' := (s.1.addDominator i parent p size).1
  have hne : ∀ b, b ≠ parent → ir'.block b = s.1.block b := fun b hb => by simp [hblock, hb]
  have hself : ir'.block parent = { s.1.block parent with
      insns := (s.1.block parent).insns.dropLast ++
        s.1.nextInsn :: (s.1.block parent).insns.getLast?.toList } := by simp [hblock]
  have hmem : ∀ j, j ∈ (ir'.block parent).insns ↔
      j = s.1.nextInsn ∨ j ∈ (s.1.block parent).insns := by
    intro j
    conv_rhs => rw [← dropLast_append_getLast (s.1.block parent).insns]
    simp [hself, or_left_comm]
  refine ⟨fun b => ?_, fun b => ?_, ?_, fun j hj => ?_, fun j hj hj' => ?_, fun b => ?_,
    fun b j hj => ?_, ?_, fun h0 => absurd h0 (Nat.succ_ne_zero _), fun _ => ?_⟩
  · by_cases hb : b = parent
    · subst hb; simpa [hself] using h.marks b
    · simpa [hne b hb] using h.marks b
  · by_cases hb : b = parent
    · subst hb; simpa [hself] using h.parents b
    · simpa [hne b hb] using h.parents b
  · exact hnext ▸ Nat.le_succ_of_le h.nextInsn
  · rw [hinsn j (Nat.ne_of_lt (Nat.lt_of_lt_of_le hj h.nextInsn))]
    exact h.old j hj
  · by_cases hjn : j = s.1.nextInsn
    · exact hjn ▸ hnew
    · rw [hinsn j hjn]
      have hlt : j < s.1.nextInsn + 1 := hnext ▸ hj'
      exact h.new j hj (Nat.lt_of_le_of_ne (Nat.lt_succ_iff.mp hlt) hjn)
  · by_cases hb : b = parent
    · subst hb
      rw [← h.insns b]
      conv_rhs => rw [← dropLast_append_getLast (s.1.block b).insns]
      simp [hself, List.filter_append, Nat.not_lt.mpr h.nextInsn]
    · simpa [hne b hb] using h.insns b
  · rw [hnext]
    by_cases hb : b = parent
    · subst hb
      rcases (hmem j).mp hj with rfl | hj
      · exact Nat.lt_succ_self _
      · exact Nat.lt_succ_of_lt (h.allocated b j hj)
    · exact Nat.lt_succ_of_lt (h.allocated b j (hne b hb ▸ hj))
  · simp [h.dominators]
  · exact ⟨parent, s.1.nextInsn, (hmem _).mpr (Or.inl rfl), h.nextInsn⟩

/-- Phi sources decide nothing about a load. -/
theorem scanParent_eq (h : Tracks ir₀ generation marks found s) {i : InsnId} (hi : i < ir₀.nextInsn)
    (pseudo : Pseudo) (isLocal loads : Bool) (b : BlockId) :
    s.1.scanParent pseudo i isLocal loads (s.1.block b).insns.reverse =
      ir₀.scanParent pseudo i isLocal loads (ir₀.block b).insns.reverse := by
  suffices hlist : ∀ js : List InsnId, (∀ j ∈ js, j < s.1.nextInsn) →
      s.1.scanParent pseudo i isLocal loads js =
        ir₀.scanParent pseudo i isLocal loads (js.filter (· < ir₀.nextInsn)) by
    rw [← h.insns b, ← List.filter_reverse]
    exact hlist _ (fun j hj => h.allocated b j (List.mem_reverse.mp hj))
  intro js hjs
  induction js with
  | nil => rfl
  | cons one rest ih =>
    have ih := ih (fun j hj => hjs j (List.mem_cons_of_mem one hj))
    by_cases hone : one < ir₀.nextInsn
    · rw [List.filter_cons_of_pos (by simpa using hone)]
      simp only [Ir.scanParent, Ir.dominates, h.old one hone, h.old i hi, ih]
    · have hop := h.new one (Nat.not_lt.mp hone) (hjs one List.mem_cons_self)
      have hne : one ≠ i := fun he => hone (he ▸ hi)
      rw [List.filter_cons_of_neg (by simpa using hone), ← ih]
      simp [Ir.scanParent, Ir.dominates, hop, hne]

end Tracks

/-! ## The search and the walk -/

section

variable {ir : Ir} {i : InsnId} {generation : ℕ} (pseudo : Pseudo) (isLocal orphan : Bool)

/-- The nodes of a walk at which a dominator was found. -/
def Ir.foundAt (ir : Ir) (pseudo : Pseudo) (i : InsnId) (isLocal orphan : Bool)
    (looked : List (BlockId × Bool)) : ℕ :=
  looked.countP (fun n => (ir.parentPlan pseudo i isLocal orphan).look n = .pass)

/-- A search from a block, from any point of the whole search on, does what the walk does. -/
theorem Tracks.searchParents (hi : i < ir.nextInsn) (fuel : ℕ) {marks : BlockId → Bool} {found : ℕ}
    {s : Ir × List CellId} (h : Tracks ir generation marks found s) (bb : BlockId) (loads : Bool) :
    let r := Ir.searchParents pseudo i isLocal generation orphan fuel s bb loads
    let w := (ir.parentPlan pseudo i isLocal orphan).walk fuel marks (bb, loads)
    r.2 = w.finished ∧
      Tracks ir generation w.marks (found + ir.foundAt pseudo i isLocal orphan w.looked) r.1 := by
  induction fuel generalizing marks found s bb loads with
  | zero => exact ⟨rfl, by simpa [Ir.foundAt, Plan.walk, Ir.searchParents] using h⟩
  | succ fuel ih =>
    set plan := ir.parentPlan pseudo i isLocal orphan with hplan
    simp only [Ir.searchParents, Plan.walk, h.parents bb]
    by_cases hp : (ir.block bb).parents = []
    · cases orphan with
      | true => simpa [hp, plan, Ir.parentPlan, Plan.follow, Ir.foundAt] using h
      | false => simpa [hp, plan, Ir.parentPlan, Ir.foundAt] using h
    · set flag := loads && decide ((ir.block bb).parents.length ≤ 1) with hflag
      have hshut : plan.shut (bb, loads) = false := by simp [plan, Ir.parentPlan, hp]
      have hedges : plan.edges (bb, loads) = (ir.block bb).parents.map (·, flag) := rfl
      rw [if_neg hp, hshut, hedges]
      simp only [Bool.false_eq_true, if_false]
      generalize (ir.block bb).parents = parents
      induction parents generalizing marks found s with
      | nil => simpa [Ir.visitParents, Plan.follow, Ir.foundAt] using h
      | cons parent parents ihp =>
        have hscan := h.scanParent_eq hi pseudo isLocal flag parent
        have hlook : plan.look (parent, flag) =
            match ir.scanParent pseudo i isLocal flag (ir.block parent).insns.reverse with
            | .giveUp => .giveUp
            | .nothing => .enter
            | .found _ => .pass := rfl
        simp only [List.map_cons, Ir.visitParents, Plan.follow, hscan, hlook]
        cases hs : ir.scanParent pseudo i isLocal flag (ir.block parent).insns.reverse with
        | giveUp =>
          rw [hs] at hlook
          simpa [Ir.foundAt, ← hplan, hlook] using h
        | nothing =>
          rw [hs] at hlook
          have hmark := h.marks parent
          have hvertex : plan.vertex (parent, flag) = parent := rfl
          simp only [hvertex, hmark, decide_eq_true_eq]
          by_cases hg : (s.1.block parent).generation = generation
          · simpa [hg, Ir.foundAt, ← hplan, hlook] using ihp h
          · obtain ⟨hfin, ht⟩ := ih (h.mark parent) parent flag
            rw [if_neg hg, if_neg hg, ← hfin]
            cases hr : Ir.searchParents pseudo i isLocal generation orphan fuel
                (s.1.setBlock parent ({ · with generation := generation }), s.2) parent flag with
            | mk s' ok =>
              rw [hr] at ht
              cases ok with
              | true =>
                simpa [Ir.foundAt, ← hplan, hlook, Nat.add_assoc] using ihp ht
              | false =>
                rw [hr] at hfin
                simpa [Ir.foundAt, ← hplan, hlook, ← hfin] using ht
        | found one =>
          rw [hs] at hlook
          have ht := ihp (h.add i parent (s.1.insn one).target (s.1.insn one).size)
          simpa [Ir.foundAt, ← hplan, hlook, Nat.add_assoc, Nat.add_comm 1] using ht

/-- Where the walk over the unchanged blocks gives up, it has found nothing before. -/
def Ir.NothingFoundBefore (ir : Ir) (pseudo : Pseudo) (i : InsnId) (isLocal orphan : Bool)
    (generation : ℕ) (bb : BlockId) (loads : Bool) : Prop :=
  (ir.parentWalk pseudo i isLocal orphan generation bb loads).finished = false →
    ∀ n ∈ (ir.parentWalk pseudo i isLocal orphan generation bb loads).looked,
      (ir.parentPlan pseudo i isLocal orphan).look n ≠ .pass

theorem Ir.foundAt_eq_zero {looked : List (BlockId × Bool)} :
    ir.foundAt pseudo i isLocal orphan looked = 0 ↔
      ∀ n ∈ looked, (ir.parentPlan pseudo i isLocal orphan).look n ≠ .pass := by
  simp [foundAt, List.countP_eq_zero]

/-- A search that fails, or whose list of dominators is empty, has written marks only, if the walk
over the blocks found nothing before it gave up. -/
theorem Ir.searchParents_onlyMarks (hall : ∀ b, ∀ j ∈ (ir.block b).insns, j < ir.nextInsn)
    (hi : i < ir.nextInsn) {bb : BlockId} {loads : Bool}
    (hnothing : ir.NothingFoundBefore pseudo i isLocal orphan generation bb loads)
    {r : (Ir × List CellId) × Bool}
    (hr : searchParents pseudo i isLocal generation orphan (ir.nextBlock + 1) (ir, []) bb loads = r)
    (hunused : r.2 = false ∨ r.1.2 = []) : OnlyMarks ir r.1.1 := by
  obtain ⟨hfin, ht⟩ := (Tracks.start hall generation).searchParents pseudo isLocal orphan hi
    (ir.nextBlock + 1) bb loads
  rw [hr, Nat.zero_add] at ht
  rw [hr] at hfin
  refine ht.clean ?_
  rcases hunused with hfail | hnone
  · exact (foundAt_eq_zero pseudo isLocal orphan).mpr (hnothing (hfin.symm.trans hfail))
  · rw [← ht.dominators, hnone]
    rfl

/-- A search that leaves the code alone whenever it fails found nothing before it gave up. -/
theorem Ir.nothingFoundBefore_of_leavesCode (hall : ∀ b, ∀ j ∈ (ir.block b).insns, j < ir.nextInsn)
    (hi : i < ir.nextInsn) {bb : BlockId} {loads : Bool} {r : (Ir × List CellId) × Bool}
    (hr : searchParents pseudo i isLocal generation orphan (ir.nextBlock + 1) (ir, []) bb loads = r)
    (hleaves : r.2 = false → LeavesCode i ir r.1.1) :
    ir.NothingFoundBefore pseudo i isLocal orphan generation bb loads := by
  obtain ⟨hfin, ht⟩ := (Tracks.start hall generation).searchParents pseudo isLocal orphan hi
    (ir.nextBlock + 1) bb loads
  rw [hr, Nat.zero_add] at ht
  rw [hr] at hfin
  intro hgave
  refine (foundAt_eq_zero pseudo isLocal orphan).mp ?_
  by_contra hfound
  obtain ⟨b, j, hj, hnew⟩ := ht.grown hfound
  rw [(hleaves (hfin.trans hgave)).insns b] at hj
  exact absurd (hall b j hj) (Nat.not_lt.mpr hnew)

end

/-! ## Fuel -/

/-- What a search does to the edges and the marks. -/
structure SearchFrame (generation : ℕ) (ir ir' : Ir) : Prop where
  parents : ∀ b, (ir'.block b).parents = (ir.block b).parents
  nextBlock : ir'.nextBlock = ir.nextBlock
  marks : ∀ b, (ir.block b).generation = generation → (ir'.block b).generation = generation

/-- The marks of a heap. -/
def Ir.marked (ir : Ir) (generation : ℕ) (b : BlockId) : Bool :=
  decide ((ir.block b).generation = generation)

namespace SearchFrame

variable {generation : ℕ} {ir ir' ir'' : Ir}

theorem refl (ir : Ir) : SearchFrame generation ir ir := ⟨fun _ => rfl, rfl, fun _ h => h⟩

theorem trans (h : SearchFrame generation ir ir') (h' : SearchFrame generation ir' ir'') :
    SearchFrame generation ir ir'' :=
  ⟨fun b => (h'.parents b).trans (h.parents b), h'.nextBlock.trans h.nextBlock,
    fun b hb => h'.marks b (h.marks b hb)⟩

theorem mark (ir : Ir) (b : BlockId) :
    SearchFrame generation ir (ir.setBlock b ({ · with generation := generation })) where
  parents x := by
    by_cases hx : x = b
    · subst hx; simp
    · simp [hx]
  nextBlock := rfl
  marks x hg := by
    by_cases hx : x = b
    · subst hx; simp
    · simpa [hx] using hg

theorem add (ir : Ir) (i : InsnId) (parent : BlockId) (p : Pseudo) (size : ℕ) :
    SearchFrame generation ir (ir.addDominator i parent p size).1 := by
  obtain ⟨-, -, -, hnext, hblock⟩ := ir.addDominator_spec i parent p size
  have hcases : ∀ b, ((ir.addDominator i parent p size).1.block b).parents = (ir.block b).parents ∧
      ((ir.addDominator i parent p size).1.block b).generation = (ir.block b).generation := by
    intro b
    rw [hblock]
    by_cases hb : b = parent
    · subst hb; simp
    · simp [hb]
  exact ⟨fun b => (hcases b).1, hnext, fun b hg => (hcases b).2.trans hg⟩

/-- The vertices that the search can still mark. -/
theorem card_le (h : SearchFrame generation ir ir') :
    (DepthFirstWalks.unmarked (Finset.range ir'.nextBlock) (ir'.marked generation)).card ≤
      (DepthFirstWalks.unmarked (Finset.range ir.nextBlock) (ir.marked generation)).card := by
  rw [h.nextBlock]
  refine card_unmarked_mono (fun b hb => ?_)
  simp only [Ir.marked, decide_eq_true_eq] at hb ⊢
  exact h.marks b hb

end SearchFrame

section

variable (pseudo : Pseudo) (i : InsnId) (isLocal : Bool) (generation : ℕ)

theorem SearchFrame.visitParents {search : Ir × List CellId → BlockId → (Ir × List CellId) × Bool}
    (hsearch : ∀ s b, SearchFrame generation s.1 (search s b).1.1) (loads : Bool)
    (s : Ir × List CellId) (parents : List BlockId) :
    SearchFrame generation s.1
      (Ir.visitParents pseudo i isLocal generation search loads s parents).1.1 := by
  induction parents generalizing s with
  | nil => exact refl s.1
  | cons parent parents ih =>
    rw [Ir.visitParents]
    split
    · exact refl s.1
    · split
      · exact ih s
      · have hs := hsearch (s.1.setBlock parent ({ · with generation := generation }), s.2) parent
        split
        · rename_i s' hr
          rw [hr] at hs
          exact ((mark s.1 parent).trans hs).trans (ih s')
        · rename_i s' hr
          rw [hr] at hs
          exact (mark s.1 parent).trans hs
    · exact (add s.1 i parent _ _).trans (ih (_, _))

theorem SearchFrame.searchParents (orphan : Bool) (fuel : ℕ) (s : Ir × List CellId) (bb : BlockId)
    (loads : Bool) :
    SearchFrame generation s.1
      (Ir.searchParents pseudo i isLocal generation orphan fuel s bb loads).1.1 := by
  induction fuel generalizing s bb loads with
  | zero => exact refl s.1
  | succ fuel ih =>
    rw [Ir.searchParents]
    split
    · exact refl s.1
    · exact visitParents pseudo i isLocal generation (fun s b => ih s b _) _ s _

/-- The parents of all blocks are allocated. -/
def Ir.ParentsBounded (ir : Ir) : Prop := ∀ b, ∀ parent ∈ (ir.block b).parents, parent < ir.nextBlock

theorem SearchFrame.parentsBounded {ir ir' : Ir} (h : SearchFrame generation ir ir')
    (hb : ir.ParentsBounded) : ir'.ParentsBounded := fun b parent hp => by
  rw [h.parents] at hp
  exact h.nextBlock ▸ hb b parent hp

/-- With fuel for the blocks that are not marked yet, more fuel changes nothing: the search has
come to its end. -/
theorem Ir.searchParents_succ_fuel (orphan : Bool) (fuel : ℕ) (s : Ir × List CellId) (bb : BlockId)
    (loads : Bool) (hb : s.1.ParentsBounded)
    (hfuel : (DepthFirstWalks.unmarked (Finset.range s.1.nextBlock) (s.1.marked generation)).card < fuel) :
    Ir.searchParents pseudo i isLocal generation orphan (fuel + 1) s bb loads =
      Ir.searchParents pseudo i isLocal generation orphan fuel s bb loads := by
  induction fuel generalizing s bb loads with
  | zero => exact absurd hfuel (Nat.not_lt_zero _)
  | succ fuel ih =>
    rw [Ir.searchParents.eq_2, Ir.searchParents.eq_2]
    by_cases hp : (s.1.block bb).parents = []
    · rw [if_pos hp, if_pos hp]
    · rw [if_neg hp, if_neg hp]
      clear hp
      have hparents := hb bb
      generalize (loads && decide ((s.1.block bb).parents.length ≤ 1)) = flag
      generalize (s.1.block bb).parents = parents at hparents ⊢
      induction parents generalizing s with
      | nil => rfl
      | cons parent parents ihp =>
        have hrest : ∀ s' : Ir × List CellId, SearchFrame generation s.1 s'.1 → _ := fun s' h =>
          ihp s' (h.parentsBounded generation hb) (h.card_le.trans_lt hfuel)
            (fun p hp => h.nextBlock ▸ hparents p (List.mem_cons_of_mem parent hp))
        simp only [Ir.visitParents]
        split
        · rfl
        · split
          · exact hrest s (SearchFrame.refl s.1)
          · rename_i hg
            have hmark : SearchFrame generation s.1 _ := SearchFrame.mark s.1 parent
            have hlt : (DepthFirstWalks.unmarked (Finset.range s.1.nextBlock)
                ((s.1.setBlock parent ({ · with generation := generation })).marked generation)).card <
                (DepthFirstWalks.unmarked (Finset.range s.1.nextBlock) (s.1.marked generation)).card := by
              have hupdate :
                  (s.1.setBlock parent ({ · with generation := generation })).marked generation =
                    Function.update (s.1.marked generation) parent true := by
                funext b
                by_cases hb : b = parent
                · subst hb; simp [Ir.marked]
                · simp [Ir.marked, hb]
              rw [hupdate]
              exact card_unmarked_update (Finset.mem_range.mpr (hparents parent List.mem_cons_self))
                (decide_eq_false hg)
            have hinner := ih (s.1.setBlock parent ({ · with generation := generation }), s.2) parent flag
              (hmark.parentsBounded generation hb) (hlt.trans_le (Nat.lt_succ_iff.mp hfuel))
            have hs' := SearchFrame.searchParents pseudo i isLocal generation orphan fuel
              (s.1.setBlock parent ({ · with generation := generation }), s.2) parent flag
            simp only [hinner]
            split
            · rename_i s' hr
              rw [hr] at hs'
              exact hrest s' (hmark.trans hs')
            · rfl
        · exact hrest (_, _) (SearchFrame.add s.1 i parent _ _)

end

/-- The searches have enough fuel: any more gives the same. -/
theorem Ir.searchParents_enough_fuel (pseudo : Pseudo) (i : InsnId) (isLocal orphan : Bool)
    (generation : ℕ) {s : Ir × List CellId} (hb : s.1.ParentsBounded) (more : ℕ) (bb : BlockId)
    (loads : Bool) :
    searchParents pseudo i isLocal generation orphan (s.1.nextBlock + 1 + more) s bb loads =
      searchParents pseudo i isLocal generation orphan (s.1.nextBlock + 1) s bb loads := by
  induction more with
  | zero => rfl
  | succ more ih =>
    rw [← ih]
    have hcard : (DepthFirstWalks.unmarked (Finset.range s.1.nextBlock) (s.1.marked generation)).card ≤
      s.1.nextBlock := (Finset.card_filter_le _ _).trans_eq (Finset.card_range _)
    exact searchParents_succ_fuel pseudo i isLocal generation orphan (s.1.nextBlock + 1 + more) s bb
      loads hb (by omega)

/-! ## What is left behind -/

section

variable {ir : Ir} {i : InsnId}

theorem LeavesCode.congr_start {ir₁ ir' : Ir} (h : LeavesCode i ir ir₁) :
    LeavesCode i ir ir' ↔ LeavesCode i ir₁ ir' :=
  ⟨fun h' => ⟨fun b => (h'.insns b).trans (h.insns b).symm, h'.users.trans h.users.symm,
      h'.load.trans h.load.symm⟩,
    fun h' => ⟨fun b => (h'.insns b).trans (h.insns b), h'.users.trans h.users,
      h'.load.trans h.load⟩⟩

theorem Ir.useDominators_fst {isLocal : Bool} {r : (Ir × List CellId) × Bool}
    (h : (useDominators i isLocal r).2 = false) :
    (useDominators i isLocal r).1 = r.1.1 ∧ (r.2 = false ∨ r.1.2 = []) := by
  obtain ⟨⟨ir', dominators⟩, ok⟩ := r
  cases ok with
  | false => exact ⟨rfl, Or.inl rfl⟩
  | true =>
    cases dominators with
    | cons c cs => cases h
    | nil =>
      cases isLocal with
      | false => exact ⟨rfl, Or.inr rfl⟩
      | true => cases h

theorem Ir.useDominators_of_failed {isLocal : Bool} {r : (Ir × List CellId) × Bool}
    (h : r.2 = false) : useDominators i isLocal r = (r.1.1, false) := by
  obtain ⟨⟨ir', dominators⟩, ok⟩ := r
  cases h
  rfl

/-- A caller marks the block of the load, searches, and replaces the load if it can. -/
theorem Ir.useDominators_search_iff (hall : ∀ b, ∀ j ∈ (ir.block b).insns, j < ir.nextInsn)
    (hi : i < ir.nextInsn) (pseudo : Pseudo) (isLocal orphan : Bool) (generation : ℕ) {ir₁ : Ir}
    (hmarks : LeavesCode i ir ir₁) (hnext : ir₁.nextInsn = ir.nextInsn) (bb : BlockId)
    (loads : Bool) :
    let r := useDominators i isLocal (searchParents pseudo i isLocal generation orphan
      (ir₁.nextBlock + 1) (ir₁, []) bb loads)
    (r.2 = false → LeavesCode i ir r.1) ↔
      ir₁.NothingFoundBefore pseudo i isLocal orphan generation bb loads := by
  have hall' : ∀ b, ∀ j ∈ (ir₁.block b).insns, j < ir₁.nextInsn := fun b j hj =>
    hnext ▸ hall b j (hmarks.insns b ▸ hj)
  have hi' : i < ir₁.nextInsn := hnext ▸ hi
  intro r
  constructor
  · intro h
    refine ir₁.nothingFoundBefore_of_leavesCode pseudo isLocal orphan hall' hi' rfl (fun hfail => ?_)
    have hr : r = (_, false) := useDominators_of_failed hfail
    rw [← hmarks.congr_start]
    rw [hr] at h
    exact h rfl
  · intro hnothing hunused
    obtain ⟨heq, hsearch⟩ := useDominators_fst hunused
    rw [heq, hmarks.congr_start]
    exact (ir₁.searchParents_onlyMarks pseudo isLocal orphan hall' hi' hnothing rfl hsearch).leavesCode i

end

/-- A failed search leaves the code as it was if and only if the walk over the blocks, as they were
before, found no dominating access before it gave up: the searches themselves, whichever block they
start from, and their two callers, which search only where the block of the load does not settle
it. -/
theorem failed_search_changes_nothing_iff {ir : Ir} {i : InsnId}
    (hall : ∀ b, ∀ j ∈ (ir.block b).insns, j < ir.nextInsn) (hi : i < ir.nextInsn)
    (pseudo : Pseudo) (isLocal : Bool) (generation : ℕ) :
    (∀ bb loads,
      let r := Ir.findDominatingParents pseudo i isLocal generation (ir, []) bb loads
      ((r.2 = false ∨ r.1.2 = [] → LeavesCode i ir r.1.1) ↔
        ir.NothingFoundBefore pseudo i isLocal isLocal generation bb loads)) ∧
    (∀ bb loads,
      let r := Ir.findDominatingParentsMem pseudo i isLocal generation (ir, []) bb loads
      ((r.2 = false ∨ r.1.2 = [] → LeavesCode i ir r.1.1) ↔
        ir.NothingFoundBefore pseudo i isLocal true generation bb loads)) ∧
    (((ir.findDominatingStores pseudo i isLocal generation).2 = false →
        LeavesCode i ir (ir.findDominatingStores pseudo i isLocal generation).1) ↔
      ∀ bb, (ir.insn i).bb = some bb →
        ir.scanBlock pseudo i isLocal none false (ir.block bb).insns = some (none, false) →
        (ir.setBlock bb ({ · with generation := generation })).NothingFoundBefore pseudo i isLocal
          isLocal generation bb true) ∧
    ∀ visible bb,
      ((ir.simplifyLoad visible bb i).2 = false → LeavesCode i ir (ir.simplifyLoad visible bb i).1) ↔
      (ir.scanAbove (ir.insn i).src1 i (ir.localPseudo visible (ir.insn i).src1)
          ((ir.block bb).insns.takeWhile (· ≠ i)).reverse = .nothing →
        ({ ir with bbGeneration := ir.bbGeneration + 1 }.setBlock bb
            ({ · with generation := ir.bbGeneration + 1 })).NothingFoundBefore (ir.insn i).src1 i
          (ir.localPseudo visible (ir.insn i).src1) true (ir.bbGeneration + 1) bb true) := by
  have hself : LeavesCode i ir ir := (OnlyMarks.refl ir).leavesCode i
  refine ⟨fun bb loads => ⟨fun h => ?_, fun h hunused => ?_⟩,
    fun bb loads => ⟨fun h => ?_, fun h hunused => ?_⟩, ?_, fun visible bb => ?_⟩
  · exact ir.nothingFoundBefore_of_leavesCode pseudo isLocal isLocal hall hi rfl
      (fun hf => h (Or.inl hf))
  · exact (ir.searchParents_onlyMarks pseudo isLocal isLocal hall hi h rfl hunused).leavesCode i
  · exact ir.nothingFoundBefore_of_leavesCode pseudo isLocal true hall hi rfl
      (fun hf => h (Or.inl hf))
  · exact (ir.searchParents_onlyMarks pseudo isLocal true hall hi h rfl hunused).leavesCode i
  · rw [Ir.findDominatingStores]
    cases hbb : (ir.insn i).bb with
    | none => simp
    | some bb =>
      have hmark : LeavesCode i ir (ir.setBlock bb ({ · with generation := generation })) :=
        ((OnlyMarks.refl ir).setGeneration bb generation).leavesCode i
      have hsearch := ir.useDominators_search_iff hall hi pseudo isLocal isLocal generation hmark rfl
        bb true
      simp only [Option.some.injEq, forall_eq']
      rcases hscan : ir.scanBlock pseudo i isLocal none false (ir.block bb).insns with
        _ | ⟨_ | dom, _ | _⟩
      · simpa using hself
      · simpa [Ir.findDominatingParents] using hsearch
      · simpa using hself
      · simp
      · simpa using hself
  · rw [Ir.simplifyLoad]
    have hmark : LeavesCode i ir ({ ir with bbGeneration := ir.bbGeneration + 1 }.setBlock bb
        ({ · with generation := ir.bbGeneration + 1 })) := by
      refine ⟨fun b => ?_, rfl, rfl⟩
      by_cases hb : b = bb
      · subst hb; simp
      · simp [hb]
    have hsearch := ir.useDominators_search_iff hall hi (ir.insn i).src1
      (ir.localPseudo visible (ir.insn i).src1) true (ir.bbGeneration + 1) hmark rfl bb true
    dsimp only
    cases hscan : ir.scanAbove (ir.insn i).src1 i (ir.localPseudo visible (ir.insn i).src1)
        ((ir.block bb).insns.takeWhile (· ≠ i)).reverse with
    | giveUp => simpa using hself
    | found dom => simp
    | nothing => simpa [Ir.findDominatingParentsMem] using hsearch

/-- `if (c) g = 1; else h(); return g;` for a global `g`. -/
def storeBesideCall : Ir where
  insn
    | 0 => { opcode := .entry, bb := some 0 }
    | 1 => { opcode := .br, bb := some 0, target := .arg 1, bbTrue := some 1, bbFalse := some 2 }
    | 2 => { opcode := .store, size := 32, bb := some 1, target := .val 1, src1 := .sym 0 }
    | 3 => { opcode := .br, bb := some 1, bbTrue := some 3 }
    | 4 => { opcode := .call, bb := some 2, src1 := .sym 1 }
    | 5 => { opcode := .br, bb := some 2, bbTrue := some 3 }
    | 6 => { opcode := .load, size := 32, bb := some 3, target := .reg 0, src1 := .sym 0 }
    | 7 => { opcode := .ret, bb := some 3, src1 := .reg 0 }
    | _ => { opcode := .badop }
  block
    | 0 => { children := [1, 2], insns := [0, 1] }
    | 1 => { parents := [0], children := [3], insns := [2, 3] }
    | 2 => { parents := [0], children := [3], insns := [4, 5] }
    | 3 => { parents := [1, 2], insns := [6, 7] }
    | _ => {}
  cell _ := .null
  definition
    | .reg 0 => some 6
    | _ => none
  users
    | .sym 0 => [⟨2, .src1 2⟩, ⟨6, .src1 6⟩]
    | .sym 1 => [⟨4, .src1 4⟩]
    | .arg 1 => [⟨1, .target 1⟩]
    | .reg 0 => [⟨7, .src1 7⟩]
    | _ => []
  bbs := [0, 1, 2, 3]
  entry := 0
  nextInsn := 8
  nextBlock := 4
  nextCell := 0
  nextReg := 1
  nextPhi := 0
  bbGeneration := 0

private theorem storeBesideCall_allocated :
    ∀ b, ∀ j ∈ (storeBesideCall.block b).insns, j < storeBesideCall.nextInsn := by
  intro b j hj
  rcases b with _ | _ | _ | _ | b <;> simp [storeBesideCall] at hj <;> rcases hj with rfl | rfl <;>
    decide

/-- The store is found first, the call stops the search, and the phi source stays. -/
theorem storeBesideCall_keeps_phi_source :
    (storeBesideCall.findDominatingStores (.sym 0) 6 false 1).2 = false ∧
      ¬ LeavesCode 6 storeBesideCall (storeBesideCall.findDominatingStores (.sym 0) 6 false 1).1 :=
  ⟨by decide, fun h => absurd (h.insns 1) (by decide)⟩

theorem storeBesideCall_found_before :
    ¬ storeBesideCall.NothingFoundBefore (.sym 0) 6 false false 1 3 true := by
  intro h
  have hload : 6 < storeBesideCall.nextInsn := by decide
  have hiff := (failed_search_changes_nothing_iff storeBesideCall_allocated hload (.sym 0) false
    1).1 3 true
  exact absurd ((hiff.mpr h (Or.inl (by decide))).insns 1) (by decide)

end Sparse
