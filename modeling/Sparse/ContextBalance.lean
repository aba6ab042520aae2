import Sparse.LabelPropagation
import Sparse.LinearIr
import Mathlib.Data.BitVec

/-!
# The context-balance check

`check_bb_context` goes through the graph depth first; the count that a block is
entered with is recorded in the block and is its mark of having been visited. Counts
are of type `int` and wrap around. The check is the propagation of a label, so that a
check without an error speaks of all paths.
-/

namespace Sparse.Context
open LabelPropagation

/-- What the check reads of an instruction. -/
structure Instruction where
  opcode : Opcode
  increment : BitVec 32 := 0
  check : Bool := false
  deriving DecidableEq, Repr

structure BasicBlock where
  insns : List Instruction
  children : List BlockId
  deriving DecidableEq, Repr

/-- The blocks of an entrypoint, whose children are among them. -/
structure Graph where
  block : BlockId → BasicBlock
  bbs : Finset BlockId
  children_mem : ∀ b ∈ bbs, ∀ c ∈ (block b).children, c ∈ bbs

/-- The field `context` of the blocks, and the warnings given, each with its block. -/
structure State where
  context : BlockId → BitVec 32
  warnings : List (BlockId × String)

def State.warn (s : State) (bb : BlockId) (text : String) : State :=
  { s with warnings := s.warnings ++ [(bb, text)] }

/-- `context_increase`: the count over the instructions, and a warning for each failed check. -/
def contextIncrease (bb : BlockId) (entry : BitVec 32) :
    List Instruction → State → BitVec 32 → State × BitVec 32
  | [], s, sum => (s, sum)
  | insn :: insns, s, sum =>
    if insn.opcode ≠ .context then contextIncrease bb entry insns s sum
    else
      let val := insn.increment
      if insn.check then
        let current := sum + entry
        if val = 0#32 then
          if current = 0#32 then contextIncrease bb entry insns s sum
          else contextIncrease bb entry insns (s.warn bb "context check failure") sum
        else if val.toInt ≤ current.toInt then contextIncrease bb entry insns s sum
        else contextIncrease bb entry insns (s.warn bb "context check failure") sum
      else contextIncrease bb entry insns s (sum + val)

/-- `imbalance`. -/
def imbalance (wcontext : Bool) (bb : BlockId) (why : String) (s : State) : State × ℤ :=
  (if wcontext then s.warn bb why else s, -1)

/-- The loop of `check_children`. -/
def checkEach (check : State → BlockId → Option (State × ℤ)) : State → List BlockId → Option (State × ℤ)
  | s, [] => some (s, 0)
  | s, child :: children =>
    match check s child with
    | none => none
    | some (s, r) => if r ≠ 0 then some (s, -1) else checkEach check s children

/-- `check_bb_context`, with `check_children` in its end. -/
def checkBbContext (g : Graph) (wcontext : Bool) (exit : BitVec 32) :
    ℕ → State → BlockId → BitVec 32 → Option (State × ℤ)
  | 0, _, _, _ => none
  | fuel + 1, s, bb, entry =>
    if s.context bb = entry then some (s, 0)
    else if 0 ≤ (s.context bb).toInt then
      some (imbalance wcontext bb "different lock contexts for basic block" s)
    else
      let s := { s with context := Function.update s.context bb entry }
      let (s, increase) := contextIncrease bb entry (g.block bb).insns s 0#32
      let entry := entry + increase
      if entry.toInt < 0 then some (imbalance wcontext bb "unexpected unlock" s)
      else
        match (g.block bb).insns.getLast? with
        | none => some (s, 0)
        | some insn =>
          if insn.opcode = .ret then
            if entry ≠ exit then some (imbalance wcontext bb "wrong count at exit" s) else some (s, 0)
          else checkEach (fun s child => checkBbContext g wcontext exit fuel s child entry) s (g.block bb).children

/-! ## What is checked -/

/-- What an instruction adds to the count. -/
def Instruction.effect (insn : Instruction) : BitVec 32 :=
  if insn.opcode = .context ∧ insn.check = false then insn.increment else 0#32

/-- What a block adds to the count. -/
def BasicBlock.effect (bb : BasicBlock) : BitVec 32 :=
  (bb.insns.map Instruction.effect).sum

/-- What a block adds, as an integer. -/
def BasicBlock.total (bb : BasicBlock) : ℤ :=
  (bb.insns.map fun insn => insn.effect.toInt).sum

namespace Graph

/-- Control goes from the block to the other through its last instruction. -/
def Flows (g : Graph) (a b : BlockId) : Prop :=
  b ∈ (g.block a).children ∧ ∃ insn, (g.block a).insns.getLast? = some insn ∧ insn.opcode ≠ .ret

/-- A path from the entry comes to the block with the count, which is the total but for what wraps. -/
inductive Enters (g : Graph) (entryBb : BlockId) (entry : BitVec 32) : BlockId → BitVec 32 → ℤ → Prop
  | start : g.Enters entryBb entry entryBb entry entry.toInt
  | step {a b : BlockId} {count : BitVec 32} {total : ℤ} : g.Enters entryBb entry a count total → g.Flows a b →
      g.Enters entryBb entry b (count + (g.block a).effect) (total + (g.block a).total)

/-- The blocks that control goes on to. -/
def successors (g : Graph) (a : BlockId) : List BlockId :=
  match (g.block a).insns.getLast? with
  | none => []
  | some insn => if insn.opcode = .ret then [] else (g.block a).children

/-- The counts as labels. -/
def system (g : Graph) (exit : BitVec 32) : System BlockId (BitVec 32) where
  transfer a count :=
    let count := count + (g.block a).effect
    if count.toInt < 0 then none
    else
      match (g.block a).insns.getLast? with
      | none => some count
      | some insn => if insn.opcode = .ret ∧ count ≠ exit then none else some count
  succ := g.successors

end Graph

/-- The recorded counts; a negative one is none. -/
def State.marks (s : State) (b : BlockId) : Option (BitVec 32) :=
  if 0 ≤ (s.context b).toInt then some (s.context b) else none

variable {g : Graph} {wcontext : Bool} {exit entry : BitVec 32} {s s' : State} {bb entryBb : BlockId}

theorem contextIncrease_spec (bb : BlockId) (entry : BitVec 32) (insns : List Instruction) (s : State)
    (sum : BitVec 32) :
    (contextIncrease bb entry insns s sum).2 = sum + (insns.map Instruction.effect).sum ∧
      (contextIncrease bb entry insns s sum).1.context = s.context := by
  induction insns generalizing s sum with
  | nil => simp [contextIncrease]
  | cons insn insns ih =>
    rw [contextIncrease, List.map_cons, List.sum_cons]
    by_cases hop : insn.opcode ≠ .context
    · rw [if_pos hop, (ih s sum).1, Instruction.effect, if_neg fun h => hop h.1, BitVec.zero_add]
      exact ⟨rfl, (ih s sum).2⟩
    · rw [if_neg hop]
      dsimp only
      rw [ne_eq, not_not] at hop
      cases hcheck : insn.check with
      | true =>
        have heffect : insn.effect = 0#32 := by
          rw [Instruction.effect, if_neg fun h => by simp [hcheck] at h]
        rw [if_pos rfl, heffect, BitVec.zero_add]
        split
        · split
          · exact ih _ _
          · exact ih _ _
        · split
          · exact ih _ _
          · exact ih _ _
      | false =>
        have heffect : insn.effect = insn.increment := by
          rw [Instruction.effect, if_pos ⟨hop, hcheck⟩]
        rw [if_neg Bool.false_ne_true, heffect, (ih s (sum + insn.increment)).1]
        exact ⟨BitVec.add_assoc .., (ih s _).2⟩

theorem marks_update (hentry : 0 ≤ entry.toInt) (s : State) (bb : BlockId) :
    ({ s with context := Function.update s.context bb entry } : State).marks =
      Function.update s.marks bb (some entry) := by
  funext b
  rcases eq_or_ne b bb with rfl | hne
  · simp [State.marks, hentry]
  · simp [State.marks, Function.update_of_ne hne]

theorem marks_congr (h : s.context = s'.context) : s.marks = s'.marks := by
  funext b
  rw [State.marks, State.marks, h]

@[simp] theorem State.warn_marks (s : State) (bb : BlockId) (text : String) :
    (s.warn bb text).marks = s.marks := rfl

@[simp] theorem imbalance_marks (s : State) (bb : BlockId) (why : String) :
    (imbalance wcontext bb why s).1.marks = s.marks := by
  cases wcontext <;> rfl

/-- The run of the check ends as the propagation of the labels does. -/
def Agrees (r : Option (State × ℤ)) (v : Option ((BlockId → Option (BitVec 32)) × Bool)) : Prop :=
  r.map (fun r => (r.1.marks, decide (r.2 = 0))) = v

theorem agrees_imbalance (bb : BlockId) (why : String) (s : State) :
    Agrees (some (imbalance wcontext bb why s)) (some (s.marks, false)) := by
  cases wcontext <;> rfl

theorem agrees_ok (s : State) : Agrees (some (s, 0)) (some (s.marks, true)) := rfl

theorem checkEach_agrees {check : State → BlockId → Option (State × ℤ)}
    {visit : (BlockId → Option (BitVec 32)) → BlockId → Option ((BlockId → Option (BitVec 32)) × Bool)}
    (h : ∀ s b, Agrees (check s b) (visit s.marks b)) (s : State) (children : List BlockId) :
    Agrees (checkEach check s children) (visitList visit s.marks children) := by
  induction children generalizing s with
  | nil => rfl
  | cons child children ih =>
    have hchild := h s child
    rw [checkEach, visitList, ← hchild]
    rcases check s child with _ | ⟨t, r⟩
    · rfl
    · by_cases hr : r = 0
      · simpa [Agrees, hr] using ih t
      · simp [Agrees, hr]

/-- The check propagates the counts. -/
theorem checkBbContext_agrees (g : Graph) (wcontext : Bool) (exit : BitVec 32) (fuel : ℕ) (s : State)
    (bb : BlockId) {entry : BitVec 32} (hentry : 0 ≤ entry.toInt) :
    Agrees (checkBbContext g wcontext exit fuel s bb entry)
      ((g.system exit).visit fuel s.marks bb entry) := by
  induction fuel generalizing s bb entry with
  | zero => rfl
  | succ fuel ih =>
    rw [checkBbContext, System.visit]
    by_cases hsame : s.context bb = entry
    · have hmark : s.marks bb = some entry := by
        rw [State.marks, hsame, if_pos hentry]
      rw [if_pos hsame, hmark]
      simpa using agrees_ok s
    · rw [if_neg hsame]
      by_cases hmarked : 0 ≤ (s.context bb).toInt
      · have hmark : s.marks bb = some (s.context bb) := if_pos hmarked
        rw [if_pos hmarked, hmark]
        simpa [hsame] using agrees_imbalance bb "different lock contexts for basic block" s
      · have hmark : s.marks bb = none := if_neg hmarked
        rw [if_neg hmarked, hmark]
        dsimp only
        rw [← marks_update hentry s bb]
        generalize hs₁ : ({ s with context := Function.update s.context bb entry } : State) = s₁
        obtain ⟨hsum, hcontext⟩ := contextIncrease_spec bb entry (g.block bb).insns s₁ 0#32
        have hmarks := marks_congr hcontext
        rw [BitVec.zero_add] at hsum
        rw [hsum, ← hmarks]
        generalize (contextIncrease bb entry (g.block bb).insns s₁ 0#32).1 = s₂
        have heffect : ((g.block bb).insns.map Instruction.effect).sum = (g.block bb).effect := rfl
        simp only [heffect, Graph.system, Graph.successors]
        by_cases hneg : (entry + (g.block bb).effect).toInt < 0
        · rw [if_pos hneg, if_pos hneg]
          exact agrees_imbalance _ _ _
        · rw [if_neg hneg, if_neg hneg]
          cases hlast : (g.block bb).insns.getLast? with
          | none => exact agrees_ok s₂
          | some insn =>
            dsimp only
            by_cases hret : insn.opcode = .ret
            · by_cases hexit : entry + (g.block bb).effect ≠ exit
              · rw [if_pos hret, if_pos hexit, if_pos ⟨hret, hexit⟩]
                exact agrees_imbalance _ _ _
              · rw [if_pos hret, if_neg hexit, if_neg fun h => hexit h.2, if_pos hret]
                exact agrees_ok s₂
            · rw [if_neg hret, if_neg fun h => hret h.1, if_neg hret]
              exact checkEach_agrees (fun t b => ih t b (Int.not_lt.1 hneg)) s₂ _

/-! ## Soundness -/

theorem checkEach_mono {check check' : State → BlockId → Option (State × ℤ)}
    (hle : ∀ s b r, check s b = some r → check' s b = some r) {children : List BlockId}
    {r : State × ℤ} (h : checkEach check s children = some r) :
    checkEach check' s children = some r := by
  induction children generalizing s with
  | nil => exact h
  | cons child children ih =>
    rw [checkEach] at h ⊢
    split at h
    · contradiction
    · rename_i t r' ht
      rw [hle _ _ _ ht]
      dsimp only
      split at h
      · rename_i hr
        rw [if_pos hr]
        exact h
      · rename_i hr
        rw [if_neg hr]
        exact ih h

theorem checkBbContext_mono {fuel fuel' : ℕ} {r : State × ℤ} (hle : fuel ≤ fuel')
    (h : checkBbContext g wcontext exit fuel s bb entry = some r) :
    checkBbContext g wcontext exit fuel' s bb entry = some r := by
  induction fuel generalizing fuel' s bb entry r with
  | zero => simp [checkBbContext] at h
  | succ fuel ih =>
    obtain ⟨fuel', rfl⟩ := Nat.exists_eq_add_of_le' (Nat.le_of_add_left_le hle)
    rw [checkBbContext] at h ⊢
    split at h
    · rename_i hsame
      rw [if_pos hsame]
      exact h
    · rename_i hsame
      rw [if_neg hsame]
      split at h
      · rename_i hmarked
        rw [if_pos hmarked]
        exact h
      · rename_i hmarked
        rw [if_neg hmarked]
        dsimp only at h ⊢
        split at h
        · rename_i hneg
          rw [if_pos hneg]
          exact h
        · rename_i hneg
          rw [if_neg hneg]
          split at h
          · exact h
          · split at h
            · rename_i hret
              rw [if_pos hret]
              exact h
            · rename_i hret
              rw [if_neg hret]
              exact checkEach_mono (fun s b r hr => ih (Nat.le_of_succ_le_succ hle) hr) h

/-- A block that accepts its count. -/
theorem transfer_spec {count y : BitVec 32} (h : (g.system exit).transfer bb count = some y) :
    y = count + (g.block bb).effect ∧ 0 ≤ (count + (g.block bb).effect).toInt ∧
      ∀ insn, (g.block bb).insns.getLast? = some insn → insn.opcode = .ret →
        count + (g.block bb).effect = exit := by
  simp only [Graph.system] at h
  by_cases hneg : (count + (g.block bb).effect).toInt < 0
  · rw [if_pos hneg] at h
    contradiction
  · rw [if_neg hneg] at h
    cases hlast : (g.block bb).insns.getLast? with
    | none =>
      rw [hlast] at h
      exact ⟨(Option.some.inj h).symm, Int.not_lt.1 hneg, by simp⟩
    | some insn =>
      rw [hlast] at h
      dsimp only at h
      by_cases hwrong : insn.opcode = .ret ∧ count + (g.block bb).effect ≠ exit
      · rw [if_pos hwrong] at h
        contradiction
      · rw [if_neg hwrong] at h
        refine ⟨(Option.some.inj h).symm, Int.not_lt.1 hneg, fun insn' hinsn' hret => ?_⟩
        obtain rfl := Option.some.inj hinsn'
        by_contra hne
        exact hwrong ⟨hret, hne⟩

/-- Every path of the graph comes with one of the labels. -/
theorem Graph.Enters.reaches {count : BitVec 32} {total : ℤ} (h : g.Enters entryBb entry bb count total)
    (haccepts : ∀ b x, (g.system exit).Reaches entryBb entry b x →
      ∃ y, (g.system exit).transfer b x = some y) :
    (g.system exit).Reaches entryBb entry bb count := by
  induction h with
  | start => exact .start
  | @step a b count total _ hflows ih =>
    obtain ⟨y, hy⟩ := haccepts _ _ ih
    obtain ⟨hmem, insn, hlast, hret⟩ := hflows
    have hsucc : b ∈ (g.system exit).succ a := by
      show b ∈ g.successors a
      rw [Graph.successors, hlast]
      simpa [hret] using hmem
    rw [← (transfer_spec hy).1]
    exact .step ih hy hsucc

/-- What a block adds is its total modulo 2^32. -/
theorem BasicBlock.effect_eq (bb : BasicBlock) : bb.effect = BitVec.ofInt 32 bb.total := by
  rw [BasicBlock.effect, BasicBlock.total]
  induction bb.insns with
  | nil => rfl
  | cons insn insns ih =>
    rw [List.map_cons, List.map_cons, List.sum_cons, List.sum_cons, BitVec.ofInt_add, BitVec.ofInt_toInt, ih]

/-- A count is its total modulo 2^32. -/
theorem Graph.Enters.count_eq {count : BitVec 32} {total : ℤ} (h : g.Enters entryBb entry bb count total) :
    count = BitVec.ofInt 32 total := by
  induction h with
  | start => rw [BitVec.ofInt_toInt]
  | step _ _ ih => rw [BitVec.ofInt_add, ← ih, BasicBlock.effect_eq]

/-- The check ends, and when it returns 0 it has checked every path. A count at the start or at the end of a
block whose total fits into an `int` is the total. -/
theorem checkBbContext_sound (g : Graph) (wcontext : Bool) (exit entry : BitVec 32) (hentry : 0 ≤ entry.toInt)
    (entryBb : BlockId) (hbb : entryBb ∈ g.bbs) (s : State) (hs : ∀ b, s.context b = -1#32) :
    ∃ s' r, (∀ fuel, g.bbs.card < fuel →
        checkBbContext g wcontext exit fuel s entryBb entry = some (s', r)) ∧
      (r = 0 →
        (∀ b x y m n, g.Enters entryBb entry b x m → g.Enters entryBb entry b y n → x = y) ∧
        (∀ b x m, g.Enters entryBb entry b x m → 0 ≤ (x + (g.block b).effect).toInt) ∧
        ∀ b x m insn, g.Enters entryBb entry b x m → (g.block b).insns.getLast? = some insn →
          insn.opcode = .ret → x + (g.block b).effect = exit) ∧
      ∀ b x m, g.Enters entryBb entry b x m →
        (-2 ^ 31 ≤ m → m < 2 ^ 31 → x.toInt = m) ∧
        (-2 ^ 31 ≤ m + (g.block b).total → m + (g.block b).total < 2 ^ 31 →
          (x + (g.block b).effect).toInt = m + (g.block b).total) := by
  have hmarks : s.marks = fun _ => none := by
    funext b
    rw [State.marks, hs b]
    rfl
  have hfits : ∀ z : ℤ, -2 ^ 31 ≤ z → z < 2 ^ 31 → (BitVec.ofInt 32 z).toInt = z := by
    intro z hlow hhigh
    rw [BitVec.toInt_ofInt]
    exact Int.bmod_eq_of_le (by omega) (by omega)
  have htotal : ∀ b x m, g.Enters entryBb entry b x m →
      (-2 ^ 31 ≤ m → m < 2 ^ 31 → x.toInt = m) ∧
      (-2 ^ 31 ≤ m + (g.block b).total → m + (g.block b).total < 2 ^ 31 →
        (x + (g.block b).effect).toInt = m + (g.block b).total) := by
    intro b x m h
    rw [h.count_eq, BasicBlock.effect_eq, ← BitVec.ofInt_add]
    exact ⟨hfits m, hfits _⟩
  have hclosed : ∀ a ∈ g.bbs, ∀ b ∈ (g.system exit).succ a, b ∈ g.bbs := by
    intro a ha b hb
    refine g.children_mem a ha b ?_
    have hb' : b ∈ g.successors a := hb
    rw [Graph.successors] at hb'
    split at hb'
    · simp at hb'
    · split at hb'
      · simp at hb'
      · exact hb'
  have hcard : (unlabelled g.bbs s.marks).card < g.bbs.card + 1 :=
    Nat.lt_succ_of_le (Finset.card_le_card (Finset.filter_subset _ _))
  obtain ⟨⟨marks', ok⟩, hvisit, -⟩ := visit_terminates (x := entry) hclosed hbb hcard
  have hagrees := checkBbContext_agrees g wcontext exit (g.bbs.card + 1) s entryBb hentry
  rw [hvisit] at hagrees
  obtain ⟨⟨s', r⟩, hcheck, hr⟩ := Option.map_eq_some_iff.1 hagrees
  refine ⟨s', r, fun fuel hfuel => checkBbContext_mono hfuel hcheck, fun hzero => ?_, htotal⟩
  have hok : ok = true := by
    rw [← (Prod.mk.inj hr).2, hzero]
    rfl
  rw [hmarks, hok] at hvisit
  have hpath : ∀ b x m, g.Enters entryBb entry b x m → (g.system exit).Reaches entryBb entry b x :=
    fun b x m h => h.reaches fun c z hc => (visit_sound hvisit hc).2
  refine ⟨fun b x y m n hx hy => ?_, fun b x m hx => ?_, fun b x m insn hx hlast hret => ?_⟩
  · have hlabel := (visit_sound hvisit (hpath b x m hx)).1
    rw [(visit_sound hvisit (hpath b y n hy)).1] at hlabel
    exact (Option.some.inj hlabel).symm
  · obtain ⟨y, hy⟩ := (visit_sound hvisit (hpath b x m hx)).2
    exact (transfer_spec hy).2.1
  · obtain ⟨y, hy⟩ := (visit_sound hvisit (hpath b x m hx)).2
    exact (transfer_spec hy).2.2 insn hlast hret

/-- A loop that takes a lock and gives it back. -/
def lockedLoop : Graph where
  block b :=
    if b = 0 then ⟨[⟨.br, 0, false⟩], [1, 2]⟩
    else if b = 1 then ⟨[⟨.context, 1, false⟩, ⟨.context, 1, true⟩, ⟨.context, -1, false⟩, ⟨.br, 0, false⟩], [0]⟩
    else ⟨[⟨.ret, 0, false⟩], []⟩
  bbs := {0, 1, 2}
  children_mem := by decide

theorem lockedLoop_sound :
    ∃ s' r, (∀ fuel, lockedLoop.bbs.card < fuel →
        checkBbContext lockedLoop true 0#32 fuel ⟨fun _ => -1#32, []⟩ 0 0#32 = some (s', r)) ∧
      (r = 0 →
        (∀ b x y m n, lockedLoop.Enters 0 0#32 b x m → lockedLoop.Enters 0 0#32 b y n → x = y) ∧
        (∀ b x m, lockedLoop.Enters 0 0#32 b x m → 0 ≤ (x + (lockedLoop.block b).effect).toInt) ∧
        ∀ b x m insn, lockedLoop.Enters 0 0#32 b x m → (lockedLoop.block b).insns.getLast? = some insn →
          insn.opcode = .ret → x + (lockedLoop.block b).effect = 0#32) ∧
      ∀ b x m, lockedLoop.Enters 0 0#32 b x m →
        (-2 ^ 31 ≤ m → m < 2 ^ 31 → x.toInt = m) ∧
        (-2 ^ 31 ≤ m + (lockedLoop.block b).total → m + (lockedLoop.block b).total < 2 ^ 31 →
          (x + (lockedLoop.block b).effect).toInt = m + (lockedLoop.block b).total) :=
  checkBbContext_sound lockedLoop true 0#32 0#32 (by decide) 0 (by decide) ⟨fun _ => -1#32, []⟩ fun _ => rfl

example : (checkBbContext lockedLoop true 0#32 4 ⟨fun _ => -1#32, []⟩ 0 0#32).map Prod.snd = some 0 := by decide

end Sparse.Context
