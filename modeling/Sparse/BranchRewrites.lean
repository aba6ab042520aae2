import Sparse.FlowGraphRuns
import Sparse.UseListRuns
import Sparse.ConstantFolders

/-!
# Branches and selects choose what they chose

`simplify_branch` follows a condition through comparisons with zero, selects of constants and
casts; `simplify_select` replaces a select by an arm or by a comparison. The first tests the
source of a widening cast as it is, although the cast takes only the bits of its type.
-/

namespace Sparse

open AdjacencyLists

/-! ## Values -/

/-- The value of a cast: the source in the bits of its type, extended by its sign, in the bits
of the target. -/
def castWord (type : Option TypeInfo) (size : ℕ) (x : BitVec 64) : BitVec 64 :=
  let source : BitVec 64 := match type with
    | none => x
    | some type =>
      if type.isSigned then (x.setWidth type.bitSize).signExtend 64 else (x.setWidth type.bitSize).setWidth 64
  (source.setWidth size).setWidth 64

/-- The values of the instructions that `simplify_branch` looks through. -/
def Instruction.value (env : Pseudo → BitVec 64) (insn : Instruction) : Option (BitVec 64) :=
  match insn.opcode with
  | .setNe => some (boolWord (env insn.src1 != env insn.src2))
  | .setEq => some (boolWord (env insn.src1 == env insn.src2))
  | .sel => some (if env insn.src1 ≠ 0 then env insn.src2 else env insn.src3)
  | .cast | .scast => some (castWord insn.origType insn.size (env insn.src1))
  | _ => none

/-- Values of the pseudos as the constants and the instructions give them. -/
structure Environment (ir : Ir) (env : Pseudo → BitVec 64) : Prop where
  constants : ∀ value, env (.val value) = value
  definitions : ∀ nr d value, ir.definition (.reg nr) = some d → (ir.insn d).value env = some value →
    env (.reg nr) = value

/-- The block that a branch goes to. -/
def Instruction.goesTo (env : Pseudo → BitVec 64) (insn : Instruction) : Option BlockId :=
  match insn.bbTrue, insn.bbFalse with
  | some bbTrue, some bbFalse => if env insn.target ≠ 0 then some bbTrue else some bbFalse
  | bbTrue, _ => bbTrue

/-- The block that control goes to from the end of a block. -/
def Ir.transfer (ir : Ir) (env : Pseudo → BitVec 64) (bb : BlockId) : Option BlockId :=
  (ir.lastInstruction bb).bind fun i => (ir.insn i).goesTo env

/-- There is a way to a block from one without parents. -/
def Ir.Reached (ir : Ir) (bb : BlockId) : Prop :=
  ∃ root, (ir.block root).parents = [] ∧
    Relation.ReflTransGen (fun a b => a ∈ (ir.block b).parents) root bb

/-- The bits of the type of a cast's source. -/
def Instruction.origSize (insn : Instruction) : ℕ := (insn.origType.map TypeInfo.bitSize).getD 0

/-- The branch tests the result of a cast that widens. -/
structure Ir.TestsWidened (ir : Ir) (i d : InsnId) : Prop where
  defined : ∃ nr, (ir.insn i).target = .reg nr ∧ ir.definition (.reg nr) = some d
  cast : (ir.insn d).opcode = .cast ∨ (ir.insn d).opcode = .scast
  widens : (ir.insn d).origSize < (ir.insn d).size

/-- A widening cast that a branch between two blocks tests is zero only if its source is. -/
def Ir.BranchFits (ir : Ir) (env : Pseudo → BitVec 64) (i : InsnId) : Prop :=
  ∀ d, ir.TestsWidened i d → (ir.insn i).bbTrue ≠ (ir.insn i).bbFalse →
    castWord (ir.insn d).origType (ir.insn d).size (env (ir.insn d).src1) = 0 → env (ir.insn d).src1 = 0

/-! ## Instructions that define nothing -/

/-- An instruction stays as it is. -/
structure Spares (j : InsnId) (ir ir' : Ir) : Prop where
  insn : ir'.insn j = ir.insn j
  definition : ir'.definition = ir.definition

namespace Spares

variable {j : InsnId} {ir ir' ir'' : Ir}

theorem refl (j : InsnId) (ir : Ir) : Spares j ir ir := ⟨rfl, rfl⟩

theorem trans (h : Spares j ir ir') (h' : Spares j ir' ir'') : Spares j ir ir'' :=
  ⟨h'.insn.trans h.insn, h'.definition.trans h.definition⟩

theorem clearBb (ir : Ir) {i : InsnId} (hi : i ≠ j) : Spares j ir (ir.clearBb i) :=
  ⟨by rw [Ir.clearBb, Ir.setInsn_insn, Function.update_of_ne hi.symm], rfl⟩

theorem assign (ir : Ir) (p : Pseudo) {s : Address} (hs : s.insn? ≠ some j) : Spares j ir (ir.assign p s) := by
  refine ⟨?_, by cases s <;> rfl⟩
  cases s with
  | cell c => rfl
  | target i | src1 i | src2 i | src3 i =>
    have hne : j ≠ i := fun h => hs (by rw [h]; rfl)
    simp [Ir.assign, hne]

theorem emptySlot (ir : Ir) {s : Address} (hs : s.insn? ≠ some j) : Spares j ir (ir.emptySlot s) := by
  unfold Ir.emptySlot
  split
  · exact (assign ir .void hs).trans ⟨rfl, rfl⟩
  · exact assign ir .void hs

/-- A kill that starts at another instruction. -/
def KillSpares (j : InsnId) (kill : Ir → InsnId → Ir) : Prop :=
  ∀ ir i, i ≠ j → (∀ p, ir.definition p ≠ some j) → Spares j ir (kill ir i)

theorem dropDefinition {kill : Ir → InsnId → Ir} (hkill : KillSpares j kill)
    (hdef : ∀ p, ir.definition p ≠ some j) (p : Pseudo) : Spares j ir (ir.dropDefinition kill p) := by
  unfold Ir.dropDefinition
  split
  · cases hd : ir.definition p with
    | none => exact refl j ir
    | some d => exact hkill ir d (fun h => hdef p (h ▸ hd)) hdef
  · exact refl j ir

theorem killUseWith {kill : Ir → InsnId → Ir} (hkill : KillSpares j kill)
    (hdef : ∀ p, ir.definition p ≠ some j) {s : Address} (hs : s.insn? ≠ some j) :
    Spares j ir (ir.killUseWith kill s) := by
  rw [Ir.killUseWith_eq]
  have hempty := emptySlot ir hs
  exact hempty.trans (dropDefinition hkill (by rw [hempty.definition]; exact hdef) _)

theorem killInstructionFuel (j : InsnId) (fuel : ℕ) : KillSpares j (Ir.killInstructionFuel fuel) := by
  induction fuel with
  | zero => exact fun ir _ _ _ => refl j ir
  | succ fuel ih =>
    intro ir i hi hdef
    have huse : ∀ {ir'}, Spares j ir ir' → ∀ s : Address, s.insn? = some i →
        Spares j ir (ir'.killUseWith (Ir.killInstructionFuel fuel) s) := fun {ir'} h s hs =>
      h.trans (killUseWith ih (by rw [h.definition]; exact hdef) (by rw [hs]; exact fun h => hi (Option.some.inj h)))
    have hclear := clearBb ir hi
    unfold Ir.killInstructionFuel
    split
    · exact refl j ir
    · split
      · exact huse hclear _ rfl
      · exact huse hclear _ rfl
      · exact hclear
      · exact hclear
      · exact huse (huse (huse hclear _ rfl) _ rfl) _ rfl
      · split
        · exact hclear
        · exact huse hclear _ rfl
      · split
        · exact huse (huse hclear _ rfl) _ rfl
        · exact refl j ir

theorem removeUsage (hdef : ∀ p, ir.definition p ≠ some j) (p : Pseudo) (s : Address) :
    Spares j ir (ir.removeUsage p s) := by
  unfold Ir.removeUsage Ir.removeUsageWith
  have hdelete : Spares j ir (ir.deletePseudoUserListEntry p s 1) := ⟨rfl, rfl⟩
  dsimp only
  split
  · split
    · split
      next d hd =>
        exact hdelete.trans (killInstructionFuel j _ _ d (fun h => hdef p (h ▸ hd)) hdef)
      next => exact hdelete
    · exact hdelete
  · exact refl j ir

end Spares

/-! ## Taking another condition -/

section

variable {ir : Ir} {env : Pseudo → BitVec 64} {bb : BlockId} {i : InsnId}

theorem undefined_of_isJump (huse : UseInvariant ir) (ho : (ir.insn i).opcode.isJump = true) (p : Pseudo) :
    ir.definition p ≠ some i := by
  intro hd
  have hstores : ∀ op : Opcode, op.isJump = true → op.storesTarget = true := by
    intro op hop
    cases op <;> first | rfl | cases hop
  cases hreg : p.isReg with
  | true =>
    cases p with
    | reg nr =>
      have hresult := (huse.result nr i hd).2
      rw [hstores _ ho] at hresult
      cases hresult
    | _ => cases hreg
  | false =>
    rcases huse.other p i hd hreg with h | h
    · rw [h] at ho
      cases ho
    · rw [h] at ho
      cases ho

/-- The branch tests the new condition. -/
theorem replaceCond_insn (hdef : ∀ p, ir.definition p ≠ some i) (cond new : Pseudo) :
    (ir.replaceCond i cond new).insn i = { ir.insn i with target := new } := by
  have huse : (ir.usePseudo i new (.target i)).insn i = { ir.insn i with target := new } ∧
      (ir.usePseudo i new (.target i)).definition = ir.definition := by
    unfold Ir.usePseudo
    dsimp only
    split
    · simp [Ir.assign]
    · simp [Ir.assign]
  rw [Ir.replaceCond, (Spares.removeUsage (by rw [huse.2]; exact hdef) cond _).insn, huse.1]

/-! ## Putting a branch in place of another -/

/-- The blocks in `R` hang together without the edges from `bb`: each but the root has a parent
in `R` that is not `bb`. -/
structure Guarded (bb root : BlockId) (R : BlockId → Prop) (ir : Ir) : Prop where
  alive : ∀ s, R s → (ir.block s).killed = false
  guarded : ∀ s, R s → s = root ∨ ∃ p, p ≠ bb ∧ R p ∧ p ∈ (ir.block s).parents

variable {root : BlockId} {R : BlockId → Prop} {child : BlockId}

/-- What hangs together survives the loss of a child of `bb`. -/
theorem Guarded.removeParent (h : Guarded bb root R ir)
    (hc : (ir.removeFromParents child bb 1).graph.Consistent) (hroot : child ≠ root) :
    Guarded bb root R (ir.removeParent child bb) := by
  have hparent : ∀ s p, p ≠ bb → p ∈ (ir.block s).parents →
      p ∈ ((ir.removeFromParents child bb 1).block s).parents := by
    intro s p hp hmem
    by_cases hs : s = child
    · subst hs
      rw [Ir.removeFromParents, Ir.setBlock_block, Function.update_self, deletePtrListEntry_one]
      exact (List.mem_erase_of_ne hp).2 hmem
    · rw [Ir.removeFromParents, Ir.setBlock_block, Function.update_of_ne hs]
      exact hmem
  have hkilled : ∀ s, ((ir.removeFromParents child bb 1).block s).killed = (ir.block s).killed := by
    intro s
    by_cases hs : s = child
    · subst hs
      rw [Ir.removeFromParents, Ir.setBlock_block, Function.update_self]
    · rw [Ir.removeFromParents, Ir.setBlock_block, Function.update_of_ne hs]
  unfold Ir.removeParent
  dsimp only
  split
  next hnil =>
    -- A block that loses its last parent is none of those in `R`.
    have hne : ∀ s, R s → s ≠ child := by
      rintro s hs rfl
      obtain ⟨p, hp, -, hmem⟩ := (h.guarded s hs).resolve_left hroot
      have hmem' := hparent s p hp hmem
      rw [hnil] at hmem'
      exact List.not_mem_nil hmem'
    refine ⟨fun s hs => ?_, fun s hs => ?_⟩
    · rw [Ir.killBb_block_of_ne hc (hne s hs)]
      exact (hkilled s).trans (h.alive s hs)
    · rw [Ir.killBb_block_of_ne hc (hne s hs)]
      rcases h.guarded s hs with hs' | ⟨p, hp, hR, hmem⟩
      · exact .inl hs'
      · exact .inr ⟨p, hp, hR, List.mem_filter.2 ⟨hparent s p hp hmem, by simpa using hne p hR⟩⟩
  next =>
    refine ⟨fun s hs => (hkilled s).trans (h.alive s hs), fun s hs => ?_⟩
    rcases h.guarded s hs with hs' | ⟨p, hp, hR, hmem⟩
    · exact .inl hs'
    · exact .inr ⟨p, hp, hR, hparent s p hp hmem⟩

/-- The loop of `insert_branch` keeps it as well. -/
theorem Guarded.dropChildren (hflow : FlowInvariant {bb} ir) (h : Guarded bb root R ir) (hR : R bb)
    (kept todo : List BlockId) (target : Option BlockId) (hc : (ir.block bb).children = kept ++ todo)
    (hroot : root ∉ todo) : Guarded bb root R (Ir.dropChildren bb kept todo target ir) := by
  induction todo generalizing ir kept target with
  | nil => exact h
  | cons child todo ih =>
    have hroot' : root ∉ todo := fun hmem => hroot (List.mem_cons_of_mem _ hmem)
    unfold Ir.dropChildren
    by_cases ht : target = some child
    · rw [if_pos ht]
      exact ih hflow h (kept ++ [child]) none (by rw [hc, List.append_assoc]; rfl) hroot'
    · rw [if_neg ht]
      have halive := h.alive bb hR
      have hd := hflow.dropChild halive hc
      simp only [halive, Bool.false_eq_true, if_false]
      have hset : Guarded bb root R (ir.setBlock bb ({ · with children := kept ++ todo })) := by
        have hsame : ∀ s, ((ir.setBlock bb ({ · with children := kept ++ todo })).block s).killed =
            (ir.block s).killed ∧ ((ir.setBlock bb ({ · with children := kept ++ todo })).block s).parents =
              (ir.block s).parents := by
          intro s
          by_cases hs : s = bb
          · subst hs
            simp
          · simp [hs]
        exact ⟨fun s hs => (hsame s).1.trans (h.alive s hs), fun s hs => by
          rw [(hsame s).2]
          exact h.guarded s hs⟩
      have hremoved := hset.removeParent hd.consistent fun hchild => hroot (hchild ▸ List.mem_cons_self)
      refine ih hd.removeParent hremoved kept target ?_ hroot'
      rw [(Ir.removeParent_block hd.consistent (hremoved.alive bb hR)).2.2]
      simp

/-- What is reached is reached without going through itself. -/
theorem reached_without (hreach : Relation.ReflTransGen (fun a b => a ∈ (ir.block b).parents) root bb) :
    Relation.ReflTransGen (fun a b => a ≠ bb ∧ a ∈ (ir.block b).parents) root bb := by
  induction hreach using Relation.ReflTransGen.head_induction_on with
  | refl => exact .refl
  | @head a b hab _ ih =>
    by_cases ha : a = bb
    · rw [ha]
    · exact .head ⟨ha, hab⟩ ih

theorem insertBranch_last (hflow : FlowInvariant ∅ ir) (hl : ir.lastInstruction bb = some i)
    (hreach : ir.Reached bb) (target : Option BlockId) :
    (ir.insertBranch bb target).lastInstruction bb = some ir.nextInsn ∧
      ((ir.insertBranch bb target).insn ir.nextInsn).flow = (.br, target, none, []) := by
  obtain ⟨root, hempty, hpath⟩ := hreach
  have hlive := hflow.live_of_lastInstruction hl
  -- Edges and marks are those from before the new branch.
  have hblock : ∀ s, (((ir.deleteLastInstruction bb).appendBranch bb target).block s).parents =
        (ir.block s).parents ∧
      (((ir.deleteLastInstruction bb).appendBranch bb target).block s).children = (ir.block s).children ∧
      (((ir.deleteLastInstruction bb).appendBranch bb target).block s).killed = (ir.block s).killed := by
    intro s
    by_cases hs : s = bb
    · subst hs
      simp [Ir.appendBranch, Ir.deleteLastInstruction]
    · simp [Ir.appendBranch, Ir.deleteLastInstruction, hs]
  have hinsns : (((ir.deleteLastInstruction bb).appendBranch bb target).block bb).insns =
      (ir.block bb).insns.dropLast ++ [ir.nextInsn] := by
    simp [Ir.appendBranch, Ir.deleteLastInstruction]
  have hnew : ((ir.deleteLastInstruction bb).appendBranch bb target).insn ir.nextInsn =
      { opcode := .br, bb := some bb, bbTrue := target } := by
    simp [Ir.appendBranch, Ir.deleteLastInstruction]
  have hguarded : Guarded bb root (Relation.ReflTransGen (fun a b => a ≠ bb ∧ a ∈ (ir.block b).parents) root)
      ((ir.deleteLastInstruction bb).appendBranch bb target) := by
    refine ⟨fun s hs => ?_, fun s hs => ?_⟩
    · rw [(hblock s).2.2]
      rcases hs.cases_tail with rfl | ⟨p, -, -, hmem⟩
      · rcases hpath.cases_head with rfl | ⟨c, hmem, -⟩
        · exact hlive
        · exact (hflow.live_of_mem_children (hflow.mem_parents_iff.1 hmem)).1
      · exact (hflow.live_of_mem_children (hflow.mem_parents_iff.1 hmem)).2
    · rcases hs.cases_tail with rfl | ⟨p, hp, hne, hmem⟩
      · exact Or.inl rfl
      · exact Or.inr ⟨p, hne, hp, by rw [(hblock s).1]; exact hmem⟩
  have hroot : root ∉ (ir.block bb).children := fun hmem => by
    have hparent := hflow.mem_parents_iff.2 hmem
    rw [hempty] at hparent
    exact List.not_mem_nil hparent
  have h0 := hflow.replaceTerminator hl target
  have halive := (hguarded.dropChildren h0 (reached_without hpath) [] (ir.block bb).children target
    (hblock bb).2.1 hroot).alive bb (reached_without hpath)
  obtain ⟨-, hsame, hkept⟩ := h0.dropChildren [] (ir.block bb).children target fun _ => (hblock bb).2.1
  have hrun : Ir.dropChildren bb [] (ir.block bb).children target
      ((ir.deleteLastInstruction bb).appendBranch bb target) = ir.insertBranch bb target := by
    simp only [Ir.insertBranch, (hblock bb).2.1]
  rw [hrun] at halive hkept hsame
  refine ⟨?_, ?_⟩
  · rw [Ir.lastInstruction, (hkept halive).2.1, hinsns, List.getLast?_concat]
  · rw [hsame, hnew]
    rfl

theorem insertBranch_transfer (hflow : FlowInvariant ∅ ir) (hl : ir.lastInstruction bb = some i)
    (hreach : ir.Reached bb) (target : Option BlockId) : (ir.insertBranch bb target).transfer env bb = target := by
  obtain ⟨hlast, hnew⟩ := insertBranch_last hflow hl hreach target
  simp only [Instruction.flow, Prod.mk.injEq] at hnew
  rw [Ir.transfer, hlast, Option.bind_some, Instruction.goesTo, hnew.2.1, hnew.2.2.1]
  cases target <;> rfl

/-! ## The branch -/

variable {t f : BlockId} {cond : Pseudo}

theorem goesTo_eq {insn : Instruction} (ht : insn.bbTrue = some t) (hf : insn.bbFalse = some f) :
    insn.goesTo env = if env insn.target ≠ 0 then some t else some f := by
  rw [Instruction.goesTo, ht, hf]

theorem transfer_eq (hl : ir.lastInstruction bb = some i) : ir.transfer env bb = (ir.insn i).goesTo env := by
  rw [Ir.transfer, hl, Option.bind_some]

theorem replaceCond_transfer (hl : ir.lastInstruction bb = some i) (hdef : ∀ p, ir.definition p ≠ some i)
    (ht : (ir.insn i).bbTrue = some t) (hf : (ir.insn i).bbFalse = some f) (cond new : Pseudo) :
    (ir.replaceCond i cond new).transfer env bb = if env new ≠ 0 then some t else some f := by
  have hlast : (ir.replaceCond i cond new).lastInstruction bb = some i := by
    rw [Ir.lastInstruction, (SameFlow.replaceCond ir i cond new).block]
    exact hl
  rw [transfer_eq hlast, replaceCond_insn hdef]
  exact goesTo_eq ht hf

theorem swapTargets_transfer (hl : ir.lastInstruction bb = some i)
    (ht : (ir.insn i).bbTrue = some t) (hf : (ir.insn i).bbFalse = some f) :
    (ir.swapTargets i).transfer env bb = if env (ir.insn i).target ≠ 0 then some f else some t := by
  have hlast : (ir.swapTargets i).lastInstruction bb = some i := hl
  have hinsn : (ir.swapTargets i).insn i = { ir.insn i with bbTrue := some f, bbFalse := some t } := by
    rw [Ir.swapTargets, Ir.setInsn_insn, Function.update_self, ht, hf]
  rw [transfer_eq hlast, hinsn]
  exact goesTo_eq rfl rfl

/-- The condition is a comparison of the new one with zero. -/
theorem simplifyCondBranch_transfer (hl : ir.lastInstruction bb = some i)
    (hdef : ∀ p, ir.definition p ≠ some i) (ht : (ir.insn i).bbTrue = some t) (hf : (ir.insn i).bbFalse = some f)
    (cond : Pseudo) (d : InsnId) (pp : Address) :
    (ir.simplifyCondBranch i cond d pp).transfer env bb =
      if (ir.insn d).opcode = .setEq then if env (ir.load pp) ≠ 0 then some f else some t
      else if env (ir.load pp) ≠ 0 then some t else some f := by
  have hflow := SameFlow.replaceCond ir i cond (ir.load pp)
  have hlast : (ir.replaceCond i cond (ir.load pp)).lastInstruction bb = some i := by
    rw [Ir.lastInstruction, hflow.block]
    exact hl
  have hinsn := replaceCond_insn hdef cond (ir.load pp)
  have hsplit : ir.simplifyCondBranch i cond d pp =
      if (ir.insn d).opcode = .setEq then (ir.replaceCond i cond (ir.load pp)).swapTargets i
      else ir.replaceCond i cond (ir.load pp) := by
    rw [← Instruction.opcode_of_flow (hflow.flow d)]
    rfl
  rw [hsplit]
  split
  · rw [swapTargets_transfer hlast (by rw [hinsn]; exact ht) (by rw [hinsn]; exact hf), hinsn]
  · exact replaceCond_transfer hl hdef ht hf cond _

theorem boolWord_ne_zero {b : Bool} : boolWord b ≠ 0 ↔ b = true := by
  cases b with
  | false => simp [boolWord]
  | true => simp [boolWord]

theorem castWord_zero (type : Option TypeInfo) (size : ℕ) : castWord type size 0 = 0 := by
  have hextend : ∀ w, (0#w).signExtend 64 = 0#64 := fun w =>
    BitVec.eq_of_getLsbD_eq fun i _ => by simp [BitVec.getLsbD_signExtend]
  unfold castWord
  cases type with
  | none => simp
  | some type =>
    dsimp only
    split
    · simp [hextend]
    · simp

variable {nr : ℕ} {d : InsnId}

/-- A comparison with zero is followed, with the sense that it has. -/
theorem compare_transfer (henv : Environment ir env) (hl : ir.lastInstruction bb = some i)
    (hdef : ∀ p, ir.definition p ≠ some i) (ht : (ir.insn i).bbTrue = some t) (hf : (ir.insn i).bbFalse = some f)
    (hcond : (ir.insn i).target = .reg nr) (hd : ir.definition (.reg nr) = some d)
    (hop : (ir.insn d).opcode = .setNe ∨ (ir.insn d).opcode = .setEq) :
    (if (ir.insn d).src1 = .val 0 then ir.simplifyCondBranch i (.reg nr) d (.src2 d)
      else if (ir.insn d).src2 = .val 0 then ir.simplifyCondBranch i (.reg nr) d (.src1 d)
      else ir).transfer env bb = ir.transfer env bb := by
  have hzero : env (.val 0) = 0 := henv.constants 0
  have hvalue := fun value => henv.definitions nr d value hd
  have hcase : ∀ pp : Address, env (.reg nr) = boolWord (if (ir.insn d).opcode = .setEq then
        env (ir.load pp) == 0 else env (ir.load pp) != 0) →
      (ir.simplifyCondBranch i (.reg nr) d pp).transfer env bb = ir.transfer env bb := by
    intro pp hpp
    rw [simplifyCondBranch_transfer hl hdef ht hf, transfer_eq hl, goesTo_eq ht hf, hcond, hpp,
      if_congr boolWord_ne_zero rfl rfl]
    split
    · simp
    · simp
  split
  · rename_i hsrc
    refine hcase _ ?_
    rcases hop with hop | hop
    · rw [hvalue _ (by rw [Instruction.value, hop]), hop, hsrc, hzero, if_neg (by decide)]
      exact congrArg boolWord (bne_comm ..)
    · rw [hvalue _ (by rw [Instruction.value, hop]), hop, hsrc, hzero, if_pos rfl]
      exact congrArg boolWord (BEq.comm ..)
  · split
    · rename_i hsrc
      refine hcase _ ?_
      rcases hop with hop | hop
      · rw [hvalue _ (by rw [Instruction.value, hop]), hop, hsrc, hzero, if_neg (by decide)]
        rfl
      · rw [hvalue _ (by rw [Instruction.value, hop]), hop, hsrc, hzero, if_pos rfl]
        rfl
    · rfl

/-- A select of two constants goes where both lead, or leaves its own condition to the branch. -/
theorem select_transfer (hflow : FlowInvariant ∅ ir) (henv : Environment ir env)
    (hl : ir.lastInstruction bb = some i) (hdef : ∀ p, ir.definition p ≠ some i) (hreach : ir.Reached bb)
    (ht : (ir.insn i).bbTrue = some t) (hf : (ir.insn i).bbFalse = some f)
    (hcond : (ir.insn i).target = .reg nr) (hd : ir.definition (.reg nr) = some d)
    (hop : (ir.insn d).opcode = .sel) {val1 val2 : BitVec 64} (h2 : (ir.insn d).src2 = .val val1)
    (h3 : (ir.insn d).src3 = .val val2) :
    (if val1 = 0 ∧ val2 = 0 then ir.insertBranch bb (ir.insn i).bbFalse
      else if val1 ≠ 0 ∧ val2 ≠ 0 then ir.insertBranch bb (ir.insn i).bbTrue
      else (if val2 ≠ 0 then ir.swapTargets i else ir).replaceCond i (.reg nr) (ir.insn d).src1).transfer env bb =
      ir.transfer env bb := by
  have hvalue : env (.reg nr) = if env (ir.insn d).src1 ≠ 0 then val1 else val2 := by
    rw [henv.definitions nr d _ hd (by rw [Instruction.value, hop]), h2, h3, henv.constants, henv.constants]
  rw [transfer_eq hl, goesTo_eq ht hf, hcond, hvalue]
  split
  · rename_i hboth
    rw [insertBranch_transfer hflow hl hreach, hf, hboth.1, hboth.2, if_neg]
    split
    · exact fun h => h rfl
    · exact fun h => h rfl
  · rename_i hnone
    split
    · rename_i hboth
      rw [insertBranch_transfer hflow hl hreach, ht, if_pos]
      split
      · exact hboth.1
      · exact hboth.2
    · rename_i hmixed
      by_cases hval2 : val2 = 0
      · have hval1 : val1 ≠ 0 := fun h => hnone ⟨h, hval2⟩
        rw [if_neg (not_not_intro hval2), replaceCond_transfer hl hdef ht hf]
        by_cases hsrc : env (ir.insn d).src1 ≠ 0
        · rw [if_pos hsrc, if_pos hsrc, if_pos hval1]
        · rw [if_neg hsrc, if_neg hsrc, if_neg (not_not_intro hval2)]
      · have hval1 : val1 = 0 := by
          by_contra hne
          exact hmixed ⟨hne, hval2⟩
        have hl' : (ir.swapTargets i).lastInstruction bb = some i := hl
        have hinsn : (ir.swapTargets i).insn i = { ir.insn i with bbTrue := some f, bbFalse := some t } := by
          rw [Ir.swapTargets, Ir.setInsn_insn, Function.update_self, ht, hf]
        rw [if_pos hval2, replaceCond_transfer hl' hdef (t := f) (f := t) (by rw [hinsn]) (by rw [hinsn])]
        by_cases hsrc : env (ir.insn d).src1 ≠ 0
        · rw [if_pos hsrc, if_pos hsrc, if_neg (not_not_intro hval1)]
        · rw [if_neg hsrc, if_neg hsrc, if_pos hval2]

/-- The source of a widening cast is tested instead of the cast. -/
theorem cast_transfer_iff (henv : Environment ir env)
    (hl : ir.lastInstruction bb = some i) (hdef : ∀ p, ir.definition p ≠ some i)
    (ht : (ir.insn i).bbTrue = some t) (hf : (ir.insn i).bbFalse = some f)
    (hcond : (ir.insn i).target = .reg nr) (hd : ir.definition (.reg nr) = some d)
    (hop : (ir.insn d).opcode = .cast ∨ (ir.insn d).opcode = .scast) :
    (if (ir.insn d).size > (ir.insn d).origSize then ir.replaceCond i (.reg nr) (ir.insn d).src1
      else ir).transfer env bb = ir.transfer env bb ↔
      ((ir.insn d).origSize < (ir.insn d).size → t ≠ f →
        castWord (ir.insn d).origType (ir.insn d).size (env (ir.insn d).src1) = 0 → env (ir.insn d).src1 = 0) := by
  have hvalue : env (.reg nr) = castWord (ir.insn d).origType (ir.insn d).size (env (ir.insn d).src1) := by
    refine henv.definitions nr d _ hd ?_
    rcases hop with hop | hop
    · rw [Instruction.value, hop]
    · rw [Instruction.value, hop]
  by_cases hwider : (ir.insn d).origSize < (ir.insn d).size
  · rw [if_pos hwider, replaceCond_transfer hl hdef ht hf, transfer_eq hl, goesTo_eq ht hf, hcond, hvalue]
    by_cases hsrc : env (ir.insn d).src1 ≠ 0
    · rw [if_pos hsrc]
      by_cases hcast : castWord (ir.insn d).origType (ir.insn d).size (env (ir.insn d).src1) ≠ 0
      · rw [if_pos hcast]
        exact iff_of_true rfl fun _ _ h => absurd h hcast
      · rw [if_neg hcast]
        constructor
        · exact fun h _ hne _ => absurd (Option.some.inj h) hne
        · intro h
          by_contra hne
          exact hsrc (h hwider (fun heq => hne (congrArg some heq)) (not_not.1 hcast))
    · rw [not_not.1 hsrc, castWord_zero]
      exact iff_of_true rfl fun _ _ _ => rfl
  · rw [if_neg hwider]
    exact iff_of_true rfl fun h => absurd h hwider

/-- The rewrites that look at the definition of the condition. -/
theorem simplifyBranchOn_transfer_iff (hflow : FlowInvariant ∅ ir) (henv : Environment ir env)
    (hl : ir.lastInstruction bb = some i) (hdef : ∀ p, ir.definition p ≠ some i) (hreach : ir.Reached bb)
    (ht : (ir.insn i).bbTrue = some t) (hf : (ir.insn i).bbFalse = some f)
    (hcond : (ir.insn i).target = .reg nr) (hd : ir.definition (.reg nr) = some d) :
    (ir.simplifyBranchOn i bb (.reg nr) d).transfer env bb = ir.transfer env bb ↔
      ((ir.insn d).opcode = .cast ∨ (ir.insn d).opcode = .scast → (ir.insn d).origSize < (ir.insn d).size → t ≠ f →
        castWord (ir.insn d).origType (ir.insn d).size (env (ir.insn d).src1) = 0 → env (ir.insn d).src1 = 0) := by
  unfold Ir.simplifyBranchOn
  dsimp only
  split
  next hop =>
    exact iff_of_true (compare_transfer henv hl hdef ht hf hcond hd (Or.inl hop)) (by simp [hop])
  next hop =>
    exact iff_of_true (compare_transfer henv hl hdef ht hf hcond hd (Or.inr hop)) (by simp [hop])
  next hop h2 h3 =>
    exact iff_of_true (select_transfer hflow henv hl hdef hreach ht hf hcond hd hop h2 h3) (by simp [hop])
  next hop =>
    refine (cast_transfer_iff henv hl hdef ht hf hcond hd (Or.inl hop)).trans ?_
    exact ⟨fun h _ => h, fun h => h (Or.inl hop)⟩
  next hop =>
    refine (cast_transfer_iff henv hl hdef ht hf hcond hd (Or.inr hop)).trans ?_
    exact ⟨fun h _ => h, fun h => h (Or.inr hop)⟩
  next hcast hscast _ => exact iff_of_true rfl fun hop => absurd hop (not_or.2 ⟨hcast, hscast⟩)

/-- Two equal targets are one. -/
theorem sameTarget_transfer (hl : ir.lastInstruction bb = some i)
    (ht : (ir.insn i).bbTrue = some t) (hf : (ir.insn i).bbFalse = some t) :
    (((((ir.removeFromParents t bb 1).removeFromChildren bb t 1).setInsn i ({ · with bbFalse := none })).killUse
      (some (.target i))).setInsn i ({ · with target := .null })).transfer env bb = ir.transfer env bb := by
  have hsame := SameFlow.killUse (((ir.removeFromParents t bb 1).removeFromChildren bb t 1).setInsn i
    ({ · with bbFalse := none })) (some (.target i))
  have hinsns : ((((ir.removeFromParents t bb 1).removeFromChildren bb t 1).setInsn i
      ({ · with bbFalse := none })).block bb).insns = (ir.block bb).insns := by
    by_cases hb : bb = t
    · subst hb
      simp [Ir.removeFromParents, Ir.removeFromChildren]
    · simp [Ir.removeFromParents, Ir.removeFromChildren, hb]
  have hlast : (((((ir.removeFromParents t bb 1).removeFromChildren bb t 1).setInsn i
      ({ · with bbFalse := none })).killUse (some (.target i))).setInsn i
        ({ · with target := .null })).lastInstruction bb = some i := by
    rw [Ir.lastInstruction, Ir.setInsn_block, hsame.block, hinsns]
    exact hl
  have hkept := hsame.flow i
  simp only [Instruction.flow, Prod.mk.injEq, Ir.setInsn_insn, Function.update_self] at hkept
  rw [transfer_eq hlast, transfer_eq hl, goesTo_eq ht hf, Ir.setInsn_insn, Function.update_self, Instruction.goesTo,
    hkept.2.1, hkept.2.2.1]
  have htrue : (((ir.removeFromParents t bb 1).removeFromChildren bb t 1).insn i).bbTrue = some t := ht
  rw [htrue, ite_self]

end

section

variable {ir : Ir} {bb : BlockId} {i : InsnId} {t f : BlockId}

theorem simplifyBranch_of_eq (hnull : (ir.insn i).target ≠ .null) (hval : ∀ value, (ir.insn i).target ≠ .val value)
    (ht : (ir.insn i).bbTrue = some t) (hf : (ir.insn i).bbFalse = some t) :
    ir.simplifyBranch i bb =
      ((((ir.removeFromParents t bb 1).removeFromChildren bb t 1).setInsn i ({ · with bbFalse := none })).killUse
        (some (.target i))).setInsn i ({ · with target := .null }) := by
  unfold Ir.simplifyBranch
  dsimp only
  split
  next h => exact absurd h hnull
  next value h => exact absurd h (hval value)
  next =>
    rw [ht, hf]
    exact if_pos rfl

theorem simplifyBranch_of_defined {nr : ℕ} {d : InsnId} (ht : (ir.insn i).bbTrue = some t)
    (hf : (ir.insn i).bbFalse = some f) (hne : t ≠ f) (hcond : (ir.insn i).target = .reg nr)
    (hd : ir.definition (.reg nr) = some d) :
    ir.simplifyBranch i bb = ir.simplifyBranchOn i bb (.reg nr) d := by
  unfold Ir.simplifyBranch
  simp only [hcond, ht, hf, hd, if_neg hne]

theorem simplifyBranch_of_not_defined (hnull : (ir.insn i).target ≠ .null)
    (hval : ∀ value, (ir.insn i).target ≠ .val value) (ht : (ir.insn i).bbTrue = some t)
    (hf : (ir.insn i).bbFalse = some f) (hne : t ≠ f)
    (hreg : ∀ nr d, (ir.insn i).target = .reg nr → ir.definition (.reg nr) ≠ some d) :
    ir.simplifyBranch i bb = ir := by
  unfold Ir.simplifyBranch
  dsimp only
  split
  next h => exact absurd h hnull
  next value h => exact absurd h (hval value)
  next =>
    simp only [ht, hf, if_neg hne]
    split
    next nr d hcond hd => exact absurd (hcond ▸ hd) (hreg nr d hcond)
    next => rfl

end

/-- A branch goes where it went, if and only if no cast that it looks through has lost the bits
that make its source nonzero. -/
theorem simplifyBranch_transfer_iff {ir : Ir} {env : Pseudo → BitVec 64} {bb : BlockId} {i : InsnId}
    (hflow : FlowInvariant ∅ ir) (huse : UseInvariant ir) (henv : Environment ir env)
    (hl : ir.lastInstruction bb = some i) (ho : (ir.insn i).opcode = .br) (hreach : ir.Reached bb)
    (hboth : (ir.insn i).target = .null ∨ ∃ t f, (ir.insn i).bbTrue = some t ∧ (ir.insn i).bbFalse = some f) :
    (ir.simplifyBranch i bb).transfer env bb = ir.transfer env bb ↔ ir.BranchFits env i := by
  have hdef := undefined_of_isJump huse (by rw [ho]; rfl)
  by_cases hnull : (ir.insn i).target = .null
  · refine iff_of_true ?_ fun d hd => ?_
    · rw [Ir.simplifyBranch, hnull]
    · obtain ⟨nr, hcond, -⟩ := hd.defined
      rw [hnull] at hcond
      cases hcond
  · obtain ⟨t, f, ht, hf⟩ := hboth.resolve_left hnull
    by_cases hval : ∀ value, (ir.insn i).target ≠ .val value
    · by_cases hne : t = f
      · subst hne
        rw [simplifyBranch_of_eq hnull hval ht hf]
        exact iff_of_true (sameTarget_transfer hl ht hf) fun d _ hne => absurd (ht.trans hf.symm) hne
      · by_cases hreg : ∀ nr d, (ir.insn i).target = .reg nr → ir.definition (.reg nr) ≠ some d
        · rw [simplifyBranch_of_not_defined hnull hval ht hf hne hreg]
          refine iff_of_true rfl fun d hd => ?_
          obtain ⟨nr, hcond, hdefined⟩ := hd.defined
          exact absurd hdefined (hreg nr d hcond)
        · push Not at hreg
          obtain ⟨nr, d, hcond, hd⟩ := hreg
          rw [simplifyBranch_of_defined ht hf hne hcond hd,
            simplifyBranchOn_transfer_iff hflow henv hl hdef hreach ht hf hcond hd]
          constructor
          · intro h d' hd' _
            obtain ⟨nr', hcond', hd''⟩ := hd'.defined
            obtain rfl := Pseudo.reg.inj (hcond.symm.trans hcond')
            obtain rfl := Option.some.inj (hd.symm.trans hd'')
            exact h hd'.cast hd'.widens hne
          · exact fun h hop hwider _ => h d ⟨⟨nr, hcond, hd⟩, hop, hwider⟩ (by rw [ht, hf]; simpa using hne)
    · push Not at hval
      obtain ⟨value, hcond⟩ := hval
      have hconstant : ir.simplifyBranch i bb =
          ir.insertBranch bb (if value ≠ 0 then (ir.insn i).bbTrue else (ir.insn i).bbFalse) := by
        rw [Ir.simplifyBranch, hcond]
      refine iff_of_true ?_ fun d hd => ?_
      · rw [hconstant, insertBranch_transfer hflow hl hreach, transfer_eq hl, goesTo_eq ht hf, hcond,
          henv.constants, ht, hf]
      · obtain ⟨nr, hcond', -⟩ := hd.defined
        rw [hcond] at hcond'
        cases hcond'

/-! ## The select -/

/-- What other live instructions read has its value, and so has the result of the instruction, if
it is still there. -/
structure Ir.KeepsTarget (ir ir' : Ir) (env : Pseudo → BitVec 64) (i : InsnId) : Prop where
  slots : ∀ j s, j ≠ i → ir'.Owns j s → env (ir'.load s) = env (ir.load s)
  value : ir'.live i → (ir'.insn i).value env = some (env (ir.insn i).target)

section

variable {ir : Ir} {env : Pseudo → BitVec 64} {i : InsnId}

/-- Two constants with the union 1 are 0 or 1. -/
theorem zero_or_one_of_or {x y : BitVec 64} (h : x ||| y = 1) : x = 0 ∨ x = 1 := by
  have hhigh : ∀ k, 0 < k → x.getLsbD k = false := by
    intro k hk
    have hbit : (x ||| y).getLsbD k = false := by
      rw [h]
      change (1#64).getLsbD k = false
      rw [BitVec.getLsbD_one]
      simp [Nat.ne_of_gt hk]
    rw [BitVec.getLsbD_or, Bool.or_eq_false_iff] at hbit
    exact hbit.1
  cases hlow : x.getLsbD 0 with
  | false =>
    left
    refine BitVec.eq_of_getLsbD_eq fun k _ => ?_
    rcases Nat.eq_zero_or_pos k with rfl | hk
    · rw [hlow]
      rfl
    · rw [hhigh k hk]
      exact BitVec.getLsbD_zero.symm
  | true =>
    right
    refine BitVec.eq_of_getLsbD_eq fun k _ => ?_
    rcases Nat.eq_zero_or_pos k with rfl | hk
    · rw [hlow]
      rfl
    · rw [hhigh k hk]
      change false = (1#64).getLsbD k
      rw [BitVec.getLsbD_one]
      simp [Nat.ne_of_gt hk]

/-- `kill_use` on a slot of one instruction leaves the slots of the others. -/
theorem killUse_load (huse : UseInvariant ir) {t : Address} (ht : t.insn? = some i)
    (hst : ∀ j, t = .target j → (ir.insn j).opcode.storesTarget = true) :
    ∀ j s, j ≠ i → (ir.killUse (some t)).Owns j s → (ir.killUse (some t)).load s = ir.load s ∧ ir.Owns j s := by
  intro j s hj ho
  obtain ⟨-, hframe⟩ := huse.killUse_frame hst
  have hempty := hframe.owns ho
  have hne : s ≠ t := by
    rintro rfl
    exact hj (UseInvariant.insn?_of_owns ho ht).symm
  rw [hframe.slots j s ho, Ir.load_emptySlot, if_neg hne]
  exact ⟨rfl, ((SameForm.emptySlot ir t).owns j s).1 hempty⟩

theorem killUse_live (huse : UseInvariant ir) {t : Address}
    (hst : ∀ j, t = .target j → (ir.insn j).opcode.storesTarget = true) {j : InsnId}
    (hlive : (ir.killUse (some t)).live j) : ir.live j :=
  ((SameForm.emptySlot ir t).live j).1 ((huse.killUse_frame hst).2.live j hlive)

/-- A select that nothing uses goes. -/
theorem deadInsn_keepsTarget (env : Pseudo → BitVec 64) (huse : UseInvariant ir)
    (hasm : (ir.insn i).opcode ≠ .asm)
    (hdead : (ir.deadInsn i (some (.src1 i)) (some (.src2 i)) (some (.src3 i))).2 = true) :
    ir.KeepsTarget (ir.deadInsn i (some (.src1 i)) (some (.src2 i)) (some (.src3 i))).1 env i := by
  unfold Ir.deadInsn at hdead ⊢
  split at hdead
  · rename_i hall
    rw [if_pos hall]
    have h0 := huse.clearDead hasm hall
    have h1 := (h0.killUse_frame (s := .src1 i) (by simp)).1
    have h2 := (h1.killUse_frame (s := .src2 i) (by simp)).1
    refine ⟨fun j s hj ho => ?_, fun hlive => ?_⟩
    · obtain ⟨hload₃, ho₃⟩ := killUse_load h2 (i := i) rfl (by simp) j s hj ho
      obtain ⟨hload₂, ho₂⟩ := killUse_load h1 (i := i) rfl (by simp) j s hj ho₃
      obtain ⟨hload₁, -⟩ := killUse_load h0 (i := i) rfl (by simp) j s hj ho₂
      rw [hload₃, hload₂, hload₁, Ir.load_clearBb]
    · have hcleared := killUse_live h0 (by simp) (killUse_live h1 (by simp) (killUse_live h2 (by simp) hlive))
      exact absurd rfl ((ir.live_clearBb i i).1 hcleared).1
  · cases hdead

/-- One arm takes the place of the select. -/
theorem takeArm_keepsTarget (huse : UseInvariant ir) {nr : ℕ} (hd : ir.definition (.reg nr) = some i)
    (hasm : (ir.insn i).opcode ≠ .asm) {kill : Address} (hkill : kill.insn? = some i) (hstore : ∀ j, kill ≠ .target j)
    {take : Pseudo} (htake : env take = env (.reg nr)) :
    ir.KeepsTarget (((ir.killUse (some (.src1 i))).killUse (some kill)).replaceWithPseudo i take) env i := by
  have h1 := (huse.killUse_frame (s := .src1 i) (by simp)).1
  have hst : ∀ j, kill = .target j → ((ir.killUse (some (.src1 i))).insn j).opcode.storesTarget = true :=
    fun j hj => absurd hj (hstore j)
  have h2 := (h1.killUse_frame hst).1
  have hd2 : ((ir.killUse (some (.src1 i))).killUse (some kill)).definition (.reg nr) = some i := by
    rw [h1.killUse_definition hst, huse.killUse_definition (by simp)]
    exact hd
  have hasm2 : (((ir.killUse (some (.src1 i))).killUse (some kill)).insn i).opcode ≠ .asm := by
    rw [h1.killUse_opcode hst, huse.killUse_opcode (by simp)]
    exact hasm
  have hload : ∀ j s, j ≠ i → ((ir.killUse (some (.src1 i))).killUse (some kill)).Owns j s →
      ((ir.killUse (some (.src1 i))).killUse (some kill)).load s = ir.load s := by
    intro j s hj ho
    obtain ⟨hload₂, ho₂⟩ := killUse_load h1 hkill hst j s hj ho
    rw [hload₂, (killUse_load huse (i := i) rfl (by simp) j s hj ho₂).1]
  generalize (ir.killUse (some (.src1 i))).killUse (some kill) = ir₂ at *
  have htarget : (ir₂.insn i).target = .reg nr := h2.target_of_definition hd2 hasm2
  have hconvert : ∀ j s, ir₂.Owns j s →
      env ((ir₂.convertInstructionTarget i take).load s) = env (ir₂.load s) := by
    intro j s ho
    unfold Ir.convertInstructionTarget
    simp only [htarget]
    split
    · rfl
    · rw [Ir.setUsers_load, Ir.setUsers_load, Ir.convertUsers_load]
      split
      · rename_i hpu
        obtain ⟨⟨pu, hpu, heq⟩, -⟩ := hpu
        rw [h2.load_eq_of_mem ho rfl hpu heq, htake]
      · rfl
  have hsame : SameForm ir₂ (ir₂.convertInstructionTarget i take) := by
    unfold Ir.convertInstructionTarget
    dsimp only
    split
    · exact .refl _
    · exact ((SameForm.convertUsers take ir₂ _).trans (.setUsers _ _ _)).trans (.setUsers _ _ _)
  refine ⟨fun j s hj ho => ?_, fun hlive => ?_⟩
  · rw [Ir.replaceWithPseudo, Ir.load_clearBb]
    have ho₂ : ir₂.Owns j s := by
      refine (hsame.owns j s).1 ⟨(((Ir.live_clearBb _ i j).1 ho.1).2), ?_⟩
      have hslots := ho.2
      rw [Ir.replaceWithPseudo, Ir.clearBb, Ir.setInsn_insn, Function.update_of_ne hj] at hslots
      exact hslots
    rw [hconvert j s ho₂, hload j s hj ho₂]
  · exact absurd rfl ((Ir.live_clearBb _ i i).1 hlive).1

/-- A select becomes a comparison of the same value. -/
theorem compare_keepsTarget {op : Opcode} {q : Pseudo}
    (hvalue : ({ ir.insn i with opcode := op, src2 := q } : Instruction).value env = some (env (ir.insn i).target)) :
    ir.KeepsTarget (ir.setInsn i ({ · with opcode := op, src2 := q })) env i := by
  refine ⟨fun j s hj ho => ?_, fun _ => ?_⟩
  · have hne : s ≠ .src2 i := by
      rintro rfl
      exact hj (UseInvariant.insn?_of_owns ho rfl).symm
    cases s with
    | cell c => rfl
    | target k | src1 k | src2 k | src3 k =>
      by_cases hk : k = i
      · subst hk
        simp [Ir.load] at hne ⊢
      · simp [Ir.load, hk]
  · rw [Ir.setInsn_insn, Function.update_self]
    exact hvalue

/-- A select keeps the value of its target. -/
theorem simplifySelect_keepsTarget (huse : UseInvariant ir) (henv : Environment ir env) (hi : ir.live i)
    (hop : (ir.insn i).opcode = .sel) : ir.KeepsTarget (ir.simplifySelect i) env i := by
  obtain ⟨nr, ht, hd⟩ := huse.defines i hi (by rw [hop]; rfl)
  have hvalue : env (.reg nr) = if env (ir.insn i).src1 ≠ 0 then env (ir.insn i).src2 else env (ir.insn i).src3 :=
    henv.definitions nr i _ hd (by rw [Instruction.value, hop])
  have hasm : (ir.insn i).opcode ≠ .asm := by rw [hop]; decide
  unfold Ir.simplifySelect
  split
  next ir₁ hdead =>
    have hkept := deadInsn_keepsTarget (i := i) env huse hasm (by rw [hdead])
    rwa [hdead] at hkept
  next ir₁ hdead =>
    obtain rfl : ir₁ = ir := by
      unfold Ir.deadInsn at hdead
      split at hdead
      · simp at hdead
      · exact (Prod.mk.inj hdead).1.symm
    dsimp only
    split
    · rename_i hrule
      have htake : env (if Ir.valueField (ir₁.insn i).src1 then (ir₁.insn i).src2 else (ir₁.insn i).src3) =
          env (.reg nr) := by
        rw [hvalue]
        rcases hrule with hconst | hsame
        · cases hcond : (ir₁.insn i).src1 with
          | val value =>
            rw [henv.constants]
            by_cases hv : value ≠ 0
            · rw [if_pos (show Ir.valueField (.val value) = true from decide_eq_true hv), if_pos hv]
            · rw [if_neg fun h : Ir.valueField (.val value) = true => hv (of_decide_eq_true h), if_neg hv]
          | null | void | reg _ | sym _ | arg _ | phi _ =>
            rw [hcond] at hconst
            cases hconst
        · rw [hsame, ite_self, ite_self]
      split
      · rename_i hv
        rw [if_pos hv] at htake
        exact takeArm_keepsTarget huse hd hasm rfl (by simp) htake
      · rename_i hv
        rw [if_neg hv] at htake
        exact takeArm_keepsTarget huse hd hasm rfl (by simp) htake
    · rename_i hrule
      have hstay : ir₁.KeepsTarget ir₁ env i :=
        ⟨fun _ _ _ _ => rfl, fun _ => by rw [ht, hvalue, Instruction.value, hop]⟩
      split
      next val1 val2 h2 h3 =>
        rw [h2, h3, henv.constants, henv.constants] at hvalue
        split
        · rename_i hor
          have hne : val1 ≠ val2 := fun heq => hrule (Or.inr (by rw [h2, h3, heq]))
          rcases zero_or_one_of_or hor with hval1 | hval1
          · obtain hval2 : val2 = 1 := by
              rw [hval1] at hor
              simpa using hor
            rw [if_neg (not_not_intro hval1)]
            refine compare_keepsTarget ?_
            rw [ht, hvalue, Instruction.value]
            dsimp only
            rw [h2, henv.constants, hval1, hval2]
            by_cases hcond : env (ir₁.insn i).src1 = 0#64
            · simp [hcond, boolWord]
            · simp [hcond, boolWord]
          · obtain hval2 : val2 = 0 := by
              rw [BitVec.or_comm] at hor
              exact (zero_or_one_of_or hor).resolve_right fun h => hne (hval1.trans h.symm)
            rw [if_pos (by rw [hval1]; decide)]
            refine compare_keepsTarget ?_
            rw [ht, hvalue, Instruction.value]
            dsimp only
            rw [h3, henv.constants, hval1, hval2]
            by_cases hcond : env (ir₁.insn i).src1 = 0#64
            · simp [hcond, boolWord]
            · simp [hcond, boolWord]
        · exact hstay
      next => exact hstay

end

/-- Branches go where they went, if and only if no widening cast that they look through loses the
bits that make its source nonzero, and selects keep their values. -/
theorem branches_and_selects_kept {ir : Ir} {env : Pseudo → BitVec 64} (hflow : FlowInvariant ∅ ir)
    (huse : UseInvariant ir) (henv : Environment ir env) :
    (∀ bb i, ir.lastInstruction bb = some i → (ir.insn i).opcode = .br → ir.Reached bb →
      ((ir.insn i).target = .null ∨ ∃ t f, (ir.insn i).bbTrue = some t ∧ (ir.insn i).bbFalse = some f) →
      ((ir.simplifyBranch i bb).transfer env bb = ir.transfer env bb ↔ ir.BranchFits env i)) ∧
    ∀ i, ir.live i → (ir.insn i).opcode = .sel → ir.KeepsTarget (ir.simplifySelect i) env i :=
  ⟨fun _ _ hl ho hreach hboth => simplifyBranch_transfer_iff hflow huse henv hl ho hreach hboth,
    fun _ hi hop => simplifySelect_keepsTarget huse henv hi hop⟩

/-- The test of a field of 3 bits: the word that holds it is loaded, the field is cast to `int`. Where it
is not zero, a select returns whether the word is zero. -/
def testedField : Ir where
  insn
    | 0 => { opcode := .load, size := 32, bb := some 0, src1 := .sym 0, target := .reg 0 }
    | 1 => { opcode := .scast, size := 32, bb := some 0, src1 := .reg 0, target := .reg 1,
             origType := some ⟨3, true, false⟩ }
    | 2 => { opcode := .br, bb := some 0, target := .reg 1, bbTrue := some 1, bbFalse := some 2 }
    | 3 => { opcode := .ret, bb := some 1, src1 := .reg 2 }
    | 4 => { opcode := .ret, bb := some 2 }
    | 5 => { opcode := .sel, size := 32, bb := some 1, src1 := .reg 0, src2 := .val 0, src3 := .val 1,
             target := .reg 2 }
    | _ => { opcode := .badop }
  block
    | 0 => { children := [1, 2], insns := [0, 1, 2] }
    | 1 => { parents := [0], insns := [5, 3] }
    | 2 => { parents := [0], insns := [4] }
    | _ => {}
  cell _ := .null
  definition
    | .reg 0 => some 0
    | .reg 1 => some 1
    | .reg 2 => some 5
    | _ => none
  users
    | .sym 0 => [⟨0, .src1 0⟩]
    | .reg 0 => [⟨1, .src1 1⟩, ⟨5, .src1 5⟩]
    | .reg 1 => [⟨2, .target 2⟩]
    | .reg 2 => [⟨3, .src1 3⟩]
    | _ => []
  bbs := [0, 1, 2]
  entry := 6
  nextInsn := 7
  nextBlock := 3
  nextCell := 0
  nextReg := 3
  nextPhi := 0
  bbGeneration := 0

/-- The field is 0 and the field beside it is 1. -/
def besideField : Pseudo → BitVec 64
  | .val value => value
  | .reg 0 => 8
  | _ => 0

private theorem testedField_flow : FlowInvariant ∅ testedField := by
  refine .of_check (fun b hb => ?_) (by decide)
  match b with
  | 0 | 1 | 2 => exact absurd hb (by decide)
  | n + 3 => rfl

private theorem testedField_definition {p : Pseudo} {d : InsnId} (h : testedField.definition p = some d) :
    (p = .reg 0 ∧ d = 0) ∨ (p = .reg 1 ∧ d = 1) ∨ (p = .reg 2 ∧ d = 5) := by
  revert h
  simp only [testedField]
  split <;> simp [eq_comm]

private theorem testedField_use : UseInvariant testedField := by
  refine .of_check [.sym 0, .reg 0, .reg 1, .reg 2] (fun i hi => ?_) (fun p hp => ?_) (by decide)
  · match i with
    | 0 | 1 | 2 | 3 | 4 | 5 => exact absurd hi (by decide)
    | n + 6 => exact fun h => h rfl
  · simp only [testedField]
    split <;> simp_all

private theorem besideField_environment : Environment testedField besideField where
  constants _ := rfl
  definitions nr d value hd hv := by
    rcases testedField_definition hd with ⟨he, rfl⟩ | ⟨he, rfl⟩ | ⟨he, rfl⟩
    · cases hv
    · cases he
      exact Option.some.inj hv
    · cases he
      exact Option.some.inj hv

private theorem testedField_reached : testedField.Reached 0 := ⟨0, rfl, .refl⟩

theorem testedField_branches_and_selects :
    ((testedField.simplifyBranch 2 0).transfer besideField 0 = testedField.transfer besideField 0 ↔
      testedField.BranchFits besideField 2) ∧
    testedField.KeepsTarget (testedField.simplifySelect 5) besideField 5 ∧
      ((testedField.simplifySelect 5).insn 5).opcode = .setEq := by
  have hkept := branches_and_selects_kept testedField_flow testedField_use besideField_environment
  exact ⟨hkept.1 0 2 rfl rfl testedField_reached (Or.inr ⟨1, 2, rfl, rfl⟩),
    hkept.2 5 (by decide) rfl, by decide⟩

/-- The field is zero, and the branch takes the other arm. -/
theorem testedField_goes_elsewhere :
    FlowInvariant ∅ testedField ∧ UseInvariant testedField ∧ Environment testedField besideField ∧
      testedField.Reached 0 ∧ testedField.transfer besideField 0 = some 2 ∧
      (testedField.simplifyBranch 2 0).transfer besideField 0 = some 1 :=
  ⟨testedField_flow, testedField_use, besideField_environment, testedField_reached, by decide, by decide⟩

end Sparse
