import Sparse.UseListRuns
import Sparse.ValueChains

/-!
# Folding constants into addresses

`simplify_memop` follows the address of a load or store back through the taking of a symbol's
address and through additions of constants, and adds these to the offset of the instruction. It
looks for a way back to the address it started from, and for no other cycle.
-/

namespace Sparse

open ValueChains

/-- The loop of `simplify_memop`: the number of rounds that it may take is limited. -/
def Ir.simplifyMemopLoop (i : InsnId) (orig : Pseudo) : ℕ → Ir → Bool → Option (Ir × Bool)
  | 0, _, _ => none
  | fuel + 1, ir, ret =>
    match ir.simplifyOneMemop i orig with
    | (ir, true) => Ir.simplifyMemopLoop i orig fuel ir true
    | (ir, false) => some (ir, ret)

/-- `simplify_memop`. -/
def Ir.simplifyMemop (ir : Ir) (i : InsnId) (fuel : ℕ) : Option (Ir × Bool) :=
  Ir.simplifyMemopLoop i (ir.insn i).src1 fuel ir false

/-! ## The graph of definitions -/

/-- What an address is computed from, and what is added to that. -/
def Ir.link (ir : Ir) : Pseudo → Option (Pseudo × BitVec 64)
  | .reg nr =>
    match ir.definition (.reg nr) with
    | none => none
    | some d =>
      if (ir.insn d).opcode = .symaddr ∧ (ir.insn d).src1 ≠ .null then some ((ir.insn d).src1, 0)
      else if (ir.insn d).opcode = .addLin then
        match (ir.insn d).src1, (ir.insn d).src2 with
        | new, .val off => some (new, off)
        | .val off, new => some (new, off)
        | _, _ => none
      else none
  | _ => none

/-- The pseudo is computed by an addition. -/
def Ir.IsSum (ir : Ir) (p : Pseudo) : Prop :=
  ∃ d, ir.definition p = some d ∧ (ir.insn d).opcode = .addLin

/-- The links from an address come to an end, or back to the address with an addition. -/
def Ir.Closes (ir : Ir) (p : Pseudo) : Prop :=
  ∃ total q, Leads ir.link p total q ∧
    (ir.link q = none ∨ ∃ off, ir.link q = some (p, off) ∧ ir.IsSum q)

/-- The size of the instruction that computes a pseudo. -/
def Ir.sizeOf (ir : Ir) (p : Pseudo) : ℕ :=
  ((ir.definition p).map fun d => (ir.insn d).size).getD 0

/-- Values of the pseudos along the links from an address: an instruction gives its result as many
bits as its size says. -/
def Ir.ChainValues (ir : Ir) (env : Pseudo → BitVec 64) (p : Pseudo) : Prop :=
  ∀ total q r off, Leads ir.link p total q → ir.link q = some (r, off) →
    (env q).setWidth (ir.sizeOf q) = (env r + off).setWidth (ir.sizeOf q)

/-- The address that a load or store goes to, in pointers of some width. -/
def Instruction.address (insn : Instruction) (env : Pseudo → BitVec 64) (width : ℕ) : BitVec width :=
  (env insn.src1 + insn.offset.setWidth 64).setWidth width

/-! ## One round -/

/-- The instruction has a new address and a larger offset, and what is left of the graph is as
it was. -/
structure Folded (ir ir' : Ir) (i : InsnId) (p : Pseudo) (off : BitVec 64) : Prop where
  use : UseInvariant ir'
  live : ir'.live i
  alive : ∀ j, ir'.live j → ir.live j
  src1 : (ir'.insn i).src1 = p
  offset : (ir'.insn i).offset = (ir.insn i).offset + off.setWidth 32
  opcode : ∀ j, (ir'.insn j).opcode = (ir.insn j).opcode
  definition : ir'.definition = ir.definition
  link : ∀ q, ir'.Available q → ir'.link q = ir.link q

section

variable {ir ir' : Ir} {i : InsnId}

/-- The link of a pseudo reads the opcode and the operands of the definition. -/
theorem link_congr (hdef : ir'.definition = ir.definition)
    (hop : ∀ j, (ir'.insn j).opcode = (ir.insn j).opcode)
    (hmem : (ir.insn i).opcode = .load ∨ (ir.insn i).opcode = .store)
    (hslots : ∀ j s, j ≠ i → ir'.Owns j s → ir'.load s = ir.load s) {q : Pseudo} (hq : ir'.Available q) :
    ir'.link q = ir.link q := by
  cases q with
  | reg nr =>
    cases hd : ir.definition (.reg nr) with
    | none => simp only [Ir.link, hdef, hd]
    | some d =>
      have hlive : ir'.live d := hq nr d rfl (by rw [hdef]; exact hd)
      have hsame : ∀ s, s.insn? = some d → s ∈ (ir'.insn d).operandSlots d → d ≠ i → ir'.load s = ir.load s :=
        fun s _ hs hd => hslots d s hd ⟨hlive, hs⟩
      simp only [Ir.link, hdef, hd, hop]
      by_cases hsym : (ir.insn d).opcode = .symaddr
      · have hne : d ≠ i := by
          rintro rfl
          rcases hmem with hm | hm
          · rw [hm] at hsym
            cases hsym
          · rw [hm] at hsym
            cases hsym
        have h1 : (ir'.insn d).src1 = (ir.insn d).src1 := hsame (.src1 d) rfl
          (by simp [Instruction.operandSlots, hop, hsym]) hne
        rw [h1]
        simp [hsym]
      · by_cases hadd : (ir.insn d).opcode = .addLin
        · have hne : d ≠ i := by
            rintro rfl
            rcases hmem with hm | hm
            · rw [hm] at hadd
              cases hadd
            · rw [hm] at hadd
              cases hadd
          have h1 : (ir'.insn d).src1 = (ir.insn d).src1 := hsame (.src1 d) rfl
            (by simp [Instruction.operandSlots, hop, hadd, Opcode.isBinary]) hne
          have h2 : (ir'.insn d).src2 = (ir.insn d).src2 := hsame (.src2 d) rfl
            (by simp [Instruction.operandSlots, hop, hadd, Opcode.isBinary]) hne
          rw [h1, h2]
        · simp [hsym, hadd]
  | null | void | sym _ | val _ | arg _ | phi _ => rfl

theorem owns_src1 (hi : ir.live i) (hmem : (ir.insn i).opcode = .load ∨ (ir.insn i).opcode = .store) :
    ir.Owns i (.src1 i) := by
  refine ⟨hi, ?_⟩
  rcases hmem with hm | hm
  · simp [Instruction.operandSlots, hm]
  · simp [Instruction.operandSlots, hm]

theorem not_killable (hmem : (ir.insn i).opcode = .load ∨ (ir.insn i).opcode = .store) :
    (ir.insn i).opcode.killable = false := by
  rcases hmem with hm | hm
  · rw [hm]
    rfl
  · rw [hm]
    rfl

/-- The slot of the address takes another pseudo, and kills follow. -/
theorem folded_of_frame {mid : Ir} {p : Pseudo} {off : BitVec 64} (huse : UseInvariant ir')
    (hi : ir.live i) (hmem : (ir.insn i).opcode = .load ∨ (ir.insn i).opcode = .store)
    (hsame : SameForm ir mid) (hload : ∀ s, mid.load s = if s = .src1 i then p else ir.load s)
    (hoff : (mid.insn i).offset = (ir.insn i).offset + off.setWidth 32)
    (hframe : KillFrame mid ir') (hrest : SameRest mid ir') : Folded ir ir' i p off := by
  have hop : ∀ j, (ir'.insn j).opcode = (ir.insn j).opcode := fun j => (hrest.opcode j).trans (hsame.opcode j)
  have hlive : ir'.live i := hframe.kept i ((hsame.live i).2 hi) (by rw [hsame.opcode]; exact not_killable hmem)
  have hmem' : (ir'.insn i).opcode = .load ∨ (ir'.insn i).opcode = .store := by
    rw [hop]
    exact hmem
  have hdef : ir'.definition = ir.definition := hframe.definition.trans hsame.definition
  refine ⟨huse, hlive, fun j hj => (hsame.live j).1 (hframe.live j hj), ?_, (hrest.offset i).trans hoff, hop, hdef,
    fun q hq => link_congr hdef hop hmem (fun j s hj ho => ?_) hq⟩
  · have h := hframe.slots i (.src1 i) (owns_src1 hlive hmem')
    rw [hload, if_pos rfl] at h
    exact h
  · rw [hframe.slots j s ho, hload, if_neg]
    rintro rfl
    exact hj (UseInvariant.insn?_of_owns ho rfl).symm

/-- A constant goes into the offset. -/
theorem foldOffset (h : UseInvariant ir) (hi : ir.live i)
    (hmem : (ir.insn i).opcode = .load ∨ (ir.insn i).opcode = .store) {new : Pseudo} (off : BitVec 64)
    (hnew : ir.Available new) :
    Folded ir (((ir.setInsn i (fun insn => { insn with offset := insn.offset + off.setWidth 32 })).usePseudo i
      new (.src1 i)).removeUsage (ir.insn i).src1 (.src1 i)) i new off := by
  obtain ⟨h1, hs, hl⟩ := h.touch (i := i)
    (f := fun insn => { insn with offset := insn.offset + off.setWidth 32 }) rfl rfl rfl rfl rfl rfl
  have hoff : ((ir.setInsn i (fun insn => { insn with offset := insn.offset + off.setWidth 32 })).insn i).offset =
      (ir.insn i).offset + off.setWidth 32 := by
    rw [Ir.setInsn_insn, Function.update_self]
  have hsrc : (ir.insn i).src1 =
      (ir.setInsn i (fun insn => { insn with offset := insn.offset + off.setWidth 32 })).load (.src1 i) :=
    (hl (.src1 i)).symm
  rw [hsrc, Ir.replaceUse_eq]
  generalize ir.setInsn i (fun insn => { insn with offset := insn.offset + off.setWidth 32 }) = ir₁ at *
  have ho : ir₁.Owns i (.src1 i) := (hs.owns i _).2 (owns_src1 hi hmem)
  have hrest := SameRest.retargetSlot ir₁ i new (.src1 i)
  have hload : ∀ s, (ir₁.retargetSlot i new (.src1 i)).load s = if s = .src1 i then new else ir.load s := by
    intro s
    rw [Ir.load_retargetSlot, hl s]
  obtain ⟨huse, hframe⟩ := KillKeeps.killInstruction.dropDefinition (h1.retarget ho (hs.available.2 hnew))
    (ir₁.load (.src1 i))
  exact folded_of_frame huse hi hmem (hs.trans (SameForm.retargetSlot ir₁ i new _)) hload
    ((hrest.offset i).trans hoff) hframe (SameRest.dropDefinition SameRest.killInstruction _ _)

/-- The symbol takes the place of its address. -/
theorem foldSymbol (h : UseInvariant ir) (hi : ir.live i)
    (hmem : (ir.insn i).opcode = .load ∨ (ir.insn i).opcode = .store) {nr : ℕ} {d : InsnId}
    (hs : (ir.insn i).src1 = .reg nr) (hd : ir.definition (.reg nr) = some d)
    (hop : (ir.insn d).opcode = .symaddr) :
    Folded ir ((ir.killUse (some (.src1 i))).usePseudo i ((ir.killUse (some (.src1 i))).insn d).src1 (.src1 i))
      i (ir.insn d).src1 0 := by
  have hdi : d ≠ i := by
    rintro rfl
    rcases hmem with hm | hm
    · rw [hm] at hop
      cases hop
    · rw [hm] at hop
      cases hop
  have huse := h.useSymbolAddress (owns_src1 hi hmem) hs hd hop hdi
  obtain ⟨-, hframe⟩ := h.killUse_frame (s := .src1 i) (by simp)
  have hempty := SameForm.emptySlot ir (.src1 i)
  have hload : ((ir.killUse (some (.src1 i))).insn d).src1 = (ir.insn d).src1 := by
    have hslot : (ir.emptySlot (.src1 i)).load (.src1 d) = (ir.insn d).src1 := by
      rw [Ir.load_emptySlot, if_neg (by simpa using hdi)]
      rfl
    rw [← hslot]
    rcases Ir.killUse_symaddr (s := .src1 i) (by rw [show ir.load (.src1 i) = .reg nr from hs]; exact hd) hop with hk | ⟨hk, -⟩
    · rw [hk]
      rfl
    · rw [hk]
      exact Ir.load_clearBb _ d (.src1 d)
  rw [hload] at huse ⊢
  have hrest := (SameRest.killUse ir (.src1 i)).trans
    (SameRest.usePseudo (ir.killUse (some (.src1 i))) i (ir.insn d).src1 (.src1 i))
  have hsame := SameForm.usePseudo (ir.killUse (some (.src1 i))) i (ir.insn d).src1 (.src1 i)
  have hop' := hrest.opcode
  have hdef : ((ir.killUse (some (.src1 i))).usePseudo i (ir.insn d).src1 (.src1 i)).definition = ir.definition :=
    hsame.definition.trans (hframe.definition.trans hempty.definition)
  have hlive : (ir.killUse (some (.src1 i))).live i :=
    hframe.kept i ((hempty.live i).2 hi) (by rw [hempty.opcode]; exact not_killable hmem)
  refine ⟨huse, (hsame.live i).2 hlive, fun j hj => (hempty.live j).1 (hframe.live j ((hsame.live j).1 hj)), ?_, ?_,
    hop', hdef, fun q hq =>
    link_congr hdef hop' hmem (fun j s hj ho => ?_) hq⟩
  · have hslot := (ir.killUse (some (.src1 i))).load_usePseudo i (ir.insn d).src1 (.src1 i) (.src1 i)
    rw [if_pos rfl] at hslot
    exact hslot
  · rw [hrest.offset]
    simp
  · have hne : s ≠ .src1 i := by
      rintro rfl
      exact hj (UseInvariant.insn?_of_owns ho rfl).symm
    rw [Ir.load_usePseudo, if_neg hne, hframe.slots j s ((hsame.owns j s).1 ho), Ir.load_emptySlot, if_neg hne]

/-- Without a link from the address nothing happens. -/
theorem simplifyOneMemop_of_link_none (hlink : ir.link (ir.insn i).src1 = none) (orig : Pseudo) :
    ir.simplifyOneMemop i orig = (ir, false) := by
  unfold Ir.simplifyOneMemop
  dsimp only
  split
  next nr d hs hd =>
    rw [hs] at hd hlink
    simp only [Ir.link, hd] at hlink
    split at hlink
    · cases hlink
    · rename_i hsym
      rw [if_neg hsym]
      split at hlink
      · rename_i hadd
        rw [if_pos hadd]
        cases h2 : (ir.insn d).src2 with
        | val off =>
          rw [h2] at hlink
          cases hlink
        | null | void | reg _ | sym _ | arg _ | phi _ =>
          cases h1 : (ir.insn d).src1 with
          | val off =>
            rw [h1, h2] at hlink
            cases hlink
          | null | void | reg _ | sym _ | arg _ | phi _ => rfl
      · rename_i hadd
        rw [if_neg hadd]
  next => rfl

/-- The address moves along its link, or to nothing if an addition leads back to where the
address was at first. -/
theorem simplifyOneMemop_of_link (orig : Pseudo) (h : UseInvariant ir) (hi : ir.live i)
    (hmem : (ir.insn i).opcode = .load ∨ (ir.insn i).opcode = .store) {p : Pseudo} {off : BitVec 64}
    (hlink : ir.link (ir.insn i).src1 = some (p, off)) :
    ((ir.IsSum (ir.insn i).src1 → p ≠ orig) →
      ∃ ir', ir.simplifyOneMemop i orig = (ir', true) ∧ Folded ir ir' i p off) ∧
    (ir.IsSum (ir.insn i).src1 → p = orig → orig ≠ .void →
      ∃ ir', ir.simplifyOneMemop i orig = (ir', true) ∧ Folded ir ir' i .void off) := by
  have havail : ∀ {s}, ir.Owns i s → ir.Available (ir.load s) := fun ho => h.available_of_owns ho
  cases hs : (ir.insn i).src1 with
  | reg nr =>
    rw [hs] at hlink
    cases hd : ir.definition (.reg nr) with
    | none =>
      simp only [Ir.link, hd] at hlink
      cases hlink
    | some d =>
      have hdl : ir.live d := h.live_of_owns (owns_src1 hi hmem) hs hd
      simp only [Ir.link, hd] at hlink
      by_cases hsym : (ir.insn d).opcode = .symaddr ∧ (ir.insn d).src1 ≠ .null
      · rw [if_pos hsym] at hlink
        obtain ⟨rfl, rfl⟩ := Prod.mk.inj (Option.some.inj hlink)
        have hfold := foldSymbol h hi hmem hs hd hsym.1
        refine ⟨fun _ => ⟨_, ?_, hfold⟩, fun hsum => ?_⟩
        · simp only [Ir.simplifyOneMemop, hs, hd, if_pos hsym]
        · obtain ⟨d', hd', hadd⟩ := hsum
          obtain rfl := Option.some.inj (hd.symm.trans hd')
          rw [hsym.1] at hadd
          cases hadd
      · rw [if_neg hsym] at hlink
        by_cases hadd : (ir.insn d).opcode = .addLin
        · rw [if_pos hadd] at hlink
          have hsum : ir.IsSum (.reg nr) := ⟨d, hd, hadd⟩
          have hod : ∀ s, s ∈ [Address.src1 d, .src2 d] → ir.Owns d s := fun s hs =>
            ⟨hdl, by simpa [Instruction.operandSlots, hadd, Opcode.isBinary] using hs⟩
          have h1 := h.available_of_owns (hod (.src1 d) (by simp))
          have h2 := h.available_of_owns (hod (.src2 d) (by simp))
          have hvoid : ir.Available .void := fun _ _ he => by simp at he
          have hp : ir.Available p := by
            split at hlink
            · obtain ⟨rfl, -⟩ := Prod.mk.inj (Option.some.inj hlink)
              exact h1
            · obtain ⟨rfl, -⟩ := Prod.mk.inj (Option.some.inj hlink)
              exact h2
            · cases hlink
          have hstep : ir.simplifyOneMemop i orig = if p = orig ∧ p = .void then (ir, false) else
              (((ir.setInsn i (fun insn => { insn with offset := insn.offset + off.setWidth 32 })).usePseudo i
                (if p = orig then .void else p) (.src1 i)).removeUsage (.reg nr) (.src1 i), true) := by
            simp only [Ir.simplifyOneMemop, hs, hd, if_neg hsym, if_pos hadd]
            cases hsrc2 : (ir.insn d).src2 with
            | val off' =>
              rw [hsrc2] at hlink
              obtain ⟨rfl, rfl⟩ := Prod.mk.inj (Option.some.inj hlink)
              rfl
            | null | void | reg _ | sym _ | arg _ | phi _ =>
              cases hsrc1 : (ir.insn d).src1 with
              | val off' =>
                rw [hsrc1, hsrc2] at hlink
                obtain ⟨rfl, rfl⟩ := Prod.mk.inj (Option.some.inj hlink)
                rfl
              | null | void | reg _ | sym _ | arg _ | phi _ =>
                rw [hsrc1, hsrc2] at hlink
                cases hlink
          rw [hstep]
          refine ⟨fun hne => ?_, fun _ heq hnv => ?_⟩
          · have hne' : p ≠ orig := hne hsum
            rw [if_neg fun hc => hne' hc.1, if_neg hne']
            refine ⟨_, rfl, ?_⟩
            have hfold := foldOffset h hi hmem off hp
            rwa [hs] at hfold
          · rw [if_neg fun hc => hnv (heq ▸ hc.2), if_pos heq]
            refine ⟨_, rfl, ?_⟩
            have hfold := foldOffset h hi hmem off hvoid
            rwa [hs] at hfold
        · rw [if_neg hadd] at hlink
          cases hlink
  | null | void | sym _ | val _ | arg _ | phi _ =>
    rw [hs] at hlink
    cases hlink

/-! ## The rounds -/

/-- What is left of the graph of definitions is that of an earlier heap. -/
structure Remains (ir₀ ir : Ir) : Prop where
  link : ∀ q, ir.Available q → ir.link q = ir₀.link q
  isSum : ∀ q, ir.IsSum q ↔ ir₀.IsSum q

theorem Remains.folded {ir₀ : Ir} {p : Pseudo} {off : BitVec 64} (hr : Remains ir₀ ir)
    (hf : Folded ir ir' i p off) : Remains ir₀ ir' := by
  refine ⟨fun q hq => ?_, fun q => ?_⟩
  · have hq' : ir.Available q := fun nr d he hd => hf.alive d (hq nr d he (by rw [hf.definition]; exact hd))
    rw [hf.link q hq, hr.link q hq']
  · rw [← hr.isSum]
    simp only [Ir.IsSum, hf.definition, hf.opcode]

/-- The links lead to a stop, or back to `orig` with an addition. -/
def Ir.ClosesAt (ir : Ir) (orig p : Pseudo) : Prop :=
  ∃ total q, Leads ir.link p total q ∧
    (ir.link q = none ∨ ∃ off, ir.link q = some (orig, off) ∧ ir.IsSum q)

variable {ir₀ : Ir} {orig : Pseudo}

theorem Remains.link_src1 (hr : Remains ir₀ ir) (h : UseInvariant ir) (hi : ir.live i)
    (hmem : (ir.insn i).opcode = .load ∨ (ir.insn i).opcode = .store) :
    ir.link (ir.insn i).src1 = ir₀.link (ir.insn i).src1 :=
  hr.link _ (h.available_of_owns (owns_src1 hi hmem))

/-- The loop stops if the links of the graph do, or lead back. -/
theorem simplifyMemopLoop_stops (hne : orig ≠ .void) {total : BitVec 64} {p q : Pseudo}
    (hl : Leads ir₀.link p total q) (hq : ir₀.link q = none ∨ ∃ off, ir₀.link q = some (orig, off) ∧ ir₀.IsSum q)
    (hr : Remains ir₀ ir) (h : UseInvariant ir) (hi : ir.live i)
    (hmem : (ir.insn i).opcode = .load ∨ (ir.insn i).opcode = .store) (hs : (ir.insn i).src1 = p) (ret : Bool) :
    ∃ fuel r, Ir.simplifyMemopLoop i orig fuel ir ret = some r := by
  -- An addition that leads back empties the slot, and the next round stops.
  have hback : ∀ {ir : Ir} {off : BitVec 64} (ret : Bool), Remains ir₀ ir → UseInvariant ir → ir.live i →
      ((ir.insn i).opcode = .load ∨ (ir.insn i).opcode = .store) →
      ir₀.link (ir.insn i).src1 = some (orig, off) → ir₀.IsSum (ir.insn i).src1 →
      ∃ fuel r, Ir.simplifyMemopLoop i orig fuel ir ret = some r := by
    intro ir off ret hr h hi hmem hlink hsum
    obtain ⟨ir', hstep, hf⟩ := (simplifyOneMemop_of_link orig h hi hmem
      ((hr.link_src1 h hi hmem).trans hlink)).2 ((hr.isSum _).2 hsum) rfl hne
    have hstop : ir'.simplifyOneMemop i orig = (ir', false) :=
      simplifyOneMemop_of_link_none (by rw [hf.src1]; rfl) orig
    exact ⟨2, (ir', true), by simp only [Ir.simplifyMemopLoop, hstep, hstop]⟩
  induction hl generalizing ir ret with
  | refl p =>
    rcases hq with hnone | ⟨off, hlink, hsum⟩
    · have hstop := simplifyOneMemop_of_link_none (i := i) (by rw [hr.link_src1 h hi hmem, hs]; exact hnone) orig
      exact ⟨1, (ir, ret), by simp only [Ir.simplifyMemopLoop, hstop]⟩
    · exact hback ret hr h hi hmem (by rw [hs]; exact hlink) (by rw [hs]; exact hsum)
  | @step p r q off total hlink _ ih =>
    by_cases hclose : ir₀.IsSum p ∧ r = orig
    · exact hback ret hr h hi hmem (by rw [hs, hlink, hclose.2]) (by rw [hs]; exact hclose.1)
    · obtain ⟨ir', hstep, hf⟩ := (simplifyOneMemop_of_link orig h hi hmem
        ((hr.link_src1 h hi hmem).trans (by rw [hs]; exact hlink))).1
        (fun hsum heq => hclose ⟨by rw [← hs, ← hr.isSum]; exact hsum, heq⟩)
      have hmem' : (ir'.insn i).opcode = .load ∨ (ir'.insn i).opcode = .store := by
        rw [hf.opcode]
        exact hmem
      obtain ⟨fuel, result, hrun⟩ := ih hq (hr.folded hf) hf.use hf.live hmem' hf.src1 true
      exact ⟨fuel + 1, result, by simp only [Ir.simplifyMemopLoop, hstep, hrun]⟩

/-- The loop stops only if the links do, or lead back. -/
theorem closesAt_of_simplifyMemopLoop {fuel : ℕ} {ret : Bool} {r : Ir × Bool}
    (hrun : Ir.simplifyMemopLoop i orig fuel ir ret = some r) (hr : Remains ir₀ ir) (h : UseInvariant ir)
    (hi : ir.live i) (hmem : (ir.insn i).opcode = .load ∨ (ir.insn i).opcode = .store) :
    ir₀.ClosesAt orig (ir.insn i).src1 := by
  induction fuel generalizing ir ret with
  | zero => cases hrun
  | succ fuel ih =>
    have hsrc := hr.link_src1 h hi hmem
    cases hlink : ir₀.link (ir.insn i).src1 with
    | none => exact ⟨0, _, .refl _, Or.inl hlink⟩
    | some pair =>
      obtain ⟨p, off⟩ := pair
      by_cases hclose : ir₀.IsSum (ir.insn i).src1 ∧ p = orig
      · exact ⟨0, _, .refl _, Or.inr ⟨off, by rw [hlink, hclose.2], hclose.1⟩⟩
      · obtain ⟨ir', hstep, hf⟩ := (simplifyOneMemop_of_link orig h hi hmem (hsrc.trans hlink)).1
          (fun hsum heq => hclose ⟨(hr.isSum _).1 hsum, heq⟩)
        have hmem' : (ir'.insn i).opcode = .load ∨ (ir'.insn i).opcode = .store := by
          rw [hf.opcode]
          exact hmem
        simp only [Ir.simplifyMemopLoop, hstep] at hrun
        obtain ⟨total, q, hl, hq⟩ := ih hrun (hr.folded hf) hf.use hf.live hmem'
        rw [hf.src1] at hl
        exact ⟨off + total, q, .step hlink hl, hq⟩

/-- Where the links stop, the loop has the end of the links and the sum of the constants. -/
theorem simplifyMemopLoop_end {total : BitVec 64} {p b : Pseudo} (hl : Leads ir₀.link p total b)
    (hb : ir₀.link b = none) (hback : ∀ more q off, Leads ir₀.link p more q → ir₀.link q ≠ some (orig, off))
    {fuel : ℕ} {ret ret' : Bool} (hrun : Ir.simplifyMemopLoop i orig fuel ir ret = some (ir', ret'))
    (hr : Remains ir₀ ir) (h : UseInvariant ir) (hi : ir.live i)
    (hmem : (ir.insn i).opcode = .load ∨ (ir.insn i).opcode = .store) (hs : (ir.insn i).src1 = p) :
    (ir'.insn i).src1 = b ∧ (ir'.insn i).offset = (ir.insn i).offset + total.setWidth 32 := by
  induction hl generalizing ir ret fuel with
  | refl p =>
    have hstop := simplifyOneMemop_of_link_none (i := i) (by rw [hr.link_src1 h hi hmem, hs]; exact hb) orig
    cases fuel with
    | zero => cases hrun
    | succ fuel =>
      simp only [Ir.simplifyMemopLoop, hstop] at hrun
      obtain ⟨rfl, -⟩ := Prod.mk.inj (Option.some.inj hrun)
      exact ⟨hs, by simp⟩
  | @step p r b off total hlink _ ih =>
    cases fuel with
    | zero => cases hrun
    | succ fuel =>
      obtain ⟨ir₁, hstep, hf⟩ := (simplifyOneMemop_of_link orig h hi hmem
        ((hr.link_src1 h hi hmem).trans (by rw [hs]; exact hlink))).1
        (fun _ heq => hback 0 p off (.refl p) (heq ▸ hlink))
      have hmem' : (ir₁.insn i).opcode = .load ∨ (ir₁.insn i).opcode = .store := by
        rw [hf.opcode]
        exact hmem
      simp only [Ir.simplifyMemopLoop, hstep] at hrun
      obtain ⟨hsrc, hoff⟩ := ih hb (fun more q off' hq => hback (off + more) q off' (.step hlink hq)) hrun
        (hr.folded hf) hf.use hf.live hmem' hf.src1
      refine ⟨hsrc, ?_⟩
      rw [hoff, hf.offset, BitVec.setWidth_add _ _ (by decide), BitVec.add_assoc]

/-! ## Addresses -/

/-- An offset of 32 bits takes a sum if the bits of the sum that a pointer has fit in it. -/
theorem offset_fits_iff (o : BitVec 32) (t : BitVec 64) {width : ℕ} (h64 : width ≤ 64) :
    ((o + t.setWidth 32).setWidth 64).setWidth width = (o.setWidth 64 + t).setWidth width ↔
      ((o.setWidth 64 + t).setWidth width).toNat < 2 ^ 32 := by
  have hdvd : 2 ^ width ∣ 2 ^ 64 := Nat.pow_dvd_pow 2 h64
  have ho : o.toNat < 2 ^ 32 := o.isLt
  have hsum : ((o.setWidth 64 + t).setWidth width).toNat = (o.toNat + t.toNat) % 2 ^ width := by
    rw [BitVec.toNat_setWidth, BitVec.toNat_add, BitVec.toNat_setWidth,
      Nat.mod_eq_of_lt (show o.toNat < 2 ^ 64 from ho.trans (by decide)), Nat.mod_mod_of_dvd _ hdvd]
  have hlow : (((o + t.setWidth 32).setWidth 64).setWidth width).toNat =
      (o.toNat + t.toNat) % 2 ^ 32 % 2 ^ width := by
    have hlt : (o.toNat + t.toNat) % 2 ^ 32 < 2 ^ 64 := (Nat.mod_lt _ (by decide)).trans (by decide)
    rw [BitVec.toNat_setWidth, BitVec.toNat_setWidth, BitVec.toNat_add, BitVec.toNat_setWidth, Nat.add_mod_mod,
      Nat.mod_eq_of_lt hlt]
  rw [← BitVec.toNat_inj, hsum, hlow]
  by_cases hw : width ≤ 32
  · rw [Nat.mod_mod_of_dvd _ (Nat.pow_dvd_pow 2 hw)]
    exact iff_of_true rfl ((Nat.mod_lt _ (Nat.two_pow_pos _)).trans_le (Nat.pow_le_pow_right (by decide) hw))
  · have hdvd32 : 2 ^ 32 ∣ 2 ^ width := Nat.pow_dvd_pow 2 (by omega)
    have hlt : (o.toNat + t.toNat) % 2 ^ 32 < 2 ^ width :=
      (Nat.mod_lt _ (by decide)).trans_le (Nat.pow_le_pow_right (by decide) (by omega))
    rw [Nat.mod_eq_of_lt hlt]
    constructor
    · intro heq
      rw [← heq]
      exact Nat.mod_lt _ (by decide)
    · intro hfits
      rw [← Nat.mod_mod_of_dvd _ hdvd32, Nat.mod_eq_of_lt hfits]

/-- Every instruction on the way computes at least as many bits as a pointer has. -/
def Ir.WideLinks (ir : Ir) (p : Pseudo) (width : ℕ) : Prop :=
  ∀ total q, Leads ir.link p total q → ir.link q ≠ none → width ≤ ir.sizeOf q

/-- The offset takes the sum of the constants. -/
def Ir.OffsetFits (ir : Ir) (i : InsnId) (width : ℕ) : Prop :=
  ∀ total b, Leads ir.link (ir.insn i).src1 total b → ir.link b = none →
    (((ir.insn i).offset.setWidth 64 + total).setWidth width).toNat < 2 ^ 32

theorem env_of_leads {env : Pseudo → BitVec 64} {width : ℕ} (h64 : width ≤ 64) {p q : Pseudo}
    {total : BitVec 64} (hl : Leads ir.link p total q) (henv : ir.ChainValues env p)
    (hwide : ir.WideLinks p width) : (env p).setWidth width = (env q + total).setWidth width := by
  induction hl with
  | refl p => simp
  | @step p r q off total hlink _ ih =>
    have hrest : (env r).setWidth width = (env q + total).setWidth width :=
      ih (fun more s t o hs => henv (off + more) s t o (.step hlink hs))
        (fun more s hs => hwide (off + more) s (.step hlink hs))
    have hsize : width ≤ ir.sizeOf p := hwide 0 p (.refl p) (by simp [hlink])
    have hhere := congrArg (BitVec.setWidth width) (henv 0 p r off (.refl p) hlink)
    rw [BitVec.setWidth_setWidth_of_le _ hsize, BitVec.setWidth_setWidth_of_le _ hsize,
      BitVec.setWidth_add _ _ h64, hrest, ← BitVec.setWidth_add _ _ h64, BitVec.add_assoc, BitVec.add_comm total] at hhere
    exact hhere

section

variable {p b : Pseudo} {total : BitVec 64}

open Classical in
/-- What the constants from a pseudo to the end of the links add up to. -/
noncomputable def sumTo (ir : Ir) (b p : Pseudo) : BitVec 64 :=
  if h : ∃ total, Leads ir.link p total b then h.choose else 0

theorem sumTo_eq (hl : Leads ir.link p total b) (hb : ir.link b = none) : sumTo ir b p = total := by
  have hex : ∃ total, Leads ir.link p total b := ⟨total, hl⟩
  rw [sumTo, dif_pos hex]
  exact (hex.choose_spec.stop_unique hb hl hb).2

/-- The sums, with a bit more for what leads to one pseudo of too small a size, are possible values. -/
theorem chainValues_sumTo (hl : Leads ir.link p total b) (hb : ir.link b = none) (extra : Pseudo → BitVec 64)
    (hextra : ∀ more q r off, Leads ir.link p more q → ir.link q = some (r, off) →
      extra q = extra r ∨ ir.sizeOf q ≤ 64 ∧ (extra q).setWidth (ir.sizeOf q) = (extra r).setWidth (ir.sizeOf q)) :
    ir.ChainValues (fun q => sumTo ir b q + extra q) p := by
  intro more q r off hq hlink
  obtain ⟨left, hleft, -⟩ := hq.rest hl hb
  cases hleft with
  | refl =>
    rw [hb] at hlink
    cases hlink
  | @step _ r' _ off' left' hlink' hrest =>
    obtain ⟨rfl, rfl⟩ := Prod.mk.inj (Option.some.inj (hlink.symm.trans hlink'))
    dsimp only
    rw [sumTo_eq (.step hlink hrest) hb, sumTo_eq hrest hb]
    have hmove : ∀ total, off + total + extra r = total + extra r + off := fun total => by ac_rfl
    rcases hextra more q r off hq hlink with hsame | ⟨hsize, hlow⟩
    · rw [hsame, hmove]
    · rw [← hmove, BitVec.setWidth_add _ _ hsize, hlow, ← BitVec.setWidth_add _ _ hsize]

/-- A word with one bit at the size of an instruction is nothing to the instruction. -/
theorem twoPow_setWidth_of_le {size : ℕ} : (BitVec.twoPow 64 size).setWidth size = BitVec.ofNat size 0 := by
  refine BitVec.eq_of_getLsbD_eq fun k hk => ?_
  have hne : size ≠ k := Nat.ne_of_gt hk
  simp [BitVec.getLsbD_setWidth, BitVec.getLsbD_twoPow, hne]

theorem twoPow_setWidth_ne {size width : ℕ} (hlt : size < width) (h64 : width ≤ 64) :
    (BitVec.twoPow 64 size).setWidth width ≠ BitVec.ofNat width 0 := by
  intro hzero
  have hbit := congrArg (fun x => BitVec.getLsbD x size) hzero
  simp [hlt, hlt.trans_le h64] at hbit

/-- The final address is right for all values if and only if the instructions on the way are wide
enough and the offset takes the sum. -/
theorem address_iff {insn : Instruction} {width : ℕ} (h64 : width ≤ 64)
    (hl : Leads ir.link (ir.insn i).src1 total b) (hb : ir.link b = none) (hsrc : insn.src1 = b)
    (hoff : insn.offset = (ir.insn i).offset + total.setWidth 32) :
    (∀ env, ir.ChainValues env (ir.insn i).src1 → insn.address env width = (ir.insn i).address env width) ↔
      ir.WideLinks (ir.insn i).src1 width ∧ ir.OffsetFits i width := by
  have hfits : ir.OffsetFits i width ↔
      (((ir.insn i).offset + total.setWidth 32).setWidth 64).setWidth width =
        ((ir.insn i).offset.setWidth 64 + total).setWidth width := by
    rw [offset_fits_iff _ _ h64]
    constructor
    · exact fun h => h total b hl hb
    · intro h more q hq hstop
      obtain ⟨-, rfl⟩ := hl.stop_unique hb hq hstop
      exact h
  rw [hfits]
  constructor
  · intro h
    have haddr : ∀ extra : Pseudo → BitVec 64, extra b = 0 →
        ir.ChainValues (fun q => sumTo ir b q + extra q) (ir.insn i).src1 →
        (((ir.insn i).offset + total.setWidth 32).setWidth 64).setWidth width =
          ((ir.insn i).offset.setWidth 64 + total).setWidth width + (extra (ir.insn i).src1).setWidth width := by
      intro extra hzero henv
      have heq := h _ henv
      simp only [Instruction.address, hsrc, hoff, sumTo_eq hl hb, sumTo_eq (.refl b) hb, hzero] at heq
      rw [zero_add, zero_add] at heq
      rw [heq, ← BitVec.setWidth_add _ _ h64]
      congr 1
      ac_rfl
    have hplain := haddr (fun _ => 0) rfl (chainValues_sumTo hl hb _ fun _ _ _ _ _ _ => Or.inl rfl)
    rw [show (0 : BitVec 64).setWidth width = BitVec.ofNat width 0 from BitVec.setWidth_zero .., BitVec.add_zero] at hplain
    refine ⟨fun more q hq hlink => ?_, hplain⟩
    -- A bit above the size of an instruction is lost to it, and is not to the address.
    by_contra hsize
    rw [Nat.not_le] at hsize
    classical
    obtain ⟨left, hleft, -⟩ := hq.rest hl hb
    have hend : ¬ ∃ u, Leads ir.link b u q := by
      rintro ⟨u, hu⟩
      cases hu with
      | refl => exact hlink hb
      | step hn _ =>
        rw [hb] at hn
        cases hn
    have hbit := haddr (fun s => if ∃ u, Leads ir.link s u q then BitVec.twoPow 64 (ir.sizeOf q) else 0)
      (if_neg hend) (chainValues_sumTo hl hb _ fun more' s r off hs hn => ?_)
    · rw [hplain] at hbit
      rw [if_pos ⟨more, hq⟩] at hbit
      exact twoPow_setWidth_ne hsize h64 (by simpa using hbit)
    · by_cases hsq : s = q
      · subst hsq
        have hnot : ¬ ∃ u, Leads ir.link r u s := fun ⟨u, hu⟩ => hleft.not_back hb hn hu
        refine Or.inr ⟨hsize.le.trans h64, ?_⟩
        rw [if_pos ⟨0, .refl s⟩, if_neg hnot, twoPow_setWidth_of_le]
        exact BitVec.setWidth_zero .. |>.symm
      · have hiff : (∃ u, Leads ir.link s u q) ↔ ∃ u, Leads ir.link r u q := by
          constructor
          · rintro ⟨u, hu⟩
            cases hu with
            | refl => exact absurd rfl hsq
            | step hn' hu =>
              obtain ⟨rfl, -⟩ := Prod.mk.inj (Option.some.inj (hn'.symm.trans hn))
              exact ⟨_, hu⟩
          · exact fun ⟨u, hu⟩ => ⟨_, .step hn hu⟩
        exact Or.inl (if_congr hiff rfl rfl)
  · rintro ⟨hwide, hsum⟩ env henv
    have hstart := env_of_leads h64 hl henv hwide
    rw [Instruction.address, Instruction.address, hsrc, hoff, BitVec.setWidth_add _ _ h64, BitVec.setWidth_add _ _ h64,
      hsum, hstart, BitVec.setWidth_add _ _ h64, BitVec.setWidth_add _ _ h64]
    ac_rfl

end

/-- The loop ends if and only if the links from the address end or lead back to it with an
addition. The address is then the same on every chain that ends, if and only if no instruction on
the way is narrower than a pointer and the offset of 32 bits takes the sum. -/
theorem simplifyMemop_right_iff (h : UseInvariant ir) (hi : ir.live i)
    (hmem : (ir.insn i).opcode = .load ∨ (ir.insn i).opcode = .store) {width : ℕ} (h64 : width ≤ 64) :
    ((∃ fuel r, ir.simplifyMemop i fuel = some r) ∧
      (Stops ir.link (ir.insn i).src1 → ∀ fuel ir' ret, ir.simplifyMemop i fuel = some (ir', ret) →
        ∀ env, ir.ChainValues env (ir.insn i).src1 → (ir'.insn i).address env width = (ir.insn i).address env width)) ↔
      ir.Closes (ir.insn i).src1 ∧
        (Stops ir.link (ir.insn i).src1 → ir.WideLinks (ir.insn i).src1 width ∧ ir.OffsetFits i width) := by
  have hr : Remains ir ir := ⟨fun _ _ => rfl, fun _ => Iff.rfl⟩
  have hends : (∃ fuel r, ir.simplifyMemop i fuel = some r) ↔ ir.Closes (ir.insn i).src1 := by
    constructor
    · rintro ⟨fuel, r, hrun⟩
      exact closesAt_of_simplifyMemopLoop hrun hr h hi hmem
    · rintro ⟨total, q, hl, hq⟩
      by_cases hvoid : (ir.insn i).src1 = .void
      · have hnone : ir.link (ir.insn i).src1 = none := by rw [hvoid]; rfl
        have hstop := simplifyOneMemop_of_link_none hnone (ir.insn i).src1
        exact ⟨1, (ir, false), by simp only [Ir.simplifyMemop, Ir.simplifyMemopLoop, hstop]⟩
      · exact simplifyMemopLoop_stops hvoid hl hq hr h hi hmem rfl false
  rw [hends]
  refine and_congr_right fun hclose => ?_
  have hcase : ∀ {fuel ir' ret}, Stops ir.link (ir.insn i).src1 → ir.simplifyMemop i fuel = some (ir', ret) →
      ((∀ env, ir.ChainValues env (ir.insn i).src1 →
        (ir'.insn i).address env width = (ir.insn i).address env width) ↔
        ir.WideLinks (ir.insn i).src1 width ∧ ir.OffsetFits i width) := by
    rintro fuel ir' ret ⟨total, b, hl, hb⟩ hrun
    obtain ⟨hsrc, hoff⟩ := simplifyMemopLoop_end hl hb
      (fun more q off hq hback => by
        obtain ⟨left, hleft, -⟩ := hq.rest hl hb
        exact hleft.not_back hb hback hq) hrun hr h hi hmem rfl
    exact address_iff h64 hl hb hsrc hoff
  constructor
  · intro hright hstop
    obtain ⟨fuel, ⟨ir', ret⟩, hrun⟩ := hends.2 hclose
    exact (hcase hstop hrun).1 (hright hstop fuel ir' ret hrun)
  · exact fun hfit hstop fuel ir' ret hrun => (hcase hstop hrun).2 (hfit hstop)

end

/-- A pointer that a loop without an entry steps on, and a load beside it. -/
def steppedPointer : Ir where
  insn
    | 0 => { opcode := .addLin, size := 64, bb := some 0, target := .reg 0, src1 := .reg 1, src2 := .val 4 }
    | 1 => { opcode := .addLin, size := 64, bb := some 0, target := .reg 1, src1 := .reg 1, src2 := .val 8 }
    | 2 => { opcode := .load, size := 32, bb := some 0, target := .reg 2, src1 := .reg 0 }
    | _ => { opcode := .badop }
  block _ := {}
  cell _ := .null
  definition
    | .reg 0 => some 0
    | .reg 1 => some 1
    | .reg 2 => some 2
    | _ => none
  users
    | .reg 0 => [⟨2, .src1 2⟩]
    | .reg 1 => [⟨0, .src1 0⟩, ⟨1, .src1 1⟩]
    | _ => []
  bbs := [0]
  entry := 3
  nextInsn := 4
  nextBlock := 1
  nextCell := 0
  nextReg := 3
  nextPhi := 0
  bbGeneration := 0

private theorem steppedPointer_use : UseInvariant steppedPointer := by
  refine .of_check [.reg 0, .reg 1, .reg 2] (fun i hi => ?_) (fun p hp => ?_) (by decide)
  · match i with
    | 0 | 1 | 2 => exact absurd hi (by decide)
    | n + 3 => exact fun h => h rfl
  · simp only [steppedPointer]
    split <;> simp_all

theorem steppedPointer_right :
    ((∃ fuel r, steppedPointer.simplifyMemop 2 fuel = some r) ∧
      (Stops steppedPointer.link (.reg 0) → ∀ fuel ir' ret, steppedPointer.simplifyMemop 2 fuel = some (ir', ret) →
        ∀ env, steppedPointer.ChainValues env (.reg 0) →
          (ir'.insn 2).address env 64 = (steppedPointer.insn 2).address env 64)) ↔
      steppedPointer.Closes (.reg 0) ∧
        (Stops steppedPointer.link (.reg 0) →
          steppedPointer.WideLinks (.reg 0) 64 ∧ steppedPointer.OffsetFits 2 64) :=
  simplifyMemop_right_iff steppedPointer_use (by decide) (Or.inl rfl) (by decide)

private theorem steppedPointer_leads {total : BitVec 64} {p q : Pseudo} (h : Leads steppedPointer.link p total q)
    (hp : p = .reg 0 ∨ p = .reg 1) : q = .reg 0 ∨ q = .reg 1 := by
  induction h with
  | refl p => exact hp
  | step hlink _ ih =>
    refine ih (Or.inr ?_)
    rcases hp with rfl | rfl
    · exact (Prod.mk.inj (Option.some.inj hlink)).1.symm
    · exact (Prod.mk.inj (Option.some.inj hlink)).1.symm

/-- The loop goes round and round. -/
theorem steppedPointer_never_done :
    UseInvariant steppedPointer ∧ (steppedPointer.insn 2).opcode = .load ∧
      ∀ fuel, steppedPointer.simplifyMemop 2 fuel = none := by
  refine ⟨steppedPointer_use, rfl, fun fuel => ?_⟩
  cases hrun : steppedPointer.simplifyMemop 2 fuel with
  | none => rfl
  | some r =>
    have hr : Remains steppedPointer steppedPointer := ⟨fun _ _ => rfl, fun _ => Iff.rfl⟩
    obtain ⟨total, q, hl, hq⟩ :=
      closesAt_of_simplifyMemopLoop hrun hr steppedPointer_use (by decide) (Or.inl rfl)
    rcases steppedPointer_leads hl (Or.inl rfl) with rfl | rfl
    · rcases hq with hnone | ⟨off, hlink, -⟩
      · cases hnone
      · cases hlink
    · rcases hq with hnone | ⟨off, hlink, -⟩
      · cases hnone
      · cases hlink

end Sparse
