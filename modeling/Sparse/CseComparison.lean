import Sparse.OperandRewrites
import Mathlib.Order.Compare

/-!
# Comparing instructions for common subexpressions

`insn_compare` is the lexicographic order of a key of numbers, and equal keys mean equal
computations in the same bucket of the hash table. The key of a phi lacks its size, and no
key has the type that an operation is evaluated for.
-/

namespace Sparse

open Std

/-- Where the objects lie that instructions point to: `val` and `orig_type` are those of each
instruction. -/
structure Pointers (ir : Ir) where
  pseudo : Pseudo → ℕ
  block : Option BlockId → ℕ
  val : InsnId → ℕ
  origType : InsnId → ℕ
  pseudo_injective : Function.Injective pseudo
  block_injective : Function.Injective block
  origType_apart : ∀ i j, origType i = origType j → (ir.insn i).origType = (ir.insn j).origType

/-- `a != b` and then `a < b ? -1 : 1`. -/
def differ (a b : ℕ) : Ordering :=
  if a ≠ b then (if a < b then .lt else .gt) else .eq

theorem differ_eq_compare (a b : ℕ) : differ a b = compare a b := by
  rw [differ]
  rcases Nat.lt_trichotomy a b with h | h | h
  · rw [if_pos (Nat.ne_of_lt h), if_pos h, Nat.compare_eq_lt.2 h]
  · rw [if_neg (not_not_intro h), Nat.compare_eq_eq.2 h]
  · rw [if_pos (Nat.ne_of_gt h), if_neg (Nat.lt_asymm h), Nat.compare_eq_gt.2 h]

namespace Ir

variable (ir : Ir) (P : Pointers ir)

/-- `phi->def`, of a phi that is not `VOID`. -/
def phiDef (c : CellId) : Option Instruction :=
  if ir.cell c = .void then none else (ir.definition (ir.cell c)).map ir.insn

/-- The next phi of a list that has a definition, and the rest. -/
def nextPhiDef : List CellId → Option (Instruction × List CellId)
  | [] => none
  | c :: cs =>
    match ir.phiDef c with
    | some d => some (d, cs)
    | none => nextPhiDef cs

variable {ir}

/-- `phi_compare`. -/
def phiCompare (def1 def2 : Instruction) : Ordering :=
  (differ (P.pseudo def1.src1) (P.pseudo def2.src1)).then (differ (P.block def1.bb) (P.block def2.bb))

/-- `phi_list_compare`. -/
def phiListCompare : List CellId → List CellId → Ordering
  | [], l2 => if (ir.nextPhiDef l2).isSome then .lt else .eq
  | c :: l1, l2 =>
    match ir.phiDef c with
    | none => phiListCompare l1 l2
    | some def1 =>
      match ir.nextPhiDef l2 with
      | none => .gt
      | some (def2, l2) => (phiCompare P def1 def2).then (phiListCompare l1 l2)

/-- `insn_compare`. -/
def insnCompare (i1 i2 : InsnId) : Ordering :=
  let a := ir.insn i1
  let b := ir.insn i2
  let size := differ a.size b.size
  let unop := (differ (P.pseudo a.src1) (P.pseudo b.src1)).then size
  let binop := (differ (P.pseudo a.src2) (P.pseudo b.src2)).then unop
  if a.opcode ≠ b.opcode then (if a.opcode.ctorIdx < b.opcode.ctorIdx then .lt else .gt)
  else
    match a.opcode with
    | .sel => (differ (P.pseudo a.src3) (P.pseudo b.src3)).then binop
    | .notLin | .neg => unop
    | .symaddr => (differ (P.pseudo a.src1) (P.pseudo b.src1)).then size
    | .setval => (differ (P.val i1) (P.val i2)).then size
    | .phi => phiListCompare P a.phiList b.phiList
    | .cast | .scast | .ptrcast =>
      (differ (P.origType i1) (P.origType i2)).then ((differ (P.pseudo a.src1) (P.pseudo b.src1)).then size)
    | op => if op.isBinary then binop else size

/-- The bucket that `clean_up_one_instruction` puts an instruction in, if it does. -/
def hashBucket (i : InsnId) : Option (BitVec 64) :=
  let insn := ir.insn i
  let hashval : ℕ → BitVec 64 := BitVec.ofNat 64
  let start : BitVec 64 := BitVec.ofNat 64 ((insn.opcode.ctorIdx <<< 3) + (insn.size >>> 3))
  let unop := start + hashval (P.pseudo insn.src1)
  let binop := hashval (P.pseudo insn.src2) + unop
  let hash : Option (BitVec 64) :=
    match insn.opcode with
    | .sel => some (hashval (P.pseudo insn.src3) + binop)
    | .notLin | .neg => some unop
    | .setval => some (start + hashval (P.val i))
    | .symaddr => some unop
    | .cast | .scast | .ptrcast => some (hashval (P.origType i) + unop)
    | .phi => some (insn.phiList.foldl (fun hash c =>
        match ir.phiDef c with
        | none => hash
        | some d => hash + hashval (P.pseudo d.src1) + hashval (P.block d.bb)) start)
    | op => if op.isBinary then some binop else none
  hash.map fun hash : BitVec 64 => (hash + hash >>> 16) &&& 255

end Ir

/-! ## What an instruction computes -/

namespace Ir

variable {ir : Ir} (P : Pointers ir)

/-- The sources of a phi that have a definition. -/
def phiDefs (ir : Ir) (i : InsnId) : List Instruction := (ir.insn i).phiList.filterMap ir.phiDef

/-- The operands of an instruction that is no phi. -/
def operands (ir : Ir) (i : InsnId) : List Pseudo :=
  if (ir.insn i).opcode = .phi then [] else ((ir.insn i).operandSlots i).map ir.load

/-- The same opcode, size and operands, evaluated for the same kind of type, casts from the same type,
the same expression, phis with the same values from the same blocks. -/
structure SameComputation (i j : InsnId) : Prop where
  opcode : (ir.insn i).opcode = (ir.insn j).opcode
  size : (ir.insn i).size = (ir.insn j).size
  operands : ir.operands i = ir.operands j
  arithmetic : (ir.insn i).opcode.readsArithmetic = true → (ir.insn i).arithmetic = (ir.insn j).arithmetic
  origType : (ir.insn i).opcode.isCast = true → (ir.insn i).origType = (ir.insn j).origType
  val : (ir.insn i).opcode = .setval → P.val i = P.val j
  phis : (ir.insn i).opcode = .phi →
    (ir.phiDefs i).map (fun d => (d.src1, d.bb)) = (ir.phiDefs j).map (fun d => (d.src1, d.bb))

/-- What an instruction yields, for any meaning of the opcodes and values of the expressions: a phi
takes the value that comes from the block before. -/
def yields (meaning : Opcode → ℕ → Arithmetic → Option TypeInfo → List (BitVec 64) → Option (BitVec 64))
    (constant : ℕ → BitVec 64) (env : Pseudo → BitVec 64) (before : Option BlockId) (i : InsnId) :
    Option (BitVec 64) :=
  let insn := ir.insn i
  let arithmetic := if insn.opcode.readsArithmetic then insn.arithmetic else .integer
  let type := if insn.opcode.isCast then insn.origType else none
  match insn.opcode with
  | .setval => meaning insn.opcode insn.size arithmetic type [constant (P.val i)]
  | .phi => (((ir.phiDefs i).map fun d => (d.src1, d.bb)).find? fun source => source.2 = before).bind
      fun source => meaning insn.opcode insn.size arithmetic type [env source.1]
  | _ => meaning insn.opcode insn.size arithmetic type ((ir.operands i).map env)

/-- The same operation on the same operands, whatever it is evaluated for. -/
structure SameOperation (i j : InsnId) : Prop where
  opcode : (ir.insn i).opcode = (ir.insn j).opcode
  size : (ir.insn i).size = (ir.insn j).size
  operands : ir.operands i = ir.operands j
  origType : (ir.insn i).opcode.isCast = true → P.origType i = P.origType j

/-! ## The key -/

/-- The numbers that decide the place of an instruction. -/
def key (i : InsnId) : List ℕ :=
  let insn := ir.insn i
  insn.opcode.ctorIdx ::
    match insn.opcode with
    | .sel => [P.pseudo insn.src3, P.pseudo insn.src2, P.pseudo insn.src1, insn.size]
    | .notLin | .neg | .symaddr => [P.pseudo insn.src1, insn.size]
    | .setval => [P.val i, insn.size]
    | .phi => (ir.phiDefs i).flatMap fun d => [P.pseudo d.src1, P.block d.bb]
    | .cast | .scast | .ptrcast => [P.origType i, P.pseudo insn.src1, insn.size]
    | op => if op.isBinary then [P.pseudo insn.src2, P.pseudo insn.src1, insn.size] else [insn.size]

end Ir

theorem Opcode.ctorIdx_injective : Function.Injective Opcode.ctorIdx := by
  intro a b h
  have hback : ∀ op : Opcode, Opcode.ofNat op.ctorIdx = op := fun op => by cases op <;> rfl
  rw [← hback a, ← hback b, h]

namespace Ir

variable {ir : Ir} {P : Pointers ir}

theorem nextPhiDef_eq (ir : Ir) (cs : List CellId) :
    match ir.nextPhiDef cs with
    | none => cs.filterMap ir.phiDef = []
    | some (d, rest) => cs.filterMap ir.phiDef = d :: rest.filterMap ir.phiDef := by
  induction cs with
  | nil => rfl
  | cons c cs ih =>
    rw [nextPhiDef]
    cases hc : ir.phiDef c with
    | none =>
      simp only [List.filterMap_cons, hc]
      exact ih
    | some d => simp only [List.filterMap_cons, hc]

/-- The loop over two lists of phis compares the sources one after the other. -/
theorem phiListCompare_eq (l1 l2 : List CellId) :
    phiListCompare P l1 l2 =
      compare ((l1.filterMap ir.phiDef).flatMap fun d => [P.pseudo d.src1, P.block d.bb])
        ((l2.filterMap ir.phiDef).flatMap fun d => [P.pseudo d.src1, P.block d.bb]) := by
  induction l1 generalizing l2 with
  | nil =>
    have hnext := nextPhiDef_eq ir l2
    rw [phiListCompare]
    cases hn : ir.nextPhiDef l2 with
    | none =>
      rw [hn] at hnext
      simp only at hnext
      rw [hnext]
      rfl
    | some pair =>
      rw [hn] at hnext
      simp only at hnext
      rw [hnext]
      simp
  | cons c l1 ih =>
    rw [phiListCompare]
    cases hc : ir.phiDef c with
    | none =>
      simp only [List.filterMap_cons, hc]
      exact ih l2
    | some def1 =>
      have hnext := nextPhiDef_eq ir l2
      cases hn : ir.nextPhiDef l2 with
      | none =>
        rw [hn] at hnext
        simp only at hnext
        rw [hnext]
        simp [hc]
      | some pair =>
        obtain ⟨def2, rest⟩ := pair
        rw [hn] at hnext
        simp only at hnext
        rw [hnext]
        simp only [List.filterMap_cons, hc, List.flatMap_cons, List.cons_append, List.nil_append,
          List.compare_cons_cons, phiCompare, differ_eq_compare, ih rest, Ordering.then_assoc]

/-- The comparison is the lexicographic order of the keys. -/
theorem insnCompare_eq (i j : InsnId) : insnCompare P i j = compare (key P i) (key P j) := by
  unfold insnCompare key
  dsimp only
  by_cases hop : (ir.insn i).opcode = (ir.insn j).opcode
  · rw [if_neg (not_not_intro hop), ← hop]
    rw [List.compare_cons_cons, Nat.compare_eq_eq.2 rfl, Ordering.then]
    cases hi : (ir.insn i).opcode <;>
      simp only [List.compare_cons_cons, List.compare_nil_nil, differ_eq_compare, Ordering.then_eq,
        Opcode.isBinary, if_true, if_false, Bool.false_eq_true, phiListCompare_eq, phiDefs]
  · have hne : (ir.insn i).opcode.ctorIdx ≠ (ir.insn j).opcode.ctorIdx := fun h => hop (Opcode.ctorIdx_injective h)
    have hdiffer := differ_eq_compare (ir.insn i).opcode.ctorIdx (ir.insn j).opcode.ctorIdx
    rw [differ, if_pos hne] at hdiffer
    rw [if_pos hop, hdiffer, List.compare_cons_cons]
    cases hc : compare (ir.insn i).opcode.ctorIdx (ir.insn j).opcode.ctorIdx with
    | eq => exact absurd (Nat.compare_eq_eq.1 hc) hne
    | lt => rfl
    | gt => rfl

theorem insnCompare_eq_iff {i j : InsnId} : insnCompare P i j = .eq ↔ key P i = key P j := by
  rw [insnCompare_eq]
  exact LawfulEqCmp.compare_eq_iff_eq

theorem flatMap_pair_inj {α : Type} {f g : α → ℕ} {xs ys : List α}
    (h : (xs.flatMap fun x => [f x, g x]) = ys.flatMap fun y => [f y, g y]) :
    xs.map (fun x => (f x, g x)) = ys.map fun y => (f y, g y) := by
  induction xs generalizing ys with
  | nil =>
    cases ys with
    | nil => rfl
    | cons y ys => cases h
  | cons x xs ih =>
    cases ys with
    | nil => cases h
    | cons y ys =>
      simp only [List.flatMap_cons, List.cons_append, List.nil_append, List.cons.injEq] at h
      rw [List.map_cons, List.map_cons, h.1, h.2.1, ih h.2.2]

/-- The sources of a phi by their values and blocks. -/
def sources (ir : Ir) (i : InsnId) : List (Pseudo × Option BlockId) :=
  (ir.phiDefs i).map fun d => (d.src1, d.bb)

theorem sources_eq_iff {i j : InsnId} :
    ((ir.phiDefs i).flatMap fun d => [P.pseudo d.src1, P.block d.bb]) =
        ((ir.phiDefs j).flatMap fun d => [P.pseudo d.src1, P.block d.bb]) ↔
      ir.sources i = ir.sources j := by
  have hmap : ∀ k, (ir.sources k).map (fun source => (P.pseudo source.1, P.block source.2)) =
      (ir.phiDefs k).map fun d => (P.pseudo d.src1, P.block d.bb) := fun k => by
    simp [sources, Function.comp_def]
  have hflat : ∀ k, ((ir.phiDefs k).flatMap fun d => [P.pseudo d.src1, P.block d.bb]) =
      (ir.sources k).flatMap fun source => [P.pseudo source.1, P.block source.2] := fun k => by
    simp [sources, List.flatMap_map]
  constructor
  · intro h
    have hpairs := flatMap_pair_inj h
    rw [← hmap, ← hmap] at hpairs
    refine List.map_injective_iff.2 ?_ hpairs
    intro x y hxy
    exact Prod.ext (P.pseudo_injective (Prod.mk.inj hxy).1) (P.block_injective (Prod.mk.inj hxy).2)
  · intro h
    rw [hflat, hflat, h]

/-- Equal keys mean equal computations, phis of different sizes and operations for different types
apart. -/
theorem sameComputation_of_key {i j : InsnId} (h : key P i = key P j)
    (hash : (hashBucket P i).isSome = true)
    (hsize : (ir.insn i).opcode = .phi → (ir.insn i).size = (ir.insn j).size)
    (harithmetic : (ir.insn i).opcode.readsArithmetic = true → (ir.insn i).arithmetic = (ir.insn j).arithmetic) :
    SameComputation P i j := by
  obtain ⟨hhead, htail⟩ := List.cons.inj h
  have hop := Opcode.ctorIdx_injective hhead
  have hload : ∀ {k}, ir.load (.src1 k) = (ir.insn k).src1 ∧ ir.load (.src2 k) = (ir.insn k).src2 ∧
      ir.load (.src3 k) = (ir.insn k).src3 := ⟨rfl, rfl, rfl⟩
  rw [← hop] at htail
  cases hi : (ir.insn i).opcode with
  | phi =>
    simp only [hi] at htail
    refine ⟨hop, hsize hi, ?_, harithmetic, fun hcast => ?_, fun hset => ?_, fun _ => sources_eq_iff.1 htail⟩
    · simp [operands, ← hop, hi]
    · rw [hi] at hcast
      cases hcast
    · rw [hi] at hset
      cases hset
  | setval =>
    simp only [hi, List.cons.injEq] at htail
    refine ⟨hop, htail.2.1, ?_, harithmetic, fun hcast => ?_, fun _ => htail.1, fun hphi => ?_⟩
    · simp [operands, Instruction.operandSlots, ← hop, hi, Opcode.isBinary]
    · rw [hi] at hcast
      cases hcast
    · rw [hi] at hphi
      cases hphi
  | cast | scast | ptrcast =>
    simp only [hi, List.cons.injEq] at htail
    refine ⟨hop, htail.2.2.1, ?_, harithmetic, fun _ => P.origType_apart i j htail.1, fun hset => ?_,
      fun hphi => ?_⟩
    · simp [operands, Instruction.operandSlots, ← hop, hi, hload, P.pseudo_injective htail.2.1]
    · rw [hi] at hset
      cases hset
    · rw [hi] at hphi
      cases hphi
  | notLin | neg | symaddr =>
    simp only [hi, List.cons.injEq] at htail
    refine ⟨hop, htail.2.1, ?_, harithmetic, fun hcast => ?_, fun hset => ?_, fun hphi => ?_⟩
    · simp [operands, Instruction.operandSlots, ← hop, hi, hload, P.pseudo_injective htail.1]
    · rw [hi] at hcast
      cases hcast
    · rw [hi] at hset
      cases hset
    · rw [hi] at hphi
      cases hphi
  | sel =>
    simp only [hi, List.cons.injEq] at htail
    refine ⟨hop, htail.2.2.2.1, ?_, harithmetic, fun hcast => ?_, fun hset => ?_, fun hphi => ?_⟩
    · simp [operands, Instruction.operandSlots, ← hop, hi, hload, P.pseudo_injective htail.1,
        P.pseudo_injective htail.2.1, P.pseudo_injective htail.2.2.1]
    · rw [hi] at hcast
      cases hcast
    · rw [hi] at hset
      cases hset
    · rw [hi] at hphi
      cases hphi
  | addLin | sub | mulu | muls | divu | divs | modu | mods | shl | lsr | asr | andLin | orLin | xorLin | andBool
  | orBool | setEq | setNe | setLe | setGe | setLt | setGt | setB | setA | setBe | setAe =>
    simp only [hi, Opcode.isBinary, if_true, List.cons.injEq] at htail
    refine ⟨hop, htail.2.2.1, ?_, harithmetic, fun hcast => ?_, fun hset => ?_, fun hphi => ?_⟩
    · simp [operands, Instruction.operandSlots, ← hop, hi, hload, Opcode.isBinary, P.pseudo_injective htail.1,
        P.pseudo_injective htail.2.1]
    · rw [hi] at hcast
      cases hcast
    · rw [hi] at hset
      cases hset
    · rw [hi] at hphi
      cases hphi
  | _ =>
    simp only [hashBucket, hi, Opcode.isBinary] at hash
    cases hash

/-- The hash of a phi is that of its sources. -/
theorem hash_phi (cs : List CellId) (start : BitVec 64) :
    cs.foldl (fun hash c =>
        match ir.phiDef c with
        | none => hash
        | some d => hash + BitVec.ofNat 64 (P.pseudo d.src1) + BitVec.ofNat 64 (P.block d.bb)) start =
      ((cs.filterMap ir.phiDef).map fun d => (d.src1, d.bb)).foldl (fun hash source =>
        hash + BitVec.ofNat 64 (P.pseudo source.1) + BitVec.ofNat 64 (P.block source.2)) start := by
  induction cs generalizing start with
  | nil => rfl
  | cons c cs ih =>
    rw [List.foldl_cons]
    cases hc : ir.phiDef c with
    | none =>
      dsimp only
      rw [ih, List.filterMap_cons_none hc]
    | some d =>
      dsimp only
      rw [ih, List.filterMap_cons_some hc, List.map_cons, List.foldl_cons]

/-- Equal keys and sizes mean the same bucket. -/
theorem hashBucket_of_key {i j : InsnId} (h : key P i = key P j) (hsize : (ir.insn i).size = (ir.insn j).size) :
    hashBucket P i = hashBucket P j := by
  obtain ⟨hhead, htail⟩ := List.cons.inj h
  have hop := Opcode.ctorIdx_injective hhead
  rw [← hop] at htail
  cases hi : (ir.insn i).opcode with
  | phi =>
    simp only [hi] at htail
    have hsources : ((ir.insn i).phiList.filterMap ir.phiDef).map (fun d => (d.src1, d.bb)) =
        ((ir.insn j).phiList.filterMap ir.phiDef).map fun d => (d.src1, d.bb) := sources_eq_iff.1 htail
    simp only [hashBucket, ← hop, hi, hash_phi, hsources, hsize]
  | setval =>
    simp only [hi, List.cons.injEq] at htail
    simp only [hashBucket, ← hop, hi, htail.1, hsize]
  | cast | scast | ptrcast =>
    simp only [hi, List.cons.injEq] at htail
    simp only [hashBucket, ← hop, hi, htail.1, htail.2.1, hsize]
  | notLin | neg | symaddr =>
    simp only [hi, List.cons.injEq] at htail
    simp only [hashBucket, ← hop, hi, htail.1, hsize]
  | sel =>
    simp only [hi, List.cons.injEq] at htail
    simp only [hashBucket, ← hop, hi, htail.1, htail.2.1, htail.2.2.1, hsize]
  | addLin | sub | mulu | muls | divu | divs | modu | mods | shl | lsr | asr | andLin | orLin | xorLin | andBool
  | orBool | setEq | setNe | setLe | setGe | setLt | setGt | setB | setA | setBe | setAe =>
    simp only [hi, Opcode.isBinary, if_true, List.cons.injEq] at htail
    simp only [hashBucket, ← hop, hi, htail.1, htail.2.1, hsize]
  | _ => simp only [hashBucket, ← hop, hi, Opcode.isBinary, Bool.false_eq_true, if_false, Option.map_none]

/-- The keys leave out what an operation is evaluated for. -/
theorem SameOperation.key_eq {i j : InsnId} (h : SameOperation P i j)
    (hreads : (ir.insn i).opcode.readsArithmetic = true) (hash : (hashBucket P i).isSome = true) :
    key P i = key P j := by
  have hoperands := h.operands
  simp only [Ir.operands, Instruction.operandSlots, ← h.opcode] at hoperands
  simp only [key, ← h.opcode, ← h.size, List.cons.injEq, true_and]
  cases hi : (ir.insn i).opcode with
  | cast | scast | ptrcast =>
    have horigType := h.origType (by rw [hi]; rfl)
    simp_all [load]
  | _ => simp_all [Opcode.readsArithmetic, Opcode.isBinary, Opcode.isCast, load, hashBucket]

/-- An operation that is evaluated for a type is the same one if the keys are equal. -/
theorem sameOperation_of_key {i j : InsnId} (h : key P i = key P j)
    (hreads : (ir.insn i).opcode.readsArithmetic = true) (hash : (hashBucket P i).isSome = true) :
    SameOperation P i j := by
  obtain ⟨hhead, htail⟩ := List.cons.inj h
  have hop := Opcode.ctorIdx_injective hhead
  rw [← hop] at htail
  cases hi : (ir.insn i).opcode with
  | cast | scast | ptrcast =>
    simp only [hi, List.cons.injEq] at htail
    exact ⟨hop, htail.2.2.1, by simp [operands, Instruction.operandSlots, ← hop, hi, load,
      P.pseudo_injective htail.2.1], fun _ => htail.1⟩
  | neg =>
    simp only [hi, List.cons.injEq] at htail
    refine ⟨hop, htail.2.1, by simp [operands, Instruction.operandSlots, ← hop, hi, load,
      P.pseudo_injective htail.1], fun hcast => ?_⟩
    rw [hi] at hcast
    cases hcast
  | addLin | sub | mulu | muls | divu | divs | setEq | setNe | setLe | setGe | setLt | setGt | setB | setA
  | setBe | setAe =>
    simp only [hi, Opcode.isBinary, if_true, List.cons.injEq] at htail
    refine ⟨hop, htail.2.2.1, by simp [operands, Instruction.operandSlots, ← hop, hi, load, Opcode.isBinary,
      P.pseudo_injective htail.1, P.pseudo_injective htail.2.1], fun hcast => ?_⟩
    rw [hi] at hcast
    cases hcast
  | fpcast =>
    simp only [hashBucket, hi, Opcode.isBinary] at hash
    cases hash
  | _ =>
    rw [hi] at hreads
    cases hreads

/-- Equal computations yield the same. -/
theorem SameComputation.yields {i j : InsnId} (h : SameComputation P i j)
    (meaning : Opcode → ℕ → Arithmetic → Option TypeInfo → List (BitVec 64) → Option (BitVec 64))
    (constant : ℕ → BitVec 64) (env : Pseudo → BitVec 64) (before : Option BlockId) :
    yields P meaning constant env before i = yields P meaning constant env before j := by
  have htype : (if (ir.insn i).opcode.isCast = true then (ir.insn i).origType else none) =
      if (ir.insn j).opcode.isCast = true then (ir.insn j).origType else none := by
    rw [← h.opcode]
    split
    · rename_i hcast
      exact h.origType hcast
    · rfl
  have harithmetic : (if (ir.insn i).opcode.readsArithmetic = true then (ir.insn i).arithmetic else .integer) =
      if (ir.insn j).opcode.readsArithmetic = true then (ir.insn j).arithmetic else .integer := by
    rw [← h.opcode]
    split
    · rename_i hreads
      exact h.arithmetic hreads
    · rfl
  unfold Ir.yields
  dsimp only
  rw [htype, harithmetic, ← h.size, ← h.operands]
  by_cases hset : (ir.insn i).opcode = .setval
  · rw [← h.opcode, hset, h.val hset]
  · by_cases hphi : (ir.insn i).opcode = .phi
    · rw [← h.opcode, hphi, h.phis hphi]
    · rw [← h.opcode]
      generalize (ir.insn i).opcode = op at hset hphi ⊢
      cases op with
      | setval => exact absurd rfl hset
      | phi => exact absurd rfl hphi
      | _ => rfl

end Ir

/-- The comparison is a total preorder. What it finds equal computes the same and is in one
bucket, if and only if it is not two phis with the same sources and different sizes, and not one
operation on the same operands for different kinds of types. -/
theorem insnCompare_proper_iff {ir : Ir} (P : Pointers ir) :
    (∀ i j, Ir.insnCompare P j i = (Ir.insnCompare P i j).swap) ∧
    (∀ i j k, (Ir.insnCompare P i j).isLE = true → (Ir.insnCompare P j k).isLE = true →
      (Ir.insnCompare P i k).isLE = true) ∧
    ∀ i j, (Ir.hashBucket P i).isSome = true → (Ir.hashBucket P j).isSome = true →
      ((Ir.insnCompare P i j = .eq →
        Ir.SameComputation P i j ∧
          (∀ meaning constant env before,
            Ir.yields P meaning constant env before i = Ir.yields P meaning constant env before j) ∧
          Ir.hashBucket P i = Ir.hashBucket P j) ↔
        ((ir.insn i).opcode = .phi → (ir.insn j).opcode = .phi → ir.sources i = ir.sources j →
          (ir.insn i).size = (ir.insn j).size) ∧
        ((ir.insn i).opcode.readsArithmetic = true → Ir.SameOperation P i j →
          (ir.insn i).arithmetic = (ir.insn j).arithmetic)) := by
  refine ⟨fun i j => ?_, fun i j k hij hjk => ?_, fun i j hi _ =>
    ⟨fun h => ⟨fun hphi hphi' hsources => ?_, fun hreads hsame => ?_⟩, fun ⟨h, harithmetic⟩ heq => ?_⟩⟩
  · rw [Ir.insnCompare_eq, Ir.insnCompare_eq]
    exact OrientedCmp.eq_swap
  · rw [Ir.insnCompare_eq] at hij hjk ⊢
    exact TransCmp.isLE_trans hij hjk
  · refine (h (Ir.insnCompare_eq_iff.2 ?_)).1.size
    simp only [Ir.key, hphi, hphi', Ir.sources_eq_iff.2 hsources]
  · exact (h (Ir.insnCompare_eq_iff.2 (hsame.key_eq hreads hi))).1.arithmetic hreads
  · have hkey := Ir.insnCompare_eq_iff.1 heq
    have hop : (ir.insn i).opcode = (ir.insn j).opcode := Opcode.ctorIdx_injective (List.cons.inj hkey).1
    have hsize : (ir.insn i).opcode = .phi → (ir.insn i).size = (ir.insn j).size := by
      intro hphi
      have htail := (List.cons.inj hkey).2
      rw [← hop, hphi] at htail
      exact h hphi (hop ▸ hphi) (Ir.sources_eq_iff.1 htail)
    have hsame := Ir.sameComputation_of_key hkey hi hsize fun hreads =>
      harithmetic hreads (Ir.sameOperation_of_key hkey hreads hi)
    exact ⟨hsame, hsame.yields, Ir.hashBucket_of_key hkey hsame.size⟩

/-- Phis for an `int` and for a `char` that one branch sets both to 0 and the other both to 1, and the
casts of the first to `long` and to `double`. -/
def twins : Ir where
  insn
    | 0 => { opcode := .phisource, size := 32, bb := some 1, src1 := .val 1, target := .phi 0 }
    | 1 => { opcode := .phisource, size := 32, bb := some 2, src1 := .val 0, target := .phi 1 }
    | 2 => { opcode := .phisource, size := 8, bb := some 1, src1 := .val 1, target := .phi 2 }
    | 3 => { opcode := .phisource, size := 8, bb := some 2, src1 := .val 0, target := .phi 3 }
    | 4 => { opcode := .phi, size := 32, bb := some 3, target := .reg 0, phiList := [0, 1] }
    | 5 => { opcode := .phi, size := 8, bb := some 3, target := .reg 1, phiList := [2, 3] }
    | 6 => { opcode := .scast, size := 64, bb := some 3, target := .reg 2, src1 := .reg 0,
             origType := some ⟨32, true, false⟩ }
    | 7 => { opcode := .scast, size := 64, bb := some 3, target := .reg 3, src1 := .reg 0,
             origType := some ⟨32, true, false⟩, arithmetic := .floating }
    | _ => { opcode := .badop }
  block _ := {}
  cell c := .phi c
  definition
    | .phi nr => some nr
    | .reg nr => some (nr + 4)
    | _ => none
  users _ := []
  bbs := [0, 1, 2, 3]
  entry := 8
  nextInsn := 9
  nextBlock := 4
  nextCell := 4
  nextReg := 4
  nextPhi := 4
  bbGeneration := 0

/-- An address for every pseudo. -/
def somePlace : Pseudo → ℕ
  | .null => 0
  | .void => 1
  | .reg nr => 5 * nr + 2
  | .sym symbol => 5 * symbol + 3
  | .val value => 5 * value.toNat + 4
  | .arg nr => 5 * nr + 5
  | .phi nr => 5 * nr + 6

theorem somePlace_injective : Function.Injective somePlace := by
  intro p q h
  cases p <;> cases q <;> simp only [somePlace] at h <;>
    simp only [reduceCtorEq, Pseudo.reg.injEq, Pseudo.sym.injEq, Pseudo.val.injEq, Pseudo.arg.injEq,
      Pseudo.phi.injEq, ← BitVec.toNat_inj] <;>
    first | omega | exact Nat.eq_of_mul_eq_mul_left (by decide) (Nat.add_right_cancel h)

def twinPlaces : Pointers twins where
  pseudo := somePlace
  block
    | none => 0
    | some b => b + 1
  val _ := 0
  origType i := if (twins.insn i).origType.isSome then 1 else 0
  pseudo_injective := somePlace_injective
  block_injective a b h := by
    cases a with
    | none =>
      cases b with
      | none => rfl
      | some b => exact absurd h (Nat.succ_ne_zero b).symm
    | some a =>
      cases b with
      | none => exact absurd h (Nat.succ_ne_zero a)
      | some b => rw [Nat.succ.inj h]
  origType_apart i j h := by
    have htype : ∀ k, (twins.insn k).origType = none ∨ (twins.insn k).origType = some ⟨32, true, false⟩ := by
      intro k
      simp only [twins]
      split <;> simp
    rcases htype i with hi | hi <;> rcases htype j with hj | hj <;> simp [hi, hj] at h ⊢

theorem twins_proper :
    (Ir.insnCompare twinPlaces 6 7 = .eq →
      Ir.SameComputation twinPlaces 6 7 ∧
        (∀ meaning constant env before,
          Ir.yields twinPlaces meaning constant env before 6 = Ir.yields twinPlaces meaning constant env before 7) ∧
        Ir.hashBucket twinPlaces 6 = Ir.hashBucket twinPlaces 7) ↔
      (Opcode.scast = .phi → Opcode.scast = .phi → twins.sources 6 = twins.sources 7 → 64 = 64) ∧
        (Opcode.scast.readsArithmetic = true → Ir.SameOperation twinPlaces 6 7 → Arithmetic.integer = .floating) :=
  (insnCompare_proper_iff twinPlaces).2.2 6 7 (by decide) (by decide)

/-- The two phis are equal, have different sizes and go to different buckets. The two casts are equal
and do not compute the same. -/
theorem twins_compare_equal :
    (Ir.insnCompare twinPlaces 4 5 = .eq ∧ (Ir.hashBucket twinPlaces 4).isSome = true ∧
      (twins.insn 4).size ≠ (twins.insn 5).size ∧ ¬ Ir.SameComputation twinPlaces 4 5 ∧
      Ir.hashBucket twinPlaces 4 ≠ Ir.hashBucket twinPlaces 5) ∧
    Ir.insnCompare twinPlaces 6 7 = .eq ∧ (Ir.hashBucket twinPlaces 6).isSome = true ∧
      ¬ Ir.SameComputation twinPlaces 6 7 := by
  have hsize : (twins.insn 4).size ≠ (twins.insn 5).size := by decide
  have harithmetic : (twins.insn 6).arithmetic ≠ (twins.insn 7).arithmetic := by decide
  exact ⟨⟨by decide, by decide, hsize, fun h => hsize h.size, by decide⟩, by decide, by decide,
    fun h => harithmetic (h.arithmetic rfl)⟩

end Sparse
