import Sparse.UseListRuns
import Mathlib.Data.Nat.Bitwise
import Mathlib.Data.Nat.ModEq

/-!
# Exchanging operands

`simplify_commutative_binop` brings the constants of an instruction to the right.
`simplify_associative_binop` brings them together: the operand of the inner instruction that is no
constant changes places with the constant of the outer one. Neither looks at the sizes.
-/

namespace Sparse

/-! ## The rewrites -/

/-- `canonical_order`. -/
def canonicalOrder : Pseudo → Pseudo → Bool
  | .val _, .val _ => true
  | .val _, _ => false
  | .sym _, .sym _ | .sym _, .val _ => true
  | .sym _, _ => false
  | _, _ => true

/-- `simplify_commutative_binop`. -/
def Ir.simplifyCommutativeBinop (ir : Ir) (i : InsnId) : Ir :=
  if canonicalOrder (ir.insn i).src1 (ir.insn i).src2 = false then ir.switchPseudo i (.src1 i) i (.src2 i) else ir

namespace Opcode

/-- The opcodes for which `simplify_instruction` calls `simplify_associative_binop`. -/
def associative : List Opcode := [addLin, muls, andLin, orLin, xorLin, andBool, orBool]

/-- The opcodes for which it calls `simplify_commutative_binop`. -/
def commutative : List Opcode := associative ++ [mulu, setEq, setNe]

/-- What an instruction of a size computes: arithmetic and the operations on bits keep as many bits
as the size says, the others yield a truth value. -/
def compute (op : Opcode) (size x y : ℕ) : ℕ :=
  match op with
  | addLin => (x + y) % 2 ^ size
  | mulu | muls => x * y % 2 ^ size
  | andLin => (x &&& y) % 2 ^ size
  | orLin => (x ||| y) % 2 ^ size
  | xorLin => (x ^^^ y) % 2 ^ size
  | andBool => if x ≠ 0 ∧ y ≠ 0 then 1 else 0
  | orBool => if x ≠ 0 ∨ y ≠ 0 then 1 else 0
  | setEq => if x = y then 1 else 0
  | setNe => if x ≠ y then 1 else 0
  | _ => 0

/-- The constants `c1` of an inner and `c2` of an outer instruction may be brought together: the
inner instruction is at least as wide, or width plays no part. -/
def Regroups (op : Opcode) (inner outer c1 c2 : ℕ) : Prop :=
  outer ≤ inner ∨ op ∈ [andLin, andBool, orBool] ∨
    op = muls ∧ (c1 % 2 ^ inner = 0 ∨
      2 ^ (outer - inner) ∣ c2 ∧ 2 ^ (outer - inner) ∣ c2 * (c1 % 2 ^ inner) / 2 ^ inner)

theorem compute_comm {op : Opcode} (h : op ∈ commutative) (size x y : ℕ) :
    op.compute size x y = op.compute size y x := by
  simp only [commutative, associative, List.cons_append, List.nil_append, List.mem_cons, List.not_mem_nil,
    or_false] at h
  rcases h with rfl | rfl | rfl | rfl | rfl | rfl | rfl | rfl | rfl | rfl
  · simp only [compute, Nat.add_comm]
  · simp only [compute, Nat.mul_comm]
  · simp only [compute, Nat.and_comm]
  · simp only [compute, Nat.or_comm]
  · simp only [compute, Nat.xor_comm]
  · simp only [compute, and_comm]
  · simp only [compute, or_comm]
  · simp only [compute, Nat.mul_comm]
  · simp only [compute, eq_comm]
  · simp only [compute, ne_comm]

end Opcode

/-! ## Regrouping -/

section

variable {s t x c d : ℕ}

/-- Bits that one instruction drops the wider one before it has not dropped either. -/
theorem mod_mod_two_pow (h : t ≤ s) (x : ℕ) : x % 2 ^ s % 2 ^ t = x % 2 ^ t :=
  Nat.mod_mod_of_dvd x (Nat.pow_dvd_pow 2 h)

/-- Products of a narrower instruction. -/
theorem mul_regroups_iff (h : s < t) :
    (∀ x, x * c % 2 ^ s * d % 2 ^ t = d * c % 2 ^ s * x % 2 ^ t) ↔
      c % 2 ^ s = 0 ∨ 2 ^ (t - s) ∣ d ∧ 2 ^ (t - s) ∣ d * (c % 2 ^ s) / 2 ^ s := by
  have hpow : 2 ^ t = 2 ^ s * 2 ^ (t - s) := by rw [← Nat.pow_add, Nat.add_sub_cancel' h.le]
  have hpos : 0 < 2 ^ s := Nat.two_pow_pos s
  -- The constant of the inner instruction counts only in its bits.
  have hlow : ∀ x, x * c % 2 ^ s = x * (c % 2 ^ s) % 2 ^ s := fun x => (Nat.mul_mod_mod ..).symm
  generalize hr : c % 2 ^ s = r at hlow ⊢
  have hrlt : r < 2 ^ s := hr ▸ Nat.mod_lt _ hpos
  -- Both sides lack a multiple of the inner modulus to the full product.
  have hiff : ∀ x, x * c % 2 ^ s * d % 2 ^ t = d * c % 2 ^ s * x % 2 ^ t ↔
      x * (d * r / 2 ^ s) ≡ x * r / 2 ^ s * d [MOD 2 ^ (t - s)] := by
    intro x
    have hleft : x * r % 2 ^ s * d + 2 ^ s * (x * r / 2 ^ s * d) = x * r * d := by
      calc x * r % 2 ^ s * d + 2 ^ s * (x * r / 2 ^ s * d)
          = (x * r % 2 ^ s + 2 ^ s * (x * r / 2 ^ s)) * d := by rw [Nat.add_mul, Nat.mul_assoc]
        _ = x * r * d := by rw [Nat.mod_add_div]
    have hright : d * r % 2 ^ s * x + 2 ^ s * (x * (d * r / 2 ^ s)) = x * r * d := by
      calc d * r % 2 ^ s * x + 2 ^ s * (x * (d * r / 2 ^ s))
          = (d * r % 2 ^ s + 2 ^ s * (d * r / 2 ^ s)) * x := by
            rw [Nat.add_mul, Nat.mul_assoc, Nat.mul_comm x]
        _ = x * r * d := by rw [Nat.mod_add_div, Nat.mul_comm, Nat.mul_comm d, Nat.mul_assoc]
    rw [hlow x, hlow d]
    constructor
    · intro heq
      have hsum : 2 ^ s * (x * (d * r / 2 ^ s)) ≡ 2 ^ s * (x * r / 2 ^ s * d) [MOD 2 ^ t] :=
        Nat.ModEq.add_left_cancel (show x * r % 2 ^ s * d ≡ d * r % 2 ^ s * x [MOD 2 ^ t] from heq).symm
          (by rw [hleft, hright])
      rw [hpow] at hsum
      exact Nat.ModEq.mul_left_cancel' hpos.ne' hsum
    · intro heq
      have hsum := heq.mul_left' (2 ^ s)
      rw [← hpow] at hsum
      exact (Nat.ModEq.add_right_cancel hsum (by rw [hleft, hright])).symm
  simp only [hiff]
  constructor
  · intro hall
    rcases Nat.eq_zero_or_pos r with hr0 | hrpos
    · exact Or.inl hr0
    · right
      have hone : 2 ^ (t - s) ∣ d * r / 2 ^ s := by
        have h1 := hall 1
        rw [Nat.one_mul, Nat.one_mul, Nat.div_eq_of_lt hrlt, Nat.zero_mul] at h1
        exact (Nat.modEq_zero_iff_dvd).1 h1
      refine ⟨?_, hone⟩
      -- The least multiple of the constant that reaches the inner modulus.
      have hquot : (2 ^ s + r - 1) / r * r / 2 ^ s = 1 := by
        have hle : (2 ^ s + r - 1) / r * r ≤ 2 ^ s + r - 1 := Nat.div_mul_le_self _ _
        have hge : 2 ^ s ≤ (2 ^ s + r - 1) / r * r := by
          have hmod := Nat.div_add_mod (2 ^ s + r - 1) r
          have hlt := Nat.mod_lt (2 ^ s + r - 1) hrpos
          rw [Nat.mul_comm] at hmod
          omega
        refine Nat.div_eq_of_lt_le ?_ ?_
        · rw [Nat.one_mul]
          exact hge
        · omega
      have h2 := hall ((2 ^ s + r - 1) / r)
      rw [hquot, Nat.one_mul] at h2
      exact (Nat.modEq_zero_iff_dvd).1 (h2.symm.trans ((Nat.modEq_zero_iff_dvd).2 (hone.mul_left _)))
  · rintro (hr0 | ⟨hd, hq⟩) x
    · simp only [hr0, Nat.mul_zero, Nat.zero_div, Nat.zero_mul, Nat.ModEq]
    · exact ((Nat.modEq_zero_iff_dvd).2 (hq.mul_left x)).trans ((Nat.modEq_zero_iff_dvd).2 (hd.mul_left _)).symm

/-- For these the widths play no part. -/
theorem compute_any {op : Opcode} (hop : op ∈ [Opcode.andLin, .andBool, .orBool]) (s t x c d : ℕ) :
    op.compute t (op.compute s x c) d = op.compute t (op.compute s d c) x := by
  simp only [List.mem_cons, List.not_mem_nil, or_false] at hop
  rcases hop with rfl | rfl | rfl
  · refine Nat.eq_of_testBit_eq fun i => ?_
    simp only [Opcode.compute, Nat.testBit_mod_two_pow, Nat.testBit_and]
    cases x.testBit i <;> cases c.testBit i <;> cases d.testBit i <;> simp
  · simp only [Opcode.compute]
    grind
  · simp only [Opcode.compute]
    grind

theorem compute_wide {op : Opcode} (hop : op ∈ Opcode.associative) (h : t ≤ s) (x c d : ℕ) :
    op.compute t (op.compute s x c) d = op.compute t (op.compute s d c) x := by
  simp only [Opcode.associative, List.mem_cons, List.not_mem_nil, or_false] at hop
  rcases hop with rfl | rfl | rfl | rfl | rfl | rfl | rfl
  · simp only [Opcode.compute]
    rw [Nat.add_mod, mod_mod_two_pow h, ← Nat.add_mod, Nat.add_mod (_ % _) x, mod_mod_two_pow h, ← Nat.add_mod]
    congr 1
    omega
  · simp only [Opcode.compute]
    rw [Nat.mul_mod, mod_mod_two_pow h, ← Nat.mul_mod, Nat.mul_mod (_ % _) x, mod_mod_two_pow h, ← Nat.mul_mod]
    congr 1
    rw [Nat.mul_comm x, Nat.mul_comm d, Nat.mul_assoc, Nat.mul_assoc, Nat.mul_comm x]
  · exact compute_any (by simp) s t x c d
  · refine Nat.eq_of_testBit_eq fun i => ?_
    simp only [Opcode.compute, Nat.testBit_mod_two_pow, Nat.testBit_or]
    by_cases hi : i < t
    · simp only [hi, hi.trans_le h, decide_true, Bool.true_and]
      cases x.testBit i <;> cases c.testBit i <;> cases d.testBit i <;> rfl
    · simp [hi]
  · refine Nat.eq_of_testBit_eq fun i => ?_
    simp only [Opcode.compute, Nat.testBit_mod_two_pow, Nat.testBit_xor]
    by_cases hi : i < t
    · simp only [hi, hi.trans_le h, decide_true, Bool.true_and]
      cases x.testBit i <;> cases c.testBit i <;> cases d.testBit i <;> rfl
    · simp [hi]
  · exact compute_any (by simp) s t x c d
  · exact compute_any (by simp) s t x c d

/-- A bit of the moved operand above the width of the inner instruction comes through afterwards. -/
theorem not_compute_narrow {op : Opcode} (hop : op ∈ [Opcode.addLin, .orLin, .xorLin]) (h : s < t) (c d : ℕ) :
    ¬ ∀ x, op.compute t (op.compute s x c) d = op.compute t (op.compute s d c) x := by
  intro hall
  have hzero := hall 0
  have hbit := hall (2 ^ s)
  have hbelow : ∀ y, (y % 2 ^ s).testBit s = false := fun y => by simp [Nat.testBit_mod_two_pow]
  simp only [List.mem_cons, List.not_mem_nil, or_false] at hop
  rcases hop with rfl | rfl | rfl
  · simp only [Opcode.compute] at hzero hbit
    rw [Nat.zero_add, Nat.add_zero] at hzero
    rw [Nat.add_mod_left, hzero] at hbit
    have hlt : (d + c) % 2 ^ s < 2 ^ s := Nat.mod_lt _ (Nat.two_pow_pos s)
    have hdouble : 2 ^ s + 2 ^ s ≤ 2 ^ t := by
      rw [← Nat.two_mul, ← Nat.pow_succ']
      exact Nat.pow_le_pow_right (by decide) h
    have hpos := Nat.two_pow_pos s
    rw [Nat.mod_eq_of_lt (show (d + c) % 2 ^ s < 2 ^ t by omega),
      Nat.mod_eq_of_lt (show (d + c) % 2 ^ s + 2 ^ s < 2 ^ t by omega)] at hbit
    omega
  · have h0 := congrArg (fun y => y.testBit s) hzero
    have h1 := congrArg (fun y => y.testBit s) hbit
    simp only [Opcode.compute, Nat.testBit_mod_two_pow, Nat.testBit_or, h, Nat.lt_irrefl, decide_true, decide_false,
      Bool.true_and, Bool.false_and, Bool.false_or, Nat.testBit_two_pow_self, Nat.zero_testBit] at h0 h1
    rw [h0] at h1
    cases h1
  · have h0 := congrArg (fun y => y.testBit s) hzero
    have h1 := congrArg (fun y => y.testBit s) hbit
    simp only [Opcode.compute, Nat.testBit_mod_two_pow, Nat.testBit_xor, h, Nat.lt_irrefl, decide_true, decide_false,
      Bool.true_and, Bool.false_and, Bool.false_bne, Nat.testBit_two_pow_self, Nat.zero_testBit] at h0 h1
    rw [h0] at h1
    cases h1

/-- When the constants may be brought together. -/
theorem regroups_iff {op : Opcode} (hop : op ∈ Opcode.associative) (s t c d : ℕ) :
    (∀ x, op.compute t (op.compute s x c) d = op.compute t (op.compute s d c) x) ↔ op.Regroups s t c d := by
  rw [Opcode.Regroups]
  by_cases hwide : t ≤ s
  · exact iff_of_true (compute_wide hop hwide · c d) (Or.inl hwide)
  · have hnarrow : s < t := Nat.lt_of_not_le hwide
    simp only [Opcode.associative, List.mem_cons, List.not_mem_nil, or_false] at hop
    rcases hop with rfl | rfl | rfl | rfl | rfl | rfl | rfl
    · exact iff_of_false (not_compute_narrow (by simp) hnarrow c d) (by simp [hwide])
    · simp only [Opcode.compute, mul_regroups_iff hnarrow]
      simp [hwide]
    · exact iff_of_true (compute_any (by simp) s t · c d) (by simp)
    · exact iff_of_false (not_compute_narrow (by simp) hnarrow c d) (by simp [hwide])
    · exact iff_of_false (not_compute_narrow (by simp) hnarrow c d) (by simp [hwide])
    · exact iff_of_true (compute_any (by simp) s t · c d) (by simp)
    · exact iff_of_true (compute_any (by simp) s t · c d) (by simp)

end

/-! ## The instructions -/

/-- What a binary instruction computes. -/
def Instruction.outcome (insn : Instruction) (env : Pseudo → ℕ) : ℕ :=
  insn.opcode.compute insn.size (env insn.src1) (env insn.src2)

/-- What the outer instruction computes after the inner one. -/
def Ir.outcomeAfter (ir : Ir) (d i : InsnId) (env : Pseudo → ℕ) : ℕ :=
  (ir.insn i).outcome (Function.update env (ir.insn d).target ((ir.insn d).outcome env))

section

variable {ir : Ir} {i d : InsnId}

/-- What the slots hold after an exchange. -/
theorem switchPseudo_load (h : UseInvariant ir) {j : InsnId} {s t : Address} (hi : ir.Owns i s)
    (hj : ir.Owns j t) (hne : s ≠ t) (u : Address) : (ir.switchPseudo i s j t).load u =
      if u = t then ir.load s else if u = s then ir.load t else ir.load u := by
  rw [h.switchPseudo_eq hi hj hne, Ir.load_retargetSlot, Ir.load_retargetSlot]

theorem switchPseudo_same (h : UseInvariant ir) {j : InsnId} {s t : Address} (hi : ir.Owns i s)
    (hj : ir.Owns j t) (hne : s ≠ t) :
    SameForm ir (ir.switchPseudo i s j t) ∧ SameRest ir (ir.switchPseudo i s j t) := by
  rw [h.switchPseudo_eq hi hj hne]
  exact ⟨(SameForm.retargetSlot ..).trans (SameForm.retargetSlot ..),
    SameRest.trans (SameRest.retargetSlot _ _ _ _) (SameRest.retargetSlot _ _ _ _)⟩

theorem owns_operands (hi : ir.live i) (hop : (ir.insn i).opcode.isBinary = true) :
    ir.Owns i (.src1 i) ∧ ir.Owns i (.src2 i) := by
  have hslots := Instruction.operandSlots_of_isBinary (i := i) hop
  exact ⟨⟨hi, by rw [hslots]; simp⟩, ⟨hi, by rw [hslots]; simp⟩⟩

theorem isBinary_of_commutative {op : Opcode} (h : op ∈ Opcode.commutative) : op.isBinary = true := by
  simp only [Opcode.commutative, Opcode.associative, List.cons_append, List.nil_append, List.mem_cons,
    List.not_mem_nil, or_false] at h
  rcases h with rfl | rfl | rfl | rfl | rfl | rfl | rfl | rfl | rfl | rfl <;> rfl

/-- The operands of one instruction change places. -/
theorem simplifyCommutativeBinop_keeps (h : UseInvariant ir) (hi : ir.live i)
    (hop : (ir.insn i).opcode ∈ Opcode.commutative) :
    (∀ env, ((ir.simplifyCommutativeBinop i).insn i).outcome env = (ir.insn i).outcome env) ∧
      ∀ j s, j ≠ i → (ir.simplifyCommutativeBinop i).Owns j s →
        (ir.simplifyCommutativeBinop i).load s = ir.load s := by
  unfold Ir.simplifyCommutativeBinop
  split
  · obtain ⟨h1, h2⟩ := owns_operands hi (isBinary_of_commutative hop)
    have hne : Address.src1 i ≠ .src2 i := by simp
    have hload := switchPseudo_load h h1 h2 hne
    obtain ⟨-, hrest⟩ := switchPseudo_same h h1 h2 hne
    have hsrc1 := hload (.src1 i)
    have hsrc2 := hload (.src2 i)
    rw [if_neg hne, if_pos rfl] at hsrc1
    rw [if_pos rfl] at hsrc2
    refine ⟨fun env => ?_, fun j s hj ho => ?_⟩
    · have h1' : ((ir.switchPseudo i (.src1 i) i (.src2 i)).insn i).src1 = (ir.insn i).src2 := hsrc1
      have h2' : ((ir.switchPseudo i (.src1 i) i (.src2 i)).insn i).src2 = (ir.insn i).src1 := hsrc2
      have hsize := congrArg Instruction.size (hrest i)
      rw [Instruction.outcome, Instruction.outcome, hrest.opcode, h1', h2', Opcode.compute_comm hop]
      exact congrArg (fun size => (ir.insn i).opcode.compute size _ _) hsize
    · have hne1 : s ≠ .src1 i := by
        rintro rfl
        exact hj (UseInvariant.insn?_of_owns ho rfl).symm
      have hne2 : s ≠ .src2 i := by
        rintro rfl
        exact hj (UseInvariant.insn?_of_owns ho rfl).symm
      rw [hload, if_neg hne2, if_neg hne1]
  · exact ⟨fun _ => rfl, fun _ _ _ _ => rfl⟩

/-- With one user the result of an instruction is in one slot. -/
theorem slot_unique (h : UseInvariant ir) {p : Pseudo} (hp : hasUseList p = true)
    (hlen : (ir.users p).length = 1) {j : InsnId} {s t : Address} (hi : ir.Owns i s) (hs : ir.load s = p)
    (hj : ir.Owns j t) (ht : ir.load t = p) : s = t := by
  have hmem : ∀ {k u}, ir.Owns k u → ir.load u = p → (⟨k, u⟩ : PseudoUser) ∈ ir.users p := by
    intro k u ho hu
    have hx := h.exact k u ho p hp
    rw [if_pos hu] at hx
    rw [Ir.mem_users_iff, hx]
    exact List.mem_cons_self
  obtain ⟨pu, hpu⟩ := List.length_eq_one_iff.1 hlen
  have h1 := hmem hi hs
  have h2 := hmem hj ht
  rw [hpu, List.mem_singleton] at h1 h2
  exact congrArg PseudoUser.userp (h1.trans h2.symm)

/-- The tests of `simplify_associative_binop`. -/
structure Ir.Accepted (ir : Ir) (i d : InsnId) : Prop where
  defined : ∃ nr, (ir.insn i).src1 = .reg nr ∧ ir.definition (.reg nr) = some d
  apart : d ≠ i
  opcode : (ir.insn d).opcode = (ir.insn i).opcode
  simple : ∀ nr, (ir.insn i).src2 ≠ .reg nr
  users : (ir.users (ir.insn d).target).length = 1

theorem simplifyAssociativeBinop_cases (hd : ir.definition (ir.insn i).src1 = some d) :
    ir.simplifyAssociativeBinop i = ir ∨
      ir.Accepted i d ∧ ir.simplifyAssociativeBinop i = ir.switchPseudo d (.src1 d) i (.src2 i) := by
  unfold Ir.simplifyAssociativeBinop
  dsimp only
  split
  next nr hs =>
    rw [hs] at hd
    rw [hd]
    dsimp only
    split
    · rename_i hc
      obtain ⟨hsimple, hdi, hop, -, hlen⟩ := hc
      refine Or.inr ⟨⟨⟨nr, hs, hd⟩, hdi, hop, fun n hn => ?_, hlen⟩, rfl⟩
      rw [hn] at hsimple
      cases hsimple
    · exact Or.inl rfl
  next => exact Or.inl rfl

/-- The constant of the outer instruction goes to the inner one, whose result only the outer
instruction reads. -/
theorem simplifyAssociativeBinop_keeps (h : UseInvariant ir) (hi : ir.live i)
    (hop : (ir.insn i).opcode ∈ Opcode.associative) (hd : ir.definition (ir.insn i).src1 = some d) :
    (∀ env, (ir.insn i).opcode.Regroups (ir.insn d).size (ir.insn i).size (env (ir.insn d).src2) (env (ir.insn i).src2) →
      (ir.simplifyAssociativeBinop i).outcomeAfter d i env = ir.outcomeAfter d i env) ∧
    ∀ j s, j ≠ i → j ≠ d → (ir.simplifyAssociativeBinop i).Owns j s →
      (ir.simplifyAssociativeBinop i).load s = ir.load s ∧
        (ir.Accepted i d → ir.load s ≠ (ir.insn d).target) := by
  have hcomm : (ir.insn i).opcode ∈ Opcode.commutative := List.mem_append_left _ hop
  have hbinary := isBinary_of_commutative hcomm
  obtain ⟨hi1, hi2⟩ := owns_operands hi hbinary
  -- Another instruction does not read the result of the inner one.
  have hother : ir.Accepted i d → ∀ j s, j ≠ i → ir.Owns j s → ir.load s ≠ (ir.insn d).target := by
    intro hacc j s hj ho hload
    obtain ⟨nr, hs, hdef⟩ := hacc.defined
    have htarget := h.target_of_definition hdef (Opcode.ne_asm_of_isBinary (hacc.opcode ▸ hbinary))
    rw [htarget] at hload
    have hslot := slot_unique h rfl (htarget ▸ hacc.users) hi1 hs ho hload
    rw [← hslot] at ho
    exact hj (UseInvariant.insn?_of_owns ho rfl).symm
  rcases simplifyAssociativeBinop_cases hd with hsame | ⟨hacc, heq⟩
  · rw [hsame]
    exact ⟨fun _ _ => rfl, fun j s hj _ ho => ⟨rfl, fun hacc => hother hacc j s hj ho⟩⟩
  · obtain ⟨nr, hs, hdef⟩ := hacc.defined
    have htarget := h.target_of_definition hdef (Opcode.ne_asm_of_isBinary (hacc.opcode ▸ hbinary))
    have hdl : ir.live d := h.live_of_owns hi1 hs hdef
    obtain ⟨hd1, -⟩ := owns_operands hdl (hacc.opcode ▸ hbinary)
    have hne : Address.src1 d ≠ .src2 i := by simp
    have hload := switchPseudo_load h hd1 hi2 hne
    obtain ⟨hform, hrest⟩ := switchPseudo_same h hd1 hi2 hne
    rw [heq]
    refine ⟨fun env hregroups => ?_, fun j s hj hjd ho => ?_⟩
    · have hd1' : ((ir.switchPseudo d (.src1 d) i (.src2 i)).insn d).src1 = (ir.insn i).src2 := by
        have hslot := hload (.src1 d)
        rwa [if_neg hne, if_pos rfl] at hslot
      have hi2' : ((ir.switchPseudo d (.src1 d) i (.src2 i)).insn i).src2 = (ir.insn d).src1 := by
        have hslot := hload (.src2 i)
        rwa [if_pos rfl] at hslot
      have hd2' : ((ir.switchPseudo d (.src1 d) i (.src2 i)).insn d).src2 = (ir.insn d).src2 := by
        have hslot := hload (.src2 d)
        rwa [if_neg (by simpa using hacc.apart), if_neg (by simp)] at hslot
      have hi1' : ((ir.switchPseudo d (.src1 d) i (.src2 i)).insn i).src1 = .reg nr := by
        have hslot := hload (.src1 i)
        rw [if_neg (by simp), if_neg (by simpa using hacc.apart.symm)] at hslot
        exact hslot.trans hs
      have htarget' : ((ir.switchPseudo d (.src1 d) i (.src2 i)).insn d).target = .reg nr := by
        have hslot := hload (.target d)
        rw [if_neg (by simp), if_neg (by simp)] at hslot
        exact hslot.trans htarget
      have hsize : ∀ k, ((ir.switchPseudo d (.src1 d) i (.src2 i)).insn k).size = (ir.insn k).size := by
        intro k
        have hk := congrArg Instruction.size (hrest k)
        exact hk
      have hmoved : (ir.insn d).src1 ≠ .reg nr := by
        intro hreg
        exact hother hacc d (.src1 d) hacc.apart hd1 (hreg.trans htarget.symm)
      have hvalues := (regroups_iff hop _ _ _ _).2 hregroups (env (ir.insn d).src1)
      simp only [Ir.outcomeAfter, Instruction.outcome, hrest.opcode, hsize, hd1', hd2', hi1', hi2', htarget', htarget,
        hs, hacc.opcode, Function.update_self, Function.update_of_ne hmoved, Function.update_of_ne (hacc.simple nr)]
      exact hvalues.symm
    · have ho' : ir.Owns j s := (hform.owns j s).1 ho
      have hne1 : s ≠ .src1 d := by
        rintro rfl
        exact hjd (UseInvariant.insn?_of_owns ho rfl).symm
      have hne2 : s ≠ .src2 i := by
        rintro rfl
        exact hj (UseInvariant.insn?_of_owns ho rfl).symm
      rw [hload, if_neg hne2, if_neg hne1]
      exact ⟨rfl, fun hacc => hother hacc j s hj ho'⟩

end

/-- Exchanged operands leave the values as they were, if an inner instruction that takes the constant
of an outer one is wide enough, and no other instruction sees a difference. The third part says
that the condition on the widths is what the values ask for. -/
theorem exchanges_keep_values {ir : Ir} (h : UseInvariant ir) :
    (∀ i, ir.live i → (ir.insn i).opcode ∈ Opcode.commutative →
      (∀ env, ((ir.simplifyCommutativeBinop i).insn i).outcome env = (ir.insn i).outcome env) ∧
      ∀ j s, j ≠ i → (ir.simplifyCommutativeBinop i).Owns j s →
        (ir.simplifyCommutativeBinop i).load s = ir.load s) ∧
    (∀ i d, ir.live i → (ir.insn i).opcode ∈ Opcode.associative → ir.definition (ir.insn i).src1 = some d →
      (∀ env, (ir.insn i).opcode.Regroups (ir.insn d).size (ir.insn i).size (env (ir.insn d).src2)
          (env (ir.insn i).src2) →
        (ir.simplifyAssociativeBinop i).outcomeAfter d i env = ir.outcomeAfter d i env) ∧
      ∀ j s, j ≠ i → j ≠ d → (ir.simplifyAssociativeBinop i).Owns j s →
        (ir.simplifyAssociativeBinop i).load s = ir.load s ∧
          (ir.Accepted i d → ir.load s ≠ (ir.insn d).target)) ∧
    ∀ op ∈ Opcode.associative, ∀ inner outer c1 c2,
      (∀ x, op.compute outer (op.compute inner x c1) c2 = op.compute outer (op.compute inner c2 c1) x) ↔
        op.Regroups inner outer c1 c2 :=
  ⟨fun _ hi hop => simplifyCommutativeBinop_keeps h hi hop,
    fun _ _ hi hop hd => simplifyAssociativeBinop_keeps h hi hop hd, fun _ hop _ _ _ _ => regroups_iff hop _ _ _ _⟩

/-- `%r0 = add %arg0, $1; %r1 = add.64 %r0, $2`, where the inner sum has the given size. -/
def nestedSum (size : ℕ) : Ir where
  insn
    | 0 => { opcode := .addLin, size, bb := some 0, target := .reg 0, src1 := .arg 0, src2 := .val 1 }
    | 1 => { opcode := .addLin, size := 64, bb := some 0, target := .reg 1, src1 := .reg 0, src2 := .val 2 }
    | 2 => { opcode := .ret, bb := some 0, src1 := .reg 1 }
    | _ => { opcode := .badop }
  block _ := {}
  cell _ := .null
  definition
    | .reg 0 => some 0
    | .reg 1 => some 1
    | _ => none
  users
    | .arg 0 => [⟨0, .src1 0⟩]
    | .reg 0 => [⟨1, .src1 1⟩]
    | .reg 1 => [⟨2, .src1 2⟩]
    | _ => []
  bbs := [0]
  entry := 3
  nextInsn := 4
  nextBlock := 1
  nextCell := 0
  nextReg := 2
  nextPhi := 0
  bbGeneration := 0

private theorem nestedSum_use {size : ℕ} (hsize : size = 32 ∨ size = 64) : UseInvariant (nestedSum size) := by
  refine .of_check [.arg 0, .reg 0, .reg 1] (fun i hi => ?_) (fun p hp => ?_) ?_
  · match i with
    | 0 | 1 | 2 | 3 => exact absurd hi (by simp [nestedSum])
    | n + 4 => exact fun h => h rfl
  · simp only [nestedSum]
    split <;> simp_all
  · rcases hsize with rfl | rfl <;> decide

/-- The argument has its lowest 32 bits set. -/
def fullWord : Pseudo → ℕ
  | .val value => value.toNat
  | .arg _ => 2 ^ 32 - 1
  | _ => 0

/-- In sums of one width the exchange is made, and the outer sum is what it was. -/
theorem nestedSum_exchanges :
    (nestedSum 64).Accepted 1 0 ∧
    (∀ env, ((nestedSum 64).simplifyAssociativeBinop 1).outcomeAfter 0 1 env =
      (nestedSum 64).outcomeAfter 0 1 env) ∧
    ∀ j s, j ≠ 1 → j ≠ 0 → ((nestedSum 64).simplifyAssociativeBinop 1).Owns j s →
      ((nestedSum 64).simplifyAssociativeBinop 1).load s = (nestedSum 64).load s ∧
        (nestedSum 64).load s ≠ .reg 0 := by
  have haccepted : (nestedSum 64).Accepted 1 0 := ⟨⟨0, rfl, rfl⟩, by decide, rfl, fun nr => nofun, rfl⟩
  have hkeeps := (exchanges_keep_values (nestedSum_use (.inr rfl))).2.1 1 0 (by decide) (by decide) rfl
  exact ⟨haccepted, fun env => hkeeps.1 env (.inl (le_refl 64)), fun j s h1 h0 ho =>
    ⟨(hkeeps.2 j s h1 h0 ho).1, (hkeeps.2 j s h1 h0 ho).2 haccepted⟩⟩

/-- A sum of 32 bits in a sum of 64, which was 2 and is 2 ^ 32 + 2. -/
theorem nestedSum_differs :
    UseInvariant (nestedSum 32) ∧ (nestedSum 32).outcomeAfter 0 1 fullWord = 2 ∧
      ((nestedSum 32).simplifyAssociativeBinop 1).outcomeAfter 0 1 fullWord = 2 ^ 32 + 2 :=
  ⟨nestedSum_use (.inl rfl), by decide, by decide⟩

end Sparse
