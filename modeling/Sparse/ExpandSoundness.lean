import Sparse.ConstantMeaning

/-!
# Expansion computes the values of C

Typed expressions have a meaning, with every conversion a cast of its own. The
evaluator gives a tree the meaning it has in C, and expansion replaces every
expression that has one by the word that represents it. Along the way every
stored value is masked to its type.
-/

namespace Sparse
open MaskedWords

variable {t : Target}

/-- The operator of the language that an `EXPR_BINOP` stands for. -/
def BinaryOp.source : BinaryOp → Option SourceBinary
  | add => some .add
  | sub => some .sub
  | mul => some .mul
  | div => some .div
  | mod => some .mod
  | and => some .and
  | or => some .or
  | xor => some .xor
  | leftShift => some .leftShift
  | rightShift => some .rightShift
  | logicalAnd => none
  | logicalOr => none

@[simp] theorem SourceBinary.source_op (op : SourceBinary) : op.op.source = some op := by
  cases op <;> rfl

theorem BinaryOp.op_of_source {op : BinaryOp} {s : SourceBinary} (h : op.source = some s) :
    s.op = op := by
  cases op <;> simp only [source, Option.some.injEq, reduceCtorEq] at h <;> subst h <;> rfl

/-- The comparison reads operands of this signedness. -/
def CompareOp.Fits (unsigned : Bool) : CompareOp → Prop
  | lt | gt | lte | gte => unsigned = false
  | unsignedLt | unsignedGt | unsignedLte | unsignedGte => unsigned = true
  | equal | notEqual => True

namespace Expression

/-- The value C gives to a typed expression. -/
def meaning (t : Target) : Expression → Option ℤ
  | value c v => some (c.ofBits t (v.setWidth _))
  | preop c op e => (e.meaning t).bind fun a => c.unary t a op
  | binop c op l r => op.source.bind fun op => (l.meaning t).bind fun a =>
      (r.meaning t).bind fun b => c.binary t a b op
  | compare _ op l r => (l.meaning t).bind fun a => (r.meaning t).map fun b => truth (op.holds a b)
  | logical _ .and l r => (l.meaning t).bind fun a =>
      if a = 0 then some 0 else (r.meaning t).map fun b => truth (b ≠ 0)
  | logical _ .or l r => (l.meaning t).bind fun a =>
      if a ≠ 0 then some 1 else (r.meaning t).map fun b => truth (b ≠ 0)
  | conditional _ _ c l r => (c.meaning t).bind fun a =>
      if a ≠ 0 then l.meaning t else r.meaning t
  | shortConditional _ _ c r => (c.meaning t).bind fun a =>
      if a ≠ 0 then some a else r.meaning t
  | comma _ l r => (l.meaning t).bind fun _ => r.meaning t
  | cast c _ e => (e.meaning t).map (c.convert t)

/-- Stored values are masked to their type, and operands have the type the
operator reads them with. -/
def WellTyped (t : Target) : Expression → Prop
  | value c v => Canonical (c.bitSize t) v
  | preop c op e => e.WellTyped t ∧ if op = .not then c = .bool else e.ctype = c
  | binop c op l r => l.WellTyped t ∧ r.WellTyped t ∧
      (op.source.isSome → l.ctype = c ∧ (op.isShift = false → r.ctype = c))
  | compare c op l r => l.WellTyped t ∧ r.WellTyped t ∧ c = .bool ∧ r.ctype = l.ctype ∧
      op.Fits l.ctype.isUnsigned
  | logical c _ l r => l.WellTyped t ∧ r.WellTyped t ∧ c = .bool
  | conditional c _ a l r => a.WellTyped t ∧ l.WellTyped t ∧ r.WellTyped t ∧
      l.ctype = c ∧ r.ctype = c
  | shortConditional c _ a r => a.WellTyped t ∧ r.WellTyped t ∧ a.ctype = c ∧ r.ctype = c
  | comma c l r => l.WellTyped t ∧ r.WellTyped t ∧ r.ctype = c
  | cast _ _ e => e.WellTyped t

/-- `e'` is `e` after expansion: of the same type, and the value of `e` where it has one. -/
structure Expanded (t : Target) (e e' : Expression) : Prop where
  wellTyped : e'.WellTyped t
  ctype : e'.ctype = e.ctype
  folded : ∀ z, e.meaning t = some z → ∃ v, e' = value e.ctype v ∧ Represents t e.ctype v z

end Expression

/-! ## One node -/

/-- The comparison folds to the truth value of C. -/
theorem simplifyCmpBinop_represents {c : Ctype} {op : CompareOp} {l r : BitVec 64} {a b : ℤ}
    (hop : op.Fits c.isUnsigned) (hl : Represents t c l a) (hr : Represents t c r b) :
    Represents t .bool (simplifyCmpBinop op (c.intType t) l r) (truth (op.holds a b)) := by
  have hsize : (c.intType t).bitSize = c.bitSize t := rfl
  refine Represents.boolWord _ _ ?_
  cases op <;> simp only [CompareOp.Fits] at hop <;>
    simp only [CompareOp.holds, decide_eq_true_eq, beq_iff_eq, bne_iff_ne, ne_eq, hsize,
      BitVec.slt_iff_toInt_lt, BitVec.sle_iff_toInt_le, BitVec.ult_iff_toNat_lt,
      BitVec.ule_iff_toNat_le, hl.eq_iff hr]
  case lt | gt | lte | gte => rw [hl.toInt_of_signed hop, hr.toInt_of_signed hop]
  case unsignedLt | unsignedGt | unsignedLte | unsignedGte =>
    have ha := hl.toNat_of_unsigned hop
    have hb := hr.toNat_of_unsigned hop
    omega

theorem simplifyPreop_canonical {c : Ctype} {op : UnaryOp} {v v' : BitVec 64}
    (h : simplifyPreop t c op v = some v') : Canonical (c.bitSize t) v' := by
  obtain ⟨x, -, rfl⟩ := Option.map_eq_some_iff.1 h
  exact canonical_and_lowMask (c.bitSize_pos t) (c.bitSize_le t) x

theorem intBinopValue_canonical {c : Ctype} {op : BinaryOp} {l r v : BitVec 64}
    (h : intBinopValue op (c.intType t) l r = some v) : Canonical (c.bitSize t) v := by
  obtain ⟨x, -, rfl⟩ := Option.map_eq_some_iff.1 h
  exact canonical_and_lowMask (c.bitSize_pos t) (c.bitSize_le t) x

theorem boolWord_canonical (b : Bool) : Canonical (Ctype.bool.bitSize t) (boolWord b) := by
  cases b
  · exact show _ < 2 ^ 1 by decide
  · exact show _ < 2 ^ 1 by decide

/-- A reduced shift count is not larger than the count. -/
theorem shiftCount_le {conservative : Bool} {op : BinaryOp} {ctype : IntType} {r r' : BitVec 64}
    (h : shiftCount conservative op ctype r = some r') : r'.toNat ≤ r.toNat := by
  rw [shiftCount] at h
  split at h
  · split at h
    · simp at h
    · rw [← Option.some.inj h, checkShiftCount, BitVec.toNat_setWidth, BitVec.toNat_and,
        BitVec.toNat_setWidth]
      exact (Nat.mod_le _ _).trans (Nat.and_le_left.trans (Nat.mod_le _ _))
  · rw [Option.some.inj h]

theorem castValue_canonical {c d : Ctype} {v : BitVec 64} (h : Canonical (d.bitSize t) v) :
    Canonical (c.bitSize t) (castValue t c d v) :=
  (Represents.castValue_represents ⟨h, rfl⟩).canonical

namespace Expression

theorem expanded_value {c : Ctype} {v : BitVec 64} {e : Expression} (hc : e.ctype = c)
    (hv : Canonical (c.bitSize t) v) (h : ∀ z, e.meaning t = some z → Represents t c v z) :
    Expanded t e (value c v) := by
  subst hc
  exact ⟨hv, rfl, fun z hz => ⟨v, rfl, h z hz⟩⟩

theorem simplifyBinop_expanded {conservative : Bool} {c : Ctype} {op : BinaryOp}
    {l r l' r' : Expression} (hw : (binop c op l r).WellTyped t) (hl : Expanded t l l')
    (hr : Expanded t r r') :
    Expanded t (binop c op l r) (simplifyBinop t conservative c op l' r').1 := by
  obtain ⟨-, -, htypes⟩ := hw
  have htypes' : op.source.isSome → l'.ctype = c ∧ (op.isShift = false → r'.ctype = c) := by
    rw [hl.ctype, hr.ctype]
    exact htypes
  -- the values of the operands, and the fold that C's value forces
  have hfold : ∀ z, (binop c op l r).meaning t = some z → ∃ lv rv v,
      l' = value l.ctype lv ∧ r' = value r.ctype rv ∧
        shiftCount conservative op (c.intType t) rv = some rv ∧
          intBinopValue op (c.intType t) lv rv = some v ∧ Represents t c v z := by
    intro z hz
    obtain ⟨s, hs, hz₁⟩ := Option.bind_eq_some_iff.1 hz
    obtain ⟨a, ha, hz₂⟩ := Option.bind_eq_some_iff.1 hz₁
    obtain ⟨b, hb, hbinary⟩ := Option.bind_eq_some_iff.1 hz₂
    obtain ⟨lv, hlv, hla⟩ := hl.folded a ha
    obtain ⟨rv, hrv, hrb⟩ := hr.folded b hb
    obtain ⟨hlc, hrc⟩ := htypes (by rw [hs]; rfl)
    obtain rfl := BinaryOp.op_of_source hs
    rw [hlc] at hla
    cases hop : s.op.isShift with
    | true =>
      obtain ⟨v, hcount, hv, hrep⟩ := Represents.shift_represents hop conservative hla hrb hbinary
      exact ⟨lv, rv, v, hlv, hrv, hcount, hv, hrep⟩
    | false =>
      rw [hrc hop] at hrb
      obtain ⟨v, hv, hrep⟩ := Represents.intBinopValue_represents hop hla hrb hbinary
      exact ⟨lv, rv, v, hlv, hrv, if_neg (by simp [hop]), hv, hrep⟩
  have hstay : ∀ r'', r''.WellTyped t → r''.ctype = r'.ctype →
      (∀ z, (binop c op l r).meaning t ≠ some z) →
        Expanded t (binop c op l r) (binop c op l' r'') := fun r'' hw'' hc'' hnone =>
    ⟨⟨hl.wellTyped, hw'', by rw [hc'']; exact htypes'⟩, rfl, fun z hz => absurd hz (hnone z)⟩
  unfold simplifyBinop
  split
  · rename_i rtype rv
    have hwr : Canonical (rtype.bitSize t) rv := hr.wellTyped
    split
    · rename_i hcount
      refine hstay _ hr.wellTyped rfl fun z hz => ?_
      obtain ⟨lv, rv', v, -, hr', hcount', -⟩ := hfold z hz
      cases hr'
      simp [hcount] at hcount'
    · rename_i rv'' hcount
      have hwr'' : Canonical (rtype.bitSize t) rv'' := Nat.lt_of_le_of_lt (shiftCount_le hcount) hwr
      split
      · split
        · rename_i v hv
          refine expanded_value rfl (intBinopValue_canonical hv) fun z hz => ?_
          obtain ⟨lv, rv', v', hl', hr', hcount', hv', hrep⟩ := hfold z hz
          cases hl'
          cases hr'
          rw [hcount] at hcount'
          obtain rfl := Option.some.inj hcount'
          rw [hv] at hv'
          exact Option.some.inj hv' ▸ hrep
        · rename_i hv
          refine hstay (value rtype rv'') hwr'' rfl fun z hz => ?_
          obtain ⟨lv, rv', v', hl', hr', hcount', hv', -⟩ := hfold z hz
          cases hl'
          cases hr'
          rw [hcount] at hcount'
          obtain rfl := Option.some.inj hcount'
          simp [hv] at hv'
      · rename_i hnot
        refine hstay (value rtype rv'') hwr'' rfl fun z hz => ?_
        obtain ⟨lv, rv', v', hl', -⟩ := hfold z hz
        exact hnot _ _ hl'
  · rename_i hnot
    refine hstay r' hr.wellTyped rfl fun z hz => ?_
    obtain ⟨lv, rv', v', -, hr', -⟩ := hfold z hz
    exact hnot _ _ hr'

/-- Where one operand decides, `&&` and `||` are its short circuit. -/
theorem shortCircuit_represents {c : Ctype} {op : LogicalOp} {l r : Expression} {lv : BitVec 64}
    {a z : ℤ} (ha : l.meaning t = some a) (hl : Represents t l.ctype lv a)
    (hz : (logical c op l r).meaning t = some z) :
    match shortCircuit op lv with
    | some v => Represents t .bool v z
    | none => ∃ b, r.meaning t = some b ∧ z = truth (b ≠ 0) := by
  have hzero := hl.eq_zero_iff
  cases op with
  | and =>
    simp only [meaning, ha, Option.bind_some] at hz
    simp only [shortCircuit]
    by_cases hlv : lv = 0#64
    · rw [if_pos (hzero.1 hlv)] at hz
      rw [if_pos hlv]
      exact Option.some.inj hz ▸ ⟨boolWord_canonical false, rfl⟩
    · rw [if_neg (mt hzero.2 hlv)] at hz
      obtain ⟨b, hb, hbz⟩ := Option.map_eq_some_iff.1 hz
      rw [if_neg hlv]
      exact ⟨b, hb, hbz.symm⟩
  | or =>
    simp only [meaning, ha, Option.bind_some] at hz
    simp only [shortCircuit]
    by_cases hlv : lv = 0#64
    · rw [if_neg (not_not.2 (hzero.1 hlv))] at hz
      obtain ⟨b, hb, hbz⟩ := Option.map_eq_some_iff.1 hz
      rw [if_neg (not_not.2 hlv)]
      exact ⟨b, hb, hbz.symm⟩
    · rw [if_pos (mt hzero.2 hlv)] at hz
      rw [if_pos hlv]
      exact Option.some.inj hz ▸ ⟨boolWord_canonical true, rfl⟩

theorem simplifyLogical_expanded {c : Ctype} {op : LogicalOp} {l r : Expression}
    {l' r' : Expression × ℤ} (hw : (logical c op l r).WellTyped t) (hl : Expanded t l l'.1)
    (hr : Expanded t r r'.1)
    (h : ∀ z, (logical c op l r).meaning t = some z →
      ∃ a b, l.meaning t = some a ∧ r.meaning t = some b ∧ z = truth (b ≠ 0)) :
    Expanded t (logical c op l r) (simplifyLogical c op l' r').1 := by
  obtain ⟨-, -, rfl⟩ := hw
  unfold simplifyLogical
  split
  · rename_i d v rtype rv hlv hrv
    refine expanded_value rfl (boolWord_canonical _) fun z hz => ?_
    obtain ⟨a, b, -, hb, rfl⟩ := h z hz
    obtain ⟨rv', hrv', hrep⟩ := hr.folded b hb
    rw [hrv'] at hrv
    cases hrv
    exact Represents.boolWord _ _ (by rw [bne_iff_ne, ne_eq, hrep.eq_zero_iff])
  · rename_i hnot
    have hnone : ∀ z, (logical .bool op l r).meaning t ≠ some z := by
      intro z hz
      obtain ⟨a, b, ha, hb, -⟩ := h z hz
      obtain ⟨lv, hlv, -⟩ := hl.folded a ha
      obtain ⟨rv, hrv, -⟩ := hr.folded b hb
      exact hnot _ _ _ _ hlv hrv
    split
    · refine ⟨⟨hl.wellTyped, hr.wellTyped, ?_⟩, rfl, fun z hz => absurd hz (hnone z)⟩
      cases op <;> simp [LogicalOp.binaryOp, BinaryOp.source]
    · exact ⟨⟨hl.wellTyped, hr.wellTyped, rfl⟩, rfl, fun z hz => absurd hz (hnone z)⟩

/-- The node of an arm stands for the whole conditional or comma. -/
theorem Expanded.congr {e e₁ e' : Expression} (h : Expanded t e₁ e') (hc : e₁.ctype = e.ctype)
    (hm : ∀ z, e.meaning t = some z → e₁.meaning t = some z) : Expanded t e e' where
  wellTyped := h.wellTyped
  ctype := h.ctype.trans hc
  folded z hz := by
    rw [← hc]
    exact h.folded z (hm z hz)

/-! ## The whole tree -/

/-- Expansion keeps the types, masks every stored value, and finds the value of
every expression that has one. -/
theorem expand_expanded (conservative : Bool) (e : Expression) (hw : e.WellTyped t) :
    Expanded t e (e.expand t conservative).1 := by
  induction e with
  | value c v =>
    exact expanded_value rfl hw fun z hz => ⟨hw, Option.some.inj hz⟩
  | preop c op e ih =>
    have he := ih hw.1
    have hstay : (∀ z, (preop c op e).meaning t ≠ some z) →
        Expanded t (preop c op e) (preop c op (e.expand t conservative).1) := fun hnone =>
      ⟨⟨he.wellTyped, by rw [he.ctype]; exact hw.2⟩, rfl, fun z hz => absurd hz (hnone z)⟩
    have hfold : ∀ z, (preop c op e).meaning t = some z → ∃ v v',
        (e.expand t conservative).1 = value e.ctype v ∧ simplifyPreop t c op v = some v' ∧
          Represents t c v' z := by
      intro z hz
      obtain ⟨a, ha, hunary⟩ := Option.bind_eq_some_iff.1 hz
      obtain ⟨v, hv, hrep⟩ := he.folded a ha
      have hop := hw.2
      split at hop
      · rename_i hnot
        subst hnot hop
        obtain ⟨v', hv', hrep'⟩ := Represents.simplifyPreop_not_represents hrep hunary
        exact ⟨v, v', hv, hv', hrep'⟩
      · rename_i hnot
        rw [hop] at hrep
        obtain ⟨v', hv', hrep'⟩ := Represents.simplifyPreop_represents hnot hrep hunary
        exact ⟨v, v', hv, hv', hrep'⟩
    simp only [expand]
    split
    · rename_i d v hv
      split
      · rename_i v' hv'
        refine expanded_value rfl (simplifyPreop_canonical hv') fun z hz => ?_
        obtain ⟨w, w', hw₁, hw₂, hrep⟩ := hfold z hz
        rw [hv] at hw₁
        cases hw₁
        rw [hv'] at hw₂
        exact Option.some.inj hw₂ ▸ hrep
      · rename_i hv'
        refine hstay fun z hz => ?_
        obtain ⟨w, w', hw₁, hw₂, -⟩ := hfold z hz
        rw [hv] at hw₁
        cases hw₁
        simp [hv'] at hw₂
    · rename_i hnot
      refine hstay fun z hz => ?_
      obtain ⟨w, w', hw₁, -⟩ := hfold z hz
      exact hnot _ _ hw₁
  | binop c op l r ihl ihr =>
    simp only [expand]
    exact simplifyBinop_expanded hw (ihl hw.1) (ihr hw.2.1)
  | compare c op l r ihl ihr =>
    obtain ⟨hwl, hwr, rfl, htypes, hfits⟩ := hw
    have hl := ihl hwl
    have hr := ihr hwr
    simp only [expand]
    split
    · rename_i ltype lv rtype rv hlv hrv
      refine expanded_value rfl (boolWord_canonical _) fun z hz => ?_
      obtain ⟨a, ha, hz₁⟩ := Option.bind_eq_some_iff.1 hz
      obtain ⟨b, hb, rfl⟩ := Option.map_eq_some_iff.1 hz₁
      obtain ⟨lv', hlv', hla⟩ := hl.folded a ha
      obtain ⟨rv', hrv', hrb⟩ := hr.folded b hb
      rw [hlv] at hlv'
      cases hlv'
      rw [hrv] at hrv'
      cases hrv'
      rw [htypes] at hrb
      exact simplifyCmpBinop_represents hfits hla hrb
    · rename_i hnot
      refine ⟨⟨hl.wellTyped, hr.wellTyped, rfl, ?_, ?_⟩, rfl, fun z hz => ?_⟩
      · rw [hl.ctype, hr.ctype, htypes]
      · rw [hl.ctype]
        exact hfits
      · obtain ⟨a, ha, hz₁⟩ := Option.bind_eq_some_iff.1 hz
        obtain ⟨b, hb, rfl⟩ := Option.map_eq_some_iff.1 hz₁
        obtain ⟨lv', hlv', -⟩ := hl.folded a ha
        obtain ⟨rv', hrv', -⟩ := hr.folded b hb
        exact absurd hrv' (hnot _ _ _ _ hlv')
  | logical c op l r ihl ihr =>
    have hl := ihl hw.1
    have hr := ihr hw.2.1
    simp only [expand]
    split
    · rename_i d lv hlv
      have hleft : ∀ z, (logical c op l r).meaning t = some z →
          ∃ a, l.meaning t = some a ∧ Represents t l.ctype lv a := by
        intro z hz
        obtain ⟨a, ha⟩ : ∃ a, l.meaning t = some a := by
          cases op <;> exact (Option.bind_eq_some_iff.1 hz).imp fun _ h => h.1
        obtain ⟨lv', hlv', hrep⟩ := hl.folded a ha
        rw [hlv] at hlv'
        cases hlv'
        exact ⟨a, ha, hrep⟩
      split
      · rename_i v hv
        have hcan : Canonical (Ctype.bool.bitSize t) v := by
          cases op <;> simp only [shortCircuit] at hv <;> split at hv <;>
            simp only [Option.some.injEq, reduceCtorEq] at hv <;> subst hv
          · exact boolWord_canonical false
          · exact boolWord_canonical true
        obtain ⟨-, -, rfl⟩ := hw
        refine expanded_value rfl hcan fun z hz => ?_
        obtain ⟨a, ha, hrep⟩ := hleft z hz
        have hshort := shortCircuit_represents ha hrep hz
        rw [hv] at hshort
        exact hshort
      · rename_i hv
        refine simplifyLogical_expanded hw hl hr fun z hz => ?_
        obtain ⟨a, ha, hrep⟩ := hleft z hz
        have hshort := shortCircuit_represents ha hrep hz
        rw [hv] at hshort
        obtain ⟨b, hb, hbz⟩ := hshort
        exact ⟨a, b, ha, hb, hbz⟩
    · rename_i hnot
      refine simplifyLogical_expanded hw hl hr fun z hz => ?_
      obtain ⟨a, ha⟩ : ∃ a, l.meaning t = some a := by
        cases op <;> exact (Option.bind_eq_some_iff.1 hz).imp fun _ h => h.1
      obtain ⟨lv, hlv, -⟩ := hl.folded a ha
      exact absurd hlv (hnot _ _)
  | conditional c select a l r iha ihl ihr =>
    obtain ⟨hwa, hwl, hwr, hcl, hcr⟩ := hw
    have ha := iha hwa
    simp only [expand]
    split
    · rename_i d v hv
      have hcond : ∀ z, (conditional c select a l r).meaning t = some z →
          (if v = 0#64 then r else l).meaning t = some z := by
        intro z hz
        obtain ⟨y, hy, hz₁⟩ := Option.bind_eq_some_iff.1 hz
        obtain ⟨v', hv', hrep⟩ := ha.folded y hy
        rw [hv] at hv'
        cases hv'
        by_cases hzero : v = 0#64
        · rw [if_neg (not_not.2 (hrep.eq_zero_iff.1 hzero))] at hz₁
          rw [if_pos hzero]
          exact hz₁
        · rw [if_pos (mt hrep.eq_zero_iff.2 hzero)] at hz₁
          rw [if_neg hzero]
          exact hz₁
      split
      · rename_i hzero
        rw [if_pos hzero] at hcond
        exact (ihr hwr).congr hcr hcond
      · rename_i hzero
        rw [if_neg hzero] at hcond
        exact (ihl hwl).congr hcl hcond
    · rename_i hnot
      have hl := ihl hwl
      have hr := ihr hwr
      have hnone : ∀ z, (conditional c select a l r).meaning t ≠ some z := by
        intro z hz
        obtain ⟨y, hy, -⟩ := Option.bind_eq_some_iff.1 hz
        obtain ⟨v, hv, -⟩ := ha.folded y hy
        exact hnot _ _ hv
      split
      · exact ⟨⟨ha.wellTyped, hl.wellTyped, hr.wellTyped, hl.ctype.trans hcl, hr.ctype.trans hcr⟩,
          rfl, fun z hz => absurd hz (hnone z)⟩
      · exact ⟨⟨ha.wellTyped, hl.wellTyped, hr.wellTyped, hl.ctype.trans hcl, hr.ctype.trans hcr⟩,
          rfl, fun z hz => absurd hz (hnone z)⟩
  | shortConditional c select a r iha ihr =>
    obtain ⟨hwa, hwr, hca, hcr⟩ := hw
    have ha := iha hwa
    simp only [expand]
    split
    · rename_i d v hv
      have hval : ∀ z, (shortConditional c select a r).meaning t = some z → ∃ y,
          a.meaning t = some y ∧ Represents t a.ctype v y ∧
            (if y ≠ 0 then some y else r.meaning t) = some z := by
        intro z hz
        obtain ⟨y, hy, hz₁⟩ := Option.bind_eq_some_iff.1 hz
        obtain ⟨v', hv', hrep⟩ := ha.folded y hy
        rw [hv] at hv'
        cases hv'
        exact ⟨y, hy, hrep, hz₁⟩
      split
      · rename_i hzero
        refine (ihr hwr).congr hcr fun z hz => ?_
        obtain ⟨y, -, hrep, hz₁⟩ := hval z hz
        rw [if_neg (not_not.2 (hrep.eq_zero_iff.1 hzero))] at hz₁
        exact hz₁
      · rename_i hzero
        rw [← hv]
        refine ha.congr hca fun z hz => ?_
        obtain ⟨y, hy, hrep, hz₁⟩ := hval z hz
        rw [if_pos (mt hrep.eq_zero_iff.2 hzero)] at hz₁
        rw [hy, hz₁]
    · rename_i hnot
      have hr := ihr hwr
      have hnone : ∀ z, (shortConditional c select a r).meaning t ≠ some z := by
        intro z hz
        obtain ⟨y, hy, -⟩ := Option.bind_eq_some_iff.1 hz
        obtain ⟨v, hv, -⟩ := ha.folded y hy
        exact hnot _ _ hv
      split
      · exact ⟨⟨ha.wellTyped, hr.wellTyped, ha.ctype.trans hca, hr.ctype.trans hcr⟩, rfl,
          fun z hz => absurd hz (hnone z)⟩
      · exact ⟨⟨ha.wellTyped, hr.wellTyped, ha.ctype.trans hca, hr.ctype.trans hcr⟩, rfl,
          fun z hz => absurd hz (hnone z)⟩
  | comma c l r ihl ihr =>
    obtain ⟨hwl, hwr, hcr⟩ := hw
    have hl := ihl hwl
    have hr := ihr hwr
    simp only [expand]
    split
    · refine hr.congr hcr fun z hz => ?_
      obtain ⟨a, -, hz₁⟩ := Option.bind_eq_some_iff.1 hz
      exact hz₁
    · rename_i hnot
      refine ⟨⟨hl.wellTyped, hr.wellTyped, hr.ctype.trans hcr⟩, rfl, fun z hz => ?_⟩
      obtain ⟨a, ha, -⟩ := Option.bind_eq_some_iff.1 hz
      obtain ⟨v, hv, -⟩ := hl.folded a ha
      exact absurd hv (hnot _ _)
  | cast c implied e ih =>
    have he := ih hw
    simp only [expand]
    split
    · rename_i d v hv
      have hcan : Canonical (d.bitSize t) v := by
        have hwv := he.wellTyped
        rw [hv] at hwv
        exact hwv
      have hd : d = e.ctype := by
        rw [← he.ctype, hv]
        rfl
      refine expanded_value rfl (castValue_canonical hcan) fun z hz => ?_
      obtain ⟨a, ha, rfl⟩ := Option.map_eq_some_iff.1 hz
      obtain ⟨v', hv', hrep⟩ := he.folded a ha
      rw [hv] at hv'
      cases hv'
      exact hrep.castValue_represents
    · rename_i hnot
      refine ⟨he.wellTyped, rfl, fun z hz => ?_⟩
      obtain ⟨a, ha, -⟩ := Option.map_eq_some_iff.1 hz
      obtain ⟨v, hv, -⟩ := he.folded a ha
      exact absurd hv (hnot _ _)

theorem meaning_inRange {e : Expression} (hw : e.WellTyped t) {z : ℤ}
    (hz : e.meaning t = some z) : e.ctype.InRange t z := by
  obtain ⟨v, -, hrep⟩ := (expand_expanded true e hw).folded z hz
  exact hrep.inRange

end Expression

end Sparse
