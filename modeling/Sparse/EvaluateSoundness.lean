import Sparse.ExpandSoundness

/-!
# Evaluation keeps the values of C

The evaluator inserts the conversions as casts, and `cast_to` moves a cast below
`~` and merges it with an implied one. An implied cast at the top of a tree is
always a promotion of a type smaller than `int`, so merging loses nothing.
-/

namespace Sparse
open MaskedWords Expression

variable {t : Target}

/-! ## Promotions and conversions -/

namespace Ctype

variable {c d : Ctype}

theorem promoted_cases (t : Target) (c : Ctype) :
    c.promoted t = c ∧ 32 ≤ c.bitSize t ∨ c.promoted t = int ∧ c.bitSize t < 32 := by
  rcases Nat.lt_or_ge (c.bitSize t) 32 with h | h
  · exact Or.inr ⟨if_pos h, h⟩
  · refine Or.inl ⟨?_, h⟩
    have hnot : c.isCharOrShort = false := by
      rcases c with _ | ⟨_ | _ | _ | _ | _, _⟩ <;> simp [bitSize, isCharOrShort] at h ⊢
    rw [promoted, if_neg (by omega), hnot]
    rfl

theorem le_bitSize_promoted (t : Target) (c : Ctype) : 32 ≤ (c.promoted t).bitSize t := by
  rcases c.promoted_cases t with ⟨h, hle⟩ | ⟨h, -⟩
  · rw [h]
    exact hle
  · rw [h]
    exact le_refl 32

theorem bitSize_le_promoted (t : Target) (c : Ctype) :
    c.bitSize t ≤ (c.promoted t).bitSize t := by
  rcases c.promoted_cases t with ⟨h, -⟩ | ⟨h, hlt⟩
  · rw [h]
  · rw [h]
    exact hlt.le

theorem promoted_promoted (t : Target) (c : Ctype) :
    (c.promoted t).promoted t = c.promoted t := by
  have hle := c.le_bitSize_promoted t
  rcases (c.promoted t).promoted_cases t with ⟨h, -⟩ | ⟨-, hlt⟩
  · exact h
  · omega

theorem bigger_cases (t : Target) (c d : Ctype) :
    (c.bigger t d = c.promoted t ∨ c.bigger t d = d.promoted t) ∧
      (c.promoted t).bitSize t ≤ (c.bigger t d).bitSize t := by
  simp only [bigger]
  split_ifs <;> constructor <;> first | exact Or.inl rfl | exact Or.inr rfl | omega

theorem le_bitSize_bigger (t : Target) (c d : Ctype) : 32 ≤ (c.bigger t d).bitSize t :=
  (c.le_bitSize_promoted t).trans (bigger_cases t c d).2

theorem bitSize_le_bigger (t : Target) (c d : Ctype) :
    c.bitSize t ≤ (c.bigger t d).bitSize t :=
  (c.bitSize_le_promoted t).trans (bigger_cases t c d).2

theorem operandTypes_le (t : Target) (op : BinaryOp) (c d : Ctype) :
    32 ≤ (operandTypes t op c d).1.bitSize t ∧ 32 ≤ (operandTypes t op c d).2.bitSize t := by
  rw [operandTypes]
  split
  · exact ⟨c.le_bitSize_promoted t, d.le_bitSize_promoted t⟩
  · exact ⟨le_bitSize_bigger t c d, le_bitSize_bigger t c d⟩

theorem ne_bool_of_le (h : 32 ≤ c.bitSize t) : c ≠ bool := by
  rintro rfl
  simp [bitSize] at h

theorem convert_of_ne_bool (h : c ≠ bool) (z : ℤ) :
    c.convert t z = c.ofBits t (BitVec.ofInt _ z) := by
  rw [convert, if_neg h]

/-- A value of the type is not changed. -/
theorem convert_of_inRange {z : ℤ} (h : c.InRange t z) : c.convert t z = z := by
  rw [convert]
  split
  · rename_i hbool
    subst hbool
    simp only [InRange, isUnsigned, if_true, bitSize] at h
    split <;> omega
  · exact ofBits_ofInt h

theorem convert_inRange (h : c ≠ bool) (z : ℤ) : c.InRange t (c.convert t z) := by
  rw [convert_of_ne_bool h]
  exact ofBits_inRange _

/-- Conversion keeps the low bits. -/
theorem ofInt_convert (h : c ≠ bool) {w : ℕ} (hle : w ≤ c.bitSize t) (z : ℤ) :
    BitVec.ofInt w (c.convert t z) = BitVec.ofInt w z := by
  rw [← ofInt_setWidth hle, convert_of_ne_bool h, ofInt_ofBits, ofInt_setWidth hle]

theorem convert_convert (hc : c ≠ bool) (hd : d ≠ bool) (hle : d.bitSize t ≤ c.bitSize t) (z : ℤ) :
    d.convert t (c.convert t z) = d.convert t z := by
  rw [convert_of_ne_bool hd, convert_of_ne_bool hd, ofInt_convert hc hle]

/-- A conversion to a type that is not smaller keeps a value different from 0. -/
theorem convert_ne_zero_iff (hd : d ≠ bool) (hle : c.bitSize t ≤ d.bitSize t) {z : ℤ}
    (h : c.InRange t z) : d.convert t z ≠ 0 ↔ z ≠ 0 := by
  refine not_congr ⟨fun hz => ?_, fun hz => ?_⟩
  · have hlow : BitVec.ofInt (c.bitSize t) z = BitVec.ofInt _ 0 := by
      rw [← ofInt_convert hd hle, hz]
    have hzero : c.InRange t 0 := by
      have hpos : (0 : ℤ) < 2 ^ c.bitSize t := by positivity
      have hpos' : (0 : ℤ) < 2 ^ (c.bitSize t - 1) := by positivity
      rw [InRange]
      split <;> omega
    rw [← ofBits_ofInt h, hlow, ofBits_ofInt hzero]
  · rw [hz, convert_of_ne_bool hd, ofBits]
    split <;> simp

/-- `~` of a value of the type always has a value. -/
theorem unary_bitNot {z : ℤ} (h : c.InRange t z) :
    c.unary t z .bitNot = some (c.ofBits t (BitVec.ofInt _ (-z - 1))) := by
  have hrange : c.isUnsigned = false → c.InRange t (-z - 1) := by
    intro hs
    rw [InRange, if_neg (by simp [hs])] at h ⊢
    omega
  cases hs : c.isUnsigned with
  | true =>
    have hresult : c.unary t z .bitNot = some ((-z - 1) % 2 ^ c.bitSize t) := by
      rw [unary, result, if_pos hs]
    rw [hresult, ofBits_of_result (show c.result t (-z - 1) = some _ from hresult)]
  | false =>
    rw [unary, result, if_neg (by simp [hs]), if_pos (hrange hs), ofBits_ofInt (hrange hs)]

/-- `~` commutes with a conversion that does not enlarge. -/
theorem unary_bitNot_convert (hc : c ≠ bool) (hd : d ≠ bool) (hle : d.bitSize t ≤ c.bitSize t)
    {a z : ℤ} (ha : c.InRange t a) (h : c.unary t a .bitNot = some z) :
    d.unary t (d.convert t a) .bitNot = some (d.convert t z) := by
  have hlow : BitVec.ofInt (d.bitSize t) (-d.convert t a - 1) = BitVec.ofInt _ (-a - 1) := by
    rw [Int.sub_eq_add_neg, BitVec.ofInt_add, BitVec.ofInt_neg, ofInt_convert hd (le_refl _),
      ← BitVec.ofInt_neg, ← BitVec.ofInt_add, ← Int.sub_eq_add_neg]
  rw [unary_bitNot ha, ← convert_of_ne_bool hc] at h
  rw [unary_bitNot (convert_inRange hd a), ← Option.some.inj h, convert_convert hc hd hle, hlow,
    convert_of_ne_bool hd]

end Ctype

/-! ## Casts -/

namespace Expression

/-- An implied cast at the top, also below `~`, enlarges a type smaller than `int`. -/
def Fresh (t : Target) : Expression → Prop
  | preop _ .bitNot e => e.Fresh t
  | cast _ true e => e.ctype.bitSize t < 32
  | _ => True

/-- `e'` is `e` converted to `type`. -/
structure CastTo (t : Target) (type : Ctype) (e e' : Expression) : Prop where
  wellTyped : e'.WellTyped t
  ctype : e'.ctype = type
  value : ∀ z, e.meaning t = some z → e'.meaning t = some (type.convert t z)

theorem castTo_same {e : Expression} (hw : e.WellTyped t) : CastTo t e.ctype e e where
  wellTyped := hw
  ctype := rfl
  value z hz := by
    rw [Ctype.convert_of_inRange (meaning_inRange hw hz), hz]

theorem castTo_wrapped {e : Expression} (hw : e.WellTyped t) (type : Ctype) :
    CastTo t type e (cast type true e) where
  wellTyped := hw
  ctype := rfl
  value z hz := by
    rw [meaning, hz, Option.map_some]

theorem castTo_default {e : Expression} (hw : e.WellTyped t) (type : Ctype) :
    CastTo t type e (if e.ctype = type then e else cast type true e) := by
  split
  · rename_i h
    exact h ▸ castTo_same hw
  · exact castTo_wrapped hw type

theorem castTo_castTo {type : Ctype} (htype : 32 ≤ type.bitSize t) (e : Expression)
    (hw : e.WellTyped t) (hf : e.Fresh t) : CastTo t type e (castTo t type e) := by
  induction e with
  | preop c op e ih =>
    cases op with
    | bitNot =>
      simp only [castTo]
      split
      · rename_i h
        exact h ▸ castTo_same hw
      · split
        · exact castTo_wrapped hw type
        · rename_i hsize
          obtain ⟨hwe, hc⟩ := hw
          simp only [reduceCtorEq, if_false] at hc
          have he := ih hwe hf
          refine ⟨⟨he.wellTyped, he.ctype⟩, rfl, fun z hz => ?_⟩
          obtain ⟨a, ha, hunary⟩ := Option.bind_eq_some_iff.1 hz
          have hrange := meaning_inRange hwe ha
          rw [hc] at hrange
          rw [meaning, he.value a ha, Option.bind_some]
          exact Ctype.unary_bitNot_convert (Ctype.ne_bool_of_le (show 32 ≤ c.bitSize t by omega))
            (Ctype.ne_bool_of_le htype) (by omega) hrange hunary
    | _ => exact castTo_default hw type
  | cast c implied e ih =>
    cases implied with
    | true =>
      simp only [castTo]
      split
      · rename_i h
        exact h ▸ castTo_same hw
      · split
        · rename_i hsize
          split
          · rename_i hsame
            have hlt : e.ctype.bitSize t < 32 := hf
            omega
          · refine ⟨hw, rfl, fun z hz => ?_⟩
            obtain ⟨a, ha, rfl⟩ := Option.map_eq_some_iff.1 hz
            rw [meaning, ha, Option.map_some, Ctype.convert_convert
              (Ctype.ne_bool_of_le (show 32 ≤ c.bitSize t by omega)) (Ctype.ne_bool_of_le htype)
              hsize]
        · exact castTo_wrapped hw type
    | false => exact castTo_default hw type
  | _ => exact castTo_default hw type

/-- Integer promotion leaves the expression or puts one cast around it. -/
theorem castTo_promoted_eq (t : Target) (e : Expression) :
    castTo t (e.ctype.promoted t) e = e ∨
      castTo t (e.ctype.promoted t) e = cast (e.ctype.promoted t) true e ∧
        e.ctype.bitSize t < 32 := by
  rcases e.ctype.promoted_cases t with ⟨h, -⟩ | ⟨h, hlt⟩
  · refine Or.inl ?_
    rw [h]
    rcases e with _ | ⟨_, _ | _ | _ | _, _⟩ | _ | _ | _ | _ | _ | _ | ⟨_, _ | _, _⟩ <;>
      simp [castTo, ctype]
  · refine Or.inr ⟨?_, hlt⟩
    have hne : e.ctype ≠ Ctype.int := by
      intro heq
      rw [heq] at hlt
      exact absurd hlt (by simp [Ctype.int, Ctype.bitSize])
    have hint : Ctype.int.bitSize t = 32 := rfl
    rw [h]
    rcases e with _ | ⟨_, _ | _ | _ | _, _⟩ | _ | _ | _ | _ | _ | _ | ⟨_, _ | _, _⟩ <;>
      simp only [ctype] at hne hlt <;> simp only [castTo, ctype, hne, if_false]
    · rw [if_pos (by omega)]
    · rw [if_neg (by omega)]

end Expression

/-! ## The evaluator -/

namespace ConstExpr

/-- `e'` is the typed tree of `e`. -/
structure Evaluated (e : ConstExpr t) (e' : Expression) : Prop where
  wellTyped : e'.WellTyped t
  fresh : e'.Fresh t
  ctype : e'.ctype = e.ctype
  value : ∀ z, e.value = some z → e'.meaning t = some z

theorem Evaluated.castTo {e : ConstExpr t} {e' : Expression} (h : Evaluated e e') {type : Ctype}
    (htype : 32 ≤ type.bitSize t) : CastTo t type e' (castTo t type e') :=
  castTo_castTo htype e' h.wellTyped h.fresh

/-- An operand of a unary operator, promoted. -/
theorem Evaluated.promoted {e : ConstExpr t} {e' : Expression} (h : Evaluated e e') :
    CastTo t (e.ctype.promoted t) e' (Expression.castTo t (e.ctype.promoted t) e') ∧
      (Expression.castTo t (e.ctype.promoted t) e').Fresh t := by
  refine ⟨h.castTo (Ctype.le_bitSize_promoted t _), ?_⟩
  rw [← h.ctype]
  rcases castTo_promoted_eq t e' with heq | ⟨heq, hlt⟩
  · rw [heq]
    exact h.fresh
  · rw [heq]
    exact hlt

theorem setCtype_self (e : Expression) : e.setCtype e.ctype = e := by
  cases e <;> rfl

/-- `modify_for_unsigned` picks the comparison for the type. -/
theorem modifyForUnsigned_fits (op : SourceCompare) (unsigned : Bool) :
    (if unsigned then op.op.modifyForUnsigned else op.op).Fits unsigned := by
  cases unsigned <;> cases op <;> simp [SourceCompare.op, CompareOp.modifyForUnsigned, CompareOp.Fits]

theorem modifyForUnsigned_holds (op : SourceCompare) (unsigned : Bool) (a b : ℤ) :
    (if unsigned then op.op.modifyForUnsigned else op.op).holds a b = op.op.holds a b := by
  cases unsigned <;> cases op <;> rfl

theorem evaluate_evaluated (e : ConstExpr t) : Evaluated e e.evaluate := by
  induction e with
  | constant c => exact ⟨c.canonical, trivial, rfl, fun z hz => hz⟩
  | unary op e ih =>
    obtain ⟨hcast, hfresh⟩ := ih.promoted
    cases op with
    | not =>
      refine ⟨⟨ih.wellTyped, rfl⟩, trivial, rfl, fun z hz => ?_⟩
      obtain ⟨a, ha, hunary⟩ := Option.bind_eq_some_iff.1 hz
      rw [evaluate, meaning, ih.value a ha, Option.bind_some, hunary]
    | plus =>
      have heq : (unary .plus e).evaluate = castTo t (e.ctype.promoted t) e.evaluate := by
        have hself := setCtype_self (castTo t (e.ctype.promoted t) e.evaluate)
        rw [hcast.ctype] at hself
        simp only [evaluate, ih.ctype]
        exact hself
      rw [heq]
      refine ⟨hcast.wellTyped, hfresh, hcast.ctype, fun z hz => ?_⟩
      obtain ⟨a, ha, hunary⟩ := Option.bind_eq_some_iff.1 hz
      rw [hcast.value a (ih.value a ha)]
      exact hunary
    | minus =>
      simp only [evaluate, ih.ctype]
      refine ⟨⟨hcast.wellTyped, hcast.ctype⟩, trivial, rfl, fun z hz => ?_⟩
      obtain ⟨a, ha, hunary⟩ := Option.bind_eq_some_iff.1 hz
      rw [meaning, hcast.value a (ih.value a ha), Option.bind_some, hunary]
    | bitNot =>
      simp only [evaluate, ih.ctype]
      refine ⟨⟨hcast.wellTyped, hcast.ctype⟩, hfresh, rfl, fun z hz => ?_⟩
      obtain ⟨a, ha, hunary⟩ := Option.bind_eq_some_iff.1 hz
      rw [meaning, hcast.value a (ih.value a ha), Option.bind_some, hunary]
  | binary op l r ihl ihr =>
    obtain ⟨hle₁, hle₂⟩ := Ctype.operandTypes_le t op.op l.ctype r.ctype
    have hl := ihl.castTo hle₁
    have hr := ihr.castTo hle₂
    simp only [evaluate, ihl.ctype, ihr.ctype]
    refine ⟨⟨hl.wellTyped, hr.wellTyped, fun _ => ⟨hl.ctype, fun hop => ?_⟩⟩, trivial, rfl,
      fun z hz => ?_⟩
    · rw [hr.ctype, Ctype.operandTypes, hop]
      rfl
    · obtain ⟨a, ha, hz₁⟩ := Option.bind_eq_some_iff.1 hz
      obtain ⟨b, hb, hbinary⟩ := Option.bind_eq_some_iff.1 hz₁
      rw [meaning, SourceBinary.source_op, Option.bind_some, hl.value a (ihl.value a ha),
        hr.value b (ihr.value b hb)]
      exact hbinary
  | compare op l r ihl ihr =>
    have hle := Ctype.le_bitSize_bigger t l.ctype r.ctype
    have hl := ihl.castTo hle
    have hr := ihr.castTo hle
    simp only [evaluate, ihl.ctype, ihr.ctype]
    refine ⟨⟨hl.wellTyped, hr.wellTyped, rfl, hr.ctype.trans hl.ctype.symm, ?_⟩, trivial, rfl,
      fun z hz => ?_⟩
    · rw [hl.ctype]
      exact modifyForUnsigned_fits op _
    · obtain ⟨a, ha, hz₁⟩ := Option.bind_eq_some_iff.1 hz
      obtain ⟨b, hb, hz₂⟩ := Option.bind_eq_some_iff.1 hz₁
      rw [meaning, hl.value a (ihl.value a ha), hr.value b (ihr.value b hb), Option.bind_some,
        Option.map_some, modifyForUnsigned_holds]
      exact hz₂
  | logical op l r ihl ihr =>
    refine ⟨⟨ihl.wellTyped, ihr.wellTyped, rfl⟩, trivial, rfl, fun z hz => ?_⟩
    cases op with
    | and =>
      obtain ⟨a, ha, hz₁⟩ := Option.bind_eq_some_iff.1 hz
      rw [evaluate, meaning, ihl.value a ha, Option.bind_some]
      split at hz₁
      · rename_i hzero
        rw [if_pos hzero, hz₁]
      · rename_i hzero
        obtain ⟨b, hb, rfl⟩ := Option.map_eq_some_iff.1 hz₁
        rw [if_neg hzero, ihr.value b hb, Option.map_some]
    | or =>
      obtain ⟨a, ha, hz₁⟩ := Option.bind_eq_some_iff.1 hz
      rw [evaluate, meaning, ihl.value a ha, Option.bind_some]
      split at hz₁
      · rename_i hzero
        rw [if_pos hzero, hz₁]
      · rename_i hzero
        obtain ⟨b, hb, rfl⟩ := Option.map_eq_some_iff.1 hz₁
        rw [if_neg hzero, ihr.value b hb, Option.map_some]
  | conditional c l r ihc ihl ihr =>
    have hle := Ctype.le_bitSize_bigger t l.ctype r.ctype
    have hl := ihl.castTo hle
    have hr := ihr.castTo hle
    simp only [evaluate, ihl.ctype, ihr.ctype]
    refine ⟨⟨ihc.wellTyped, hl.wellTyped, hr.wellTyped, hl.ctype, hr.ctype⟩, trivial, rfl,
      fun z hz => ?_⟩
    obtain ⟨a, ha, hz₁⟩ := Option.bind_eq_some_iff.1 hz
    rw [meaning, ihc.value a ha, Option.bind_some]
    split at hz₁
    · rename_i hzero
      obtain ⟨y, hy, rfl⟩ := Option.map_eq_some_iff.1 hz₁
      rw [if_pos hzero, hl.value y (ihl.value y hy)]
    · rename_i hzero
      obtain ⟨y, hy, rfl⟩ := Option.map_eq_some_iff.1 hz₁
      rw [if_neg hzero, hr.value y (ihr.value y hy)]
  | shortConditional c r ihc ihr =>
    have hle := Ctype.le_bitSize_bigger t c.ctype r.ctype
    have hc := ihc.castTo hle
    have hr := ihr.castTo hle
    simp only [evaluate, ihc.ctype, ihr.ctype]
    refine ⟨⟨hc.wellTyped, hr.wellTyped, hc.ctype, hr.ctype⟩, trivial, rfl, fun z hz => ?_⟩
    obtain ⟨a, ha, hz₁⟩ := Option.bind_eq_some_iff.1 hz
    have hrange := meaning_inRange ihc.wellTyped (ihc.value a ha)
    rw [ihc.ctype] at hrange
    -- the test is made on the converted operand
    have hzero := Ctype.convert_ne_zero_iff (Ctype.ne_bool_of_le hle)
      (Ctype.bitSize_le_bigger t c.ctype r.ctype) hrange
    rw [meaning, hc.value a (ihc.value a ha), Option.bind_some]
    split at hz₁
    · rename_i hne
      rw [if_pos (hzero.2 hne), hz₁]
    · rename_i hne
      obtain ⟨y, hy, rfl⟩ := Option.map_eq_some_iff.1 hz₁
      rw [if_neg (mt hzero.1 hne), hr.value y (ihr.value y hy)]
  | comma l r ihl ihr =>
    refine ⟨⟨ihl.wellTyped, ihr.wellTyped, rfl⟩, trivial, ihr.ctype, fun z hz => ?_⟩
    obtain ⟨a, ha, hz₁⟩ := Option.bind_eq_some_iff.1 hz
    rw [evaluate, meaning, ihl.value a ha, Option.bind_some, ihr.value z hz₁]
  | cast castType e ih =>
    refine ⟨ih.wellTyped, trivial, rfl, fun z hz => ?_⟩
    obtain ⟨a, ha, rfl⟩ := Option.map_eq_some_iff.1 hz
    rw [evaluate, meaning, ih.value a ha, Option.map_some]

end ConstExpr

/-! ## The stored values -/

namespace Expression

/-- The expression and all expressions below it. -/
def subexpressions : Expression → List Expression
  | e@(value _ _) => [e]
  | e@(preop _ _ a) => e :: a.subexpressions
  | e@(binop _ _ l r) => e :: (l.subexpressions ++ r.subexpressions)
  | e@(compare _ _ l r) => e :: (l.subexpressions ++ r.subexpressions)
  | e@(logical _ _ l r) => e :: (l.subexpressions ++ r.subexpressions)
  | e@(conditional _ _ a l r) => e :: (a.subexpressions ++ l.subexpressions ++ r.subexpressions)
  | e@(shortConditional _ _ a r) => e :: (a.subexpressions ++ r.subexpressions)
  | e@(comma _ l r) => e :: (l.subexpressions ++ r.subexpressions)
  | e@(cast _ _ a) => e :: a.subexpressions

theorem wellTyped_of_mem {e : Expression} (hw : e.WellTyped t) :
    ∀ s ∈ e.subexpressions, s.WellTyped t := by
  induction e with
  | value c v =>
    intro s hs
    rw [List.mem_singleton.1 hs]
    exact hw
  | preop _ _ _ ih | cast _ _ _ ih =>
    intro s hs
    rcases List.mem_cons.1 hs with rfl | hs
    · exact hw
    · exact ih (by first | exact hw.1 | exact hw) s hs
  | binop _ _ _ _ ihl ihr | compare _ _ _ _ ihl ihr | logical _ _ _ _ ihl ihr
  | shortConditional _ _ _ _ ihl ihr | comma _ _ _ ihl ihr =>
    intro s hs
    rcases List.mem_cons.1 hs with rfl | hs
    · exact hw
    · rcases List.mem_append.1 hs with hs | hs
      · exact ihl hw.1 s hs
      · exact ihr hw.2.1 s hs
  | conditional _ _ _ _ _ iha ihl ihr =>
    intro s hs
    rcases List.mem_cons.1 hs with rfl | hs
    · exact hw
    · rcases List.mem_append.1 hs with hs | hs
      · rcases List.mem_append.1 hs with hs | hs
        · exact iha hw.1 s hs
        · exact ihl hw.2.1 s hs
      · exact ihr hw.2.2.1 s hs

/-- Every value stored in the tree is masked to its type. -/
def Masked (t : Target) (e : Expression) : Prop :=
  ∀ c v, value c v ∈ e.subexpressions → Canonical (c.bitSize t) v

theorem WellTyped.masked {e : Expression} (hw : e.WellTyped t) : e.Masked t :=
  fun c v hv => wellTyped_of_mem hw (value c v) hv

end Expression

/-- `__get_expression_value` extends a stored value to the value it represents. -/
theorem Represents.signAdjusted {c : Ctype} {v : BitVec 64} {z : ℤ} (h : Represents t c v z) :
    signAdjusted t c v = BitVec.ofInt 64 z := by
  have hpos := c.bitSize_pos t
  have hle := c.bitSize_le t
  cases hs : c.isUnsigned with
  | true =>
    have hlow := natCast_setWidth (w := 64) v
    rw [BitVec.setWidth_eq, h.toNat_of_unsigned hs] at hlow
    rw [Sparse.signAdjusted, hs, if_neg (by simp), hlow]
  | false =>
    have hext : Sparse.signAdjusted t c v = signExtended (c.bitSize t) v := by
      rw [Sparse.signAdjusted, signExtended]
      by_cases hsign : v &&& signBit (c.bitSize t) ≠ 0#64
      · have hbit := (and_signBit_ne_zero hpos hle).1 hsign
        rw [if_pos ⟨hsign, hs⟩, if_pos hsign]
        have hor : v ||| signBit (c.bitSize t) = v := by
          refine BitVec.eq_of_getLsbD_eq fun i hi => ?_
          rw [BitVec.getLsbD_or, signBit_eq, BitVec.getLsbD_twoPow]
          by_cases hlast : i = c.bitSize t - 1
          · rw [hlast, hbit]
            rfl
          · simp [Ne.symm hlast]
        rw [hor]
      · rw [if_neg (by tauto), if_neg hsign]
    have hlow := emod_setWidth (le_refl 64) (signExtended (c.bitSize t) v)
    rw [BitVec.setWidth_eq, h.toInt_of_signed hs] at hlow
    rw [hext, hlow]

namespace ConstExpr

/-- Expansion of a constant tree: whenever C gives it a value, the tree is
reduced to the bit pattern of that value, masked to the type, from which
`__get_expression_value` reads the value back; and all values stored on the way
are masked to their types. -/
theorem expand_evaluate (conservative : Bool) (e : ConstExpr t) :
    (∀ s ∈ e.evaluate.subexpressions, (s.expand t conservative).1.Masked t) ∧
      ∀ z, e.value = some z →
        (e.evaluate.expand t conservative).1 =
            .value e.ctype (BitVec.ofInt 64 z &&& lowMask (e.ctype.bitSize t)) ∧
          e.ctype.InRange t z ∧
            ∀ strict bad, ¬(strict = 1 ∧ bad = true) →
              getExpressionValue conservative strict bad e = some (BitVec.ofInt 64 z) := by
  have he := evaluate_evaluated e
  constructor
  · intro s hs
    exact (expand_expanded conservative s (wellTyped_of_mem he.wellTyped s hs)).wellTyped.masked
  · intro z hz
    obtain ⟨v, hv, hrep⟩ :=
      (expand_expanded conservative e.evaluate he.wellTyped).folded z (he.value z hz)
    refine ⟨?_, he.ctype ▸ hrep.inRange, fun strict bad hstrict => ?_⟩
    · rw [hv, ← he.ctype, ← hrep.eq_pattern]
    · rw [getExpressionValue, hv]
      simp only [hstrict, if_false, hrep.signAdjusted]

/-- `-1`, of type `int`. -/
def minusOne : ConstExpr ⟨false⟩ :=
  .unary .minus (.constant ⟨.int, 1#64, by decide⟩)

theorem expand_evaluate_minusOne :
    getExpressionValue false 0 false minusOne = some (BitVec.ofInt 64 (-1)) :=
  ((expand_evaluate false minusOne).2 (-1) (by decide)).2.2 0 false (by decide)

end ConstExpr

end Sparse
