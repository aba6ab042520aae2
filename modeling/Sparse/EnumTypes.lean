import Sparse.CompoundAssignmentValues
import Sparse.EvaluateSoundness

/-!
# The type of an enumeration

`parse_enum_declaration` gives every enumerator a constant of its own type, keeps the bounds of the
values as signs and magnitudes, and chooses a base type that holds them. It then casts the constants
whose type has another size than the base type, and leaves them their own types. The values that are
written out are integer constants; an enumeration stands for its base type.
-/

namespace Sparse.EnumTypes

open MaskedWords

/-- A bound: a sign, 0 or -1, above the low 64 bits. -/
structure Num where
  x : ℤ
  y : BitVec 64
  deriving DecidableEq, Repr

def upperBoundary (n v : Num) : Num :=
  if v.x < n.x then n
  else if n.x < v.x then v
  else if n.y < v.y then { n with y := v.y }
  else n

def lowerBoundary (n v : Num) : Num :=
  if n.x < v.x then n
  else if v.x < n.x then v
  else if v.y < n.y then { n with y := v.y }
  else n

/-- `y >> shift`. What the host computes for a shift by all 64 bits is left open. -/
def hostShiftRight (wide : BitVec 64 → BitVec 64) (y : BitVec 64) (shift : ℕ) : BitVec 64 :=
  if shift < 64 then y >>> shift else wide y

section

variable (t : Target) (wide : BitVec 64 → BitVec 64)

def typeIsOk (type : Ctype) (upper lower : Num) : Bool :=
  let shift := if type.isUnsigned then type.bitSize t else type.bitSize t - 1
  if upper.x = 0 ∧ hostShiftRight wide upper.y shift ≠ 0 then false
  else lower.x = 0 ∨ type.isUnsigned = false ∧ hostShiftRight wide (~~~lower.y) shift = 0

def biggerEnumType (s1 s2 : Ctype) : Ctype :=
  let s1 :=
    if s1.bitSize t < s2.bitSize t then s2
    else if s1.bitSize t = s2.bitSize t ∧ s2.isUnsigned then s2
    else s1
  if s1.bitSize t < 32 then .int else s1

/-- The base type so far, after one more enumerator. -/
def joinType (baseType : Option Ctype) (ctype : Ctype) : Ctype :=
  match baseType with
  | none => ctype
  | some base => if ctype = base then base else biggerEnumType t base ctype

/-- The variables of the loop, and the type and value of the constant of each enumerator. -/
structure EnumState where
  lastval : BitVec 64 := 0
  ctype : Option Ctype := none
  baseType : Option Ctype := none
  upper : Num := ⟨-1, 0⟩
  lower : Num := ⟨1, 0⟩
  members : List (Ctype × BitVec 64) := []

/-- The value, the type and the constant of an enumerator, with or without a value of its own. -/
def enumerator (s : EnumState) : Option (IntConstant t) → BitVec 64 × Ctype × BitVec 64
  | some expr => (signAdjusted t expr.ctype expr.value, expr.ctype, expr.value)
  | none =>
    match s.ctype with
    | none => (s.lastval, .int, s.lastval)
    | some ctype => (s.lastval + 1, ctype, s.lastval + 1)

/-- A value as a bound. -/
def bound (ctype : Ctype) (lastval : BitVec 64) : Num :=
  ⟨if ctype.isUnsigned then 0 else if 0 ≤ lastval.toInt then 0 else -1, lastval⟩

/-- One round of the loop. -/
def nextEnumerator (s : EnumState) (e : Option (IntConstant t)) : EnumState :=
  let (lastval, ctype, value) := enumerator t s e
  { lastval := lastval
    ctype := some ctype
    baseType := some (joinType t s.baseType ctype)
    upper := upperBoundary s.upper (bound ctype lastval)
    lower := lowerBoundary s.lower (bound ctype lastval)
    members := s.members ++ [(ctype, value)] }

/-- The types that are tried when the common type of the enumerators does not hold the values. -/
def fallbackTypes : List Ctype :=
  [.int, .uint, .integer .long .signed, .integer .long .unsigned, .integer .longLong .signed,
    .integer .longLong .unsigned]

/-- `cast_enum_list`. -/
def castEnumList (base : Ctype) (members : List (Ctype × BitVec 64)) : List (Ctype × BitVec 64) :=
  members.map fun member =>
    if member.1.bitSize t = base.bitSize t then member
    else (member.1, castValue t base member.1 member.2)

/-- `parse_enum_declaration`: the base type and the constants; `none` stands for `bad_ctype`. -/
def parseEnumDeclaration (es : List (Option (IntConstant t))) :
    Option (Ctype × List (Ctype × BitVec 64)) :=
  let s := es.foldl (nextEnumerator t) {}
  (s.baseType.bind fun base =>
    (base :: fallbackTypes).find? fun type => typeIsOk t wide type s.upper s.lower).map fun base =>
      (base, castEnumList t base s.members)

end

/-! ## What is declared -/

/-- An enumerator with its type and its value as an integer. -/
structure Declared where
  explicit : Bool
  ctype : Ctype
  value : ℤ
  deriving DecidableEq, Repr

section

variable (t : Target)

/-- The value of a constant. -/
def number (expr : IntConstant t) : ℤ := expr.ctype.ofBits t (expr.value.setWidth _)

/-- The values of the enumerators: those written out, and one more than that of the predecessor. -/
def declared : Option (Ctype × ℤ) → List (Option (IntConstant t)) → List Declared
  | _, [] => []
  | _, some expr :: es => ⟨true, expr.ctype, number t expr⟩ :: declared (some (expr.ctype, number t expr)) es
  | none, none :: es => ⟨false, .int, 0⟩ :: declared (some (.int, 0)) es
  | some (c, z), none :: es => ⟨false, c, z + 1⟩ :: declared (some (c, z + 1)) es

/-- The base type holds the value, the constant is the word of the value in the type recorded with it,
and the comparison with an equal constant is folded to true. -/
structure Typed (base : Ctype) (member : Ctype × BitVec 64) (d : Declared) : Prop where
  base : base.InRange t d.value
  ctype : member.1 = d.ctype
  constant : Represents t member.1 member.2 d.value
  equal : ∀ r, Represents t member.1 r d.value →
    simplifyCmpBinop .equal (member.1.intType t) member.2 r = boolWord true

/-- The type that the enumerators have in common. -/
def commonType (ds : List Declared) : Option Ctype :=
  ds.foldl (fun base d => some (joinType t base d.ctype)) none

/-- The size of a base type for negative values: a common type without sign is replaced by a signed
type that holds the values. -/
def signedSize (ds : List Declared) : Option ℕ :=
  (commonType t ds).map fun c =>
    if c.isUnsigned then if ∀ d ∈ ds, Ctype.int.InRange t d.value then 32 else 64
    else c.bitSize t

/-- Every value is one of its type, which the value after the greatest is not. A negative value has a
type of the size of the base type, and is written out if that is not the largest size. -/
def Typable (ds : List Declared) : Prop :=
  ∀ d ∈ ds, d.ctype.InRange t d.value ∧
    (d.value < 0 → signedSize t ds = some (d.ctype.bitSize t) ∧ (d.explicit ∨ d.ctype.bitSize t = 64))

end

/-! ## The bounds -/

/-- The integer that a bound stands for. -/
def Num.value (n : Num) : ℤ := n.x * 2 ^ 64 + n.y.toNat

section

variable {t : Target} {wide : BitVec 64 → BitVec 64} {c : Ctype} {upper lower : Num} {z : ℤ}

theorem Num.value_lt_of_x_lt {n v : Num} (h : n.x < v.x) : n.value < v.value := by
  have hn := n.y.isLt
  have hv := v.y.isLt
  simp only [Num.value]
  omega

theorem Num.value_lt_iff_of_x_eq {n v : Num} (hx : n.x = v.x) : n.value < v.value ↔ n.y < v.y := by
  rw [BitVec.lt_def]
  simp only [Num.value, hx]
  omega

theorem Num.eq_of_x_eq {n v : Num} (hx : n.x = v.x) : { n with y := v.y } = v := by
  rw [hx]

theorem upperBoundary_value (n v : Num) : (upperBoundary n v).value = max n.value v.value := by
  unfold upperBoundary
  split
  · rename_i hlt
    exact (max_eq_left (Num.value_lt_of_x_lt hlt).le).symm
  · split
    · rename_i hlt
      exact (max_eq_right (Num.value_lt_of_x_lt hlt).le).symm
    · have hx : n.x = v.x := by omega
      rw [Num.eq_of_x_eq hx]
      split
      · rename_i hlt
        exact (max_eq_right ((Num.value_lt_iff_of_x_eq hx).mpr hlt).le).symm
      · rename_i hle
        exact (max_eq_left (not_lt.mp fun h => hle ((Num.value_lt_iff_of_x_eq hx).mp h))).symm

theorem lowerBoundary_value (n v : Num) : (lowerBoundary n v).value = min n.value v.value := by
  unfold lowerBoundary
  split
  · rename_i hlt
    exact (min_eq_left (Num.value_lt_of_x_lt hlt).le).symm
  · split
    · rename_i hlt
      exact (min_eq_right (Num.value_lt_of_x_lt hlt).le).symm
    · have hx : n.x = v.x := by omega
      rw [Num.eq_of_x_eq hx]
      split
      · rename_i hlt
        exact (min_eq_right ((Num.value_lt_iff_of_x_eq hx.symm).mpr hlt).le).symm
      · rename_i hle
        exact (min_eq_left (not_lt.mp fun h => hle ((Num.value_lt_iff_of_x_eq hx.symm).mp h))).symm

theorem inRange_bounds (h : c.InRange t z) : -2 ^ 63 ≤ z ∧ z < 2 ^ 64 ∧ (c.isUnsigned = false → z < 2 ^ 63) ∧
    (c.isUnsigned = true → 0 ≤ z) := by
  have hle := c.bitSize_le t
  have hpow : (2 : ℤ) ^ c.bitSize t ≤ 2 ^ 64 := pow_le_pow_right₀ (by decide) hle
  have hhalf : (2 : ℤ) ^ (c.bitSize t - 1) ≤ 2 ^ 63 := pow_le_pow_right₀ (by decide) (by omega)
  rw [Ctype.InRange] at h
  split at h
  · rename_i hu
    simp only [hu, reduceCtorEq, false_implies, true_and, forall_const]
    omega
  · rename_i hs
    simp only [Bool.eq_false_of_not_eq_true hs, reduceCtorEq, false_implies, and_true, forall_const]
    omega

/-- The bound of a value of the type is the value. -/
theorem bound_value (h : c.InRange t z) : (bound c (BitVec.ofInt 64 z)).value = z := by
  obtain ⟨hlow, hhigh, hsigned, hunsigned⟩ := inRange_bounds h
  have hnat : ((BitVec.ofInt 64 z).toNat : ℤ) = z % 2 ^ 64 := by
    rw [BitVec.toNat_ofInt]
    omega
  cases hu : c.isUnsigned with
  | true =>
    have hpos := hunsigned hu
    simp only [bound, Num.value, hu, if_true, hnat]
    omega
  | false =>
    have hhigh := hsigned hu
    have hint : (BitVec.ofInt 64 z).toInt = z := by
      rw [BitVec.toInt_ofInt, Int.bmod_eq_of_le (by omega) (by omega)]
    simp only [bound, Num.value, hu, Bool.false_eq_true, if_false, hint, hnat]
    split <;> omega

theorem hostShiftRight_eq_zero_iff {y : BitVec 64} {shift : ℕ} (h : shift < 64) :
    hostShiftRight wide y shift = 0 ↔ y.toNat < 2 ^ shift := by
  rw [hostShiftRight, if_pos h, ← BitVec.toNat_inj, BitVec.toNat_ushiftRight, Nat.shiftRight_eq_div_pow]
  exact Nat.div_eq_zero_iff_lt (Nat.two_pow_pos shift)

/-- A signed type passes if it holds the bounds. -/
theorem typeIsOk_signed_iff (hs : c.isUnsigned = false) (hlow : -2 ^ 64 ≤ lower.value)
    (hle : lower.value ≤ upper.value) (hhigh : upper.value < 2 ^ 64) :
    typeIsOk t wide c upper lower = true ↔ c.InRange t lower.value ∧ c.InRange t upper.value := by
  have hbits := c.bitSize_le t
  have hpos := c.bitSize_pos t
  have hl := lower.y.isLt
  have hu := upper.y.isLt
  have hpow : (2 : ℤ) ^ (c.bitSize t - 1) = (2 ^ (c.bitSize t - 1) : ℕ) := by push_cast; rfl
  have hhalf : 2 ^ (c.bitSize t - 1) ≤ 2 ^ 63 := Nat.pow_le_pow_right (by decide) (by omega)
  have hshift : c.bitSize t - 1 < 64 := by omega
  have hup : hostShiftRight wide upper.y (c.bitSize t - 1) = 0 ↔ _ := hostShiftRight_eq_zero_iff hshift
  have hdown : hostShiftRight wide (~~~lower.y) (c.bitSize t - 1) = 0 ↔ _ := hostShiftRight_eq_zero_iff hshift
  rw [BitVec.toNat_not] at hdown
  rw [typeIsOk, hs]
  simp only [Bool.false_eq_true, if_false, ne_eq, hup, hdown, Ctype.InRange, hs, hpow, true_and]
  simp only [Num.value] at *
  split
  · simp only [Bool.false_eq_true, false_iff]
    omega
  · rw [decide_eq_true_iff]
    omega

/-- An unsigned type does not pass with a negative bound. -/
theorem typeIsOk_of_negative (hu : c.isUnsigned = true) (hneg : lower.value < 0) :
    typeIsOk t wide c upper lower = false := by
  have hx : lower.x ≠ 0 := by
    intro hx
    rw [Num.value, hx] at hneg
    omega
  simp [typeIsOk, hx, hu]

/-- A type that passes the test holds the bounds. -/
theorem typeIsOk_inRange (hlow : -2 ^ 64 ≤ lower.value) (hle : lower.value ≤ upper.value)
    (hhigh : upper.value < 2 ^ 64) (hok : typeIsOk t wide c upper lower = true) :
    c.InRange t lower.value ∧ c.InRange t upper.value := by
  cases hu : c.isUnsigned with
  | false => exact (typeIsOk_signed_iff hu hlow hle hhigh).mp hok
  | true =>
    have hbits := c.bitSize_le t
    have hpos : 0 ≤ lower.value := by
      by_contra hneg
      rw [typeIsOk_of_negative hu (not_le.mp hneg)] at hok
      cases hok
    have hbelow : upper.value < 2 ^ c.bitSize t := by
      rcases hbits.lt_or_eq with hlt | heq
      · have hx : upper.x = 0 := by
          have := upper.y.isLt
          simp only [Num.value] at *
          omega
        have hshift : hostShiftRight wide upper.y (c.bitSize t) = 0 := by
          simp [typeIsOk, hu, hx] at hok
          exact hok.1
        have hlt' := (hostShiftRight_eq_zero_iff hlt).mp hshift
        rw [Num.value, hx]
        zify at hlt'
        omega
      · rw [heq]
        exact hhigh
    simp only [Ctype.InRange, hu, if_true]
    omega

end

/-! ## The loop -/

section

variable {t : Target} {wide : BitVec 64 → BitVec 64}

/-- The constant that the loop makes for an enumerator. -/
def Declared.pattern (t : Target) (d : Declared) : BitVec 64 :=
  if d.explicit then BitVec.ofInt 64 d.value &&& lowMask (d.ctype.bitSize t) else BitVec.ofInt 64 d.value

/-- The state after some enumerators, whose values are values of their types. -/
structure Tracks (t : Target) (s : EnumState) (prev : Option (Ctype × ℤ)) (ds : List Declared) : Prop where
  ctype : s.ctype = prev.map Prod.fst
  lastval : s.lastval = BitVec.ofInt 64 ((prev.map Prod.snd).getD 0)
  members : s.members = ds.map fun d => (d.ctype, d.pattern t)
  baseType : s.baseType = commonType t ds
  within : ∀ d ∈ ds, s.lower.value ≤ d.value ∧ d.value ≤ s.upper.value
  attained : ds ≠ [] → (∃ d ∈ ds, d.value = s.lower.value) ∧ ∃ d ∈ ds, d.value = s.upper.value
  start : ds = [] → s.lower.value = 2 ^ 64 ∧ s.upper.value = -2 ^ 64

theorem Tracks.initial : Tracks t {} none [] :=
  ⟨rfl, rfl, rfl, rfl, by simp, fun h => absurd rfl h, fun _ => ⟨rfl, rfl⟩⟩

theorem commonType_append (ds : List Declared) (d : Declared) :
    commonType t (ds ++ [d]) = some (joinType t (commonType t ds) d.ctype) := by
  rw [commonType, List.foldl_append]
  rfl

/-- One round for an enumerator whose value is one of its type. -/
theorem Tracks.add {s : EnumState} {prev : Option (Ctype × ℤ)} {ds : List Declared} {d : Declared}
    (h : Tracks t s prev ds) (hd : d.ctype.InRange t d.value) {e : Option (IntConstant t)}
    (he : enumerator t s e = (BitVec.ofInt 64 d.value, d.ctype, d.pattern t)) :
    Tracks t (nextEnumerator t s e) (some (d.ctype, d.value)) (ds ++ [d]) := by
  have hbounds := inRange_bounds hd
  have hlower : (lowerBoundary s.lower (bound d.ctype (BitVec.ofInt 64 d.value))).value =
      min s.lower.value d.value := by rw [lowerBoundary_value, bound_value hd]
  have hupper : (upperBoundary s.upper (bound d.ctype (BitVec.ofInt 64 d.value))).value =
      max s.upper.value d.value := by rw [upperBoundary_value, bound_value hd]
  simp only [nextEnumerator, he]
  refine ⟨rfl, rfl, by simp [h.members], by rw [commonType_append, h.baseType], ?_, fun _ => ?_, by simp⟩
  · intro d' hd'
    rw [hlower, hupper]
    rcases List.mem_append.mp hd' with hd' | hd'
    · exact ⟨min_le_of_left_le (h.within d' hd').1, le_max_of_le_left (h.within d' hd').2⟩
    · obtain rfl := List.mem_singleton.mp hd'
      exact ⟨min_le_right _ _, le_max_right _ _⟩
  · rw [hlower, hupper]
    by_cases hempty : ds = []
    · obtain ⟨hlow, hhigh⟩ := h.start hempty
      rw [hlow, hhigh, min_eq_right (by omega), max_eq_right (by omega)]
      exact ⟨⟨d, by simp, rfl⟩, d, by simp, rfl⟩
    · obtain ⟨⟨dl, hdl, hvl⟩, du, hdu, hvu⟩ := h.attained hempty
      constructor
      · rcases min_choice s.lower.value d.value with hmin | hmin
        · exact ⟨dl, by simp [hdl], hvl.trans hmin.symm⟩
        · exact ⟨d, by simp, hmin.symm⟩
      · rcases max_choice s.upper.value d.value with hmax | hmax
        · exact ⟨du, by simp [hdu], hvu.trans hmax.symm⟩
        · exact ⟨d, by simp, hmax.symm⟩

/-- A constant that is written out means its number. -/
theorem represents_number (expr : IntConstant t) : Represents t expr.ctype expr.value (number t expr) :=
  ⟨expr.canonical, rfl⟩

/-- The whole loop. -/
theorem Tracks.run {es : List (Option (IntConstant t))} {s : EnumState} {prev : Option (Ctype × ℤ)}
    {ds : List Declared} (h : Tracks t s prev ds)
    (hrange : ∀ d ∈ declared t prev es, d.ctype.InRange t d.value) :
    ∃ prev', Tracks t (es.foldl (nextEnumerator t) s) prev' (ds ++ declared t prev es) := by
  induction es generalizing s prev ds with
  | nil => exact ⟨prev, by simpa [declared] using h⟩
  | cons e es ih =>
    have hone : ∀ d, declared t prev (e :: es) = d :: declared t (some (d.ctype, d.value)) es →
        enumerator t s e = (BitVec.ofInt 64 d.value, d.ctype, d.pattern t) →
        ∃ prev', Tracks t ((e :: es).foldl (nextEnumerator t) s) prev' (ds ++ declared t prev (e :: es)) := by
      intro d hd he
      rw [hd] at hrange ⊢
      obtain ⟨prev', hrest⟩ := ih (h.add (hrange d List.mem_cons_self) he)
        (fun d' hd' => hrange d' (List.mem_cons_of_mem d hd'))
      exact ⟨prev', by simpa using hrest⟩
    cases e with
    | some expr =>
      have hr := represents_number expr
      refine hone ⟨true, expr.ctype, number t expr⟩ (by cases prev <;> rfl) ?_
      rw [enumerator, hr.signAdjusted, Declared.pattern, if_pos rfl, ← hr.eq_pattern]
    | none =>
      have hctype := h.ctype
      have hlast := h.lastval
      cases prev with
      | none =>
        refine hone ⟨false, .int, 0⟩ rfl ?_
        simp [enumerator, hctype, hlast, Declared.pattern]
      | some last =>
        refine hone ⟨false, last.1, last.2 + 1⟩ rfl ?_
        simp [enumerator, hctype, hlast, Declared.pattern, BitVec.ofInt_add]

/-! ## The common type -/

variable {b c : Ctype} {z : ℤ}

theorem inRange_of_lt (hb : b.isUnsigned = false) (hlt : c.bitSize t < b.bitSize t) (h : c.InRange t z) :
    b.InRange t z := by
  have hpow : (2 : ℤ) ^ c.bitSize t ≤ 2 ^ (b.bitSize t - 1) := pow_le_pow_right₀ (by decide) (by omega)
  have hhalf : (2 : ℤ) ^ (c.bitSize t - 1) ≤ 2 ^ c.bitSize t := pow_le_pow_right₀ (by decide) (by omega)
  rw [Ctype.InRange] at h ⊢
  rw [if_neg (by simp [hb])]
  split at h <;> omega

theorem inRange_of_eq (hsize : c.bitSize t = b.bitSize t) (hsign : c.isUnsigned = b.isUnsigned)
    (h : c.InRange t z) : b.InRange t z := by
  rw [Ctype.InRange, hsize, hsign] at h
  exact h

theorem inRange_between {l u : ℤ} (hl : c.InRange t l) (hu : c.InRange t u) (hlz : l ≤ z) (hzu : z ≤ u) :
    c.InRange t z := by
  rw [Ctype.InRange] at *
  split at hl
  · rename_i h
    rw [if_pos h] at hu ⊢
    omega
  · rename_i h
    rw [if_neg h] at hu ⊢
    omega

/-- The common type is as wide as any of the types, and has their values if it is signed. -/
structure Common (t : Target) (b : Ctype) (c : Ctype) : Prop where
  size : c.bitSize t ≤ b.bitSize t
  values : b.isUnsigned = false → ∀ z, c.InRange t z → b.InRange t z

theorem Common.refl : Common t c c := ⟨le_refl _, fun _ _ h => h⟩

/-- The bigger of two types is common to both, and to what the first is common to. -/
theorem common_bigger (b c : Ctype) :
    Common t (biggerEnumType t b c) c ∧ ∀ d, Common t b d → Common t (biggerEnumType t b c) d := by
  have hint : ∀ {d : Ctype}, d.bitSize t < 32 → Common t .int d := fun hd =>
    ⟨hd.le, fun _ _ h => inRange_of_lt rfl hd h⟩
  unfold biggerEnumType
  by_cases hlt : b.bitSize t < c.bitSize t
  · rw [if_pos hlt]
    dsimp only
    split
    · rename_i hsmall
      exact ⟨hint hsmall, fun d hd => hint (hd.size.trans_lt (hlt.trans hsmall))⟩
    · exact ⟨.refl, fun d hd => ⟨hd.size.trans hlt.le, fun hs z h => inRange_of_lt hs (hd.size.trans_lt hlt) h⟩⟩
  · rw [if_neg hlt]
    split
    · rename_i heq
      dsimp only
      split
      · rename_i hsmall
        exact ⟨hint hsmall, fun d hd => hint (hd.size.trans_lt (heq.1.trans_lt hsmall))⟩
      · exact ⟨.refl, fun d hd => ⟨hd.size.trans heq.1.le, fun hs => by simp [heq.2] at hs⟩⟩
    · rename_i hne
      have hle := not_lt.mp hlt
      dsimp only
      split
      · rename_i hsmall
        exact ⟨hint (hle.trans_lt hsmall), fun d hd => hint (hd.size.trans_lt hsmall)⟩
      · refine ⟨⟨hle, fun hs z h => ?_⟩, fun d hd => hd⟩
        rcases hle.lt_or_eq with hlt' | heq
        · exact inRange_of_lt hs hlt' h
        · refine inRange_of_eq heq ?_ h
          rw [hs]
          exact Bool.eq_false_of_not_eq_true (fun hu => hne ⟨heq.symm, hu⟩)

/-- The common type of the enumerators. -/
theorem commonType_common {ds : List Declared} (h : commonType t ds = some b) :
    ∀ d ∈ ds, Common t b d.ctype := by
  induction ds using List.reverseRecOn generalizing b with
  | nil => simp
  | append_singleton ds d ih =>
    rw [commonType_append] at h
    obtain rfl := Option.some.inj h
    intro d' hd'
    cases hprev : commonType t ds with
    | none =>
      have hempty : ds = [] := by
        rcases List.eq_nil_or_concat ds with rfl | ⟨ds', x, rfl⟩
        · rfl
        · rw [List.concat_eq_append, commonType_append] at hprev
          cases hprev
      subst hempty
      obtain rfl := List.mem_singleton.mp hd'
      exact .refl
    | some b =>
      have hold := ih hprev
      rw [joinType]
      split
      · rename_i heq
        rcases List.mem_append.mp hd' with hd' | hd'
        · exact hold d' hd'
        · obtain rfl := List.mem_singleton.mp hd'
          exact heq ▸ .refl
      · rcases List.mem_append.mp hd' with hd' | hd'
        · exact (common_bigger b d.ctype).2 _ (hold d' hd')
        · obtain rfl := List.mem_singleton.mp hd'
          exact (common_bigger b d'.ctype).1

/-! ## The constants -/

/-- A value that is not negative is its word in every type that holds it. -/
theorem represents_of_nonneg (h : c.InRange t z) (hz : 0 ≤ z) : Represents t c (BitVec.ofInt 64 z) z := by
  have hbounds := inRange_bounds h
  have hnat : ((BitVec.ofInt 64 z).toNat : ℤ) = z := by
    rw [BitVec.toNat_ofInt]
    omega
  refine ⟨?_, ?_⟩
  · have hpow := two_pow_pred (c.bitSize_pos t)
    rw [Canonical]
    zify at hpow ⊢
    rw [hnat]
    rw [Ctype.InRange] at h
    split at h <;> omega
  · rw [ofInt_setWidth (c.bitSize_le t), Ctype.ofBits_ofInt h]

theorem represents_masked (h : c.InRange t z) :
    Represents t c (BitVec.ofInt 64 z &&& lowMask (c.bitSize t)) z :=
  .masked (by rw [ofInt_setWidth (c.bitSize_le t), Ctype.ofBits_ofInt h])

theorem toNat_of_represents {v : BitVec 64} (h : Represents t c v z) : (v.toNat : ℤ) = z % 2 ^ c.bitSize t := by
  rw [h.eq_pattern]
  exact IntType.word_toNat (c.intType t) z

/-- A negative value has another word in every size. -/
theorem bitSize_eq_of_negative {v : BitVec 64} (hb : Represents t b v z) (hc : Represents t c v z) (hz : z < 0) :
    c.bitSize t = b.bitSize t := by
  have hword : ∀ {d : Ctype}, Represents t d v z → (v.toNat : ℤ) = z + 2 ^ d.bitSize t := by
    intro d hd
    have hrange := hd.inRange
    have hpow : (2 : ℤ) ^ d.bitSize t = 2 * 2 ^ (d.bitSize t - 1) := by
      exact_mod_cast two_pow_pred (d.bitSize_pos t)
    rw [toNat_of_represents hd, ← Int.add_emod_right, Int.emod_eq_of_lt]
    all_goals
      rw [Ctype.InRange] at hrange
      split at hrange <;> omega
  have heq : (2 : ℤ) ^ c.bitSize t = 2 ^ b.bitSize t := by
    have h1 := hword hb
    have h2 := hword hc
    omega
  exact Nat.pow_right_injective (le_refl 2) (by exact_mod_cast heq)

/-- The cast reads the low bits of the constant. -/
theorem castValue_masked (hne : c.bitSize t ≠ b.bitSize t) (v : BitVec 64) :
    castValue t b c (v &&& lowMask (c.bitSize t)) = castValue t b c v := by
  have hmask : signBit (c.bitSize t) ||| (signBit (c.bitSize t) - 1#64) = lowMask (c.bitSize t) := rfl
  have hself : lowMask (c.bitSize t) &&& lowMask (c.bitSize t) = lowMask (c.bitSize t) := BitVec.and_self
  have hsign : lowMask (c.bitSize t) &&& signBit (c.bitSize t) = signBit (c.bitSize t) := by
    have hpos := c.bitSize_pos t
    refine BitVec.eq_of_getLsbD_eq fun i hi => ?_
    rw [BitVec.getLsbD_and, lowMask_getLsbD hpos (c.bitSize_le t), signBit_eq, BitVec.getLsbD_twoPow]
    by_cases heq : c.bitSize t - 1 = i
    · have hlt : i < c.bitSize t := by omega
      simp [hlt]
    · simp [heq]
  have hread : getLonglong t c (v &&& lowMask (c.bitSize t)) = getLonglong t c v := by
    simp only [getLonglong, hmask, BitVec.and_assoc, hself, hsign]
  rw [castValue, castValue, if_neg hne, if_neg hne, hread]

/-- What `cast_enum_list` leaves for an enumerator means its value exactly if the value is not
negative, or the type has the size of the base type and either the constant was written out or no bit
is left over. -/
theorem represents_cast_iff {base : Ctype} {d : Declared} (hd : d.ctype.InRange t d.value)
    (hbase : base.InRange t d.value) :
    Represents t d.ctype (if d.ctype.bitSize t = base.bitSize t then d.pattern t
      else castValue t base d.ctype (d.pattern t)) d.value ↔
      (d.value < 0 → d.ctype.bitSize t = base.bitSize t ∧ (d.explicit ∨ d.ctype.bitSize t = 64)) := by
  by_cases hsize : d.ctype.bitSize t = base.bitSize t
  · rw [if_pos hsize, Declared.pattern]
    cases hexplicit : d.explicit with
    | true => exact iff_of_true (represents_masked hd) (fun _ => ⟨hsize, Or.inl rfl⟩)
    | false =>
      rw [if_neg Bool.false_ne_true]
      rcases le_or_gt 0 d.value with hpos | hneg
      · exact iff_of_true (represents_of_nonneg hd hpos) (fun hneg => absurd hneg (not_lt.mpr hpos))
      · simp only [hneg, hsize, Bool.false_eq_true, false_or, true_and, forall_const]
        rw [← hsize]
        constructor
        · intro hword
          have hwide : (Ctype.integer .longLong .signed).InRange t d.value := by
            have hlow := (inRange_bounds hd).1
            rw [Ctype.InRange, if_neg (by decide)]
            simp only [Ctype.bitSize]
            omega
          have hlong := represents_masked hwide
          have hfull : Ctype.bitSize t (.integer .longLong .signed) = 64 := rfl
          rw [hfull, and_lowMask_eq (by decide) (le_refl 64) (canonical_64 _)] at hlong
          exact bitSize_eq_of_negative hlong hword hneg
        · intro hfull
          have hmasked := represents_masked hd
          rwa [hfull, and_lowMask_eq (by decide) (le_refl 64) (canonical_64 _)] at hmasked
  · rw [if_neg hsize]
    have hpattern : castValue t base d.ctype (d.pattern t) =
        castValue t base d.ctype (BitVec.ofInt 64 d.value &&& lowMask (d.ctype.bitSize t)) := by
      rw [Declared.pattern]
      split
      · rfl
      · exact (castValue_masked hsize _).symm
    have hcast := (represents_masked hd).castValue_represents (c := base)
    rw [← hpattern, Ctype.convert_of_inRange hbase] at hcast
    constructor
    · intro hword hneg
      exact absurd (bitSize_eq_of_negative hcast hword hneg) hsize
    · intro hnot
      have hpos : 0 ≤ d.value := not_lt.mp (fun hneg => hsize (hnot hneg).1)
      rw [(hcast.eq_iff (represents_of_nonneg hbase hpos)).mpr rfl]
      exact represents_of_nonneg hd hpos

/-! ## The base type -/

/-- What the loop knows when it ends. -/
structure Bounds (ds : List Declared) (lower upper : Num) : Prop where
  within : ∀ d ∈ ds, lower.value ≤ d.value ∧ d.value ≤ upper.value
  least : ∃ d ∈ ds, d.value = lower.value
  greatest : ∃ d ∈ ds, d.value = upper.value
  low : -2 ^ 64 ≤ lower.value
  high : upper.value < 2 ^ 64

namespace Bounds

variable {ds : List Declared} {lower upper : Num} {base : Ctype}

theorem le (h : Bounds ds lower upper) : lower.value ≤ upper.value := by
  obtain ⟨d, hd, hl⟩ := h.least
  rw [← hl]
  exact (h.within d hd).2

/-- A type holds the values if it holds the bounds. -/
theorem inRange_iff (h : Bounds ds lower upper) (c : Ctype) :
    c.InRange t lower.value ∧ c.InRange t upper.value ↔ ∀ d ∈ ds, c.InRange t d.value := by
  constructor
  · exact fun hc d hd => inRange_between hc.1 hc.2 (h.within d hd).1 (h.within d hd).2
  · intro hall
    obtain ⟨dl, hdl, hl⟩ := h.least
    obtain ⟨du, hdu, hu⟩ := h.greatest
    exact ⟨hl ▸ hall dl hdl, hu ▸ hall du hdu⟩

theorem typeIsOk_iff (h : Bounds ds lower upper) {c : Ctype} (hs : c.isUnsigned = false) :
    typeIsOk t wide c upper lower = true ↔ ∀ d ∈ ds, c.InRange t d.value :=
  (typeIsOk_signed_iff hs h.low h.le h.high).trans (h.inRange_iff c)

/-- The chosen type holds the values. -/
theorem inRange_of_find (h : Bounds ds lower upper) {types : List Ctype}
    (hfind : types.find? (fun type => typeIsOk t wide type upper lower) = some base) :
    ∀ d ∈ ds, base.InRange t d.value :=
  (h.inRange_iff base).mp (typeIsOk_inRange h.low h.le h.high 
    (List.find?_some (p := fun type => typeIsOk t wide type upper lower) hfind))

/-- The size of the chosen type where a value is negative. -/
theorem signedSize_of_find (h : Bounds ds lower upper) (hb : commonType t ds = some b)
    (hrange : ∀ d ∈ ds, d.ctype.InRange t d.value) (hneg : ∃ d ∈ ds, d.value < 0)
    (hfind : (b :: fallbackTypes).find? (fun type => typeIsOk t wide type upper lower) = some base) :
    signedSize t ds = some (base.bitSize t) := by
  have hlower : lower.value < 0 := by
    obtain ⟨d, hd, hneg⟩ := hneg
    exact (h.within d hd).1.trans_lt hneg
  rw [signedSize, hb, Option.map_some]
  congr 1
  cases hu : b.isUnsigned with
  | false =>
    have hok : typeIsOk t wide b upper lower = true := (h.typeIsOk_iff hu).mpr
      (fun d hd => (commonType_common hb d hd).values hu _ (hrange d hd))
    simp only [List.find?_cons, hok] at hfind
    rw [if_neg Bool.false_ne_true, Option.some.inj hfind]
  | true =>
    have hno : ∀ {c : Ctype}, c.isUnsigned = true → typeIsOk t wide c upper lower = false :=
      fun hc => typeIsOk_of_negative hc hlower
    rw [if_pos rfl]
    simp only [fallbackTypes, List.find?_cons, hno hu, hno (show Ctype.uint.isUnsigned = true from rfl),
      hno (show Ctype.isUnsigned (.integer .long .unsigned) = true from rfl),
      hno (show Ctype.isUnsigned (.integer .longLong .unsigned) = true from rfl)] at hfind
    have hint : typeIsOk t wide .int upper lower = true ↔ _ := h.typeIsOk_iff rfl
    have hlong : typeIsOk t wide (.integer .long .signed) upper lower = true ↔ _ := h.typeIsOk_iff rfl
    split at hfind
    · rename_i hok
      obtain rfl := Option.some.inj hfind
      rw [if_pos (hint.mp hok)]
      rfl
    · rename_i hnot
      have hwide : ¬ ∀ d ∈ ds, Ctype.int.InRange t d.value := fun hall => by
        rw [hint.mpr hall] at hnot
        cases hnot
      rw [if_neg hwide]
      split at hfind
      · rename_i hok
        obtain rfl := Option.some.inj hfind
        cases hm : t.m64 with
        | true => simp [Ctype.bitSize, hm]
        | false =>
          have hsame : ∀ z, Ctype.InRange t (.integer .long .signed) z → Ctype.int.InRange t z :=
            fun z hz => inRange_of_eq (b := .int) (c := .integer .long .signed)
              (by simp [Ctype.int, Ctype.bitSize, hm]) rfl hz
          exact absurd (fun d hd => hsame _ (hlong.mp hok d hd)) hwide
      · split at hfind
        · obtain rfl := Option.some.inj hfind
          rfl
        · cases hfind

end Bounds

theorem Tracks.bounds {s : EnumState} {prev : Option (Ctype × ℤ)} {ds : List Declared}
    (h : Tracks t s prev ds) (hrange : ∀ d ∈ ds, d.ctype.InRange t d.value) (hne : ds ≠ []) :
    Bounds ds s.lower s.upper := by
  obtain ⟨⟨dl, hdl, hl⟩, du, hdu, hu⟩ := h.attained hne
  have hlow := (inRange_bounds (hrange dl hdl)).1
  have hhigh := (inRange_bounds (hrange du hdu)).2.1
  exact ⟨h.within, ⟨dl, hdl, hl⟩, ⟨du, hdu, hu⟩, by omega, by omega⟩

theorem typed_iff {base : Ctype} {v : BitVec 64} {d : Declared} (hbase : base.InRange t d.value) :
    Typed t base (d.ctype, v) d ↔ Represents t d.ctype v d.value := by
  refine ⟨fun h => h.constant, fun h => ⟨hbase, rfl, h, fun r hr => ?_⟩⟩
  simp [simplifyCmpBinop, (h.eq_iff hr).mpr rfl]

/-- Where a base type is found, it holds the values of the enumerators and every constant is that of
its enumerator exactly if the values are typable. -/
theorem parseEnumDeclaration_typed_iff {es : List (Option (IntConstant t))} {base : Ctype}
    {members : List (Ctype × BitVec 64)} (hok : parseEnumDeclaration t wide es = some (base, members)) :
    List.Forall₂ (Typed t base) members (declared t none es) ↔ Typable t (declared t none es) := by
  have hrangeOf : List.Forall₂ (Typed t base) members (declared t none es) →
      ∀ d ∈ declared t none es, d.ctype.InRange t d.value := by
    clear hok
    generalize declared t none es = ds
    intro hall
    induction hall with
    | nil => simp
    | cons hd _ ih =>
      rw [List.forall_mem_cons]
      exact ⟨hd.ctype ▸ hd.constant.inRange, ih⟩
  have hiff : (∀ d ∈ declared t none es, d.ctype.InRange t d.value) →
      (List.Forall₂ (Typed t base) members (declared t none es) ↔ Typable t (declared t none es)) := by
    intro hrange
    obtain ⟨prev, htracks⟩ := Tracks.initial.run hrange
    rw [List.nil_append] at htracks
    generalize declared t none es = ds at *
    rw [parseEnumDeclaration, Option.map_eq_some_iff] at hok
    obtain ⟨base', hbase', hpair⟩ := hok
    obtain ⟨rfl, rfl⟩ := Prod.mk.inj hpair
    rw [htracks.baseType, Option.bind_eq_some_iff] at hbase'
    obtain ⟨b, hb, hfind⟩ := hbase'
    have hne : ds ≠ [] := by
      rintro rfl
      cases hb
    have hbounds := htracks.bounds hrange hne
    have hholds := hbounds.inRange_of_find hfind
    rw [htracks.members, castEnumList, List.map_map, List.forall₂_map_left_iff, List.forall₂_same]
    have hone : ∀ d ∈ ds, Typed t base' (if d.ctype.bitSize t = base'.bitSize t then (d.ctype, d.pattern t)
        else (d.ctype, castValue t base' d.ctype (d.pattern t))) d ↔
        (d.value < 0 → d.ctype.bitSize t = base'.bitSize t ∧ (d.explicit ∨ d.ctype.bitSize t = 64)) := by
      intro d hd
      rw [← represents_cast_iff (hrange d hd) (hholds d hd), ← typed_iff (hholds d hd)]
      split <;> rfl
    constructor
    · intro hall d hd
      refine ⟨hrange d hd, fun hneg => ?_⟩
      obtain ⟨hsize, hexplicit⟩ := (hone d hd).mp (hall d hd) hneg
      rw [hbounds.signedSize_of_find hb hrange ⟨d, hd, hneg⟩ hfind, hsize]
      exact ⟨rfl, hsize ▸ hexplicit⟩
    · intro htypable d hd
      refine (hone d hd).mpr (fun hneg => ?_)
      obtain ⟨hsize, hexplicit⟩ := (htypable d hd).2 hneg
      rw [hbounds.signedSize_of_find hb hrange ⟨d, hd, hneg⟩ hfind] at hsize
      exact ⟨(Option.some.inj hsize).symm, hexplicit⟩
  constructor
  · exact fun hall => (hiff (hrangeOf hall)).mp hall
  · exact fun htypable => (hiff (fun d hd => (htypable d hd).1)).mpr htypable

end

/-- `enum { A = 3, B };` -/
theorem parseEnumDeclaration_typed_two :
    List.Forall₂ (Typed ⟨true⟩ .int) [(.int, 3), (.int, 4)]
      (declared ⟨true⟩ none [some ⟨.int, 3, by decide⟩, none]) := by
  have hok : parseEnumDeclaration ⟨true⟩ id [some ⟨.int, 3, by decide⟩, none] =
      some (.int, [(.int, 3), (.int, 4)]) := by decide
  refine (parseEnumDeclaration_typed_iff hok).mpr ?_
  unfold Typable
  decide

/-- `enum { A = -2, B };` leaves a constant of 64 bits for `B`, which does not compare equal to -1. -/
theorem parseEnumDeclaration_unmasked :
    parseEnumDeclaration ⟨true⟩ id [some ⟨.int, 0xfffffffe, by decide⟩, none] =
        some (.int, [(.int, 0xfffffffe), (.int, 0xffffffffffffffff)]) ∧
      declared ⟨true⟩ none [some ⟨.int, 0xfffffffe, by decide⟩, none] =
        [⟨true, .int, -2⟩, ⟨false, .int, -1⟩] ∧
      simplifyCmpBinop .equal (Ctype.int.intType ⟨true⟩) 0xffffffffffffffff 0xffffffff = boolWord false ∧
      ¬ List.Forall₂ (Typed ⟨true⟩ .int) [(.int, 0xfffffffe), (.int, 0xffffffffffffffff)]
        (declared ⟨true⟩ none [some ⟨.int, 0xfffffffe, by decide⟩, none]) := by
  have hok : parseEnumDeclaration ⟨true⟩ id [some ⟨.int, 0xfffffffe, by decide⟩, none] =
      some (.int, [(.int, 0xfffffffe), (.int, 0xffffffffffffffff)]) := by decide
  refine ⟨hok, by decide, by decide, fun h => ?_⟩
  rw [parseEnumDeclaration_typed_iff hok] at h
  unfold Typable at h
  revert h
  decide

end Sparse.EnumTypes
