import Mathlib.Data.Int.ModEq
import Mathlib.Algebra.Ring.Parity
import Mathlib.Tactic.Linarith
import Mathlib.Tactic.Positivity
import Mathlib.Tactic.Ring

/-!
# Implied casts

`cast_to` returns an expression for a value of another type: the expression itself, one in which the
cast is moved below the operator `~`, one in which an implied cast is dropped or gets the other type,
or an implied cast of the expression. The types are the arithmetic ones; what the floating types can
hold, and how values are converted to them, is left open.
-/

namespace Sparse

namespace ImpliedCasts

/-- What the values of an arithmetic type are. -/
inductive Format
  | bool
  | integer (bitSize : ℕ) (isUnsigned : Bool)
  | float (bitSize : ℕ)
  deriving DecidableEq

def Format.bitSize : Format → ℕ
  | bool => 1
  | integer bitSize _ => bitSize
  | float bitSize => bitSize

def Format.isFloat : Format → Bool
  | float _ => true
  | _ => false

/-- The symbol that is left of a type without its nodes. -/
structure BaseType where
  symbol : ℕ
  format : Format
  size_pos : 0 < format.bitSize
  deriving DecidableEq

/-- An arithmetic type, with what `base_type` collects of its modifiers and address spaces. -/
structure ArithType where
  base : BaseType
  modifiers : ℕ := 0
  addressSpace : ℕ := 0
  bitOffset : ℕ := 0

def ArithType.format (type : ArithType) : Format := type.base.format

def ArithType.bitSize (type : ArithType) : ℕ := type.format.bitSize

theorem ArithType.size_pos (type : ArithType) : 0 < type.format.bitSize := type.base.size_pos

/-- `is_same_type`. -/
def isSameType (old new : ArithType) : Bool :=
  old.base = new.base ∧ old.addressSpace = new.addressSpace ∧ old.modifiers = new.modifiers

/-- `same_cast_type`. -/
def sameCastType (orig new : ArithType) : Bool :=
  orig.bitSize = new.bitSize ∧ orig.bitOffset = new.bitOffset

/-- A value of C. -/
inductive Value (F : Type)
  | int (z : ℤ)
  | float (f : F)

def Value.isFloat {F : Type} : Value F → Bool
  | float _ => true
  | int _ => false

/-- An evaluated expression of arithmetic type. What is neither the operator `~` nor an implied cast is
known by its type and its value. -/
inductive Expression (Env F : Type)
  | other (ctype : ArithType) (value : Env → Value F)
  | complement (ctype : ArithType) (unop : Expression Env F)
  | impliedCast (castType : ArithType) (castExpression : Expression Env F)

variable {Env F : Type}

def Expression.ctype : Expression Env F → ArithType
  | other ctype _ => ctype
  | complement ctype _ => ctype
  | impliedCast castType _ => castType

/-- `cast_to`. -/
def castTo : Expression Env F → ArithType → Expression Env F
  | .other ctype value, type =>
    if isSameType ctype type then .other ctype value else .impliedCast type (.other ctype value)
  | .complement ctype unop, type =>
    if isSameType ctype type then .complement ctype unop
    else if ctype.bitSize < type.bitSize then .impliedCast type (.complement ctype unop)
    else .complement type (castTo unop type)
  | .impliedCast ctype orig, type =>
    if isSameType ctype type then .impliedCast ctype orig
    else if type.bitSize ≤ ctype.bitSize then
      if sameCastType orig.ctype type then orig
      else if ctype.bitOffset = type.bitOffset then .impliedCast type orig
      else .impliedCast type (.impliedCast ctype orig)
    else .impliedCast type (.impliedCast ctype orig)

/-! ## The values of expressions -/

/-- The floating types: what those of a size can hold, and the conversions. -/
structure FloatOps (F : Type) where
  OfSize : ℕ → F → Prop
  round : ℕ → F → F
  ofInt : ℕ → ℤ → F
  toInt : F → ℤ
  isZero : F → Bool
  round_ofSize : ∀ n f, OfSize n (round n f)
  ofInt_ofSize : ∀ n z, OfSize n (ofInt n z)
  round_eq : ∀ {n f}, OfSize n f → round n f = f
  toInt_zero : ∀ {f}, isZero f = true → toInt f = 0

/-- Conversion to an integer type, modulo its size. -/
def wrap (bitSize : ℕ) (isUnsigned : Bool) (z : ℤ) : ℤ :=
  if isUnsigned then z % 2 ^ bitSize else z.bmod (2 ^ bitSize)

/-- Conversion to a type. A floating value is truncated; where C leaves open what comes of it, the value
is taken modulo the size. -/
def convert (ops : FloatOps F) : Format → Value F → Value F
  | .bool, .int z => .int (if z = 0 then 0 else 1)
  | .bool, .float f => .int (if ops.isZero f then 0 else 1)
  | .integer n u, .int z => .int (wrap n u z)
  | .integer n u, .float f => .int (wrap n u (ops.toInt f))
  | .float n, .int z => .float (ops.ofInt n z)
  | .float n, .float f => .float (ops.round n f)

/-- The operator `~` in a type; the operand has as many bits. -/
def complementValue : Format → Value F → Option (Value F)
  | .bool, .int z => some (.int ((-z - 1) % 2))
  | .integer n u, .int z => some (.int (wrap n u (-z - 1)))
  | _, _ => none

/-- The value of an expression, if it has one: the operator `~` is not one of the floating types. -/
def Expression.value (ops : FloatOps F) (env : Env) : Expression Env F → Option (Value F)
  | other _ value => some (value env)
  | complement ctype unop => (unop.value ops env).bind (complementValue ctype.format)
  | impliedCast castType e => (e.value ops env).map (convert ops castType.format)

/-- The values of an integer type. -/
def InRange (bitSize : ℕ) (isUnsigned : Bool) (z : ℤ) : Prop :=
  if isUnsigned then 0 ≤ z ∧ z < 2 ^ bitSize else -2 ^ (bitSize - 1) ≤ z ∧ z < 2 ^ (bitSize - 1)

/-- The values of a type. -/
def IsValue (ops : FloatOps F) : Format → Value F → Prop
  | .bool, .int z => z = 0 ∨ z = 1
  | .integer n u, .int z => InRange n u z
  | .float n, .float f => ops.OfSize n f
  | _, _ => False

/-- An expression that `evaluate_expression` makes: the operator `~` is one of a promoted integer type, to
which its operand was cast. -/
inductive Evaluated (ops : FloatOps F) : Expression Env F → Prop
  | other {ctype : ArithType} {value : Env → Value F} :
      (∀ env, IsValue ops ctype.format (value env)) → Evaluated ops (.other ctype value)
  | complement {ctype : ArithType} {unop : Expression Env F} (n : ℕ) (u u' : Bool) :
      ctype.format = .integer n u → unop.ctype.format = .integer n u' → 32 ≤ n → Evaluated ops unop →
      Evaluated ops (.complement ctype unop)
  | impliedCast {castType : ArithType} {e : Expression Env F} :
      Evaluated ops e → Evaluated ops (.impliedCast castType e)

/-! ## Conversions -/

section

variable {ops : FloatOps F} {n m : ℕ} {u : Bool} {a b z : ℤ} {format : Format} {v : Value F}

theorem wrap_modEq (n : ℕ) (u : Bool) (z : ℤ) : wrap n u z ≡ z [ZMOD 2 ^ n] := by
  rw [wrap]
  split
  · exact Int.mod_modEq z _
  · have hdvd : ((2 ^ n : ℕ) : ℤ) ∣ z - z.bmod (2 ^ n) := Int.dvd_self_sub_bmod
    push_cast at hdvd
    exact Int.modEq_iff_dvd.2 hdvd

theorem wrap_congr (h : a ≡ b [ZMOD 2 ^ n]) : wrap n u a = wrap n u b := by
  rw [wrap, wrap]
  split
  · exact h
  · have hdvd : ((2 ^ n : ℕ) : ℤ) ∣ a - b := by
      push_cast
      exact h.symm.dvd
    exact Int.bmod_eq_bmod_iff_bmod_sub_eq_zero.2 (Int.bmod_eq_zero_of_dvd hdvd)

theorem wrap_eq_wrap_iff : wrap n u a = wrap n u b ↔ a ≡ b [ZMOD 2 ^ n] := by
  constructor
  · intro h
    exact (wrap_modEq n u a).symm.trans (h ▸ wrap_modEq n u b)
  · exact wrap_congr

/-- A wider type does not matter below. -/
theorem modEq_of_le (hle : m ≤ n) (h : a ≡ b [ZMOD 2 ^ n]) : a ≡ b [ZMOD 2 ^ m] :=
  h.of_dvd (pow_dvd_pow 2 hle)

theorem wrap_inRange (hn : 0 < n) (z : ℤ) : InRange n u (wrap n u z) := by
  have hpos : (0 : ℤ) < 2 ^ n := by positivity
  cases u with
  | true => exact ⟨Int.emod_nonneg z hpos.ne', Int.emod_lt_of_pos z hpos⟩
  | false =>
    obtain ⟨k, rfl⟩ := Nat.exists_eq_add_one_of_ne_zero hn.ne'
    have hnat : (0 : ℕ) < 2 ^ (k + 1) := by positivity
    have hlow := Int.le_bmod (x := z) hnat
    have hhigh := Int.bmod_lt (x := z) hnat
    simp only [InRange, wrap, Nat.add_sub_cancel, Bool.false_eq_true, if_false]
    push_cast [pow_succ] at hlow hhigh ⊢
    omega

theorem eq_of_modEq_of_inRange (hn : 0 < n) (h : a ≡ b [ZMOD 2 ^ n]) (ha : InRange n u a)
    (hb : InRange n u b) : a = b := by
  obtain ⟨k, rfl⟩ := Nat.exists_eq_add_one_of_ne_zero hn.ne'
  have hpow : (2 : ℤ) ^ (k + 1) = 2 * 2 ^ k := by
    rw [pow_succ]
    ring
  have hlt : |b - a| < 2 ^ (k + 1) := by
    rw [abs_lt]
    cases u with
    | true =>
      simp only [InRange, if_true] at ha hb
      omega
    | false =>
      simp only [InRange, Bool.false_eq_true, if_false, Nat.add_sub_cancel] at ha hb
      omega
  have hzero := Int.eq_zero_of_abs_lt_dvd h.dvd hlt
  omega

theorem wrap_eq_self_iff (hn : 0 < n) : wrap n u z = z ↔ InRange n u z := by
  constructor
  · intro h
    rw [← h]
    exact wrap_inRange hn z
  · intro h
    exact eq_of_modEq_of_inRange hn (wrap_modEq n u z) (wrap_inRange hn z) h

theorem isValue_convert (hsize : 0 < format.bitSize) (v : Value F) : IsValue ops format (convert ops format v) := by
  cases format with
  | bool =>
    cases v with
    | int z =>
      simp only [convert, IsValue]
      split <;> simp
    | float f =>
      simp only [convert, IsValue]
      split <;> simp
  | integer n u =>
    cases v with
    | int z => exact wrap_inRange hsize z
    | float f => exact wrap_inRange hsize (ops.toInt f)
  | float n =>
    cases v with
    | int z => exact ops.ofInt_ofSize n z
    | float f => exact ops.round_ofSize n f

theorem convert_eq_self (hsize : 0 < format.bitSize) (h : IsValue ops format v) : convert ops format v = v := by
  cases format with
  | bool =>
    cases v with
    | int z => rcases h with rfl | rfl <;> rfl
    | float f => exact h.elim
  | integer n u =>
    cases v with
    | int z => exact congrArg Value.int ((wrap_eq_self_iff hsize).2 h)
    | float f => exact h.elim
  | float n =>
    cases v with
    | int z => exact h.elim
    | float f => exact congrArg Value.float (ops.round_eq h)

theorem Evaluated.exists_value {e : Expression Env F} (h : Evaluated ops e) (env : Env) :
    ∃ v, e.value ops env = some v ∧ IsValue ops e.ctype.format v := by
  induction h with
  | @other ctype value hvalue => exact ⟨value env, rfl, hvalue env⟩
  | @complement ctype unop n u u' hctype hunop hsize h ih =>
    obtain ⟨v, hv, hvalue⟩ := ih
    rw [hunop] at hvalue
    cases v with
    | int z =>
      refine ⟨.int (wrap n u (-z - 1)), ?_, ?_⟩
      · rw [Expression.value, hv, hctype]
        rfl
      · rw [Expression.ctype, hctype]
        exact wrap_inRange (by omega) _
    | float f => exact hvalue.elim
  | @impliedCast castType e h ih =>
    obtain ⟨v, hv, -⟩ := ih
    refine ⟨convert ops castType.format v, ?_, isValue_convert castType.size_pos v⟩
    rw [Expression.value, hv]
    rfl

theorem Evaluated.inRange {e : Expression Env F} (h : Evaluated ops e) {env : Env}
    (hctype : e.ctype.format = .integer n u) (hz : e.value ops env = some (.int z)) : InRange n u z := by
  obtain ⟨v, hv, hvalue⟩ := h.exists_value env
  obtain rfl : v = .int z := Option.some.inj (hv.symm.trans hz)
  rwa [hctype] at hvalue

theorem isSameType.format_eq {old new : ArithType} (h : isSameType old new = true) : old.format = new.format := by
  have hbase := (of_decide_eq_true h).1
  rw [ArithType.format, ArithType.format, hbase]

theorem not_isSameType {old new : ArithType} (h : old.format ≠ new.format) : ¬ isSameType old new = true :=
  fun hsame => h (isSameType.format_eq hsame)

/-! ## When the casts agree -/

/-- The value is kept when an implied cast of it is dropped: it is one of the new type, or with a
floating type, it survives the conversions. -/
def Drops (ops : FloatOps F) (via type : Format) (v : Value F) : Prop :=
  if via.isFloat || type.isFloat || v.isFloat then convert ops type (convert ops via v) = v
  else IsValue ops type v

/-- The value comes to the same when the implied cast of it gets the new type: one of the two types is
`_Bool`, and not the other, only if the old cast does not turn the value into zero. -/
def Retargets (ops : FloatOps F) (via type : Format) : Value F → Prop
  | .float f => convert ops type (convert ops via (.float f)) = convert ops type (.float f)
  | .int z =>
    if via.isFloat || type.isFloat then convert ops type (convert ops via (.int z)) = convert ops type (.int z)
    else (via = .bool ↔ type = .bool) ∨ z = 0 ∨ ¬ 2 ^ via.bitSize ∣ z

/-- The cast of an expression can stand below `n` operators `~`: the type is an integer type, or `_Bool` with
an even number of them, or where the value is zero or all ones. -/
def Below (ops : FloatOps F) (env : Env) (type : ArithType) (n : ℕ) (e : Expression Env F) : Prop :=
  match type.format with
  | .float _ => False
  | .integer _ _ => True
  | .bool => Even n ∨ ∃ w, e.value ops env = some (.int w) ∧ (w = 0 ∨ w ≡ -1 [ZMOD 2 ^ e.ctype.bitSize])

/-- The cast that is moved below `n` operators `~`, and further down. -/
def Pushed (ops : FloatOps F) (env : Env) (type : ArithType) : ℕ → Expression Env F → Prop
  | n, .other ctype value => Below ops env type n (.other ctype value)
  | n, .complement ctype unop => isSameType ctype type = true ∨ Pushed ops env type (n + 1) unop
  | n, .impliedCast ctype orig =>
    isSameType ctype type = true ∨ Below ops env type n (.impliedCast ctype orig) ∧
      if sameCastType orig.ctype type then ∃ z, orig.value ops env = some (.int z)
      else ctype.bitOffset = type.bitOffset →
        ∀ v, orig.value ops env = some v → Retargets ops ctype.format type.format v

/-- The value of the expression is kept when it is cast. -/
def Kept (ops : FloatOps F) (env : Env) (type : ArithType) : Expression Env F → Prop
  | .other _ _ => True
  | .complement ctype unop =>
    isSameType ctype type = true ∨ ctype.bitSize < type.bitSize ∨ Pushed ops env type 1 unop
  | .impliedCast ctype orig =>
    isSameType ctype type = true ∨ ctype.bitSize < type.bitSize ∨
      ∀ v, orig.value ops env = some v →
        if sameCastType orig.ctype type then Drops ops ctype.format type.format v
        else ctype.bitOffset = type.bitOffset → Retargets ops ctype.format type.format v

theorem wrap_eq_zero_iff (z : ℤ) : wrap n u z = 0 ↔ (2 : ℤ) ^ n ∣ z := by
  rw [← Int.modEq_zero_iff_dvd]
  constructor
  · intro h
    exact (wrap_modEq n u z).symm.trans (by rw [h])
  · intro h
    have hzero : wrap n u 0 = 0 := by
      cases u with
      | true => simp [wrap]
      | false => simp [wrap]
    rw [wrap_congr h, hzero]

/-- In a type at most as wide, a conversion before does not matter, if neither type is `_Bool`. -/
theorem wrap_wrap {u' : Bool} (hle : m ≤ n) (z : ℤ) : wrap m u' (wrap n u z) = wrap m u' z :=
  wrap_congr (modEq_of_le hle (wrap_modEq n u z))

theorem retargets_iff {via type : Format} (hvia : 0 < via.bitSize) (htype : 0 < type.bitSize)
    (hle : type.bitSize ≤ via.bitSize) (v : Value F) :
    convert ops type (convert ops via v) = convert ops type v ↔ Retargets ops via type v := by
  cases v with
  | float f => exact Iff.rfl
  | int z =>
    rw [Retargets]
    split
    · exact Iff.rfl
    · rename_i hfloat
      cases via with
      | float n => exact absurd rfl hfloat
      | bool =>
        cases type with
        | float n => exact absurd rfl hfloat
        | bool =>
          by_cases hz : z = 0
          · simp [convert, hz]
          · simp [convert, hz]
        | integer n u =>
          obtain rfl : n = 1 := Nat.le_antisymm hle htype
          by_cases hz : z = 0
          · simp [convert, hz]
          · simp only [convert, hz, if_false, Value.int.injEq, wrap_eq_wrap_iff, reduceCtorEq, iff_false,
              not_true_eq_false, false_or, Format.bitSize, pow_one, Int.ModEq]
            omega
      | integer n u =>
        cases type with
        | float n => exact absurd rfl hfloat
        | integer m u' =>
          have hle : m ≤ n := hle
          simp only [convert, wrap_wrap hle, reduceCtorEq, true_or]
        | bool =>
          simp only [convert, wrap_eq_zero_iff, Value.int.injEq, reduceCtorEq, false_iff, not_true_eq_false,
            false_or, Format.bitSize]
          by_cases hz : z = 0
          · simp [hz]
          · by_cases hdvd : (2 : ℤ) ^ n ∣ z
            · simp [hz, hdvd]
            · simp [hz, hdvd]

/-- A value of one bit is zero or odd. -/
theorem isValue_one_bit (hsize : format.bitSize = 1) (h : IsValue ops format (.int z)) : z = 0 ∨ z = 1 ∨ z = -1 := by
  cases format with
  | bool => exact h.imp_right .inl
  | float n => exact h.elim
  | integer n u =>
    obtain rfl : n = 1 := hsize
    cases u with
    | true =>
      simp only [IsValue, InRange, if_true] at h
      omega
    | false =>
      simp only [IsValue, InRange, Bool.false_eq_true, if_false] at h
      omega

theorem drops_iff {orig via type : Format} (hvia : 0 < via.bitSize) (htype : 0 < type.bitSize)
    (hle : type.bitSize ≤ via.bitSize) (hsize : orig.bitSize = type.bitSize) (hvalue : IsValue ops orig v) :
    convert ops type (convert ops via v) = v ↔ Drops ops via type v := by
  rw [Drops]
  split
  · exact Iff.rfl
  · rename_i hfloat
    cases v with
    | float f => simp [Value.isFloat] at hfloat
    | int z =>
      constructor
      · intro h
        rw [← h]
        exact isValue_convert htype _
      · intro h
        have hself := convert_eq_self htype h
        refine ((retargets_iff hvia htype hle (.int z)).2 ?_).trans hself
        have hnot : ¬ (via.isFloat || type.isFloat) = true := by
          simpa [Value.isFloat] using hfloat
        rw [Retargets, if_neg hnot]
        by_cases hbool : via = .bool ↔ type = .bool
        · exact .inl hbool
        · -- One of the two has a single bit, and so have the type and the value.
          have hone : type.bitSize = 1 := by
            by_cases htypebool : type = .bool
            · rw [htypebool]
              rfl
            · have hviabool : via = .bool := by tauto
              rw [hviabool] at hle
              exact Nat.le_antisymm hle htype
          refine .inr ((isValue_one_bit (hsize.trans hone) hvalue).imp_right fun hodd hdvd => ?_)
          have htwo : (2 : ℤ) ∣ z := (dvd_pow_self 2 hvia.ne').trans hdvd
          omega

/-! ## Casts below the operator `~` -/

theorem complement_modEq_iff {k : ℤ} : -a - 1 ≡ -b - 1 [ZMOD k] ↔ a ≡ b [ZMOD k] := by
  have hneg : -b - 1 - (-a - 1) = -(b - a) := by ring
  rw [Int.modEq_iff_dvd, Int.modEq_iff_dvd, hneg, dvd_neg]

theorem not_pushed_float {env : Env} {type : ArithType} {e : Expression Env F} {k : ℕ} (h : Evaluated ops e)
    (hctype : e.ctype.format = .integer m u) (htype : type.format = .float n) : ¬ Pushed ops env type k e := by
  have hsame : ¬ isSameType e.ctype type = true := not_isSameType (by simp [hctype, htype])
  have hbelow : ∀ {e : Expression Env F} {k : ℕ}, ¬ Below ops env type k e := by
    intro e k
    rw [Below, htype]
    exact not_false
  induction h generalizing k m u with
  | other hvalue => exact hbelow
  | complement n' u₁ u₂ hfirst hunop hsize h ih =>
    rintro (hcase | hcase)
    · exact hsame hcase
    · exact ih hunop (not_isSameType (by simp [hunop, htype])) hcase
  | impliedCast h ih =>
    rintro (hcase | hcase)
    · exact hsame hcase
    · exact hbelow hcase.1

theorem complementValue_int_iff {type : ArithType} {x : Option (Value F)} (htype : type.format = .integer n u) :
    x.bind (complementValue type.format) = some (.int z) ↔ ∃ z', x = some (.int z') ∧ wrap n u (-z' - 1) = z := by
  rw [htype]
  constructor
  · intro h
    obtain ⟨v, rfl, hv⟩ := Option.bind_eq_some_iff.1 h
    cases v with
    | int z' => exact ⟨z', rfl, by simpa [complementValue] using hv⟩
    | float f => simp [complementValue] at hv
  · rintro ⟨z', rfl, rfl⟩
    rfl

section

variable {env : Env} {type : ArithType} {k : ℕ} {u' : Bool} {w : ℤ}

theorem value_impliedCast_integer {e : Expression Env F} (htype : type.format = .integer n u)
    (hw : e.value ops env = some (.int w)) :
    ∃ z, (Expression.impliedCast type e).value ops env = some (.int z) ∧ z ≡ w [ZMOD 2 ^ n] := by
  refine ⟨wrap n u w, ?_, wrap_modEq n u w⟩
  rw [Expression.value, hw, htype]
  rfl

theorem value_complement_integer_iff {unop : Expression Env F} {x : ℤ} (htype : type.format = .integer n u)
    (hneg : w ≡ -x - 1 [ZMOD 2 ^ n]) :
    (∃ z, (Expression.complement type unop).value ops env = some (.int z) ∧ z ≡ w [ZMOD 2 ^ n]) ↔
      ∃ z, unop.value ops env = some (.int z) ∧ z ≡ x [ZMOD 2 ^ n] := by
  constructor
  · rintro ⟨z, hz, hzw⟩
    obtain ⟨z', hz', rfl⟩ := (complementValue_int_iff htype).1 hz
    have hcongr := ((wrap_modEq n u (-z' - 1)).symm.trans hzw).trans hneg
    exact ⟨z', hz', complement_modEq_iff.1 hcongr⟩
  · rintro ⟨z', hz', hcongr⟩
    refine ⟨wrap n u (-z' - 1), (complementValue_int_iff htype).2 ⟨z', hz', rfl⟩, ?_⟩
    exact (wrap_modEq n u _).trans ((complement_modEq_iff.2 hcongr).trans hneg.symm)

theorem retargets_integer {via type : Format} (hvia : via = .integer m u') (htype : type = .integer n u)
    (hle : n ≤ m) (v : Value F) : Retargets ops via type v := by
  subst hvia htype
  cases v with
  | int z =>
    rw [Retargets, if_neg (by simp [Format.isFloat])]
    exact .inl (by simp)
  | float f => exact congrArg Value.int (wrap_wrap hle (ops.toInt f))

/-- An implied cast below the operator `~` that is cast to an integer type. -/
theorem pushed_integer_impliedCast {castType : ArithType} {orig : Expression Env F}
    (hctype : castType.format = .integer m u') (htype : type.format = .integer n u) (hle : n ≤ m)
    (hw : (Expression.impliedCast castType orig).value ops env = some (.int w)) :
    (∃ z, (castTo (.impliedCast castType orig) type).value ops env = some (.int z) ∧ z ≡ w [ZMOD 2 ^ n]) ↔
      Pushed ops env type k (.impliedCast castType orig) := by
  have hwidth : type.bitSize ≤ castType.bitSize := by
    rw [ArithType.bitSize, ArithType.bitSize, hctype, htype]
    exact hle
  have hbelow : Below ops env type k (.impliedCast castType orig) := by
    rw [Below, htype]
    trivial
  obtain ⟨v, hv, hconvert⟩ := Option.map_eq_some_iff.1 hw
  rw [hctype] at hconvert
  rw [castTo, Pushed]
  by_cases hsame : isSameType castType type = true
  · rw [if_pos hsame]
    exact iff_of_true ⟨w, hw, rfl⟩ (.inl hsame)
  · rw [if_neg hsame, if_pos hwidth]
    simp only [hsame, hbelow, true_and, Bool.false_eq_true, false_or]
    split
    · constructor
      · rintro ⟨z, hz, -⟩
        exact ⟨z, hz⟩
      · rintro ⟨z, hz⟩
        obtain rfl : v = .int z := Option.some.inj (hv.symm.trans hz)
        obtain rfl : wrap m u' z = w := Value.int.inj hconvert
        exact ⟨z, hz, modEq_of_le hle (wrap_modEq m u' z).symm⟩
    · refine iff_of_true ?_ fun _ v _ => retargets_integer hctype htype hle v
      split
      · have hretargets : Retargets ops castType.format type.format v := retargets_integer hctype htype hle v
        have hconverted : convert ops type.format v = .int (wrap n u w) := by
          rw [← (retargets_iff castType.size_pos type.size_pos hwidth v).2 hretargets, hctype, hconvert, htype]
          rfl
        refine ⟨wrap n u w, ?_, wrap_modEq n u w⟩
        rw [Expression.value, hv, ← hconverted]
        rfl
      · exact value_impliedCast_integer htype hw

/-- Moved below the operator `~`, the cast to an integer type keeps the value modulo the size. -/
theorem pushed_integer {e : Expression Env F} (h : Evaluated ops e) (hctype : e.ctype.format = .integer m u')
    (htype : type.format = .integer n u) (hle : n ≤ m) (hw : e.value ops env = some (.int w)) :
    (∃ z, (castTo e type).value ops env = some (.int z) ∧ z ≡ w [ZMOD 2 ^ n]) ↔ Pushed ops env type k e := by
  induction h generalizing k m u' w with
  | @other ctype value hvalue =>
    have hbelow : Below ops env type k (.other ctype value) := by
      rw [Below, htype]
      trivial
    rw [castTo, Pushed]
    refine iff_of_true ?_ hbelow
    split
    · exact ⟨w, hw, rfl⟩
    · exact value_impliedCast_integer htype hw
  | @complement ctype unop n' u₁ u₂ hfirst hunop hsize h ih =>
    obtain rfl : n' = m := by
      have heq := hfirst.symm.trans hctype
      cases heq
      rfl
    have hwidth : ¬ ctype.bitSize < type.bitSize := by
      rw [ArithType.bitSize, ArithType.bitSize, hfirst, htype]
      exact Nat.not_lt.2 hle
    obtain ⟨x, hx, hwx⟩ := (complementValue_int_iff hfirst).1 hw
    have hneg : w ≡ -x - 1 [ZMOD 2 ^ n] := modEq_of_le hle (hwx ▸ wrap_modEq n' u₁ (-x - 1))
    rw [castTo, Pushed]
    by_cases hsame : isSameType ctype type = true
    · rw [if_pos hsame]
      exact iff_of_true ⟨w, hw, rfl⟩ (.inl hsame)
    · rw [if_neg hsame, if_neg hwidth]
      simp only [hsame, Bool.false_eq_true, false_or]
      exact (value_complement_integer_iff htype hneg).trans (ih hunop hle hx)
  | impliedCast h ih => exact pushed_integer_impliedCast hctype htype hle hw

end

/-- The operator `~`, applied a number of times. -/
def complements (k : ℕ) (z : ℤ) : ℤ := if Even k then z else -z - 1

theorem complements_succ (k : ℕ) (z : ℤ) : complements k (-z - 1) = complements (k + 1) z := by
  by_cases h : Even k
  · simp [complements, h, Nat.even_add_one]
  · simp [complements, h, Nat.even_add_one]

theorem complements_congr {c : ℤ} (k : ℕ) (h : a ≡ b [ZMOD c]) : complements k a ≡ complements k b [ZMOD c] := by
  rw [complements, complements]
  split
  · exact h
  · exact complement_modEq_iff.2 h

theorem dvd_iff_of_inRange (hm : 0 < m) (h : InRange m u z) : 2 ^ m ∣ z ↔ z = 0 := by
  rw [← wrap_eq_zero_iff (u := u), (wrap_eq_self_iff hm).2 h]

/-- A bit that says whether a value is zero, below operators `~`. -/
theorem complements_bit_iff (hm : 0 < m) {w : ℤ} (h : InRange m u w) (hz : z % 2 = if w = 0 then 0 else 1) (k : ℕ) :
    (complements k z % 2 = if 2 ^ m ∣ complements k w then 0 else 1) ↔
      Even k ∨ w = 0 ∨ w ≡ -1 [ZMOD 2 ^ m] := by
  by_cases heven : Even k
  · simp [complements, heven, hz, dvd_iff_of_inRange hm h]
  · have hones : (2 : ℤ) ^ m ∣ -w - 1 ↔ w ≡ -1 [ZMOD 2 ^ m] := by
      have hswap : -w - 1 = -1 - w := by ring
      rw [Int.modEq_iff_dvd, hswap]
    have hzero : ¬ (0 : ℤ) ≡ -1 [ZMOD 2 ^ m] := by
      rw [Int.modEq_iff_dvd]
      intro hdvd
      have htwo : (2 : ℤ) ∣ -1 - 0 := (dvd_pow_self 2 hm.ne').trans hdvd
      omega
    simp only [complements, heven, if_false, false_or, hones]
    by_cases hw : w = 0
    · rw [if_pos hw] at hz
      subst hw
      simp only [hzero, if_false, true_or, iff_true]
      omega
    · rw [if_neg hw] at hz
      have hbit : (-z - 1) % 2 = 0 := by omega
      by_cases hall : w ≡ -1 [ZMOD 2 ^ m]
      · simp [hw, hall, hbit]
      · simp [hw, hall, hbit]

/-- A bit that says of zero that it is not zero is wrong below any number of operators `~`. -/
theorem complements_bit_ne (hm : 0 < m) (hz : z % 2 = 1) (k : ℕ) :
    complements k z % 2 ≠ if (2 : ℤ) ^ m ∣ complements k 0 then 0 else 1 := by
  by_cases heven : Even k
  · simp [complements, heven, hz]
  · have hnot : ¬ (2 : ℤ) ^ m ∣ -0 - 1 := by
      intro hdvd
      have htwo : (2 : ℤ) ∣ -0 - 1 := (dvd_pow_self 2 hm.ne').trans hdvd
      omega
    simp only [complements, heven, if_false, hnot]
    omega

theorem convert_bool_bit (ops : FloatOps F) (z : ℤ) :
    ∃ b, convert ops .bool (.int z) = .int b ∧ b % 2 = if z = 0 then 0 else 1 := by
  by_cases hz : z = 0
  · exact ⟨0, by simp [convert, hz], by simp [hz]⟩
  · exact ⟨1, by simp [convert, hz], by simp [hz]⟩

theorem wrap_one_bit (hm : 0 < m) (h : z = 0 ∨ z = 1 ∨ z = -1) : z % 2 = if wrap m u z = 0 then 0 else 1 := by
  simp only [wrap_eq_zero_iff]
  rcases h with rfl | hodd
  · simp
  · have hnot : ¬ (2 : ℤ) ^ m ∣ z := by
      intro hdvd
      have htwo : (2 : ℤ) ∣ z := (dvd_pow_self 2 hm.ne').trans hdvd
      omega
    rw [if_neg hnot]
    omega

/-- The cast of a value to `_Bool` is that of the value in an integer type, or the value is zero there only. -/
theorem retargeted_bit (v : Value F) {w : ℤ} (h : convert ops (.integer m u) v = .int w) :
    ∃ b, convert ops .bool v = .int b ∧
      (convert ops .bool (.int w) = .int b → b % 2 = if w = 0 then 0 else 1) ∧
      (convert ops .bool (.int w) ≠ .int b → b % 2 = 1 ∧ w = 0) := by
  obtain ⟨c, hc, hbit⟩ := convert_bool_bit ops w
  have hagree : ∀ b, convert ops .bool (.int w) = .int b → b % 2 = if w = 0 then 0 else 1 := by
    intro b hb
    obtain rfl : c = b := Value.int.inj (hc.symm.trans hb)
    exact hbit
  have hzero : convert ops .bool v = .int 0 → w = 0 := by
    intro hv
    cases v with
    | int z =>
      obtain rfl : wrap m u z = w := Value.int.inj h
      have hz : z = 0 := by
        by_contra hne
        simp [convert, hne] at hv
      simp [wrap_eq_zero_iff, hz]
    | float f =>
      obtain rfl : wrap m u (ops.toInt f) = w := Value.int.inj h
      have hf : ops.isZero f = true := by
        by_contra hne
        simp [convert, hne] at hv
      simp [wrap_eq_zero_iff, ops.toInt_zero hf]
  have hcases : convert ops .bool v = .int 0 ∨ convert ops .bool v = .int 1 := by
    cases v with
    | int z =>
      by_cases hz : z = 0 <;> simp [convert, hz]
    | float f =>
      by_cases hf : ops.isZero f = true <;> simp [convert, hf]
  rcases hcases with hv | hv
  · refine ⟨0, hv, hagree 0, fun hne => absurd ?_ hne⟩
    rw [hzero hv]
    rfl
  · refine ⟨1, hv, hagree 1, fun hne => ⟨rfl, ?_⟩⟩
    by_contra hw
    exact hne (by simp [convert, hw])

section

variable {env : Env} {type : ArithType} {e : Expression Env F} {k : ℕ} {w : ℤ}

theorem below_bool_iff (hctype : e.ctype.format = .integer m u) (htype : type.format = .bool)
    (hw : e.value ops env = some (.int w)) :
    Below ops env type k e ↔ Even k ∨ w = 0 ∨ w ≡ -1 [ZMOD 2 ^ m] := by
  rw [Below, htype]
  refine or_congr_right ⟨?_, fun hcase => ⟨w, hw, ?_⟩⟩
  · rintro ⟨w', hw', hcase⟩
    obtain rfl : w = w' := Value.int.inj (Option.some.inj (hw.symm.trans hw'))
    rwa [ArithType.bitSize, hctype] at hcase
  · rwa [ArithType.bitSize, hctype]

theorem exists_value_iff {z : ℤ} {P : ℤ → Prop} (h : e.value ops env = some (.int z)) :
    (∃ z', e.value ops env = some (.int z') ∧ P z') ↔ P z := by
  simp [h]

theorem value_impliedCast_bool_iff (h : Evaluated ops e) (hm : 0 < m) (hctype : e.ctype.format = .integer m u)
    (htype : type.format = .bool) (hw : e.value ops env = some (.int w)) :
    (∃ z, (Expression.impliedCast type e).value ops env = some (.int z) ∧
      complements k z % 2 = if 2 ^ m ∣ complements k w then 0 else 1) ↔ Below ops env type k e := by
  obtain ⟨b, hb, hbit⟩ := convert_bool_bit ops w
  have hvalue : (Expression.impliedCast type e).value ops env = some (.int b) := by
    rw [Expression.value, hw, htype]
    exact congrArg some hb
  rw [exists_value_iff hvalue, below_bool_iff hctype htype hw]
  exact complements_bit_iff hm (h.inRange hctype hw) hbit k

theorem value_complement_bool_iff {unop : Expression Env F} {x : ℤ} (htype : type.format = .bool) :
    (∃ z, (Expression.complement type unop).value ops env = some (.int z) ∧
      complements k z % 2 = if 2 ^ m ∣ complements k (wrap m u (-x - 1)) then 0 else 1) ↔
    ∃ z, unop.value ops env = some (.int z) ∧
      complements (k + 1) z % 2 = if 2 ^ m ∣ complements (k + 1) x then 0 else 1 := by
  have hdvd : (2 : ℤ) ^ m ∣ complements k (wrap m u (-x - 1)) ↔ 2 ^ m ∣ complements (k + 1) x := by
    rw [← complements_succ, ← Int.modEq_zero_iff_dvd, ← Int.modEq_zero_iff_dvd]
    have hcongr := complements_congr k (wrap_modEq m u (-x - 1))
    exact ⟨hcongr.symm.trans, hcongr.trans⟩
  have hbit : ∀ z : ℤ, complements k ((-z - 1) % 2) % 2 = complements (k + 1) z % 2 := by
    intro z
    rw [← complements_succ]
    exact complements_congr k (Int.mod_modEq _ 2)
  simp only [hdvd]
  constructor
  · rintro ⟨z, hz, hright⟩
    rw [Expression.value, htype] at hz
    obtain ⟨v, hv, hcomplement⟩ := Option.bind_eq_some_iff.1 hz
    cases v with
    | int z' =>
      obtain rfl : (-z' - 1) % 2 = z := Value.int.inj (Option.some.inj hcomplement)
      exact ⟨z', hv, (hbit z').symm.trans hright⟩
    | float f => simp [complementValue] at hcomplement
  · rintro ⟨z, hz, hright⟩
    refine ⟨(-z - 1) % 2, ?_, (hbit z).trans hright⟩
    rw [Expression.value, htype, hz]
    rfl

/-- An implied cast below the operator `~` that is cast to `_Bool`. -/
theorem pushed_bool_impliedCast {castType : ArithType} {orig : Expression Env F} (h : Evaluated ops orig)
    (hctype : castType.format = .integer m u) (htype : type.format = .bool)
    (hw : (Expression.impliedCast castType orig).value ops env = some (.int w)) :
    (∃ z, (castTo (.impliedCast castType orig) type).value ops env = some (.int z) ∧
      complements k z % 2 = if 2 ^ m ∣ complements k w then 0 else 1) ↔
      Pushed ops env type k (.impliedCast castType orig) := by
  have hsame : ¬ isSameType castType type = true := not_isSameType (by simp [hctype, htype])
  have hm : 0 < m := by
    have hpos := castType.size_pos
    rwa [hctype] at hpos
  have hwidth : type.bitSize ≤ castType.bitSize := by
    rw [ArithType.bitSize, ArithType.bitSize, hctype, htype]
    exact hm
  have hrange : InRange m u w := (Evaluated.impliedCast h).inRange hctype hw
  have hbelow : Below ops env type k (.impliedCast castType orig) ↔ Even k ∨ w = 0 ∨ w ≡ -1 [ZMOD 2 ^ m] :=
    below_bool_iff hctype htype hw
  obtain ⟨v, hv, hvalue⟩ := h.exists_value env
  have hconvert : convert ops (.integer m u) v = .int w := by
    rw [Expression.value, hv, hctype] at hw
    exact Option.some.inj hw
  rw [castTo, if_neg hsame, if_pos hwidth, Pushed]
  simp only [hsame, Bool.false_eq_true, false_or]
  split
  · rename_i hdropped
    cases v with
    | float f => simp [hv]
    | int z =>
      obtain rfl : wrap m u z = w := Value.int.inj hconvert
      have hone : orig.ctype.format.bitSize = 1 := by
        have hsize := (of_decide_eq_true hdropped).1
        rw [ArithType.bitSize, ArithType.bitSize, htype] at hsize
        exact hsize
      have hbit := wrap_one_bit (u := u) hm (isValue_one_bit hone hvalue)
      rw [exists_value_iff hv, complements_bit_iff hm hrange hbit k, ← hbelow]
      simp [hv]
  · split
    · rename_i hoffset
      obtain ⟨b, hb, hagree, hdiffer⟩ := retargeted_bit v hconvert
      have hcastValue : (Expression.impliedCast type orig).value ops env = some (.int b) := by
        rw [Expression.value, hv, htype]
        exact congrArg some hb
      have hretargets : (castType.bitOffset = type.bitOffset →
          ∀ v, orig.value ops env = some v → Retargets ops castType.format type.format v) ↔
          convert ops .bool (.int w) = .int b := by
        simp only [hoffset, true_implies, hv, Option.some.injEq, forall_eq']
        rw [← retargets_iff castType.size_pos type.size_pos hwidth, hctype, htype, hconvert, hb]
      rw [exists_value_iff hcastValue, hretargets]
      by_cases hsamebit : convert ops .bool (.int w) = .int b
      · rw [complements_bit_iff hm hrange (hagree hsamebit) k, ← hbelow]
        exact (and_iff_left hsamebit).symm
      · obtain ⟨hodd, rfl⟩ := hdiffer hsamebit
        exact iff_of_false (complements_bit_ne hm hodd k) fun hboth => hsamebit hboth.2
    · rename_i hoffset
      refine (value_impliedCast_bool_iff (.impliedCast h) hm hctype htype hw).trans ?_
      simp [hoffset]

/-- Moved below the operator `~`, the cast to `_Bool` keeps the value, seen through the operators `~` above, in
these cases. -/
theorem pushed_bool (h : Evaluated ops e) (hctype : e.ctype.format = .integer m u) (htype : type.format = .bool)
    (hw : e.value ops env = some (.int w)) :
    (∃ z, (castTo e type).value ops env = some (.int z) ∧
      complements k z % 2 = if 2 ^ m ∣ complements k w then 0 else 1) ↔ Pushed ops env type k e := by
  have hsame : ¬ isSameType e.ctype type = true := not_isSameType (by simp [hctype, htype])
  have hm : 0 < m := by
    have hpos := e.ctype.size_pos
    rwa [hctype] at hpos
  induction h generalizing k m u w with
  | @other ctype value hvalue =>
    have hsame : ¬ isSameType ctype type = true := hsame
    rw [castTo, if_neg hsame, Pushed]
    exact value_impliedCast_bool_iff (.other hvalue) hm hctype htype hw
  | @complement ctype unop n u₁ u₂ hfirst hunop hsize h ih =>
    obtain rfl : n = m := by
      have heq := hfirst.symm.trans hctype
      cases heq
      rfl
    have hwidth : ¬ ctype.bitSize < type.bitSize := by
      rw [ArithType.bitSize, ArithType.bitSize, hfirst, htype]
      exact Nat.not_lt.2 hm
    have hsame : ¬ isSameType ctype type = true := hsame
    obtain ⟨x, hx, rfl⟩ := (complementValue_int_iff hfirst).1 hw
    rw [castTo, if_neg hsame, if_neg hwidth, Pushed]
    simp only [hsame, Bool.false_eq_true, false_or]
    exact (value_complement_bool_iff htype).trans
      (ih hunop hx (not_isSameType (by simp [hunop, htype])) hm)
  | impliedCast h ih => exact pushed_bool_impliedCast h hctype htype hw

end

/-! ## The value of a cast -/

theorem value_of_isSameType {env : Env} {type : ArithType} {e : Expression Env F} (h : Evaluated ops e)
    (hsame : isSameType e.ctype type = true) :
    e.value ops env = (e.value ops env).map (convert ops type.format) := by
  obtain ⟨v, hv, hvalue⟩ := h.exists_value env
  rw [isSameType.format_eq hsame] at hvalue
  rw [hv, Option.map_some, convert_eq_self type.size_pos hvalue]

theorem complement_value_iff {env : Env} {ctype type : ArithType} {unop : Expression Env F}
    (h : Evaluated ops (.complement ctype unop)) (hle : type.bitSize ≤ ctype.bitSize) :
    (Expression.complement type (castTo unop type)).value ops env =
        ((Expression.complement ctype unop).value ops env).map (convert ops type.format) ↔
      Pushed ops env type 1 unop := by
  obtain ⟨v, hv, -⟩ := h.exists_value env
  obtain _ | ⟨m, u, u', hctype, hunop, hsize, h⟩ := h
  rw [hv, Expression.value]
  rw [Expression.value, hctype] at hv
  obtain ⟨v', hx, hcomplement⟩ := Option.bind_eq_some_iff.1 hv
  cases v' with
  | float f => simp [complementValue] at hcomplement
  | int x =>
    obtain rfl : Value.int (wrap m u (-x - 1)) = v := Option.some.inj hcomplement
    rw [ArithType.bitSize, ArithType.bitSize, hctype] at hle
    cases htype : type.format with
    | float n =>
      refine iff_of_false ?_ (not_pushed_float h hunop htype)
      cases (castTo unop type).value ops env with
      | none => simp
      | some v => simp [complementValue]
    | integer n u₁ =>
      rw [htype] at hle
      have hle : n ≤ m := hle
      have hconverted : (some (Value.int (wrap m u (-x - 1)))).map (convert ops type.format) =
          some (.int (wrap n u₁ (wrap m u (-x - 1)))) := by
        rw [htype]
        rfl
      rw [← pushed_integer h hunop htype hle hx, ← htype, hconverted]
      refine (complementValue_int_iff htype).trans (exists_congr fun z => and_congr_right fun _ => ?_)
      rw [wrap_wrap hle, wrap_eq_wrap_iff, complement_modEq_iff]
    | bool =>
      rw [← pushed_bool h hunop htype hx]
      have hbit : ∀ z : ℤ, (complements 1 z % 2 = if (2 : ℤ) ^ m ∣ complements 1 x then 0 else 1) ↔
          (-z - 1) % 2 = if wrap m u (-x - 1) = 0 then 0 else 1 := by
        intro z
        simp only [complements, Nat.not_even_one, if_false, wrap_eq_zero_iff]
      simp only [hbit]
      cases hcast : (castTo unop type).value ops env with
      | none => simp
      | some v =>
        cases v with
        | float f => simp [complementValue]
        | int z => simp [complementValue, convert]

theorem castTo_value_env_iff {env : Env} {type : ArithType} {e : Expression Env F} (h : Evaluated ops e) :
    (castTo e type).value ops env = (e.value ops env).map (convert ops type.format) ↔ Kept ops env type e := by
  cases e with
  | other ctype value =>
    refine iff_of_true ?_ trivial
    rw [castTo]
    split
    · rename_i hsame
      exact value_of_isSameType h hsame
    · rfl
  | complement ctype unop =>
    rw [castTo, Kept]
    split
    · rename_i hsame
      exact iff_of_true (value_of_isSameType h hsame) (.inl hsame)
    · rename_i hsame
      simp only [hsame, Bool.false_eq_true, false_or]
      split
      · rename_i hnarrow
        exact iff_of_true rfl (.inl hnarrow)
      · rename_i hnarrow
        rw [complement_value_iff h (Nat.not_lt.1 hnarrow)]
        simp [hnarrow]
  | impliedCast ctype orig =>
    rw [castTo, Kept]
    split
    · rename_i hsame
      exact iff_of_true (value_of_isSameType h hsame) (.inl hsame)
    · rename_i hsame
      simp only [hsame, Bool.false_eq_true, false_or]
      obtain _ | _ | horig := h
      obtain ⟨v, hv, hvalue⟩ := horig.exists_value env
      have hcast : (Expression.impliedCast ctype orig).value ops env = some (convert ops ctype.format v) := by
        rw [Expression.value, hv]
        rfl
      split
      · rename_i hle
        rw [hcast]
        simp only [Nat.not_lt.2 hle, false_or, hv, Option.some.injEq, forall_eq', Option.map_some]
        split
        · rename_i hdropped
          have hsize : orig.ctype.format.bitSize = type.format.bitSize := (of_decide_eq_true hdropped).1
          rw [hv, ← drops_iff ctype.size_pos type.size_pos hle hsize hvalue, Option.some.injEq]
          exact eq_comm
        · split
          · rename_i hoffset
            rw [Expression.value, hv, ← retargets_iff ctype.size_pos type.size_pos hle v]
            simp only [hoffset, true_implies, Option.map_some, Option.some.injEq]
            exact eq_comm
          · rename_i hoffset
            rw [Expression.value, hcast]
            simp [hoffset]
      · rename_i hwide
        exact iff_of_true rfl (.inl (Nat.not_le.1 hwide))

end

/-- `cast_to` makes an expression that denotes the value of the other in the type exactly if in every
environment the value is kept by what is done with the casts. -/
theorem castTo_value_iff (ops : FloatOps F) (e : Expression Env F) (type : ArithType) (h : Evaluated ops e) :
    (∀ env, (castTo e type).value ops env = (e.value ops env).map (convert ops type.format)) ↔
      ∀ env, Kept ops env type e :=
  forall_congr' fun _ => castTo_value_env_iff h

/-- Floating types for whole numbers. -/
def wholeNumbers : FloatOps ℤ where
  OfSize _ _ := True
  round _ f := f
  ofInt _ z := z
  toInt f := f
  isZero f := f = 0
  round_ofSize _ _ := trivial
  ofInt_ofSize _ _ := trivial
  round_eq _ := rfl
  toInt_zero h := of_decide_eq_true h

def intType : ArithType := { base := ⟨0, .integer 32 false, by decide⟩ }

def shortType : ArithType := { base := ⟨1, .integer 16 false, by decide⟩ }

def boolType : ArithType := { base := ⟨2, .bool, by decide⟩ }

/-- `short s = ~x;` for an `int` that is five or minus one. -/
theorem castTo_value_short :
    Evaluated wholeNumbers (.complement intType (.other intType fun b : Bool => .int (if b then 5 else -1))) ∧
      ∀ env, (castTo (.complement intType (.other intType fun b : Bool => .int (if b then 5 else -1)))
        shortType).value wholeNumbers env =
          ((Expression.complement intType (.other intType fun b : Bool => .int (if b then 5 else -1))).value
            wholeNumbers env).map (convert wholeNumbers shortType.format) := by
  have hevaluated : Evaluated wholeNumbers
      (.complement intType (.other intType fun b : Bool => .int (if b then 5 else -1))) := by
    refine .complement 32 false false rfl rfl (by decide) (.other fun env => ?_)
    cases env with
    | true => exact ⟨by decide, by decide⟩
    | false => exact ⟨by decide, by decide⟩
  refine ⟨hevaluated, (castTo_value_iff wholeNumbers _ shortType hevaluated).2 fun env => ?_⟩
  exact .inr (.inr trivial)

/-- `_Bool b = ~x;` for an `int` that is one. -/
theorem castTo_value_bool :
    Evaluated wholeNumbers (.complement intType (.other intType fun _ : Unit => .int 1)) ∧
      (castTo (.complement intType (.other intType fun _ : Unit => .int 1)) boolType).value wholeNumbers () =
        some (.int 0) ∧
      ((Expression.complement intType (.other intType fun _ : Unit => .int 1)).value wholeNumbers ()).map
        (convert wholeNumbers boolType.format) = some (.int 1) := by
  refine ⟨.complement 32 false false rfl rfl (by decide) (.other fun _ => ?_), rfl, rfl⟩
  exact ⟨by decide, by decide⟩

end ImpliedCasts

end Sparse
