import Sparse.NumberValues

/-!
# Integer constants

The loop over the suffix takes the suffixes of C and no others, and what `parse_num` leaves in
front of one are the digits of a constant, or nothing behind `0b`.
-/

namespace Sparse.NumberLiterals

open Tokenizer (ch digitsValue)

/-! ## The loop over the suffix -/

section SuffixLoop

variable {c : UInt8} {s : List UInt8} {u wantUnsigned : Bool} {size n : ℕ}

theorem not_u_of_l (hc : isCase 'l' c = true) : isCase 'u' c = false :=
  cases_of_isCase hc (by decide) (by decide)

@[simp] theorem suffixLoop_nil : suffixLoop [] wantUnsigned size = .integer wantUnsigned size := rfl

theorem suffixLoop_u (hc : isCase 'u' c = true) : suffixLoop (c :: s) wantUnsigned size =
    if wantUnsigned then .noInteger else suffixLoop s true size := by
  cases s <;> simp [suffixLoop, hc]

theorem suffixLoop_float (hu : isCase 'u' c = false) (hl : isCase 'l' c = false) :
    suffixLoop (c :: s) wantUnsigned size = .float := by
  cases s <;> simp [suffixLoop, hu, hl]

/-- Behind an `l` the loop goes on, past a second letter that is the same. -/
theorem suffixLoop_l (hc : isCase 'l' c = true) : suffixLoop (c :: s) wantUnsigned 0 =
    if s.head? = some c then suffixLoop s.tail wantUnsigned 2 else suffixLoop s wantUnsigned 1 := by
  cases s with
  | nil => simp [suffixLoop, hc, not_u_of_l hc]
  | cons d s =>
    rw [suffixLoop]
    simp [hc, not_u_of_l hc]

theorem suffixLoop_of_long (wantUnsigned : Bool) (h : LongSuffix s size) (tail : List UInt8)
    (htail : ∀ d ∈ tail.head?, isCase 'u' d = true) :
    suffixLoop (s ++ tail) wantUnsigned 0 = suffixLoop tail wantUnsigned size := by
  cases h with
  | none => rfl
  | long hc =>
    rename_i c
    have hne : tail.head? ≠ some c := fun h => absurd (htail c h) (by simp [not_u_of_l hc])
    rw [List.singleton_append, suffixLoop_l hc, if_neg hne]
  | longLong hc =>
    rename_i c
    rw [show [c, c] ++ tail = c :: c :: tail from rfl, suffixLoop_l hc]
    simp

theorem suffixLoop_of_suffix (h : IntegerSuffix s u size) : suffixLoop s false 0 = .integer u size := by
  cases h with
  | signed h => simpa using suffixLoop_of_long false h [] (by simp)
  | before hc h => simpa [suffixLoop_u hc] using suffixLoop_of_long true h [] (by simp)
  | behind hc h =>
    have hloop := suffixLoop_of_long false h [_] (by simpa using hc)
    rw [hloop, suffixLoop_u hc]
    rfl

theorem suffixLoop_l_sized (hc : isCase 'l' c = true) (hsize : size ≠ 0) :
    suffixLoop (c :: s) wantUnsigned size = .noInteger := by
  cases s <;> simp [suffixLoop, hc, not_u_of_l hc, hsize]

/-- Behind the letters for the size only a `u` may follow. -/
theorem suffixLoop_sized (hsize : size ≠ 0) (h : suffixLoop s wantUnsigned size = .integer u n) :
    n = size ∧ ((s = [] ∧ u = wantUnsigned) ∨
      (wantUnsigned = false ∧ u = true ∧ ∃ c, isCase 'u' c = true ∧ s = [c])) := by
  induction s generalizing wantUnsigned with
  | nil =>
    obtain ⟨rfl, rfl⟩ := Suffix.integer.inj h
    exact ⟨rfl, .inl ⟨rfl, rfl⟩⟩
  | cons c s ih =>
    cases hu : isCase 'u' c
    · cases hl : isCase 'l' c
      · rw [suffixLoop_float hu hl] at h
        cases h
      · rw [suffixLoop_l_sized hl hsize] at h
        cases h
    · rw [suffixLoop_u hu] at h
      cases wantUnsigned
      · obtain ⟨hn, ⟨rfl, rfl⟩ | ⟨htrue, -⟩⟩ := ih h
        · exact ⟨hn, .inr ⟨rfl, rfl, c, hu, rfl⟩⟩
        · cases htrue
      · cases h

/-- The letters for the size, and the `u` that may stand behind them. -/
theorem long_of_suffixLoop (hc : isCase 'l' c = true) (h : suffixLoop (c :: s) wantUnsigned 0 = .integer u n) :
    ∃ l tail, c :: s = l ++ tail ∧ LongSuffix l n ∧ ((tail = [] ∧ u = wantUnsigned) ∨
      (wantUnsigned = false ∧ u = true ∧ ∃ d, isCase 'u' d = true ∧ tail = [d])) := by
  rw [suffixLoop_l hc] at h
  split at h
  · rename_i hsame
    obtain ⟨rfl, htail⟩ := suffixLoop_sized two_ne_zero h
    refine ⟨[c, c], s.tail, ?_, .longLong hc, htail⟩
    rw [List.cons_append, List.singleton_append, List.cons_head?_tail hsame]
  · obtain ⟨rfl, htail⟩ := suffixLoop_sized one_ne_zero h
    exact ⟨[c], s, rfl, .long hc, htail⟩

theorem suffix_of_suffixLoop (h : suffixLoop s false 0 = .integer u n) : IntegerSuffix s u n := by
  cases s with
  | nil =>
    obtain ⟨rfl, rfl⟩ := Suffix.integer.inj h
    exact .signed .none
  | cons c s =>
    cases hu : isCase 'u' c
    · cases hl : isCase 'l' c
      · rw [suffixLoop_float hu hl] at h
        cases h
      · obtain ⟨l, tail, heq, hlong, ⟨rfl, rfl⟩ | ⟨-, rfl, d, hd, rfl⟩⟩ := long_of_suffixLoop hl h
        · rw [heq, List.append_nil]
          exact .signed hlong
        · rw [heq]
          exact .behind hd hlong
    · rw [suffixLoop_u hu] at h
      cases s with
      | nil =>
        obtain ⟨rfl, rfl⟩ := Suffix.integer.inj h
        exact .before hu .none
      | cons d s =>
        cases hu' : isCase 'u' d
        · cases hl : isCase 'l' d
          · rw [suffixLoop_float hu' hl] at h
            cases h
          · obtain ⟨l, tail, heq, hlong, ⟨rfl, rfl⟩ | ⟨hfalse, -⟩⟩ := long_of_suffixLoop hl h
            · rw [heq, List.append_nil]
              exact .before hu hlong
            · cases hfalse
        · rw [suffixLoop_u hu'] at h
          cases h

theorem IntegerSuffix.size_le (h : IntegerSuffix s u size) : size ≤ 2 := by
  have hlong : ∀ {l : List UInt8}, LongSuffix l size → size ≤ 2 := by
    intro l h
    cases h <;> omega
  cases h with
  | signed h => exact hlong h
  | before hc h => exact hlong h
  | behind hc h => exact hlong h

/-- A suffix begins with one of its letters. -/
theorem IntegerSuffix.head (h : IntegerSuffix s u size) : ∀ c ∈ s.head?, isCase 'u' c = true ∨ isCase 'l' c = true := by
  cases h with
  | signed h => cases h <;> simp_all
  | before hc h => simp_all
  | behind hc h => cases h <;> simp_all

end SuffixLoop

/-! ## Integers -/

section Integers

variable {base size value : ℕ} {c : UInt8} {text rest digits suffix : List UInt8} {u : Bool}

theorem isDigitOf_mono {b b' : ℕ} (hle : b ≤ b') (h : isDigitOf b c = true) : isDigitOf b' c = true := by
  rw [isDigitOf, decide_eq_true_iff] at h ⊢
  omega

theorem not_isDigitOf_mono {b b' : ℕ} (hle : b ≤ b') (h : isDigitOf b' c = false) : isDigitOf b c = false := by
  rw [← Bool.not_eq_true] at h ⊢
  exact fun hb => h (isDigitOf_mono hle hb)

theorem not_digit_of_suffix (hc : isCase 'u' c = true ∨ isCase 'l' c = true) : isDigitOf 16 c = false := by
  rcases hc with hc | hc
  · exact cases_of_isCase hc (by decide) (by decide)
  · exact cases_of_isCase hc (by decide) (by decide)

/-- Digits are no letters of a prefix, of a suffix or of an exponent. -/
theorem letters_of_digit (hc : isDigitOf 10 c = true) :
    (isCase 'b' c = false ∧ isCase 'x' c = false) ∧ isCase 'u' c = false ∧ isCase 'l' c = false := by
  refine ⟨⟨?_, ?_⟩, ?_, ?_⟩
  all_goals exact not_isCase_of_digit hc (by decide) (by decide)

theorem letters_of_suffix (hc : isCase 'u' c = true ∨ isCase 'l' c = true) :
    isCase 'b' c = false ∧ isCase 'x' c = false := by
  rcases hc with hc | hc
  · exact cases_of_isCase (P := fun c => isCase 'b' c = false ∧ isCase 'x' c = false) hc (by decide) (by decide)
  · exact cases_of_isCase (P := fun c => isCase 'b' c = false ∧ isCase 'x' c = false) hc (by decide) (by decide)

theorem not_b_of_x (hc : isCase 'x' c = true) : isCase 'b' c = false :=
  cases_of_isCase hc (by decide) (by decide)

theorem takeWhile_append_stop {p : UInt8 → Bool} (hdigits : ∀ d ∈ digits, p d = true)
    (hstop : ∀ c ∈ rest.head?, p c = false) : (digits ++ rest).takeWhile p = digits := by
  rw [List.takeWhile_append_of_pos hdigits]
  cases rest with
  | nil => simp
  | cons c rest => simp [hstop c rfl]

theorem dropWhile_append_stop {p : UInt8 → Bool} (hdigits : ∀ d ∈ digits, p d = true)
    (hstop : ∀ c ∈ rest.head?, p c = false) : (digits ++ rest).dropWhile p = rest := by
  rw [List.dropWhile_append_of_pos hdigits]
  cases rest with
  | nil => rfl
  | cons c rest => simp [hstop c rfl]

/-- What `strtoull` finds for a value. -/
def found (value : ℕ) (rest : List UInt8) : BitVec 64 × Bool × List UInt8 :=
  (if 2 ^ 64 ≤ value then BitVec.allOnes 64 else BitVec.ofNat 64 value, 2 ^ 64 ≤ value, rest)

theorem strtoull_append (hdigits : ∀ d ∈ digits, isDigitOf base d = true)
    (hstop : ∀ c ∈ rest.head?, isDigitOf base c = false) :
    strtoull base (digits ++ rest) = found (digitsValue base digits) rest := by
  rw [strtoull, takeWhile_append_stop hdigits hstop, dropWhile_append_stop hdigits hstop]
  rfl

theorem IntegerSuffix.stop (h : IntegerSuffix suffix u size) (hbase : base ≤ 16) :
    ∀ c ∈ suffix.head?, isDigitOf base c = false :=
  fun c hc => not_isDigitOf_mono hbase (not_digit_of_suffix (h.head c hc))

theorem any_head_false {p : UInt8 → Bool} (h : ∀ c ∈ text.head?, p c = false) : text.head?.any p = false := by
  cases text with
  | nil => rfl
  | cons c text => exact h c rfl

/-- A zero without a prefix begins an octal number. -/
theorem parseNum_octal (h : ∀ c ∈ text.head?, isCase 'b' c = false ∧ isCase 'x' c = false) :
    parseNum (ch '0' :: text) = strtoull 8 (ch '0' :: text) := by
  have hb : text.head?.any (isCase 'b') = false := any_head_false fun c hc => (h c hc).1
  have hx : text.head?.any (isCase 'x') = false := any_head_false fun c hc => (h c hc).2
  simp [parseNum, strtoullAny, isHexPrefix, hb, hx]

theorem parseNum_decimal (h : text.head? ≠ some (ch '0')) : parseNum text = strtoull 10 text := by
  simp [parseNum, strtoullAny, isHexPrefix, h]

theorem parseNum_hex {x : UInt8} (hx : isCase 'x' x = true) (h : text.head?.any (isDigitOf 16) = true) :
    parseNum (ch '0' :: x :: text) = strtoull 16 text := by
  simp [parseNum, strtoullAny, isHexPrefix, hx, not_b_of_x hx, h]

theorem parseNum_binary {b : UInt8} (hb : isCase 'b' b = true) : parseNum (ch '0' :: b :: text) = strtoull 2 text := by
  simp [parseNum, hb]

theorem IsDigits.head (h : IsDigits base digits) : (digits ++ rest).head?.any (isDigitOf base) = true := by
  obtain ⟨hne, hall⟩ := h
  cases digits with
  | nil => exact absurd rfl hne
  | cons d ds => exact hall d List.mem_cons_self

/-- `parse_num` reads an integer constant up to its suffix. -/
theorem parseNum_of_digits (hdigits : IntegerDigits base digits value) (hsuffix : IntegerSuffix suffix u size) :
    parseNum (digits ++ suffix) = found value suffix ∧ digits ≠ [] ∧
      (base = 10 ↔ (digits ++ suffix).head? ≠ some (ch '0')) := by
  cases hdigits with
  | decimal hd h =>
    rename_i d ds
    have hhead : (d :: ds ++ suffix).head? ≠ some (ch '0') := by simpa using hd
    refine ⟨?_, h.1, by simpa using hd⟩
    rw [parseNum_decimal hhead, strtoull_append h.2 (hsuffix.stop (by omega))]
  | octal h =>
    rename_i ds
    have hsecond : ∀ c ∈ (ds ++ suffix).head?, isCase 'b' c = false ∧ isCase 'x' c = false := by
      intro c hc
      cases ds with
      | nil => exact letters_of_suffix (hsuffix.head c hc)
      | cons d ds =>
        obtain rfl := Option.some.inj hc
        exact (letters_of_digit (isDigitOf_mono (by omega) (h d List.mem_cons_self))).1
    have hdigits : ∀ d ∈ ch '0' :: ds, isDigitOf 8 d = true := List.forall_mem_cons.mpr ⟨by decide, h⟩
    refine ⟨?_, List.cons_ne_nil _ _, by simp⟩
    rw [List.cons_append, parseNum_octal hsecond, ← List.cons_append, strtoull_append hdigits (hsuffix.stop (by omega))]
    rfl
  | hex hx h =>
    refine ⟨?_, List.cons_ne_nil _ _, by simp⟩
    rw [List.cons_append, List.cons_append, parseNum_hex hx h.head, strtoull_append h.2 (hsuffix.stop le_rfl)]
  | binary hb h =>
    refine ⟨?_, List.cons_ne_nil _ _, by simp⟩
    rw [List.cons_append, List.cons_append, parseNum_binary hb, strtoull_append h.2 (hsuffix.stop (by omega))]

/-- The digits that `strtoull` takes. -/
theorem strtoull_digits {v : BitVec 64} {outOfRange : Bool} (h : strtoull base text = (v, outOfRange, rest)) :
    ∃ digits, (∀ d ∈ digits, isDigitOf base d = true) ∧ text = digits ++ rest := by
  refine ⟨text.takeWhile (isDigitOf base), fun d hd => List.mem_takeWhile_imp hd, ?_⟩
  have hrest : text.dropWhile (isDigitOf base) = rest := (Prod.mk.inj (Prod.mk.inj h).2).2
  rw [← hrest, List.takeWhile_append_dropWhile]

theorem eq_of_prefix {letter : Char} (h : (text.head? = some (ch '0') && text.tail.head?.any (isCase letter)) = true) :
    ∃ x body, isCase letter x = true ∧ text = ch '0' :: x :: body := by
  match text with
  | [] => simp at h
  | [c] => simp at h
  | c :: x :: body =>
    obtain ⟨rfl, hx⟩ : c = ch '0' ∧ isCase letter x = true := by simpa using h
    exact ⟨x, body, hx, rfl⟩

/-- What stands in front of a suffix is an integer, or only `0b`. -/
theorem isInteger_of_parseNum {v : BitVec 64} {outOfRange : Bool} (h : parseNum text = (v, outOfRange, rest))
    (hrest : rest.length ≠ text.length) (hsuffix : IntegerSuffix rest u size) : IsInteger text ∨ IsMisspelled text := by
  have hinteger : ∀ {base value : ℕ} {digits : List UInt8}, IntegerDigits base digits value →
      IsInteger (digits ++ rest) := fun hdigits => ⟨_, _, _, _, .mk hdigits hsuffix⟩
  rw [parseNum] at h
  split at h
  · rename_i hb
    obtain ⟨b, body, hb, rfl⟩ := eq_of_prefix hb
    obtain ⟨digits, hdigits, hbody⟩ := strtoull_digits h
    rw [List.drop_succ_cons, List.drop_succ_cons, List.drop_zero] at hbody
    subst hbody
    cases digits with
    | nil => exact .inr (.binary hb hsuffix)
    | cons d ds =>
      exact .inl (hinteger (.binary hb ⟨List.cons_ne_nil d ds, hdigits⟩))
  · rw [strtoullAny] at h
    split at h
    · rename_i hboth
      obtain ⟨hpre, hhead⟩ := Bool.and_eq_true_iff.mp hboth
      obtain ⟨x, body, hx, rfl⟩ := eq_of_prefix hpre
      obtain ⟨digits, hdigits, hbody⟩ := strtoull_digits h
      rw [List.drop_succ_cons, List.drop_succ_cons, List.drop_zero] at hbody hhead
      subst hbody
      cases digits with
      | nil =>
        -- a digit in front of the suffix would have been taken
        have hstop : rest.head?.any (isDigitOf 16) = false := any_head_false (hsuffix.stop le_rfl)
        rw [List.nil_append, hstop] at hhead
        cases hhead
      | cons d ds => exact .inl (hinteger (.hex hx ⟨List.cons_ne_nil d ds, hdigits⟩))
    · split at h
      · rename_i hzero
        obtain ⟨digits, hdigits, rfl⟩ := strtoull_digits h
        cases digits with
        | nil => exact absurd rfl hrest
        | cons d ds =>
          obtain rfl : d = ch '0' := by simpa using hzero
          exact .inl (hinteger (.octal fun d hd => hdigits d (List.mem_cons_of_mem _ hd)))
      · rename_i hzero
        obtain ⟨digits, hdigits, rfl⟩ := strtoull_digits h
        cases digits with
        | nil => exact absurd rfl hrest
        | cons d ds =>
          exact .inl (hinteger (.decimal (by simpa using hzero) ⟨List.cons_ne_nil d ds, hdigits⟩))

/-- No type has a value of more than 64 bits. -/
theorem firstType_none {t : Target} {more : List Ctype} (h : 2 ^ 64 ≤ value) :
    firstType t more base u size value = none := by
  rw [firstType, List.find?_eq_none]
  intro c _
  have hbits : (if c.isUnsigned then c.bitSize t else c.bitSize t - 1) ≤ 64 := by
    have hle := c.bitSize_le t
    split
    · exact hle
    · omega
  have hpow : 2 ^ (if c.isUnsigned then c.bitSize t else c.bitSize t - 1) ≤ 2 ^ 64 :=
    Nat.pow_le_pow_right (by omega) hbits
  simp only [represents, decide_eq_true_eq, not_lt]
  exact hpow.trans h

/-- An integer constant gets its value and the first type that represents it. -/
theorem getNumberValue_of_integer (t : Target) (h : IntegerConstant base u size value text) :
    (firstType t [.integer .longLong .unsigned] base u size value = none ∧ getNumberValue t text = .error .tooBig) ∨
      ∃ ctype warnings, firstType t [.integer .longLong .unsigned] base u size value = some ctype ∧ value < 2 ^ 64 ∧
        getNumberValue t text = .integer ctype (BitVec.ofNat 64 value) warnings := by
  cases h with
  | mk hdigits hsuffix =>
    rename_i digits suffix
    obtain ⟨hparse, hne, hbase⟩ := parseNum_of_digits hdigits hsuffix
    have hlen : ¬suffix.length = (digits ++ suffix).length := by
      have hpos := List.length_pos_of_ne_nil hne
      rw [List.length_append]
      omega
    by_cases hvalue : 2 ^ 64 ≤ value
    · refine .inl ⟨firstType_none hvalue, ?_⟩
      simp only [getNumberValue, hparse, found, hlen, if_false, suffixLoop_of_suffix hsuffix, hvalue, if_true,
        decide_true, Bool.and_self]
    · have hlt : value < 2 ^ 64 := Nat.lt_of_not_le hvalue
      have hnat : (BitVec.ofNat 64 value).toNat = value := by rw [BitVec.toNat_ofNat, Nat.mod_eq_of_lt hlt]
      have htype : (chooseType t (digits ++ suffix) (BitVec.ofNat 64 value) size u).map
          (fun c => ctypeInteger c.size c.wantUnsigned) = _ := chooseType_eq hbase hsuffix.size_le
      rw [hnat] at htype
      cases hchoose : chooseType t (digits ++ suffix) (BitVec.ofNat 64 value) size u with
      | none =>
        rw [hchoose] at htype
        refine .inl ⟨htype.symm, ?_⟩
        simp only [getNumberValue, hparse, found, hlen, if_false, suffixLoop_of_suffix hsuffix, hvalue, decide_false,
          Bool.and_false, Bool.false_eq_true, hchoose]
      | some c =>
        rw [hchoose] at htype
        refine .inr ⟨ctypeInteger c.size c.wantUnsigned, c.warnings (digits ++ suffix), htype.symm, hlt, ?_⟩
        simp only [getNumberValue, hparse, found, hlen, if_false, suffixLoop_of_suffix hsuffix, hvalue, decide_false,
          Bool.and_false, Bool.false_eq_true, hchoose]

end Integers

end Sparse.NumberLiterals
