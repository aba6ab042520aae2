import Sparse.IntegerConstants

/-!
# Floating constants and all numbers

Where `strtold` stops, floating constants end in their suffix. With the integer constants this
gives what becomes of every number.
-/

namespace Sparse.NumberLiterals

open Tokenizer (ch isDot)
open MacroExpansion (bytes)

/-! ## The end of a floating number -/

section Floating

variable {base : ℕ} {letter : Char} {c : UInt8} {text rest m e s : List UInt8}

theorem not_digit_dot : isDigitOf 16 (ch '.') = false := by decide

theorem mantissaEnd_fraction (hbase : base ≤ 16) (hm : IsFraction base m)
    (hstop : ∀ c ∈ rest.head?, isDigitOf base c = false) : mantissaEnd base (m ++ rest) = some rest := by
  cases hm with
  | mk hbefore hafter hdigit =>
    rename_i before after
    have hdot : isDigitOf base (ch '.') = false := not_isDigitOf_mono hbase not_digit_dot
    have hrest : ((before ++ ch '.' :: after) ++ rest).dropWhile (isDigitOf base) = ch '.' :: (after ++ rest) := by
      rw [List.append_assoc]
      exact dropWhile_append_stop hbefore (by simpa using hdot)
    have hdigits : (((before ++ ch '.' :: after) ++ rest).head?.any (isDigitOf base) ||
        (after ++ rest).head?.any (isDigitOf base)) = true := by
      rcases hdigit with hne | hne
      · rw [List.append_assoc, IsDigits.head ⟨hne, hbefore⟩, Bool.true_or]
      · rw [IsDigits.head ⟨hne, hafter⟩, Bool.or_true]
    simp only [mantissaEnd, hrest, List.head?_cons, Option.any_some, List.tail_cons, hdigits,
      dropWhile_append_stop hafter hstop]
    rfl

theorem mantissaEnd_digits (hm : IsDigits base m)
    (hstop : ∀ c ∈ rest.head?, isDigitOf base c = false ∧ isDot c = false) :
    mantissaEnd base (m ++ rest) = some rest := by
  have hrest := dropWhile_append_stop hm.2 fun c hc => (hstop c hc).1
  have hdot : rest.head?.any isDot = false := any_head_false fun c hc => (hstop c hc).2
  simp only [mantissaEnd, hrest, hdot, hm.head, Bool.false_and, Bool.false_eq_true, if_false, if_true]

theorem not_sign_of_digit (hc : isDigitOf 10 c = true) : isSign c = false := by
  refine Bool.eq_false_iff.mpr fun hsign => ?_
  simp only [isSign, Bool.or_eq_true, decide_eq_true_eq] at hsign
  rcases hsign with rfl | rfl
  · exact absurd hc (by decide)
  · exact absurd hc (by decide)

theorem exponentEnd_exponent (he : IsExponent letter e) (hstop : ∀ c ∈ rest.head?, isDigitOf 10 c = false) :
    exponentEnd letter (e ++ rest) = rest := by
  cases he with
  | plain he h =>
    rename_i e digits
    have hsign : (digits ++ rest).head?.any isSign = false := by
      refine any_head_false fun c hc => not_sign_of_digit ?_
      have hhead : (digits ++ rest).head?.any (isDigitOf 10) = true := h.head
      rw [hc] at hhead
      exact hhead
    simp only [List.cons_append, exponentEnd, hsign, he, h.head, Bool.false_eq_true, if_false, Bool.and_self, if_true,
      dropWhile_append_stop h.2 hstop]
  | signed he hsign h =>
    simp only [List.cons_append, exponentEnd, List.head?_cons, Option.any_some, hsign, if_true, List.tail_cons, he,
      h.head, Bool.and_self, dropWhile_append_stop h.2 hstop]

theorem exponentEnd_none (h : ∀ c ∈ rest.head?, isCase letter c = false) : exponentEnd letter rest = rest := by
  cases rest with
  | nil => rfl
  | cons c rest => simp [exponentEnd, h c rfl]

theorem isDigits_takeWhile (h : text.head?.any (isDigitOf base) = true) :
    IsDigits base (text.takeWhile (isDigitOf base)) := by
  refine ⟨?_, fun d hd => List.mem_takeWhile_imp hd⟩
  cases text with
  | nil => cases h
  | cons c text =>
    have hc : isDigitOf base c = true := h
    simp [hc]

theorem mantissaEnd_sound (h : mantissaEnd base text = some rest) :
    ∃ m, text = m ++ rest ∧ (IsFraction base m ∨ IsDigits base m) := by
  have hsplit : text = text.takeWhile (isDigitOf base) ++ text.dropWhile (isDigitOf base) :=
    List.takeWhile_append_dropWhile.symm
  rw [mantissaEnd] at h
  split at h
  · rename_i hpoint
    obtain ⟨hdot, hdigit⟩ := Bool.and_eq_true_iff.mp hpoint
    cases hrest : text.dropWhile (isDigitOf base) with
    | nil => simp [hrest] at hdot
    | cons c after =>
      obtain rfl : c = ch '.' := by simpa [hrest, isDot] using hdot
      simp only [hrest, List.tail_cons, Option.some.injEq] at h hdigit
      refine ⟨text.takeWhile (isDigitOf base) ++ ch '.' :: after.takeWhile (isDigitOf base), ?_, .inl (.mk
        (fun d hd => List.mem_takeWhile_imp hd) (fun d hd => List.mem_takeWhile_imp hd) ?_)⟩
      · rw [List.append_assoc, List.cons_append, ← h, List.takeWhile_append_dropWhile, ← hrest]
        exact hsplit
      · exact (Bool.or_eq_true_iff.mp hdigit).imp (fun h => (isDigits_takeWhile h).1) fun h => (isDigits_takeWhile h).1
  · split at h
    · rename_i hwhole
      obtain rfl := Option.some.inj h
      exact ⟨_, hsplit, .inr (isDigits_takeWhile hwhole)⟩
    · cases h

theorem exponentEnd_sound (letter : Char) (text : List UInt8) :
    ∃ e, text = e ++ exponentEnd letter text ∧ (e = [] ∨ IsExponent letter e) := by
  cases text with
  | nil => exact ⟨[], rfl, .inl rfl⟩
  | cons c text =>
    rw [exponentEnd]
    split
    · rename_i hsign
      split
      · rename_i hboth
        obtain ⟨hc, hdigits⟩ := Bool.and_eq_true_iff.mp hboth
        cases text with
        | nil => cases hsign
        | cons sign text =>
          refine ⟨c :: sign :: text.takeWhile (isDigitOf 10), ?_, .inr (.signed hc hsign (isDigits_takeWhile hdigits))⟩
          rw [List.tail_cons, List.cons_append, List.cons_append, List.takeWhile_append_dropWhile]
      · exact ⟨[], rfl, .inl rfl⟩
    · split
      · rename_i hboth
        obtain ⟨hc, hdigits⟩ := Bool.and_eq_true_iff.mp hboth
        refine ⟨c :: text.takeWhile (isDigitOf 10), ?_, .inr (.plain hc (isDigits_takeWhile hdigits))⟩
        rw [List.cons_append, List.takeWhile_append_dropWhile]
      · exact ⟨[], rfl, .inl rfl⟩

/-! ## Floating constants -/

theorem not_number_of_f (hc : isCase 'f' c = true ∨ isCase 'l' c = true) :
    isDigitOf 10 c = false ∧ isDot c = false ∧ isCase 'e' c = false := by
  rcases hc with hc | hc
  · exact cases_of_isCase (P := fun c => isDigitOf 10 c = false ∧ isDot c = false ∧ isCase 'e' c = false) hc
      (by decide) (by decide)
  · exact cases_of_isCase (P := fun c => isDigitOf 10 c = false ∧ isDot c = false ∧ isCase 'e' c = false) hc
      (by decide) (by decide)

theorem not_number_of_e (hc : isCase 'e' c = true) : isDigitOf 10 c = false ∧ isDot c = false :=
  cases_of_isCase (P := fun c => isDigitOf 10 c = false ∧ isDot c = false) hc (by decide) (by decide)

theorem not_number_of_p (hc : isCase 'p' c = true) : isDigitOf 16 c = false ∧ isDot c = false :=
  cases_of_isCase (P := fun c => isDigitOf 16 c = false ∧ isDot c = false) hc (by decide) (by decide)

theorem FloatingSuffix.head (h : FloatingSuffix s) : ∀ c ∈ s.head?, isCase 'f' c = true ∨ isCase 'l' c = true := by
  cases h with
  | none => simp
  | float hc => simpa using .inl hc
  | long hc => simpa using .inr hc

theorem IsExponent.head (h : IsExponent letter e) : ∃ c more, e = c :: more ∧ isCase letter c = true := by
  cases h with
  | plain he h => exact ⟨_, _, rfl, he⟩
  | signed he hsign h => exact ⟨_, _, rfl, he⟩

/-- A character that neither begins a prefix nor goes on with it nor with the digits. -/
structure Divides (c : UInt8) : Prop where
  digit : isDigitOf 10 c = false
  prefixes : isCase 'b' c = false ∧ isCase 'x' c = false
  suffix : isCase 'u' c = false ∧ isCase 'l' c = false

theorem divides_dot : Divides (ch '.') := ⟨by decide, by decide, by decide⟩

theorem divides_e (hc : isCase 'e' c = true) : Divides c :=
  cases_of_isCase hc ⟨by decide, by decide, by decide⟩ ⟨by decide, by decide, by decide⟩

section Divided

variable {before more : List UInt8}

/-- Digits in front of a character that divides are no prefix. -/
theorem second_of_divided (hbefore : ∀ d ∈ before, isDigitOf 10 d = true) (hc : Divides c)
    (hzero : (before ++ c :: more).head? = some (ch '0')) :
    ∀ d ∈ (before ++ c :: more).tail.head?, isCase 'b' d = false ∧ isCase 'x' d = false := by
  cases before with
  | nil =>
    obtain rfl : c = ch '0' := by simpa using hzero
    exact absurd hc.digit (by decide)
  | cons d before =>
    cases before with
    | nil => simpa using hc.prefixes
    | cons d' before =>
      intro x hx
      obtain rfl := Option.some.inj hx
      exact (letters_of_digit (hbefore d' (List.mem_cons_of_mem _ List.mem_cons_self))).1

theorem not_isHexPrefix_of_divided (hbefore : ∀ d ∈ before, isDigitOf 10 d = true) (hc : Divides c) :
    isHexPrefix (before ++ c :: more) = false := by
  rw [isHexPrefix]
  by_cases hzero : (before ++ c :: more).head? = some (ch '0')
  · rw [any_head_false fun d hd => (second_of_divided hbefore hc hzero d hd).2, Bool.and_false]
  · rw [decide_eq_false hzero, Bool.false_and]

/-- The digits that are dropped end in front of the character that divides. -/
theorem dropWhile_divided {p : UInt8 → Bool} (hc : p c = false) :
    ∃ d tail, (before ++ c :: more).dropWhile p = d :: tail ∧ (d ∈ before ∨ d = c) := by
  induction before with
  | nil => exact ⟨c, more, by simp [hc], .inr rfl⟩
  | cons b before ih =>
    rw [List.cons_append, List.dropWhile_cons]
    split
    · obtain ⟨d, tail, htail, hd⟩ := ih
      exact ⟨d, tail, htail, hd.imp_left (List.mem_cons_of_mem b)⟩
    · exact ⟨b, _, rfl, .inl List.mem_cons_self⟩

/-- Where the digits stop in front of something that is no suffix, the number is read again. -/
theorem getNumberValue_of_stop {t : Target} {value : BitVec 64} {outOfRange : Bool} {tail : List UInt8}
    (h : parseNum text = (value, outOfRange, c :: tail)) (hc : isCase 'u' c = false ∧ isCase 'l' c = false) :
    getNumberValue t text = floatValue text := by
  by_cases hlen : (c :: tail).length = text.length
  · simp only [getNumberValue, h, hlen, if_true]
  · simp only [getNumberValue, h, hlen, if_false, suffixLoop_float hc.1 hc.2]

theorem getNumberValue_of_divided {t : Target} (hbefore : ∀ d ∈ before, isDigitOf 10 d = true) (hc : Divides c) :
    getNumberValue t (before ++ c :: more) = floatValue (before ++ c :: more) := by
  have hstop : ∀ {base : ℕ}, base ≤ 10 → parseNum (before ++ c :: more) = strtoull base (before ++ c :: more) →
      getNumberValue t (before ++ c :: more) = floatValue (before ++ c :: more) := by
    intro base hbase hparse
    have hdigit : isDigitOf base c = false := not_isDigitOf_mono hbase hc.digit
    obtain ⟨d, tail, htail, hd⟩ : ∃ d tail, (before ++ c :: more).dropWhile (isDigitOf base) = d :: tail ∧
      (d ∈ before ∨ d = c) := dropWhile_divided hdigit
    rw [strtoull, htail] at hparse
    refine getNumberValue_of_stop hparse ?_
    rcases hd with hd | rfl
    · exact (letters_of_digit (hbefore d hd)).2
    · exact hc.suffix
  have hpre : isHexPrefix (before ++ c :: more) = false := not_isHexPrefix_of_divided hbefore hc
  by_cases hzero : (before ++ c :: more).head? = some (ch '0')
  · have hb : (before ++ c :: more).tail.head?.any (isCase 'b') = false :=
      any_head_false fun d hd => (second_of_divided hbefore hc hzero d hd).1
    have hoctal : parseNum (before ++ c :: more) = strtoull 8 (before ++ c :: more) := by
      simp only [parseNum, strtoullAny, hb, hpre, hzero, Bool.and_false, Bool.false_and, Bool.false_eq_true,
        if_false, if_true]
    exact hstop (by omega) hoctal
  · exact hstop le_rfl (parseNum_decimal hzero)

/-- `strtold` reads a decimal number whose digits stop there. -/
theorem strtoldEnd_of_divided (hbefore : ∀ d ∈ before, isDigitOf 10 d = true) (hc : Divides c)
    (hmantissa : mantissaEnd 10 (before ++ c :: more) = some rest) :
    strtoldEnd (before ++ c :: more) = exponentEnd 'e' rest := by
  simp only [strtoldEnd, not_isHexPrefix_of_divided hbefore hc, Bool.false_eq_true, if_false, hmantissa]

end Divided

/-! ## The result of a floating constant -/

theorem floatValue_of_suffix (hend : strtoldEnd text = s) (hlen : s.length < text.length) (hs : FloatingSuffix s) :
    ∃ ctype, floatValue text = .floating ctype := by
  have hne : ¬s.length = text.length := Nat.ne_of_lt hlen
  cases hs with
  | none => exact ⟨.double, by simp only [floatValue, hend, hne, if_false]⟩
  | float hc => exact ⟨.float, by simp only [floatValue, hend, hne, if_false, hc, if_true]⟩
  | long hc =>
    rename_i c
    have hf : isCase 'f' c = false := cases_of_isCase hc (by decide) (by decide)
    exact ⟨.longDouble, by simp only [floatValue, hend, hne, if_false, hf, hc, Bool.false_eq_true, if_true]⟩

theorem exponentEnd_append (he : e = [] ∨ IsExponent 'e' e) (hs : FloatingSuffix s) :
    exponentEnd 'e' (e ++ s) = s ∧ ∀ c ∈ (e ++ s).head?, isDigitOf 10 c = false := by
  have hdigit : ∀ c ∈ s.head?, isDigitOf 10 c = false := fun c hc => (not_number_of_f (hs.head c hc)).1
  rcases he with rfl | he
  · exact ⟨exponentEnd_none fun c hc => (not_number_of_f (hs.head c hc)).2.2, hdigit⟩
  · refine ⟨exponentEnd_exponent he hdigit, ?_⟩
    obtain ⟨c, more, rfl, hc⟩ := he.head
    simpa using (not_number_of_e hc).1

theorem length_lt_append (hm : m ≠ []) : s.length < (m ++ (e ++ s)).length := by
  have hpos := List.length_pos_of_ne_nil hm
  simp only [List.length_append]
  omega

theorem IsFraction.ne_nil (h : IsFraction base m) : m ≠ [] := by
  cases h
  exact List.append_ne_nil_of_right_ne_nil _ (List.cons_ne_nil _ _)

theorem getNumberValue_of_fraction {t : Target} (hm : IsFraction 10 m) (he : e = [] ∨ IsExponent 'e' e)
    (hs : FloatingSuffix s) : ∃ ctype, getNumberValue t (m ++ (e ++ s)) = .floating ctype := by
  obtain ⟨hexponent, hstop⟩ := exponentEnd_append he hs
  have hmantissa : mantissaEnd 10 (m ++ (e ++ s)) = some (e ++ s) := mantissaEnd_fraction (by omega) hm hstop
  have hlen : s.length < (m ++ (e ++ s)).length := length_lt_append hm.ne_nil
  cases hm with
  | mk hbefore hafter hdigit =>
    rw [List.append_assoc, List.cons_append] at hmantissa hlen ⊢
    have hend := strtoldEnd_of_divided hbefore divides_dot hmantissa
    rw [hexponent] at hend
    rw [getNumberValue_of_divided hbefore divides_dot]
    exact floatValue_of_suffix hend hlen hs

theorem getNumberValue_of_exponent {t : Target} (hm : IsDigits 10 m) (he : IsExponent 'e' e) (hs : FloatingSuffix s) :
    ∃ ctype, getNumberValue t (m ++ (e ++ s)) = .floating ctype := by
  obtain ⟨hexponent, -⟩ := exponentEnd_append (.inr he) hs
  obtain ⟨c, more, rfl, hc⟩ := he.head
  have hmantissa : mantissaEnd 10 (m ++ (c :: more ++ s)) = some (c :: more ++ s) :=
    mantissaEnd_digits hm (by simpa using not_number_of_e hc)
  have hlen : s.length < (m ++ (c :: more ++ s)).length := length_lt_append hm.1
  have hend := strtoldEnd_of_divided hm.2 (divides_e hc) hmantissa
  rw [hexponent] at hend
  rw [List.cons_append, getNumberValue_of_divided hm.2 (divides_e hc)]
  exact floatValue_of_suffix hend hlen hs

theorem not_suffix_of_p (hc : isCase 'p' c = true ∨ isCase 'x' c = true) :
    isCase 'u' c = false ∧ isCase 'l' c = false := by
  rcases hc with hc | hc
  · exact cases_of_isCase (P := fun c => isCase 'u' c = false ∧ isCase 'l' c = false) hc (by decide) (by decide)
  · exact cases_of_isCase (P := fun c => isCase 'u' c = false ∧ isCase 'l' c = false) hc (by decide) (by decide)

theorem not_digit_of_x (hc : isCase 'x' c = true) : isDigitOf 8 c = false :=
  cases_of_isCase hc (by decide) (by decide)

/-- The digits of a hexadecimal number stop at its point or its exponent. -/
theorem getNumberValue_of_hexDigits {t : Target} {x : UInt8} (hx : isCase 'x' x = true) (hm : IsDigits 16 m)
    (hdigit : isDigitOf 16 c = false) (hc : isCase 'u' c = false ∧ isCase 'l' c = false) :
    getNumberValue t (ch '0' :: x :: (m ++ c :: rest)) = floatValue (ch '0' :: x :: (m ++ c :: rest)) := by
  have hhead : (m ++ c :: rest).head?.any (isDigitOf 16) = true := hm.head
  have hparse := parseNum_hex hx hhead
  rw [strtoull_append hm.2 (by simpa using hdigit)] at hparse
  exact getNumberValue_of_stop hparse hc

theorem getNumberValue_of_hexPoint {t : Target} {x : UInt8} (hx : isCase 'x' x = true)
    (hdigit : isDigitOf 16 c = false) :
    getNumberValue t (ch '0' :: x :: c :: rest) = floatValue (ch '0' :: x :: c :: rest) := by
  have hparse : parseNum (ch '0' :: x :: c :: rest) = strtoull 8 (ch '0' :: x :: c :: rest) := by
    simp [parseNum, strtoullAny, not_b_of_x hx, hdigit]
  have hzero : isDigitOf 8 (ch '0') = true := by decide
  rw [strtoull, List.dropWhile_cons, if_pos hzero, List.dropWhile_cons, not_digit_of_x hx] at hparse
  exact getNumberValue_of_stop hparse (not_suffix_of_p (.inr hx))

theorem getNumberValue_of_hex {t : Target} {x : UInt8} (hx : isCase 'x' x = true) (hm : IsFraction 16 m ∨ IsDigits 16 m)
    (he : IsExponent 'p' e) (hs : FloatingSuffix s) :
    ∃ ctype, getNumberValue t (ch '0' :: x :: (m ++ (e ++ s))) = .floating ctype := by
  have hexponent : exponentEnd 'p' (e ++ s) = s :=
    exponentEnd_exponent he fun c hc => (not_number_of_f (hs.head c hc)).1
  obtain ⟨c, more, rfl, hc⟩ := he.head
  obtain ⟨hdigit, hdot⟩ := not_number_of_p hc
  have hmantissa : mantissaEnd 16 (m ++ (c :: more ++ s)) = some (c :: more ++ s) := by
    rcases hm with hm | hm
    · exact mantissaEnd_fraction le_rfl hm (by simpa using hdigit)
    · exact mantissaEnd_digits hm (by simpa using ⟨hdigit, hdot⟩)
  have hpre : isHexPrefix (ch '0' :: x :: (m ++ (c :: more ++ s))) = true := by simp [isHexPrefix, hx]
  have hend : strtoldEnd (ch '0' :: x :: (m ++ (c :: more ++ s))) = s := by
    simp only [strtoldEnd, hpre, if_true, List.drop_succ_cons, List.drop_zero, hmantissa, hexponent]
  have hlen : s.length < (ch '0' :: x :: (m ++ (c :: more ++ s))).length := by
    simp only [List.length_cons, List.length_append]
    omega
  have hagain : getNumberValue t (ch '0' :: x :: (m ++ (c :: more ++ s))) =
      floatValue (ch '0' :: x :: (m ++ (c :: more ++ s))) := by
    rcases hm with hm | hm
    · cases hm with
      | mk hbefore hafter hany =>
        rename_i before after
        rw [List.append_assoc, List.cons_append]
        cases before with
        | nil => exact getNumberValue_of_hexPoint hx not_digit_dot
        | cons d before =>
          exact getNumberValue_of_hexDigits hx ⟨List.cons_ne_nil d before, hbefore⟩ not_digit_dot divides_dot.suffix
    · exact getNumberValue_of_hexDigits hx hm hdigit (not_suffix_of_p (.inl hc))
  rw [hagain]
  exact floatValue_of_suffix hend hlen hs

/-- A floating constant is taken as one. -/
theorem getNumberValue_of_floating {t : Target} (h : IsFloating text) :
    ∃ ctype, getNumberValue t text = .floating ctype := by
  cases h with
  | fraction hm he hs => exact getNumberValue_of_fraction hm he hs
  | digits hm he hs => exact getNumberValue_of_exponent hm he hs
  | hex hx hm he hs => exact getNumberValue_of_hex hx hm he hs

/-! ## What is taken as a floating constant -/

theorem suffix_of_floatValue {ctype : FloatingType} (h : floatValue text = .floating ctype) :
    FloatingSuffix (strtoldEnd text) ∧ strtoldEnd text ≠ text := by
  rw [floatValue] at h
  split at h
  · cases h
  · rename_i hlen
    refine ⟨?_, fun heq => hlen (by rw [heq])⟩
    cases hend : strtoldEnd text with
    | nil => exact .none
    | cons c rest =>
      rw [hend] at h
      cases rest with
      | cons d rest => cases h
      | nil =>
        cases hf : isCase 'f' c
        · cases hl : isCase 'l' c
          · simp [hf, hl] at h
          · exact .long hl
        · exact .float hf

theorem shape_of_floatValue {ctype : FloatingType} (h : floatValue text = .floating ctype) :
    IsFloating text ∨ (∃ m s, IsDigits 10 m ∧ FloatingSuffix s ∧ text = m ++ s) ∨
      ∃ x m s, isCase 'x' x = true ∧ (IsFraction 16 m ∨ IsDigits 16 m) ∧ FloatingSuffix s ∧
        text = ch '0' :: x :: (m ++ s) := by
  obtain ⟨hs, hne⟩ := suffix_of_floatValue h
  have hdecimal : isHexPrefix text = false ∨ mantissaEnd 16 (text.drop 2) = none →
      IsFloating text ∨ (∃ m s, IsDigits 10 m ∧ FloatingSuffix s ∧ text = m ++ s) := by
    intro hno
    have hnone : (if isHexPrefix text then mantissaEnd 16 (text.drop 2) else none) = none := by
      rcases hno with hno | hno
      · rw [hno]
        rfl
      · rw [hno, ite_self]
    simp only [strtoldEnd, hnone] at hs hne
    cases hmantissa : mantissaEnd 10 text with
    | none => simp [hmantissa] at hne
    | some rest =>
      simp only [hmantissa] at hs
      obtain ⟨m, htext, hm⟩ := mantissaEnd_sound hmantissa
      obtain ⟨e, hrest, he⟩ := exponentEnd_sound 'e' rest
      rw [hrest] at htext
      rcases hm with hm | hm
      · exact .inl (htext ▸ .fraction hm he hs)
      · rcases he with rfl | he
        · exact .inr ⟨m, _, hm, hs, htext⟩
        · exact .inl (htext ▸ .digits hm he hs)
  cases hpre : isHexPrefix text with
  | false => exact (hdecimal (.inl hpre)).imp_right .inl
  | true =>
    cases hmantissa : mantissaEnd 16 (text.drop 2) with
    | none => exact (hdecimal (.inr hmantissa)).imp_right .inl
    | some rest =>
      obtain ⟨x, body, hx, rfl⟩ := eq_of_prefix hpre
      simp only [strtoldEnd, hpre, if_true, hmantissa] at hs
      obtain ⟨m, hbody, hm⟩ := mantissaEnd_sound hmantissa
      obtain ⟨e, hrest, he⟩ := exponentEnd_sound 'p' rest
      rw [List.drop_succ_cons, List.drop_succ_cons, List.drop_zero] at hbody
      rw [hrest] at hbody
      rcases he with rfl | he
      · exact .inr (.inr ⟨x, m, _, hx, hm, hs, by rw [hbody]; rfl⟩)
      · exact .inl (hbody ▸ .hex hx hm he hs)

end Floating

/-! ## All numbers -/

section Numbers

variable {t : Target} {text : List UInt8}

theorem floatValue_cases (text : List UInt8) :
    floatValue text = .error .notValid ∨ ∃ ctype, floatValue text = .floating ctype := by
  rw [floatValue]
  split
  · exact .inl rfl
  · split
    · exact .inr ⟨_, rfl⟩
    · split
      · exact .inr ⟨_, rfl⟩
      · split
        · exact .inr ⟨_, rfl⟩
        · exact .inl rfl
    · exact .inl rfl

/-- What is read as a floating number is a constant or misspelled. -/
theorem spelling_of_floatValue (h : floatValue text ≠ .error .notValid) :
    IsInteger text ∨ IsFloating text ∨ IsMisspelled text := by
  obtain ⟨ctype, hfloat⟩ := (floatValue_cases text).resolve_left h
  obtain hfloating | ⟨m, s, hm, hs, rfl⟩ | ⟨x, m, s, hx, hm | hm, hs, rfl⟩ := shape_of_floatValue hfloat
  · exact .inr (.inl hfloating)
  · by_cases hinteger : IsInteger (m ++ s)
    · exact .inl hinteger
    · exact .inr (.inr (.decimal hm hs hinteger))
  · exact .inr (.inr (.hex hx hm hs))
  · -- an `f` behind hexadecimal digits is one of them
    have hinteger : ∀ {digits suffix : List UInt8} {size : ℕ}, IsDigits 16 digits → LongSuffix suffix size →
        IsInteger (ch '0' :: x :: digits ++ suffix) :=
      fun hdigits hsuffix => ⟨16, false, _, _, .mk (.hex hx hdigits) (.signed hsuffix)⟩
    refine .inl ?_
    cases hs with
    | none => exact hinteger hm .none
    | long hc => exact hinteger hm (.long hc)
    | float hc =>
      rename_i c
      have hf : isDigitOf 16 c = true := cases_of_isCase hc (by decide) (by decide)
      have hall : ∀ d ∈ m ++ [c], isDigitOf 16 d = true := List.forall_mem_append.mpr ⟨hm.2, by simpa using hf⟩
      have hdigits : IsDigits 16 (m ++ [c]) := ⟨by simp, hall⟩
      simpa using hinteger hdigits .none

/-- What is no error is a constant or misspelled. -/
theorem spelling_of_getNumberValue (h : getNumberValue t text ≠ .error .notValid) :
    IsInteger text ∨ IsFloating text ∨ IsMisspelled text := by
  cases hparse : parseNum text with
  | mk value found =>
    obtain ⟨outOfRange, rest⟩ := found
    by_cases hlen : rest.length = text.length
    · simp only [getNumberValue, hparse, hlen, if_true] at h
      exact spelling_of_floatValue h
    · cases hloop : suffixLoop rest false 0 with
      | noInteger => simp only [getNumberValue, hparse, hlen, if_false, hloop, ne_eq, not_true_eq_false] at h
      | float =>
        simp only [getNumberValue, hparse, hlen, if_false, hloop] at h
        exact spelling_of_floatValue h
      | integer u size =>
        have hsuffix := suffix_of_suffixLoop hloop
        exact (isInteger_of_parseNum hparse hlen hsuffix).imp_right .inr

/-- Unless the text is misspelled, integer constants get their value and the first type that represents
it, `unsigned long long` behind the list of C99, floating constants are taken as such, and all else is
an error. -/
theorem readsRight_of_not_misspelled (t : Target) (text : List UInt8) (htext : ¬IsMisspelled text) :
    ReadsRight t [.integer .longLong .unsigned] text := by
  have hspelling : getNumberValue t text ≠ .error .notValid → IsInteger text ∨ IsFloating text := fun h =>
    (spelling_of_getNumberValue h).imp_right fun h => h.resolve_right htext
  -- the type and the value of an integer are those of the constant
  have hinteger : ∀ ctype value, (∃ warnings, getNumberValue t text = .integer ctype value warnings) ↔
      ∃ base unsigned size, IntegerConstant base unsigned size value.toNat text ∧
        firstType t [.integer .longLong .unsigned] base unsigned size value.toNat = some ctype := by
    intro ctype value
    constructor
    · rintro ⟨warnings, hrun⟩
      obtain ⟨base, u, size, n, hconstant⟩ | hfloating := hspelling (by simp [hrun])
      · obtain ⟨-, hrun'⟩ | ⟨ctype', warnings', htype, hlt, hrun'⟩ := getNumberValue_of_integer t hconstant
        · rw [hrun] at hrun'
          cases hrun'
        · rw [hrun] at hrun'
          obtain ⟨rfl, rfl, -⟩ := NumberValue.integer.inj hrun'
          have hnat : (BitVec.ofNat 64 n).toNat = n := by rw [BitVec.toNat_ofNat, Nat.mod_eq_of_lt hlt]
          rw [hnat]
          exact ⟨base, u, size, hconstant, htype⟩
      · obtain ⟨ctype', hrun'⟩ := getNumberValue_of_floating (t := t) hfloating
        rw [hrun] at hrun'
        cases hrun'
    · rintro ⟨base, u, size, hconstant, htype⟩
      obtain ⟨hnone, -⟩ | ⟨ctype', warnings, htype', -, hrun⟩ := getNumberValue_of_integer t hconstant
      · rw [htype] at hnone
        cases hnone
      · rw [htype] at htype'
        obtain rfl := Option.some.inj htype'
        rw [BitVec.ofNat_toNat, BitVec.setWidth_eq] at hrun
        exact ⟨warnings, hrun⟩
  have hfloating : (∃ ctype, getNumberValue t text = .floating ctype) ↔ IsFloating text := by
    refine ⟨?_, getNumberValue_of_floating⟩
    rintro ⟨ctype, hrun⟩
    obtain ⟨base, u, size, n, hconstant⟩ | hfloating := hspelling (by simp [hrun])
    · obtain ⟨-, hrun'⟩ | ⟨ctype', warnings, -, -, hrun'⟩ := getNumberValue_of_integer t hconstant
      · rw [hrun] at hrun'
        cases hrun'
      · rw [hrun] at hrun'
        cases hrun'
    · exact hfloating
  refine ⟨hinteger, hfloating, ?_, ?_⟩
  · rintro ⟨e, hrun⟩
    refine ⟨fun hfloat => ?_, fun base u size n hconstant => ?_⟩
    · obtain ⟨ctype, hrun'⟩ := hfloating.mpr hfloat
      rw [hrun] at hrun'
      cases hrun'
    · obtain ⟨hnone, -⟩ | ⟨ctype, warnings, -, -, hrun'⟩ := getNumberValue_of_integer t hconstant
      · exact hnone
      · rw [hrun] at hrun'
        cases hrun'
  · rintro ⟨hfloat, hnone⟩
    cases hrun : getNumberValue t text with
    | integer ctype value warnings =>
      obtain ⟨base, u, size, hconstant, htype⟩ := (hinteger ctype value).mp ⟨warnings, hrun⟩
      rw [hnone base u size _ hconstant] at htype
      cases htype
    | floating ctype => exact absurd (hfloating.mp ⟨ctype, hrun⟩) hfloat
    | error e => exact ⟨e, rfl⟩

/-- `0x1Ful`. -/
def hexUl : List UInt8 := bytes "0x1Ful"

theorem readsRight_hexUl : ReadsRight ⟨false⟩ [.integer .longLong .unsigned] hexUl := by
  refine readsRight_of_not_misspelled ⟨false⟩ hexUl fun h => ?_
  have hdigits : IntegerDigits 16 [ch '0', ch 'x', ch '1', ch 'F'] 31 :=
    .hex rfl ⟨by decide, List.all_eq_true.1 rfl⟩
  have hsuffix : IntegerSuffix [ch 'u', ch 'l'] true 1 := .before rfl (.long rfl)
  have hinteger : IsInteger hexUl := ⟨16, true, 1, 31, .mk hdigits hsuffix⟩
  generalize htext : hexUl = text at h
  cases h with
  | binary hb hs =>
    rename_i b s u size
    have hsecond : hexUl.tail.head? = some b := by rw [htext]; rfl
    have hx : hexUl.tail.head? = some (ch 'x') := by decide
    rw [hx] at hsecond
    rw [← Option.some.inj hsecond] at hb
    exact absurd hb (by decide)
  | decimal hm hs hnot => exact hnot (htext ▸ hinteger)
  | hex hx hm hs =>
    have hdot : ch '.' ∈ hexUl := by
      rw [htext]
      cases hm
      simp
    exact absurd hdot (by decide)

/-- `9223372036854775808`, for which C99 lists no type. -/
def aboveLongLong : List UInt8 := bytes "9223372036854775808"

theorem not_readsRight_aboveLongLong : ¬ReadsRight ⟨false⟩ [] aboveLongLong := by
  intro h
  have hrun : ∃ warnings, getNumberValue ⟨false⟩ aboveLongLong =
    .integer (.integer .longLong .unsigned) (BitVec.ofNat 64 (2 ^ 63)) warnings := ⟨_, rfl⟩
  obtain ⟨base, u, size, hconstant, htype⟩ := (h.integer _ _).mp hrun
  generalize htext : aboveLongLong = text at hconstant
  cases hconstant with
  | mk hdigits hsuffix =>
    rename_i digits suffix
    obtain ⟨hparse, -, hbase⟩ := parseNum_of_digits hdigits hsuffix
    rw [← htext] at hparse hbase
    obtain rfl : base = 10 := hbase.mpr (by decide)
    have hend : (parseNum aboveLongLong).2.2 = [] := by decide
    rw [hparse] at hend
    have hempty : suffix = [] := hend
    have hloop := suffixLoop_of_suffix hsuffix
    rw [hempty, suffixLoop_nil] at hloop
    obtain ⟨rfl, rfl⟩ := Suffix.integer.inj hloop
    exact absurd htype (by decide)

end Numbers

end Sparse.NumberLiterals
