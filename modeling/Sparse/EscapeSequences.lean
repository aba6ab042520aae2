import Mathlib.Algebra.Order.Ring.Int
import Sparse.StringRoundTrip

/-!
# Escape sequences

The characters and the escape sequences of a literal, with the values that they have in C,
beside what `parse_escape` reads.
-/

namespace Sparse.Tokenizer

/-! ## The elements of a literal -/

def isOctal (c : UInt8) : Bool := ch '0' ≤ c && c ≤ ch '7'

/-- The number that the digits stand for in that base. -/
def digitsValue (base : ℕ) (digits : List UInt8) : ℕ :=
  digits.foldl (fun v d => v * base + hexval d) 0

/-- A character or an escape sequence. A backslash in front of a character without a meaning
stands for the character. -/
inductive BodyElement
  | plain (c : UInt8) (h : c ≠ backslash)
  | simple (c : UInt8) (h : c ≠ ch 'x' ∧ isOctal c = false)
  | octal (digits : List UInt8) (h : 1 ≤ digits.length ∧ digits.length ≤ 3 ∧ ∀ d ∈ digits, isOctal d)
  | hex (digits : List UInt8) (h : digits ≠ [] ∧ ∀ d ∈ digits, isHex d)

namespace BodyElement

def text : BodyElement → List UInt8
  | plain c _ => [c]
  | simple c _ => [backslash, c]
  | octal digits _ => backslash :: digits
  | hex digits _ => backslash :: ch 'x' :: digits

/-- A `char`, which is signed. -/
def charValue (c : UInt8) : ℤ := if c < 128 then c.toNat else (c.toNat : ℤ) - 256

/-- The letters of simple escape sequences, with `\e`. -/
def letterValue (c : UInt8) : ℤ :=
  if c = ch 'a' then 7
  else if c = ch 'b' then 8
  else if c = ch 't' then 9
  else if c = ch 'n' then 10
  else if c = ch 'v' then 11
  else if c = ch 'f' then 12
  else if c = ch 'r' then 13
  else if c = ch 'e' then 27
  else charValue c

def value : BodyElement → ℤ
  | plain c _ => charValue c
  | simple c _ => letterValue c
  | octal digits _ => digitsValue 8 digits
  | hex digits _ => digitsValue 16 digits

/-- What is behind an escape sequence does not go on with its digits. -/
def Ends : BodyElement → List UInt8 → Prop
  | octal digits _, next => digits.length < 3 → ∀ d ∈ next.head?, isOctal d = false
  | hex _ _, next => ∀ d ∈ next.head?, isHex d = false
  | _, _ => True

end BodyElement

/-- The characters up to `end`; the terminator of a long character constant is one of them. -/
def bodyText (body : List BodyElement) : List UInt8 := body.flatMap BodyElement.text

/-- Every escape sequence of the body has all the digits behind it. -/
def IsElements (body : List BodyElement) : Prop :=
  ∀ before e after, body = before ++ e :: after → e.Ends (bodyText after)

/-- `parse_escape` reads the element in front of the text and no more. -/
def Reads (bits : ℕ) (e : BodyElement) (next : List UInt8) : Prop :=
  ((parseEscape bits (e.text ++ next)).1 : ℤ) = e.value % 2 ^ bits ∧
    (parseEscape bits (e.text ++ next)).2.1 = next

/-- At each position `parse_escape` reads one element, and the body is decoded to one value
for each element. -/
structure FollowsC (bits : ℕ) (body : List BodyElement) : Prop where
  position : ∀ before e after, body = before ++ e :: after → Reads bits e (bodyText after)
  decoded : decode bits (bodyText body) = body.map fun e => UInt8.ofNat (e.value % 2 ^ bits).toNat

/-- Octal escapes have three digits or end the text, hexadecimal escapes end it, and a plain
character has the sign bit only where it is not cut off. -/
def Spared (bits : ℕ) : BodyElement → List UInt8 → Prop
  | .plain c _, _ => c < 128 ∨ bits = 32
  | .simple _ _, _ => True
  | .octal digits _, next => digits.length = 3 ∨ next = []
  | .hex _ _, next => next = []

/-! ## Digits -/

theorem toNat_le_of_range {a b d : UInt8} (h : (a ≤ d && d ≤ b) = true) : a.toNat ≤ d.toNat ∧ d.toNat ≤ b.toNat := by
  simpa [UInt8.le_iff_toNat_le] using h

theorem hexval_of_isHex (d : UInt8) (h : isHex d = true) : hexval d < 16 := by
  unfold hexval
  split_ifs with hdigit hlower hupper
  · have hle : d.toNat ≤ 57 := (toNat_le_of_range hdigit).2
    omega
  · have hle : d.toNat ≤ 102 := (toNat_le_of_range hlower).2
    omega
  · have hle : d.toNat ≤ 70 := (toNat_le_of_range hupper).2
    omega
  · simp [isHex, hdigit, hlower, hupper] at h

theorem hexval_of_not_isHex (d : UInt8) (h : isHex d = false) : hexval d = 256 := by
  simp only [isHex, Bool.or_eq_false_iff] at h
  simp only [hexval, h.1.1, h.1.2, h.2, Bool.false_eq_true, if_false]

theorem hexval_of_isOctal (d : UInt8) (h : isOctal d = true) : hexval d = d.toNat - 48 ∧ hexval d < 8 := by
  have hrange : 48 ≤ d.toNat ∧ d.toNat ≤ 55 := toNat_le_of_range h
  have hdigit : isDigit d = true := by
    simp only [isDigit, Bool.and_eq_true, decide_eq_true_eq, UInt8.le_iff_toNat_le]
    exact ⟨hrange.1, hrange.2.trans (by decide)⟩
  rw [hexval, if_pos hdigit]
  exact ⟨rfl, by omega⟩

/-- Digits may be read from the residue of what is in front of them. -/
theorem foldl_digits_mod (base m v : ℕ) (digits : List UInt8) :
    digits.foldl (fun v d => v * base + hexval d) (v % m) % m =
      digits.foldl (fun v d => v * base + hexval d) v % m := by
  induction digits generalizing v with
  | nil => exact Nat.mod_mod v m
  | cons d digits ih =>
    have hstep : (v % m * base + hexval d) % m = (v * base + hexval d) % m := by
      rw [Nat.add_mod, Nat.mul_mod, Nat.mod_mod, ← Nat.mul_mod, ← Nat.add_mod]
    rw [List.foldl_cons, List.foldl_cons, ← ih, hstep, ih]

/-- The loop reads the digits and the character behind them. -/
theorem hexLoop_digits {digits next : List UInt8} (hdigits : ∀ d ∈ digits, isHex d)
    (hnext : ∀ d ∈ next.head?, isHex d = false) (v mask : ℕ) (warnings : List String) :
    (hexLoop (digits ++ next) v mask warnings).1 % 2 ^ 32 =
        digits.foldl (fun v d => v * 16 + hexval d) v % 2 ^ 32 ∧
      (hexLoop (digits ++ next) v mask warnings).2.1 = next.tail := by
  induction digits generalizing v mask warnings with
  | nil =>
    cases next with
    | nil => exact ⟨rfl, rfl⟩
    | cons d next =>
      have hstop : 16 < hexval d := by rw [hexval_of_not_isHex d (hnext d rfl)]; decide
      simp only [List.nil_append, hexLoop, if_pos hstop, List.foldl_nil, List.tail_cons, and_self]
  | cons d digits ih =>
    have hgo : ¬16 < hexval d := Nat.not_lt.2 (hexval_of_isHex d (hdigits d List.mem_cons_self)).le
    have hrest := ih fun d hd => hdigits d (List.mem_cons_of_mem _ hd)
    have hvalue (mask : ℕ) (warnings : List String) :
        (hexLoop (digits ++ next) ((v * 16 + hexval d) % 2 ^ 32) mask warnings).1 % 2 ^ 32 =
            (d :: digits).foldl (fun v d => v * 16 + hexval d) v % 2 ^ 32 ∧
          (hexLoop (digits ++ next) ((v * 16 + hexval d) % 2 ^ 32) mask warnings).2.1 = next.tail := by
      obtain ⟨hval, htail⟩ := hrest ((v * 16 + hexval d) % 2 ^ 32) mask warnings
      exact ⟨by rw [hval, foldl_digits_mod, List.foldl_cons], htail⟩
    simp only [List.cons_append, hexLoop, if_neg hgo]
    split
    · exact hvalue 0 _
    · exact hvalue mask warnings

/-- The loop reads at most that many digits, and where it finds fewer the character behind
them too. -/
theorem octalLoop_digits {digits next : List UInt8} (n : ℕ) (hdigits : ∀ d ∈ digits, isOctal d)
    (hlen : digits.length ≤ n) (hnext : digits.length < n → ∀ d ∈ next.head?, isOctal d = false) (v : ℕ) :
    octalLoop n (digits ++ next) v =
      (digits.foldl (fun v d => v * 8 + hexval d) v, if digits.length < n then next.tail else next) := by
  induction digits generalizing n v with
  | nil =>
    cases n with
    | zero => rfl
    | succ n =>
      cases next with
      | nil => rfl
      | cons d next =>
        have hstop : (ch '0' ≤ d && d ≤ ch '7') = false := hnext (Nat.succ_pos n) d rfl
        simp only [List.nil_append, octalLoop, hstop, Bool.false_eq_true, if_false, List.foldl_nil, List.length_nil,
          Nat.succ_pos, if_true, List.tail_cons]
  | cons d digits ih =>
    obtain ⟨n, rfl⟩ : ∃ m, n = m + 1 := Nat.exists_eq_add_of_le' (Nat.le_trans (Nat.le_add_left 1 _) hlen)
    have hd : (ch '0' ≤ d && d ≤ ch '7') = true := hdigits d List.mem_cons_self
    have hval := (hexval_of_isOctal d hd).1
    have hrest := ih n (fun d hd => hdigits d (List.mem_cons_of_mem _ hd)) (Nat.le_of_succ_le_succ hlen)
      (fun hlt => hnext (Nat.succ_lt_succ hlt)) (v * 8 + hexval d)
    rw [List.cons_append, octalLoop, if_pos hd, ← hval, hrest, List.foldl_cons]
    simp only [List.length_cons, Nat.add_lt_add_iff_right]

/-! ## One element -/

variable {bits : ℕ}

theorem charToUnsigned_eq (c : UInt8) : (charToUnsigned c : ℤ) = BodyElement.charValue c % 2 ^ 32 := by
  have hlt := c.toNat_lt
  unfold charToUnsigned BodyElement.charValue
  split_ifs
  · omega
  · omega

theorem pow_dvd_of_le {bits : ℕ} (hbits : bits ≤ 32) : (2 : ℤ) ^ bits ∣ 2 ^ 32 := pow_dvd_pow 2 hbits

theorem charToUnsigned_mod (hbits : bits ≤ 32) (c : UInt8) :
    ((charToUnsigned c % 2 ^ bits : ℕ) : ℤ) = BodyElement.charValue c % 2 ^ bits := by
  rw [Int.natCast_mod, charToUnsigned_eq]
  push_cast
  exact Int.emod_emod_of_dvd _ (pow_dvd_of_le hbits)

/-- The value of a plain character is not reduced. -/
theorem charToUnsigned_eq_iff (hlow : 8 ≤ bits) (hhigh : bits ≤ 32) (c : UInt8) :
    (charToUnsigned c : ℤ) = BodyElement.charValue c % 2 ^ bits ↔ c < 128 ∨ bits = 32 := by
  have hbyte : (2 : ℤ) ^ 8 ≤ 2 ^ bits := pow_le_pow_right₀ (by decide) hlow
  have hlt := c.toNat_lt
  rw [UInt8.lt_iff_toNat_lt, show (128 : UInt8).toNat = 128 from rfl]
  constructor
  · intro heq
    by_contra hnot
    obtain ⟨hc, hne⟩ := not_or.1 hnot
    have hhalf : (2 : ℤ) ^ bits ≤ 2 ^ 31 := pow_le_pow_right₀ (by decide) (by omega)
    have hmod := Int.emod_lt_of_pos (BodyElement.charValue c) (Int.lt_of_lt_of_le (by decide) hbyte)
    have hval : charToUnsigned c = 2 ^ 32 - 256 + c.toNat := if_neg (by rwa [UInt8.lt_iff_toNat_lt])
    rw [← heq, hval] at hmod
    push_cast at hmod
    omega
  · rintro (hc | rfl)
    · have hsmall : c < 128 := hc
      rw [charToUnsigned, if_pos hsmall, BodyElement.charValue, if_pos hsmall, Int.emod_eq_of_lt (by omega) (by omega)]
    · exact charToUnsigned_eq c

theorem simpleEscape_letterValue (c : UInt8) (v : ℕ) (h : simpleEscape c = some v) :
    (v : ℤ) = BodyElement.letterValue c := by
  unfold simpleEscape at h
  unfold BodyElement.letterValue
  split_ifs at h ⊢ <;> cases h <;> rfl

theorem letterValue_of_none {c : UInt8} (h : simpleEscape c = none) :
    BodyElement.letterValue c = BodyElement.charValue c := by
  unfold simpleEscape at h
  unfold BodyElement.letterValue
  split_ifs at h ⊢
  rfl

theorem simpleEscape_of_isOctal (c : UInt8) (h : isOctal c = true) : simpleEscape c = none ∧ c ≠ ch 'x' := by
  have hne : ∀ d, isOctal d = false → c ≠ d := by
    rintro d hd rfl
    rw [hd] at h
    cases h
  refine ⟨?_, hne _ (by decide)⟩
  simp only [simpleEscape, hne _ (show isOctal (ch 'a') = false by decide),
    hne _ (show isOctal (ch 'b') = false by decide), hne _ (show isOctal (ch 't') = false by decide),
    hne _ (show isOctal (ch 'n') = false by decide), hne _ (show isOctal (ch 'v') = false by decide),
    hne _ (show isOctal (ch 'f') = false by decide), hne _ (show isOctal (ch 'r') = false by decide),
    hne _ (show isOctal (ch 'e') = false by decide), if_false]

theorem tail_eq_self_iff {next : List UInt8} : next.tail = next ↔ next = [] := by
  cases next with
  | nil => exact ⟨fun _ => rfl, fun _ => rfl⟩
  | cons c next =>
    refine iff_of_false (fun h => ?_) (List.cons_ne_nil c next)
    have hlen := congrArg List.length h
    rw [List.tail_cons, List.length_cons] at hlen
    omega

theorem reads_plain (hlow : 8 ≤ bits) (hhigh : bits ≤ 32) {c : UInt8} (hc : c ≠ backslash) (next : List UInt8) :
    Reads bits (.plain c hc) next ↔ Spared bits (.plain c hc) next := by
  have hparse : parseEscape bits (c :: next) = (charToUnsigned c, next, []) := if_pos hc
  rw [Reads, BodyElement.text, List.singleton_append, hparse]
  exact (and_iff_left rfl).trans (charToUnsigned_eq_iff hlow hhigh c)

theorem reads_simple (hhigh : bits ≤ 32) {c : UInt8} (hc : c ≠ ch 'x' ∧ isOctal c = false) (next : List UInt8) :
    Reads bits (.simple c hc) next := by
  have hoctal : (ch '0' ≤ c && c ≤ ch '7') = false := hc.2
  simp only [Reads, BodyElement.text, List.cons_append, List.nil_append, parseEscape, ne_eq, not_true_eq_false,
    if_false, BodyElement.value]
  cases hsimple : simpleEscape c with
  | some v =>
    refine ⟨?_, rfl⟩
    rw [← simpleEscape_letterValue c v hsimple]
    push_cast
    rfl
  | none =>
    simp only [hc.1, hoctal, Bool.false_eq_true, if_false, and_true]
    rw [letterValue_of_none hsimple]
    exact charToUnsigned_mod hhigh c

theorem reads_octal {digits next : List UInt8}
    (h : 1 ≤ digits.length ∧ digits.length ≤ 3 ∧ ∀ d ∈ digits, isOctal d)
    (hends : (BodyElement.octal digits h).Ends next) :
    Reads bits (.octal digits h) next ↔ Spared bits (.octal digits h) next := by
  obtain ⟨hpos, hlen, hdigits⟩ := h
  obtain ⟨d, digits, rfl⟩ := List.exists_cons_of_length_pos hpos
  rw [List.length_cons] at hlen
  have hd := hdigits d List.mem_cons_self
  have hdigit : (ch '0' ≤ d && d ≤ ch '7') = true := hd
  have hloop := octalLoop_digits 2 (fun d hd => hdigits d (List.mem_cons_of_mem _ hd)) (by omega)
    (fun hlt => hends (Nat.succ_lt_succ hlt)) (d.toNat - 48)
  have hval : digitsValue 8 (d :: digits) = digits.foldl (fun v d => v * 8 + hexval d) (d.toNat - 48) := by
    rw [digitsValue, List.foldl_cons, Nat.zero_mul, Nat.zero_add, (hexval_of_isOctal d hd).1]
  simp only [Reads, BodyElement.text, List.cons_append, parseEscape, ne_eq, not_true_eq_false, if_false,
    (simpleEscape_of_isOctal d hd).1, (simpleEscape_of_isOctal d hd).2, hdigit, if_true, hloop, BodyElement.value,
    hval, Spared, List.length_cons]
  push_cast
  rw [and_iff_right rfl]
  split
  next hlt =>
    rw [tail_eq_self_iff, or_iff_right (by omega)]
  next hlt =>
    exact ⟨fun _ => .inl (by omega), fun _ => rfl⟩

theorem reads_hex (hhigh : bits ≤ 32) {digits next : List UInt8} (h : digits ≠ [] ∧ ∀ d ∈ digits, isHex d)
    (hends : (BodyElement.hex digits h).Ends next) :
    Reads bits (.hex digits h) next ↔ Spared bits (.hex digits h) next := by
  obtain ⟨hval, htail⟩ := hexLoop_digits h.2 hends 0 (2 ^ 32 - 2 ^ (bits - 4)) []
  have hsimple : simpleEscape (ch 'x') = none := rfl
  have hmod : (hexLoop (digits ++ next) 0 (2 ^ 32 - 2 ^ (bits - 4)) []).1 % 2 ^ bits =
      digitsValue 16 digits % 2 ^ bits := by
    have hdvd : 2 ^ bits ∣ 2 ^ 32 := pow_dvd_pow 2 hhigh
    rw [← Nat.mod_mod_of_dvd _ hdvd, hval, Nat.mod_mod_of_dvd _ hdvd]
    rfl
  simp only [Reads, BodyElement.text, List.cons_append, parseEscape, ne_eq, not_true_eq_false, if_false, hsimple,
    if_true, htail, hmod, BodyElement.value, Spared, tail_eq_self_iff]
  push_cast
  exact and_iff_right rfl

/-- `parse_escape` reads exactly the elements that are spared. -/
theorem reads_iff (hlow : 8 ≤ bits) (hhigh : bits ≤ 32) {e : BodyElement} {next : List UInt8}
    (hends : e.Ends next) : Reads bits e next ↔ Spared bits e next := by
  cases e with
  | plain c h => exact reads_plain hlow hhigh h next
  | simple c h => exact iff_of_true (reads_simple hhigh h next) trivial
  | octal digits h => exact reads_octal h hends
  | hex digits h => exact reads_hex hhigh h hends

/-! ## Bodies -/

theorem BodyElement.text_ne_nil (e : BodyElement) : e.text ≠ [] := by
  cases e with
  | plain c h => exact List.cons_ne_nil _ _
  | simple c h => exact List.cons_ne_nil _ _
  | octal digits h => exact List.cons_ne_nil _ _
  | hex digits h => exact List.cons_ne_nil _ _

/-- An element that is read gives one value. -/
theorem Reads.decode {e : BodyElement} {next : List UInt8} (h : Reads bits e next) :
    decode bits (e.text ++ next) = UInt8.ofNat (e.value % 2 ^ bits).toNat :: decode bits next := by
  obtain ⟨hval, hnext⟩ := h
  obtain ⟨c, text, htext⟩ := List.exists_cons_of_ne_nil e.text_ne_nil
  rw [htext, List.cons_append] at hval hnext ⊢
  rw [decode_cons, hnext, ← hval, Int.toNat_natCast]

/-- What holds at all positions of a list holds at the first one and at those behind it. -/
theorem forall_position_cons {α : Type} {P : α → List α → Prop} {a : α} {as : List α} :
    (∀ before e after, a :: as = before ++ e :: after → P e after) ↔
      P a as ∧ ∀ before e after, as = before ++ e :: after → P e after := by
  constructor
  · intro h
    exact ⟨h [] a as rfl, fun before e after heq => h (a :: before) e after (by rw [heq, List.cons_append])⟩
  · rintro ⟨hfirst, hrest⟩ before e after heq
    cases before with
    | nil =>
      obtain ⟨rfl, rfl⟩ := List.cons.inj heq
      exact hfirst
    | cons b before => exact hrest before e after (List.cons.inj heq).2

theorem forall_position_nil {α : Type} {P : α → List α → Prop} :
    ∀ before e after, ([] : List α) = before ++ e :: after → P e after := by
  intro before e after heq
  exact absurd heq.symm (List.append_ne_nil_of_right_ne_nil _ (List.cons_ne_nil _ _))

theorem decode_bodyText {body : List BodyElement}
    (h : ∀ before e after, body = before ++ e :: after → Reads bits e (bodyText after)) :
    decode bits (bodyText body) = body.map fun e => UInt8.ofNat (e.value % 2 ^ bits).toNat := by
  induction body with
  | nil => rfl
  | cons e body ih =>
    obtain ⟨hfirst, hrest⟩ := forall_position_cons.1 h
    rw [bodyText, List.flatMap_cons, List.map_cons, ← ih hrest]
    exact hfirst.decode

/-- A body is read and decoded as in C exactly if no escape with a variable number of digits
has a character behind it to take away, and no plain character is left unreduced. -/
theorem followsC_iff (hlow : 8 ≤ bits) (hhigh : bits ≤ 32) {body : List BodyElement} (hbody : IsElements body) :
    FollowsC bits body ↔ ∀ before e after, body = before ++ e :: after → Spared bits e (bodyText after) := by
  constructor
  · intro h before e after heq
    exact (reads_iff hlow hhigh (hbody before e after heq)).1 (h.position before e after heq)
  · intro h
    have hreads : ∀ before e after, body = before ++ e :: after → Reads bits e (bodyText after) :=
      fun before e after heq => (reads_iff hlow hhigh (hbody before e after heq)).2 (h before e after heq)
    exact ⟨hreads, decode_bodyText hreads⟩

/-- An octal escape of three digits in front of a digit, and a hexadecimal escape at the end. -/
def sparedBody : List BodyElement :=
  [.octal [ch '0', ch '1', ch '2'] ⟨by decide, by decide, List.all_eq_true.1 rfl⟩, .plain (ch '3') (by decide),
    .simple (ch 'n') (by decide), .hex [ch '4', ch '1'] ⟨by decide, List.all_eq_true.1 rfl⟩]

theorem followsC_sparedBody : FollowsC 8 sparedBody := by
  refine (followsC_iff (by decide) (by decide) ?_).2 ?_
  · refine forall_position_cons.2 ⟨fun h => absurd h (by decide), forall_position_cons.2 ⟨trivial, ?_⟩⟩
    refine forall_position_cons.2 ⟨trivial, forall_position_cons.2 ⟨fun d hd => ?_, forall_position_nil⟩⟩
    cases hd
  · refine forall_position_cons.2 ⟨.inl rfl, forall_position_cons.2 ⟨.inl (by decide), ?_⟩⟩
    exact forall_position_cons.2 ⟨trivial, forall_position_cons.2 ⟨rfl, forall_position_nil⟩⟩

/-- The null character of `\0a` is decoded and the letter behind it is gone. -/
theorem not_followsC_short_octal : ¬∀ body : List BodyElement, IsElements body → FollowsC 8 body := by
  intro h
  have hbody : IsElements
      [.octal [ch '0'] ⟨by decide, by decide, List.all_eq_true.1 rfl⟩, .plain (ch 'a') (by decide)] := by
    refine forall_position_cons.2 ⟨fun _ d hd => ?_, forall_position_cons.2 ⟨trivial, forall_position_nil⟩⟩
    rw [← Option.some.inj hd]
    decide
  exact absurd (h _ hbody).decoded (by decide)

end Sparse.Tokenizer
