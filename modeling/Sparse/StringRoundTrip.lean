import Mathlib.Logic.Function.Iterate
import Mathlib.Tactic.SplitIfs
import Sparse.Tokenizer

/-!
# Printed strings

`show_string`, which escapes the bytes of a string, and `get_string_constant`, which reads
the text of the string tokens that `eat_string` makes.
-/

namespace Sparse.Tokenizer

/-! ## Printing -/

/-- `isprint` in the C locale. -/
def isPrint (c : UInt8) : Bool := 32 ≤ c && c ≤ 126

/-- The octal digit of that weight. -/
def octalDigit (c weight : UInt8) : UInt8 := ch '0' + c / weight % 8

/-- `%o` of a byte. -/
def octal (c : UInt8) : List UInt8 :=
  if c < 8 then [octalDigit c 1]
  else if c < 64 then [octalDigit c 8, octalDigit c 1]
  else [octalDigit c 64, octalDigit c 8, octalDigit c 1]

/-- `%03o` of a byte. -/
def octal3 (c : UInt8) : List UInt8 := [octalDigit c 64, octalDigit c 8, octalDigit c 1]

/-- What `charstr` writes. -/
def charstr (c escape next : UInt8) : List UInt8 :=
  if isPrint c then
    if c = escape || c = backslash then [backslash, c] else [c]
  else if c = newline then [backslash, ch 'n']
  else if c = ch '\t' then [backslash, ch 't']
  else if !isDigit next then backslash :: octal c
  else backslash :: octal3 c

/-- The loop of `show_string`; the byte behind the last one is the terminator. -/
def showBody : List UInt8 → List UInt8
  | [] => []
  | c :: data => charstr c quote (data.headD 0) ++ showBody data

/-- `show_string` of a string with its terminator. -/
def showString (data : List UInt8) : List UInt8 :=
  quote :: (showBody data ++ [quote])

/-! ## Reading -/

/-- A `char` as an `unsigned`. -/
def charToUnsigned (c : UInt8) : ℕ := if c < 128 then c.toNat else 2 ^ 32 - 256 + c.toNat

/-- `hexval`. -/
def hexval (c : UInt8) : ℕ :=
  if isDigit c then c.toNat - 48
  else if ch 'a' ≤ c && c ≤ ch 'f' then c.toNat - 97 + 10
  else if ch 'A' ≤ c && c ≤ ch 'F' then c.toNat - 65 + 10
  else 256

/-- The loop of `parse_escape` for hexadecimal digits, which reads the first other character too. -/
def hexLoop : List UInt8 → ℕ → ℕ → List String → ℕ × List UInt8 × List String
  | [], c, _, warnings => (c, [], warnings)
  | b :: p, c, mask, warnings =>
    let d := hexval b
    if 16 < d then (c, p, warnings)
    else
      let c' := (c * 16 + d) % 2 ^ 32
      if c &&& mask ≠ 0 then hexLoop p c' 0 (warnings ++ ["hex escape sequence out of range"])
      else hexLoop p c' mask warnings

/-- The loop of `parse_escape` for that many octal digits, which reads the first other character too. -/
def octalLoop : ℕ → List UInt8 → ℕ → ℕ × List UInt8
  | 0, p, c => (c, p)
  | _ + 1, [], c => (c, [])
  | n + 1, b :: p, c =>
    if ch '0' ≤ b && b ≤ ch '7' then octalLoop n p (c * 8 + (b.toNat - 48)) else (c, p)

/-- The escapes of one letter. -/
def simpleEscape (c : UInt8) : Option ℕ :=
  if c = ch 'a' then some 7
  else if c = ch 'b' then some 8
  else if c = ch 't' then some 9
  else if c = ch 'n' then some 10
  else if c = ch 'v' then some 11
  else if c = ch 'f' then some 12
  else if c = ch 'r' then some 13
  else if c = ch 'e' then some 27
  else none

/-- `parse_escape` of the characters before `end`, with the value, what is left of them
and the warnings. A backslash at the end escapes the terminator. -/
def parseEscape (bits : ℕ) : List UInt8 → ℕ × List UInt8 × List String
  | [] => (0, [], [])
  | c :: p =>
    if c ≠ backslash then (charToUnsigned c, p, [])
    else
      match p with
      | [] => (0, [], [])
      | c :: p =>
        match simpleEscape c with
        | some c => (c % 2 ^ bits, p, [])
        | none =>
          if c = ch 'x' then
            let (c, p, warnings) := hexLoop p 0 (2 ^ 32 - 2 ^ (bits - 4)) []
            (c % 2 ^ bits, p, warnings)
          else if ch '0' ≤ c && c ≤ ch '7' then
            let (c, p) := octalLoop 2 p (c.toNat - 48)
            (c % 2 ^ bits, p,
              if c &&& 256 ≠ 0 ∧ bits < 9 then ["octal escape sequence out of range"] else [])
          else (charToUnsigned c % 2 ^ bits, p, [])

/-- The inner loop of `get_string_constant`, which stores each value as a `char`. -/
def decodeLoop (bits : ℕ) : ℕ → List UInt8 → List UInt8
  | 0, _ => []
  | _ + 1, [] => []
  | fuel + 1, c :: p =>
    let (v, p, _) := parseEscape bits (c :: p)
    UInt8.ofNat v :: decodeLoop bits fuel p

/-- The text of one token. -/
def decode (bits : ℕ) (text : List UInt8) : List UInt8 :=
  decodeLoop bits text.length text

/-- The string tokens that go on with a string, and what is behind them. -/
def stringRun : List Value → List (Bool × List UInt8) × List Value
  | .string wide data :: next => ((wide, data) :: (stringRun next).1, (stringRun next).2)
  | next => ([], next)

/-- `get_string_constant`: whether the string is wide, its bytes and the next tokens. -/
def getStringConstant (bitsInChar : ℕ) (token : Bool × List UInt8) (next : List Value) :
    Bool × List UInt8 × List Value :=
  let (run, done) := stringRun next
  let isWide := (token :: run).any Prod.fst
  let bits := if isWide then 32 else bitsInChar
  (isWide, ((token :: run).flatMap fun token => decode bits token.2).take maxString, done)

/-! ## The text of a printed string -/

variable {data text rest full : List UInt8} {s : Stream} {c next : UInt8}

/-- What `eat_string` has read, outside of hexadecimal escapes. -/
def Eating.of (full : List UInt8) (escape : Bool) : Eating where
  buffer := full.take maxString
  len := full.length
  escape := escape
  wantHex := false

theorem Eating.push_of (full : List UInt8) (escape : Bool) (c : UInt8) :
    (Eating.of full escape).push c = Eating.of (full ++ [c]) escape := by
  by_cases h : full.length < maxString
  · have hle : full.length + 1 ≤ maxString := h
    have hfull : full.length ≤ maxString := Nat.le_of_lt h
    simp [Eating.push, Eating.of, h, List.take_of_length_le, hfull, hle]
  · have htake : (full ++ [c]).take maxString = full.take maxString :=
      List.take_append_of_le_length (Nat.le_of_not_lt h)
    simp [Eating.push, Eating.of, h, htake]

/-- A character that is neither a delimiter nor a backslash is kept. -/
theorem eatLoop_plain (hquote : c ≠ quote) (hback : c ≠ backslash) (hnewline : c ≠ newline) :
    eatLoop quote (c :: text) s (.of full false) = eatLoop quote text (nextchar s) (.of (full ++ [c]) false) := by
  rw [eatLoop, Eating.push_of]
  simp [eatOne, Eating.of, hquote, hback, hnewline]

theorem eatLoop_backslash :
    eatLoop quote (backslash :: text) s (.of full false) =
      eatLoop quote text (nextchar s) (.of (full ++ [backslash]) true) := by
  rw [eatLoop, Eating.push_of]
  simp [eatOne, Eating.of, show backslash ≠ quote by decide, show backslash ≠ newline by decide]

theorem eatLoop_escaped (hescape : isEscape c) (hx : c ≠ ch 'x') (hnewline : c ≠ newline) :
    eatLoop quote (c :: text) s (.of full true) = eatLoop quote text (nextchar s) (.of (full ++ [c]) false) := by
  rw [eatLoop, Eating.push_of]
  simp [eatOne, Eating.of, hescape, hx, hnewline]

/-- A character that `eat_string` keeps outside of escapes. -/
def Plain (c : UInt8) : Prop := c ≠ quote ∧ c ≠ backslash ∧ c ≠ newline

instance (c : UInt8) : Decidable (Plain c) := inferInstanceAs (Decidable (_ ∧ _))

theorem eatLoop_plains {cs : List UInt8} (h : ∀ c ∈ cs, Plain c) :
    eatLoop quote (cs ++ text) s (.of full false) =
      eatLoop quote text (nextchar^[cs.length] s) (.of (full ++ cs) false) := by
  induction cs generalizing s full with
  | nil => simp
  | cons c cs ih =>
    have hc := h c List.mem_cons_self
    rw [List.cons_append, eatLoop_plain hc.1 hc.2.1 hc.2.2, ih fun c hc => h c (List.mem_cons_of_mem _ hc)]
    simp

/-- What holds of the eight digits holds of an octal digit. -/
theorem octalDigit_induction {P : UInt8 → ℕ → Prop} (h : ∀ d < 8, P (ch '0' + UInt8.ofNat d) d) (c weight : UInt8) :
    P (octalDigit c weight) ((c / weight).toNat % 8) := by
  have heq : octalDigit c weight = ch '0' + UInt8.ofNat ((c / weight).toNat % 8) := by
    rw [octalDigit, ← UInt8.ofNat_toNat (x := c / weight % 8), UInt8.toNat_mod]
    rfl
  rw [heq]
  exact h _ (Nat.mod_lt _ (by decide))

theorem plain_octalDigit (c weight : UInt8) : Plain (octalDigit c weight) :=
  @octalDigit_induction (fun b _ => Plain b) (by decide) c weight

theorem isEscape_octalDigit (c weight : UInt8) :
    isEscape (octalDigit c weight) ∧ octalDigit c weight ≠ ch 'x' :=
  @octalDigit_induction (fun b _ => isEscape b ∧ b ≠ ch 'x') (by decide) c weight

/-- What `charstr` writes is a plain character or an escape with plain digits. -/
inductive Written : List UInt8 → Prop
  | plain {c : UInt8} (h : Plain c) : Written [c]
  | escape {c : UInt8} {digits : List UInt8} (h : isEscape c) (hx : c ≠ ch 'x') (hnewline : c ≠ newline)
      (hdigits : ∀ d ∈ digits, Plain d) : Written (backslash :: c :: digits)

theorem written_octal (c : UInt8) : Written (backslash :: octal c) := by
  have hescape (weight : UInt8) := isEscape_octalDigit c weight
  have hplain (weight : UInt8) := plain_octalDigit c weight
  unfold octal
  split_ifs
  · exact .escape (hescape 1).1 (hescape 1).2 (hplain 1).2.2 (by simp)
  · exact .escape (hescape 8).1 (hescape 8).2 (hplain 8).2.2 (by simp [hplain])
  · exact .escape (hescape 64).1 (hescape 64).2 (hplain 64).2.2 (by simp [hplain])

theorem written_octal3 (c : UInt8) : Written (backslash :: octal3 c) :=
  .escape (isEscape_octalDigit c 64).1 (isEscape_octalDigit c 64).2 (plain_octalDigit c 64).2.2
    (by simp [plain_octalDigit])

theorem written_charstr (c next : UInt8) : Written (charstr c quote next) := by
  unfold charstr
  split_ifs with hprint hescaped hnewline htab hdigit
  · have hc : c = quote ∨ c = backslash := by simpa using hescaped
    rcases hc with rfl | rfl
    · exact .escape (by decide) (by decide) (by decide) (by simp)
    · exact .escape (by decide) (by decide) (by decide) (by simp)
  · refine .plain ⟨?_, ?_, ?_⟩
    · rintro rfl
      exact hescaped (by decide)
    · rintro rfl
      exact hescaped (by decide)
    · rintro rfl
      exact absurd hprint (by decide)
  · exact .escape (by decide) (by decide) (by decide) (by simp)
  · exact .escape (by decide) (by decide) (by decide) (by simp)
  · exact written_octal c
  · exact written_octal3 c

theorem Written.length_pos {written : List UInt8} (h : Written written) : 0 < written.length := by
  cases h with
  | plain h => exact Nat.one_pos
  | escape h hx hnewline hdigits => exact Nat.succ_pos _

theorem Written.eatLoop {written : List UInt8} (h : Written written) :
    eatLoop quote (written ++ text) s (.of full false) =
      eatLoop quote text (nextchar^[written.length] s) (.of (full ++ written) false) := by
  cases h with
  | plain h =>
    rw [List.singleton_append, eatLoop_plain h.1 h.2.1 h.2.2]
    rfl
  | escape h hx hnewline hdigits =>
    rw [List.cons_append, eatLoop_backslash, List.cons_append, eatLoop_escaped h hx hnewline, eatLoop_plains hdigits]
    simp

/-- The loop reads the whole printed string and stops at its delimiter. -/
theorem eatLoop_showBody (data rest : List UInt8) (s : Stream) (full : List UInt8) :
    eatLoop quote (showBody data ++ quote :: rest) s (.of full false) =
      (nextchar^[(showBody data).length] s, some (.of (full ++ showBody data) false)) := by
  induction data generalizing s full with
  | nil => simp [showBody, Tokenizer.eatLoop, Eating.of]
  | cons c data ih =>
    rw [showBody, List.append_assoc, (written_charstr c _).eatLoop, ih, List.append_assoc, List.length_append,
      Nat.add_comm, Function.iterate_add_apply]

theorem iterate_nextchar_text (n : ℕ) (s : Stream) : (nextchar^[n] s).text = s.text.drop n := by
  induction n generalizing s with
  | zero => rfl
  | succ n ih =>
    rw [Function.iterate_succ_apply, ih]
    simp [nextchar]

theorem iterate_nextchar_tokens (n : ℕ) (s : Stream) :
    (nextchar^[n] s).tokens = s.tokens ∧ (nextchar^[n] s).space = s.space := by
  induction n generalizing s with
  | zero => exact ⟨rfl, rfl⟩
  | succ n ih =>
    rw [Function.iterate_succ_apply]
    exact ih (nextchar s)

/-- `eat_string` makes one token of a printed string. -/
theorem eatString_showString (pos : Position) (htext : s.text = (showString data).tail ++ rest) :
    (eatString false true pos s).tokens =
        s.tokens ++
          [{ value := .string false ((showBody data).take maxString), pos := pos, space := s.space }] ∧
      (eatString false true pos s).text = rest := by
  have hloop : eatLoop quote s.text s { buffer := [], len := 0, escape := false, wantHex := false } =
      (nextchar^[(showBody data).length] s, some (.of (showBody data) false)) := by
    have h := eatLoop_showBody data rest s []
    rw [List.nil_append] at h
    rw [htext, ← h]
    simp [showString, Eating.of]
  have htokens := iterate_nextchar_tokens (showBody data).length s
  have hrest : ((nextchar^[(showBody data).length] s).text).tail = rest := by
    rw [iterate_nextchar_text, htext]
    simp [showString]
  unfold eatString
  simp only [if_true, hloop]
  by_cases hlong : maxString < (showBody data).length
  · simp [Eating.of, hlong, stringToken, addToken, Stream.warn, nextchar, htokens, hrest]
  · simp [Eating.of, hlong, stringToken, addToken, nextchar, htokens, hrest]

/-! ## The value of a printed string -/

variable {bits : ℕ} {p : List UInt8}

theorem hexLoop_length (p : List UInt8) (v mask : ℕ) (warnings : List String) :
    (hexLoop p v mask warnings).2.1.length ≤ p.length := by
  induction p generalizing v mask warnings with
  | nil => exact Nat.le_refl _
  | cons b p ih =>
    simp only [hexLoop]
    split_ifs
    · exact Nat.le_succ _
    · exact Nat.le_succ_of_le (ih _ _ _)
    · exact Nat.le_succ_of_le (ih _ _ _)

theorem octalLoop_length (n : ℕ) (p : List UInt8) (v : ℕ) : (octalLoop n p v).2.length ≤ p.length := by
  induction n generalizing p v with
  | zero => exact Nat.le_refl _
  | succ n ih =>
    cases p with
    | nil => exact Nat.le_refl _
    | cons b p =>
      simp only [octalLoop]
      split_ifs
      · exact Nat.le_succ_of_le (ih _ _)
      · exact Nat.le_succ _

theorem parseEscape_length (bits : ℕ) (c : UInt8) (p : List UInt8) :
    (parseEscape bits (c :: p)).2.1.length ≤ p.length := by
  simp only [parseEscape]
  split_ifs
  · exact Nat.le_refl _
  · cases p with
    | nil => exact Nat.le_refl _
    | cons c p =>
      cases hsimple : simpleEscape c with
      | some v => simp [hsimple]
      | none =>
        simp only [hsimple]
        split_ifs
        · exact Nat.le_succ_of_le (hexLoop_length _ _ _ _)
        · exact Nat.le_succ_of_le (octalLoop_length _ _ _)
        · exact Nat.le_succ_of_le (octalLoop_length _ _ _)
        · exact Nat.le_succ _

/-- Every call of `parse_escape` consumes a character, so the length of the text is fuel enough. -/
theorem decodeLoop_eq (bits fuel : ℕ) (text : List UInt8) (h : text.length ≤ fuel) :
    decodeLoop bits fuel text = decode bits text := by
  induction fuel using Nat.strongRecOn generalizing text with
  | ind fuel ih =>
    cases text with
    | nil =>
      cases fuel with
      | zero => rfl
      | succ fuel => rfl
    | cons c p =>
      cases fuel with
      | zero => simp at h
      | succ fuel =>
        have hp : p.length ≤ fuel := by simpa using h
        have hlen := parseEscape_length bits c p
        have hleft := ih fuel (Nat.lt_succ_self _) _ (Nat.le_trans hlen hp)
        by_cases heq : fuel = p.length
        · rw [heq]
          rfl
        · have hright := ih p.length (by omega) _ hlen
          simp only [decode, List.length_cons, decodeLoop]
          rw [hleft, hright]

theorem decode_cons (bits : ℕ) (c : UInt8) (p : List UInt8) :
    decode bits (c :: p) =
      UInt8.ofNat (parseEscape bits (c :: p)).1 :: decode bits (parseEscape bits (c :: p)).2.1 := by
  rw [← decodeLoop_eq bits p.length _ (parseEscape_length bits c p)]
  rfl

theorem ofNat_charToUnsigned (c : UInt8) : UInt8.ofNat (charToUnsigned c) = c := by
  have hlt := c.toNat_lt
  rw [← UInt8.toNat_inj, UInt8.toNat_ofNat', charToUnsigned]
  split_ifs
  · omega
  · omega

theorem decode_plain (h : c ≠ backslash) : decode bits (c :: p) = c :: decode bits p := by
  rw [decode_cons]
  simp [parseEscape, h, ofNat_charToUnsigned]

/-- An escape of itself. -/
theorem decode_self (h : c = quote ∨ c = backslash) : decode 8 (backslash :: c :: p) = c :: decode 8 p := by
  rw [decode_cons]
  rcases h with rfl | rfl
  · rfl
  · rfl

theorem octalLoop_digit (n v : ℕ) (c weight : UInt8) (p : List UInt8) :
    octalLoop (n + 1) (octalDigit c weight :: p) v = octalLoop n p (v * 8 + (c / weight).toNat % 8) := by
  have h := @octalDigit_induction (fun b d => (ch '0' ≤ b && b ≤ ch '7') = true ∧ b.toNat = 48 + d) (by decide)
    c weight
  rw [octalLoop, if_pos h.1, h.2, Nat.add_sub_cancel_left]

/-- An octal escape is read by `octalLoop`. -/
theorem decode_octalDigit (c weight : UInt8) (p : List UInt8) :
    decode 8 (backslash :: octalDigit c weight :: p) =
      UInt8.ofNat (octalLoop 2 p ((c / weight).toNat % 8)).1 ::
        decode 8 (octalLoop 2 p ((c / weight).toNat % 8)).2 := by
  have h := @octalDigit_induction
    (fun b d => (ch '0' ≤ b && b ≤ ch '7') = true ∧ b.toNat = 48 + d ∧ simpleEscape b = none ∧ b ≠ ch 'x')
    (by decide) c weight
  obtain ⟨hdigit, hval, hsimple, hx⟩ := h
  have hparse : (parseEscape 8 (backslash :: octalDigit c weight :: p)).1 =
        (octalLoop 2 p ((c / weight).toNat % 8)).1 % 2 ^ 8 ∧
      (parseEscape 8 (backslash :: octalDigit c weight :: p)).2.1 =
        (octalLoop 2 p ((c / weight).toNat % 8)).2 := by
    simp only [parseEscape, ne_eq, not_true_eq_false, if_false, hsimple, hx, hdigit, if_true, hval,
      Nat.add_sub_cancel_left, and_self]
  rw [decode_cons, hparse.1, hparse.2]
  congr 1
  rw [← UInt8.toNat_inj, UInt8.toNat_ofNat', UInt8.toNat_ofNat']
  omega

theorem decode_octal3 (c : UInt8) (p : List UInt8) :
    decode 8 (backslash :: octal3 c ++ p) = c :: decode 8 p := by
  simp only [octal3, List.cons_append, List.nil_append]
  rw [decode_octalDigit, octalLoop_digit, octalLoop_digit, octalLoop]
  congr 1
  have hlt := c.toNat_lt
  rw [← UInt8.toNat_inj, UInt8.toNat_ofNat', UInt8.toNat_div, UInt8.toNat_div, UInt8.toNat_div]
  simp only [show (64 : UInt8).toNat = 64 from rfl, show (8 : UInt8).toNat = 8 from rfl,
    show (1 : UInt8).toNat = 1 from rfl]
  omega

/-- Not the first character of another octal digit. -/
def EndsOctal (p : List UInt8) : Prop := ∀ b ∈ p.head?, (ch '0' ≤ b && b ≤ ch '7') = false

theorem octalLoop_ends (n v : ℕ) (h : EndsOctal p) : octalLoop (n + 1) p v = (v, p.tail) := by
  cases p with
  | nil => rfl
  | cons b p =>
    have hb := h b rfl
    simp [octalLoop, hb]

/-- A short octal escape takes the character behind it away; one of three digits does not. -/
theorem decode_octal (c : UInt8) (h : EndsOctal p) :
    decode 8 (backslash :: octal c ++ p) = c :: decode 8 (if c < 64 then p.tail else p) := by
  have hlt := c.toNat_lt
  have h64 : c < 64 ↔ c.toNat < 64 := UInt8.lt_iff_toNat_lt
  have h8 : c < 8 ↔ c.toNat < 8 := UInt8.lt_iff_toNat_lt
  by_cases hdigit : c < 8
  · have hshort : c < 64 := h64.mpr (Nat.lt_trans (h8.mp hdigit) (by decide))
    simp only [octal, if_pos hdigit, if_pos hshort, List.cons_append, List.nil_append]
    rw [decode_octalDigit, octalLoop_ends _ _ h]
    have hval := h8.mp hdigit
    congr 1
    rw [← UInt8.toNat_inj, UInt8.toNat_ofNat', UInt8.toNat_div]
    simp only [show (1 : UInt8).toNat = 1 from rfl]
    omega
  · by_cases hshort : c < 64
    · simp only [octal, if_neg hdigit, if_pos hshort, List.cons_append, List.nil_append]
      rw [decode_octalDigit, octalLoop_digit, octalLoop_ends _ _ h]
      have hval := h64.mp hshort
      congr 1
      rw [← UInt8.toNat_inj, UInt8.toNat_ofNat', UInt8.toNat_div, UInt8.toNat_div]
      simp only [show (8 : UInt8).toNat = 8 from rfl, show (1 : UInt8).toNat = 1 from rfl]
      omega
    · simp only [octal, if_neg hdigit, if_neg hshort]
      exact decode_octal3 c p

/-- `charstr` writes the byte as an octal escape without padding, of fewer than three digits. -/
def isShort (c : UInt8) : Bool := !isPrint c && c ≠ newline && c ≠ ch '\t' && c < 64

/-- What `charstr` writes is read as the byte, unless it is a short octal escape. -/
theorem decode_charstr (h : (isShort c && !isDigit next) = false) (hends : isDigit next = false → EndsOctal p) :
    decode 8 (charstr c quote next ++ p) = c :: decode 8 p := by
  unfold charstr
  split_ifs with hprint hself hnewline htab hdigit
  · exact decode_self (by simpa using hself)
  · refine decode_plain ?_
    rintro rfl
    exact hself (by decide)
  · rw [hnewline]
    exact decode_cons 8 backslash _
  · rw [htab]
    exact decode_cons 8 backslash _
  · have hlong : ¬c < 64 := by
      intro hlt
      simp [isShort, hprint, hnewline, htab, hlt] at h
      simp [h] at hdigit
    rw [decode_octal c (hends (by simpa using hdigit)), if_neg hlong]
  · exact decode_octal3 c p

/-- A short octal escape takes the next character with it. -/
theorem decode_charstr_short (hshort : isShort c) (hnext : isDigit next = false) (hends : EndsOctal p) :
    decode 8 (charstr c quote next ++ p) = c :: decode 8 p.tail := by
  simp only [isShort, Bool.and_eq_true, decide_eq_true_eq, ne_eq, decide_not, Bool.not_eq_eq_eq_not,
    Bool.not_true, decide_eq_false_iff_not] at hshort
  obtain ⟨⟨⟨hprint, hnewline⟩, htab⟩, hlt⟩ := hshort
  have hwritten : charstr c quote next = backslash :: octal c := by
    simp [charstr, hprint, hnewline, htab, hnext]
  rw [hwritten, decode_octal c hends, if_pos hlt]

/-- A byte that is not a digit is not printed as one. -/
theorem endsOctal_showBody (h : isDigit (data.headD 0) = false) : EndsOctal (showBody data) := by
  intro b hb
  cases data with
  | nil => cases hb
  | cons c data =>
    have hhead : b = c ∨ b = backslash := by
      simp only [showBody, charstr] at hb
      split_ifs at hb <;> simp at hb <;> simp [← hb]
    rcases hhead with rfl | rfl
    · by_contra hoctal
      simp only [Bool.not_eq_false, Bool.and_eq_true, decide_eq_true_eq] at hoctal
      have hnine : b ≤ ch '9' := UInt8.le_trans hoctal.2 (by decide)
      simp [isDigit, hoctal.1, hnine] at h
    · decide

/-- The text of the bytes may lose its first character: only backslashes lead to a
double quote, so that each backslash is escaped by the one before it. -/
def harmless : List UInt8 → Bool
  | [] => true
  | c :: data => c = quote || c = backslash && !data.isEmpty && harmless data

/-- No byte of the string is lost or changed behind a short octal escape: such a byte is
the last one, or a digit follows, or what follows may lose its first character. -/
def unswallowed : List UInt8 → Bool
  | [] => true
  | c :: data =>
    (!isShort c || isDigit (data.headD 0) || harmless data) && unswallowed data

theorem showBody_self (h : c = quote ∨ c = backslash) : showBody (c :: data) = backslash :: c :: showBody data := by
  rcases h with rfl | rfl
  · rfl
  · rfl

/-- Where the text may lose its first character it is read to the same end. -/
theorem decode_harmless (h : harmless data) (hrest : decode 8 (showBody data) = data) :
    decode 8 (showBody data).tail = data := by
  induction data with
  | nil => exact hrest
  | cons c data ih =>
    simp only [harmless, Bool.or_eq_true, Bool.and_eq_true, decide_eq_true_eq] at h
    have hself : c = quote ∨ c = backslash := h.imp_right fun h => h.1.1
    rw [showBody_self hself] at hrest ⊢
    rw [decode_self hself] at hrest
    have hdata := List.tail_eq_of_cons_eq hrest
    rw [List.tail_cons]
    by_cases hc : c = quote
    · subst hc
      rw [decode_plain (by decide), hdata]
    · obtain ⟨⟨rfl, hne⟩, hharmless⟩ := h.resolve_left hc
      cases data with
      | nil => simp at hne
      | cons e data =>
        have he : e = quote ∨ e = backslash := by
          simp only [harmless, Bool.or_eq_true, Bool.and_eq_true, decide_eq_true_eq] at hharmless
          exact hharmless.imp_right fun h => h.1.1
        have hnext := ih hharmless hdata
        rw [showBody_self he] at hnext ⊢
        rw [decode_self (.inr rfl), ← hnext]
        rfl

/-- The printed string is read as the string. -/
theorem decode_showBody (h : unswallowed data) : decode 8 (showBody data) = data := by
  induction data with
  | nil => rfl
  | cons c data ih =>
    simp only [unswallowed, Bool.and_eq_true, Bool.or_eq_true, Bool.not_eq_true'] at h
    obtain ⟨hc, hdata⟩ := h
    have hrest := ih hdata
    rw [showBody]
    by_cases hshort : (isShort c && !isDigit (data.headD 0)) = true
    · simp only [Bool.and_eq_true, Bool.not_eq_true'] at hshort
      rw [decode_charstr_short hshort.1 hshort.2 (endsOctal_showBody hshort.2)]
      have hharmless : harmless data := by
        rcases hc with (hc | hc) | hc
        · rw [hshort.1] at hc
          cases hc
        · rw [hshort.2] at hc
          cases hc
        · exact hc
      rw [decode_harmless hharmless hrest]
    · rw [decode_charstr (by simpa using hshort) endsOctal_showBody, hrest]

theorem length_le_showBody (data : List UInt8) : data.length ≤ (showBody data).length := by
  induction data with
  | nil => exact Nat.le_refl _
  | cons c data ih =>
    have hpos := (written_charstr c (data.headD 0)).length_pos
    rw [showBody, List.length_append, List.length_cons]
    omega

theorem stringRun_eq {next : List Value} (h : ∀ wide data, next.head? ≠ some (.string wide data)) :
    stringRun next = ([], next) := by
  cases next with
  | nil => rfl
  | cons value next =>
    cases value with
    | string wide data => exact absurd rfl (h wide data)
    | _ => rfl

/-- Wherever the printed string stands in a text, `eat_string` makes one token of it, and
`get_string_constant` gives its bytes unless another string follows. -/
def ReadsBack (data : List UInt8) : Prop :=
  ∀ (s : Stream) (pos : Position) (rest : List UInt8), s.text = (showString data).tail ++ rest →
    ∃ text,
      (eatString false true pos s).tokens =
          s.tokens ++ [{ value := .string false text, pos := pos, space := s.space }] ∧
        (eatString false true pos s).text = rest ∧
        ∀ next, (∀ wide data, next.head? ≠ some (.string wide data)) →
          getStringConstant 8 (false, text) next = (false, data, next)

/-- A printed string is read back if its text fits into the buffer and no character of it
is taken away by a short octal escape. -/
theorem readsBack_of_fits (hfits : (showBody data).length ≤ maxString) (hswallow : unswallowed data) :
    ReadsBack data := by
  intro s pos rest htext
  obtain ⟨htokens, hrest⟩ := eatString_showString pos htext
  refine ⟨_, htokens, hrest, fun next hnext => ?_⟩
  have hlen : data.length ≤ maxString := Nat.le_trans (length_le_showBody data) hfits
  simp [getStringConstant, stringRun_eq hnext, List.take_of_length_le hfits, decode_showBody hswallow,
    List.take_of_length_le hlen]

/-- The characters that the buffer keeps are read to the same bytes. -/
theorem ReadsBack.constant (h : ReadsBack data) :
    getStringConstant 8 (false, (showBody data).take maxString) [] = (false, data, []) := by
  have hstream : (setupStream (showString data).tail).text = (showString data).tail ++ [] :=
    (List.append_nil _).symm
  obtain ⟨text, htokens, -, hconstant⟩ := h _ ⟨true, false⟩ [] hstream
  rw [(eatString_showString ⟨true, false⟩ hstream).1] at htokens
  have htext : (showBody data).take maxString = text := by simpa using htokens
  rw [htext]
  exact hconstant [] (by simp)

section Witness

/-- Bytes of all kinds beside each other: `a`, a backspace and a digit, the byte 128, a
double quote, a newline and, at the end, a null byte. -/
def mixed : List UInt8 := [97, 8, 55, 128, 34, 10, 0]

theorem readsBack_mixed : ReadsBack mixed :=
  readsBack_of_fits (by decide) (by decide)

/-- The text of the byte 128. -/
def escaped128 : List UInt8 := [92, 50, 48, 48]

theorem showBody_replicate (n : ℕ) : showBody (List.replicate n 128) = (List.replicate n escaped128).flatten := by
  induction n with
  | zero => rfl
  | succ n ih =>
    have hchar : charstr 128 quote ((List.replicate n (128 : UInt8)).headD 0) = escaped128 := by
      cases n with
      | zero => rfl
      | succ n => rfl
    rw [List.replicate_succ, showBody, ih, hchar, List.replicate_succ, List.flatten_cons]

theorem decode_replicate (n : ℕ) (p : List UInt8) :
    decode 8 ((List.replicate n escaped128).flatten ++ p) = List.replicate n 128 ++ decode 8 p := by
  induction n with
  | zero => rfl
  | succ n ih =>
    have hfirst := decode_octal3 128 ((List.replicate n escaped128).flatten ++ p)
    rw [show backslash :: octal3 128 = escaped128 from rfl] at hfirst
    rw [List.replicate_succ, List.flatten_cons, List.append_assoc, hfirst, ih, List.replicate_succ, List.cons_append]

/-- A text of such bytes that is cut before its last digit. -/
theorem decode_cut (n : ℕ) :
    decode 8 ((showBody (List.replicate (n + 1) 128)).take (4 * n + 3)) = List.replicate n 128 ++ [16] := by
  have hlen : (List.replicate n escaped128).flatten.length = 4 * n := by
    simp [escaped128, Nat.mul_comm]
  rw [showBody_replicate, List.replicate_succ', List.flatten_append, List.flatten_singleton, List.take_append,
    hlen, List.take_of_length_le (by omega), Nat.add_sub_cancel_left, decode_replicate]
  rfl

theorem not_readsBack_replicate (n : ℕ) (h : 4 * n + 3 = maxString) :
    ¬ReadsBack (List.replicate (n + 1) 128) := by
  intro hback
  have hdata := congrArg (fun result => result.2.1) hback.constant
  rw [← h] at hdata
  simp only [getStringConstant, stringRun, List.any_cons, List.any_nil, Bool.or_self, Bool.false_eq_true,
    if_false, List.flatMap_cons, List.flatMap_nil, List.append_nil, decode_cut] at hdata
  have hlen : (List.replicate n (128 : UInt8) ++ [16]).length ≤ maxString := by
    rw [List.length_append, List.length_replicate, List.length_singleton]
    omega
  rw [List.take_of_length_le hlen, List.replicate_succ'] at hdata
  have hlast := List.append_cancel_left hdata
  revert hlast
  decide

/-- The text of 2048 bytes of the value 128 is one character longer than the buffer, and
the last byte is read without its last digit. -/
theorem not_readsBack_long : ¬∀ data : List UInt8, data.length ≤ maxString → ReadsBack data := by
  intro h
  refine not_readsBack_replicate 2047 rfl (h _ ?_)
  rw [List.length_replicate]
  decide

end Witness

end Sparse.Tokenizer
