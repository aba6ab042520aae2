import Mathlib.Data.List.DropRight
import Sparse.TokenizedStreams

/-!
# Lossless tokens

With `ppnoopt` the tokens record the white space and the comments in front of them. What
`show_token` prints of a stream of tokens, each behind its recorded space, is compared
with the characters that the tokens were made of.
-/

namespace Sparse.Tokenizer

variable {text space : List UInt8} {pos : Position} {c : UInt8} {x : Lexeme} {xs : List Lexeme}

/-! ## Printing -/

/-- What a reader of a C string finds of the characters: those before the first terminator. -/
def cString (text : List UInt8) : List UInt8 :=
  text.takeWhile fun c => c ≠ 0

/-- `show_ident`; the length of an identifier is kept in a byte. -/
def showIdent (name : List UInt8) : List UInt8 :=
  name.take (name.length % 256)

/-- `show_special`. -/
def showSpecial (val : ℕ) : List UInt8 :=
  if specialBase ≤ val then combinations.getD (val - specialBase) [] else cString [UInt8.ofNat val]

/-- `show_char`. -/
def showChar (data : List UInt8) (wide isString : Bool) : List UInt8 :=
  cString ((if wide then [ch 'L'] else []) ++ delimiter isString :: (data ++ [delimiter isString]))

/-- `show_token`, but for the end of the stream, which is no text of the stream. -/
def showToken : Value → List UInt8
  | .ident name => showIdent name
  | .number text => text
  | .special value => showSpecial value
  | .embedded wide data => showChar data wide false
  | .char wide data => showChar data wide false
  | .string wide data => showChar data wide true
  | .streamEnd => []

/-- A token behind its recorded space. -/
def Token.printed (token : Token) : List UInt8 :=
  token.space ++ showToken token.value

/-! ## Lexemes -/

/-- What is printed of a lexeme: white space and comments as they are, `1` for a number
that fills the buffer, nothing for the empty character constant, and of a literal the
first `MAX_STRING` characters, up to a terminator. -/
def Lexeme.shown : Lexeme → List UInt8
  | .number text => numberToken text
  | .literal wide isString body =>
    if isString = false ∧ body = [] then [] else showChar (body.take maxString) wide isString
  | .single c => cString [c]
  | x => x.text

theorem cString_of_not_mem (h : 0 ∉ text) : cString text = text := by
  rw [cString, List.takeWhile_eq_self_iff]
  intro c hc
  exact decide_eq_true fun hzero => h (hzero ▸ hc)

/-- The token of a lexeme is printed as the lexeme is. -/
theorem showToken_of_value {value : Value} (hfits : x.IdentFits) (h : x.value = some value) :
    showToken value = x.shown := by
  cases x with
  | space c => cases h
  | lineComment body ended => cases h
  | blockComment body => cases h
  | ident name =>
    obtain rfl := Option.some.inj h
    have hlen : name.length % 256 = name.length := Nat.mod_eq_of_lt hfits
    rw [showToken, showIdent, hlen, List.take_length]
    rfl
  | number text =>
    obtain rfl := Option.some.inj h
    rfl
  | literal wide isString body =>
    cases isString with
    | true =>
      obtain rfl := Option.some.inj h
      simp [showToken, Lexeme.shown]
    | false =>
      cases body with
      | nil => cases h
      | cons c body =>
        rw [Lexeme.value, stringToken] at h
        simp only [Bool.false_eq_true, if_false, List.length_cons, Nat.succ_ne_zero] at h
        split_ifs at h with hshort
        · obtain rfl := Option.some.inj h
          simp [showToken, Lexeme.shown]
        · obtain rfl := Option.some.inj h
          simp [showToken, Lexeme.shown]
  | combination i =>
    obtain rfl := Option.some.inj h
    rw [showToken, showSpecial, if_pos (Nat.le_add_right _ _), Nat.add_sub_cancel_left]
    rfl
  | single c =>
    obtain rfl := Option.some.inj h
    have hsmall : ¬specialBase ≤ c.toNat := Nat.not_le_of_lt c.toNat_lt
    rw [showToken, showSpecial, if_neg hsmall, UInt8.ofNat_toNat]
    rfl

/-- What a lexeme without a token adds to the collected space. -/
theorem leavesSpace_of_none (h : x.value = none) : x.leavesSpace true space = space ++ x.shown := by
  cases x with
  | space c => rfl
  | lineComment body ended => rfl
  | blockComment body => rfl
  | ident name => cases h
  | number text => cases h
  | literal wide isString body =>
    have hempty : isString = false ∧ body = [] := by
      cases isString with
      | true => cases h
      | false =>
        cases body with
        | nil => exact ⟨rfl, rfl⟩
        | cons c body =>
          rw [Lexeme.value, stringToken] at h
          simp only [Bool.false_eq_true, if_false, List.length_cons, Nat.succ_ne_zero] at h
          split_ifs at h
    obtain ⟨rfl, rfl⟩ := hempty
    simp [Lexeme.leavesSpace, Lexeme.isGap, Lexeme.value, stringToken, Lexeme.shown]
  | combination i => cases h
  | single c => cases h

theorem leavesSpace_of_some {value : Value} (h : x.value = some value) : x.leavesSpace true space = [] := by
  cases x with
  | space c => cases h
  | lineComment body ended => cases h
  | blockComment body => cases h
  | ident name => rfl
  | number text => rfl
  | literal wide isString body => simp [Lexeme.leavesSpace, Lexeme.isGap, h]
  | combination i => rfl
  | single c => rfl

theorem isGap_of_some {value : Value} (h : x.value = some value) : x.isGap = false := by
  cases x with
  | space c => cases h
  | lineComment body ended => cases h
  | blockComment body => cases h
  | ident name => rfl
  | number text => rfl
  | literal wide isString body => rfl
  | combination i => rfl
  | single c => rfl

/-! ## Streams -/

/-- The lexemes up to the last token. -/
def uptoLast (xs : List Lexeme) : List Lexeme :=
  xs.rdropWhile fun x => x.value.isNone

theorem uptoLast_cons : uptoLast (x :: xs) = if uptoLast xs = [] ∧ x.value = none then [] else x :: uptoLast xs := by
  unfold uptoLast List.rdropWhile
  rw [List.reverse_cons, List.dropWhile_append]
  cases hrest : xs.reverse.dropWhile fun x => x.value.isNone with
  | nil =>
    cases hx : x.value with
    | none => simp [hx]
    | some value => simp [hx]
  | cons y ys => simp

/-- The characters that a token adds to its space: the slash that an operator begins with
is pushed when it can still be the beginning of a comment. -/
def Lexeme.pushed (x : Lexeme) : List UInt8 :=
  if x.value.isSome ∧ x.text.head? = some slash then [slash] else []

/-- The tokens print the collected space and the lexemes up to the last token, and a slash
in front of each operator that begins with one. -/
theorem flatMap_printed_scan (hfits : ∀ x ∈ xs, x.IdentFits) :
    (scan true pos space xs).flatMap Token.printed =
      if uptoLast xs = [] then [] else space ++ (uptoLast xs).flatMap fun x => x.pushed ++ x.shown := by
  induction xs generalizing pos space with
  | nil => rfl
  | cons x xs ih =>
    rw [scan, List.flatMap_append, ih fun y hy => hfits y (List.mem_cons_of_mem x hy), uptoLast_cons]
    cases hvalue : x.value with
    | none =>
      rw [leavesSpace_of_none hvalue, Lexeme.emits, hvalue]
      by_cases hlast : uptoLast xs = []
      · simp [hlast]
      · simp [hlast, Lexeme.pushed, hvalue]
    | some value =>
      have hbefore : x.spaceBefore space = space ++ x.pushed := by
        unfold Lexeme.spaceBefore Lexeme.pushed
        by_cases hslash : x.text.head? = some slash
        · simp [hslash, hvalue]
        · simp [hslash]
      have hshown := showToken_of_value (hfits x List.mem_cons_self) hvalue
      rw [leavesSpace_of_some hvalue, Lexeme.emits, hvalue, hbefore]
      by_cases hlast : uptoLast xs = []
      · simp [hlast, Token.printed, hshown]
      · simp [hlast, Token.printed, hshown]

/-- The printed tokens are the characters of the stream. -/
def Lossless (text : List UInt8) : Prop :=
  ∀ xs, Lexes text xs → Terminated xs →
    ∃ s, tokenizeText true text = some s ∧ s.tokens.flatMap Token.printed = text

theorem mem_of_uptoLast (h : x ∈ uptoLast xs) : x ∈ xs :=
  (List.rdropWhile_prefix _ _).mem h

/-- The printed tokens are the stream up to its last token, where no operator begins with a slash. -/
theorem tokenizeText_printed (hxs : Lexes text xs) (hterminated : Terminated xs) (hfits : ∀ x ∈ xs, x.IdentFits)
    (hslash : ∀ x ∈ xs, x.isGap = false → x.text.head? ≠ some slash) :
    ∃ s, tokenizeText true text = some s ∧ s.text = [] ∧
      s.tokens.flatMap Token.printed = (uptoLast xs).flatMap Lexeme.shown := by
  obtain ⟨s, hrun, htext, htokens⟩ := tokenizeText_scan true hxs hterminated hfits
  refine ⟨s, hrun, htext, ?_⟩
  have hpushed : ∀ x ∈ uptoLast xs, x.pushed ++ x.shown = x.shown := by
    intro x hx
    have hno : ¬(x.value.isSome ∧ x.text.head? = some slash) := by
      rintro ⟨hsome, hhead⟩
      obtain ⟨value, hvalue⟩ := Option.isSome_iff_exists.mp hsome
      exact hslash x (mem_of_uptoLast hx) (isGap_of_some hvalue) hhead
    rw [Lexeme.pushed, if_neg hno, List.nil_append]
  rw [htokens, flatMap_printed_scan hfits]
  by_cases hlast : uptoLast xs = []
  · simp [hlast]
  · rw [if_neg hlast, List.nil_append]
    exact List.flatMap_congr hpushed

/-- All but the newline at the end is printed again. -/
theorem tokenizeText_printed_twoLines :
    ∃ s, tokenizeText true (twoLines.flatMap Lexeme.text) = some s ∧ s.text = [] ∧
      s.tokens.flatMap Token.printed = twoLines.dropLast.flatMap Lexeme.text := by
  have hprinted : twoLines.dropLast.flatMap Lexeme.text = (uptoLast twoLines).flatMap Lexeme.shown := by decide
  rw [hprinted]
  exact tokenizeText_printed lexes_twoLines terminated_twoLines (by simp [twoLines, Lexeme.IdentFits, identBuffer])
    (by decide)

/-- The last character of the long literal is not printed. -/
theorem not_lossless_longLiteral : ¬Lossless longLiteral.text := by
  intro h
  have hxs := lexes_singleton longLiteral_valid
  have hslash : ∀ x ∈ [longLiteral], x.isGap = false → x.text.head? ≠ some slash := by
    intro x hx _
    obtain rfl := List.mem_singleton.mp hx
    simp [longLiteral, Lexeme.text]
    decide
  obtain ⟨s, hrun, hprinted⟩ := h [longLiteral] hxs trivial
  obtain ⟨s', hrun', -, htokens⟩ := tokenizeText_scan true hxs trivial (by simp [longLiteral, Lexeme.IdentFits])
  obtain rfl : s = s' := Option.some.inj (hrun.symm.trans hrun')
  have hlast : uptoLast [longLiteral] = [longLiteral] := by
    rw [uptoLast_cons, if_neg (fun hnone => absurd hnone.2 (by simp [longLiteral, Lexeme.value, stringToken]))]
    rfl
  have hpushed : longLiteral.pushed = [] := if_neg fun hpush => hslash longLiteral (by simp) rfl hpush.2
  have hshown : longLiteral.shown = longLiteral.text := by
    rw [htokens, flatMap_printed_scan (by simp [longLiteral, Lexeme.IdentFits]), hlast] at hprinted
    simpa [hpushed] using hprinted
  have hle : longLiteral.shown.length ≤ maxString + 2 := by
    have htake := (List.takeWhile_prefix (fun c : UInt8 => decide (c ≠ 0))
      (l := quote :: ((List.replicate (maxString + 1) (ch 'a')).take maxString ++ [quote]))).length_le
    rw [List.length_cons, List.length_append, List.length_take, List.length_replicate, List.length_singleton] at htake
    have hmin : min maxString (maxString + 1) = maxString := Nat.min_eq_left (Nat.le_succ _)
    rw [hmin] at htake
    exact htake
  have hlen : longLiteral.text.length = maxString + 3 := by simp [longLiteral, Lexeme.text]
  rw [hshown, hlen] at hle
  omega

end Sparse.Tokenizer
