import Sparse.MacroExpansion
import Sparse.SharedStrings
import Sparse.TokenPasting

/-!
# Stringized arguments

The string token that `stringify` makes of an argument, read with `get_string_constant`, beside
the spellings of the argument's tokens. `quote_token` escapes the quotes and backslashes of
character and string literals only, so a backslash that is a token of its own is read as the
beginning of an escape.
-/

namespace Sparse.MacroExpansion

open Tokenizer

variable {bits : ℕ} {x : Lexeme} {t : Tok} {v : Value} {s : State} {arg : List Tok}

/-! ## Spellings -/

/-- A token in the source. -/
def spelling : Value → List UInt8
  | .ident name => name
  | .number text => text
  | .special value => if specialBase ≤ value then combinations.getD (value - specialBase) [] else [UInt8.ofNat value]
  | .embedded wide data => (if wide then [ch 'L'] else []) ++ apostrophe :: (data ++ [apostrophe])
  | .char wide data => (if wide then [ch 'L'] else []) ++ apostrophe :: (data ++ [apostrophe])
  | .string wide data => (if wide then [ch 'L'] else []) ++ quote :: (data ++ [quote])
  | .streamEnd => []

def Tok.spelling (t : Tok) : List UInt8 :=
  match t.kind with
  | .value v => MacroExpansion.spelling v
  | _ => []

/-- A single space in front of the tokens that stand behind white space, but the first one. -/
def joined (f : Tok → List UInt8) : Bool → List Tok → List UInt8
  | _, [] => []
  | whitespace, t :: ts =>
    (if whitespace then [ch ' '] else []) ++ f t ++ joined f (ts.head?.any Tok.whitespace) ts

/-- The string token is a literal that stands for the spellings of the tokens. -/
def StringizesRight (bitsInChar : ℕ) (s : State) (arg : List Tok) : Prop :=
  ∃ text, (stringify s arg).1.kind = .value (.string false text) ∧ IsBody quote text ∧
    ∀ next : List Value, (∀ wide data, next.head? ≠ some (.string wide data)) →
      getStringConstant bitsInChar (false, text) next = (false, joined Tok.spelling false arg, next)

/-- The tokens that the tokenizer makes, without null characters and lone backslashes. -/
structure Stringizable (t : Tok) : Prop where
  spelled : ∃ x, Spells x t
  backslash : t.kind ≠ .value (.special Tokenizer.backslash.toNat)
  null : 0 ∉ t.spelling
  short : ∀ name, t.name = some name → name.length < identBuffer

/-- A character constant keeps its characters in the token or in a string. -/
theorem value_of_stringToken {wide isString : Bool} {len : ℕ} {data : List UInt8}
    (hv : stringToken wide isString len data = some v) :
    (isString = true ∧ v = .string wide data) ∨
      (isString = false ∧ (v = .embedded wide data ∨ v = .char wide data)) := by
  rw [stringToken] at hv
  split_ifs at hv with hstring hempty hshort
  · exact .inl ⟨hstring, (Option.some.inj hv).symm⟩
  · exact .inr ⟨Bool.eq_false_iff.mpr hstring, .inl (Option.some.inj hv).symm⟩
  · exact .inr ⟨Bool.eq_false_iff.mpr hstring, .inr (Option.some.inj hv).symm⟩

/-- The spelling of a token is the text it was read from. -/
theorem spelling_of_value (hfits : x.Fits) (hliteral : x.text.length ≤ maxString) (hv : x.value = some v) :
    spelling v = x.text := by
  cases x with
  | space c => cases hv
  | lineComment body ended => cases hv
  | blockComment body => cases hv
  | ident name =>
    obtain rfl := Option.some.inj hv
    rfl
  | number text =>
    obtain rfl := Option.some.inj hv
    exact if_pos hfits
  | combination i =>
    obtain rfl := Option.some.inj hv
    rw [spelling, if_pos (Nat.le_add_right _ _), Nat.add_sub_cancel_left]
    rfl
  | single c =>
    obtain rfl := Option.some.inj hv
    have hsmall : ¬specialBase ≤ c.toNat := Nat.not_le_of_lt c.toNat_lt
    rw [spelling, if_neg hsmall, UInt8.ofNat_toNat]
    rfl
  | literal wide isString body =>
    have hlen : body.length ≤ maxString := by
      simp only [Lexeme.text, List.length_append, List.length_cons] at hliteral
      omega
    rw [Lexeme.value, List.take_of_length_le hlen] at hv
    obtain ⟨rfl, rfl⟩ | ⟨rfl, rfl | rfl⟩ := value_of_stringToken hv
    · rfl
    · rfl
    · rfl

/-! ## Quotation -/

/-- The characters are read as the bytes, and keep a string literal together. -/
def Quotes (bytes text : List UInt8) : Prop :=
  ∀ p, decode 8 (text ++ p) = bytes ++ decode 8 p ∧ (IsBody quote p → IsBody quote (text ++ p))

theorem Quotes.nil : Quotes [] [] := fun _ => ⟨rfl, id⟩

theorem Quotes.append {bytes text bytes' text' : List UInt8} (h : Quotes bytes text) (h' : Quotes bytes' text') :
    Quotes (bytes ++ bytes') (text ++ text') := by
  intro p
  rw [List.append_assoc, List.append_assoc, (h _).1, (h' p).1]
  exact ⟨rfl, fun hp => (h _).2 ((h' p).2 hp)⟩

theorem quotes_plain {c : UInt8} (hc : Plain c) : Quotes [c] [c] :=
  fun _ => ⟨decode_plain hc.2.1, .plain hc.1 hc.2.1 hc.2.2⟩

theorem quotes_self {c : UInt8} (hc : c = quote ∨ c = backslash) : Quotes [c] [backslash, c] := by
  refine fun p => ⟨decode_self hc, .escape ?_⟩
  obtain rfl | rfl := hc
  · decide
  · decide

theorem quotes_plains {cs : List UInt8} (h : ∀ c ∈ cs, Plain c) : Quotes cs cs := by
  induction cs with
  | nil => exact .nil
  | cons c cs ih =>
    obtain ⟨hc, hcs⟩ := List.forall_mem_cons.mp h
    exact (quotes_plain hc).append (ih hcs)

/-- What `quote_char` writes of the characters of a literal. -/
def escaped (data : List UInt8) : List UInt8 :=
  data.flatMap fun c => if c = quote || c = backslash then [backslash, c] else [c]

theorem quotes_escaped {data : List UInt8} (h : newline ∉ data) : Quotes data (escaped data) := by
  induction data with
  | nil => exact .nil
  | cons c data ih =>
    obtain ⟨hc, hdata⟩ := List.ne_and_not_mem_of_not_mem_cons h
    rw [escaped, List.flatMap_cons]
    have hhead : Quotes [c] (if c = quote || c = backslash then [backslash, c] else [c]) := by
      split
      · rename_i hself
        exact quotes_self (by simpa using hself)
      · rename_i hself
        obtain ⟨hquote, hback⟩ : c ≠ quote ∧ c ≠ backslash := by simpa using hself
        exact quotes_plain ⟨hquote, hback, Ne.symm hc⟩
    exact hhead.append (ih hdata)

/-! ## Tokens -/

theorem plain_of_word (c : UInt8) (h : (isDot c || isDigit c || isLetter c) = true ∨ c = ch '-' ∨ c = ch '+') :
    Plain c := by
  refine ⟨?_, ?_, ?_⟩
  all_goals
    rintro rfl
    exact absurd h (by decide)

theorem newline_not_mem_body {delim : UInt8} {body : List UInt8} (h : IsBody delim body) : newline ∉ body := by
  induction h with
  | nil => exact List.not_mem_nil
  | plain hdelim hback hnewline hbody ih => exact List.not_mem_cons_of_ne_of_not_mem hnewline.symm ih
  | escape hnewline hbody ih =>
    exact List.not_mem_cons_of_ne_of_not_mem (by decide) (List.not_mem_cons_of_ne_of_not_mem hnewline.symm ih)

set_option maxRecDepth 10000 in
/-- Identifiers, numbers and punctuators but the backslash hold no character to escape. -/
theorem plain_of_isWord (hx : x.Valid) (hword : x.IsWord) (hv : x.value = some v)
    (hback : v ≠ .special backslash.toNat) : ∀ c ∈ spelling v, Plain c := by
  cases x with
  | ident name =>
    obtain ⟨d, ds, rfl, hd, hds⟩ := hx
    obtain rfl := Option.some.inj hv
    intro c hc
    rcases List.mem_cons.mp hc with rfl | hc
    · exact plain_of_word _ (.inl (word_of_ident (by rw [hd, Bool.true_or])))
    · exact plain_of_word _ (.inl (word_of_ident (hds c hc)))
  | number text =>
    obtain rfl := Option.some.inj hv
    intro c hc
    rw [spelling, numberToken] at hc
    split at hc
    · exact plain_of_word c (IsNumber.class_eq hx c hc)
    · exact plain_of_word c (.inl (by rw [List.mem_singleton.mp hc]; decide))
  | combination i =>
    obtain rfl := Option.some.inj hv
    rw [spelling, if_pos (Nat.le_add_right _ _), Nat.add_sub_cancel_left]
    refine fun c hc => ⟨?_, (combination_class hc).2.2.2, ?_⟩
    · rintro rfl
      exact absurd (combination_class hc).1.2 (by decide)
    · rintro rfl
      exact absurd (combination_class hc).1.1 (by decide)
  | single c =>
    obtain rfl := Option.some.inj hv
    have hsmall : ¬specialBase ≤ c.toNat := Nat.not_le_of_lt c.toNat_lt
    rw [spelling, if_neg hsmall, UInt8.ofNat_toNat]
    intro d hd
    obtain rfl := List.mem_singleton.mp hd
    refine ⟨?_, fun h => hback (by rw [h]), fun h => ?_⟩
    · rintro rfl
      exact absurd (show isQuote quote = false from hword) (by decide)
    · rw [h] at hx
      exact absurd hx.1 (by decide)
  | _ => exact hword.elim

theorem quoteToken_of_isWord (hword : x.IsWord) (hv : x.value = some v) (hnull : 0 ∉ spelling v)
    (hshort : ∀ name, v = .ident name → name.length < identBuffer) : quoteToken (.value v) = spelling v := by
  cases x with
  | ident name =>
    obtain rfl := Option.some.inj hv
    have hlen : name.length % 256 = name.length := Nat.mod_eq_of_lt (hshort name rfl)
    change name.take (name.length % 256) = name
    rw [hlen, List.take_length]
  | number text =>
    obtain rfl := Option.some.inj hv
    rfl
  | combination i =>
    obtain rfl := Option.some.inj hv
    change showSpecial (specialBase + i) = spelling (.special (specialBase + i))
    rw [showSpecial, spelling, if_pos (Nat.le_add_right _ _), if_pos (Nat.le_add_right _ _)]
  | single c =>
    obtain rfl := Option.some.inj hv
    have hsmall : ¬specialBase ≤ c.toNat := Nat.not_le_of_lt c.toNat_lt
    change showSpecial c.toNat = spelling (.special c.toNat)
    rw [spelling, if_neg hsmall] at hnull ⊢
    rw [showSpecial, if_neg hsmall, cString_of_not_mem hnull]
  | _ => exact hword.elim

/-- What `quote_char` writes of a literal is read as the literal. -/
theorem quotes_quoteChar {wide isString : Bool} {data : List UInt8} (hnewline : newline ∉ data) (hnull : 0 ∉ data) :
    Quotes ((if wide then [ch 'L'] else []) ++ delimiter isString :: (data ++ [delimiter isString]))
      (quoteChar data wide isString) := by
  have hpre : Quotes (if wide then [ch 'L'] else []) (if wide then [ch 'L'] else []) := by
    cases wide
    · exact .nil
    · exact quotes_plain (by decide)
  have hdelimiter : Quotes [delimiter isString] (if isString then [backslash, quote] else [apostrophe]) := by
    cases isString
    · exact quotes_plain (by decide)
    · exact quotes_self (.inl rfl)
  have hescaped : 0 ∉ escaped data := by
    rw [escaped, List.mem_flatMap]
    rintro ⟨c, hc, hzero⟩
    split at hzero
    · rcases List.mem_cons.mp hzero with h | h
      · exact absurd h (by decide)
      · exact hnull (List.mem_singleton.mp h ▸ hc)
    · exact hnull (List.mem_singleton.mp hzero ▸ hc)
  have htext : quoteChar data wide isString = (if wide then [ch 'L'] else []) ++
      ((if isString then [backslash, quote] else [apostrophe]) ++ (escaped data ++
        (if isString then [backslash, quote] else [apostrophe]))) := by
    have hdelim : 0 ∉ (if isString then [backslash, quote] else [apostrophe]) := by
      cases isString <;> decide
    have hwide : 0 ∉ (if wide then [ch 'L'] else []) := by
      cases wide <;> decide
    have happend : quoteChar data wide isString = cString ((if wide then [ch 'L'] else []) ++
        ((if isString then [backslash, quote] else [apostrophe]) ++ (escaped data ++
          (if isString then [backslash, quote] else [apostrophe])))) := by
      rw [quoteChar, List.append_assoc, List.append_assoc]
      rfl
    rw [happend, cString_of_not_mem]
    simp only [List.mem_append, not_or]
    exact ⟨hwide, hdelim, hescaped, hdelim⟩
  rw [htext]
  exact hpre.append (hdelimiter.append ((quotes_escaped hnewline).append hdelimiter))

/-- What `quote_token` writes of a token is read as its spelling. -/
theorem quotes_quoteToken (ht : Stringizable t) : Quotes t.spelling (quoteToken t.kind) := by
  obtain ⟨x, hx⟩ := ht.spelled
  obtain ⟨v, hv, hkind⟩ := hx.kind
  have hspelling : t.spelling = spelling v := by rw [Tok.spelling, hkind]
  have hnull := ht.null
  rw [hspelling] at hnull ⊢
  rw [hkind]
  obtain hword | ⟨wide, isString, body, rfl⟩ := hx.cases
  · have hback : v ≠ .special backslash.toNat := fun h => ht.backslash (by rw [hkind, h])
    have hshort : ∀ name, v = .ident name → name.length < identBuffer := fun name h =>
      ht.short name (by rw [Tok.name, hkind, h])
    rw [quoteToken_of_isWord hword hv hnull hshort]
    exact quotes_plains (plain_of_isWord hx.valid hword hv hback)
  · have hnewline : newline ∉ body.take maxString := fun h => newline_not_mem_body hx.valid (List.mem_of_mem_take h)
    have hdata : ∀ {delim : UInt8}, 0 ∉ (if wide then [ch 'L'] else []) ++ delim :: (body.take maxString ++ [delim]) →
        0 ∉ body.take maxString := by
      intro delim h hmem
      exact h (List.mem_append_right _ (List.mem_cons_of_mem _ (List.mem_append_left _ hmem)))
    obtain ⟨rfl, rfl⟩ | ⟨rfl, rfl | rfl⟩ := value_of_stringToken hv
    · exact quotes_quoteChar hnewline (hdata hnull)
    · exact quotes_quoteChar hnewline (hdata hnull)
    · exact quotes_quoteChar hnewline (hdata hnull)

/-! ## Arguments -/

theorem quotes_joined {whitespace : Bool} (harg : ∀ t ∈ arg, Stringizable t) :
    Quotes (joined Tok.spelling whitespace arg) (joined (fun t => quoteToken t.kind) whitespace arg) := by
  induction arg generalizing whitespace with
  | nil => exact .nil
  | cons t ts ih =>
    obtain ⟨ht, hts⟩ := List.forall_mem_cons.mp harg
    have hspace : Quotes (if whitespace then [ch ' '] else []) (if whitespace then [ch ' '] else []) := by
      cases whitespace
      · exact .nil
      · exact quotes_plain (by decide)
    exact (hspace.append (quotes_quoteToken ht)).append (ih hts)

/-- The buffer holds what has been joined as long as it is large enough. -/
theorem quoteLoop_eq {whitespace : Bool} {buffer : List UInt8}
    (hfits : (buffer ++ joined (fun t => quoteToken t.kind) whitespace arg).length < maxString) :
    quoteLoop arg whitespace buffer = (buffer ++ joined (fun t => quoteToken t.kind) whitespace arg, false) := by
  induction arg generalizing whitespace buffer with
  | nil => simp [quoteLoop, joined]
  | cons t ts ih =>
    have hroom : ¬maxString ≤ buffer.length + whitespace.toNat + (quoteToken t.kind).length := by
      cases whitespace <;> simp [joined] at hfits ⊢ <;> omega
    rw [quoteLoop]
    simp only [hroom, if_false]
    rw [ih]
    · simp [joined]
    · simpa [joined] using hfits

/-- The string literal that `stringify` makes of an argument stands for the spellings of its tokens. -/
theorem stringizesRight (hbits : 8 ≤ bits) (harg : ∀ t ∈ arg, Stringizable t)
    (hfits : (joined (fun t => quoteToken t.kind) false arg).length < maxString) : StringizesRight bits s arg := by
  have hquotes : Quotes (joined Tok.spelling false arg) (joined (fun t => quoteToken t.kind) false arg) :=
    quotes_joined harg
  obtain ⟨hdecode, hbody⟩ := hquotes []
  rw [List.append_nil] at hdecode hbody
  have hspelling : decode bits (joined (fun t => quoteToken t.kind) false arg) = joined Tok.spelling false arg := by
    rw [decode_bits hbits, hdecode]
    exact List.append_nil _
  have hlen : (joined Tok.spelling false arg).length ≤ maxString := by
    rw [← hspelling]
    exact (decode_length _ _).trans hfits.le
  refine ⟨joined (fun t => quoteToken t.kind) false arg, ?_, hbody .nil, fun next hnext => ?_⟩
  · have hloop : quoteLoop arg false [] = ([] ++ joined (fun t => quoteToken t.kind) false arg, false) :=
      quoteLoop_eq hfits
    rw [stringify, hloop]
    rfl
  · simp [getStringConstant, stringRun_eq hnext, hspelling, List.take_of_length_le hlen]

/-- A quote in a character constant, and a string with an escape behind white space. -/
def literalTokens : List Tok :=
  [plainTok (.embedded false [quote]), { plainTok (.string false [backslash, ch 'n']) with whitespace := true }]

theorem stringizesRight_literalTokens : StringizesRight 8 ⟨[], [], fun _ => none, 0, 0, [], []⟩ literalTokens := by
  refine stringizesRight le_rfl ?_ (by decide)
  intro t ht
  obtain rfl | ht := List.mem_cons.mp ht
  · have hx : (Lexeme.literal false false [quote]).Valid :=
      IsBody.plain (by decide) (by decide) (by decide) IsBody.nil
    exact ⟨⟨_, hx, by simp, _, rfl, rfl⟩, by decide, by decide, by simp [Tok.name, plainTok]⟩
  · obtain rfl := List.mem_singleton.mp ht
    have hx : (Lexeme.literal false true [backslash, ch 'n']).Valid := IsBody.escape (by decide) IsBody.nil
    exact ⟨⟨_, hx, by simp, _, rfl, rfl⟩, by decide, by decide, by simp [Tok.name, plainTok]⟩

/-- The string token of a lone backslash is no string literal. -/
theorem not_stringizesRight_backslash :
    ¬∀ (s : State) (arg : List Tok), (∀ t ∈ arg, ∃ x, Spells x t) → StringizesRight 8 s arg := by
  intro h
  have hx : (Lexeme.single backslash).Valid := ⟨by decide, by decide, by decide⟩
  have hclosed : ∀ c, Lexeme.single backslash = .single c → isQuote c = false := by
    intro c h
    rw [← Lexeme.single.inj h]
    decide
  have harg : ∀ t ∈ [plainTok (.special backslash.toNat)], ∃ x, Spells x t := by
    intro t ht
    obtain rfl := List.mem_singleton.mp ht
    exact ⟨_, spells_plainTok hx hclosed rfl⟩
  obtain ⟨text, hkind, hbody, -⟩ := h ⟨[], [], fun _ => none, 0, 0, [], []⟩ _ harg
  have htext : text = [backslash] := by
    have hvalue := Value.string.inj (Kind.value.inj hkind)
    exact hvalue.2.symm
  subst htext
  cases hbody with
  | plain hdelim hback hnewline hbody => exact hback rfl

end Sparse.MacroExpansion
