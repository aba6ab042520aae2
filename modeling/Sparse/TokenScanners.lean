import Mathlib.Tactic.SplitIfs
import Sparse.TokenGrammar

/-!
# Scanners

What each scanner does with the lexeme in front of it: which characters it takes, which
token it adds, and what it leaves of the flags and of the collected space.
-/

namespace Sparse.Tokenizer

variable {s : Stream} {rest text w body full space : List UInt8} {pos p : Position} {tokens : List Token}
  {c next delim : UInt8} {wide isString : Bool}

/-- The stream before `rest`, apart from the newline flag. -/
structure At (s : Stream) (rest : List UInt8) (whitespace : Bool) (space : List UInt8) (tokens : List Token) :
    Prop where
  text : s.text = rest
  whitespace : s.whitespace = whitespace
  space : s.space = space
  tokens : s.tokens = tokens

/-- The stream before `rest`; the look-ahead has set the newline flag already. -/
structure Reached (s : Stream) (rest : List UInt8) (pos : Position) (space : List UInt8) (tokens : List Token) :
    Prop extends At s rest pos.whitespace space tokens where
  newline : s.newline = (pos.newline || rest.head? = some Tokenizer.newline)

theorem At.nextchar {ws : Bool} (h : At s (c :: rest) ws space tokens) : At (nextchar s) rest ws space tokens where
  text := by simp [Tokenizer.nextchar, h.text]
  whitespace := h.whitespace
  space := h.space
  tokens := h.tokens

theorem At.push {ws : Bool} (h : At s rest ws space tokens) (c : Option UInt8) :
    At (tokenPushSpace s c) rest ws (space ++ [c.getD 255]) tokens where
  text := h.text
  whitespace := h.whitespace
  space := by simp [tokenPushSpace, h.space]
  tokens := h.tokens

namespace Reached

theorem nextchar (h : Reached s (c :: rest) pos space tokens) (hc : c ≠ Tokenizer.newline) :
    Reached (Tokenizer.nextchar s) rest pos space tokens where
  toAt := h.toAt.nextchar
  newline := by simp [Tokenizer.nextchar, h.newline, h.text, hc]

theorem nextchar_newline (h : Reached s (Tokenizer.newline :: rest) pos space tokens) :
    Reached (Tokenizer.nextchar s) rest { pos with newline := true } space tokens where
  toAt := h.toAt.nextchar
  newline := by simp [Tokenizer.nextchar, h.newline, h.text]

theorem warn (h : Reached s rest pos space tokens) (message : String) :
    Reached (s.warn message) rest pos space tokens :=
  ⟨⟨h.text, h.whitespace, h.space, h.tokens⟩, h.newline⟩

theorem push (h : Reached s rest pos space tokens) (c : UInt8) :
    Reached (tokenPushSpace s (some c)) rest pos (space ++ [c]) tokens where
  toAt := h.toAt.push (some c)
  newline := h.newline

theorem add (h : Reached s rest pos space tokens) (p : Position) (value : Value) :
    Reached (addToken s p value) rest pos [] (tokens ++ [{ value := value, pos := p, space := space }]) where
  text := h.text
  whitespace := h.whitespace
  space := rfl
  tokens := by simp [addToken, h.tokens, h.space]
  newline := h.newline

theorem drop (h : Reached s rest { newline := false, whitespace := false } space tokens) (p : Position)
    (hrest : rest.head? ≠ some Tokenizer.newline) : Reached (dropToken s p) rest p space tokens where
  text := h.text
  whitespace := by simp [dropToken, h.whitespace]
  space := h.space
  tokens := h.tokens
  newline := by simp [dropToken, h.newline, hrest]

end Reached

/-! ## Numbers -/

/-- The characters that the loop of `get_one_number` takes. -/
def numberTail : List UInt8 → List UInt8
  | [] => []
  | next :: text =>
    if isDot next || isDigit next || isLetter next then
      if isExp next then
        match text with
        | [] => [next]
        | sign :: text =>
          if sign = ch '-' || sign = ch '+' then next :: sign :: numberTail text
          else next :: numberTail (sign :: text)
      else next :: numberTail text
    else []

theorem pushNumber_take (full : List UInt8) (c : UInt8) :
    pushNumber (full.take numberBuffer) c = (full ++ [c]).take numberBuffer := by
  unfold pushNumber
  by_cases h : full.length < numberBuffer
  · have hle : (full ++ [c]).length ≤ numberBuffer := by
      rw [List.length_append, List.length_singleton]
      exact h
    rw [List.take_of_length_le (Nat.le_of_lt h), if_pos (Nat.ne_of_lt h), List.take_of_length_le hle]
  · have hlen : (full.take numberBuffer).length = numberBuffer := by
      rw [List.length_take]
      omega
    rw [if_neg (not_not.mpr hlen), List.take_append_of_le_length (Nat.le_of_not_lt h)]

theorem ne_newline_of_number (h : (isDot c || isDigit c || isLetter c) = true) : c ≠ newline := by
  rintro rfl
  exact absurd h (by decide)

section NumberTail

variable (hnext : (isDot next || isDigit next || isLetter next) = true)

theorem numberTail_of_not (h : ¬(isDot next || isDigit next || isLetter next) = true) (text : List UInt8) :
    numberTail (next :: text) = [] := by
  cases text <;> simp [numberTail, h]

include hnext

theorem numberTail_of_plain (hexp : ¬isExp next = true) (text : List UInt8) :
    numberTail (next :: text) = next :: numberTail text := by
  cases text <;> simp [numberTail, hnext, hexp]

theorem numberTail_of_sign {sign : UInt8} (hexp : isExp next = true) (hsign : (sign = ch '-' || sign = ch '+') = true)
    (text : List UInt8) : numberTail (next :: sign :: text) = next :: sign :: numberTail text := by
  simp only [numberTail, if_pos hnext, if_pos hexp, if_pos hsign]

theorem numberTail_of_exp {sign : UInt8} (hexp : isExp next = true) (hsign : ¬(sign = ch '-' || sign = ch '+') = true)
    (text : List UInt8) : numberTail (next :: sign :: text) = next :: numberTail (sign :: text) := by
  simp only [numberTail, if_pos hnext, if_pos hexp, if_neg hsign]

end NumberTail

theorem numberLoop_reached (h : Reached s text pos space tokens) (full : List UInt8) :
    ∃ s', numberLoop text s (full.take numberBuffer) = (s', (full ++ numberTail text).take numberBuffer) ∧
      Reached s' (text.drop (numberTail text).length) pos space tokens := by
  induction text using numberTail.induct generalizing s full with
  | case1 => exact ⟨s, by simp [numberLoop, numberTail], h⟩
  | case2 next hnext hexp =>
    refine ⟨Tokenizer.nextchar s, ?_, ?_⟩
    · simp [numberLoop, numberTail, hnext, hexp, pushNumber_take]
    · simpa [numberTail, hnext, hexp] using h.nextchar (ne_newline_of_number hnext)
  | case3 next hnext hexp sign text hsign ih =>
    have hne : sign ≠ newline := by
      rintro rfl
      exact absurd hsign (by decide)
    obtain ⟨s', hloop, hreached⟩ := ih ((h.nextchar (ne_newline_of_number hnext)).nextchar hne) (full ++ [next] ++ [sign])
    rw [numberTail_of_sign hnext hexp hsign]
    refine ⟨s', ?_, by simpa using hreached⟩
    rw [numberLoop]
    simp only [if_pos hnext, if_pos hexp, if_pos hsign, pushNumber_take]
    simpa using hloop
  | case4 next hnext hexp sign text hsign ih =>
    obtain ⟨s', hloop, hreached⟩ := ih (h.nextchar (ne_newline_of_number hnext)) (full ++ [next])
    rw [numberTail_of_exp hnext hexp hsign]
    refine ⟨s', ?_, by simpa using hreached⟩
    rw [numberLoop]
    simp only [if_pos hnext, if_pos hexp, if_neg hsign, pushNumber_take]
    simpa using hloop
  | case5 next text hnext hexp ih =>
    obtain ⟨s', hloop, hreached⟩ := ih (h.nextchar (ne_newline_of_number hnext)) (full ++ [next])
    rw [numberTail_of_plain hnext hexp]
    refine ⟨s', ?_, by simpa using hreached⟩
    rw [numberLoop]
    simp only [if_pos hnext, if_neg hexp, pushNumber_take]
    simpa using hloop
  | case6 next text hnext =>
    rw [numberTail_of_not hnext]
    refine ⟨s, ?_, h⟩
    rw [numberLoop, if_neg hnext, List.append_nil]

/-- `get_one_number` makes a number of its first character and those that the loop takes. -/
theorem getOneNumber_reached (h : Reached s text pos space tokens) (p : Position) :
    Reached (getOneNumber c p s) (text.drop (numberTail text).length) pos []
      (tokens ++ [{ value := .number (numberToken (c :: numberTail text)), pos := p, space := space }]) := by
  obtain ⟨s', hloop, hreached⟩ := numberLoop_reached h [c]
  have hstart : numberLoop s.text s [c] = (s', (c :: numberTail text).take numberBuffer) := by
    rw [h.text]
    exact hloop
  by_cases hshort : (c :: numberTail text).length < numberBuffer
  · rw [List.take_of_length_le (Nat.le_of_lt hshort)] at hstart
    rw [numberToken, if_pos hshort]
    simp only [getOneNumber, hstart, if_neg (Nat.ne_of_lt hshort)]
    exact hreached.add p _
  · have hlen : ((c :: numberTail text).take numberBuffer).length = numberBuffer := by
      rw [List.length_take]
      omega
    rw [numberToken, if_neg hshort]
    simp only [getOneNumber, hstart, if_pos hlen]
    exact (hreached.warn _).add p _

/-! ## Identifiers -/

/-- The characters that the loop of `get_one_identifier` takes. -/
def identTail (text : List UInt8) : List UInt8 :=
  text.takeWhile fun c => isLetter c || isDigit c

theorem ne_newline_of_ident (h : (isLetter c || isDigit c) = true) : c ≠ newline := by
  rintro rfl
  exact absurd h (by decide)

theorem identLoop_reached (h : Reached s (c :: text) pos space tokens) (hc : c ≠ newline) (buf : List UInt8)
    (hshort : buf.length + (identTail text).length < identBuffer) :
    ∃ s', identLoop text s buf = (s', buf ++ identTail text) ∧
      Reached s' (text.drop (identTail text).length) pos space tokens := by
  induction text generalizing s c buf with
  | nil => exact ⟨Tokenizer.nextchar s, by simp [identLoop, identTail], h.nextchar hc⟩
  | cons next text ih =>
    by_cases hnext : (isLetter next || isDigit next) = true
    · have htail : identTail (next :: text) = next :: identTail text := by simp [identTail, hnext]
      rw [htail, List.length_cons] at hshort
      have hbuf : ¬identBuffer ≤ buf.length := by omega
      obtain ⟨s', hloop, hreached⟩ := ih (h.nextchar hc) (ne_newline_of_ident hnext) (buf ++ [next]) (by
        rw [List.length_append, List.length_singleton]
        omega)
      refine ⟨s', ?_, ?_⟩
      · simpa [identLoop, hnext, hbuf, htail] using hloop
      · simpa [htail] using hreached
    · have htail : identTail (next :: text) = [] := by simp [identTail, hnext]
      refine ⟨Tokenizer.nextchar s, ?_, ?_⟩
      · simp [identLoop, hnext, htail]
      · simpa [htail] using h.nextchar hc

/-! ## Literals -/

/-- What `eat_string` has read; the buffer keeps the first characters. -/
def Eating.read (full : List UInt8) (escape wantHex : Bool) : Eating where
  buffer := full.take maxString
  len := full.length
  escape := escape
  wantHex := wantHex

theorem Eating.push_read (full : List UInt8) (escape wantHex : Bool) (c : UInt8) :
    (Eating.read full escape wantHex).push c = .read (full ++ [c]) escape wantHex := by
  by_cases h : full.length < maxString
  · have hle : full.length + 1 ≤ maxString := h
    have hfull : full.length ≤ maxString := Nat.le_of_lt h
    simp [Eating.push, Eating.read, h, List.take_of_length_le, hfull, hle]
  · have htake : (full ++ [c]).take maxString = full.take maxString :=
      List.take_append_of_le_length (Nat.le_of_not_lt h)
    simp [Eating.push, Eating.read, h, htake]

theorem eatOne_reached (h : Reached s rest pos space tokens) (next : UInt8) (t : Eating) :
    Reached (eatOne next s t).1 rest pos space tokens := by
  unfold eatOne
  split_ifs
  · exact h
  · exact h.warn _
  · exact h.warn _
  · exact h

theorem eatLoop_cons {t : Eating} (hdelim : t.escape = true ∨ c ≠ delim) (hnewline : c ≠ newline) :
    eatLoop delim (c :: text) s t =
      eatLoop delim text (Tokenizer.nextchar (eatOne c s (t.push c)).1) (eatOne c s (t.push c)).2 := by
  rcases hdelim with hescape | hdelim
  · simp [eatLoop, hescape, hnewline]
  · simp [eatLoop, hdelim, hnewline]

/-- The loop of `eat_string` takes the body of a literal and stops at its delimiter. -/
theorem eatLoop_reached (hdelim : delim ≠ backslash) (hbody : IsBody delim body)
    (h : Reached s (body ++ delim :: rest) pos space tokens) (full : List UInt8) (wantHex : Bool) :
    ∃ s' wantHex', Reached s' (delim :: rest) pos space tokens ∧
      eatLoop delim (body ++ delim :: rest) s (.read full false wantHex) =
        (s', some (.read (full ++ body) false wantHex')) := by
  induction hbody generalizing s full wantHex with
  | nil => exact ⟨s, wantHex, h, by simp [eatLoop, Eating.read]⟩
  | @plain c body hne hback hnewline hbody ih =>
    rw [List.cons_append] at h ⊢
    rw [eatLoop_cons (.inr hne) hnewline]
    have hstep : (eatOne c s ((Eating.read full false wantHex).push c)).2 = .read (full ++ [c]) false false := by
      rw [Eating.push_read]
      simp [eatOne, Eating.read, hback]
    obtain ⟨s', wantHex', hs', hloop⟩ :=
      ih ((eatOne_reached h c ((Eating.read full false wantHex).push c)).nextchar hnewline) (full ++ [c]) false
    refine ⟨s', wantHex', hs', ?_⟩
    rw [hstep, hloop]
    simp
  | @escape c body hnewline hbody ih =>
    rw [List.cons_append, List.cons_append] at h ⊢
    rw [eatLoop_cons (.inr hdelim.symm) (by decide)]
    have hfirst : (eatOne backslash s ((Eating.read full false wantHex).push backslash)).2 =
        .read (full ++ [backslash]) true false := by
      rw [Eating.push_read]
      simp [eatOne, Eating.read]
    have hs := (eatOne_reached h backslash ((Eating.read full false wantHex).push backslash)).nextchar (by decide)
    rw [hfirst, eatLoop_cons (.inl rfl) hnewline]
    generalize Tokenizer.nextchar (eatOne backslash s ((Eating.read full false wantHex).push backslash)).1 = s₁ at hs
    have hsecond : (eatOne c s₁ ((Eating.read (full ++ [backslash]) true false).push c)).2 =
        .read (full ++ [backslash] ++ [c]) false (c = ch 'x') := by
      rw [Eating.push_read]
      simp [eatOne, Eating.read]
    obtain ⟨s', wantHex', hs', hloop⟩ :=
      ih ((eatOne_reached hs c ((Eating.read (full ++ [backslash]) true false).push c)).nextchar hnewline)
        (full ++ [backslash] ++ [c]) (c = ch 'x')
    refine ⟨s', wantHex', hs', ?_⟩
    rw [hsecond, hloop]
    simp

theorem delimiter_ne_backslash (isString : Bool) : delimiter isString ≠ backslash := by
  cases isString <;> decide

theorem delimiter_ne_newline (isString : Bool) : delimiter isString ≠ newline := by
  cases isString <;> decide

/-- The token and the collected space that a literal leaves. -/
def literalSpace (wide isString : Bool) (body space : List UInt8) : List UInt8 :=
  if (stringToken wide isString body.length (body.take maxString)).isSome then [] else space

/-- `eat_string` makes a token of a literal, or none of an empty character constant. -/
theorem eatString_reached (hbody : IsBody (delimiter isString) body)
    (h : Reached s (body ++ delimiter isString :: rest) pos space tokens) (p : Position) :
    Reached (eatString wide isString p s) rest pos (literalSpace wide isString body space)
      (tokens ++
        ((stringToken wide isString body.length (body.take maxString)).map fun value =>
          { value := value, pos := p, space := space }).toList) := by
  obtain ⟨s', wantHex, hs', hloop⟩ := eatLoop_reached (delimiter_ne_backslash isString) hbody h [] false
  have hstart : eatLoop (if isString then quote else apostrophe) s.text s
      { buffer := [], len := 0, escape := false, wantHex := false } =
      (s', some (.read body false wantHex)) := by
    rw [h.text]
    exact hloop
  have hwarned : Reached (if wantHex then s'.warn "\\x used with no following hex digits" else s')
      (delimiter isString :: rest) pos space tokens := by
    split_ifs
    · exact hs'.warn _
    · exact hs'
  simp only [eatString, hstart, Eating.read]
  generalize (if wantHex then s'.warn "\\x used with no following hex digits" else s') = s₁ at hwarned
  have hlong : Reached
      (if maxString < body.length then
        s₁.warn s!"string too long ({body.length} bytes, {maxString} bytes max)" else s₁)
      (delimiter isString :: rest) pos space tokens := by
    split_ifs
    · exact hwarned.warn _
    · exact hwarned
  generalize (if maxString < body.length then
    s₁.warn s!"string too long ({body.length} bytes, {maxString} bytes max)" else s₁) = s₂ at hlong
  cases htoken : stringToken wide isString body.length (body.take maxString) with
  | none => simpa [literalSpace, htoken] using (hlong.warn _).nextchar (delimiter_ne_newline isString)
  | some value => simpa [literalSpace, htoken] using (hlong.add p value).nextchar (delimiter_ne_newline isString)

/-! ## Comments -/

/-- `drop_stream_eoln` takes the rest of the line and the newline that ends it. -/
theorem eolnLoop_reached {ended : Bool}
    (h : Reached s (c :: (body ++ (if ended then [newline] else []) ++ rest)) pos space tokens)
    (hc : c ≠ newline) (hbody : newline ∉ body) (hended : ended = false → rest = []) :
    Reached (eolnLoop (body ++ (if ended then [newline] else []) ++ rest) s) rest
      { pos with newline := pos.newline || ended } (space ++ (body ++ if ended then [newline] else [])) tokens := by
  induction body generalizing s c space with
  | nil =>
    cases ended with
    | false =>
      rw [hended rfl] at h ⊢
      simpa [eolnLoop] using h.nextchar hc
    | true => simpa [eolnLoop] using ((h.nextchar hc).push newline).nextchar_newline
  | cons b body ih =>
    obtain ⟨hne, hbody⟩ := not_or.mp (List.mem_cons.not.mp hbody)
    have hstep := ih ((h.nextchar hc).push b) (Ne.symm hne) hbody
    rw [List.append_assoc space] at hstep
    simpa [eolnLoop, Ne.symm hne] using hstep

/-- The loop of `drop_stream_comment` takes a comment up to its last character. -/
theorem commentLoop_at {ws : Bool} (h : At s (body ++ star :: slash :: rest) ws space tokens)
    (hbody : ¬[star, slash] <:+: body ++ [star]) :
    ∃ s', commentLoop (body ++ star :: slash :: rest) s = (s', true) ∧
      At s' (slash :: rest) ws (space ++ (body ++ [star, slash]).tail) tokens := by
  induction body generalizing s space with
  | nil =>
    refine ⟨tokenPushSpace (nextchar s) (some slash), by simp [commentLoop], ?_⟩
    exact (At.nextchar h).push (some slash)
  | cons b body ih =>
    obtain ⟨n, more, hmore⟩ : ∃ n more, body ++ [star, slash] = n :: more :=
      List.exists_cons_of_ne_nil (by simp)
    have hhead : (body ++ star :: slash :: rest).head? = some n := by
      rw [show body ++ star :: slash :: rest = (body ++ [star, slash]) ++ rest by simp, hmore]
      rfl
    have hgoes : ¬(b = star ∧ n = slash) := by
      rintro ⟨rfl, rfl⟩
      cases body with
      | nil =>
        rw [List.nil_append] at hmore
        exact absurd (List.head_eq_of_cons_eq hmore) (by decide)
      | cons b' body =>
        rw [List.cons_append] at hmore
        rw [List.head_eq_of_cons_eq hmore] at hbody
        exact hbody ⟨[], body ++ [star], by simp⟩
    have hinner : ¬[star, slash] <:+: body ++ [star] := fun hinner =>
      hbody (hinner.trans (List.suffix_cons b _).isInfix)
    obtain ⟨s', hloop, hs'⟩ := ih ((At.nextchar h).push (some n)) hinner
    refine ⟨s', ?_, ?_⟩
    · rw [List.cons_append, commentLoop]
      simp only [hhead, Bool.and_eq_true, decide_eq_true_eq, Option.some.injEq, hgoes, if_false]
      exact hloop
    · rw [hmore] at hs'
      simpa [hmore] using hs'

/-- `drop_stream_comment` takes a whole comment into the collected space. -/
theorem dropStreamComment_reached (h : Reached s (star :: (body ++ [star, slash] ++ rest))
      { newline := false, whitespace := false } space tokens)
    (hbody : ¬[star, slash] <:+: body ++ [star]) (p : Position) :
    Reached (dropStreamComment p s) rest p (space ++ (body ++ [star, slash])) tokens := by
  obtain ⟨n, more, hmore⟩ : ∃ n more, body ++ [star, slash] = n :: more :=
    List.exists_cons_of_ne_nil (by simp)
  have hdropped := h.drop p (by simp [show star ≠ newline by decide])
  have hnewline : (dropToken s p).newline = p.newline := by
    simp [hdropped.newline, show star ≠ newline by decide]
  have hnext := hdropped.toAt.nextchar
  have hhead : (nextchar (dropToken s p)).text.head? = some n := by
    rw [hnext.text, hmore]
    rfl
  have hpushed := hnext.push (some n)
  rw [show body ++ [star, slash] ++ rest = body ++ star :: slash :: rest by simp] at hpushed
  obtain ⟨s', hloop, hs'⟩ := commentLoop_at hpushed hbody
  simp only [dropStreamComment, hhead, hpushed.text, hloop, hnewline]
  have hlast : Reached { s' with newline := p.newline } (slash :: rest) p (space ++ (body ++ [star, slash])) tokens :=
    ⟨⟨hs'.text, hs'.whitespace, by simpa [hmore] using hs'.space, hs'.tokens⟩,
      by simp [show slash ≠ newline by decide]⟩
  exact hlast.nextchar (by decide)

/-! ## Punctuators -/

theorem isValidSecond_of_mem {line : UInt8 × UInt8 × ℕ} (h : line ∈ specialCodes) : isValidSecond line.2.1 := by
  revert line
  decide

/-- The hash finds a combination where there is one. -/
theorem mem_of_hashEntry (hsecond : isValidSecond next) (hc : (hashEntry (specialHash c next)).1 = c)
    (hnext : (hashEntry (specialHash c next)).2.1 = next) : hashEntry (specialHash c next) ∈ specialCodes := by
  unfold hashEntry at hc hnext ⊢
  cases hfind : specialCodes.reverse.find? fun line => specialHash line.1 line.2.1 = specialHash c next with
  | none =>
    rw [hfind] at hnext
    subst hnext
    exact absurd hsecond (by decide)
  | some line => exact List.mem_reverse.mp (List.mem_of_find?_eq_some hfind)

theorem getCombination_of_not_mem (p : Position) (h : ∀ next ∈ s.text.head?, ∀ value, (c, next, value) ∉ specialCodes) :
    getCombination c p s = addToken s p (.special c.toNat) := by
  cases htext : s.text with
  | nil => simp [getCombination, htext]
  | cons next text =>
    rw [htext] at h
    have hcond : ¬(isValidSecond next && (hashEntry (specialHash c next)).1 = c &&
        (hashEntry (specialHash c next)).2.1 = next) = true := by
      intro hcond
      simp only [Bool.and_eq_true, decide_eq_true_eq] at hcond
      have hmem := mem_of_hashEntry hcond.1.1 hcond.1.2 hcond.2
      refine h next rfl (hashEntry (specialHash c next)).2.2 ?_
      rw [← show hashEntry (specialHash c next) = (c, next, (hashEntry (specialHash c next)).2.2) from
        Prod.ext hcond.1.2 (Prod.ext hcond.2 rfl)]
      exact hmem
    simp only [getCombination, htext, if_neg hcond]

theorem getCombination_of_mem {value : ℕ} (p : Position) (htext : s.text = next :: rest)
    (h : (c, next, value) ∈ specialCodes) :
    getCombination c p s =
      if specialLeftshift ≤ value && rest.head? = some (thirdCharacter value) then
        addToken (nextchar (nextchar s)) p (.special (value + 3))
      else addToken (nextchar s) p (.special value) := by
  have hentry := hashEntry_of_mem h
  have hsecond := isValidSecond_of_mem h
  have hrest : (nextchar s).text = rest := by simp [nextchar, htext]
  simp only [getCombination, htext, hentry, hrest]
  simp [hsecond]

end Sparse.Tokenizer
