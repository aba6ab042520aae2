import Sparse.PastedWords

/-!
# Pasted tokens

What `merge` makes of any two tokens, beside the tokenizer on the characters of both.
-/

namespace Sparse.MacroExpansion

open Tokenizer

variable {ppnoopt : Bool} {x y : Lexeme} {left right : Tok} {v w : Value}

/-- The token is one that the tokenizer makes of the lexeme. -/
structure Spells (x : Lexeme) (t : Tok) : Prop where
  valid : x.Valid
  closed : ∀ c, x = .single c → isQuote c = false
  kind : ∃ v, x.value = some v ∧ t.kind = .value v

/-- `merge` succeeds if the characters of both tokens are one token, and makes that token. -/
def PastesRight (ppnoopt : Bool) (x y : Lexeme) (left right : Tok) : Prop :=
  (merge left right).map Tok.kind = (soleToken ppnoopt (x.text ++ y.text)).map Kind.value

/-! ## Literals -/

theorem isCombinable_literal {wide isString : Bool} {body : List UInt8}
    (hv : (Lexeme.literal wide isString body).value = some v) : isCombinable v = false := by
  simp only [Lexeme.value, stringToken] at hv
  split_ifs at hv
  · obtain rfl := Option.some.inj hv
    rfl
  · obtain rfl := Option.some.inj hv
    rfl
  · obtain rfl := Option.some.inj hv
    rfl

theorem mergeText_of_not_combinable (h : isCombinable v = false ∨ isCombinable w = false) :
    mergeText v w = none := by
  unfold mergeText
  refine if_pos ?_
  rcases h with h | h
  · rw [h]
    rfl
  · rw [h, Bool.not_false, Bool.or_true, Bool.true_or]

/-- The letter makes a literal wide. -/
theorem mergeValue_wide {isString : Bool} {len : ℕ} {buffer : List UInt8}
    (hw : stringToken false isString len buffer = some w) :
    mergeValue (.ident [ch 'L']) w = stringToken true isString len buffer := by
  simp only [stringToken] at hw ⊢
  split_ifs at hw ⊢
  · obtain rfl := Option.some.inj hw
    rfl
  · obtain rfl := Option.some.inj hw
    rfl
  · obtain rfl := Option.some.inj hw
    rfl

/-- Where the letter does not stand in front of a narrow literal, a literal is not merged. -/
theorem mergeValue_literal_right {wide isString : Bool} {body : List UInt8} (hx : x.Valid) (hxword : x.IsWord)
    (hv : x.value = some v) (hw : (Lexeme.literal wide isString body).value = some w)
    (hwide : x.text ≠ [ch 'L'] ∨ wide = true) : mergeValue v w = none := by
  have hnone : mergeText v w = none := mergeText_of_not_combinable (.inr (isCombinable_literal hw))
  have hletter : ∀ name, v = .ident name → x.text = name := by
    rintro name rfl
    cases x with
    | ident name' => exact Value.ident.inj (Option.some.inj hv)
    | number text => cases hv
    | combination i => cases hv
    | single c => cases hv
    | _ => exact hxword.elim
  have hnarrow : ∀ data, (w = .embedded false data ∨ w = .char false data ∨ w = .string false data) →
      wide = false := by
    intro data hdata
    simp only [Lexeme.value, stringToken] at hw
    split_ifs at hw
    all_goals
      obtain rfl := Option.some.inj hw
      rcases hdata with h | h | h
      all_goals cases h
      all_goals rfl
  unfold mergeValue
  split
  next data =>
    refine hwide.elim (fun h => absurd (hletter _ rfl) h) fun h => ?_
    rw [hnarrow data (.inl rfl)] at h
    cases h
  next data =>
    refine hwide.elim (fun h => absurd (hletter _ rfl) h) fun h => ?_
    rw [hnarrow data (.inr (.inl rfl))] at h
    cases h
  next data =>
    refine hwide.elim (fun h => absurd (hletter _ rfl) h) fun h => ?_
    rw [hnarrow data (.inr (.inr rfl))] at h
    cases h
  next => exact hnone

theorem mergeValue_literal_left {wide isString : Bool} {body : List UInt8}
    (hv : (Lexeme.literal wide isString body).value = some v) : mergeValue v w = none := by
  have hcombinable := isCombinable_literal hv
  unfold mergeValue
  split
  · cases hcombinable
  · cases hcombinable
  · cases hcombinable
  · exact mergeText_of_not_combinable (.inl hcombinable)

theorem makesToken_of_value (hv : x.value = some v) : x.MakesToken := by
  refine ⟨?_, v, hv⟩
  cases x with
  | space c => cases hv
  | lineComment body ended => cases hv
  | blockComment body => cases hv
  | _ => rfl

theorem quote_of_literal {wide isString : Bool} {body : List UInt8} :
    ∀ c, Lexeme.literal wide isString body = .single c → isQuote c = false := by
  intro c h
  cases h

theorem isWord_single (hxword : x.IsWord) : ∀ c, x = .single c → isQuote c = false := by
  rintro c rfl
  exact hxword

/-- A word in front of a literal is another token, but for the letter of a wide one. -/
theorem soleToken_literal_right {wide isString : Bool} {body : List UInt8} (hx : x.Valid) (hxword : x.IsWord)
    (hy : (Lexeme.literal wide isString body).Valid) (hv : x.value = some v)
    (hw : (Lexeme.literal wide isString body).value = some w)
    (hlen : (x.text ++ (Lexeme.literal wide isString body).text).length < 256)
    (hwide : x.text ≠ [ch 'L'] ∨ wide = true) :
    soleToken ppnoopt (x.text ++ (Lexeme.literal wide isString body).text) = none := by
  have hopen : ∀ z : Lexeme, z = .single slash → (Lexeme.literal wide isString body).text.head? ≠ some star := by
    intro z _
    cases wide <;> cases isString <;> simp [Lexeme.text, delimiter] <;> decide
  cases wide with
  | false =>
    have hletter : x.text ≠ [ch 'L'] := hwide.resolve_right Bool.false_ne_true
    exact soleToken_append (longest_word_quote hx hxword hletter (isQuote_delimiter isString)) hy
      (makesToken_of_value hv) (makesToken_of_value hw) (isWord_single hxword) quote_of_literal (hopen x) hlen
  | true =>
    by_cases hspecial : x.IsSpecial
    · exact soleToken_append (longest_special_letter hx hspecial (by decide)) hy (makesToken_of_value hv)
        (makesToken_of_value hw) (isWord_single hxword) quote_of_literal (hopen x) hlen
    · -- the letter belongs to the word
      have hsplit : x.text ++ (Lexeme.literal true isString body).text =
          (x.text ++ [ch 'L']) ++ (Lexeme.literal false isString body).text := by
        rw [List.append_assoc]
        rfl
      have hnarrow : ∃ u, (Lexeme.literal false isString body).value = some u := by
        simp only [Lexeme.value, stringToken] at hw ⊢
        split_ifs at hw ⊢
        all_goals exact ⟨_, rfl⟩
      obtain ⟨u, hu⟩ := hnarrow
      rw [hsplit] at hlen ⊢
      have hlonger : x.text ++ [ch 'L'] ≠ [ch 'L'] := fun heq =>
        tokenGrammar.ne_nil x hx (List.append_cancel_right (heq.trans (List.nil_append _).symm))
      cases x with
      | ident name =>
        have hz : (Lexeme.ident (name ++ [ch 'L'])).Valid := by
          obtain ⟨c, cs, rfl, hc, hcs⟩ := hx
          refine ⟨c, cs ++ [ch 'L'], rfl, hc, fun d hd => ?_⟩
          rcases List.mem_append.1 hd with hd | hd
          · exact hcs d hd
          · rw [List.mem_singleton.1 hd]
            decide
        exact soleToken_append (x := .ident (name ++ [ch 'L']))
          (longest_word_quote hz trivial hlonger (isQuote_delimiter isString)) hy (makesToken_of_value rfl)
          (makesToken_of_value hu) (isWord_single trivial) quote_of_literal (fun h => by cases h) hlen
      | number text =>
        have hz : (Lexeme.number (text ++ [ch 'L'])).Valid := IsNumber.more hx (by decide)
        exact soleToken_append (x := .number (text ++ [ch 'L']))
          (longest_word_quote hz trivial hlonger (isQuote_delimiter isString)) hy (makesToken_of_value rfl)
          (makesToken_of_value hu) (isWord_single trivial) quote_of_literal (fun h => by cases h) hlen
      | combination i => exact absurd trivial hspecial
      | single c => exact absurd hxword hspecial
      | _ => exact hxword.elim

/-- The letter in front of a narrow literal. -/
theorem pastes_wide {isString : Bool} {body : List UInt8} (hy : (Lexeme.literal false isString body).Valid)
    (hw : (Lexeme.literal false isString body).value = some w) :
    mergeValue (.ident [ch 'L']) w = soleToken ppnoopt ([ch 'L'] ++ (Lexeme.literal false isString body).text) := by
  have hvalue : mergeValue (.ident [ch 'L']) w = (Lexeme.literal true isString body).value := mergeValue_wide hw
  have hwide : ∃ u, (Lexeme.literal true isString body).value = some u := by
    simp only [Lexeme.value, stringToken] at hw ⊢
    split_ifs at hw ⊢
    all_goals exact ⟨_, rfl⟩
  obtain ⟨u, hu⟩ := hwide
  rw [hvalue, hu]
  exact (soleToken_of_lexeme (x := .literal true isString body) hy hu rfl trivial trivial).symm

/-- A word whose characters are the letter is the identifier. -/
theorem eq_ident_of_text (hx : x.Valid) (hxword : x.IsWord) (htext : x.text = [ch 'L']) : x = .ident [ch 'L'] := by
  cases x with
  | ident name => exact congrArg Lexeme.ident htext
  | number text =>
    obtain ⟨c, cs, rfl, -, hstart⟩ := IsNumber.exists_tail hx
    rw [(List.cons.inj htext).1] at hstart
    rcases hstart with hdigit | ⟨hdot, -⟩
    · exact absurd hdigit (by decide)
    · exact absurd hdot (by decide)
  | combination i =>
    have hclass := Lexeme.IsSpecial.class_eq (x := .combination i) hx trivial (ch 'L') (by rw [htext]; simp)
    exact absurd hclass.1 (by decide)
  | single c =>
    obtain rfl := (List.cons.inj htext).1
    exact absurd hx.2.1 (by decide)
  | _ => exact hxword.elim

/-! ## All tokens -/

/-- A token is a word or a literal. -/
theorem Spells.cases (h : Spells x left) : x.IsWord ∨ ∃ wide isString body, x = .literal wide isString body := by
  obtain ⟨v, hv, -⟩ := h.kind
  have hclosed := h.closed
  cases x with
  | ident name => exact .inl trivial
  | number text => exact .inl trivial
  | combination i => exact .inl trivial
  | single c => exact .inl (hclosed c rfl)
  | literal wide isString body => exact .inr ⟨wide, isString, body, rfl⟩
  | space c => cases hv
  | lineComment body ended => cases hv
  | blockComment body => cases hv

theorem mergeValue_eq_soleToken_iff (hx : Spells x left) (hy : Spells y right) (hv : x.value = some v)
    (hw : y.value = some w) (hlen : (x.text ++ y.text).length < 256) :
    mergeValue v w = soleToken ppnoopt (x.text ++ y.text) ↔ ¬Misjudged x y := by
  rcases hx.cases with hxword | ⟨wide, isString, body, rfl⟩
  · rcases hy.cases with hyword | ⟨wide, isString, body, rfl⟩
    · rw [mergeValue_word hyword hw]
      exact pastes_words hx.valid hxword hy.valid hyword hlen hv hw
    · have hright : ¬Misjudged x (.literal wide isString body) := by
        cases x with
        | _ => exact id
      refine iff_of_true ?_ hright
      by_cases hwide : x.text ≠ [ch 'L'] ∨ wide = true
      · rw [mergeValue_literal_right hx.valid hxword hv hw hwide,
          soleToken_literal_right hx.valid hxword hy.valid hv hw hlen hwide]
      · obtain ⟨htext, hnarrow⟩ := not_or.1 hwide
        obtain rfl := eq_ident_of_text hx.valid hxword (not_not.1 htext)
        obtain rfl := Bool.eq_false_iff.2 hnarrow
        obtain rfl := Option.some.inj hv
        exact pastes_wide hy.valid hw
  · have hleft : ¬Misjudged (.literal wide isString body) y := by
      cases y with
      | _ => exact id
    refine iff_of_true ?_ hleft
    rw [mergeValue_literal_left hv]
    exact (soleToken_append (longest_literal hx.valid y.text) hy.valid (makesToken_of_value hv)
      (makesToken_of_value hw) quote_of_literal hy.closed (fun h => by cases h) hlen).symm

/-- `merge` agrees with the tokenizer on the characters of both tokens, exactly unless a
number stands in front of two or three dots or a null character takes part. -/
theorem pastesRight_iff (ppnoopt : Bool) (x y : Lexeme) (left right : Tok) (hx : Spells x left)
    (hy : Spells y right) (hlen : (x.text ++ y.text).length ≤ 255) :
    PastesRight ppnoopt x y left right ↔ ¬Misjudged x y := by
  obtain ⟨v, hv, hleft⟩ := hx.kind
  obtain ⟨w, hw, hright⟩ := hy.kind
  have hmerge : (merge left right).map Tok.kind = (mergeValue v w).map Kind.value := by
    rw [merge, hleft, hright]
    simp only [Option.map_map]
    rfl
  rw [PastesRight, hmerge, ← mergeValue_eq_soleToken_iff hx hy hv hw (Nat.lt_succ_of_le hlen)]
  exact (Option.map_injective fun a b h => Kind.value.inj h).eq_iff

/-- A token with nothing in front of it. -/
def plainTok (value : Value) : Tok where
  id := 0
  kind := .value value
  place := { stream := 0, line := 1, pos := 0 }
  newline := false
  whitespace := false
  noexpand := false

theorem spells_plainTok (hx : x.Valid) (hclosed : ∀ c, x = .single c → isQuote c = false) (hv : x.value = some v) :
    Spells x (plainTok v) := ⟨hx, hclosed, v, hv, rfl⟩

/-- The letter of an exponent and a sign. -/
theorem pastesRight_exponent :
    PastesRight false (.number [ch '1', ch 'e']) (.single (ch '+')) (plainTok (.number [ch '1', ch 'e']))
      (plainTok (.special (ch '+').toNat)) := by
  have hnumber : (Lexeme.number [ch '1', ch 'e']).Valid := IsNumber.more (w := [ch '1']) (.digit (by decide)) (by decide)
  have hsign : (Lexeme.single (ch '+')).Valid := ⟨by decide, by decide, by decide⟩
  have hquote : ∀ c, Lexeme.single (ch '+') = .single c → isQuote c = false := by
    intro c h
    rw [← Lexeme.single.inj h]
    decide
  exact (pastesRight_iff false _ _ _ _ (spells_plainTok hnumber (by simp) rfl) (spells_plainTok hsign hquote rfl)
    (by decide)).2 id

/-- `1` and three dots are a preprocessing number, which `combine` does not make. -/
theorem not_pastesRight_dots :
    ¬∀ (x y : Lexeme) (left right : Tok), Spells x left → Spells y right → (x.text ++ y.text).length ≤ 255 →
      PastesRight false x y left right := by
  intro h
  have hnumber : (Lexeme.number [ch '1']).Valid := IsNumber.digit (by decide)
  have hdots : (Lexeme.combination 23).Valid := (by decide : 23 < combinationCount)
  have hpastes := h _ _ _ _ (spells_plainTok hnumber (by simp) rfl) (spells_plainTok hdots (by simp) rfl) (by decide)
  exact absurd hpastes (by unfold PastesRight; decide)

end Sparse.MacroExpansion
