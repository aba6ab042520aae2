import Mathlib.Data.List.Chain
import Sparse.TokenizedStreams

/-!
# Sole tokens

Texts that the tokenizer takes for one token. A text without white space, literals and
comments is one exactly if it is the text of a lexeme, and what ends in front of a quote is
followed by another token.
-/

namespace Sparse.Tokenizer

open LongestMatch

variable {ppnoopt : Bool} {text rest body : List UInt8} {c : UInt8} {u : Value} {x y z : Lexeme} {xs : List Lexeme}

/-- The value of the token, where the tokenizer finds no other one. -/
def soleToken (ppnoopt : Bool) (text : List UInt8) : Option Value :=
  match (tokenizeText ppnoopt text).map fun s => s.tokens.map Token.value with
  | some [u, Value.streamEnd] => some u
  | _ => none

/-- The lexeme makes a token. -/
def Lexeme.MakesToken (x : Lexeme) : Prop := x.isGap = false ∧ ∃ v, x.value = some v

theorem expected_of_makesToken (hxs : ∀ x ∈ xs, x.MakesToken) (g : Gap) :
    (expected Lexeme.value g xs).map Prod.fst = xs.filterMap Lexeme.value ++ [.streamEnd] := by
  induction xs generalizing g with
  | nil => rfl
  | cons x xs ih =>
    obtain ⟨hgap, v, hv⟩ := hxs x List.mem_cons_self
    rw [expected, if_neg (by rw [hgap]; exact Bool.false_ne_true), List.filterMap_cons, hv]
    simp only [Option.map_some, Option.toList_some, List.cons_append, List.map_cons, List.nil_append,
      ih (fun y hy => hxs y (List.mem_cons_of_mem x hy)) .empty]

theorem tokens_of_lexes (hxs : Lexes text xs) (hterminated : Terminated xs) (hfits : ∀ x ∈ xs, x.Fits)
    (hmakes : ∀ x ∈ xs, x.MakesToken) :
    (tokenizeText ppnoopt text).map (fun s => s.tokens.map Token.value) =
      some (xs.filterMap Lexeme.value ++ [.streamEnd]) := by
  obtain ⟨s, hrun, -, htokens⟩ := tokenizeText_agrees ppnoopt hxs hterminated hfits
  have hvalues : s.tokens.map Token.value = (expected Lexeme.value .start xs).map Prod.fst := by
    refine List.forall₂_eq_eq_eq ▸ List.forall₂_map_left_iff.2 (List.forall₂_map_right_iff.2 ?_)
    exact htokens.imp fun token e hagrees => hagrees.1
  rw [hrun, Option.map_some, hvalues, expected_of_makesToken hmakes]

/-- One lexeme is one token. -/
theorem soleToken_of_lexeme (hx : x.Valid) (hvalue : x.value = some u) (hgap : x.isGap = false)
    (hterminated : Terminated [x]) (hfits : x.Fits) : soleToken ppnoopt x.text = some u := by
  have htokens : (tokenizeText ppnoopt x.text).map (fun s => s.tokens.map Token.value) =
      some ([x].filterMap Lexeme.value ++ [.streamEnd]) :=
    tokens_of_lexes (lexes_singleton hx) hterminated (fun y hy => List.mem_singleton.1 hy ▸ hfits)
      (fun y hy => List.mem_singleton.1 hy ▸ ⟨hgap, u, hvalue⟩)
  rw [soleToken, htokens, List.filterMap_cons, hvalue]
  rfl

/-- Two lexemes are two tokens. -/
theorem soleToken_of_lexes (hxs : Lexes text (x :: y :: xs)) (hterminated : Terminated (x :: y :: xs))
    (hfits : ∀ z ∈ x :: y :: xs, z.Fits) (hmakes : ∀ z ∈ x :: y :: xs, z.MakesToken) :
    soleToken ppnoopt text = none := by
  obtain ⟨-, v, hv⟩ := hmakes x List.mem_cons_self
  obtain ⟨-, w, hw⟩ := hmakes y (List.mem_cons_of_mem x List.mem_cons_self)
  rw [soleToken, tokens_of_lexes hxs hterminated hfits hmakes, List.filterMap_cons, hv, List.filterMap_cons, hw]
  split
  next heq =>
    simp only [Option.some.injEq, List.cons_append, List.cons.injEq] at heq
    exact absurd heq.2.2 (List.append_ne_nil_of_right_ne_nil _ (List.cons_ne_nil _ _))
  next => rfl

/-! ## Solid texts -/

/-- No comment begins with the first character in front of the second one. -/
def Apart (c d : UInt8) : Prop := c = slash → d ≠ slash ∧ d ≠ star

/-- Without white space, quotes and the beginning of a comment. -/
structure Solid (text : List UInt8) : Prop where
  class_eq : ∀ c ∈ text, isSpace c = false ∧ isQuote c = false
  apart : text.IsChain Apart

theorem Solid.right {before : List UInt8} (h : Solid (before ++ text)) : Solid text where
  class_eq c hc := h.class_eq c (List.mem_append_right before hc)
  apart := (List.isChain_append.1 h.apart).2.1

theorem quote_mem_literal (wide isString : Bool) (body : List UInt8) :
    delimiter isString ∈ (Lexeme.literal wide isString body).text :=
  List.mem_append_right _ List.mem_cons_self

theorem isQuote_delimiter (isString : Bool) : isQuote (delimiter isString) = true := by
  cases isString with
  | true => rfl
  | false => rfl

/-- What is at the front of a solid text makes a token and is no literal. -/
theorem makesToken_of_solid (hx : x.Valid) (hsolid : Solid (x.text ++ rest)) :
    x.MakesToken ∧ ∀ wide isString body, x ≠ .literal wide isString body := by
  have hclass : ∀ c ∈ x.text, isSpace c = false ∧ isQuote c = false :=
    fun c hc => hsolid.class_eq c (List.mem_append_left rest hc)
  have hcomment : ∀ d cs, (d = slash ∨ d = star) → x.text ≠ slash :: d :: cs := by
    intro d cs hd htext
    have hapart := hsolid.apart
    rw [htext, List.cons_append, List.cons_append, List.isChain_cons_cons] at hapart
    exact hd.elim (hapart.1 rfl).1 (hapart.1 rfl).2
  cases x with
  | space c =>
    have hspace := (hclass c List.mem_cons_self).1
    exact absurd hx (by simp [Lexeme.Valid, hspace])
  | lineComment body ended => exact absurd rfl (hcomment slash _ (.inl rfl))
  | blockComment body => exact absurd rfl (hcomment star _ (.inr rfl))
  | literal wide isString body =>
    have hquote := (hclass _ (quote_mem_literal wide isString body)).2
    exact absurd hquote (by simp [isQuote_delimiter])
  | ident name => exact ⟨⟨rfl, _, rfl⟩, by simp⟩
  | number text => exact ⟨⟨rfl, _, rfl⟩, by simp⟩
  | combination i => exact ⟨⟨rfl, _, rfl⟩, by simp⟩
  | single c => exact ⟨⟨rfl, _, rfl⟩, by simp⟩

/-- The lexemes of a solid text all make tokens, and none is left open. -/
theorem lexes_solid (hxs : Lexes text xs) (hsolid : Solid text) :
    (∀ x ∈ xs, x.MakesToken) ∧ Terminated xs := by
  induction hxs with
  | nil => exact ⟨fun _ hx => (List.not_mem_nil hx).elim, trivial⟩
  | @cons x rest xs hx hrest ih =>
    obtain ⟨hmakes, hterminated⟩ := ih hsolid.right
    refine ⟨fun y hy => ?_, ?_⟩
    · rcases List.mem_cons.1 hy with rfl | hy
      · exact (makesToken_of_solid hx.valid hsolid).1
      · exact hmakes y hy
    · cases x with
      | single c =>
        refine ⟨(hsolid.class_eq c List.mem_cons_self).2, ?_, hterminated⟩
        rintro ⟨rfl, hstar⟩
        rw [show xs.flatMap Lexeme.text = rest from hrest.flatMap_text] at hstar
        obtain ⟨more, rfl⟩ := List.head?_eq_some_iff.1 hstar
        exact ((List.isChain_cons_cons.1 hsolid.apart).1 rfl).2 rfl
      | _ => exact hterminated

theorem length_le_of_lexes (hxs : Lexes text xs) (hx : x ∈ xs) : x.text.length ≤ text.length := by
  rw [← show xs.flatMap Lexeme.text = text from hxs.flatMap_text]
  exact (List.sublist_flatten_of_mem (List.mem_map_of_mem hx)).length_le

theorem fits_of_length (h : x.text.length < identBuffer) : x.Fits := by
  cases x with
  | ident name => exact h
  | number text => exact Nat.lt_trans h (by decide)
  | _ => trivial

/-- A solid text is one token exactly if it is the text of a lexeme. -/
theorem soleToken_solid (hsolid : Solid text) (hne : text ≠ []) (hlen : text.length < identBuffer) :
    soleToken ppnoopt text = some u ↔ ∃ z : Lexeme, z.Valid ∧ z.text = text ∧ z.value = some u := by
  have hfits : ∀ {xs}, Lexes text xs → ∀ x ∈ xs, x.Fits := fun hxs x hx =>
    fits_of_length (Nat.lt_of_le_of_lt (length_le_of_lexes hxs hx) hlen)
  constructor
  · intro hsole
    obtain ⟨xs, hxs⟩ := tokenGrammar.exists_splits text
    obtain ⟨hmakes, hterminated⟩ := lexes_solid hxs hsolid
    cases hxs with
    | nil => exact absurd rfl hne
    | @cons z rest xs hz hrest =>
      cases hrest with
      | nil =>
        obtain ⟨hgap, v, hv⟩ := hmakes z List.mem_cons_self
        have hone : soleToken ppnoopt z.text = some v :=
          soleToken_of_lexeme hz.valid hv hgap hterminated (hfits (.cons hz .nil) z List.mem_cons_self)
        rw [show tokenGrammar.text z = z.text from rfl, List.append_nil, hone] at hsole
        exact ⟨z, hz.valid, (List.append_nil _).symm, hv.trans hsole⟩
      | cons hy hmore =>
        rw [soleToken_of_lexes (.cons hz (.cons hy hmore)) hterminated (hfits (.cons hz (.cons hy hmore))) hmakes]
          at hsole
        cases hsole
  · rintro ⟨z, hz, rfl, hv⟩
    have hxs := lexes_singleton hz
    obtain ⟨hmakes, hterminated⟩ := lexes_solid hxs hsolid
    exact soleToken_of_lexeme hz hv (hmakes z List.mem_cons_self).1 hterminated (hfits hxs z List.mem_cons_self)

/-! ## Literals -/

/-- The first delimiter that is not escaped ends the body. -/
theorem IsBody.unique {delim : UInt8} {body' : List UInt8} {l l' : List UInt8} (hdelim : delim ≠ backslash)
    (hbody : IsBody delim body) (hbody' : IsBody delim body') (h : body ++ delim :: l = body' ++ delim :: l') :
    body = body' := by
  induction hbody generalizing body' with
  | nil =>
    cases hbody' with
    | nil => rfl
    | plain hne _ _ _ => exact absurd (List.cons.inj h).1.symm hne
    | escape _ _ => exact absurd (List.cons.inj h).1 hdelim
  | plain hne hback _ _ ih =>
    cases hbody' with
    | nil => exact absurd (List.cons.inj h).1 hne
    | plain _ _ _ hbody' =>
      obtain ⟨rfl, hrest⟩ := List.cons.inj h
      rw [ih hbody' hrest]
    | escape _ _ => exact absurd (List.cons.inj h).1 hback
  | escape _ _ ih =>
    cases hbody' with
    | nil => exact absurd (List.cons.inj h).1.symm hdelim
    | plain _ hback _ _ => exact absurd (List.cons.inj h).1.symm hback
    | escape _ hbody' =>
      obtain ⟨rfl, hrest⟩ := List.cons.inj (List.cons.inj h).2
      rw [ih hbody' hrest]

theorem delimiter_inj {isString isString' : Bool} (h : delimiter isString = delimiter isString') :
    isString = isString' := by
  revert isString isString'
  decide

/-- No other literal begins with the same characters. -/
theorem literal_unique {wide wide' isString isString' : Bool} {body' l l' : List UInt8}
    (hx : (Lexeme.literal wide isString body).Valid) (hy : (Lexeme.literal wide' isString' body').Valid)
    (h : (Lexeme.literal wide isString body).text ++ l = (Lexeme.literal wide' isString' body').text ++ l') :
    Lexeme.literal wide isString body = .literal wide' isString' body' := by
  have hwide : wide = wide' := by
    have hhead := congrArg List.head? h
    revert hhead
    cases wide <;> cases wide' <;> cases isString <;> cases isString' <;> simp [Lexeme.text, delimiter] <;> decide
  subst hwide
  simp only [Lexeme.text, List.append_assoc, List.cons_append, List.nil_append] at h
  obtain ⟨hdelim, hrest⟩ := List.cons.inj (List.append_cancel_left h)
  obtain rfl := delimiter_inj hdelim
  rw [IsBody.unique (delimiter_ne_backslash isString) hx hy hrest]

/-- A lexeme that begins with `L` and a quote is an identifier or a wide literal. -/
theorem wide_of_head {q : UInt8} (hx : x.Valid) (hq : isQuote q = true) (hhead : x.text <+: ch 'L' :: q :: rest) :
    x = .ident [ch 'L'] ∨ ∃ isString body, x = .literal true isString body := by
  have hquote : isLetter q = false ∧ isDigit q = false := by
    rcases Bool.or_eq_true_iff.1 hq with hq | hq
    · rw [of_decide_eq_true hq]
      decide
    · rw [of_decide_eq_true hq]
      decide
  obtain ⟨c, cs, htext⟩ := List.exists_cons_of_ne_nil (tokenGrammar.ne_nil x hx)
  have htext' : x.text = c :: cs := htext
  rw [htext'] at hhead
  obtain ⟨rfl, hcs⟩ := List.cons_prefix_cons.1 hhead
  cases x with
  | ident name =>
    obtain ⟨d, ds, rfl, -, hds⟩ := hx
    obtain ⟨rfl, rfl⟩ := List.cons.inj htext'
    cases ds with
    | nil => exact .inl rfl
    | cons e ds =>
      obtain ⟨rfl, -⟩ := List.cons_prefix_cons.1 hcs
      exact absurd (hds e List.mem_cons_self) (by simp [hquote])
  | literal wide isString body =>
    cases wide with
    | true => exact .inr ⟨isString, body, rfl⟩
    | false => cases isString <;> exact absurd (List.cons.inj htext').1 (by decide)
  | space d =>
    obtain ⟨rfl, -⟩ := List.cons.inj htext'
    exact absurd (show isSpace (ch 'L') = true from hx) (by decide)
  | lineComment body ended => exact absurd (List.cons.inj htext').1 (by decide)
  | blockComment body => exact absurd (List.cons.inj htext').1 (by decide)
  | number text =>
    obtain ⟨d, ds, rfl, -, hstart⟩ := IsNumber.exists_tail hx
    obtain ⟨rfl, -⟩ := List.cons.inj htext'
    rcases hstart with hd | ⟨hd, -⟩
    · exact absurd hd (by decide)
    · exact absurd hd (by decide)
  | combination i =>
    have hmem : ch 'L' ∈ combinations.getD i [] := by
      rw [show combinations.getD i [] = ch 'L' :: cs from htext']
      exact List.mem_cons_self
    exact absurd (combination_class hmem).2.1.1 (by decide)
  | single d =>
    obtain ⟨rfl, -⟩ := List.cons.inj htext'
    exact absurd hx.2.1 (by decide)

/-- A literal is the longest match in front of any text. -/
theorem longest_literal {wide isString : Bool} (hx : (Lexeme.literal wide isString body).Valid) (l : List UInt8) :
    tokenGrammar.Longest ((Lexeme.literal wide isString body).text ++ l) (.literal wide isString body) := by
  refine ⟨hx, List.prefix_append _ _, fun z hz hprefix => ?_⟩
  obtain ⟨more, hmore⟩ := hprefix
  have hcases : z.text.length ≤ 1 ∨ ∃ wide isString body, z = .literal wide isString body := by
    obtain ⟨c, cs, htext⟩ := List.exists_cons_of_ne_nil (tokenGrammar.ne_nil z hz)
    have htext' : z.text = c :: cs := htext
    cases wide with
    | true =>
      have hprefix : z.text <+: ch 'L' :: delimiter isString :: (body ++ delimiter isString :: l) := by
        refine ⟨more, hmore.trans ?_⟩
        simp [Lexeme.text]
      rcases wide_of_head hz (isQuote_delimiter isString) hprefix with rfl | ⟨isString, body, rfl⟩
      · exact .inl (le_refl 1)
      · exact .inr ⟨_, _, _, rfl⟩
    | false =>
      have hhead : c = delimiter isString := by
        rw [show tokenGrammar.text z = c :: cs from htext] at hmore
        exact (List.cons.inj hmore).1
      rcases exists_literal_of_quote hz (by rw [htext', hhead]; rfl) (isQuote_delimiter isString) with
        rfl | ⟨isString, body, rfl⟩
      · exact .inl (le_refl 1)
      · exact .inr ⟨_, _, _, rfl⟩
  rcases hcases with hone | ⟨wide', isString', body', rfl⟩
  · exact hone.trans (List.length_pos_of_ne_nil (tokenGrammar.ne_nil _ hx))
  · rw [literal_unique hz hx hmore]

/-! ## In front of another token -/

/-- An identifier, a number or a punctuator. -/
def Lexeme.IsWord : Lexeme → Prop
  | .ident _ => True
  | .number _ => True
  | .combination _ => True
  | .single c => isQuote c = false
  | _ => False

/-- A punctuator. -/
def Lexeme.IsSpecial : Lexeme → Prop
  | .combination _ => True
  | .single c => isQuote c = false
  | _ => False

theorem Lexeme.IsSpecial.isWord (h : x.IsSpecial) : x.IsWord := by
  cases x with
  | combination i => trivial
  | single c => exact h
  | _ => exact h.elim

/-- The characters of identifiers and numbers. -/
theorem class_of_word (c : UInt8) :
    (isDot c || isDigit c || isLetter c) = true ∨ c = ch '-' ∨ c = ch '+' →
      (isSpace c = false ∧ isQuote c = false) ∧ c ≠ slash := by
  intro h
  refine ⟨⟨?_, Bool.eq_false_iff.2 fun hq => ?_⟩, ?_⟩
  · simp only [isDot, Bool.or_eq_true, decide_eq_true_eq] at h
    rcases h with ((rfl | hdigit) | hletter) | rfl | rfl
    · decide
    · exact isSpace_of_isDigit hdigit
    · exact isSpace_of_isLetter hletter
    · decide
    · decide
  · simp only [isQuote, Bool.or_eq_true, decide_eq_true_eq] at hq
    rcases hq with rfl | rfl <;> exact absurd h (by decide)
  · rintro rfl
    exact absurd h (by decide)

theorem IsTail.class_eq {cs : List UInt8} (h : IsTail cs) :
    ∀ c ∈ cs, (isDot c || isDigit c || isLetter c) = true ∨ c = ch '-' ∨ c = ch '+' := by
  induction h with
  | nil => exact fun c hc => (List.not_mem_nil hc).elim
  | more hd _ ih =>
    intro c hc
    rcases List.mem_cons.1 hc with rfl | hc
    · exact .inl hd
    · exact ih c hc
  | sign he hsign _ ih =>
    intro c hc
    rcases List.mem_cons.1 hc with rfl | hc
    · exact .inl (number_of_exp he)
    · rcases List.mem_cons.1 hc with rfl | hc
      · exact .inr hsign
      · exact ih c hc

theorem IsNumber.class_eq {w : List UInt8} (h : IsNumber w) :
    ∀ c ∈ w, (isDot c || isDigit c || isLetter c) = true ∨ c = ch '-' ∨ c = ch '+' := by
  obtain ⟨d, cs, rfl, hcs, hstart⟩ := h.exists_tail
  intro c hc
  rcases List.mem_cons.1 hc with rfl | hc
  · rcases hstart with hdigit | ⟨rfl, -⟩
    · exact .inl (by simp [hdigit])
    · exact .inl (by decide)
  · exact hcs.class_eq c hc

/-- Without a slash no comment begins. -/
theorem solid_of_not_mem (hclass : ∀ c ∈ text, isSpace c = false ∧ isQuote c = false) (hslash : slash ∉ text) :
    Solid text := by
  refine ⟨hclass, List.isChain_iff_forall_rel_of_append_cons_cons.2 fun {a b l₁ l₂} heq ha => ?_⟩
  refine absurd ?_ hslash
  rw [heq, ← ha]
  exact List.mem_append_right l₁ List.mem_cons_self

theorem solid_of_word {w : List UInt8}
    (h : ∀ c ∈ w, (isDot c || isDigit c || isLetter c) = true ∨ c = ch '-' ∨ c = ch '+') : Solid w :=
  solid_of_not_mem (fun c hc => (class_of_word c (h c hc)).1) fun hc => (class_of_word slash (h slash hc)).2 rfl

theorem word_of_ident {c : UInt8} (h : (isLetter c || isDigit c) = true) :
    (isDot c || isDigit c || isLetter c) = true := by
  rcases Bool.or_eq_true_iff.1 h with h | h
  · rw [h, Bool.or_true]
  · rw [h, Bool.or_true, Bool.true_or]

set_option maxRecDepth 10000 in
theorem solid_combination {i : ℕ} (hi : i < combinationCount) : Solid (combinations.getD i []) := by
  have hslash : ∀ i < combinationCount, slash ∈ combinations.getD i [] → i = 6 := by decide
  by_cases hmem : slash ∈ combinations.getD i []
  · obtain rfl := hslash i hi hmem
    refine ⟨fun c hc => (combination_class hc).1, ?_⟩
    exact List.isChain_cons_cons.2 ⟨fun _ => by decide, List.isChain_singleton _⟩
  · exact solid_of_not_mem (fun c hc => (combination_class hc).1) hmem

/-- Words have no white space, no quote and no comment in them. -/
theorem Lexeme.IsWord.solid (hx : x.Valid) (h : x.IsWord) : Solid x.text := by
  cases x with
  | ident name =>
    obtain ⟨d, ds, rfl, hd, hds⟩ := hx
    refine solid_of_word fun c hc => .inl ?_
    rcases List.mem_cons.1 hc with rfl | hc
    · exact word_of_ident (by rw [hd, Bool.true_or])
    · exact word_of_ident (hds c hc)
  | number text => exact solid_of_word (IsNumber.class_eq hx)
  | combination i => exact solid_combination hx
  | single c => exact ⟨fun d hd => List.mem_singleton.1 hd ▸ ⟨hx.1, h⟩, List.isChain_singleton c⟩
  | _ => exact h.elim

/-- What goes on behind a word with that character is no lexeme. -/
theorem longest_of_not (hx : x.Valid) (h : ∀ z : Lexeme, z.Valid → ∀ more, z.text ≠ x.text ++ c :: more) :
    tokenGrammar.Longest (x.text ++ c :: rest) x := by
  refine ⟨hx, List.prefix_append _ _, fun z hz hprefix => ?_⟩
  by_contra hlong
  have hbegins : x.text <+: z.text := List.prefix_of_prefix_length_le (List.prefix_append _ _) hprefix (by
    exact Nat.le_of_lt (Nat.lt_of_not_le hlong))
  obtain ⟨more, hmore⟩ := hbegins
  cases more with
  | nil =>
    rw [List.append_nil] at hmore
    exact hlong (by rw [show tokenGrammar.text z = x.text from hmore.symm]; exact Nat.le_refl _)
  | cons d more =>
    have hprefix' : z.text <+: x.text ++ c :: rest := hprefix
    rw [← hmore] at hprefix'
    obtain ⟨rfl, -⟩ := List.cons_prefix_cons.1 ((List.prefix_append_right_inj x.text).1 hprefix')
    exact h z hz more hmore.symm

/-- A comment begins with a slash and a slash or a star. -/
theorem not_comment {d : UInt8} {cs more : List UInt8} (hsolid : Solid text) (hne : text ≠ [])
    (hd : d = slash ∨ d = star) (hc : c ≠ slash ∧ c ≠ star) : slash :: d :: cs ≠ text ++ c :: more := by
  intro heq
  cases text with
  | nil => exact hne rfl
  | cons a as =>
    obtain ⟨rfl, hrest⟩ := List.cons.inj heq
    cases as with
    | nil =>
      obtain ⟨rfl, -⟩ := List.cons.inj hrest
      exact hd.elim hc.1 hc.2
    | cons b as =>
      obtain ⟨rfl, -⟩ := List.cons.inj hrest
      have hapart := (List.isChain_cons_cons.1 hsolid.apart).1 rfl
      exact hd.elim hapart.1 hapart.2

/-- A word in front of a quote is the longest match, unless it is the letter of a wide literal. -/
theorem longest_word_quote {q : UInt8} (hx : x.Valid) (hword : x.IsWord) (hwide : x.text ≠ [ch 'L'])
    (hq : isQuote q = true) : tokenGrammar.Longest (x.text ++ q :: rest) x := by
  have hsolid := hword.solid hx
  have hne : x.text ≠ [] := tokenGrammar.ne_nil x hx
  have hqclass : q ≠ slash ∧ q ≠ star := by
    rcases Bool.or_eq_true_iff.1 hq with hq | hq
    · rw [of_decide_eq_true hq]
      decide
    · rw [of_decide_eq_true hq]
      decide
  refine longest_of_not hx fun z hz more heq => ?_
  have hmem : q ∈ z.text := heq ▸ List.mem_append_right _ List.mem_cons_self
  have hlen : 2 ≤ z.text.length := by
    have hpos := List.length_pos_of_ne_nil hne
    rw [heq, List.length_append, List.length_cons]
    omega
  have hzword : ¬z.IsWord := fun hzword => absurd ((hzword.solid hz).class_eq q hmem).2 (by simp [hq])
  cases z with
  | ident name => exact hzword trivial
  | number text => exact hzword trivial
  | combination i => exact hzword trivial
  | space d => exact absurd hlen (Nat.not_succ_le_self 1)
  | single d => exact absurd hlen (Nat.not_succ_le_self 1)
  | lineComment body ended => exact not_comment hsolid hne (.inl rfl) hqclass heq
  | blockComment body => exact not_comment hsolid hne (.inr rfl) hqclass heq
  | literal wide isString body =>
    obtain ⟨a, as, htext⟩ := List.exists_cons_of_ne_nil hne
    rw [htext] at heq hsolid hwide
    cases wide with
    | false =>
      have hhead := (List.cons.inj heq).1
      exact absurd (hsolid.class_eq a List.mem_cons_self).2 (by rw [← hhead, isQuote_delimiter]; decide)
    | true =>
      obtain ⟨rfl, hrest⟩ := List.cons.inj heq
      cases as with
      | nil => exact hwide rfl
      | cons b as =>
        have hsecond := (List.cons.inj hrest).1
        exact absurd (hsolid.class_eq b (List.mem_cons_of_mem _ List.mem_cons_self)).2
          (by rw [← hsecond, isQuote_delimiter]; decide)

/-- No character of a punctuator is a letter or a digit. -/
theorem Lexeme.IsSpecial.class_eq (hx : x.Valid) (h : x.IsSpecial) :
    ∀ c ∈ x.text, isLetter c = false ∧ isDigit c = false := by
  cases x with
  | combination i => exact fun c hc => (combination_class hc).2.1
  | single c =>
    intro d hd
    rw [List.mem_singleton.1 hd]
    exact ⟨hx.2.1, hx.2.2⟩
  | _ => exact h.elim

theorem class_of_letter (c : UInt8) :
    isLetter c = true → isDigit c = false ∧ (c ≠ slash ∧ c ≠ star) ∧ isQuote c = false := by
  intro h
  have hclass := class_of_word c (.inl (by rw [h, Bool.or_true]))
  refine ⟨isDigit_of_isLetter h, ⟨hclass.2, ?_⟩, hclass.1.2⟩
  rintro rfl
  exact absurd h (by decide)

/-- A punctuator in front of a letter is the longest match. -/
theorem longest_special_letter (hx : x.Valid) (hspecial : x.IsSpecial) (hc : isLetter c = true) :
    tokenGrammar.Longest (x.text ++ c :: rest) x := by
  have hsolid := hspecial.isWord.solid hx
  have hne : x.text ≠ [] := tokenGrammar.ne_nil x hx
  have hclass := hspecial.class_eq hx
  obtain ⟨hdigit, hslash, -⟩ := class_of_letter c hc
  obtain ⟨a, as, htext⟩ := List.exists_cons_of_ne_nil hne
  obtain ⟨hletter, hnodigit⟩ := hclass a (htext ▸ List.mem_cons_self)
  refine longest_of_not hx fun z hz more heq => ?_
  have hlen : 2 ≤ z.text.length := by
    have hpos := List.length_pos_of_ne_nil hne
    rw [heq, List.length_append, List.length_cons]
    omega
  have hmem : c ∈ z.text := heq ▸ List.mem_append_right _ List.mem_cons_self
  have hsecond : ∀ d ∈ (as ++ c :: more).head?, isDigit d = false := by
    intro d hd
    cases as with
    | nil =>
      rw [← Option.some.inj hd]
      exact hdigit
    | cons b as =>
      rw [← Option.some.inj hd]
      exact (hclass b (htext ▸ List.mem_cons_of_mem a List.mem_cons_self)).2
  cases z with
  | ident name =>
    obtain ⟨d, ds, rfl, hd, -⟩ := hz
    rw [htext] at heq
    rw [(List.cons.inj heq).1, hletter] at hd
    cases hd
  | number text =>
    obtain ⟨d, ds, rfl, -, hstart⟩ := IsNumber.exists_tail hz
    rw [htext] at heq
    obtain ⟨rfl, rfl⟩ := List.cons.inj heq
    rcases hstart with hd | ⟨-, e, he, hd⟩
    · rw [hnodigit] at hd
      cases hd
    · rw [hsecond e he] at hd
      cases hd
  | combination i =>
    have hno := (Lexeme.IsSpecial.class_eq (x := .combination i) hz trivial c hmem).1
    rw [hno] at hc
    cases hc
  | space d => exact absurd hlen (Nat.not_succ_le_self 1)
  | single d => exact absurd hlen (Nat.not_succ_le_self 1)
  | lineComment body ended => exact not_comment hsolid hne (.inl rfl) hslash heq
  | blockComment body => exact not_comment hsolid hne (.inr rfl) hslash heq
  | literal wide isString body =>
    rw [htext] at heq hsolid
    cases wide with
    | false =>
      have hhead := (List.cons.inj heq).1
      exact absurd (hsolid.class_eq a List.mem_cons_self).2 (by rw [← hhead, isQuote_delimiter]; decide)
    | true =>
      have hhead := (List.cons.inj heq).1
      exact absurd hletter (by rw [← hhead]; decide)

/-- Tokens with that text in front of another one are two. -/
theorem soleToken_append (hx : tokenGrammar.Longest (x.text ++ y.text) x) (hy : y.Valid)
    (hxmakes : x.MakesToken) (hymakes : y.MakesToken) (hxquote : ∀ c, x = .single c → isQuote c = false)
    (hyquote : ∀ c, y = .single c → isQuote c = false) (hopen : x = .single slash → y.text.head? ≠ some star)
    (hlen : (x.text ++ y.text).length < identBuffer) : soleToken ppnoopt (x.text ++ y.text) = none := by
  have hylexes := lexes_singleton hy
  have hterminated : Terminated [y] := by
    cases y with
    | single c => exact ⟨hyquote c rfl, fun h => absurd h.2 (by simp), trivial⟩
    | _ => trivial
  rw [List.length_append] at hlen
  refine soleToken_of_lexes (.cons hx hylexes) ?_ (fun z hz => ?_) fun z hz => ?_
  · cases x with
    | single c =>
      refine ⟨hxquote c rfl, ?_, hterminated⟩
      rintro ⟨rfl, hstar⟩
      rw [List.flatMap_singleton] at hstar
      exact hopen rfl hstar
    | _ => exact hterminated
  · rcases List.mem_cons.1 hz with rfl | hz
    · exact fits_of_length (by omega)
    · rw [List.mem_singleton.1 hz]
      exact fits_of_length (by omega)
  · rcases List.mem_cons.1 hz with rfl | hz
    · exact hxmakes
    · rwa [List.mem_singleton.1 hz]

end Sparse.Tokenizer
