import Mathlib.Data.List.TakeWhile
import Sparse.TokenScanners

/-!
# Longest tokens

`get_one_token` takes the longest match in front of it, leaves the flags and the collected
space as the lexeme calls for, and adds its token.
-/

namespace Sparse.Tokenizer

open LongestMatch

variable {s : Stream} {rest text w body space cs : List UInt8} {pos : Position} {tokens : List Token}
  {c d next : UInt8} {x : Lexeme} {xs : List Lexeme} {ppnoopt : Bool}

/-! ## Longest numbers and identifiers -/

/-- What may follow the first character of a number. -/
inductive IsTail : List UInt8 → Prop
  | nil : IsTail []
  | more {c : UInt8} {cs : List UInt8} (hc : isDot c || isDigit c || isLetter c) (hcs : IsTail cs) : IsTail (c :: cs)
  | sign {e c : UInt8} {cs : List UInt8} (he : isExp e) (hc : c = ch '-' ∨ c = ch '+') (hcs : IsTail cs) :
      IsTail (e :: c :: cs)

theorem IsTail.append (hw : IsTail w) (hcs : IsTail cs) : IsTail (w ++ cs) := by
  induction hw with
  | nil => exact hcs
  | more hc hw ih => exact .more hc ih
  | sign he hc hw ih => exact .sign he hc ih

theorem IsNumber.append (hw : IsNumber w) (hcs : IsTail cs) : IsNumber (w ++ cs) := by
  induction hcs generalizing w with
  | nil => rwa [List.append_nil]
  | more hc hcs ih =>
    rw [List.append_cons]
    exact ih (.more hw hc)
  | sign he hc hcs ih =>
    rw [List.append_cons, List.append_cons, List.append_assoc w]
    exact ih (.sign hw he hc)

/-- A number begins with a digit, or with a dot and a digit. -/
theorem IsNumber.exists_tail (hw : IsNumber w) :
    ∃ c cs, w = c :: cs ∧ IsTail cs ∧ (isDigit c = true ∨ c = ch '.' ∧ ∃ d ∈ cs.head?, isDigit d) := by
  induction hw with
  | @digit c hc => exact ⟨c, [], rfl, .nil, .inl hc⟩
  | @dotDigit d hd => exact ⟨ch '.', [d], rfl, .more (by simp [hd]) .nil, .inr ⟨rfl, d, rfl, hd⟩⟩
  | @more w c hw hc ih =>
    obtain ⟨c₀, cs, rfl, hcs, hstart⟩ := ih
    refine ⟨c₀, cs ++ [c], rfl, hcs.append (.more hc .nil), hstart.imp_right fun hdot => ⟨hdot.1, ?_⟩⟩
    obtain ⟨d, hd, hdigit⟩ := hdot.2
    exact ⟨d, List.mem_head?_append_of_mem_head? hd, hdigit⟩
  | @sign w e c hw he hc ih =>
    obtain ⟨c₀, cs, rfl, hcs, hstart⟩ := ih
    refine ⟨c₀, cs ++ [e, c], rfl, hcs.append (.sign he hc .nil), hstart.imp_right fun hdot => ⟨hdot.1, ?_⟩⟩
    obtain ⟨d, hd, hdigit⟩ := hdot.2
    exact ⟨d, List.mem_head?_append_of_mem_head? hd, hdigit⟩

theorem numberTail_isTail (text : List UInt8) : IsTail (numberTail text) ∧ numberTail text <+: text := by
  induction text using numberTail.induct with
  | case1 => exact ⟨.nil, List.prefix_rfl⟩
  | case2 next hnext hexp =>
    simp only [numberTail, if_pos hnext, if_pos hexp]
    exact ⟨.more hnext .nil, List.prefix_rfl⟩
  | case3 next hnext hexp sign text hsign ih =>
    rw [numberTail_of_sign hnext hexp hsign]
    refine ⟨.sign hexp (by simpa using hsign) ih.1, ?_⟩
    exact List.cons_prefix_cons.mpr ⟨rfl, List.cons_prefix_cons.mpr ⟨rfl, ih.2⟩⟩
  | case4 next hnext hexp sign text hsign ih =>
    rw [numberTail_of_exp hnext hexp hsign]
    exact ⟨.more hnext ih.1, List.cons_prefix_cons.mpr ⟨rfl, ih.2⟩⟩
  | case5 next text hnext hexp ih =>
    rw [numberTail_of_plain hnext hexp]
    exact ⟨.more hnext ih.1, List.cons_prefix_cons.mpr ⟨rfl, ih.2⟩⟩
  | case6 next text hnext =>
    rw [numberTail_of_not hnext]
    exact ⟨.nil, List.nil_prefix⟩

theorem number_of_exp {e : UInt8} (h : isExp e) : (isDot e || isDigit e || isLetter e) = true := by
  simp only [isExp, Bool.or_eq_true, decide_eq_true_eq] at h
  rcases h with ((rfl | rfl) | rfl) | rfl <;> decide

theorem not_number_of_sign (h : c = ch '-' ∨ c = ch '+') : ¬(isDot c || isDigit c || isLetter c) = true := by
  rcases h with rfl | rfl <;> decide

/-- The loop of `get_one_number` takes as much as a number can take. -/
theorem IsTail.length_le (hcs : IsTail cs) (h : cs <+: text) : cs.length ≤ (numberTail text).length := by
  induction hcs generalizing text with
  | nil => exact Nat.zero_le _
  | @more c cs hc hcs ih =>
    cases text with
    | nil => exact absurd (List.prefix_nil.mp h) (List.cons_ne_nil _ _)
    | cons next text =>
      obtain ⟨rfl, hprefix⟩ := List.cons_prefix_cons.mp h
      by_cases hexp : isExp c = true
      · cases text with
        | nil =>
          rw [List.prefix_nil.mp hprefix]
          simp [numberTail, hc, hexp]
        | cons sign text =>
          by_cases hsign : (sign = ch '-' || sign = ch '+') = true
          · have hnil : cs = [] := by
              cases hcs with
              | nil => rfl
              | more hc' hcs =>
                obtain ⟨rfl, -⟩ := List.cons_prefix_cons.mp hprefix
                exact absurd hc' (not_number_of_sign (by simpa using hsign))
              | sign he hc' hcs =>
                obtain ⟨rfl, -⟩ := List.cons_prefix_cons.mp hprefix
                exact absurd (number_of_exp he) (not_number_of_sign (by simpa using hsign))
            rw [numberTail_of_sign hc hexp hsign, hnil]
            simp
          · rw [numberTail_of_exp hc hexp hsign]
            exact Nat.succ_le_succ (ih hprefix)
      · rw [numberTail_of_plain hc hexp]
        exact Nat.succ_le_succ (ih hprefix)
  | @sign e c cs he hc hcs ih =>
    cases text with
    | nil => exact absurd (List.prefix_nil.mp h) (List.cons_ne_nil _ _)
    | cons next text =>
      obtain ⟨rfl, hprefix⟩ := List.cons_prefix_cons.mp h
      cases text with
      | nil => exact absurd (List.prefix_nil.mp hprefix) (List.cons_ne_nil _ _)
      | cons sign text =>
        obtain ⟨rfl, hmore⟩ := List.cons_prefix_cons.mp hprefix
        rw [numberTail_of_sign (number_of_exp he) he (by simpa using hc)]
        exact Nat.succ_le_succ (Nat.succ_le_succ (ih hmore))

/-- Of the longest number the loop takes what is behind the first character. -/
theorem numberTail_of_longest (hlongest : tokenGrammar.Longest (c :: cs ++ rest) (.number (c :: cs)))
    (hcs : IsTail cs) (hstart : IsNumber (c :: numberTail (cs ++ rest))) : numberTail (cs ++ rest) = cs := by
  have htail := (numberTail_isTail (cs ++ rest)).2
  have hle := hlongest.longest (.number (c :: numberTail (cs ++ rest))) hstart
    (List.cons_prefix_cons.mpr ⟨rfl, htail⟩)
  have hge := hcs.length_le (List.prefix_append cs rest)
  have hlen : (numberTail (cs ++ rest)).length ≤ cs.length := by simpa [tokenGrammar, Lexeme.text] using hle
  exact (List.prefix_of_prefix_length_le htail (List.prefix_append cs rest) hlen).eq_of_length_le hge

/-- Behind the longest identifier no letter or digit follows. -/
theorem identTail_of_longest (hlongest : tokenGrammar.Longest (c :: cs ++ rest) (.ident (c :: cs)))
    (hc : isLetter c) (hcs : ∀ d ∈ cs, isLetter d || isDigit d) : identTail (cs ++ rest) = cs := by
  have hall : ∀ d ∈ identTail (cs ++ rest), (isLetter d || isDigit d) = true :=
    fun d hd => List.mem_takeWhile_imp (p := fun c => isLetter c || isDigit c) hd
  have htail : identTail (cs ++ rest) <+: cs ++ rest := List.takeWhile_prefix _
  have hle := hlongest.longest (.ident (c :: identTail (cs ++ rest))) ⟨c, _, rfl, hc, hall⟩
    (List.cons_prefix_cons.mpr ⟨rfl, htail⟩)
  have hlen : (identTail (cs ++ rest)).length ≤ cs.length := by simpa [tokenGrammar, Lexeme.text] using hle
  have hge : cs.length ≤ (identTail (cs ++ rest)).length := by
    rw [identTail, List.takeWhile_append_of_pos hcs, List.length_append]
    exact Nat.le_add_right _ _
  exact (List.prefix_of_prefix_length_le htail (List.prefix_append cs rest) hlen).eq_of_length_le hge

/-! ## What a lexeme leaves -/

namespace Lexeme

/-- The flags behind the lexeme. A comment leaves those before it, but for the newline
that ends a line comment. -/
def leaves (pos : Position) : Lexeme → Position
  | .space c => { newline := pos.newline || c = newline, whitespace := true }
  | .lineComment _ ended => { pos with newline := pos.newline || ended }
  | .blockComment _ => pos
  | _ => { newline := false, whitespace := false }

/-- The collected space behind the lexeme. White space is collected for `ppnoopt` only,
comments are in any case. -/
def leavesSpace (ppnoopt : Bool) (collected : List UInt8) : Lexeme → List UInt8
  | .space c => if ppnoopt then collected ++ [c] else collected
  | x => if x.isGap then collected ++ x.text else if x.value.isSome then [] else collected

/-- The space of a token; a slash is in it before it is known to be no comment. -/
def spaceBefore (space : List UInt8) (x : Lexeme) : List UInt8 :=
  if x.text.head? = some slash then space ++ [slash] else space

/-- The token of the lexeme. -/
def emits (pos : Position) (space : List UInt8) (x : Lexeme) : List Token :=
  (x.value.map fun value => { value := value, pos := pos, space := x.spaceBefore space }).toList

end Lexeme

/-- `s'` is the stream behind the lexeme. -/
def Takes (ppnoopt : Bool) (s' : Stream) (x : Lexeme) (rest : List UInt8) (pos : Position) (space : List UInt8)
    (tokens : List Token) : Prop :=
  Reached s' rest (x.leaves pos) (x.leavesSpace ppnoopt space) (tokens ++ x.emits pos space)

/-- The flags of the stream while a token is in progress. -/
def noFlags : Position where
  newline := false
  whitespace := false

set_option maxRecDepth 10000 in
theorem isDigit_of_isLetter (h : isLetter c) : isDigit c = false := by
  revert h
  exact forall_byte (P := fun c => isLetter c → isDigit c = false) (by decide) c

/-! ## Tokens that begin with a letter or a digit -/

theorem getOneToken_ident (hlongest : tokenGrammar.Longest (w ++ rest) (.ident w))
    (hs : Reached s (w ++ rest) noFlags space tokens) (hshort : w.length < identBuffer)
    (hplain : ¬(w = [ch 'L'] ∧ rest.head?.any isQuote = true)) (hc : w.head? = some c) :
    Takes ppnoopt (getOneToken c pos s) (.ident w) rest pos space tokens := by
  obtain ⟨c', cs, rfl, hletter, hcs⟩ := hlongest.valid
  obtain rfl : c' = c := by simpa using hc
  have htail := identTail_of_longest hlongest hletter hcs
  have hnewline : c' ≠ newline := by
    rintro rfl
    exact absurd hletter (by decide)
  have hslash : c' ≠ slash := by
    rintro rfl
    exact absurd hletter (by decide)
  have hcons : Reached s (c' :: (cs ++ rest)) noFlags space tokens := hs
  obtain ⟨s', hloop, hs'⟩ := identLoop_reached hcons hnewline [c'] (by
    rw [htail]
    simpa [Nat.add_comm] using hshort)
  rw [htail, List.drop_left] at hs'
  have hstart : identLoop s.text.tail s [c'] = (s', c' :: cs) := by
    rw [hcons.text, List.tail_cons, hloop, htail]
    rfl
  have hcond : ¬(s'.text.head?.any isQuote && decide (c' :: cs = [ch 'L'])) = true := by
    rw [hs'.text]
    simpa [and_comm] using hplain
  simp only [getOneToken, isDigit_of_isLetter hletter, hletter, if_true, getOneIdentifier, hstart, if_neg hcond]
  simpa [Takes, Lexeme.leaves, Lexeme.isGap, Lexeme.leavesSpace, Lexeme.value, Lexeme.emits, Lexeme.spaceBefore,
    Lexeme.text, hslash, noFlags] using hs'.add pos (.ident (c' :: cs))

set_option maxRecDepth 10000 in
theorem isExp_of_isDigit (h : isDigit c) : isExp c = false := by
  revert h
  exact forall_byte (P := fun c => isDigit c → isExp c = false) (by decide) c

theorem getOneToken_number (hlongest : tokenGrammar.Longest (w ++ rest) (.number w))
    (hs : Reached s (w ++ rest) noFlags space tokens) (hc : w.head? = some c) :
    Takes ppnoopt (getOneToken c pos s) (.number w) rest pos space tokens := by
  obtain ⟨c', cs, rfl, hcs, hstart⟩ := IsNumber.exists_tail hlongest.valid
  obtain rfl : c' = c := by simpa using hc
  have hcons : Reached s (c' :: (cs ++ rest)) noFlags space tokens := hs
  have hne : c' ≠ newline ∧ c' ≠ slash := by
    rcases hstart with hdigit | ⟨rfl, -⟩
    · constructor
      · rintro rfl
        exact absurd hdigit (by decide)
      · rintro rfl
        exact absurd hdigit (by decide)
    · decide
  have hnumber : IsNumber (c' :: numberTail (cs ++ rest)) := by
    rcases hstart with hdigit | ⟨rfl, d, hd, hdigit⟩
    · exact (IsNumber.digit hdigit).append (numberTail_isTail _).1
    · cases cs with
      | nil => cases hd
      | cons d' cs =>
        obtain rfl : d' = d := by simpa using hd
        rw [List.cons_append, numberTail_of_plain (by simp [hdigit]) (by simp [isExp_of_isDigit hdigit])]
        exact (IsNumber.dotDigit hdigit).append (numberTail_isTail _).1
  have htail := numberTail_of_longest hlongest hcs hnumber
  have hresult := getOneNumber_reached (hcons.nextchar hne.1) pos (c := c')
  rw [htail, List.drop_left] at hresult
  have hcall : getOneToken c' pos s = getOneNumber c' pos (nextchar s) := by
    rcases hstart with hdigit | ⟨rfl, d, hd, hdigit⟩
    · simp only [getOneToken, hdigit, if_true]
    · have hhead : (nextchar s).text.head? = some d := by
        rw [(hcons.nextchar hne.1).text, List.head?_append, show cs.head? = some d from hd]
        rfl
      simp only [getOneToken, show isDigit (ch '.') = false by decide, show isLetter (ch '.') = false by decide,
        Bool.false_eq_true, if_false, getOneSpecial, hhead]
      simp [hdigit]
  rw [hcall]
  simpa [Takes, Lexeme.leaves, Lexeme.isGap, Lexeme.leavesSpace, Lexeme.value, Lexeme.emits, Lexeme.spaceBefore,
    Lexeme.text, hne.2, noFlags] using hresult

/-! ## Literals and comments -/

theorem getOneToken_of_special (hdigit : isDigit c = false) (hletter : isLetter c = false) :
    getOneToken c pos s = getOneSpecial c pos s := by
  simp [getOneToken, hdigit, hletter]

theorem getOneToken_literal {wide isString : Bool} (hbody : IsBody (delimiter isString) body)
    (hs : Reached s ((Lexeme.literal wide isString body).text ++ rest) noFlags space tokens)
    (hc : (Lexeme.literal wide isString body).text.head? = some c) :
    Takes ppnoopt (getOneToken c pos s) (.literal wide isString body) rest pos space tokens := by
  have hcall : ∃ s', getOneToken c pos s = eatString wide isString pos s' ∧
      Reached s' (body ++ delimiter isString :: rest) noFlags space tokens := by
    cases wide with
    | true =>
      obtain rfl : ch 'L' = c := by simpa [Lexeme.text] using hc
      have hcons : Reached s (ch 'L' :: delimiter isString :: (body ++ delimiter isString :: rest)) noFlags space
          tokens := by simpa [Lexeme.text] using hs
      have hnext := hcons.nextchar (by decide)
      refine ⟨nextchar (nextchar s), ?_, hnext.nextchar (delimiter_ne_newline isString)⟩
      have hident : identLoop s.text.tail s [ch 'L'] = (nextchar s, [ch 'L']) := by
        rw [hcons.text]
        cases isString with
        | true => rfl
        | false => rfl
      simp only [getOneToken, show isDigit (ch 'L') = false by decide, show isLetter (ch 'L') = true by decide,
        Bool.false_eq_true, if_false, if_true, getOneIdentifier, hident, hnext.text]
      cases isString with
      | true => rfl
      | false => rfl
    | false =>
      obtain rfl : delimiter isString = c := by simpa [Lexeme.text] using hc
      have hcons : Reached s (delimiter isString :: (body ++ delimiter isString :: rest)) noFlags space tokens := by
        simpa [Lexeme.text] using hs
      refine ⟨nextchar s, ?_, hcons.nextchar (delimiter_ne_newline isString)⟩
      cases isString with
      | true => rfl
      | false => rfl
  obtain ⟨s', hcall, hs'⟩ := hcall
  have hslash : (Lexeme.literal wide isString body).text.head? ≠ some slash := by
    cases wide <;> cases isString <;> simp [Lexeme.text, delimiter] <;> decide
  have hbefore : (Lexeme.literal wide isString body).spaceBefore space = space := if_neg hslash
  rw [hcall, Takes, Lexeme.emits, hbefore]
  exact eatString_reached hbody hs' pos

/-- The longest line comment goes up to the end of the line or of the stream. -/
theorem rest_of_lineComment {ended : Bool} (hlongest : tokenGrammar.Longest ((Lexeme.lineComment body ended).text ++ rest)
      (.lineComment body ended)) (hended : ended = false) : rest = [] := by
  subst hended
  cases rest with
  | nil => rfl
  | cons r rest =>
    have hbody : newline ∉ body := hlongest.valid
    by_cases hr : r = newline
    · have hle := hlongest.longest (.lineComment body true) hbody ⟨rest, by simp [tokenGrammar, Lexeme.text, hr]⟩
      simp only [tokenGrammar, Lexeme.text, List.length_cons, List.length_append, List.length_nil, if_true,
        Bool.false_eq_true, if_false] at hle
      omega
    · have hle := hlongest.longest (.lineComment (body ++ [r]) false)
        (by simp [tokenGrammar, Lexeme.Valid, hbody, Ne.symm hr]) ⟨rest, by simp [tokenGrammar, Lexeme.text]⟩
      simp only [tokenGrammar, Lexeme.text, List.length_cons, List.length_append, List.length_nil,
        Bool.false_eq_true, if_false] at hle
      omega

theorem getOneToken_lineComment {ended : Bool}
    (hlongest : tokenGrammar.Longest ((Lexeme.lineComment body ended).text ++ rest) (.lineComment body ended))
    (hs : Reached s ((Lexeme.lineComment body ended).text ++ rest) noFlags space tokens) :
    Takes ppnoopt (getOneToken slash pos s) (.lineComment body ended) rest pos space tokens := by
  have hbody : newline ∉ body := hlongest.valid
  have hcons : Reached s (slash :: slash :: (body ++ (if ended then [newline] else []) ++ rest)) noFlags space tokens := by
    simpa [Lexeme.text] using hs
  have hnext := hcons.nextchar (by decide)
  have hdropped := ((hnext.push slash).push slash).drop pos (by simp [show slash ≠ newline by decide])
  have hline := eolnLoop_reached hdropped (by decide) hbody (rest_of_lineComment hlongest)
  have hcall : getOneToken slash pos s =
      dropStreamEoln pos (tokenPushSpace (tokenPushSpace (nextchar s) (some slash)) (some slash)) := by
    rw [getOneToken_of_special (by decide) (by decide)]
    simp only [getOneSpecial, hnext.text]
    rfl
  have htext : (tokenPushSpace (tokenPushSpace (nextchar s) (some slash)) (some slash)).text.tail =
      body ++ (if ended then [newline] else []) ++ rest := by
    rw [((hnext.push slash).push slash).text]
    rfl
  rw [hcall, dropStreamEoln, htext]
  simpa [Takes, Lexeme.leaves, Lexeme.isGap, Lexeme.leavesSpace, Lexeme.value, Lexeme.emits,
    Lexeme.text] using hline

theorem getOneToken_blockComment (hbody : ¬[star, slash] <:+: body ++ [star])
    (hs : Reached s ((Lexeme.blockComment body).text ++ rest) noFlags space tokens) :
    Takes ppnoopt (getOneToken slash pos s) (.blockComment body) rest pos space tokens := by
  have hcons : Reached s (slash :: star :: (body ++ [star, slash] ++ rest)) noFlags space tokens := by
    simpa [Lexeme.text] using hs
  have hnext := hcons.nextchar (by decide)
  have hcomment := dropStreamComment_reached ((hnext.push slash).push star) hbody pos
  have hcall : getOneToken slash pos s =
      dropStreamComment pos (tokenPushSpace (tokenPushSpace (nextchar s) (some slash)) (some star)) := by
    rw [getOneToken_of_special (by decide) (by decide)]
    simp only [getOneSpecial, hnext.text]
    rfl
  rw [hcall]
  simpa [Takes, Lexeme.leaves, Lexeme.isGap, Lexeme.leavesSpace, Lexeme.value, Lexeme.emits,
    Lexeme.text] using hcomment

/-! ## Punctuators -/

set_option maxRecDepth 10000 in
/-- A combination has two characters, which are in the table with its value, or three, of
which the first two are the combination three places before it. -/
theorem combination_cases {i : ℕ} (h : i < combinationCount) :
    ∃ c next, (combinations.getD i [] = [c, next] ∧ (c, next, specialBase + i) ∈ specialCodes) ∨
      (3 ≤ i ∧ specialLeftshift ≤ specialBase + (i - 3) ∧
        combinations.getD i [] = [c, next, thirdCharacter (specialBase + (i - 3))] ∧
        (c, next, specialBase + (i - 3)) ∈ specialCodes) := by
  have hall : ∀ i < combinationCount,
      (∃ line ∈ specialCodes, line.2.2 = specialBase + i ∧ combinations.getD i [] = [line.1, line.2.1]) ∨
        ∃ line ∈ specialCodes, 3 ≤ i ∧ line.2.2 = specialBase + (i - 3) ∧ specialLeftshift ≤ line.2.2 ∧
          combinations.getD i [] = [line.1, line.2.1, thirdCharacter line.2.2] := by
    decide
  rcases hall i h with ⟨⟨a, b, value⟩, hmem, hvalue, htext⟩ | ⟨⟨a, b, value⟩, hmem, hthree, hvalue, hshift, htext⟩
  · simp only at hvalue
    rw [hvalue] at hmem
    exact ⟨a, b, .inl ⟨htext, hmem⟩⟩
  · simp only at hvalue hshift htext
    rw [hvalue] at hmem hshift htext
    exact ⟨a, b, .inr ⟨hthree, hshift, htext, hmem⟩⟩

set_option maxRecDepth 10000 in
/-- Each entry of the table is a combination of two characters. -/
theorem combination_of_mem {value : ℕ} (h : (c, next, value) ∈ specialCodes) :
    specialBase ≤ value ∧ value - specialBase < combinationCount ∧
      combinations.getD (value - specialBase) [] = [c, next] := by
  have hall : ∀ line ∈ specialCodes, specialBase ≤ line.2.2 ∧ line.2.2 - specialBase < combinationCount ∧
      combinations.getD (line.2.2 - specialBase) [] = [line.1, line.2.1] := by
    decide
  exact hall (c, next, value) h

set_option maxRecDepth 10000 in
/-- The entries that a third character can go on with. -/
theorem combination_of_third {value : ℕ} (h : (c, next, value) ∈ specialCodes) (hshift : specialLeftshift ≤ value) :
    value + 3 - specialBase < combinationCount ∧
      combinations.getD (value + 3 - specialBase) [] = [c, next, thirdCharacter value] := by
  have hall : ∀ line ∈ specialCodes, specialLeftshift ≤ line.2.2 →
      line.2.2 + 3 - specialBase < combinationCount ∧
        combinations.getD (line.2.2 + 3 - specialBase) [] = [line.1, line.2.1, thirdCharacter line.2.2] := by
    decide
  exact hall (c, next, value) h hshift

set_option maxRecDepth 10000 in
/-- No punctuator of the table begins or goes on like another lexeme. -/
theorem punctuator_of_mem {value : ℕ} (h : (c, next, value) ∈ specialCodes) :
    (isDigit c = false ∧ isLetter c = false ∧ isQuote c = false ∧ c ≠ newline) ∧
      isDigit next = false ∧ next ≠ slash ∧ next ≠ star ∧ next ≠ newline := by
  have hall : ∀ line ∈ specialCodes,
      (isDigit line.1 = false ∧ isLetter line.1 = false ∧ isQuote line.1 = false ∧ line.1 ≠ newline) ∧
        isDigit line.2.1 = false ∧ line.2.1 ≠ slash ∧ line.2.1 ≠ star ∧ line.2.1 ≠ newline := by
    decide
  exact hall (c, next, value) h

theorem thirdCharacter_ne_newline {value : ℕ} (h : (c, next, value) ∈ specialCodes) :
    thirdCharacter value ≠ newline := by
  have hall : ∀ line ∈ specialCodes, thirdCharacter line.2.2 ≠ newline := by decide
  exact hall (c, next, value) h

/-- A character that begins no number, literal or comment goes to the table. A slash is
pushed to the collected space on the way. -/
theorem getOneToken_punctuator (pos : Position) (hs : Reached s (c :: text) noFlags space tokens)
    (hc : isDigit c = false ∧ isLetter c = false ∧ isQuote c = false ∧ c ≠ newline)
    (hdot : ¬(c = ch '.' ∧ text.head?.any isDigit = true))
    (hcomment : c = slash → text.head? ≠ some slash ∧ text.head? ≠ some star) :
    ∃ s', getOneToken c pos s = getCombination c pos s' ∧
      Reached s' text noFlags (if c = slash then space ++ [slash] else space) tokens := by
  have hquote : c ≠ quote ∧ c ≠ apostrophe := by simpa [isQuote] using hc.2.2.1
  have hnext := hs.nextchar hc.2.2.2
  have hdot' : ¬(decide (c = ch '.') && text.head?.any isDigit) = true := by simpa using hdot
  rw [getOneToken_of_special hc.1 hc.2.1]
  by_cases hslash : c = slash
  · refine ⟨tokenPushSpace (nextchar s) (some c), ?_, ?_⟩
    · simp only [getOneSpecial, hnext.text, if_neg hdot', if_neg hquote.1, if_neg hquote.2, if_pos hslash,
        if_neg (hcomment hslash).1, if_neg (hcomment hslash).2]
    · rw [if_pos hslash, hslash]
      exact hnext.push slash
  · refine ⟨nextchar s, ?_, ?_⟩
    · simp only [getOneSpecial, hnext.text, if_neg hdot', if_neg hquote.1, if_neg hquote.2, if_neg hslash]
    · rw [if_neg hslash]
      exact hnext

theorem getOneToken_combination {i : ℕ}
    (hlongest : tokenGrammar.Longest ((Lexeme.combination i).text ++ rest) (.combination i))
    (hs : Reached s ((Lexeme.combination i).text ++ rest) noFlags space tokens)
    (hc : (Lexeme.combination i).text.head? = some c) :
    Takes ppnoopt (getOneToken c pos s) (.combination i) rest pos space tokens := by
  obtain ⟨c', next, hcases⟩ := combination_cases hlongest.valid
  rcases hcases with ⟨htext, hmem⟩ | ⟨hthree, hshift, htext, hmem⟩
  · have hplain : (Lexeme.combination i).text = [c', next] := htext
    rw [hplain] at hs hc
    obtain rfl : c' = c := by simpa using hc
    have hcons : Reached s (c' :: next :: rest) noFlags space tokens := hs
    have hfacts := punctuator_of_mem hmem
    obtain ⟨s', hcall, hs'⟩ := getOneToken_punctuator pos hcons hfacts.1 (by simp [hfacts.2.1])
      (fun _ => by simp [hfacts.2.2.1, hfacts.2.2.2.1])
    have hthird : ¬(specialLeftshift ≤ specialBase + i && rest.head? = some (thirdCharacter (specialBase + i))) = true := by
      intro hcond
      simp only [Bool.and_eq_true, decide_eq_true_eq] at hcond
      obtain ⟨hvalid, hlong⟩ := combination_of_third hmem hcond.1
      obtain ⟨more, hmore⟩ := List.head?_eq_some_iff.mp hcond.2
      have hle := hlongest.longest (.combination (specialBase + i + 3 - specialBase)) hvalid ⟨more, by
        simp only [tokenGrammar, Lexeme.text, hlong, htext, hmore]
        rfl⟩
      simp only [tokenGrammar, Lexeme.text, hlong, htext, List.length_cons, List.length_nil] at hle
      omega
    have hresult := (hs'.nextchar hfacts.2.2.2.2).add pos (.special (specialBase + i))
    rw [hcall, getCombination_of_mem pos hs'.text hmem, if_neg hthird]
    simpa [Takes, Lexeme.leaves, Lexeme.isGap, Lexeme.leavesSpace, Lexeme.value, Lexeme.emits, Lexeme.spaceBefore,
      hplain, noFlags] using hresult
  · have hplain : (Lexeme.combination i).text = [c', next, thirdCharacter (specialBase + (i - 3))] := htext
    rw [hplain] at hs hc
    obtain rfl : c' = c := by simpa using hc
    have hcons : Reached s (c' :: next :: thirdCharacter (specialBase + (i - 3)) :: rest) noFlags space tokens := hs
    have hfacts := punctuator_of_mem hmem
    obtain ⟨s', hcall, hs'⟩ := getOneToken_punctuator pos hcons hfacts.1 (by simp [hfacts.2.1])
      (fun _ => by simp [hfacts.2.2.1, hfacts.2.2.2.1])
    have hnewline := thirdCharacter_ne_newline hmem
    have hvalue : specialBase + (i - 3) + 3 = specialBase + i := by
      rw [Nat.add_assoc, Nat.sub_add_cancel hthree]
    have hresult := ((hs'.nextchar hfacts.2.2.2.2).nextchar hnewline).add pos (.special (specialBase + i))
    rw [hcall, getCombination_of_mem pos hs'.text hmem, if_pos (by simp [hshift]), hvalue]
    simpa [Takes, Lexeme.leaves, Lexeme.isGap, Lexeme.leavesSpace, Lexeme.value, Lexeme.emits, Lexeme.spaceBefore,
      hplain, noFlags] using hresult

theorem getOneToken_single (hlongest : tokenGrammar.Longest (c :: rest) (.single c))
    (hs : Reached s (c :: rest) noFlags space tokens) (hquote : isQuote c = false)
    (hopen : ¬(c = slash ∧ rest.head? = some star)) :
    Takes ppnoopt (getOneToken c pos s) (.single c) rest pos space tokens := by
  obtain ⟨hspace, hletter, hdigit⟩ := hlongest.valid
  have hone : ∀ y, tokenGrammar.Valid y → tokenGrammar.text y <+: c :: rest → (tokenGrammar.text y).length ≤ 1 :=
    hlongest.longest
  have hnewline : c ≠ newline := by
    rintro rfl
    exact absurd hspace (by decide)
  have hdot : ¬(c = ch '.' ∧ rest.head?.any isDigit = true) := by
    rintro ⟨rfl, hany⟩
    cases rest with
    | nil => cases hany
    | cons d more =>
      have hle := hone (.number [ch '.', d]) (.dotDigit hany) ⟨more, rfl⟩
      simp [tokenGrammar, Lexeme.text] at hle
  have hcomment : c = slash → rest.head? ≠ some slash ∧ rest.head? ≠ some star := by
    rintro rfl
    refine ⟨fun hhead => ?_, fun hhead => hopen ⟨rfl, hhead⟩⟩
    obtain ⟨more, rfl⟩ := List.head?_eq_some_iff.mp hhead
    have hle := hone (.lineComment [] false) (by simp [tokenGrammar, Lexeme.Valid]) ⟨more, rfl⟩
    simp [tokenGrammar, Lexeme.text] at hle
  obtain ⟨s', hcall, hs'⟩ := getOneToken_punctuator pos hs ⟨hdigit, hletter, hquote, hnewline⟩ hdot hcomment
  have hmem : ∀ next ∈ s'.text.head?, ∀ value, (c, next, value) ∉ specialCodes := by
    intro next hnext value hmem
    rw [hs'.text] at hnext
    obtain ⟨more, rfl⟩ := List.head?_eq_some_iff.mp hnext
    obtain ⟨-, hvalid, htext⟩ := combination_of_mem hmem
    have hle := hone (.combination (value - specialBase)) hvalid ⟨more, by
      simp only [tokenGrammar, Lexeme.text, htext]
      rfl⟩
    simp only [tokenGrammar, Lexeme.text, htext, List.length_cons, List.length_nil] at hle
    omega
  rw [hcall, getCombination_of_not_mem pos hmem]
  simpa [Takes, Lexeme.leaves, Lexeme.isGap, Lexeme.leavesSpace, Lexeme.value, Lexeme.emits, Lexeme.spaceBefore,
    Lexeme.text, noFlags] using hs'.add pos (.special c.toNat)

/-! ## One lexeme -/

/-- An identifier fits in the buffer of its scanner. -/
def Lexeme.IdentFits : Lexeme → Prop
  | .ident name => name.length < identBuffer
  | _ => True

/-- A lexeme that begins with a quote is a narrow literal, or the quote alone. -/
theorem exists_literal_of_quote (hx : x.Valid) (hhead : x.text.head? = some c) (hc : isQuote c = true) :
    x = .single c ∨ ∃ isString body, x = .literal false isString body := by
  have hclass : isSpace c = false ∧ isLetter c = false ∧ isDigit c = false ∧ c ≠ slash ∧ c ≠ ch '.' := by
    rcases Bool.or_eq_true_iff.mp hc with hc | hc
    · rw [of_decide_eq_true hc]
      decide
    · rw [of_decide_eq_true hc]
      decide
  obtain ⟨hspace, hletter, hdigit, hslash, hdot⟩ := hclass
  cases x with
  | space d =>
    obtain rfl : d = c := by simpa [Lexeme.text] using hhead
    exact absurd hx (by simp [Lexeme.Valid, hspace])
  | lineComment body ended => exact absurd (by simpa [Lexeme.text] using hhead.symm) hslash
  | blockComment body => exact absurd (by simpa [Lexeme.text] using hhead.symm) hslash
  | ident name =>
    obtain ⟨d, cs, hname, hd, -⟩ := hx
    obtain rfl : d = c := by simpa [Lexeme.text, hname] using hhead
    exact absurd hd (by simp [hletter])
  | number text =>
    obtain ⟨d, cs, htext, -, hstart⟩ := IsNumber.exists_tail hx
    obtain rfl : d = c := by simpa [Lexeme.text, htext] using hhead
    rcases hstart with hd | ⟨hd, -⟩
    · exact absurd hd (by simp [hdigit])
    · exact absurd hd hdot
  | literal wide isString body =>
    cases wide with
    | true =>
      obtain rfl : ch 'L' = c := by simpa [Lexeme.text] using hhead
      exact absurd hletter (by decide)
    | false => exact .inr ⟨isString, body, rfl⟩
  | combination i =>
    exact absurd hc (by simp [(combination_class (List.mem_of_head? hhead)).1.2])
  | single d =>
    obtain rfl : d = c := by simpa [Lexeme.text] using hhead
    exact .inl rfl

/-- In front of a literal no `L` stands as an identifier. -/
theorem not_wide_of_longest (hlongest : tokenGrammar.Longest (w ++ rest) (.ident w)) (hxs : Lexes rest xs)
    (hterminated : Terminated xs) : ¬(w = [ch 'L'] ∧ rest.head?.any isQuote = true) := by
  rintro ⟨rfl, hany⟩
  cases hxs with
  | nil => cases hany
  | @cons x rest xs hx hrest =>
    obtain ⟨c, cs, htext⟩ := List.exists_cons_of_ne_nil (tokenGrammar.ne_nil x hx.valid)
    have hc : isQuote c = true := by simpa [htext] using hany
    rcases exists_literal_of_quote hx.valid (c := c) (by rw [show x.text = c :: cs from htext]; rfl) hc with
      rfl | ⟨isString, body, rfl⟩
    · exact absurd hc (by simp [hterminated.1])
    · have hle := hlongest.longest (.literal true isString body) hx.valid
        ⟨rest, by simp [tokenGrammar, Lexeme.text]⟩
      simp [tokenGrammar, Lexeme.text] at hle

/-- `get_one_token` takes the longest match in front of it. -/
theorem getOneToken_takes (hlongest : tokenGrammar.Longest (x.text ++ rest) x) (hxs : Lexes rest xs)
    (hterminated : Terminated (x :: xs)) (hfits : x.IdentFits) (hspace : ∀ c, x ≠ .space c)
    (hs : Reached s (x.text ++ rest) noFlags space tokens) (hc : x.text.head? = some c) :
    Takes ppnoopt (getOneToken c pos s) x rest pos space tokens := by
  cases x with
  | space d => exact absurd rfl (hspace d)
  | lineComment body ended =>
    obtain rfl : slash = c := by simpa [Lexeme.text] using hc
    exact getOneToken_lineComment hlongest hs
  | blockComment body =>
    obtain rfl : slash = c := by simpa [Lexeme.text] using hc
    exact getOneToken_blockComment hlongest.valid hs
  | ident name => exact getOneToken_ident hlongest hs hfits (not_wide_of_longest hlongest hxs hterminated) hc
  | number text => exact getOneToken_number hlongest hs hc
  | literal wide isString body => exact getOneToken_literal hlongest.valid hs hc
  | combination i => exact getOneToken_combination hlongest hs hc
  | single d =>
    obtain rfl : d = c := by simpa [Lexeme.text] using hc
    obtain ⟨hquote, hopen, -⟩ := hterminated
    rw [show xs.flatMap Lexeme.text = rest from hxs.flatMap_text] at hopen
    exact getOneToken_single hlongest hs hquote hopen

end Sparse.Tokenizer
