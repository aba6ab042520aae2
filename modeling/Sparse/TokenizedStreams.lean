import Mathlib.Data.List.Forall2
import Sparse.LongestTokens

/-!
# Tokenized streams

`tokenize_stream` cuts a stream into its longest matches, one after the other, and makes
of them the tokens, with white space and comments in the flags.
-/

namespace Sparse.Tokenizer

variable {s : Stream} {rest text space : List UInt8} {pos : Position} {tokens : List Token} {c : UInt8}
  {x : Lexeme} {xs : List Lexeme} {ppnoopt : Bool}

set_option maxRecDepth 10000 in
theorem isSpace_of_isLetter (h : isLetter c) : isSpace c = false := by
  revert h
  exact forall_byte (P := fun c => isLetter c → isSpace c = false) (by decide) c

set_option maxRecDepth 10000 in
theorem isSpace_of_isDigit (h : isDigit c) : isSpace c = false := by
  revert h
  exact forall_byte (P := fun c => isDigit c → isSpace c = false) (by decide) c

/-- White space is no token. -/
theorem isSpace_of_head (hx : x.Valid) (hspace : ∀ c, x ≠ .space c) (hc : x.text.head? = some c) :
    isSpace c = false := by
  cases x with
  | space d => exact absurd rfl (hspace d)
  | lineComment body ended =>
    obtain rfl : slash = c := by simpa [Lexeme.text] using hc
    rfl
  | blockComment body =>
    obtain rfl : slash = c := by simpa [Lexeme.text] using hc
    rfl
  | ident name =>
    obtain ⟨d, cs, hname, hd, -⟩ := hx
    obtain rfl : d = c := by simpa [Lexeme.text, hname] using hc
    exact isSpace_of_isLetter hd
  | number text =>
    obtain ⟨d, cs, htext, -, hstart⟩ := IsNumber.exists_tail hx
    obtain rfl : d = c := by simpa [Lexeme.text, htext] using hc
    rcases hstart with hd | ⟨rfl, -⟩
    · exact isSpace_of_isDigit hd
    · rfl
  | literal wide isString body =>
    cases wide with
    | true =>
      obtain rfl : ch 'L' = c := by simpa [Lexeme.text] using hc
      rfl
    | false =>
      obtain rfl : delimiter isString = c := by simpa [Lexeme.text] using hc
      cases isString with
      | true => rfl
      | false => rfl
  | combination i =>
    exact (combination_class (List.mem_of_head? hc)).1.1
  | single d =>
    obtain rfl : d = c := by simpa [Lexeme.text] using hc
    exact hx.1

/-- One round of `tokenize_stream` takes one lexeme. -/
theorem tokenizeLoop_step (ppnoopt : Bool) (hlongest : tokenGrammar.Longest (x.text ++ rest) x) (hxs : Lexes rest xs)
    (hterminated : Terminated (x :: xs)) (hfits : x.IdentFits) (hs : Reached s (x.text ++ rest) pos space tokens)
    (fuel : ℕ) :
    ∃ s', tokenizeLoop ppnoopt (fuel + 1) s = tokenizeLoop ppnoopt fuel s' ∧
      Takes ppnoopt s' x rest pos space tokens := by
  obtain ⟨c, cs, htext⟩ := List.exists_cons_of_ne_nil (tokenGrammar.ne_nil x hlongest.valid)
  have htext : x.text = c :: cs := htext
  have hhead : s.text = c :: (cs ++ rest) := by
    rw [hs.text, htext]
    rfl
  by_cases hspace : ∃ d, x = .space d
  · obtain ⟨d, rfl⟩ := hspace
    have hd : isSpace d = true := hlongest.valid
    obtain ⟨rfl, rfl⟩ : d = c ∧ [] = cs := by simpa [Lexeme.text] using htext
    have hcons : Reached s (d :: rest) pos space tokens := hs
    let s₁ := if ppnoopt then tokenPushSpace s (some d) else s
    have hpushed : Reached s₁ (d :: rest) pos (if ppnoopt then space ++ [d] else space) tokens := by
      cases ppnoopt with
      | true => exact hcons.push d
      | false => exact hcons
    have hflag : Reached { s₁ with whitespace := true } (d :: rest) { pos with whitespace := true }
        (if ppnoopt then space ++ [d] else space) tokens :=
      ⟨⟨hpushed.text, rfl, hpushed.space, hpushed.tokens⟩, hpushed.newline⟩
    refine ⟨nextchar { s₁ with whitespace := true }, ?_, ?_⟩
    · simp only [tokenizeLoop, hhead, hd, if_true]
      rfl
    · have hempty : tokens ++ (Lexeme.space d).emits pos space = tokens := List.append_nil _
      rw [Takes, hempty]
      by_cases hnewline : d = newline
      · subst hnewline
        simpa [Lexeme.leaves, Lexeme.leavesSpace] using hflag.nextchar_newline
      · simpa [Lexeme.leaves, Lexeme.leavesSpace, hnewline] using hflag.nextchar hnewline
  · have hspace : ∀ d, x ≠ .space d := fun d hd => hspace ⟨d, hd⟩
    have hc : x.text.head? = some c := by
      rw [htext]
      rfl
    have hnospace := isSpace_of_head hlongest.valid hspace hc
    have hne : c ≠ newline := by
      rintro rfl
      exact absurd hnospace (by decide)
    have hfresh : Reached { s with newline := false, whitespace := false } (x.text ++ rest) noFlags space tokens :=
      ⟨⟨hs.text, rfl, hs.space, hs.tokens⟩, by simp [htext, hne, noFlags]⟩
    have hpos : { newline := s.newline, whitespace := s.whitespace } = pos := by
      have hnewline : s.newline = pos.newline := by simp [hs.newline, htext, hne]
      rw [hnewline, hs.whitespace]
    refine ⟨getOneToken c pos { s with newline := false, whitespace := false }, ?_,
      getOneToken_takes hlongest hxs hterminated hfits hspace hfresh hc⟩
    simp only [tokenizeLoop, hhead, hnospace, Bool.false_eq_true, if_false, hpos]

/-! ## The whole stream -/

/-- The tokens of a sequence of lexemes, with the flags and the collected space that the
lexemes before leave. -/
def scan (ppnoopt : Bool) : Position → List UInt8 → List Lexeme → List Token
  | pos, _, [] => [{ value := .streamEnd, pos := { newline := true, whitespace := pos.whitespace }, space := [] }]
  | pos, space, x :: xs => x.emits pos space ++ scan ppnoopt (x.leaves pos) (x.leavesSpace ppnoopt space) xs

theorem terminated_of_cons (h : Terminated (x :: xs)) : Terminated xs := by
  cases x with
  | single c => exact h.2.2
  | space c => exact h
  | lineComment body ended => exact h
  | blockComment body => exact h
  | ident name => exact h
  | number text => exact h
  | literal wide isString body => exact h
  | combination i => exact h

/-- The loop of `tokenize_stream` takes the whole text, one longest match after the other. -/
theorem tokenizeLoop_scan (ppnoopt : Bool) (hxs : Lexes text xs) (hterminated : Terminated xs)
    (hfits : ∀ x ∈ xs, x.IdentFits) (hs : Reached s text pos space tokens) {fuel : ℕ} (hfuel : text.length < fuel) :
    ∃ s', tokenizeLoop ppnoopt fuel s = some s' ∧ s'.text = [] ∧
      (markEof s').tokens = tokens ++ scan ppnoopt pos space xs := by
  induction hxs generalizing s pos space tokens fuel with
  | nil =>
    obtain ⟨fuel, rfl⟩ := Nat.exists_eq_succ_of_ne_zero (Nat.ne_of_gt hfuel)
    refine ⟨s, by simp [tokenizeLoop, hs.text], hs.text, ?_⟩
    simp [markEof, scan, hs.tokens, hs.whitespace]
  | @cons x rest xs hx hrest ih =>
    obtain ⟨fuel, rfl⟩ := Nat.exists_eq_succ_of_ne_zero (Nat.ne_zero_of_lt hfuel)
    obtain ⟨s₁, hstep, hs₁⟩ := tokenizeLoop_step ppnoopt hx hrest hterminated
      (hfits x List.mem_cons_self) hs fuel
    have hpos := List.length_pos_of_ne_nil (tokenGrammar.ne_nil x hx.valid)
    have hshort : rest.length < fuel := by
      rw [List.length_append] at hfuel
      omega
    obtain ⟨s', hrun, htext, htokens⟩ := ih (terminated_of_cons hterminated)
      (fun y hy => hfits y (List.mem_cons_of_mem x hy)) hs₁ hshort
    refine ⟨s', by rw [hstep, hrun], htext, ?_⟩
    rw [htokens, scan, List.append_assoc]

/-- `tokenize_stream` on a whole text. -/
def tokenizeText (ppnoopt : Bool) (text : List UInt8) : Option Stream :=
  tokenizeStream ppnoopt (text.length + 1) (setupStream text)

theorem tokenizeText_scan (ppnoopt : Bool) (hxs : Lexes text xs) (hterminated : Terminated xs)
    (hfits : ∀ x ∈ xs, x.IdentFits) :
    ∃ s, tokenizeText ppnoopt text = some s ∧ s.text = [] ∧
      s.tokens = scan ppnoopt { newline := true, whitespace := false } [] xs := by
  have hstart : Reached (setupStream text) text { newline := true, whitespace := false } [] [] :=
    ⟨⟨rfl, rfl, rfl, rfl⟩, rfl⟩
  obtain ⟨s, hrun, htext, htokens⟩ := tokenizeLoop_scan ppnoopt hxs hterminated hfits hstart
    (Nat.lt_succ_self text.length)
  exact ⟨markEof s, by rw [tokenizeText, tokenizeStream, hrun]; rfl, htext, htokens⟩

/-! ## The expected tokens -/

/-- An identifier or a number fits in the buffer of its scanner. -/
def Lexeme.Fits : Lexeme → Prop
  | .ident name => name.length < identBuffer
  | .number text => text.length < numberBuffer
  | _ => True

theorem Lexeme.Fits.ident (h : x.Fits) : x.IdentFits := by
  cases x with
  | ident name => exact h
  | _ => trivial

/-- The token has the value and the flags of the expected one, where white space in front
of it and comments in front of it count alike. -/
def Meets (token : Token) (e : Value × Gap) : Prop :=
  token.value = e.1 ∧ token.pos.newline = e.2.newline ∧ token.pos.whitespace = (e.2.spaced || e.2.commented)

/-- The same, but the flag for white space is left open where there are only comments. -/
def Agrees (token : Token) (e : Value × Gap) : Prop :=
  token.value = e.1 ∧ token.pos.newline = e.2.newline ∧ (e.2.spaced → token.pos.whitespace) ∧
    (token.pos.whitespace → e.2.spaced || e.2.commented)

/-- The value with all characters of a number or a literal. -/
def Lexeme.wholeValue : Lexeme → Option Value
  | .number text => some (.number text)
  | .literal wide isString body =>
    some (if isString then .string wide body else if body.length ≤ 4 then .embedded wide body else .char wide body)
  | x => x.value

/-- `tokenize_stream` takes the whole text and makes of it the tokens of its longest
matches, with the flags that the gaps between them call for. -/
def TokenizesLongest (text : List UInt8) : Prop :=
  ∀ ppnoopt xs, Lexes text xs → Terminated xs → (∀ x ∈ xs, x.Fits) →
    ∃ s, tokenizeText ppnoopt text = some s ∧ s.text = [] ∧
      List.Forall₂ Meets s.tokens (expected Lexeme.wholeValue .start xs)

theorem leaves_of_gap {g : Gap} (hx : x.isGap = true) (hnewline : pos.newline = g.newline)
    (hspaced : pos.whitespace = g.spaced) :
    (x.leaves pos).newline = (g.push x).newline ∧ (x.leaves pos).whitespace = (g.push x).spaced := by
  cases x with
  | space c => exact ⟨by simp [Lexeme.leaves, Gap.push, hnewline], rfl⟩
  | lineComment body ended => exact ⟨by simp [Lexeme.leaves, Gap.push, hnewline], hspaced⟩
  | blockComment body => exact ⟨hnewline, hspaced⟩
  | ident name => cases hx
  | number text => cases hx
  | literal wide isString body => cases hx
  | combination i => cases hx
  | single c => cases hx

theorem leaves_of_token (hx : x.isGap = false) : x.leaves pos = noFlags := by
  cases x with
  | space c => cases hx
  | lineComment body ended => cases hx
  | blockComment body => cases hx
  | ident name => rfl
  | number text => rfl
  | literal wide isString body => rfl
  | combination i => rfl
  | single c => rfl

theorem emits_of_gap (hx : x.isGap = true) : x.emits pos space = [] := by
  cases x with
  | space c => rfl
  | lineComment body ended => rfl
  | blockComment body => rfl
  | ident name => cases hx
  | number text => cases hx
  | literal wide isString body => cases hx
  | combination i => cases hx
  | single c => cases hx

theorem agrees_of_flags {token : Token} {value : Value} {g : Gap} (hvalue : token.value = value)
    (hnewline : token.pos.newline = g.newline) (hspaced : token.pos.whitespace = g.spaced) :
    Agrees token (value, g) := by
  refine ⟨hvalue, hnewline, fun hg => hspaced.trans hg, fun hpos => ?_⟩
  rw [← hspaced, hpos]
  rfl

/-- The flags of the tokens are those of the gaps, but for the comments. -/
theorem scan_agrees {g : Gap} (hnewline : pos.newline = g.newline) (hspaced : pos.whitespace = g.spaced) :
    List.Forall₂ Agrees (scan ppnoopt pos space xs) (expected Lexeme.value g xs) := by
  induction xs generalizing pos space g with
  | nil => exact .cons (agrees_of_flags rfl rfl hspaced) .nil
  | cons x xs ih =>
    by_cases hx : x.isGap = true
    · obtain ⟨hnewline', hspaced'⟩ := leaves_of_gap hx hnewline hspaced
      rw [scan, emits_of_gap hx, expected, if_pos hx]
      exact ih hnewline' hspaced'
    · rw [scan, leaves_of_token (Bool.eq_false_iff.mpr hx), expected, if_neg hx, Lexeme.emits]
      have hrest : List.Forall₂ Agrees (scan ppnoopt noFlags (x.leavesSpace ppnoopt space) xs)
          (expected Lexeme.value .empty xs) := ih rfl rfl
      cases x.value with
      | none => exact hrest
      | some value => exact .cons (agrees_of_flags rfl hnewline hspaced) hrest

/-- `tokenize_stream` takes the whole text and makes of it the tokens of its longest
matches; white space and comments are skipped and set the flags. -/
theorem tokenizeText_agrees (ppnoopt : Bool) (hxs : Lexes text xs) (hterminated : Terminated xs)
    (hfits : ∀ x ∈ xs, x.Fits) :
    ∃ s, tokenizeText ppnoopt text = some s ∧ s.text = [] ∧
      List.Forall₂ Agrees s.tokens (expected Lexeme.value .start xs) := by
  obtain ⟨s, hrun, htext, htokens⟩ := tokenizeText_scan ppnoopt hxs hterminated fun x hx => (hfits x hx).ident
  refine ⟨s, hrun, htext, ?_⟩
  rw [htokens]
  exact scan_agrees rfl rfl

/-- A lexeme is the longest match of its own text. -/
theorem lexes_singleton (hx : x.Valid) : Lexes x.text [x] := by
  have hlongest : tokenGrammar.Longest (x.text ++ []) x :=
    ⟨hx, ⟨[], rfl⟩, fun y _ hpre => by
      rw [List.append_nil] at hpre
      exact hpre.length_le⟩
  have hsplits : Lexes (x.text ++ []) [x] := .cons hlongest .nil
  rwa [List.append_nil] at hsplits

/-! ### Where lexemes end -/

theorem isSpace_of_number (h : (isDot c || isDigit c || isLetter c) = true) : isSpace c = false := by
  simp only [Bool.or_eq_true] at h
  rcases h with (hc | hc) | hc
  · rw [of_decide_eq_true hc]
    rfl
  · exact isSpace_of_isDigit hc
  · exact isSpace_of_isLetter hc

theorem IsNumber.not_isSpace {w : List UInt8} (hw : IsNumber w) (hc : c ∈ w) : isSpace c = false := by
  induction hw with
  | @digit d hd =>
    obtain rfl := List.mem_singleton.mp hc
    exact isSpace_of_isDigit hd
  | @dotDigit d hd =>
    rcases List.mem_pair.mp hc with rfl | rfl
    · rfl
    · exact isSpace_of_isDigit hd
  | @more w d hw hd ih =>
    rcases List.mem_append.mp hc with hc | hc
    · exact ih hc
    · obtain rfl := List.mem_singleton.mp hc
      exact isSpace_of_number hd
  | @sign w e d hw he hd ih =>
    rcases List.mem_append.mp hc with hc | hc
    · exact ih hc
    · rcases List.mem_pair.mp hc with rfl | rfl
      · exact isSpace_of_number (number_of_exp he)
      · rcases hd with rfl | rfl <;> rfl

/-- White space is a lexeme of its own. -/
theorem longest_space (hc : isSpace c = true) : tokenGrammar.Longest ([c] ++ rest) (.space c) := by
  refine ⟨hc, ⟨rest, rfl⟩, fun y hy hpre => ?_⟩
  obtain ⟨d, cs, htext⟩ := List.exists_cons_of_ne_nil (tokenGrammar.ne_nil y hy)
  rw [htext] at hpre
  obtain ⟨rfl, -⟩ := List.cons_prefix_cons.mp hpre
  by_contra hlong
  have hother : ∀ e, y ≠ .space e := by
    rintro e rfl
    exact hlong (Nat.le_refl 1)
  have hhead : y.text.head? = some d := congrArg List.head? htext
  rw [isSpace_of_head hy hother hhead] at hc
  cases hc

/-- A token without quotes that begins no comment ends at white space. -/
theorem longest_before_space (hx : x.Valid) (hplain : ∀ d ∈ x.text, isQuote d = false)
    (hcomment : ¬[slash, slash] <+: x.text ∧ ¬[slash, star] <+: x.text) (hc : isSpace c = true) :
    tokenGrammar.Longest (x.text ++ c :: rest) x := by
  refine ⟨hx, ⟨c :: rest, rfl⟩, fun y hy hpre => ?_⟩
  by_contra hlong
  have hpos := List.length_pos_of_ne_nil (tokenGrammar.ne_nil x hx)
  have hlong : x.text.length < y.text.length := Nat.lt_of_not_le hlong
  have hpos : 0 < x.text.length := hpos
  -- The white space stands in the longer lexeme.
  obtain ⟨more, hmore⟩ : x.text ++ [c] <+: y.text := by
    refine List.prefix_of_prefix_length_le ⟨rest, by simp⟩ hpre ?_
    rw [List.length_append]
    exact hlong
  have hmem : c ∈ y.text := by
    rw [← hmore]
    simp
  have hend : isSpace c = false → False := fun hno => by
    rw [hno] at hc
    cases hc
  have hslash : c ≠ slash ∧ c ≠ star := by
    constructor <;> rintro rfl <;> exact absurd hc (by decide)
  -- The first two characters are those of the token, or its only one and the white space.
  have htwo : ∀ {d e : UInt8} {cs : List UInt8}, y.text = d :: e :: cs →
      [d, e] <+: x.text ∨ x.text = [d] ∧ e = c := by
    intro d e cs hy
    rw [hy] at hmore
    match hxt : x.text with
    | [] => simp [hxt] at hpos
    | [d'] =>
      rw [hxt] at hmore
      obtain ⟨hd, hrest⟩ := List.cons.inj hmore
      exact .inr ⟨by rw [hd], (List.cons.inj hrest).1.symm⟩
    | d' :: e' :: cs' =>
      rw [hxt] at hmore
      obtain ⟨hd, hrest⟩ := List.cons.inj hmore
      rw [hd, (List.cons.inj hrest).1]
      exact .inl ⟨cs', rfl⟩
  cases y with
  | space d =>
    have hone : (Lexeme.space d).text.length = 1 := rfl
    omega
  | lineComment body ended =>
    rcases htwo rfl with hpre | ⟨-, he⟩
    · exact hcomment.1 hpre
    · exact hslash.1 he.symm
  | blockComment body =>
    rcases htwo rfl with hpre | ⟨-, he⟩
    · exact hcomment.2 hpre
    · exact hslash.2 he.symm
  | ident name =>
    obtain ⟨d, cs, rfl, hd, hcs⟩ := hy
    rcases List.mem_cons.mp hmem with rfl | hmem
    · exact hend (isSpace_of_isLetter hd)
    · rcases Bool.or_eq_true_iff.mp (hcs c hmem) with hletter | hdigit
      · exact hend (isSpace_of_isLetter hletter)
      · exact hend (isSpace_of_isDigit hdigit)
  | number text => exact hend (IsNumber.not_isSpace hy hmem)
  | literal wide isString body =>
    have hquote : isQuote (delimiter isString) = true := by cases isString <;> rfl
    have hno : delimiter isString ∉ x.text := fun hin => by
      rw [hplain _ hin] at hquote
      cases hquote
    cases wide with
    | true =>
      rcases htwo rfl with hpre | ⟨-, he⟩
      · exact hno (hpre.subset (by simp))
      · rw [← he] at hc
        cases isString <;> exact absurd hc (by decide)
    | false =>
      obtain ⟨d, cs, hxt⟩ := List.exists_cons_of_length_pos hpos
      rw [hxt] at hmore
      obtain ⟨rfl, -⟩ := List.cons.inj hmore
      exact hno (by simp [hxt])
  | combination i => exact hend (combination_class hmem).1.1
  | single d =>
    have hone : (Lexeme.single d).text.length = 1 := rfl
    omega

/-- A comment ends where it does. -/
theorem longest_blockComment {body : List UInt8} (hx : (Lexeme.blockComment body).Valid) :
    tokenGrammar.Longest ((Lexeme.blockComment body).text ++ rest) (.blockComment body) := by
  refine ⟨hx, ⟨rest, rfl⟩, fun y hy hpre => ?_⟩
  by_contra hlong
  have hlong : (Lexeme.blockComment body).text.length < y.text.length := Nat.lt_of_not_le hlong
  have hpre : y.text <+: (Lexeme.blockComment body).text ++ rest := hpre
  obtain ⟨more, hmore⟩ : (Lexeme.blockComment body).text <+: y.text :=
    List.prefix_of_prefix_length_le ⟨rest, rfl⟩ hpre hlong.le
  have hfour : 4 ≤ (Lexeme.blockComment body).text.length := by simp [Lexeme.text]
  have hhead : y.text.head? = some slash := by
    rw [← hmore]
    rfl
  cases y with
  | space d =>
    have hone : (Lexeme.space d).text.length = 1 := rfl
    omega
  | lineComment body' ended => cases (List.cons.inj (List.cons.inj hmore).2).1
  | blockComment body' =>
    have hbodies : body ++ [star, slash] ++ more = body' ++ [star, slash] :=
      (List.cons.inj (List.cons.inj hmore).2).2
    -- The end of the first comment would stand within the second.
    have hpre' : body ++ [star, slash] <+: body' ++ [star] := by
      refine List.prefix_of_prefix_length_le ⟨more, hbodies⟩ ⟨[slash], by simp⟩ ?_
      simp only [Lexeme.text, List.length_cons, List.length_append, List.length_nil] at hlong ⊢
      omega
    exact hy ((List.suffix_append body [star, slash]).isInfix.trans hpre'.isInfix)
  | ident name =>
    obtain ⟨d, cs, rfl, hd, -⟩ := hy
    obtain rfl : d = slash := Option.some.inj hhead
    exact absurd hd (by decide)
  | number text =>
    obtain ⟨d, cs, htext, -, hstart⟩ := IsNumber.exists_tail hy
    obtain rfl : d = slash := by simpa [Lexeme.text, htext] using hhead
    rcases hstart with hd | ⟨hd, -⟩
    · exact absurd hd (by decide)
    · exact absurd hd (by decide)
  | literal wide isString body' =>
    cases wide <;> cases isString <;> exact absurd (Option.some.inj hhead) (by decide)
  | combination i =>
    have hshort : ∀ j < combinationCount, (combinations.getD j []).length < 4 := by decide
    have hlt : (Lexeme.combination i).text.length < 4 := hshort i hy
    omega
  | single d =>
    have hone : (Lexeme.single d).text.length = 1 := rfl
    omega

/-- `x /*c*/ += 1 ;` in a line and `y` in the next. -/
def twoLines : List Lexeme :=
  [.ident [ch 'x'], .space (ch ' '), .blockComment [ch 'c'], .space (ch ' '), .combination 0, .space (ch ' '),
    .number [ch '1'], .space (ch ' '), .single (ch ';'), .space newline, .ident [ch 'y'], .space newline]

theorem lexes_cons (hx : tokenGrammar.Longest (x.text ++ xs.flatMap Lexeme.text) x)
    (h : Lexes (xs.flatMap Lexeme.text) xs) : Lexes ((x :: xs).flatMap Lexeme.text) (x :: xs) :=
  .cons hx h

theorem lexes_twoLines : Lexes (twoLines.flatMap Lexeme.text) twoLines := by
  have hident : ∀ d, isLetter d = true → (Lexeme.ident [d]).Valid := fun d hd => ⟨d, [], rfl, hd, by simp⟩
  have hcomment : ¬[star, slash] <:+: [ch 'c'] ++ [star] := by decide
  have hassign : 0 < combinationCount := by decide
  have hnumber : IsNumber [ch '1'] := .digit (by decide)
  have hsemicolon : isSpace (ch ';') = false ∧ isLetter (ch ';') = false ∧ isDigit (ch ';') = false := by decide
  have hspace : ∀ {d xs}, isSpace d = true → Lexes (xs.flatMap Lexeme.text) xs →
      Lexes ((.space d :: xs).flatMap Lexeme.text) (.space d :: xs) :=
    fun hd hxs => lexes_cons (longest_space hd) hxs
  have hword : ∀ {x d xs}, x.Valid → isSpace d = true → x.text.any isQuote = false →
      ¬[slash, slash] <+: x.text ∧ ¬[slash, star] <+: x.text →
      Lexes ((.space d :: xs).flatMap Lexeme.text) (.space d :: xs) →
      Lexes ((x :: .space d :: xs).flatMap Lexeme.text) (x :: .space d :: xs) :=
    fun hx hd hquote hno hxs => lexes_cons (longest_before_space hx (fun e he =>
      (Bool.not_eq_true _).mp (List.any_eq_false.1 hquote e he)) hno hd) hxs
  unfold twoLines
  refine hword (hident _ (by decide)) (by decide) (by decide) (by decide) (hspace (by decide) ?_)
  refine lexes_cons (longest_blockComment hcomment) (hspace (by decide) ?_)
  refine hword hassign (by decide) (by decide) (by decide) (hspace (by decide) ?_)
  refine hword hnumber (by decide) (by decide) (by decide) (hspace (by decide) ?_)
  refine hword hsemicolon (by decide) (by decide) (by decide) (hspace (by decide) ?_)
  exact hword (hident _ (by decide)) (by decide) (by decide) (by decide) (hspace (by decide) .nil)

theorem terminated_twoLines : Terminated twoLines :=
  ⟨rfl, by decide, trivial⟩

theorem tokenizeText_agrees_twoLines :
    ∃ s, tokenizeText true (twoLines.flatMap Lexeme.text) = some s ∧ s.text = [] ∧
      List.Forall₂ Agrees s.tokens [(.ident [ch 'x'], .start),
        (.special specialBase, { newline := false, spaced := true, commented := true }),
        (.number [ch '1'], { newline := false, spaced := true, commented := false }),
        (.special 59, { newline := false, spaced := true, commented := false }),
        (.ident [ch 'y'], { newline := true, spaced := true, commented := false }),
        (.streamEnd, { newline := true, spaced := true, commented := false })] :=
  tokenizeText_agrees true lexes_twoLines terminated_twoLines
    (by simp [twoLines, Lexeme.Fits, identBuffer, numberBuffer])

/-- A string literal one character longer than the buffer. -/
def longLiteral : Lexeme := .literal false true (List.replicate (maxString + 1) (ch 'a'))

theorem longLiteral_valid : longLiteral.Valid := by
  have hbody : ∀ n, IsBody quote (List.replicate n (ch 'a')) := by
    intro n
    induction n with
    | zero => exact .nil
    | succ n ih => exact .plain (by decide) (by decide) (by decide) ih
  exact hbody _

/-- The token of the long literal has lost the last character. -/
theorem not_tokenizesLongest_longLiteral : ¬TokenizesLongest longLiteral.text := by
  intro h
  have hxs := lexes_singleton longLiteral_valid
  have hfits : ∀ x ∈ [longLiteral], x.Fits := by simp [longLiteral, Lexeme.Fits]
  obtain ⟨s, hrun, -, hmeets⟩ := h false [longLiteral] hxs trivial hfits
  obtain ⟨s', hrun', -, hagrees⟩ := tokenizeText_scan false hxs trivial fun x hx => (hfits x hx).ident
  obtain rfl : s = s' := Option.some.inj (hrun.symm.trans hrun')
  rw [hagrees] at hmeets
  obtain ⟨hvalue, -⟩ := (List.forall₂_cons.mp hmeets).1
  have hbody : (List.replicate (maxString + 1) (ch 'a')).take maxString = List.replicate (maxString + 1) (ch 'a') :=
    (Value.string.inj hvalue).2
  have hlen := congrArg List.length hbody
  rw [List.length_take, List.length_replicate] at hlen
  omega

end Sparse.Tokenizer
