import Sparse.MacroTokens
import Sparse.SoleTokens

/-!
# Pasted words

What `combine` makes of two identifiers, numbers or punctuators, beside the tokenizer on the
characters of both.
-/

namespace Sparse.MacroExpansion

open Tokenizer

variable {ppnoopt : Bool} {x y : Lexeme} {u v w : Value} {name name' text text' : List UInt8} {i : ℕ}
  {c d : UInt8}

/-- A number in front of two or three dots; a null character beside a combination, or in
front of a number that begins with a dot. -/
def Misjudged : Lexeme → Lexeme → Prop
  | .number _, .combination i =>
    combinations.getD i [] = [ch '.', ch '.'] ∨ combinations.getD i [] = [ch '.', ch '.', ch '.']
  | .single c, .combination _ => c = 0
  | .combination _, .single c => c = 0
  | .single c, .number text => c = 0 ∧ text.head? = some (ch '.')
  | _, _ => False

/-! ## Words -/

theorem isWord_of_solid (hx : x.Valid) (hsolid : Solid x.text) : x.IsWord := by
  have hends : Solid (x.text ++ []) := by rwa [List.append_nil]
  obtain ⟨⟨hgap, -⟩, hliteral⟩ := makesToken_of_solid hx hends
  cases x with
  | ident name => trivial
  | number text => trivial
  | combination i => trivial
  | single c => exact (hsolid.class_eq c List.mem_cons_self).2
  | literal wide isString body => exact absurd rfl (hliteral wide isString body)
  | space c => cases hgap
  | lineComment body ended => cases hgap
  | blockComment body => cases hgap

/-- The first two characters of a word tell what it is. -/
theorem word_cases {cs : List UInt8} (hx : x.Valid) (hword : x.IsWord) (htext : x.text = c :: d :: cs) :
    (isLetter c = true ∧ ∃ name, x = .ident name) ∨
      ((isDigit c = true ∨ c = ch '.' ∧ isDigit d = true) ∧ ∃ text, x = .number text) ∨
      ((isLetter c = false ∧ isDigit c = false ∧ isDigit d = false) ∧ ∃ i, x = .combination i) := by
  cases x with
  | ident name =>
    obtain ⟨a, as, rfl, ha, -⟩ := hx
    obtain ⟨rfl, -⟩ := List.cons.inj htext
    exact .inl ⟨ha, _, rfl⟩
  | number text =>
    obtain ⟨a, as, rfl, -, hstart⟩ := IsNumber.exists_tail hx
    obtain ⟨rfl, rfl⟩ := List.cons.inj htext
    refine .inr (.inl ⟨hstart.imp_right fun h => ⟨h.1, ?_⟩, _, rfl⟩)
    obtain ⟨e, he, hdigit⟩ := h.2
    rwa [Option.some.inj he]
  | combination i =>
    have hclass := Lexeme.IsSpecial.class_eq (x := .combination i) hx trivial
    rw [htext] at hclass
    have hc := hclass c List.mem_cons_self
    have hd := hclass d (List.mem_cons_of_mem c List.mem_cons_self)
    exact .inr (.inr ⟨⟨hc.1, hc.2, hd.2⟩, i, rfl⟩)
  | single a =>
    have hlen := congrArg List.length htext
    exact absurd hlen (by simp [Lexeme.text])
  | _ => exact hword.elim

/-- `show_token` prints a word, unless it is the null character. -/
theorem showToken_word (hword : x.IsWord) (hlen : x.text.length < 256) (hv : x.value = some v)
    (hzero : x ≠ .single 0) : showToken v = x.text := by
  have hident : x.IdentFits := by
    cases x with
    | ident name => exact hlen
    | _ => trivial
  rw [showToken_of_value hident hv]
  cases x with
  | number text => exact if_pos (Nat.lt_trans hlen (by decide))
  | single c =>
    refine cString_of_not_mem fun hmem => hzero ?_
    rw [List.mem_singleton.1 hmem]
  | ident name => rfl
  | combination i => rfl
  | _ => exact hword.elim

theorem isCombinable_word (hword : x.IsWord) (hv : x.value = some v) : isCombinable v = true := by
  cases x with
  | ident name =>
    obtain rfl := Option.some.inj hv
    rfl
  | number text =>
    obtain rfl := Option.some.inj hv
    rfl
  | combination i =>
    obtain rfl := Option.some.inj hv
    rfl
  | single c =>
    obtain rfl := Option.some.inj hv
    rfl
  | _ => exact hword.elim

theorem mergeValue_word (hword : y.IsWord) (hw : y.value = some w) : mergeValue v w = mergeText v w := by
  have hcombinable := isCombinable_word hword hw
  unfold mergeValue
  split
  · cases hcombinable
  · cases hcombinable
  · cases hcombinable
  · rfl

/-! ## The number in front -/

/-- What a number ends with: a sign goes behind the letter of an exponent. -/
theorem isNumber_append_singleton (h : IsNumber (text ++ [c])) (htext : text ≠ []) :
    (isDot c || isDigit c || isLetter c) = true ∨ ((c = ch '-' ∨ c = ch '+') ∧ ∃ e ∈ text.getLast?, isExp e = true) := by
  generalize hw : text ++ [c] = w at h
  cases h with
  | @digit d hd =>
    have hlen := congrArg List.length hw
    rw [List.length_append] at hlen
    exact absurd (List.eq_nil_of_length_eq_zero (Nat.succ.inj hlen)) htext
  | @dotDigit d hd =>
    have hlast : c = d := by simpa using congrArg List.getLast? hw
    exact .inl (by simp [hlast, hd])
  | @more w d hw' hd =>
    have hlast : c = d := by simpa using congrArg List.getLast? hw
    exact .inl (by rwa [hlast])
  | @sign w e d hw' he hd =>
    have hsplit : text ++ [c] = (w ++ [e]) ++ [d] := by rw [hw, List.append_assoc]; rfl
    obtain ⟨rfl, hlast⟩ := List.append_inj' hsplit rfl
    obtain rfl := (List.cons.inj hlast).1
    exact .inr ⟨hd, e, by simp, he⟩

/-- A number whose last character is the letter of an exponent goes on with a sign. -/
theorem isNumber_sign {e : UInt8} (h : IsNumber text) (he : e ∈ text.getLast?) (hexp : isExp e = true)
    (hc : c = ch '-' ∨ c = ch '+') : IsNumber (text ++ [c]) := by
  have hclass (d : UInt8) (h : (isDigit d || d = ch '-' || d = ch '+') = true) : isExp d = false := by
    simp only [Bool.or_eq_true, decide_eq_true_eq] at h
    rcases h with (hdigit | rfl) | rfl
    · exact isExp_of_isDigit hdigit
    · decide
    · decide
  cases h with
  | @digit d hd =>
    obtain rfl : d = e := by simpa using he
    rw [hclass d (by simp [hd])] at hexp
    cases hexp
  | @dotDigit d hd =>
    obtain rfl : d = e := by simpa using he
    rw [hclass d (by simp [hd])] at hexp
    cases hexp
  | @more w d hw hd =>
    obtain rfl : d = e := by simpa using he
    rw [List.append_assoc]
    exact .sign hw hexp hc
  | @sign w a d hw ha hd =>
    obtain rfl : d = e := by simpa using he
    rw [hclass d (by rcases hd with rfl | rfl <;> decide)] at hexp
    cases hexp

/-! ## Merging -/

theorem mergeText_ident_ident (hlen : (showToken (.ident name) ++ showToken (.ident name')).length < 256) :
    mergeText (.ident name) (.ident name') = some (.ident (showToken (.ident name) ++ showToken (.ident name'))) := by
  unfold mergeText
  dsimp only
  rw [if_neg (by simpa [isCombinable] using hlen)]

theorem mergeText_ident_number (hlen : (showToken (.ident name) ++ showToken (.number text)).length < 256) :
    mergeText (.ident name) (.number text) =
      if (showToken (.ident name) ++ showToken (.number text)).any fun c => c = ch '+' || c = ch '-' || c = ch '.'
        then none else some (.ident (showToken (.ident name) ++ showToken (.number text))) := by
  unfold mergeText
  dsimp only
  rw [if_neg (by simpa [isCombinable] using hlen)]

theorem mergeText_ident_special (name : List UInt8) (o : ℕ) : mergeText (.ident name) (.special o) = none := by
  unfold mergeText
  dsimp only
  split_ifs
  · rfl
  · rfl

theorem mergeText_number_ident (hlen : (showToken (.number text) ++ showToken (.ident name)).length < 256) :
    mergeText (.number text) (.ident name) = some (.number (showToken (.number text) ++ showToken (.ident name))) := by
  unfold mergeText
  dsimp only
  rw [if_neg (by simpa [isCombinable] using hlen)]

theorem mergeText_number_number (hlen : (showToken (.number text) ++ showToken (.number text')).length < 256) :
    mergeText (.number text) (.number text') =
      some (.number (showToken (.number text) ++ showToken (.number text'))) := by
  unfold mergeText
  dsimp only
  rw [if_neg (by simpa [isCombinable] using hlen)]

theorem mergeText_number_special (o : ℕ) (hlen : (showToken (.number text) ++ showToken (.special o)).length < 256) :
    mergeText (.number text) (.special o) =
      if o = '.'.toNat then some (.number (showToken (.number text) ++ showToken (.special o)))
      else if (o = '+'.toNat || o = '-'.toNat) && text.getLast?.any Tokenizer.isExp
        then some (.number (showToken (.number text) ++ showToken (.special o)))
      else none := by
  unfold mergeText
  dsimp only
  rw [if_neg (by simpa [isCombinable] using hlen)]

/-- The combination with these characters. -/
def findCombination (p : List UInt8) : Option Value :=
  ((List.range combinationCount).find? fun n => combinations.getD n [] = p).map fun n => .special (specialBase + n)

theorem mergeText_special (o : ℕ) (hw : isCombinable w = true)
    (hlen : (showToken (.special o) ++ showToken w).length < 256) :
    mergeText (.special o) w =
      if (showToken (.special o) ++ showToken w).head? = some (ch '.') &&
          (showToken (.special o) ++ showToken w).tail.head?.any isDigit
        then some (.number (showToken (.special o) ++ showToken w))
      else findCombination (showToken (.special o) ++ showToken w) := by
  unfold mergeText findCombination
  dsimp only
  rw [if_neg (by rw [hw, decide_eq_false (Nat.not_le_of_lt hlen)]; exact Bool.false_ne_true)]

theorem findCombination_spec {p : List UInt8} (h : findCombination p = some u) :
    ∃ i < combinationCount, combinations.getD i [] = p ∧ u = .special (specialBase + i) := by
  obtain ⟨i, hfind, rfl⟩ := Option.map_eq_some_iff.1 h
  have htext : combinations.getD i [] = p := by simpa using List.find?_some hfind
  exact ⟨i, List.mem_range.1 (List.mem_of_find?_eq_some hfind), htext, rfl⟩

theorem findCombination_eq_none {p : List UInt8} :
    findCombination p = none ↔ ∀ i < combinationCount, combinations.getD i [] ≠ p := by
  rw [findCombination, Option.map_eq_none_iff, List.find?_eq_none]
  simp only [List.mem_range, decide_eq_true_eq, ne_eq]

/-! ## Words -/

/-- The tokenizer finds the word that the characters are. -/
theorem soleToken_word (hx : x.Valid) (hvalue : x.value = some u) (hsolid : Solid x.text)
    (hlen : x.text.length < 256) : soleToken ppnoopt x.text = some u :=
  (soleToken_solid hsolid (tokenGrammar.ne_nil x hx) hlen).2 ⟨x, hx, rfl, hvalue⟩

/-- Where no word has these characters the tokenizer finds no single token. -/
theorem soleToken_eq_none {p : List UInt8} (hsolid : Solid p) (hne : p ≠ []) (hlen : p.length < 256)
    (h : ∀ z : Lexeme, z.Valid → z.IsWord → z.text ≠ p) : soleToken ppnoopt p = none := by
  cases hsole : soleToken ppnoopt p with
  | none => rfl
  | some u =>
    obtain ⟨z, hz, rfl, -⟩ := (soleToken_solid hsolid hne hlen).1 hsole
    exact absurd rfl (h z hz (isWord_of_solid hz hsolid))

/-- The two words in a row. -/
structure Joined (x y : Lexeme) : Prop where
  left : x.Valid
  right : y.Valid
  leftWord : x.IsWord
  rightWord : y.IsWord
  solid : Solid (x.text ++ y.text)
  length : (x.text ++ y.text).length < 256

namespace Joined

variable (h : Joined x y)

include h

theorem left_length : x.text.length < 256 := by
  have hlen := h.length
  rw [List.length_append] at hlen
  omega

theorem right_length : y.text.length < 256 := by
  have hlen := h.length
  rw [List.length_append] at hlen
  omega

/-- Both words have a first character. -/
theorem exists_cons : ∃ c d cs, x.text ++ y.text = c :: d :: cs ∧ x.text.head? = some c := by
  obtain ⟨a, as, hx⟩ := List.exists_cons_of_ne_nil (tokenGrammar.ne_nil x h.left)
  obtain ⟨b, bs, hy⟩ := List.exists_cons_of_ne_nil (tokenGrammar.ne_nil y h.right)
  have hx' : x.text = a :: as := hx
  have hy' : y.text = b :: bs := hy
  rw [hx', hy']
  cases as with
  | nil => exact ⟨a, b, bs, rfl, rfl⟩
  | cons e as => exact ⟨a, e, as ++ b :: bs, rfl, rfl⟩

theorem ne_nil : x.text ++ y.text ≠ [] := by
  obtain ⟨c, d, cs, hp, -⟩ := h.exists_cons
  rw [hp]
  exact List.cons_ne_nil _ _

end Joined

/-- An identifier goes on with letters and digits. -/
theorem pastes_ident (h : Joined (.ident name) y) (hw : y.value = some w) :
    mergeText (.ident name) w = soleToken ppnoopt (name ++ y.text) := by
  have hname : showToken (.ident name) = name := showToken_word h.leftWord h.left_length rfl (by simp)
  obtain ⟨a, as, rfl, ha, has⟩ := h.left
  have hident (hy : ∀ c ∈ y.text, (isLetter c || isDigit c) = true) :
      soleToken ppnoopt (a :: as ++ y.text) = some (.ident (a :: as ++ y.text)) := by
    refine soleToken_word (x := .ident (a :: as ++ y.text)) ⟨a, as ++ y.text, rfl, ha, fun c hc => ?_⟩ rfl h.solid
      h.length
    exact (List.mem_append.1 hc).elim (has c) (hy c)
  have hnone (c : UInt8) (hc : c ∈ y.text) (hother : (isLetter c || isDigit c) = false) :
      soleToken ppnoopt (a :: as ++ y.text) = none := by
    refine soleToken_eq_none h.solid h.ne_nil h.length fun z hz hword htext => ?_
    obtain ⟨b, d, cs, hp, hb⟩ := h.exists_cons
    rcases word_cases hz hword (htext.trans hp) with ⟨-, n, rfl⟩ | ⟨hdigit, -⟩ | ⟨hclass, -⟩
    · obtain ⟨e, es, rfl, -, hes⟩ := hz
      have hmem : c ∈ es := by
        obtain ⟨-, htail⟩ := List.cons.inj htext
        rw [htail]
        exact List.mem_append_right as hc
      rw [hes c hmem] at hother
      cases hother
    · obtain rfl := Option.some.inj hb
      rcases hdigit with hdigit | ⟨rfl, -⟩
      · rw [isDigit_of_isLetter ha] at hdigit
        cases hdigit
      · exact absurd ha (by decide)
    · obtain rfl := Option.some.inj hb
      rw [hclass.1] at ha
      cases ha
  cases y with
  | ident name' =>
    obtain rfl := Option.some.inj hw
    have hname' : showToken (.ident name') = name' := showToken_word h.rightWord h.right_length rfl (by simp)
    obtain ⟨b, bs, rfl, hb, hbs⟩ := h.right
    rw [mergeText_ident_ident (by rw [hname, hname']; exact h.length), hname, hname']
    refine (hident fun c hc => ?_).symm
    rcases List.mem_cons.1 hc with rfl | hc
    · rw [hb, Bool.true_or]
    · exact hbs c hc
  | number text =>
    have htext : showToken w = text := showToken_word h.rightWord h.right_length hw (by simp)
    obtain rfl := Option.some.inj hw
    have hp : (showToken (.ident (a :: as)) ++ showToken (.number (numberToken text))).length < 256 := by
      rw [hname, htext]
      exact h.length
    rw [mergeText_ident_number hp, hname, htext]
    split_ifs with hany
    · obtain ⟨c, hc, hspecial⟩ := List.any_eq_true.1 hany
      have hother : (isLetter c || isDigit c) = false := by
        simp only [Bool.or_eq_true, decide_eq_true_eq] at hspecial
        rcases hspecial with (rfl | rfl) | rfl <;> decide
      rcases List.mem_append.1 hc with hc | hc
      · rcases List.mem_cons.1 hc with rfl | hc
        · rw [ha] at hother
          cases hother
        · rw [has c hc] at hother
          cases hother
      · exact (hnone c hc hother).symm
    · refine (hident fun c hc => ?_).symm
      have hclass : isDot c = false ∧ c ≠ ch '-' ∧ c ≠ ch '+' := by
        have hno : ¬((c = ch '+' ∨ c = ch '-') ∨ c = ch '.') := fun hspecial =>
          hany (List.any_eq_true.2 ⟨c, List.mem_append_right _ hc, by simpa using hspecial⟩)
        obtain ⟨hsign, hdot⟩ := not_or.1 hno
        exact ⟨decide_eq_false hdot, (not_or.1 hsign).2, (not_or.1 hsign).1⟩
      rcases IsNumber.class_eq h.right c hc with hword | hsign
      · rw [hclass.1, Bool.false_or, Bool.or_comm] at hword
        exact hword
      · exact absurd hsign (not_or.2 hclass.2)
  | combination i =>
    obtain rfl := Option.some.inj hw
    obtain ⟨c, cs, htext⟩ := List.exists_cons_of_ne_nil (combination_ne_nil h.right)
    have hclass := Lexeme.IsSpecial.class_eq (x := .combination i) h.right trivial c (by rw [Lexeme.text, htext]; simp)
    rw [mergeText_ident_special]
    exact (hnone c (by rw [Lexeme.text, htext]; simp) (by rw [hclass.1, hclass.2]; rfl)).symm
  | single c =>
    obtain rfl := Option.some.inj hw
    rw [mergeText_ident_special]
    exact (hnone c List.mem_cons_self (by rw [h.right.2.1, h.right.2.2]; rfl)).symm
  | _ => exact h.rightWord.elim

theorem showToken_length_le (hword : y.IsWord) (hlen : y.text.length < 256) (hw : y.value = some w) :
    (showToken w).length ≤ y.text.length := by
  by_cases hzero : y = .single 0
  · subst hzero
    obtain rfl := Option.some.inj hw
    exact Nat.zero_le _
  · rw [showToken_word hword hlen hw hzero]

theorem numberToken_eq (hlen : text.length < 256) : numberToken text = text :=
  if_pos (Nat.lt_trans hlen (by decide))

theorem isTail_of_ident {cs : List UInt8} (h : ∀ c ∈ cs, (isLetter c || isDigit c) = true) : IsTail cs := by
  induction cs with
  | nil => exact .nil
  | cons c cs ih =>
    exact .more (word_of_ident (h c List.mem_cons_self)) (ih fun d hd => h d (List.mem_cons_of_mem c hd))

theorem isTail_of_number (h : IsNumber text) : IsTail text := by
  obtain ⟨c, cs, rfl, hcs, hstart⟩ := h.exists_tail
  refine .more ?_ hcs
  rcases hstart with hdigit | ⟨rfl, -⟩
  · rw [hdigit, Bool.or_true, Bool.true_or]
  · rfl

set_option maxRecDepth 10000 in
/-- A number ends in front of a combination, but for dots. -/
theorem not_isNumber_combination (hi : i < combinationCount) (htext : text ≠ [])
    (htwo : combinations.getD i [] ≠ [ch '.', ch '.']) (hthree : combinations.getD i [] ≠ [ch '.', ch '.', ch '.']) :
    ¬IsNumber (text ++ combinations.getD i []) := by
  have hall : ∀ i < combinationCount, combinations.getD i [] ≠ [ch '.', ch '.'] →
      combinations.getD i [] ≠ [ch '.', ch '.', ch '.'] →
      (combinations.getD i []).dropLast.getLast?.any (fun e => !isExp e) ∧
        (combinations.getD i []).getLast?.any (fun c => !(isDot c || isDigit c || isLetter c)) := by
    decide
  obtain ⟨hbefore, hlast⟩ := hall i hi htwo hthree
  obtain ⟨e, he, hexp⟩ := (Option.any_eq_true _ _).1 hbefore
  obtain ⟨c, hc, hclass⟩ := (Option.any_eq_true _ _).1 hlast
  rw [Bool.not_eq_true'] at hexp hclass
  have hsplit : combinations.getD i [] = (combinations.getD i []).dropLast ++ [c] :=
    (List.dropLast_append_getLast? c hc).symm
  intro hnumber
  rw [hsplit, ← List.append_assoc] at hnumber
  rcases isNumber_append_singleton hnumber (by simp [htext]) with h | ⟨-, d, hd, hdexp⟩
  · rw [hclass] at h
    cases h
  · have hlast : (text ++ (combinations.getD i []).dropLast).getLast? = some e := by
      rw [List.getLast?_append, he, Option.some_or]
    rw [hlast] at hd
    rw [← Option.some.inj hd, hexp] at hdexp
    cases hdexp

/-- A number goes on as far as a preprocessing number can, but not with two or three dots. -/
theorem pastes_number (h : Joined (.number text) y) (hw : y.value = some w) :
    mergeText (.number text) w = soleToken ppnoopt (text ++ y.text) ↔ ¬Misjudged (.number text) y := by
  have htext : showToken (.number text) = text := rfl
  have hne : text ≠ [] := IsNumber.ne_nil h.left
  have hnumber (hp : IsNumber (text ++ y.text)) :
      soleToken ppnoopt (text ++ y.text) = some (.number (text ++ y.text)) := by
    refine soleToken_word (x := .number (text ++ y.text)) hp ?_ h.solid h.length
    exact congrArg (fun t => some (Value.number t)) (numberToken_eq h.length)
  have hnone (hp : ¬IsNumber (text ++ y.text)) : soleToken ppnoopt (text ++ y.text) = none := by
    refine soleToken_eq_none h.solid h.ne_nil h.length fun z hz hword hz' => ?_
    obtain ⟨c, cs, rfl, -, hstart⟩ := IsNumber.exists_tail h.left
    obtain ⟨b, d, ds, hcons, hb⟩ := h.exists_cons
    obtain rfl : c = b := Option.some.inj hb
    have hcons' := (List.cons.inj hcons).2
    have hsecond : isDigit c = true ∨ c = ch '.' ∧ isDigit d = true := by
      refine hstart.imp_right fun hdot => ⟨hdot.1, ?_⟩
      obtain ⟨e, he, hdigit⟩ := hdot.2
      obtain ⟨more, rfl⟩ := List.head?_eq_some_iff.1 he
      rwa [← (List.cons.inj hcons').1]
    rcases word_cases hz hword (hz'.trans hcons) with ⟨hletter, -⟩ | ⟨-, w, rfl⟩ | ⟨hclass, -⟩
    · rcases hsecond with hdigit | ⟨rfl, -⟩
      · rw [isDigit_of_isLetter hletter] at hdigit
        cases hdigit
      · exact absurd hletter (by decide)
    · exact hp (hz' ▸ hz)
    · rw [hclass.2.1, hclass.2.2] at hsecond
      exact hsecond.elim Bool.false_ne_true fun hdot => Bool.false_ne_true hdot.2
  have hshort : (showToken (.number text) ++ showToken w).length < 256 := by
    have hle := showToken_length_le h.rightWord h.right_length hw
    have hlen := h.length
    rw [List.length_append] at hlen ⊢
    exact Nat.lt_of_le_of_lt (Nat.add_le_add_left hle _) hlen
  cases y with
  | ident name =>
    have hname := showToken_word h.rightWord h.right_length hw (by simp)
    obtain rfl := Option.some.inj hw
    obtain ⟨c, cs, rfl, hc, hcs⟩ := h.right
    have htail : IsTail (c :: cs) := isTail_of_ident fun d hd => by
      rcases List.mem_cons.1 hd with rfl | hd
      · rw [hc, Bool.true_or]
      · exact hcs d hd
    refine iff_of_true ?_ id
    rw [mergeText_number_ident hshort, hname, htext]
    exact (hnumber (h.left.append htail)).symm
  | number text' =>
    have htext' := showToken_word h.rightWord h.right_length hw (by simp)
    obtain rfl := Option.some.inj hw
    refine iff_of_true ?_ id
    rw [mergeText_number_number hshort, htext', htext]
    exact (hnumber (h.left.append (isTail_of_number h.right))).symm
  | combination i =>
    obtain rfl := Option.some.inj hw
    have hvalue : mergeText (.number text) (.special (specialBase + i)) = none := by
      have hdot : specialBase + i ≠ '.'.toNat := Nat.ne_of_gt (Nat.lt_add_right i (by decide))
      have hplus : specialBase + i ≠ '+'.toNat := Nat.ne_of_gt (Nat.lt_add_right i (by decide))
      have hminus : specialBase + i ≠ '-'.toNat := Nat.ne_of_gt (Nat.lt_add_right i (by decide))
      rw [mergeText_number_special _ hshort, if_neg hdot, decide_eq_false hplus, decide_eq_false hminus]
      rfl
    rw [hvalue]
    constructor
    · intro hsole hdots
      have hp : IsNumber (text ++ combinations.getD i []) := by
        refine h.left.append ?_
        rcases hdots with hdots | hdots
        · rw [hdots]
          exact .more (by decide) (.more (by decide) .nil)
        · rw [hdots]
          exact .more (by decide) (.more (by decide) (.more (by decide) .nil))
      rw [hnumber hp] at hsole
      cases hsole
    · intro hdots
      obtain ⟨htwo, hthree⟩ := not_or.1 hdots
      exact (hnone (not_isNumber_combination h.right hne htwo hthree)).symm
  | single c =>
    obtain rfl := Option.some.inj hw
    obtain ⟨-, hletter, hdigit⟩ := h.right
    have hshown : c ≠ 0 → showToken (.special c.toNat) = [c] := fun hc =>
      showToken_word h.rightWord h.right_length rfl (by simpa using hc)
    have hchar (d : Char) (hd : (ch d).toNat = d.toNat) : c.toNat = d.toNat ↔ c = ch d := by
      rw [← hd, UInt8.toNat_inj]
    have hdot := hchar '.' rfl
    have hplus := hchar '+' rfl
    have hminus := hchar '-' rfl
    refine iff_of_true ?_ id
    rw [mergeText_number_special _ hshort, htext]
    by_cases hcdot : c = ch '.'
    · rw [if_pos (hdot.2 hcdot), hshown (by rw [hcdot]; decide)]
      refine (hnumber (.more h.left ?_)).symm
      rw [hcdot]
      rfl
    · rw [if_neg (mt hdot.1 hcdot)]
      have hclass : (isDot c || isDigit c || isLetter c) = false := by
        rw [hdigit, hletter, isDot, decide_eq_false hcdot]
        rfl
      split_ifs with hsign
      · simp only [Bool.and_eq_true, Bool.or_eq_true, decide_eq_true_eq, hplus, hminus] at hsign
        obtain ⟨hsign, hexp⟩ := hsign
        obtain ⟨e, he, hexp⟩ := (Option.any_eq_true _ _).1 hexp
        have hzero : c ≠ 0 := by
          rintro rfl
          exact hsign.elim (by decide) (by decide)
        rw [hshown hzero]
        exact (hnumber (isNumber_sign h.left he hexp hsign.symm)).symm
      · refine (hnone fun hp => hsign ?_).symm
        rcases isNumber_append_singleton hp hne with hword | ⟨hsign, e, he, hexp⟩
        · rw [hclass] at hword
          cases hword
        · simp only [Bool.and_eq_true, Bool.or_eq_true, decide_eq_true_eq, hplus, hminus]
          exact ⟨hsign.symm, (Option.any_eq_true _ _).2 ⟨e, he, hexp⟩⟩
  | _ => exact h.rightWord.elim

/-- What begins with a punctuator is a combination, or a number behind a dot. -/
theorem soleToken_special (h : Joined x y) (hspecial : x.IsSpecial) :
    soleToken ppnoopt (x.text ++ y.text) =
      if (x.text ++ y.text).head? = some (ch '.') && (x.text ++ y.text).tail.head?.any isDigit
        then some (.number (x.text ++ y.text))
      else findCombination (x.text ++ y.text) := by
  obtain ⟨c, d, cs, hp, hc⟩ := h.exists_cons
  have hclass := hspecial.class_eq h.left c (List.mem_of_mem_head? hc)
  split_ifs with hdot
  · rw [hp] at hdot
    simp only [List.head?_cons, Option.some.injEq, List.tail_cons, Option.any_some, Bool.and_eq_true,
      decide_eq_true_eq] at hdot
    obtain ⟨rfl, hdigit⟩ := hdot
    -- the digit belongs to the right word, which is a number then
    have hnumber : IsNumber (x.text ++ y.text) := by
      obtain ⟨as, hx⟩ := List.head?_eq_some_iff.1 hc
      cases as with
      | cons e as =>
        rw [hx] at hp
        obtain rfl := (List.cons.inj (List.cons.inj hp).2).1
        have hno := (hspecial.class_eq h.left e (by rw [hx]; simp)).2
        rw [hno] at hdigit
        cases hdigit
      | nil =>
        rw [hx] at hp ⊢
        have hy : y.text = d :: cs := (List.cons.inj hp).2
        rw [hy]
        refine IsNumber.append (w := [ch '.', d]) (.dotDigit hdigit) ?_
        have hword := h.rightWord
        have hright := h.right
        cases y with
        | number text =>
          obtain ⟨e, es, htext, hes, -⟩ := IsNumber.exists_tail hright
          rw [Lexeme.text, htext] at hy
          rwa [← (List.cons.inj hy).2]
        | ident name =>
          obtain ⟨e, es, rfl, he, -⟩ := hright
          rw [(List.cons.inj hy).1] at he
          rw [isDigit_of_isLetter he] at hdigit
          cases hdigit
        | combination i =>
          have hno := (Lexeme.IsSpecial.class_eq (x := .combination i) hright trivial d (by rw [hy]; simp)).2
          rw [hno] at hdigit
          cases hdigit
        | single e =>
          rw [(List.cons.inj hy).1] at hright
          rw [hright.2.2] at hdigit
          cases hdigit
        | _ => exact hword.elim
    refine soleToken_word (x := .number (x.text ++ y.text)) hnumber ?_ h.solid h.length
    exact congrArg (fun t => some (Value.number t)) (numberToken_eq h.length)
  · cases hfind : findCombination (x.text ++ y.text) with
    | some u =>
      obtain ⟨i, hi, htext, rfl⟩ := findCombination_spec hfind
      have hword : (Lexeme.combination i).text = x.text ++ y.text := htext
      rw [← hword]
      exact soleToken_word hi rfl (hword ▸ h.solid) (hword ▸ h.length)
    | none =>
      refine soleToken_eq_none h.solid h.ne_nil h.length fun z hz hword htext => ?_
      rcases word_cases hz hword (htext.trans hp) with ⟨hletter, -⟩ | ⟨hnumber, -⟩ | ⟨-, i, rfl⟩
      · rw [hclass.1] at hletter
        cases hletter
      · rw [hclass.2] at hnumber
        refine hdot ?_
        rw [hp]
        simpa using hnumber
      · exact findCombination_eq_none.1 hfind i hz htext

/-- A combination has no letter, no digit and no null character. -/
theorem findCombination_of_mem {p : List UInt8} (hc : c ∈ p) (hclass : c = 0 ∨ isLetter c = true ∨ isDigit c = true) :
    findCombination p = none := by
  refine findCombination_eq_none.2 fun i hi htext => ?_
  rw [← htext] at hc
  obtain ⟨hletter, hdigit⟩ := Lexeme.IsSpecial.class_eq (x := .combination i) hi trivial c hc
  rw [hletter, hdigit] at hclass
  refine hclass.elim (fun hzero => ?_) (fun h => h.elim Bool.false_ne_true Bool.false_ne_true)
  exact (combination_class hc).2.2.1 hzero

set_option maxRecDepth 10000 in
theorem findCombination_of_length {p : List UInt8} (hlen : p.length ≤ 1) : findCombination p = none := by
  have hall : ∀ i < combinationCount, 2 ≤ (combinations.getD i []).length := by decide
  refine findCombination_eq_none.2 fun i hi htext => ?_
  have htwo := hall i hi
  rw [htext] at htwo
  omega

theorem findCombination_ne_none (hi : i < combinationCount) : findCombination (combinations.getD i []) ≠ none :=
  fun h => findCombination_eq_none.1 h i hi rfl

theorem any_isDigit_tail {p : List UInt8} (h : ∀ c ∈ p, isDigit c = false) : p.tail.head?.any isDigit = false := by
  cases p with
  | nil => rfl
  | cons a p =>
    cases p with
    | nil => rfl
    | cons b p => exact h b (List.mem_cons_of_mem a List.mem_cons_self)

/-- In front of the null character stands a punctuator as it is. -/
theorem pastes_special_zero (hx : x.Valid) (hspecial : x.IsSpecial) :
    (if x.text.head? = some (ch '.') && x.text.tail.head?.any isDigit then some (Value.number x.text)
      else findCombination x.text) = none ↔ ¬Misjudged x (.single 0) := by
  have hnodigit := any_isDigit_tail fun c hc => (hspecial.class_eq hx c hc).2
  rw [hnodigit, Bool.and_false, if_neg Bool.false_ne_true]
  cases x with
  | combination i => exact iff_of_false (findCombination_ne_none hx) fun hnot => hnot rfl
  | single c => exact iff_of_true (findCombination_of_length (Nat.le_refl 1)) id
  | _ => exact hspecial.elim

/-- Behind the null character stands a word as it is. -/
theorem pastes_zero (hy : y.Valid) (hword : y.IsWord) (hlen : y.text.length < 256) (hw : y.value = some w) :
    (if (showToken w).head? = some (ch '.') && (showToken w).tail.head?.any isDigit
      then some (Value.number (showToken w)) else findCombination (showToken w)) = none ↔
        ¬Misjudged (.single 0) y := by
  by_cases hzero : y = .single 0
  · subst hzero
    obtain rfl := Option.some.inj hw
    exact iff_of_true (findCombination_of_length (Nat.zero_le 1)) id
  · rw [showToken_word hword hlen hw hzero]
    cases y with
    | ident name =>
      obtain ⟨c, cs, rfl, hc, -⟩ := hy
      have hdot : c ≠ ch '.' := by
        rintro rfl
        exact absurd hc (by decide)
      refine iff_of_true ?_ id
      rw [Lexeme.text, List.head?_cons, decide_eq_false (by simpa using hdot), Bool.false_and,
        if_neg Bool.false_ne_true]
      exact findCombination_of_mem List.mem_cons_self (.inr (.inl hc))
    | number text =>
      obtain ⟨c, cs, rfl, -, hstart⟩ := IsNumber.exists_tail hy
      rcases hstart with hdigit | ⟨rfl, e, he, hdigit⟩
      · have hdot : c ≠ ch '.' := by
          rintro rfl
          exact absurd hdigit (by decide)
        refine iff_of_true ?_ fun h => hdot (Option.some.inj h.2)
        rw [Lexeme.text, List.head?_cons, decide_eq_false (by simpa using hdot), Bool.false_and,
          if_neg Bool.false_ne_true]
        exact findCombination_of_mem List.mem_cons_self (.inr (.inr hdigit))
      · refine iff_of_false ?_ fun hnot => hnot ⟨rfl, rfl⟩
        have hany : (ch '.' :: cs).tail.head?.any isDigit = true := by
          rw [List.tail_cons, Option.mem_def.1 he]
          exact hdigit
        rw [Lexeme.text, List.head?_cons, hany, Bool.and_true, if_pos (decide_eq_true rfl)]
        exact Option.some_ne_none _
    | combination i =>
      have hnodigit := any_isDigit_tail fun c hc =>
        (Lexeme.IsSpecial.class_eq (x := .combination i) hy trivial c hc).2
      rw [hnodigit, Bool.and_false, if_neg Bool.false_ne_true]
      exact iff_of_false (findCombination_ne_none hy) fun hnot => hnot rfl
    | single c =>
      have hnodigit : (Lexeme.single c).text.tail.head?.any isDigit = false := rfl
      rw [hnodigit, Bool.and_false, if_neg Bool.false_ne_true]
      exact iff_of_true (findCombination_of_length (Nat.le_refl 1)) id
    | _ => exact hword.elim

/-- A punctuator goes on to a combination, or to a number behind a dot. The null character,
of which nothing is printed, is left out. -/
theorem pastes_special (h : Joined x y) (hspecial : x.IsSpecial) (hv : x.value = some v) (hw : y.value = some w) :
    mergeText v w = soleToken ppnoopt (x.text ++ y.text) ↔ ¬Misjudged x y := by
  have hcombinable := isCombinable_word h.rightWord hw
  have hshort : (showToken v ++ showToken w).length < 256 := by
    have hleft := showToken_length_le h.leftWord h.left_length hv
    have hright := showToken_length_le h.rightWord h.right_length hw
    have hlen := h.length
    rw [List.length_append] at hlen ⊢
    omega
  obtain ⟨o, rfl⟩ : ∃ o, v = .special o := by
    cases x with
    | combination i => exact ⟨_, (Option.some.inj hv).symm⟩
    | single c => exact ⟨_, (Option.some.inj hv).symm⟩
    | _ => exact hspecial.elim
  rw [mergeText_special o hcombinable hshort, soleToken_special h hspecial]
  by_cases hx : x = .single 0
  · subst hx
    obtain rfl := Value.special.inj (Option.some.inj hv)
    have hnone : findCombination ((Lexeme.single 0).text ++ y.text) = none :=
      findCombination_of_mem List.mem_cons_self (.inl rfl)
    have hhead : ((Lexeme.single 0).text ++ y.text).head? ≠ some (ch '.') := by
      rw [Lexeme.text, List.singleton_append, List.head?_cons]
      decide
    rw [hnone, decide_eq_false hhead, Bool.false_and, if_neg Bool.false_ne_true]
    exact pastes_zero h.right h.rightWord h.right_length hw
  · by_cases hy : y = .single 0
    · subst hy
      obtain rfl := Option.some.inj hw
      have hnone : findCombination (x.text ++ (Lexeme.single 0).text) = none :=
        findCombination_of_mem (List.mem_append_right _ List.mem_cons_self) (.inl rfl)
      have hnodigit : (x.text ++ (Lexeme.single 0).text).tail.head?.any isDigit = false :=
        any_isDigit_tail fun c hc => by
          rcases List.mem_append.1 hc with hc | hc
          · exact (hspecial.class_eq h.left c hc).2
          · rw [List.mem_singleton.1 hc]
            rfl
      have hshown : showToken (.special o) ++ showToken (.special (0 : UInt8).toNat) = x.text := by
        rw [showToken_word h.leftWord h.left_length hv hx]
        exact List.append_nil _
      rw [hnone, hnodigit, Bool.and_false, if_neg Bool.false_ne_true, hshown]
      exact pastes_special_zero h.left hspecial
    · rw [showToken_word h.leftWord h.left_length hv hx, showToken_word h.rightWord h.right_length hw hy]
      refine iff_of_true rfl ?_
      cases x with
      | combination i =>
        cases y with
        | single c => exact fun hc => hy (congrArg Lexeme.single hc)
        | _ => exact id
      | single c =>
        cases y with
        | combination i => exact fun hc => hx (congrArg Lexeme.single hc)
        | number text => exact fun hc => hx (congrArg Lexeme.single hc.1)
        | _ => exact id
      | _ => exact hspecial.elim

/-! ## Two words -/

set_option maxRecDepth 10000 in
/-- Only the slash alone ends with a slash. -/
theorem eq_slash_of_getLast? (hx : x.Valid) (hword : x.IsWord) (hlast : x.text.getLast? = some slash) :
    x = .single slash := by
  have hmem : slash ∈ x.text := List.mem_of_getLast? hlast
  cases x with
  | ident name =>
    obtain ⟨c, cs, rfl, hc, hcs⟩ := hx
    have hletter : (isLetter slash || isDigit slash) = true := by
      rcases List.mem_cons.1 hmem with heq | hmem
      · rw [heq, hc, Bool.true_or]
      · exact hcs slash hmem
    exact absurd hletter (by decide)
  | number text => exact absurd rfl (class_of_word slash (IsNumber.class_eq hx slash hmem)).2
  | combination i =>
    have hall : ∀ i < combinationCount, (combinations.getD i []).getLast? ≠ some slash := by decide
    exact absurd hlast (hall i hx)
  | single c => exact congrArg Lexeme.single (Option.some.inj hlast)
  | _ => exact hword.elim

/-- No comment begins where two words meet, unless a slash is in front of a slash or a star. -/
theorem solid_append (hx : x.Valid) (hxword : x.IsWord) (hy : y.Valid) (hyword : y.IsWord)
    (hopen : x = .single slash → ∀ d ∈ y.text.head?, d ≠ slash ∧ d ≠ star) : Solid (x.text ++ y.text) where
  class_eq c hc := (List.mem_append.1 hc).elim ((hxword.solid hx).class_eq c) ((hyword.solid hy).class_eq c)
  apart := by
    refine List.isChain_append.2 ⟨(hxword.solid hx).apart, (hyword.solid hy).apart, fun c hc d hd hslash => ?_⟩
    rw [hslash] at hc
    exact hopen (eq_slash_of_getLast? hx hxword hc) d hd

set_option maxRecDepth 10000 in
/-- The beginning of a comment is no token, and no combination. -/
theorem pastes_slash (hy : y.Valid) (hword : y.IsWord) (hw : y.value = some w) (hd : d ∈ y.text.head?)
    (hcomment : d = slash ∨ d = star) :
    mergeText (.special slash.toNat) w = soleToken ppnoopt ((Lexeme.single slash).text ++ y.text) := by
  have hclass : isLetter d = false ∧ isDigit d = false ∧ d ≠ ch '.' := by
    rcases hcomment with rfl | rfl <;> decide
  cases y with
  | ident name =>
    obtain ⟨c, cs, rfl, hc, -⟩ := hy
    rw [Option.some.inj hd, hclass.1] at hc
    cases hc
  | number text =>
    obtain ⟨c, cs, rfl, -, hstart⟩ := IsNumber.exists_tail hy
    rw [Option.some.inj hd, hclass.2.1] at hstart
    exact hstart.elim (fun h => (Bool.false_ne_true h).elim) fun h => absurd h.1 hclass.2.2
  | combination i =>
    have hall : ∀ i < combinationCount, (combinations.getD i []).head? = some slash ∨
        (combinations.getD i []).head? = some star → i = 5 ∨ i = 6 := by decide
    obtain rfl := Option.some.inj hw
    have hhead : (combinations.getD i []).head? = some slash ∨ (combinations.getD i []).head? = some star := by
      rcases hcomment with rfl | rfl
      · exact .inl hd
      · exact .inr hd
    rcases hall i hy hhead with rfl | rfl
    · cases ppnoopt <;> decide
    · cases ppnoopt <;> decide
  | single c =>
    obtain rfl := Option.some.inj hw
    obtain rfl : c = d := Option.some.inj hd
    rcases hcomment with rfl | rfl
    · cases ppnoopt <;> decide
    · cases ppnoopt <;> decide
  | _ => exact hword.elim

theorem pastes_words (hx : x.Valid) (hxword : x.IsWord) (hy : y.Valid) (hyword : y.IsWord)
    (hlen : (x.text ++ y.text).length < 256) (hv : x.value = some v) (hw : y.value = some w) :
    mergeText v w = soleToken ppnoopt (x.text ++ y.text) ↔ ¬Misjudged x y := by
  by_cases hopen : x = .single slash → ∀ d ∈ y.text.head?, d ≠ slash ∧ d ≠ star
  · have h : Joined x y := ⟨hx, hy, hxword, hyword, solid_append hx hxword hy hyword hopen, hlen⟩
    cases x with
    | ident name =>
      obtain rfl := Option.some.inj hv
      exact iff_of_true (pastes_ident h hw) id
    | number text =>
      obtain rfl := Option.some.inj hv
      have hnumber := numberToken_eq h.left_length
      rw [show numberToken text = text from hnumber]
      exact pastes_number h hw
    | combination i => exact pastes_special h trivial hv hw
    | single c => exact pastes_special h hxword hv hw
    | _ => exact hxword.elim
  · simp only [Classical.not_imp, not_forall, not_and_or, not_not] at hopen
    obtain ⟨rfl, d, hd, hcomment⟩ := hopen
    obtain rfl := Option.some.inj hv
    refine iff_of_true (pastes_slash hy hyword hw hd hcomment) fun hmisjudged => ?_
    cases y with
    | number text => exact absurd hmisjudged.1 (by decide)
    | combination i => exact absurd (show slash = 0 from hmisjudged) (by decide)
    | _ => exact hmisjudged

end Sparse.MacroExpansion
