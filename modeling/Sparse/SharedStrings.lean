import Mathlib.Logic.Function.Basic
import Sparse.EscapeSequences

/-!
# Shared strings

The tokens of a macro body and those of its expansions point to one string, and
`get_string_constant` writes what it has decoded over the string of its first token. What a
later call reads is compared with what the text of the tokens was.
-/

namespace Sparse.Tokenizer

/-! ## Strings -/

/-- A string token. `dup_token` and `merge` copy the pointer, so that the tokens of several
lists may have one string. -/
structure StringToken where
  wide : Bool
  string : ℕ
  deriving DecidableEq, Repr

/-- The strings that have been allocated, without their terminators. The tokenizer makes none
that is longer than its buffer. -/
structure Strings where
  text : ℕ → List UInt8
  next : ℕ
  short : ∀ string, (text string).length ≤ maxString

/-- A call of `get_string_constant`: its token and the string tokens behind it. -/
structure StringCall where
  first : StringToken
  adjacent : List StringToken
  deriving DecidableEq, Repr

/-- The strings of the call are older than that one. -/
def StringCall.Within (c : StringCall) (next : ℕ) : Prop := ∀ t ∈ c.first :: c.adjacent, t.string < next

/-- What `get_string_constant` makes of the tokens with these texts. -/
def StringCall.value (bitsInChar : ℕ) (text : ℕ → List UInt8) (c : StringCall) : Bool × List UInt8 :=
  let constant := getStringConstant bitsInChar (c.first.wide, text c.first.string)
    (c.adjacent.map fun t => .string t.wide (text t.string))
  (constant.1, constant.2.1)

namespace Strings

/-- `string` gets other characters. -/
def write (s : Strings) (string : ℕ) (data : List UInt8) (h : data.length ≤ maxString) : Strings where
  text := Function.update s.text string data
  next := s.next
  short other := by
    rw [Function.update_apply]
    split_ifs
    · exact h
    · exact s.short other

/-- `__alloc_string`. -/
def alloc (s : Strings) (data : List UInt8) (h : data.length ≤ maxString) : Strings where
  text := Function.update s.text s.next data
  next := s.next + 1
  short other := by
    rw [Function.update_apply]
    split_ifs
    · exact h
    · exact s.short other

end Strings

theorem StringCall.value_length (bitsInChar : ℕ) (text : ℕ → List UInt8) (c : StringCall) :
    (c.value bitsInChar text).2.length ≤ maxString := List.length_take_le _ _

/-- The string of the expression, whether it is wide, and the strings behind the call. The
first token's string is taken if the terminator has a place in it too. -/
def Strings.getStringConstant (s : Strings) (bitsInChar : ℕ) (c : StringCall) : ℕ × Bool × Strings :=
  let constant := c.value bitsInChar s.text
  if (s.text c.first.string).length + 1 ≤ constant.2.length then
    (s.next, constant.1, s.alloc constant.2 (c.value_length bitsInChar s.text))
  else (c.first.string, constant.1, s.write c.first.string constant.2 (c.value_length bitsInChar s.text))

/-- The strings in front of each call, and at the end. -/
def Strings.states (bitsInChar : ℕ) : Strings → List StringCall → List Strings
  | s, [] => [s]
  | s, c :: calls => s :: states bitsInChar (s.getStringConstant bitsInChar c).2.2 calls

/-- Every call yields what the first strings define. -/
def Unchanged (bitsInChar : ℕ) (s s' : Strings) : Prop :=
  ∀ c : StringCall, c.Within s.next → c.value bitsInChar s'.text = c.value bitsInChar s.text

/-- The characters that the texts of the tokens behind the first one stand for. -/
def Strings.added (s : Strings) (c : StringCall) : List UInt8 :=
  c.adjacent.flatMap fun t => decode 8 (s.text t.string)

/-- The texts stand for more characters than the first one has, or it has no escape that stands
for a backslash and nothing is added to it. A text with such an escape is kept where what all
texts stand for is a spelling of it again. -/
def Strings.Keeps (s : Strings) (c : StringCall) : Prop :=
  let text := s.text c.first.string
  text.length < min maxString ((decode 8 text).length + (s.added c).length) ∨
    (backslash ∉ decode 8 text ∧ (s.added c = [] ∨ (decode 8 text).length = maxString)) ∨
    (backslash ∈ decode 8 text ∧ decode 8 ((decode 8 text ++ s.added c).take maxString) = decode 8 text)

/-- Each call of the run keeps the strings that it finds. -/
def Strings.KeepsAll (bitsInChar : ℕ) : Strings → List StringCall → Prop
  | _, [] => True
  | s, c :: calls =>
    s.Keeps c ∧ KeepsAll bitsInChar (s.getStringConstant bitsInChar c).2.2 calls

/-! ## Decoding -/

variable {bits : ℕ} {s s' s'' : Strings} {c : StringCall} {n : ℕ}

theorem hexLoop_mask (p : List UInt8) (v mask mask' : ℕ) (warnings warnings' : List String) :
    (hexLoop p v mask warnings).1 = (hexLoop p v mask' warnings').1 ∧
      (hexLoop p v mask warnings).2.1 = (hexLoop p v mask' warnings').2.1 := by
  induction p generalizing v mask mask' warnings warnings' with
  | nil => exact ⟨rfl, rfl⟩
  | cons b p ih =>
    simp only [hexLoop]
    by_cases hstop : 16 < hexval b
    · simp only [if_pos hstop, and_self]
    · simp only [if_neg hstop]
      split_ifs
      · exact ih _ _ _ _ _
      · exact ih _ _ _ _ _
      · exact ih _ _ _ _ _
      · exact ih _ _ _ _ _

theorem ofNat_mod_pow (hbits : 8 ≤ bits) (v : ℕ) : UInt8.ofNat (v % 2 ^ bits) = UInt8.ofNat v := by
  rw [← UInt8.toNat_inj, UInt8.toNat_ofNat', UInt8.toNat_ofNat']
  exact Nat.mod_mod_of_dvd _ (pow_dvd_pow 2 hbits)

/-- How wide the characters are has no effect on what is read, nor on the byte that is stored. -/
theorem parseEscape_bits (hbits : 8 ≤ bits) (text : List UInt8) :
    UInt8.ofNat (parseEscape bits text).1 = UInt8.ofNat (parseEscape 8 text).1 ∧
      (parseEscape bits text).2.1 = (parseEscape 8 text).2.1 := by
  cases text with
  | nil => exact ⟨rfl, rfl⟩
  | cons c p =>
    simp only [parseEscape]
    by_cases hc : c ≠ backslash
    · simp only [if_pos hc, and_self]
    · simp only [if_neg hc]
      cases p with
      | nil => exact ⟨rfl, rfl⟩
      | cons c p =>
        cases hsimple : simpleEscape c with
        | some v => simp only [hsimple, ofNat_mod_pow hbits, ofNat_mod_pow (le_refl 8), and_self]
        | none =>
          obtain ⟨hval, hnext⟩ := hexLoop_mask p 0 (2 ^ 32 - 2 ^ (bits - 4)) (2 ^ 32 - 2 ^ (8 - 4)) [] []
          simp only [hsimple]
          split_ifs
          · exact ⟨by rw [ofNat_mod_pow hbits, ofNat_mod_pow (le_refl 8), hval], hnext⟩
          all_goals simp only [ofNat_mod_pow hbits, ofNat_mod_pow (le_refl 8), and_self]

theorem decode_bits (hbits : 8 ≤ bits) (text : List UInt8) : decode bits text = decode 8 text := by
  induction hlen : text.length using Nat.strongRecOn generalizing text with
  | ind m ih =>
    cases text with
    | nil => rfl
    | cons c p =>
      obtain ⟨hval, hnext⟩ := parseEscape_bits hbits (c :: p)
      have hshorter := parseEscape_length 8 c p
      rw [List.length_cons] at hlen
      rw [decode_cons, decode_cons, hval, hnext, ih _ (by omega) _ rfl]

theorem decode_length (bits : ℕ) (text : List UInt8) : (decode bits text).length ≤ text.length := by
  induction hlen : text.length using Nat.strongRecOn generalizing text with
  | ind m ih =>
    cases text with
    | nil => exact Nat.zero_le _
    | cons c p =>
      have hshorter := parseEscape_length bits c p
      rw [List.length_cons] at hlen
      have hrest := ih (parseEscape bits (c :: p)).2.1.length (by omega) _ rfl
      rw [decode_cons, List.length_cons]
      omega

theorem decode_eq_nil (bits : ℕ) {text : List UInt8} : decode bits text = [] ↔ text = [] := by
  cases text with
  | nil => exact iff_of_true rfl rfl
  | cons c p => exact iff_of_false (by rw [decode_cons]; exact List.cons_ne_nil _ _) (List.cons_ne_nil _ _)

/-- Characters in front of the first backslash stand for themselves. -/
theorem decode_plain_append (bits : ℕ) {text next : List UInt8} (h : backslash ∉ text) :
    decode bits (text ++ next) = text ++ decode bits next := by
  induction text with
  | nil => rfl
  | cons c p ih =>
    have hplain : c ≠ backslash := fun hc => h (hc ▸ List.mem_cons_self)
    have hparse : parseEscape bits (c :: (p ++ next)) = (charToUnsigned c, p ++ next, []) := by
      simp only [parseEscape, if_pos hplain]
    rw [List.cons_append, decode_cons, hparse, ofNat_charToUnsigned,
      ih fun hp => h (List.mem_cons_of_mem _ hp)]
    rfl

theorem decode_backslash_ne (bits : ℕ) (text : List UInt8) :
    decode bits (backslash :: text) ≠ backslash :: text := by
  intro h
  cases text with
  | nil =>
    have hzero : decode bits [backslash] = [0] := rfl
    rw [hzero] at h
    exact absurd h (by decide)
  | cons c p =>
    have hrest : (parseEscape bits (backslash :: c :: p)).2.1.length ≤ p.length := by
      simp only [parseEscape, ne_eq, not_true_eq_false, if_false]
      cases hsimple : simpleEscape c with
      | some v => exact Nat.le_refl _
      | none =>
        dsimp only
        split_ifs
        · exact hexLoop_length _ _ _ _
        · exact octalLoop_length _ _ _
        · exact octalLoop_length _ _ _
        · exact Nat.le_refl _
    have hlen := congrArg List.length h
    have hle := decode_length bits (parseEscape bits (backslash :: c :: p)).2.1
    rw [decode_cons, List.length_cons, List.length_cons, List.length_cons] at hlen
    omega

/-- Only texts without a backslash stand for themselves. -/
theorem decode_eq_self_iff (bits : ℕ) {text : List UInt8} : decode bits text = text ↔ backslash ∉ text := by
  constructor
  · intro h hmem
    obtain ⟨before, after, rfl, hfirst⟩ := List.eq_append_cons_of_mem hmem
    rw [decode_plain_append bits hfirst] at h
    exact decode_backslash_ne bits after (List.append_cancel_left h)
  · intro h
    have happend : decode bits (text ++ []) = text ++ decode bits [] := decode_plain_append bits h
    rwa [List.append_nil, (decode_eq_nil bits).2 rfl, List.append_nil] at happend

/-- A text without backslashes and another behind it stand for it alone if the other is empty. -/
theorem decode_take_append_iff {text added : List UInt8} (h : backslash ∉ text)
    (hlen : text.length ≤ maxString) :
    decode 8 ((text ++ added).take maxString) = text ↔ added = [] ∨ text.length = maxString := by
  have htake : (text ++ added).take maxString = text ++ added.take (maxString - text.length) := by
    rw [List.take_append, List.take_of_length_le hlen]
  rw [htake, decode_plain_append 8 h, List.append_right_eq_self, decode_eq_nil, List.take_eq_nil_iff]
  rw [or_comm, Nat.sub_eq_zero_iff_le]
  exact or_congr_right ⟨fun hle => Nat.le_antisymm hlen hle, fun heq => heq.ge⟩

/-! ## What a reader sees -/

/-- The older strings are decoded alike. -/
def Alike (n : ℕ) (s s' : Strings) : Prop := ∀ string < n, decode 8 (s'.text string) = decode 8 (s.text string)

theorem Alike.symm (h : Alike n s s') : Alike n s' s := fun string hlt => (h string hlt).symm

theorem Alike.trans (h : Alike n s s') (h' : Alike n s' s'') : Alike n s s'' := fun string hlt =>
  (h' string hlt).trans (h string hlt)

theorem stringRun_tokens (text : ℕ → List UInt8) (tokens : List StringToken) :
    stringRun (tokens.map fun t => .string t.wide (text t.string)) =
      (tokens.map fun t => (t.wide, text t.string), []) := by
  induction tokens with
  | nil => rfl
  | cons t tokens ih => simp only [List.map_cons, stringRun, ih]

/-- The value depends on what the single texts are decoded to. -/
theorem StringCall.value_eq (hbits : 8 ≤ bits) (text : ℕ → List UInt8) (c : StringCall) :
    c.value bits text = ((c.first :: c.adjacent).any StringToken.wide,
      ((c.first :: c.adjacent).flatMap fun t => decode 8 (text t.string)).take maxString) := by
  have hdecode (wide : Bool) (text : List UInt8) : decode (if wide then 32 else bits) text = decode 8 text := by
    cases wide with
    | false => exact decode_bits hbits text
    | true => exact decode_bits (Nat.le_add_left 8 24) text
  simp only [value, getStringConstant, stringRun_tokens, hdecode, List.any_cons, List.any_map, List.flatMap_cons,
    List.flatMap_map]
  rfl

/-- The strings are seen unchanged exactly if they are decoded alike. -/
theorem unchanged_iff_alike (hbits : 8 ≤ bits) : Unchanged bits s s' ↔ Alike s.next s s' := by
  constructor
  · intro h string hlt
    have hvalue := h ⟨⟨false, string⟩, []⟩ fun t ht => by rwa [List.mem_singleton.1 ht]
    have hshort (s : Strings) : (decode 8 (s.text string)).length ≤ maxString :=
      (decode_length 8 _).trans (s.short string)
    have hdata := congrArg Prod.snd hvalue
    rwa [StringCall.value_eq hbits, StringCall.value_eq hbits, List.flatMap_singleton, List.flatMap_singleton,
      List.take_of_length_le (hshort s'), List.take_of_length_le (hshort s)] at hdata
  · intro h c hc
    rw [StringCall.value_eq hbits, StringCall.value_eq hbits,
      List.flatMap_congr fun t ht => h t.string (hc t ht)]

@[simp] theorem Strings.write_text_self (s : Strings) (string : ℕ) (data : List UInt8)
    (h : data.length ≤ maxString) : (s.write string data h).text string = data := Function.update_self _ _ _

theorem Strings.write_text_of_ne (s : Strings) {string other : ℕ} (data : List UInt8)
    (h : data.length ≤ maxString) (hne : other ≠ string) : (s.write string data h).text other = s.text other :=
  Function.update_of_ne hne _ _

theorem Strings.alloc_text_of_lt (s : Strings) {string : ℕ} (data : List UInt8) (h : data.length ≤ maxString)
    (hlt : string < s.next) : (s.alloc data h).text string = s.text string := Function.update_of_ne hlt.ne _ _

theorem Strings.value_data (hbits : 8 ≤ bits) (s : Strings) (c : StringCall) :
    (c.value bits s.text).2 = (decode 8 (s.text c.first.string) ++ s.added c).take maxString := by
  rw [StringCall.value_eq hbits, List.flatMap_cons]
  rfl

/-- Where the characters have a place in the first string. -/
theorem Strings.keeps_iff_of_fits
    (hfits : ¬(s.text c.first.string).length < min maxString
      ((decode 8 (s.text c.first.string)).length + (s.added c).length)) :
    s.Keeps c ↔ decode 8 ((decode 8 (s.text c.first.string) ++ s.added c).take maxString) =
      decode 8 (s.text c.first.string) := by
  have hlen : (decode 8 (s.text c.first.string)).length ≤ maxString :=
    (decode_length 8 _).trans (s.short _)
  rw [Strings.Keeps, or_iff_right hfits]
  by_cases hback : backslash ∈ decode 8 (s.text c.first.string)
  · rw [or_iff_right fun h => h.1 hback, and_iff_right hback]
  · rw [or_iff_left fun h => hback h.1, and_iff_right hback, decode_take_append_iff hback hlen]

/-- On one token the call keeps the strings exactly if no escape stands for a backslash. -/
theorem Strings.keeps_alone (s : Strings) (first : StringToken) :
    s.Keeps ⟨first, []⟩ ↔ backslash ∉ decode 8 (s.text first.string) := by
  have hle := decode_length 8 (s.text first.string)
  have hlen := hle.trans (s.short first.string)
  have hadded : s.added ⟨first, []⟩ = [] := rfl
  rw [keeps_iff_of_fits (by rw [hadded, List.length_nil]; exact Nat.not_lt.2 ((min_le_right _ _).trans hle)),
    hadded, List.append_nil, List.take_of_length_le hlen, decode_eq_self_iff]

/-- A call that writes over its first string makes the difference. -/
theorem alike_getStringConstant (hbits : 8 ≤ bits) (hnext : n ≤ s.next) (hc : c.Within n) :
    Alike n s (s.getStringConstant bits c).2.2 ↔ s.Keeps c := by
  have hlen : (c.value bits s.text).2.length = min maxString
      ((decode 8 (s.text c.first.string)).length + (s.added c).length) := by
    rw [s.value_data hbits, List.length_take, List.length_append]
  unfold Strings.getStringConstant
  dsimp only
  split_ifs with hfits
  · refine iff_of_true (fun string hlt => ?_) (.inl (by rw [← hlen]; exact hfits))
    rw [s.alloc_text_of_lt _ _ (Nat.lt_of_lt_of_le hlt hnext)]
  · rw [Strings.keeps_iff_of_fits (by rw [← hlen]; exact hfits), ← s.value_data hbits]
    constructor
    · intro h
      have hfirst := h c.first.string (hc c.first List.mem_cons_self)
      rwa [Strings.write_text_self] at hfirst
    · intro hsame string hlt
      by_cases heq : string = c.first.string
      · rw [heq, Strings.write_text_self, hsame]
      · rw [s.write_text_of_ne _ _ heq]

theorem next_le_getStringConstant (bits : ℕ) (s : Strings) (c : StringCall) :
    s.next ≤ (s.getStringConstant bits c).2.2.next := by
  unfold Strings.getStringConstant
  dsimp only
  split_ifs
  · exact Nat.le_succ _
  · exact Nat.le_refl _

/-! ## Runs -/

theorem mem_states_self (bits : ℕ) (s : Strings) (calls : List StringCall) : s ∈ s.states bits calls := by
  cases calls with
  | nil => exact List.mem_singleton.2 rfl
  | cons c calls => exact List.mem_cons_self

/-- All states of a run are alike exactly if every call keeps the strings that it finds. -/
theorem alike_states_iff (hbits : 8 ≤ bits) {calls : List StringCall} (hcalls : ∀ c ∈ calls, c.Within n)
    (hnext : n ≤ s'.next) (hstart : Alike n s s') :
    (∀ s'' ∈ s'.states bits calls, Alike n s s'') ↔ s'.KeepsAll bits calls := by
  induction calls generalizing s' with
  | nil =>
    refine iff_of_true (fun s'' hmem => ?_) trivial
    rwa [List.mem_singleton.1 hmem]
  | cons c calls ih =>
    have hstep := alike_getStringConstant hbits hnext (hcalls c List.mem_cons_self)
    have hrest := fun c hc => hcalls c (List.mem_cons_of_mem _ hc)
    have hnext' := hnext.trans (next_le_getStringConstant bits s' c)
    constructor
    · intro h
      have hbehind := h _ (List.mem_cons_of_mem _ (mem_states_self bits _ calls))
      exact ⟨hstep.1 (hstart.symm.trans hbehind),
        (ih hrest hnext' hbehind).1 fun s'' hmem => h s'' (List.mem_cons_of_mem _ hmem)⟩
    · rintro ⟨hkeeps, hall⟩ s'' hmem
      rcases List.mem_cons.1 hmem with rfl | hmem
      · exact hstart
      · exact (ih hrest hnext' (hstart.trans (hstep.2 hkeeps))).2 hall s'' hmem

/-- In every state of a run of calls each call on the strings yields what their first texts
define, exactly if each call has texts that keep the first one. -/
theorem unchanged_states_iff (hbits : 8 ≤ bits) (s : Strings) (calls : List StringCall)
    (hcalls : ∀ c ∈ calls, c.Within s.next) :
    (∀ s' ∈ s.states bits calls, Unchanged bits s s') ↔ s.KeepsAll bits calls := by
  rw [← alike_states_iff hbits hcalls (le_refl _) fun _ _ => rfl]
  exact forall₂_congr fun s' _ => unchanged_iff_alike hbits

/-- The strings of a table of texts. -/
def Strings.ofTexts (texts : List (List UInt8)) (h : ∀ string, (texts.getD string []).length ≤ maxString) : Strings where
  text string := texts.getD string []
  next := texts.length
  short := h

/-- The texts `a\tb` and `c`; the first one is decoded to a tab between its letters. -/
def tabTexts : Strings :=
  .ofTexts [[ch 'a', backslash, ch 't', ch 'b'], [ch 'c']] fun string => by
    rcases string with _ | _ | string
    · decide
    · decide
    · exact Nat.zero_le _

/-- A text is read, read again in a wide string, and read in front of another one. -/
theorem unchanged_states_tabTexts :
    tabTexts.KeepsAll 8 [⟨⟨false, 0⟩, []⟩, ⟨⟨true, 0⟩, []⟩, ⟨⟨false, 0⟩, [⟨false, 1⟩]⟩] ∧
      ∀ s' ∈ tabTexts.states 8 [⟨⟨false, 0⟩, []⟩, ⟨⟨true, 0⟩, []⟩, ⟨⟨false, 0⟩, [⟨false, 1⟩]⟩],
        Unchanged 8 tabTexts s' := by
  have hkeeps : tabTexts.KeepsAll 8 [⟨⟨false, 0⟩, []⟩, ⟨⟨true, 0⟩, []⟩, ⟨⟨false, 0⟩, [⟨false, 1⟩]⟩] :=
    ⟨.inr (.inl (by decide)), .inr (.inl (by decide)), .inl (by decide), trivial⟩
  refine ⟨hkeeps, (unchanged_states_iff (le_refl 8) tabTexts _ ?_).2 hkeeps⟩
  intro c hc t ht
  have hall : ∀ c ∈ [(⟨⟨false, 0⟩, []⟩ : StringCall), ⟨⟨true, 0⟩, []⟩, ⟨⟨false, 0⟩, [⟨false, 1⟩]⟩],
      ∀ t ∈ c.first :: c.adjacent, t.string < 2 := by decide
  exact hall c hc t ht

/-- An escaped backslash in front of a letter. -/
def backslashText : Strings :=
  .ofTexts [[backslash, backslash, ch 'n']] fun string => by
    rcases string with _ | string
    · decide
    · exact Nat.zero_le _

/-- The second reader of an escaped backslash and an `n` reads a newline. -/
theorem not_unchanged_backslashText :
    ¬∀ (s : Strings) (calls : List StringCall), (∀ c ∈ calls, c.Within s.next) →
      ∀ s' ∈ s.states 8 calls, Unchanged 8 s s' := by
  intro h
  have hwithin : (⟨⟨false, 0⟩, []⟩ : StringCall).Within backslashText.next := by
    intro t ht
    rw [List.mem_singleton.1 ht]
    exact Nat.zero_lt_one
  have hsecond := h backslashText [⟨⟨false, 0⟩, []⟩] (fun c hc => List.mem_singleton.1 hc ▸ hwithin) _
    (List.mem_cons_of_mem _ (mem_states_self 8 _ [])) ⟨⟨false, 0⟩, []⟩ hwithin
  exact absurd hsecond (by decide)

end Sparse.Tokenizer
