import Mathlib.Data.List.Basic
import Mathlib.Data.List.Count
import Mathlib.Data.Int.Notation

/-!
# Character input

`nextchar` and `nextchar_slow` over a stream whose buffer `read` fills anew, and
the first two translation phases as functions of the whole text. However `read`
splits the text, the characters delivered are those of the two phases.
-/

namespace Sparse.Tokenize

/-- `BUFSIZE`. -/
def bufsize : ℕ := 8192

def tab : UInt8 := 9
def newline : UInt8 := 10
def carriageReturn : UInt8 := 13
def backslash : UInt8 := 92

/-- `EOF`. -/
def eof : ℤ := -1

/-- What one call of `read` gives before the end of the file. -/
structure Chunk where
  bytes : List UInt8
  nonempty : bytes ≠ []
  fits : bytes.length ≤ bufsize

/-- `stream_t`: `buffer` is its filled part, and `input` is what `read` is still to give. -/
structure Stream where
  fd : ℤ
  buffer : List UInt8
  offset : ℕ
  pos : ℕ
  line : ℕ
  newline : Bool
  input : List Chunk
  warnings : List String

def Stream.warn (s : Stream) (text : String) : Stream :=
  { s with warnings := s.warnings ++ [text] }

/-- The byte at the offset, after a refill when the buffer is at its end. -/
def nextByte (offset : ℕ) (s : Stream) : Option (UInt8 × ℕ × Stream) :=
  match s.buffer[offset]? with
  | some c => some (c, offset + 1, s)
  | none =>
    if s.fd < 0 then none
    else
      match s.input with
      | [] => none
      | chunk :: input =>
        some (chunk.bytes.head chunk.nonempty, 1, { s with buffer := chunk.bytes, offset := 0, input := input })

/-- The label `got_eof`. -/
def gotEof (spliced hadBackslash : Bool) (offset : ℕ) (s : Stream) : ℤ × Stream :=
  if hadBackslash then (backslash.toNat, { s with offset := offset })
  else if s.pos ≠ 0 then (eof, s.warn "no newline at end of file")
  else if spliced then (eof, s.warn "backslash-newline at end of file")
  else (eof, s)

/-- `nextchar_slow` from the label `repeat` on, with its local variables. -/
def slowLoop (tabstop : ℕ) : ℕ → Bool → Bool → Bool → ℕ → Stream → Option (ℤ × Stream)
  | 0, _, _, _, _, _ => none
  | fuel + 1, spliced, hadCr, hadBackslash, offset, s =>
    match nextByte offset s with
    | none => some (gotEof spliced hadBackslash offset s)
    | some (c, offset, s) =>
      if hadCr = false ∧ c = carriageReturn then slowLoop tabstop fuel spliced true hadBackslash offset s
      else
        -- the label `check_lf`
        let offset := if hadCr = true ∧ c ≠ newline then offset - 1 else offset
        let c := if hadCr then newline else c
        -- the label `norm`
        if hadBackslash = false then
          if c = tab then
            some (c.toNat, { s with pos := s.pos + (tabstop - s.pos % tabstop), offset := offset })
          else if c = newline then
            some (c.toNat, { s with line := s.line + 1, pos := 0, newline := true, offset := offset })
          else if c = backslash then
            slowLoop tabstop fuel spliced hadCr true offset { s with pos := s.pos + 1 }
          else some (c.toNat, { s with pos := s.pos + 1, offset := offset })
        else if c = newline then
          slowLoop tabstop fuel true false false offset { s with line := s.line + 1, pos := 0 }
        else some (backslash.toNat, { s with offset := offset - 1 })

/-- `nextchar_slow`. -/
def nextcharSlow (tabstop fuel : ℕ) (s : Stream) : Option (ℤ × Stream) :=
  slowLoop tabstop fuel false false false s.offset s

/-- The table `special` of `nextchar`. -/
def special (c : UInt8) : Bool :=
  c = tab || c = carriageReturn || c = newline || c = backslash

/-- `nextchar`. -/
def nextchar (tabstop fuel : ℕ) (s : Stream) : Option (ℤ × Stream) :=
  match s.buffer[s.offset]? with
  | some c =>
    if special c = false then some (c.toNat, { s with offset := s.offset + 1, pos := s.pos + 1 })
    else nextcharSlow tabstop fuel s
  | none => nextcharSlow tabstop fuel s

/-- The characters of that many calls, one after the other. -/
def calls (tabstop fuel : ℕ) : ℕ → Stream → Option (List ℤ × Stream)
  | 0, s => some ([], s)
  | k + 1, s => do
    let (c, s) ← nextchar tabstop fuel s
    let (cs, s) ← calls tabstop fuel k s
    return (c :: cs, s)

/-! ## The translation phases -/

/-- Phase 1: each physical line end is a newline; one behind a carriage return belongs to it. -/
def physicalLines : Bool → List UInt8 → List UInt8
  | _, [] => []
  | afterCr, c :: bs =>
    if c = carriageReturn then newline :: physicalLines true bs
    else if afterCr = true ∧ c = newline then physicalLines false bs
    else c :: physicalLines false bs

/-- Phase 2: a backslash goes together with a newline behind it. -/
def splice : List UInt8 → List UInt8
  | [] => []
  | [c] => [c]
  | c :: d :: bs => if c = backslash ∧ d = newline then splice bs else c :: splice (d :: bs)

/-- The characters of a text. -/
def characters (bs : List UInt8) : List UInt8 :=
  splice (physicalLines false bs)

/-- The physical line ends of a text. -/
def lineEnds (bs : List UInt8) : ℕ :=
  (physicalLines false bs).count newline

/-- The text is not split inside of a line end. -/
def Whole (xs ys : List UInt8) : Prop :=
  ¬ (xs.getLast? = some carriageReturn ∧ ys.head? = some newline)

/-- The bytes from the offset on that are not delivered yet. -/
def Stream.unreadFrom (s : Stream) (offset : ℕ) : List UInt8 :=
  s.buffer.drop offset ++ if s.fd < 0 then [] else s.input.flatMap Chunk.bytes

def Stream.unread (s : Stream) : List UInt8 :=
  s.unreadFrom s.offset

variable {bs xs ys zs : List UInt8} {c : UInt8} {s : Stream} {offset tabstop fuel : ℕ}
  {spliced hadCr hadBackslash : Bool}

theorem physicalLines_true (h : bs.head? ≠ some newline) :
    physicalLines true bs = physicalLines false bs := by
  cases bs with
  | nil => rfl
  | cons c bs =>
    have hc : c ≠ newline := by simpa using h
    simp [physicalLines, hc]

theorem physicalLines_append (h : Whole xs ys) (afterCr : Bool) (hne : xs ≠ []) :
    physicalLines afterCr (xs ++ ys) = physicalLines afterCr xs ++ physicalLines false ys := by
  induction xs generalizing afterCr with
  | nil => exact absurd rfl hne
  | cons c xs ih =>
    cases xs with
    | nil =>
      rw [List.cons_append, List.nil_append, physicalLines, physicalLines]
      by_cases hc : c = carriageReturn
      · have hhead : ys.head? ≠ some newline := fun hy => h ⟨by rw [hc]; rfl, hy⟩
        rw [if_pos hc, if_pos hc, physicalLines_true hhead]
        rfl
      · rw [if_neg hc, if_neg hc]
        split <;> rfl
    | cons d xs =>
      have hwhole : Whole (d :: xs) ys := fun hw => h ⟨by rw [List.getLast?_cons_cons]; exact hw.1, hw.2⟩
      have ih' := fun f => ih hwhole f (List.cons_ne_nil d xs)
      rw [List.cons_append, physicalLines, physicalLines, ih', ih']
      split
      · rfl
      · split <;> rfl

theorem lineEnds_append (h : Whole xs ys) : lineEnds (xs ++ ys) = lineEnds xs + lineEnds ys := by
  rcases eq_or_ne xs [] with rfl | hne
  · simp [lineEnds, physicalLines]
  · rw [lineEnds, physicalLines_append h false hne, List.count_append]
    rfl

/-! ## The characters of a text, one at a time -/

@[simp] theorem characters_nil : characters [] = [] := rfl

theorem splice_cons (hc : c ≠ backslash) (bs : List UInt8) : splice (c :: bs) = c :: splice bs := by
  cases bs with
  | nil => rfl
  | cons d bs => rw [splice, if_neg fun h => hc h.1]

theorem characters_plain (hcr : c ≠ carriageReturn) (hbs : c ≠ backslash) (bs : List UInt8) :
    characters (c :: bs) = c :: characters bs := by
  rw [characters, physicalLines, if_neg hcr, if_neg (by simp), splice_cons hbs]
  rfl

/-- A line end at the start of a text, and what follows it. -/
inductive LineEnd : List UInt8 → List UInt8 → Prop
  | lf (bs : List UInt8) : LineEnd (newline :: bs) bs
  | crLf (bs : List UInt8) : LineEnd (carriageReturn :: newline :: bs) bs
  | cr {bs : List UInt8} : bs.head? ≠ some newline → LineEnd (carriageReturn :: bs) bs

theorem LineEnd.physicalLines (h : LineEnd xs ys) :
    physicalLines false xs = newline :: physicalLines false ys := by
  cases h with
  | lf => rfl
  | crLf => rfl
  | cr hhead => rw [Tokenize.physicalLines, if_pos rfl, physicalLines_true hhead]

theorem LineEnd.characters (h : LineEnd xs ys) : characters xs = newline :: characters ys := by
  rw [Tokenize.characters, h.physicalLines, splice_cons (by decide)]
  rfl

theorem LineEnd.characters_spliced (h : LineEnd xs ys) :
    Tokenize.characters (backslash :: xs) = Tokenize.characters ys := by
  rw [Tokenize.characters, Tokenize.physicalLines, if_neg (by decide), if_neg (by simp), h.physicalLines,
    splice, if_pos ⟨rfl, rfl⟩]
  rfl

/-- The bytes of a line end. -/
theorem LineEnd.split (h : LineEnd xs ys) :
    ∃ p, xs = p ++ ys ∧ p ≠ [] ∧ Whole p ys ∧ lineEnds p = 1 := by
  cases h with
  | lf => exact ⟨[newline], rfl, by simp, by simp [Whole, newline, carriageReturn], rfl⟩
  | crLf => exact ⟨[carriageReturn, newline], rfl, by simp, by simp [Whole, newline, carriageReturn], rfl⟩
  | cr hhead => exact ⟨[carriageReturn], rfl, by simp, fun hw => hhead hw.2, rfl⟩

theorem characters_backslash (hhead : bs.head? ≠ some newline) (hcr : bs.head? ≠ some carriageReturn) :
    characters (backslash :: bs) = backslash :: characters bs := by
  cases bs with
  | nil => rfl
  | cons d bs =>
    have hd : d ≠ newline := by simpa using hhead
    have hd' : d ≠ carriageReturn := by simpa using hcr
    rw [characters, physicalLines, if_neg (by decide), if_neg (by simp), physicalLines, if_neg hd',
      if_neg (by simp), splice, if_neg fun h => hd h.2, characters, physicalLines, if_neg hd',
      if_neg (by simp)]

/-! ## The loop -/

theorem nextByte_none (h : nextByte offset s = none) : s.unreadFrom offset = [] := by
  rw [nextByte] at h
  split at h
  · contradiction
  · rename_i hnone
    rw [Stream.unreadFrom, List.drop_of_length_le (List.getElem?_eq_none_iff.1 hnone)]
    split at h
    · rename_i hfd
      rw [if_pos hfd]
      rfl
    · rename_i hfd
      rw [if_neg hfd]
      split at h
      · rename_i hinput
        simp [hinput]
      · contradiction

/-- A byte is read, and can be unread. -/
theorem nextByte_some {o : ℕ} {s' : Stream} (h : nextByte offset s = some (c, o, s')) :
    s.unreadFrom offset = c :: s'.unreadFrom o ∧ s'.unreadFrom (o - 1) = c :: s'.unreadFrom o ∧
      s'.line = s.line := by
  rw [nextByte] at h
  split at h
  · rename_i b hb
    simp only [Option.some.injEq, Prod.mk.injEq] at h
    obtain ⟨rfl, rfl, rfl⟩ := h
    obtain ⟨hlt, hget⟩ := List.getElem?_eq_some_iff.1 hb
    have hcons : s.unreadFrom offset = b :: s.unreadFrom (offset + 1) := by
      rw [Stream.unreadFrom, Stream.unreadFrom, List.drop_eq_getElem_cons hlt, hget, List.cons_append]
    exact ⟨hcons, by rwa [Nat.add_sub_cancel], rfl⟩
  · rename_i hnone
    split at h
    · contradiction
    · rename_i hfd
      split at h
      · contradiction
      · rename_i chunk input hinput
        simp only [Option.some.injEq, Prod.mk.injEq] at h
        obtain ⟨rfl, rfl, rfl⟩ := h
        have hchunk : chunk.bytes = chunk.bytes.head chunk.nonempty :: chunk.bytes.tail :=
          (List.cons_head_tail chunk.nonempty).symm
        have hnew : ∀ k, Stream.unreadFrom
            { s with buffer := chunk.bytes, offset := 0, input := input } k =
              chunk.bytes.drop k ++ input.flatMap Chunk.bytes := by
          intro k
          rw [Stream.unreadFrom]
          dsimp only
          rw [if_neg hfd]
        refine ⟨?_, ?_, rfl⟩
        · rw [hnew, Stream.unreadFrom, List.drop_of_length_le (List.getElem?_eq_none_iff.1 hnone),
            if_neg hfd, hinput, List.flatMap_cons, List.nil_append, List.drop_one]
          conv_lhs => rw [hchunk]
          rfl
        · rw [hnew, hnew, Nat.sub_self, List.drop_zero, List.drop_one]
          conv_lhs => rw [hchunk]
          rfl

theorem nextByte_eq_none (h : s.unreadFrom offset = []) : nextByte offset s = none := by
  cases hnext : nextByte offset s with
  | none => rfl
  | some r =>
    obtain ⟨c, o, s'⟩ := r
    simp [(nextByte_some hnext).1] at h

/-- There is a byte to read where there are bytes left. -/
theorem exists_nextByte (h : s.unreadFrom offset = c :: bs) :
    ∃ o s', nextByte offset s = some (c, o, s') ∧ s'.unreadFrom o = bs ∧
      s'.unreadFrom (o - 1) = c :: bs ∧ s'.line = s.line := by
  cases hnext : nextByte offset s with
  | none => simp [nextByte_none hnext] at h
  | some r =>
    obtain ⟨d, o, s'⟩ := r
    obtain ⟨hread, hunread, hline⟩ := nextByte_some hnext
    rw [h] at hread
    obtain ⟨rfl, rfl⟩ := List.cons.inj hread
    exact ⟨o, s', rfl, rfl, hunread, hline⟩

/-- A text that ends in a newline, or the end of one. -/
def Ended (bs : List UInt8) : Prop :=
  bs = [] ∨ bs.getLast? = some newline

theorem Ended.tail (h : Ended (c :: bs)) : Ended bs := by
  cases bs with
  | nil => exact .inl rfl
  | cons d bs =>
    rcases h with h | h
    · simp at h
    · exact .inr (by rwa [List.getLast?_cons_cons] at h)

theorem Ended.ne_nil (h : Ended (c :: bs)) (hc : c ≠ newline) : bs ≠ [] := by
  rintro rfl
  rcases h with h | h
  · simp at h
  · exact hc (by simpa using h)

theorem Ended.of_append (h : Ended (xs ++ ys)) : Ended ys := by
  induction xs with
  | nil => exact h
  | cons x xs ih => exact ih h.tail

/-- What a call does on a stream that has the bytes left. -/
inductive Delivers (s : Stream) (bs : List UInt8) : ℤ × Stream → Prop
  | eof {s' : Stream} : characters bs = [] → s'.line = s.line + lineEnds bs → Delivers s bs (eof, s')
  | char {c : UInt8} {p : List UInt8} {s' : Stream} : characters bs = c :: characters s'.unread →
      bs = p ++ s'.unread → p ≠ [] → Whole p s'.unread → s'.line = s.line + lineEnds p →
      Delivers s bs (c.toNat, s')

/-- Behind a carriage return. -/
theorem slowLoop_cr (tabstop fuel : ℕ) (spliced : Bool) (hne : bs ≠ []) (h : s.unreadFrom offset = bs) :
    ∃ s', slowLoop tabstop (fuel + 1) spliced true false offset s = some ((newline.toNat : ℤ), s') ∧
      LineEnd (carriageReturn :: bs) s'.unread ∧ s'.line = s.line + 1 := by
  obtain ⟨c, bs, rfl⟩ := List.exists_cons_of_ne_nil hne
  obtain ⟨o, s₁, hnext, hrest, hunread, hline⟩ := exists_nextByte h
  rw [slowLoop, hnext]
  dsimp only
  rw [if_neg (by simp), if_pos rfl, if_pos rfl, if_neg (by decide), if_pos rfl]
  refine ⟨_, rfl, ?_, by rw [hline]⟩
  show LineEnd _ (s₁.unreadFrom _)
  by_cases hc : c = newline
  · rw [if_neg (by simp [hc]), hrest, hc]
    exact .crLf bs
  · rw [if_pos ⟨rfl, hc⟩, hunread]
    exact .cr (by simpa using hc)

/-- Behind a backslash and a carriage return. -/
theorem slowLoop_backslash_cr (tabstop fuel : ℕ) (spliced : Bool) (hne : bs ≠ []) (h : s.unreadFrom offset = bs) :
    ∃ o s', slowLoop tabstop (fuel + 1) spliced true true offset s =
        slowLoop tabstop fuel true false false o s' ∧
      LineEnd (carriageReturn :: bs) (s'.unreadFrom o) ∧ s'.line = s.line + 1 := by
  obtain ⟨c, bs, rfl⟩ := List.exists_cons_of_ne_nil hne
  obtain ⟨o, s₁, hnext, hrest, hunread, hline⟩ := exists_nextByte h
  rw [slowLoop, hnext]
  dsimp only
  rw [if_neg (by simp), if_pos rfl, if_neg (by simp), if_pos rfl]
  refine ⟨_, _, rfl, ?_, by rw [hline]⟩
  show LineEnd _ (s₁.unreadFrom _)
  by_cases hc : c = newline
  · rw [if_neg (by simp [hc]), hrest, hc]
    exact .crLf bs
  · rw [if_pos ⟨rfl, hc⟩, hunread]
    exact .cr (by simpa using hc)

/-- Behind a backslash: it is kept and what follows is unread, or the line goes on. -/
theorem slowLoop_backslash (tabstop fuel : ℕ) (spliced : Bool) (hended : Ended bs) (h : s.unreadFrom offset = bs) :
    (bs.head? ≠ some newline ∧ bs.head? ≠ some carriageReturn ∧
      ∃ s', slowLoop tabstop (fuel + 2) spliced false true offset s = some ((backslash.toNat : ℤ), s') ∧
        s'.unread = bs ∧ s'.line = s.line) ∨
    ∃ k o s', k ≤ 1 ∧ slowLoop tabstop (fuel + 2) spliced false true offset s =
        slowLoop tabstop (fuel + k) true false false o s' ∧
      LineEnd bs (s'.unreadFrom o) ∧ s'.line = s.line + 1 := by
  cases bs with
  | nil =>
    left
    refine ⟨by simp, by simp, ?_⟩
    rw [slowLoop, nextByte_eq_none h]
    exact ⟨_, rfl, h, rfl⟩
  | cons c bs =>
    obtain ⟨o, s₁, hnext, hrest, hunread, hline⟩ := exists_nextByte h
    by_cases hcr : c = carriageReturn
    · right
      have hne : bs ≠ [] := hended.ne_nil (by rw [hcr]; decide)
      obtain ⟨o', s', heq, hend, hline'⟩ := slowLoop_backslash_cr tabstop fuel spliced hne hrest
      refine ⟨0, o', s', Nat.zero_le 1, ?_, hcr ▸ hend, by rw [hline', hline]⟩
      rw [slowLoop, hnext]
      dsimp only
      rw [if_pos ⟨rfl, hcr⟩]
      exact heq
    · by_cases hlf : c = newline
      · right
        refine ⟨1, o, { s₁ with line := s₁.line + 1, pos := 0 }, Nat.le_refl 1, ?_, ?_, by rw [← hline]⟩
        · rw [slowLoop, hnext]
          simp [hlf, newline, carriageReturn]
        · have hrest' : Stream.unreadFrom { s₁ with line := s₁.line + 1, pos := 0 } o = bs := hrest
          rw [hrest', hlf]
          exact .lf bs
      · left
        refine ⟨by simpa using hlf, by simpa using hcr, { s₁ with offset := o - 1 }, ?_, hunread, hline⟩
        rw [slowLoop, hnext]
        simp [hcr, hlf]

theorem gotEof_delivers (spliced : Bool) (offset : ℕ) (s : Stream) :
    Delivers s [] (gotEof spliced false offset s) := by
  rw [gotEof, if_neg Bool.false_ne_true]
  split
  · exact .eof rfl rfl
  · split <;> exact .eof rfl rfl

theorem lineEnds_cons (hcr : c ≠ carriageReturn) (hlf : c ≠ newline) (bs : List UInt8) :
    lineEnds (c :: bs) = lineEnds bs := by
  rw [lineEnds, physicalLines, if_neg hcr, if_neg (by simp), List.count_cons_of_ne hlf]
  rfl

theorem Whole.append (h : Whole ys zs) (hne : ys ≠ []) (xs : List UInt8) : Whole (xs ++ ys) zs := by
  rintro ⟨hlast, hhead⟩
  rw [List.getLast?_append_of_ne_nil _ hne] at hlast
  exact h ⟨hlast, hhead⟩

theorem Whole.left (h : Whole xs (ys ++ zs)) (hne : ys ≠ []) : Whole xs ys := by
  rintro ⟨hlast, hhead⟩
  refine h ⟨hlast, ?_⟩
  rw [List.head?_append_of_ne_nil _ hne]
  exact hhead

/-- A call that goes on behind a backslash and a line end. -/
theorem Delivers.continued {s' : Stream} {r : ℤ × Stream} (h : LineEnd xs ys) (hline : s'.line = s.line + 1)
    (hr : Delivers s' ys r) : Delivers s (backslash :: xs) r := by
  obtain ⟨p, rfl, hne, hwhole, hends⟩ := h.split
  have hskip := fun zs => lineEnds_cons (c := backslash) (by decide) (by decide) zs
  cases hr with
  | eof hnone hline' =>
    refine .eof (by rw [h.characters_spliced, hnone]) ?_
    rw [hline', hline, hskip, lineEnds_append hwhole, hends]
    omega
  | @char d q s'' hcharacters hsplit hne' hwhole' hline' =>
    subst hsplit
    refine .char (p := backslash :: (p ++ q)) (by rw [h.characters_spliced, hcharacters]) ?_ (by simp) ?_ ?_
    · rw [List.cons_append, List.append_assoc]
    · exact hwhole'.append hne' (backslash :: p)
    · rw [hline', hline, hskip, lineEnds_append (hwhole.left hne'), hends]
      omega

theorem Delivers.lineEnd {s' : Stream} (h : LineEnd bs s'.unread) (hline : s'.line = s.line + 1) :
    Delivers s bs (newline.toNat, s') := by
  obtain ⟨p, hsplit, hne, hwhole, hends⟩ := h.split
  exact .char h.characters hsplit hne hwhole (by rw [hline, hends])

theorem Delivers.single {s' : Stream} (hcharacters : characters (c :: bs) = c :: characters bs)
    (hcr : c ≠ carriageReturn) (hlf : c ≠ newline) (hunread : s'.unread = bs) (hline : s'.line = s.line) :
    Delivers s (c :: bs) (c.toNat, s') := by
  subst hunread
  refine .char (p := [c]) hcharacters rfl (by simp) (fun hw => hcr (by simpa using hw.1)) ?_
  rw [hline, lineEnds_cons hcr hlf]
  rfl

theorem slowLoop_delivers (hended : Ended bs) (h : s.unreadFrom offset = bs) (hfuel : 2 * bs.length < fuel) :
    ∃ r, slowLoop tabstop fuel spliced false false offset s = some r ∧ Delivers s bs r := by
  induction fuel using Nat.strongRecOn generalizing bs s offset spliced with
  | ind fuel ih =>
  obtain ⟨fuel, rfl⟩ := Nat.exists_eq_succ_of_ne_zero (Nat.ne_of_gt (Nat.lt_of_le_of_lt (Nat.zero_le _) hfuel))
  cases bs with
  | nil =>
    rw [slowLoop, nextByte_eq_none h]
    exact ⟨_, rfl, gotEof_delivers spliced offset s⟩
  | cons c bs =>
    obtain ⟨o, s₁, hnext, hrest, hunread, hline⟩ := exists_nextByte h
    have hlength : (c :: bs).length = bs.length + 1 := List.length_cons
    rw [slowLoop, hnext]
    dsimp only
    by_cases hcr : c = carriageReturn
    · have hne : bs ≠ [] := hended.ne_nil (by rw [hcr]; decide)
      obtain ⟨fuel, rfl⟩ := Nat.exists_eq_succ_of_ne_zero (show fuel ≠ 0 by omega)
      obtain ⟨s', heq, hend, hline'⟩ := slowLoop_cr tabstop fuel spliced hne hrest
      rw [if_pos ⟨rfl, hcr⟩, heq]
      exact ⟨_, rfl, .lineEnd (hcr ▸ hend) (by rw [hline', hline])⟩
    · simp only [hcr, and_false, if_false, Bool.false_eq_true, false_and, if_true]
      by_cases htab : c = tab
      · rw [if_pos htab]
        subst htab
        exact ⟨_, rfl, .single (characters_plain hcr (by decide) bs) hcr (by decide) hrest hline⟩
      · rw [if_neg htab]
        by_cases hlf : c = newline
        · rw [if_pos hlf]
          subst hlf
          refine ⟨_, rfl, .lineEnd ?_ (by rw [← hline])⟩
          have hrest' : s₁.unreadFrom o = bs := hrest
          rw [← hrest']
          exact .lf _
        · rw [if_neg hlf]
          by_cases hbs : c = backslash
          · rw [if_pos hbs]
            subst hbs
            have hpos := List.length_pos_iff.2 (hended.ne_nil hlf)
            obtain ⟨fuel, rfl⟩ := Nat.exists_eq_add_of_le' (show 2 ≤ fuel by omega)
            have hrest' : Stream.unreadFrom { s₁ with pos := s₁.pos + 1 } o = bs := hrest
            rcases slowLoop_backslash tabstop fuel spliced hended.tail hrest' with
              ⟨hnl, hncr, s', heq, hs', hline'⟩ | ⟨k, o', s', hk, heq, hend, hline'⟩
            · exact ⟨_, heq, .single (characters_backslash hnl hncr) hcr hlf hs' (hline'.trans hline)⟩
            · obtain ⟨p, hsplit, hne, -⟩ := hend.split
              have hlen := congrArg List.length hsplit
              have hpos' := List.length_pos_iff.2 hne
              rw [List.length_append] at hlen
              have hended' : Ended (p ++ s'.unreadFrom o') := hsplit ▸ hended.tail
              obtain ⟨r, hr, hdelivers⟩ : ∃ r, slowLoop tabstop (fuel + k) true false false o' s' = some r ∧
                  Delivers s' (s'.unreadFrom o') r :=
                ih (fuel + k) (by omega) hended'.of_append rfl (by omega)
              exact ⟨r, heq.trans hr, .continued hend (hline'.trans (by rw [← hline])) hdelivers⟩
          · rw [if_neg hbs]
            exact ⟨_, rfl, .single (characters_plain hcr hbs bs) hcr hlf hrest hline⟩

/-! ## Successive calls -/

/-- Where the fast path is taken, `nextchar_slow` gives the same. -/
theorem nextchar_eq (tabstop fuel : ℕ) (s : Stream) :
    nextchar tabstop (fuel + 1) s = nextcharSlow tabstop (fuel + 1) s := by
  rw [nextchar]
  split
  · rename_i c hc
    split
    · rename_i hplain
      have hne : (¬ c = tab ∧ ¬ c = carriageReturn) ∧ ¬ c = newline ∧ ¬ c = backslash := by
        simpa [special, not_or, and_assoc] using hplain
      have hnext : nextByte s.offset s = some (c, s.offset + 1, s) := by
        rw [nextByte, hc]
      rw [nextcharSlow, slowLoop, hnext]
      simp [hne.1.1, hne.1.2, hne.2.1, hne.2.2]
    · rfl
  · rfl

theorem nextchar_delivers (tabstop : ℕ) (hended : Ended s.unread) (hfuel : 2 * s.unread.length < fuel) :
    ∃ r, nextchar tabstop fuel s = some r ∧ Delivers s s.unread r := by
  obtain ⟨fuel, rfl⟩ := Nat.exists_eq_succ_of_ne_zero (Nat.ne_of_gt (Nat.lt_of_le_of_lt (Nat.zero_le _) hfuel))
  rw [nextchar_eq]
  exact slowLoop_delivers hended rfl hfuel

theorem Whole.nil (xs : List UInt8) : Whole xs [] := by
  simp [Whole]

/-- The first calls. -/
theorem calls_take (tabstop fuel k : ℕ) (s : Stream) (hended : Ended s.unread)
    (hfuel : 2 * s.unread.length < fuel) (hk : k ≤ (characters s.unread).length) :
    ∃ s' p, calls tabstop fuel k s =
        some (((characters s.unread).take k).map fun c => (c.toNat : ℤ), s') ∧
      s.unread = p ++ s'.unread ∧ Whole p s'.unread ∧ s'.line = s.line + lineEnds p := by
  induction k generalizing s with
  | zero => exact ⟨s, [], rfl, rfl, by simp [Whole], rfl⟩
  | succ k ih =>
    obtain ⟨r, hr, hdelivers⟩ := nextchar_delivers tabstop hended hfuel
    cases hdelivers with
    | eof hnone _ => simp [hnone] at hk
    | @char c p s₁ hcharacters hsplit hne hwhole hline =>
      have hlen := congrArg List.length hsplit
      rw [List.length_append] at hlen
      rw [hcharacters, List.length_cons] at hk
      obtain ⟨s', q, hcalls, hsplit', hwhole', hline'⟩ :=
        ih s₁ (hsplit ▸ hended).of_append (by omega) (by omega)
      refine ⟨s', p ++ q, ?_, ?_, ?_, ?_⟩
      · simp [calls, hr, hcalls, hcharacters]
      · rw [hsplit, hsplit', List.append_assoc]
      · rcases eq_or_ne q [] with rfl | hq
        · rw [List.nil_append] at hsplit'
          rwa [List.append_nil, ← hsplit']
        · exact hwhole'.append hq p
      · have hwholeq : Whole p q := by
          rcases eq_or_ne q [] with rfl | hq
          · exact .nil p
          · exact (hsplit' ▸ hwhole).left hq
        rw [hline', hline, lineEnds_append hwholeq, Nat.add_assoc]

/-- All calls up to the end of the file. -/
theorem calls_eof (tabstop fuel : ℕ) (s : Stream) (hended : Ended s.unread)
    (hfuel : 2 * s.unread.length < fuel) :
    ∃ s', calls tabstop fuel ((characters s.unread).length + 1) s =
        some (((characters s.unread).map fun c => (c.toNat : ℤ)) ++ [eof], s') ∧
      s'.line = s.line + lineEnds s.unread := by
  induction hn : (characters s.unread).length generalizing s with
  | zero =>
    obtain ⟨r, hr, hdelivers⟩ := nextchar_delivers tabstop hended hfuel
    cases hdelivers with
    | @eof s' hnone hline => exact ⟨s', by simp [calls, hr, hnone], hline⟩
    | char hcharacters _ _ _ _ => simp [hcharacters] at hn
  | succ n ih =>
    obtain ⟨r, hr, hdelivers⟩ := nextchar_delivers tabstop hended hfuel
    cases hdelivers with
    | eof hnone _ => simp [hnone] at hn
    | @char c p s₁ hcharacters hsplit hne hwhole hline =>
      have hlen := congrArg List.length hsplit
      rw [List.length_append] at hlen
      rw [hcharacters, List.length_cons] at hn
      obtain ⟨s', hcalls, hline'⟩ := ih s₁ (hsplit ▸ hended).of_append (by omega) (by omega)
      refine ⟨s', ?_, ?_⟩
      · rw [calls]
        simp [hr, hcalls, hcharacters]
      · rw [hline', hline, hsplit, lineEnds_append hwhole, Nat.add_assoc]

/-- The characters of a text that ends in a newline, however it comes in chunks: each
call gives the next one, with the line number of what it has consumed, until the
text is at its end; and the fast path is only a shortcut. -/
theorem calls_deliver (tabstop fuel : ℕ) (s : Stream) (hended : s.unread.getLast? = some newline)
    (hline : s.line = 1) (hfuel : 2 * s.unread.length < fuel) :
    (∀ k ≤ (characters s.unread).length, ∃ s' consumed,
      calls tabstop fuel k s = some (((characters s.unread).take k).map fun c => (c.toNat : ℤ), s') ∧
        s.unread = consumed ++ s'.unread ∧ s'.line = 1 + lineEnds consumed) ∧
    (∃ s', calls tabstop fuel ((characters s.unread).length + 1) s =
        some (((characters s.unread).map fun c => (c.toNat : ℤ)) ++ [eof], s') ∧
      s'.line = 1 + lineEnds s.unread) ∧
    ∀ s', nextchar tabstop (fuel + 1) s' = nextcharSlow tabstop (fuel + 1) s' := by
  refine ⟨fun k hk => ?_, ?_, nextchar_eq tabstop fuel⟩
  · obtain ⟨s', p, hcalls, hsplit, -, hline'⟩ := calls_take tabstop fuel k s (.inr hended) hfuel hk
    exact ⟨s', p, hcalls, hsplit, by rw [hline', hline]⟩
  · obtain ⟨s', hcalls, hline'⟩ := calls_eof tabstop fuel s (.inr hended) hfuel
    exact ⟨s', hcalls, by rw [hline', hline]⟩

/-- A backslash, a carriage return and a newline, each in its own chunk, and a last line. -/
def splitLine : Stream where
  fd := 3
  buffer := []
  offset := 0
  pos := 0
  line := 1
  newline := true
  input := [⟨[97, 92], by decide, by decide⟩, ⟨[13], by decide, by decide⟩,
    ⟨[10], by decide, by decide⟩, ⟨[98, 13], by decide, by decide⟩, ⟨[10], by decide, by decide⟩]
  warnings := []

theorem calls_splitLine :
    (∀ k ≤ (characters splitLine.unread).length, ∃ s' consumed,
      calls 8 100 k splitLine =
          some (((characters splitLine.unread).take k).map fun c => (c.toNat : ℤ), s') ∧
        splitLine.unread = consumed ++ s'.unread ∧ s'.line = 1 + lineEnds consumed) ∧
    (∃ s', calls 8 100 ((characters splitLine.unread).length + 1) splitLine =
        some (((characters splitLine.unread).map fun c => (c.toNat : ℤ)) ++ [eof], s') ∧
      s'.line = 1 + lineEnds splitLine.unread) ∧
    ∀ s', nextchar 8 (100 + 1) s' = nextcharSlow 8 (100 + 1) s' :=
  calls_deliver 8 100 splitLine (by decide) rfl (by decide)

example : (calls 8 100 4 splitLine).map Prod.fst = some [97, 98, 10, -1] := by decide

end Sparse.Tokenize
