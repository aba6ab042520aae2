import Sparse.HashedInterning
import Sparse.MacroTokens

/-!
# Identifiers

The table of identifiers of `tokenize.c`. The tokenizer, `built_in_ident` and the
concatenation of tokens enter names in it, and `show_ident` prints what was entered.
-/

namespace Sparse.Tokenizer

open HashedInterning

variable {w : ℕ}

/-! ## Hashing -/

/-- `ident_hash_init`, for an `unsigned long` of `w` bits. -/
def identHashInit (c : UInt8) : BitVec w := BitVec.ofNat w c.toNat

/-- `ident_hash_add`. -/
def identHashAdd (oldhash : BitVec w) (c : UInt8) : BitVec w := oldhash * 11 + BitVec.ofNat w c.toNat

/-- `IDENT_HASH_BITS`. -/
def identHashBits : ℕ := 13

/-- `IDENT_HASH_MASK`. -/
def identHashMask : BitVec w := BitVec.ofNat w (1 <<< identHashBits - 1)

/-- `ident_hash_end`. -/
def identHashEnd (hash : BitVec w) : BitVec w := ((hash >>> identHashBits) + hash) &&& identHashMask

/-- `hash_name`, of a name that is not empty. -/
def hashName : List UInt8 → BitVec w
  | [] => 0
  | c :: name => identHashEnd (name.foldl identHashAdd (identHashInit c))

/-- The loop of `get_one_identifier` with its hash, along what is behind the look-ahead. -/
def identHashLoop : List UInt8 → BitVec w → List UInt8 → BitVec w × List UInt8
  | [], hash, buf => (hash, buf)
  | next :: text, hash, buf =>
    if !(isLetter next || isDigit next) then (hash, buf)
    else if identBuffer ≤ buf.length then (hash, buf)
    else identHashLoop text (identHashAdd hash next) (buf ++ [next])

/-- The loop keeps the hash of the name that it has read. -/
theorem identHashLoop_hash (text : List UInt8) (c : UInt8) (buf : List UInt8) :
    identHashEnd (identHashLoop text (buf.foldl identHashAdd (identHashInit c : BitVec w)) (c :: buf)).1 =
      hashName (identHashLoop text (buf.foldl identHashAdd (identHashInit c : BitVec w)) (c :: buf)).2 := by
  induction text generalizing buf with
  | nil => rfl
  | cons next text ih =>
    have hfold : identHashAdd (buf.foldl identHashAdd (identHashInit c : BitVec w)) next =
        (buf ++ [next]).foldl identHashAdd (identHashInit c) := by
      rw [List.foldl_append]
      rfl
    simp only [identHashLoop]
    split
    · rfl
    · split
      · rfl
      · rw [hfold]
        exact ih (buf ++ [next])

/-- The name is what is in front of the first other character, as far as the buffer goes. -/
theorem identHashLoop_spelling (text : List UInt8) (hash : BitVec w) (buf : List UInt8)
    (hbuf : buf.length ≤ identBuffer) :
    (identHashLoop text hash buf).2 = buf ++ (identTail text).take (identBuffer - buf.length) := by
  induction text generalizing hash buf with
  | nil => rw [identHashLoop, identTail, List.takeWhile_nil, List.take_nil, List.append_nil]
  | cons next text ih =>
    simp only [identHashLoop, Bool.not_eq_true', identTail]
    split
    next hnext =>
      rw [List.takeWhile_cons_of_neg (by simp only [hnext, Bool.false_eq_true, not_false_eq_true]),
        List.take_nil, List.append_nil]
    next hnext =>
      rw [List.takeWhile_cons_of_pos (Bool.not_eq_false _ ▸ hnext)]
      split
      next hfull =>
        have hroom : identBuffer - buf.length = 0 := by omega
        rw [hroom, List.take_zero, List.append_nil]
      next hfull =>
        have hroom : identBuffer - buf.length = identBuffer - (buf ++ [next]).length + 1 := by
          rw [List.length_append, List.length_singleton]
          omega
        rw [ih _ (buf ++ [next]) (by rw [List.length_append, List.length_singleton]; omega), hroom,
          List.take_succ_cons, List.append_assoc]
        rfl

theorem zero_notMem_identTail (text : List UInt8) : 0 ∉ identTail text := fun hmem =>
  absurd (List.mem_takeWhile_imp hmem) (by decide)

theorem zero_notMem_cString (text : List UInt8) : 0 ∉ cString text := fun hmem =>
  absurd (List.mem_takeWhile_imp hmem) (by decide)

/-! ## The table -/

/-- `struct ident`. The byte `len` is of its own, and what is behind the characters of
`name` are not the object's. -/
structure Ident where
  address : ℕ
  len : UInt8
  name : List UInt8
  deriving DecidableEq, Repr

/-- `alloc_ident`, at an address that is not in use. -/
def allocIdent (address : ℕ) (name : List UInt8) : Ident where
  address := address
  len := UInt8.ofNat name.length
  name := name

/-- `strncmp` finds no difference in the first `n` characters. -/
def strncmpEq : ℕ → List UInt8 → List UInt8 → Bool
  | 0, _, _ => true
  | n + 1, s, t =>
    s.headD 0 = t.headD 0 && (s.headD 0 = 0 || strncmpEq n s.tail t.tail)

/-- The arguments of `create_hashed_ident`. -/
structure IdentKey (w : ℕ) where
  name : List UInt8
  hash : BitVec w

/-- The test of `create_hashed_ident` on an identifier of the chain. -/
def isIdent (name : List UInt8) (ident : Ident) : Bool :=
  ident.len = UInt8.ofNat name.length && strncmpEq name.length name ident.name

/-- The hash table. -/
def identScheme (w : ℕ) : Scheme (IdentKey w) (BitVec w) Ident where
  hash key := key.hash
  same key ident := isIdent key.name ident
  make address key := allocIdent address key.name

abbrev IdentTable (w : ℕ) := Table (BitVec w) Ident

/-- `create_hashed_ident`, which looks through the chain of the hash and appends to it. -/
def createHashedIdent (t : IdentTable w) (name : List UInt8) (hash : BitVec w) : Ident × IdentTable w :=
  (identScheme w).intern t ⟨name, hash⟩

/-- `hash_ident`, whose `insert_hash` makes the identifier the first of its chain. -/
def hashIdent (t : IdentTable w) (name : List UInt8) : IdentTable w :=
  (identScheme w).push t ⟨name, hashName name⟩

/-- `built_in_ident`, of a string that ends at its terminator. -/
def builtInIdent (t : IdentTable w) (name : List UInt8) : Ident × IdentTable w :=
  createHashedIdent t (cString name) (hashName (cString name))

/-- The identifier of `get_one_identifier` that begins with `c`, with `text` behind it. -/
def oneIdentifier (t : IdentTable w) (c : UInt8) (text : List UInt8) : Ident × IdentTable w :=
  let (hash, buf) := identHashLoop text (identHashInit c) [c]
  createHashedIdent t buf (identHashEnd hash)

/-- `show_ident` on an object. -/
def Ident.shown (ident : Ident) : List UInt8 := cString (ident.name.take ident.len.toNat)

/-- The identifiers of `ident-list.h`. -/
def identList : List String :=
  ["sizeof", "if", "else", "return", "switch", "case", "default", "break", "continue", "for", "while", "do",
   "goto", "struct", "union", "enum", "__attribute", "__attribute__", "volatile", "__volatile",
   "__volatile__", "double", "L", "asm", "__asm", "__asm__", "alignof", "__alignof", "__alignof__",
   "__sizeof_ptr__", "__builtin_types_compatible_p", "__builtin_offsetof", "__label__", "packed",
   "__packed__", "aligned", "__aligned__", "nocast", "noderef", "safe", "force", "address_space", "context",
   "mode", "__mode__", "QI", "__QI__", "HI", "__HI__", "SI", "__SI__", "DI", "__DI__", "word", "__word__",
   "format", "__format__", "section", "__section__", "unused", "__unused__", "const", "__const", "__const__",
   "used", "__used__", "warn_unused_result", "__warn_unused_result__", "noinline", "__noinline__",
   "deprecated", "__deprecated__", "noreturn", "__noreturn__", "regparm", "__regparm__", "weak", "__weak__",
   "no_instrument_function", "__no_instrument_function__", "sentinel", "__sentinel__", "alias", "__alias__",
   "pure", "__pure__", "always_inline", "__always_inline__", "syscall_linkage", "__syscall_linkage__",
   "visibility", "__visibility__", "bitwise", "__bitwise__", "model", "__model__", "format_arg",
   "__format_arg__", "nothrow", "__nothrow", "__nothrow__", "__transparent_union__", "malloc", "__malloc__",
   "nonnull", "__nonnull", "__nonnull__", "constructor", "__constructor__", "destructor", "__destructor__",
   "cold", "__cold__", "hot", "__hot__", "cdecl", "__cdecl__", "stdcall", "__stdcall__", "fastcall",
   "__fastcall__", "dllimport", "__dllimport__", "dllexport", "__dllexport__", "restrict", "__restrict",
   "artificial", "__artificial__", "leaf", "__leaf__", "vector_size", "__vector_size__", "error",
   "__error__", "defined", "once", "__pragma__", "__VA_ARGS__", "__LINE__", "__FILE__", "__DATE__",
   "__TIME__", "__func__", "__FUNCTION__", "__PRETTY_FUNCTION__", "__context__", "__range__", "memset",
   "memcpy", "copy_to_user", "copy_from_user", "main"]

/-- The table as `init_symbols` makes it of the identifiers of `ident-list.h`. -/
def initSymbols (w : ℕ) : IdentTable w :=
  identList.foldl (fun t name => hashIdent t (MacroExpansion.bytes name)) .empty

/-! ## Entries -/

/-- How an identifier is entered: read from a stream at the letter `c` with `text` behind
it, by `built_in_ident`, or by `merge` for two tokens. -/
inductive IdentEntry
  | scanned (c : UInt8) (text : List UInt8)
  | builtIn (name : List UInt8)
  | pasted (left right : Value)
  deriving DecidableEq, Repr

namespace IdentEntry

def enter (t : IdentTable w) : IdentEntry → Ident × IdentTable w
  | scanned c text => oneIdentifier t c text
  | builtIn name => builtInIdent t name
  | pasted left right => builtInIdent t (showToken left ++ showToken right)

def enterAll (t : IdentTable w) : List IdentEntry → List Ident × IdentTable w
  | [] => ([], t)
  | e :: es =>
    let (ident, t) := e.enter t
    let (idents, t) := enterAll t es
    (ident :: idents, t)

/-- The name that is entered; `get_one_identifier` reads one of at most 256 characters. -/
def spelling : IdentEntry → List UInt8
  | scanned c text => c :: (identTail text).take (identBuffer - 1)
  | builtIn name => cString name
  | pasted left right => cString (showToken left ++ showToken right)

/-- The hash with which it is entered. -/
def hash (w : ℕ) : IdentEntry → BitVec w
  | scanned c text => identHashEnd (identHashLoop text (identHashInit c) [c]).1
  | builtIn name => hashName (cString name)
  | pasted left right => hashName (cString (showToken left ++ showToken right))

/-- An identifier of 1 to 256 characters: the tokenizer begins one at a letter, and `merge`
enters one where two tokens give an identifier. -/
def Entered : IdentEntry → Prop
  | scanned c _ => isLetter c = true
  | builtIn name => 1 ≤ (cString name).length ∧ (cString name).length ≤ identBuffer
  | pasted left right =>
    MacroExpansion.mergeValue left right = some (.ident (showToken left ++ showToken right)) ∧
      1 ≤ (cString (showToken left ++ showToken right)).length

end IdentEntry

/-- Equal names and only they share an object, the hash is the one of `hash_name`, and the
object holds the length of its name and is shown as it. -/
structure InternsRight (w : ℕ) (entries : List IdentEntry) (idents : List Ident) : Prop where
  shared : ∀ p ∈ entries.zip idents, ∀ q ∈ entries.zip idents,
    p.2.address = q.2.address ↔ p.1.spelling = q.1.spelling
  hash : ∀ e ∈ entries, e.hash w = hashName e.spelling
  shown : List.Forall₂ (fun e ident => ident.len.toNat = e.spelling.length ∧ ident.shown = e.spelling)
    entries idents

/-! ## The comparison -/

theorem strncmpEq_iff {s t : List UInt8} (hlen : t.length = s.length) (hs : 0 ∉ s) :
    strncmpEq s.length s t = true ↔ s = t := by
  induction s generalizing t with
  | nil => simp only [List.length_nil, strncmpEq, List.length_eq_zero_iff.1 hlen]
  | cons c s ih =>
    obtain ⟨d, t, rfl⟩ := List.exists_cons_of_length_eq_add_one hlen
    have hc : c ≠ 0 := fun h => hs (h ▸ List.mem_cons_self)
    have htail := ih (Nat.succ.inj hlen) fun h => hs (List.mem_cons_of_mem _ h)
    simp [strncmpEq, hc, htail]

/-- The byte tells the lengths from 1 to 256 apart. -/
theorem ofNat_length_eq_iff {m n : ℕ} (hm : 1 ≤ m ∧ m ≤ identBuffer) (hn : 1 ≤ n ∧ n ≤ identBuffer) :
    UInt8.ofNat m = UInt8.ofNat n ↔ m = n := by
  rw [← UInt8.toNat_inj, UInt8.toNat_ofNat', UInt8.toNat_ofNat']
  unfold identBuffer at hm hn
  omega

/-- A name of the table: one of the lengths of the buffer, without a terminator, with its
own hash. -/
structure IdentKey.Valid (key : IdentKey w) : Prop where
  length : 1 ≤ key.name.length ∧ key.name.length ≤ identBuffer
  nonzero : 0 ∉ key.name
  hash : key.hash = hashName key.name

theorem isIdent_allocIdent {name name' : List UInt8} {address : ℕ}
    (hlen : 1 ≤ name.length ∧ name.length ≤ identBuffer) (hlen' : 1 ≤ name'.length ∧ name'.length ≤ identBuffer)
    (hname : 0 ∉ name) : isIdent name (allocIdent address name') = true ↔ name = name' := by
  simp only [isIdent, allocIdent, Bool.and_eq_true, decide_eq_true_eq, ofNat_length_eq_iff hlen' hlen]
  constructor
  · rintro ⟨heq, hsame⟩
    exact (strncmpEq_iff heq hname).1 hsame
  · rintro rfl
    exact ⟨rfl, (strncmpEq_iff rfl hname).2 rfl⟩

theorem identScheme_lawful : (identScheme w).Lawful Ident.address IdentKey.Valid where
  number_make _ _ := rfl
  same_iff key key' address h h' := by
    refine (isIdent_allocIdent h.length h'.length h.nonzero).trans ⟨fun heq => ?_, fun heq => heq ▸ rfl⟩
    obtain ⟨name, hash⟩ := key
    obtain ⟨name', hash'⟩ := key'
    obtain rfl : name = name' := heq
    exact congrArg (IdentKey.mk name) (h.hash.trans h'.hash.symm)

/-! ## The first table -/

/-- The names of `ident-list.h` are ones of the table. -/
theorem identList_valid : ∀ name ∈ identList, 1 ≤ (MacroExpansion.bytes name).length ∧
    (MacroExpansion.bytes name).length ≤ identBuffer ∧ 0 ∉ MacroExpansion.bytes name := by
  decide +kernel

theorem foldl_hashIdent_wf {names : List String} {t : IdentTable w}
    (ht : (identScheme w).Wf Ident.address IdentKey.Valid t)
    (hnames : ∀ name ∈ names, 1 ≤ (MacroExpansion.bytes name).length ∧
      (MacroExpansion.bytes name).length ≤ identBuffer ∧ 0 ∉ MacroExpansion.bytes name) :
    (identScheme w).Wf Ident.address IdentKey.Valid
      (names.foldl (fun t name => hashIdent t (MacroExpansion.bytes name)) t) := by
  induction names generalizing t with
  | nil => exact ht
  | cons name names ih =>
    obtain ⟨hlow, hhigh, hzero⟩ := hnames name List.mem_cons_self
    exact ih (ht.push identScheme_lawful ⟨⟨hlow, hhigh⟩, hzero, rfl⟩) fun n hn =>
      hnames n (List.mem_cons_of_mem _ hn)

theorem initSymbols_wf : (identScheme w).Wf Ident.address IdentKey.Valid (initSymbols w) :=
  foldl_hashIdent_wf .empty identList_valid

/-! ## Runs -/

/-- What `merge` enters is shorter than the buffer of the tokenizer. -/
theorem mergeValue_ident_length {left right : Value} {name : List UInt8}
    (h : MacroExpansion.mergeValue left right = some (.ident name)) :
    (showToken left ++ showToken right).length ≤ identBuffer := by
  by_contra hlong
  have htext : MacroExpansion.mergeText left right = none := by
    have hlong' : 256 ≤ (showToken left ++ showToken right).length := (Nat.lt_of_not_le hlong).le
    unfold MacroExpansion.mergeText
    exact if_pos (by rw [decide_eq_true hlong', Bool.or_true])
  unfold MacroExpansion.mergeValue at h
  split at h
  · cases h
  · cases h
  · cases h
  · cases htext.symm.trans h

namespace IdentEntry

variable {e : IdentEntry} {t : IdentTable w}

/-- What an entry gives to `create_hashed_ident`. -/
def key (w : ℕ) (e : IdentEntry) : IdentKey w := ⟨e.spelling, e.hash w⟩

theorem identHashLoop_eq (c : UInt8) (text : List UInt8) (hash : BitVec w) :
    (identHashLoop text hash [c]).2 = (scanned c text).spelling :=
  identHashLoop_spelling text hash [c] (by rw [List.length_singleton]; decide)

theorem enter_eq (t : IdentTable w) (e : IdentEntry) : e.enter t = (identScheme w).intern t (e.key w) := by
  cases e with
  | scanned c text =>
    simp only [enter, oneIdentifier, identHashLoop_eq, createHashedIdent]
    rfl
  | builtIn name => rfl
  | pasted left right => rfl

theorem enterAll_eq (t : IdentTable w) (entries : List IdentEntry) :
    enterAll t entries = (identScheme w).internAll t (entries.map (key w)) := by
  induction entries generalizing t with
  | nil => rfl
  | cons e entries ih => simp only [enterAll, List.map_cons, Scheme.internAll, enter_eq, ih]

/-- The hash of the tokenizer is the one of `hash_name`. -/
theorem hash_eq (w : ℕ) (e : IdentEntry) : e.hash w = hashName e.spelling := by
  cases e with
  | scanned c text =>
    have hhash := identHashLoop_hash (w := w) text c []
    rwa [List.foldl_nil, identHashLoop_eq] at hhash
  | builtIn name => rfl
  | pasted left right => rfl

theorem spelling_length (he : e.Entered) : 1 ≤ e.spelling.length ∧ e.spelling.length ≤ identBuffer := by
  cases e with
  | scanned c text =>
    have htake := List.length_take_le (identBuffer - 1) (identTail text)
    rw [spelling, List.length_cons]
    unfold identBuffer at htake ⊢
    omega
  | builtIn name => exact he
  | pasted left right =>
    refine ⟨he.2, (List.takeWhile_sublist _).length_le.trans (mergeValue_ident_length he.1)⟩

theorem zero_notMem_spelling (he : e.Entered) : 0 ∉ e.spelling := by
  cases e with
  | scanned c text =>
    intro hmem
    rcases List.mem_cons.1 hmem with rfl | hmem
    · exact Bool.false_ne_true he
    · exact zero_notMem_identTail text (List.mem_of_mem_take hmem)
  | builtIn name => exact zero_notMem_cString name
  | pasted left right => exact zero_notMem_cString _

theorem key_valid (he : e.Entered) : (e.key w).Valid :=
  ⟨spelling_length he, zero_notMem_spelling he, hash_eq w e⟩

end IdentEntry

/-- An object is shown as its name if its byte holds the length. -/
theorem shown_allocIdent (address : ℕ) (name : List UInt8) (hname : 0 ∉ name) :
    (allocIdent address name).shown = showIdent name := by
  rw [Ident.shown, allocIdent, UInt8.toNat_ofNat', showIdent]
  exact cString_of_not_mem fun hmem => hname (List.mem_of_mem_take hmem)

/-- Only a name of 256 characters does not have its length in the byte. -/
theorem len_allocIdent_iff {address : ℕ} {name : List UInt8}
    (hlen : 1 ≤ name.length ∧ name.length ≤ identBuffer) (hname : 0 ∉ name) :
    ((allocIdent address name).len.toNat = name.length ∧ (allocIdent address name).shown = name) ↔
      name.length ≠ identBuffer := by
  have hlen' : (allocIdent address name).len.toNat = name.length % 256 := UInt8.toNat_ofNat'
  rw [shown_allocIdent address name hname, hlen', showIdent]
  constructor
  · rintro ⟨hmod, -⟩ hfull
    rw [hfull] at hmod
    exact absurd hmod (by decide)
  · intro hne
    have hmod : name.length % 256 = name.length := Nat.mod_eq_of_lt (by unfold identBuffer at hlen hne; omega)
    exact ⟨hmod, by rw [hmod, List.take_length]⟩

/-! ## Interning -/

/-- The table after a run of entries finds for each name the object that its entry gave. -/
theorem enterAll_finds {entries : List IdentEntry} (hentries : ∀ e ∈ entries, e.Entered) :
    let run := IdentEntry.enterAll (initSymbols w) entries
    (identScheme w).Wf Ident.address IdentKey.Valid run.2 ∧
      List.Forall₂ (fun e ident => (identScheme w).Finds run.2 (e.key w) ident) entries run.1 := by
  intro run
  have hkeys : ∀ key ∈ entries.map (IdentEntry.key w), key.Valid := by
    intro key hkey
    obtain ⟨e, he, rfl⟩ := List.mem_map.1 hkey
    exact IdentEntry.key_valid (hentries e he)
  obtain ⟨hwf, hfinds, -⟩ := Scheme.internAll_spec identScheme_lawful initSymbols_wf hkeys
  rw [← IdentEntry.enterAll_eq] at hwf hfinds
  exact ⟨hwf, List.forall₂_map_left_iff.1 hfinds⟩

/-- Two entries get one object exactly if their names are equal. -/
theorem enterAll_shared {entries : List IdentEntry} (hentries : ∀ e ∈ entries, e.Entered) :
    ∀ p ∈ entries.zip (IdentEntry.enterAll (initSymbols w) entries).1,
      ∀ q ∈ entries.zip (IdentEntry.enterAll (initSymbols w) entries).1,
        p.2.address = q.2.address ↔ p.1.spelling = q.1.spelling := by
  obtain ⟨hwf, hfinds⟩ := enterAll_finds (w := w) hentries
  intro p hp q hq
  have hp' := List.forall₂_zip hfinds hp
  have hq' := List.forall₂_zip hfinds hq
  have hpe := IdentEntry.key_valid (w := w) (hentries p.1 (List.of_mem_zip hp).1)
  have hqe := IdentEntry.key_valid (w := w) (hentries q.1 (List.of_mem_zip hq).1)
  rw [hp'.number_eq_iff identScheme_lawful hwf hpe hqe hq']
  refine ⟨fun hkey => congrArg IdentKey.name hkey, fun hname => ?_⟩
  rw [IdentEntry.key, IdentEntry.key, IdentEntry.hash_eq, IdentEntry.hash_eq, hname]

/-- Each entry gets the object of its name. -/
theorem enterAll_made {entries : List IdentEntry} (hentries : ∀ e ∈ entries, e.Entered) :
    List.Forall₂ (fun e ident => ident = allocIdent ident.address e.spelling) entries
      (IdentEntry.enterAll (initSymbols w) entries).1 := by
  obtain ⟨hwf, hfinds⟩ := enterAll_finds (w := w) hentries
  refine List.forall₂_iff_zip.2 ⟨hfinds.length_eq, fun {e ident} hmem => ?_⟩
  exact (List.forall₂_zip hfinds hmem).make identScheme_lawful hwf
    (IdentEntry.key_valid (hentries e (List.of_mem_zip hmem).1))

/-- An entry that is kept with its length does not fill the buffer of the tokenizer. -/
theorem InternsRight.short {entries : List IdentEntry} (hentries : ∀ e ∈ entries, e.Entered)
    (h : InternsRight w entries (IdentEntry.enterAll (initSymbols w) entries).1) :
    ∀ e ∈ entries, e.spelling.length ≠ identBuffer := by
  have hmade := enterAll_made (w := w) hentries
  have hboth : List.Forall₂ (fun e ident => e.spelling.length ≠ identBuffer ∧
      ident = allocIdent ident.address e.spelling) entries (IdentEntry.enterAll (initSymbols w) entries).1 := by
    refine List.forall₂_iff_zip.2 ⟨hmade.length_eq, fun {e ident} hmem => ?_⟩
    have he := hentries e (List.of_mem_zip hmem).1
    have heq := List.forall₂_zip hmade hmem
    have hright := List.forall₂_zip h.shown hmem
    rw [heq] at hright
    exact ⟨(len_allocIdent_iff (IdentEntry.spelling_length he) (IdentEntry.zero_notMem_spelling he)).1 hright, heq⟩
  exact ((List.forall₂_and_left _ _).1 hboth).1

/-- The identifiers that are entered are shared by their names, under one hash, and they are
kept and shown with their length unless one of them fills the buffer of the tokenizer. -/
theorem enterAll_internsRight (w : ℕ) (entries : List IdentEntry) (hentries : ∀ e ∈ entries, e.Entered) :
    InternsRight w entries (IdentEntry.enterAll (initSymbols w) entries).1 ↔
      ∀ e ∈ entries, e.spelling.length ≠ identBuffer := by
  refine ⟨fun h => h.short hentries, fun hshort => ?_⟩
  refine ⟨enterAll_shared hentries, fun e _ => IdentEntry.hash_eq w e, ?_⟩
  have hmade := enterAll_made (w := w) hentries
  refine List.forall₂_iff_zip.2 ⟨hmade.length_eq, fun {e ident} hmem => ?_⟩
  have he := (List.of_mem_zip hmem).1
  rw [List.forall₂_zip hmade hmem]
  exact (len_allocIdent_iff (IdentEntry.spelling_length (hentries e he))
    (IdentEntry.zero_notMem_spelling (hentries e he))).2 (hshort e he)

/-- A short name from the stream, the same name by `built_in_ident`, and one of two tokens. -/
theorem internsRight_scanned_builtIn_pasted :
    InternsRight 64
      [.scanned (ch 'x') [ch '1', 32], .builtIn [ch 'x', ch '1'], .pasted (.ident [ch 'y']) (.number [ch '1'])]
      (IdentEntry.enterAll (initSymbols 64)
        [.scanned (ch 'x') [ch '1', 32], .builtIn [ch 'x', ch '1'],
          .pasted (.ident [ch 'y']) (.number [ch '1'])]).1 := by
  refine (enterAll_internsRight 64 _ fun e he => ?_).2 (by decide)
  rcases List.mem_cons.1 he with rfl | he
  · exact (by decide : isLetter (ch 'x') = true)
  rcases List.mem_cons.1 he with rfl | he
  · exact (by decide : 1 ≤ 2 ∧ 2 ≤ identBuffer)
  obtain rfl := List.mem_singleton.1 he
  exact ⟨by decide, by decide⟩

/-- An identifier of 256 letters is entered with the length zero. -/
theorem not_internsRight_full :
    ¬InternsRight 64 [.scanned (ch 'a') (List.replicate 255 (ch 'a'))]
      (IdentEntry.enterAll (initSymbols 64) [.scanned (ch 'a') (List.replicate 255 (ch 'a'))]).1 := by
  intro h
  refine h.short (fun e he => ?_) _ List.mem_cons_self (by decide +kernel)
  rw [List.mem_singleton.1 he]
  exact (by decide : isLetter (ch 'a') = true)

end Sparse.Tokenizer
