import Sparse.InitializerTrees
import Mathlib.Algebra.Group.Nat.Defs
import Mathlib.Data.List.Forall2

/-!
# The stores of an initializer

`linearize_initializer` walks over an expanded initializer with one `access_data`, in which
`linearize_position` sets the offset and the types. `linearize_assignment` gets an
`access_data` of its own from `linearize_address_gen`, which sets the bits as well. What the
emitted instructions do is described on the bits of the symbols.
-/

namespace Sparse

/-- The value of a pseudo, bit by bit. -/
abbrev Bits := ℕ → Bool

namespace Bits

def shl (x : Bits) (shift : ℕ) : Bits := fun j => shift ≤ j && x (j - shift)

def andLin (x y : Bits) : Bits := fun j => x j && y j

def orLin (x y : Bits) : Bits := fun j => x j || y j

def not (x : Bits) : Bits := fun j => !x j

end Bits

/-- The bits of the symbols. -/
abbrev SymbolBits := ℕ → ℕ → Bool

/-- What the type of a member or an expression says of an access: the size of the type that
`base_type_lin` returns, its own size, and its bit offset. -/
structure AccessType where
  sourceBits : ℕ
  bitSize : ℕ
  bitOffset : ℕ
  size_pos : 0 < bitSize
  inside : bitOffset + bitSize ≤ sourceBits

/-- `struct access_data`, with the sizes of the two types. -/
structure AccessData where
  resultBits : ℕ := 0
  sourceBits : ℕ := 0
  address : ℕ
  offset : ℕ := 0
  bitSize : ℕ := 0
  bitOffset : ℕ := 0

/-- `add_load`. -/
def addLoad (ad : AccessData) (mem : SymbolBits) : Bits :=
  fun j => j < ad.sourceBits && mem ad.address (8 * ad.offset + j)

/-- `add_store`. -/
def addStore (ad : AccessData) (value : Bits) (mem : SymbolBits) : SymbolBits :=
  fun sym k =>
    if sym = ad.address ∧ 8 * ad.offset ≤ k ∧ k < 8 * ad.offset + ad.sourceBits then
      value (k - 8 * ad.offset)
    else mem sym k

/-- `linearize_store_gen`. -/
def linearizeStoreGen (ad : AccessData) (value : Bits) (mem : SymbolBits) : SymbolBits :=
  let store :=
    if ad.sourceBits ≠ ad.resultBits then
      let orig := addLoad ad mem
      let shift := ad.bitOffset
      let mask : Bits := fun j => j < ad.bitSize
      let store := if shift ≠ 0 then value.shl shift else value
      let mask := if shift ≠ 0 then mask.shl shift else mask
      (orig.andLin mask.not).orLin store
    else value
  addStore ad store mem

/-! ## Assignments -/

/-- The address of an lvalue in an object: offsets are added to the symbol. -/
inductive AddressExpr
  | symbol (sym : ℕ)
  | plus (left : AddressExpr) (right : ℕ)

/-- `linearize_simple_address`. -/
def linearizeSimpleAddress : AddressExpr → AccessData → AccessData
  | .symbol sym, ad => { ad with address := sym }
  | .plus left right, ad => linearizeSimpleAddress left { ad with offset := ad.offset + right }

/-- `linearize_address_gen`, for the dereferenced address. -/
def linearizeAddressGen (addr : AddressExpr) (ctype : AccessType) : AccessData :=
  linearizeSimpleAddress addr
    { resultBits := ctype.bitSize, sourceBits := ctype.sourceBits, address := 0,
      bitSize := ctype.bitSize, bitOffset := ctype.bitOffset }

/-- `linearize_assignment` with the operator `=`. -/
def linearizeAssignment (target : AddressExpr) (ctype : AccessType) (value : Bits) (mem : SymbolBits) :
    SymbolBits :=
  linearizeStoreGen (linearizeAddressGen target ctype) value mem

/-! ## Initializers -/

/-- The initializer of a scalar member: the type of the evaluated expression, the type of the member and
the value. The value is one of its type, and of a bit-field it initializes. -/
structure ScalarInit where
  exprType : AccessType
  member : AccessType
  value : Bits
  fits : ∀ j, exprType.bitSize ≤ j → value j = false
  fits_member : member.bitSize ≠ member.sourceBits → ∀ j, member.bitSize ≤ j → value j = false

/-- What an initializer holds: the expression for a scalar, or one for a whole aggregate. -/
inductive MemberInit
  | scalar (init : ScalarInit)
  | aggregate (bits : ℕ) (value : Bits)

namespace MemberInit

/-- The size of `base_type_lin` of the type of the expression. -/
def sourceBits : MemberInit → ℕ
  | scalar init => init.exprType.sourceBits
  | aggregate bits _ => bits

def resultBits : MemberInit → ℕ
  | scalar init => init.exprType.bitSize
  | aggregate bits _ => bits

def bitOffset : MemberInit → ℕ
  | scalar init => init.exprType.bitOffset
  | aggregate _ _ => 0

def value : MemberInit → Bits
  | scalar init => init.value
  | aggregate _ value => value

end MemberInit

mutual

/-- `linearize_initializer` with `linearize_position`: the stores, with what they store, and what is left
in the `access_data`. The types that `linearize_position` sets are set again for every store. -/
def linearizeInitializer : Initializer MemberInit → AccessData →
    List (AccessData × MemberInit) × AccessData
  | .leaf init, ad =>
    let ad := { ad with sourceBits := init.sourceBits, resultBits := init.resultBits }
    ([(ad, init)], ad)
  | .list exprList, ad => linearizeInitializers exprList ad
  | .pos initOffset _ initExpr, ad => linearizeInitializer initExpr { ad with offset := initOffset }

def linearizeInitializers : List (Initializer MemberInit) → AccessData →
    List (AccessData × MemberInit) × AccessData
  | [], ad => ([], ad)
  | expr :: exprList, ad =>
    let (stores, ad) := linearizeInitializer expr ad
    let (stores', ad) := linearizeInitializers exprList ad
    (stores ++ stores', ad)

end

/-- `linearize_one_symbol`, for the evaluated initializer of a local symbol. -/
def linearizeOneSymbol (sym : ℕ) (initializer : Initializer MemberInit) :
    List (AccessData × MemberInit) :=
  (linearizeInitializer (initializer.expandExpression MemberInit.bitOffset) { address := sym }).1

/-- The entry of an initializer is stored as assignments store it: its elements are at places in the
symbol, from the byte of the entry on, and there is a store for every element that leaves in every state
what the assignment to the element leaves. -/
def StoredAsAssigned (sym : ℕ) (store : AccessData × MemberInit) (x : ℕ × ℕ × MemberInit) : Prop :=
  ∀ init, x.2.2 = .scalar init → ∃ places : List ℕ, places.length = x.2.1 ∧ x.1 ∈ places ∧
    List.Forall₂ (fun (store : AccessData × MemberInit) place =>
      linearizeStoreGen store.1 store.2.value =
        linearizeAssignment (.plus (.symbol sym) place) init.member init.value) [store] places

/-- The store of a whole type at the first bit is right; so is one that sets bits of the first bit-field
of its unit, if it sets all of them. -/
def ScalarInit.StoredWhole (init : ScalarInit) : Prop :=
  init.member.bitOffset = 0 ∧
    (init.exprType.sourceBits = init.exprType.bitSize ∧ init.exprType.bitSize = init.member.bitSize ∨
      init.exprType.sourceBits ≠ init.exprType.bitSize ∧ ∀ j, init.value j = decide (j < init.member.bitSize))

/-! ## One store -/

/-- What a store leaves of one bit, counted from its offset. -/
def storeBit (ad : AccessData) (value : Bits) (orig : Bool) (j : ℕ) : Bool :=
  if j < ad.sourceBits then
    if ad.sourceBits = ad.resultBits then value j
    else
      (orig && !decide (ad.bitOffset ≤ j ∧ j < ad.bitOffset + ad.bitSize)) ||
        (decide (ad.bitOffset ≤ j) && value (j - ad.bitOffset))
  else orig

theorem linearizeStoreGen_apply (ad : AccessData) (value : Bits) (mem : SymbolBits) (sym k : ℕ) :
    linearizeStoreGen ad value mem sym k =
      if sym = ad.address ∧ 8 * ad.offset ≤ k then storeBit ad value (mem sym k) (k - 8 * ad.offset)
      else mem sym k := by
  have hrange : (sym = ad.address ∧ 8 * ad.offset ≤ k ∧ k < 8 * ad.offset + ad.sourceBits) ↔
      (sym = ad.address ∧ 8 * ad.offset ≤ k) ∧ k - 8 * ad.offset < ad.sourceBits := by
    omega
  rw [linearizeStoreGen, addStore]
  simp only [hrange, storeBit]
  by_cases hin : sym = ad.address ∧ 8 * ad.offset ≤ k
  · obtain ⟨rfl, hk⟩ := hin
    by_cases hlt : k - 8 * ad.offset < ad.sourceBits
    · have hback : 8 * ad.offset + (k - 8 * ad.offset) = k := by omega
      by_cases hwhole : ad.sourceBits = ad.resultBits
      · simp [hk, hwhole]
      · by_cases hshift : ad.bitOffset = 0
        · simp [hk, hlt, hwhole, hshift, Bits.orLin, Bits.andLin, Bits.not, addLoad, hback]
        · have hmask : (decide (ad.bitOffset ≤ k - 8 * ad.offset) &&
              decide (k - 8 * ad.offset - ad.bitOffset < ad.bitSize)) =
                decide (ad.bitOffset ≤ k - 8 * ad.offset ∧
                  k - 8 * ad.offset < ad.bitOffset + ad.bitSize) := by
            rw [← Bool.decide_and, decide_eq_decide]
            omega
          simp only [hk, and_self, if_true, if_false, ne_eq, hwhole, not_false_eq_true, hshift,
            Bits.orLin, Bits.andLin, Bits.not, Bits.shl, addLoad, hback, hlt, decide_true, Bool.true_and, hmask]
    · simp [hlt]
  · simp [hin]

/-- Stores at one place are alike if they leave the same bits. -/
theorem linearizeStoreGen_eq_iff {ad ad' : AccessData} (haddress : ad'.address = ad.address)
    (hoffset : ad'.offset = ad.offset) (value : Bits) :
    linearizeStoreGen ad value = linearizeStoreGen ad' value ↔
      ∀ orig j, storeBit ad value orig j = storeBit ad' value orig j := by
  constructor
  · intro h orig j
    have hbit := congrFun (congrFun (congrFun h fun _ _ => orig) ad.address) (8 * ad.offset + j)
    rw [linearizeStoreGen_apply, linearizeStoreGen_apply, haddress, hoffset, if_pos ⟨rfl, Nat.le_add_right ..⟩,
      if_pos ⟨rfl, Nat.le_add_right ..⟩, Nat.add_sub_cancel_left] at hbit
    exact hbit
  · intro h
    funext mem sym k
    rw [linearizeStoreGen_apply, linearizeStoreGen_apply, haddress, hoffset, h]

theorem linearizeAddressGen_plus (sym place : ℕ) (ctype : AccessType) :
    linearizeAddressGen (.plus (.symbol sym) place) ctype =
      { resultBits := ctype.bitSize, sourceBits := ctype.sourceBits, address := sym, offset := place,
        bitSize := ctype.bitSize, bitOffset := ctype.bitOffset } := by
  simp [linearizeAddressGen, linearizeSimpleAddress]

/-- An assignment sets the bits of the member. -/
theorem storeBit_assignment (init : ScalarInit) (sym place : ℕ) (orig : Bool) (j : ℕ) :
    storeBit (linearizeAddressGen (.plus (.symbol sym) place) init.member) init.value orig j =
      if init.member.bitOffset ≤ j ∧ j < init.member.bitOffset + init.member.bitSize then
        init.value (j - init.member.bitOffset)
      else orig := by
  have hinside := init.member.inside
  rw [linearizeAddressGen_plus, storeBit]
  by_cases hwhole : init.member.sourceBits = init.member.bitSize
  · have hzero : init.member.bitOffset = 0 := by omega
    simp [hwhole, hzero]
  · have hbeyond := init.fits_member (Ne.symm hwhole)
    simp only [if_neg hwhole]
    by_cases hin : init.member.bitOffset ≤ j ∧ j < init.member.bitOffset + init.member.bitSize
    · have hlt : j < init.member.sourceBits := by omega
      simp [hin, hlt]
    · rw [if_neg hin]
      by_cases hbefore : init.member.bitOffset ≤ j
      · have hzero := hbeyond (j - init.member.bitOffset) (by omega)
        simp [hin, hzero]
      · simp [hbefore]

/-- A store of a whole type in whose `access_data` the bits are not set. -/
theorem storeBit_whole (init : ScalarInit) (h : init.exprType.sourceBits = init.exprType.bitSize)
    (sym place : ℕ) (orig : Bool) (j : ℕ) :
    storeBit
        { resultBits := init.exprType.bitSize, sourceBits := init.exprType.sourceBits, address := sym,
          offset := place } init.value orig j =
      if j < init.exprType.bitSize then init.value j else orig := by
  simp [storeBit, h]

/-- A store of a part of a type in whose `access_data` the bits are not set clears nothing. -/
theorem storeBit_narrow (init : ScalarInit) (h : init.exprType.sourceBits ≠ init.exprType.bitSize)
    (sym place : ℕ) (orig : Bool) (j : ℕ) :
    storeBit
        { resultBits := init.exprType.bitSize, sourceBits := init.exprType.sourceBits, address := sym,
          offset := place } init.value orig j = (orig || init.value j) := by
  have hinside := init.exprType.inside
  by_cases hlt : j < init.exprType.sourceBits
  · simp [storeBit, h, hlt]
  · have hzero := init.fits j (by omega)
    simp [storeBit, hlt, hzero]

/-- A store in whose `access_data` the bits are not set does what the assignment does exactly if it
stores the whole member. -/
theorem store_eq_assignment_iff (init : ScalarInit) (sym place : ℕ) :
    linearizeStoreGen
        { resultBits := init.exprType.bitSize, sourceBits := init.exprType.sourceBits, address := sym,
          offset := place } init.value =
      linearizeAssignment (.plus (.symbol sym) place) init.member init.value ↔ init.StoredWhole := by
  have haddress := linearizeAddressGen_plus sym place init.member
  unfold linearizeAssignment
  rw [linearizeStoreGen_eq_iff (by rw [haddress]) (by rw [haddress])]
  simp only [storeBit_assignment]
  by_cases hwhole : init.exprType.sourceBits = init.exprType.bitSize
  · simp only [storeBit_whole init hwhole]
    constructor
    · intro h
      -- A bit that one of them leaves would have to be the value's, whatever it was.
      have hzero : init.member.bitOffset = 0 := by
        by_contra hne
        have hset := h (!init.value 0) 0
        rw [if_pos init.exprType.size_pos, if_neg (by omega)] at hset
        simp at hset
      simp only [hzero, Nat.zero_le, true_and, Nat.zero_add, Nat.sub_zero] at h
      refine ⟨hzero, .inl ⟨hwhole, ?_⟩⟩
      rcases Nat.lt_trichotomy init.exprType.bitSize init.member.bitSize with hlt | heq | hlt
      · have hset := h (!init.value init.exprType.bitSize) init.exprType.bitSize
        rw [if_neg (Nat.lt_irrefl _), if_pos hlt] at hset
        simp at hset
      · exact heq
      · have hset := h (!init.value init.member.bitSize) init.member.bitSize
        rw [if_pos hlt, if_neg (Nat.lt_irrefl _)] at hset
        simp at hset
    · rintro ⟨hzero, ⟨-, heq⟩ | ⟨hne, -⟩⟩ orig j
      · simp [hzero, heq]
      · exact absurd hwhole hne
  · simp only [storeBit_narrow init hwhole]
    constructor
    · intro h
      have hzero : init.member.bitOffset = 0 := by
        by_contra hne
        have hfirst := h true init.member.bitOffset
        rw [if_pos ⟨Nat.le_refl _, Nat.lt_add_of_pos_right init.member.size_pos⟩, Nat.sub_self,
          Bool.true_or] at hfirst
        have hlow := h false 0
        rw [if_neg (by omega), ← hfirst, Bool.or_true] at hlow
        exact Bool.noConfusion hlow
      simp only [hzero, Nat.zero_le, true_and, Nat.zero_add, Nat.sub_zero] at h
      refine ⟨hzero, .inr ⟨hwhole, fun j => ?_⟩⟩
      by_cases hj : j < init.member.bitSize
      · have hset := h true j
        rw [if_pos hj, Bool.true_or] at hset
        rw [← hset, decide_eq_true hj]
      · have hclear := h false j
        rw [if_neg hj, Bool.false_or] at hclear
        rw [hclear, decide_eq_false hj]
    · rintro ⟨hzero, ⟨heq, -⟩ | ⟨-, hvalue⟩⟩ orig j
      · exact absurd heq hwhole
      · by_cases hj : j < init.member.bitSize
        · simp [hzero, hvalue, hj]
        · simp [hzero, hvalue, hj]

/-! ## The stores of a whole initializer -/

namespace Initializer

/-- Every expression has a position of its own, as `convert_designators` leaves it. -/
inductive Seated {L : Type} : Initializer L → Prop
  | list {entries : List (Initializer L)} : (∀ e ∈ entries, Seated e) → Seated (list entries)
  | leaf (o n : ℕ) (expr : L) : Seated (pos o n (leaf expr))
  | pos {o n : ℕ} {t : Initializer L} : Seated t → Seated (pos o n t)

variable {L : Type} {leafBits : L → ℕ} {t : Initializer L}

theorem Seated.rebase (h : Seated t) (o : ℕ) : Seated (rebase o t) := by
  cases h with
  | list h => exact .pos (.list h)
  | leaf o' n expr => exact .leaf (o' + o) n expr
  | pos h => exact .pos h

theorem Seated.expandExpression (h : Seated t) : Seated (expandExpression leafBits t) := by
  induction t using expand_induction with
  | leaf expr => nomatch h
  | list entries ih =>
    obtain ⟨hall⟩ | _ | _ := h
    rw [expandExpression_list]
    refine .list fun e he => ?_
    obtain ⟨a, ha, rfl⟩ := List.mem_map.1 he
    have hmem := mem_sortExpressionList.1 ha
    exact ih a hmem (hall a hmem)
  | single_leaf o expr =>
    rw [expandExpression_single_leaf]
    exact .leaf o 1 expr
  | single_pos o o' n t ih =>
    rw [expandExpression_single_pos]
    refine ih ?_
    obtain _ | _ | ⟨_ | _ | h⟩ := h
    · exact .leaf (o + o') n _
    · exact .pos h
  | single_list o entries ih =>
    rw [expandExpression_single_list]
    refine ih (.list fun e he => ?_)
    obtain ⟨a, ha, rfl⟩ := List.mem_map.1 he
    obtain _ | _ | ⟨⟨hall⟩ | _ | _⟩ := h
    exact (hall a ha).rebase o
  | range o n t hn ih =>
    rw [expandExpression_range hn]
    obtain _ | _ | h := h
    · rw [expandExpression_leaf]
      exact .leaf o n _
    · exact .pos (ih h)

end Initializer

/-- The `access_data` on the way through the initializer of a symbol. -/
structure AccessData.Bare (ad : AccessData) (sym : ℕ) : Prop where
  address : ad.address = sym
  bitSize : ad.bitSize = 0
  bitOffset : ad.bitOffset = 0

/-- The store that is emitted for an entry: the offset is right if the entry is a single element. -/
structure EmittedFor (sym : ℕ) (store : AccessData × MemberInit) (x : ℕ × ℕ × MemberInit) : Prop where
  bare : store.1.Bare sym
  init : store.2 = x.2.2
  sourceBits : store.1.sourceBits = store.2.sourceBits
  resultBits : store.1.resultBits = store.2.resultBits
  offset : x.2.1 = 1 → store.1.offset = x.1

theorem AccessData.Bare.setOffset {ad : AccessData} {sym : ℕ} (h : ad.Bare sym) (offset : ℕ) :
    AccessData.Bare { ad with offset } sym :=
  ⟨h.address, h.bitSize, h.bitOffset⟩

theorem linearizeInitializers_emitted {sym : ℕ} {entries : List (Initializer MemberInit)} {base nr : ℕ}
    (h : ∀ e ∈ entries, ∀ ad : AccessData, ad.Bare sym → (linearizeInitializer e ad).2.Bare sym ∧
      List.Forall₂ (EmittedFor sym) (linearizeInitializer e ad).1 (e.denote base nr))
    {ad : AccessData} (hbare : ad.Bare sym) :
    (linearizeInitializers entries ad).2.Bare sym ∧
      List.Forall₂ (EmittedFor sym) (linearizeInitializers entries ad).1
        (Initializer.denotes base nr entries) := by
  induction entries generalizing ad with
  | nil => exact ⟨hbare, .nil⟩
  | cons e entries ih =>
    obtain ⟨hmid, hstores⟩ := h e List.mem_cons_self ad hbare
    obtain ⟨hend, hstores'⟩ := ih (fun e he => h e (List.mem_cons_of_mem _ he)) hmid
    rw [linearizeInitializers, Initializer.denotes]
    exact ⟨hend, List.rel_append hstores hstores'⟩

/-- A store is emitted for every entry. A single element is not in a range, so its position is the last
that was set. -/
theorem linearizeInitializer_emitted {sym : ℕ} {t : Initializer MemberInit} (hexpanded : t.Expanded)
    (hseated : t.Seated) {base nr : ℕ} (hnr : nr = 1 → base = 0) {ad : AccessData} (hbare : ad.Bare sym) :
    (linearizeInitializer t ad).2.Bare sym ∧
      List.Forall₂ (EmittedFor sym) (linearizeInitializer t ad).1 (t.denote base nr) := by
  induction hexpanded generalizing base nr ad with
  | leaf expr => nomatch hseated
  | list hall ih =>
    obtain ⟨hseated⟩ | _ | _ := hseated
    rw [linearizeInitializer, Initializer.denote]
    exact linearizeInitializers_emitted (fun e he ad hbare => ih e he (hseated e he) hnr hbare) hbare
  | single o expr =>
    rw [linearizeInitializer, linearizeInitializer, Initializer.denote, Initializer.denote]
    have hbare := hbare.setOffset o
    refine ⟨⟨hbare.address, hbare.bitSize, hbare.bitOffset⟩, .cons ?_ .nil⟩
    refine ⟨⟨hbare.address, hbare.bitSize, hbare.bitOffset⟩, rfl, rfl, rfl, fun hone => ?_⟩
    have hzero := hnr (by simpa using hone)
    simp [hzero]
  | @range o n t hn hexpanded ih =>
    rw [linearizeInitializer, Initializer.denote]
    have hrange : nr * n ≠ 1 := fun hone => hn (Nat.eq_one_of_mul_eq_one_left hone)
    obtain _ | _ | hseated := hseated
    · rw [linearizeInitializer, Initializer.denote]
      have hbare := hbare.setOffset o
      refine ⟨⟨hbare.address, hbare.bitSize, hbare.bitOffset⟩, .cons ?_ .nil⟩
      exact ⟨⟨hbare.address, hbare.bitSize, hbare.bitOffset⟩, rfl, rfl, rfl, fun hone => absurd hone hrange⟩
    · exact ih hseated (fun hone => absurd hone hrange) (hbare.setOffset o)

theorem EmittedFor.storedAsAssigned_iff {sym : ℕ} {store : AccessData × MemberInit} {x : ℕ × ℕ × MemberInit}
    (h : EmittedFor sym store x) :
    StoredAsAssigned sym store x ↔ ∀ init, x.2.2 = .scalar init → x.2.1 = 1 ∧ init.StoredWhole := by
  refine forall_congr' fun init => forall_congr' fun hinit => ?_
  obtain ⟨ad, stored⟩ := store
  obtain ⟨hbare, hstored, hsource, hresult, hoffset⟩ := h
  obtain rfl : stored = .scalar init := hstored.trans hinit
  have had : ad =
      { resultBits := init.exprType.bitSize, sourceBits := init.exprType.sourceBits, address := sym,
        offset := ad.offset } := by
    obtain ⟨r, s, a, o, size, start⟩ := ad
    simp only [AccessData.mk.injEq]
    exact ⟨hresult, hsource, hbare.address, trivial, hbare.bitSize, hbare.bitOffset⟩
  have hplace := store_eq_assignment_iff init sym ad.offset
  rw [← had] at hplace
  constructor
  · rintro ⟨places, hlength, hmem, hstores⟩
    obtain _ | ⟨hfirst, ⟨⟩⟩ := hstores
    have hone : x.2.1 = 1 := hlength.symm
    rw [List.mem_singleton] at hmem
    rw [← hmem, ← hoffset hone] at hfirst
    exact ⟨hone, hplace.1 hfirst⟩
  · rintro ⟨hone, hwhole⟩
    refine ⟨[x.1], hone.symm, List.mem_singleton_self _, .cons ?_ .nil⟩
    rw [← hoffset hone]
    exact hplace.2 hwhole

theorem forall₂_iff_of_forall₂ {α β : Type} {R P : α → β → Prop} {C : β → Prop}
    (hiff : ∀ a b, R a b → (P a b ↔ C b)) {l : List α} {l' : List β} (h : List.Forall₂ R l l') :
    List.Forall₂ P l l' ↔ ∀ b ∈ l', C b := by
  induction h with
  | nil => simp
  | cons hab h ih => rw [List.forall₂_cons, List.forall_mem_cons, ih, hiff _ _ hab]

/-- The entries of the initializer of a local aggregate are stored where assignments to them store, and
the same bits are, exactly if every scalar entry is a single element and its value is stored as a whole. -/
theorem linearizeOneSymbol_storedAsAssigned_iff (sym : ℕ) (initializer : Initializer MemberInit)
    (hseated : initializer.Seated) :
    List.Forall₂ (StoredAsAssigned sym) (linearizeOneSymbol sym initializer)
        ((initializer.expandExpression MemberInit.bitOffset).denote 0 1) ↔
      ∀ x ∈ initializer.denote 0 1, ∀ init, x.2.2 = .scalar init → x.2.1 = 1 ∧ init.StoredWhole := by
  have hexpanded : (initializer.expandExpression MemberInit.bitOffset).Expanded :=
    Initializer.expanded_expandExpression initializer
  have hbare : AccessData.Bare { address := sym } sym := ⟨rfl, rfl, rfl⟩
  have hemitted : List.Forall₂ (EmittedFor sym) (linearizeOneSymbol sym initializer)
      ((initializer.expandExpression MemberInit.bitOffset).denote 0 1) :=
    (linearizeInitializer_emitted hexpanded hseated.expandExpression (fun _ => rfl) hbare).2
  have hperm : ((initializer.expandExpression MemberInit.bitOffset).denote 0 1).Perm (initializer.denote 0 1) :=
    Initializer.denote_expandExpression initializer 0 1
  refine (forall₂_iff_of_forall₂ (fun _ _ h => h.storedAsAssigned_iff) hemitted).trans ?_
  exact forall_congr' fun x => imp_congr hperm.mem_iff Iff.rfl

/-- The initializer of a member with a constant of its type. -/
def constantInit (member : AccessType) (value : ℕ) (h : value < 2 ^ member.bitSize) : MemberInit :=
  .scalar
    { exprType := member
      member := member
      value := value.testBit
      fits := fun _ hj => Nat.testBit_lt_two_pow (h.trans_le (Nat.pow_le_pow_right (by decide) hj))
      fits_member := fun _ _ hj => Nat.testBit_lt_two_pow (h.trans_le (Nat.pow_le_pow_right (by decide) hj)) }

theorem AccessType.int_pos : 0 < 32 := by decide

/-- `struct { int a, b; } x = { 1, 2 };` -/
def twoWords : Initializer MemberInit :=
  .list [.pos 0 1 (.leaf (constantInit ⟨32, 32, 0, AccessType.int_pos, by decide⟩ 1 (by decide))),
    .pos 4 1 (.leaf (constantInit ⟨32, 32, 0, AccessType.int_pos, by decide⟩ 2 (by decide)))]

theorem twoWords_storedAsAssigned :
    twoWords.Seated ∧
      List.Forall₂ (StoredAsAssigned 7) (linearizeOneSymbol 7 twoWords)
        ((twoWords.expandExpression MemberInit.bitOffset).denote 0 1) := by
  have hseated : twoWords.Seated :=
    .list fun e he => by
      rcases List.mem_pair.1 he with rfl | rfl
      · exact .leaf ..
      · exact .leaf ..
  refine ⟨hseated, (linearizeOneSymbol_storedAsAssigned_iff 7 twoWords hseated).2 fun x hx init hinit => ?_⟩
  have hwhole : ∀ (value : ℕ) (h : value < 2 ^ 32),
      MemberInit.scalar init = constantInit ⟨32, 32, 0, by decide, by decide⟩ value h → init.StoredWhole := by
    rintro value h ⟨rfl⟩
    exact ⟨rfl, .inl ⟨rfl, rfl⟩⟩
  simp only [twoWords, Initializer.denote, Initializer.denotes, List.cons_append, List.nil_append] at hx
  rcases List.mem_pair.1 hx with rfl | rfl
  · exact ⟨rfl, hwhole 1 (by decide) hinit.symm⟩
  · exact ⟨rfl, hwhole 2 (by decide) hinit.symm⟩

/-- `struct { unsigned a : 4, b : 6; } x = { 1, 2 };` -/
def twoFields : Initializer MemberInit :=
  .list [.pos 0 1 (.leaf (constantInit ⟨32, 4, 0, by decide, by decide⟩ 1 (by decide))),
    .pos 0 1 (.leaf (constantInit ⟨32, 6, 4, by decide, by decide⟩ 2 (by decide)))]

/-- The store for `b` is one to the first bits of the unit. -/
theorem twoFields_storedElsewhere :
    twoFields.Seated ∧
      ¬ List.Forall₂ (StoredAsAssigned 7) (linearizeOneSymbol 7 twoFields)
        ((twoFields.expandExpression MemberInit.bitOffset).denote 0 1) := by
  have hexpand : twoFields.expandExpression MemberInit.bitOffset = twoFields := by
    rw [twoFields, Initializer.expandExpression_list]
    simp only [Initializer.sortExpressionList, List.insertionSort, List.foldr, List.orderedInsert,
      Initializer.bitOffset, constantInit, MemberInit.bitOffset]
    simp [Initializer.expandExpression_single_leaf]
  refine ⟨.list fun e he => ?_, fun hall => ?_⟩
  · rcases List.mem_pair.1 he with rfl | rfl
    · exact .leaf ..
    · exact .leaf ..
  · rw [linearizeOneSymbol, hexpand] at hall
    obtain _ | ⟨-, hrest⟩ := hall
    obtain _ | ⟨hfield, -⟩ := hrest
    obtain ⟨places, hlength, hmem, hstores⟩ := hfield _ rfl
    obtain _ | ⟨hfirst, ⟨⟩⟩ := hstores
    have hbit := congrFun (congrFun (congrFun hfirst fun _ _ => false) 7) 1
    obtain rfl := List.mem_singleton.1 hmem
    exact absurd hbit (by decide)

end Sparse
