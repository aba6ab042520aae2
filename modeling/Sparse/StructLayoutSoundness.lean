import Sparse.StructLayout
import Mathlib.Algebra.Order.Ring.Int
import Mathlib.Tactic.Common

/-!
# Members lie apart and aligned

As long as the bits of a struct can be counted in an `int`, the layout is the one
without bounds, where each member starts after those before it.
-/

namespace Sparse.StructLayout

open SequentialPlacement

/-! ## Machine numbers -/

theorem toInt_eq {x : ℤ} (hlow : -2 ^ 31 ≤ x) (hhigh : x < 2 ^ 31) : toInt x = x :=
  Int.bmod_eq_of_le (by omega) (by omega)

theorem toUlong_eq {x : ℤ} (hlow : 0 ≤ x) (hhigh : x < 2 ^ 64) : toUlong x = x.toNat := by
  rw [toUlong, Int.emod_eq_of_lt hlow hhigh]

theorem toUlong_natCast {n : ℕ} (h : n < 2 ^ 64) : toUlong n = n := by
  rw [toUlong_eq (by omega) (by omega), Int.toNat_natCast]

/-- An `unsigned long` that becomes an `int` again. -/
theorem toInt_toUlong {x : ℤ} (hlow : -2 ^ 31 ≤ x) (hhigh : x < 2 ^ 31) : toInt (toUlong x) = x := by
  have hmod : toInt (toUlong x) = toInt x := by
    rw [toInt, toInt, toUlong, Int.toNat_of_nonneg (Int.emod_nonneg x (by omega)), Int.bmod, Int.bmod,
      Int.emod_emod_of_dvd x (by omega)]
  rw [hmod, toInt_eq hlow hhigh]

/-- A mask of low bits cleared. -/
theorem and_complement {x k : ℕ} (hx : x < 2 ^ 64) (hk : k ≤ 64) :
    x &&& (2 ^ 64 - 1 - (2 ^ k - 1)) = x / 2 ^ k * 2 ^ k := by
  have hpow : 2 ^ k - 1 < 2 ^ 64 := by
    have hle : 2 ^ k ≤ 2 ^ 64 := Nat.pow_le_pow_right (by omega) hk
    omega
  rw [Nat.sub_sub, Nat.add_comm 1]
  refine Nat.eq_of_testBit_eq fun i => ?_
  rw [Nat.testBit_and, Nat.testBit_two_pow_sub_succ hpow, Nat.testBit_two_pow_sub_one,
    Nat.testBit_mul_two_pow, Nat.testBit_div_two_pow]
  by_cases hik : k ≤ i
  · rw [Nat.add_comm, Nat.add_sub_cancel' hik]
    by_cases hi : i < 64
    · simp [hik, hi]
    · have hbit : x.testBit i = false :=
        Nat.testBit_lt_two_pow (Nat.lt_of_lt_of_le hx (Nat.pow_le_pow_right (by omega) (by omega)))
      simp [hbit]
  · have hlt : i < k := Nat.lt_of_not_le hik
    simp [hik, hlt]

theorem alignBits_eq {p k : ℕ} (hp : p + 2 ^ k ≤ 2 ^ 64) (hk : k ≤ 64) :
    alignBits p (2 ^ k - 1) = roundUp p (2 ^ k) := by
  have hpos : 0 < 2 ^ k := Nat.two_pow_pos k
  have hcast : (p : ℤ) + (2 ^ k - 1 : ℕ) = (p + (2 ^ k - 1) : ℕ) := by omega
  rw [alignBits, hcast, toUlong_natCast (by omega), and_complement (by omega) hk, roundUp]

theorem alignBitMask_eq {j : ℕ} (hj : j < 28) : alignBitMask (2 ^ j) = 2 ^ (j + 3) - 1 := by
  have hpow : 2 ^ j ≤ 2 ^ 27 := Nat.pow_le_pow_right (by omega) (by omega)
  have hpos : 0 < 2 ^ j := Nat.two_pow_pos j
  have hsucc : 2 ^ (j + 3) = 2 ^ j * 8 := Nat.pow_add 2 j 3
  rw [alignBitMask, bytesToBits, bitsInChar, hsucc]
  generalize 2 ^ j = a at hpow hpos
  have hinner : toInt (a : ℕ) = a := toInt_eq (by omega) (by omega)
  rw [hinner, toInt_eq (by omega) (by omega), toUlong_eq (by omega) (by omega)]
  omega

/-- A whole number of bytes that an `int` can count in bits. -/
theorem offset_eq {n : ℕ} (hn : n < 2 ^ 31) : toUlong (bitsToBytes (toInt n)) = n / bitsInChar := by
  have hle : n / bitsInChar ≤ n := Nat.div_le_self n _
  rw [toInt_eq (by omega) (by omega), bitsToBytes, if_pos (by omega), ← Int.natCast_ediv,
    toUlong_natCast (by omega)]

/-- An alignment that an `int` can count in bits. -/
def IsAlignment (alignment : ℕ) : Prop :=
  ∃ j, j < 28 ∧ alignment = 2 ^ j

theorem IsAlignment.pos {alignment : ℕ} (h : IsAlignment alignment) : 0 < alignment * bitsInChar := by
  obtain ⟨j, -, rfl⟩ := h
  exact Nat.mul_pos (Nat.two_pow_pos j) (by decide)

/-- What the mask is for. -/
theorem IsAlignment.mask {alignment p : ℕ} (h : IsAlignment alignment) (hp : p < 2 ^ 31) :
    p &&& alignBitMask alignment = p % (alignment * bitsInChar) ∧
      alignBits p (alignBitMask alignment) = roundUp p (alignment * bitsInChar) := by
  obtain ⟨j, hj, rfl⟩ := h
  have hbits : 2 ^ j * bitsInChar = 2 ^ (j + 3) := (Nat.pow_add 2 j 3).symm
  have hpow : 2 ^ (j + 3) ≤ 2 ^ 30 := Nat.pow_le_pow_right (by omega) (by omega)
  rw [alignBitMask_eq hj, hbits, Nat.and_two_pow_sub_one_eq_mod, alignBits_eq (by omega) (by omega)]
  exact ⟨rfl, rfl⟩

/-! ## The members of a struct -/

/-- The alignment is a power of two, and a bit-field fits in its base type; one of no width
has a base type that is not smaller than its alignment. -/
structure Member.Valid (sym : Member) : Prop where
  alignment : IsAlignment sym.alignment
  size : sym.bitSize < 2 ^ 31
  base : ∀ base, sym.base = some base →
    (sym.size : ℤ) ≤ base ∧ base ≤ 256 ∧ (sym.size = 0 → (sym.align : ℤ) ≤ base)

variable {sym : Member} {info : Info} {members : List Member}

theorem Member.Valid.align_pos (h : sym.Valid) : 0 < sym.align :=
  h.alignment.pos

theorem dvd_of_align {n : ℕ} (h : sym.align ∣ n) : bitsInChar ∣ n ∧ sym.alignment ∣ n / bitsInChar := by
  obtain ⟨c, rfl⟩ := h
  have hn : sym.align * c = sym.alignment * c * bitsInChar := by
    rw [Member.align, Nat.mul_right_comm]
  rw [hn]
  refine ⟨Nat.dvd_mul_left _ _, ?_⟩
  rw [Nat.mul_div_cancel _ (by decide)]
  exact Nat.dvd_mul_right _ _

/-- What a member needs: its bits come after its start, and a field of no width closes the unit. -/
theorem structRule_bounds (h : sym.Valid) (p : ℕ) :
    p ≤ structRule.start p sym ∧ structRule.start p sym + sym.size ≤ structRule.next p sym ∧
      (sym.isBitfield = true → sym.size = 0 →
        roundUp (structRule.start p sym) sym.align ≤ structRule.next p sym) := by
  have hpos := h.align_pos
  have hround := le_roundUp (p := p) hpos
  have hlt := roundUp_lt (p := p) hpos
  have hmod := Nat.mod_lt p hpos
  have hdiv := Nat.div_add_mod p sym.align
  cases hbase : sym.base with
  | none =>
    refine ⟨?_, ?_, ?_⟩
    · simpa only [structRule, hbase] using hround
    · simp only [structRule, hbase]
      exact Nat.le_refl _
    · simp [Member.isBitfield, hbase]
  | some base =>
    obtain ⟨hsize, -, hzero⟩ := h.base base hbase
    simp only [structRule, hbase]
    by_cases hempty : sym.size = 0
    · have halign := hzero hempty
      have hfits : p % sym.align + sym.size ≤ base.toNat := by omega
      rw [if_pos hfits, if_pos hempty]
      by_cases hoff : p % sym.align = 0
      · rw [if_pos hoff]
        refine ⟨Nat.le_refl p, by omega, fun _ _ => ?_⟩
        rw [roundUp_of_dvd hpos (Nat.dvd_of_mod_eq_zero hoff)]
      · rw [if_neg hoff]
        refine ⟨Nat.le_refl p, by omega, fun _ _ => ?_⟩
        have hup : roundUp p sym.align ≤ sym.align * (p / sym.align) + sym.align :=
          roundUp_le (Nat.dvd_add (Nat.dvd_mul_right _ _) (Nat.dvd_refl _)) (by omega)
        omega
    · rw [if_neg hempty]
      refine ⟨?_, Nat.le_refl _, fun _ hzero => absurd hzero hempty⟩
      split
      · exact Nat.le_refl p
      · exact hround

theorem structRule_advances (h : sym.Valid) : structRule.Advances sym := fun p =>
  ⟨(structRule_bounds h p).1, Nat.le_trans (Nat.le_add_right _ _) (structRule_bounds h p).2.1⟩

/-- A member that is no bit-field starts at a byte. -/
theorem bitsInChar_dvd_start (hsym : sym.isBitfield = false) (p : ℕ) :
    bitsInChar ∣ structRule.start p sym := by
  cases hbase : sym.base with
  | none =>
    simp only [structRule, hbase]
    exact Nat.dvd_trans (Nat.dvd_mul_left bitsInChar sym.alignment) dvd_roundUp
  | some base => simp [Member.isBitfield, hbase] at hsym

/-- The first bit of a member in its place. -/
def startBit (place : Place) : ℕ :=
  place.offset * bitsInChar + place.bitOffset

/-- A member is where the rule puts it, its place is aligned, and a bit-field is in its unit. -/
structure Fits (sym : Member) (place : Place) (start : ℕ) : Prop where
  start : startBit place = start
  aligned : sym.alignment ∣ place.offset
  unit : ∀ base, sym.base = some base → (place.bitOffset : ℤ) + sym.size ≤ base

/-- A place in a unit that starts at a multiple of the alignment. -/
theorem fits_of_unit (unit off : ℕ) (hunit : sym.align ∣ unit) (hoff : off < 2 ^ 8)
    (hlt : unit + off < 2 ^ 31)
    (hbase : ∀ base, sym.base = some base → (off : ℤ) + sym.size ≤ base) :
    Fits sym ⟨toUlong (bitsToBytes (toInt unit)), off % 2 ^ 8⟩ (unit + off) := by
  obtain ⟨hchar, hdvd⟩ := dvd_of_align hunit
  rw [offset_eq (by omega), Nat.mod_eq_of_lt hoff]
  refine ⟨?_, hdvd, hbase⟩
  rw [startBit, Nat.div_mul_cancel hchar]

/-- The size that a member takes; an unsized array takes none. -/
theorem baseSize_eq (sym : Member) : (if sym.bitSize < 0 then 0 else sym.bitSize) = (sym.size : ℤ) := by
  rw [Member.size]
  split
  · omega
  · omega

/-- The width of `lay_out_struct` does not fit in the room exactly where the field does not fit in the unit. -/
theorem width_gt_room_iff {size off : ℕ} {base : ℤ} (hsize : (size : ℤ) ≤ base) (hzero : size = 0 → (off : ℤ) ≤ base) :
    (if (size : ℤ) ≠ 0 then (size : ℤ) else if off ≠ 0 then base - off else 0) > base - off ↔
      ¬off + size ≤ base.toNat := by
  by_cases hempty : size = 0
  · subst hempty
    have hle := hzero rfl
    by_cases hoff : off = 0
    · subst hoff
      simpa using hle
    · simp only [Nat.cast_zero, ne_eq, not_true_eq_false, if_false, hoff, not_false_eq_true, if_true]
      omega
  · rw [if_pos (by omega)]
    omega

/-- What follows a bit-field that stays in the unit of the position. -/
theorem next_of_stays {size off p : ℕ} {base : ℤ} (hoff : off ≤ p) (hbase : (off : ℤ) + size ≤ base) :
    (p : ℤ) + (if (size : ℤ) ≠ 0 then (size : ℤ) else if off ≠ 0 then base - off else 0) =
      (if size = 0 then if off = 0 then p else p - off + base.toNat else p + size : ℕ) := by
  by_cases hempty : size = 0
  · subst hempty
    by_cases hzero : off = 0
    · simp [hzero]
    · rw [if_neg (by simp), if_pos hzero, if_pos rfl, if_neg hzero]
      omega
  · rw [if_pos (by omega), if_neg hempty]
    omega

/-- `lay_out_struct` follows the rule where the bits can be counted in an `int`. -/
theorem layOutStruct_spec (h : sym.Valid) {p : ℕ} (maxAlign : ℕ) (alignSize : Bool)
    (hnext : structRule.next p sym < 2 ^ 31) :
    Fits sym (layOutStruct ⟨maxAlign, p, alignSize⟩ sym).1 (structRule.start p sym) ∧
      (layOutStruct ⟨maxAlign, p, alignSize⟩ sym).2 =
        ⟨raiseAlign maxAlign sym, structRule.next p sym,
          if sym.bitSize < 0 then false else alignSize⟩ := by
  obtain ⟨hle, hstop⟩ := structRule_advances h p
  have hlt : structRule.start p sym < 2 ^ 31 := Nat.lt_of_le_of_lt hstop hnext
  have hp : p < 2 ^ 31 := Nat.lt_of_le_of_lt hle hlt
  obtain ⟨hand, hbits⟩ : p &&& alignBitMask sym.alignment = p % sym.align ∧
      alignBits p (alignBitMask sym.alignment) = roundUp p sym.align := h.alignment.mask hp
  clear hle hstop
  cases hbase : sym.base with
  | none =>
    simp only [structRule, hbase] at hlt hnext ⊢
    simp only [layOutStruct, hbase, baseSize_eq, hbits]
    refine ⟨fits_of_unit (roundUp p sym.align) 0 dvd_roundUp (by decide) hlt fun base hsome => ?_, ?_⟩
    · rw [hbase] at hsome
      exact absurd hsome nofun
    · rw [← Int.natCast_add, toUlong_natCast (by omega)]
  | some base =>
    obtain ⟨hsize, hwide, hzero⟩ := h.base base hbase
    have hmod := Nat.mod_lt p h.align_pos
    have hmodle := Nat.mod_le p sym.align
    have hunit : sym.align ∣ p - p % sym.align := Nat.dvd_sub_mod p
    simp only [structRule, hbase] at hlt hnext ⊢
    simp only [layOutStruct, hbase, baseSize_eq, hbits, hand]
    clear hand hbits
    generalize p % sym.align = off at hmod hmodle hunit hlt hnext ⊢
    have hroom : toInt (toUlong (base - (off : ℕ))) = base - (off : ℕ) :=
      toInt_toUlong (by omega) (by omega)
    have hfull : sym.size = 0 → (off : ℤ) ≤ base := fun hempty =>
      Int.le_trans (Int.ofNat_le.2 (Nat.le_of_lt hmod)) (hzero hempty)
    have hgt := width_gt_room_iff hsize hfull
    rw [hroom]
    by_cases hfits : off + sym.size ≤ base.toNat
    · have hfits' : (off : ℤ) + sym.size ≤ base := by omega
      have hbyte : off < 2 ^ 8 := by
        by_cases hempty : sym.size = 0
        · have := hzero hempty
          omega
        · omega
      have hfield := fits_of_unit (p - off) off hunit hbyte (by omega) fun base' hsome => by
        rw [hbase, Option.some.injEq] at hsome
        rwa [← hsome]
      rw [if_neg (fun hw => hgt.1 hw hfits)]
      rw [if_pos hfits] at hnext ⊢
      rw [Nat.sub_add_cancel hmodle] at hfield
      dsimp only
      rw [next_of_stays hmodle hfits', toUlong_natCast (by omega), ← Int.ofNat_sub hmodle,
        toUlong_natCast (by omega)]
      exact ⟨hfield, rfl⟩
    · have hne : sym.size ≠ 0 := fun hempty => by
        have := hzero hempty
        omega
      have hfield := fits_of_unit (roundUp p sym.align) 0 dvd_roundUp (by decide)
        (by rwa [if_neg hfits] at hlt) fun base' hsome => by
          rw [hbase, Option.some.injEq] at hsome
          rw [← hsome]
          omega
      rw [if_pos (hgt.2 hfits)]
      rw [if_neg hne, if_neg hfits] at hnext ⊢
      have hcast : ((roundUp p sym.align : ℕ) : ℤ) - ((0 : ℕ) : ℤ) = (roundUp p sym.align : ℕ) := by omega
      dsimp only
      rw [if_pos (by omega), hcast, toUlong_natCast (by omega), ← Int.natCast_add, toUlong_natCast (by omega)]
      exact ⟨hfield, rfl⟩

/-- No member is an unsized array. -/
def Sized (members : List Member) : Prop :=
  ∀ sym ∈ members, 0 ≤ sym.bitSize

theorem final_cons_lt (hvalid : ∀ sym' ∈ sym :: members, sym'.Valid) {p : ℕ}
    (hfinal : structRule.final p (sym :: members) < 2 ^ 31) : structRule.next p sym < 2 ^ 31 :=
  Nat.lt_of_le_of_lt
    (Rule.le_final fun sym' hmem => structRule_advances (hvalid sym' (List.mem_cons_of_mem _ hmem))) hfinal

/-- The loop follows the rule, member for member. -/
theorem layOut_struct (hvalid : ∀ sym ∈ members, sym.Valid) {p : ℕ}
    (hfinal : structRule.final p members < 2 ^ 31) (maxAlign : ℕ) (alignSize : Bool) :
    (layOut layOutStruct ⟨maxAlign, p, alignSize⟩ members).1.map (fun x => (x.1, startBit x.2)) =
        structRule.places p members ∧
      (∀ x ∈ (layOut layOutStruct ⟨maxAlign, p, alignSize⟩ members).1, Fits x.1 x.2 (startBit x.2)) ∧
      (layOut layOutStruct ⟨maxAlign, p, alignSize⟩ members).2.bitSize = structRule.final p members ∧
      (layOut layOutStruct ⟨maxAlign, p, alignSize⟩ members).2.maxAlign =
        members.foldl raiseAlign maxAlign ∧
      (alignSize = true → Sized members →
        (layOut layOutStruct ⟨maxAlign, p, alignSize⟩ members).2.alignSize = true) := by
  induction members generalizing p maxAlign alignSize with
  | nil => exact ⟨rfl, by simp [layOut], rfl, rfl, fun h _ => h⟩
  | cons sym members ih =>
    obtain ⟨hfits, hinfo⟩ := layOutStruct_spec (hvalid sym List.mem_cons_self) maxAlign alignSize
      (final_cons_lt hvalid hfinal)
    obtain ⟨hmap, hall, hbits, hmax, hsized⟩ := ih (fun sym' hmem => hvalid sym' (List.mem_cons_of_mem _ hmem))
      hfinal (raiseAlign maxAlign sym) (if sym.bitSize < 0 then false else alignSize)
    rw [layOut_cons, hinfo]
    refine ⟨?_, fun x hx => ?_, hbits, hmax, fun hal hmem => ?_⟩
    · rw [List.map_cons, hmap, hfits.start]
      rfl
    · rcases List.mem_cons.1 hx with rfl | hx
      · exact ⟨rfl, hfits.aligned, hfits.unit⟩
      · exact hall x hx
    · refine hsized ?_ fun sym' hmem' => hmem sym' (List.mem_cons_of_mem _ hmem')
      rwa [if_neg (Int.not_lt.2 (hmem sym List.mem_cons_self))]

/-! ## The whole -/

/-- The bit after the last one of a member. -/
def stopBit (x : Member × Place) : ℕ :=
  startBit x.2 + x.1.size

/-- The layout of a struct: the members in their order, aligned, apart, and inside the whole. -/
structure StructSound (members : List Member) (layout : Layout) : Prop where
  order : layout.members.map Prod.fst = members
  aligned : ∀ x ∈ layout.members, x.1.alignment ∣ x.2.offset
  apart : layout.members.Pairwise fun x y => stopBit x ≤ startBit y.2
  bytes : layout.members.Pairwise fun x y => x.1.isBitfield ≠ y.1.isBitfield →
    (x.1.isBitfield = false → bitsInChar ∣ x.1.size) →
      ∃ byte, stopBit x ≤ byte * bitsInChar ∧ byte * bitsInChar ≤ startBit y.2
  unit : ∀ x ∈ layout.members, ∀ base, x.1.base = some base → (x.2.bitOffset : ℤ) + x.1.size ≤ base
  closes : layout.members.Pairwise fun x y => x.1.isBitfield = true → x.1.size = 0 →
    roundUp (startBit x.2) x.1.align ≤ startBit y.2
  covers : ∀ x ∈ layout.members, (stopBit x : ℤ) ≤ layout.bitSize
  total : Sized members → ((layout.alignment * bitsInChar : ℕ) : ℤ) ∣ layout.bitSize

/-- The layout of a union: all members at its start and inside it. -/
structure UnionSound (members : List Member) (layout : Layout) : Prop where
  order : layout.members.map Prod.fst = members
  start : ∀ x ∈ layout.members, x.2 = ⟨0, 0⟩
  covers : ∀ x ∈ layout.members, x.1.bitSize ≤ layout.bitSize
  total : ((layout.alignment * bitsInChar : ℕ) : ℤ) ∣ layout.bitSize

theorem IsAlignment.raise {maxAlign : ℕ} (h : IsAlignment maxAlign) (hsym : IsAlignment sym.alignment) :
    IsAlignment (raiseAlign maxAlign sym) := by
  rw [raiseAlign]
  split
  · exact hsym
  · exact h

theorem IsAlignment.foldl {maxAlign : ℕ} (h : IsAlignment maxAlign) (hvalid : ∀ sym ∈ members, sym.Valid) :
    IsAlignment (members.foldl raiseAlign maxAlign) := by
  induction members generalizing maxAlign with
  | nil => exact h
  | cons sym members ih =>
    exact ih (h.raise (hvalid sym List.mem_cons_self).alignment) fun sym' hmem =>
      hvalid sym' (List.mem_cons_of_mem _ hmem)

theorem isAlignment_total {alignment : ℕ} (hattr : alignment ≠ 0 → IsAlignment alignment)
    (hvalid : ∀ sym ∈ members, sym.Valid) : IsAlignment (totalAlignment alignment members) := by
  rw [totalAlignment]
  split
  · exact IsAlignment.foldl ⟨0, by omega, rfl⟩ hvalid
  · next hne => exact hattr hne

/-- The size of the whole covers what was laid out, and is a multiple of the alignment where that counts. -/
theorem totalSize {bits : ℕ} {alignment : ℕ} (h : IsAlignment alignment)
    (hround : roundUp bits (alignment * bitsInChar) < 2 ^ 31) (alignSize : Bool) :
    (bits : ℤ) ≤ toInt ((if alignSize = true then alignBits bits (alignBitMask alignment) else bits : ℕ) : ℤ) ∧
      (alignSize = true →
        ((alignment * bitsInChar : ℕ) : ℤ) ∣
          toInt ((if alignSize = true then alignBits bits (alignBitMask alignment) else bits : ℕ) : ℤ)) := by
  have hle : bits ≤ roundUp bits (alignment * bitsInChar) := le_roundUp h.pos
  have hbits : bits < 2 ^ 31 := Nat.lt_of_le_of_lt hle hround
  rw [(h.mask hbits).2]
  cases alignSize with
  | false =>
    rw [if_neg (by decide), toInt_eq (by omega) (by omega)]
    exact ⟨Int.le_refl _, fun hf => absurd hf (by decide)⟩
  | true =>
    rw [if_pos rfl, toInt_eq (by omega) (by omega)]
    exact ⟨Int.ofNat_le.2 hle, fun _ => Int.natCast_dvd_natCast.2 dvd_roundUp⟩

theorem examineStruct_sound {alignment : ℕ} (hattr : alignment ≠ 0 → IsAlignment alignment)
    (hvalid : ∀ sym ∈ members, sym.Valid) (hbits : structBits alignment members < 2 ^ 31) :
    StructSound members (examineStructUnionType alignment members true) := by
  have halign := isAlignment_total hattr hvalid
  have hadv : ∀ sym ∈ members, structRule.Advances sym := fun sym hmem => structRule_advances (hvalid sym hmem)
  have hfinal : structRule.final 0 members < 2 ^ 31 := Nat.lt_of_le_of_lt (le_roundUp halign.pos) hbits
  obtain ⟨hmap, hfits, hend, hmax, hsized⟩ := layOut_struct hvalid hfinal 1 true
  rw [examineStructUnionType_eq, if_pos rfl]
  generalize layOut layOutStruct ⟨1, 0, true⟩ members = r at hmap hfits hend hmax hsized ⊢
  dsimp only
  have halignment : (if alignment = 0 then r.2.maxAlign else alignment) = totalAlignment alignment members := by
    rw [hmax, totalAlignment]
  obtain ⟨hcovers, htotal⟩ := totalSize halign hbits r.2.alignSize
  rw [halignment, hend]
  have hpairwise : ∀ bound : Member → ℕ → ℕ, (∀ sym ∈ members, ∀ p, bound sym (structRule.start p sym) ≤
      structRule.next p sym) → r.1.Pairwise fun x y => bound x.1 (startBit x.2) ≤ startBit y.2 := by
    intro bound hbound
    have hplaces := Rule.places_pairwise (p := 0) bound hadv hbound
    rw [← hmap, List.pairwise_map] at hplaces
    exact hplaces
  have hplace : ∀ x ∈ r.1, (x.1, startBit x.2) ∈ structRule.places 0 members := by
    intro x hx
    rw [← hmap]
    exact List.mem_map_of_mem hx
  have hmembers : r.1.map Prod.fst = members := by
    rw [← Rule.map_fst_places (r := structRule) 0 members, ← hmap, List.map_map]
    rfl
  have hmem : ∀ x ∈ r.1, x.1 ∈ members := by
    intro x hx
    rw [← hmembers]
    exact List.mem_map_of_mem hx
  have hapart : r.1.Pairwise fun x y => stopBit x ≤ startBit y.2 :=
    hpairwise (fun sym start => start + sym.size) fun sym hsym p => (structRule_bounds (hvalid sym hsym) p).2.1
  refine ⟨hmembers, fun x hx => (hfits x hx).aligned, hapart, ?_, fun x hx => (hfits x hx).unit, ?_, ?_, ?_⟩
  · refine hapart.imp_of_mem fun {x y} hx hy hle hne hwhole => ?_
    cases hfield : x.1.isBitfield with
    | true =>
      have hy' : y.1.isBitfield = false := by
        rw [hfield] at hne
        simpa using hne.symm
      obtain ⟨byte, hbyte⟩ := Rule.of_mem_places (P := fun sym start => sym.isBitfield = false → bitsInChar ∣ start)
        (fun sym _ p hsym => bitsInChar_dvd_start hsym p) (hplace y hy) hy'
      rw [Nat.mul_comm] at hbyte
      exact ⟨byte, hbyte ▸ hle, Nat.le_of_eq hbyte.symm⟩
    | false =>
      have hstart := Rule.of_mem_places (P := fun sym start => sym.isBitfield = false → bitsInChar ∣ start)
        (fun sym _ p hsym => bitsInChar_dvd_start hsym p) (hplace x hx) hfield
      obtain ⟨byte, hbyte⟩ := Nat.dvd_add hstart (hwhole hfield)
      rw [Nat.mul_comm] at hbyte
      exact ⟨byte, Nat.le_of_eq hbyte, hbyte ▸ hle⟩
  · refine (hpairwise (fun sym start => if sym.isBitfield = true ∧ sym.size = 0 then roundUp start sym.align else start)
      fun sym hsym p => ?_).imp fun {x y} hle hfield hzero => ?_
    · obtain ⟨-, hstop, hcloses⟩ := structRule_bounds (hvalid sym hsym) p
      split
      · next hcase => exact hcloses hcase.1 hcase.2
      · exact Nat.le_trans (Nat.le_add_right _ _) hstop
    · rwa [if_pos ⟨hfield, hzero⟩] at hle
  · intro x hx
    have hle := Rule.bound_le_final (fun sym start => start + sym.size) hadv
      (fun sym hsym p => (structRule_bounds (hvalid sym hsym) p).2.1) (hplace x hx)
    dsimp only
    exact Int.le_trans (Int.ofNat_le.2 hle) hcovers
  · intro hall
    dsimp only
    exact htotal (hsized rfl hall)

/-- The loop over the members of a union. -/
theorem layOut_union (hvalid : ∀ sym ∈ members, sym.Valid) (hsized : Sized members) (maxAlign bits : ℕ)
    (alignSize : Bool) :
    (layOut layOutUnion ⟨maxAlign, bits, alignSize⟩ members).1 = members.map (fun sym => (sym, ⟨0, 0⟩)) ∧
      (layOut layOutUnion ⟨maxAlign, bits, alignSize⟩ members).2 =
        ⟨members.foldl raiseAlign maxAlign, members.foldl (fun bits sym => max bits sym.size) bits, alignSize⟩ := by
  induction members generalizing maxAlign bits with
  | nil => exact ⟨rfl, rfl⟩
  | cons sym members ih =>
    have hsize := hsized sym List.mem_cons_self
    have hlt := (hvalid sym List.mem_cons_self).size
    have hulong : toUlong sym.bitSize = sym.size := toUlong_eq hsize (by omega)
    have hmax : (if sym.size > bits then sym.size else bits) = max bits sym.size := by
      rw [Nat.max_def]
      split
      · next h => rw [if_pos (Nat.le_of_lt h)]
      · next h =>
        split
        · next hle => exact Nat.le_antisymm hle (Nat.le_of_not_lt h)
        · rfl
    obtain ⟨hplaces, hinfo⟩ := ih (fun sym' hmem => hvalid sym' (List.mem_cons_of_mem _ hmem))
      (fun sym' hmem => hsized sym' (List.mem_cons_of_mem _ hmem)) (raiseAlign maxAlign sym) (max bits sym.size)
    rw [layOut_cons, layOutUnion]
    dsimp only
    rw [hulong, hmax, hplaces, hinfo]
    exact ⟨rfl, rfl⟩

theorem le_foldl_max (members : List Member) (bits : ℕ) :
    bits ≤ members.foldl (fun bits sym => max bits sym.size) bits ∧
      ∀ sym ∈ members, sym.size ≤ members.foldl (fun bits sym => max bits sym.size) bits := by
  induction members generalizing bits with
  | nil => exact ⟨Nat.le_refl bits, by simp⟩
  | cons sym members ih =>
    obtain ⟨hle, hall⟩ := ih (max bits sym.size)
    refine ⟨Nat.le_trans (Nat.le_max_left _ _) hle, fun sym' hmem => ?_⟩
    rcases List.mem_cons.1 hmem with rfl | hmem
    · exact Nat.le_trans (Nat.le_max_right _ _) hle
    · exact hall sym' hmem

theorem examineUnion_sound {alignment : ℕ} (hattr : alignment ≠ 0 → IsAlignment alignment)
    (hvalid : ∀ sym ∈ members, sym.Valid) (hsized : Sized members)
    (hbits : unionBits alignment members < 2 ^ 31) :
    UnionSound members (examineStructUnionType alignment members false) := by
  have halign := isAlignment_total hattr hvalid
  obtain ⟨hplaces, hinfo⟩ := layOut_union hvalid hsized 1 0 true
  obtain ⟨hcovers, htotal⟩ := totalSize halign hbits true
  rw [examineStructUnionType_eq, if_neg (by decide)]
  generalize layOut layOutUnion ⟨1, 0, true⟩ members = r at hplaces hinfo ⊢
  have halignment : (if alignment = 0 then r.2.maxAlign else alignment) = totalAlignment alignment members := by
    rw [hinfo, totalAlignment]
  dsimp only
  rw [halignment, hinfo, hplaces]
  refine ⟨?_, fun x hx => ?_, fun x hx => ?_, ?_⟩
  · rw [List.map_map]
    exact List.map_id members
  · obtain ⟨sym, -, rfl⟩ := List.mem_map.1 hx
    rfl
  · obtain ⟨sym, hmem, rfl⟩ := List.mem_map.1 hx
    have hle := (le_foldl_max members 0).2 sym hmem
    have hsize : sym.bitSize = sym.size := (Int.toNat_of_nonneg (hsized sym hmem)).symm
    dsimp only
    rw [hsize]
    exact Int.le_trans (Int.ofNat_le.2 hle) hcovers
  · dsimp only
    exact htotal rfl

/-- `examine_struct_union_type` lays out soundly what an `int` can count the bits of. -/
theorem examineStructUnionType_sound {alignment : ℕ} (hattr : alignment ≠ 0 → IsAlignment alignment)
    (hvalid : ∀ sym ∈ members, sym.Valid) :
    (structBits alignment members < 2 ^ 31 →
        StructSound members (examineStructUnionType alignment members true)) ∧
      (Sized members → unionBits alignment members < 2 ^ 31 →
        UnionSound members (examineStructUnionType alignment members false)) :=
  ⟨examineStruct_sound hattr hvalid, examineUnion_sound hattr hvalid⟩

-- A field of no width moves the position back where its base type ends before the position, as in
-- `int x:5; _Bool :0; int y:3;`, and the size of an unsized array is compared as an unsigned one in
-- `union { int x; char a[]; }`.
example : (examineStructUnionType 0 [⟨true, 5, 4, some 32⟩, ⟨false, 0, 1, some 1⟩, ⟨true, 3, 4, some 32⟩] true).members.map
    Prod.snd = [⟨0, 0⟩, ⟨0, 5⟩, ⟨0, 1⟩] := by decide

example : (examineStructUnionType 0 [⟨true, 32, 4, none⟩, ⟨true, -1, 1, none⟩] false).bitSize = 0 := by decide

/-- `char c; int x:5; int :0; int y:3; int a[];` -/
theorem examineStructUnionType_fields :
    StructSound
      [⟨true, 8, 1, none⟩, ⟨true, 5, 4, some 32⟩, ⟨false, 0, 4, some 32⟩, ⟨true, 3, 4, some 32⟩,
        ⟨true, -1, 4, none⟩]
      ⟨[(⟨true, 8, 1, none⟩, ⟨0, 0⟩), (⟨true, 5, 4, some 32⟩, ⟨0, 8⟩), (⟨false, 0, 4, some 32⟩, ⟨0, 13⟩),
          (⟨true, 3, 4, some 32⟩, ⟨4, 0⟩), (⟨true, -1, 4, none⟩, ⟨8, 0⟩)], 4, 64⟩ := by
  have hvalid : ∀ sym ∈ [(⟨true, 8, 1, none⟩ : Member), ⟨true, 5, 4, some 32⟩, ⟨false, 0, 4, some 32⟩,
      ⟨true, 3, 4, some 32⟩, ⟨true, -1, 4, none⟩], sym.Valid := by
    intro sym hsym
    simp only [List.mem_cons, List.not_mem_nil, or_false] at hsym
    rcases hsym with rfl | rfl | rfl | rfl | rfl
    · exact ⟨⟨0, by decide, rfl⟩, by decide, nofun⟩
    · exact ⟨⟨2, by decide, rfl⟩, by decide, fun base hbase => Option.some.inj hbase ▸ by decide⟩
    · exact ⟨⟨2, by decide, rfl⟩, by decide, fun base hbase => Option.some.inj hbase ▸ by decide⟩
    · exact ⟨⟨2, by decide, rfl⟩, by decide, fun base hbase => Option.some.inj hbase ▸ by decide⟩
    · exact ⟨⟨2, by decide, rfl⟩, by decide, nofun⟩
  exact (examineStructUnionType_sound (fun h => absurd rfl h) hvalid).1 (by decide)

/-- After an unsized array a struct of `int a[]; char c;` has a size that is no multiple of its
alignment, and in `_Bool b; int x:3;` the bit-field starts in the byte of the other member. -/
theorem examineStructUnionType_unsized :
    examineStructUnionType 0 [⟨true, -1, 4, none⟩, ⟨true, 8, 1, none⟩] true =
        ⟨[(⟨true, -1, 4, none⟩, ⟨0, 0⟩), (⟨true, 8, 1, none⟩, ⟨0, 0⟩)], 4, 8⟩ ∧
      examineStructUnionType 0 [⟨true, 1, 1, none⟩, ⟨true, 3, 4, some 32⟩] true =
        ⟨[(⟨true, 1, 1, none⟩, ⟨0, 0⟩), (⟨true, 3, 4, some 32⟩, ⟨0, 1⟩)], 4, 32⟩ := by
  decide

end Sparse.StructLayout
