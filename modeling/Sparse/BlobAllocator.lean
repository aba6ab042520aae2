import Mathlib.Algebra.Group.Nat.Defs
import Mathlib.Data.List.Basic
import Mathlib.Data.List.Pairwise
import Mathlib.Logic.Function.Basic
import Mathlib.Logic.Relation
import Mathlib.Tactic.Common

/-!
# The blob allocator

`allocate` gives out pieces of large blobs, and pieces that were given back before them. Pieces that are
in use never overlap and stay behind the headers of their blobs, and what is given out is zero.
-/

namespace Sparse

namespace BlobAllocator

/-- The words of the memory, by their numbers. -/
abbrev Memory := ℕ → ℕ

/-- `sizeof(void *)`. -/
def wordSize : ℕ := 8

/-- `offsetof(struct allocation_blob, data)`. -/
def dataOffset : ℕ := 16

/-- `struct allocation_blob`, with the address it lies at. The rest of a list of blobs is `next`. -/
structure AllocationBlob where
  addr : ℕ
  left : ℕ
  offset : ℕ
  deriving DecidableEq, Repr

/-- `struct allocator_struct`, without the name. -/
structure AllocatorStruct where
  blobs : List AllocationBlob := []
  alignment : ℕ
  chunking : ℕ
  freelist : ℕ := 0
  allocations : ℕ := 0
  totalBytes : ℕ := 0
  usefulBytes : ℕ := 0
  deriving DecidableEq, Repr

/-- `(size + alignment - 1) & ~(alignment-1)`, which is `unsigned long`, in an `unsigned int`. -/
def alignUp (size alignment : ℕ) : ℕ :=
  ((size + alignment - 1) % 2 ^ 64 &&& (2 ^ 64 - 1 - (alignment - 1))) % 2 ^ 32

/-- `protect_allocations`. -/
def protectAllocations (desc : AllocatorStruct) : AllocatorStruct := { desc with blobs := [] }

/-- `drop_all_allocations`. The blobs of the list are unmapped. -/
def dropAllAllocations (desc : AllocatorStruct) : AllocatorStruct :=
  { desc with blobs := [], allocations := 0, totalBytes := 0, usefulBytes := 0, freelist := 0 }

/-- `free_one_entry`. -/
def freeOneEntry (desc : AllocatorStruct) (mem : Memory) (entry : ℕ) : AllocatorStruct × Memory :=
  ({ desc with freelist := entry }, Function.update mem (entry / wordSize) desc.freelist)

/-- The loop over the words of an entry of the free list. The size is unsigned: unless it is a multiple of
the size of a word it never becomes zero. -/
def clearWords : ℕ → ℕ → ℕ → Memory → Option Memory
  | 0, _, _, _ => none
  | fuel + 1, p, size, mem =>
    let mem := Function.update mem (p / wordSize) 0
    let size := (size + 2 ^ 32 - wordSize) % 2 ^ 32
    if 0 < size then clearWords fuel (p + wordSize) size mem else some mem

/-- After so many words an `unsigned int` has taken every value that the loop can give it. -/
def maxWords : ℕ := 2 ^ 29

/-- A new blob at the front, at the address that `blob_alloc` returned. A null pointer ends the program. -/
def addBlob (desc : AllocatorStruct) (newblob : ℕ) : Option AllocatorStruct :=
  if newblob = 0 then none
  else
    let offset := alignUp dataOffset desc.alignment
    some { desc with
      totalBytes := (desc.totalBytes + desc.chunking) % 2 ^ 32
      blobs := ⟨newblob, (desc.chunking + 2 ^ 32 - offset) % 2 ^ 32, offset - dataOffset⟩ :: desc.blobs }

/-- The first blob has room for `size`. -/
def withRoom (desc : AllocatorStruct) (newblob size : ℕ) : Option AllocatorStruct :=
  match desc.blobs with
  | [] => addBlob desc newblob
  | blob :: _ => if blob.left < size then addBlob desc newblob else some desc

/-- `allocate`: the allocator, the memory and the address that is returned. -/
def allocate (desc : AllocatorStruct) (mem : Memory) (newblob size : ℕ) :
    Option (AllocatorStruct × Memory × ℕ) :=
  if desc.freelist ≠ 0 then
    (clearWords maxWords desc.freelist size mem).map fun mem' =>
      ({ desc with freelist := mem (desc.freelist / wordSize) }, mem', desc.freelist)
  else
    let desc := { desc with
      allocations := (desc.allocations + 1) % 2 ^ 32
      usefulBytes := (desc.usefulBytes + size) % 2 ^ 32 }
    let size := alignUp size desc.alignment
    (withRoom desc newblob size).bind fun desc =>
      match desc.blobs with
      | [] => none
      | blob :: blobs => some
        ({ desc with
            blobs := { blob with
              offset := (blob.offset + size) % 2 ^ 32
              left := (blob.left + 2 ^ 32 - size) % 2 ^ 32 } :: blobs },
          mem, blob.addr + dataOffset + blob.offset)

/-! ## Rounding and clearing -/

section

variable {n a k size p w fuel : ℕ} {mem mem' : Memory}

/-- To leave out the low bits is to round down to a power of two. -/
theorem and_highBits (hk : k ≤ 64) (hn : n < 2 ^ 64) : n &&& (2 ^ 64 - 1 - (2 ^ k - 1)) = n / 2 ^ k * 2 ^ k := by
  have hmask : 2 ^ 64 - 1 - (2 ^ k - 1) = (2 ^ (64 - k) - 1) * 2 ^ k := by
    have hpow : 2 ^ 64 = 2 ^ (64 - k) * 2 ^ k := by rw [← Nat.pow_add, Nat.sub_add_cancel hk]
    have hpos := Nat.two_pow_pos k
    rw [Nat.sub_mul, Nat.one_mul, ← hpow]
    omega
  refine Nat.eq_of_testBit_eq fun i => ?_
  rw [hmask, Nat.testBit_and, Nat.testBit_mul_two_pow, Nat.testBit_mul_two_pow, Nat.testBit_two_pow_sub_one,
    Nat.testBit_div_two_pow]
  by_cases hi : k ≤ i
  · rw [Nat.sub_add_cancel hi]
    by_cases hlt : i < 64
    · have hlow : i - k < 64 - k := by omega
      simp [hi, hlow]
    · have hle : 2 ^ 64 ≤ 2 ^ i := Nat.pow_le_pow_right (by decide) (Nat.le_of_not_lt hlt)
      simp [Nat.testBit_lt_two_pow (Nat.lt_of_lt_of_le hn hle)]
  · simp [hi]

/-- `alignUp` rounds up, if nothing wraps around. -/
theorem alignUp_eq (hn : 0 < n) (hlt : (n + 2 ^ k - 1) / 2 ^ k * 2 ^ k < 2 ^ 32) :
    alignUp n (2 ^ k) = (n + 2 ^ k - 1) / 2 ^ k * 2 ^ k := by
  have hpos := Nat.two_pow_pos k
  have hdiv := Nat.div_add_mod (n + 2 ^ k - 1) (2 ^ k)
  have hmod := Nat.mod_lt (n + 2 ^ k - 1) hpos
  rw [Nat.mul_comm] at hdiv
  have hpow : 2 ^ k < 2 ^ 32 := by
    have hquot : 1 ≤ (n + 2 ^ k - 1) / 2 ^ k := Nat.div_pos (by omega) hpos
    exact Nat.lt_of_le_of_lt (Nat.le_mul_of_pos_left _ hquot) hlt
  have hk : k < 32 := (Nat.pow_lt_pow_iff_right (by decide)).1 hpow
  have hsum : n + 2 ^ k - 1 < 2 ^ 64 := by omega
  unfold alignUp
  rw [Nat.mod_eq_of_lt hsum, and_highBits (by omega) hsum, Nat.mod_eq_of_lt hlt]

theorem le_alignUp (ha : 0 < a) : n ≤ (n + a - 1) / a * a := by
  have hdiv := Nat.div_add_mod (n + a - 1) a
  have hmod := Nat.mod_lt (n + a - 1) ha
  rw [Nat.mul_comm] at hdiv
  omega

/-- The loop clears the words of the entry and no others. -/
theorem clearWords_eq (k : ℕ) (hp : wordSize ∣ p) (hk : 0 < k) (hfuel : k ≤ fuel) (hsize : k * wordSize < 2 ^ 32) :
    clearWords fuel p (k * wordSize) mem =
      some fun w => if p ≤ w * wordSize ∧ w * wordSize < p + k * wordSize then 0 else mem w := by
  induction k generalizing p mem fuel with
  | zero => exact absurd hk (Nat.lt_irrefl 0)
  | succ k ih =>
    obtain ⟨fuel, rfl⟩ : ∃ f, fuel = f + 1 := ⟨fuel - 1, by omega⟩
    have hword : p / wordSize * wordSize = p := Nat.div_mul_cancel hp
    have hnext : ((k + 1) * wordSize + 2 ^ 32 - wordSize) % 2 ^ 32 = k * wordSize := by
      unfold wordSize at *
      omega
    rw [clearWords]
    simp only [hnext]
    by_cases hk0 : k = 0
    · subst hk0
      rw [if_neg (by simp)]
      refine congrArg some (funext fun w => ?_)
      by_cases hw : w = p / wordSize
      · subst hw
        rw [Function.update_self, if_pos]
        unfold wordSize at *
        omega
      · rw [Function.update_of_ne hw, if_neg]
        unfold wordSize at *
        omega
    · rw [if_pos (by unfold wordSize; omega), ih ((Nat.dvd_add_right hp).2 (Nat.dvd_refl _)) (by omega) (by omega)
        (by unfold wordSize at *; omega)]
      refine congrArg some (funext fun w => ?_)
      by_cases hw : w = p / wordSize
      · subst hw
        rw [if_neg (by unfold wordSize at *; omega), Function.update_self, if_pos]
        unfold wordSize at *
        omega
      · rw [Function.update_of_ne hw]
        refine if_congr ?_ rfl rfl
        unfold wordSize at *
        omega

end

/-! ## The allocator at work -/

/-- An allocator whose objects can be given back, as the note in `allocate` has it: they have one size, which
is a multiple of the size of a word as the alignment is, and one fits into a blob. -/
structure Layout where
  alignment : ℕ
  chunking : ℕ
  size : ℕ
  alignment_pow : ∃ k, alignment = 2 ^ k
  wordSize_dvd_alignment : wordSize ∣ alignment
  size_pos : 0 < size
  wordSize_dvd_size : wordSize ∣ size
  fits : (dataOffset + alignment - 1) / alignment * alignment +
    (size + alignment - 1) / alignment * alignment ≤ chunking
  chunking_lt : chunking < 2 ^ 32

/-- Two regions of one size do not overlap. -/
def Apart (size p q : ℕ) : Prop := p + size ≤ q ∨ q + size ≤ p

theorem Apart.symm {size p q : ℕ} (h : Apart size p q) : Apart size q p := Or.symm h

instance (size : ℕ) : Std.Symm (Apart size) := ⟨fun _ _ => Apart.symm⟩

/-- The word lies in the object. -/
def Holds (size p w : ℕ) : Prop := p ≤ w * wordSize ∧ w * wordSize < p + size

/-- The allocator with the memory, the blobs that are mapped, the objects in use and those given back. -/
structure Heap where
  desc : AllocatorStruct
  mem : Memory
  mapped : List ℕ
  live : List ℕ
  freed : List ℕ

/-- What `blob_alloc` may return: fresh memory, aligned to a page, which is zero. -/
structure Fresh (c : Layout) (h : Heap) (newblob : ℕ) : Prop where
  pos : 0 < newblob
  aligned : c.alignment ∣ newblob
  apart : ∀ m ∈ h.mapped, Apart c.chunking newblob m
  zero : ∀ w, Holds c.chunking newblob w → h.mem w = 0

/-- A blob of the list was unmapped, and the object with it. -/
def Dropped (c : Layout) (desc : AllocatorStruct) (p : ℕ) : Prop :=
  ∃ b ∈ desc.blobs, b.addr ≤ p ∧ p < b.addr + c.chunking

instance (c : Layout) (desc : AllocatorStruct) (p : ℕ) : Decidable (Dropped c desc p) := by
  unfold Dropped
  infer_instance

/-- The steps of a program that uses the allocator. It writes to the objects in use only, and gives back
only those. What is not mapped may change at any time: a blob that is mapped there is zero again. -/
inductive Step (c : Layout) (h : Heap) : Heap → Prop
  | allocate {newblob desc mem p} (hfresh : Fresh c h newblob)
      (halloc : allocate h.desc h.mem newblob c.size = some (desc, mem, p)) :
      Step c h ⟨desc, mem, if h.desc.blobs.length < desc.blobs.length then newblob :: h.mapped else h.mapped,
        p :: h.live, h.freed.erase p⟩
  | free {p} (hp : p ∈ h.live) :
      Step c h { h with
        desc := (freeOneEntry h.desc h.mem p).1
        mem := (freeOneEntry h.desc h.mem p).2
        live := h.live.erase p
        freed := p :: h.freed }
  | write {p w v} (hp : p ∈ h.live) (hw : Holds c.size p w) :
      Step c h { h with mem := Function.update h.mem w v }
  | elsewhere {mem} (hmem : ∀ m ∈ h.mapped, ∀ w, Holds c.chunking m w → mem w = h.mem w) :
      Step c h { h with mem := mem }
  | protect : Step c h { h with desc := protectAllocations h.desc }
  | drop : Step c h { h with
      desc := dropAllAllocations h.desc
      mapped := h.mapped.filter fun m => ∀ b ∈ h.desc.blobs, b.addr ≠ m
      live := h.live.filter fun p => ¬ Dropped c h.desc p
      freed := [] }

/-- Nothing is allocated yet. -/
def Layout.start (c : Layout) (mem : Memory) : Heap :=
  ⟨{ alignment := c.alignment, chunking := c.chunking }, mem, [], [], []⟩

/-- The free list goes through the first words of the objects that were given back. -/
inductive Linked (mem : Memory) : ℕ → List ℕ → Prop
  | nil : Linked mem 0 []
  | cons {p l} (hp : p ≠ 0) (h : Linked mem (mem (p / wordSize)) l) : Linked mem p (p :: l)

/-- The blob that objects are taken from. What was not given out of it is zero, and no object lies there. -/
structure Open (c : Layout) (mem : Memory) (objects : List ℕ) (b : AllocationBlob) : Prop where
  aligned : c.alignment ∣ b.addr + dataOffset + b.offset
  full : dataOffset + b.offset + b.left = c.chunking
  zero : ∀ w, b.addr + dataOffset + b.offset ≤ w * wordSize → w * wordSize < b.addr + c.chunking → mem w = 0
  below : ∀ p ∈ objects, p + c.size ≤ b.addr + dataOffset + b.offset ∨ b.addr + c.chunking ≤ p

/-- The objects lie apart, behind the headers of their blobs, and the free list is in order. -/
structure Sound (c : Layout) (h : Heap) : Prop where
  alignment : h.desc.alignment = c.alignment
  chunking : h.desc.chunking = c.chunking
  mapped : h.mapped.Pairwise (Apart c.chunking)
  blobs : ∀ b ∈ h.desc.blobs, b.addr ∈ h.mapped
  first : ∀ b blobs, h.desc.blobs = b :: blobs → Open c h.mem (h.live ++ h.freed) b
  inside : ∀ p ∈ h.live ++ h.freed, c.alignment ∣ p ∧
    ∃ m ∈ h.mapped, m + dataOffset ≤ p ∧ p + c.size ≤ m + c.chunking
  apart : (h.live ++ h.freed).Pairwise (Apart c.size)
  links : Linked h.mem h.desc.freelist h.freed

namespace Linked

variable {mem mem' : Memory} {p : ℕ} {l : List ℕ}

theorem congr (h : Linked mem p l) (hmem : ∀ q ∈ l, mem' (q / wordSize) = mem (q / wordSize)) : Linked mem' p l := by
  induction h with
  | nil => exact .nil
  | @cons p l hp _ ih =>
    refine .cons hp ?_
    rw [hmem p List.mem_cons_self]
    exact ih fun q hq => hmem q (List.mem_cons_of_mem p hq)

theorem nil_of_zero (h : Linked mem 0 l) : l = [] := by
  generalize hz : 0 = z at h
  cases h with
  | nil => rfl
  | cons hp => exact absurd hz.symm hp

theorem exists_cons (h : Linked mem p l) (hp : p ≠ 0) :
    ∃ l', l = p :: l' ∧ Linked mem (mem (p / wordSize)) l' := by
  cases h with
  | nil => exact absurd rfl hp
  | cons _ h => exact ⟨_, rfl, h⟩

end Linked

variable {c : Layout} {h h' : Heap} {p q w newblob : ℕ} {mem : Memory} {desc : AllocatorStruct}

namespace Layout

theorem alignment_pos (c : Layout) : 0 < c.alignment := by
  obtain ⟨k, hk⟩ := c.alignment_pow
  rw [hk]
  exact Nat.two_pow_pos k

theorem alignUp_size (c : Layout) :
    alignUp c.size c.alignment = (c.size + c.alignment - 1) / c.alignment * c.alignment := by
  have hfits := c.fits
  have hlt := c.chunking_lt
  obtain ⟨k, hk⟩ := c.alignment_pow
  rw [hk] at hfits ⊢
  exact alignUp_eq c.size_pos (by omega)

theorem alignUp_dataOffset (c : Layout) :
    alignUp dataOffset c.alignment = (dataOffset + c.alignment - 1) / c.alignment * c.alignment := by
  have hfits := c.fits
  have hlt := c.chunking_lt
  obtain ⟨k, hk⟩ := c.alignment_pow
  rw [hk] at hfits ⊢
  exact alignUp_eq (by decide) (by omega)

theorem size_le (c : Layout) : c.size ≤ alignUp c.size c.alignment := by
  rw [c.alignUp_size]
  exact le_alignUp c.alignment_pos

theorem dataOffset_le (c : Layout) : dataOffset ≤ alignUp dataOffset c.alignment := by
  rw [c.alignUp_dataOffset]
  exact le_alignUp c.alignment_pos

theorem alignUp_le (c : Layout) : alignUp dataOffset c.alignment + alignUp c.size c.alignment ≤ c.chunking := by
  rw [c.alignUp_size, c.alignUp_dataOffset]
  exact c.fits

theorem dvd_alignUp_size (c : Layout) : c.alignment ∣ alignUp c.size c.alignment := by
  rw [c.alignUp_size]
  exact Nat.dvd_mul_left _ _

theorem dvd_alignUp_dataOffset (c : Layout) : c.alignment ∣ alignUp dataOffset c.alignment := by
  rw [c.alignUp_dataOffset]
  exact Nat.dvd_mul_left _ _

end Layout

/-- An object holds its first word. -/
theorem holds_first (c : Layout) (hp : wordSize ∣ p) : Holds c.size p (p / wordSize) := by
  have hpos := c.size_pos
  have hword := Nat.div_mul_cancel hp
  unfold Holds
  omega

/-- Objects that lie apart share no words. -/
theorem Apart.not_holds {size : ℕ} (h : Apart size p q) (hp : Holds size p w) : ¬ Holds size q w := by
  unfold Apart Holds at *
  omega

namespace Sound

variable (hs : Sound c h)
include hs

theorem wordSize_dvd (hp : p ∈ h.live ++ h.freed) : wordSize ∣ p :=
  Nat.dvd_trans c.wordSize_dvd_alignment (hs.inside p hp).1

theorem pos (hp : p ∈ h.live ++ h.freed) : p ≠ 0 := by
  obtain ⟨-, m, -, hm, -⟩ := hs.inside p hp
  unfold dataOffset at hm
  omega

/-- Different objects lie apart. -/
theorem apart_of_ne (hp : p ∈ h.live ++ h.freed) (hq : q ∈ h.live ++ h.freed) (hne : p ≠ q) : Apart c.size p q :=
  hs.apart.forall hp hq hne

theorem not_mem_freed (hp : p ∈ h.live) : p ∉ h.freed := by
  intro hq
  have hself := (List.pairwise_append.1 hs.apart).2.2 p hp p hq
  have hpos := c.size_pos
  unfold Apart at hself
  omega

theorem nodup : (h.live ++ h.freed).Nodup := by
  refine hs.apart.imp fun {a b} hab => ?_
  have hpos := c.size_pos
  unfold Apart at hab
  omega

/-- The words of an object are no words that were not given out. -/
theorem first_of_mem {mem : Memory} (hp : p ∈ h.live ++ h.freed) (hmem : ∀ w, ¬ Holds c.size p w → mem w = h.mem w) :
    ∀ b blobs, h.desc.blobs = b :: blobs → Open c mem (h.live ++ h.freed) b := by
  intro b blobs hb
  obtain ⟨haligned, hfull, hzero, hbelow⟩ := hs.first b blobs hb
  refine ⟨haligned, hfull, fun w hw hlt => ?_, hbelow⟩
  rw [hmem w fun hholds => ?_]
  · exact hzero w hw hlt
  · have hpb := hbelow p hp
    unfold Holds at hholds
    omega

/-- An object in use holds no links. -/
theorem links_of_mem {mem : Memory} (hp : p ∈ h.live) (hmem : ∀ w, ¬ Holds c.size p w → mem w = h.mem w) :
    Linked mem h.desc.freelist h.freed := by
  refine hs.links.congr fun q hq => hmem _ fun hholds => ?_
  have hmemq : q ∈ h.live ++ h.freed := List.mem_append_right _ hq
  have hne : q ≠ p := by
    rintro rfl
    exact hs.not_mem_freed hp hq
  have hapart := hs.apart_of_ne hmemq (List.mem_append_left _ hp) hne
  exact hapart.not_holds (holds_first c (hs.wordSize_dvd hmemq)) hholds

theorem free (hp : p ∈ h.live) : Sound c { h with
    desc := (freeOneEntry h.desc h.mem p).1
    mem := (freeOneEntry h.desc h.mem p).2
    live := h.live.erase p
    freed := p :: h.freed } := by
  have hmemp : p ∈ h.live ++ h.freed := List.mem_append_left _ hp
  have hperm : (h.live.erase p ++ p :: h.freed).Perm (h.live ++ h.freed) := by
    have hperm := (List.perm_cons_erase hp).symm.append_right h.freed
    exact List.perm_middle.trans hperm
  have hword := holds_first c (hs.wordSize_dvd hmemp)
  have hmem : ∀ w, ¬ Holds c.size p w → (freeOneEntry h.desc h.mem p).2 w = h.mem w := by
    intro w hw
    refine Function.update_of_ne ?_ _ _
    rintro rfl
    exact hw hword
  refine ⟨hs.alignment, hs.chunking, hs.mapped, hs.blobs, fun b blobs hb => ?_, fun q hq => ?_, ?_, ?_⟩
  · obtain ⟨haligned, hfull, hzero, hbelow⟩ := hs.first_of_mem hmemp hmem b blobs hb
    exact ⟨haligned, hfull, hzero, fun q hq => hbelow q (hperm.mem_iff.1 hq)⟩
  · exact hs.inside q (hperm.mem_iff.1 hq)
  · exact (hperm.pairwise_iff fun hxy => hxy.symm).2 hs.apart
  · refine .cons (hs.pos hmemp) ?_
    have hlink : (freeOneEntry h.desc h.mem p).2 (p / wordSize) = h.desc.freelist := Function.update_self ..
    change Linked _ ((freeOneEntry h.desc h.mem p).2 (p / wordSize)) h.freed
    rw [hlink]
    exact hs.links_of_mem hp hmem

theorem write {v : ℕ} (hp : p ∈ h.live) (hw : Holds c.size p w) :
    Sound c { h with mem := Function.update h.mem w v } := by
  have hmem : ∀ w', ¬ Holds c.size p w' → Function.update h.mem w v w' = h.mem w' := by
    intro w' hw'
    refine Function.update_of_ne ?_ _ _
    rintro rfl
    exact hw' hw
  exact ⟨hs.alignment, hs.chunking, hs.mapped, hs.blobs, hs.first_of_mem (List.mem_append_left _ hp) hmem, hs.inside,
    hs.apart, hs.links_of_mem hp hmem⟩

/-- What is outside the blobs does not matter. -/
theorem elsewhere {mem : Memory} (hmem : ∀ m ∈ h.mapped, ∀ w, Holds c.chunking m w → mem w = h.mem w) :
    Sound c { h with mem := mem } := by
  refine ⟨hs.alignment, hs.chunking, hs.mapped, hs.blobs, fun b blobs hb => ?_, hs.inside, hs.apart, ?_⟩
  · obtain ⟨haligned, hfull, hzero, hbelow⟩ := hs.first b blobs hb
    refine ⟨haligned, hfull, fun w hw hlt => ?_, hbelow⟩
    have hin : Holds c.chunking b.addr w := ⟨by omega, hlt⟩
    dsimp only
    rw [hmem b.addr (hs.blobs b (hb ▸ List.mem_cons_self)) w hin]
    exact hzero w hw hlt
  · refine hs.links.congr fun q hq => ?_
    have hmemq : q ∈ h.live ++ h.freed := List.mem_append_right _ hq
    obtain ⟨-, m, hm, hlow, hhigh⟩ := hs.inside q hmemq
    have hfirst := holds_first c (hs.wordSize_dvd hmemq)
    refine hmem m hm _ ?_
    unfold Holds at *
    omega

theorem protect : Sound c { h with desc := protectAllocations h.desc } where
  alignment := hs.alignment
  chunking := hs.chunking
  mapped := hs.mapped
  blobs b hb := absurd hb List.not_mem_nil
  first b blobs hb := by cases hb
  inside := hs.inside
  apart := hs.apart
  links := hs.links

/-- What is left lies in blobs that are left. -/
theorem drop : Sound c { h with
    desc := dropAllAllocations h.desc
    mapped := h.mapped.filter fun m => ∀ b ∈ h.desc.blobs, b.addr ≠ m
    live := h.live.filter fun p => ¬ Dropped c h.desc p
    freed := [] } where
  alignment := hs.alignment
  chunking := hs.chunking
  mapped := hs.mapped.sublist List.filter_sublist
  blobs b hb := absurd hb List.not_mem_nil
  first b blobs hb := by cases hb
  inside p hp := by
    rw [List.append_nil, List.mem_filter] at hp
    obtain ⟨hlive, hkept⟩ := hp
    obtain ⟨haligned, m, hm, hlow, hhigh⟩ := hs.inside p (List.mem_append_left _ hlive)
    refine ⟨haligned, m, List.mem_filter.2 ⟨hm, decide_eq_true fun b hb hbm => ?_⟩, hlow, hhigh⟩
    refine of_decide_eq_true hkept ⟨b, hb, ?_, ?_⟩
    · omega
    · have hpos := c.size_pos
      omega
  apart := by
    rw [List.append_nil]
    exact (List.pairwise_append.1 hs.apart).1.sublist List.filter_sublist
  links := .nil

/-- The statistics do not matter. -/
theorem counted {allocations usefulBytes : ℕ} :
    Sound c { h with desc := { h.desc with allocations := allocations, usefulBytes := usefulBytes } } :=
  ⟨hs.alignment, hs.chunking, hs.mapped, hs.blobs, hs.first, hs.inside, hs.apart, hs.links⟩

end Sound

/-! ## Taking an object -/

theorem Layout.size_le_chunking (c : Layout) : c.size ≤ c.chunking := by
  have hsize := c.size_le
  have hfits := c.alignUp_le
  omega

/-- A new blob is open, and there is room for an object in it. -/
theorem addBlob_sound (hs : Sound c h) (hf : Fresh c h newblob) : ∃ desc b,
    addBlob h.desc newblob = some desc ∧ desc.blobs = b :: h.desc.blobs ∧ alignUp c.size c.alignment ≤ b.left ∧
      Sound c { h with desc := desc, mapped := newblob :: h.mapped } := by
  have hdata := c.dataOffset_le
  have hfits := c.alignUp_le
  have hlt := c.chunking_lt
  have hne : newblob ≠ 0 := Nat.ne_of_gt hf.pos
  unfold addBlob
  rw [if_neg hne, hs.alignment, hs.chunking]
  have hleft : (c.chunking + 2 ^ 32 - alignUp dataOffset c.alignment) % 2 ^ 32 =
      c.chunking - alignUp dataOffset c.alignment := by omega
  refine ⟨_, _, rfl, rfl, ?_, ?_⟩
  · rw [hleft]
    dsimp only
    omega
  · refine ⟨rfl, rfl, List.pairwise_cons.2 ⟨hf.apart, hs.mapped⟩, fun b hb => ?_, fun b blobs hb => ?_,
      fun p hp => ?_, hs.apart, hs.links⟩
    · rcases List.mem_cons.1 hb with rfl | hb
      · exact List.mem_cons_self
      · exact List.mem_cons_of_mem _ (hs.blobs b hb)
    · obtain ⟨rfl, -⟩ := List.cons.inj hb
      refine ⟨?_, ?_, fun w hw hhigh => hf.zero w ⟨?_, hhigh⟩, fun p hp => ?_⟩ <;> dsimp only at *
      · have hsum : newblob + dataOffset + (alignUp dataOffset c.alignment - dataOffset) =
            newblob + alignUp dataOffset c.alignment := by omega
        rw [hsum]
        exact Nat.dvd_add hf.aligned c.dvd_alignUp_dataOffset
      · rw [hleft]
        omega
      · omega
      · obtain ⟨-, m, hm, hlow, hhigh⟩ := hs.inside p hp
        have hapart := hf.apart m hm
        unfold Apart at hapart
        omega
    · obtain ⟨haligned, m, hm, hin⟩ := hs.inside p hp
      exact ⟨haligned, m, List.mem_cons_of_mem _ hm, hin⟩

/-- There is room in the first blob of the list, new or not. -/
theorem withRoom_sound (hs : Sound c h) (hf : Fresh c h newblob) : ∃ desc b blobs,
    withRoom h.desc newblob (alignUp c.size c.alignment) = some desc ∧ desc.blobs = b :: blobs ∧
      alignUp c.size c.alignment ≤ b.left ∧ Sound c { h with
        desc := desc
        mapped := if h.desc.blobs.length < desc.blobs.length then newblob :: h.mapped else h.mapped } := by
  have hnew : ∃ desc b blobs, addBlob h.desc newblob = some desc ∧ desc.blobs = b :: blobs ∧
      alignUp c.size c.alignment ≤ b.left ∧ Sound c { h with
        desc := desc
        mapped := if h.desc.blobs.length < desc.blobs.length then newblob :: h.mapped else h.mapped } := by
    obtain ⟨desc, b, hadd, hblobs, hleft, hsound⟩ := addBlob_sound hs hf
    refine ⟨desc, b, _, hadd, hblobs, hleft, ?_⟩
    rw [if_pos (by rw [hblobs, List.length_cons]; exact Nat.lt_succ_self _)]
    exact hsound
  unfold withRoom
  cases hb : h.desc.blobs with
  | nil =>
    rw [hb] at hnew
    exact hnew
  | cons b blobs =>
    dsimp only
    by_cases hfull : b.left < alignUp c.size c.alignment
    · rw [if_pos hfull]
      rw [hb] at hnew
      exact hnew
    · rw [if_neg hfull]
      refine ⟨h.desc, b, blobs, rfl, hb, Nat.le_of_not_lt hfull, ?_⟩
      rw [if_neg (by rw [hb]; exact Nat.lt_irrefl _)]
      exact hs

/-- The next object of the first blob. -/
theorem carve_sound (hs : Sound c h) {b : AllocationBlob} {blobs : List AllocationBlob} (hb : h.desc.blobs = b :: blobs)
    (hleft : alignUp c.size c.alignment ≤ b.left) :
    Sound c { h with
      desc := { h.desc with
        blobs := { b with
          offset := (b.offset + alignUp c.size c.alignment) % 2 ^ 32
          left := (b.left + 2 ^ 32 - alignUp c.size c.alignment) % 2 ^ 32 } :: blobs }
      live := (b.addr + dataOffset + b.offset) :: h.live } ∧
      ∀ w, Holds c.size (b.addr + dataOffset + b.offset) w → h.mem w = 0 := by
  obtain ⟨haligned, hfull, hzero, hbelow⟩ := hs.first b blobs hb
  have hsize := c.size_le
  have hlt := c.chunking_lt
  have hmem := hs.blobs b (hb ▸ List.mem_cons_self)
  have hoffset : (b.offset + alignUp c.size c.alignment) % 2 ^ 32 = b.offset + alignUp c.size c.alignment := by omega
  have hrest : (b.left + 2 ^ 32 - alignUp c.size c.alignment) % 2 ^ 32 = b.left - alignUp c.size c.alignment := by
    omega
  refine ⟨⟨hs.alignment, hs.chunking, hs.mapped, fun b' hb' => ?_, fun b' blobs' hb' => ?_, fun p hp => ?_, ?_,
    hs.links⟩, fun w hw => hzero w hw.1 ?_⟩
  · rcases List.mem_cons.1 hb' with rfl | hb'
    · exact hmem
    · exact hs.blobs b' (hb ▸ List.mem_cons_of_mem _ hb')
  · obtain ⟨rfl, -⟩ := List.cons.inj hb'
    rw [hoffset, hrest]
    refine ⟨?_, ?_, fun w hw hhigh => hzero w ?_ hhigh, fun p hp => ?_⟩
    · dsimp only
      rw [← Nat.add_assoc]
      exact Nat.dvd_add haligned c.dvd_alignUp_size
    · dsimp only
      omega
    · dsimp only at hw
      omega
    · dsimp only
      rcases List.mem_cons.1 hp with rfl | hp
      · omega
      · have hold := hbelow p hp
        omega
  · rcases List.mem_cons.1 hp with rfl | hp
    · exact ⟨haligned, b.addr, hmem, by omega, by omega⟩
    · exact hs.inside p hp
  · refine List.pairwise_cons.2 ⟨fun q hq => ?_, hs.apart⟩
    have hold := hbelow q hq
    unfold Apart
    omega
  · have hhigh := hw.2
    omega

theorem allocate_of_freelist {size : ℕ} {mem' : Memory} (hfree : desc.freelist ≠ 0)
    (hclear : clearWords maxWords desc.freelist size mem = some mem') : allocate desc mem newblob size =
      some ({ desc with freelist := mem (desc.freelist / wordSize) }, mem', desc.freelist) := by
  unfold allocate
  rw [if_pos hfree, hclear, Option.map_some]

theorem allocate_of_blob {size : ℕ} {desc' : AllocatorStruct} {b : AllocationBlob} {blobs : List AllocationBlob}
    (hfree : desc.freelist = 0)
    (hroom : withRoom { desc with
      allocations := (desc.allocations + 1) % 2 ^ 32
      usefulBytes := (desc.usefulBytes + size) % 2 ^ 32 } newblob (alignUp size desc.alignment) = some desc')
    (hb : desc'.blobs = b :: blobs) : allocate desc mem newblob size =
      some ({ desc' with
        blobs := { b with
          offset := (b.offset + alignUp size desc.alignment) % 2 ^ 32
          left := (b.left + 2 ^ 32 - alignUp size desc.alignment) % 2 ^ 32 } :: blobs },
        mem, b.addr + dataOffset + b.offset) := by
  unfold allocate
  rw [if_neg (not_not.2 hfree)]
  dsimp only
  rw [hroom, Option.bind_some, hb]

/-- What `allocate` does in good order. -/
theorem allocate_spec (hs : Sound c h) (hf : Fresh c h newblob) : ∃ desc mem p,
    allocate h.desc h.mem newblob c.size = some (desc, mem, p) ∧
      Sound c ⟨desc, mem, if h.desc.blobs.length < desc.blobs.length then newblob :: h.mapped else h.mapped,
        p :: h.live, h.freed.erase p⟩ ∧
      (∀ w, Holds c.size p w → mem w = 0) ∧ ∀ w, ¬ Holds c.size p w → mem w = h.mem w := by
  by_cases hfree : h.desc.freelist ≠ 0
  · obtain ⟨l, hl, hlink⟩ := hs.links.exists_cons hfree
    have hmemp : h.desc.freelist ∈ h.live ++ h.freed := by simp [hl]
    have hperm : (h.desc.freelist :: h.live ++ l).Perm (h.live ++ h.freed) := by
      rw [hl]
      exact List.perm_middle.symm
    obtain ⟨k, hk⟩ := c.wordSize_dvd_size
    rw [Nat.mul_comm] at hk
    have hbound := c.size_le_chunking
    have hlt := c.chunking_lt
    have hpos := c.size_pos
    have hclear : clearWords maxWords h.desc.freelist c.size h.mem = some fun w =>
        if h.desc.freelist ≤ w * wordSize ∧ w * wordSize < h.desc.freelist + c.size then 0 else h.mem w := by
      rw [hk]
      exact clearWords_eq k (hs.wordSize_dvd hmemp) (by unfold wordSize at hk; omega)
        (by unfold wordSize at hk; unfold maxWords; omega) (by omega)
    have hmem : ∀ w, ¬ Holds c.size h.desc.freelist w →
        (if h.desc.freelist ≤ w * wordSize ∧ w * wordSize < h.desc.freelist + c.size then 0 else h.mem w) = h.mem w :=
      fun w hw => if_neg hw
    refine ⟨_, _, _, allocate_of_freelist hfree hclear, ?_, fun w hw => if_pos hw, hmem⟩
    · rw [if_neg (Nat.lt_irrefl _), hl, List.erase_cons_head]
      refine ⟨hs.alignment, hs.chunking, hs.mapped, hs.blobs, fun b blobs hb => ?_,
        fun q hq => hs.inside q (hperm.mem_iff.1 hq), (hperm.pairwise_iff fun hxy => hxy.symm).2 hs.apart, ?_⟩
      · obtain ⟨haligned, hfull, hzero, hbelow⟩ := hs.first_of_mem hmemp hmem b blobs hb
        exact ⟨haligned, hfull, hzero, fun q hq => hbelow q (hperm.mem_iff.1 hq)⟩
      · refine hlink.congr fun q hq => hmem _ fun hholds => ?_
        have hmemq : q ∈ h.live ++ h.freed := by simp [hl, hq]
        have hnodup := hs.nodup
        rw [hl] at hnodup
        have hne : q ≠ h.desc.freelist := by
          rintro rfl
          exact (List.nodup_cons.1 (List.nodup_append.1 hnodup).2.1).1 hq
        exact (hs.apart_of_ne hmemq hmemp hne).not_holds (holds_first c (hs.wordSize_dvd hmemq)) hholds
  · have hzero := not_not.1 hfree
    have hnil : h.freed = [] := by
      have hlinks := hs.links
      rw [hzero] at hlinks
      exact hlinks.nil_of_zero
    have hcounted : Sound c { h with desc := { h.desc with
        allocations := (h.desc.allocations + 1) % 2 ^ 32
        usefulBytes := (h.desc.usefulBytes + c.size) % 2 ^ 32 } } := hs.counted
    obtain ⟨desc, b, blobs, hroom, hb, hleft, hsound⟩ :=
      withRoom_sound hcounted ⟨hf.pos, hf.aligned, hf.apart, hf.zero⟩
    obtain ⟨hcarve, hclean⟩ := carve_sound hsound hb hleft
    rw [← hs.alignment] at hroom hcarve
    refine ⟨_, _, _, allocate_of_blob hzero hroom hb, ?_, hclean, fun w _ => rfl⟩
    rw [hnil, List.erase_nil]
    rw [hb, hnil] at hcarve
    simp only [List.length_cons] at hcarve ⊢
    exact hcarve

/-! ## Runs -/

theorem Layout.start_sound (c : Layout) (mem : Memory) : Sound c (c.start mem) where
  alignment := rfl
  chunking := rfl
  mapped := .nil
  blobs b hb := absurd hb List.not_mem_nil
  first b blobs hb := by cases hb
  inside p hp := absurd hp List.not_mem_nil
  apart := .nil
  links := .nil

/-- Every step keeps the order. -/
theorem Step.sound (hstep : Step c h h') (hs : Sound c h) : Sound c h' := by
  cases hstep with
  | allocate hfresh halloc =>
    obtain ⟨desc, mem, p, hspec, hsound, -⟩ := allocate_spec hs hfresh
    rw [halloc] at hspec
    obtain ⟨rfl, rfl, rfl⟩ : _ ∧ _ ∧ _ := by simpa using hspec
    exact hsound
  | free hp => exact hs.free hp
  | write hp hw => exact hs.write hp hw
  | elsewhere hmem => exact hs.elsewhere hmem
  | protect => exact hs.protect
  | drop => exact hs.drop

theorem runs_sound (hrun : Relation.ReflTransGen (Step c) (c.start mem) h) : Sound c h := by
  induction hrun with
  | refl => exact c.start_sound mem
  | tail _ hstep ih => exact hstep.sound ih

/-- After every run the objects in use lie apart, each behind the header of its blob, and `allocate` gives out
another one that is zero and takes nothing from those. -/
theorem allocate_apart (hrun : Relation.ReflTransGen (Step c) (c.start mem) h) (hfresh : Fresh c h newblob) :
    h.live.Pairwise (Apart c.size) ∧
      (∀ p ∈ h.live, c.alignment ∣ p ∧ ∃ m ∈ h.mapped, m + dataOffset ≤ p ∧ p + c.size ≤ m + c.chunking) ∧
      ∃ desc mem' p, allocate h.desc h.mem newblob c.size = some (desc, mem', p) ∧ c.alignment ∣ p ∧
        (∀ q ∈ h.live, Apart c.size p q) ∧ (∀ w, Holds c.size p w → mem' w = 0) ∧
        ∀ q ∈ h.live, ∀ w, Holds c.size q w → mem' w = h.mem w := by
  have hs := runs_sound hrun
  obtain ⟨desc, mem', p, halloc, hsound, hzero, hkeep⟩ := allocate_spec hs hfresh
  have happart : ∀ q ∈ h.live, Apart c.size p q := by
    have hall := (List.pairwise_append.1 hsound.apart).1
    exact (List.pairwise_cons.1 hall).1
  refine ⟨(List.pairwise_append.1 hs.apart).1, fun p hp => hs.inside p (List.mem_append_left _ hp),
    desc, mem', p, halloc,
    (hsound.inside p (List.mem_append_left _ List.mem_cons_self)).1, happart, hzero, fun q hq w hw => ?_⟩
  exact hkeep w ((happart q hq).symm.not_holds hw)

/-- Blobs of `CHUNK` bytes for objects of 24. -/
def smallLayout : Layout where
  alignment := 8
  chunking := 32768
  size := 24
  alignment_pow := ⟨3, rfl⟩
  wordSize_dvd_alignment := ⟨1, rfl⟩
  size_pos := by decide
  wordSize_dvd_size := ⟨3, rfl⟩
  fits := by decide
  chunking_lt := by decide

private def oneObject : Heap :=
  ⟨⟨[⟨4096, 32728, 24⟩], 8, 32768, 0, 1, 32768, 24⟩, fun _ => 0, [4096], [4112], []⟩

private def twoObjects : Heap :=
  ⟨⟨[⟨4096, 32704, 48⟩], 8, 32768, 0, 2, 32768, 48⟩, fun _ => 0, [4096], [4136, 4112], []⟩

/-- Two objects were taken from one blob, and one of them was written to and given back. -/
def smallHeap : Heap where
  desc := {
    blobs := [⟨4096, 32704, 48⟩]
    alignment := 8
    chunking := 32768
    freelist := 4136
    allocations := 2
    totalBytes := 32768
    usefulBytes := 48 }
  mem := Function.update (Function.update (fun _ => 0) 518 7) 517 0
  mapped := [4096]
  live := [4112]
  freed := [4136]

private theorem smallHeap_run : Relation.ReflTransGen (Step smallLayout) (smallLayout.start fun _ => 0) smallHeap := by
  have hfirst : Fresh smallLayout (smallLayout.start fun _ => 0) 4096 :=
    ⟨by decide, ⟨512, rfl⟩, fun m hm => absurd hm List.not_mem_nil, fun _ _ => rfl⟩
  have hsecond : Fresh smallLayout oneObject 65536 := by
    refine ⟨by decide, ⟨8192, rfl⟩, fun m hm => ?_, fun _ _ => rfl⟩
    obtain rfl := List.mem_singleton.1 hm
    exact .inr (by decide)
  have hone : Step smallLayout (smallLayout.start fun _ => 0) oneObject := .allocate hfirst rfl
  have htwo : Step smallLayout oneObject twoObjects := .allocate hsecond rfl
  have hwrite : Step smallLayout twoObjects { twoObjects with mem := Function.update (fun _ => 0) 518 7 } :=
    .write (p := 4136) (by decide) ⟨by decide, by decide⟩
  have hfree : Step smallLayout { twoObjects with mem := Function.update (fun _ => 0) 518 7 } smallHeap :=
    .free (p := 4136) (by decide)
  exact .tail (.tail (.tail (.single hone) htwo) hwrite) hfree

private theorem smallHeap_fresh : Fresh smallLayout smallHeap 65536 := by
  refine ⟨by decide, ⟨8192, rfl⟩, fun m hm => ?_, fun w hw => ?_⟩
  · obtain rfl := List.mem_singleton.1 hm
    exact .inr (by decide)
  · have hlow : 65536 ≤ w * 8 := hw.1
    have hmem : smallHeap.mem w = Function.update (Function.update (fun _ => 0) 518 7) 517 0 w := rfl
    rw [hmem, Function.update_of_ne (by omega), Function.update_of_ne (by omega)]

theorem smallHeap_apart : smallHeap.live.Pairwise (Apart smallLayout.size) ∧
    (∀ p ∈ smallHeap.live, smallLayout.alignment ∣ p ∧
      ∃ m ∈ smallHeap.mapped, m + dataOffset ≤ p ∧ p + smallLayout.size ≤ m + smallLayout.chunking) ∧
    ∃ desc mem' p, allocate smallHeap.desc smallHeap.mem 65536 smallLayout.size = some (desc, mem', p) ∧
      smallLayout.alignment ∣ p ∧ (∀ q ∈ smallHeap.live, Apart smallLayout.size p q) ∧
      (∀ w, Holds smallLayout.size p w → mem' w = 0) ∧
      ∀ q ∈ smallHeap.live, ∀ w, Holds smallLayout.size q w → mem' w = smallHeap.mem w :=
  allocate_apart smallHeap_run smallHeap_fresh

end BlobAllocator

end Sparse
