import Mathlib.Data.List.Basic
import Mathlib.Logic.Function.Basic

/-!
# Interning in a chained hash table

Keys are entered into a table of chains. An entry looks through the chain of its hash for an
object that compares equal, and makes a new object at the end of the chain where there is
none. The objects are numbered in the order in which they are made.
-/

namespace HashedInterning

variable {K B O : Type*}

/-- How a key is hashed, how it is compared with an object, and the object made for it. -/
structure Scheme (K B O : Type*) where
  hash : K → B
  same : K → O → Bool
  make : ℕ → K → O

/-- The chains, and the number of the next object. -/
structure Table (B O : Type*) where
  chain : B → List O
  next : ℕ

/-- The table without objects. -/
def Table.empty : Table B O := ⟨fun _ => [], 0⟩

namespace Scheme

section Operations

variable [DecidableEq B] (σ : Scheme K B O)

def intern (t : Table B O) (k : K) : O × Table B O :=
  match (t.chain (σ.hash k)).find? (σ.same k) with
  | some o => (o, t)
  | none =>
    let o := σ.make t.next k
    (o, ⟨Function.update t.chain (σ.hash k) (t.chain (σ.hash k) ++ [o]), t.next + 1⟩)

def internAll : Table B O → List K → List O × Table B O
  | t, [] => ([], t)
  | t, k :: ks =>
    let (o, t) := σ.intern t k
    let (os, t) := internAll t ks
    (o :: os, t)

/-- A new object in front of the chain of its hash. -/
def push (t : Table B O) (k : K) : Table B O :=
  ⟨Function.update t.chain (σ.hash k) (σ.make t.next k :: t.chain (σ.hash k)), t.next + 1⟩

end Operations

/-- The comparison is one of keys, and the number of an object can be read. -/
structure Lawful (σ : Scheme K B O) (number : O → ℕ) (Valid : K → Prop) : Prop where
  number_make : ∀ n k, number (σ.make n k) = n
  same_iff : ∀ k k' n, Valid k → Valid k' → (σ.same k (σ.make n k') = true ↔ k = k')

/-- The objects of the table were made for valid keys, and their numbers are their own. -/
structure Wf (σ : Scheme K B O) (number : O → ℕ) (Valid : K → Prop) (t : Table B O) : Prop where
  made : ∀ b, ∀ o ∈ t.chain b, ∃ n k, n < t.next ∧ Valid k ∧ o = σ.make n k
  distinct : ∀ b, ∀ o ∈ t.chain b, ∀ b', ∀ o' ∈ t.chain b', number o = number o' → o = o'

/-- The search for the key finds the object. -/
def Finds (σ : Scheme K B O) (t : Table B O) (k : K) (o : O) : Prop := (t.chain (σ.hash k)).find? (σ.same k) = some o

variable {σ : Scheme K B O} {number : O → ℕ} {Valid : K → Prop} {t : Table B O} {k k' : K} {o o' : O}

theorem Wf.empty : σ.Wf number Valid .empty :=
  ⟨fun _ _ ho => (List.not_mem_nil ho).elim, fun _ _ ho => (List.not_mem_nil ho).elim⟩

/-- A table whose chains have one object more keeps its objects apart. -/
theorem Wf.insert (hσ : σ.Lawful number Valid) (ht : σ.Wf number Valid t) (hk : Valid k) {t' : Table B O}
    (hnext : t'.next = t.next + 1)
    (hchain : ∀ b, ∀ o ∈ t'.chain b, o ∈ t.chain b ∨ o = σ.make t.next k) : σ.Wf number Valid t' := by
  have hold : ∀ b, ∀ o ∈ t.chain b, number o < t.next := by
    intro b o ho
    obtain ⟨n, k', hn, -, rfl⟩ := ht.made b o ho
    rwa [hσ.number_make]
  refine ⟨fun b o ho => ?_, fun b o ho b' o' ho' heq => ?_⟩
  · rcases hchain b o ho with ho | rfl
    · obtain ⟨n, k', hn, hk', rfl⟩ := ht.made b o ho
      exact ⟨n, k', by omega, hk', rfl⟩
    · exact ⟨t.next, k, by omega, hk, rfl⟩
  · rcases hchain b o ho with ho | rfl
    · rcases hchain b' o' ho' with ho' | rfl
      · exact ht.distinct b o ho b' o' ho' heq
      · have hlt := hold b o ho
        rw [heq, hσ.number_make] at hlt
        exact absurd hlt (Nat.lt_irrefl _)
    · rcases hchain b' o' ho' with ho' | rfl
      · have hlt := hold b' o' ho'
        rw [← heq, hσ.number_make] at hlt
        exact absurd hlt (Nat.lt_irrefl _)
      · rfl

section Operations

variable [DecidableEq B]

theorem Wf.push (hσ : σ.Lawful number Valid) (ht : σ.Wf number Valid t) (hk : Valid k) :
    σ.Wf number Valid (σ.push t k) := by
  refine ht.insert hσ hk rfl fun b o ho => ?_
  dsimp only [Scheme.push] at ho
  rw [Function.update_apply] at ho
  split_ifs at ho with hb
  · rcases List.mem_cons.1 ho with rfl | ho
    · exact .inr rfl
    · exact .inl (hb ▸ ho)
  · exact .inl ho

theorem intern_of_some (h : σ.Finds t k o) : σ.intern t k = (o, t) := by
  rw [intern, h]

theorem intern_of_none (h : (t.chain (σ.hash k)).find? (σ.same k) = none) :
    σ.intern t k = (σ.make t.next k,
      ⟨Function.update t.chain (σ.hash k) (t.chain (σ.hash k) ++ [σ.make t.next k]), t.next + 1⟩) := by
  rw [intern, h]

/-- An entry finds the object that it returns, and what was found before is still found. -/
theorem intern_spec (hσ : σ.Lawful number Valid) (ht : σ.Wf number Valid t) (hk : Valid k) :
    σ.Wf number Valid (σ.intern t k).2 ∧ σ.Finds (σ.intern t k).2 k (σ.intern t k).1 ∧
      ∀ k' o', σ.Finds t k' o' → σ.Finds (σ.intern t k).2 k' o' := by
  cases hfind : (t.chain (σ.hash k)).find? (σ.same k) with
  | some o =>
    rw [intern_of_some hfind]
    exact ⟨ht, hfind, fun _ _ h => h⟩
  | none =>
    rw [intern_of_none hfind]
    refine ⟨ht.insert hσ hk rfl fun b o ho => ?_, ?_, fun k' o' h => ?_⟩
    · dsimp only at ho
      rw [Function.update_apply] at ho
      split_ifs at ho with hb
      · rcases List.mem_append.1 ho with ho | ho
        · exact .inl (hb ▸ ho)
        · exact .inr (List.mem_singleton.1 ho)
      · exact .inl ho
    · have hsame : σ.same k (σ.make t.next k) = true := (hσ.same_iff k k t.next hk hk).2 rfl
      dsimp only [Finds]
      rw [Function.update_self, List.find?_append, hfind, Option.none_or, List.find?_cons_of_pos hsame]
    · dsimp only [Finds] at h ⊢
      rw [Function.update_apply]
      split_ifs with hb
      · rw [List.find?_append, ← hb, h, Option.some_or]
      · exact h

/-- After all entries each key finds its object. -/
theorem internAll_spec (hσ : σ.Lawful number Valid) (ht : σ.Wf number Valid t) {ks : List K}
    (hks : ∀ k ∈ ks, Valid k) :
    σ.Wf number Valid (σ.internAll t ks).2 ∧
      List.Forall₂ (σ.Finds (σ.internAll t ks).2) ks (σ.internAll t ks).1 ∧
      ∀ k' o', σ.Finds t k' o' → σ.Finds (σ.internAll t ks).2 k' o' := by
  induction ks generalizing t with
  | nil => exact ⟨ht, .nil, fun _ _ h => h⟩
  | cons k ks ih =>
    obtain ⟨hwf, hfinds, hkept⟩ := intern_spec hσ ht (hks k List.mem_cons_self)
    obtain ⟨hwf', hfinds', hkept'⟩ := ih hwf fun k hk => hks k (List.mem_cons_of_mem _ hk)
    exact ⟨hwf', .cons (hkept' _ _ hfinds) hfinds', fun k' o' h => hkept' _ _ (hkept _ _ h)⟩

end Operations

/-- What a key finds was made for it. -/
theorem Finds.make (hσ : σ.Lawful number Valid) (ht : σ.Wf number Valid t) (hk : Valid k) (h : σ.Finds t k o) :
    o = σ.make (number o) k := by
  obtain ⟨n, k', -, hk', rfl⟩ := ht.made _ o (List.mem_of_find?_eq_some h)
  have hsame := List.find?_some h
  rw [hσ.same_iff k k' n hk hk'] at hsame
  rw [hσ.number_make, hsame]

/-- Two keys find one object exactly if they are equal. -/
theorem Finds.number_eq_iff (hσ : σ.Lawful number Valid) (ht : σ.Wf number Valid t) (hk : Valid k)
    (hk' : Valid k') (h : σ.Finds t k o) (h' : σ.Finds t k' o') : number o = number o' ↔ k = k' := by
  constructor
  · intro heq
    have hobject := ht.distinct _ o (List.mem_of_find?_eq_some h) _ o' (List.mem_of_find?_eq_some h') heq
    have hsame := List.find?_some h
    rwa [hobject, h'.make hσ ht hk', hσ.same_iff k k' _ hk hk'] at hsame
  · rintro rfl
    rw [Option.some.inj (h.symm.trans h')]

end Scheme

end HashedInterning
