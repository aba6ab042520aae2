import Mathlib.Data.List.Basic
import Mathlib.Data.List.Count

/-!
# Deleting and replacing entries of a pointer list

`delete_ptr_list_entry` and `replace_ptr_list_entry` act on the first `count`
occurrences of an entry, and on all of them when `count` is zero, because the
source decrements before it compares. Their callers pass zero or one, and for
these the two loops are `erase`, `filter`, `replace` and `map`.
-/

namespace Sparse

variable {α : Type*}

/-- The loop of `delete_ptr_list_entry` and `delete_pseudo_user_list_entry`. -/
def deleteEntries (q : α → Bool) : List α → ℕ → List α
  | [], _ => []
  | x :: xs, count =>
    if q x then
      if count = 1 then xs else deleteEntries q xs (count - 1)
    else x :: deleteEntries q xs count

theorem deleteEntries_zero (q : α → Bool) (xs : List α) :
    deleteEntries q xs 0 = xs.filter (fun x => !q x) := by
  induction xs with
  | nil => rfl
  | cons x xs ih => by_cases h : q x <;> simp [deleteEntries, h, ih]

theorem deleteEntries_one (q : α → Bool) (xs : List α) :
    deleteEntries q xs 1 = xs.eraseP q := by
  induction xs with
  | nil => rfl
  | cons x xs ih => by_cases h : q x <;> simp [deleteEntries, h, ih]

variable [DecidableEq α]

/-- `delete_ptr_list_entry`. -/
def deletePtrListEntry (xs : List α) (entry : α) (count : ℕ) : List α :=
  deleteEntries (· == entry) xs count

/-- `replace_ptr_list_entry`. -/
def replacePtrListEntry : List α → α → α → ℕ → List α
  | [], _, _, _ => []
  | x :: xs, old, new, count =>
    if x = old then
      if count = 1 then new :: xs else new :: replacePtrListEntry xs old new (count - 1)
    else x :: replacePtrListEntry xs old new count

theorem deletePtrListEntry_one (xs : List α) (e : α) :
    deletePtrListEntry xs e 1 = xs.erase e := by
  rw [deletePtrListEntry, deleteEntries_one, List.erase_eq_eraseP']

theorem deletePtrListEntry_zero (xs : List α) (e : α) :
    deletePtrListEntry xs e 0 = xs.filter (· ≠ e) := by
  rw [deletePtrListEntry, deleteEntries_zero]
  exact List.filter_congr (fun x _ => by by_cases h : x = e <;> simp [h])

theorem replacePtrListEntry_one (xs : List α) (old new : α) :
    replacePtrListEntry xs old new 1 = xs.replace old new := by
  induction xs with
  | nil => rfl
  | cons x xs ih =>
    by_cases h : x = old
    · simp [replacePtrListEntry, h]
    · have hb : (old == x) = false := by simpa using Ne.symm h
      simp [replacePtrListEntry, List.replace_cons, h, ih, hb]

theorem replacePtrListEntry_zero (xs : List α) (old new : α) :
    replacePtrListEntry xs old new 0 = xs.map (fun x => if x = old then new else x) := by
  induction xs with
  | nil => rfl
  | cons x xs ih => by_cases h : x = old <;> simp [replacePtrListEntry, h, ih]

end Sparse
