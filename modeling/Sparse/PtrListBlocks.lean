import Sparse.CircularChain
import Sparse.PointerList
import Mathlib.Algebra.GroupWithZero.Nat

/-!
# Pointer lists as circular chains of blocks

The blocks of `struct ptr_list` in a heap, and the functions and macros of the
pointer lists as they follow and change the links. The filled part of the array
of a block is a list, whose length is the field `nr`; what lies beyond is read
as an index outside the block. Loops run on fuel.
-/

namespace Sparse.PtrList
open CircularChain

/-- The two bits of a tag have a zero. -/
instance neZero_tag : NeZero 4 := ⟨by decide⟩

/-- A pointer that is not `NULL`, with the two bits of its tag. -/
structure Entry (P : Type) where
  ptr : P
  tag : Fin 4
  deriving DecidableEq, Repr

/-- The mask of `PTR_ENTRY`. -/
def Entry.untag {P : Type} (e : Entry P) : Entry P :=
  { e with tag := 0 }

@[simp] theorem Entry.untag_ptr {P : Type} (e : Entry P) : e.untag.ptr = e.ptr := rfl

@[simp] theorem Entry.untag_untag {P : Type} (e : Entry P) : e.untag.untag = e.untag := rfl

/-- `LIST_NODE_NR`. -/
def listNodeNr : ℕ := 29

structure Heap (P : Type) where
  links : Links ℕ
  list : ℕ → List (Entry P)
  fresh : ℕ

/-- What a reader finds. -/
inductive Read (P : Type)
  | null
  | entry (e : Entry P)
  | outside
  deriving DecidableEq, Repr

variable {P : Type}

namespace Heap

def nr (h : Heap P) (b : ℕ) : ℕ :=
  (h.list b).length

def setList (h : Heap P) (b : ℕ) (es : List (Entry P)) : Heap P :=
  { h with list := Function.update h.list b es }

def join (h : Heap P) (a b : ℕ) : Heap P :=
  { h with links := h.links.join a b }

/-- `__alloc_ptrlist`. -/
def alloc (h : Heap P) : Heap P × ℕ :=
  ({ h with list := Function.update h.list h.fresh [], fresh := h.fresh + 1 }, h.fresh)

/-- `PTR_ENTRY`. -/
def ptrEntry (h : Heap P) (b : ℕ) (i : ℤ) : Read P :=
  if 0 ≤ i then
    match (h.list b)[i.toNat]? with
    | some e => .entry e.untag
    | none => .outside
  else .outside

@[simp] theorem setList_links (h : Heap P) (b : ℕ) (es : List (Entry P)) :
    (h.setList b es).links = h.links := rfl

@[simp] theorem setList_fresh (h : Heap P) (b : ℕ) (es : List (Entry P)) :
    (h.setList b es).fresh = h.fresh := rfl

@[simp] theorem setList_self (h : Heap P) (b : ℕ) (es : List (Entry P)) :
    (h.setList b es).list b = es :=
  Function.update_self ..

theorem setList_of_ne (h : Heap P) {b c : ℕ} (hc : c ≠ b) (es : List (Entry P)) :
    (h.setList b es).list c = h.list c :=
  Function.update_of_ne hc ..

@[simp] theorem join_list (h : Heap P) (a b : ℕ) : (h.join a b).list = h.list := rfl

@[simp] theorem join_fresh (h : Heap P) (a b : ℕ) : (h.join a b).fresh = h.fresh := rfl

@[simp] theorem join_links (h : Heap P) (a b : ℕ) : (h.join a b).links = h.links.join a b := rfl

end Heap

/-! ## Readers -/

/-- `ptr_list_size`. -/
def ptrListSize (fuel : ℕ) (h : Heap P) : Option ℕ → Option ℕ
  | none => some 0
  | some head => nodeLoop (fun _ => forward h.links head) (fun b nr => (nr + h.nr b, false)) fuel head 0

/-- `linearize_ptr_list`. -/
def linearizePtrList (fuel : ℕ) (h : Heap P) (max : ℕ) : Option ℕ → Option (List (Entry P))
  | none => some []
  | some head =>
    if max = 0 then some []
    else
      (nodeLoop (fun _ => forward h.links head)
        (fun b (s : List (Entry P) × ℕ) =>
          let i := if h.nr b > s.2 then s.2 else h.nr b
          ((s.1 ++ (h.list b).take i, s.2 - i), s.2 - i = 0))
        fuel head ([], max)).map Prod.fst

/-- `first_ptr_list`. -/
def firstPtrList (h : Heap P) : Option ℕ → Read P
  | none => .null
  | some list => h.ptrEntry list 0

/-- `last_ptr_list`. -/
def lastPtrList (h : Heap P) : Option ℕ → Read P
  | none => .null
  | some list =>
    let list := h.links.prev list
    h.ptrEntry list ((h.nr list : ℤ) - 1)

/-- The pointers that `FOR_EACH_PTR` visits. -/
def forEachPtr (fuel : ℕ) (h : Heap P) : Option ℕ → Option (List (Entry P))
  | none => some []
  | some head =>
    nodeLoop (fun _ => forward h.links head)
      (fun b acc => (acc ++ (h.list b).map Entry.untag, false)) fuel head []

/-- The pointers that a loop of `FOR_EACH_PTR` visits from the index `nr` of the block
`list` on. -/
def forEachPtrFrom (fuel : ℕ) (h : Heap P) (head list nr : ℕ) : Option (List (Entry P)) :=
  match fuel with
  | 0 => none
  | fuel + 1 =>
    let visited := ((h.list list).drop nr).map Entry.untag
    let list := h.links.next list
    if list = head then some visited
    else (forEachPtrFrom fuel h head list 0).map fun rest => visited ++ rest

/-- The pointers that a loop of `FOR_EACH_PTR_REVERSE` visits from the block `list`
on, where the entries before `nr` are left. -/
def forEachPtrReverseFrom (fuel : ℕ) (h : Heap P) (head list nr : ℕ) : Option (List (Entry P)) :=
  match fuel with
  | 0 => none
  | fuel + 1 =>
    let visited := (((h.list list).take nr).map Entry.untag).reverse
    if list = head then some visited
    else
      let list := h.links.prev list
      (forEachPtrReverseFrom fuel h head list (h.nr list)).map fun rest => visited ++ rest

/-- The pointers that `FOR_EACH_PTR_REVERSE` visits. -/
def forEachPtrReverse (fuel : ℕ) (h : Heap P) : Option ℕ → Option (List (Entry P))
  | none => some []
  | some head =>
    let list := h.links.prev head
    forEachPtrReverseFrom fuel h head list (h.nr list)

/-- The variables of `DO_PREPARE`. -/
structure NextCursor (P : Type) where
  ptr : Read P
  list : ℕ
  nr : ℕ

/-- `DO_PREPARE`. -/
def prepare (h : Heap P) : Option ℕ → NextCursor P
  | none => ⟨.null, 0, 0⟩
  | some head => ⟨h.ptrEntry head 0, head, 0⟩

/-- `DO_NEXT`. -/
def next (h : Heap P) (head : ℕ) (c : NextCursor P) : NextCursor P :=
  match c.ptr with
  | .null => c
  | _ =>
    if c.nr + 1 < h.nr c.list then ⟨h.ptrEntry c.list (c.nr + 1), c.list, c.nr + 1⟩
    else
      let list := h.links.next c.list
      if list = head then ⟨.null, list, c.nr + 1⟩ else ⟨h.ptrEntry list 0, list, 0⟩

/-! ## Changes -/

/-- `__add_ptr_list`. -/
def addPtrList (h : Heap P) (listp : Option ℕ) (e : Entry P) : Heap P × ℕ :=
  match listp with
  | none =>
    let (h, newlist) := h.alloc
    ((h.join newlist newlist).setList newlist [e], newlist)
  | some list =>
    let last := h.links.prev list
    if listNodeNr ≤ h.nr last then
      let (h, newlist) := h.alloc
      (((h.join last newlist).join newlist list).setList newlist [e], list)
    else (h.setList last (h.list last ++ [e]), list)

/-- `split_ptr_list_head`. -/
def splitPtrListHead (h : Heap P) (head : ℕ) : Heap P :=
  let old := h.nr head - h.nr head / 2
  let es := h.list head
  let next := h.links.next head
  let (h, newlist) := h.alloc
  (((h.join newlist next).join head newlist).setList head (es.take old)).setList newlist (es.drop old)

/-- `DO_INSERT_CURRENT`, with the block and index it leaves. -/
def insertCurrent (h : Heap P) (new : Entry P) (list nr : ℕ) : Heap P × ℕ × ℕ :=
  let (h, list, nr) :=
    if h.nr list = listNodeNr then
      let h := splitPtrListHead h list
      if h.nr list ≤ nr then (h, h.links.next list, nr - h.nr list) else (h, list, nr)
    else (h, list, nr)
  (h.setList list ((h.list list).take nr ++ new :: (h.list list).drop nr), list, nr)

/-- `DO_DELETE_CURRENT`. -/
def deleteCurrent (h : Heap P) (list nr : ℕ) : Heap P :=
  h.setList list ((h.list list).eraseIdx nr)

/-- The loop of `pack_ptr_list`. -/
def packLoop : ℕ → Heap P → ℕ → ℕ → Option (Heap P × Option ℕ)
  | 0, _, _, _ => none
  | fuel + 1, h, head, entry =>
    let next := h.links.next entry
    if h.nr entry = 0 then
      if next = entry then some (h, none)
      else
        let h := h.join (h.links.prev entry) next
        if entry = head then packLoop fuel h next next
        else if next = head then some (h, some head)
        else packLoop fuel h head next
    else if next = head then some (h, some head)
    else packLoop fuel h head next

/-- `pack_ptr_list`. -/
def packPtrList (fuel : ℕ) (h : Heap P) : Option ℕ → Option (Heap P × Option ℕ)
  | none => some (h, none)
  | some head => packLoop fuel h head head

/-- The inner loop of `delete_ptr_list_entry`: the entries before and from `__nr`
on, and `count`. -/
def deleteInBlock [DecidableEq P] (entry : P) :
    List (Entry P) → List (Entry P) → ℤ → List (Entry P) × ℤ × Bool
  | before, [], count => (before, count, false)
  | before, e :: after, count =>
    if e.ptr = entry then
      if count - 1 = 0 then (before ++ after, 0, true) else deleteInBlock entry before after (count - 1)
    else deleteInBlock entry (before ++ [e]) after count

/-- Why a function does not return. -/
inductive Failure
  | outOfFuel
  | assertion
  deriving DecidableEq, Repr

/-- `delete_ptr_list_entry`. -/
def deletePtrListEntry [DecidableEq P] (fuel : ℕ) (h : Heap P) (entry : P) (count : ℤ)
    (listp : Option ℕ) : Except Failure (Heap P × Option ℕ) := do
  let (h, left) ←
    match listp with
    | none => .ok (h, count)
    | some head =>
      (nodeLoop (fun s => forward s.1.links head)
        (fun b (s : Heap P × ℤ) =>
          let (es, count, stop) := deleteInBlock entry [] (s.1.list b) s.2
          ((s.1.setList b es, count), stop))
        fuel head (h, count)).elim (.error .outOfFuel) .ok
  if 0 < left then .error .assertion
  else (packPtrList fuel h listp).elim (.error .outOfFuel) .ok

/-- The inner loop of `replace_ptr_list_entry`. -/
def replaceInBlock [DecidableEq P] (old new : P) :
    List (Entry P) → ℤ → List (Entry P) × ℤ × Bool
  | [], count => ([], count, false)
  | e :: after, count =>
    if e.ptr = old then
      if count - 1 = 0 then (⟨new, 0⟩ :: after, 0, true)
      else
        let r := replaceInBlock old new after (count - 1)
        (⟨new, 0⟩ :: r.1, r.2)
    else
      let r := replaceInBlock old new after count
      (e :: r.1, r.2)

/-- `replace_ptr_list_entry`. -/
def replacePtrListEntry [DecidableEq P] (fuel : ℕ) (h : Heap P) (old new : P) (count : ℤ)
    (listp : Option ℕ) : Except Failure (Heap P) := do
  let (h, left) ←
    match listp with
    | none => .ok (h, count)
    | some head =>
      (nodeLoop (fun s => forward s.1.links head)
        (fun b (s : Heap P × ℤ) =>
          let (es, count, stop) := replaceInBlock old new (s.1.list b) s.2
          ((s.1.setList b es, count), stop))
        fuel head (h, count)).elim (.error .outOfFuel) .ok
  if 0 < left then .error .assertion else .ok h

/-- `undo_ptr_list_last`, with the entry it returns. -/
def undoPtrListLast (fuel : ℕ) (h : Heap P) : Option ℕ → Option (Heap P × Option (Entry P))
  | none => some (h, none)
  | some first =>
    nodeLoop (fun s => backward s.1.links first)
      (fun b s =>
        match (s.1.list b).getLast? with
        | some e => ((s.1.setList b (s.1.list b).dropLast, some e), true)
        | none => (s, false))
      fuel (h.links.prev first) (h, none)

/-- `delete_ptr_list_last`, with the list and the entry it returns. -/
def deletePtrListLast (h : Heap P) : Option ℕ → Heap P × Option ℕ × Option (Entry P)
  | none => (h, none, none)
  | some first =>
    let last := h.links.prev first
    let ptr := (h.list last).getLast?
    let h := h.setList last (h.list last).dropLast
    if h.nr last = 0 then
      (h.join (h.links.prev last) first, if last = first then none else some first, ptr)
    else (h, some first, ptr)

/-- `concat_ptr_list`: the list `b` after the entries of `a` are added to it. -/
def concatPtrList (fuel : ℕ) (h : Heap P) (a b : Option ℕ) : Option (Heap P × Option ℕ) :=
  match a with
  | none => some (h, b)
  | some head =>
    nodeLoop (fun s => forward s.1.links head)
      (fun block s =>
        (((s.1.list block).map Entry.untag).foldl
          (fun s e => ((addPtrList s.1 s.2 e).1, some (addPtrList s.1 s.2 e).2)) s, false))
      fuel head (h, b)

end Sparse.PtrList
