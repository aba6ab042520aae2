import Mathlib.Data.List.Basic
import Mathlib.Data.List.Induction
import Mathlib.Order.Lattice

/-!
# The size of an array from its initializer

`count_array_initializer` goes over the initializer of an array without a size before it is
evaluated: one number is the position and the maximum at once. `handle_list_initializer` keeps the
chain of designators of the last entry, and finds the next subobject from it. Positions are those of
an array whose size in bits is an `int`, so no sum wraps.
-/

namespace Sparse

namespace ArrayInitializer

mutual

/-- A type that is initialized. The size of an array is its number of elements, that of the others is in
bits; a compound type is known by its symbol. -/
inductive ElementType
  | char
  | scalar (bitSize : ℕ)
  | array (element : ElementType) (size : ℕ)
  | compound (symbol : ℕ) (isUnion : Bool) (bitSize : ℕ) (symbolList : Members)

/-- The members of a compound type but the bit-fields without a name, which `first_subobject` and
`next_subobject` leave out. -/
inductive Members
  | nil
  | cons (ident : ℕ) (field : ElementType) (rest : Members)

end

namespace ElementType

def bitSize : ElementType → ℕ
  | char => 8
  | scalar bitSize => bitSize
  | array element size => size * element.bitSize
  | compound _ _ bitSize _ => bitSize

/-- `is_byte_type`. -/
def isByteType (type : ElementType) : Bool := type.bitSize = 8

/-- `is_string_type`. -/
def isStringType : ElementType → Bool
  | array element _ => element.isByteType
  | _ => false

/-- The base type is `int_type`, with `MOD_CHAR`. -/
def isChar : ElementType → Bool
  | char => true
  | _ => false

end ElementType

/-- `find_struct_ident`; the members after the field come with it. -/
def findStructIdent (ident : ℕ) : Members → Option (ElementType × Members)
  | .nil => none
  | .cons name field rest => if name = ident then some (field, rest) else findStructIdent ident rest

/-- An initializer as it is parsed: an expression, which may be one of a compound type, a string, an
expression in parentheses, a list in braces, or a designator with what it is for. -/
inductive InitExpr
  | scalar
  | object (symbol : ℕ)
  | string (chars : ℕ)
  | parens (unop : InitExpr)
  | list (exprList : List InitExpr)
  | index (idxFrom idxTo : ℕ) (idxExpression : InitExpr)
  | identifier (exprIdent : ℕ) (identExpression : InitExpr)

namespace InitExpr

def isDesignator : InitExpr → Bool
  | index _ _ _ | identifier _ _ => true
  | _ => false

/-- `is_string_literal`, with the length of the string, which counts the null character. -/
def stringLiteral : InitExpr → Option ℕ
  | string chars => some (chars + 1)
  | parens unop => unop.stringLiteral
  | _ => none

/-- The compound type of an evaluated expression. -/
def compoundType : InitExpr → Option ℕ
  | object symbol => some symbol
  | parens unop => unop.compoundType
  | _ => none

end InitExpr

/-! ## Counting -/

/-- The variables of `count_array_initializer`. -/
structure Counting where
  nr : ℕ := 0
  count : ℕ := 0
  strLen : ℕ := 0

/-- An iteration over the list of `count_array_initializer`. -/
def countEntry (isChar : Bool) (s : Counting) : InitExpr → Counting
  | .index _ idxTo _ => { s with count := s.count + 1, nr := if s.nr ≤ idxTo then idxTo + 1 else s.nr }
  | .string chars =>
    { nr := s.nr + 1, count := s.count + 1, strLen := if isChar then chars + 1 else s.strLen }
  | _ => { s with count := s.count + 1, nr := s.nr + 1 }

/-- `count_array_initializer`. -/
def countArrayInitializer (t : ElementType) : InitExpr → ℕ
  | .list exprList =>
    let s := exprList.foldl (countEntry t.isChar) {}
    if s.count = 1 ∧ s.strLen ≠ 0 then s.strLen else s.nr
  | .string chars => if t.isChar then chars + 1 else 0
  | _ => 0

/-! ## Evaluating -/

/-- A designator in the chain to a subobject: an index with the type of the element, or a field with the
members after it. -/
inductive Designator
  | index (idxTo : ℕ) (ctype : ElementType)
  | identifier (field : ElementType) (nextSubobject : Members)

/-- `handle_scalar`: an expression, or one alone in braces. -/
def handleScalar : InitExpr → Bool
  | .list [.list _] | .list [.index _ _ _] | .list [.identifier _ _] => false
  | .list [_] => true
  | .list _ => false
  | _ => true

/-- `handle_simple_initializer`: whether the expression is for the type as a whole. -/
def handleSimpleInitializer (ctype : ElementType) (e : InitExpr) : Bool :=
  match ctype with
  | .char | .scalar _ => handleScalar e
  | .array _ _ =>
    match e with
    | .list _ => true
    | e => e.stringLiteral.isSome && ctype.isStringType
  | .compound symbol _ _ _ =>
    match e with
    | .list _ => true
    | e => e.compoundType = some symbol

/-- The members that `next_subobject` goes through; those of a union have none. -/
def nextSubobjects (isUnion : Bool) (rest : Members) : Members := if isUnion then .nil else rest

mutual

/-- The loop from `found` of `handle_list_initializer`: the implicit designators, from `first_subobject`,
down to a subobject that the expression is for, if there is one. -/
def digIn : ElementType → InitExpr → List Designator × Bool
  | .char, e => ([], handleSimpleInitializer .char e)
  | .scalar bitSize, e => ([], handleSimpleInitializer (.scalar bitSize) e)
  | .array element size, e =>
    if handleSimpleInitializer (.array element size) e then ([], true)
    else if size * element.bitSize = 0 then ([], false)
    else (.index 0 element :: (digIn element e).1, (digIn element e).2)
  | .compound symbol isUnion bitSize symbolList, e =>
    if handleSimpleInitializer (.compound symbol isUnion bitSize symbolList) e then ([], true)
    else digInFirst isUnion symbolList e

def digInFirst (isUnion : Bool) : Members → InitExpr → List Designator × Bool
  | .nil, _ => ([], false)
  | .cons _ field rest, e =>
    (.identifier field (nextSubobjects isUnion rest) :: (digIn field e).1, (digIn field e).2)

end

/-- `check_designators`, in a type with a size: the chain, the type it leads to, and the expression. -/
def checkDesignators : ElementType → InitExpr → Option (List Designator × ElementType × InitExpr)
  | .array element size, .index _ idxTo child =>
    if size * element.bitSize ≤ idxTo * element.bitSize then none
    else (checkDesignators element child).map fun (chain, r) => (.index idxTo element :: chain, r)
  | .compound _ isUnion _ symbolList, .identifier exprIdent child =>
    match findStructIdent exprIdent symbolList with
    | some (field, rest) =>
      (checkDesignators field child).map fun (chain, r) =>
        (.identifier field (nextSubobjects isUnion rest) :: chain, r)
    | none => none
  | _, .index _ _ _ | _, .identifier _ _ => none
  | ctype, e => some ([], ctype, e)

/-- `next_designators`, with the size of the type in bits. -/
def nextDesignators : ℤ → List Designator → Option (List Designator)
  | _, [] => none
  | bitSize, .index idxTo ctype :: old =>
    match nextDesignators ctype.bitSize old with
    | some copy => some (.index idxTo ctype :: copy)
    | none =>
      if (idxTo + 1) * ctype.bitSize = bitSize then none else some [.index (idxTo + 1) ctype]
  | _, .identifier field nextSubobject :: old =>
    match nextDesignators field.bitSize old with
    | some copy => some (.identifier field nextSubobject :: copy)
    | none =>
      match nextSubobject with
      | .nil => none
      | .cons _ next rest => some [.identifier next rest]

/-- The type that a chain leads to. -/
def chainType (t : ElementType) (chain : List Designator) : ElementType :=
  match chain.getLast? with
  | none => t
  | some (.index _ ctype) => ctype
  | some (.identifier field _) => field

/-- The size in bits that `examine_node_type` gives a symbol whose type is an array of `t` without a
size. The array type itself stays without one. -/
def symbolBits (t : ElementType) (initializer : InitExpr) : ℤ := t.bitSize * countArrayInitializer t initializer

/-- The chain for an entry without a designator in an array of `t` without a size: the one of
`first_subobject`, if there is none before it. -/
def nextChain (t : ElementType) (bitSize : ℤ) : Option (List Designator) → Option (List Designator)
  | none => some [.index 0 t]
  | some last => nextDesignators bitSize last

/-- An entry of `handle_list_initializer`, for a symbol of the given size whose type is an array of `t`
without a size: the chain of the entry, and what is initialized. An entry that is deleted initializes
nothing. -/
def handleEntry (t : ElementType) (bitSize : ℤ) (last : Option (List Designator)) (e : InitExpr) :
    Option (List Designator) × Option (List Designator) :=
  match e with
  | .index _ idxTo child =>
    match checkDesignators t child with
    | none => (last, none)
    | some (chain, ctype, value) =>
      let place := .index idxTo t :: chain ++ (digIn ctype value).1
      (some place, if (digIn ctype value).2 then some place else none)
  | .identifier _ _ => (last, none)
  | e =>
    match nextChain t bitSize last with
    | none => (last, none)
    | some chain =>
      let place := chain ++ (digIn (chainType t chain) e).1
      (some place, if (digIn (chainType t chain) e).2 then some place else none)

/-- `handle_list_initializer`: what each entry initializes. -/
def handleListInitializer (t : ElementType) (bitSize : ℤ) :
    Option (List Designator) → List InitExpr → List (Option (List Designator))
  | _, [] => []
  | last, e :: exprList =>
    (handleEntry t bitSize last e).2 :: handleListInitializer t bitSize (handleEntry t bitSize last e).1 exprList

/-- One more than the index of the array that a chain starts with. -/
def elementEnd : Option (List Designator) → ℕ
  | some (.index idxTo _ :: _) => idxTo + 1
  | _ => 0

/-- A string alone in the braces around it. -/
def stringInBraces : List InitExpr → Option ℕ
  | [e] => e.stringLiteral
  | _ => none

/-- `handle_simple_initializer` for an array of `t` without a size: one more than the largest index that
is initialized. -/
def evaluateInitializer (t : ElementType) : InitExpr → ℕ
  | .list exprList =>
    match if t.isByteType then stringInBraces exprList else none with
    | some length => length
    | none =>
      (handleListInitializer t (symbolBits t (.list exprList)) none exprList).foldl
        (fun nr place => max nr (elementEnd place)) 0
  | e => if t.isByteType then e.stringLiteral.getD 0 else 0

/-! ## A position that is a maximum -/

/-- What an entry does to the index of the element that is initialized: it sets it, it begins the next
element, or it continues one whose braces are left out. -/
inductive EntryKind
  | designates (idxTo : ℕ)
  | begins
  | continues

open EntryKind

def EntryKind.isPositional : EntryKind → Bool
  | designates _ => false
  | begins | continues => true

/-- The counter, one more than the current index, and one more than the largest. -/
structure Marks where
  counted : ℕ
  current : ℕ
  reached : ℕ

def Marks.step (m : Marks) : EntryKind → Marks
  | designates idxTo => ⟨max m.counted (idxTo + 1), idxTo + 1, max m.reached (idxTo + 1)⟩
  | begins => ⟨m.counted + 1, m.current + 1, max m.reached (m.current + 1)⟩
  | continues => ⟨m.counted + 1, m.current, m.reached⟩

def marks (kinds : List EntryKind) : Marks := kinds.foldl Marks.step ⟨0, 0, 0⟩

def positionals (kinds : List EntryKind) : ℕ := kinds.countP isPositional

/-- The list ends with an index that nothing before it can have counted beyond. -/
def Foremost (kinds : List EntryKind) : Prop :=
  kinds = [] ∨ ∃ earlier idxTo, kinds = earlier ++ [designates idxTo] ∧ positionals earlier ≤ idxTo + 1 ∧
    ∀ i later, (designates i :: later) <:+ earlier → i + 1 + positionals later ≤ idxTo + 1

/-- From the start, or from an index that is the foremost, every positional entry begins an element, and
after the last of them there are only indices. -/
def CountsElements (kinds : List EntryKind) : Prop :=
  ∃ first n indices, kinds = first ++ List.replicate n begins ++ indices ∧ Foremost first ∧
    ∀ k ∈ indices, k.isPositional = false

theorem marks_concat (kinds : List EntryKind) (k : EntryKind) : marks (kinds ++ [k]) = (marks kinds).step k := by
  rw [marks, List.foldl_append]
  rfl

theorem positionals_concat (kinds : List EntryKind) (k : EntryKind) :
    positionals (kinds ++ [k]) = positionals kinds + if k.isPositional then 1 else 0 := by
  rw [positionals, List.countP_append, List.countP_singleton]
  rfl

theorem marks_ordered (kinds : List EntryKind) :
    (marks kinds).current ≤ (marks kinds).reached ∧ (marks kinds).reached ≤ (marks kinds).counted := by
  induction kinds using List.reverseRecOn with
  | nil => exact ⟨le_rfl, le_rfl⟩
  | append_singleton kinds k ih =>
    obtain ⟨hcurrent, hreached⟩ := ih
    rw [marks_concat]
    cases k with
    | designates idxTo =>
      simp only [Marks.step]
      omega
    | begins =>
      simp only [Marks.step]
      omega
    | continues => exact ⟨hcurrent, hreached.trans (Nat.le_succ _)⟩

/-- The counter has counted from the start or from some index. -/
theorem counted_le_iff (kinds : List EntryKind) (bound : ℕ) :
    (marks kinds).counted ≤ bound ↔ positionals kinds ≤ bound ∧
      ∀ i later, (designates i :: later) <:+ kinds → i + 1 + positionals later ≤ bound := by
  induction kinds using List.reverseRecOn generalizing bound with
  | nil => simp [marks, positionals]
  | append_singleton kinds k ih =>
    have hsuffix : (∀ i later, (designates i :: later) <:+ kinds ++ [k] → i + 1 + positionals later ≤ bound) ↔
        (∀ i, k = designates i → i + 1 ≤ bound) ∧ ∀ i later, (designates i :: later) <:+ kinds →
          i + 1 + positionals (later ++ [k]) ≤ bound := by
      simp only [List.suffix_concat_iff]
      constructor
      · intro h
        refine ⟨?_, fun i later hlater => h i (later ++ [k]) (.inr ⟨designates i :: later, rfl, hlater⟩)⟩
        rintro i rfl
        exact h i [] (.inr ⟨[], rfl, List.nil_suffix⟩)
      · rintro ⟨hlast, hall⟩ i later (hnil | ⟨t, ht, hsuffix⟩)
        · simp at hnil
        · obtain _ | ⟨a, t⟩ := t
          · obtain ⟨rfl, rfl⟩ : designates i = k ∧ later = [] := by simpa using ht
            exact hlast i rfl
          · obtain ⟨rfl, rfl⟩ : designates i = a ∧ later = t ++ [k] := by simpa using ht
            exact hall i t hsuffix
    rw [marks_concat, hsuffix]
    simp only [positionals_concat]
    cases k with
    | designates idxTo =>
      simp only [Marks.step, Nat.max_le, ih, isPositional, designates.injEq, forall_eq', Nat.add_zero,
        Bool.false_eq_true, if_false]
      tauto
    | begins =>
      obtain _ | bound := bound
      · simp [Marks.step, isPositional]
      · simp only [Marks.step, Nat.add_le_add_iff_right, ih, isPositional, if_true, reduceCtorEq, false_imp_iff,
          implies_true, true_and, ← Nat.add_assoc]
    | continues =>
      obtain _ | bound := bound
      · simp [Marks.step, isPositional]
      · simp only [Marks.step, Nat.add_le_add_iff_right, ih, isPositional, if_true, reduceCtorEq, false_imp_iff,
          implies_true, true_and, ← Nat.add_assoc]

theorem foremost_concat_designates (kinds : List EntryKind) (idxTo : ℕ) :
    Foremost (kinds ++ [designates idxTo]) ↔ (marks kinds).counted ≤ idxTo + 1 := by
  rw [counted_le_iff]
  constructor
  · rintro (hnil | ⟨earlier, j, heq, hbound⟩)
    · simp at hnil
    · obtain ⟨rfl, hlast⟩ := List.append_inj' heq rfl
      obtain rfl : idxTo = j := by simpa using hlast
      exact hbound
  · intro hbound
    exact .inr ⟨kinds, idxTo, rfl, hbound⟩

/-- The counter is at the current element while all entries since the foremost index begin an element. -/
theorem counted_eq_current_iff (kinds : List EntryKind) :
    (marks kinds).counted = (marks kinds).current ↔
      ∃ first n, kinds = first ++ List.replicate n begins ∧ Foremost first := by
  induction kinds using List.reverseRecOn with
  | nil => exact ⟨fun _ => ⟨[], 0, rfl, .inl rfl⟩, fun _ => rfl⟩
  | append_singleton kinds k ih =>
    rw [marks_concat]
    constructor
    · intro h
      cases k with
      | designates idxTo =>
        simp only [Marks.step] at h
        exact ⟨kinds ++ [designates idxTo], 0, by simp, (foremost_concat_designates kinds idxTo).2 (by omega)⟩
      | begins =>
        obtain ⟨first, n, rfl, hfirst⟩ := ih.1 (Nat.succ.inj h)
        exact ⟨first, n + 1, by rw [List.replicate_succ', List.append_assoc], hfirst⟩
      | continues =>
        have := marks_ordered kinds
        simp only [Marks.step] at h
        omega
    · rintro ⟨first, n, heq, hfirst⟩
      obtain _ | n := n
      · rw [List.replicate_zero, List.append_nil] at heq
        subst heq
        obtain hnil | ⟨earlier, idxTo, heq, -⟩ := id hfirst
        · simp at hnil
        · obtain ⟨rfl, hlast⟩ := List.append_inj' heq rfl
          obtain rfl : k = designates idxTo := by simpa using hlast
          have := (foremost_concat_designates kinds idxTo).1 hfirst
          simp only [Marks.step]
          omega
      · rw [List.replicate_succ', ← List.append_assoc] at heq
        obtain ⟨hkinds, hlast⟩ := List.append_inj' heq rfl
        obtain rfl : k = begins := by simpa using hlast
        have := ih.2 ⟨first, n, hkinds, hfirst⟩
        simp only [Marks.step]
        omega

theorem marks_append_indices (kinds : List EntryKind) {indices : List EntryKind}
    (h : ∀ k ∈ indices, k.isPositional = false) (heq : (marks kinds).counted = (marks kinds).reached) :
    (marks (kinds ++ indices)).counted = (marks (kinds ++ indices)).reached := by
  induction indices using List.reverseRecOn with
  | nil => rwa [List.append_nil]
  | append_singleton indices k ih =>
    have heq := ih fun k hk => h k (List.mem_append_left _ hk)
    rw [← List.append_assoc, marks_concat]
    cases k with
    | designates idxTo => simp only [Marks.step, heq]
    | begins => exact absurd (h begins (by simp)) (by decide)
    | continues => exact absurd (h continues (by simp)) (by decide)

/-- The counter ends at the largest index exactly if it counts elements. -/
theorem counted_eq_reached_iff (kinds : List EntryKind) :
    (marks kinds).counted = (marks kinds).reached ↔ CountsElements kinds := by
  constructor
  · intro h
    induction kinds using List.reverseRecOn with
    | nil => exact ⟨[], 0, [], rfl, .inl rfl, by simp⟩
    | append_singleton kinds k ih =>
      have hordered := marks_ordered kinds
      have htight : (marks (kinds ++ [k])).counted = (marks (kinds ++ [k])).current →
          CountsElements (kinds ++ [k]) := by
        intro htight
        obtain ⟨first, n, heq, hfirst⟩ := (counted_eq_current_iff _).1 htight
        exact ⟨first, n, [], by rw [heq, List.append_nil], hfirst, by simp⟩
      rw [marks_concat] at h htight
      cases k with
      | designates idxTo =>
        simp only [Marks.step] at h htight
        by_cases hbeyond : (marks kinds).counted ≤ idxTo + 1
        · exact htight (by omega)
        · obtain ⟨first, n, indices, rfl, hfirst, hindices⟩ := ih (by omega)
          refine ⟨first, n, indices ++ [designates idxTo], by simp, hfirst, fun k hk => ?_⟩
          rcases List.mem_append.1 hk with hk | hk
          · exact hindices k hk
          · rw [List.mem_singleton.1 hk]
            rfl
      | begins =>
        simp only [Marks.step] at h htight
        exact htight (by omega)
      | continues =>
        simp only [Marks.step] at h
        omega
  · rintro ⟨first, n, indices, rfl, hfirst, hindices⟩
    have htight := (counted_eq_current_iff (first ++ List.replicate n begins)).2 ⟨first, n, rfl, hfirst⟩
    have hordered := marks_ordered (first ++ List.replicate n begins)
    exact marks_append_indices _ hindices (by omega)

/-! ## The entries of a list -/

/-- A positional entry continues an element in which the chain before it has a next subobject. -/
def entryKind (last : Option (List Designator)) : InitExpr → EntryKind
  | .index _ idxTo _ => designates idxTo
  | _ =>
    match last with
    | some (.index _ ctype :: old) =>
      if (nextDesignators ctype.bitSize old).isSome then continues else begins
    | _ => begins

/-- What the entries do one after the other. -/
def entryKinds (t : ElementType) (bitSize : ℤ) : Option (List Designator) → List InitExpr → List EntryKind
  | _, [] => []
  | last, e :: exprList => entryKind last e :: entryKinds t bitSize (handleEntry t bitSize last e).1 exprList

/-- The chain leads into the element before `current`. -/
def AtElement (t : ElementType) (current : ℕ) : Option (List Designator) → Prop
  | none => current = 0
  | some chain => ∃ i old, chain = .index i t :: old ∧ current = i + 1

variable {t : ElementType} {bitSize : ℤ} {last : Option (List Designator)} {e : InitExpr} {place : List Designator}
  {m : Marks}

/-- The next subobject is in the same element, or begins the next one. -/
theorem nextDesignators_some {i : ℕ} {old chain : List Designator}
    (h : nextDesignators bitSize (.index i t :: old) = some chain) :
    chain = match nextDesignators t.bitSize old with
      | some copy => .index i t :: copy
      | none => [.index (i + 1) t] := by
  rw [nextDesignators] at h
  split at h
  · exact (Option.some.inj h).symm
  · split at h
    · cases h
    · exact (Option.some.inj h).symm

theorem handleEntry_positional (hpositional : e.isDesignator = false) :
    handleEntry t bitSize last e =
      match nextChain t bitSize last with
      | none => (last, none)
      | some chain =>
        (some (chain ++ (digIn (chainType t chain) e).1),
          if (digIn (chainType t chain) e).2 then some (chain ++ (digIn (chainType t chain) e).1) else none) := by
  cases e with
  | index | identifier => exact Bool.noConfusion hpositional
  | _ => rfl

theorem entryKind_positional (hpositional : e.isDesignator = false) :
    entryKind last e =
      match last with
      | some (.index _ ctype :: old) =>
        if (nextDesignators ctype.bitSize old).isSome then continues else begins
      | _ => begins := by
  cases e with
  | index | identifier => exact Bool.noConfusion hpositional
  | _ => rfl

theorem nextChain_element {chain : List Designator} (hat : AtElement t m.current last)
    (hle : m.current ≤ m.reached) (hpositional : e.isDesignator = false)
    (hchain : nextChain t bitSize last = some chain) : ∃ i old, chain = .index i t :: old ∧
      (m.step (entryKind last e)).current = i + 1 ∧
      (m.step (entryKind last e)).reached = max m.reached (i + 1) := by
  rw [entryKind_positional hpositional]
  cases last with
  | none =>
    have hzero : m.current = 0 := hat
    exact ⟨0, [], (Option.some.inj hchain).symm, congrArg (· + 1) hzero,
      congrArg (fun c => max m.reached (c + 1)) hzero⟩
  | some last =>
    obtain ⟨i, old, rfl, hcurrent⟩ := hat
    have hnext := nextDesignators_some hchain
    simp only
    cases hold : nextDesignators t.bitSize old with
    | some copy =>
      rw [hold] at hnext
      refine ⟨i, copy, hnext, hcurrent, (max_eq_left ?_).symm⟩
      rwa [← hcurrent]
    | none =>
      rw [hold] at hnext
      exact ⟨i + 1, [], hnext, congrArg (· + 1) hcurrent, congrArg (fun c => max m.reached (c + 1)) hcurrent⟩

/-- An entry that initializes something leaves its chain, in the element that its kind says. -/
theorem handleEntry_accepted (hat : AtElement t m.current last) (hle : m.current ≤ m.reached)
    (h : (handleEntry t bitSize last e).2 = some place) :
    (handleEntry t bitSize last e).1 = some place ∧ AtElement t (m.step (entryKind last e)).current (some place) ∧
      max m.reached (elementEnd (some place)) = (m.step (entryKind last e)).reached := by
  by_cases hdesignator : e.isDesignator
  · cases e with
    | index idxFrom idxTo child =>
      simp only [handleEntry] at h ⊢
      split at h
      · simp at h
      · split at h
        · obtain rfl := Option.some.inj h
          exact ⟨rfl, ⟨idxTo, _, rfl, rfl⟩, rfl⟩
        · simp at h
    | identifier exprIdent child => simp [handleEntry] at h
    | _ => simp [InitExpr.isDesignator] at hdesignator
  · rw [Bool.not_eq_true] at hdesignator
    rw [handleEntry_positional hdesignator] at h ⊢
    cases hnext : nextChain t bitSize last with
    | none => simp [hnext] at h
    | some chain =>
      obtain ⟨i, old, rfl, hcurrent, hreached⟩ := nextChain_element hat hle hdesignator hnext
      simp only [hnext] at h ⊢
      split at h
      · obtain rfl := Option.some.inj h
        exact ⟨rfl, ⟨i, _, rfl, hcurrent⟩, hreached.symm⟩
      · simp at h

theorem step_counted {k : EntryKind} (h : k.isPositional = true) : (m.step k).counted = m.counted + 1 := by
  cases k with
  | designates idxTo => exact Bool.noConfusion h
  | begins => rfl
  | continues => rfl

theorem entryKind_isPositional (hpositional : e.isDesignator = false) : (entryKind last e).isPositional = true := by
  rw [entryKind_positional hpositional]
  split
  · split <;> rfl
  · rfl

theorem countEntry_nr {isChar : Bool} {s : Counting} (hs : s.nr = m.counted)
    (h : (handleEntry t bitSize last e).2 = some place) :
    (countEntry isChar s e).nr = (m.step (entryKind last e)).counted := by
  by_cases hdesignator : e.isDesignator
  · cases e with
    | index idxFrom idxTo child =>
      simp only [countEntry, entryKind, Marks.step, hs]
      split <;> omega
    | identifier exprIdent child => simp [handleEntry] at h
    | _ => simp [InitExpr.isDesignator] at hdesignator
  · rw [Bool.not_eq_true] at hdesignator
    rw [step_counted (entryKind_isPositional hdesignator), ← hs]
    cases e with
    | index | identifier => exact Bool.noConfusion hdesignator
    | _ => rfl

/-- Over a list whose entries all initialize something, the counter and the largest index are those of
what the entries do. -/
theorem handleListInitializer_marks {isChar : Bool} {exprList : List InitExpr} {s : Counting}
    (hs : s.nr = m.counted) (hat : AtElement t m.current last) (hle : m.current ≤ m.reached)
    (h : ∀ place ∈ handleListInitializer t bitSize last exprList, place.isSome) :
    (exprList.foldl (countEntry isChar) s).nr =
        ((entryKinds t bitSize last exprList).foldl Marks.step m).counted ∧
      (handleListInitializer t bitSize last exprList).foldl (fun nr place => max nr (elementEnd place)) m.reached =
        ((entryKinds t bitSize last exprList).foldl Marks.step m).reached := by
  induction exprList generalizing last s m with
  | nil => exact ⟨hs, rfl⟩
  | cons e exprList ih =>
    obtain ⟨place, hplace⟩ := Option.isSome_iff_exists.1 (h _ List.mem_cons_self)
    obtain ⟨hlast, hat', hreached⟩ := handleEntry_accepted hat hle hplace
    have hle' : (m.step (entryKind last e)).current ≤ (m.step (entryKind last e)).reached := by
      cases entryKind last e with
      | designates idxTo => exact le_max_right _ _
      | begins => exact le_max_right _ _
      | continues => exact hle
    have hnr : (countEntry isChar s e).nr = (m.step (entryKind last e)).counted := countEntry_nr hs hplace
    have htail := ih hnr (hlast ▸ hat') hle' fun place hmem => h place (List.mem_cons_of_mem _ hmem)
    rw [handleListInitializer, entryKinds, List.foldl_cons, List.foldl_cons, List.foldl_cons, hplace, hreached]
    exact htail

theorem foldl_countEntry_count (isChar : Bool) (exprList : List InitExpr) (s : Counting) :
    (exprList.foldl (countEntry isChar) s).count = s.count + exprList.length := by
  induction exprList generalizing s with
  | nil => rfl
  | cons e exprList ih =>
    have hone : (countEntry isChar s e).count = s.count + 1 := by
      cases e <;> rfl
    rw [List.foldl_cons, ih, hone, List.length_cons]
    omega

/-! ## The size of the array -/

/-- The initializer is one that is evaluated without an error: a string for an array of bytes, or a list of
which no entry is deleted. -/
def Accepted (t : ElementType) : InitExpr → Prop
  | .list exprList => (t.isByteType = true ∧ (stringInBraces exprList).isSome) ∨
      ∀ place ∈ handleListInitializer t (symbolBits t (.list exprList)) none exprList, place.isSome
  | e => t.isByteType = true ∧ e.stringLiteral.isSome

/-- A string for an array of bytes is one of characters, without parentheses, or has a single byte in
braces; the entries of a list count elements. -/
def CountedRight (t : ElementType) : InitExpr → Prop
  | .list exprList =>
    match if t.isByteType then stringInBraces exprList else none with
    | some length => (t.isChar = true ∧ ∃ chars, exprList = [.string chars]) ∨ length = 1
    | none => CountsElements (entryKinds t (symbolBits t (.list exprList)) none exprList)
  | .string _ => t.isChar = true
  | _ => False

theorem stringLiteral_pos : ∀ {e : InitExpr} {length : ℕ}, e.stringLiteral = some length → 0 < length
  | .string chars, _, h => by
    obtain rfl := Option.some.inj h
    exact Nat.succ_pos chars
  | .parens unop, _, h => stringLiteral_pos (e := unop) h

theorem isByteType_of_isChar (h : t.isChar = true) : t.isByteType = true := by
  cases t with
  | char => rfl
  | _ => exact Bool.noConfusion h

/-- The counter is the number of elements, but for a string of characters alone in braces. -/
theorem countArrayInitializer_list {exprList : List InitExpr}
    (h : ¬ (t.isChar = true ∧ ∃ chars, exprList = [.string chars])) :
    countArrayInitializer t (.list exprList) = (exprList.foldl (countEntry t.isChar) ⟨0, 0, 0⟩).nr := by
  rw [countArrayInitializer]
  refine if_neg fun ⟨hcount, hlen⟩ => ?_
  rw [foldl_countEntry_count, Nat.zero_add] at hcount
  obtain ⟨e, rfl⟩ := List.length_eq_one_iff.1 hcount
  cases e with
  | string chars =>
    by_cases hchar : t.isChar = true
    · exact h ⟨hchar, chars, rfl⟩
    · simp [countEntry, hchar] at hlen
  | _ => exact hlen rfl

theorem countArrayInitializer_stringInBraces {exprList : List InitExpr} {length : ℕ}
    (h : stringInBraces exprList = some length) :
    countArrayInitializer t (.list exprList) = length ↔
      (t.isChar = true ∧ ∃ chars, exprList = [.string chars]) ∨ length = 1 := by
  by_cases hbare : t.isChar = true ∧ ∃ chars, exprList = [.string chars]
  · obtain ⟨hchar, chars, rfl⟩ := hbare
    obtain rfl : chars + 1 = length := Option.some.inj h
    simp [countArrayInitializer, countEntry, hchar]
  · rw [countArrayInitializer_list hbare]
    simp only [hbare, false_or]
    obtain ⟨e, rfl⟩ : ∃ e, exprList = [e] := by
      match exprList, h with
      | [e], _ => exact ⟨e, rfl⟩
    have hone : (List.foldl (countEntry t.isChar) ⟨0, 0, 0⟩ [e]).nr = 1 := by
      cases e with
      | index idxFrom idxTo child => exact nomatch h
      | _ => rfl
    rw [hone, eq_comm]

/-- The size that an array gets from an initializer without errors is the number of elements that are
initialized exactly if a string is one of characters without parentheses, and the entries of a list, from
the start or from the foremost index on, begin an element each. -/
theorem countArrayInitializer_eq_iff (t : ElementType) (expr : InitExpr) (h : Accepted t expr) :
    countArrayInitializer t expr = evaluateInitializer t expr ↔ CountedRight t expr := by
  cases expr with
  | list exprList =>
    cases hstring : if t.isByteType then stringInBraces exprList else none with
    | some length =>
      simp only [evaluateInitializer, CountedRight, hstring]
      split at hstring
      · exact countArrayInitializer_stringInBraces hstring
      · simp at hstring
    | none =>
      have hall : ∀ place ∈ handleListInitializer t (symbolBits t (.list exprList)) none exprList,
          place.isSome := by
        rcases h with ⟨hbyte, hsome⟩ | hall
        · rw [if_pos hbyte] at hstring
          simp [hstring] at hsome
        · exact hall
      have hbare : ¬ (t.isChar = true ∧ ∃ chars, exprList = [.string chars]) := by
        rintro ⟨hchar, chars, rfl⟩
        rw [if_pos (isByteType_of_isChar hchar)] at hstring
        simp [stringInBraces, InitExpr.stringLiteral] at hstring
      obtain ⟨hcounted, hreached⟩ : (exprList.foldl (countEntry t.isChar) ⟨0, 0, 0⟩).nr =
            (marks (entryKinds t (symbolBits t (.list exprList)) none exprList)).counted ∧
          (handleListInitializer t (symbolBits t (.list exprList)) none exprList).foldl
              (fun nr place => max nr (elementEnd place)) 0 =
            (marks (entryKinds t (symbolBits t (.list exprList)) none exprList)).reached :=
        handleListInitializer_marks rfl rfl le_rfl hall
      simp only [evaluateInitializer, CountedRight, hstring]
      rw [countArrayInitializer_list hbare, hcounted, hreached]
      exact counted_eq_reached_iff _
  | string chars =>
    obtain ⟨hbyte, -⟩ := h
    by_cases hchar : t.isChar = true
    · simp [countArrayInitializer, evaluateInitializer, CountedRight, InitExpr.stringLiteral, hbyte, hchar]
    · simp [countArrayInitializer, evaluateInitializer, CountedRight, InitExpr.stringLiteral, hbyte, hchar]
  | parens unop =>
    obtain ⟨hbyte, hsome⟩ := h
    obtain ⟨length, hlength⟩ := Option.isSome_iff_exists.1 hsome
    have hpos := stringLiteral_pos hlength
    simp only [countArrayInitializer, evaluateInitializer, CountedRight, hbyte, if_true, hlength,
      Option.getD_some, iff_false]
    omega
  | _ => exact absurd h.2 (by simp [InitExpr.stringLiteral])

/-- `int x[] = { 1, 2, [5] = 3, 4 };` -/
theorem countArrayInitializer_foremost :
    Accepted (.scalar 32) (.list [.scalar, .scalar, .index 5 5 .scalar, .scalar]) ∧
      countArrayInitializer (.scalar 32) (.list [.scalar, .scalar, .index 5 5 .scalar, .scalar]) =
        evaluateInitializer (.scalar 32) (.list [.scalar, .scalar, .index 5 5 .scalar, .scalar]) := by
  have haccepted : Accepted (.scalar 32) (.list [.scalar, .scalar, .index 5 5 .scalar, .scalar]) := by
    refine .inr fun place hplace => ?_
    simp only [handleListInitializer, List.mem_cons, List.not_mem_nil, or_false] at hplace
    rcases hplace with rfl | rfl | rfl | rfl <;> rfl
  have hforemost : Foremost [begins, begins, designates 5] := by
    refine .inr ⟨[begins, begins], 5, rfl, by decide, fun i later hsuffix => ?_⟩
    have hmem : designates i ∈ [begins, begins] := hsuffix.subset List.mem_cons_self
    simp at hmem
  exact ⟨haccepted, (countArrayInitializer_eq_iff _ _ haccepted).2
    ⟨[begins, begins, designates 5], 1, [], rfl, hforemost, by simp⟩⟩

/-- `int x[] = { [5] = 1, [0] = 2, 3 };` gets seven elements, and
`struct { int a, b; } x[] = { 1, 2, 3, 4 };` four. -/
theorem countArrayInitializer_differs :
    Accepted (.scalar 32) (.list [.index 5 5 .scalar, .index 0 0 .scalar, .scalar]) ∧
      countArrayInitializer (.scalar 32) (.list [.index 5 5 .scalar, .index 0 0 .scalar, .scalar]) = 7 ∧
      evaluateInitializer (.scalar 32) (.list [.index 5 5 .scalar, .index 0 0 .scalar, .scalar]) = 6 ∧
      countArrayInitializer
        (.compound 0 false 64 (.cons 1 (.scalar 32) (.cons 2 (.scalar 32) .nil)))
        (.list [.scalar, .scalar, .scalar, .scalar]) = 4 ∧
      evaluateInitializer
        (.compound 0 false 64 (.cons 1 (.scalar 32) (.cons 2 (.scalar 32) .nil)))
        (.list [.scalar, .scalar, .scalar, .scalar]) = 2 := by
  have haccepted : Accepted (.scalar 32) (.list [.index 5 5 .scalar, .index 0 0 .scalar, .scalar]) := by
    refine .inr fun place hplace => ?_
    simp only [handleListInitializer, List.mem_cons, List.not_mem_nil, or_false] at hplace
    rcases hplace with rfl | rfl | rfl <;> rfl
  exact ⟨haccepted, rfl, rfl, rfl, rfl⟩

end ArrayInitializer

end Sparse
