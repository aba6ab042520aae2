import Mathlib.Data.List.Nodup
import Mathlib.Logic.Function.Basic

/-!
# Provenance chains

The cons cells that `expansion_consume` and `expansion_produce` hang on tokens, and what
their links are for: from the latest cell of a token the links `up` lead through all
cells recorded for it, and `down` leads back.
-/

namespace Sparse.ProvenanceChains

abbrev Token := ℕ
abbrev ConsId := ℕ
abbrev ExpansionId := ℕ

/-- The fields of the cons cells and the field `c` of the tokens. -/
structure State where
  allocated : ℕ
  token : ConsId → Token
  expansion : ConsId → Option ExpansionId
  up : ConsId → Option ConsId
  down : ConsId → Option ConsId
  latest : Token → Option ConsId

def State.initial : State where
  allocated := 0
  token _ := 0
  expansion _ := none
  up _ := none
  down _ := none
  latest _ := none

/-! ## The functions -/

/-- The cell that `cons_list` allocates for a token. -/
def consOne (s : State) (t : Token) : State :=
  { s with
    allocated := s.allocated + 1
    token := Function.update s.token s.allocated t
    expansion := Function.update s.expansion s.allocated none
    up := Function.update s.up s.allocated none
    down := Function.update s.down s.allocated none }

/-- `cons_list` of the tokens before its end, with the cells it links by `next`. -/
def consList (s : State) (tokens : List Token) : State × List ConsId :=
  (tokens.foldl consOne s, List.range' s.allocated tokens.length)

/-- The loop body of `expansion_consume`, for the list with the head `c`. -/
def consumeCell (e : ExpansionId) (c : ConsId) (s : State) (l : ConsId) : State :=
  let s := { s with expansion := Function.update s.expansion l (some e) }
  match s.latest (s.token l) with
  | none => s
  | some p =>
    { s with
      down := Function.update s.down p (some l)
      up := Function.update s.up l (some c)
      latest := Function.update s.latest (s.token l) (some l) }

def expansionConsume (s : State) (e : ExpansionId) : List ConsId → State
  | [] => s
  | c :: cells => (c :: cells).foldl (consumeCell e c) s

/-- The loop body of `expansion_produce`. -/
def produceCell (e : ExpansionId) (s : State) (l : ConsId) : State :=
  { s with
    expansion := Function.update s.expansion l (some e)
    latest := Function.update s.latest (s.token l) (some l) }

def expansionProduce (s : State) (e : ExpansionId) (cells : List ConsId) : State :=
  cells.foldl (produceCell e) s

inductive Call
  | cons (tokens : List Token)
  | consume (e : ExpansionId) (cells : List ConsId)
  | produce (e : ExpansionId) (cells : List ConsId)
  deriving DecidableEq, Repr

def Call.exec (s : State) : Call → State
  | cons tokens => (consList s tokens).1
  | consume e cells => expansionConsume s e cells
  | produce e cells => expansionProduce s e cells

def run (s : State) (calls : List Call) : State :=
  calls.foldl Call.exec s

/-- The cells of a call come from `cons_list`, one time each, and no call has had them. -/
def Call.Valid (s : State) : Call → Prop
  | cons _ => True
  | consume _ cells => cells.Nodup ∧ ∀ l ∈ cells, l < s.allocated ∧ s.expansion l = none
  | produce _ cells => cells.Nodup ∧ ∀ l ∈ cells, l < s.allocated ∧ s.expansion l = none

def ValidRun : State → List Call → Prop
  | _, [] => True
  | s, call :: calls => call.Valid s ∧ ValidRun (call.exec s) calls

/-! ## The chains -/

/-- The cells recorded for each token, the newest first: the values that its field `c` has had. -/
abbrev Records := Token → List ConsId

def Records.push (r : Records) (t : Token) (l : ConsId) : Records :=
  Function.update r t (l :: r t)

/-- The cells become recorded in the order in which a loop makes them the latest ones. -/
def record (body : State → ConsId → State) : State → Records → List ConsId → Records
  | _, r, [] => r
  | s, r, l :: cells =>
    let s' := body s l
    record body s' (if s'.latest (s.token l) = some l then r.push (s.token l) l else r) cells

def Call.record (s : State) (r : Records) : Call → Records
  | cons _ => r
  | consume e cells => ProvenanceChains.record (consumeCell e (cells.headD 0)) s r cells
  | produce e cells => ProvenanceChains.record (produceCell e) s r cells

/-- From `start` the links `up` lead through the cells and end after the last one. -/
def Leads (s : State) : Option ConsId → List ConsId → Prop
  | start, [] => start = none
  | start, l :: cells => start = some l ∧ Leads s (s.up l) cells

/-- The chains of all tokens are as they should be. -/
structure Consistent (s : State) (r : Records) : Prop where
  leads : ∀ t, Leads s (s.latest t) (r t)
  nodup : ∀ t, (r t).Nodup
  inverse : ∀ l p, s.up l = some p ↔ s.down p = some l

/-- The consumption of `l` links it with the latest cell of its token. -/
def Links (s s' : State) (l : ConsId) : Prop :=
  ∀ p, s.latest (s.token l) = some p →
    s'.down p = some l ∧ s'.up l = some p ∧ s'.latest (s.token l) = some l

/-- Each iteration of a loop links its cell. -/
def LinksAll (body : State → ConsId → State) : State → List ConsId → Prop
  | _, [] => True
  | s, l :: cells => Links s (body s l) l ∧ LinksAll body (body s l) cells

def Call.LinksCells (s : State) : Call → Prop
  | cons _ => True
  | consume e cells => LinksAll (consumeCell e (cells.headD 0)) s cells
  | produce _ _ => True

/-- Every consumption of the run links its cells, and the chains are consistent after every call. -/
def KeepsChains : State → Records → List Call → Prop
  | _, _, [] => True
  | s, r, call :: calls =>
    call.LinksCells s ∧ Consistent (call.exec s) (call.record s r) ∧
      KeepsChains (call.exec s) (call.record s r) calls

/-- The call meets no token that has a cons cell already. -/
def Call.MeetsNew (s : State) : Call → Prop
  | cons _ => True
  | consume _ cells => ∀ l ∈ cells, s.latest (s.token l) = none
  | produce _ cells => (cells.map s.token).Nodup ∧ ∀ l ∈ cells, s.latest (s.token l) = none

def MeetsNewThroughout : State → List Call → Prop
  | _, [] => True
  | s, call :: calls => call.MeetsNew s ∧ MeetsNewThroughout (call.exec s) calls

/-! ## Calls that meet new tokens -/

variable {s : State} {r : Records} {e : ExpansionId} {c l p : ConsId} {t : Token} {cells : List ConsId}

/-- No cell has a link, and the latest cell of a token is the only one recorded for it. -/
structure Simple (s : State) (r : Records) : Prop where
  up_none : ∀ l, s.up l = none
  down_none : ∀ l, s.down l = none
  records : ∀ t, r t = (s.latest t).toList
  used : ∀ t l, s.latest t = some l → l < s.allocated ∧ (s.expansion l).isSome

theorem Simple.initial : Simple State.initial fun _ => [] where
  up_none _ := rfl
  down_none _ := rfl
  records _ := rfl
  used _ _ h := by cases h

theorem Simple.consistent (h : Simple s r) : Consistent s r where
  leads t := by
    rw [h.records]
    cases s.latest t with
    | none => rfl
    | some l => exact ⟨rfl, h.up_none l⟩
  nodup t := by
    rw [h.records]
    cases s.latest t with
    | none => exact List.nodup_nil
    | some l => exact List.nodup_singleton l
  inverse l p := by simp [h.up_none, h.down_none]

theorem consumeCell_of_none (h : s.latest (s.token l) = none) :
    consumeCell e c s l = { s with expansion := Function.update s.expansion l (some e) } := by
  simp [consumeCell, h]

theorem consumeCell_of_some (h : s.latest (s.token l) = some p) :
    consumeCell e c s l =
      { s with
        expansion := Function.update s.expansion l (some e)
        down := Function.update s.down p (some l)
        up := Function.update s.up l (some c)
        latest := Function.update s.latest (s.token l) (some l) } := by
  simp [consumeCell, h]

theorem Simple.cons (h : Simple s r) (t : Token) : Simple (consOne s t) r where
  up_none l := by
    by_cases hl : l = s.allocated
    · simp [consOne, hl]
    · simp [consOne, hl, h.up_none]
  down_none l := by
    by_cases hl : l = s.allocated
    · simp [consOne, hl]
    · simp [consOne, hl, h.down_none]
  records := h.records
  used t' l hl := by
    obtain ⟨hlt, hsome⟩ := h.used t' l hl
    refine ⟨Nat.lt_succ_of_lt hlt, ?_⟩
    simpa [consOne, Nat.ne_of_lt hlt] using hsome

theorem Simple.consList (h : Simple s r) (tokens : List Token) : Simple (consList s tokens).1 r := by
  unfold ProvenanceChains.consList
  induction tokens generalizing s with
  | nil => exact h
  | cons t tokens ih => exact ih (h.cons t)

theorem Simple.setExpansion (h : Simple s r) (l : ConsId) (e : ExpansionId) :
    Simple { s with expansion := Function.update s.expansion l (some e) } r where
  up_none := h.up_none
  down_none := h.down_none
  records := h.records
  used t l' hl' := by
    obtain ⟨hlt, hsome⟩ := h.used t l' hl'
    refine ⟨hlt, ?_⟩
    by_cases heq : l' = l
    · simp [heq]
    · simpa [heq] using hsome

/-- The consumption of new tokens leaves all links and records as they are. -/
theorem Simple.consume (h : Simple s r) (hnew : ∀ l ∈ cells, s.latest (s.token l) = none) :
    LinksAll (consumeCell e c) s cells ∧
      Simple (cells.foldl (consumeCell e c) s) (record (consumeCell e c) s r cells) := by
  induction cells generalizing s with
  | nil => exact ⟨trivial, h⟩
  | cons l cells ih =>
    have hl := hnew l List.mem_cons_self
    have hlinks : Links s (consumeCell e c s l) l := fun p hp => by
      rw [hl] at hp
      cases hp
    have hrest := ih (s := consumeCell e c s l) (by
      rw [consumeCell_of_none hl]
      exact h.setExpansion l e) (by
      rw [consumeCell_of_none hl]
      exact fun l' hl' => hnew l' (List.mem_cons_of_mem _ hl'))
    refine ⟨⟨hlinks, hrest.1⟩, ?_⟩
    have hrecord : record (consumeCell e c) s r (l :: cells) =
        record (consumeCell e c) (consumeCell e c s l) r cells := by
      have hlatest : (consumeCell e c s l).latest (s.token l) ≠ some l := by simp [consumeCell_of_none hl, hl]
      simp [record, hlatest]
    rw [hrecord]
    exact hrest.2

theorem Simple.produce (h : Simple s r) (hlt : ∀ l ∈ cells, l < s.allocated)
    (hnodup : (cells.map s.token).Nodup) (hnew : ∀ l ∈ cells, s.latest (s.token l) = none) :
    Simple (cells.foldl (produceCell e) s) (record (produceCell e) s r cells) := by
  induction cells generalizing s r with
  | nil => exact h
  | cons l cells ih =>
    have hl := hnew l List.mem_cons_self
    rw [List.map_cons, List.nodup_cons] at hnodup
    have hstep : Simple (produceCell e s l) (r.push (s.token l) l) := by
      refine ⟨h.up_none, h.down_none, fun t => ?_, fun t l' hl' => ?_⟩
      · by_cases ht : t = s.token l
        · simp [Records.push, produceCell, ht, h.records, hl]
        · simp [Records.push, produceCell, ht, h.records]
      · by_cases heq : l' = l
        · subst heq
          exact ⟨hlt l' List.mem_cons_self, by simp [produceCell]⟩
        · have hold : s.latest t = some l' := by
            by_cases ht : t = s.token l
            · simp [produceCell, ht, Ne.symm heq] at hl'
            · simpa [produceCell, ht] using hl'
          obtain ⟨hlt', hsome⟩ := h.used t l' hold
          exact ⟨hlt', by simpa [produceCell, heq] using hsome⟩
    have hrecord : record (produceCell e) s r (l :: cells) =
        record (produceCell e) (produceCell e s l) (r.push (s.token l) l) cells := by
      simp [record, produceCell]
    rw [hrecord, List.foldl_cons]
    refine ih hstep (fun l' hl' => hlt l' (List.mem_cons_of_mem _ hl')) hnodup.2 fun l' hl' => ?_
    have hne : s.token l' ≠ s.token l := fun heq => hnodup.1 (heq ▸ List.mem_map_of_mem hl')
    simpa [produceCell, hne] using hnew l' (List.mem_cons_of_mem _ hl')

theorem expansionConsume_eq (s : State) (e : ExpansionId) (cells : List ConsId) :
    expansionConsume s e cells = cells.foldl (consumeCell e (cells.headD 0)) s := by
  cases cells with
  | nil => rfl
  | cons c cells => rfl

/-! ## Calls that meet a token with a cell -/

/-- A loop changes the link `up` of its own cells only. -/
theorem foldl_consumeCell_up (h : l ∉ cells) : (cells.foldl (consumeCell e c) s).up l = s.up l := by
  induction cells generalizing s with
  | nil => rfl
  | cons l' cells ih =>
    obtain ⟨hne, hnot⟩ := not_or.mp (List.mem_cons.not.mp h)
    rw [List.foldl_cons, ih hnot]
    cases hl : s.latest (s.token l') with
    | none => rw [consumeCell_of_none hl]
    | some p => simp [consumeCell_of_some hl, hne]

/-- It sets links `down` to its own cells only. -/
theorem foldl_consumeCell_down (h : l ∉ cells) (hdown : s.down p ≠ some l) :
    (cells.foldl (consumeCell e c) s).down p ≠ some l := by
  induction cells generalizing s with
  | nil => exact hdown
  | cons l' cells ih =>
    obtain ⟨hne, hnot⟩ := not_or.mp (List.mem_cons.not.mp h)
    refine ih hnot ?_
    cases hl : s.latest (s.token l') with
    | none => rwa [consumeCell_of_none hl]
    | some q =>
      rw [consumeCell_of_some hl]
      by_cases hq : p = q
      · simp [hq, Ne.symm hne]
      · simpa [hq] using hdown

/-- A cell that is no token's latest one gets no link `down`. -/
theorem foldl_consumeCell_down_none (h : p ∉ cells) (hlatest : ∀ t, s.latest t ≠ some p) (hdown : s.down p = none) :
    (cells.foldl (consumeCell e c) s).down p = none := by
  induction cells generalizing s with
  | nil => exact hdown
  | cons l' cells ih =>
    obtain ⟨hne, hnot⟩ := not_or.mp (List.mem_cons.not.mp h)
    refine ih hnot ?_ ?_
    · intro t
      cases hl : s.latest (s.token l') with
      | none =>
        rw [consumeCell_of_none hl]
        exact hlatest t
      | some q =>
        rw [consumeCell_of_some hl]
        by_cases ht : t = s.token l'
        · simp [ht, Ne.symm hne]
        · simpa [ht] using hlatest t
    · cases hl : s.latest (s.token l') with
      | none => rwa [consumeCell_of_none hl]
      | some q =>
        have hpq : p ≠ q := fun heq => hlatest _ (heq ▸ hl)
        simpa [consumeCell_of_some hl, hpq] using hdown

/-- Where the token of the head has a cell, the head is linked with itself. -/
theorem consume_head (hnodup : (c :: cells).Nodup) (hc : s.latest (s.token c) = some p) (hpc : p ≠ c)
    (hdown : s.down c ≠ some c) :
    ((c :: cells).foldl (consumeCell e c) s).up c = some c ∧
      ((c :: cells).foldl (consumeCell e c) s).down c ≠ some c := by
  have hnot := (List.nodup_cons.mp hnodup).1
  rw [List.foldl_cons]
  constructor
  · rw [foldl_consumeCell_up hnot, consumeCell_of_some hc]
    simp
  · refine foldl_consumeCell_down hnot ?_
    rw [consumeCell_of_some hc]
    simpa [Ne.symm hpc] using hdown

/-- Where the token of the head has none, the first cell of a token that has one is
linked with the head, which is not a cell of the token's chain. -/
theorem consume_tail (hnodup : cells.Nodup) (hnot : c ∉ cells) (hlatest : ∀ t, s.latest t ≠ some c)
    (hdown : s.down c = none) (hl : l ∈ cells) (hp : s.latest (s.token l) ≠ none) :
    ∃ x, (cells.foldl (consumeCell e c) s).up x = some c ∧ (cells.foldl (consumeCell e c) s).down c = none := by
  induction cells generalizing s with
  | nil => cases hl
  | cons l' cells ih =>
    obtain ⟨hne, hcells⟩ := not_or.mp (List.mem_cons.not.mp hnot)
    obtain ⟨hl', hnodup'⟩ := List.nodup_cons.mp hnodup
    cases hfirst : s.latest (s.token l') with
    | some q =>
      refine ⟨l', ?_, foldl_consumeCell_down_none hnot hlatest hdown⟩
      rw [List.foldl_cons, foldl_consumeCell_up hl', consumeCell_of_some hfirst]
      simp
    | none =>
      rw [List.foldl_cons, consumeCell_of_none hfirst]
      refine ih hnodup' hcells hlatest hdown ?_ hp
      rcases List.mem_cons.mp hl with rfl | hl
      · exact absurd hfirst hp
      · exact hl

theorem not_consistent_consume (h : Simple s r) (hvalid : (Call.consume e cells).Valid s) (hl : l ∈ cells)
    (hp : s.latest (s.token l) ≠ none) (r' : Records) : ¬Consistent (expansionConsume s e cells) r' := by
  intro hcons
  have hunused : ∀ c ∈ cells, ∀ t, s.latest t ≠ some c := by
    intro c hc t ht
    have hsome := (h.used t c ht).2
    rw [(hvalid.2 c hc).2] at hsome
    cases hsome
  cases cells with
  | nil => cases hl
  | cons c cells =>
    have hcl := hunused c List.mem_cons_self
    cases hc : s.latest (s.token c) with
    | some p =>
      have hpc : p ≠ c := fun heq => hcl _ (heq ▸ hc)
      obtain ⟨hup, hdown⟩ := consume_head (e := e) hvalid.1 hc hpc (by simp [h.down_none])
      exact hdown ((hcons.inverse c c).mp hup)
    | none =>
      obtain ⟨hnot, hnodup⟩ := List.nodup_cons.mp hvalid.1
      have hmem : l ∈ cells := by
        rcases List.mem_cons.mp hl with rfl | hl
        · exact absurd hc hp
        · exact hl
      obtain ⟨x, hup, hdown⟩ := consume_tail (s := consumeCell e c s c) (e := e) hnodup hnot
        (by rw [consumeCell_of_none hc]; exact hcl) (by rw [consumeCell_of_none hc]; exact h.down_none c) hmem
        (by rw [consumeCell_of_none hc]; exact hp)
      have hdown' := (hcons.inverse x c).mp hup
      cases hdown.symm.trans hdown'

theorem foldl_produceCell_up (s : State) (e : ExpansionId) (cells : List ConsId) :
    (cells.foldl (produceCell e) s).up = s.up := by
  induction cells generalizing s with
  | nil => rfl
  | cons l cells ih => exact ih _

/-- Every produced cell is recorded for its token. -/
theorem record_produceCell (s : State) (r : Records) (cells : List ConsId) (t : Token) :
    record (produceCell e) s r cells t = (cells.filter fun l => s.token l = t).reverse ++ r t := by
  induction cells generalizing s r with
  | nil => rfl
  | cons l cells ih =>
    have hrecord : record (produceCell e) s r (l :: cells) =
        record (produceCell e) (produceCell e s l) (r.push (s.token l) l) cells := by
      simp [record, produceCell]
    rw [hrecord, ih]
    change (cells.filter fun l => s.token l = t).reverse ++ _ = _
    by_cases ht : s.token l = t
    · subst ht
      simp [Records.push]
    · simp [Records.push, ht, Ne.symm ht]

/-- Without links a chain has at most one cell. -/
theorem length_le_one_of_leads {start : Option ConsId} (hup : ∀ l, s.up l = none) (h : Leads s start cells) :
    cells.length ≤ 1 := by
  cases cells with
  | nil => exact Nat.zero_le _
  | cons l cells =>
    cases cells with
    | nil => exact Nat.le_refl _
    | cons l' cells =>
      have hnext := h.2.1
      rw [hup] at hnext
      cases hnext

theorem meetsNew_of_consistent_produce (h : Simple s r)
    (hcons : Consistent (expansionProduce s e cells) (record (produceCell e) s r cells)) :
    (Call.produce e cells).MeetsNew s := by
  have hup : ∀ l, (expansionProduce s e cells).up l = none := by
    intro l
    rw [expansionProduce, foldl_produceCell_up]
    exact h.up_none l
  have hshort : ∀ t, ((cells.filter fun l => s.token l = t).reverse ++ r t).length ≤ 1 := by
    intro t
    have hle := length_le_one_of_leads hup (hcons.leads t)
    rwa [record_produceCell] at hle
  constructor
  · refine List.nodup_iff_count_le_one.mpr fun t => ?_
    have hle := hshort t
    rw [List.length_append, List.length_reverse, ← List.countP_eq_length_filter] at hle
    have hcount : (cells.map s.token).count t = cells.countP fun l => s.token l = t := by
      rw [List.count, List.countP_map]
      exact List.countP_congr fun l _ => by simp
    omega
  · intro l hl
    have hle := hshort (s.token l)
    have hpos : 0 < (cells.filter fun l' => s.token l' = s.token l).length :=
      List.length_pos_of_mem (List.mem_filter.mpr ⟨hl, by simp⟩)
    rw [List.length_append, List.length_reverse, h.records] at hle
    cases hlatest : s.latest (s.token l) with
    | none => rfl
    | some p =>
      rw [hlatest, Option.toList_some, List.length_singleton] at hle
      omega

/-! ## Runs -/

/-- A call from a simple state keeps the chains if and only if it meets new tokens, and
then the state is simple again. -/
theorem call_keeps_iff {call : Call} (h : Simple s r) (hvalid : call.Valid s) :
    (call.LinksCells s ∧ Consistent (call.exec s) (call.record s r)) ↔ call.MeetsNew s := by
  cases call with
  | cons tokens => exact iff_of_true ⟨trivial, (h.consList tokens).consistent⟩ trivial
  | consume e cells =>
    constructor
    · rintro ⟨-, hcons⟩ l hl
      by_contra hp
      exact not_consistent_consume h hvalid hl hp _ hcons
    · intro hnew
      have hkeep := h.consume (e := e) (c := cells.headD 0) hnew
      refine ⟨hkeep.1, ?_⟩
      have hcons := hkeep.2.consistent
      rwa [← expansionConsume_eq] at hcons
  | produce e cells =>
    constructor
    · rintro ⟨-, hcons⟩
      exact meetsNew_of_consistent_produce h hcons
    · intro hnew
      exact ⟨trivial, (h.produce (fun l hl => (hvalid.2 l hl).1) hnew.1 hnew.2).consistent⟩

theorem Simple.call {call : Call} (h : Simple s r) (hvalid : call.Valid s) (hnew : call.MeetsNew s) :
    Simple (call.exec s) (call.record s r) := by
  cases call with
  | cons tokens => exact h.consList tokens
  | consume e cells =>
    have hkeep := (h.consume (e := e) (c := cells.headD 0) hnew).2
    rwa [← expansionConsume_eq] at hkeep
  | produce e cells => exact h.produce (fun l hl => (hvalid.2 l hl).1) hnew.1 hnew.2

theorem Simple.keeps_iff {calls : List Call} (h : Simple s r) (hvalid : ValidRun s calls) :
    KeepsChains s r calls ↔ MeetsNewThroughout s calls := by
  induction calls generalizing s r with
  | nil => exact Iff.rfl
  | cons call calls ih =>
    have hstep := call_keeps_iff h hvalid.1
    constructor
    · rintro ⟨hlinks, hcons, hrest⟩
      have hnew := hstep.mp ⟨hlinks, hcons⟩
      exact ⟨hnew, (ih (h.call hvalid.1 hnew) hvalid.2).mp hrest⟩
    · rintro ⟨hnew, hrest⟩
      obtain ⟨hlinks, hcons⟩ := hstep.mpr hnew
      exact ⟨hlinks, hcons, (ih (h.call hvalid.1 hnew) hvalid.2).mpr hrest⟩

/-- In a run of `expansion_consume` and `expansion_produce` calls the cells are linked and
the chains consistent after every call if and only if no call meets a token that has a
cell already. -/
theorem keepsChains_iff {calls : List Call} (hvalid : ValidRun State.initial calls) :
    KeepsChains State.initial (fun _ => []) calls ↔ MeetsNewThroughout State.initial calls :=
  Simple.initial.keeps_iff hvalid

section Witness

/-- The tokens 5 and 6 are produced by one expansion, and another consumes the token 7. -/
def newTokens : List Call :=
  [.cons [5, 6], .produce 1 [0, 1], .cons [7], .consume 2 [2]]

theorem keepsChains_newTokens :
    KeepsChains State.initial (fun _ => []) newTokens ↔ MeetsNewThroughout State.initial newTokens :=
  keepsChains_iff (by simp [newTokens, ValidRun, Call.Valid, Call.exec, consList, expansionProduce]; decide)

/-- A token is produced by one expansion and consumed by another. -/
def handedOn : List Call :=
  [.cons [5], .produce 1 [0], .cons [5], .consume 2 [1]]

/-- The cell of the second expansion is linked with itself. -/
theorem not_keepsChains_handedOn :
    ¬∀ calls, ValidRun State.initial calls → KeepsChains State.initial (fun _ => []) calls := by
  intro h
  obtain ⟨-, -, -, -, -, -, hlinks, -⟩ := h handedOn
    (by simp [handedOn, ValidRun, Call.Valid, Call.exec, consList, expansionProduce]; decide)
  have hup := (hlinks.1 0 rfl).2.1
  revert hup
  decide

end Witness

end Sparse.ProvenanceChains
