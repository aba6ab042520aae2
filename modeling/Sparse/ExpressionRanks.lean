import Mathlib.Tactic.IntervalCases
import Sparse.ExpressionTrees

/-!
# Ranks of expressions

The functions of the parser by the rank of what they read: with enough calls left they
yield an outcome, their loops end where no operator of theirs follows, and what one of
them has read is passed on by those below. And the tokens that a printed tree begins with.
-/

namespace Sparse.ExpressionParser

open Tokenizer (Value)

/-- The rank of the operators of a level. -/
def Level.rank : Level → ℕ
  | multiplicative => 12
  | additive => 11
  | shift => 10
  | relational => 9
  | equality => 8
  | bitwiseAnd => 7
  | bitwiseXor => 6
  | bitwiseOr => 5
  | logicalAnd => 4
  | logicalOr => 3
  | comma => 0

def BinaryOp.level : BinaryOp → Level
  | mul => .multiplicative
  | div => .multiplicative
  | mod => .multiplicative
  | add => .additive
  | sub => .additive
  | leftshift => .shift
  | rightshift => .shift
  | lt => .relational
  | gt => .relational
  | lte => .relational
  | gte => .relational
  | equal => .equality
  | notequal => .equality
  | bitwiseAnd => .bitwiseAnd
  | bitwiseXor => .bitwiseXor
  | bitwiseOr => .bitwiseOr
  | logicalAnd => .logicalAnd
  | logicalOr => .logicalOr
  | comma => .comma

variable {ctx : Context} {α β : Type} {rest tokens l : List Tok} {errors : List String} {t : Tree} {e : Expr}
  {k : ℕ} {level : Level} {s : Input}

/-! ## Enough calls -/

/-- With enough calls and rounds left the outcome is `r`. -/
def Yields (ctx : Context) (f : Parsers → Option α) (r : α) : Prop :=
  ∃ N, ∀ n, N ≤ n → f (parsers ctx n) = some r

namespace Yields

theorem of_eq {f g : Parsers → Option α} {r : α} (h : Yields ctx g r) (heq : ∀ self, f self = g self) :
    Yields ctx f r := by
  obtain ⟨N, hN⟩ := h
  exact ⟨N, fun n hn => (heq _).trans (hN n hn)⟩

theorem pure {f : Parsers → Option α} {r : α} (h : ∀ self, f self = some r) : Yields ctx f r :=
  ⟨0, fun _ _ => h _⟩

theorem bind {f : Parsers → Option α} {g : Parsers → α → Option β} {a : α} {r : β} (hf : Yields ctx f a)
    (hg : Yields ctx (fun self => g self a) r) : Yields ctx (fun self => f self >>= g self) r := by
  obtain ⟨N, hN⟩ := hf
  obtain ⟨M, hM⟩ := hg
  refine ⟨max N M, fun n hn => ?_⟩
  have hfn := hN n (Nat.le_trans (Nat.le_max_left N M) hn)
  have hgn := hM n (Nat.le_trans (Nat.le_max_right N M) hn)
  change (f (parsers ctx n)).bind (g (parsers ctx n)) = some r
  rw [hfn]
  exact hgn

/-- A call has the outcome of the function one call deeper. -/
theorem call {f g : Parsers → Option α} {r : α} (h : Yields ctx g r)
    (hcall : ∀ n, f (parsers ctx (n + 1)) = g (parsers ctx n)) : Yields ctx f r := by
  obtain ⟨N, hN⟩ := h
  refine ⟨N + 1, fun n hn => ?_⟩
  obtain ⟨m, rfl⟩ := Nat.exists_eq_add_of_le' (Nat.le_trans (Nat.le_add_left 1 N) hn)
  rw [hcall]
  exact hN m (Nat.le_of_succ_le_succ hn)

end Yields

/-! ## Ranks -/

theorem BinaryOp.rank_level (o : BinaryOp) : o.level.rank = o.rank := by
  cases o <;> rfl

theorem BinaryOp.rank_lt (o : BinaryOp) : o.rank < unaryRank := by
  cases o <;> decide

theorem BinaryOp.type_level (o : BinaryOp) : o.level.type = o.type := by
  cases o <;> rfl

theorem BinaryOp.mem_operators (o : BinaryOp) : o.special ∈ o.level.operators := by
  cases o <;> decide

/-- The operators of a level are those of the grammar with its rank. -/
theorem exists_of_mem_operators {o : ℕ} (h : o ∈ level.operators) :
    ∃ b : BinaryOp, b.special = o ∧ b.level = level := by
  cases level with
  | multiplicative =>
    rcases List.mem_cons.mp h with rfl | h
    · exact ⟨.mul, rfl, rfl⟩
    · rcases List.mem_cons.mp h with rfl | h
      · exact ⟨.div, rfl, rfl⟩
      · exact ⟨.mod, (List.mem_singleton.mp h).symm, rfl⟩
  | additive =>
    rcases List.mem_cons.mp h with rfl | h
    · exact ⟨.add, rfl, rfl⟩
    · exact ⟨.sub, (List.mem_singleton.mp h).symm, rfl⟩
  | shift =>
    rcases List.mem_cons.mp h with rfl | h
    · exact ⟨.leftshift, rfl, rfl⟩
    · exact ⟨.rightshift, (List.mem_singleton.mp h).symm, rfl⟩
  | relational =>
    rcases List.mem_cons.mp h with rfl | h
    · exact ⟨.lt, rfl, rfl⟩
    · rcases List.mem_cons.mp h with rfl | h
      · exact ⟨.gt, rfl, rfl⟩
      · rcases List.mem_cons.mp h with rfl | h
        · exact ⟨.lte, rfl, rfl⟩
        · exact ⟨.gte, (List.mem_singleton.mp h).symm, rfl⟩
  | equality =>
    rcases List.mem_cons.mp h with rfl | h
    · exact ⟨.equal, rfl, rfl⟩
    · exact ⟨.notequal, (List.mem_singleton.mp h).symm, rfl⟩
  | bitwiseAnd => exact ⟨.bitwiseAnd, (List.mem_singleton.mp h).symm, rfl⟩
  | bitwiseXor => exact ⟨.bitwiseXor, (List.mem_singleton.mp h).symm, rfl⟩
  | bitwiseOr => exact ⟨.bitwiseOr, (List.mem_singleton.mp h).symm, rfl⟩
  | logicalAnd => exact ⟨.logicalAnd, (List.mem_singleton.mp h).symm, rfl⟩
  | logicalOr => exact ⟨.logicalOr, (List.mem_singleton.mp h).symm, rfl⟩
  | comma => exact ⟨.comma, (List.mem_singleton.mp h).symm, rfl⟩

/-- The function that reads an expression of the rank. -/
def rankParser (ctx : Context) (self : Parsers) : ℕ → Parser
  | 0 => parseExpression ctx self
  | 1 => assignmentExpression ctx self
  | 2 => conditionalExpression ctx self
  | 3 => logicalOrExpression ctx self
  | 4 => logicalAndExpression ctx self
  | 5 => bitwiseOrExpression ctx self
  | 6 => bitwiseXorExpression ctx self
  | 7 => bitwiseAndExpression ctx self
  | 8 => equalityExpression ctx self
  | 9 => relationalExpression ctx self
  | 10 => shiftExpression ctx self
  | 11 => additiveExpression ctx self
  | 12 => multiplicativeExpression ctx self
  | 13 => castExpression ctx self
  | 14 => postfixExpression ctx self
  | _ => primaryExpression ctx self

theorem rankParser_level (self : Parsers) (level : Level) :
    rankParser ctx self level.rank = lrBinop self level (rankParser ctx self (level.rank + 1)) := by
  cases level <;> rfl

theorem inner_eq (self : Parsers) (level : Level) : level.inner ctx self = rankParser ctx self (level.rank + 1) := by
  cases level <;> rfl

theorem Stops.mono (h : Stops k rest) {k' : ℕ} (hk : k ≤ k') : Stops k' rest where
  binary o ho := Nat.lt_of_lt_of_le (h.binary o ho) hk
  conditional hhead := Nat.lt_of_lt_of_le (h.conditional hhead) hk
  assign o ho := Nat.lt_of_lt_of_le (h.assign o ho) hk
  postop o ho hhead := Nat.lt_of_lt_of_le (h.postop o ho hhead) hk

/-! ## Calls -/

theorem yields_parse {r : Expr × Input} (h : Yields ctx (fun self => rankParser ctx self 0 s) r) :
    Yields ctx (fun self => self.parse s) r :=
  h.call fun _ => rfl

theorem yields_assignment {r : Expr × Input} (h : Yields ctx (fun self => rankParser ctx self assignRank s) r) :
    Yields ctx (fun self => self.assignment s) r :=
  h.call fun _ => rfl

theorem yields_conditional {r : Expr × Input}
    (h : Yields ctx (fun self => rankParser ctx self conditionalRank s) r) :
    Yields ctx (fun self => self.conditional s) r :=
  h.call fun _ => rfl

theorem yields_cast {r : Expr × Input} (h : Yields ctx (fun self => rankParser ctx self unaryRank s) r) :
    Yields ctx (fun self => self.cast s) r :=
  h.call fun _ => rfl

theorem yields_unary {r : Expr × Input} (h : Yields ctx (fun self => unaryExpression ctx self s) r) :
    Yields ctx (fun self => self.unary s) r :=
  h.call fun _ => rfl

theorem yields_binopStep {r : Expr × Input} (h : Yields ctx (fun self => binopStep ctx self level e s) r) :
    Yields ctx (fun self => self.binopLoop level e s) r :=
  h.call fun _ => rfl

theorem yields_postStep {r : Expr × Input} (h : Yields ctx (fun self => postStep self e s) r) :
    Yields ctx (fun self => self.postLoop e s) r :=
  h.call fun _ => rfl

theorem yields_argumentStep {r : List Expr × Input} (h : Yields ctx (fun self => argumentStep self s) r) :
    Yields ctx (fun self => self.argumentLoop s) r :=
  h.call fun _ => rfl

/-! ## Ends of loops -/

theorem special_cons (o : ℕ) : Input.special ⟨.special o :: tokens, errors⟩ = some o := rfl

theorem head?_of_special {o : ℕ} (h : Input.special ⟨rest, errors⟩ = some o) :
    rest.head? = some (.special o) := by
  cases rest with
  | nil => cases h
  | cons tok rest =>
    cases tok with
    | bad => cases h
    | value v =>
      cases v with
      | special o' =>
        obtain rfl : o' = o := Option.some.inj h
        rfl
      | _ => cases h

/-- The loop of a level ends where no operator of the level follows. -/
theorem yields_binopLoop (hstop : Stops level.rank rest) :
    Yields ctx (fun self => self.binopLoop level e ⟨rest, errors⟩) (e, ⟨rest, errors⟩) := by
  refine yields_binopStep (.pure fun self => ?_)
  unfold binopStep
  cases hspecial : Input.special ⟨rest, errors⟩ with
  | none => rfl
  | some o =>
    have hnot : o ∉ level.operators := by
      intro hmem
      obtain ⟨b, rfl, rfl⟩ := exists_of_mem_operators hmem
      have hlt := hstop.binary b (head?_of_special hspecial)
      rw [b.rank_level] at hlt
      exact Nat.lt_irrefl _ hlt
    simp only [if_neg hnot]

theorem yields_postLoop (hstop : Stops postRank rest) :
    Yields ctx (fun self => self.postLoop e ⟨rest, errors⟩) (e, ⟨rest, errors⟩) := by
  refine yields_postStep (.pure fun self => ?_)
  unfold postStep
  cases hspecial : Input.special ⟨rest, errors⟩ with
  | none => rfl
  | some o =>
    have hnot : o ∉ [op '[', specialIncrement, specialDecrement, specialDereference, op '.', op '('] :=
      fun hmem => Nat.lt_irrefl _ (hstop.postop o hmem (head?_of_special hspecial))
    simp only [List.mem_cons, List.not_mem_nil, or_false, not_or] at hnot
    obtain ⟨hindex, hinc, hdec, harrow, hdot, hcall⟩ := hnot
    simp only [if_neg hindex, if_neg (not_or.mpr ⟨hinc, hdec⟩), if_neg harrow, if_neg hdot, if_neg hcall]

theorem conditionalRest_stops (hstop : Stops conditionalRank rest) (self : Parsers) :
    conditionalRest self e ⟨rest, errors⟩ = some (e, ⟨rest, errors⟩) := by
  have hnot : ¬Input.matchOp ⟨rest, errors⟩ (op '?') = true := by
    intro hmatch
    exact Nat.lt_irrefl _ (hstop.conditional (head?_of_special (of_decide_eq_true hmatch)))
  rw [conditionalRest, if_neg fun h => hnot h.2]

theorem exists_of_mem_assignments {o : ℕ} (h : o ∈ assignments) : ∃ a : AssignOp, a.special = o := by
  simp only [assignments, List.mem_cons, List.not_mem_nil, or_false] at h
  rcases h with h | h | h | h | h | h | h | h | h | h | h
  · exact ⟨.assign, h.symm⟩
  · exact ⟨.add, h.symm⟩
  · exact ⟨.sub, h.symm⟩
  · exact ⟨.mul, h.symm⟩
  · exact ⟨.div, h.symm⟩
  · exact ⟨.mod, h.symm⟩
  · exact ⟨.shl, h.symm⟩
  · exact ⟨.shr, h.symm⟩
  · exact ⟨.and, h.symm⟩
  · exact ⟨.or, h.symm⟩
  · exact ⟨.xor, h.symm⟩

theorem assignmentRest_stops (hstop : Stops assignRank rest) (self : Parsers) :
    assignmentRest self e ⟨rest, errors⟩ = some (e, ⟨rest, errors⟩) := by
  unfold assignmentRest
  cases hspecial : Input.special ⟨rest, errors⟩ with
  | none => rfl
  | some o =>
    have hnot : o ∉ assignments := by
      intro hmem
      obtain ⟨a, rfl⟩ := exists_of_mem_assignments hmem
      exact Nat.lt_irrefl _ (hstop.assign a (head?_of_special hspecial))
    simp only [if_neg fun h : e.isNull = false ∧ o ∈ assignments => hnot h.2]

/-! ## First tokens -/

/-- How a printed tree begins. -/
inductive Begins (ctx : Context) : List Tok → Prop
  | name {name : List UInt8} {l : List Tok} (h : ctx.PlainName name) : Begins ctx (.value (.ident name) :: l)
  | number {text : List UInt8} {l : List Tok} : Begins ctx (.value (.number text) :: l)
  | unary {o : UnaryOp} {l : List Tok} : Begins ctx (.special o.special :: l)
  | typeInfo {o : InfoOp} {l : List Tok} : Begins ctx (.value (.ident o.name) :: l)
  | parens {l : List Tok} (h : Begins ctx l) : Begins ctx (.special (op '(') :: l)

/-- How a printed operand of a postfix operator begins. -/
inductive BeginsPost (ctx : Context) : List Tok → Prop
  | name {name : List UInt8} {l : List Tok} (h : ctx.PlainName name) : BeginsPost ctx (.value (.ident name) :: l)
  | number {text : List UInt8} {l : List Tok} : BeginsPost ctx (.value (.number text) :: l)
  | parens {l : List Tok} (h : Begins ctx l) : BeginsPost ctx (.special (op '(') :: l)

theorem BeginsPost.begins (h : BeginsPost ctx l) : Begins ctx l := by
  cases h with
  | name h => exact .name h
  | number => exact .number
  | parens h => exact .parens h

theorem Begins.append (h : Begins ctx l) (rest : List Tok) : Begins ctx (l ++ rest) := by
  induction h with
  | name h => exact .name h
  | number => exact .number
  | unary => exact .unary
  | typeInfo => exact .typeInfo
  | parens h ih => exact .parens ih

theorem BeginsPost.append (h : BeginsPost ctx l) (rest : List Tok) : BeginsPost ctx (l ++ rest) := by
  cases h with
  | name h => exact .name h
  | number => exact .number
  | parens h => exact .parens (h.append rest)

theorem UnaryOp.special_ne (o : UnaryOp) :
    o.special ≠ op '(' ∧ o.special ≠ op ')' ∧ o.special ≠ op '{' ∧ o.special ∈ unaryOperators := by
  cases o <;> decide

theorem InfoOp.lookup (o : InfoOp) : typeInformation.lookup o.name = some o.type := by
  cases o <;> decide

theorem InfoOp.mem_typeInformation (o : InfoOp) : (o.name, o.type) ∈ typeInformation := by
  cases o <;> decide

theorem Begins.not_type (h : Begins ctx l) : lookupType ctx ⟨l, errors⟩ = false := by
  cases h with
  | @name name l h =>
    cases hsym : ctx.lookupSymbol name with
    | none => simp [lookupType, Input.name, hsym]
    | some sym => simp [lookupType, Input.name, hsym, (h.symbol sym hsym).1]
  | number => rfl
  | unary => rfl
  | @typeInfo o l =>
    cases hsym : ctx.lookupSymbol o.name with
    | none => simp [lookupType, Input.name, hsym]
    | some sym => simp [lookupType, Input.name, hsym, ctx.reserved _ o.mem_typeInformation sym hsym]
  | parens h => rfl

/-- No type stands between parentheses here. -/
theorem Begins.not_cast (h : Begins ctx l) :
    ¬(Input.matchOp ⟨l, errors⟩ (op '(') = true ∧ lookupType ctx (Input.next ⟨l, errors⟩) = true) := by
  rintro ⟨hmatch, htype⟩
  cases h with
  | name h => cases hmatch
  | number => cases hmatch
  | @unary o l => exact o.special_ne.1 (Option.some.inj (of_decide_eq_true hmatch))
  | typeInfo => cases hmatch
  | @parens l h =>
    rw [show Input.next ⟨.special (op '(') :: l, errors⟩ = ⟨l, errors⟩ from rfl, h.not_type] at htype
    cases htype

theorem Begins.not_brace (h : Begins ctx l) : Input.matchOp ⟨l, errors⟩ (op '{') = false := by
  cases h with
  | name h => rfl
  | number => rfl
  | @unary o l => exact decide_eq_false fun ho => o.special_ne.2.2.1 (Option.some.inj ho)
  | typeInfo => rfl
  | parens h => rfl

theorem Begins.not_close (h : Begins ctx l) : Input.matchOp ⟨l, errors⟩ (op ')') = false := by
  cases h with
  | name h => rfl
  | number => rfl
  | @unary o l => exact decide_eq_false fun ho => o.special_ne.2.1 (Option.some.inj ho)
  | typeInfo => rfl
  | parens h => rfl

/-- A tree stands in parentheses at a place of a higher rank. -/
theorem print_of_lt (h : t.rank < k) (hk : k ≤ primaryRank) :
    t.print k = .special (op '(') :: (t.print 0 ++ [.special (op ')')]) := by
  cases t with
  | ident name => exact absurd h (Nat.not_lt_of_le hk)
  | number text => exact absurd h (Nat.not_lt_of_le hk)
  | _ =>
    simp only [Tree.rank] at h
    simp [Tree.print, parens, h]

/-- At the other places it is printed alike. -/
theorem print_of_le (h : k ≤ t.rank) : t.print k = t.print 0 := by
  cases t with
  | ident name => rfl
  | number text => rfl
  | _ =>
    simp only [Tree.rank] at h
    simp [Tree.print, parens, Nat.not_lt_of_le h]

theorem begins_of_zero (h : Begins ctx (t.print 0)) (hk : k ≤ primaryRank) : Begins ctx (t.print k) := by
  by_cases hlt : t.rank < k
  · rw [print_of_lt hlt hk]
    exact .parens (h.append _)
  · rwa [print_of_le (Nat.le_of_not_lt hlt)]

theorem Tree.begins_zero : (t : Tree) → t.Plain ctx → Begins ctx (t.print 0)
  | .ident name, h => .name h
  | .number text, h => .number
  | .unary o t, h => .unary
  | .typeInfo o t, h => .typeInfo
  | .postop o t, h => (begins_of_zero (t.begins_zero h) (by decide)).append _
  | .index t i, h => (begins_of_zero (t.begins_zero h.1) (by decide)).append _
  | .member t name, h => (begins_of_zero (t.begins_zero h) (by decide)).append _
  | .arrow t name, h => (begins_of_zero (t.begins_zero h) (by decide)).append _
  | .call f args, h => (begins_of_zero (f.begins_zero h.1) (by decide)).append _
  | .binary o l r, h => (begins_of_zero (l.begins_zero h.1) (Nat.le_of_lt (Nat.lt_add_right 2 o.rank_lt))).append _
  | .conditional c t f, h => (begins_of_zero (c.begins_zero h.1) (by decide)).append _
  | .assign o l r, h => (begins_of_zero (l.begins_zero h.1) (by decide)).append _

theorem Tree.begins (h : t.Plain ctx) (hk : k ≤ primaryRank) : Begins ctx (t.print k) :=
  begins_of_zero (t.begins_zero h) hk

theorem beginsPost_of_lt (h : t.Plain ctx) (hlt : t.rank < postRank) : BeginsPost ctx (t.print postRank) := by
  rw [print_of_lt hlt (by decide)]
  exact .parens ((t.begins_zero h).append _)

theorem Tree.beginsPost : (t : Tree) → t.Plain ctx → BeginsPost ctx (t.print postRank)
  | .ident name, h => .name h
  | .number text, h => .number
  | .unary o t, h => beginsPost_of_lt (t := .unary o t) h (Nat.lt_succ_self unaryRank)
  | .typeInfo o t, h => beginsPost_of_lt (t := .typeInfo o t) h (Nat.lt_succ_self unaryRank)
  | .postop o t, h => (t.beginsPost h).append _
  | .index t i, h => (t.beginsPost h.1).append _
  | .member t name, h => (t.beginsPost h).append _
  | .arrow t name, h => (t.beginsPost h).append _
  | .call f args, h => (f.beginsPost h.1).append _
  | .binary o l r, h => beginsPost_of_lt (t := .binary o l r) h (Nat.lt_succ_of_lt o.rank_lt)
  | .conditional c t f, h => beginsPost_of_lt (t := .conditional c t f) h (show conditionalRank < postRank by decide)
  | .assign o l r, h => beginsPost_of_lt (t := .assign o l r) h (show assignRank < postRank by decide)

/-! ## From rank to rank -/

/-- What a level reads is what its loop makes of what the next level reads. -/
theorem yields_lrBinop {r : Expr × Input} (he : e.isNull = false)
    (hinner : Yields ctx (fun self => rankParser ctx self (level.rank + 1) s) (e, ⟨rest, errors⟩))
    (hloop : Yields ctx (fun self => self.binopLoop level e ⟨rest, errors⟩) r) :
    Yields ctx (fun self => rankParser ctx self level.rank s) r := by
  have hbind := hinner.bind (g := fun self a => if a.1.isNull then some a else self.binopLoop level a.1 a.2) (r := r)
    (hloop.of_eq fun self => by simp [he])
  refine hbind.of_eq fun self => ?_
  rw [rankParser_level]
  rfl

theorem yields_postfix {r : Expr × Input} (he : e.isNull = false)
    (hinner : Yields ctx (fun self => primaryExpression ctx self s) (e, ⟨rest, errors⟩))
    (hloop : Yields ctx (fun self => self.postLoop e ⟨rest, errors⟩) r) :
    Yields ctx (fun self => postfixExpression ctx self s) r := by
  have hbind := hinner.bind (g := fun self a => if a.1.isNull then some a else self.postLoop a.1 a.2) (r := r)
    (hloop.of_eq fun self => by simp [he])
  exact hbind.of_eq fun self => rfl

theorem exists_level_rank (hk : k < unaryRank) :
    k = assignRank ∨ k = conditionalRank ∨ ∃ level : Level, level.rank = k := by
  have hk : k < 13 := hk
  interval_cases k
  · exact .inr (.inr ⟨.comma, rfl⟩)
  · exact .inl rfl
  · exact .inr (.inl rfl)
  · exact .inr (.inr ⟨.logicalOr, rfl⟩)
  · exact .inr (.inr ⟨.logicalAnd, rfl⟩)
  · exact .inr (.inr ⟨.bitwiseOr, rfl⟩)
  · exact .inr (.inr ⟨.bitwiseXor, rfl⟩)
  · exact .inr (.inr ⟨.bitwiseAnd, rfl⟩)
  · exact .inr (.inr ⟨.equality, rfl⟩)
  · exact .inr (.inr ⟨.relational, rfl⟩)
  · exact .inr (.inr ⟨.shift, rfl⟩)
  · exact .inr (.inr ⟨.additive, rfl⟩)
  · exact .inr (.inr ⟨.multiplicative, rfl⟩)

/-- What the function for a rank has read is passed on by the one below, where no operator of it follows. -/
theorem yields_step (he : e.isNull = false) (hk : k < unaryRank) (hstop : Stops k rest)
    (h : Yields ctx (fun self => rankParser ctx self (k + 1) s) (e, ⟨rest, errors⟩)) :
    Yields ctx (fun self => rankParser ctx self k s) (e, ⟨rest, errors⟩) := by
  rcases exists_level_rank hk with rfl | rfl | ⟨level, rfl⟩
  · have hbind := h.bind (g := fun self a => assignmentRest self a.1 a.2)
      (.pure fun self => assignmentRest_stops hstop self)
    exact hbind.of_eq fun self => rfl
  · have hbind := h.bind (g := fun self a => conditionalRest self a.1 a.2)
      (.pure fun self => conditionalRest_stops hstop self)
    exact hbind.of_eq fun self => rfl
  · exact yields_lrBinop he h (yields_binopLoop hstop)

theorem yields_down {j : ℕ} (he : e.isNull = false) (hkj : k ≤ j) (hj : j ≤ unaryRank) (hstop : Stops k rest)
    (h : Yields ctx (fun self => rankParser ctx self j s) (e, ⟨rest, errors⟩)) :
    Yields ctx (fun self => rankParser ctx self k s) (e, ⟨rest, errors⟩) := by
  induction j, hkj using Nat.le_induction with
  | base => exact h
  | succ j hkj ih => exact ih (Nat.le_of_succ_le hj) (yields_step he hj (hstop.mono hkj) h)

end Sparse.ExpressionParser
