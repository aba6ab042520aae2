import Sparse.ExpressionRanks

/-!
# Printed expressions

`parse_expression` reads a printed tree back. A tree is read at each rank: at its own rank
by the function for its operator, at a lower rank by passing through the functions that
find no operator of theirs, and at a higher rank between parentheses.
-/

namespace Sparse.ExpressionParser

open Tokenizer (Value)

variable {ctx : Context} {rest l : List Tok} {errors : List String} {t : Tree} {e : Expr} {k : ℕ} {level : Level}
  {s : Input}

/-! ## Trees that are read back -/

/-- The node stands for the tree. -/
structure Means (e : Expr) (t : Tree) : Prop where
  strip : e.strip = t.toExpr
  isNull : e.isNull = false

/-- The tree is read back at a place of the rank. -/
def Reads (ctx : Context) (k : ℕ) (t : Tree) : Prop :=
  ∃ e, Means e t ∧ ∀ rest errors, Stops k rest →
    Yields ctx (fun self => rankParser ctx self k ⟨t.print k ++ rest, errors⟩) (e, ⟨rest, errors⟩)

/-- At the rank of a level the tree is read as far as the loop of the level, which can go on. -/
def Leads (ctx : Context) (level : Level) (t : Tree) : Prop :=
  ∃ e, Means e t ∧ ∀ rest errors r, Stops (level.rank + 1) rest →
    Yields ctx (fun self => self.binopLoop level e ⟨rest, errors⟩) r →
    Yields ctx (fun self => rankParser ctx self level.rank ⟨t.print level.rank ++ rest, errors⟩) r

/-- The same for the loop of `postfix_expression`. -/
def LeadsPost (ctx : Context) (t : Tree) : Prop :=
  ∃ e, Means e t ∧ ∀ rest errors r,
    Yields ctx (fun self => self.postLoop e ⟨rest, errors⟩) r →
    Yields ctx (fun self => postfixExpression ctx self ⟨t.print postRank ++ rest, errors⟩) r

theorem Leads.reads (h : Leads ctx level t) : Reads ctx level.rank t := by
  obtain ⟨e, he, hlead⟩ := h
  exact ⟨e, he, fun rest errors hstop => hlead rest errors _ (hstop.mono (Nat.le_succ _)) (yields_binopLoop hstop)⟩

theorem LeadsPost.reads (h : LeadsPost ctx t) : Reads ctx postRank t := by
  obtain ⟨e, he, hlead⟩ := h
  exact ⟨e, he, fun rest errors hstop => hlead rest errors _ (yields_postLoop hstop)⟩

/-- A tree of another rank is printed for the next rank as it is for this one. -/
theorem print_succ (h : t.rank ≠ k) (hk : k < primaryRank) : t.print (k + 1) = t.print k := by
  by_cases hlt : t.rank < k
  · rw [print_of_lt hlt (Nat.le_of_lt hk), print_of_lt (Nat.lt_succ_of_lt hlt) hk]
  · have hle := Nat.le_of_not_lt hlt
    rw [print_of_le hle, print_of_le (Nat.lt_of_le_of_ne hle (Ne.symm h))]

theorem Reads.leads (h : Reads ctx (level.rank + 1) t) (hne : t.rank ≠ level.rank) : Leads ctx level t := by
  have hk : level.rank < primaryRank := by cases level <;> decide
  obtain ⟨e, he, hread⟩ := h
  rw [print_succ hne hk] at hread
  exact ⟨e, he, fun rest errors r hstop hloop => yields_lrBinop he.isNull (hread rest errors hstop) hloop⟩

theorem stops_primary (rest : List Tok) : Stops primaryRank rest where
  binary o _ := Nat.lt_add_right 2 o.rank_lt
  conditional _ := by decide
  assign _ _ := by decide
  postop _ _ _ := by decide

theorem Reads.leadsPost (h : Reads ctx primaryRank t) (hne : t.rank ≠ postRank) : LeadsPost ctx t := by
  obtain ⟨e, he, hread⟩ := h
  rw [show t.print primaryRank = t.print postRank from print_succ hne (by decide)] at hread
  exact ⟨e, he, fun rest errors r hloop => yields_postfix he.isNull (hread rest errors (stops_primary rest)) hloop⟩

/-- An operand of a postfix operator is passed on by `cast_expression` and `unary_expression`. -/
theorem castExpression_of_beginsPost (h : BeginsPost ctx l) (self : Parsers) :
    castExpression ctx self ⟨l, errors⟩ = postfixExpression ctx self ⟨l, errors⟩ := by
  rw [castExpression, if_neg h.begins.not_cast]
  cases h with
  | name h => simp [unaryExpression, Input.name, Input.special, h.keyword]
  | number => rfl
  | parens h =>
    have hop : op '(' ∉ unaryOperators := by decide
    have hand : op '(' ≠ specialLogicalAnd := by decide
    simp only [unaryExpression, Input.name, Input.special, Option.bind_none, Tok.special, if_neg hop, if_neg hand]
    split <;> rfl

theorem Reads.step (h : Reads ctx (k + 1) t) (hne : t.rank ≠ k) (hk : k < primaryRank) (hplain : t.Plain ctx) :
    Reads ctx k t := by
  by_cases hunary : k < unaryRank
  · obtain ⟨e, he, hread⟩ := h
    rw [print_succ hne hk] at hread
    exact ⟨e, he, fun rest errors hstop =>
      yields_step he.isNull hunary hstop (hread rest errors (hstop.mono (Nat.le_succ k)))⟩
  · rcases Nat.eq_or_lt_of_le (Nat.le_of_not_lt hunary) with rfl | hlt
    · obtain ⟨e, he, hread⟩ := h
      refine ⟨e, he, fun rest errors hstop => ?_⟩
      have hpost := hread rest errors (hstop.mono (Nat.le_succ _))
      rw [print_succ hne hk] at hpost
      have hbegins : BeginsPost ctx (t.print unaryRank ++ rest) := by
        rw [← print_succ hne hk]
        exact (t.beginsPost hplain).append rest
      exact hpost.of_eq fun self => castExpression_of_beginsPost hbegins self
    · obtain rfl : k = postRank := Nat.le_antisymm (Nat.le_of_lt_succ hk) hlt
      exact (Reads.leadsPost h hne).reads

/-! ## Operators that stop an expression -/

def binaryOps : List BinaryOp :=
  [.mul, .div, .mod, .add, .sub, .leftshift, .rightshift, .lt, .gt, .lte, .gte, .equal, .notequal, .bitwiseAnd,
    .bitwiseXor, .bitwiseOr, .logicalAnd, .logicalOr, .comma]

theorem mem_binaryOps (o : BinaryOp) : o ∈ binaryOps := by
  cases o <;> decide

def assignOps : List AssignOp :=
  [.assign, .add, .sub, .mul, .div, .mod, .shl, .shr, .and, .or, .xor]

theorem mem_assignOps (a : AssignOp) : a ∈ assignOps := by
  cases a <;> decide

/-- An operator token is read at one rank only. -/
theorem rank_of_special {o b : BinaryOp} (h : b.special = o.special) : b.rank = o.rank := by
  have hall : ∀ o ∈ binaryOps, ∀ b ∈ binaryOps, b.special = o.special → b.rank = o.rank := by decide
  exact hall o (mem_binaryOps o) b (mem_binaryOps b) h

theorem assignOp_ne_binaryOp (a : AssignOp) (o : BinaryOp) : a.special ≠ o.special := by
  have hall : ∀ a ∈ assignOps, ∀ o ∈ binaryOps, a.special ≠ o.special := by decide
  exact hall a (mem_assignOps a) o (mem_binaryOps o)

theorem binaryOp_ne_question (o : BinaryOp) : o.special ≠ op '?' := by
  have hall : ∀ o ∈ binaryOps, o.special ≠ op '?' := by decide
  exact hall o (mem_binaryOps o)

/-- The operators that go on with a postfix expression. -/
def postOperators : List ℕ := [op '[', specialIncrement, specialDecrement, specialDereference, op '.', op '(']

theorem binaryOp_not_mem_post (o : BinaryOp) : o.special ∉ postOperators := by
  have hall : ∀ o ∈ binaryOps, o.special ∉ postOperators := by decide
  exact hall o (mem_binaryOps o)

theorem stops_special {o : ℕ} (hbinary : ∀ b : BinaryOp, b.special = o → b.rank < k)
    (hconditional : o = op '?' → conditionalRank < k) (hassign : ∀ a : AssignOp, a.special = o → assignRank < k)
    (hpost : o ∈ [op '[', specialIncrement, specialDecrement, specialDereference, op '.', op '('] → postRank < k) :
    Stops k (.special o :: rest) where
  binary b hb := hbinary b (by simpa [Tok.special] using hb.symm)
  conditional ho := hconditional (by simpa [Tok.special] using ho)
  assign a ha := hassign a (by simpa [Tok.special] using ha.symm)
  postop o' ho' hhead := by
    obtain rfl : o = o' := by simpa [Tok.special] using hhead
    exact hpost ho'

/-- The tokens that end an expression. -/
def closers : List ℕ := [op ')', op ']', op ':', op ';']

/-- No operator is among them. -/
theorem stops_close {o : ℕ} (ho : o ∈ closers) : Stops 0 (.special o :: rest) := by
  have hbinary : ∀ b ∈ binaryOps, b.special ∉ closers := by decide
  have hassign : ∀ a ∈ assignOps, a.special ∉ closers := by decide
  have hpost : ∀ p ∈ [op '[', specialIncrement, specialDecrement, specialDereference, op '.', op '('],
      p ∉ closers := by
    decide
  exact stops_special (fun b hb => absurd (hb ▸ ho) (hbinary b (mem_binaryOps b)))
    (fun h => absurd (h ▸ ho) (by decide)) (fun a ha => absurd (ha ▸ ho) (hassign a (mem_assignOps a)))
    fun h => absurd ho (hpost o h)

theorem matchOp_special (o : ℕ) : Input.matchOp ⟨.special o :: rest, errors⟩ o = true :=
  decide_eq_true rfl

theorem expect_special (o : ℕ) (rest : List Tok) (errors : List String) (place : String) :
    expect ⟨.special o :: rest, errors⟩ o place = ⟨rest, errors⟩ := by
  rw [expect, if_pos (matchOp_special o)]
  rfl

/-! ## Primary expressions -/

theorem reads_ident {name : List UInt8} (h : ctx.PlainName name) : Reads ctx primaryRank (.ident name) := by
  refine ⟨.symbol name, ⟨rfl, rfl⟩, fun rest errors _ => .pure fun self => ?_⟩
  change identExpression ctx self name _ = _
  unfold identExpression
  cases hsym : ctx.lookupSymbol name with
  | none => simp only [if_neg (h.builtin hsym)]; rfl
  | some sym =>
    obtain ⟨htypedef, henum⟩ := h.symbol sym hsym
    simp only [henum, htypedef, Bool.false_eq_true, if_false]
    rfl

theorem reads_number {text : List UInt8} (h : ctx.getNumberValue text = true) :
    Reads ctx primaryRank (.number text) := by
  refine ⟨.constant (.number text), ⟨rfl, rfl⟩, fun rest errors _ => .pure fun self => ?_⟩
  exact if_pos h

/-- Between parentheses any tree is a primary expression. -/
theorem Reads.parens (h : Reads ctx 0 t) (hrank : t.rank < primaryRank) (hplain : t.Plain ctx) :
    Reads ctx primaryRank t := by
  obtain ⟨e, he, hread⟩ := h
  refine ⟨.preop (op '(') e, ⟨he.strip, rfl⟩, fun rest errors _ => ?_⟩
  rw [print_of_lt hrank (Nat.le_refl _)]
  have hparse := yields_parse (hread (.special (op ')') :: rest) errors (stops_close (o := op ')') (by decide)))
  have hbind := hparse.bind
    (g := fun _ a => some (Expr.preop (op '(') a.1, expect a.2 (op ')') "in expression"))
    (.pure fun _ => congrArg (fun s => some (Expr.preop (op '(') e, s)) (expect_special (op ')') rest errors _))
  refine hbind.of_eq fun self => ?_
  have hbegins : Begins ctx (t.print 0 ++ .special (op ')') :: rest) := (t.begins_zero hplain).append _
  have hexpect : expect ⟨.special (op '(') :: (t.print 0 ++ .special (op ')') :: rest), errors⟩ (op '(')
      "in expression" =
      ⟨t.print 0 ++ .special (op ')') :: rest, errors⟩ := expect_special _ _ _ _
  have hparens : parensExpression ctx self "in expression"
      ⟨.special (op '(') :: (t.print 0 ++ .special (op ')') :: rest), errors⟩ =
      (do
        let a ← self.parse ⟨t.print 0 ++ .special (op ')') :: rest, errors⟩
        some (a.1, expect a.2 (op ')') "in expression")) := by
    simp only [parensExpression, hexpect, hbegins.not_brace, Bool.false_eq_true, if_false]
  have hlist : .special (op '(') :: (t.print 0 ++ [.special (op ')')]) ++ rest =
      .special (op '(') :: (t.print 0 ++ .special (op ')') :: rest) := by simp
  rw [hlist]
  change (do
    let a ← parensExpression ctx self "in expression" _
    some (Expr.preop (op '(') a.1, a.2)) = _
  rw [hparens]
  cases self.parse ⟨t.print 0 ++ .special (op ')') :: rest, errors⟩ with
  | none => rfl
  | some a => rfl

/-! ## Unary expressions -/

theorem reads_unary {o : UnaryOp} (h : Reads ctx unaryRank t) : Reads ctx unaryRank (.unary o t) := by
  obtain ⟨e, he, hread⟩ := h
  have hne := o.special_ne
  refine ⟨.preop o.special e, ⟨?_, rfl⟩, fun rest errors hstop => ?_⟩
  · rw [Expr.strip, if_neg hne.1, he.strip]
    rfl
  · have hcast := yields_cast (hread rest errors hstop)
    have hbind := hcast.bind
      (g := fun _ a =>
        if a.1.isNull then some (Expr.null, a.2.sparseError "Syntax error in unary expression")
        else some (.preop o.special a.1, a.2))
      (.pure fun _ => by simp only [he.isNull, Bool.false_eq_true, if_false]; rfl)
    refine hbind.of_eq fun self => ?_
    have hbegins : Begins ctx (.special o.special :: (t.print unaryRank ++ rest)) := .unary
    change castExpression ctx self ⟨.special o.special :: (t.print unaryRank ++ rest), errors⟩ = _
    rw [castExpression, if_neg hbegins.not_cast]
    change (if o.special ∈ unaryOperators then _ else _) = _
    rw [if_pos hne.2.2.2]
    rfl

theorem reads_typeInfo {o : InfoOp} (h : Reads ctx unaryRank t) (hplain : t.Plain ctx) :
    Reads ctx unaryRank (.typeInfo o t) := by
  obtain ⟨e, he, hread⟩ := h
  refine ⟨.typeInfo o.type e, ⟨?_, rfl⟩, fun rest errors hstop => ?_⟩
  · rw [Expr.strip, he.strip]
    rfl
  · have hoperand : Begins ctx (t.print unaryRank ++ rest) := (t.begins hplain (by decide)).append rest
    have hunary : Yields ctx (fun self => unaryExpression ctx self ⟨t.print unaryRank ++ rest, errors⟩)
        (e, ⟨rest, errors⟩) :=
      (hread rest errors hstop).of_eq fun self => by
        change _ = castExpression ctx self _
        rw [castExpression, if_neg hoperand.not_cast]
    have hbind := (yields_unary hunary).bind (g := fun _ a => some (Expr.typeInfo o.type a.1, a.2)) (.pure fun _ => rfl)
    refine hbind.of_eq fun self => ?_
    have hbegins : Begins ctx (.value (.ident o.name) :: (t.print unaryRank ++ rest)) := .typeInfo
    change castExpression ctx self ⟨.value (.ident o.name) :: (t.print unaryRank ++ rest), errors⟩ = _
    rw [castExpression, if_neg hbegins.not_cast]
    simp only [unaryExpression, Input.name, Option.bind_some, o.lookup]
    change (if Input.matchOp ⟨t.print unaryRank ++ rest, errors⟩ (op '(') ∧
      lookupType ctx (Input.next ⟨t.print unaryRank ++ rest, errors⟩) then _ else _) = _
    rw [if_neg hoperand.not_cast]
    rfl

/-! ## Postfix expressions -/

theorem leadsPost_postop {o : PostOp} (h : LeadsPost ctx t) : LeadsPost ctx (.postop o t) := by
  obtain ⟨e, he, hlead⟩ := h
  refine ⟨.postop o.special e, ⟨?_, rfl⟩, fun rest errors r hloop => ?_⟩
  · rw [Expr.strip, he.strip]
    rfl
  · have hstep : Yields ctx (fun self => postStep self e ⟨.special o.special :: rest, errors⟩) r :=
      hloop.of_eq fun self => by cases o <;> rfl
    have hprint : (Tree.postop o t).print postRank ++ rest = t.print postRank ++ .special o.special :: rest := by
      simp [Tree.print, parens]
    rw [hprint]
    exact hlead _ _ _ (yields_postStep hstep)

theorem leadsPost_index {i : Tree} (h : LeadsPost ctx t) (hi : Reads ctx 0 i) : LeadsPost ctx (.index t i) := by
  obtain ⟨e, he, hlead⟩ := h
  obtain ⟨ei, hei, hread⟩ := hi
  refine ⟨.preop (op '*') (.binary .binop (op '+') e ei), ⟨?_, rfl⟩, fun rest errors r hloop => ?_⟩
  · rw [Expr.strip, if_neg (by decide), Expr.strip, he.strip, hei.strip]
    rfl
  · have hparse := yields_parse (hread (.special (op ']') :: rest) errors (stops_close (o := op ']') (by decide)))
    have hbind := hparse.bind (r := r)
      (g := fun self a =>
        self.postLoop (.preop (op '*') (.binary .binop (op '+') e a.1))
          (expect a.2 (op ']') "at end of array dereference"))
      (hloop.of_eq fun self => congrArg _ (expect_special (op ']') rest errors _))
    have hstep : Yields ctx
        (fun self => postStep self e ⟨.special (op '[') :: (i.print 0 ++ .special (op ']') :: rest), errors⟩) r :=
      hbind.of_eq fun self => rfl
    have hprint : (Tree.index t i).print postRank ++ rest =
        t.print postRank ++ .special (op '[') :: (i.print 0 ++ .special (op ']') :: rest) := by
      simp [Tree.print, parens]
    rw [hprint]
    exact hlead _ _ _ (yields_postStep hstep)

theorem leadsPost_member {name : List UInt8} (h : LeadsPost ctx t) : LeadsPost ctx (.member t name) := by
  obtain ⟨e, he, hlead⟩ := h
  refine ⟨.deref e name, ⟨?_, rfl⟩, fun rest errors r hloop => ?_⟩
  · rw [Expr.strip, he.strip]
    rfl
  · have hstep : Yields ctx
        (fun self => postStep self e ⟨.special (op '.') :: .value (.ident name) :: rest, errors⟩) r :=
      hloop.of_eq fun self => rfl
    have hprint : (Tree.member t name).print postRank ++ rest =
        t.print postRank ++ .special (op '.') :: .value (.ident name) :: rest := by
      simp [Tree.print, parens]
    rw [hprint]
    exact hlead _ _ _ (yields_postStep hstep)

theorem leadsPost_arrow {name : List UInt8} (h : LeadsPost ctx t) : LeadsPost ctx (.arrow t name) := by
  obtain ⟨e, he, hlead⟩ := h
  refine ⟨.deref (.preop (op '*') e) name, ⟨?_, rfl⟩, fun rest errors r hloop => ?_⟩
  · rw [Expr.strip, Expr.strip, if_neg (by decide), he.strip]
    rfl
  · have hstep : Yields ctx
        (fun self => postStep self e ⟨.special specialDereference :: .value (.ident name) :: rest, errors⟩) r :=
      hloop.of_eq fun self => rfl
    have hprint : (Tree.arrow t name).print postRank ++ rest =
        t.print postRank ++ .special specialDereference :: .value (.ident name) :: rest := by
      simp [Tree.print, parens]
    rw [hprint]
    exact hlead _ _ _ (yields_postStep hstep)

/-- The arguments of a call are read back. -/
def ReadsArgs (ctx : Context) (args : List Tree) : Prop :=
  ∃ es, stripList es = toExprs args ∧ ∀ rest errors,
    Yields ctx (fun self => self.argumentLoop ⟨printArgs args ++ .special (op ')') :: rest, errors⟩)
      (es, ⟨.special (op ')') :: rest, errors⟩)

theorem readsArgs_nil : ReadsArgs ctx [] :=
  ⟨[], rfl, fun _ _ => yields_argumentStep (.pure fun _ => rfl)⟩

/-- One argument and the rest of the round. -/
theorem yields_argument {r : List Expr × Input} (he : Means e t) (hplain : t.Plain ctx)
    (hread : Yields ctx (fun self => rankParser ctx self assignRank ⟨t.print assignRank ++ rest, errors⟩)
      (e, ⟨rest, errors⟩))
    (hrest : Yields ctx
      (fun self =>
        if Input.matchOp ⟨rest, errors⟩ (op ',') then
          (self.argumentLoop (Input.next ⟨rest, errors⟩)).bind fun a => some (e :: a.1, a.2)
        else some ([e], ⟨rest, errors⟩)) r) :
    Yields ctx (fun self => self.argumentLoop ⟨t.print assignRank ++ rest, errors⟩) r := by
  have hbind := (yields_assignment hread).bind (r := r)
    (g := fun self a =>
      if a.1.isNull then some ([], a.2)
      else if a.2.matchOp (op ',') then (self.argumentLoop a.2.next).bind fun b => some (a.1 :: b.1, b.2)
      else some ([a.1], a.2))
    (hrest.of_eq fun self => by simp only [he.isNull, Bool.false_eq_true, if_false])
  refine yields_argumentStep (hbind.of_eq fun self => ?_)
  have hbegins : Begins ctx (t.print assignRank ++ rest) := (t.begins hplain (by decide)).append rest
  rw [argumentStep, if_neg (by rw [hbegins.not_close]; exact Bool.false_ne_true)]
  rfl

theorem readsArgs_one (hread : Reads ctx assignRank t) (hplain : t.Plain ctx) : ReadsArgs ctx [t] := by
  obtain ⟨e, he, hyields⟩ := hread
  refine ⟨[e], by rw [stripList, he.strip]; rfl, fun rest errors => ?_⟩
  have hstop : Stops assignRank (.special (op ')') :: rest) := (stops_close (by decide)).mono (Nat.zero_le _)
  exact yields_argument he hplain (hyields _ _ hstop) (.pure fun _ => rfl)

theorem stops_comma : Stops assignRank (.special (op ',') :: rest) := by
  have hassign : ∀ a ∈ assignOps, a.special ≠ op ',' := by decide
  refine stops_special (fun b hb => ?_) (fun h => absurd h (by decide))
    (fun a ha => absurd ha (hassign a (mem_assignOps a))) (fun h => absurd h (by decide))
  have hrank : b.rank = BinaryOp.comma.rank := rank_of_special hb
  rw [hrank]
  decide

theorem readsArgs_cons {u : Tree} {ts : List Tree} (hread : Reads ctx assignRank t) (hplain : t.Plain ctx)
    (hargs : ReadsArgs ctx (u :: ts)) : ReadsArgs ctx (t :: u :: ts) := by
  obtain ⟨e, he, hyields⟩ := hread
  obtain ⟨es, hes, hloop⟩ := hargs
  refine ⟨e :: es, by rw [stripList, he.strip, hes]; rfl, fun rest errors => ?_⟩
  have hprint : printArgs (t :: u :: ts) ++ .special (op ')') :: rest =
      t.print assignRank ++ .special (op ',') :: (printArgs (u :: ts) ++ .special (op ')') :: rest) := by
    simp [printArgs]
  rw [hprint]
  have hbind := (hloop rest errors).bind (g := fun _ a => some (e :: a.1, a.2)) (.pure fun _ => rfl)
  exact yields_argument he hplain (hyields _ _ stops_comma) (hbind.of_eq fun self => rfl)

theorem leadsPost_call {args : List Tree} (h : LeadsPost ctx t) (hargs : ReadsArgs ctx args) :
    LeadsPost ctx (.call t args) := by
  obtain ⟨e, he, hlead⟩ := h
  obtain ⟨es, hes, hread⟩ := hargs
  refine ⟨.call e es, ⟨?_, rfl⟩, fun rest errors r hloop => ?_⟩
  · rw [Expr.strip, he.strip, hes]
    rfl
  · have hbind := (hread rest errors).bind (r := r)
      (g := fun self a => self.postLoop (.call e a.1) (expect a.2 (op ')') "in function call"))
      (hloop.of_eq fun self => congrArg _ (expect_special (op ')') rest errors _))
    have hstep : Yields ctx
        (fun self => postStep self e
          ⟨.special (op '(') :: (printArgs args ++ .special (op ')') :: rest), errors⟩) r :=
      hbind.of_eq fun self => rfl
    have hprint : (Tree.call t args).print postRank ++ rest =
        t.print postRank ++ .special (op '(') :: (printArgs args ++ .special (op ')') :: rest) := by
      simp [Tree.print, parens]
    rw [hprint]
    exact hlead _ _ _ (yields_postStep hstep)

/-! ## Binary operators, conditionals and assignments -/

theorem stops_binaryOp (o : BinaryOp) : Stops (o.rank + 1) (.special o.special :: rest) :=
  stops_special (fun _ hb => Nat.lt_succ_of_le (Nat.le_of_eq (rank_of_special hb)))
    (fun h => absurd h (binaryOp_ne_question o)) (fun a ha => absurd ha (assignOp_ne_binaryOp a o))
    (fun h => absurd h (binaryOp_not_mem_post o))

theorem leads_binary {o : BinaryOp} {l r : Tree} (hl : Leads ctx o.level l) (hr : Reads ctx (o.rank + 1) r) :
    Leads ctx o.level (.binary o l r) := by
  obtain ⟨el, hel, hlead⟩ := hl
  obtain ⟨er, her, hread⟩ := hr
  refine ⟨.binary o.type o.special el er, ⟨?_, rfl⟩, fun rest errors res hstop hloop => ?_⟩
  · rw [Expr.strip, hel.strip, her.strip]
    rfl
  · rw [o.rank_level] at hstop
    have hright := hread rest errors hstop
    have hbind := hright.bind (r := res)
      (g := fun self a =>
        if a.1.isNull then
          some (el, a.2.sparseError s!"No right hand side of '{text (Tokenizer.showSpecial o.special)}'-expression")
        else self.binopLoop o.level (.binary o.level.type o.special el a.1) a.2)
      (hloop.of_eq fun self => by simp only [her.isNull, Bool.false_eq_true, if_false, o.type_level])
    have hstep : Yields ctx
        (fun self => self.binopLoop o.level el ⟨.special o.special :: (r.print (o.rank + 1) ++ rest), errors⟩) res := by
      refine yields_binopStep (hbind.of_eq fun self => ?_)
      unfold binopStep
      simp only [special_cons, if_pos o.mem_operators, inner_eq, o.rank_level]
      rfl
    have hprint : (Tree.binary o l r).print o.level.rank ++ rest =
        l.print o.level.rank ++ .special o.special :: (r.print (o.rank + 1) ++ rest) := by
      rw [o.rank_level]
      simp [Tree.print, parens]
    rw [hprint]
    refine hlead _ _ _ ?_ hstep
    rw [o.rank_level]
    exact stops_binaryOp o

theorem stops_question : Stops (conditionalRank + 1) (.special (op '?') :: rest) :=
  stops_special (fun b hb => by cases b <;> exact absurd hb (by decide)) (fun _ => Nat.lt_succ_self _)
    (fun a ha => by cases a <;> exact absurd ha (by decide)) (fun h => absurd h (by decide))

theorem reads_conditional {c f : Tree} (hc : Reads ctx (conditionalRank + 1) c) (ht : Reads ctx 0 t)
    (hf : Reads ctx conditionalRank f) : Reads ctx conditionalRank (.conditional c t f) := by
  obtain ⟨ec, hec, hcread⟩ := hc
  obtain ⟨et, het, htread⟩ := ht
  obtain ⟨ef, hef, hfread⟩ := hf
  refine ⟨.conditional ec et ef, ⟨?_, rfl⟩, fun rest errors hstop => ?_⟩
  · rw [Expr.strip, hec.strip, het.strip, hef.strip]
    rfl
  · let colon := .special (op ':') :: (f.print conditionalRank ++ rest)
    have hfalse := (yields_conditional (hfread rest errors hstop)).bind
      (g := fun _ a => some (Expr.conditional ec et a.1, a.2)) (.pure fun _ => rfl)
    have htrue := (yields_parse (htread colon errors (stops_close (o := op ':') (by decide)))).bind
      (g := fun self a => do
        let condFalse ← self.conditional (expect a.2 (op ':') "in conditional expression")
        some (Expr.conditional ec a.1 condFalse.1, condFalse.2))
      (hfalse.of_eq fun self => by simp only [colon, expect_special])
    have hrest : Yields ctx
        (fun self => conditionalRest self ec ⟨.special (op '?') :: (t.print 0 ++ colon), errors⟩)
        (.conditional ec et ef, ⟨rest, errors⟩) :=
      htrue.of_eq fun self => by
        rw [conditionalRest, if_pos ⟨hec.isNull, matchOp_special _⟩]
        rfl
    have hbind := (hcread _ errors stops_question).bind (g := fun self a => conditionalRest self a.1 a.2) hrest
    have hprint : (Tree.conditional c t f).print conditionalRank ++ rest =
        c.print (conditionalRank + 1) ++ .special (op '?') :: (t.print 0 ++ colon) := by
      simp [Tree.print, parens, colon]
    rw [hprint]
    exact hbind.of_eq fun self => rfl

theorem AssignOp.mem_assignments (o : AssignOp) : o.special ∈ assignments := by
  cases o <;> decide

theorem stops_assignOp (a : AssignOp) : Stops conditionalRank (.special a.special :: rest) := by
  have hquestion : ∀ a ∈ assignOps, a.special ≠ op '?' := by decide
  have hpost : ∀ a ∈ assignOps, a.special ∉ postOperators := by decide
  exact stops_special (fun b hb => absurd hb.symm (assignOp_ne_binaryOp a b))
    (fun h => absurd h (hquestion a (mem_assignOps a))) (fun _ _ => Nat.lt_succ_self _)
    (fun h => absurd h (hpost a (mem_assignOps a)))

theorem reads_assign {o : AssignOp} {l r : Tree} (hl : Reads ctx unaryRank l) (hr : Reads ctx assignRank r) :
    Reads ctx assignRank (.assign o l r) := by
  obtain ⟨el, hel, hlread⟩ := hl
  obtain ⟨er, her, hrread⟩ := hr
  refine ⟨.assignment o.special el er, ⟨?_, rfl⟩, fun rest errors hstop => ?_⟩
  · rw [Expr.strip, hel.strip, her.strip]
    rfl
  · have hstopl : Stops conditionalRank (.special o.special :: (r.print assignRank ++ rest)) := stops_assignOp o
    have hleft := yields_down hel.isNull (by decide) (Nat.le_refl _) hstopl
      (hlread _ errors (hstopl.mono (by decide)))
    have hright := (yields_assignment (hrread rest errors hstop)).bind
      (g := fun _ a => some (Expr.assignment o.special el a.1, a.2)) (.pure fun _ => rfl)
    have hrest : Yields ctx
        (fun self => assignmentRest self el ⟨.special o.special :: (r.print assignRank ++ rest), errors⟩)
        (.assignment o.special el er, ⟨rest, errors⟩) :=
      hright.of_eq fun self => by
        simp only [assignmentRest, special_cons, if_pos (And.intro hel.isNull o.mem_assignments)]
        rfl
    have hbind := hleft.bind (g := fun self a => assignmentRest self a.1 a.2) hrest
    have hprint : (Tree.assign o l r).print assignRank ++ rest =
        l.print unaryRank ++ .special o.special :: (r.print assignRank ++ rest) := by
      simp [Tree.print, parens]
    rw [hprint]
    exact hbind.of_eq fun self => rfl

/-! ## All ranks -/

theorem Reads.down {j : ℕ} (h : Reads ctx j t) (hplain : t.Plain ctx) (hkj : k ≤ j) (hj : j ≤ primaryRank)
    (hne : ∀ i, k ≤ i → i < j → t.rank ≠ i) : Reads ctx k t := by
  induction j, hkj using Nat.le_induction with
  | base => exact h
  | succ j hkj ih =>
    have hstep := h.step (hne j hkj (Nat.lt_succ_self j)) hj hplain
    exact ih hstep (Nat.le_of_succ_le hj) fun i hki hij => hne i hki (Nat.lt_succ_of_lt hij)

theorem Tree.rank_le (t : Tree) : t.rank ≤ primaryRank := by
  cases t with
  | binary o l r => exact Nat.le_of_lt (Nat.lt_add_right 2 o.rank_lt)
  | _ => simp [Tree.rank, assignRank, conditionalRank, unaryRank, postRank, primaryRank]

/-- The tree is read back at every place, and as far as every loop. -/
structure ReadsAll (ctx : Context) (t : Tree) : Prop where
  reads : ∀ k, k ≤ primaryRank → Reads ctx k t
  leads : ∀ level, Leads ctx level t
  leadsPost : LeadsPost ctx t

/-- A tree is read back everywhere when it is at its own rank. -/
theorem readsAll_of_rank (hplain : t.Plain ctx) (hown : Reads ctx t.rank t)
    (hlead : ∀ level, t.rank = level.rank → Leads ctx level t) (hpost : t.rank = postRank → LeadsPost ctx t) :
    ReadsAll ctx t := by
  have hlow : ∀ k, k ≤ t.rank → Reads ctx k t := fun k hk =>
    hown.down hplain hk t.rank_le fun i _ hi => Nat.ne_of_gt hi
  have htop : Reads ctx primaryRank t := by
    rcases Nat.eq_or_lt_of_le t.rank_le with heq | hlt
    · rwa [heq] at hown
    · exact (hlow 0 (Nat.zero_le _)).parens hlt hplain
  have hall : ∀ k, k ≤ primaryRank → Reads ctx k t := by
    intro k hk
    rcases Nat.lt_or_ge t.rank k with hlt | hle
    · exact htop.down hplain hk (Nat.le_refl _) fun i hki _ => Nat.ne_of_lt (Nat.lt_of_lt_of_le hlt hki)
    · exact hlow k hle
  refine ⟨hall, fun level => ?_, ?_⟩
  · by_cases heq : t.rank = level.rank
    · exact hlead level heq
    · exact (hall _ (by cases level <;> decide)).leads heq
  · by_cases heq : t.rank = postRank
    · exact hpost heq
    · exact htop.leadsPost heq

theorem readsAll_of_leadsPost (hplain : t.Plain ctx) (hrank : t.rank = postRank) (h : LeadsPost ctx t) :
    ReadsAll ctx t := by
  refine readsAll_of_rank hplain (hrank ▸ h.reads) (fun level hlevel => ?_) fun _ => h
  rw [hrank] at hlevel
  cases level <;> exact absurd hlevel (by decide)

/-- At the other ranks there is no loop. -/
theorem readsAll_of_reads (hplain : t.Plain ctx) (hrank : t.rank = k)
    (hk : k ∈ [assignRank, conditionalRank, unaryRank, primaryRank]) (h : Reads ctx k t) : ReadsAll ctx t := by
  refine readsAll_of_rank hplain (hrank ▸ h) (fun level hlevel => ?_) fun hpost => ?_
  · have hne : ∀ level : Level, level.rank ∉ [assignRank, conditionalRank, unaryRank, primaryRank] := by
      intro level
      cases level <;> decide
    exact absurd (hrank.symm.trans hlevel ▸ hk) (hne level)
  · exact absurd (hrank.symm.trans hpost ▸ hk) (by decide)

mutual

theorem Tree.readsAll : (t : Tree) → t.Plain ctx → ReadsAll ctx t
  | .ident name, h =>
    readsAll_of_reads (t := .ident name) (k := primaryRank) h rfl (by decide) (reads_ident h)
  | .number text, h =>
    readsAll_of_reads (t := .number text) (k := primaryRank) h rfl (by decide) (reads_number h)
  | .unary o t, h =>
    readsAll_of_reads (t := .unary o t) (k := unaryRank) h rfl (by decide)
      (reads_unary ((t.readsAll h).reads _ (by decide)))
  | .typeInfo o t, h =>
    readsAll_of_reads (t := .typeInfo o t) (k := unaryRank) h rfl (by decide)
      (reads_typeInfo ((t.readsAll h).reads _ (by decide)) h)
  | .postop o t, h => readsAll_of_leadsPost (t := .postop o t) h rfl (leadsPost_postop (t.readsAll h).leadsPost)
  | .index t i, h =>
    readsAll_of_leadsPost (t := .index t i) h rfl
      (leadsPost_index (t.readsAll h.1).leadsPost ((i.readsAll h.2).reads 0 (by decide)))
  | .member t name, h =>
    readsAll_of_leadsPost (t := .member t name) h rfl (leadsPost_member (t.readsAll h).leadsPost)
  | .arrow t name, h => readsAll_of_leadsPost (t := .arrow t name) h rfl (leadsPost_arrow (t.readsAll h).leadsPost)
  | .call f args, h =>
    readsAll_of_leadsPost (t := .call f args) h rfl (leadsPost_call (f.readsAll h.1).leadsPost (readsArgs args h.2))
  | .binary o l r, h => by
    have hlead := leads_binary ((l.readsAll h.1).leads o.level)
      ((r.readsAll h.2).reads (o.rank + 1) (Nat.lt_add_right 2 o.rank_lt))
    have hreads : Reads ctx o.rank (.binary o l r) := o.rank_level ▸ hlead.reads
    refine readsAll_of_rank (t := .binary o l r) h hreads (fun level heq => ?_) fun heq => ?_
    · have hlevel : level = o.level := by
        have hinjective : ∀ a b : Level, a.rank = b.rank → a = b := by
          intro a b
          cases a <;> cases b <;> decide
        exact hinjective _ _ ((o.rank_level.trans heq).symm)
      rw [hlevel]
      exact hlead
    · exact absurd heq (Nat.ne_of_lt (Nat.lt_succ_of_lt o.rank_lt))
  | .conditional c t f, h =>
    readsAll_of_reads (t := .conditional c t f) (k := conditionalRank) h rfl (by decide)
      (reads_conditional ((c.readsAll h.1).reads _ (by decide)) ((t.readsAll h.2.1).reads 0 (by decide))
        ((f.readsAll h.2.2).reads _ (by decide)))
  | .assign o l r, h =>
    readsAll_of_reads (t := .assign o l r) (k := assignRank) h rfl (by decide)
      (reads_assign ((l.readsAll h.1).reads _ (by decide)) ((r.readsAll h.2).reads _ (by decide)))

theorem readsArgs : (args : List Tree) → PlainArgs ctx args → ReadsArgs ctx args
  | [], _ => readsArgs_nil
  | [t], h => readsArgs_one ((t.readsAll h.1).reads _ (by decide)) h.1
  | t :: u :: ts, h => readsArgs_cons ((t.readsAll h.1).reads _ (by decide)) h.1 (readsArgs (u :: ts) h.2)

end

/-- `parse_expression` takes a printed tree and no token more, where no operator follows,
and gives it back; no error is reported. -/
theorem parseExpression_print (ctx : Context) (t : Tree) (hplain : t.Plain ctx) {rest : List Tok} (hrest : Stops 0 rest)
    (errors : List String) :
    ∃ e : Expr, e.strip = t.toExpr ∧ ∃ N, ∀ n, N ≤ n →
      parseExpression ctx (parsers ctx n) ⟨t.print 0 ++ rest, errors⟩ = some (e, ⟨rest, errors⟩) := by
  obtain ⟨e, he, hread⟩ := (t.readsAll hplain).reads 0 (Nat.zero_le _)
  exact ⟨e, he.strip, hread rest errors hrest⟩

/-- A scope without symbols, where every number is accepted. -/
def emptyContext : Context where
  lookupSymbol _ := none
  getNumberValue _ := true
  statementExpression _ _ := none
  typeExpression _ _ := none
  builtinExpression _ _ _ := none
  typeInfoType _ _ _ := none
  castType _ _ := none
  reserved _ _ _ h := nomatch h

/-- `a[i] = *p++ - (b - f(c, 1)) ? x, y : sizeof q->m`. -/
def mixedTree : Tree :=
  .assign .assign (.index (.ident (ident "a")) (.ident (ident "i")))
    (.conditional
      (.binary .sub (.unary .indirection (.postop .increment (.ident (ident "p"))))
        (.binary .sub (.ident (ident "b")) (.call (.ident (ident "f")) [.ident (ident "c"), .number (ident "1")])))
      (.binary .comma (.ident (ident "x")) (.ident (ident "y")))
      (.typeInfo .sizeof (.arrow (.ident (ident "q")) (ident "m"))))

theorem parseExpression_print_mixedTree :
    ∃ e : Expr, e.strip = mixedTree.toExpr ∧ ∃ N, ∀ n, N ≤ n →
      parseExpression emptyContext (parsers emptyContext n) ⟨mixedTree.print 0 ++ [.special (op ';')], []⟩ =
        some (e, ⟨[.special (op ';')], []⟩) := by
  have hname : ∀ name ∈ ["a", "i", "p", "b", "f", "c", "x", "y", "q"], emptyContext.PlainName (ident name) := by
    intro name hname
    have hkeyword : ∀ name ∈ ["a", "i", "p", "b", "f", "c", "x", "y", "q"],
        typeInformation.lookup (ident name) = none ∧ ident name ∉ builtins := by decide
    exact ⟨(hkeyword name hname).1, fun _ h => (nomatch h), fun _ => (hkeyword name hname).2⟩
  have hplain : mixedTree.Plain emptyContext :=
    ⟨⟨hname "a" (by simp), hname "i" (by simp)⟩,
      ⟨hname "p" (by simp), hname "b" (by simp), hname "f" (by simp), hname "c" (by simp), rfl, trivial⟩,
      ⟨hname "x" (by simp), hname "y" (by simp)⟩, hname "q" (by simp)⟩
  exact parseExpression_print emptyContext mixedTree hplain (stops_close (by decide)) []

end Sparse.ExpressionParser
