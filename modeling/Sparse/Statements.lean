import Sparse.LinearIr

/-!
# Statements and their meaning

The statement trees that `linearize_statement` walks, and how C runs them. An expression is
an event: evaluating it asks an oracle for its value and records both. `break` and
`continue` are jumps to the symbols that their loop or switch carries.
-/

namespace Sparse

/-- The name of an expression. -/
abbrev ExprId := ℕ

/-- The name of a `struct symbol` that stands for a label. -/
abbrev LabelId := ℕ

/-- An expression in a controlling position, as `linearize_cond_branch` takes it apart. -/
inductive Condition
  | value (truth : Bool)
  | logicalAnd (left right : Condition)
  | logicalOr (left right : Condition)
  | not (unop : Condition)
  | compare (expr : ExprId)
  | other (expr : ExprId)
  deriving Repr

/-- A case symbol of a switch. Without a `case_expression` it is the default. -/
structure SwitchCase where
  label : LabelId
  caseExpression : Option (BitVec 64)
  caseTo : Option (BitVec 64)
  deriving DecidableEq, Repr

mutual

/-- `struct statement`. A null statement is `none`. -/
inductive Statement
  | none
  | expression (expr : ExprId)
  | ret (expr : Option ExprId) (isVoid : Bool) (retTarget : LabelId)
  | case (caseLabel : LabelId) (caseStatement : Statement)
  | label (labelIdentifier : LabelId) (used : Bool) (labelStatement : Statement)
  | goto (gotoLabel : LabelId)
  | compound (stmts : Statements) (ret : Option LabelId)
  | ifThen (conditional : Condition) (ifTrue : Statement)
  | ifElse (conditional : Condition) (ifTrue ifFalse : Statement)
  | switch (expr : ExprId) (cases : List SwitchCase) (switchBreak : LabelId) (body : Statement)
  | iterator (pre : Statement) (preCondition : Option Condition) (body post : Statement)
      (postCondition : Option Condition) (iteratorContinue iteratorBreak : LabelId)
  deriving Repr

/-- A statement list. -/
inductive Statements
  | nil
  | cons (stmt : Statement) (rest : Statements)
  deriving Repr

end

/-- An expression was evaluated to a value. -/
structure Event where
  expr : ExprId
  value : BitVec 64
  deriving DecidableEq, Repr

/-- The value of an expression, given what was evaluated before. -/
abbrev Oracle := List Event → ExprId → BitVec 64

/-- Evaluate an expression. -/
def Oracle.eval (o : Oracle) (h : List Event) (e : ExprId) : List Event := h ++ [⟨e, o h e⟩]

/-- Evaluate a condition as C does. -/
def Condition.eval (o : Oracle) : Condition → List Event → List Event × Bool
  | .value truth, h => (h, truth)
  | .logicalAnd left right, h =>
    match left.eval o h with
    | (h, true) => right.eval o h
    | (h, false) => (h, false)
  | .logicalOr left right, h =>
    match left.eval o h with
    | (h, true) => (h, true)
    | (h, false) => right.eval o h
  | .not unop, h =>
    match unop.eval o h with
    | (h, truth) => (h, !truth)
  | .compare e, h | .other e, h => (o.eval h e, o h e ≠ 0)

/-- The value lies in the range of the case. -/
def SwitchCase.holds (c : SwitchCase) (value : BitVec 64) : Bool :=
  match c.caseExpression with
  | none => false
  | some low => low.sle value && value.sle (c.caseTo.getD low)

/-- The case that a switch goes to, or its default. -/
def selectCase (cases : List SwitchCase) (value : BitVec 64) : Option SwitchCase :=
  (cases.find? (·.holds value)).or (cases.reverse.find? (·.caseExpression.isNone))

/-- What a loop does after its first statement. -/
structure Loop where
  preCondition : Option Condition
  body : Statement
  post : Statement
  postCondition : Option Condition
  deriving Repr

/-- What is left to do when a statement ends. -/
inductive Kont
  | stop
  | seq (rest : Statements) (k : Kont)
  | loopPre (loop : Loop) (k : Kont)
  | loopBody (loop : Loop) (k : Kont)
  | loopPost (loop : Loop) (k : Kont)
  deriving Repr

/-- Where a run is. -/
inductive Config
  | run (s : Statement) (k : Kont)
  | runs (ss : Statements) (k : Kont)
  | resume (k : Kont)
  deriving Repr

mutual

/-- Where a jump to a label arrives, within a statement that `k` follows. -/
def Statement.findLabel (l : LabelId) : Statement → Kont → Option Config
  | .none, _ | .expression _, _ | .ret _ _ _, _ | .goto _, _ => none
  | .case l' s, k | .label l' _ s, k => if l' = l then some (.run s k) else s.findLabel l k
  | .compound ss ret, k =>
    (ss.findLabel l k).or (if ret = some l then some (.resume k) else none)
  | .ifThen _ s, k => s.findLabel l k
  | .ifElse _ s t, k => (s.findLabel l k).or (t.findLabel l k)
  | .switch _ _ brk body, k =>
    (body.findLabel l k).or (if brk = l then some (.resume k) else none)
  | .iterator pre preCondition body post postCondition cont brk, k =>
    let loop : Loop := ⟨preCondition, body, post, postCondition⟩
    (pre.findLabel l (.loopPre loop k)).or <|
      (body.findLabel l (.loopBody loop k)).or <|
        (post.findLabel l (.loopPost loop k)).or <|
          if cont = l then some (.run post (.loopPost loop k))
          else if brk = l then some (.resume k) else none

def Statements.findLabel (l : LabelId) : Statements → Kont → Option Config
  | .nil, _ => none
  | .cons s ss, k => (s.findLabel l (.seq ss k)).or (ss.findLabel l k)

end

/-- A condition decides between two configurations. -/
def Condition.choose (o : Oracle) (h : List Event) (c : Condition) (yes no : Config) :
    List Event × Config :=
  match c.eval o h with
  | (h, true) => (h, yes)
  | (h, false) => (h, no)

/-- The first test of a loop. -/
def Loop.enter (o : Oracle) (h : List Event) (loop : Loop) (k : Kont) : List Event × Config :=
  match loop.preCondition with
  | none => (h, .run loop.body (.loopBody loop k))
  | some c => c.choose o h (.run loop.body (.loopBody loop k)) (.resume k)

/-- The test at the end of an iteration: an empty post-condition means the pre-condition. -/
def Loop.again (o : Oracle) (h : List Event) (loop : Loop) (k : Kont) : List Event × Config :=
  match loop.postCondition with
  | none => loop.enter o h k
  | some c => c.choose o h (.run loop.body (.loopBody loop k)) (.resume k)

/-- One step of a function with the given body. There is none when the body has ended, or at
a jump to a label that the body does not have. -/
def Statement.step (o : Oracle) (body : Statement) :
    List Event × Config → Option (List Event × Config)
  | (h, .run s k) =>
    match s with
    | .none => some (h, .resume k)
    | .expression e => some (o.eval h e, .resume k)
    | .ret Option.none _ l | .goto l => (body.findLabel l .stop).map (h, ·)
    | .ret (some e) _ l => (body.findLabel l .stop).map (o.eval h e, ·)
    | .case _ s | .label _ _ s => some (h, .run s k)
    | .compound ss _ => some (h, .runs ss k)
    | .ifThen c s => some (c.choose o h (.run s k) (.resume k))
    | .ifElse c s t => some (c.choose o h (.run s k) (.run t k))
    | .switch e cases _ s =>
      match selectCase cases (o h e) with
      | some c => (s.findLabel c.label k).map (o.eval h e, ·)
      | Option.none => some (o.eval h e, .resume k)
    | .iterator pre preCondition body post postCondition _ _ =>
      some (h, .run pre (.loopPre ⟨preCondition, body, post, postCondition⟩ k))
  | (h, .runs .nil k) => some (h, .resume k)
  | (h, .runs (.cons s ss) k) => some (h, .run s (.seq ss k))
  | (_, .resume .stop) => Option.none
  | (h, .resume (.seq ss k)) => some (h, .runs ss k)
  | (h, .resume (.loopPre loop k)) => some (loop.enter o h k)
  | (h, .resume (.loopBody loop k)) => some (h, .run loop.post (.loopPost loop k))
  | (h, .resume (.loopPost loop k)) => some (loop.again o h k)

/-! ## What the parser guarantees -/

mutual

/-- The labels that stand in a statement. -/
def Statement.labels : Statement → List LabelId
  | .none | .expression _ | .ret _ _ _ | .goto _ => []
  | .case l s | .label l _ s => l :: s.labels
  | .compound ss ret => ss.labels ++ ret.toList
  | .ifThen _ s | .switch _ _ _ s => s.labels
  | .ifElse _ s t => s.labels ++ t.labels
  | .iterator pre _ body post _ _ _ => pre.labels ++ (body.labels ++ post.labels)

def Statements.labels : Statements → List LabelId
  | .nil => []
  | .cons s ss => s.labels ++ ss.labels

end

mutual

/-- The symbols that `break` and `continue` jump to in the loops and switches of a statement. -/
def Statement.exits : Statement → List LabelId
  | .none | .expression _ | .ret _ _ _ | .goto _ => []
  | .case _ s | .label _ _ s | .ifThen _ s => s.exits
  | .compound ss _ => ss.exits
  | .ifElse _ s t => s.exits ++ t.exits
  | .switch _ _ brk s => brk :: s.exits
  | .iterator pre _ body post _ cont brk => cont :: brk :: (pre.exits ++ (body.exits ++ post.exits))

def Statements.exits : Statements → List LabelId
  | .nil => []
  | .cons s ss => s.exits ++ ss.exits

end

/-- No value lies in the ranges of two cases. -/
def disjointCases (cases : List SwitchCase) : Prop :=
  cases.Pairwise fun c c' => ∀ v, ¬ (c.holds v ∧ c'.holds v)

mutual

/-- Jumps stay within what is in scope: the given labels, and the exits of the loops and switches
around them. The cases of a switch stand in its body and do not overlap. -/
def Statement.Scoped (A : LabelId → Prop) : Statement → Prop
  | .none | .expression _ => True
  | .ret _ _ l | .goto l => A l
  | .case _ s | .label _ _ s | .ifThen _ s => s.Scoped A
  | .compound ss _ => ss.Scoped A
  | .ifElse _ s t => s.Scoped A ∧ t.Scoped A
  | .switch _ cases brk s =>
    s.Scoped (fun l => A l ∨ l = brk) ∧ disjointCases cases ∧ ∀ c ∈ cases, c.label ∈ s.labels
  | .iterator pre _ body post _ cont brk =>
    pre.Scoped A ∧ body.Scoped (fun l => A l ∨ l = cont ∨ l = brk) ∧
      post.Scoped (fun l => A l ∨ l = cont ∨ l = brk)

def Statements.Scoped (A : LabelId → Prop) : Statements → Prop
  | .nil => True
  | .cons s ss => s.Scoped A ∧ ss.Scoped A

end

/-- A function body as the parser builds it. -/
structure Statement.WellFormed (body : Statement) : Prop where
  nodup : (body.labels ++ body.exits).Nodup
  jumps : body.Scoped (· ∈ body.labels)

/-! ## What linearization keeps -/

mutual

/-- Code after a statement has an active block, when code at its start has one or not. -/
def Statement.active : Statement → Bool → Bool
  | .none, r | .expression _, r => r
  | .ret _ _ _, _ | .goto _, _ => false
  | .case _ s, _ => s.active true
  | .label _ used s, r => if used then s.active true else r
  | .compound ss ret, r => ss.active r || ret.isSome
  | .ifThen _ _, _ | .ifElse _ _ _, _ | .iterator _ _ _ _ _ _ _, _ => true
  | .switch _ _ _ _, r => r

def Statements.active : Statements → Bool → Bool
  | .nil, r => r
  | .cons s ss, r => ss.active (s.active r)

end

mutual

/-- The labels of a statement that code is made for: those outside of unused labels and of
switches that start without an active block. -/
def Statement.placed : Statement → Bool → List LabelId
  | .none, _ | .expression _, _ | .ret _ _ _, _ | .goto _, _ => []
  | .case l s, _ => l :: s.placed true
  | .label l used s, _ => if used then l :: s.placed true else []
  | .compound ss ret, r => ss.placed r ++ ret.toList
  | .ifThen _ s, _ => s.placed true
  | .ifElse _ s t, _ => s.placed true ++ t.placed true
  | .switch _ _ brk s, r => if r then brk :: s.placed false else []
  | .iterator pre _ body post _ cont brk, r =>
    cont :: brk :: (pre.placed r ++ (body.placed true ++ post.placed true))

def Statements.placed : Statements → Bool → List LabelId
  | .nil, _ => []
  | .cons s ss, r => s.placed r ++ ss.placed (s.active r)

end

/-- The values of a case fit in the `int` that its jump holds, and are in order. -/
def SwitchCase.fits (c : SwitchCase) : Prop :=
  ∀ low ∈ c.caseExpression, (low.setWidth 32).signExtend 64 = low ∧
    ((c.caseTo.getD low).setWidth 32).signExtend 64 = c.caseTo.getD low ∧
    low.sle (c.caseTo.getD low)

/-- The next step stays within the code that is made: it does not enter a statement under an
unused label, jumps to a label that is kept, and chooses among cases that fit. -/
def Statement.Keeps (o : Oracle) (body : Statement) : List Event × Config → Prop
  | (_, .run (.label _ used _) _) => used
  | (_, .run (.goto l) _) | (_, .run (.ret _ _ l) _) => l ∈ body.placed true
  | (h, .run (.switch e cases _ s) _) =>
    (∀ c ∈ cases, c.fits) ∧ ∀ c ∈ selectCase cases (o h e), c.label ∈ s.placed false
  | _ => True

end Sparse
