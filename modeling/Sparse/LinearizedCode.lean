import Sparse.Linearize
import Sparse.StutterSimulation

/-!
# Runs of the linearized code

How a graph of basic blocks runs, and what it means that the code of a statement stands
between two points of it. Points before and after dropped code are `none`.
-/

namespace Sparse

open Relation

/-- A place in a block. -/
abbrev Point := BlockId × ℕ

/-- The state of a run of the graph, with the values of the pseudos so far. -/
structure GraphState where
  history : List Event
  point : Point
  pseudo : ExprId → BitVec 64

namespace Entrypoint

variable (ep : Entrypoint)

def insnAt (x : Point) : Option LinearInsn := (ep.insns x.1)[x.2]?

/-- One step of the graph. There is none from a return. -/
def step (o : Oracle) (g : GraphState) : Option GraphState :=
  match ep.insnAt g.point with
  | none | some .ret => none
  | some .entry | some .phi | some .phisource =>
    some { g with point := (g.point.1, g.point.2 + 1) }
  | some (.eval e) =>
    some ⟨o.eval g.history e, (g.point.1, g.point.2 + 1),
      Function.update g.pseudo e (o g.history e)⟩
  | some (.br bb) => some { g with point := (bb, 0) }
  | some (.cbr cond bbTrue bbFalse) =>
    some { g with point := (if g.pseudo cond = 0 then bbFalse else bbTrue, 0) }
  | some (.switch cond insn) =>
    (Ir.selectJump (g.pseudo cond) (ep.multijmpList insn)).map
      fun jmp => { g with point := (jmp.target, 0) }

/-- The graph as a machine. -/
def graph (o : Oracle) : StutterSimulation.Machine GraphState Event where
  step := ep.step o
  history := GraphState.history
  done g := ep.insnAt g.point = some .ret
  grows g g' h := by
    unfold step at h
    split at h <;> simp only [Option.map_eq_some_iff, Option.some.injEq, reduceCtorEq] at h
    all_goals first
      | (subst h; simp [Oracle.eval])
      | (obtain ⟨_, -, rfl⟩ := h; simp)
  stops g h := by simp [step, h]

/-- A step that neither evaluates anything nor depends on what was evaluated. -/
inductive Passes (ep : Entrypoint) : Point → Point → Prop
  | entry {x} (h : ep.insnAt x = some .entry) : Passes ep x (x.1, x.2 + 1)
  | phi {x} (h : ep.insnAt x = some .phi) : Passes ep x (x.1, x.2 + 1)
  | phisource {x} (h : ep.insnAt x = some .phisource) : Passes ep x (x.1, x.2 + 1)
  | br {x bb} (h : ep.insnAt x = some (.br bb)) : Passes ep x (bb, 0)

/-- Control passes from one point to another without an event. -/
abbrev Flows : Point → Point → Prop := ReflTransGen ep.Passes

/-- The code at a point tests a condition and goes to one of two blocks. -/
def Tests : Condition → Point → BlockId → BlockId → Prop
  | .value truth, x, bbTrue, bbFalse =>
    ep.insnAt x = some (.br (if truth then bbTrue else bbFalse))
  | .logicalAnd left right, x, bbTrue, bbFalse =>
    ∃ next y, Tests left x next bbFalse ∧ ep.Flows (next, 0) y ∧ Tests right y bbTrue bbFalse
  | .logicalOr left right, x, bbTrue, bbFalse =>
    ∃ next y, Tests left x bbTrue next ∧ ep.Flows (next, 0) y ∧ Tests right y bbTrue bbFalse
  | .not unop, x, bbTrue, bbFalse => Tests unop x bbFalse bbTrue
  | .compare e, x, bbTrue, bbFalse | .other e, x, bbTrue, bbFalse =>
    ep.insnAt x = some (.eval e) ∧ ep.insnAt (x.1, x.2 + 1) = some (.cbr e bbTrue bbFalse)

/-- The code between two points evaluates a returned expression, if there is one. -/
def Evaluates (expr : Option ExprId) (x y : Point) : Prop :=
  match expr with
  | none => y = x
  | some e => ep.insnAt x = some (.eval e) ∧ y = (x.1, x.2 + 1)

/-- The block of a label starts at `y`, where control from `p` arrives as well. -/
def LabelAt (l : LabelId) (p : Option Point) (y : Point) : Prop :=
  (∀ x ∈ p, ep.Flows x y) ∧ ∃ bb, ep.bbTarget l = some bb ∧ ep.Flows (bb, 0) y

/-- The blocks of a loop and the points where their code starts and ends. -/
structure LoopShape where
  loopTop : BlockId
  loopBody : BlockId
  loopContinue : BlockId
  loopEnd : BlockId
  bodyPoint : Point
  bodyEnd : Option Point
  continuePoint : Point
  continueEnd : Option Point
  endPoint : Point

/-- The code at a point makes the first test of a loop. -/
def EntersLoop (preCondition : Option Condition) (shape : LoopShape) (x : Point) : Prop :=
  match preCondition with
  | none => ep.Flows x shape.bodyPoint
  | some c => ep.Tests c x shape.loopBody shape.loopEnd

/-- The code at a point ends an iteration. -/
def RepeatsLoop (postCondition : Option Condition) (shape : LoopShape) (x : Point) : Prop :=
  match postCondition with
  | none => ep.insnAt x = some (.br shape.loopTop)
  | some c => ep.Tests c x shape.loopTop shape.loopEnd

/-- The code of a loop, given what the code of its statements is. -/
structure LoopAt (preCondition postCondition : Option Condition)
    (body post : Option Point → Option Point → Prop) (shape : LoopShape) : Prop where
  top : match postCondition with
    | none => ∃ y, ep.Flows (shape.loopTop, 0) y ∧ ep.EntersLoop preCondition shape y
    | some _ => shape.loopTop = shape.loopBody
  body_flows : ep.Flows (shape.loopBody, 0) shape.bodyPoint
  body_code : body (some shape.bodyPoint) shape.bodyEnd
  body_end : ∀ x ∈ shape.bodyEnd, ep.Flows x shape.continuePoint
  continue_flows : ep.Flows (shape.loopContinue, 0) shape.continuePoint
  continue_code : post (some shape.continuePoint) shape.continueEnd
  continue_end : ∀ x ∈ shape.continueEnd, ep.RepeatsLoop postCondition shape x
  end_flows : ep.Flows (shape.loopEnd, 0) shape.endPoint

/-- The jumps of a switch, from the blocks that the labels are bound to. -/
def jumps (ep : Entrypoint) (cases : List SwitchCase) : List Multijmp :=
  cases.filterMap fun c => c.jump ((ep.bbTarget c.label).getD 0)

/-- Where the jump of the default goes. -/
def defaultBlock (cases : List SwitchCase) (switchEnd : BlockId) : BlockId :=
  ((cases.reverse.find? (·.caseExpression.isNone)).map
    fun c => (ep.bbTarget c.label).getD 0).getD switchEnd

/-- A switch instruction is at a point, with its jumps in order. -/
def SwitchAt (e : ExprId) (cases : List SwitchCase) (switchEnd : BlockId) (x : Point) : Prop :=
  ∃ insn, ep.insnAt x = some (.eval e) ∧ ep.insnAt (x.1, x.2 + 1) = some (.switch e insn) ∧
    ep.multijmpList insn =
      (ep.jumps cases ++ [(⟨ep.defaultBlock cases switchEnd, 1, 0⟩ : Multijmp)]).mergeSort multijmpLe

end Entrypoint

/-- The labels and the exits of a statement all differ. -/
def Statement.Distinct (s : Statement) : Prop := (s.labels ++ s.exits).Nodup

def Statements.Distinct (ss : Statements) : Prop := (ss.labels ++ ss.exits).Nodup

section Code

variable (ep : Entrypoint)

mutual

/-- The code of a statement stands between two points. -/
def Statement.CodeAt : Statement → Option Point → Option Point → Prop
  | .none, p, q => q = p
  | .expression e, p, q =>
    q = p.map (fun x => (x.1, x.2 + 1)) ∧ ∀ x ∈ p, ep.insnAt x = some (.eval e)
  | .ret expr _ l, p, q => q = Option.none ∧ ∀ x ∈ p, ∃ y z bb,
    ep.Evaluates expr x y ∧ ep.Flows y z ∧ ep.insnAt z = some (.br bb) ∧ ep.bbTarget l = some bb
  | .goto l, p, q =>
    q = Option.none ∧ ∀ x ∈ p, ∃ bb, ep.insnAt x = some (.br bb) ∧ ep.bbTarget l = some bb
  | .case l s, p, q => ∃ y, ep.LabelAt l p y ∧ s.CodeAt (some y) q
  | .label l used s, p, q =>
    if used then ∃ y, ep.LabelAt l p y ∧ s.CodeAt (some y) q else q = p
  | .compound ss ret, p, q => ∃ m, ss.CodeAt p m ∧
    match ret with
      | Option.none => q = m
      | some l => ∃ y, ep.LabelAt l m y ∧ q = some y
  | .ifThen c s, p, q => ∃ bbTrue endif y m z, (∀ x ∈ p, ep.Tests c x bbTrue endif) ∧
    ep.Flows (bbTrue, 0) y ∧ s.CodeAt (some y) m ∧
    (∀ x ∈ m, ep.Flows x z) ∧ ep.Flows (endif, 0) z ∧ q = some z
  | .ifElse c s t, p, q => ∃ bbTrue bbFalse y y' m m' z, (∀ x ∈ p, ep.Tests c x bbTrue bbFalse) ∧
    ep.Flows (bbTrue, 0) y ∧ s.CodeAt (some y) m ∧
    ep.Flows (bbFalse, 0) y' ∧ t.CodeAt (some y') m' ∧
    (∀ x ∈ m, ep.Flows x z) ∧ (∀ x ∈ m', ep.Flows x z) ∧ q = some z
  | .switch e cases brk s, p, q =>
    match p with
      | Option.none => q = Option.none
      | some x => ∃ switchEnd m z, ep.SwitchAt e cases switchEnd x ∧
        disjointCases cases ∧ s.Distinct ∧ s.CodeAt Option.none m ∧ (∀ x ∈ m, ep.Flows x z) ∧
        ep.bbTarget brk = some switchEnd ∧ ep.Flows (switchEnd, 0) z ∧ q = some z
  | .iterator pre preCondition body post postCondition cont brk, p, q => ∃ shape m,
    pre.CodeAt p m ∧ (∀ x ∈ m, ∃ y, ep.Flows x y ∧ ep.EntersLoop preCondition shape y) ∧
    ep.LoopAt preCondition postCondition body.CodeAt post.CodeAt shape ∧
    ep.bbTarget cont = some shape.loopContinue ∧ ep.bbTarget brk = some shape.loopEnd ∧
    q = some shape.endPoint

def Statements.CodeAt : Statements → Option Point → Option Point → Prop
  | .nil, p, q => q = p
  | .cons s ss, p, q => ∃ m, s.CodeAt p m ∧ ss.CodeAt m q

end

/-- The code of a loop, as it runs. -/
def Loop.CodeAt (loop : Loop) (shape : Entrypoint.LoopShape) : Prop :=
  ep.LoopAt loop.preCondition loop.postCondition (loop.body.CodeAt ep) (loop.post.CodeAt ep) shape

/-- What is left to do comes after the point, where control flows to it. -/
def Kont.CodeAt : Kont → Option Point → Prop
  | .stop, q => ∀ x ∈ q, ∃ y, ep.Flows x y ∧ ep.insnAt y = some .ret
  | .seq ss k, q => ∃ p m, (∀ x ∈ q, ∃ y ∈ p, ep.Flows x y) ∧ ss.CodeAt ep p m ∧ k.CodeAt m
  | .loopPre loop k, q => ∃ shape, loop.CodeAt ep shape ∧
    (∀ x ∈ q, ∃ y, ep.Flows x y ∧ ep.EntersLoop loop.preCondition shape y) ∧
    k.CodeAt (some shape.endPoint)
  | .loopBody loop k, q => ∃ shape, loop.CodeAt ep shape ∧
    (∀ x ∈ q, ep.Flows x shape.continuePoint) ∧ k.CodeAt (some shape.endPoint)
  | .loopPost loop k, q => ∃ shape, loop.CodeAt ep shape ∧
    (∀ x ∈ q, ∃ y, ep.Flows x y ∧ ep.RepeatsLoop loop.postCondition shape y) ∧
    k.CodeAt (some shape.endPoint)

/-- The code of what a run is about to do stands at the point. -/
def Config.CodeAt : Config → Point → Prop
  | .run s k, x => ∃ q, s.CodeAt ep (some x) q ∧ k.CodeAt ep q
  | .runs ss k, x => ∃ q, ss.CodeAt ep (some x) q ∧ k.CodeAt ep q
  | .resume k, x => k.CodeAt ep (some x)

end Code

end Sparse
