import Sparse.ConditionalGroups

/-!
# The preprocessor's conditional directives

The token stream of the nested files, the fields of `struct stream` that the
directives keep, and the loops that consume tokens: `do_preprocess` and
`collect_arg`. Macro definitions are abstract, and so is what an expansion
leaves in the place of a call; the node that `preprocessor_if` puts on the
stack of its stream is named by the number of such nodes before it.
-/

namespace Sparse.Preprocess
open ConditionalGroups

/-! ## Tokens -/

/-- What the loops and the directives read of a token. -/
inductive TokenKind
  | ident (name : String)
  | number
  | special (op : String)
  | streamBegin
  | streamEnd
  deriving DecidableEq, Repr

/-- A token with its position flags. `expanded` records that it comes from the
expansion of a macro and not from the file itself. -/
structure Token where
  kind : TokenKind
  stream : ℕ
  newline : Bool
  noexpand : Bool
  expanded : Bool
  deriving DecidableEq, Repr

namespace Token

/-- `TOKEN_STREAMBEGIN` or `TOKEN_STREAMEND`. -/
def isMarker (t : Token) : Bool :=
  t.kind = .streamBegin || t.kind = .streamEnd

/-- `next->pos.newline && match_op(next, '#') && !next->pos.noexpand`. -/
def startsLine (t : Token) : Bool :=
  t.newline && t.kind = .special "#" && !t.noexpand

end Token

/-- The token `setup_stream` puts first. -/
def streamBegin (n : ℕ) : Token :=
  ⟨.streamBegin, n, true, false, false⟩

/-- The token `mark_eof` puts last. -/
def streamEnd (n : ℕ) : Token :=
  ⟨.streamEnd, n, true, false, false⟩

/-- The tokens of a file. -/
def FileBody (n : ℕ) (body : List Token) : Prop :=
  ∀ t ∈ body, t.stream = n ∧ t.expanded = false ∧ t.isMarker = false

/-! ## Streams -/

/-- The types that a node of the stack takes. -/
inductive IfKind
  | tokenIf | skipGroups | tokenElse
  deriving DecidableEq, Repr

/-- A node of the list at `top_if`. -/
structure IfToken where
  id : ℕ
  kind : IfKind
  deriving DecidableEq, Repr

/-- The fields of `struct stream` that belong to conditionals and include
guards. `opened` counts the nodes made so far. -/
structure Stream where
  topIf : List IfToken
  dirty : Bool
  ifndef : Option ℕ
  protect : Option String
  constant : Bool
  opened : ℕ
  deriving DecidableEq, Repr

namespace Stream

def initial : Stream :=
  ⟨[], false, none, none, false, 0⟩

/-- `dirty_stream`. -/
def dirtyStream (s : Stream) : Stream :=
  if s.dirty then s
  else { s with dirty := true, protect := if s.ifndef.isSome then s.protect else none }

/-- `end_group`. -/
def endGroup (s : Stream) : Stream :=
  if s.ifndef = s.topIf.head?.map IfToken.id then
    if s.dirty = false then { s with ifndef := none, protect := none }
    else if s.protect.isSome then { s with ifndef := none, dirty := false }
    else { s with ifndef := none }
  else s

/-- `nesting_error`. -/
def nestingError (s : Stream) : Stream :=
  { s with dirty := true, ifndef := none, protect := none }

@[simp] theorem dirtyStream_topIf (s : Stream) : s.dirtyStream.topIf = s.topIf := by
  unfold dirtyStream
  split <;> rfl

@[simp] theorem dirtyStream_opened (s : Stream) : s.dirtyStream.opened = s.opened := by
  unfold dirtyStream
  split <;> rfl

@[simp] theorem endGroup_topIf (s : Stream) : s.endGroup.topIf = s.topIf := by
  unfold endGroup
  split_ifs <;> rfl

@[simp] theorem endGroup_opened (s : Stream) : s.endGroup.opened = s.opened := by
  unfold endGroup
  split_ifs <;> rfl

@[simp] theorem nestingError_topIf (s : Stream) : s.nestingError.topIf = s.topIf := rfl

@[simp] theorem nestingError_opened (s : Stream) : s.nestingError.opened = s.opened := rfl

end Stream

/-! ## The handlers -/

/-- A preprocessor line, by its handler. -/
inductive Directive
  | null
  | ifdef (args : List Token)
  | ifndef (args : List Token)
  | if_ (expr : List Token)
  | elif (expr : List Token)
  | else_
  | endif
  | normal
  deriving DecidableEq, Repr

/-- The tables of `init_preprocessor`, as `handle_preprocessor_line` looks them up. -/
def directiveOf (line : List Token) : Directive :=
  match line with
  | [] => .null
  | t :: rest =>
    match t.kind with
    | .ident "ifdef" => .ifdef rest
    | .ident "ifndef" => .ifndef rest
    | .ident "if" => .if_ rest
    | .ident "elif" => .elif rest
    | .ident "else" => .else_
    | .ident "endif" => .endif
    | _ => .normal

/-- How the macro definitions `M` answer `token_defined` and `expression_value`. -/
structure Environment (M : Type) where
  defined : M → String → Bool
  value : M → List Token → Bool

/-- The identifier that `#ifdef` and `#ifndef` want. -/
def argumentIdent (args : List Token) : Option String :=
  match args with
  | [] => none
  | t :: _ =>
    match t.kind with
    | .ident name => some name
    | _ => none

/-- What a handler leaves: the stream, `false_nesting`, and whether it called
`expression_value`. -/
structure Handled where
  stream : Stream
  falseNesting : ℕ
  evaluated : Bool

/-- `preprocessor_if`, where `trueSim` is `true_sim == 1`. -/
def preprocessorIf (s : Stream) (fn : ℕ) (trueSim evaluated : Bool) : Handled where
  stream :=
    { s with
      topIf := ⟨s.opened, if fn ≠ 0 then .skipGroups else .tokenIf⟩ :: s.topIf
      opened := s.opened + 1 }
  falseNesting := if fn ≠ 0 ∨ trueSim = false then fn + 1 else fn
  evaluated := evaluated

/-- `handle_ifdef`. -/
def handleIfdef (defined : String → Bool) (args : List Token) (s : Stream) (fn : ℕ) : Handled :=
  match argumentIdent args with
  | some name => preprocessorIf s fn (defined name) false
  | none => preprocessorIf s.dirtyStream fn false false

/-- `handle_ifndef`: the node about to be pushed is the guard. -/
def handleIfndef (defined : String → Bool) (args : List Token) (s : Stream) (fn : ℕ) : Handled :=
  match argumentIdent args with
  | some name =>
    let s :=
      if s.dirty = false ∧ s.ifndef = none then
        if s.protect = none then { s with ifndef := some s.opened, protect := some name }
        else if s.protect = some name then { s with ifndef := some s.opened, dirty := true }
        else s
      else s
    preprocessorIf s fn (!defined name) false
  | none => preprocessorIf s.dirtyStream fn false false

/-- `handle_if`. -/
def handleIf (value : Bool) (s : Stream) (fn : ℕ) : Handled :=
  if fn = 0 then preprocessorIf s.dirtyStream fn value true
  else preprocessorIf s.dirtyStream fn false false

/-- `handle_elif`. -/
def handleElif (value : Bool) (s : Stream) (fn : ℕ) : Handled :=
  let s := s.endGroup
  match s.topIf with
  | [] => ⟨s.nestingError, fn, false⟩
  | top :: below =>
    if top.kind = .tokenElse then ⟨s.nestingError, if fn = 0 then 1 else fn, false⟩
    else
      let s := s.dirtyStream
      if top.kind ≠ .tokenIf then ⟨s, fn, false⟩
      else if fn ≠ 0 then ⟨s, if value then 0 else 1, true⟩
      else ⟨{ s with topIf := { top with kind := .skipGroups } :: below }, 1, false⟩

/-- `handle_else`. -/
def handleElse (s : Stream) (fn : ℕ) : Handled :=
  let s := s.endGroup
  match s.topIf with
  | [] => ⟨s.nestingError, fn, false⟩
  | top :: below =>
    let s := if top.kind = .tokenElse then s.nestingError else s
    let fn := if fn ≠ 0 then if top.kind = .tokenIf then 0 else fn else 1
    ⟨{ s with topIf := { top with kind := .tokenElse } :: below }, fn, false⟩

/-- `handle_endif`. -/
def handleEndif (s : Stream) (fn : ℕ) : Handled :=
  let s := s.endGroup
  match s.topIf with
  | [] => ⟨s.nestingError, fn, false⟩
  | _ :: below => ⟨{ s with topIf := below }, fn - 1, false⟩

/-- `handler(stream, line, token)` for the directives that are not `normal`. -/
def handle {M : Type} (env : Environment M) (macros : M) (d : Directive) (s : Stream) (fn : ℕ) :
    Handled :=
  match d with
  | .ifdef args => handleIfdef (env.defined macros) args s fn
  | .ifndef args => handleIfndef (env.defined macros) args s fn
  | .if_ expr => handleIf (env.value macros expr) s fn
  | .elif expr => handleElif (env.value macros expr) s fn
  | .else_ => handleElse s fn
  | .endif => handleEndif s fn
  | .null => ⟨s, fn, false⟩
  | .normal => ⟨s, fn, false⟩

/-- The conditional that a directive is, with the value its condition has. -/
def conditionalOf {M : Type} (env : Environment M) (macros : M) : Directive → Option Conditional
  | .ifdef args => some (.opening ((argumentIdent args).any (env.defined macros)))
  | .ifndef args => some (.opening ((argumentIdent args).any fun name => !env.defined macros name))
  | .if_ expr => some (.opening (env.value macros expr))
  | .elif expr => some (.elif (env.value macros expr))
  | .else_ => some .otherwise
  | .endif => some .endif
  | .null => none
  | .normal => none

/-- `#if` and `#elif` have an expression. -/
def Directive.hasExpression : Directive → Bool
  | .if_ _ => true
  | .elif _ => true
  | _ => false

/-! ## The loops -/

/-- Where the preprocessor is: at the head of the loop of `do_preprocess`; in
`expand` for the name `name`; in the loop of `collect_arg` for one of its
arguments, with the stream that loop took from `prev`; or after an argument,
with the stream of the token that ended it. -/
inductive Mode
  | scan
  | expanding (name : Token)
  | collecting (name : Token) (stream : ℕ)
  | collected (name : Token) (stream : ℕ)
  deriving DecidableEq, Repr

structure State (M : Type) where
  macros : M
  streams : ℕ → Stream
  falseNesting : ℕ
  input : List Token
  output : List Token
  mode : Mode

/-- What a step does with the token or line at the head of the input. `effect`
says whether it was used and not dropped; `file` is the stream of the line. -/
inductive Event
  | conditional (file : ℕ) (c : Conditional) (hasExpression evaluated : Bool)
  | directive (effect : Bool)
  | token (effect : Bool)
  | streamEnd (file : ℕ)
  | internal
  deriving DecidableEq, Repr

namespace Event

def action : Event → Option Action
  | conditional file c _ _ => some (.directive file c)
  | streamEnd file => some (.close file)
  | _ => none

end Event

/-- What a live directive puts in front of the input: nothing, the tokens of a
pragma, or a file that was not tokenized before. -/
inductive Insertion {M : Type} (st : State M) : List Token → Prop
  | none : Insertion st []
  | pragma {ts : List Token}
      (h : ∀ t ∈ ts, t.expanded = true ∧ t.isMarker = false ∧ t.startsLine = false) :
      Insertion st ts
  | include {n : ℕ} {body : List Token} (hbody : FileBody n body)
      (hstream : st.streams n = Stream.initial) (hfresh : ∀ t ∈ st.input, t.stream ≠ n) :
      Insertion st (streamBegin n :: body ++ [streamEnd n])

variable {M : Type} (env : Environment M)

/-- `handle_preprocessor_line` on the tokens of a line of `file`, for the stream
`handled` that the caller passes. -/
inductive LineStep (file handled : ℕ) (line rest : List Token) (st : State M) :
    Event → State M → Prop
  | null (hd : directiveOf line = .null) :
      LineStep file handled line rest st .internal { st with input := rest }
  | conditional {d : Directive} {c : Conditional} (hd : directiveOf line = d)
      (hc : conditionalOf env st.macros d = some c) :
      LineStep file handled line rest st
        (.conditional file c d.hasExpression
          (handle env st.macros d (st.streams handled) st.falseNesting).evaluated)
        { st with
          input := rest
          streams := Function.update st.streams handled
            (handle env st.macros d (st.streams handled) st.falseNesting).stream
          falseNesting := (handle env st.macros d (st.streams handled) st.falseNesting).falseNesting }
  | dead (hd : directiveOf line = .normal) (hfn : st.falseNesting ≠ 0) :
      LineStep file handled line rest st (.directive false)
        { st with
          input := rest
          streams := Function.update st.streams handled (st.streams handled).dirtyStream }
  | live {macros : M} {inserted : List Token} (hd : directiveOf line = .normal)
      (hfn : st.falseNesting = 0) (hins : Insertion st inserted) :
      LineStep file handled line rest st (.directive true)
        { st with
          macros := macros
          input := inserted ++ rest
          streams := Function.update st.streams handled (st.streams handled).dirtyStream }

/-- `preprocessor_line`: the line ends before the next token with `newline`. -/
def splitLine (tail : List Token) : List Token × List Token :=
  tail.span fun t => !t.newline

/-- The state after `STREAMEND` in `do_preprocess`. -/
def endStream (st : State M) (n : ℕ) : State M :=
  let s := st.streams n
  let open_ := !s.topIf.isEmpty
  let s := if open_ then { s.nestingError with topIf := [] } else s
  { st with
    streams := Function.update st.streams n (if s.dirty then s else { s with constant := true })
    falseNesting := if open_ then 0 else st.falseNesting }

/-- One step of the loops. -/
inductive Step : State M → Event → State M → Prop
  | scanLine {st : State M} {t : Token} {tail : List Token} {e : Event} {st' : State M}
      (hmode : st.mode = .scan) (hin : st.input = t :: tail) (hline : t.startsLine = true)
      (h : LineStep env t.stream t.stream (splitLine tail).1 (splitLine tail).2 st e st') :
      Step st e st'
  | scanEnd {st : State M} {t : Token} {tail : List Token}
      (hmode : st.mode = .scan) (hin : st.input = t :: tail) (hkind : t.kind = .streamEnd) :
      Step st (.streamEnd t.stream) { endStream st t.stream with input := tail }
  | scanBegin {st : State M} {t : Token} {tail : List Token}
      (hmode : st.mode = .scan) (hin : st.input = t :: tail) (hkind : t.kind = .streamBegin) :
      Step st .internal { st with input := tail }
  | scanDead {st : State M} {t : Token} {tail : List Token}
      (hmode : st.mode = .scan) (hin : st.input = t :: tail) (hline : t.startsLine = false)
      (hkind : t.isMarker = false) (hfn : st.falseNesting ≠ 0) :
      Step st (.token false)
        { st with
          input := tail
          streams := Function.update st.streams t.stream (st.streams t.stream).dirtyStream }
  | scanKeep {st : State M} {t : Token} {tail : List Token}
      (hmode : st.mode = .scan) (hin : st.input = t :: tail) (hline : t.startsLine = false)
      (hkind : t.isMarker = false) (hfn : st.falseNesting = 0) :
      Step st (.token true)
        { st with
          input := tail
          output := st.output ++ [t]
          streams := Function.update st.streams t.stream (st.streams t.stream).dirtyStream }
  | scanExpand {st : State M} {t : Token} {tail : List Token} {name : String}
      (hmode : st.mode = .scan) (hin : st.input = t :: tail) (hkind : t.kind = .ident name)
      (hfn : st.falseNesting = 0) :
      Step st (.token true)
        { st with
          input := tail
          mode := .expanding t
          streams := Function.update st.streams t.stream (st.streams t.stream).dirtyStream }
  | call {st : State M} {name t : Token} {tail : List Token}
      (hmode : st.mode = .expanding name) (hin : st.input = t :: tail)
      (hkind : t.kind = .special "(") (hfn : st.falseNesting = 0) :
      Step st (.token true) { st with input := tail, mode := .collecting name t.stream }
  | collectLine {st : State M} {name t : Token} {s : ℕ} {tail : List Token} {e : Event}
      {st' : State M} (hmode : st.mode = .collecting name s) (hin : st.input = t :: tail)
      (hline : t.startsLine = true)
      (h : LineStep env t.stream s (splitLine tail).1 (splitLine tail).2 st e st') :
      Step st e st'
  | collectEnd {st : State M} {name t : Token} {s : ℕ} {tail : List Token}
      (hmode : st.mode = .collecting name s) (hin : st.input = t :: tail)
      (hkind : t.kind = .streamEnd) :
      Step st (.streamEnd t.stream) { st with input := tail, mode := .collected name t.stream }
  | collectBegin {st : State M} {name t : Token} {s : ℕ} {tail : List Token}
      (hmode : st.mode = .collecting name s) (hin : st.input = t :: tail)
      (hkind : t.kind = .streamBegin) :
      Step st .internal { st with input := tail, mode := .collected name t.stream }
  | collectDead {st : State M} {name t : Token} {s : ℕ} {tail : List Token}
      (hmode : st.mode = .collecting name s) (hin : st.input = t :: tail)
      (hline : t.startsLine = false) (hkind : t.isMarker = false) (hfn : st.falseNesting ≠ 0) :
      Step st (.token false) { st with input := tail }
  | collectTake {st : State M} {name t : Token} {s : ℕ} {tail : List Token}
      (hmode : st.mode = .collecting name s) (hin : st.input = t :: tail)
      (hline : t.startsLine = false) (hkind : t.isMarker = false) (hfn : st.falseNesting = 0) :
      Step st (.token true) { st with input := tail }
  | collectStop {st : State M} {name t : Token} {s : ℕ} {tail : List Token}
      (hmode : st.mode = .collecting name s) (hin : st.input = t :: tail)
      (hkind : t.kind = .special "," ∨ t.kind = .special ")") (hfn : st.falseNesting = 0) :
      Step st (.token true) { st with input := tail, mode := .collected name t.stream }
  | collectEof {st : State M} {name : Token} {s : ℕ}
      (hmode : st.mode = .collecting name s) (hin : st.input = []) :
      Step st .internal { st with output := st.output ++ [name], mode := .scan }
  | nextArgument {st : State M} {name : Token} {s : ℕ} (hmode : st.mode = .collected name s) :
      Step st .internal { st with mode := .collecting name s }
  | expanded {st : State M} {ts : List Token}
      (hmode : ∃ name, st.mode = .expanding name ∨ ∃ s, st.mode = .collected name s)
      (hts : ∀ t ∈ ts, t.expanded = true ∧ t.isMarker = false) :
      Step st .internal { st with input := ts ++ st.input, mode := .scan }
  | notExpanded {st : State M} {name : Token}
      (hmode : st.mode = .expanding name ∨ ∃ s, st.mode = .collected name s) :
      Step st .internal { st with output := st.output ++ [name], mode := .scan }

/-- A run all of whose steps start in a state where `ok` holds, with its events. -/
inductive Run (ok : State M → Prop) (st₀ : State M) : List Event → State M → Prop
  | nil : Run ok st₀ [] st₀
  | step {trace : List Event} {st st' : State M} {e : Event} (h : Run ok st₀ trace st)
      (hok : ok st) (hstep : Step env st e st') : Run ok st₀ (trace ++ [e]) st'

/-- The open groups after the events of a run, by the directives of the files. -/
def openGroups (o : Open) (trace : List Event) : Open :=
  o.run (trace.filterMap Event.action)

@[simp] theorem openGroups_nil (o : Open) : openGroups o [] = o := rfl

theorem openGroups_append (o : Open) (trace trace' : List Event) :
    openGroups o (trace ++ trace') = openGroups (openGroups o trace) trace' := by
  simp only [openGroups, Open.run, List.filterMap_append, List.foldl_append]

end Sparse.Preprocess
