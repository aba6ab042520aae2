import Sparse.MacroSubstitution

/-!
# The expansion of macros

`scan_next` with the stack of recorders, `expand_list`, `collect_arguments`,
`expand_arguments_pp` and `expand`. A directive line among the arguments is a script: it
reads tokens with `scan_next` and expands with `expand_one_symbol` as often as it likes, and
leaves other macros, another nesting and another list behind. The depth of calls within
calls and the rounds of a loop count down from a number that the run is given.
-/

namespace Sparse.MacroExpansion

open Tokenizer (Value ch)

/-! ## The stack of recorders -/

/-- `token_push_torec`; behind the end of the list nothing is recorded any more. -/
def Recorder.push (r : Recorder) : Option ℕ → Recorder
  | some id => if r.active then { r with items := r.items ++ [id] } else r
  | none => { r with active := false }

namespace State

/-- `token_push`: every recorder gets the token. -/
def tokenPush (s : State) (tok : Option Tok) : State :=
  { s with tokStk := s.tokStk.map fun r => r.push (tok.map Tok.id) }

/-- `token_push_rec`. -/
def tokenPushRec (s : State) : State := { s with tokStk := ⟨[], true⟩ :: s.tokStk }

/-- `token_pop_rec`. -/
def tokenPopRec (s : State) : List ℕ × State :=
  (((s.tokStk.head?.map Recorder.items).getD []), { s with tokStk := s.tokStk.tail })

/-- Whatever stands in a list has been allocated. -/
def allocated (s : State) (ts : List Tok) : State :=
  { s with nextId := ts.foldl (fun n t => max n (t.id + 1)) s.nextId }

end State

/-- `scan_next`: the list from the token on that is found. -/
def scanNext (s : State) : List Tok → List Tok × State
  | [] => ([], s.tokenPush none)
  | t :: ts =>
    match t.kind with
    | .untaint name => scanNext (s.untaint name) ts
    | _ => (t :: ts, s.tokenPush (some t))

/-! ## What stands around the expansion -/

/-- What a directive line does. -/
inductive Script
  | done (macros : List UInt8 → Option Macro) (falseNesting : ℕ) (errors : List (Place × Complaint))
      (rest : List Tok)
  | scanNext (list : List Tok) (next : List Tok → Script)
  | expandOneSymbol (t : Tok) (rest : List Tok) (next : Bool → List Tok → Script)

structure Context where
  /-- `preprocessor_line` for a stream, on the list from the `#` on. -/
  preprocessorLine : State → ℕ → List Tok → Script
  streamName : ℕ → List UInt8
  /-- The results of `strftime`. -/
  date : List UInt8
  time : List UInt8

/-- The identifiers that are replaced in place. -/
def replaceInPlace (c : Context) (t : Tok) : Tok :=
  if t.name = some (bytes "__LINE__") then
    { t with kind := .value (.number (decimal (t.place.line % 2 ^ 32))) }
  else if t.name = some (bytes "__FILE__") then
    { t with kind := .value (.string false (c.streamName t.place.stream)) }
  else if t.name = some (bytes "__DATE__") then { t with kind := .value (.string false c.date) }
  else if t.name = some (bytes "__TIME__") then { t with kind := .value (.string false c.time) }
  else t

/-- `expand_one_symbol` as the loops call it: whether it returns 1, and the list from the
token on. None where the depth does not suffice. -/
abbrev ExpandOne : Type := State → Tok → List Tok → Option (Bool × List Tok × State)

/-! ## Lists -/

section Loops

variable (c : Context) (expandOne : ExpandOne)

/-- `expand_list`. -/
def expandList : ℕ → State → List Tok → Option (List Tok × State)
  | 0, _, _ => none
  | fuel + 1, s, list =>
    match scanNext s list with
    | ([], s) => some ([], s)
    | (t :: ts, s) =>
      if t.name.isNone then do
        let (rest, s) ← expandList fuel s ts
        some (t :: rest, s)
      else do
        let (kept, list, s) ← expandOne s t ts
        match kept, list with
        | true, t :: ts =>
          let (rest, s) ← expandList fuel s ts
          some (t :: rest, s)
        | _, list => expandList fuel s list

def runScript : ℕ → State → Script → Option (List Tok × State)
  | 0, _, _ => none
  | fuel + 1, s, script =>
    match script with
    | .done macros falseNesting errors rest =>
      some (rest, { s with macros := macros, falseNesting := falseNesting, errors := s.errors ++ errors }.allocated rest)
    | .scanNext list next =>
      let (list, s) := MacroExpansion.scanNext (s.allocated list) list
      runScript fuel s (next list)
    | .expandOneSymbol t rest next => do
      let (kept, list, s) ← expandOne (s.allocated (t :: rest)) t rest
      runScript fuel s (next kept list)

/-! ## Arguments -/

/-- A `#` that begins a directive. -/
def Tok.isDirective (t : Tok) : Bool := t.newline && t.matchOp '#' && !t.noexpand

def Tok.isStreamMark (t : Tok) : Bool := t.kind = .streamBegin || t.kind = .value .streamEnd

/-- The depth of parentheses behind a token. -/
def Tok.nest (t : Tok) (nesting : ℕ) : ℕ :=
  if t.matchOp '(' then nesting + 1 else if t.matchOp ')' then nesting - 1 else nesting

/-- `collect_arg`: the argument, the token behind it (none at the end of the list), and the
list behind that. -/
def collectArg (vararg : Bool) (place : Place) (stream : ℕ) :
    ℕ → ℕ → State → List Tok → Option (List Tok × Option Tok × List Tok × State)
  | 0, _, _, _ => none
  | fuel + 1, nesting, s, list =>
    match scanNext s list with
    | ([], s) => some ([], none, [], s)
    | (t :: ts, s) =>
      if t.isDirective then do
        let s := s.sparseError t.place .directiveInArguments
        let (list, s) ← runScript expandOne fuel s (c.preprocessorLine s stream (t :: ts))
        collectArg vararg place stream fuel nesting s list
      else if t.isStreamMark then some ([], some t, ts, s)
      else if s.falseNesting ≠ 0 then collectArg vararg place stream fuel nesting s ts
      else if t.matchOp ')' && nesting = 0 then some ([], some t, ts, s)
      else if t.matchOp ',' && nesting = 0 && !vararg then some ([], some t, ts, s)
      else do
        let (arg, next, rest, s) ← collectArg vararg place stream fuel (t.nest nesting) s ts
        some ({ t with place := place } :: arg, next, rest, s)

/-- The arguments, or none for the error that has been reported, and the list behind the last
token that was read. -/
abbrev Collected : Type := Option (List Arg) × List Tok × State

/-- `Emany` and what follows it. -/
def tooMany (name : List UInt8) (place : Place) (wanted : ℕ) :
    ℕ → ℕ → State → Tok → List Tok → Option Collected
  | 0, _, _, _, _ => none
  | fuel + 1, count, s, next, rest =>
    if next.matchOp ',' then do
      let (_, next, rest, s) ← collectArg c expandOne false place next.place.stream fuel 0 s rest
      match next with
      | some next => tooMany name place wanted fuel (count + 1) s next rest
      | none => some (none, rest, s.sparseError place (.unterminated name))
    else some (none, rest, s.sparseError place (.tooMany name count wanted))

/-- The loop of `collect_arguments` behind the token `start`, with the parameters still to come
and the arguments collected so far. -/
def collectParams (name : List UInt8) (place : Place) (wanted fuel : ℕ) :
    List Param → List Arg → State → Tok → List Tok → Option Collected
  | [], _, s, start, rest => tooMany c expandOne name place wanted fuel wanted s start rest
  | p :: params, args, s, start, rest => do
    let (arg, next, rest, s) ← collectArg c expandOne p.vararg place start.place.stream fuel 0 s rest
    match next with
    | none => some (none, rest, s.sparseError place (.unterminated name))
    | some next =>
      let args := args ++ [p.toArg (some arg)]
      if next.matchOp ')' then
        match params with
        | [] => some (some args, rest, s)
        | [q] =>
          if q.vararg then some (some (args ++ [q.toArg none]), rest, s)
          else some (none, rest, s.sparseError place (.tooFew name wanted args.length))
        | _ => some (none, rest, s.sparseError place (.tooFew name wanted args.length))
      else collectParams name place wanted fuel params args s next rest

/-- `collect_arguments` behind the parenthesis `start`. -/
def collectArguments (name : List UInt8) (place : Place) (params : List Param) (fuel : ℕ) (s : State)
    (start : Tok) (rest : List Tok) : Option Collected :=
  if params.isEmpty then do
    let (arg, next, rest, s) ← collectArg c expandOne false place start.place.stream fuel 0 s rest
    match next with
    | none => some (none, rest, s.sparseError place (.unterminated name))
    | some next =>
      if !arg.isEmpty || !next.matchOp ')' then tooMany c expandOne name place 0 fuel 1 s next rest
      else some (some [], rest, s)
  else collectParams c expandOne name place params.length fuel params [] s start rest

/-- `stringify`. -/
def stringify (s : State) (arg : List Tok) : Tok × State :=
  let (string, tooLong) := quoteLoop arg false []
  let pos := arg.head?.getD ⟨0, .value .streamEnd, ⟨0, 0, 0⟩, true, false, false⟩
  ({ pos with id := s.nextId, kind := .value (.string false string) },
    let s := { s with nextId := s.nextId + 1 }
    if tooLong then s.sparseError pos.place .tooLong else s)

/-- `dup_list`. -/
def dupList (s : State) : List Tok → List Tok × State
  | [] => ([], s)
  | t :: ts =>
    let (t', s) := dupToken s t t.place
    let (ts', s) := dupList s ts
    (t' :: ts', s)

/-- The body of the loop of `expand_arguments_pp`. -/
def expandArgument (fuel : ℕ) (s : State) (a : Arg) : Option (Arg × State) :=
  let arg := a.arg.getD []
  let (a, s) :=
    if a.nStr ≠ 0 then
      let (string, s) := stringify s arg
      ({ a with str := [string] }, s)
    else (a, s)
  if a.nNormal ≠ 0 then
    let (a, s) :=
      if a.nQuoted = 0 then ({ a with expanded := arg, arg := none }, s)
      else
        let (copied, s) := dupList s arg
        ({ a with expanded := copied }, s)
    (expandList expandOne fuel s a.expanded).map fun (list, s) => ({ a with expanded := list }, s)
  else some (a, s)

/-- `expand_arguments_pp`. -/
def expandArguments (fuel : ℕ) : State → List Arg → Option (List Arg × State)
  | s, [] => some ([], s)
  | s, a :: args => do
    let (a, s) ← expandArgument expandOne fuel s a
    let (args, s) ← expandArguments fuel s args
    some (a :: args, s)

/-! ## The expansion -/

/-- What `expand` reads of a macro's argument list: the arguments, or none where the name is
left as it is, and the list behind. -/
def readArguments (fuel : ℕ) (name : List UInt8) (place : Place) (m : Macro) (s : State) (list : List Tok) :
    Option Collected :=
  match m.arglist with
  | none => some (some [], list, s)
  | some params =>
    match scanNext s list with
    | ([], s) => some (none, [], s)
    | (start :: rest, s) =>
      if start.matchOp '(' then do
        let (args, rest, s) ← collectArguments c expandOne name place params fuel s start rest
        match args with
        | none => some (none, rest, s)
        | some args => do
          let (args, s) ← expandArguments expandOne fuel s args
          some (some args, rest, s)
      else some (none, start :: rest, s)

/-- `cons_list`: the tokens of a list up to the one with the address `stop`. -/
def consList (list : List Tok) (stop : Option ℕ) : List ℕ :=
  (list.takeWhile fun t => some t.id ≠ stop).map Tok.id

/-- The first token takes the place of the macro's name in its line. -/
def takeFlags (t : Tok) : List Tok → List Tok
  | [] => []
  | first :: more => { first with newline := t.newline, whitespace := t.whitespace } :: more

/-- `expand` without the account of it. -/
def expandCall (fuel : ℕ) (name : List UInt8) (m : Macro) (s : State) (t : Tok) (rest : List Tok) :
    Option (Bool × List Tok × Option Expansion × State) :=
  if name ∈ s.tainted then some (true, { t with noexpand := true } :: rest, none, s)
  else do
    let (args, last, s) ← readArguments c expandOne fuel name t.place m s.tokenPushRec rest
    let (up, s) := s.tokenPopRec
    match args with
    | none => some (true, t :: last, none, s)
    | some args => do
      let (put, s) ← substitute (s.taint name) t.place m.expansion args
      let put := takeFlags t put
      some (false, put ++ last, some ⟨up, consList (put ++ last) (last.head?.map Tok.id), put⟩, s)

/-- `expand` of the macro `name` at the token `t`. -/
def expand (fuel : ℕ) (name : List UInt8) (m : Macro) : ExpandOne := fun s t rest => do
  let (kept, list, expansion, s') ← expandCall c expandOne fuel name m s t rest
  let call := ⟨m, rest, s.falseNesting, s.tokStk.length, s'.tokStk.length, expansion⟩
  some (kept, list, { s' with log := s'.log ++ [call] })

/-- `expand_one_symbol`. -/
def expandOneSymbol (fuel : ℕ) : ExpandOne := fun s t rest =>
  if t.noexpand then some (true, t :: rest, s)
  else
    match t.name with
    | none => some (true, t :: rest, s)
    | some name =>
      match s.macros name with
      | some m => expand c expandOne fuel name m s t rest
      | none => some (true, replaceInPlace c t :: rest, s)

end Loops

/-- `expand_one_symbol` with the calls within it. -/
def expandAt (c : Context) : ℕ → ExpandOne
  | 0 => fun _ _ _ => none
  | fuel + 1 => expandOneSymbol c (expandAt c fuel) fuel

end Sparse.MacroExpansion
