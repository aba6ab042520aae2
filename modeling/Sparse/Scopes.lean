import Mathlib.Data.List.Basic
import Mathlib.Logic.Function.Basic

/-!
# Scopes and symbol chains

The scopes of the symbol table and the chain of symbols of each identifier, as
`scope.c` and `bind_symbol` change them, and the lexical environment that they
stand for: the bindings of all open scopes, of which the end of a scope takes its
own.
-/

namespace Sparse.Scopes

abbrev ScopeId := ℕ
abbrev SymbolId := ℕ
abbrev Ident := ℕ

/-- The values of `enum namespace` that symbols are bound with. -/
inductive Namespace
  | nsMacro | nsTypedef | nsStruct | nsLabel | nsSymbol
  deriving DecidableEq, Repr

/-- What `bind_symbol` reads of the modifiers. -/
structure Modifiers where
  isStatic : Bool
  isExternInline : Bool
  deriving DecidableEq, Repr

/-- The builtin scope, which is also the global one. -/
def builtinScope : ScopeId := 0

/-- The scopes, identifiers and symbols. A chain is what the links `next_id` lead through. -/
structure State where
  next : ScopeId → ScopeId
  symbols : ScopeId → List SymbolId
  blockScope : ScopeId
  functionScope : ScopeId
  fileScope : ScopeId
  fresh : ScopeId
  chain : Ident → List SymbolId
  ident : SymbolId → Option Ident
  nameSpace : SymbolId → Namespace
  scope : SymbolId → ScopeId
  bound : SymbolId → Bool
  used : SymbolId → Bool
  toplevel : SymbolId → Bool
  addressable : SymbolId → Bool
  messages : List String

/-- `sparse_ctx_init_scope`. -/
def State.initial : State where
  next _ := builtinScope
  symbols _ := []
  blockScope := builtinScope
  functionScope := builtinScope
  fileScope := builtinScope
  fresh := 1
  chain _ := []
  ident _ := none
  nameSpace _ := .nsSymbol
  scope _ := builtinScope
  bound _ := false
  used _ := false
  toplevel _ := false
  addressable _ := false
  messages := []

/-! ## The functions -/

/-- `bind_scope`. -/
def bindScope (s : State) (sym : SymbolId) (scope : ScopeId) : State :=
  { s with
    scope := Function.update s.scope sym scope
    symbols := Function.update s.symbols scope (s.symbols scope ++ [sym]) }

/-- The new scope of `start_scope`. -/
def allocScope (s : State) (next : ScopeId) : State × ScopeId :=
  ({ s with
      next := Function.update s.next s.fresh next
      symbols := Function.update s.symbols s.fresh []
      fresh := s.fresh + 1 }, s.fresh)

def startFileScope (s : State) : State :=
  let (s, scope) := allocScope s builtinScope
  { s with fileScope := scope, functionScope := scope, blockScope := scope }

def startSymbolScope (s : State) : State :=
  let (s, scope) := allocScope s s.blockScope
  { s with blockScope := scope }

def startFunctionScope (s : State) : State :=
  let (s, scope) := allocScope s s.functionScope
  let s := { s with functionScope := scope }
  let (s, scope) := allocScope s s.blockScope
  { s with blockScope := scope }

/-- The walk of `remove_symbol_scope` along a chain; it fails at the end of the chain. -/
def unchain (sym : SymbolId) : List SymbolId → Option (List SymbolId)
  | [] => none
  | sym' :: rest => if sym' = sym then some rest else (unchain sym rest).map (sym' :: ·)

def removeSymbolScope (s : State) (sym : SymbolId) : Option State :=
  match s.ident sym with
  | none => none
  | some ident =>
    (unchain sym (s.chain ident)).map fun chain => { s with chain := Function.update s.chain ident chain }

/-- The loop of `end_scope`. -/
def removeSymbols : State → List SymbolId → Option State
  | s, [] => some s
  | s, sym :: syms =>
    match removeSymbolScope s sym with
    | none => none
    | some s => removeSymbols s syms

/-- `end_scope`, after the variable has got the next scope. -/
def endScope (s : State) (scope : ScopeId) : Option State :=
  removeSymbols { s with symbols := Function.update s.symbols scope [] } (s.symbols scope)

def endFileScope (s : State) : Option State :=
  endScope { s with fileScope := s.next s.fileScope } s.fileScope

def newFileScope (s : State) : Option State :=
  if s.fileScope ≠ builtinScope then (endFileScope s).map startFileScope else some (startFileScope s)

def endSymbolScope (s : State) : Option State :=
  endScope { s with blockScope := s.next s.blockScope } s.blockScope

def endFunctionScope (s : State) : Option State :=
  match endSymbolScope s with
  | none => none
  | some s => endScope { s with functionScope := s.next s.functionScope } s.functionScope

/-- `toplevel`. -/
def isToplevel (s : State) (scope : ScopeId) : Bool :=
  scope = s.fileScope || scope = builtinScope

/-- The scope that `bind_symbol` chooses. -/
def bindingScope (mods : SymbolId → Modifiers) (s : State) (sym : SymbolId) (ns : Namespace) : ScopeId :=
  let scope := s.blockScope
  let scope :=
    if ns = .nsSymbol ∧ isToplevel s scope then
      if (mods sym).isStatic || (mods sym).isExternInline then s.fileScope else builtinScope
    else scope
  let scope := if ns = .nsMacro then s.fileScope else scope
  if ns = .nsLabel then s.functionScope else scope

/-- `bind_symbol`. -/
def bindSymbol (reserved : Ident → Bool) (mods : SymbolId → Modifiers) (s : State) (sym : SymbolId)
    (ident : Ident) (ns : Namespace) : State :=
  if s.bound sym then { s with messages := s.messages ++ ["internal error: symbol type already bound"] }
  else if reserved ident ∧ ns ≠ .nsMacro then
    { s with messages := s.messages ++ ["Trying to use reserved word as identifier"] }
  else
    let top : Bool := ns = .nsSymbol && isToplevel s s.blockScope
    let fileLevel := (mods sym).isStatic || (mods sym).isExternInline
    let scope := bindingScope mods s sym ns
    bindScope
      { s with
        nameSpace := Function.update s.nameSpace sym ns
        chain := Function.update s.chain ident (sym :: s.chain ident)
        messages :=
          if s.ident sym ≠ none ∧ s.ident sym ≠ some ident then s.messages ++ ["Symbol already bound"]
          else s.messages
        ident := Function.update s.ident sym (some ident)
        bound := Function.update s.bound sym true
        toplevel := if top then Function.update s.toplevel sym true else s.toplevel
        addressable := if top && !fileLevel then Function.update s.addressable sym true else s.addressable }
      sym scope

/-- `lookup_symbol`, in any of the namespaces. -/
def lookupSymbol (s : State) (ident : Ident) (ns : List Namespace) : Option SymbolId × State :=
  match (s.chain ident).find? fun sym => s.nameSpace sym ∈ ns with
  | none => (none, s)
  | some sym => (some sym, { s with used := Function.update s.used sym true })

/-- The calls. -/
inductive Call
  | startFile | endFile | newFile
  | startSymbol | endSymbol
  | startFunction | endFunction
  | bind (sym : SymbolId) (ident : Ident) (ns : Namespace)
  | lookup (ident : Ident) (ns : List Namespace)
  deriving DecidableEq, Repr

/-- A call; it fails where a walk does not find its symbol. -/
def Call.exec (reserved : Ident → Bool) (mods : SymbolId → Modifiers) (s : State) : Call → Option State
  | startFile => some (startFileScope s)
  | endFile => endFileScope s
  | newFile => newFileScope s
  | startSymbol => some (startSymbolScope s)
  | endSymbol => endSymbolScope s
  | startFunction => some (startFunctionScope s)
  | endFunction => endFunctionScope s
  | bind sym ident ns => some (bindSymbol reserved mods s sym ident ns)
  | lookup ident ns => some (lookupSymbol s ident ns).2

def run (reserved : Ident → Bool) (mods : SymbolId → Modifiers) : State → List Call → Option State
  | s, [] => some s
  | s, call :: calls =>
    match call.exec reserved mods s with
    | none => none
    | some s => run reserved mods s calls

/-! ## The lexical environment -/

structure Binding where
  sym : SymbolId
  ident : Ident
  ns : Namespace
  scope : ScopeId
  deriving DecidableEq, Repr

/-- What is open, the innermost first. -/
inductive Frame
  | file | function | block
  deriving DecidableEq, Repr

/-- The open scopes and the bindings in them, each with the last one first. -/
structure Env where
  frames : List Frame
  blocks : List ScopeId
  functions : List ScopeId
  file : ScopeId
  fresh : ScopeId
  bindings : List Binding
  bound : SymbolId → Bool

def Env.initial : Env where
  frames := []
  blocks := []
  functions := []
  file := builtinScope
  fresh := 1
  bindings := []
  bound _ := false

namespace Env

/-- The bindings of an ended scope go. -/
def close (env : Env) (scope : ScopeId) : Env :=
  { env with bindings := env.bindings.filter fun b => b.scope ≠ scope }

def openFile (env : Env) : Env :=
  { env with frames := [.file], blocks := [env.fresh], functions := [env.fresh], file := env.fresh, fresh := env.fresh + 1 }

def closeFile (env : Env) : Env :=
  { env.close env.file with frames := [], file := builtinScope }

/-- Where a binding goes: labels to the function, macros to the file, symbols at file
level to the file or to the global scope, all others to the block. -/
def place (mods : SymbolId → Modifiers) (env : Env) (sym : SymbolId) : Namespace → ScopeId
  | .nsMacro => env.file
  | .nsLabel => env.functions.headD builtinScope
  | .nsSymbol =>
    let block := env.blocks.headD builtinScope
    if block = env.file ∨ block = builtinScope then
      if (mods sym).isStatic || (mods sym).isExternInline then env.file else builtinScope
    else block
  | _ => env.blocks.headD builtinScope

/-- A call, if it is well nested. -/
def step (reserved : Ident → Bool) (mods : SymbolId → Modifiers) (env : Env) : Call → Option Env
  | .startFile => if env.frames = [] then some env.openFile else none
  | .endFile => if env.frames = [.file] then some env.closeFile else none
  | .newFile =>
    if env.frames = [] then some env.openFile
    else if env.frames = [.file] then some env.closeFile.openFile
    else none
  | .startSymbol =>
    some { env with frames := .block :: env.frames, blocks := env.fresh :: env.blocks, fresh := env.fresh + 1 }
  | .endSymbol =>
    match env.frames, env.blocks with
    | .block :: frames, scope :: blocks => some { env.close scope with frames := frames, blocks := blocks }
    | _, _ => none
  | .startFunction =>
    some
      { env with
        frames := .function :: env.frames
        functions := env.fresh :: env.functions
        blocks := (env.fresh + 1) :: env.blocks
        fresh := env.fresh + 2 }
  | .endFunction =>
    match env.frames, env.blocks, env.functions with
    | .function :: frames, block :: blocks, function :: functions =>
      some { (env.close block).close function with frames := frames, blocks := blocks, functions := functions }
    | _, _, _ => none
  | .bind sym ident ns =>
    if env.bound sym ∨ (reserved ident ∧ ns ≠ .nsMacro) then some env
    else
      some
        { env with
          bindings := ⟨sym, ident, ns, env.place mods sym ns⟩ :: env.bindings
          bound := Function.update env.bound sym true }
  | .lookup _ _ => some env

def run (reserved : Ident → Bool) (mods : SymbolId → Modifiers) : Env → List Call → Option Env
  | env, [] => some env
  | env, call :: calls =>
    match env.step reserved mods call with
    | none => none
    | some env => run reserved mods env calls

/-- The scope at file level that the open blocks and functions are in. -/
def fileLevel (env : Env) : ScopeId :=
  (env.blocks.drop (env.frames.filter fun frame => frame ≠ .file).length).headD builtinScope

/-- The last binding of the identifier in the namespaces. -/
def find (env : Env) (ident : Ident) (ns : List Namespace) : Option Binding :=
  env.bindings.find? fun b => b.ident = ident ∧ b.ns ∈ ns

end Env

end Sparse.Scopes
