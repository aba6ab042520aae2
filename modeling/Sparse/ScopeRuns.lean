import Sparse.ScopeChains
import Mathlib.Data.List.Find

/-!
# Scopes over whole runs

The tables follow the lexical environment call for call, so that `lookup_symbol`
finds the last binding that is open; that binding is the innermost one.
-/

namespace Sparse.Scopes

variable {s s' : State} {bindings : List Binding} {blocks functions : List ScopeId} {base : ScopeId}
variable {env env' : Env} {reserved : Ident → Bool} {mods : SymbolId → Modifiers}

/-! ## The tables follow the environment -/

/-- The scopes that a variable leads to through the links. -/
def Leads (next : ScopeId → ScopeId) : ScopeId → List ScopeId → Prop
  | scope, [] => scope = builtinScope
  | scope, x :: xs => scope = x ∧ Leads next (next x) xs

structure Refines (s : State) (env : Env) : Prop where
  holds : Holds s env.bindings
  blocks : Leads s.next s.blockScope env.blocks
  functions : Leads s.next s.functionScope env.functions
  file : s.fileScope = env.file
  fileNext : s.next env.file = builtinScope
  builtinNext : s.next builtinScope = builtinScope
  fresh : s.fresh = env.fresh
  bound : s.bound = env.bound

theorem Leads.head {next : ScopeId → ScopeId} {scope : ScopeId} {xs : List ScopeId}
    (h : Leads next scope xs) : scope = xs.headD builtinScope := by
  cases xs with
  | nil => exact h
  | cons x xs => exact h.1

theorem Refines.initial : Refines State.initial Env.initial where
  holds := ⟨⟨fun _ => rfl, by simp [Env.initial], by simp [Env.initial], List.nodup_nil⟩, fun _ => rfl⟩
  blocks := rfl
  functions := rfl
  file := rfl
  fileNext := rfl
  builtinNext := rfl
  fresh := rfl
  bound := rfl

/-- Every scope there is was opened before. -/
structure Below (env : Env) : Prop where
  pos : 0 < env.fresh
  file : env.file < env.fresh
  blocks : ∀ x ∈ env.blocks, x < env.fresh
  functions : ∀ x ∈ env.functions, x < env.fresh
  scopes : ∀ b ∈ env.bindings, b.scope < env.fresh

theorem Layered.below (h : Layered env base) : Below env where
  pos := Nat.zero_lt_of_lt h.fresh
  file := Nat.lt_of_le_of_lt h.nest.file_le h.fresh
  blocks := h.blocks
  functions := h.functions
  scopes := h.scopes

/-- A new scope has no symbols. -/
theorem Refines.alloc (hr : Refines s env) (hb : Below env) (next : ScopeId) :
    Holds (allocScope s next).1 env.bindings where
  toChained := ⟨hr.holds.chain, hr.holds.ident, hr.holds.nameSpace, hr.holds.nodup⟩
  symbols scope := by
    show Function.update s.symbols s.fresh [] scope = _
    rcases eq_or_ne scope s.fresh with rfl | hne
    · rw [Function.update_self, List.filter_eq_nil_iff.2]
      · rfl
      · intro b hmem
        have hlt := hb.scopes b hmem
        rw [← hr.fresh] at hlt
        simpa using Nat.ne_of_lt hlt
    · rw [Function.update_of_ne hne, hr.holds.symbols]

/-- And no link leads to it. -/
theorem Refines.alloc_next (hr : Refines s env) (next : ScopeId) :
    (allocScope s next).1.next env.fresh = next ∧
      ∀ x, x < env.fresh → (allocScope s next).1.next x = s.next x := by
  rw [← hr.fresh]
  exact ⟨Function.update_self .., fun x hx => Function.update_of_ne (Nat.ne_of_lt hx) ..⟩

theorem Leads.congr {next next' : ScopeId → ScopeId} {scope : ScopeId} {xs : List ScopeId}
    (h : Leads next scope xs) (heq : ∀ x ∈ xs, next' x = next x) : Leads next' scope xs := by
  induction xs generalizing scope with
  | nil => exact h
  | cons x xs ih =>
    refine ⟨h.1, ?_⟩
    rw [heq x List.mem_cons_self]
    exact ih h.2 fun y hy => heq y (List.mem_cons_of_mem _ hy)

theorem Refines.openFile (hr : Refines s env) (hb : Below env) :
    Refines (startFileScope s) env.openFile := by
  obtain ⟨hnew, hold⟩ := hr.alloc_next builtinScope
  have hholds := hr.alloc hb builtinScope
  refine ⟨⟨⟨hholds.chain, hholds.ident, hholds.nameSpace, hholds.nodup⟩, hholds.symbols⟩, ⟨hr.fresh, hnew⟩,
    ⟨hr.fresh, hnew⟩, hr.fresh, hnew, (hold builtinScope hb.pos).trans hr.builtinNext, ?_, hr.bound⟩
  show s.fresh + 1 = env.fresh + 1
  rw [hr.fresh]

/-- `start_scope` for the blocks. -/
theorem Refines.openBlock (hr : Refines s env) (hb : Below env) (frames : List Frame) :
    Refines (startSymbolScope s)
      { env with frames := frames, blocks := env.fresh :: env.blocks, fresh := env.fresh + 1 } := by
  obtain ⟨hnew, hold⟩ := hr.alloc_next s.blockScope
  have hholds := hr.alloc hb s.blockScope
  refine ⟨⟨⟨hholds.chain, hholds.ident, hholds.nameSpace, hholds.nodup⟩, hholds.symbols⟩, ⟨hr.fresh, ?_⟩,
    ?_, hr.file, (hold env.file hb.file).trans hr.fileNext,
    (hold builtinScope hb.pos).trans hr.builtinNext, ?_, hr.bound⟩
  · show Leads (allocScope s s.blockScope).1.next ((allocScope s s.blockScope).1.next env.fresh) env.blocks
    rw [hnew]
    exact hr.blocks.congr fun x hx => hold x (hb.blocks x hx)
  · exact hr.functions.congr fun x hx => hold x (hb.functions x hx)
  · show s.fresh + 1 = env.fresh + 1
    rw [hr.fresh]

/-- `start_scope` for the functions. -/
theorem Refines.openLabels (hr : Refines s env) (hb : Below env) :
    Refines { (allocScope s s.functionScope).1 with functionScope := (allocScope s s.functionScope).2 }
      { env with functions := env.fresh :: env.functions, fresh := env.fresh + 1 } := by
  obtain ⟨hnew, hold⟩ := hr.alloc_next s.functionScope
  have hholds := hr.alloc hb s.functionScope
  refine ⟨⟨⟨hholds.chain, hholds.ident, hholds.nameSpace, hholds.nodup⟩, hholds.symbols⟩, ?_,
    ⟨hr.fresh, ?_⟩, hr.file, (hold env.file hb.file).trans hr.fileNext,
    (hold builtinScope hb.pos).trans hr.builtinNext, ?_, hr.bound⟩
  · exact hr.blocks.congr fun x hx => hold x (hb.blocks x hx)
  · show Leads (allocScope s s.functionScope).1.next ((allocScope s s.functionScope).1.next env.fresh)
      env.functions
    rw [hnew]
    exact hr.functions.congr fun x hx => hold x (hb.functions x hx)
  · show s.fresh + 1 = env.fresh + 1
    rw [hr.fresh]

theorem Below.openLabels (hb : Below env) :
    Below { env with functions := env.fresh :: env.functions, fresh := env.fresh + 1 } where
  pos := Nat.succ_pos _
  file := Nat.lt_succ_of_lt hb.file
  blocks x hx := Nat.lt_succ_of_lt (hb.blocks x hx)
  functions x hx := by
    rcases List.mem_cons.1 hx with rfl | hx
    · exact Nat.lt_succ_self _
    · exact Nat.lt_succ_of_lt (hb.functions x hx)
  scopes b hmem := Nat.lt_succ_of_lt (hb.scopes b hmem)

theorem Refines.openFunction (hr : Refines s env) (hb : Below env) (frames : List Frame) :
    Refines (startFunctionScope s)
      { env with
        frames := frames
        functions := env.fresh :: env.functions
        blocks := (env.fresh + 1) :: env.blocks
        fresh := env.fresh + 2 } :=
  (hr.openLabels hb).openBlock hb.openLabels frames

theorem Refines.closeFile (hr : Refines s env) :
    ∃ s', endFileScope s = some s' ∧ Refines s' env.closeFile := by
  have hholds : Holds { s with fileScope := s.next s.fileScope } env.bindings :=
    ⟨⟨hr.holds.chain, hr.holds.ident, hr.holds.nameSpace, hr.holds.nodup⟩, hr.holds.symbols⟩
  obtain ⟨s', hs', hkeeps, hholds'⟩ := endScope_holds hholds s.fileScope
  rw [hr.file] at hholds'
  refine ⟨s', hs', ⟨hholds', ?_, ?_, ?_, ?_, ?_, ?_, ?_⟩⟩
  · rw [hkeeps.next, hkeeps.blockScope]
    exact hr.blocks
  · rw [hkeeps.next, hkeeps.functionScope]
    exact hr.functions
  · rw [hkeeps.fileScope]
    show s.next s.fileScope = builtinScope
    rw [hr.file]
    exact hr.fileNext
  · rw [hkeeps.next]
    exact hr.builtinNext
  · rw [hkeeps.next]
    exact hr.builtinNext
  · exact hkeeps.fresh.trans hr.fresh
  · exact hkeeps.bound.trans hr.bound

theorem Refines.closeBlock (hr : Refines s env) {scope : ScopeId} (hblocks : env.blocks = scope :: blocks)
    (frames : List Frame) :
    ∃ s', endSymbolScope s = some s' ∧
      Refines s' { env.close scope with frames := frames, blocks := blocks } := by
  have hholds : Holds { s with blockScope := s.next s.blockScope } env.bindings :=
    ⟨⟨hr.holds.chain, hr.holds.ident, hr.holds.nameSpace, hr.holds.nodup⟩, hr.holds.symbols⟩
  have hleads := hr.blocks
  rw [hblocks] at hleads
  obtain ⟨s', hs', hkeeps, hholds'⟩ := endScope_holds hholds s.blockScope
  rw [hleads.1] at hholds'
  refine ⟨s', hs', ⟨hholds', ?_, ?_, hkeeps.fileScope.trans hr.file, ?_, ?_, hkeeps.fresh.trans hr.fresh,
    hkeeps.bound.trans hr.bound⟩⟩
  · rw [hkeeps.next, hkeeps.blockScope]
    show Leads s.next (s.next s.blockScope) blocks
    rw [hleads.1]
    exact hleads.2
  · rw [hkeeps.next, hkeeps.functionScope]
    exact hr.functions
  · rw [hkeeps.next]
    exact hr.fileNext
  · rw [hkeeps.next]
    exact hr.builtinNext

theorem Refines.closeFunction (hr : Refines s env) {block function : ScopeId}
    (hblocks : env.blocks = block :: blocks) (hfunctions : env.functions = function :: functions)
    (frames : List Frame) :
    ∃ s', endFunctionScope s = some s' ∧
      Refines s'
        { (env.close block).close function with
          frames := frames, blocks := blocks, functions := functions } := by
  obtain ⟨s₁, hs₁, hr₁⟩ := hr.closeBlock hblocks frames
  have hholds : Holds { s₁ with functionScope := s₁.next s₁.functionScope } (env.close block).bindings :=
    ⟨⟨hr₁.holds.chain, hr₁.holds.ident, hr₁.holds.nameSpace, hr₁.holds.nodup⟩, hr₁.holds.symbols⟩
  have hleads : Leads s₁.next s₁.functionScope (function :: functions) := hfunctions ▸ hr₁.functions
  obtain ⟨s', hs', hkeeps, hholds'⟩ := endScope_holds hholds s₁.functionScope
  rw [hleads.1] at hholds'
  refine ⟨s', ?_, ⟨hholds', ?_, ?_, hkeeps.fileScope.trans hr₁.file, ?_, ?_, hkeeps.fresh.trans hr₁.fresh,
    hkeeps.bound.trans hr₁.bound⟩⟩
  · rw [endFunctionScope, hs₁]
    exact hs'
  · rw [hkeeps.next, hkeeps.blockScope]
    exact hr₁.blocks
  · rw [hkeeps.next, hkeeps.functionScope]
    show Leads s₁.next (s₁.next s₁.functionScope) functions
    rw [hleads.1]
    exact hleads.2
  · rw [hkeeps.next]
    exact hr₁.fileNext
  · rw [hkeeps.next]
    exact hr₁.builtinNext

theorem Refines.newFile (hr : Refines s env) (hl : Layered env base)
    (hstep : env.step reserved mods .newFile = some env') :
    ∃ s', newFileScope s = some s' ∧ Refines s' env' := by
  rw [Env.step] at hstep
  rw [newFileScope, hr.file]
  split at hstep
  · next hframes =>
    have hfile : env.file = builtinScope := Nest.of_nil (hframes ▸ hl.nest)
    rw [if_neg (not_not.2 hfile), ← Option.some.inj hstep]
    exact ⟨_, rfl, hr.openFile hl.below⟩
  · split at hstep
    · next hframes =>
      obtain ⟨-, -, -, hpos⟩ := Nest.of_file (hframes ▸ hl.nest)
      obtain ⟨s₁, hs₁, hr₁⟩ := hr.closeFile
      have hfile : env.file ≠ builtinScope := Nat.ne_of_gt hpos
      rw [if_pos hfile, hs₁, ← Option.some.inj hstep]
      exact ⟨_, rfl, hr₁.openFile (hl.closeFile hframes).below⟩
    · exact absurd hstep nofun

theorem Refines.bindingScope_eq (hr : Refines s env) (sym : SymbolId) (ns : Namespace) :
    bindingScope mods s sym ns = env.place mods sym ns := by
  have hblock := hr.blocks.head
  have hfunction := hr.functions.head
  cases ns with
  | nsMacro => exact hr.file
  | nsLabel => exact hfunction
  | nsTypedef => exact hblock
  | nsStruct => exact hblock
  | nsSymbol => simp [bindingScope, Env.place, isToplevel, hblock, hr.file]

/-- A symbol that was not bound gets in front of its chain and last in its scope. -/
theorem Holds.bind (h : Holds s bindings) {b : Binding} (hnew : b.sym ∉ bindings.map Binding.sym)
    (hchain : s'.chain = Function.update s.chain b.ident (b.sym :: s.chain b.ident))
    (hident : s'.ident = Function.update s.ident b.sym (some b.ident))
    (hns : s'.nameSpace = Function.update s.nameSpace b.sym b.ns)
    (hsymbols : s'.symbols = Function.update s.symbols b.scope (s.symbols b.scope ++ [b.sym])) :
    Holds s' (b :: bindings) := by
  have hne : ∀ c ∈ bindings, c.sym ≠ b.sym := fun c hc heq => hnew (heq ▸ List.mem_map_of_mem hc)
  refine ⟨⟨fun ident => ?_, fun c hc => ?_, fun c hc => ?_, List.nodup_cons.2 ⟨hnew, h.nodup⟩⟩, fun scope => ?_⟩
  · rw [hchain]
    rcases eq_or_ne ident b.ident with rfl | hid
    · rw [Function.update_self, List.filter_cons_of_pos (by simp), h.chain]
      rfl
    · rw [Function.update_of_ne hid, List.filter_cons_of_neg (by simpa using hid.symm), h.chain]
  · rw [hident]
    rcases List.mem_cons.1 hc with rfl | hc
    · exact Function.update_self ..
    · rw [Function.update_of_ne (hne c hc), h.ident c hc]
  · rw [hns]
    rcases List.mem_cons.1 hc with rfl | hc
    · exact Function.update_self ..
    · rw [Function.update_of_ne (hne c hc), h.nameSpace c hc]
  · rw [hsymbols]
    rcases eq_or_ne scope b.scope with rfl | hscope
    · rw [Function.update_self, List.filter_cons_of_pos (by simp), List.map_cons, List.reverse_cons,
        h.symbols]
    · rw [Function.update_of_ne hscope, List.filter_cons_of_neg (by simpa using hscope.symm), h.symbols]

theorem Refines.bind (hr : Refines s env) (hl : Layered env base) (sym : SymbolId) (ident : Ident)
    (ns : Namespace) :
    ∃ env', env.step reserved mods (.bind sym ident ns) = some env' ∧
      Refines (bindSymbol reserved mods s sym ident ns) env' ∧ Layered env' base := by
  have hmessages : ∀ messages, Refines { s with messages := messages } env := fun messages =>
    ⟨⟨⟨hr.holds.chain, hr.holds.ident, hr.holds.nameSpace, hr.holds.nodup⟩, hr.holds.symbols⟩, hr.blocks,
      hr.functions, hr.file, hr.fileNext, hr.builtinNext, hr.fresh, hr.bound⟩
  have hsym : s.bound sym = env.bound sym := congrFun hr.bound sym
  rw [Env.step, bindSymbol]
  by_cases hbound : env.bound sym = true
  · rw [if_pos (hsym.trans hbound), if_pos (Or.inl hbound)]
    exact ⟨_, rfl, hmessages _, hl⟩
  · have hsbound : ¬s.bound sym = true := hsym.symm ▸ hbound
    by_cases hreserved : reserved ident = true ∧ ns ≠ .nsMacro
    · rw [if_neg hsbound, if_pos hreserved, if_pos (Or.inr hreserved)]
      exact ⟨_, rfl, hmessages _, hl⟩
    · rw [if_neg hsbound, if_neg hreserved, if_neg (not_or.2 ⟨hbound, hreserved⟩)]
      have hfree : env.bound sym = false := eq_false_of_ne_true hbound
      have hlayered := hl.bind mods ident ns hfree
      have hnew := (List.nodup_cons.1 hlayered.nodup).1
      refine ⟨_, rfl, ⟨?_, hr.blocks, hr.functions, hr.file, hr.fileNext, hr.builtinNext, hr.fresh, ?_⟩,
        hlayered⟩
      · refine hr.holds.bind hnew rfl rfl rfl ?_
        rw [← hr.bindingScope_eq]
        rfl
      · show Function.update s.bound sym true = _
        rw [hr.bound]

theorem Refines.lookup (hr : Refines s env) (ident : Ident) (ns : List Namespace) :
    (lookupSymbol s ident ns).1 = (env.find ident ns).map Binding.sym ∧
      Refines (lookupSymbol s ident ns).2 env := by
  have hfind : ((s.chain ident).find? fun sym => s.nameSpace sym ∈ ns) =
      (env.find ident ns).map Binding.sym := by
    rw [hr.holds.chain, List.find?_map, List.find?_filter, Env.find]
    congr 1
    refine List.find?_congr fun b hb => ?_
    simp [hr.holds.nameSpace b hb]
  rw [lookupSymbol]
  cases hfound : (s.chain ident).find? fun sym => s.nameSpace sym ∈ ns with
  | none => exact ⟨hfound.symm.trans hfind, hr⟩
  | some sym =>
    exact ⟨hfound.symm.trans hfind,
      ⟨⟨hr.holds.chain, hr.holds.ident, hr.holds.nameSpace, hr.holds.nodup⟩, hr.holds.symbols⟩, hr.blocks,
      hr.functions, hr.file, hr.fileNext, hr.builtinNext, hr.fresh, hr.bound⟩

/-! ## The runs -/

theorem step_refines (hr : Refines s env) (hl : Layered env base) {call : Call}
    (hstep : env.step reserved mods call = some env') :
    ∃ s' base', call.exec reserved mods s = some s' ∧ Refines s' env' ∧ Layered env' base' := by
  cases call with
  | startFile =>
    rw [Env.step] at hstep
    split at hstep
    · next hframes =>
      rw [← Option.some.inj hstep]
      exact ⟨_, _, rfl, hr.openFile hl.below, hl.openFile hframes⟩
    · exact absurd hstep nofun
  | endFile =>
    rw [Env.step] at hstep
    split at hstep
    · next hframes =>
      obtain ⟨s', hs', hr'⟩ := hr.closeFile
      rw [← Option.some.inj hstep]
      exact ⟨s', _, hs', hr', hl.closeFile hframes⟩
    · exact absurd hstep nofun
  | newFile =>
    obtain ⟨s', hs', hr'⟩ := hr.newFile hl hstep
    rw [Env.step] at hstep
    split at hstep
    · next hframes =>
      rw [← Option.some.inj hstep] at hr' ⊢
      exact ⟨s', _, hs', hr', hl.openFile hframes⟩
    · split at hstep
      · next hframes =>
        rw [← Option.some.inj hstep] at hr' ⊢
        exact ⟨s', _, hs', hr', (hl.closeFile hframes).openFile rfl⟩
      · exact absurd hstep nofun
  | startSymbol =>
    rw [← Option.some.inj hstep]
    refine ⟨_, base, rfl, hr.openBlock hl.below _, hl.opened (.block hl.nest hl.blocks hl.fresh)
      (Nat.le_succ _) (fun x hx => ?_) (fun x hx => Nat.lt_succ_of_lt (hl.functions x hx))
      (fun _ hx => List.mem_cons_of_mem _ hx) (fun _ hx => hx) rfl rfl rfl⟩
    rcases List.mem_cons.1 hx with rfl | hx
    · exact Nat.lt_succ_self _
    · exact Nat.lt_succ_of_lt (hl.blocks x hx)
  | endSymbol =>
    rw [Env.step] at hstep
    split at hstep
    · next hframes hblocks =>
      obtain ⟨s', hs', hr'⟩ := hr.closeBlock hblocks _
      rw [← Option.some.inj hstep]
      exact ⟨s', base, hs', hr', hl.endSymbol hframes hblocks⟩
    · exact absurd hstep nofun
  | startFunction =>
    rw [← Option.some.inj hstep]
    have hblocks : ∀ x ∈ env.blocks, x < env.fresh + 1 := fun x hx => Nat.lt_succ_of_lt (hl.blocks x hx)
    refine ⟨_, base, rfl, hr.openFunction hl.below _, hl.opened
      (.function hl.nest hblocks hl.functions (Nat.lt_succ_of_lt hl.fresh) hl.fresh)
      (Nat.le_add_right _ 2) (fun x hx => ?_) (fun x hx => ?_)
      (fun _ hx => List.mem_cons_of_mem _ hx) (fun _ hx => List.mem_cons_of_mem _ hx) rfl rfl rfl⟩
    · rcases List.mem_cons.1 hx with rfl | hx
      · exact Nat.lt_succ_self _
      · exact Nat.lt_succ_of_lt (hblocks x hx)
    · rcases List.mem_cons.1 hx with rfl | hx
      · exact Nat.lt_succ_of_lt (Nat.lt_succ_self _)
      · exact Nat.lt_succ_of_lt (Nat.lt_succ_of_lt (hl.functions x hx))
  | endFunction =>
    rw [Env.step] at hstep
    split at hstep
    · next hframes hblocks hfunctions =>
      obtain ⟨s', hs', hr'⟩ := hr.closeFunction hblocks hfunctions _
      rw [← Option.some.inj hstep]
      exact ⟨s', base, hs', hr', hl.endFunction hframes hblocks hfunctions⟩
    · exact absurd hstep nofun
  | bind sym ident ns =>
    obtain ⟨env'', henv, hr', hl'⟩ : ∃ env'', env.step reserved mods (.bind sym ident ns) = some env'' ∧
        Refines (bindSymbol reserved mods s sym ident ns) env'' ∧ Layered env'' base :=
      hr.bind hl sym ident ns
    rw [hstep] at henv
    rw [Option.some.inj henv]
    exact ⟨_, base, rfl, hr', hl'⟩
  | lookup ident ns =>
    rw [← Option.some.inj hstep]
    exact ⟨_, base, rfl, (hr.lookup ident ns).2, hl⟩

theorem run_refines (hr : Refines s env) (hl : Layered env base) {calls : List Call}
    (hrun : Env.run reserved mods env calls = some env') :
    ∃ s' base', run reserved mods s calls = some s' ∧ Refines s' env' ∧ Layered env' base' := by
  induction calls generalizing s env base with
  | nil =>
    rw [← Option.some.inj hrun]
    exact ⟨s, base, rfl, hr, hl⟩
  | cons call calls ih =>
    rw [Env.run] at hrun
    split at hrun
    · exact absurd hrun nofun
    · next env₁ hstep =>
      obtain ⟨s₁, base₁, hs₁, hr₁, hl₁⟩ := step_refines hr hl hstep
      obtain ⟨s', base', hs', hr', hl'⟩ := ih hr₁ hl₁ hrun
      refine ⟨s', base', ?_, hr', hl'⟩
      rw [run, hs₁]
      exact hs'

/-- No binding in the environment that a lookup could also mean is further in than the one found. -/
theorem Layered.innermost (h : Layered env base) {ident : Ident} {ns : List Namespace} {b old : Binding}
    (hfind : env.find ident ns = some b) (hold : old ∈ env.bindings) (hident : old.ident = ident)
    (hns : old.ns ∈ ns) (hkind : old.ns.kind = b.ns.kind) :
    old.scope ≤ b.scope ∨ (b.scope = builtinScope ∧ old.scope ≤ base) := by
  obtain ⟨-, before, rest, heq, hbefore⟩ := List.find?_eq_some_iff_append.1 hfind
  have hinward := h.inward
  rw [heq] at hold hinward
  rcases List.mem_append.1 hold with hmem | hmem
  · have hnot := hbefore old hmem
    simp [hident, hns] at hnot
  · rcases List.mem_cons.1 hmem with rfl | hmem
    · exact .inl (Nat.le_refl _)
    · exact (List.pairwise_cons.1 (List.pairwise_append.1 hinward).2.1).1 old hmem hkind.symm

/-- Over every run of well nested calls the walks find their symbols, the chains are the open
bindings, and a lookup finds the last of these, which is an innermost one. -/
theorem run_lexical {calls : List Call} (hrun : Env.run reserved mods Env.initial calls = some env) :
    ∃ s, run reserved mods State.initial calls = some s ∧
      (∀ ident, s.chain ident = (env.bindings.filter fun b => b.ident = ident).map Binding.sym) ∧
      (∀ ident ns, (lookupSymbol s ident ns).1 = (env.find ident ns).map Binding.sym) ∧
      (∀ ident ns b, env.find ident ns = some b →
        ∀ old ∈ env.bindings, old.ident = ident → old.ns ∈ ns → old.ns.kind = b.ns.kind →
          old.scope ≤ b.scope ∨ (b.scope = builtinScope ∧ old.scope ≤ env.fileLevel)) ∧
      env.blocks.Pairwise (· > ·) ∧ env.functions.Pairwise (· > ·) := by
  obtain ⟨s, base, hs, hr, hl⟩ := run_refines Refines.initial Env.initial_layered hrun
  refine ⟨s, hs, hr.holds.chain, fun ident ns => (hr.lookup ident ns).1, ?_, hl.nest.sorted⟩
  intro ident ns b hfind old hold hident hns hkind
  rw [Env.fileLevel, ← hl.nest.base_eq]
  exact hl.innermost hfind hold hident hns hkind

theorem run_lexical_function :
    ∃ s, run (fun _ => false) (fun _ => ⟨false, false⟩) State.initial
        [.startFile, .bind 0 5 .nsSymbol, .startFunction, .bind 1 5 .nsLabel, .startSymbol,
          .bind 2 5 .nsSymbol, .endSymbol, .lookup 5 [.nsSymbol]] = some s ∧
      (lookupSymbol s 5 [.nsSymbol]).1 = some 0 ∧ (lookupSymbol s 5 [.nsLabel]).1 = some 1 := by
  have hrun : Env.run (fun _ => false) (fun _ => ⟨false, false⟩) Env.initial
      [.startFile, .bind 0 5 .nsSymbol, .startFunction, .bind 1 5 .nsLabel, .startSymbol,
        .bind 2 5 .nsSymbol, .endSymbol, .lookup 5 [.nsSymbol]] =
      some
        { frames := [.function, .file]
          blocks := [3, 1]
          functions := [2, 1]
          file := 1
          fresh := 5
          bindings := [⟨1, 5, .nsLabel, 2⟩, ⟨0, 5, .nsSymbol, 0⟩]
          bound := Function.update (Function.update (Function.update (fun _ => false) 0 true) 1 true) 2 true } :=
    rfl
  obtain ⟨s, hs, -, hlookup, -⟩ := run_lexical hrun
  exact ⟨s, hs, hlookup 5 [.nsSymbol], hlookup 5 [.nsLabel]⟩

/-- A global symbol hides a static one that was bound before in the file scope, and a symbol
that is bound after the end of a file stays in the scope that has ended. -/
theorem lookup_not_innermost :
    (run (fun _ => false) (fun sym => ⟨sym = 0, false⟩) State.initial
        [.startFile, .bind 0 5 .nsSymbol, .bind 1 5 .nsSymbol]).map
          (fun s => ((lookupSymbol s 5 [.nsSymbol]).1, s.scope 1, s.scope 0, s.next (s.scope 0))) =
        some (some 1, builtinScope, 1, builtinScope) ∧
      (run (fun _ => false) (fun _ => ⟨false, false⟩) State.initial
        [.startFile, .endFile, .bind 0 5 .nsSymbol, .startFile, .endFile]).map
          (fun s => ((lookupSymbol s 5 [.nsSymbol]).1, s.scope 0, s.fileScope)) =
        some (some 0, 1, builtinScope) :=
  ⟨rfl, rfl⟩

end Sparse.Scopes
