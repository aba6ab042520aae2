import Sparse.Scopes
import Mathlib.Data.List.Nodup
import Mathlib.Data.List.Pairwise

/-!
# Chains of symbols and nested scopes

The chains and the lists of symbols hold the bindings of the lexical environment, in
their order; the walk that takes a symbol out of its chain always finds it. The open
scopes are nested, and a binding is made in the innermost one of its kind, where the
file and the global scope count as one level.
-/

namespace Sparse.Scopes

/-! ## The tables hold the bindings -/

/-- The chain of each identifier is its bindings. -/
structure Chained (s : State) (bindings : List Binding) : Prop where
  chain : ∀ ident, s.chain ident = (bindings.filter fun b => b.ident = ident).map Binding.sym
  ident : ∀ b ∈ bindings, s.ident b.sym = some b.ident
  nameSpace : ∀ b ∈ bindings, s.nameSpace b.sym = b.ns
  nodup : (bindings.map Binding.sym).Nodup

/-- And the list of each scope is its bindings, in the order they were made. -/
structure Holds (s : State) (bindings : List Binding) : Prop extends Chained s bindings where
  symbols : ∀ scope, s.symbols scope = ((bindings.filter fun b => b.scope = scope).map Binding.sym).reverse

/-- The scopes themselves are as before. -/
structure Keeps (s s' : State) : Prop where
  next : s'.next = s.next
  blockScope : s'.blockScope = s.blockScope
  functionScope : s'.functionScope = s.functionScope
  fileScope : s'.fileScope = s.fileScope
  fresh : s'.fresh = s.fresh
  bound : s'.bound = s.bound

variable {s s' : State} {bindings : List Binding} {sym : SymbolId} {syms : List SymbolId} {scope : ScopeId}

theorem unchain_eq (hmem : sym ∈ syms) (hn : syms.Nodup) :
    unchain sym syms = some (syms.filter fun x => x ≠ sym) := by
  induction syms with
  | nil => simp at hmem
  | cons x syms ih =>
    obtain ⟨hx, hn'⟩ := List.nodup_cons.1 hn
    rw [unchain]
    by_cases heq : x = sym
    · subst heq
      have hrest : syms.filter (fun y => y ≠ x) = syms :=
        List.filter_eq_self.2 fun y hy => by
          simp only [ne_eq, decide_not, Bool.not_eq_true', decide_eq_false_iff_not]
          rintro rfl
          exact hx hy
      rw [if_pos rfl, List.filter_cons_of_neg (by simp), hrest]
    · have hmem' : sym ∈ syms := (List.mem_cons.1 hmem).resolve_left fun h => heq h.symm
      rw [if_neg heq, ih hmem' hn', List.filter_cons_of_pos (by simpa using heq)]
      rfl

theorem eq_of_sym (hn : (bindings.map Binding.sym).Nodup) {a b : Binding} (ha : a ∈ bindings)
    (hb : b ∈ bindings) (h : a.sym = b.sym) : a = b :=
  List.inj_on_of_nodup_map hn ha hb h

/-- The walk finds a symbol that is bound, and takes it out of its chain. -/
theorem removeSymbolScope_chained (h : Chained s bindings) {b : Binding} (hb : b ∈ bindings) :
    ∃ s', removeSymbolScope s b.sym = some s' ∧ Keeps s s' ∧ s'.symbols = s.symbols ∧
      Chained s' (bindings.filter fun c => c.sym ≠ b.sym) := by
  have hmem : b.sym ∈ s.chain b.ident := by
    rw [h.chain]
    exact List.mem_map_of_mem (List.mem_filter.2 ⟨hb, by simp⟩)
  have hnodup : (s.chain b.ident).Nodup := by
    rw [h.chain]
    exact h.nodup.sublist (List.filter_sublist.map Binding.sym)
  rw [removeSymbolScope, h.ident b hb]
  dsimp only
  rw [unchain_eq hmem hnodup]
  refine ⟨_, rfl, ⟨rfl, rfl, rfl, rfl, rfl, rfl⟩, rfl, fun ident => ?_, fun c hc => ?_, fun c hc => ?_, ?_⟩
  · rw [List.filter_comm]
    by_cases hident : ident = b.ident
    · subst hident
      show Function.update s.chain b.ident _ b.ident = _
      rw [Function.update_self, h.chain, List.filter_map]
      rfl
    · show Function.update s.chain b.ident _ ident = _
      have hself : ((bindings.filter fun c => c.ident = ident).filter fun c => c.sym ≠ b.sym) =
          bindings.filter fun c => c.ident = ident := by
        refine List.filter_eq_self.2 fun c hc => ?_
        obtain ⟨hcmem, hcident⟩ := List.mem_filter.1 hc
        simp only [ne_eq, decide_not, Bool.not_eq_true', decide_eq_false_iff_not]
        intro hsym
        rw [eq_of_sym h.nodup hcmem hb hsym] at hcident
        exact hident (of_decide_eq_true hcident).symm
      rw [Function.update_of_ne hident, h.chain, hself]
  · exact h.ident c (List.mem_of_mem_filter hc)
  · exact h.nameSpace c (List.mem_of_mem_filter hc)
  · exact h.nodup.sublist (List.filter_sublist.map Binding.sym)

theorem Keeps.trans {s'' : State} (h : Keeps s s') (h' : Keeps s' s'') : Keeps s s'' :=
  ⟨h'.next.trans h.next, h'.blockScope.trans h.blockScope, h'.functionScope.trans h.functionScope,
    h'.fileScope.trans h.fileScope, h'.fresh.trans h.fresh, h'.bound.trans h.bound⟩

theorem removeSymbols_chained (h : Chained s bindings) (hsyms : ∀ x ∈ syms, ∃ b ∈ bindings, b.sym = x)
    (hn : syms.Nodup) :
    ∃ s', removeSymbols s syms = some s' ∧ Keeps s s' ∧ s'.symbols = s.symbols ∧
      Chained s' (bindings.filter fun b => b.sym ∉ syms) := by
  induction syms generalizing s bindings with
  | nil =>
    refine ⟨s, rfl, ⟨rfl, rfl, rfl, rfl, rfl, rfl⟩, rfl, ?_⟩
    rwa [List.filter_eq_self.2 fun b _ => by simp]
  | cons x syms ih =>
    obtain ⟨hx, hn'⟩ := List.nodup_cons.1 hn
    obtain ⟨b, hb, rfl⟩ := hsyms x List.mem_cons_self
    obtain ⟨s₁, hs₁, hkeeps, hsymbols, hchained⟩ := removeSymbolScope_chained h hb
    have hsyms' : ∀ y ∈ syms, ∃ c ∈ bindings.filter fun c => c.sym ≠ b.sym, c.sym = y := by
      intro y hy
      obtain ⟨c, hc, rfl⟩ := hsyms y (List.mem_cons_of_mem _ hy)
      refine ⟨c, List.mem_filter.2 ⟨hc, ?_⟩, rfl⟩
      simp only [ne_eq, decide_not, Bool.not_eq_true', decide_eq_false_iff_not]
      intro heq
      exact hx (heq ▸ hy)
    obtain ⟨s', hs', hkeeps', hsymbols', hchained'⟩ := ih hchained hsyms' hn'
    refine ⟨s', ?_, hkeeps.trans hkeeps', hsymbols'.trans hsymbols, ?_⟩
    · rw [removeSymbols, hs₁]
      exact hs'
    · rw [List.filter_filter] at hchained'
      have hfilter : (bindings.filter fun c => c.sym ∉ b.sym :: syms) =
          bindings.filter fun c => decide (c.sym ∉ syms) && decide (c.sym ≠ b.sym) := by
        refine List.filter_congr fun c _ => ?_
        simp [not_or, Bool.and_comm]
      rwa [hfilter]

/-- The end of a scope takes its bindings out of all chains, and no others. -/
theorem endScope_holds (h : Holds s bindings) (scope : ScopeId) :
    ∃ s', endScope s scope = some s' ∧ Keeps s s' ∧
      Holds s' (bindings.filter fun b => b.scope ≠ scope) := by
  have hsyms : ∀ x ∈ s.symbols scope, ∃ b ∈ bindings, b.sym = x := by
    intro x hx
    rw [h.symbols, List.mem_reverse] at hx
    obtain ⟨b, hb, rfl⟩ := List.mem_map.1 hx
    exact ⟨b, List.mem_of_mem_filter hb, rfl⟩
  have hnodup : (s.symbols scope).Nodup := by
    rw [h.symbols, List.nodup_reverse]
    exact h.nodup.sublist (List.filter_sublist.map Binding.sym)
  have hstart : Chained { s with symbols := Function.update s.symbols scope [] } bindings :=
    ⟨h.chain, h.ident, h.nameSpace, h.nodup⟩
  obtain ⟨s', hs', hkeeps, hsymbols, hchained⟩ := removeSymbols_chained hstart hsyms hnodup
  have hfilter : (bindings.filter fun b => b.sym ∉ s.symbols scope) =
      bindings.filter fun b => b.scope ≠ scope := by
    refine List.filter_congr fun b hb => ?_
    have hiff : b.sym ∈ s.symbols scope ↔ b.scope = scope := by
      rw [h.symbols, List.mem_reverse]
      constructor
      · intro hmem
        obtain ⟨c, hc, hsym⟩ := List.mem_map.1 hmem
        rw [eq_of_sym h.nodup (List.mem_of_mem_filter hc) hb hsym] at hc
        simpa using (List.mem_filter.1 hc).2
      · intro hscope
        exact List.mem_map_of_mem (List.mem_filter.2 ⟨hb, by simpa using hscope⟩)
    simp [hiff]
  rw [hfilter] at hchained
  refine ⟨s', hs', ⟨hkeeps.next, hkeeps.blockScope, hkeeps.functionScope, hkeeps.fileScope, hkeeps.fresh,
    hkeeps.bound⟩, hchained, fun other => ?_⟩
  rw [hsymbols]
  show Function.update s.symbols scope [] other = _
  rcases eq_or_ne other scope with rfl | hne
  · rw [Function.update_self, List.filter_filter, List.filter_eq_nil_iff.2 fun b _ => by simp]
    rfl
  · rw [Function.update_of_ne hne, h.symbols, List.filter_filter]
    congr 2
    refine List.filter_congr fun b _ => ?_
    by_cases hb : b.scope = other
    · simp [hb, hne]
    · simp [hb]

/-! ## The environment is layered -/

/-- What is open, with the scopes of the blocks, functions and the file, and the last
scope at file level. -/
inductive Nest : List Frame → List ScopeId → List ScopeId → ScopeId → ScopeId → Prop
  | initial : Nest [] [] [] builtinScope builtinScope
  | closed {file : ScopeId} : 0 < file → Nest [] [file] [file] builtinScope file
  | file {file : ScopeId} : 0 < file → Nest [.file] [file] [file] file file
  | block {frames : List Frame} {blocks functions : List ScopeId} {file base scope : ScopeId} :
      Nest frames blocks functions file base → (∀ x ∈ blocks, x < scope) → base < scope →
      Nest (.block :: frames) (scope :: blocks) functions file base
  | function {frames : List Frame} {blocks functions : List ScopeId} {file base block function : ScopeId} :
      Nest frames blocks functions file base → (∀ x ∈ blocks, x < block) →
      (∀ x ∈ functions, x < function) → base < block → base < function →
      Nest (.function :: frames) (block :: blocks) (function :: functions) file base

variable {frames : List Frame} {blocks functions : List ScopeId} {file base : ScopeId}

namespace Nest

theorem base_le (h : Nest frames blocks functions file base) :
    (∀ x ∈ blocks, base ≤ x) ∧ ∀ x ∈ functions, base ≤ x := by
  induction h with
  | initial => simp
  | closed _ => simp
  | file _ => simp
  | block _ _ hbase ih =>
    refine ⟨fun x hx => ?_, ih.2⟩
    rcases List.mem_cons.1 hx with rfl | hx
    · exact Nat.le_of_lt hbase
    · exact ih.1 x hx
  | function _ _ _ hblock hfunction ih =>
    refine ⟨fun x hx => ?_, fun x hx => ?_⟩
    · rcases List.mem_cons.1 hx with rfl | hx
      · exact Nat.le_of_lt hblock
      · exact ih.1 x hx
    · rcases List.mem_cons.1 hx with rfl | hx
      · exact Nat.le_of_lt hfunction
      · exact ih.2 x hx

theorem file_le (h : Nest frames blocks functions file base) : file ≤ base := by
  induction h with
  | initial => exact Nat.le_refl _
  | closed _ => exact Nat.zero_le _
  | file _ => exact Nat.le_refl _
  | block _ _ _ ih => exact ih
  | function _ _ _ _ _ ih => exact ih

theorem pos (h : Nest frames blocks functions file base) :
    (∀ x ∈ blocks, 0 < x) ∧ ∀ x ∈ functions, 0 < x := by
  induction h with
  | initial => simp
  | closed hpos => simpa using hpos
  | file hpos => simpa using hpos
  | block _ _ hbase ih =>
    refine ⟨fun x hx => ?_, ih.2⟩
    rcases List.mem_cons.1 hx with rfl | hx
    · exact Nat.zero_lt_of_lt hbase
    · exact ih.1 x hx
  | function _ _ _ hblock hfunction ih =>
    refine ⟨fun x hx => ?_, fun x hx => ?_⟩
    · rcases List.mem_cons.1 hx with rfl | hx
      · exact Nat.zero_lt_of_lt hblock
      · exact ih.1 x hx
    · rcases List.mem_cons.1 hx with rfl | hx
      · exact Nat.zero_lt_of_lt hfunction
      · exact ih.2 x hx

/-- The scopes are open from the inside out. -/
theorem sorted (h : Nest frames blocks functions file base) :
    blocks.Pairwise (· > ·) ∧ functions.Pairwise (· > ·) := by
  induction h with
  | initial => simp
  | closed _ => simp
  | file _ => simp
  | block _ hblocks _ ih => exact ⟨List.pairwise_cons.2 ⟨hblocks, ih.1⟩, ih.2⟩
  | function _ hblocks hfunctions _ _ ih =>
    exact ⟨List.pairwise_cons.2 ⟨hblocks, ih.1⟩, List.pairwise_cons.2 ⟨hfunctions, ih.2⟩⟩

/-- The innermost scope is above what is open or at file level. -/
theorem le_head (h : Nest frames blocks functions file base) {x : ScopeId} :
    (x ∈ blocks ∨ x ≤ base → x ≤ blocks.headD builtinScope) ∧
      (x ∈ functions ∨ x ≤ base → x ≤ functions.headD builtinScope) := by
  have hhead : ∀ {ys : List ScopeId}, ys.Pairwise (· > ·) → (∀ y ∈ ys, base ≤ y) →
      (ys = [] → base = 0) → x ∈ ys ∨ x ≤ base → x ≤ ys.headD builtinScope := by
    intro ys hsorted hbase hnil hx
    cases ys with
    | nil =>
      rcases hx with hx | hx
      · simp at hx
      · rw [hnil rfl] at hx
        exact hx
    | cons y ys =>
      rcases hx with hx | hx
      · rcases List.mem_cons.1 hx with rfl | hx
        · exact Nat.le_refl _
        · exact Nat.le_of_lt ((List.pairwise_cons.1 hsorted).1 x hx)
      · exact Nat.le_trans hx (hbase y List.mem_cons_self)
  have hnil : (blocks = [] → base = 0) ∧ (functions = [] → base = 0) := by
    clear hhead
    induction h with
    | initial => exact ⟨fun _ => rfl, fun _ => rfl⟩
    | closed _ => simp
    | file _ => simp
    | block _ _ _ ih => exact ⟨fun h => absurd h (List.cons_ne_nil _ _), ih.2⟩
    | function _ _ _ _ _ ih =>
      exact ⟨fun h => absurd h (List.cons_ne_nil _ _), fun h => absurd h (List.cons_ne_nil _ _)⟩
  exact ⟨hhead h.sorted.1 h.base_le.1 hnil.1, hhead h.sorted.2 h.base_le.2 hnil.2⟩

theorem base_eq (h : Nest frames blocks functions file base) :
    base = (blocks.drop (frames.filter fun frame => frame ≠ .file).length).headD builtinScope := by
  induction h with
  | initial => rfl
  | closed _ => rfl
  | file _ => rfl
  | block _ _ _ ih => exact ih
  | function _ _ _ _ _ ih => exact ih

theorem of_nil (h : Nest [] blocks functions file base) : file = builtinScope := by
  cases h <;> rfl

theorem of_file (h : Nest [.file] blocks functions file base) :
    blocks = [file] ∧ functions = [file] ∧ base = file ∧ 0 < file := by
  cases h with
  | file hpos => exact ⟨rfl, rfl, rfl, hpos⟩

theorem of_block (h : Nest (.block :: frames) blocks functions file base) :
    ∃ scope rest, blocks = scope :: rest ∧ Nest frames rest functions file base := by
  cases h with
  | block hrest _ _ => exact ⟨_, _, rfl, hrest⟩

theorem of_function (h : Nest (.function :: frames) blocks functions file base) :
    ∃ block blocks' function functions', blocks = block :: blocks' ∧
      functions = function :: functions' ∧ Nest frames blocks' functions' file base := by
  cases h with
  | function hrest _ _ _ _ => exact ⟨_, _, _, _, rfl, rfl, hrest⟩

end Nest

/-- The namespaces whose scopes are chosen alike. -/
def Namespace.kind : Namespace → Namespace
  | .nsMacro => .nsMacro
  | .nsLabel => .nsLabel
  | _ => .nsSymbol

/-- Where the bindings of a namespace can be. -/
def Placed (env : Env) (base : ScopeId) (b : Binding) : Prop :=
  match b.ns.kind with
  | .nsMacro => b.scope = env.file ∨ b.scope = builtinScope
  | .nsLabel => b.scope ∈ env.functions ∨ b.scope ≤ base
  | _ => b.scope ∈ env.blocks ∨ b.scope ≤ base

theorem Placed.imp {env env' : Env} {base base' : ScopeId} {b : Binding} (h : Placed env base b)
    (hfile : b.scope = env.file ∨ b.scope = builtinScope → b.scope = env'.file ∨ b.scope = builtinScope)
    (hlabel : b.scope ∈ env.functions ∨ b.scope ≤ base → b.scope ∈ env'.functions ∨ b.scope ≤ base')
    (hblock : b.scope ∈ env.blocks ∨ b.scope ≤ base → b.scope ∈ env'.blocks ∨ b.scope ≤ base') :
    Placed env' base' b := by
  rw [Placed] at h ⊢
  cases hkind : b.ns.kind with
  | nsMacro =>
    rw [hkind] at h
    exact hfile h
  | nsLabel =>
    rw [hkind] at h
    exact hlabel h
  | nsTypedef =>
    rw [hkind] at h
    exact hblock h
  | nsStruct =>
    rw [hkind] at h
    exact hblock h
  | nsSymbol =>
    rw [hkind] at h
    exact hblock h

/-- A later binding is not further out than an earlier one, at file level apart. -/
def Inward (base : ScopeId) (b old : Binding) : Prop :=
  b.ns.kind = old.ns.kind → old.scope ≤ b.scope ∨ (b.scope = builtinScope ∧ old.scope ≤ base)

structure Layered (env : Env) (base : ScopeId) : Prop where
  nest : Nest env.frames env.blocks env.functions env.file base
  fresh : base < env.fresh
  blocks : ∀ x ∈ env.blocks, x < env.fresh
  functions : ∀ x ∈ env.functions, x < env.fresh
  placed : ∀ b ∈ env.bindings, Placed env base b
  inward : env.bindings.Pairwise (Inward base)
  scopes : ∀ b ∈ env.bindings, b.scope < env.fresh
  bound : ∀ b ∈ env.bindings, env.bound b.sym = true
  nodup : (env.bindings.map Binding.sym).Nodup

variable {env env' : Env} {reserved : Ident → Bool} {mods : SymbolId → Modifiers}

theorem Env.initial_layered : Layered Env.initial builtinScope where
  nest := .initial
  fresh := Nat.zero_lt_one
  blocks := by simp [Env.initial]
  functions := by simp [Env.initial]
  placed := by simp [Env.initial]
  inward := List.Pairwise.nil
  scopes := by simp [Env.initial]
  bound := by simp [Env.initial]
  nodup := List.nodup_nil

namespace Layered

theorem openFile (h : Layered env base) (hframes : env.frames = []) : Layered env.openFile env.fresh where
  nest := .file (Nat.zero_lt_of_lt h.fresh)
  fresh := Nat.lt_succ_self _
  blocks := by simp [Env.openFile]
  functions := by simp [Env.openFile]
  placed b hb := by
    have hscope := Nat.le_of_lt (h.scopes b hb)
    have hfile : env.file = builtinScope := Nest.of_nil (hframes ▸ h.nest)
    refine (h.placed b hb).imp (fun houter => ?_) (fun _ => .inr hscope) fun _ => .inr hscope
    rw [hfile] at houter
    exact .inr (houter.elim id id)
  inward := h.inward.imp fun hin hkind =>
    (hin hkind).imp_right fun hout => ⟨hout.1, Nat.le_trans hout.2 (Nat.le_of_lt h.fresh)⟩
  scopes b hb := Nat.lt_succ_of_lt (h.scopes b hb)
  bound := h.bound
  nodup := h.nodup

/-- Some scopes are closed. -/
theorem closed (h : Layered env base) (p : Binding → Bool)
    (hnest : Nest env'.frames env'.blocks env'.functions env'.file base)
    (hblocks : ∀ x ∈ env'.blocks, x ∈ env.blocks) (hfunctions : ∀ x ∈ env'.functions, x ∈ env.functions)
    (hbindings : env'.bindings = env.bindings.filter p) (hfresh : env'.fresh = env.fresh)
    (hbound : env'.bound = env.bound)
    (hplaced : ∀ b ∈ env.bindings, p b = true → Placed env base b → Placed env' base b) :
    Layered env' base where
  nest := hnest
  fresh := hfresh ▸ h.fresh
  blocks x hx := hfresh ▸ h.blocks x (hblocks x hx)
  functions x hx := hfresh ▸ h.functions x (hfunctions x hx)
  placed b hb := by
    rw [hbindings] at hb
    obtain ⟨hb, hp⟩ := List.mem_filter.1 hb
    exact hplaced b hb hp (h.placed b hb)
  inward := by
    rw [hbindings]
    exact h.inward.sublist List.filter_sublist
  scopes b hb := by
    rw [hbindings] at hb
    exact hfresh ▸ h.scopes b (List.mem_of_mem_filter hb)
  bound b hb := by
    rw [hbindings] at hb
    exact hbound ▸ h.bound b (List.mem_of_mem_filter hb)
  nodup := by
    rw [hbindings]
    exact h.nodup.sublist (List.filter_sublist.map Binding.sym)

theorem closeFile (h : Layered env base) (hframes : env.frames = [.file]) : Layered env.closeFile base := by
  obtain ⟨hblocks, hfunctions, hbase, hpos⟩ := Nest.of_file (hframes ▸ h.nest)
  refine h.closed (fun b => b.scope ≠ env.file) ?_ (fun _ hx => hx) (fun _ hx => hx) rfl rfl rfl ?_
  · show Nest [] env.blocks env.functions builtinScope base
    rw [hblocks, hfunctions, hbase]
    exact .closed hpos
  · intro b _ hp hplaced
    exact hplaced.imp (fun houter => .inr (houter.resolve_left (by simpa using hp))) id id

theorem endSymbol (h : Layered env base) {scope : ScopeId} (hframes : env.frames = .block :: frames)
    (hblocks : env.blocks = scope :: blocks) :
    Layered { env.close scope with frames := frames, blocks := blocks } base := by
  obtain ⟨scope', blocks', heq, hnest⟩ := Nest.of_block (hframes ▸ h.nest)
  rw [hblocks] at heq
  obtain ⟨rfl, rfl⟩ := List.cons.inj heq
  refine h.closed (fun b => b.scope ≠ scope) hnest (fun x hx => ?_) (fun _ hx => hx) rfl rfl rfl ?_
  · rw [hblocks]
    exact List.mem_cons_of_mem _ hx
  · intro b _ hp hplaced
    have hin : b.scope ∈ env.blocks ∨ b.scope ≤ base → b.scope ∈ blocks ∨ b.scope ≤ base := by
      rw [hblocks, List.mem_cons]
      exact Or.imp_left fun hmem => hmem.resolve_left (by simpa using hp)
    exact hplaced.imp id id hin

theorem endFunction (h : Layered env base) {block function : ScopeId}
    (hframes : env.frames = .function :: frames) (hblocks : env.blocks = block :: blocks)
    (hfunctions : env.functions = function :: functions) :
    Layered
      { (env.close block).close function with frames := frames, blocks := blocks, functions := functions }
      base := by
  obtain ⟨block', blocks', function', functions', heqb, heqf, hnest⟩ :=
    Nest.of_function (hframes ▸ h.nest)
  rw [hblocks] at heqb
  rw [hfunctions] at heqf
  obtain ⟨rfl, rfl⟩ := List.cons.inj heqb
  obtain ⟨rfl, rfl⟩ := List.cons.inj heqf
  refine h.closed (fun b => decide (b.scope ≠ function) && decide (b.scope ≠ block)) hnest
    (fun x hx => ?_) (fun x hx => ?_) (List.filter_filter ..) rfl rfl ?_
  · rw [hblocks]
    exact List.mem_cons_of_mem _ hx
  · rw [hfunctions]
    exact List.mem_cons_of_mem _ hx
  · intro b _ hp hplaced
    obtain ⟨hnf, hnb⟩ : b.scope ≠ function ∧ b.scope ≠ block := by simpa using hp
    have hblock : b.scope ∈ env.blocks ∨ b.scope ≤ base → b.scope ∈ blocks ∨ b.scope ≤ base := by
      rw [hblocks, List.mem_cons]
      exact Or.imp_left fun hmem => hmem.resolve_left hnb
    have hfunction : b.scope ∈ env.functions ∨ b.scope ≤ base → b.scope ∈ functions ∨ b.scope ≤ base := by
      rw [hfunctions, List.mem_cons]
      exact Or.imp_left fun hmem => hmem.resolve_left hnf
    exact hplaced.imp id hfunction hblock

/-- New scopes are opened. -/
theorem opened (h : Layered env base)
    (hnest : Nest env'.frames env'.blocks env'.functions env'.file base) (hfresh : env.fresh ≤ env'.fresh)
    (hblocks : ∀ x ∈ env'.blocks, x < env'.fresh) (hfunctions : ∀ x ∈ env'.functions, x < env'.fresh)
    (hblocks' : ∀ x ∈ env.blocks, x ∈ env'.blocks) (hfunctions' : ∀ x ∈ env.functions, x ∈ env'.functions)
    (hfile : env'.file = env.file) (hbindings : env'.bindings = env.bindings)
    (hbound : env'.bound = env.bound) : Layered env' base where
  nest := hnest
  fresh := Nat.lt_of_lt_of_le h.fresh hfresh
  blocks := hblocks
  functions := hfunctions
  placed b hb := by
    refine (h.placed b (hbindings ▸ hb)).imp (fun houter => ?_) (Or.imp_left (hfunctions' _))
      (Or.imp_left (hblocks' _))
    rwa [hfile]
  inward := hbindings ▸ h.inward
  scopes b hb := Nat.lt_of_lt_of_le (h.scopes b (hbindings ▸ hb)) hfresh
  bound b hb := hbound ▸ h.bound b (hbindings ▸ hb)
  nodup := hbindings ▸ h.nodup

theorem headD_placed (xs : List ScopeId) (base : ScopeId) :
    xs.headD builtinScope ∈ xs ∨ xs.headD builtinScope ≤ base := by
  cases xs with
  | nil => exact .inr (Nat.zero_le _)
  | cons x xs => exact .inl List.mem_cons_self

/-- A binding is placed innermost. -/
theorem place (h : Layered env base) (mods : SymbolId → Modifiers) (sym : SymbolId) (ident : Ident)
    (ns : Namespace) :
    Placed env base ⟨sym, ident, ns, env.place mods sym ns⟩ ∧
      ∀ old, Placed env base old → Inward base ⟨sym, ident, ns, env.place mods sym ns⟩ old := by
  have hblock : ∀ old, Placed env base old → Namespace.nsSymbol = old.ns.kind →
      old.scope ∈ env.blocks ∨ old.scope ≤ base := by
    intro old hold hkind
    rw [Placed, ← hkind] at hold
    exact hold
  have hhead : ∀ old, Placed env base old → Namespace.nsSymbol = old.ns.kind →
      old.scope ≤ env.blocks.headD builtinScope := fun old hold hkind =>
    h.nest.le_head.1 (hblock old hold hkind)
  cases ns with
  | nsMacro =>
    refine ⟨.inl rfl, fun old hold hkind => .inl ?_⟩
    rw [Placed, ← hkind] at hold
    rcases hold with hold | hold
    · exact Nat.le_of_eq hold
    · rw [hold]
      exact Nat.zero_le _
  | nsLabel =>
    refine ⟨headD_placed env.functions base, fun old hold hkind => .inl ?_⟩
    rw [Placed, ← hkind] at hold
    exact h.nest.le_head.2 hold
  | nsTypedef => exact ⟨headD_placed env.blocks base, fun old hold hkind => .inl (hhead old hold hkind)⟩
  | nsStruct => exact ⟨headD_placed env.blocks base, fun old hold hkind => .inl (hhead old hold hkind)⟩
  | nsSymbol =>
    simp only [Env.place]
    by_cases htop : env.blocks.headD builtinScope = env.file ∨ env.blocks.headD builtinScope = builtinScope
    · rw [if_pos htop]
      have hbase : env.blocks.headD builtinScope ≤ base := by
        rcases htop with htop | htop
        · rw [htop]
          exact h.nest.file_le
        · rw [htop]
          exact Nat.zero_le _
      split
      · refine ⟨.inr h.nest.file_le, fun old hold hkind => ?_⟩
        have hle := hhead old hold hkind
        rcases htop with htop | htop
        · exact .inl (htop ▸ hle)
        · rw [htop] at hle
          exact .inl (Nat.le_trans hle (Nat.zero_le _))
      · exact ⟨.inr (Nat.zero_le _), fun old hold hkind =>
          .inr ⟨rfl, Nat.le_trans (hhead old hold hkind) hbase⟩⟩
    · rw [if_neg htop]
      exact ⟨headD_placed env.blocks base, fun old hold hkind => .inl (hhead old hold hkind)⟩

theorem place_lt (h : Layered env base) (mods : SymbolId → Modifiers) (sym : SymbolId) (ns : Namespace) :
    env.place mods sym ns < env.fresh := by
  have hfile := Nat.lt_of_le_of_lt h.nest.file_le h.fresh
  have hplaced := (h.place mods sym 0 ns).1
  rw [Placed] at hplaced
  cases ns with
  | nsMacro => exact hfile
  | nsLabel => exact hplaced.elim (h.functions _) fun hle => Nat.lt_of_le_of_lt hle h.fresh
  | nsTypedef => exact hplaced.elim (h.blocks _) fun hle => Nat.lt_of_le_of_lt hle h.fresh
  | nsStruct => exact hplaced.elim (h.blocks _) fun hle => Nat.lt_of_le_of_lt hle h.fresh
  | nsSymbol => exact hplaced.elim (h.blocks _) fun hle => Nat.lt_of_le_of_lt hle h.fresh

theorem bind (h : Layered env base) (mods : SymbolId → Modifiers) {sym : SymbolId} (ident : Ident)
    (ns : Namespace) (hsym : env.bound sym = false) :
    Layered
      { env with
        bindings := ⟨sym, ident, ns, env.place mods sym ns⟩ :: env.bindings
        bound := Function.update env.bound sym true } base where
  nest := h.nest
  fresh := h.fresh
  blocks := h.blocks
  functions := h.functions
  placed b hb := by
    rcases List.mem_cons.1 hb with rfl | hb
    · exact (h.place mods sym ident ns).1
    · exact h.placed b hb
  inward := List.pairwise_cons.2
    ⟨fun old hold => (h.place mods sym ident ns).2 old (h.placed old hold), h.inward⟩
  scopes b hb := by
    rcases List.mem_cons.1 hb with rfl | hb
    · exact h.place_lt mods sym ns
    · exact h.scopes b hb
  bound b hb := by
    rcases List.mem_cons.1 hb with rfl | hb
    · exact Function.update_self ..
    · show Function.update env.bound sym true b.sym = true
      rw [Function.update_apply, h.bound b hb, ite_self]
  nodup := by
    rw [List.map_cons]
    refine List.nodup_cons.2 ⟨fun hmem => ?_, h.nodup⟩
    obtain ⟨b, hb, hbsym⟩ := List.mem_map.1 hmem
    have hbound := h.bound b hb
    rw [hbsym, hsym] at hbound
    exact Bool.false_ne_true hbound

end Layered

end Sparse.Scopes
