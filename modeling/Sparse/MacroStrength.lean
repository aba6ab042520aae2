import Mathlib.Data.List.Basic
import Mathlib.Order.Lattice

/-!
# Macro definition strength

`#weak_define`, `#define`, `#strong_define`, `#undef` and `#strong_undef` of one name,
as they push symbols on the chain of the identifier or change the first one found
there, and the rule they are meant to follow: a directive takes effect unless one of
greater strength is in force.
-/

namespace Sparse.MacroStrength

/-- The values of `enum namespace`. -/
inductive Namespace
  | nsMacro | nsTypedef | nsStruct | nsLabel | nsSymbol | nsIterator | nsPreprocessor | nsUndef | nsKeyword
  deriving DecidableEq, Repr

/-- `SYM_ATTR_WEAK`, `SYM_ATTR_NORMAL` and `SYM_ATTR_STRONG`. -/
inductive Attr
  | weak | normal | strong
  deriving DecidableEq, Repr

def Attr.value : Attr → ℕ
  | weak => 0
  | normal => 1
  | strong => 2

instance : LinearOrder Attr :=
  LinearOrder.lift' Attr.value fun a b h => by cases a <;> cases b <;> first | rfl | cases h

variable {τ : Type*}

/-- The argument list and the body of a macro. -/
structure Definition (τ : Type*) where
  arglist : Option (List τ)
  expansion : List τ
  deriving DecidableEq, Repr

structure Symbol (τ : Type*) where
  nameSpace : Namespace
  attr : Attr
  scope : ℕ
  usedIn : Option ℕ
  definition : Definition τ
  deriving DecidableEq, Repr

/-- The chain `ident->symbols` of the name, the newest first, and the messages. -/
structure State (τ : Type*) where
  symbols : List (Symbol τ)
  messages : List String
  deriving DecidableEq, Repr

/-! ## The functions -/

/-- `lookup_symbol`, in any of the namespaces. -/
def lookupSymbol (symbols : List (Symbol τ)) (ns : List Namespace) : Option (Symbol τ) :=
  symbols.find? fun sym => sym.nameSpace ∈ ns

/-- What is written to the symbol that `lookup_symbol` finds. -/
def setSymbol (ns : List Namespace) (f : Symbol τ → Symbol τ) : List (Symbol τ) → List (Symbol τ)
  | [] => []
  | sym :: symbols => if sym.nameSpace ∈ ns then f sym :: symbols else sym :: setSymbol ns f symbols

/-- `NS_MACRO | NS_UNDEF`. -/
def nsMacroUndef : List Namespace := [.nsMacro, .nsUndef]

def lookupMacro (symbols : List (Symbol τ)) : Option (Symbol τ) :=
  match lookupSymbol symbols nsMacroUndef with
  | none => none
  | some sym => if sym.nameSpace = .nsMacro then some sym else none

/-- `token_list_different`. -/
def tokenListDifferent (tokenDifferent : τ → τ → Bool) : List τ → List τ → Bool
  | [], [] => false
  | [], _ :: _ => true
  | _ :: _, [] => true
  | t₁ :: list₁, t₂ :: list₂ => tokenDifferent t₁ t₂ || tokenListDifferent tokenDifferent list₁ list₂

/-- The same for the argument lists; one of an object-like macro is null. -/
def arglistDifferent (tokenDifferent : τ → τ → Bool) : Option (List τ) → Option (List τ) → Bool
  | none, none => false
  | some list₁, some list₂ => tokenListDifferent tokenDifferent list₁ list₂
  | _, _ => true

/-- What a line of the file is about. -/
structure Context (τ : Type*) where
  name : String
  fileScope : ℕ
  tokenDifferent : τ → τ → Bool

variable (c : Context τ)

/-- The warning of a redefinition. -/
def warnRedefined (s : State τ) (sym : Symbol τ) (definition : Definition τ) (attr : Attr) : State τ :=
  let clean := attr = sym.attr && sym.nameSpace = .nsMacro
  if (tokenListDifferent c.tokenDifferent sym.definition.expansion definition.expansion ||
      arglistDifferent c.tokenDifferent sym.definition.arglist definition.arglist) &&
      (clean && attr = .normal || sym.usedIn = some c.fileScope) then
    { s with
      messages := s.messages ++
        [s!"preprocessor token {c.name} redefined", "this was the original definition"] }
  else s

/-- `bind_symbol` of a new symbol to the name in `NS_MACRO`. -/
def bindSymbol (s : State τ) (sym : Symbol τ) : State τ :=
  { s with symbols := { sym with nameSpace := .nsMacro, scope := c.fileScope } :: s.symbols }

/-- `do_handle_define` of a parsed line; the flag tells the caller to free the line. -/
def doHandleDefine (s : State τ) (definition : Definition τ) (attr : Attr) : State τ × Bool :=
  let define (s : State τ) : State τ × Bool :=
    (bindSymbol c s
      { nameSpace := .nsMacro, attr := attr, scope := c.fileScope, usedIn := none, definition := definition },
      false)
  match lookupSymbol s.symbols [.nsMacro] with
  | none => define s
  | some sym => if attr < sym.attr then (s, true) else define (warnRedefined c s sym definition attr)

/-- The rest of `do_handle_undef`, where the directive is not passed over. The symbol it
writes to is the new one or the one found, the first of the chain in both cases. -/
def undefineSymbol (s : State τ) (found : Option (Symbol τ)) (attr : Attr) : State τ :=
  let fresh : Symbol τ :=
    { nameSpace := .nsMacro, attr := .weak, scope := c.fileScope, usedIn := none
      definition := { arglist := none, expansion := [] } }
  let s :=
    match found with
    | none => bindSymbol c s fresh
    | some sym => if sym.scope ≠ c.fileScope then bindSymbol c s fresh else s
  let undefined (sym : Symbol τ) : Symbol τ :=
    { sym with nameSpace := .nsUndef, usedIn := none, attr := attr }
  { s with symbols := setSymbol nsMacroUndef undefined s.symbols }

/-- `do_handle_undef`. -/
def doHandleUndef (s : State τ) (attr : Attr) : State τ × Bool :=
  match lookupSymbol s.symbols nsMacroUndef with
  | none => if attr ≤ .normal then (s, true) else (undefineSymbol c s none attr, true)
  | some sym =>
    if attr < sym.attr then (s, true)
    else if attr = sym.attr ∧ sym.nameSpace = .nsUndef then (s, true)
    else (undefineSymbol c s (some sym) attr, true)

/-- `token_defined`. -/
def tokenDefined (s : State τ) : State τ × Bool :=
  match lookupMacro s.symbols with
  | none => (s, false)
  | some _ =>
    ({ s with symbols := setSymbol nsMacroUndef (fun sym => { sym with usedIn := some c.fileScope }) s.symbols },
      true)

/-- The directives that define the name or make it undefined. -/
inductive Directive (τ : Type*)
  | define (attr : Attr) (definition : Definition τ)
  | undef (attr : Attr)
  deriving DecidableEq, Repr

namespace Directive

def attr : Directive τ → Attr
  | define attr _ => attr
  | undef attr => attr

/-- What the name stands for after the directive. -/
def result : Directive τ → Option (Definition τ)
  | define _ definition => some definition
  | undef _ => none

def exec (s : State τ) : Directive τ → State τ
  | define attr definition => (doHandleDefine c s definition attr).1
  | undef attr => (doHandleUndef c s attr).1

end Directive

/-- A line of the file about the name: a directive, or a test such as `#ifdef`. -/
inductive Line (τ : Type*)
  | directive (d : Directive τ)
  | test
  deriving DecidableEq, Repr

def Line.exec (s : State τ) : Line τ → State τ
  | directive d => d.exec c s
  | test => (tokenDefined c s).1

def run (s : State τ) (lines : List (Line τ)) : State τ :=
  lines.foldl (Line.exec c) s

/-! ## The rule -/

/-- `d` takes effect after the effective directives `past`: it is not idle, and none of
them has a greater strength. -/
def Prevails (idle : List (Directive τ) → Directive τ → Bool) (past : List (Directive τ)) (d : Directive τ) :
    Prop :=
  idle past d = false ∧ ∀ e ∈ past, e.attr ≤ d.attr

instance (idle : List (Directive τ) → Directive τ → Bool) (past : List (Directive τ)) (d : Directive τ) :
    Decidable (Prevails idle past d) :=
  inferInstanceAs (Decidable (_ ∧ _))

def record (idle : List (Directive τ) → Directive τ → Bool) (past : List (Directive τ)) :
    Line τ → List (Directive τ)
  | .directive d => if Prevails idle past d then d :: past else past
  | .test => past

/-- The directives that take effect, the last one first. -/
def effective (idle : List (Directive τ) → Directive τ → Bool) (lines : List (Line τ)) : List (Directive τ) :=
  lines.foldl (record idle) []

/-- No directive is idle. -/
def neverIdle (_ : List (Directive τ)) (_ : Directive τ) : Bool := false

/-- A `#undef` of a name that no directive has defined or made undefined is idle. -/
def idleUndef (past : List (Directive τ)) : Directive τ → Bool
  | .define _ _ => false
  | .undef attr => past.isEmpty && attr ≤ .normal

/-- `lookup_macro` yields what the last effective directive left. -/
def YieldsLast (idle : List (Directive τ) → Directive τ → Bool) (s : State τ) (lines : List (Line τ)) : Prop :=
  (lookupMacro (run c s lines).symbols).map Symbol.definition =
    (effective idle lines).head?.bind Directive.result

/-- The first symbol of the name carries the strength of `d` and what `d` makes of the name. -/
def InForce (s : State τ) (d : Directive τ) : Prop :=
  ∃ sym, lookupSymbol s.symbols nsMacroUndef = some sym ∧ sym.attr = d.attr ∧
    (lookupMacro s.symbols).map Symbol.definition = d.result

/-- A definition meets an undefinition of greater strength and does not see it: behind
it there is no definition, or one that is not stronger. -/
def overlooks (s : State τ) : Directive τ → Bool
  | .undef _ => false
  | .define attr _ =>
    match lookupSymbol s.symbols nsMacroUndef with
    | none => false
    | some sym =>
      sym.nameSpace = .nsUndef && attr < sym.attr &&
        match lookupSymbol s.symbols [.nsMacro] with
        | none => true
        | some old => old.attr ≤ attr

def Line.overlooks (s : State τ) : Line τ → Bool
  | directive d => MacroStrength.overlooks s d
  | test => false

/-- No definition of the lines overlooks an undefinition. -/
def clear (s : State τ) : List (Line τ) → Bool
  | [] => true
  | line :: lines => !line.overlooks s && clear (line.exec c s) lines

/-! ## The first symbol -/

variable {c} {s : State τ} {sym : Symbol τ} {symbols : List (Symbol τ)} {ns : List Namespace}

theorem lookupSymbol_cons (sym : Symbol τ) (symbols : List (Symbol τ)) (ns : List Namespace) :
    lookupSymbol (sym :: symbols) ns = if sym.nameSpace ∈ ns then some sym else lookupSymbol symbols ns := by
  by_cases h : sym.nameSpace ∈ ns
  · simp [lookupSymbol, h]
  · simp [lookupSymbol, h]

theorem mem_of_lookupSymbol (h : lookupSymbol symbols ns = some sym) : sym ∈ symbols ∧ sym.nameSpace ∈ ns :=
  ⟨List.mem_of_find?_eq_some h, by simpa using List.find?_some h⟩

theorem not_mem_of_lookupSymbol_none (h : lookupSymbol symbols ns = none) (hmem : sym ∈ symbols) :
    sym.nameSpace ∉ ns := by
  simpa using List.find?_eq_none.mp h sym hmem

theorem lookupSymbol_setSymbol (f : Symbol τ → Symbol τ) (h : lookupSymbol symbols ns = some sym)
    (hf : (f sym).nameSpace ∈ ns) : lookupSymbol (setSymbol ns f symbols) ns = some (f sym) := by
  induction symbols with
  | nil => cases h
  | cons sym' symbols ih =>
    rw [lookupSymbol_cons] at h
    by_cases hns : sym'.nameSpace ∈ ns
    · rw [if_pos hns] at h
      cases h
      rw [setSymbol, if_pos hns, lookupSymbol_cons, if_pos hf]
    · rw [if_neg hns] at h
      rw [setSymbol, if_neg hns, lookupSymbol_cons, if_neg hns]
      exact ih h

theorem mem_setSymbol (f : Symbol τ → Symbol τ) (h : lookupSymbol symbols ns = some sym) {x : Symbol τ}
    (hx : x ∈ setSymbol ns f symbols) : x = f sym ∨ x ∈ symbols := by
  induction symbols with
  | nil => cases h
  | cons sym' symbols ih =>
    rw [lookupSymbol_cons] at h
    by_cases hns : sym'.nameSpace ∈ ns
    · rw [if_pos hns] at h
      cases h
      rw [setSymbol, if_pos hns] at hx
      rcases List.mem_cons.mp hx with rfl | hx
      · exact .inl rfl
      · exact .inr (List.mem_cons_of_mem _ hx)
    · rw [if_neg hns] at h
      rw [setSymbol, if_neg hns] at hx
      rcases List.mem_cons.mp hx with rfl | hx
      · exact .inr List.mem_cons_self
      · exact (ih h hx).imp_right (List.mem_cons_of_mem _)

theorem lookupMacro_eq (h : lookupSymbol symbols nsMacroUndef = some sym) :
    lookupMacro symbols = if sym.nameSpace = .nsMacro then some sym else none := by
  unfold lookupMacro
  rw [h]

/-- The first symbol is a definition or an undefinition. -/
theorem nameSpace_cases (h : lookupSymbol symbols nsMacroUndef = some sym) :
    sym.nameSpace = .nsMacro ∨ sym.nameSpace = .nsUndef := by
  simpa [nsMacroUndef] using (mem_of_lookupSymbol h).2

/-- A definition in front is what the define directives find too. -/
theorem lookupSymbol_macro_entry (h : lookupSymbol symbols nsMacroUndef = some sym) (hns : sym.nameSpace = .nsMacro) :
    lookupSymbol symbols [.nsMacro] = some sym := by
  induction symbols with
  | nil => cases h
  | cons sym' symbols ih =>
    rw [lookupSymbol_cons] at h ⊢
    by_cases hmacro : sym'.nameSpace ∈ nsMacroUndef
    · rw [if_pos hmacro] at h
      cases h
      rw [if_pos (by simpa using hns)]
    · have hother : sym'.nameSpace ∉ [Namespace.nsMacro] := fun hmem =>
        hmacro (by simp [nsMacroUndef, List.mem_singleton.mp hmem])
      rw [if_neg hmacro] at h
      rw [if_neg hother]
      exact ih h

theorem lookupSymbol_macro_none (h : lookupSymbol symbols nsMacroUndef = none) :
    lookupSymbol symbols [.nsMacro] = none := by
  refine List.find?_eq_none.mpr fun sym hmem => ?_
  have hns := not_mem_of_lookupSymbol_none h hmem
  simp only [nsMacroUndef, List.mem_cons, List.not_mem_nil, or_false, not_or] at hns
  simpa using hns.1

/-! ## A step -/

/-- What a directive leaves in the first symbol. -/
def Shows (sym : Symbol τ) : Directive τ → Prop
  | .define attr definition => sym.nameSpace = .nsMacro ∧ sym.attr = attr ∧ sym.definition = definition
  | .undef attr => sym.nameSpace = .nsUndef ∧ sym.attr = attr

/-- `sym` is the first symbol and stands for the last effective directive `e`; no older
directive or definition is stronger. -/
structure Stands (c : Context τ) (s : State τ) (e : Directive τ) (past : List (Directive τ)) (sym : Symbol τ) :
    Prop where
  found : lookupSymbol s.symbols nsMacroUndef = some sym
  shows : Shows sym e
  scope : sym.scope = c.fileScope
  past_le : ∀ e' ∈ past, e'.attr ≤ e.attr
  symbols_le : ∀ x ∈ s.symbols, x.nameSpace = .nsMacro → x.attr ≤ sym.attr

/-- The chain stands for the effective directives. -/
def Agrees (c : Context τ) (s : State τ) : List (Directive τ) → Prop
  | [] => lookupSymbol s.symbols nsMacroUndef = none
  | e :: past => ∃ sym, Stands c s e past sym

variable {e d : Directive τ} {past : List (Directive τ)} {attr : Attr} {definition : Definition τ}

theorem Shows.attr_eq (h : Shows sym e) : sym.attr = e.attr := by
  cases e with
  | define attr definition => exact h.2.1
  | undef attr => exact h.2

theorem Shows.definition_eq (h : Shows sym e) :
    (if sym.nameSpace = .nsMacro then some sym else none).map Symbol.definition = e.result := by
  cases e with
  | define attr definition => simp [h.1, h.2.2, Directive.result]
  | undef attr => simp [h.1, Directive.result]

namespace Stands

theorem inForce (h : Stands c s e past sym) : InForce s e := by
  refine ⟨sym, h.found, h.shows.attr_eq, ?_⟩
  rw [lookupMacro_eq h.found]
  exact h.shows.definition_eq

theorem congr {s' : State τ} (h : Stands c s e past sym) (hs : s'.symbols = s.symbols) :
    Stands c s' e past sym := by
  refine ⟨?_, h.shows, h.scope, h.past_le, ?_⟩
  · rw [hs]
    exact h.found
  · rw [hs]
    exact h.symbols_le

/-- The last effective directive decides for all of them. -/
theorem prevails_iff (h : Stands c s e past sym) : Prevails idleUndef (e :: past) d ↔ sym.attr ≤ d.attr := by
  have hidle : idleUndef (e :: past) d = false := by
    cases d with
    | define attr definition => rfl
    | undef attr => rfl
  rw [h.shows.attr_eq]
  constructor
  · intro hp
    exact hp.2 e List.mem_cons_self
  · intro hle
    refine ⟨hidle, fun e' he' => ?_⟩
    rcases List.mem_cons.mp he' with rfl | he'
    · exact hle
    · exact (h.past_le e' he').trans hle

/-- A stronger or equal directive takes the place of the last one. -/
theorem past_le_cons (h : Stands c s e past sym) (hle : sym.attr ≤ d.attr) : ∀ e' ∈ e :: past, e'.attr ≤ d.attr :=
  (h.prevails_iff.mpr hle).2

theorem bind (h : Stands c s e past sym) (hle : sym.attr ≤ attr) :
    Stands c
      (bindSymbol c s
        { nameSpace := .nsMacro, attr := attr, scope := c.fileScope, usedIn := none, definition := definition })
      (.define attr definition) (e :: past)
      { nameSpace := .nsMacro, attr := attr, scope := c.fileScope, usedIn := none, definition := definition } where
  found := by simp [bindSymbol, lookupSymbol_cons, nsMacroUndef]
  shows := ⟨rfl, rfl, rfl⟩
  scope := rfl
  past_le := h.past_le_cons hle
  symbols_le x hx hns := by
    rcases List.mem_cons.mp hx with rfl | hx
    · exact le_refl _
    · exact (h.symbols_le x hx hns).trans hle

theorem undefineSymbol_symbols (h : Stands c s e past sym) (attr : Attr) :
    (undefineSymbol c s (some sym) attr).symbols =
      setSymbol nsMacroUndef (fun sym => { sym with nameSpace := .nsUndef, usedIn := none, attr := attr })
        s.symbols := by
  simp [undefineSymbol, h.scope]

theorem undefine (h : Stands c s e past sym) (hle : sym.attr ≤ attr) :
    Stands c (undefineSymbol c s (some sym) attr) (.undef attr) (e :: past)
      { sym with nameSpace := .nsUndef, usedIn := none, attr := attr } where
  found := by
    rw [h.undefineSymbol_symbols]
    exact lookupSymbol_setSymbol (fun sym => { sym with nameSpace := .nsUndef, usedIn := none, attr := attr }) h.found
      (by simp [nsMacroUndef])
  shows := ⟨rfl, rfl⟩
  scope := h.scope
  past_le := h.past_le_cons hle
  symbols_le x hx hns := by
    rw [h.undefineSymbol_symbols] at hx
    rcases mem_setSymbol _ h.found hx with rfl | hx
    · exact le_refl _
    · exact (h.symbols_le x hx hns).trans hle

end Stands

theorem warnRedefined_symbols (s : State τ) (sym : Symbol τ) (definition : Definition τ) (attr : Attr) :
    (warnRedefined c s sym definition attr).symbols = s.symbols := by
  simp only [warnRedefined]
  split
  · rfl
  · rfl

theorem record_of_prevails {idle : List (Directive τ) → Directive τ → Bool} (h : Prevails idle past d) :
    record idle past (.directive d) = d :: past :=
  if_pos h

theorem record_of_not_prevails {idle : List (Directive τ) → Directive τ → Bool} (h : ¬Prevails idle past d) :
    record idle past (.directive d) = past :=
  if_neg h

/-- The first definition of the name. -/
theorem agrees_first_define (h : Agrees c s []) :
    Agrees c ((Directive.define attr definition).exec c s)
      (record idleUndef [] (.directive (.define attr definition))) := by
  rw [record_of_prevails ⟨rfl, fun e he => absurd he List.not_mem_nil⟩]
  simp only [Directive.exec, doHandleDefine, lookupSymbol_macro_none h]
  refine ⟨{ nameSpace := .nsMacro, attr := attr, scope := c.fileScope, usedIn := none, definition := definition },
    by simp [bindSymbol, lookupSymbol_cons, nsMacroUndef], ⟨rfl, rfl, rfl⟩, rfl, fun e he => absurd he List.not_mem_nil, ?_⟩
  intro x hx hns
  rcases List.mem_cons.mp hx with rfl | hx
  · exact le_refl _
  · exact absurd (by simp [nsMacroUndef, hns]) (not_mem_of_lookupSymbol_none h hx)

/-- A definition that is not overlooking an undefinition follows the rule: what it is
compared with is the first symbol, or both are stronger, or neither is. -/
theorem agrees_define (h : Stands c s e past sym) (hclear : overlooks s (.define attr definition) = false) :
    Agrees c ((Directive.define attr definition).exec c s)
      (record idleUndef (e :: past) (.directive (.define attr definition))) := by
  have hcompared : ∀ old, lookupSymbol s.symbols [.nsMacro] = some old → (attr < old.attr ↔ attr < sym.attr) := by
    intro old hold
    have hmem := mem_of_lookupSymbol hold
    have hle := h.symbols_le old hmem.1 (by simpa using hmem.2)
    refine ⟨fun hlt => lt_of_lt_of_le hlt hle, fun hlt => ?_⟩
    rcases nameSpace_cases h.found with hns | hns
    · cases (lookupSymbol_macro_entry h.found hns).symm.trans hold
      exact hlt
    · simp only [overlooks, h.found, hold, hns, hlt, decide_true, Bool.and_self, Bool.true_and,
        decide_eq_false_iff_not] at hclear
      exact lt_of_not_ge hclear
  have hnone : lookupSymbol s.symbols [.nsMacro] = none → ¬attr < sym.attr := by
    intro hold hlt
    rcases nameSpace_cases h.found with hns | hns
    · cases (lookupSymbol_macro_entry h.found hns).symm.trans hold
    · simp [overlooks, h.found, hold, hns, hlt] at hclear
  have hprevails : Prevails idleUndef (e :: past) (.define attr definition) ↔ sym.attr ≤ attr := h.prevails_iff
  by_cases hlt : attr < sym.attr
  · rw [record_of_not_prevails fun hp => not_le_of_gt hlt (hprevails.mp hp)]
    cases hold : lookupSymbol s.symbols [.nsMacro] with
    | none => exact absurd hlt (hnone hold)
    | some old =>
      simp only [Directive.exec, doHandleDefine, hold, if_pos ((hcompared old hold).mpr hlt)]
      exact ⟨sym, h⟩
  · have hle : sym.attr ≤ attr := not_lt.mp hlt
    rw [record_of_prevails (hprevails.mpr hle)]
    cases hold : lookupSymbol s.symbols [.nsMacro] with
    | none =>
      simp only [Directive.exec, doHandleDefine, hold]
      exact ⟨_, h.bind hle⟩
    | some old =>
      simp only [Directive.exec, doHandleDefine, hold, if_neg fun hlt' => hlt ((hcompared old hold).mp hlt')]
      exact ⟨_, (h.congr (warnRedefined_symbols s old definition attr)).bind hle⟩

/-- An undefinition of a name without a symbol leaves one only if it is strong. -/
theorem agrees_first_undef (h : Agrees c s []) :
    Agrees c ((Directive.undef attr).exec c s) (record idleUndef [] (.directive (.undef attr))) := by
  by_cases hnormal : attr ≤ .normal
  · rw [record_of_not_prevails fun hp => by simp [Prevails, idleUndef, hnormal] at hp]
    simp only [Directive.exec, doHandleUndef, show lookupSymbol s.symbols nsMacroUndef = none from h, if_pos hnormal]
    exact h
  · rw [record_of_prevails ⟨by simp [idleUndef, hnormal], fun e he => absurd he List.not_mem_nil⟩]
    simp only [Directive.exec, doHandleUndef, show lookupSymbol s.symbols nsMacroUndef = none from h, if_neg hnormal]
    refine ⟨{ nameSpace := .nsUndef, attr := attr, scope := c.fileScope, usedIn := none
              definition := { arglist := none, expansion := [] } },
      by simp [undefineSymbol, bindSymbol, setSymbol, lookupSymbol_cons, nsMacroUndef], ⟨rfl, rfl⟩, rfl,
      fun e he => absurd he List.not_mem_nil, ?_⟩
    intro x hx hns
    simp only [undefineSymbol, bindSymbol, setSymbol, nsMacroUndef, List.mem_cons, true_or, if_true] at hx
    rcases hx with rfl | hx
    · exact le_refl _
    · exact absurd (by simp [nsMacroUndef, hns]) (not_mem_of_lookupSymbol_none h hx)

theorem agrees_undef (h : Stands c s e past sym) :
    Agrees c ((Directive.undef attr).exec c s) (record idleUndef (e :: past) (.directive (.undef attr))) := by
  have hprevails : Prevails idleUndef (e :: past) (.undef attr) ↔ sym.attr ≤ attr := h.prevails_iff
  by_cases hlt : attr < sym.attr
  · rw [record_of_not_prevails fun hp => not_le_of_gt hlt (hprevails.mp hp)]
    simp only [Directive.exec, doHandleUndef, h.found, if_pos hlt]
    exact ⟨sym, h⟩
  · have hle : sym.attr ≤ attr := not_lt.mp hlt
    rw [record_of_prevails (hprevails.mpr hle)]
    by_cases hsame : attr = sym.attr ∧ sym.nameSpace = .nsUndef
    · simp only [Directive.exec, doHandleUndef, h.found, if_neg hlt, if_pos hsame]
      exact ⟨sym, h.found, ⟨hsame.2, hsame.1.symm⟩, h.scope, h.past_le_cons hle, h.symbols_le⟩
    · simp only [Directive.exec, doHandleUndef, h.found, if_neg hlt, if_neg hsame]
      exact ⟨_, h.undefine hle⟩

/-- A test only notes the file that uses the macro. -/
theorem agrees_test (h : Agrees c s past) : Agrees c (tokenDefined c s).1 past := by
  cases hfound : lookupMacro s.symbols with
  | none =>
    simp only [tokenDefined, hfound]
    exact h
  | some used =>
    simp only [tokenDefined, hfound]
    cases past with
    | nil =>
      rw [lookupMacro, show lookupSymbol s.symbols nsMacroUndef = none from h] at hfound
      cases hfound
    | cons e past =>
      obtain ⟨sym, h⟩ := h
      refine ⟨{ sym with usedIn := some c.fileScope }, ?_, ?_, h.scope, h.past_le, ?_⟩
      · exact lookupSymbol_setSymbol _ h.found (mem_of_lookupSymbol h.found).2
      · cases e with
        | define attr definition => exact h.shows
        | undef attr => exact h.shows
      · intro x hx hns
        rcases mem_setSymbol _ h.found hx with rfl | hx
        · exact le_refl _
        · exact h.symbols_le x hx hns

/-! ## Runs -/

theorem agrees_directive (h : Agrees c s past) (hclear : overlooks s d = false) :
    Agrees c (d.exec c s) (record idleUndef past (.directive d)) := by
  cases past with
  | nil =>
    cases d with
    | define attr definition => exact agrees_first_define h
    | undef attr => exact agrees_first_undef h
  | cons e past =>
    obtain ⟨sym, h⟩ := h
    cases d with
    | define attr definition => exact agrees_define h hclear
    | undef attr => exact agrees_undef h

theorem agrees_line {line : Line τ} (h : Agrees c s past) (hclear : line.overlooks s = false) :
    Agrees c (line.exec c s) (record idleUndef past line) := by
  cases line with
  | directive d => exact agrees_directive h hclear
  | test => exact agrees_test h

theorem run_agrees {lines : List (Line τ)} (h : Agrees c s past) (hclear : clear c s lines) :
    Agrees c (run c s lines) (lines.foldl (record idleUndef) past) := by
  induction lines generalizing s past with
  | nil => exact h
  | cons line lines ih =>
    simp only [clear, Bool.and_eq_true, Bool.not_eq_true'] at hclear
    exact ih (agrees_line h hclear.1) hclear.2

theorem clear_append {lines more : List (Line τ)} (h : clear c s (lines ++ more)) : clear c s lines := by
  induction lines generalizing s with
  | nil => rfl
  | cons line lines ih =>
    simp only [List.cons_append, clear, Bool.and_eq_true] at h ⊢
    exact ⟨h.1, ih h.2⟩

theorem Agrees.yields (h : Agrees c s past) :
    (lookupMacro s.symbols).map Symbol.definition = past.head?.bind Directive.result := by
  cases past with
  | nil =>
    rw [lookupMacro, show lookupSymbol s.symbols nsMacroUndef = none from h]
    rfl
  | cons e past =>
    obtain ⟨sym, h⟩ := h
    rw [lookupMacro_eq h.found]
    exact h.shows.definition_eq

/-- After a directive the chain shows whether it took effect. -/
theorem Agrees.inForce_iff (h : Agrees c s (record idleUndef past (.directive d))) :
    InForce s d ↔ Prevails idleUndef past d := by
  by_cases hp : Prevails idleUndef past d
  · rw [record_of_prevails hp] at h
    obtain ⟨sym, h⟩ := h
    exact iff_of_true h.inForce hp
  · rw [record_of_not_prevails hp] at h
    refine iff_of_false ?_ hp
    rintro ⟨first, hfirst, hattr, -⟩
    cases past with
    | nil => cases hfirst.symm.trans h
    | cons e past =>
      obtain ⟨sym, h⟩ := h
      cases hfirst.symm.trans h.found
      exact hp (h.prevails_iff.mpr hattr.le)

/-- From a chain without a macro, in every run in which no definition overlooks a
stronger undefinition, a directive takes effect if and only if it is not the `#undef` of a
name that has not been touched and no effective directive of greater strength
precedes it, and `lookup_macro` yields what the last effective directive left. -/
theorem run_follows_strength (hs : lookupSymbol s.symbols nsMacroUndef = none) {lines : List (Line τ)}
    (hclear : clear c s lines) :
    YieldsLast c idleUndef s lines ∧
      ∀ before d after, lines = before ++ .directive d :: after →
        (InForce (run c s (before ++ [.directive d])) d ↔ Prevails idleUndef (effective idleUndef before) d) := by
  refine ⟨(@run_agrees _ c s [] _ hs hclear).yields, ?_⟩
  rintro before d after rfl
  rw [List.append_cons] at hclear
  have hagrees := @run_agrees _ c s [] _ hs (clear_append hclear)
  rw [List.foldl_append] at hagrees
  exact hagrees.inForce_iff

/-- An overlooked undefinition is where the rule ends: the definition takes effect though
it does not prevail. -/
theorem overlooking_define (h : Agrees c s past) (hover : overlooks s d = true) :
    InForce (d.exec c s) d ∧ ¬Prevails idleUndef past d := by
  cases d with
  | undef attr => cases hover
  | define attr definition =>
    cases past with
    | nil => simp [overlooks, show lookupSymbol s.symbols nsMacroUndef = none from h] at hover
    | cons e past =>
      obtain ⟨sym, h⟩ := h
      simp only [overlooks, h.found, Bool.and_eq_true, decide_eq_true_eq] at hover
      obtain ⟨⟨-, hlt⟩, hold⟩ := hover
      refine ⟨?_, fun hp => not_le_of_gt hlt (h.prevails_iff.mp hp)⟩
      cases hfound : lookupSymbol s.symbols [.nsMacro] with
      | none =>
        simp [InForce, Directive.exec, doHandleDefine, hfound, bindSymbol, lookupSymbol_cons, lookupMacro,
          nsMacroUndef, Directive.attr, Directive.result]
      | some old =>
        have hle : ¬attr < old.attr := by simpa [hfound] using hold
        simp [InForce, Directive.exec, doHandleDefine, hfound, if_neg hle, bindSymbol, lookupSymbol_cons, lookupMacro,
          nsMacroUndef, Directive.attr, Directive.result]

section Witness

/-- The name `N` in the file of scope 1. -/
def nameN : Context ℕ where
  name := "N"
  fileScope := 1
  tokenDifferent a b := a ≠ b

/-- An object-like macro of one token. -/
def object (token : ℕ) : Definition ℕ where
  arglist := none
  expansion := [token]

def unbound : State ℕ where
  symbols := []
  messages := []

/-- A strong undefinition between definitions of growing and falling strength. -/
def strongLines : List (Line ℕ) :=
  [.directive (.define .weak (object 1)), .directive (.define .normal (object 2)), .test,
    .directive (.undef .strong), .directive (.define .strong (object 3)), .directive (.define .normal (object 4))]

theorem run_follows_strength_strongLines :
    YieldsLast nameN idleUndef unbound strongLines ∧
      ∀ before d after, strongLines = before ++ .directive d :: after →
        (InForce (run nameN unbound (before ++ [.directive d])) d ↔
          Prevails idleUndef (effective idleUndef before) d) :=
  run_follows_strength rfl (by decide)

/-- A weak definition takes effect after a `#undef` of the name, which was not defined. -/
theorem not_yieldsLast_undef :
    ¬∀ lines : List (Line ℕ), YieldsLast nameN neverIdle unbound lines := by
  intro h
  have hweak := h [.directive (.undef .normal), .directive (.define .weak (object 1))]
  revert hweak
  unfold YieldsLast
  decide

end Witness

end Sparse.MacroStrength
