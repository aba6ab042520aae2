import Sparse.LiveTokens

/-!
# The collection of arguments

An invocation is right when the tokens up to the matching parenthesis, all of one file, split at
their top-level commas into as many arguments as the macro takes. `collect_arguments` takes the
mark at the end of a file for a comma as long as parameters remain, at any depth of parentheses:
`f(a` at the end of a file and `b)` behind the `#include` are two arguments.
-/

namespace Sparse.MacroExpansion

/-! ## Right invocations -/

/-- The depth of parentheses behind the tokens, or none if one closes nothing. -/
def depth : ℕ → List Tok → Option ℕ
  | n, [] => some n
  | n, t :: ts =>
    if t.matchOp '(' then depth (n + 1) ts
    else if t.matchOp ')' then if n = 0 then none else depth (n - 1) ts
    else depth n ts

/-- The tokens of one file between two commas: parentheses are balanced, and a comma between them
stands in the last argument of a variadic macro only. -/
structure IsArgument (vararg : Bool) (part : List Tok) : Prop where
  inFile : ∀ t ∈ part, t.isStreamMark = false
  balanced : depth 0 part = some 0
  inner : vararg = true ∨ ∀ before t, before ++ [t] <+: part → t.matchOp ',' = true → depth 0 before ≠ some 0

/-- The tokens behind `(`, through the matching `)`, are the arguments of the parameters. -/
inductive Splits : List Param → List Tok → List (Option (List Tok)) → Prop
  | none {close} (closes : close.matchOp ')' = true) : Splits [] [close] []
  | last {p part close} (argument : IsArgument p.vararg part) (closes : close.matchOp ')' = true) :
      Splits [p] (part ++ [close]) [some part]
  | absent {p q part close} (argument : IsArgument p.vararg part) (closes : close.matchOp ')' = true)
      (variadic : q.vararg = true) : Splits [p, q] (part ++ [close]) [some part, none]
  | more {p q params part comma toks parts} (argument : IsArgument p.vararg part)
      (separates : comma.matchOp ',' = true) (fixed : p.vararg = false)
      (behind : Splits (q :: params) toks parts) :
      Splits (p :: q :: params) (part ++ comma :: toks) (some part :: parts)

/-- `args[i]` is the `i`-th part. -/
def bind (place : Place) (params : List Param) (parts : List (Option (List Tok))) : List Arg :=
  List.zipWith (fun p part => p.toArg (part.map (placed place))) params parts

section Collection

variable (c : Context) (expandOne : ExpandOne)

/-- The list behind the token where a collection stops, and the state there. -/
inductive Stopped (u : Cursor) (s : State) (list : List Tok) : List Tok → State → Prop
  | read {toks stop rest s'} (delivers : Delivers c expandOne u s list (toks ++ [stop]) rest s')
      (stops : stop.matchOp ')' = true ∨ stop.isStreamMark = true) : Stopped u s list rest s'
  | ended {toks rest s₁ rest' s'} (delivers : Delivers c expandOne u s list toks rest s₁)
      (live : Live c expandOne (toks.foldl Cursor.next u).stream s₁ rest none rest' s') : Stopped u s list [] s'

/-- The live stream comes to an end behind the tokens. -/
def EndsAfter (u : Cursor) (s : State) (list toks : List Tok) : Prop :=
  ∃ rest s₁ rest' s', Delivers c expandOne u s list toks rest s₁ ∧
    Live c expandOne (toks.foldl Cursor.next u).stream s₁ rest none rest' s'

variable (name : List UInt8) (place : Place) (params : List Param) (s : State) (start : Tok) (list : List Tok)

/-- `collect_arguments` succeeds on the right invocations with their arguments and reports an error
otherwise. -/
structure CollectsRight : Prop where
  collects : ∀ toks parts rest s', Delivers c expandOne ⟨params, start, 0⟩ s list toks rest s' →
    Splits params toks parts → ∃ n, ∀ fuel ≥ n,
      collectArguments c expandOne name place params fuel s start list = some (some (bind place params parts), rest, s')
  only : ∀ fuel args rest s',
    collectArguments c expandOne name place params fuel s start list = some (some args, rest, s') →
      ∃ toks parts, Delivers c expandOne ⟨params, start, 0⟩ s list toks rest s' ∧ Splits params toks parts ∧
        args = bind place params parts
  otherwise : ∀ fuel rest s',
    collectArguments c expandOne name place params fuel s start list = some (none, rest, s') →
      ∃ s₁ complaint, Stopped c expandOne ⟨params, start, 0⟩ s list rest s₁ ∧ s' = s₁.sparseError place complaint
  returns : ∀ toks, EndsAfter c expandOne ⟨params, start, 0⟩ s list toks → ∃ n, ∀ fuel ≥ n,
    (collectArguments c expandOne name place params fuel s start list).isSome = true

end Collection

/-! ## What the code takes -/

/-- As the code splits the tokens: an argument ends at whatever stops it. -/
inductive Takes : List Param → List Tok → List (Option (List Tok)) → Prop
  | none {close} (closes : close.matchOp ')' = true) : Takes [] [close] []
  | last {p part close} (runs : Runs p.vararg 0 part close) (closes : close.matchOp ')' = true) :
      Takes [p] (part ++ [close]) [some part]
  | absent {p q part close} (runs : Runs p.vararg 0 part close) (closes : close.matchOp ')' = true)
      (variadic : q.vararg = true) : Takes [p, q] (part ++ [close]) [some part, none]
  | more {p q params part stop toks parts} (runs : Runs p.vararg 0 part stop)
      (separates : stop.matchOp ')' = false) (behind : Takes (q :: params) toks parts) :
      Takes (p :: q :: params) (part ++ stop :: toks) (some part :: parts)

/-! ## Arguments without file marks -/

theorem Tok.isStreamMark_of_matchOp {t : Tok} {op : Char} (h : t.matchOp op = true) : t.isStreamMark = false := by
  have hkind : t.kind = .value (.special op.toNat) := of_decide_eq_true h
  simp [isStreamMark, hkind]

theorem Tok.comma_of_close {t : Tok} (h : t.matchOp ')' = true) : t.matchOp ',' = false := by
  have hkind : t.kind = .value (.special ')'.toNat) := of_decide_eq_true h
  simp [matchOp, hkind]

theorem depth_cons (n : ℕ) (t : Tok) (ts : List Tok) :
    depth n (t :: ts) = if t.matchOp ')' = true ∧ n = 0 then none else depth (t.nest n) ts := by
  rw [depth, Tok.nest]
  cases hopen : t.matchOp '('
  · cases hclose : t.matchOp ')' <;> simp
  · have hkind : t.kind = .value (.special '('.toNat) := of_decide_eq_true hopen
    simp [Tok.matchOp, hkind]

/-- The tokens of a list with those in front of them. -/
theorem forall_prefix_cons {P : List Tok → Tok → Prop} {x : Tok} {xs : List Tok} :
    (∀ before t, before ++ [t] <+: x :: xs → P before t) ↔
      P [] x ∧ ∀ before t, before ++ [t] <+: xs → P (x :: before) t := by
  constructor
  · intro h
    exact ⟨h [] x (by simp), fun before t hbefore => h (x :: before) t (List.cons_prefix_cons.mpr ⟨rfl, hbefore⟩)⟩
  · rintro ⟨hhead, htail⟩ before t hbefore
    cases before with
    | nil =>
      obtain ⟨rfl, -⟩ := List.cons_prefix_cons.mp hbefore
      exact hhead
    | cons y before =>
      obtain ⟨rfl, hinner⟩ := List.cons_prefix_cons.mp hbefore
      exact htail before t hinner

/-- Within a file the code ends an argument where it should. -/
theorem runs_iff {vararg : Bool} {n : ℕ} {part : List Tok} {stop : Tok}
    (hstop : stop.matchOp ')' = true ∨ (stop.matchOp ',' = true ∧ vararg = false))
    (hfile : ∀ t ∈ part, t.isStreamMark = false) :
    Runs vararg n part stop ↔ depth n part = some 0 ∧
      (vararg = true ∨ ∀ before t, before ++ [t] <+: part → t.matchOp ',' = true → depth n before ≠ some 0) := by
  induction part generalizing n with
  | nil =>
    have hmark : stop.isStreamMark = false := hstop.elim Tok.isStreamMark_of_matchOp fun h =>
      Tok.isStreamMark_of_matchOp h.1
    rw [Runs, stops_iff hmark]
    simp [depth]
    grind
  | cons t part ih =>
    obtain ⟨hmark, hfile⟩ := List.forall_mem_cons.mp hfile
    rw [Runs, ← Bool.not_eq_true, stops_iff hmark, ih hfile, forall_prefix_cons]
    simp only [depth_cons, Bool.and_eq_true, decide_eq_true_eq]
    by_cases hclose : t.matchOp ')' = true ∧ n = 0
    · simp [hclose]
    · have hnil : depth n [] = some n := rfl
      simp only [hclose, if_false, hnil, false_or, Bool.not_eq_true']
      grind

theorem Splits.takes {params : List Param} {toks : List Tok} {parts : List (Option (List Tok))}
    (h : Splits params toks parts) : Takes params toks parts := by
  induction h with
  | none closes => exact .none closes
  | last argument closes =>
    exact .last ((runs_iff (.inl closes) argument.inFile).mpr ⟨argument.balanced, argument.inner⟩) closes
  | absent argument closes variadic =>
    exact .absent ((runs_iff (.inl closes) argument.inFile).mpr ⟨argument.balanced, argument.inner⟩) closes variadic
  | more argument separates fixed behind ih =>
    have hruns := (runs_iff (.inr ⟨separates, fixed⟩) argument.inFile).mpr ⟨argument.balanced, argument.inner⟩
    refine .more hruns ?_ ih
    rw [← Bool.not_eq_true]
    intro hclose
    rw [Tok.comma_of_close hclose] at separates
    cases separates

theorem Splits.inFile {params : List Param} {toks : List Tok} {parts : List (Option (List Tok))}
    (h : Splits params toks parts) : ∀ t ∈ toks, t.isStreamMark = false := by
  have hmore : ∀ {part toks : List Tok} {stop : Tok} {op : Char}, (∀ t ∈ part, t.isStreamMark = false) →
      stop.matchOp op = true → (∀ t ∈ toks, t.isStreamMark = false) →
        ∀ t ∈ part ++ stop :: toks, t.isStreamMark = false := by
    intro part toks stop op hpart hstop htoks
    exact List.forall_mem_append.mpr ⟨hpart, List.forall_mem_cons.mpr ⟨Tok.isStreamMark_of_matchOp hstop, htoks⟩⟩
  induction h with
  | none closes => exact hmore (List.forall_mem_nil _) closes (by simp)
  | last argument closes => exact hmore argument.inFile closes (by simp)
  | absent argument closes variadic => exact hmore argument.inFile closes (by simp)
  | more argument separates fixed behind ih => exact hmore argument.inFile separates ih

/-- The token that ends an argument in its file is a parenthesis or a comma. -/
theorem Runs.stop_eq {vararg : Bool} {n : ℕ} {part : List Tok} {stop : Tok} (h : Runs vararg n part stop)
    (hmark : stop.isStreamMark = false) : stop.matchOp ')' = true ∨ (stop.matchOp ',' = true ∧ vararg = false) := by
  induction part generalizing n with
  | nil =>
    have hstop := (stops_iff hmark).mp h
    simp only [Bool.and_eq_true, Bool.not_eq_true'] at hstop
    exact hstop.imp (fun h => h.1) fun h => ⟨h.1.1, h.2⟩
  | cons t part ih => exact ih h.2

theorem Runs.isArgument {vararg : Bool} {part : List Tok} {stop : Tok} (h : Runs vararg 0 part stop)
    (hmark : stop.isStreamMark = false) (hfile : ∀ t ∈ part, t.isStreamMark = false) : IsArgument vararg part := by
  obtain ⟨hbalanced, hinner⟩ := (runs_iff (h.stop_eq hmark) hfile).mp h
  exact ⟨hfile, hbalanced, hinner⟩

/-- Without file marks the code splits the tokens as it should. -/
theorem Takes.splits {params : List Param} {toks : List Tok} {parts : List (Option (List Tok))}
    (h : Takes params toks parts) (hfile : ∀ t ∈ toks, t.isStreamMark = false) : Splits params toks parts := by
  induction h with
  | none closes => exact .none closes
  | last runs closes =>
    obtain ⟨hpart, -⟩ := List.forall_mem_append.mp hfile
    exact .last (runs.isArgument (Tok.isStreamMark_of_matchOp closes) hpart) closes
  | absent runs closes variadic =>
    obtain ⟨hpart, -⟩ := List.forall_mem_append.mp hfile
    exact .absent (runs.isArgument (Tok.isStreamMark_of_matchOp closes) hpart) closes variadic
  | more runs separates behind ih =>
    obtain ⟨hpart, hrest⟩ := List.forall_mem_append.mp hfile
    obtain ⟨hstop, htoks⟩ := List.forall_mem_cons.mp hrest
    obtain hclose | ⟨hcomma, hfixed⟩ := runs.stop_eq hstop
    · rw [hclose] at separates
      cases separates
    · exact .more (runs.isArgument hstop hpart) hcomma hfixed (ih htoks)

/-! ## Runs that succeed -/

section Collection

variable {c : Context} {expandOne : ExpandOne} {name : List UInt8} {place : Place} {s s' : State} {start : Tok}
  {list rest : List Tok}

/-- `collect_arg` takes the argument at the front of the live stream. -/
theorem collectArg_of_delivers (place : Place) {params : List Param} {part toks : List Tok} {stop : Tok}
    (hdelivers : Delivers c expandOne ⟨params, start, 0⟩ s list (part ++ stop :: toks) rest s')
    (hruns : Runs (params.head?.any Param.vararg) 0 part stop) :
    ∃ list' s₁, Delivers c expandOne ⟨params.tail, stop, 0⟩ s₁ list' toks rest s' ∧ ∃ n, ∀ fuel ≥ n,
      collectArg c expandOne (params.head?.any Param.vararg) place start.place.stream fuel 0 s list =
        some (placed place part, some stop, list', s₁) := by
  obtain ⟨list', s₁, hpart, hrest⟩ := hdelivers.part hruns
  exact ⟨list', s₁, hrest, collectArg_of_part hpart⟩

/-- The loop collects what the code takes. -/
theorem collectParams_of_takes {wanted : ℕ} {params : List Param} {toks : List Tok}
    {parts : List (Option (List Tok))} (h : Takes params toks parts) (hparams : params ≠ [])
    (hdelivers : Delivers c expandOne ⟨params, start, 0⟩ s list toks rest s') :
    ∃ n, ∀ fuel ≥ n, ∀ args, collectParams c expandOne name place wanted fuel params args s start list =
      some (some (args ++ bind place params parts), rest, s') := by
  induction h generalizing start s list with
  | none closes => exact absurd rfl hparams
  | last runs closes =>
    obtain ⟨list', s₁, hrest, n, hn⟩ := collectArg_of_delivers place hdelivers runs
    cases hrest
    refine ⟨n, fun fuel hfuel args => ?_⟩
    have hcollect := hn fuel hfuel
    simp only [List.head?_cons, Option.any_some] at hcollect
    simp [collectParams, hcollect, closes, bind]
  | absent runs closes variadic =>
    obtain ⟨list', s₁, hrest, n, hn⟩ := collectArg_of_delivers place hdelivers runs
    cases hrest
    refine ⟨n, fun fuel hfuel args => ?_⟩
    have hcollect := hn fuel hfuel
    simp only [List.head?_cons, Option.any_some] at hcollect
    simp [collectParams, hcollect, closes, variadic, bind]
  | more runs separates behind ih =>
    obtain ⟨list', s₁, hrest, n, hn⟩ := collectArg_of_delivers place hdelivers runs
    obtain ⟨m, hm⟩ := ih (List.cons_ne_nil _ _) hrest
    refine ⟨max n m, fun fuel hfuel args => ?_⟩
    have hcollect := hn fuel (le_trans (le_max_left n m) hfuel)
    have hloop := hm fuel (le_trans (le_max_right n m) hfuel)
    simp only [List.head?_cons, Option.any_some] at hcollect
    rw [collectParams, hcollect]
    simp [separates, hloop, bind]

/-- `collect_arguments` collects what the code takes. -/
theorem collectArguments_of_takes {params : List Param} {toks : List Tok} {parts : List (Option (List Tok))}
    (h : Takes params toks parts) (hdelivers : Delivers c expandOne ⟨params, start, 0⟩ s list toks rest s') :
    ∃ n, ∀ fuel ≥ n, collectArguments c expandOne name place params fuel s start list =
      some (some (bind place params parts), rest, s') := by
  cases params with
  | nil =>
    cases h with
    | none closes =>
      rename_i close
      have hdelivers : Delivers c expandOne ⟨[], start, 0⟩ s list ([] ++ close :: []) rest s' := hdelivers
      have hruns : Runs (([] : List Param).head?.any Param.vararg) 0 [] close :=
        (stops_iff (Tok.isStreamMark_of_matchOp closes)).mpr (.inl (by simp [closes]))
      obtain ⟨list', s₁, hrest, n, hn⟩ := collectArg_of_delivers place hdelivers hruns
      cases hrest
      refine ⟨n, fun fuel hfuel => ?_⟩
      have hcollect := hn fuel hfuel
      simp only [List.head?_nil, Option.any_none] at hcollect
      simp [collectArguments, hcollect, closes, bind, placed]
  | cons p params =>
    obtain ⟨n, hn⟩ := collectParams_of_takes h (List.cons_ne_nil p params) hdelivers
    exact ⟨n, fun fuel hfuel => hn fuel hfuel []⟩

/-! ## What a run has done -/

theorem tooMany_none {wanted fuel count : ℕ} {next : Tok} {args : Option (List Arg)}
    (h : tooMany c expandOne name place wanted fuel count s next list = some (args, rest, s')) : args = none := by
  induction fuel generalizing s count next list with
  | zero => cases h
  | succ fuel ih =>
    rw [tooMany] at h
    split at h
    · obtain ⟨⟨arg, next', rest', s₁⟩, -, hrun⟩ := Option.bind_eq_some_iff.mp h
      cases next' with
      | none =>
        simp only [Option.some.injEq, Prod.mk.injEq] at hrun
        exact hrun.1.symm
      | some next' => exact ih hrun
    · simp only [Option.some.injEq, Prod.mk.injEq] at h
      exact h.1.symm

/-- The loop that has collected something has taken it from the live stream. -/
theorem takes_of_collectParams {wanted fuel : ℕ} {params : List Param} {args out : List Arg}
    (h : collectParams c expandOne name place wanted fuel params args s start list = some (some out, rest, s')) :
    ∃ toks parts, Delivers c expandOne ⟨params, start, 0⟩ s list toks rest s' ∧ Takes params toks parts ∧
      out = args ++ bind place params parts := by
  induction params generalizing s start list args with
  | nil => exact absurd (tooMany_none h) (Option.some_ne_none out)
  | cons p params ih =>
    rw [collectParams] at h
    obtain ⟨⟨arg, next, list₁, s₁⟩, hcollect, hrun⟩ := Option.bind_eq_some_iff.mp h
    obtain ⟨part, rfl, hpart⟩ := part_of_collectArg hcollect
    cases next with
    | none => simp at hrun
    | some stop =>
      have hpart : Part c expandOne (Cursor.vararg ⟨p :: params, start, 0⟩) (Cursor.stream ⟨p :: params, start, 0⟩) 0
        s list part (some stop) list₁ s₁ := hpart
      obtain ⟨hdelivers, hruns, hcursor⟩ := hpart.delivers
      dsimp only at hrun
      split at hrun
      · rename_i hclose
        cases params with
        | nil =>
          simp only [Option.some.injEq, Prod.mk.injEq] at hrun
          obtain ⟨rfl, rfl, rfl⟩ := hrun
          exact ⟨_, _, hdelivers, .last hruns hclose, rfl⟩
        | cons q params =>
          cases params with
          | cons r params => simp at hrun
          | nil =>
            dsimp only at hrun
            split at hrun
            · rename_i hvararg
              simp only [Option.some.injEq, Prod.mk.injEq] at hrun
              obtain ⟨rfl, rfl, rfl⟩ := hrun
              exact ⟨_, _, hdelivers, .absent hruns hclose hvararg, by simp [bind]⟩
            · simp at hrun
      · rename_i hclose
        obtain ⟨toks, parts, hbehind, htakes, rfl⟩ := ih hrun
        cases params with
        | nil => exact absurd (tooMany_none hrun) (Option.some_ne_none _)
        | cons q params =>
          refine ⟨part ++ stop :: toks, some part :: parts, ?_, .more hruns (Bool.not_eq_true _ ▸ hclose) htakes,
            by simp [bind]⟩
          have hjoin := hdelivers.append (hcursor ▸ hbehind)
          rwa [List.append_assoc] at hjoin

theorem takes_of_collectArguments {fuel : ℕ} {params : List Param} {args : List Arg}
    (h : collectArguments c expandOne name place params fuel s start list = some (some args, rest, s')) :
    ∃ toks parts, Delivers c expandOne ⟨params, start, 0⟩ s list toks rest s' ∧ Takes params toks parts ∧
      args = bind place params parts := by
  rw [collectArguments] at h
  cases params with
  | cons p params => simpa using takes_of_collectParams h
  | nil =>
    obtain ⟨⟨arg, next, list₁, s₁⟩, hcollect, hrun⟩ := Option.bind_eq_some_iff.mp h
    obtain ⟨part, rfl, hpart⟩ := part_of_collectArg hcollect
    cases next with
    | none => simp at hrun
    | some stop =>
      have hpart : Part c expandOne (Cursor.vararg ⟨[], start, 0⟩) (Cursor.stream ⟨[], start, 0⟩) 0 s list part
        (some stop) list₁ s₁ := hpart
      dsimp only at hrun
      split at hrun
      · exact absurd (tooMany_none hrun) (Option.some_ne_none args)
      · rename_i hempty
        obtain ⟨hpart', hclose⟩ : part = [] ∧ stop.matchOp ')' = true := by simpa [placed] using hempty
        simp only [Option.some.injEq, Prod.mk.injEq] at hrun
        obtain ⟨rfl, rfl, rfl⟩ := hrun
        subst hpart'
        exact ⟨_, _, hpart.delivers.1, .none hclose, rfl⟩

/-! ## Errors -/

section Errors

variable {u : Cursor} {s₀ : State} {list₀ toks : List Tok} {params : List Param}

/-- The tokens that stop an argument somewhere. -/
theorem Runs.stop_kind {vararg : Bool} {n : ℕ} {part : List Tok} {stop : Tok} (h : Runs vararg n part stop) :
    stop.matchOp ',' = true ∨ stop.matchOp ')' = true ∨ stop.isStreamMark = true := by
  cases hmark : stop.isStreamMark
  · obtain hclose | ⟨hcomma, -⟩ := h.stop_eq hmark
    · exact .inr (.inl hclose)
    · exact .inl hcomma
  · exact .inr (.inr rfl)

/-- One more argument has been read, through the token that ends it. -/
theorem Delivers.collectArg {fuel : ℕ} {arg : List Tok} {stop : Tok} (h : Delivers c expandOne u s₀ list₀ toks list s)
    (hcursor : toks.foldl Cursor.next u = ⟨params, start, 0⟩)
    (hcollect : MacroExpansion.collectArg c expandOne (params.head?.any Param.vararg) place start.place.stream fuel 0 s
      list = some (arg, some stop, rest, s')) :
    ∃ toks', Delivers c expandOne u s₀ list₀ (toks' ++ [stop]) rest s' ∧
      (toks' ++ [stop]).foldl Cursor.next u = ⟨params.tail, stop, 0⟩ ∧
        (stop.matchOp ',' = true ∨ stop.matchOp ')' = true ∨ stop.isStreamMark = true) := by
  obtain ⟨part, -, hpart⟩ := part_of_collectArg hcollect
  have hpart : Part c expandOne (toks.foldl Cursor.next u).vararg (toks.foldl Cursor.next u).stream
      (toks.foldl Cursor.next u).nesting s list part (some stop) rest s' := by
    rw [hcursor]
    exact hpart
  obtain ⟨hdelivers, hruns, hnext⟩ := hpart.delivers
  refine ⟨toks ++ part, ?_, ?_, hruns.stop_kind⟩
  · rw [List.append_assoc]
    exact h.append hdelivers
  · rw [List.append_assoc, List.foldl_append, hnext, hcursor]

/-- The list has ended in an argument. -/
theorem Delivers.stopped {fuel : ℕ} {arg : List Tok} (h : Delivers c expandOne u s₀ list₀ toks list s)
    (hcursor : toks.foldl Cursor.next u = ⟨params, start, 0⟩)
    (hcollect : MacroExpansion.collectArg c expandOne (params.head?.any Param.vararg) place start.place.stream fuel 0 s
      list = some (arg, none, rest, s')) : Stopped c expandOne u s₀ list₀ rest s' := by
  obtain ⟨part, -, hpart⟩ := part_of_collectArg hcollect
  have hpart : Part c expandOne (toks.foldl Cursor.next u).vararg (toks.foldl Cursor.next u).stream
      (toks.foldl Cursor.next u).nesting s list part none rest s' := by
    rw [hcursor]
    exact hpart
  obtain ⟨rfl, rest₁, s₁, rest₂, hdelivers, hlive⟩ := hpart.delivers_ended
  rw [← List.foldl_append] at hlive
  exact .ended (h.append hdelivers) hlive

theorem stopped_of_tooMany {wanted fuel count : ℕ} {next : Tok} {args : Option (List Arg)}
    (hdelivers : Delivers c expandOne u s₀ list₀ (toks ++ [next]) list s)
    (hcursor : (toks ++ [next]).foldl Cursor.next u = ⟨[], next, 0⟩)
    (hkind : next.matchOp ',' = true ∨ next.matchOp ')' = true ∨ next.isStreamMark = true)
    (h : tooMany c expandOne name place wanted fuel count s next list = some (args, rest, s')) :
    ∃ s₁ complaint, Stopped c expandOne u s₀ list₀ rest s₁ ∧ s' = s₁.sparseError place complaint := by
  induction fuel generalizing toks s count next list with
  | zero => cases h
  | succ fuel ih =>
    rw [tooMany] at h
    split at h
    · obtain ⟨⟨arg, next', list', s₁⟩, hcollect, hrun⟩ := Option.bind_eq_some_iff.mp h
      cases next' with
      | none =>
        simp only [Option.some.injEq, Prod.mk.injEq] at hrun
        obtain ⟨-, rfl, rfl⟩ := hrun
        exact ⟨_, _, hdelivers.stopped hcursor hcollect, rfl⟩
      | some next' =>
        obtain ⟨toks', hdelivers', hcursor', hkind'⟩ := hdelivers.collectArg hcursor hcollect
        exact ih hdelivers' hcursor' hkind' hrun
    · rename_i hcomma
      simp only [Option.some.injEq, Prod.mk.injEq] at h
      obtain ⟨-, rfl, rfl⟩ := h
      exact ⟨_, _, .read hdelivers (hkind.resolve_left hcomma), rfl⟩

theorem stopped_of_collectParams {wanted fuel : ℕ} {args : List Arg} (hparams : params ≠ [])
    (hdelivers : Delivers c expandOne u s₀ list₀ toks list s)
    (hcursor : toks.foldl Cursor.next u = ⟨params, start, 0⟩)
    (h : collectParams c expandOne name place wanted fuel params args s start list = some (none, rest, s')) :
    ∃ s₁ complaint, Stopped c expandOne u s₀ list₀ rest s₁ ∧ s' = s₁.sparseError place complaint := by
  induction params generalizing toks s start list args with
  | nil => exact absurd rfl hparams
  | cons p params ih =>
    rw [collectParams] at h
    obtain ⟨⟨arg, next, list₁, s₁⟩, hcollect, hrun⟩ := Option.bind_eq_some_iff.mp h
    cases next with
    | none =>
      simp only [Option.some.injEq, Prod.mk.injEq, true_and] at hrun
      obtain ⟨rfl, rfl⟩ := hrun
      exact ⟨_, _, hdelivers.stopped hcursor hcollect, rfl⟩
    | some stop =>
      obtain ⟨toks', hdelivers', hcursor', hkind⟩ := hdelivers.collectArg hcursor hcollect
      dsimp only at hrun
      split at hrun
      · rename_i hclose
        have hfew : ∀ {args : List Arg}, some ((none : Option (List Arg)), list₁,
            s₁.sparseError place (.tooFew name wanted args.length)) = some (none, rest, s') →
              ∃ s₁ complaint, Stopped c expandOne u s₀ list₀ rest s₁ ∧ s' = s₁.sparseError place complaint := by
          intro args h
          simp only [Option.some.injEq, Prod.mk.injEq, true_and] at h
          obtain ⟨rfl, rfl⟩ := h
          exact ⟨_, _, .read hdelivers' (.inl hclose), rfl⟩
        cases params with
        | nil => simp at hrun
        | cons q params =>
          cases params with
          | nil =>
            dsimp only at hrun
            split at hrun
            · simp at hrun
            · exact hfew hrun
          | cons r params => exact hfew hrun
      · cases params with
        | nil => exact stopped_of_tooMany hdelivers' hcursor' hkind hrun
        | cons q params => exact ih (List.cons_ne_nil q params) hdelivers' hcursor' hrun

theorem stopped_of_collectArguments {fuel : ℕ}
    (h : collectArguments c expandOne name place params fuel s start list = some (none, rest, s')) :
    ∃ s₁ complaint, Stopped c expandOne ⟨params, start, 0⟩ s list rest s₁ ∧ s' = s₁.sparseError place complaint := by
  rw [collectArguments] at h
  cases params with
  | cons p params => exact stopped_of_collectParams (List.cons_ne_nil p params) .nil rfl h
  | nil =>
    obtain ⟨⟨arg, next, list₁, s₁⟩, hcollect, hrun⟩ := Option.bind_eq_some_iff.mp h
    have hcursor : ([] : List Tok).foldl Cursor.next ⟨[], start, 0⟩ = ⟨[], start, 0⟩ := rfl
    cases next with
    | none =>
      simp only [Option.some.injEq, Prod.mk.injEq, true_and] at hrun
      obtain ⟨rfl, rfl⟩ := hrun
      exact ⟨_, _, Delivers.nil.stopped hcursor hcollect, rfl⟩
    | some stop =>
      obtain ⟨toks', hdelivers, hcursor', hkind⟩ := Delivers.nil.collectArg hcursor hcollect
      dsimp only at hrun
      split at hrun
      · exact stopped_of_tooMany hdelivers hcursor' hkind hrun
      · simp at hrun

end Errors

/-! ## The collection returns -/

section Returns

variable {u : Cursor} {params : List Param} {toks : List Tok}

/-- Where the live stream comes to an end, so does every argument. -/
theorem EndsAfter.part (h : EndsAfter c expandOne u s list toks) :
    ∃ part next rest s', Part c expandOne u.vararg u.stream u.nesting s list part next rest s' ∧
      ∀ stop, next = some stop → ∃ toks', toks'.length < toks.length ∧
        EndsAfter c expandOne ⟨u.params.tail, stop, 0⟩ s' rest toks' := by
  induction toks generalizing u s list with
  | nil =>
    obtain ⟨rest, s₁, rest', s', hdelivers, hlive⟩ := h
    cases hdelivers
    exact ⟨_, _, _, _, .eof hlive, fun stop hstop => absurd hstop.symm (Option.some_ne_none stop)⟩
  | cons t toks ih =>
    obtain ⟨rest, s₁, rest', s', hdelivers, hend⟩ := h
    cases hdelivers with
    | cons live more =>
      rename_i list' s₂
      have hbehind : EndsAfter c expandOne (u.next t) s₂ list' toks := ⟨rest, s₁, rest', s', more, hend⟩
      cases hstops : stops u.vararg u.nesting t
      · rw [Cursor.next_of_not_stops hstops] at hbehind
        obtain ⟨part, next, rest, s', hpart, hnext⟩ := ih hbehind
        refine ⟨t :: part, next, rest, s', .more live hstops hpart, fun stop hstop => ?_⟩
        obtain ⟨toks', hlt, hends⟩ := hnext stop hstop
        exact ⟨toks', hlt.trans (Nat.lt_succ_self _), hends⟩
      · rw [Cursor.next_of_stops hstops] at hbehind
        refine ⟨[], some t, list', s₂, .stop live hstops, fun stop hstop => ?_⟩
        obtain rfl := Option.some.inj hstop
        exact ⟨toks, Nat.lt_succ_self _, hbehind⟩

/-- `collect_arg` returns, with the end of the live stream nearer than before. -/
theorem EndsAfter.collectArg (place : Place) (h : EndsAfter c expandOne ⟨params, start, 0⟩ s list toks) :
    ∃ arg next rest s', (∃ n, ∀ fuel ≥ n, MacroExpansion.collectArg c expandOne (params.head?.any Param.vararg) place
      start.place.stream fuel 0 s list = some (arg, next, rest, s')) ∧
        ∀ stop, next = some stop → ∃ toks', toks'.length < toks.length ∧
          EndsAfter c expandOne ⟨params.tail, stop, 0⟩ s' rest toks' := by
  obtain ⟨part, next, rest, s', hpart, hnext⟩ := h.part
  exact ⟨placed place part, next, rest, s', collectArg_of_part hpart, hnext⟩

theorem tooMany_returns {wanted count : ℕ} {next : Tok} (h : EndsAfter c expandOne ⟨[], next, 0⟩ s list toks) :
    ∃ n, ∀ fuel ≥ n, (tooMany c expandOne name place wanted fuel count s next list).isSome = true := by
  induction hlength : toks.length using Nat.strong_induction_on generalizing toks s count next list with
  | _ length ih =>
    obtain ⟨arg, next', rest, s', ⟨n, hn⟩, hnext⟩ := h.collectArg place
    simp only [List.head?_nil, Option.any_none] at hn
    cases next' with
    | none =>
      refine ⟨n + 1, fun fuel hfuel => ?_⟩
      obtain ⟨fuel, rfl⟩ := Nat.exists_eq_add_of_le' (le_trans (Nat.le_add_left 1 n) hfuel)
      rw [tooMany, hn fuel (by omega)]
      split <;> rfl
    | some stop =>
      obtain ⟨toks', hlt, hends⟩ := hnext stop rfl
      obtain ⟨m, hm⟩ := ih toks'.length (hlength ▸ hlt) hends rfl
      refine ⟨max n m + 1, fun fuel hfuel => ?_⟩
      obtain ⟨fuel, rfl⟩ := Nat.exists_eq_add_of_le' (le_trans (Nat.le_add_left 1 _) hfuel)
      rw [tooMany, hn fuel (by omega)]
      split
      · exact hm fuel (by omega)
      · rfl

theorem collectParams_returns {wanted : ℕ} (h : EndsAfter c expandOne ⟨params, start, 0⟩ s list toks) :
    ∃ n, ∀ fuel ≥ n, ∀ args,
      (collectParams c expandOne name place wanted fuel params args s start list).isSome = true := by
  induction params generalizing toks s start list with
  | nil =>
    obtain ⟨n, hn⟩ := tooMany_returns h
    exact ⟨n, fun fuel hfuel args => hn fuel hfuel⟩
  | cons p params ih =>
    obtain ⟨arg, next, rest, s', ⟨n, hn⟩, hnext⟩ := h.collectArg place
    simp only [List.head?_cons, Option.any_some] at hn
    cases next with
    | none =>
      refine ⟨n, fun fuel hfuel args => ?_⟩
      rw [collectParams, hn fuel hfuel]
      rfl
    | some stop =>
      obtain ⟨toks', -, hends⟩ := hnext stop rfl
      obtain ⟨m, hm⟩ := ih hends
      refine ⟨max n m, fun fuel hfuel args => ?_⟩
      have hloop := hm fuel (le_trans (le_max_right n m) hfuel) (args ++ [p.toArg (some arg)])
      rw [collectParams, hn fuel (le_trans (le_max_left n m) hfuel)]
      cases hclose : stop.matchOp ')'
      · simpa [hclose] using hloop
      · cases params with
        | nil => simp [hclose]
        | cons q params =>
          cases params with
          | nil => cases hvararg : q.vararg <;> simp [hclose, hvararg]
          | cons r params => simp [hclose]

theorem collectArguments_returns (h : EndsAfter c expandOne ⟨params, start, 0⟩ s list toks) :
    ∃ n, ∀ fuel ≥ n, (collectArguments c expandOne name place params fuel s start list).isSome = true := by
  cases params with
  | cons p params =>
    obtain ⟨n, hn⟩ := collectParams_returns h
    exact ⟨n, fun fuel hfuel => hn fuel hfuel []⟩
  | nil =>
    obtain ⟨arg, next, rest, s', ⟨n, hn⟩, hnext⟩ := h.collectArg place
    simp only [List.head?_nil, Option.any_none] at hn
    cases next with
    | none =>
      refine ⟨n, fun fuel hfuel => ?_⟩
      simp [collectArguments, hn fuel hfuel]
    | some stop =>
      obtain ⟨toks', -, hends⟩ := hnext stop rfl
      obtain ⟨m, hm⟩ := tooMany_returns hends
      refine ⟨max n m, fun fuel hfuel => ?_⟩
      have hmany := hm fuel (le_trans (le_max_right n m) hfuel)
      simp only [collectArguments, List.isEmpty_nil, if_true, hn fuel (le_trans (le_max_left n m) hfuel),
        Option.bind_eq_bind, Option.bind_some]
      split
      · exact hmany
      · rfl

end Returns

end Collection

/-! ## When collection is right -/

section Collection

variable {c : Context} {expandOne : ExpandOne} {name : List UInt8} {place : Place} {params : List Param} {s s' : State}
  {start : Tok} {list rest toks : List Tok} {parts : List (Option (List Tok))}

/-- No more tokens can be taken behind those that were. -/
theorem Takes.eq_of_prefix {toks₁ toks₂ : List Tok} {parts₁ parts₂ : List (Option (List Tok))}
    (h₁ : Takes params toks₁ parts₁) (h₂ : Takes params toks₂ parts₂) (hpre : toks₁ <+: toks₂) : toks₁ = toks₂ := by
  have hsplit : ∀ {part toks more : List Tok} {stop : Tok},
      (part ++ stop :: toks) ++ more = part ++ stop :: (toks ++ more) := by
    intro part toks more stop
    rw [List.append_assoc, List.cons_append]
  induction h₁ generalizing toks₂ parts₂ with
  | none closes =>
    cases h₂ with
    | none closes' => exact hpre.eq_of_length rfl
  | last runs closes =>
    obtain ⟨more, rfl⟩ := hpre
    generalize htoks : _ ++ more = toks₂ at h₂
    cases h₂ with
    | last runs' closes' =>
      obtain ⟨rfl, rfl, hmore⟩ := runs.unique runs' (hsplit.symm.trans htoks)
      rfl
  | absent runs closes variadic =>
    obtain ⟨more, rfl⟩ := hpre
    generalize htoks : _ ++ more = toks₂ at h₂
    cases h₂ with
    | absent runs' closes' variadic' =>
      obtain ⟨rfl, rfl, hmore⟩ := runs.unique runs' (hsplit.symm.trans htoks)
      rfl
    | more runs' separates' behind' =>
      obtain ⟨rfl, rfl, hmore⟩ := runs.unique runs' (hsplit.symm.trans htoks)
      rw [closes] at separates'
      cases separates'
  | more runs separates behind ih =>
    obtain ⟨more, rfl⟩ := hpre
    generalize htoks : _ ++ more = toks₂ at h₂
    cases h₂ with
    | absent runs' closes' variadic' =>
      obtain ⟨rfl, rfl, hmore⟩ := runs.unique runs' (hsplit.symm.trans htoks)
      rw [separates] at closes'
      cases closes'
    | more runs' separates' behind' =>
      obtain ⟨rfl, rfl, hmore⟩ := runs.unique runs' (hsplit.symm.trans htoks)
      rw [ih behind' ⟨more, hmore⟩]

/-- A file mark among the tokens that are taken is taken for a comma. -/
theorem not_collectsRight_of_mark (hdelivers : Delivers c expandOne ⟨params, start, 0⟩ s list toks rest s')
    (htakes : Takes params toks parts) (hmark : ∃ t ∈ toks, t.isStreamMark = true) :
    ¬CollectsRight c expandOne name place params s start list := by
  intro h
  obtain ⟨n, hn⟩ := collectArguments_of_takes htakes hdelivers
  obtain ⟨toks', parts', hdelivers', hsplits, -⟩ := h.only n _ _ _ (hn n le_rfl)
  have heq : toks' = toks := (hdelivers'.prefix_or hdelivers).elim (fun h => hsplits.takes.eq_of_prefix htakes h)
    fun h => (htakes.eq_of_prefix hsplits.takes h).symm
  obtain ⟨t, ht, hmark⟩ := hmark
  rw [hsplits.inFile t (heq ▸ ht)] at hmark
  cases hmark

/-- Collection is right unless the tokens that the code takes hold a file mark. -/
theorem collectsRight_iff : CollectsRight c expandOne name place params s start list ↔
    ¬∃ toks parts rest s', Delivers c expandOne ⟨params, start, 0⟩ s list toks rest s' ∧ Takes params toks parts ∧
      ∃ t ∈ toks, t.isStreamMark = true := by
  constructor
  · rintro h ⟨toks, parts, rest, s', hdelivers, htakes, hmark⟩
    exact not_collectsRight_of_mark hdelivers htakes hmark h
  · intro h
    refine ⟨fun toks parts rest s' hdelivers hsplits => collectArguments_of_takes hsplits.takes hdelivers, ?_,
      fun fuel rest s' => stopped_of_collectArguments, fun toks => collectArguments_returns⟩
    intro fuel args rest s' hrun
    obtain ⟨toks, parts, hdelivers, htakes, hargs⟩ := takes_of_collectArguments hrun
    have hfile : ∀ t ∈ toks, t.isStreamMark = false := by
      intro t ht
      rw [← Bool.not_eq_true]
      intro hmark
      exact h ⟨toks, parts, rest, s', hdelivers, htakes, t, ht, hmark⟩
    exact ⟨toks, parts, hdelivers, htakes.splits hfile, hargs⟩

end Collection

/-! ### A file that ends in the arguments -/

/-- `#define f(x, y)`. -/
def twoParams : List Param := [⟨1, 0, 0, false⟩, ⟨1, 0, 0, false⟩]

/-- The `(` behind `f` in the file that is included. -/
def openParen : Tok := ⟨1, .value (.special 40), ⟨1, 1, 1⟩, false, false, false⟩

/-- `a` at the end of that file, its mark, and `b)` behind the `#include`. -/
def fileEndInside : List Tok :=
  [⟨2, .value (.ident [97]), ⟨1, 1, 2⟩, false, false, false⟩, ⟨3, .value .streamEnd, ⟨1, 2, 0⟩, true, false, false⟩,
    ⟨4, .value (.ident [98]), ⟨0, 2, 0⟩, true, false, false⟩, ⟨5, .value (.special 41), ⟨0, 2, 1⟩, false, false, false⟩]

theorem delivers_fileEndInside (expandOne : ExpandOne) : ∃ s',
    Delivers plainContext expandOne ⟨twoParams, openParen, 0⟩ definesOne fileEndInside fileEndInside [] s' :=
  ⟨_, .cons (.token rfl rfl rfl rfl) (.cons (.mark rfl rfl rfl) (.cons (.token rfl rfl rfl rfl)
    (.cons (.token rfl rfl rfl rfl) .nil)))⟩

/-- `f(a` and `b)` in two files are an invocation with two arguments. -/
theorem not_collectsRight_fileEndInside : ¬CollectsRight plainContext (expandAt plainContext 1) [102] ⟨1, 1, 0⟩
    twoParams definesOne openParen fileEndInside := by
  obtain ⟨s', hdelivers⟩ := delivers_fileEndInside (expandAt plainContext 1)
  have hfirst : Runs false 0 (fileEndInside.take 1) ⟨3, .value .streamEnd, ⟨1, 2, 0⟩, true, false, false⟩ := ⟨rfl, rfl⟩
  have hsecond : Runs false 0 ((fileEndInside.drop 2).take 1)
    ⟨5, .value (.special 41), ⟨0, 2, 1⟩, false, false, false⟩ := ⟨rfl, rfl⟩
  have htakes : Takes twoParams (fileEndInside.take 1 ++ _ :: ((fileEndInside.drop 2).take 1 ++ [_])) _ :=
    .more hfirst rfl (.last hsecond rfl)
  exact not_collectsRight_of_mark hdelivers htakes ⟨_, List.mem_cons_of_mem _ List.mem_cons_self, rfl⟩

end Sparse.MacroExpansion
