import Sparse.MacroRecords

/-!
# The tokens that reach an argument

`collect_arg` passes over marks that lift a taint, carries out directive lines and drops the
tokens of groups that are skipped. What is left is the live stream. The stream that a
directive is read from is that of the token in front of the argument, so a cursor goes with
the live stream: the parameters to come, that token, and the depth of parentheses.
-/

namespace Sparse.MacroExpansion

section Live

variable (c : Context) (expandOne : ExpandOne)

/-! ## One live token -/

/-- The next live token of a list, or none at its end. -/
inductive Live (stream : ℕ) : State → List Tok → Option Tok → List Tok → State → Prop
  | eof {s list s'} (scan : scanNext s list = ([], s')) : Live stream s list none [] s'
  | directive {s list t ts s₁ fuel list' s₂ r rest s'} (scan : scanNext s list = (t :: ts, s₁))
      (hash : t.isDirective = true)
      (run : runScript expandOne fuel (s₁.sparseError t.place .directiveInArguments)
        (c.preprocessorLine (s₁.sparseError t.place .directiveInArguments) stream (t :: ts)) = some (list', s₂))
      (more : Live stream s₂ list' r rest s') : Live stream s list r rest s'
  | mark {s list t ts s'} (scan : scanNext s list = (t :: ts, s')) (hash : t.isDirective = false)
      (mark : t.isStreamMark = true) : Live stream s list (some t) ts s'
  | dropped {s list t ts s₁ r rest s'} (scan : scanNext s list = (t :: ts, s₁)) (hash : t.isDirective = false)
      (mark : t.isStreamMark = false) (skipped : s₁.falseNesting ≠ 0)
      (more : Live stream s₁ ts r rest s') : Live stream s list r rest s'
  | token {s list t ts s'} (scan : scanNext s list = (t :: ts, s')) (hash : t.isDirective = false)
      (mark : t.isStreamMark = false) (kept : s'.falseNesting = 0) : Live stream s list (some t) ts s'

variable {c expandOne}

theorem runScript_mono {n m : ℕ} {s : State} {script : Script} {r : List Tok × State} (hnm : n ≤ m)
    (h : runScript expandOne n s script = some r) : runScript expandOne m s script = some r := by
  induction n generalizing m s script with
  | zero => cases h
  | succ n ih =>
    obtain ⟨m, rfl⟩ := Nat.exists_eq_add_of_le' (Nat.one_le_iff_ne_zero.mpr (by omega : m ≠ 0))
    have hnm : n ≤ m := by omega
    cases script with
    | done macros falseNesting errors rest => exact h
    | scanNext list next =>
      rw [runScript] at h ⊢
      exact ih hnm h
    | expandOneSymbol t rest next =>
      obtain ⟨r', hexpand, hrun⟩ := Option.bind_eq_some_iff.mp h
      exact Option.bind_eq_some_iff.mpr ⟨r', hexpand, ih hnm hrun⟩

/-- The results of two runs are the same, whatever the fuel. -/
theorem runScript_eq {n m : ℕ} {s : State} {script : Script} {r₁ r₂ : List Tok × State}
    (h₁ : runScript expandOne n s script = some r₁) (h₂ : runScript expandOne m s script = some r₂) :
    r₁ = r₂ := by
  have h₁ := runScript_mono (Nat.le_add_right n m) h₁
  have h₂ := runScript_mono (Nat.le_add_left m n) h₂
  rw [h₁] at h₂
  exact Option.some.inj h₂

theorem Live.deterministic {stream : ℕ} {s s₁ s₂ : State} {list rest₁ rest₂ : List Tok} {r₁ r₂ : Option Tok}
    (h₁ : Live c expandOne stream s list r₁ rest₁ s₁) (h₂ : Live c expandOne stream s list r₂ rest₂ s₂) :
    r₁ = r₂ ∧ rest₁ = rest₂ ∧ s₁ = s₂ := by
  induction h₁ generalizing r₂ rest₂ s₂ with
  | eof scan =>
    cases h₂ <;> simp_all
  | directive scan hash run more ih =>
    cases h₂ with
    | directive scan' hash' run' more' =>
      rw [scan] at scan'
      simp only [Prod.mk.injEq, List.cons.injEq] at scan'
      obtain ⟨⟨rfl, rfl⟩, rfl⟩ := scan'
      have heq := runScript_eq run run'
      simp only [Prod.mk.injEq] at heq
      obtain ⟨rfl, rfl⟩ := heq
      exact ih more'
    | _ => simp_all
  | mark scan hash mark =>
    cases h₂ <;> simp_all
  | dropped scan hash mark skipped more ih =>
    cases h₂ with
    | dropped scan' hash' mark' skipped' more' =>
      rw [scan] at scan'
      simp only [Prod.mk.injEq, List.cons.injEq] at scan'
      obtain ⟨⟨rfl, rfl⟩, rfl⟩ := scan'
      exact ih more'
    | _ => simp_all
  | token scan hash mark kept =>
    cases h₂ <;> simp_all

end Live

/-! ## The live stream -/

/-- Where the collection stands: the parameters whose argument has not ended, the token in front of
the argument, and the depth of parentheses. -/
structure Cursor where
  params : List Param
  start : Tok
  nesting : ℕ
  deriving DecidableEq, Repr

/-- The tokens that end an argument. -/
def stops (vararg : Bool) (nesting : ℕ) (t : Tok) : Bool :=
  t.isStreamMark || (nesting = 0 && (t.matchOp ')' || (t.matchOp ',' && !vararg)))

namespace Cursor

/-- Behind the last parameter no argument takes commas. -/
def vararg (u : Cursor) : Bool := u.params.head?.any Param.vararg

def next (u : Cursor) (t : Tok) : Cursor :=
  if stops u.vararg u.nesting t then ⟨u.params.tail, t, 0⟩ else { u with nesting := t.nest u.nesting }

def stream (u : Cursor) : ℕ := u.start.place.stream

end Cursor

section Live

variable (c : Context) (expandOne : ExpandOne)

/-- The next live tokens are `toks`. -/
inductive Delivers : Cursor → State → List Tok → List Tok → List Tok → State → Prop
  | nil {u s list} : Delivers u s list [] list s
  | cons {u s list t list' s₁ toks rest s'} (live : Live c expandOne u.stream s list (some t) list' s₁)
      (more : Delivers (u.next t) s₁ list' toks rest s') : Delivers u s list (t :: toks) rest s'

variable {c expandOne} {u : Cursor} {s s₁ s₂ : State} {list rest₁ rest₂ toks toks₁ toks₂ : List Tok}

theorem Delivers.append (h₁ : Delivers c expandOne u s list toks₁ rest₁ s₁)
    (h₂ : Delivers c expandOne (toks₁.foldl Cursor.next u) s₁ rest₁ toks₂ rest₂ s₂) :
    Delivers c expandOne u s list (toks₁ ++ toks₂) rest₂ s₂ := by
  induction h₁ with
  | nil => exact h₂
  | cons live more ih => exact .cons live (ih h₂)

/-- Of two beginnings of the live stream one begins the other. -/
theorem Delivers.prefix_or (h₁ : Delivers c expandOne u s list toks₁ rest₁ s₁)
    (h₂ : Delivers c expandOne u s list toks₂ rest₂ s₂) : toks₁ <+: toks₂ ∨ toks₂ <+: toks₁ := by
  induction h₁ generalizing toks₂ with
  | nil => exact .inl (List.nil_prefix)
  | cons live more ih =>
    cases h₂ with
    | nil => exact .inr (List.nil_prefix)
    | cons live' more' =>
      obtain ⟨ht, rfl, rfl⟩ := live.deterministic live'
      obtain rfl := Option.some.inj ht
      exact (ih more').imp (fun h => List.cons_prefix_cons.mpr ⟨rfl, h⟩) fun h => List.cons_prefix_cons.mpr ⟨rfl, h⟩

theorem Delivers.deterministic (h₁ : Delivers c expandOne u s list toks rest₁ s₁)
    (h₂ : Delivers c expandOne u s list toks rest₂ s₂) : rest₁ = rest₂ ∧ s₁ = s₂ := by
  induction h₁ with
  | nil =>
    cases h₂
    exact ⟨rfl, rfl⟩
  | cons live more ih =>
    cases h₂ with
    | cons live' more' =>
      obtain ⟨-, rfl, rfl⟩ := live.deterministic live'
      exact ih more'

/-! ## One argument -/

/-- `part` is an argument that ends at `stop`. -/
def Runs (vararg : Bool) : ℕ → List Tok → Tok → Prop
  | nesting, [], stop => stops vararg nesting stop = true
  | nesting, t :: part, stop => stops vararg nesting t = false ∧ Runs vararg (t.nest nesting) part stop

variable (c expandOne)

/-- The tokens of an argument, the token that ends it, or none at the end of the list, and what stands
behind. -/
inductive Part (vararg : Bool) (stream : ℕ) :
    ℕ → State → List Tok → List Tok → Option Tok → List Tok → State → Prop
  | eof {nesting s list rest s'} (live : Live c expandOne stream s list none rest s') :
      Part vararg stream nesting s list [] none [] s'
  | stop {nesting s list t rest s'} (live : Live c expandOne stream s list (some t) rest s')
      (ends : stops vararg nesting t = true) : Part vararg stream nesting s list [] (some t) rest s'
  | more {nesting s list t list' s₁ part next rest s'} (live : Live c expandOne stream s list (some t) list' s₁)
      (ends : stops vararg nesting t = false)
      (behind : Part vararg stream (t.nest nesting) s₁ list' part next rest s') :
      Part vararg stream nesting s list (t :: part) next rest s'

variable {c expandOne}

/-- What reaches the same live tokens reaches the same argument. -/
theorem Part.before {vararg : Bool} {stream nesting : ℕ} {list' part rest : List Tok} {next : Option Tok} {s' : State}
    (hlive : ∀ r rest s', Live c expandOne stream s₁ list' r rest s' → Live c expandOne stream s list r rest s')
    (h : Part c expandOne vararg stream nesting s₁ list' part next rest s') :
    Part c expandOne vararg stream nesting s list part next rest s' := by
  cases h with
  | eof live => exact .eof (hlive _ _ _ live)
  | stop live ends => exact .stop (hlive _ _ _ live) ends
  | more live ends behind => exact .more (hlive _ _ _ live) ends behind

/-- The tokens of an argument take the place of the macro's name. -/
def placed (place : Place) (part : List Tok) : List Tok := part.map fun t => { t with place := place }

theorem stops_of_mark {vararg : Bool} {nesting : ℕ} {t : Tok} (h : t.isStreamMark = true) :
    stops vararg nesting t = true := by
  simp [stops, h]

/-- The two tests of the loop. -/
theorem stops_iff {vararg : Bool} {nesting : ℕ} {t : Tok} (hmark : t.isStreamMark = false) :
    stops vararg nesting t = true ↔
      (t.matchOp ')' && nesting = 0) = true ∨ (t.matchOp ',' && nesting = 0 && !vararg) = true := by
  simp only [stops, hmark, Bool.false_or, Bool.and_eq_true, Bool.or_eq_true]
  grind

/-- What `collect_arg` collects. -/
theorem part_of_collectArg {vararg : Bool} {place : Place} {stream fuel nesting : ℕ} {arg rest : List Tok}
    {next : Option Tok} {s' : State}
    (h : collectArg c expandOne vararg place stream fuel nesting s list = some (arg, next, rest, s')) :
    ∃ part, arg = placed place part ∧ Part c expandOne vararg stream nesting s list part next rest s' := by
  induction fuel generalizing s nesting list arg with
  | zero => cases h
  | succ fuel ih =>
    rw [collectArg] at h
    cases hscan : scanNext s list with
    | mk list' s₁ =>
      rw [hscan] at h
      cases list' with
      | nil =>
        simp only [Option.some.injEq, Prod.mk.injEq] at h
        obtain ⟨rfl, rfl, rfl, rfl⟩ := h
        exact ⟨[], rfl, .eof (.eof hscan)⟩
      | cons t ts =>
        dsimp only at h
        split at h
        · rename_i hhash
          obtain ⟨⟨list₂, s₂⟩, hscript, hrun⟩ := Option.bind_eq_some_iff.mp h
          obtain ⟨part, hpart, hbehind⟩ := ih hrun
          exact ⟨part, hpart, hbehind.before fun r rest s' => .directive hscan hhash hscript⟩
        · rename_i hhash
          simp only [Bool.not_eq_true] at hhash
          split at h
          · rename_i hmark
            simp only [Option.some.injEq, Prod.mk.injEq] at h
            obtain ⟨rfl, rfl, rfl, rfl⟩ := h
            exact ⟨[], rfl, .stop (.mark hscan hhash hmark) (stops_of_mark hmark)⟩
          · rename_i hmark
            simp only [Bool.not_eq_true] at hmark
            split at h
            · rename_i hskipped
              obtain ⟨part, hpart, hbehind⟩ := ih h
              exact ⟨part, hpart, hbehind.before fun r rest s' => .dropped hscan hhash hmark hskipped⟩
            · rename_i hkept
              have hlive : Live c expandOne stream s list (some t) ts s₁ :=
                .token hscan hhash hmark (not_not.mp hkept)
              split at h
              · rename_i hclose
                simp only [Option.some.injEq, Prod.mk.injEq] at h
                obtain ⟨rfl, rfl, rfl, rfl⟩ := h
                exact ⟨[], rfl, .stop hlive ((stops_iff hmark).mpr (.inl hclose))⟩
              · rename_i hclose
                split at h
                · rename_i hcomma
                  simp only [Option.some.injEq, Prod.mk.injEq] at h
                  obtain ⟨rfl, rfl, rfl, rfl⟩ := h
                  exact ⟨[], rfl, .stop hlive ((stops_iff hmark).mpr (.inr hcomma))⟩
                · rename_i hcomma
                  obtain ⟨⟨arg', next', rest', s₂⟩, hrun, hout⟩ := Option.bind_eq_some_iff.mp h
                  simp only [Option.some.injEq, Prod.mk.injEq] at hout
                  obtain ⟨rfl, rfl, rfl, rfl⟩ := hout
                  obtain ⟨part, rfl, hbehind⟩ := ih hrun
                  have hends : stops vararg nesting t = false := by
                    rw [← Bool.not_eq_true, stops_iff hmark]
                    exact not_or.mpr ⟨hclose, hcomma⟩
                  exact ⟨t :: part, rfl, .more hlive hends hbehind⟩

/-- `collect_arg` behind the live token that it has found. -/
def behindLive (c : Context) (expandOne : ExpandOne) (vararg : Bool) (place : Place) (stream fuel nesting : ℕ) :
    Option Tok → List Tok → State → Option (List Tok × Option Tok × List Tok × State)
  | none, _, s => some ([], none, [], s)
  | some t, rest, s =>
    if stops vararg nesting t then some ([], some t, rest, s)
    else do
      let (arg, next, rest, s) ← collectArg c expandOne vararg place stream fuel (t.nest nesting) s rest
      some ({ t with place := place } :: arg, next, rest, s)

/-- With enough fuel `collect_arg` comes to the next live token and goes on behind it. -/
theorem collectArg_of_live {vararg : Bool} {place : Place} {stream nesting : ℕ} {r : Option Tok} {rest : List Tok}
    {s' : State} {out : List Tok × Option Tok × List Tok × State} (h : Live c expandOne stream s list r rest s')
    (hbehind : ∃ n, ∀ fuel ≥ n, behindLive c expandOne vararg place stream fuel nesting r rest s' = some out) :
    ∃ n, ∀ fuel ≥ n, collectArg c expandOne vararg place stream fuel nesting s list = some out := by
  induction h with
  | eof scan =>
    obtain ⟨n, hn⟩ := hbehind
    refine ⟨1, fun fuel hfuel => ?_⟩
    obtain ⟨fuel, rfl⟩ := Nat.exists_eq_add_of_le' hfuel
    simp only [collectArg, scan]
    exact hn n le_rfl
  | directive scan hash run more ih =>
    rename_i fuel₀ _ _ _ _ _
    obtain ⟨n, hn⟩ := ih hbehind
    refine ⟨max n fuel₀ + 1, fun fuel hfuel => ?_⟩
    obtain ⟨fuel, rfl⟩ := Nat.exists_eq_add_of_le' (le_trans (Nat.le_add_left 1 _) hfuel)
    simp only [collectArg, scan, hash, if_true, runScript_mono (show fuel₀ ≤ fuel by omega) run]
    exact hn fuel (by omega)
  | mark scan hash mark =>
    obtain ⟨n, hn⟩ := hbehind
    refine ⟨1, fun fuel hfuel => ?_⟩
    obtain ⟨fuel, rfl⟩ := Nat.exists_eq_add_of_le' hfuel
    have hout := hn n le_rfl
    simp only [behindLive, stops_of_mark mark, if_true] at hout
    simp only [collectArg, scan, hash, mark, Bool.false_eq_true, if_false, if_true, hout]
  | dropped scan hash mark skipped more ih =>
    obtain ⟨n, hn⟩ := ih hbehind
    refine ⟨n + 1, fun fuel hfuel => ?_⟩
    obtain ⟨fuel, rfl⟩ := Nat.exists_eq_add_of_le' (le_trans (Nat.le_add_left 1 _) hfuel)
    simp only [collectArg, scan, hash, mark, Bool.false_eq_true, if_false, if_pos skipped]
    exact hn fuel (by omega)
  | token scan hash mark kept =>
    obtain ⟨n, hn⟩ := hbehind
    refine ⟨n + 1, fun fuel hfuel => ?_⟩
    obtain ⟨fuel, rfl⟩ := Nat.exists_eq_add_of_le' (le_trans (Nat.le_add_left 1 _) hfuel)
    have hout := hn fuel (by omega)
    simp only [behindLive, stops_iff mark] at hout
    simp only [collectArg, scan, hash, mark, kept, Bool.false_eq_true, if_false, ne_eq, not_true_eq_false]
    split
    · rename_i hclose
      rwa [if_pos (.inl hclose)] at hout
    · rename_i hclose
      split
      · rename_i hcomma
        rwa [if_pos (.inr hcomma)] at hout
      · rename_i hcomma
        rwa [if_neg (not_or.mpr ⟨hclose, hcomma⟩)] at hout

/-- `collect_arg` collects the argument, with enough fuel. -/
theorem collectArg_of_part {vararg : Bool} {place : Place} {stream nesting : ℕ} {part rest : List Tok}
    {next : Option Tok} {s' : State} (h : Part c expandOne vararg stream nesting s list part next rest s') :
    ∃ n, ∀ fuel ≥ n,
      collectArg c expandOne vararg place stream fuel nesting s list = some (placed place part, next, rest, s') := by
  induction h with
  | eof live => exact collectArg_of_live live ⟨0, fun _ _ => rfl⟩
  | stop live ends => exact collectArg_of_live live ⟨0, fun _ _ => by simp [behindLive, ends, placed]⟩
  | more live ends behind ih =>
    obtain ⟨n, hn⟩ := ih
    exact collectArg_of_live live ⟨n, fun fuel hfuel => by simp [behindLive, ends, placed, hn fuel hfuel]⟩

/-! ## Arguments of the live stream -/

@[simp] theorem Cursor.next_of_stops {u : Cursor} {t : Tok} (h : stops u.vararg u.nesting t = true) :
    u.next t = ⟨u.params.tail, t, 0⟩ := by
  simp [Cursor.next, h]

@[simp] theorem Cursor.next_of_not_stops {u : Cursor} {t : Tok} (h : stops u.vararg u.nesting t = false) :
    u.next t = { u with nesting := t.nest u.nesting } := by
  simp [Cursor.next, h]

/-- An argument takes the next tokens of the live stream. -/
theorem Part.delivers {part rest : List Tok} {stop : Tok} {s' : State}
    (h : Part c expandOne u.vararg u.stream u.nesting s list part (some stop) rest s') :
    Delivers c expandOne u s list (part ++ [stop]) rest s' ∧ Runs u.vararg u.nesting part stop ∧
      (part ++ [stop]).foldl Cursor.next u = ⟨u.params.tail, stop, 0⟩ := by
  induction part generalizing u s list with
  | nil =>
    cases h with
    | stop live ends => exact ⟨.cons live .nil, ends, Cursor.next_of_stops ends⟩
  | cons t part ih =>
    cases h with
    | more live ends behind =>
      obtain ⟨hdelivers, hruns, hcursor⟩ := ih (u := { u with nesting := t.nest u.nesting }) behind
      have hparams : (u.next t).params.tail = u.params.tail := by rw [Cursor.next_of_not_stops ends]
      rw [← Cursor.next_of_not_stops ends] at hdelivers hcursor
      exact ⟨.cons live hdelivers, ⟨ends, hruns⟩, hparams ▸ hcursor⟩

/-- An argument that the end of the list cuts off has taken the rest of the live stream. -/
theorem Part.delivers_ended {part rest : List Tok} {s' : State}
    (h : Part c expandOne u.vararg u.stream u.nesting s list part none rest s') :
    rest = [] ∧ ∃ rest₁ s₁ rest₂, Delivers c expandOne u s list part rest₁ s₁ ∧
      Live c expandOne (part.foldl Cursor.next u).stream s₁ rest₁ none rest₂ s' := by
  induction part generalizing u s list with
  | nil =>
    cases h with
    | eof live => exact ⟨rfl, _, _, _, .nil, live⟩
  | cons t part ih =>
    cases h with
    | more live ends behind =>
      obtain ⟨hrest, rest₁, s₁, rest₂, hdelivers, hlive⟩ := ih (u := { u with nesting := t.nest u.nesting }) behind
      rw [← Cursor.next_of_not_stops ends] at hdelivers hlive
      exact ⟨hrest, rest₁, s₁, rest₂, .cons live hdelivers, hlive⟩

/-- The argument at the front of the live stream. -/
theorem Delivers.part {part rest : List Tok} {stop : Tok} {s' : State}
    (h : Delivers c expandOne u s list (part ++ stop :: toks) rest s') (hruns : Runs u.vararg u.nesting part stop) :
    ∃ list' s₁, Part c expandOne u.vararg u.stream u.nesting s list part (some stop) list' s₁ ∧
      Delivers c expandOne ⟨u.params.tail, stop, 0⟩ s₁ list' toks rest s' := by
  induction part generalizing u s list with
  | nil =>
    cases h with
    | cons live more =>
      rw [Cursor.next_of_stops hruns] at more
      exact ⟨_, _, .stop live hruns, more⟩
  | cons t part ih =>
    obtain ⟨hends, hruns⟩ := hruns
    cases h with
    | cons live more =>
      rw [Cursor.next_of_not_stops hends] at more
      obtain ⟨list', s₁, hpart, hmore⟩ := ih more hruns
      exact ⟨list', s₁, .more live hends hpart, hmore⟩

/-- An argument ends in one place only. -/
theorem Runs.unique {vararg : Bool} {nesting : ℕ} {part₁ part₂ : List Tok} {stop₁ stop₂ : Tok}
    (h₁ : Runs vararg nesting part₁ stop₁) (h₂ : Runs vararg nesting part₂ stop₂)
    (heq : part₁ ++ stop₁ :: toks₁ = part₂ ++ stop₂ :: toks₂) : part₁ = part₂ ∧ stop₁ = stop₂ ∧ toks₁ = toks₂ := by
  induction part₁ generalizing nesting part₂ with
  | nil =>
    cases part₂ with
    | nil => simpa using heq
    | cons t part₂ =>
      obtain ⟨rfl, -⟩ := List.cons_eq_cons.mp heq
      exact absurd (show stops vararg nesting stop₁ = true from h₁) (by simp [h₂.1])
  | cons t part₁ ih =>
    cases part₂ with
    | nil =>
      obtain ⟨rfl, -⟩ := List.cons_eq_cons.mp heq
      exact absurd (show stops vararg nesting t = true from h₂) (by simp [h₁.1])
    | cons t' part₂ =>
      obtain ⟨rfl, htail⟩ := List.cons_eq_cons.mp heq
      obtain ⟨rfl, rfl, rfl⟩ := ih h₁.2 h₂.2 htail
      exact ⟨rfl, rfl, rfl⟩

end Live

end Sparse.MacroExpansion
