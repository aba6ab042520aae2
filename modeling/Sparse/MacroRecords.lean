import Sparse.MacroExpansion

/-!
# What expansions record

Every call of `expand` leaves the stack of recorders as high as it was, and the record of an
expansion has in `down` the tokens put into the list. Its `up` begins with the argument list
from `(` to `)`; `expand_list` then hands the arguments to the same recorder once more, up to
the first end of a list, so `up` is the argument list only if the first argument that
`expand_arguments_pp` expands is empty, or none is expanded. The `#` of a directive line among
the arguments is recorded too.
-/

namespace Sparse.MacroExpansion

/-! ## The argument list -/

def Tok.isUntaint (t : Tok) : Bool :=
  match t.kind with
  | .untaint _ => true
  | _ => false

/-- The tokens of a list, without the marks that lift a taint. -/
def visible (list : List Tok) : List Tok := list.filter fun t => !t.isUntaint

/-- The depth of parentheses behind a token of the list; with a file the argument ends. -/
def Tok.nestBehind (t : Tok) (nesting : ℕ) : ℕ := if t.isStreamMark then 0 else t.nest nesting

/-- The tokens up to the parenthesis that closes the list, which may stand behind the end of a file. -/
def throughClose : ℕ → List Tok → List Tok
  | _, [] => []
  | nesting, t :: ts =>
    if t.matchOp ')' && nesting = 0 then [t] else t :: throughClose (t.nestBehind nesting) ts

/-- The tokens from the opening parenthesis to the closing one. -/
def argumentList : List Tok → List Tok
  | [] => []
  | start :: ts => start :: throughClose 0 ts

/-- One argument, and what stands from its end on. -/
def takeArgument (vararg : Bool) : ℕ → List Tok → List Tok × List Tok
  | _, [] => ([], [])
  | nesting, t :: ts =>
    if t.isStreamMark || ((t.matchOp ')' || (t.matchOp ',' && !vararg)) && nesting = 0) then ([], t :: ts)
    else (t :: (takeArgument vararg (t.nest nesting) ts).1, (takeArgument vararg (t.nest nesting) ts).2)

/-- No argument is expanded, or the first one that is has no tokens; the last one may be
missing. -/
def quiet : List Param → List Tok → Bool
  | [], _ => true
  | p :: params, ts =>
    let (arg, rest) := takeArgument p.vararg 0 ts
    if p.normal ≠ 0 then arg.isEmpty
    else
      match rest with
      | [] => true
      | next :: rest => next.matchOp ')' || quiet params rest

namespace Invocation

variable (i : Invocation)

/-- The tokens of the argument list from `(` to `)`; an object-like macro has none. -/
def argumentTokens : List Tok :=
  match i.used.arglist with
  | none => []
  | some _ => argumentList (visible i.source)

/-- The tokens behind the name that may be read as arguments. While a group is skipped no
parenthesis closes the list, so they are all that follows. -/
def among : List Tok := if i.falseNesting = 0 then i.argumentTokens else visible i.source

/-- No directive line stands among the arguments. -/
def Plain : Prop := i.used.arglist = none ∨ ∀ t ∈ i.among, t.isDirective = false

/-- Nothing is recorded for a second time. -/
def Quiet : Prop :=
  match i.used.arglist with
  | none => True
  | some params => quiet params (visible i.source).tail = true

/-- The tokens `up` are those of the argument list, in order and once each. The `#` of a
directive line is none of them. -/
def Listed (up : List ℕ) : Prop :=
  up = (i.argumentTokens.filter fun t => !t.isDirective).map Tok.id ∧
    ∀ t ∈ i.among, t.isDirective = true → t.id ∉ up

/-- The record has in `up` the tokens of the argument list, and in `down` those put in place of
the invocation. -/
def Recorded (e : Expansion) : Prop := i.Listed e.up ∧ e.down = e.put.map Tok.id

/-- What holds of every call. -/
structure Right : Prop where
  height : i.heightAfter = i.heightBefore
  down : ∀ e, i.expansion = some e → e.down = e.put.map Tok.id
  recorded : ∀ e, i.expansion = some e → (i.Recorded e ↔ i.Plain ∧ i.Quiet)

end Invocation

/-! ## Recorders -/

/-- The tokens in front of the first end of a list. -/
def recorded : List (Option ℕ) → List ℕ
  | [] => []
  | none :: _ => []
  | some id :: ps => id :: recorded ps

def Recorder.pushAll (r : Recorder) (ps : List (Option ℕ)) : Recorder := ps.foldl Recorder.push r

theorem Recorder.pushAll_append (r : Recorder) (ps qs : List (Option ℕ)) :
    r.pushAll (ps ++ qs) = (r.pushAll ps).pushAll qs :=
  List.foldl_append

theorem Recorder.pushAll_inactive {items : List ℕ} (ps : List (Option ℕ)) :
    (Recorder.mk items false).pushAll ps = ⟨items, false⟩ := by
  induction ps with
  | nil => rfl
  | cons p ps ih => cases p <;> exact ih

/-- An active recorder takes the tokens up to the first end of a list. -/
theorem Recorder.pushAll_items {items : List ℕ} (ps : List (Option ℕ)) :
    ((Recorder.mk items true).pushAll ps).items = items ++ recorded ps := by
  induction ps generalizing items with
  | nil => simp [pushAll, recorded]
  | cons p ps ih =>
    cases p with
    | none =>
      change ((Recorder.mk items false).pushAll ps).items = _
      rw [pushAll_inactive, recorded, List.append_nil]
    | some id =>
      change ((Recorder.mk (items ++ [id]) true).pushAll ps).items = _
      rw [ih, recorded, List.append_assoc]
      rfl

theorem recorded_map_some (ids : List ℕ) (ps : List (Option ℕ)) :
    recorded (ids.map some ++ ps) = ids ++ recorded ps := by
  induction ids with
  | nil => rfl
  | cons id ids ih => simp [recorded, ih]

theorem recorded_eq_nil {ps : List (Option ℕ)} : recorded ps = [] ↔ ∀ p, ps.head? = some p → p = none := by
  cases ps with
  | nil => simp [recorded]
  | cons p ps => cases p <;> simp [recorded]

/-! ## What a part of a run does -/

/-- The tokens `ps` are handed to every recorder; new tokens get new addresses; the calls
within are accounted for. -/
structure Steps (ps : List (Option ℕ)) (s s' : State) : Prop where
  pushed : s'.tokStk = s.tokStk.map fun r => r.pushAll ps
  nextId : s.nextId ≤ s'.nextId
  log : ∃ calls, s'.log = s.log ++ calls ∧ ∀ i ∈ calls, i.Right

def Fresh (s : State) (ts : List Tok) : Prop := ∀ t ∈ ts, t.id < s.nextId

section Steps

variable {s s' s'' : State} {ps qs : List (Option ℕ)} {list list' ts : List Tok} {t : Tok}

theorem Steps.of_eq (htok : s'.tokStk = s.tokStk) (hid : s.nextId ≤ s'.nextId) (hlog : s'.log = s.log) :
    Steps [] s s' where
  pushed := by rw [htok]; exact (List.map_id _).symm
  nextId := hid
  log := ⟨[], by simp [hlog], by simp⟩

theorem Steps.refl (s : State) : Steps [] s s := .of_eq rfl le_rfl rfl

theorem Steps.trans (h : Steps ps s s') (h' : Steps qs s' s'') : Steps (ps ++ qs) s s'' where
  pushed := by
    rw [h'.pushed, h.pushed, List.map_map]
    exact List.map_congr_left fun r _ => (r.pushAll_append ps qs).symm
  nextId := h.nextId.trans h'.nextId
  log := by
    obtain ⟨calls, hlog, hright⟩ := h.log
    obtain ⟨calls', hlog', hright'⟩ := h'.log
    refine ⟨calls ++ calls', by rw [hlog', hlog, List.append_assoc], fun i hi => ?_⟩
    exact (List.mem_append.mp hi).elim (hright i) (hright' i)

theorem Fresh.mono (h : Fresh s ts) (hsteps : Steps ps s s') : Fresh s' ts :=
  fun t ht => (h t ht).trans_le hsteps.nextId

theorem Fresh.tail (h : Fresh s (t :: ts)) : Fresh s ts := fun x hx => h x (List.mem_cons_of_mem _ hx)

theorem Fresh.cons (ht : t.id < s.nextId) (h : Fresh s ts) : Fresh s (t :: ts) := fun x hx => by
  obtain rfl | hx := List.mem_cons.mp hx
  · exact ht
  · exact h x hx

theorem Fresh.append {us : List Tok} (h : Fresh s ts) (h' : Fresh s us) : Fresh s (ts ++ us) :=
  fun x hx => (List.mem_append.mp hx).elim (h x) (h' x)

theorem steps_tokenPush (tok : Option Tok) : Steps [tok.map Tok.id] s (s.tokenPush tok) where
  pushed := rfl
  nextId := le_rfl
  log := ⟨[], by simp [State.tokenPush], by simp⟩

/-- `scan_next` passes the marks and hands on the token that it finds, or the end of the
list. -/
theorem scanNext_spec (h : scanNext s list = (list', s')) :
    Steps [list'.head?.map Tok.id] s s' ∧ visible list' = visible list ∧
      (∀ t ∈ list'.head?, t.isUntaint = false) ∧ list' <:+ list ∧ s'.falseNesting = s.falseNesting := by
  induction list generalizing s with
  | nil =>
    simp only [scanNext, Prod.mk.injEq] at h
    obtain ⟨rfl, rfl⟩ := h
    exact ⟨steps_tokenPush none, rfl, by simp, List.suffix_rfl, rfl⟩
  | cons t ts ih =>
    cases hk : t.kind with
    | untaint name =>
      simp only [scanNext, hk] at h
      obtain ⟨hsteps, hvisible, hhead, hsuffix, hfalse⟩ := ih h
      have ht : t.isUntaint = true := by simp [Tok.isUntaint, hk]
      refine ⟨?_, ?_, hhead, hsuffix.trans (List.suffix_cons t ts), hfalse⟩
      · have huntaint : Steps [] s (s.untaint name) := .of_eq rfl le_rfl rfl
        exact huntaint.trans hsteps
      · rw [hvisible, visible, visible, List.filter_cons_of_neg (by simp [ht])]
    | value v =>
      simp only [scanNext, hk, Prod.mk.injEq] at h
      obtain ⟨rfl, rfl⟩ := h
      exact ⟨steps_tokenPush (some t), rfl, by simp [Tok.isUntaint, hk], List.suffix_rfl, rfl⟩
    | streamBegin =>
      simp only [scanNext, hk, Prod.mk.injEq] at h
      obtain ⟨rfl, rfl⟩ := h
      exact ⟨steps_tokenPush (some t), rfl, by simp [Tok.isUntaint, hk], List.suffix_rfl, rfl⟩

theorem Fresh.suffix (h : Fresh s list) (hsuffix : list' <:+ list) : Fresh s list' :=
  fun t ht => h t (hsuffix.subset ht)

theorem fresh_allocated (s : State) (ts : List Tok) : s.nextId ≤ (s.allocated ts).nextId ∧ Fresh (s.allocated ts) ts := by
  have hfold : ∀ (ts : List Tok) (n : ℕ), n ≤ ts.foldl (fun n t => max n (t.id + 1)) n ∧
      ∀ t ∈ ts, t.id < ts.foldl (fun n t => max n (t.id + 1)) n := by
    intro ts
    induction ts with
    | nil => exact fun n => ⟨le_rfl, by simp⟩
    | cons t ts ih =>
      intro n
      obtain ⟨hle, hlt⟩ := ih (max n (t.id + 1))
      refine ⟨(le_max_left _ _).trans hle, fun x hx => ?_⟩
      obtain rfl | hx := List.mem_cons.mp hx
      · exact Nat.lt_of_succ_le ((le_max_right _ _).trans hle)
      · exact hlt x hx
  exact hfold ts s.nextId

theorem steps_allocated (s : State) (ts : List Tok) : Steps [] s (s.allocated ts) :=
  .of_eq rfl (fresh_allocated s ts).1 rfl

end Steps

/-! ## Every part of the expansion takes steps -/

/-- The loops rely on this of the calls of `expand_one_symbol` that they make. -/
def Sound (expandOne : ExpandOne) : Prop :=
  ∀ {s s' : State} {t : Tok} {rest list : List Tok} {kept : Bool}, Fresh s (t :: rest) →
    expandOne s t rest = some (kept, list, s') → (∃ ps, Steps ps s s') ∧ Fresh s' list

section Sound

variable {c : Context} {expandOne : ExpandOne} {fuel : ℕ} {s s' : State} {list out rest : List Tok}

/-- What `scan_next` finds is the first visible token. -/
theorem scanNext_head {list' : List Tok} (h : scanNext s list = (list', s')) :
    Steps [(visible list).head?.map Tok.id] s s' := by
  obtain ⟨hsteps, hvisible, hhead, -⟩ := scanNext_spec h
  cases list' with
  | nil => rwa [← hvisible]
  | cons t ts =>
    have ht : t.isUntaint = false := hhead t rfl
    rwa [← hvisible, visible, List.filter_cons_of_pos (by simp [ht])]

/-- `expand_list` hands the first token of the list to the recorders, or its end. -/
theorem expandList_steps (hone : Sound expandOne) (hlist : Fresh s list)
    (h : expandList expandOne fuel s list = some (out, s')) :
    (∃ ps, Steps ((visible list).head?.map Tok.id :: ps) s s') ∧ Fresh s' out := by
  induction fuel generalizing s list out with
  | zero => cases h
  | succ fuel ih =>
    rw [expandList] at h
    cases hscan : scanNext s list with
    | mk list' s₁ =>
      rw [hscan] at h
      have hfirst := scanNext_head hscan
      obtain ⟨-, -, -, hsuffix, -⟩ := scanNext_spec hscan
      have hlist' : Fresh s₁ list' := (hlist.suffix hsuffix).mono hfirst
      cases list' with
      | nil =>
        simp only [Option.some.injEq, Prod.mk.injEq] at h
        obtain ⟨rfl, rfl⟩ := h
        exact ⟨⟨[], hfirst⟩, by simp [Fresh]⟩
      | cons t ts =>
        -- a token that is kept, with the rest of the list behind it
        have hkeep : ∀ {t : Tok} {ts : List Tok} {s₂ : State} {ps : List (Option ℕ)}, Steps ps s₁ s₂ →
            Fresh s₂ (t :: ts) → (expandList expandOne fuel s₂ ts).bind (fun x => some (t :: x.1, x.2)) =
              some (out, s') → (∃ ps, Steps ((visible list).head?.map Tok.id :: ps) s s') ∧ Fresh s' out := by
          intro t ts s₂ ps hsteps hfresh hrun
          obtain ⟨⟨rest, s₃⟩, hrest, hout⟩ := Option.bind_eq_some_iff.mp hrun
          simp only [Option.some.injEq, Prod.mk.injEq] at hout
          obtain ⟨rfl, rfl⟩ := hout
          obtain ⟨⟨qs, hqs⟩, hfresh'⟩ := ih hfresh.tail hrest
          refine ⟨⟨_, hfirst.trans (hsteps.trans hqs)⟩, Fresh.cons ?_ hfresh'⟩
          exact (hfresh t List.mem_cons_self).trans_le hqs.nextId
        dsimp only at h
        split at h
        · exact hkeep (.refl s₁) hlist' h
        · obtain ⟨⟨kept, list₂, s₂⟩, hexpand, hrun⟩ := Option.bind_eq_some_iff.mp h
          obtain ⟨⟨ps, hsteps⟩, hfresh⟩ := hone hlist' hexpand
          have hgo : expandList expandOne fuel s₂ list₂ = some (out, s') →
              (∃ ps, Steps ((visible list).head?.map Tok.id :: ps) s s') ∧ Fresh s' out := by
            intro hrun
            obtain ⟨⟨qs, hqs⟩, hfresh'⟩ := ih hfresh hrun
            exact ⟨⟨_, hfirst.trans (hsteps.trans hqs)⟩, hfresh'⟩
          cases kept with
          | false => exact hgo hrun
          | true =>
            cases list₂ with
            | nil => exact hgo hrun
            | cons t ts => exact hkeep hsteps hfresh hrun

theorem runScript_steps (hone : Sound expandOne) {script : Script}
    (h : runScript expandOne fuel s script = some (out, s')) : (∃ ps, Steps ps s s') ∧ Fresh s' out := by
  induction fuel generalizing s script with
  | zero => cases h
  | succ fuel ih =>
    cases script with
    | done macros falseNesting errors rest =>
      simp only [runScript, Option.some.injEq, Prod.mk.injEq] at h
      obtain ⟨rfl, rfl⟩ := h
      have hset : Steps [] s
          { s with macros := macros, falseNesting := falseNesting, errors := s.errors ++ errors } :=
        .of_eq rfl le_rfl rfl
      exact ⟨⟨_, hset.trans (steps_allocated _ rest)⟩, (fresh_allocated _ _).2⟩
    | scanNext list next =>
      rw [runScript] at h
      cases hscan : MacroExpansion.scanNext (s.allocated list) list with
      | mk list' s₁ =>
        rw [hscan] at h
        obtain ⟨⟨ps, hps⟩, hfresh⟩ := ih h
        exact ⟨⟨_, (steps_allocated s list).trans ((scanNext_head hscan).trans hps)⟩, hfresh⟩
    | expandOneSymbol t rest next =>
      obtain ⟨⟨kept, list, s₁⟩, hexpand, hrun⟩ := Option.bind_eq_some_iff.mp h
      obtain ⟨⟨ps, hps⟩, -⟩ := hone (fresh_allocated s (t :: rest)).2 hexpand
      obtain ⟨⟨qs, hqs⟩, hfresh⟩ := ih hrun
      exact ⟨⟨_, (steps_allocated s (t :: rest)).trans (hps.trans hqs)⟩, hfresh⟩

theorem collectArg_steps (hone : Sound expandOne) {vararg : Bool} {place : Place} {stream nesting : ℕ}
    {arg : List Tok} {next : Option Tok} (hlist : Fresh s list)
    (h : collectArg c expandOne vararg place stream fuel nesting s list = some (arg, next, rest, s')) :
    (∃ ps, Steps ps s s') ∧ Fresh s' arg ∧ Fresh s' rest := by
  induction fuel generalizing s nesting list arg with
  | zero => cases h
  | succ fuel ih =>
    rw [collectArg] at h
    cases hscan : scanNext s list with
    | mk list' s₁ =>
      rw [hscan] at h
      have hfirst := scanNext_head hscan
      obtain ⟨-, -, -, hsuffix, -⟩ := scanNext_spec hscan
      have hlist' : Fresh s₁ list' := (hlist.suffix hsuffix).mono hfirst
      have hstop : ∀ {ts : List Tok} {n : Option Tok}, Fresh s₁ ts →
          some (([] : List Tok), n, ts, s₁) = some (arg, next, rest, s') →
            (∃ ps, Steps ps s s') ∧ Fresh s' arg ∧ Fresh s' rest := by
        intro ts n hts h
        simp only [Option.some.injEq, Prod.mk.injEq] at h
        obtain ⟨rfl, -, rfl, rfl⟩ := h
        exact ⟨⟨_, hfirst⟩, by simp [Fresh], hts⟩
      cases list' with
      | nil => exact hstop (by simp [Fresh]) h
      | cons t ts =>
        dsimp only at h
        split at h
        · obtain ⟨⟨list₂, s₂⟩, hscript, hrun⟩ := Option.bind_eq_some_iff.mp h
          obtain ⟨⟨ps, hps⟩, hfresh⟩ := runScript_steps hone hscript
          obtain ⟨⟨qs, hqs⟩, harg, hrest⟩ := ih hfresh hrun
          have herror : Steps [] s₁ (s₁.sparseError t.place .directiveInArguments) := .of_eq rfl le_rfl rfl
          exact ⟨⟨_, hfirst.trans (herror.trans (hps.trans hqs))⟩, harg, hrest⟩
        · split at h
          · exact hstop hlist'.tail h
          · split at h
            · obtain ⟨⟨qs, hqs⟩, harg, hrest⟩ := ih hlist'.tail h
              exact ⟨⟨_, hfirst.trans hqs⟩, harg, hrest⟩
            · split at h
              · exact hstop hlist'.tail h
              · split at h
                · exact hstop hlist'.tail h
                · obtain ⟨⟨arg', next', rest', s₂⟩, hrun, hout⟩ := Option.bind_eq_some_iff.mp h
                  simp only [Option.some.injEq, Prod.mk.injEq] at hout
                  obtain ⟨rfl, rfl, rfl, rfl⟩ := hout
                  obtain ⟨⟨qs, hqs⟩, harg, hrest⟩ := ih hlist'.tail hrun
                  refine ⟨⟨_, hfirst.trans hqs⟩, Fresh.cons ?_ harg, hrest⟩
                  exact (hlist' t List.mem_cons_self).trans_le hqs.nextId

theorem steps_sparseError (s : State) (place : Place) (complaint : Complaint) :
    Steps [] s (s.sparseError place complaint) :=
  .of_eq rfl le_rfl rfl

/-- `Emany` always ends in an error. -/
theorem tooMany_steps (hone : Sound expandOne) {name : List UInt8} {place : Place} {wanted count : ℕ} {next : Tok}
    {args : Option (List Arg)} (hlist : Fresh s list)
    (h : tooMany c expandOne name place wanted fuel count s next list = some (args, rest, s')) :
    args = none ∧ (∃ ps, Steps ps s s') ∧ Fresh s' rest := by
  induction fuel generalizing s count next list with
  | zero => cases h
  | succ fuel ih =>
    rw [tooMany] at h
    split at h
    · obtain ⟨⟨arg, next', rest', s₁⟩, hcollect, hrun⟩ := Option.bind_eq_some_iff.mp h
      obtain ⟨⟨ps, hps⟩, -, hrest⟩ := collectArg_steps hone hlist hcollect
      cases next' with
      | none =>
        simp only [Option.some.injEq, Prod.mk.injEq] at hrun
        obtain ⟨rfl, rfl, rfl⟩ := hrun
        exact ⟨rfl, ⟨_, hps.trans (steps_sparseError _ _ _)⟩, hrest⟩
      | some next' =>
        obtain ⟨hargs, ⟨qs, hqs⟩, hfresh⟩ := ih hrest hrun
        exact ⟨hargs, ⟨_, hps.trans hqs⟩, hfresh⟩
    · simp only [Option.some.injEq, Prod.mk.injEq] at h
      obtain ⟨rfl, rfl, rfl⟩ := h
      exact ⟨rfl, ⟨_, steps_sparseError _ _ _⟩, hlist⟩

/-- The tokens of the arguments have been allocated. -/
def FreshArgs (s : State) (args : List Arg) : Prop := ∀ a ∈ args, Fresh s (a.arg.getD [])

theorem FreshArgs.mono {args : List Arg} {ps : List (Option ℕ)} (h : FreshArgs s args) (hsteps : Steps ps s s') :
    FreshArgs s' args :=
  fun a ha => (h a ha).mono hsteps

theorem FreshArgs.concat {args : List Arg} {p : Param} {arg : Option (List Tok)} (h : FreshArgs s args)
    (harg : Fresh s (arg.getD [])) : FreshArgs s (args ++ [p.toArg arg]) := by
  intro a ha
  obtain ha | ha := List.mem_append.mp ha
  · exact h a ha
  · rw [List.mem_singleton.mp ha]
    exact harg

theorem collectParams_steps (hone : Sound expandOne) {name : List UInt8} {place : Place} {wanted : ℕ}
    {params : List Param} {args : List Arg} {start : Tok} {args' : Option (List Arg)} (hlist : Fresh s list)
    (hargs : FreshArgs s args)
    (h : collectParams c expandOne name place wanted fuel params args s start list = some (args', rest, s')) :
    (∃ ps, Steps ps s s') ∧ (∀ out, args' = some out → FreshArgs s' out) ∧ Fresh s' rest := by
  induction params generalizing s args start list with
  | nil =>
    obtain ⟨rfl, hsteps, hfresh⟩ := tooMany_steps hone hlist h
    exact ⟨hsteps, by simp, hfresh⟩
  | cons p params ih =>
    obtain ⟨⟨arg, next, rest₁, s₁⟩, hcollect, hrun⟩ := Option.bind_eq_some_iff.mp h
    obtain ⟨⟨ps, hps⟩, harg, hrest⟩ := collectArg_steps hone hlist hcollect
    have hargs₁ : FreshArgs s₁ (args ++ [p.toArg (some arg)]) := (hargs.mono hps).concat harg
    cases next with
    | none =>
      simp only [Option.some.injEq, Prod.mk.injEq] at hrun
      obtain ⟨rfl, rfl, rfl⟩ := hrun
      exact ⟨⟨_, hps.trans (steps_sparseError _ _ _)⟩, by simp, hrest⟩
    | some next =>
      dsimp only at hrun
      split at hrun
      · split at hrun
        · simp only [Option.some.injEq, Prod.mk.injEq] at hrun
          obtain ⟨rfl, rfl, rfl⟩ := hrun
          exact ⟨⟨_, hps⟩, by rintro _ ⟨⟩; exact hargs₁, hrest⟩
        · split at hrun
          · simp only [Option.some.injEq, Prod.mk.injEq] at hrun
            obtain ⟨rfl, rfl, rfl⟩ := hrun
            exact ⟨⟨_, hps⟩, by rintro _ ⟨⟩; exact hargs₁.concat (by simp [Fresh]), hrest⟩
          · simp only [Option.some.injEq, Prod.mk.injEq] at hrun
            obtain ⟨rfl, rfl, rfl⟩ := hrun
            exact ⟨⟨_, hps.trans (steps_sparseError _ _ _)⟩, by simp, hrest⟩
        · simp only [Option.some.injEq, Prod.mk.injEq] at hrun
          obtain ⟨rfl, rfl, rfl⟩ := hrun
          exact ⟨⟨_, hps.trans (steps_sparseError _ _ _)⟩, by simp, hrest⟩
      · obtain ⟨⟨qs, hqs⟩, hout, hfresh⟩ := ih hrest hargs₁ hrun
        exact ⟨⟨_, hps.trans hqs⟩, hout, hfresh⟩

theorem collectArguments_steps (hone : Sound expandOne) {name : List UInt8} {place : Place} {params : List Param}
    {start : Tok} {args : Option (List Arg)} (hlist : Fresh s list)
    (h : collectArguments c expandOne name place params fuel s start list = some (args, rest, s')) :
    (∃ ps, Steps ps s s') ∧ (∀ out, args = some out → FreshArgs s' out) ∧ Fresh s' rest := by
  rw [collectArguments] at h
  split at h
  · obtain ⟨⟨arg, next, rest₁, s₁⟩, hcollect, hrun⟩ := Option.bind_eq_some_iff.mp h
    obtain ⟨⟨ps, hps⟩, -, hrest⟩ := collectArg_steps hone hlist hcollect
    cases next with
    | none =>
      simp only [Option.some.injEq, Prod.mk.injEq] at hrun
      obtain ⟨rfl, rfl, rfl⟩ := hrun
      exact ⟨⟨_, hps.trans (steps_sparseError _ _ _)⟩, by simp, hrest⟩
    | some next =>
      dsimp only at hrun
      split at hrun
      · obtain ⟨rfl, ⟨qs, hqs⟩, hfresh⟩ := tooMany_steps hone hrest hrun
        exact ⟨⟨_, hps.trans hqs⟩, by simp, hfresh⟩
      · simp only [Option.some.injEq, Prod.mk.injEq] at hrun
        obtain ⟨rfl, rfl, rfl⟩ := hrun
        exact ⟨⟨_, hps⟩, by rintro _ ⟨⟩; simp [FreshArgs], hrest⟩
  · exact collectParams_steps hone hlist (by simp [FreshArgs]) h

/-! ### The arguments that are expanded -/

theorem visible_eq_nil {ts : List Tok} : visible ts = [] ↔ ∀ t ∈ ts, t.isUntaint = true := by
  simp [visible]

theorem dupList_spec {ts ts' : List Tok} (h : dupList s ts = (ts', s')) :
    Steps [] s s' ∧ Fresh s' ts' ∧ (visible ts' = [] ↔ visible ts = []) := by
  induction ts generalizing s ts' with
  | nil =>
    simp only [dupList, Prod.mk.injEq] at h
    obtain ⟨rfl, rfl⟩ := h
    exact ⟨.refl _, by simp [Fresh], Iff.rfl⟩
  | cons t ts ih =>
    cases hrest : dupList (dupToken s t t.place).2 ts with
    | mk rest s₁ =>
      simp only [dupList, hrest, Prod.mk.injEq] at h
      obtain ⟨rfl, rfl⟩ := h
      obtain ⟨hsteps, hfresh, hvisible⟩ := ih hrest
      have hfirst : Steps [] s (dupToken s t t.place).2 := .of_eq rfl (Nat.le_succ _) rfl
      refine ⟨hfirst.trans hsteps, Fresh.cons (Nat.lt_of_lt_of_le (Nat.lt_succ_self _) hsteps.nextId) hfresh, ?_⟩
      have hkind : (dupToken s t t.place).1.isUntaint = t.isUntaint := rfl
      simp only [visible_eq_nil, List.forall_mem_cons, hkind] at hvisible ⊢
      rw [hvisible]

theorem steps_stringify (s : State) (arg : List Tok) : Steps [] s (stringify s arg).2 := by
  unfold stringify
  dsimp only
  split
  · exact .of_eq rfl (Nat.le_succ _) rfl
  · exact .of_eq rfl (Nat.le_succ _) rfl

/-- An argument that is expanded is handed to the recorders; if it is empty, they first see
the end of its list. -/
theorem expandArgument_steps (hone : Sound expandOne) {a a' : Arg} (harg : Fresh s (a.arg.getD []))
    (h : expandArgument expandOne fuel s a = some (a', s')) :
    (a.nNormal = 0 ∧ Steps [] s s') ∨
      (a.nNormal ≠ 0 ∧ ∃ p ps, Steps (p :: ps) s s' ∧ (p = none ↔ visible (a.arg.getD []) = [])) := by
  -- the state behind `stringify`
  obtain ⟨b, s₁, hb, hsteps, hb₁, hb₂, hb₃⟩ :
      ∃ (b : Arg) (s₁ : State), (if a.nStr ≠ 0 then
        ({ a with str := [(stringify s (a.arg.getD [])).1] }, (stringify s (a.arg.getD [])).2)
        else (a, s)) = (b, s₁) ∧ Steps [] s s₁ ∧ b.nNormal = a.nNormal ∧ b.nQuoted = a.nQuoted ∧ b.arg = a.arg := by
    by_cases hstr : a.nStr ≠ 0
    · exact ⟨_, _, if_pos hstr, steps_stringify s _, rfl, rfl, rfl⟩
    · exact ⟨_, _, if_neg hstr, .refl s, rfl, rfl, rfl⟩
  unfold expandArgument at h
  dsimp only at h
  rw [hb] at h
  dsimp only at h
  by_cases hnormal : a.nNormal = 0
  · rw [hb₁, if_neg (by simp [hnormal])] at h
    simp only [Option.some.injEq, Prod.mk.injEq] at h
    rw [← h.2]
    exact .inl ⟨hnormal, hsteps⟩
  · refine .inr ⟨hnormal, ?_⟩
    rw [hb₁, if_pos hnormal] at h
    by_cases hquoted : a.nQuoted = 0
    · rw [hb₂, if_pos hquoted] at h
      obtain ⟨⟨list, s₂⟩, hrun, hout⟩ := Option.map_eq_some_iff.mp h
      obtain ⟨⟨ps, hps⟩, -⟩ := expandList_steps hone (harg.mono hsteps) hrun
      simp only [Prod.mk.injEq] at hout
      rw [← hout.2]
      exact ⟨_, ps, hsteps.trans hps, by simp⟩
    · rw [hb₂, if_neg hquoted] at h
      cases hdup : dupList s₁ (a.arg.getD []) with
      | mk copied s₂ =>
        obtain ⟨hsteps', hfresh, hvisible⟩ := dupList_spec hdup
        simp only [hdup] at h
        obtain ⟨⟨list, s₃⟩, hrun, hout⟩ := Option.map_eq_some_iff.mp h
        obtain ⟨⟨ps, hps⟩, -⟩ := expandList_steps hone hfresh hrun
        simp only [Prod.mk.injEq] at hout
        rw [← hout.2]
        exact ⟨_, ps, hsteps.trans (hsteps'.trans hps), by simp [hvisible]⟩

/-- `quiet`, of the arguments that have been collected. -/
def silent : List Arg → Bool
  | [] => true
  | a :: args => if a.nNormal ≠ 0 then (visible (a.arg.getD [])).isEmpty else silent args

theorem expandArguments_steps (hone : Sound expandOne) {args args' : List Arg} (hargs : FreshArgs s args)
    (h : expandArguments expandOne fuel s args = some (args', s')) :
    ∃ ps, Steps ps s s' ∧ (recorded ps = [] ↔ silent args = true) := by
  induction args generalizing s args' with
  | nil =>
    simp only [expandArguments, Option.some.injEq, Prod.mk.injEq] at h
    rw [← h.2]
    exact ⟨[], .refl s, by simp [recorded, silent]⟩
  | cons a args ih =>
    obtain ⟨⟨a', s₁⟩, hfirst, hrun⟩ := Option.bind_eq_some_iff.mp h
    obtain ⟨⟨args₁, s₂⟩, hrest, hout⟩ := Option.bind_eq_some_iff.mp hrun
    simp only [Option.some.injEq, Prod.mk.injEq] at hout
    obtain ⟨-, rfl⟩ := hout
    have hfresh := hargs a List.mem_cons_self
    have hargs' : FreshArgs s args := fun b hb => hargs b (List.mem_cons_of_mem _ hb)
    obtain ⟨hnormal, hsteps⟩ | ⟨hnormal, p, ps, hsteps, hnone⟩ := expandArgument_steps hone hfresh hfirst
    · obtain ⟨qs, hqs, hsilent⟩ := ih (hargs'.mono hsteps) hrest
      exact ⟨qs, hsteps.trans hqs, by simpa [silent, hnormal] using hsilent⟩
    · obtain ⟨qs, hqs, -⟩ := ih (hargs'.mono hsteps) hrest
      refine ⟨p :: ps ++ qs, hsteps.trans hqs, ?_⟩
      rw [recorded_eq_nil, silent, if_pos hnormal, List.isEmpty_iff, ← hnone]
      simp

end Sound

/-! ## Reading the argument list -/

section Reads

variable {c : Context} {expandOne : ExpandOne} {fuel : ℕ} {s s' s'' : State} {list rest ts us : List Tok}

/-- The recorders get the tokens `ts`. -/
def Pushes (ts : List Tok) (s s' : State) : Prop :=
  s'.tokStk = s.tokStk.map fun r => r.pushAll (ts.map fun t => some t.id)

theorem Pushes.trans (h : Pushes ts s s') (h' : Pushes us s' s'') : Pushes (ts ++ us) s s'' := by
  rw [Pushes, h', h, List.map_map, List.map_append]
  exact List.map_congr_left fun r _ => (r.pushAll_append _ _).symm

/-- In front of any end of a list, the recorders get a `#` of `ts` that begins a directive. -/
def Meets (ts : List Tok) (s s' : State) : Prop :=
  ∃ before t ps, t ∈ ts ∧ t.isDirective = true ∧
    s'.tokStk = s.tokStk.map fun r => r.pushAll (((before ++ [t]).map fun t => some t.id) ++ ps)

theorem Meets.mono (h : Meets ts s s') (hsub : ∀ t ∈ ts, t ∈ us) : Meets us s s' := by
  obtain ⟨before, t, ps, ht, hdirective, hpushed⟩ := h
  exact ⟨before, t, ps, hsub t ht, hdirective, hpushed⟩

theorem Meets.trans {ps : List (Option ℕ)} (h : Meets ts s s') (hsteps : Steps ps s' s'') : Meets ts s s'' := by
  obtain ⟨before, t, qs, ht, hdirective, hpushed⟩ := h
  refine ⟨before, t, qs ++ ps, ht, hdirective, ?_⟩
  rw [hsteps.pushed, hpushed, List.map_map]
  exact List.map_congr_left fun r _ => by rw [Function.comp_apply, ← Recorder.pushAll_append, List.append_assoc]

theorem Pushes.meets (h : Pushes us s s') (h' : Meets ts s' s'') : Meets ts s s'' := by
  obtain ⟨before, t, ps, ht, hdirective, hpushed⟩ := h'
  refine ⟨us ++ before, t, ps, ht, hdirective, ?_⟩
  rw [hpushed, h, List.map_map]
  refine List.map_congr_left fun r _ => ?_
  rw [Function.comp_apply, ← Recorder.pushAll_append, ← List.append_assoc, ← List.map_append, List.append_assoc]

theorem Pushes.directive {t : Tok} {ps : List (Option ℕ)} (h : Pushes [t] s s') (hsteps : Steps ps s' s'')
    (ht : t ∈ ts) (hdirective : t.isDirective = true) : Meets ts s s'' :=
  Meets.trans ⟨[], t, [], ht, hdirective, by rw [List.append_nil]; exact h⟩ hsteps

/-- The recorder pushed for a call has the `#` when it is popped. -/
theorem Meets.popped (h : Meets ts s.tokenPushRec s') : ∃ t ∈ ts, t.isDirective = true ∧ t.id ∈ s'.tokenPopRec.1 := by
  obtain ⟨before, t, ps, ht, hdirective, hpushed⟩ := h
  refine ⟨t, ht, hdirective, ?_⟩
  have hids : (before ++ [t]).map (fun t => some t.id) = ((before ++ [t]).map Tok.id).map some := by
    rw [List.map_map]
    rfl
  have hup : s'.tokenPopRec.1 = (before ++ [t]).map Tok.id ++ recorded ps := by
    simp only [State.tokenPopRec, hpushed, State.tokenPushRec, List.map_cons, List.head?_cons, Option.map_some,
      Option.getD_some, Recorder.pushAll_items, List.nil_append]
    rw [hids, recorded_map_some]
  simp [hup]

theorem scanNext_cons {t : Tok} {s₁ : State} (h : scanNext s list = (t :: ts, s₁)) :
    Pushes [t] s s₁ ∧ visible list = t :: visible ts ∧ t.isUntaint = false ∧ s₁.falseNesting = s.falseNesting := by
  obtain ⟨hsteps, hvisible, hhead, -, hfalse⟩ := scanNext_spec h
  have ht : t.isUntaint = false := hhead t rfl
  refine ⟨hsteps.pushed, ?_, ht, hfalse⟩
  rw [← hvisible, visible, List.filter_cons_of_pos (by simp [ht])]
  rfl

theorem matchOp_comma {t : Tok} (h : t.matchOp ',' = true) : t.matchOp ')' = false ∧ t.matchOp '(' = false := by
  simp only [Tok.matchOp, decide_eq_true_eq] at h
  simp [Tok.matchOp, h]

theorem isDirective_open {t : Tok} (h : t.matchOp '(' = true) : t.isDirective = false := by
  simp only [Tok.matchOp, decide_eq_true_eq] at h
  simp [Tok.isDirective, Tok.matchOp, h]

theorem matchOp_mark {t : Tok} (h : t.isStreamMark = true) (c : Char) : t.matchOp c = false := by
  simp only [Tok.isStreamMark, Bool.or_eq_true, decide_eq_true_eq] at h
  rcases h with h | h <;> simp [Tok.matchOp, h]

theorem mem_throughClose_head {nesting : ℕ} {t : Tok} : t ∈ throughClose nesting (t :: ts) := by
  rw [throughClose]
  split <;> simp

/-- Behind a directive line of the arguments the loop goes on with what the line leaves. -/
theorem collectArg_directive (hone : Sound expandOne) {vararg : Bool} {place : Place} {stream nesting : ℕ}
    {arg : List Tok} {next : Option Tok} {t : Tok}
    (h : ((runScript expandOne fuel (s.sparseError t.place .directiveInArguments)
      (c.preprocessorLine (s.sparseError t.place .directiveInArguments) stream (t :: ts))).bind fun x =>
        collectArg c expandOne vararg place stream fuel nesting x.2 x.1) = some (arg, next, rest, s')) :
    ∃ ps, Steps ps s s' := by
  obtain ⟨⟨list, s₁⟩, hscript, hrun⟩ := Option.bind_eq_some_iff.mp h
  obtain ⟨⟨ps, hps⟩, hfresh⟩ := runScript_steps hone hscript
  obtain ⟨⟨qs, hqs⟩, -⟩ := collectArg_steps hone hfresh hrun
  exact ⟨_, (steps_sparseError s t.place .directiveInArguments).trans (hps.trans hqs)⟩

/-- Up to a directive line, `collect_arg` reads one argument and the token behind it. -/
theorem collectArg_reads (hone : Sound expandOne) {vararg : Bool} {place : Place} {stream nesting : ℕ}
    {arg : List Tok} {next : Tok} (hfalse : s.falseNesting = 0)
    (h : collectArg c expandOne vararg place stream fuel nesting s list = some (arg, some next, rest, s')) :
    Meets (throughClose nesting (visible list)) s s' ∨
      ∃ taken, Pushes (taken ++ [next]) s s' ∧ s'.falseNesting = 0 ∧ (visible arg = [] ↔ taken = []) ∧
        (∀ t ∈ taken ++ [next], t.isDirective = false) ∧
        takeArgument vararg nesting (visible list) = (taken, next :: visible rest) ∧
        throughClose nesting (visible list) =
          taken ++ next :: (if next.matchOp ')' then [] else throughClose 0 (visible rest)) := by
  induction fuel generalizing s nesting list arg with
  | zero => cases h
  | succ fuel ih =>
    rw [collectArg] at h
    cases hscan : scanNext s list with
    | mk list' s₁ =>
      rw [hscan] at h
      cases list' with
      | nil => simp at h
      | cons t ts =>
        obtain ⟨hpush, hvisible, huntaint, hfalse₁⟩ := scanNext_cons hscan
        rw [hvisible]
        dsimp only at h
        by_cases hdirective : t.isDirective = true
        · rw [if_pos hdirective] at h
          obtain ⟨ps, hps⟩ := collectArg_directive hone h
          exact .inl (hpush.directive hps mem_throughClose_head hdirective)
        rw [if_neg hdirective] at h
        rw [Bool.not_eq_true] at hdirective
        by_cases hmark : t.isStreamMark = true
        · rw [if_pos hmark] at h
          simp only [Option.some.injEq, Prod.mk.injEq] at h
          obtain ⟨rfl, rfl, rfl, rfl⟩ := h
          refine .inr ⟨[], hpush, hfalse₁.trans hfalse, by simp [visible], by simp [hdirective], ?_, ?_⟩
          · rw [takeArgument, if_pos (by simp [hmark])]
          · simp [throughClose, Tok.nestBehind, matchOp_mark hmark, hmark]
        have hnest : t.nestBehind nesting = t.nest nesting := if_neg hmark
        rw [if_neg hmark, if_neg (by simp [hfalse₁, hfalse])] at h
        split at h
        · rename_i hclose
          simp only [Option.some.injEq, Prod.mk.injEq] at h
          obtain ⟨rfl, rfl, rfl, rfl⟩ := h
          simp only [Bool.and_eq_true, decide_eq_true_eq] at hclose
          refine .inr ⟨[], hpush, hfalse₁.trans hfalse, by simp [visible], by simp [hdirective], ?_, ?_⟩
          · rw [takeArgument, if_pos (by simp [hclose])]
          · rw [throughClose, if_pos (by simp [hclose]), if_pos hclose.1, List.nil_append]
        · rename_i hclose
          split at h
          · rename_i hcomma
            simp only [Option.some.injEq, Prod.mk.injEq] at h
            obtain ⟨rfl, rfl, rfl, rfl⟩ := h
            simp only [Bool.and_eq_true, decide_eq_true_eq] at hcomma
            obtain ⟨hnot, hopen⟩ := matchOp_comma hcomma.1.1
            refine .inr ⟨[], hpush, hfalse₁.trans hfalse, by simp [visible], by simp [hdirective], ?_, ?_⟩
            · rw [takeArgument, if_pos (by simp [hcomma])]
            · simp [throughClose, Tok.nestBehind, hmark, Tok.nest, hnot, hopen, hcomma.1.2]
          · rename_i hcomma
            obtain ⟨⟨arg', next', rest', s₂⟩, hrun, hout⟩ := Option.bind_eq_some_iff.mp h
            simp only [Option.some.injEq, Prod.mk.injEq] at hout
            obtain ⟨rfl, rfl, rfl, rfl⟩ := hout
            have hthrough :
                throughClose nesting (t :: visible ts) = t :: throughClose (t.nest nesting) (visible ts) := by
              rw [throughClose, if_neg hclose, hnest]
            rw [hthrough]
            obtain hmeets | ⟨taken, hpush', hfalse', -, hplain, htake, hrest⟩ := ih (hfalse₁.trans hfalse) hrun
            · exact .inl ((hpush.meets hmeets).mono fun x hx => List.mem_cons_of_mem _ hx)
            refine .inr ⟨t :: taken, hpush.trans hpush', hfalse', ?_, ?_, ?_, ?_⟩
            · have hkeep : ({ t with place := place } : Tok).isUntaint = false := huntaint
              simp [visible_eq_nil, hkeep]
            · rw [List.cons_append, List.forall_mem_cons]
              exact ⟨hdirective, hplain⟩
            · rw [takeArgument, if_neg, htake]
              simp only [Bool.and_eq_true, Bool.or_eq_true, not_and, not_or] at hclose hcomma ⊢
              refine ⟨hmark, ?_⟩
              rintro (hc | hc) hn
              · exact hclose hc hn
              · exact hcomma ⟨hc.1, hn⟩ hc.2
            · rw [hrest, List.cons_append]

/-- A missing last argument is empty. -/
theorem silent_missing (p : Param) : silent [p.toArg none] = true := by
  by_cases h : p.normal = 0
  · simp [silent, Param.toArg, h]
  · simp [silent, Param.toArg, h, visible]

/-- A step of the loop of `collect_arguments` that ends well: the argument, and behind it the
end of the list or the other parameters. -/
theorem collectParams_cons (hone : Sound expandOne) {name : List UInt8} {place : Place} {wanted : ℕ} {p : Param}
    {params : List Param} {args out : List Arg} {start : Tok} (hlist : Fresh s list) (hargs : FreshArgs s args)
    (h : collectParams c expandOne name place wanted fuel (p :: params) args s start list =
      some (some out, rest, s')) :
    ∃ arg next rest₁ s₁,
      collectArg c expandOne p.vararg place start.place.stream fuel 0 s list = some (arg, some next, rest₁, s₁) ∧
        (∃ ps, Steps ps s₁ s') ∧
        ((next.matchOp ')' = true ∧ s' = s₁ ∧ (params = [] ∧ out = args ++ [p.toArg (some arg)] ∨
            ∃ q, params = [q] ∧ out = args ++ [p.toArg (some arg), q.toArg none])) ∨
          (next.matchOp ')' = false ∧ Fresh s₁ rest₁ ∧ FreshArgs s₁ (args ++ [p.toArg (some arg)]) ∧
            collectParams c expandOne name place wanted fuel params (args ++ [p.toArg (some arg)]) s₁ next rest₁ =
              some (some out, rest, s'))) := by
  obtain ⟨⟨arg, next, rest₁, s₁⟩, hcollect, hrun⟩ := Option.bind_eq_some_iff.mp h
  obtain ⟨⟨ps, hps⟩, harg, hrest⟩ := collectArg_steps hone hlist hcollect
  have hargs₁ : FreshArgs s₁ (args ++ [p.toArg (some arg)]) := (hargs.mono hps).concat harg
  cases next with
  | none => simp at hrun
  | some next =>
    dsimp only at hrun
    split at hrun
    · rename_i hclose
      split at hrun
      · simp only [Option.some.injEq, Prod.mk.injEq] at hrun
        obtain ⟨rfl, rfl, rfl⟩ := hrun
        exact ⟨arg, next, _, _, hcollect, ⟨[], .refl _⟩, .inl ⟨hclose, rfl, .inl ⟨rfl, rfl⟩⟩⟩
      · rename_i q
        split at hrun
        · simp only [Option.some.injEq, Prod.mk.injEq] at hrun
          obtain ⟨rfl, rfl, rfl⟩ := hrun
          exact ⟨arg, next, _, _, hcollect, ⟨[], .refl _⟩, .inl ⟨hclose, rfl, .inr ⟨q, rfl, by simp⟩⟩⟩
        · simp at hrun
      · simp at hrun
    · rename_i hclose
      obtain ⟨hsteps, -⟩ := collectParams_steps hone hrest hargs₁ hrun
      exact ⟨arg, next, rest₁, s₁, hcollect, hsteps, .inr ⟨by simpa using hclose, hrest, hargs₁, hrun⟩⟩

/-- Up to a directive line, `collect_arguments` reads the argument list to its end, and what
will be expanded of the arguments can be read off the list. -/
theorem collectParams_reads (hone : Sound expandOne) {name : List UInt8} {place : Place} {wanted : ℕ}
    {params : List Param} {args out : List Arg} {start : Tok} (hlist : Fresh s list) (hargs : FreshArgs s args)
    (hfalse : s.falseNesting = 0)
    (h : collectParams c expandOne name place wanted fuel params args s start list = some (some out, rest, s')) :
    Meets (throughClose 0 (visible list)) s s' ∨
      ∃ new, out = args ++ new ∧ Pushes (throughClose 0 (visible list)) s s' ∧
        (∀ t ∈ throughClose 0 (visible list), t.isDirective = false) ∧ silent new = quiet params (visible list) := by
  induction params generalizing s args start list with
  | nil =>
    obtain ⟨hnone, -⟩ := tooMany_steps hone hlist h
    cases hnone
  | cons p params ih =>
    obtain ⟨arg, next, rest₁, s₁, hcollect, ⟨ps, hps⟩, hrun⟩ := collectParams_cons hone hlist hargs h
    obtain hmeets | ⟨taken, hpush, hfalse', hempty, hplain, htake, hthrough⟩ := collectArg_reads hone hfalse hcollect
    · exact .inl (hmeets.trans hps)
    have hexpanded : (visible arg).isEmpty = taken.isEmpty := by
      rw [Bool.eq_iff_iff, List.isEmpty_iff, List.isEmpty_iff, hempty]
    -- the first parameter decides unless it is not expanded
    have hquiet : ∀ new, silent new = (next.matchOp ')' || quiet params (visible rest₁)) →
        silent (p.toArg (some arg) :: new) = quiet (p :: params) (visible list) := by
      intro new hnew
      rw [silent, quiet, htake]
      simp only [Param.toArg, Option.getD_some, hexpanded, hnew]
    rw [hthrough]
    obtain ⟨hclose, rfl, hout⟩ | ⟨hclose, hrest, hargs₁, hrun⟩ := hrun
    · rw [if_pos hclose]
      obtain ⟨-, rfl⟩ | ⟨q, -, rfl⟩ := hout
      · exact .inr ⟨_, rfl, hpush, hplain, hquiet [] (by simp [silent, hclose])⟩
      · refine .inr ⟨[p.toArg (some arg), q.toArg none], rfl, hpush, hplain, hquiet _ ?_⟩
        rw [hclose, Bool.true_or, silent_missing]
    · rw [if_neg (by simp [hclose])]
      obtain hmeets | ⟨new, rfl, hpush', hplain', hsilent⟩ := ih hrest hargs₁ hfalse' hrun
      · refine .inl ((hpush.meets hmeets).mono fun t ht => ?_)
        exact List.mem_append_right _ (List.mem_cons_of_mem _ ht)
      refine .inr ⟨p.toArg (some arg) :: new, by simp, ?_, ?_, hquiet new (by simp [hclose, hsilent])⟩
      · simpa using hpush.trans hpush'
      · rw [List.append_cons]
        exact fun t ht => (List.mem_append.mp ht).elim (hplain t) (hplain' t)

theorem collectArguments_reads (hone : Sound expandOne) {name : List UInt8} {place : Place} {params : List Param}
    {out : List Arg} {start : Tok} (hlist : Fresh s list) (hfalse : s.falseNesting = 0)
    (h : collectArguments c expandOne name place params fuel s start list = some (some out, rest, s')) :
    Meets (throughClose 0 (visible list)) s s' ∨
      Pushes (throughClose 0 (visible list)) s s' ∧ (∀ t ∈ throughClose 0 (visible list), t.isDirective = false) ∧
        silent out = quiet params (visible list) := by
  rw [collectArguments] at h
  split at h
  · rename_i hparams
    obtain ⟨⟨arg, next, rest₁, s₁⟩, hcollect, hrun⟩ := Option.bind_eq_some_iff.mp h
    cases next with
    | none => simp at hrun
    | some next =>
      obtain ⟨-, -, hrest⟩ := collectArg_steps hone hlist hcollect
      dsimp only at hrun
      split at hrun
      · obtain ⟨hnone, -⟩ := tooMany_steps hone hrest hrun
        cases hnone
      · rename_i hclose
        simp only [Option.some.injEq, Prod.mk.injEq] at hrun
        obtain ⟨rfl, rfl, rfl⟩ := hrun
        simp only [Bool.or_eq_true, Bool.not_eq_true', not_or, Bool.not_eq_false, List.isEmpty_iff] at hclose
        obtain ⟨rfl, hclose⟩ := hclose
        refine (collectArg_reads hone hfalse hcollect).imp_right ?_
        rintro ⟨taken, hpush, -, -, hplain, -, hthrough⟩
        rw [hthrough, if_pos hclose, List.isEmpty_iff.mp hparams]
        exact ⟨hpush, hplain, rfl⟩
  · refine (collectParams_reads hone hlist (by simp [FreshArgs]) hfalse h).imp_right ?_
    rintro ⟨new, rfl, hpush, hplain, hsilent⟩
    exact ⟨hpush, hplain, hsilent⟩

/-- While a group is skipped, only a directive line and the end of a file or of the list are
noticed, so no argument ends with a closing parenthesis. -/
theorem collectArg_skipping (hone : Sound expandOne) {vararg : Bool} {place : Place} {stream nesting : ℕ}
    {arg : List Tok} {next : Tok} (hfalse : s.falseNesting ≠ 0)
    (h : collectArg c expandOne vararg place stream fuel nesting s list = some (arg, some next, rest, s')) :
    Meets (visible list) s s' ∨
      s'.falseNesting ≠ 0 ∧ (∀ t ∈ visible rest, t ∈ visible list) ∧ next.matchOp ')' = false ∧
        ∃ taken, Pushes taken s s' := by
  induction fuel generalizing s nesting list arg with
  | zero => cases h
  | succ fuel ih =>
    rw [collectArg] at h
    cases hscan : scanNext s list with
    | mk list' s₁ =>
      rw [hscan] at h
      cases list' with
      | nil => simp at h
      | cons t ts =>
        obtain ⟨hpush, hvisible, -, hfalse₁⟩ := scanNext_cons hscan
        have hskip : s₁.falseNesting ≠ 0 := by rwa [hfalse₁]
        rw [hvisible]
        dsimp only at h
        by_cases hdirective : t.isDirective = true
        · rw [if_pos hdirective] at h
          obtain ⟨ps, hps⟩ := collectArg_directive hone h
          exact .inl (hpush.directive hps List.mem_cons_self hdirective)
        rw [if_neg hdirective] at h
        by_cases hmark : t.isStreamMark = true
        · rw [if_pos hmark] at h
          simp only [Option.some.injEq, Prod.mk.injEq] at h
          obtain ⟨-, rfl, rfl, rfl⟩ := h
          exact .inr ⟨hskip, fun x hx => List.mem_cons_of_mem _ hx, matchOp_mark hmark ')', _, hpush⟩
        · rw [if_neg hmark, if_pos hskip] at h
          obtain hmeets | ⟨hfalse', hsub, hnext, taken, hpush'⟩ := ih hskip h
          · exact .inl ((hpush.meets hmeets).mono fun x hx => List.mem_cons_of_mem _ hx)
          · exact .inr ⟨hfalse', fun x hx => List.mem_cons_of_mem _ (hsub x hx), hnext, _, hpush.trans hpush'⟩

/-- So no argument list is read to its closing parenthesis without a directive line. -/
theorem collectParams_skipping (hone : Sound expandOne) {name : List UInt8} {place : Place} {wanted : ℕ}
    {params : List Param} {args out : List Arg} {start : Tok} (hlist : Fresh s list) (hargs : FreshArgs s args)
    (hfalse : s.falseNesting ≠ 0)
    (h : collectParams c expandOne name place wanted fuel params args s start list = some (some out, rest, s')) :
    Meets (visible list) s s' := by
  induction params generalizing s args start list with
  | nil =>
    obtain ⟨hnone, -⟩ := tooMany_steps hone hlist h
    cases hnone
  | cons p params ih =>
    obtain ⟨arg, next, rest₁, s₁, hcollect, ⟨ps, hps⟩, hrun⟩ := collectParams_cons hone hlist hargs h
    obtain hmeets | ⟨hfalse₁, hsub, hnext, taken, hpush⟩ := collectArg_skipping hone hfalse hcollect
    · exact hmeets.trans hps
    obtain ⟨hclose, -⟩ | ⟨-, hrest, hargs₁, hrun⟩ := hrun
    · simp [hclose] at hnext
    · exact (hpush.meets (ih hrest hargs₁ hfalse₁ hrun)).mono hsub

theorem collectArguments_skipping (hone : Sound expandOne) {name : List UInt8} {place : Place} {params : List Param}
    {start : Tok} {out : List Arg} (hlist : Fresh s list) (hfalse : s.falseNesting ≠ 0)
    (h : collectArguments c expandOne name place params fuel s start list = some (some out, rest, s')) :
    Meets (visible list) s s' := by
  rw [collectArguments] at h
  split at h
  · obtain ⟨⟨arg, next, rest₁, s₁⟩, hcollect, hrun⟩ := Option.bind_eq_some_iff.mp h
    cases next with
    | none => simp at hrun
    | some next =>
      obtain ⟨-, -, hrest⟩ := collectArg_steps hone hlist hcollect
      dsimp only at hrun
      split at hrun
      · obtain ⟨hnone, -⟩ := tooMany_steps hone hrest hrun
        cases hnone
      · rename_i hclose
        simp only [Option.some.injEq, Prod.mk.injEq] at hrun
        obtain ⟨-, -, rfl⟩ := hrun
        obtain hmeets | ⟨-, -, hnext, -⟩ := collectArg_skipping hone hfalse hcollect
        · exact hmeets
        · simp [hnext] at hclose
  · exact collectParams_skipping hone hlist (by simp [FreshArgs]) hfalse h

/-- The arguments of a call whose arguments are read to the end. -/
theorem readArguments_some {m : Macro} {name : List UInt8} {place : Place} {params : List Param} {out : List Arg}
    (hm : m.arglist = some params) (hlist : Fresh s list)
    (h : readArguments c expandOne fuel name place m s list = some (some out, rest, s')) :
    ∃ start ts s₁ args s₂, scanNext s list = (start :: ts, s₁) ∧ Fresh s₁ ts ∧ start.matchOp '(' = true ∧
      collectArguments c expandOne name place params fuel s₁ start ts = some (some args, rest, s₂) ∧
        expandArguments expandOne fuel s₂ args = some (out, s') := by
  simp only [readArguments, hm] at h
  cases hscan : scanNext s list with
  | mk list' s₁ =>
    rw [hscan] at h
    cases list' with
    | nil => simp at h
    | cons start ts =>
      obtain ⟨-, -, -, hsuffix, -⟩ := scanNext_spec hscan
      have hts : Fresh s₁ ts := ((hlist.suffix hsuffix).mono (scanNext_head hscan)).tail
      dsimp only at h
      split at h
      · rename_i hopen
        obtain ⟨⟨args, rest₁, s₂⟩, hcollect, hrun⟩ := Option.bind_eq_some_iff.mp h
        cases args with
        | none => simp at hrun
        | some args =>
          obtain ⟨⟨args', s₃⟩, hexpand, hout⟩ := Option.bind_eq_some_iff.mp hrun
          simp only [Option.some.injEq, Prod.mk.injEq] at hout
          obtain ⟨rfl, rfl, rfl⟩ := hout
          exact ⟨start, ts, s₁, args, s₂, rfl, hts, hopen, hcollect, hexpand⟩
      · simp at h

end Reads

/-! ## An expansion never fails behind its arguments -/

section Strung

variable {c : Context} {expandOne : ExpandOne} {fuel : ℕ} {s s' : State} {list rest : List Tok}

/-- The arguments are counted as the parameters are. -/
theorem collectParams_nStr (hone : Sound expandOne) {name : List UInt8} {place : Place} {wanted : ℕ}
    {params : List Param} {args out : List Arg} {start : Tok} (hlist : Fresh s list) (hargs : FreshArgs s args)
    (h : collectParams c expandOne name place wanted fuel params args s start list = some (some out, rest, s')) :
    out.map Arg.nStr = args.map Arg.nStr ++ params.map Param.str := by
  induction params generalizing s args start list with
  | nil =>
    obtain ⟨hnone, -⟩ := tooMany_steps hone hlist h
    cases hnone
  | cons p params ih =>
    obtain ⟨arg, next, rest₁, s₁, -, -, ⟨-, -, hout⟩ | ⟨-, hrest, hargs₁, hrun⟩⟩ :=
      collectParams_cons hone hlist hargs h
    · obtain ⟨rfl, rfl⟩ | ⟨q, rfl, rfl⟩ := hout
      · simp [Param.toArg]
      · simp [Param.toArg]
    · rw [ih hrest hargs₁ hrun]
      simp [Param.toArg]

/-- An argument that is counted for `#` gets its string. -/
theorem expandArgument_str {a a' : Arg} (h : expandArgument expandOne fuel s a = some (a', s'))
    (hstr : a.nStr ≠ 0) : a'.str ≠ [] := by
  unfold expandArgument at h
  dsimp only at h
  rw [if_pos hstr] at h
  dsimp only at h
  split at h
  · split at h
    · obtain ⟨_, -, hout⟩ := Option.map_eq_some_iff.mp h
      simp [← (Prod.mk.inj hout).1]
    · obtain ⟨_, -, hout⟩ := Option.map_eq_some_iff.mp h
      simp [← (Prod.mk.inj hout).1]
  · simp only [Option.some.injEq, Prod.mk.injEq] at h
    simp [← h.1]

theorem expandArguments_str {args args' : List Arg} (h : expandArguments expandOne fuel s args = some (args', s'))
    {k : ℕ} {a : Arg} (ha : args[k]? = some a) (hstr : a.nStr ≠ 0) : ∃ a', args'[k]? = some a' ∧ a'.str ≠ [] := by
  induction args generalizing s args' k with
  | nil => simp at ha
  | cons b args ih =>
    obtain ⟨⟨b', s₁⟩, hfirst, hrun⟩ := Option.bind_eq_some_iff.mp h
    obtain ⟨⟨args₁, s₂⟩, hrest, hout⟩ := Option.bind_eq_some_iff.mp hrun
    simp only [Option.some.injEq, Prod.mk.injEq] at hout
    obtain ⟨rfl, rfl⟩ := hout
    cases k with
    | zero =>
      obtain rfl : b = a := by simpa using ha
      exact ⟨b', rfl, expandArgument_str hfirst hstr⟩
    | succ k => exact ih hrest (by simpa using ha)

/-- Every `#` of the body finds the string of its argument. -/
theorem readArguments_strung (hone : Sound expandOne) {name : List UInt8} {place : Place} {m : Macro}
    {out : List Arg} (hlist : Fresh s list)
    (h : readArguments c expandOne fuel name place m s list = some (some out, rest, s')) :
    ∀ b ∈ m.expansion, Strung out b := by
  intro b hb argnum hkind
  have hcounted : (m.arglist.getD [])[argnum]?.any (fun p => p.str ≠ 0) = true := by
    have hb' := List.all_eq_true.1 m.counted b hb
    rwa [hkind] at hb'
  obtain ⟨p, hp, hstr⟩ := (Option.any_eq_true _ _).mp hcounted
  cases hm : m.arglist with
  | none => simp [hm] at hp
  | some params =>
    rw [hm, Option.getD_some] at hp
    obtain ⟨start, ts, s₁, args, s₂, -, hts, -, hcollect, hexpand⟩ := readArguments_some hm hlist h
    have hne : params.isEmpty = false := by
      cases params with
      | nil => simp at hp
      | cons => rfl
    rw [collectArguments, if_neg (by simp [hne])] at hcollect
    have hcounts := collectParams_nStr hone hts (by simp [FreshArgs]) hcollect
    have hcount : (args.map Arg.nStr)[argnum]? = some p.str := by
      rw [hcounts, List.map_nil, List.nil_append, List.getElem?_map, hp]
      rfl
    rw [List.getElem?_map] at hcount
    obtain ⟨a, ha, hnStr⟩ := Option.map_eq_some_iff.mp hcount
    exact expandArguments_str hexpand ha (by simpa [hnStr] using hstr)

end Strung

/-! ## The tokens put into the list -/

section Put

variable {s s' : State} {ts out added : List Tok} {n : ℕ}

/-- Tokens allocated since the address `n`. -/
def New (n : ℕ) (s : State) (ts : List Tok) : Prop := ∀ t ∈ ts, n ≤ t.id ∧ t.id < s.nextId

theorem New.mono (h : New n s ts) (hid : s.nextId ≤ s'.nextId) : New n s' ts :=
  fun t ht => ⟨(h t ht).1, (h t ht).2.trans_le hid⟩

theorem New.append {us : List Tok} (h : New n s ts) (h' : New n s us) : New n s (ts ++ us) :=
  fun t ht => (List.mem_append.mp ht).elim (h t) (h' t)

theorem New.cons {t : Tok} (ht : n ≤ t.id ∧ t.id < s.nextId) (h : New n s ts) : New n s (t :: ts) := fun x hx => by
  obtain rfl | hx := List.mem_cons.mp hx
  · exact ht
  · exact h x hx

@[simp] theorem guarded_id (s : State) (t : Tok) : (s.guarded t).id = t.id := by
  rw [State.guarded]
  split <;> rfl

theorem copyLoop_new (hn : n ≤ s.nextId) (h : copyLoop s ts = (out, s')) : Steps [] s s' ∧ New n s' out := by
  induction ts generalizing s out with
  | nil =>
    simp only [copyLoop, Prod.mk.injEq] at h
    obtain ⟨rfl, rfl⟩ := h
    exact ⟨.refl _, by simp [New]⟩
  | cons t ts ih =>
    cases hrest : copyLoop (dupToken s t t.place).2 ts with
    | mk rest s₁ =>
      simp only [copyLoop, hrest, Prod.mk.injEq] at h
      obtain ⟨rfl, rfl⟩ := h
      have hfirst : Steps [] s (dupToken s t t.place).2 := .of_eq rfl (Nat.le_succ _) rfl
      obtain ⟨hsteps, hnew⟩ := ih (hn.trans hfirst.nextId) hrest
      refine ⟨hfirst.trans hsteps, New.cons ?_ hnew⟩
      rw [guarded_id]
      exact ⟨hn, Nat.lt_of_lt_of_le (Nat.lt_succ_self _) hsteps.nextId⟩

theorem copyArg_new {b : BodyTok} (hn : n ≤ s.nextId) (h : copyArg s b ts = (out, s')) :
    Steps [] s s' ∧ New n s' out := by
  cases hcopy : copyLoop s ts with
  | mk copied s₁ =>
    obtain ⟨hsteps, hnew⟩ := copyLoop_new hn hcopy
    rw [copyArg, hcopy] at h
    cases copied with
    | nil =>
      simp only [Prod.mk.injEq] at h
      obtain ⟨rfl, rfl⟩ := h
      exact ⟨hsteps, hnew⟩
    | cons t copied =>
      simp only [Prod.mk.injEq] at h
      obtain ⟨rfl, rfl⟩ := h
      have hcopied : New n s₁ copied := fun x hx => hnew x (List.mem_cons_of_mem _ hx)
      exact ⟨hsteps, New.cons (hnew t List.mem_cons_self) hcopied⟩

theorem dupBody_new {b : BodyTok} {kind : Kind} {place : Place} (hn : n ≤ s.nextId) :
    Steps [] s (dupBody s b kind place).2 ∧
      New n (dupBody s b kind place).2 [(dupBody s b kind place).1] := by
  refine ⟨.of_eq rfl (Nat.le_succ _) rfl, fun t ht => ?_⟩
  rw [List.mem_singleton.mp ht]
  exact ⟨hn, Nat.lt_succ_self _⟩

/-- Whatever the `switch` puts out is new. -/
theorem bodyStep_new {place : Place} {args : List Arg} {state : Joining} {b : BodyTok} {body : List BodyTok}
    {skip : ℕ} (hn : n ≤ s.nextId) (h : bodyStep place args s state b body = .put added s' skip) :
    Steps [] s s' ∧ New n s' added := by
  have hcopy : ∀ {arg : List Tok}, BodyStep.put (copyArg s b arg).1 (copyArg s b arg).2 0 = .put added s' skip →
      Steps [] s s' ∧ New n s' added := by
    intro arg h
    simp only [BodyStep.put.injEq] at h
    exact copyArg_new hn (Prod.ext h.1 h.2.1)
  rw [bodyStep] at h
  cases hkind : b.kind with
  | plain kind =>
    simp only [hkind, BodyStep.put.injEq] at h
    obtain ⟨rfl, rfl, -⟩ := h
    obtain ⟨hsteps, hnew⟩ : Steps [] s (dupBody s b kind place).2 ∧
        New n (dupBody s b kind place).2 [(dupBody s b kind place).1] := dupBody_new hn
    refine ⟨hsteps, fun t ht => ?_⟩
    rw [List.mem_singleton.mp ht, guarded_id]
    exact hnew _ List.mem_cons_self
  | concat => simp [hkind] at h
  | strArgument argnum =>
    rw [hkind] at h
    exact hcopy h
  | quotedArgument argnum =>
    rw [hkind] at h
    dsimp only at h
    split at h
    · cases h
    · cases h
    · exact hcopy h
  | macroArgument argnum =>
    rw [hkind] at h
    dsimp only at h
    split at h
    · cases h
    · exact hcopy h
  | gnuKludge =>
    rw [hkind] at h
    dsimp only at h
    split at h
    · cases h
    · simp only [BodyStep.put.injEq] at h
      obtain ⟨rfl, rfl, -⟩ := h
      exact dupBody_new hn

/-- Joined or not, the tokens keep the address of the left one. -/
theorem merge_id {left right t : Tok} (h : merge left right = some t) : t.id = left.id := by
  unfold merge at h
  split at h
  · obtain ⟨v, -, rfl⟩ := Option.map_eq_some_iff.mp h
    rfl
  · cases h

theorem attach_new {state : Joining} {out' : List Tok} (hout : New n s out) (hadded : New n s added)
    (h : attach s state out added = some (out', s')) : Steps [] s s' ∧ New n s' out' := by
  have hplain : some (out ++ added, s) = some (out', s') → Steps [] s s' ∧ New n s' out' := by
    intro h
    simp only [Option.some.injEq, Prod.mk.injEq] at h
    obtain ⟨rfl, rfl⟩ := h
    exact ⟨.refl _, hout.append hadded⟩
  by_cases hstate : state = .concat
  · subst hstate
    cases added with
    | nil => exact hplain h
    | cons right more =>
      rw [attach] at h
      split at h
      · cases h
      · rename_i left hleft
        have hmem : left ∈ out := List.mem_of_getLast? hleft
        split at h
        · rename_i left' hmerge
          simp only [Option.some.injEq, Prod.mk.injEq] at h
          obtain ⟨rfl, rfl⟩ := h
          refine ⟨.refl _, New.append (fun t ht => hout t (List.dropLast_subset out ht)) (New.cons ?_ ?_)⟩
          · rw [merge_id hmerge]
            exact hout left hmem
          · exact fun t ht => hadded t (List.mem_cons_of_mem _ ht)
        · simp only [Option.some.injEq, Prod.mk.injEq] at h
          obtain ⟨rfl, rfl⟩ := h
          exact ⟨.of_eq rfl le_rfl rfl, hout.append hadded⟩
  · rw [attach_of_ne_concat hstate] at h
    exact hplain h

theorem substituteLoop_new {place : Place} {args : List Arg} {body : List BodyTok} {skip : ℕ} {state : Joining}
    {put : List Tok} (hn : n ≤ s.nextId) (hout : New n s out)
    (h : substituteLoop place args body skip s state out = some (put, s')) : Steps [] s s' ∧ New n s' put := by
  induction body generalizing skip s state out with
  | nil =>
    simp only [substituteLoop, Option.some.injEq, Prod.mk.injEq] at h
    obtain ⟨rfl, rfl⟩ := h
    exact ⟨.refl _, hout⟩
  | cons b body ih =>
    cases skip with
    | succ skip => exact ih hn hout h
    | zero =>
      rw [substituteLoop] at h
      cases hstep : bodyStep place args s state b body with
      | pass state' skip =>
        rw [hstep] at h
        exact ih hn hout h
      | put added s₁ skip =>
        rw [hstep] at h
        obtain ⟨⟨out', s₂⟩, hattach, hrun⟩ := Option.bind_eq_some_iff.mp h
        obtain ⟨hsteps₁, hadded⟩ := bodyStep_new hn hstep
        obtain ⟨hsteps₂, hout'⟩ := attach_new (hout.mono hsteps₁.nextId) hadded hattach
        obtain ⟨hsteps₃, hput⟩ := ih (hn.trans (hsteps₁.trans hsteps₂).nextId) hout' hrun
        exact ⟨(hsteps₁.trans hsteps₂).trans hsteps₃, hput⟩

theorem substitute_new {place : Place} {args : List Arg} {body : List BodyTok} {put : List Tok}
    (h : substitute s place body args = some (put, s')) : Steps [] s s' ∧ New s.nextId s' put :=
  substituteLoop_new le_rfl (by simp [New]) h

theorem takeFlags_ids (t : Tok) (ts : List Tok) : (takeFlags t ts).map Tok.id = ts.map Tok.id := by
  cases ts <;> rfl

/-- `cons_list` stops where the new tokens end. -/
theorem consList_new {last : List Tok} (hput : ∀ t ∈ ts, n ≤ t.id) (hlast : ∀ t ∈ last, t.id < n) :
    consList (ts ++ last) (last.head?.map Tok.id) = ts.map Tok.id := by
  have hne : ∀ t ∈ ts, some t.id ≠ last.head?.map Tok.id := by
    intro t ht heq
    obtain ⟨x, hx, hid⟩ := Option.map_eq_some_iff.mp heq.symm
    have := hlast x (List.mem_of_head? hx)
    have := hput t ht
    omega
  rw [consList, List.takeWhile_append_of_pos (by simpa using hne)]
  cases last with
  | nil => simp
  | cons x last => simp

end Put

/-! ## Calls of `expand` -/

section Calls

variable {c : Context} {expandOne : ExpandOne} {fuel : ℕ} {s s' : State} {list rest : List Tok} {m : Macro}
  {name : List UInt8} {place : Place} {args : Option (List Arg)}

theorem readArguments_steps (hone : Sound expandOne) (hlist : Fresh s list)
    (h : readArguments c expandOne fuel name place m s list = some (args, rest, s')) :
    (∃ ps, Steps ps s s') ∧ Fresh s' rest := by
  rw [readArguments] at h
  split at h
  · simp only [Option.some.injEq, Prod.mk.injEq] at h
    obtain ⟨rfl, rfl, rfl⟩ := h
    exact ⟨⟨[], .refl _⟩, hlist⟩
  · cases hscan : scanNext s list with
    | mk list' s₁ =>
      rw [hscan] at h
      have hfirst := scanNext_head hscan
      obtain ⟨-, -, -, hsuffix, -⟩ := scanNext_spec hscan
      have hlist' : Fresh s₁ list' := (hlist.suffix hsuffix).mono hfirst
      cases list' with
      | nil =>
        simp only [Option.some.injEq, Prod.mk.injEq] at h
        obtain ⟨rfl, rfl, rfl⟩ := h
        exact ⟨⟨_, hfirst⟩, by simp [Fresh]⟩
      | cons start ts =>
        dsimp only at h
        split at h
        · obtain ⟨⟨args₁, rest₁, s₂⟩, hcollect, hrun⟩ := Option.bind_eq_some_iff.mp h
          obtain ⟨⟨ps, hps⟩, hargs, hrest⟩ := collectArguments_steps hone hlist'.tail hcollect
          cases args₁ with
          | none =>
            simp only [Option.some.injEq, Prod.mk.injEq] at hrun
            obtain ⟨rfl, rfl, rfl⟩ := hrun
            exact ⟨⟨_, hfirst.trans hps⟩, hrest⟩
          | some args₁ =>
            obtain ⟨⟨args₂, s₃⟩, hexpand, hout⟩ := Option.bind_eq_some_iff.mp hrun
            simp only [Option.some.injEq, Prod.mk.injEq] at hout
            obtain ⟨rfl, rfl, rfl⟩ := hout
            obtain ⟨qs, hqs, -⟩ := expandArguments_steps hone (hargs args₁ rfl) hexpand
            exact ⟨⟨_, hfirst.trans (hps.trans hqs)⟩, hrest.mono hqs⟩
        · simp only [Option.some.injEq, Prod.mk.injEq] at h
          obtain ⟨rfl, rfl, rfl⟩ := h
          exact ⟨⟨_, hfirst⟩, hlist'⟩

/-- Up to a directive line the recorders get every token of the argument list, and then what
`expand_list` scans of the arguments. -/
theorem readArguments_reads (hone : Sound expandOne) {params : List Param} {out : List Arg}
    (hm : m.arglist = some params) (hlist : Fresh s list) (hfalse : s.falseNesting = 0)
    (h : readArguments c expandOne fuel name place m s list = some (some out, rest, s')) :
    Meets (argumentList (visible list)) s s' ∨
      (∀ t ∈ argumentList (visible list), t.isDirective = false) ∧
        ∃ qs, (s'.tokStk = s.tokStk.map fun r =>
            r.pushAll (((argumentList (visible list)).map Tok.id).map some ++ qs)) ∧
          (recorded qs = [] ↔ quiet params (visible list).tail = true) := by
  obtain ⟨start, ts, s₁, args₁, s₂, hscan, hts, hopen, hcollect, hexpand⟩ := readArguments_some hm hlist h
  obtain ⟨hpush, hvisible, -, hfalse₁⟩ := scanNext_cons hscan
  obtain ⟨-, hargs, -⟩ := collectArguments_steps hone hts hcollect
  obtain ⟨qs, hqs, hrecorded⟩ := expandArguments_steps hone (hargs args₁ rfl) hexpand
  rw [hvisible, argumentList, List.tail_cons, List.forall_mem_cons]
  obtain hmeets | ⟨hpush', hplain, hsilent⟩ := collectArguments_reads hone hts (hfalse₁.trans hfalse) hcollect
  · exact .inl ((hpush.meets (hmeets.trans hqs)).mono fun t ht => List.mem_cons_of_mem _ ht)
  refine .inr ⟨⟨isDirective_open hopen, hplain⟩, qs, ?_, by rw [hrecorded, hsilent]⟩
  have hboth : Pushes (start :: throughClose 0 (visible ts)) s s₂ := hpush.trans hpush'
  rw [hqs.pushed, hboth, List.map_map]
  refine List.map_congr_left fun r _ => ?_
  rw [Function.comp_apply, ← Recorder.pushAll_append, List.map_map]
  rfl

/-- While a group is skipped, no macro with an argument list is expanded without a directive
line. -/
theorem readArguments_skipping (hone : Sound expandOne) {params : List Param} {out : List Arg}
    (hm : m.arglist = some params) (hlist : Fresh s list) (hfalse : s.falseNesting ≠ 0)
    (h : readArguments c expandOne fuel name place m s list = some (some out, rest, s')) :
    Meets (visible list) s s' := by
  obtain ⟨start, ts, s₁, args₁, s₂, hscan, hts, -, hcollect, hexpand⟩ := readArguments_some hm hlist h
  obtain ⟨hpush, hvisible, -, hfalse₁⟩ := scanNext_cons hscan
  obtain ⟨-, hargs, -⟩ := collectArguments_steps hone hts hcollect
  obtain ⟨qs, hqs, -⟩ := expandArguments_steps hone (hargs args₁ rfl) hexpand
  have hmeets := collectArguments_skipping hone hts (by rwa [hfalse₁]) hcollect
  rw [hvisible]
  exact (hpush.meets (hmeets.trans hqs)).mono fun t ht => List.mem_cons_of_mem _ ht

theorem Steps.height {ps : List (Option ℕ)} (h : Steps ps s s') : s'.tokStk.length = s.tokStk.length := by
  rw [h.pushed, List.length_map]

/-- The recorder pushed for a call takes what was handed to all, and the others stay. -/
theorem Steps.popped {ps : List (Option ℕ)} (h : Steps ps s.tokenPushRec s') :
    s'.tokenPopRec.1 = recorded ps ∧ Steps ps s s'.tokenPopRec.2 := by
  have hpushed : s'.tokStk = (Recorder.mk [] true).pushAll ps :: s.tokStk.map fun r => r.pushAll ps := h.pushed
  refine ⟨?_, ?_, h.nextId, h.log⟩
  · simp only [State.tokenPopRec, hpushed, List.head?_cons, Option.map_some, Option.getD_some]
    exact Recorder.pushAll_items ps
  · simp only [State.tokenPopRec, hpushed, List.tail_cons]

/-- What the recorder of a call has got when its arguments have been read. -/
theorem readArguments_up (hone : Sound expandOne) {i : Invocation} {out : List Arg} (hlist : Fresh s list)
    (hsource : i.source = list) (hfalse : i.falseNesting = s.falseNesting)
    (h : readArguments c expandOne fuel name place i.used s.tokenPushRec list = some (some out, rest, s')) :
    i.Listed s'.tokenPopRec.1 ↔ i.Plain ∧ i.Quiet := by
  cases hm : i.used.arglist with
  | none =>
    simp only [readArguments, hm, Option.some.injEq, Prod.mk.injEq] at h
    obtain ⟨-, -, rfl⟩ := h
    simp [State.tokenPopRec, State.tokenPushRec, Invocation.Listed, Invocation.argumentTokens, Invocation.Plain,
      Invocation.Quiet, hm]
  | some params =>
    have hlist' : Fresh s.tokenPushRec list := hlist
    have hplain : i.Plain ↔ ∀ t ∈ i.among, t.isDirective = false := by simp [Invocation.Plain, hm]
    have hmet : Meets i.among s.tokenPushRec s' → (i.Listed s'.tokenPopRec.1 ↔ i.Plain ∧ i.Quiet) := by
      intro hmeets
      obtain ⟨t, ht, hdirective, hup⟩ := hmeets.popped
      refine iff_of_false (fun hlisted => hlisted.2 t ht hdirective hup) fun hright => ?_
      simp [hplain.mp hright.1 t ht] at hdirective
    by_cases hzero : i.falseNesting = 0
    · have htokens : i.argumentTokens = argumentList (visible list) := by
        rw [Invocation.argumentTokens, hm, hsource]
      have hamong : i.among = argumentList (visible list) := by rw [Invocation.among, if_pos hzero, htokens]
      obtain hmeets | ⟨hnone, qs, hqs, hquiet⟩ := readArguments_reads hone hm hlist' (hfalse.symm.trans hzero) h
      · exact hmet (by rwa [hamong])
      have hup : s'.tokenPopRec.1 = (argumentList (visible list)).map Tok.id ++ recorded qs := by
        rw [← recorded_map_some]
        simp only [State.tokenPopRec, hqs, State.tokenPushRec, List.map_cons, List.head?_cons, Option.map_some,
          Option.getD_some, Recorder.pushAll_items, List.nil_append]
      have hkept : ((argumentList (visible list)).filter fun t => !t.isDirective) = argumentList (visible list) :=
        List.filter_eq_self.mpr fun t ht => by simp [hnone t ht]
      rw [hplain, hamong, and_iff_right hnone, Invocation.Listed, hamong, htokens, hkept, and_iff_left, hup,
        List.append_right_eq_self, hquiet, Invocation.Quiet, hm, hsource]
      exact fun t ht hdirective => by simp [hnone t ht] at hdirective
    · have hamong : i.among = visible list := by rw [Invocation.among, if_neg hzero, hsource]
      have hskip : s.tokenPushRec.falseNesting ≠ 0 := by rwa [hfalse] at hzero
      exact hmet (by rw [hamong]; exact readArguments_skipping hone hm hlist' hskip h)

/-- What a call records. -/
theorem expandCall_spec (hone : Sound expandOne) {t : Tok} {kept : Bool} {e : Option Expansion}
    (hlist : Fresh s (t :: rest))
    (h : expandCall c expandOne fuel name m s t rest = some (kept, list, e, s')) :
    (∃ ps, Steps ps s s') ∧ Fresh s' list ∧
      Invocation.Right ⟨m, rest, s.falseNesting, s.tokStk.length, s'.tokStk.length, e⟩ := by
  have hnone : ∀ {ps : List (Option ℕ)} {s' : State}, Steps ps s s' →
      Invocation.Right ⟨m, rest, s.falseNesting, s.tokStk.length, s'.tokStk.length, none⟩ := fun hsteps =>
    { height := hsteps.height, down := by simp, recorded := by simp }
  rw [expandCall] at h
  split at h
  · simp only [Option.some.injEq, Prod.mk.injEq] at h
    obtain ⟨-, rfl, rfl, rfl⟩ := h
    exact ⟨⟨[], .refl s⟩, hlist.tail.cons (hlist t List.mem_cons_self), hnone (.refl s)⟩
  · obtain ⟨⟨args, last, s₁⟩, hread, hrun⟩ := Option.bind_eq_some_iff.mp h
    have hrest : Fresh s.tokenPushRec rest := hlist.tail
    obtain ⟨⟨ps, hps⟩, hlast⟩ := readArguments_steps hone hrest hread
    obtain ⟨hup, hpop⟩ := hps.popped
    have ht : t.id < s₁.nextId := (hlist t List.mem_cons_self).trans_le hps.nextId
    cases args with
    | none =>
      simp only [Option.some.injEq, Prod.mk.injEq] at hrun
      obtain ⟨-, rfl, rfl, rfl⟩ := hrun
      exact ⟨⟨ps, hpop⟩, Fresh.cons ht hlast, hnone hpop⟩
    | some args =>
      obtain ⟨⟨put, s₂⟩, hsubst, hout⟩ := Option.bind_eq_some_iff.mp hrun
      simp only [Option.some.injEq, Prod.mk.injEq] at hout
      obtain ⟨-, rfl, rfl, rfl⟩ := hout
      obtain ⟨hsteps, hnew⟩ := substitute_new hsubst
      have htaint : Steps [] s₁.tokenPopRec.2 (s₁.tokenPopRec.2.taint name) := .of_eq rfl le_rfl rfl
      have hall : Steps ps s s₂ := by simpa using hpop.trans (htaint.trans hsteps)
      have hids : ∀ x ∈ takeFlags t put, s₁.nextId ≤ x.id ∧ x.id < s₂.nextId := by
        intro x hx
        have hmem : x.id ∈ (takeFlags t put).map Tok.id := List.mem_map_of_mem hx
        rw [takeFlags_ids] at hmem
        obtain ⟨y, hy, hid⟩ := List.mem_map.mp hmem
        rw [← hid]
        exact hnew y hy
      have hdown : consList (takeFlags t put ++ last) (last.head?.map Tok.id) = (takeFlags t put).map Tok.id :=
        consList_new (fun x hx => (hids x hx).1) hlast
      refine ⟨⟨ps, hall⟩, fun x hx => ?_, hall.height, ?_, ?_⟩
      · obtain hx | hx := List.mem_append.mp hx
        · exact (hids x hx).2
        · exact (hlast x hx).trans_le hsteps.nextId
      · rintro _ ⟨⟩
        exact hdown
      · rintro _ ⟨⟩
        exact (and_iff_left hdown).trans (readArguments_up hone hlist.tail rfl rfl hread)

/-- The tokens of the record stand in the list in front of what followed the invocation. -/
theorem expandCall_put {t : Tok} {kept : Bool} {e : Expansion}
    (h : expandCall c expandOne fuel name m s t rest = some (kept, list, some e, s')) : ∃ last, list = e.put ++ last := by
  rw [expandCall] at h
  split at h
  · simp at h
  · obtain ⟨⟨args, last, s₁⟩, -, hrun⟩ := Option.bind_eq_some_iff.mp h
    cases args with
    | none => simp at hrun
    | some args =>
      obtain ⟨⟨put, s₂⟩, -, hout⟩ := Option.bind_eq_some_iff.mp hrun
      simp only [Option.some.injEq, Prod.mk.injEq] at hout
      obtain ⟨-, rfl, rfl, -⟩ := hout
      exact ⟨last, rfl⟩

/-- A call whose arguments are read returns: `##` never has to join a token in front of the list. -/
theorem expand_isSome (hone : Sound expandOne) {t : Tok} (hlist : Fresh s (t :: rest))
    (hread : name ∈ s.tainted ∨ (readArguments c expandOne fuel name t.place m s.tokenPushRec rest).isSome) :
    (expand c expandOne fuel name m s t rest).isSome := by
  have hcall : (expandCall c expandOne fuel name m s t rest).isSome := by
    rw [expandCall]
    split
    · rfl
    · rename_i htaint
      obtain ⟨⟨args, last, s₁⟩, hargs⟩ := Option.isSome_iff_exists.mp (hread.resolve_left htaint)
      rw [hargs]
      cases args with
      | none => rfl
      | some args =>
        have hrest : Fresh s.tokenPushRec rest := hlist.tail
        have hsubst : (substitute (s₁.tokenPopRec.2.taint name) t.place m.expansion args).isSome :=
          substitute_isSome m (readArguments_strung hone hrest hargs)
        obtain ⟨⟨put, s₂⟩, hput⟩ := Option.isSome_iff_exists.mp hsubst
        simp [hput]
  obtain ⟨x, hx⟩ := Option.isSome_iff_exists.mp hcall
  simp [expand, hx]

/-- The log of a call: the calls within it, and the call itself. -/
theorem expand_spec (hone : Sound expandOne) {t : Tok} {kept : Bool} (hlist : Fresh s (t :: rest))
    (h : expand c expandOne fuel name m s t rest = some (kept, list, s')) :
    (∃ ps, Steps ps s s') ∧ Fresh s' list ∧ ∃ nested own, s'.log = s.log ++ (nested ++ [own]) ∧
      own.used = m ∧ own.source = rest ∧ (∀ e, own.expansion = some e → ∃ last, list = e.put ++ last) ∧
      ∀ i ∈ nested ++ [own], i.Right := by
  obtain ⟨⟨kept', list', e, s₁⟩, hcall, hout⟩ := Option.bind_eq_some_iff.mp h
  simp only [Option.some.injEq, Prod.mk.injEq] at hout
  obtain ⟨rfl, rfl, rfl⟩ := hout
  obtain ⟨⟨ps, hps⟩, hfresh, hright⟩ := expandCall_spec hone hlist hcall
  obtain ⟨nested, hlog, hnested⟩ := hps.log
  have hall : ∀ i ∈ nested ++ [⟨m, rest, s.falseNesting, s.tokStk.length, s₁.tokStk.length, e⟩], i.Right := by
    intro i hi
    obtain hi | hi := List.mem_append.mp hi
    · exact hnested i hi
    · rw [List.mem_singleton.mp hi]
      exact hright
  refine ⟨⟨ps, hps.pushed, hps.nextId, _, by rw [hlog, List.append_assoc], hall⟩, hfresh, nested, _,
    by rw [hlog, List.append_assoc], rfl, rfl, ?_, hall⟩
  rintro e' he
  dsimp only at he
  subst he
  exact expandCall_put hcall

theorem expandOneSymbol_sound (hone : Sound expandOne) : Sound (expandOneSymbol c expandOne fuel) := by
  intro s s' t rest list kept hlist h
  rw [expandOneSymbol] at h
  split at h
  · simp only [Option.some.injEq, Prod.mk.injEq] at h
    obtain ⟨-, rfl, rfl⟩ := h
    exact ⟨⟨[], .refl s⟩, hlist⟩
  · split at h
    · simp only [Option.some.injEq, Prod.mk.injEq] at h
      obtain ⟨-, rfl, rfl⟩ := h
      exact ⟨⟨[], .refl s⟩, hlist⟩
    · split at h
      · obtain ⟨hsteps, hfresh, -⟩ := expand_spec hone hlist h
        exact ⟨hsteps, hfresh⟩
      · simp only [Option.some.injEq, Prod.mk.injEq] at h
        obtain ⟨-, rfl, rfl⟩ := h
        have hid : (replaceInPlace c t).id = t.id := by
          unfold replaceInPlace
          split_ifs <;> rfl
        exact ⟨⟨[], .refl s⟩, hlist.tail.cons (hid ▸ hlist t List.mem_cons_self)⟩

end Calls

theorem expandAt_sound (c : Context) (depth : ℕ) : Sound (expandAt c depth) := by
  induction depth with
  | zero => exact fun _ h => by cases h
  | succ depth ih => exact expandOneSymbol_sound ih

/-- Every call of `expand` within a call, and the call itself, leaves the stack of recorders as
high as it was and has in `down` the tokens put in place of the invocation. Its `up` is the
argument list from `(` to `)` exactly if no directive line stands in it and nothing of the
arguments is scanned again while the recorder stands. A call returns if the arguments can be
read. -/
theorem expand_records (c : Context) (depth fuel : ℕ) {name : List UInt8} {m : Macro} {s : State} {t : Tok}
    {rest : List Tok} (hlist : ∀ x ∈ t :: rest, x.id < s.nextId) :
    (name ∈ s.tainted ∨ (readArguments c (expandAt c depth) fuel name t.place m s.tokenPushRec rest).isSome →
      (expand c (expandAt c depth) fuel name m s t rest).isSome) ∧
    ∀ kept list s', expand c (expandAt c depth) fuel name m s t rest = some (kept, list, s') →
      ∃ nested own, s'.log = s.log ++ (nested ++ [own]) ∧ own.used = m ∧ own.source = rest ∧
        (∀ e, own.expansion = some e → ∃ last, list = e.put ++ last) ∧ ∀ i ∈ nested ++ [own], i.Right :=
  ⟨expand_isSome (expandAt_sound c depth) hlist,
    fun _ _ _ h => (expand_spec (expandAt_sound c depth) hlist h).2.2⟩

/-! ### An argument that is recorded twice -/

/-- `#define f(x) x`. -/
def oneParameter : Macro where
  arglist := some [⟨1, 0, 0, false⟩]
  expansion := [⟨.macroArgument 0, false, false, false⟩, ⟨.plain (.untaint [102]), false, false, false⟩]
  parsed := rfl
  counted := rfl

/-- The list `(a)` behind the name, with addresses from 1 on. -/
def oneArgument : List Tok :=
  [⟨1, .value (.special 40), ⟨0, 1, 1⟩, false, false, false⟩, ⟨2, .value (.ident [97]), ⟨0, 1, 2⟩, false, false, false⟩,
    ⟨3, .value (.special 41), ⟨0, 1, 3⟩, false, false, false⟩]

def definesOne : State where
  tokStk := []
  tainted := []
  macros name := if name = [102] then some oneParameter else none
  falseNesting := 0
  nextId := 4
  errors := []
  log := []

/-- No directive line is met. -/
def plainContext : Context where
  preprocessorLine s _ list := .done s.macros s.falseNesting [] list
  streamName _ := []
  date := []
  time := []

/-- The call of `expand` for `f(a)`. -/
def expandOneArgument : Option (Bool × List Tok × State) :=
  expand plainContext (expandAt plainContext 2) 8 [102] oneParameter definesOne
    ⟨0, .value (.ident [102]), ⟨0, 1, 0⟩, true, false, false⟩ oneArgument

theorem expand_records_oneArgument :
    ∃ kept list s', expandOneArgument = some (kept, list, s') ∧
      ∃ nested own, s'.log = definesOne.log ++ (nested ++ [own]) ∧ own.used = oneParameter ∧
        own.source = oneArgument ∧ (∀ e, own.expansion = some e → ∃ last, list = e.put ++ last) ∧
        ∀ i ∈ nested ++ [own], i.Right := by
  have hrecords := @expand_records plainContext 2 8 [102] oneParameter definesOne
    ⟨0, .value (.ident [102]), ⟨0, 1, 0⟩, true, false, false⟩ oneArgument (by decide)
  obtain ⟨⟨kept, list, s'⟩, hrun⟩ := Option.isSome_iff_exists.mp (hrecords.1 (.inr rfl))
  exact ⟨kept, list, s', hrun, hrecords.2 kept list s' hrun⟩

/-- The argument of `f(a)` is in `up` a second time, behind the closing parenthesis. -/
theorem not_recorded_oneArgument :
    ∃ kept list s', expandOneArgument = some (kept, list, s') ∧
      ∃ i ∈ s'.log, ∃ e, i.expansion = some e ∧ i.argumentTokens.map Tok.id = [1, 2, 3] ∧ e.up = [1, 2, 3, 2] ∧
        ¬ i.Recorded e :=
  ⟨_, _, _, rfl, _, List.mem_cons_self, _, rfl, rfl, rfl, fun h => absurd h.1.1 (by decide)⟩

end Sparse.MacroExpansion
