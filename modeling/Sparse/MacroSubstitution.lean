import Sparse.MacroTokens

/-!
# Substitution into macro bodies

The state of the preprocessor as far as the expansion of macros uses it, `dup_token`, `copy`
and `substitute`, with the state of its loop. `substitute` joins only tokens that it has put
into the list itself.
-/

namespace Sparse.MacroExpansion

open Tokenizer (ch showToken)

/-! ## The state -/

inductive Complaint
  | directiveInArguments
  | tooFew (name : List UInt8) (wanted given : ℕ)
  | tooMany (name : List UInt8) (passed takes : ℕ)
  | unterminated (name : List UInt8)
  | tooLong
  | badConcatenation
  deriving DecidableEq, Repr

/-- A decimal number. -/
def decimal (n : ℕ) : List UInt8 := (Nat.toDigits 10 n).map ch

def Complaint.text : Complaint → List UInt8
  | directiveInArguments => bytes "directive in argument list"
  | tooFew name wanted given =>
    bytes "macro \"" ++ name ++ bytes "\" requires " ++ decimal wanted ++ bytes " arguments, but only " ++
      decimal given ++ bytes " given"
  | tooMany name passed takes =>
    bytes "macro \"" ++ name ++ bytes "\" passed " ++ decimal passed ++ bytes " arguments, but takes just " ++
      decimal takes
  | unterminated name =>
    bytes "unterminated argument list invoking macro \"" ++ name ++ bytes "\""
  | tooLong => bytes "too long token expansion"
  | badConcatenation => bytes "'##' failed: concatenation is not a valid token"

/-- A `struct token_stack`: the tokens of its list, and whether `p` still points to its end. -/
structure Recorder where
  items : List ℕ
  active : Bool
  deriving DecidableEq, Repr

/-- What an expansion records: `up`, `down`, and the tokens that it has put into the list. -/
structure Expansion where
  up : List ℕ
  down : List ℕ
  put : List Tok
  deriving DecidableEq, Repr

/-- A call of `expand`: what it finds, the heights of the stack of recorders when it is
called and when it returns, and its record if the macro is expanded. -/
structure Invocation where
  used : Macro
  source : List Tok
  falseNesting : ℕ
  heightBefore : ℕ
  heightAfter : ℕ
  expansion : Option Expansion

structure State where
  tokStk : List Recorder
  tainted : List (List UInt8)
  macros : List UInt8 → Option Macro
  falseNesting : ℕ
  nextId : ℕ
  errors : List (Place × Complaint)
  log : List Invocation

namespace State

/-- `sparse_error`. -/
def sparseError (s : State) (place : Place) (c : Complaint) : State :=
  { s with errors := s.errors ++ [(place, c)] }

def taint (s : State) (name : List UInt8) : State := { s with tainted := name :: s.tainted }

def untaint (s : State) (name : List UInt8) : State :=
  { s with tainted := s.tainted.filter fun n => n ≠ name }

def isTainted (s : State) (t : Tok) : Bool := t.name.any fun name => name ∈ s.tainted

end State

/-! ## Copies -/

/-- `dup_token`. -/
def dupToken (s : State) (t : Tok) (place : Place) : Tok × State :=
  ({ t with id := s.nextId, place := place }, { s with nextId := s.nextId + 1 })

/-- Identifiers that are tainted are not expanded again. -/
def State.guarded (s : State) (t : Tok) : Tok := if s.isTainted t then { t with noexpand := true } else t

/-- The loop of `copy`. -/
def copyLoop (s : State) : List Tok → List Tok × State
  | [] => ([], s)
  | t :: ts =>
    let (t', s) := dupToken s t t.place
    let (ts', s) := copyLoop s ts
    (s.guarded t' :: ts', s)

/-- `copy` of an argument for the body token `b`, with the flags of the first copy. -/
def copyArg (s : State) (b : BodyTok) (arg : List Tok) : List Tok × State :=
  match copyLoop s arg with
  | (t :: ts, s) => ({ t with newline := b.newline, whitespace := b.whitespace } :: ts, s)
  | ([], s) => ([], s)

/-- `dup_token` of a token of the body. -/
def dupBody (s : State) (b : BodyTok) (kind : Kind) (place : Place) : Tok × State :=
  dupToken s ⟨0, kind, place, b.newline, b.whitespace, b.noexpand⟩ place

/-! ## The loop of `substitute` -/

inductive Joining
  | normal
  | placeholder
  | concat
  deriving DecidableEq, Repr

/-- The state behind an operand of `##` that is empty. -/
def Joining.afterEmpty : Joining → Joining
  | concat => normal
  | _ => placeholder

/-- The state behind `##`. -/
def Joining.afterConcat : Joining → Joining
  | placeholder => normal
  | _ => concat

/-- `handle_kludge` from the `##` on: whether comma and parameters are dropped, and how many
tokens of the body are passed. -/
def handleKludge (args : List Arg) : List BodyTok → ℕ → Bool × ℕ
  | _ :: t :: body, n =>
    let arg := args[t.kind.argnum]?.bind Arg.arg
    if body.head?.any fun b => b.kind = .concat then
      if arg.any fun ts => !ts.isEmpty then (false, 0) else handleKludge args body (n + 2)
    else if arg.isSome then (false, 1)
    else (true, n + 2)
  | _, _ => (false, 0)

/-- What `substitute` does with the tokens `added`; none where `##` would have to join a token
that stands in front of the list. -/
def attach (s : State) (state : Joining) (out added : List Tok) : Option (List Tok × State) :=
  match state, added with
  | .concat, right :: more =>
    match out.getLast? with
    | none => none
    | some left =>
      match merge left right with
      | some left' => some (out.dropLast ++ left' :: more, s)
      | none => some (out ++ added, s.sparseError left.place .badConcatenation)
  | _, _ => some (out ++ added, s)

/-- What the `switch` of `substitute` does with a token of the body: nothing is put out and
the state changes, or tokens are put out; the next `skip` tokens of the body are passed. -/
inductive BodyStep
  | pass (state : Joining) (skip : ℕ)
  | put (added : List Tok) (s : State) (skip : ℕ)

/-- The `switch` of `substitute`. -/
def bodyStep (place : Place) (args : List Arg) (s : State) (state : Joining) (b : BodyTok)
    (body : List BodyTok) : BodyStep :=
  match b.kind with
  | .gnuKludge =>
    match handleKludge args body 0 with
    | (true, skip) => .pass state.afterEmpty skip
    | (false, skip) =>
      let (added, s) := dupBody s b (.value (.special ','.toNat)) place
      .put [added] s skip
  | .strArgument argnum =>
    let (added, s) := copyArg s b ((args[argnum]?.map Arg.str).getD [])
    .put added s 0
  | .quotedArgument argnum =>
    match args[argnum]?.bind Arg.arg with
    | none => .pass state.afterEmpty 0
    | some [] => .pass state.afterEmpty 0
    | some arg =>
      let (added, s) := copyArg s b arg
      .put added s 0
  | .macroArgument argnum =>
    match (args[argnum]?.map Arg.expanded).getD [] with
    | [] => .pass .normal 0
    | arg =>
      let (added, s) := copyArg s b arg
      .put added s 0
  | .concat => .pass state.afterConcat 0
  | .plain kind =>
    let (added, s) := dupBody s b kind place
    .put [s.guarded added] s 0

/-- The loop of `substitute`; the next `skip` tokens of the body have been passed. -/
def substituteLoop (place : Place) (args : List Arg) :
    List BodyTok → ℕ → State → Joining → List Tok → Option (List Tok × State)
  | [], _, s, _, out => some (out, s)
  | _ :: body, skip + 1, s, state, out => substituteLoop place args body skip s state out
  | b :: body, 0, s, state, out =>
    match bodyStep place args s state b body with
    | .pass state skip => substituteLoop place args body skip s state out
    | .put added s skip => do
      let (out, s) ← attach s state out added
      substituteLoop place args body skip s .normal out

/-- `substitute` at the place of the macro's name. -/
def substitute (s : State) (place : Place) (body : List BodyTok) (args : List Arg) :
    Option (List Tok × State) :=
  substituteLoop place args body 0 s .normal []

/-! ## Nothing in front of the list is joined -/

section Totality

variable {place : Place} {args : List Arg} {s : State} {state : Joining} {out added : List Tok} {b : BodyTok}
  {body : List BodyTok}

theorem substituteLoop_skip (skip : ℕ) :
    substituteLoop place args body skip s state out =
      substituteLoop place args (body.drop skip) 0 s state out := by
  induction body generalizing skip with
  | nil => simp [substituteLoop]
  | cons b body ih =>
    cases skip with
    | zero => rfl
    | succ skip => exact ih skip

/-- The places of a parsed body at which the loop stands: an operand or a token on its own,
the `##` behind an operand, or the end. Where nothing has been put out yet, `##` does not
join. -/
inductive Ready : List BodyTok → Joining → List Tok → Prop
  | done {state : Joining} {out : List Tok} : Ready [] state out
  | operand {body : List BodyTok} {state : Joining} {out : List Tok}
      (hbody : parsedBody (body.map BodyTok.kind) = true) (hstate : out = [] → state ≠ .concat) :
      Ready body state out
  | concat {b : BodyTok} {body : List BodyTok} {state : Joining} {out : List Tok} (hkind : b.kind = .concat)
      (hbody : parsedBody (body.map BodyTok.kind) = true) (hstate : out = [] → state = .placeholder) :
      Ready (b :: body) state out

/-- What stands behind a token of a parsed body. -/
theorem parsedBody_cons {k : BodyKind} {ks : List BodyKind} (h : parsedBody (k :: ks) = true) :
    (ks = [] ∧ k.isUntaint) ∨
      (∃ rest, ks = .concat :: rest ∧ k.isOperand ∧ (k = .gnuKludge → kludgeChain rest = true) ∧
        parsedBody rest = true) ∨
      (k ≠ .gnuKludge ∧ parsedBody ks = true) := by
  cases ks with
  | nil => exact .inl ⟨rfl, by simpa [parsedBody] using h⟩
  | cons k' ks =>
    by_cases hk : k = .concat
    · subst hk
      simp [parsedBody] at h
    · by_cases hk' : k' = .concat
      · subst hk'
        rw [parsedBody] at h
        · simp only [Bool.and_eq_true, Bool.or_eq_true, decide_eq_true_eq] at h
          exact .inr (.inl ⟨ks, rfl, h.1.1.1, fun hkludge => h.1.2.resolve_left fun hne => hne hkludge, h.2⟩)
        · exact fun h => hk h
      · rw [parsedBody] at h
        · simp only [Bool.and_eq_true, decide_eq_true_eq] at h
          exact .inr (.inr ⟨h.1.1, h.2⟩)
        · exact fun h => hk h
        · exact fun h => hk' h

theorem parsedBody_ne_concat {ks : List BodyKind} : parsedBody (.concat :: ks) = false := by
  cases ks <;> simp [parsedBody, BodyKind.isUntaint]

/-- Behind a token that is put out. -/
theorem Ready.next {state' : Joining} {out' : List Tok} (h : parsedBody ((b :: body).map BodyTok.kind) = true)
    (hout : out' ≠ []) : Ready body state' out' := by
  obtain ⟨hnil, -⟩ | ⟨rest, hrest, -, -, hparsed⟩ | ⟨-, hparsed⟩ := parsedBody_cons h
  · rw [List.map_eq_nil_iff.mp hnil]
    exact .done
  · obtain ⟨c, body, rfl, hc, rfl⟩ := List.map_eq_cons_iff.mp hrest
    exact .concat hc hparsed fun h => absurd h hout
  · exact .operand hparsed fun h => absurd h hout

/-- Behind an operand that is empty. -/
theorem Ready.afterEmpty (h : parsedBody ((b :: body).map BodyTok.kind) = true)
    (hstate : out = [] → state ≠ .concat) : Ready body state.afterEmpty out := by
  have hne : state.afterEmpty ≠ .concat := by cases state <;> simp [Joining.afterEmpty]
  obtain ⟨hnil, -⟩ | ⟨rest, hrest, -, -, hparsed⟩ | ⟨-, hparsed⟩ := parsedBody_cons h
  · rw [List.map_eq_nil_iff.mp hnil]
    exact .done
  · obtain ⟨c, body, rfl, hc, rfl⟩ := List.map_eq_cons_iff.mp hrest
    refine .concat hc hparsed fun hout => ?_
    have := hstate hout
    cases state <;> simp_all [Joining.afterEmpty]
  · exact .operand hparsed fun _ => hne

/-- Where the kludge drops its tokens, it stops behind a parameter that `##` does not
follow. -/
theorem handleKludge_true {n skip : ℕ} (hchain : kludgeChain (body.map BodyTok.kind) = true)
    (hbody : parsedBody (body.map BodyTok.kind) = true) (h : handleKludge args (b :: body) n = (true, skip)) :
    ∃ k, skip = n + 2 + k ∧ parsedBody ((body.drop (k + 1)).map BodyTok.kind) = true := by
  induction hlen : body.length using Nat.strong_induction_on generalizing b body n with
  | _ len ih =>
    subst hlen
    cases body with
    | nil => simp [kludgeChain] at hchain
    | cons t body =>
      have hkind : ∃ argnum, t.kind = .quotedArgument argnum := by
        cases ht : t.kind with
        | quotedArgument argnum => exact ⟨argnum, rfl⟩
        | _ => simp [kludgeChain, ht] at hchain
      obtain ⟨argnum, hkind⟩ := hkind
      obtain ⟨hnil, huntaint⟩ | ⟨rest, hrest, -, -, hparsed⟩ | ⟨-, hparsed⟩ := parsedBody_cons hbody
      · simp [hkind, BodyKind.isUntaint] at huntaint
      · obtain ⟨c, body, rfl, hc, rfl⟩ := List.map_eq_cons_iff.mp hrest
        simp only [handleKludge, List.head?_cons, Option.any_some, hc, decide_true, if_true] at h
        split at h
        · simp at h
        · have hchain' : kludgeChain (body.map BodyTok.kind) = true := by
            simpa [kludgeChain, hkind, hc] using hchain
          obtain ⟨k, hk, hdrop⟩ := ih body.length (by simp only [List.length_cons]; omega) hchain' hparsed h rfl
          exact ⟨k + 2, by omega, by simpa using hdrop⟩
      · have hhead : (body.head?.any fun b => b.kind = .concat) = false := by
          cases body with
          | nil => rfl
          | cons c body =>
            by_contra hc
            have : c.kind = .concat := by simpa using hc
            rw [List.map_cons, this, parsedBody_ne_concat] at hparsed
            cases hparsed
        simp only [handleKludge, hhead, Bool.false_eq_true, if_false] at h
        split at h
        · simp at h
        · exact ⟨0, by simpa using h.symm, by simpa using hparsed⟩

/-- Where it puts the comma out, it passes the `##` at most. -/
theorem handleKludge_false {n skip : ℕ} (h : handleKludge args body n = (false, skip)) :
    skip = 0 ∨ skip = 1 := by
  fun_induction handleKludge args body n with
  | case1 c t body n arg hconcat harg => exact .inl (by simpa using h.symm)
  | case2 c t body n arg hconcat harg ih => exact ih h
  | case3 c t body n arg hconcat harg => exact .inr (by simpa using h.symm)
  | case4 c t body n arg hconcat harg => simp at h
  | case5 body n hshort => exact .inl (by simpa using h.symm)

theorem attach_of_ne_concat (h : state ≠ .concat) : attach s state out added = some (out ++ added, s) := by
  cases state with
  | normal => rfl
  | placeholder => rfl
  | concat => exact absurd rfl h

/-- Tokens are put out wherever `##` is not the first of the list. -/
theorem attach_isSome (hadded : added ≠ []) (hstate : out = [] → state ≠ .concat) :
    ∃ out' s', attach s state out added = some (out', s') ∧ out' ≠ [] := by
  by_cases h : state = .concat
  · subst h
    obtain ⟨right, more, rfl⟩ := List.exists_cons_of_ne_nil hadded
    have hout : out ≠ [] := fun hout => hstate hout rfl
    rw [attach, List.getLast?_eq_getLast_of_ne_nil hout]
    cases hmerge : merge (out.getLast hout) right with
    | none => exact ⟨_, _, by simp only [hmerge]; rfl, by simp⟩
    | some left => exact ⟨_, _, by simp only [hmerge]; rfl, by simp⟩
  · exact ⟨_, _, attach_of_ne_concat h, by simp [hadded]⟩

theorem copyLoop_ne_nil {ts : List Tok} (h : ts ≠ []) : (copyLoop s ts).1 ≠ [] := by
  obtain ⟨t, ts, rfl⟩ := List.exists_cons_of_ne_nil h
  simp [copyLoop]

theorem copyArg_ne_nil {arg : List Tok} (h : arg ≠ []) : (copyArg s b arg).1 ≠ [] := by
  have := copyLoop_ne_nil (s := s) h
  rw [copyArg]
  split
  · simp
  · rename_i heq
    rw [heq] at this
    exact absurd rfl this

/-- The string token of a parameter is made before the body is read. -/
def Strung (args : List Arg) (b : BodyTok) : Prop :=
  ∀ argnum, b.kind = .strArgument argnum → ∃ a, args[argnum]? = some a ∧ a.str ≠ []

/-- Where the loop stands behind a token, by what the token does. -/
def BodyStep.Leads (out : List Tok) (body : List BodyTok) : BodyStep → Prop
  | .pass state skip => Ready (body.drop skip) state out
  | .put added _ skip => added ≠ [] ∧ ∀ out' ≠ [], Ready (body.drop skip) .normal out'

theorem bodyStep_quoted {argnum : ℕ} (hkind : b.kind = .quotedArgument argnum)
    (hbody : parsedBody ((b :: body).map BodyTok.kind) = true) (hstate : out = [] → state ≠ .concat) :
    (bodyStep place args s state b body).Leads out body := by
  rw [bodyStep, hkind]
  dsimp only
  split
  · exact Ready.afterEmpty hbody hstate
  · exact Ready.afterEmpty hbody hstate
  · rename_i hne _
    exact ⟨copyArg_ne_nil fun h => hne (by simp_all), fun _ hout => Ready.next hbody hout⟩

theorem bodyStep_macroArgument {argnum : ℕ} (hkind : b.kind = .macroArgument argnum)
    (hbody : parsedBody ((b :: body).map BodyTok.kind) = true) :
    (bodyStep place args s state b body).Leads out body := by
  rw [bodyStep, hkind]
  dsimp only
  split
  · obtain ⟨hnil, -⟩ | ⟨rest, -, hoperand, -⟩ | ⟨-, hparsed⟩ := parsedBody_cons hbody
    · rw [List.map_eq_nil_iff.mp hnil]
      exact .done
    · simp [hkind, BodyKind.isOperand] at hoperand
    · exact .operand hparsed fun _ => by simp
  · rename_i hne
    exact ⟨copyArg_ne_nil fun h => hne h, fun _ hout => Ready.next hbody hout⟩

theorem bodyStep_gnuKludge (hkind : b.kind = .gnuKludge)
    (hbody : parsedBody ((b :: body).map BodyTok.kind) = true) :
    (bodyStep place args s state b body).Leads out body := by
  obtain ⟨-, huntaint⟩ | ⟨rest, hrest, -, hchain, hparsed⟩ | ⟨hne, -⟩ := parsedBody_cons hbody
  · simp [hkind, BodyKind.isUntaint] at huntaint
  · obtain ⟨c, body, rfl, hc, rfl⟩ := List.map_eq_cons_iff.mp hrest
    rw [bodyStep, hkind]
    dsimp only
    split
    · rename_i skip hkludge
      obtain ⟨k, rfl, hdrop⟩ := handleKludge_true (hchain hkind) hparsed hkludge
      have hskip : (c :: body).drop (0 + 2 + k) = body.drop (k + 1) := by
        rw [show 0 + 2 + k = k + 1 + 1 by omega, List.drop_succ_cons]
      rw [BodyStep.Leads, hskip]
      exact .operand hdrop fun _ => by cases state <;> simp [Joining.afterEmpty]
    · rename_i skip hkludge
      refine ⟨by simp, fun out' hout => ?_⟩
      obtain rfl | rfl := handleKludge_false hkludge
      · exact .concat hc hparsed fun h => absurd h hout
      · exact .operand hparsed fun h => absurd h hout
  · exact absurd hkind hne

theorem bodyStep_leads (hargs : Strung args b) (h : Ready (b :: body) state out) :
    (bodyStep place args s state b body).Leads out body := by
  cases h with
  | concat hkind hbody hstate =>
    rw [bodyStep, hkind]
    refine .operand hbody fun hout => ?_
    rw [hstate hout]
    simp [Joining.afterConcat]
  | operand hbody hstate =>
    cases hkind : b.kind with
    | plain kind =>
      rw [bodyStep, hkind]
      exact ⟨by simp, fun _ hout => Ready.next hbody hout⟩
    | concat => simp [hkind, parsedBody_ne_concat] at hbody
    | strArgument argnum =>
      obtain ⟨a, ha, hstr⟩ := hargs argnum hkind
      rw [bodyStep, hkind]
      simp only [ha, Option.map_some, Option.getD_some]
      exact ⟨copyArg_ne_nil hstr, fun _ hout => Ready.next hbody hout⟩
    | quotedArgument argnum => exact bodyStep_quoted hkind hbody hstate
    | macroArgument argnum => exact bodyStep_macroArgument hkind hbody
    | gnuKludge => exact bodyStep_gnuKludge hkind hbody

theorem Ready.attached (h : Ready (b :: body) state out) (hne : b.kind ≠ .concat) (hadded : added ≠ []) :
    ∃ out' s', attach s state out added = some (out', s') ∧ out' ≠ [] := by
  cases h with
  | operand hbody hstate => exact attach_isSome hadded hstate
  | concat hkind => exact absurd hkind hne

/-- `substitute` comes to the end of every parsed body. -/
theorem substituteLoop_isSome (hargs : ∀ b ∈ body, Strung args b) (h : Ready body state out) :
    (substituteLoop place args body 0 s state out).isSome := by
  induction hlen : body.length using Nat.strong_induction_on generalizing body s state out with
  | _ len ih =>
    subst hlen
    cases body with
    | nil => rfl
    | cons b body =>
      have hdrop : ∀ skip, ∀ c ∈ body.drop skip, Strung args c :=
        fun skip c hc => hargs c (List.mem_cons_of_mem _ (List.mem_of_mem_drop hc))
      have hlt : ∀ skip, (body.drop skip).length < (b :: body).length := fun skip => by
        simp only [List.length_drop, List.length_cons]
        omega
      have hleads : (bodyStep place args s state b body).Leads out body :=
        bodyStep_leads (hargs b List.mem_cons_self) h
      rw [substituteLoop]
      cases hstep : bodyStep place args s state b body with
      | pass state' skip =>
        rw [hstep] at hleads
        simp only
        rw [substituteLoop_skip]
        exact ih _ (hlt skip) (hdrop skip) hleads rfl
      | put added s' skip =>
        rw [hstep] at hleads
        have hne : b.kind ≠ .concat := by
          intro hkind
          rw [bodyStep, hkind] at hstep
          cases hstep
        obtain ⟨out', s'', hattach, hout'⟩ := Ready.attached (s := s') h hne hleads.1
        simp only [hattach, Option.bind_eq_bind, Option.bind_some]
        rw [substituteLoop_skip]
        exact ih _ (hlt skip) (hdrop skip) (hleads.2 out' hout') rfl

theorem substitute_isSome (m : Macro) (hargs : ∀ b ∈ m.expansion, Strung args b) :
    (substitute s place m.expansion args).isSome :=
  substituteLoop_isSome hargs (.operand m.parsed fun _ => by simp)

end Totality

end Sparse.MacroExpansion
