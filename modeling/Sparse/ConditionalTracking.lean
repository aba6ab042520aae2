import Sparse.Conditionals

/-!
# The stack of a stream encodes its open groups

The kind of a node says whether its group can still select a branch, and
`false_nesting` counts the open groups from the outermost dead one inwards.
Every handler keeps both right.
-/

namespace Sparse.Preprocess
open ConditionalGroups

/-- The kind of the node of a group; `outer` says whether the groups around it are live. -/
def kindOf (outer : Prop) [Decidable outer] (g : Group) : IfKind :=
  if g.seenOtherwise then .tokenElse
  else if outer ∧ (g.selected = true ∨ g.decided = false) then .tokenIf
  else .skipGroups

/-- The list at `top_if` of a file. -/
def topIfOf (file : ℕ) : List Group → List IfToken
  | [] => []
  | g :: below =>
    if g.file = file then ⟨g.id, kindOf (Live below) g⟩ :: topIfOf file below
    else topIfOf file below

/-- The value of `false_nesting`. -/
def deadCount : List Group → ℕ
  | [] => 0
  | g :: below =>
    if deadCount below = 0 then if g.selected then 0 else 1 else deadCount below + 1

theorem deadCount_eq_zero_iff (stack : List Group) : deadCount stack = 0 ↔ Live stack := by
  induction stack with
  | nil => simp [deadCount]
  | cons g below ih =>
    rw [deadCount, live_cons, ← ih]
    by_cases h : deadCount below = 0
    · by_cases hs : g.selected = true <;> simp [h, hs]
    · simp [h]

theorem deadCount_of_not_live {g : Group} {below : List Group} (h : ¬ Live below) :
    deadCount (g :: below) = deadCount below + 1 := by
  rw [deadCount, if_neg (mt (deadCount_eq_zero_iff below).1 h)]

theorem deadCount_of_live {g : Group} {below : List Group} (h : Live below) :
    deadCount (g :: below) = if g.selected then 0 else 1 := by
  rw [deadCount, if_pos ((deadCount_eq_zero_iff below).2 h)]

theorem topIfOf_of_forall_ne {file : ℕ} {stack : List Group} (h : ∀ g ∈ stack, g.file ≠ file) :
    topIfOf file stack = [] := by
  induction stack with
  | nil => rfl
  | cons g below ih =>
    rw [List.forall_mem_cons] at h
    rw [topIfOf, if_neg h.1, ih h.2]

/-- The innermost group is in the file, or the file has no open group. -/
def OnTop (file : ℕ) (stack : List Group) : Prop :=
  (∀ g ∈ stack.head?, g.file = file) ∨ ∀ g ∈ stack, g.file ≠ file

/-- The stream and the counter agree with the open groups. -/
structure Encodes (file : ℕ) (s : Stream) (fn : ℕ) (o : Open) : Prop where
  topIf : s.topIf = topIfOf file o.stack
  count : fn = deadCount o.stack
  opened : s.opened = o.opened file

variable {file fn : ℕ} {s : Stream} {o : Open}

theorem Encodes.congr {s' : Stream} (h : Encodes file s fn o) (htop : s'.topIf = s.topIf)
    (hopened : s'.opened = s.opened) : Encodes file s' fn o :=
  ⟨htop.trans h.topIf, h.count, hopened.trans h.opened⟩

/-- When an expression decides the selection. -/
def Decides (o : Open) (file : ℕ) : Conditional → Prop
  | .opening _ => Live o.stack
  | .elif _ => ∃ g below, o.stack = g :: below ∧ g.file = file ∧ Live below ∧ g.decided = false
  | _ => False

/-! ## Opening a group -/

theorem preprocessorIf_encodes (h : Encodes file s fn o) (v e : Bool)
    {v' : Bool} (hv : Live o.stack → v' = v) :
    Encodes file (preprocessorIf s fn v' e).stream (preprocessorIf s fn v' e).falseNesting
      (o.directive file (.opening v)) := by
  have hlive : fn = 0 ↔ Live o.stack := by
    rw [h.count, deadCount_eq_zero_iff]
  have hselected : Group.selected ⟨file, o.opened file, [.condition v]⟩ = v := by
    simp [Group.selected, Branch.accepts]
  have hdecided : Group.decided ⟨file, o.opened file, [.condition v]⟩ = v := by
    simp [Group.decided, Branch.accepts]
  refine ⟨?_, ?_, ?_⟩
  · simp only [preprocessorIf, Open.directive, topIfOf, if_true, h.opened, h.topIf]
    congr 2
    by_cases hl : Live o.stack
    · cases v <;> simp [kindOf, Group.seenOtherwise, Branch.isOtherwise, hl, hlive.2 hl, hselected,
        hdecided]
    · simp [kindOf, Group.seenOtherwise, Branch.isOtherwise, hl, mt hlive.1 hl]
  · simp only [preprocessorIf, Open.directive]
    by_cases hl : Live o.stack
    · rw [deadCount_of_live hl, hselected, hlive.2 hl, hv hl]
      cases v <;> simp
    · rw [deadCount_of_not_live hl, ← h.count, if_pos (Or.inl (mt hlive.1 hl))]
  · rw [Open.opened_opening, ← h.opened]
    rfl

/-- `#ifdef`, `#ifndef` and `#if`. -/
theorem handleIfdef_encodes (h : Encodes file s fn o) (defined : String → Bool) (args : List Token) :
    Encodes file (handleIfdef defined args s fn).stream (handleIfdef defined args s fn).falseNesting
      (o.directive file (.opening ((argumentIdent args).any defined))) := by
  unfold handleIfdef
  cases hargs : argumentIdent args with
  | some name => exact preprocessorIf_encodes h _ _ fun _ => rfl
  | none => exact preprocessorIf_encodes (h.congr (by simp) (by simp)) _ _ fun _ => rfl

theorem handleIfndef_encodes (h : Encodes file s fn o) (defined : String → Bool)
    (args : List Token) :
    Encodes file (handleIfndef defined args s fn).stream
      (handleIfndef defined args s fn).falseNesting
      (o.directive file (.opening ((argumentIdent args).any fun name => !defined name))) := by
  unfold handleIfndef
  cases hargs : argumentIdent args with
  | some name =>
    dsimp only
    refine preprocessorIf_encodes (h.congr ?_ ?_) _ _ fun _ => rfl
    · split_ifs <;> rfl
    · split_ifs <;> rfl
  | none => exact preprocessorIf_encodes (h.congr (by simp) (by simp)) _ _ fun _ => rfl

theorem handleIf_encodes (h : Encodes file s fn o) (v : Bool) :
    Encodes file (handleIf v s fn).stream (handleIf v s fn).falseNesting
        (o.directive file (.opening v)) ∧
      ((handleIf v s fn).evaluated = true ↔ Live o.stack) := by
  have hlive : fn = 0 ↔ Live o.stack := by
    rw [h.count, deadCount_eq_zero_iff]
  have hdirty : Encodes file s.dirtyStream fn o := h.congr (by simp) (by simp)
  unfold handleIf
  split
  · rename_i hfn
    exact ⟨preprocessorIf_encodes hdirty v true fun _ => rfl, iff_of_true rfl (hlive.1 hfn)⟩
  · rename_i hfn
    refine ⟨preprocessorIf_encodes hdirty v false fun hl => absurd (hlive.2 hl) hfn, ?_⟩
    exact iff_of_false (by simp [preprocessorIf]) (mt hlive.2 hfn)

/-! ## Branches and ends -/

/-- What a handler sees of a stack whose innermost group is in the file, or of one
without a group of the file. -/
theorem topIfOf_cases (hon : OnTop file o.stack) :
    (∃ g below, o.stack = g :: below ∧ g.file = file ∧
        topIfOf file o.stack = ⟨g.id, kindOf (Live below) g⟩ :: topIfOf file below) ∨
      topIfOf file o.stack = [] ∧ (∀ g ∈ o.stack, g.file ≠ file) := by
  cases hs : o.stack with
  | nil => exact Or.inr ⟨rfl, by simp⟩
  | cons g below =>
    rw [hs] at hon
    rcases hon with htop | hnone
    · have hf : g.file = file := htop g rfl
      exact Or.inl ⟨g, below, rfl, hf, by rw [topIfOf, if_pos hf]⟩
    · exact Or.inr ⟨topIfOf_of_forall_ne hnone, hnone⟩

/-- An unmatched directive leaves the groups as they are. -/
theorem directive_of_forall_ne (hnone : ∀ g ∈ o.stack, g.file ≠ file) (b : Branch) :
    Open.branch file b o.stack = o.stack ∧ Open.pop file o.stack = o.stack := by
  cases hs : o.stack with
  | nil => exact ⟨rfl, rfl⟩
  | cons g below =>
    have hne : g.file ≠ file := hnone g (by rw [hs]; exact List.mem_cons_self)
    simp [Open.branch, Open.pop, hne]

/-- The groups after a new branch of the innermost group. -/
theorem encodes_branch {g : Group} {below : List Group} {s' : Stream} {fn' : ℕ} {b : Branch}
    {kind : IfKind} (hs : o.stack = g :: below) (hf : g.file = file) (hopened : s'.opened = o.opened file)
    (htop : s'.topIf = ⟨g.id, kind⟩ :: topIfOf file below)
    (hkind : kind = kindOf (Live below) (g.branch b))
    (hfn : fn' = deadCount (g.branch b :: below)) :
    Encodes file s' fn' { o with stack := Open.branch file b o.stack } := by
  have hstack : Open.branch file b o.stack = g.branch b :: below := by
    rw [hs, Open.branch, if_pos hf]
  refine ⟨?_, ?_, hopened⟩
  · simp only [hstack, topIfOf, Group.branch_file, hf, if_true, Group.branch_id, htop, hkind]
  · simp only [hstack, hfn]

theorem handleElif_encodes (h : Encodes file s fn o) (hon : OnTop file o.stack) (v : Bool) :
    Encodes file (handleElif v s fn).stream (handleElif v s fn).falseNesting
        (o.directive file (.elif v)) ∧
      ((handleElif v s fn).evaluated = true ↔ Decides o file (.elif v)) := by
  have hopened : s.endGroup.opened = o.opened file := by
    rw [Stream.endGroup_opened, h.opened]
  have htop : s.endGroup.topIf = topIfOf file o.stack := by
    rw [Stream.endGroup_topIf, h.topIf]
  have hcount := h.count
  simp only [handleElif, Open.directive]
  rcases topIfOf_cases hon with ⟨g, below, hs, hf, heq⟩ | ⟨heq, hnone⟩
  · rw [htop, heq]
    rw [hs] at hcount
    have hdecides : Decides o file (.elif v) ↔ Live below ∧ g.decided = false := by
      constructor
      · rintro ⟨g', below', hs', -, hl, hd⟩
        rw [hs] at hs'
        obtain ⟨rfl, rfl⟩ := List.cons.inj hs'
        exact ⟨hl, hd⟩
      · rintro ⟨hl, hd⟩
        exact ⟨g, below, hs, hf, hl, hd⟩
    have hdopened : s.endGroup.dirtyStream.opened = o.opened file := by
      rw [Stream.dirtyStream_opened, hopened]
    have hdtop : s.endGroup.dirtyStream.topIf =
        ⟨g.id, kindOf (Live below) g⟩ :: topIfOf file below := by
      rw [Stream.dirtyStream_topIf, htop, heq]
    dsimp only
    cases ho : g.seenOtherwise with
    | true =>
      have hd := Group.decided_of_seenOtherwise ho
      have hkind : kindOf (Live below) g = .tokenElse := by simp [kindOf, ho]
      rw [if_pos hkind]
      refine ⟨encodes_branch hs hf hopened (by rw [Stream.nestingError_topIf, htop, heq]) ?_ ?_,
        iff_of_false (by simp) (by simp [hdecides, hd])⟩
      · simp [kindOf, ho]
      · by_cases hl : Live below
        · rw [deadCount_of_live hl] at hcount
          rw [deadCount_of_live hl, Group.branch_selected, hd, hcount]
          cases g.selected <;> simp
        · rw [deadCount_of_not_live hl] at hcount
          rw [deadCount_of_not_live hl, hcount, if_neg (by omega)]
    | false =>
      have hne : kindOf (Live below) g ≠ .tokenElse := by
        simp only [kindOf, ho, Bool.false_eq_true, if_false]
        split <;> simp
      rw [if_neg hne]
      by_cases hl : Live below
      · rw [deadCount_of_live hl] at hcount
        cases hd : g.decided with
        | false =>
          have hsel : g.selected = false := by
            by_contra hsel
            rw [Group.decided_of_selected (by simpa using hsel)] at hd
            exact Bool.noConfusion hd
          have hkind : kindOf (Live below) g = .tokenIf := by simp [kindOf, ho, hl, hd]
          have hfn : fn ≠ 0 := by simp [hcount, hsel]
          rw [if_neg (not_not.2 hkind), if_pos hfn]
          refine ⟨encodes_branch hs hf hdopened hdtop ?_ ?_,
            iff_of_true rfl (hdecides.2 ⟨hl, hd⟩)⟩
          · cases v <;> simp [kindOf, ho, hl, hd, Branch.isOtherwise, Branch.accepts]
          · rw [deadCount_of_live hl, Group.branch_selected, hd]
            cases v <;> simp [Branch.accepts]
        | true =>
          have hnot : ¬ Decides o file (.elif v) := by simp [hdecides, hd]
          cases hsel : g.selected with
          | true =>
            have hkind : kindOf (Live below) g = .tokenIf := by simp [kindOf, ho, hl, hsel]
            have hfn : fn = 0 := by simp [hcount, hsel]
            rw [if_neg (not_not.2 hkind), if_neg (not_not.2 hfn)]
            refine ⟨encodes_branch hs hf hdopened rfl ?_ ?_, iff_of_false (by simp) hnot⟩
            · simp [kindOf, ho, hd, Branch.isOtherwise]
            · rw [deadCount_of_live hl, Group.branch_selected, hd]
              simp
          | false =>
            have hkind : kindOf (Live below) g = .skipGroups := by simp [kindOf, ho, hd, hsel]
            rw [if_pos (by simp [hkind])]
            refine ⟨encodes_branch hs hf hdopened hdtop ?_ ?_,
              iff_of_false (by simp) hnot⟩
            · simp [kindOf, ho, hd, hsel, Branch.isOtherwise]
            · rw [deadCount_of_live hl, Group.branch_selected, hd, hcount, hsel]
              simp
      · rw [deadCount_of_not_live hl] at hcount
        have hkind : kindOf (Live below) g = .skipGroups := by simp [kindOf, ho, hl]
        rw [if_pos (by simp [hkind])]
        refine ⟨encodes_branch hs hf hdopened hdtop ?_ ?_,
          iff_of_false (by simp) (by simp [hdecides, hl])⟩
        · simp [kindOf, ho, hl, Branch.isOtherwise]
        · rw [deadCount_of_not_live hl, hcount]
  · rw [htop, heq]
    refine ⟨?_, iff_of_false (by simp) ?_⟩
    · rw [(directive_of_forall_ne hnone _).1]
      exact h.congr (by simp) (by simp)
    · rintro ⟨g, below, hs, hf, -⟩
      exact hnone g (by rw [hs]; exact List.mem_cons_self) hf

theorem handleElse_encodes (h : Encodes file s fn o) (hon : OnTop file o.stack) :
    Encodes file (handleElse s fn).stream (handleElse s fn).falseNesting
      (o.directive file .otherwise) := by
  have hopened : s.endGroup.opened = o.opened file := by
    rw [Stream.endGroup_opened, h.opened]
  have htop : s.endGroup.topIf = topIfOf file o.stack := by
    rw [Stream.endGroup_topIf, h.topIf]
  have hcount := h.count
  simp only [handleElse, Open.directive]
  rcases topIfOf_cases hon with ⟨g, below, hs, hf, heq⟩ | ⟨heq, hnone⟩
  · rw [htop, heq]
    rw [hs] at hcount
    dsimp only
    refine encodes_branch hs hf ?_ rfl (by simp [kindOf, Branch.isOtherwise]) ?_
    · split_ifs
      · exact hopened
      · exact hopened
    · by_cases hl : Live below
      · rw [deadCount_of_live hl] at hcount
        rw [deadCount_of_live hl, Group.branch_selected, hcount]
        cases ho : g.seenOtherwise with
        | true =>
          have hd := Group.decided_of_seenOtherwise ho
          cases hsel : g.selected <;> simp [kindOf, ho, hd]
        | false =>
          cases hsel : g.selected with
          | true => simp [Group.decided_of_selected hsel]
          | false => cases hd : g.decided <;> simp [kindOf, ho, hl, hsel, hd, Branch.accepts]
      · rw [deadCount_of_not_live hl] at hcount
        rw [deadCount_of_not_live hl, hcount]
        have hkind : kindOf (Live below) g ≠ .tokenIf := by
          simp only [kindOf, hl, false_and, if_false]
          split <;> simp
        simp [hkind]
  · rw [htop, heq, (directive_of_forall_ne hnone _).1]
    exact h.congr (by simp) (by simp)

theorem handleEndif_encodes (h : Encodes file s fn o) (hon : OnTop file o.stack) :
    Encodes file (handleEndif s fn).stream (handleEndif s fn).falseNesting
      (o.directive file .endif) := by
  have hopened : s.endGroup.opened = o.opened file := by
    rw [Stream.endGroup_opened, h.opened]
  have htop : s.endGroup.topIf = topIfOf file o.stack := by
    rw [Stream.endGroup_topIf, h.topIf]
  have hcount := h.count
  simp only [handleEndif, Open.directive]
  rcases topIfOf_cases hon with ⟨g, below, hs, hf, heq⟩ | ⟨heq, hnone⟩
  · rw [htop, heq]
    rw [hs] at hcount
    have hpop : Open.pop file o.stack = below := by
      rw [hs, Open.pop, if_pos hf]
    refine ⟨?_, ?_, hopened⟩
    · rw [hpop]
    · dsimp only
      rw [hpop, hcount]
      by_cases hl : Live below
      · rw [deadCount_of_live hl, (deadCount_eq_zero_iff below).2 hl]
        cases g.selected <;> simp
      · rw [deadCount_of_not_live hl, Nat.add_sub_cancel]
  · rw [htop, heq, (directive_of_forall_ne hnone .otherwise).2]
    exact h.congr (by simp) (by simp)

/-- Every conditional directive keeps the encoding, and evaluates an expression
exactly when that decides the selection. -/
theorem handle_encodes {M : Type} {env : Environment M} {macros : M} {d : Directive}
    {c : Conditional} (hc : conditionalOf env macros d = some c) (h : Encodes file s fn o)
    (hon : OnTop file o.stack) :
    Encodes file (handle env macros d s fn).stream (handle env macros d s fn).falseNesting
        (o.directive file c) ∧
      ((handle env macros d s fn).evaluated = true ↔ d.hasExpression = true ∧ Decides o file c) := by
  cases d with
  | ifdef args =>
    obtain rfl := Option.some.inj hc
    refine ⟨handleIfdef_encodes h _ args, iff_of_false ?_ (by simp [Directive.hasExpression])⟩
    simp only [handle, handleIfdef]
    split <;> simp [preprocessorIf]
  | ifndef args =>
    obtain rfl := Option.some.inj hc
    refine ⟨handleIfndef_encodes h _ args, iff_of_false ?_ (by simp [Directive.hasExpression])⟩
    simp only [handle, handleIfndef]
    split <;> simp [preprocessorIf]
  | if_ expr =>
    obtain rfl := Option.some.inj hc
    obtain ⟨henc, heval⟩ := handleIf_encodes h (env.value macros expr)
    exact ⟨henc, by simp [handle, heval, Directive.hasExpression, Decides]⟩
  | elif expr =>
    obtain rfl := Option.some.inj hc
    obtain ⟨henc, heval⟩ := handleElif_encodes h hon (env.value macros expr)
    exact ⟨henc, by simp [handle, heval, Directive.hasExpression]⟩
  | else_ =>
    obtain rfl := Option.some.inj hc
    refine ⟨handleElse_encodes h hon, iff_of_false ?_ (by simp [Directive.hasExpression])⟩
    simp only [handle, handleElse]
    split <;> simp
  | endif =>
    obtain rfl := Option.some.inj hc
    refine ⟨handleEndif_encodes h hon, iff_of_false ?_ (by simp [Directive.hasExpression])⟩
    simp only [handle, handleEndif]
    split <;> simp
  | null => simp [conditionalOf] at hc
  | normal => simp [conditionalOf] at hc

end Sparse.Preprocess
