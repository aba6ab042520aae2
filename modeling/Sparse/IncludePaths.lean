import Mathlib.Data.List.Nodup
import Sparse.TerminatedArrays

/-!
# The include path

The directories are in one array that ends at the first NULL, and five pointers into it
mark where each kind begins. The directives that add a path move the entries behind it
and some of the pointers.
-/

namespace Sparse

open TerminatedArrays

/-- `INCLUDEPATHS` -/
def includePaths : ℕ := 300

structure IncludePath where
  includepath : ℕ → Option String
  quote : ℕ
  angle : ℕ
  isys : ℕ
  sys : ℕ
  dirafter : ℕ

/-- The pointers that the callers of `add_path_entry` give. -/
inductive Where
  | isys | sys | dirafter
  deriving DecidableEq, Repr

/-- A directive with one string; a directive with several is as many steps. -/
inductive PathStep
  | addInclude (path : String)
  | addIsystem (path : String)
  | addSystem (path : String)
  | addDirafter (path : String)
  | splitInclude
  | nostdinc
  deriving DecidableEq, Repr

namespace IncludePath

/-- The array and the pointers that the context starts with. -/
def initial : IncludePath where
  includepath
    | 0 => some ""
    | 1 => some "/usr/include"
    | 2 => some "/usr/local/include"
    | _ => none
  quote := 0
  angle := 1
  isys := 1
  sys := 1
  dirafter := 3

variable (s : IncludePath)

def pointer : Where → ℕ
  | .isys => s.isys
  | .sys => s.sys
  | .dirafter => s.dirafter

/-- `do_include_path`: the directories tried from a pointer on. -/
def search (p : ℕ) : List String :=
  scan s.includepath (includePaths + 1) p

/-- The first test of `update_inc_ptrs`. -/
def raiseDirafter (place : ℕ) : IncludePath :=
  if place ≤ s.dirafter then { s with dirafter := s.dirafter + 1 } else s

def raiseSys (place : ℕ) : IncludePath :=
  if place ≤ s.sys then { s with sys := s.sys + 1 } else s

def raiseIsys (place : ℕ) : IncludePath :=
  if place ≤ s.isys then { s with isys := s.isys + 1 } else s

/-- `update_inc_ptrs`; it returns once the pointer itself has been raised, and every
caller gives one of the three. -/
def updateIncPtrs : Where → IncludePath
  | .dirafter => s.raiseDirafter s.dirafter
  | .sys => (s.raiseDirafter s.sys).raiseSys s.sys
  | .isys => ((s.raiseDirafter s.isys).raiseSys s.isys).raiseIsys s.isys

/-- `add_path_entry`; without a value, "too many include path entries". -/
def addPathEntry (path : String) (place : Where) : Option IncludePath :=
  if (s.includepath (includePaths - 2)).isSome then none
  else if path ∈ s.search 0 then some s
  else some { s.updateIncPtrs place with
    includepath := insertAt (includePaths + 1) s.includepath (s.pointer place) path }

/-- `add_dirafter_entry` -/
def addDirafterEntry (path : String) : Option IncludePath :=
  if (s.includepath (includePaths - 2)).isSome then none
  else
    let dst := (s.search 0).length
    some { s with
      includepath := Function.update (Function.update s.includepath dst (some path)) (dst + 1) none }

/-- `handle_split_include` -/
def handleSplitInclude : IncludePath :=
  { s with quote := 1, angle := s.sys }

/-- `handle_nostdinc` -/
def handleNostdinc : IncludePath :=
  { s with includepath := Function.update s.includepath s.sys none }

def step : PathStep → Option IncludePath
  | .addInclude path => s.addPathEntry path .isys
  | .addIsystem path => s.addPathEntry path .sys
  | .addSystem path => s.addPathEntry path .dirafter
  | .addDirafter path => s.addDirafterEntry path
  | .splitInclude => some s.handleSplitInclude
  | .nostdinc => some s.handleNostdinc

def run : IncludePath → List PathStep → Option IncludePath
  | s, [] => some s
  | s, p :: steps => (s.step p).bind fun s' => run s' steps

end IncludePath

/-! ## What the directives ask for -/

/-- The directories of each kind, in order of addition. -/
structure Sections where
  current : String
  split : Bool
  quoted : List String
  angled : List String
  isystem : List String
  system : List String
  after : List String

namespace Sections

def initial : Sections where
  current := ""
  split := false
  quoted := []
  angled := []
  isystem := []
  system := ["/usr/include", "/usr/local/include"]
  after := []

variable (c : Sections)

/-- Where a header in angle brackets is looked for. -/
def angleOrder : List String :=
  c.angled ++ (c.isystem ++ (c.system ++ c.after))

/-- Where a quoted header is looked for; `-I-` leaves out the directory of the file. -/
def quoteOrder : List String :=
  (if c.split then [] else [c.current]) ++ (c.quoted ++ c.angleOrder)

def all : List String :=
  c.current :: (c.quoted ++ c.angleOrder)

def step : PathStep → Sections
  | .addInclude path => if path ∈ c.all then c else { c with angled := c.angled ++ [path] }
  | .addIsystem path => if path ∈ c.all then c else { c with isystem := c.isystem ++ [path] }
  | .addSystem path => if path ∈ c.all then c else { c with system := c.system ++ [path] }
  | .addDirafter path => if path ∈ c.all then c else { c with after := c.after ++ [path] }
  | .splitInclude => { c with split := true, quoted := c.quoted ++ c.angled, angled := [] }
  | .nostdinc => { c with system := [], after := [] }

def run (c : Sections) (steps : List PathStep) : Sections :=
  steps.foldl step c

end Sections

namespace IncludePath

/-- The pointers mark the sections and the searches visit what they should, each
directory once. -/
structure Kept (s : IncludePath) (c : Sections) : Prop where
  quote_le : s.quote ≤ s.angle
  angle_le : s.angle ≤ s.isys
  isys_le : s.isys ≤ s.sys
  sys_le : s.sys ≤ s.dirafter
  inside : s.dirafter ≤ (s.search 0).length
  quote_search : s.search s.quote = c.quoteOrder
  angle_search : s.search s.angle = c.angleOrder
  once : (s.search s.quote).Nodup

/-- The steps that leave the sections in place: no directory is appended twice, none was
added with `-isystem` before the list is split, and `nostdinc` is not used. -/
def Safe (s : IncludePath) : PathStep → Prop
  | .addDirafter path => path ∉ s.search 0
  | .splitInclude => s.isys = s.sys
  | .nostdinc => False
  | _ => True

/-- The array holds the sections one after the other and the pointers their starts. -/
structure Laid (s : IncludePath) (c : Sections) : Prop where
  holds : Holds s.includepath c.all
  nodup : c.all.Nodup
  length_le : c.all.length ≤ includePaths - 1
  quote_eq : s.quote = if c.split then 1 else 0
  angle_eq : s.angle = 1 + c.quoted.length
  isys_eq : s.isys = s.angle + c.angled.length
  sys_eq : s.sys = s.isys + c.isystem.length
  dirafter_eq : s.dirafter = s.sys + c.system.length
  system_pos : 0 < c.system.length

namespace Laid

variable {s s' : IncludePath} {c : Sections} {path : String}

theorem search_eq (h : s.Laid c) (p : ℕ) : s.search p = c.all.drop p := by
  refine h.holds.scan_eq ?_
  have hle := h.length_le
  unfold includePaths at hle ⊢
  omega

theorem length_all (c : Sections) : c.all.length =
    1 + c.quoted.length + c.angled.length + c.isystem.length + c.system.length +
      c.after.length := by
  simp only [Sections.all, Sections.angleOrder, List.length_cons, List.length_append]
  omega

theorem kept (h : s.Laid c) : s.Kept c := by
  have hquote := h.quote_eq
  have hangle := h.angle_eq
  have hisys := h.isys_eq
  have hsys := h.sys_eq
  have hafter := h.dirafter_eq
  have hlength := length_all c
  have hsearch : s.search s.quote = c.quoteOrder := by
    rw [h.search_eq, hquote]
    unfold Sections.quoteOrder
    cases c.split
    · rfl
    · rfl
  have hqle : s.quote ≤ 1 := by
    rw [hquote]
    split <;> omega
  exact
    { quote_le := by omega
      angle_le := by omega
      isys_le := by omega
      sys_le := by omega
      inside := by
        rw [h.search_eq, List.drop_zero]
        omega
      quote_search := hsearch
      angle_search := by
        rw [h.search_eq, hangle, Nat.add_comm]
        exact List.drop_left
      once := by
        rw [h.search_eq]
        exact h.nodup.sublist (List.drop_sublist _ _) }

/-! ### One step -/

theorem search_zero (h : s.Laid c) : s.search 0 = c.all := by
  rw [h.search_eq, List.drop_zero]

theorem length_of_free (h : s.Laid c) (hfree : ¬(s.includepath (includePaths - 2)).isSome) :
    c.all.length ≤ includePaths - 2 := by
  rw [h.holds] at hfree
  by_contra hlt
  exact hfree (by simp [List.getElem?_eq_getElem (Nat.lt_of_not_le hlt)])

theorem addPathEntry_cases (h : s.Laid c) {place : Where}
    (hs : s.addPathEntry path place = some s') :
    path ∈ c.all ∧ s' = s ∨
      path ∉ c.all ∧ c.all.length ≤ includePaths - 2 ∧
        s' = { s.updateIncPtrs place with
          includepath := insertAt (includePaths + 1) s.includepath (s.pointer place) path } := by
  unfold addPathEntry at hs
  split at hs
  · exact absurd hs nofun
  · rename_i hfree
    rw [h.search_zero] at hs
    split at hs
    · rename_i hmem
      exact .inl ⟨hmem, (Option.some.inj hs).symm⟩
    · rename_i hmem
      exact .inr ⟨hmem, h.length_of_free hfree, (Option.some.inj hs).symm⟩

/-- The array after an insertion at the end of a section. -/
theorem holds_insertAt (h : s.Laid c) {pre post : List String} (hall : c.all = pre ++ post)
    (hle : c.all.length ≤ includePaths - 2) (path : String) :
    Holds (insertAt (includePaths + 1) s.includepath pre.length path) (pre ++ path :: post) := by
  have hholds := h.holds
  rw [hall] at hholds hle
  rw [List.length_append] at hle
  refine hholds.insertAt_append ?_
  unfold includePaths at hle ⊢
  omega

theorem nodup_insert {pre post : List String} (h : (pre ++ post).Nodup) (hp : path ∉ pre ++ post) :
    (pre ++ path :: post).Nodup :=
  List.nodup_middle.2 (List.nodup_cons.2 ⟨hp, h⟩)

theorem length_insert {pre post : List String} (hle : (pre ++ post).length ≤ includePaths - 2) :
    (pre ++ path :: post).length ≤ includePaths - 1 := by
  rw [List.length_append] at hle ⊢
  rw [List.length_cons]
  unfold includePaths at hle ⊢
  omega

theorem addInclude (h : s.Laid c) (hs : s.step (.addInclude path) = some s') :
    s'.Laid (c.step (.addInclude path)) := by
  rcases h.addPathEntry_cases hs with ⟨hmem, rfl⟩ | ⟨hmem, hle, rfl⟩
  · rw [Sections.step, if_pos hmem]
    exact h
  · rw [Sections.step, if_neg hmem]
    have hangle := h.angle_eq
    have hisys := h.isys_eq
    have hsys := h.sys_eq
    have hafter := h.dirafter_eq
    -- the end of the directories added with `-I`
    have hall : c.all = (c.current :: (c.quoted ++ c.angled)) ++
        (c.isystem ++ (c.system ++ c.after)) := by
      simp [Sections.all, Sections.angleOrder]
    have hnew : ({ c with angled := c.angled ++ [path] } : Sections).all =
        (c.current :: (c.quoted ++ c.angled)) ++ path :: (c.isystem ++ (c.system ++ c.after)) := by
      simp [Sections.all, Sections.angleOrder]
    have hplace : s.pointer .isys = (c.current :: (c.quoted ++ c.angled)).length := by
      simp only [pointer, List.length_cons, List.length_append]
      omega
    have hptrs : s.updateIncPtrs .isys =
        { s with isys := s.isys + 1, sys := s.sys + 1, dirafter := s.dirafter + 1 } := by
      have h1 : s.isys ≤ s.dirafter := by omega
      have h2 : s.isys ≤ s.sys := by omega
      simp [updateIncPtrs, raiseDirafter, raiseSys, raiseIsys, h1, h2]
    rw [hptrs, hplace]
    have hn := h.nodup
    rw [hall] at hn hmem
    exact
      { holds := hnew ▸ h.holds_insertAt hall hle path
        nodup := hnew ▸ nodup_insert hn hmem
        length_le := hnew ▸ length_insert (hall ▸ hle)
        quote_eq := h.quote_eq
        angle_eq := hangle
        isys_eq := by
          simp only [List.length_append, List.length_cons, List.length_nil]
          omega
        sys_eq := by
          dsimp only
          omega
        dirafter_eq := by
          dsimp only
          omega
        system_pos := h.system_pos }

theorem addIsystem (h : s.Laid c) (hs : s.step (.addIsystem path) = some s') :
    s'.Laid (c.step (.addIsystem path)) := by
  rcases h.addPathEntry_cases hs with ⟨hmem, rfl⟩ | ⟨hmem, hle, rfl⟩
  · rw [Sections.step, if_pos hmem]
    exact h
  · rw [Sections.step, if_neg hmem]
    have hangle := h.angle_eq
    have hisys := h.isys_eq
    have hsys := h.sys_eq
    have hafter := h.dirafter_eq
    have hall : c.all = (c.current :: (c.quoted ++ (c.angled ++ c.isystem))) ++
        (c.system ++ c.after) := by
      simp [Sections.all, Sections.angleOrder]
    have hnew : ({ c with isystem := c.isystem ++ [path] } : Sections).all =
        (c.current :: (c.quoted ++ (c.angled ++ c.isystem))) ++ path :: (c.system ++ c.after) := by
      simp [Sections.all, Sections.angleOrder]
    have hplace : s.pointer .sys = (c.current :: (c.quoted ++ (c.angled ++ c.isystem))).length := by
      simp only [pointer, List.length_cons, List.length_append]
      omega
    have hptrs : s.updateIncPtrs .sys =
        { s with sys := s.sys + 1, dirafter := s.dirafter + 1 } := by
      have h1 : s.sys ≤ s.dirafter := by omega
      simp [updateIncPtrs, raiseDirafter, raiseSys, h1]
    rw [hptrs, hplace]
    have hn := h.nodup
    rw [hall] at hn hmem
    exact
      { holds := hnew ▸ h.holds_insertAt hall hle path
        nodup := hnew ▸ nodup_insert hn hmem
        length_le := hnew ▸ length_insert (hall ▸ hle)
        quote_eq := h.quote_eq
        angle_eq := hangle
        isys_eq := hisys
        sys_eq := by
          simp only [List.length_append, List.length_cons, List.length_nil]
          omega
        dirafter_eq := by
          dsimp only
          omega
        system_pos := h.system_pos }

theorem addSystem (h : s.Laid c) (hs : s.step (.addSystem path) = some s') :
    s'.Laid (c.step (.addSystem path)) := by
  rcases h.addPathEntry_cases hs with ⟨hmem, rfl⟩ | ⟨hmem, hle, rfl⟩
  · rw [Sections.step, if_pos hmem]
    exact h
  · rw [Sections.step, if_neg hmem]
    have hangle := h.angle_eq
    have hisys := h.isys_eq
    have hsys := h.sys_eq
    have hafter := h.dirafter_eq
    have hall : c.all = (c.current :: (c.quoted ++ (c.angled ++ (c.isystem ++ c.system)))) ++
        c.after := by
      simp [Sections.all, Sections.angleOrder]
    have hnew : ({ c with system := c.system ++ [path] } : Sections).all =
        (c.current :: (c.quoted ++ (c.angled ++ (c.isystem ++ c.system)))) ++ path :: c.after := by
      simp [Sections.all, Sections.angleOrder]
    have hplace : s.pointer .dirafter =
        (c.current :: (c.quoted ++ (c.angled ++ (c.isystem ++ c.system)))).length := by
      simp only [pointer, List.length_cons, List.length_append]
      omega
    have hptrs : s.updateIncPtrs .dirafter = { s with dirafter := s.dirafter + 1 } := by
      simp [updateIncPtrs, raiseDirafter]
    rw [hptrs, hplace]
    have hn := h.nodup
    rw [hall] at hn hmem
    exact
      { holds := hnew ▸ h.holds_insertAt hall hle path
        nodup := hnew ▸ nodup_insert hn hmem
        length_le := hnew ▸ length_insert (hall ▸ hle)
        quote_eq := h.quote_eq
        angle_eq := hangle
        isys_eq := hisys
        sys_eq := hsys
        dirafter_eq := by
          simp only [List.length_append, List.length_cons, List.length_nil]
          omega
        system_pos := by
          rw [List.length_append]
          exact Nat.add_pos_left h.system_pos _ }

theorem addDirafterEntry_cases (h : s.Laid c) (hs : s.step (.addDirafter path) = some s') :
    c.all.length ≤ includePaths - 2 ∧ s' = { s with
      includepath := Function.update (Function.update s.includepath c.all.length (some path))
        (c.all.length + 1) none } := by
  change s.addDirafterEntry path = some s' at hs
  unfold addDirafterEntry at hs
  split at hs
  · exact absurd hs nofun
  · rename_i hfree
    rw [h.search_zero] at hs
    exact ⟨h.length_of_free hfree, (Option.some.inj hs).symm⟩

theorem holds_append (h : s.Laid c) (path : String) :
    Holds (Function.update (Function.update s.includepath c.all.length (some path))
      (c.all.length + 1) none) (c.all ++ [path]) := by
  have hends := h.holds.update_end path
  intro i
  by_cases hi : i = c.all.length + 1
  · subst hi
    rw [Function.update_self, List.getElem?_eq_none]
    rw [List.length_append]
    rfl
  · rw [Function.update_of_ne hi]
    exact hends i

theorem all_after (c : Sections) (path : String) :
    ({ c with after := c.after ++ [path] } : Sections).all = c.all ++ [path] := by
  simp [Sections.all, Sections.angleOrder]

theorem addDirafter (h : s.Laid c) (hsafe : s.Safe (.addDirafter path))
    (hs : s.step (.addDirafter path) = some s') : s'.Laid (c.step (.addDirafter path)) := by
  obtain ⟨hle, rfl⟩ := h.addDirafterEntry_cases hs
  have hmem : path ∉ c.all := by
    rw [← h.search_zero]
    exact hsafe
  rw [Sections.step, if_neg hmem]
  exact
    { holds := (all_after c path).symm ▸ h.holds_append path
      nodup := by
        rw [all_after, List.nodup_append_comm]
        exact List.nodup_cons.2 ⟨hmem, h.nodup⟩
      length_le := by
        rw [all_after, List.length_append]
        unfold includePaths at hle ⊢
        exact Nat.succ_le_succ hle
      quote_eq := h.quote_eq
      angle_eq := h.angle_eq
      isys_eq := h.isys_eq
      sys_eq := h.sys_eq
      dirafter_eq := h.dirafter_eq
      system_pos := h.system_pos }

theorem splitInclude (h : s.Laid c) (hsafe : s.Safe .splitInclude)
    (hs : s.step .splitInclude = some s') : s'.Laid (c.step .splitInclude) := by
  obtain rfl := Option.some.inj hs
  have hangle := h.angle_eq
  have hisys := h.isys_eq
  have hall : (c.step .splitInclude).all = c.all := by
    simp [Sections.step, Sections.all, Sections.angleOrder]
  change s.isys = s.sys at hsafe
  exact
    { holds := hall.symm ▸ h.holds
      nodup := hall.symm ▸ h.nodup
      length_le := hall.symm ▸ h.length_le
      quote_eq := rfl
      angle_eq := by
        simp only [handleSplitInclude, Sections.step, List.length_append]
        omega
      isys_eq := hsafe
      sys_eq := h.sys_eq
      dirafter_eq := h.dirafter_eq
      system_pos := h.system_pos }

/-- A safe step keeps the sections in place. -/
theorem step (h : s.Laid c) {p : PathStep} (hsafe : s.Safe p) (hs : s.step p = some s') :
    s'.Laid (c.step p) := by
  cases p with
  | addInclude path => exact h.addInclude hs
  | addIsystem path => exact h.addIsystem hs
  | addSystem path => exact h.addSystem hs
  | addDirafter path => exact h.addDirafter hsafe hs
  | splitInclude => exact h.splitInclude hsafe hs
  | nostdinc => exact absurd hsafe not_false

/-- Any other step does not. -/
theorem not_kept (h : s.Laid c) {p : PathStep} (hsafe : ¬ s.Safe p) (hs : s.step p = some s') :
    ¬ s'.Kept (c.step p) := by
  have hquote := h.quote_eq
  have hangle := h.angle_eq
  have hisys := h.isys_eq
  have hsys := h.sys_eq
  have hafter := h.dirafter_eq
  have hsystem := h.system_pos
  have hlength := length_all c
  cases p with
  | addInclude | addIsystem | addSystem => exact absurd trivial hsafe
  | addDirafter path =>
    -- the path is there already, and appended once more
    obtain ⟨hle, rfl⟩ := h.addDirafterEntry_cases hs
    have hmem : path ∈ c.all := by
      rw [← h.search_zero]
      exact not_not.1 hsafe
    rw [Sections.step, if_pos hmem]
    intro hkept
    have hsearch := hkept.quote_search
    have hscan : scan _ (includePaths + 1) s.quote = (c.all ++ [path]).drop s.quote :=
      (h.holds_append path).scan_eq (by
        rw [List.length_append]
        unfold includePaths at hle ⊢
        exact Nat.le_trans (Nat.succ_le_succ hle) (by omega))
    have hold := h.kept.quote_search
    rw [h.search_eq] at hold
    rw [← hold] at hsearch
    have hlen := congrArg List.length (hscan.symm.trans hsearch)
    rw [List.length_drop, List.length_drop, List.length_append, List.length_singleton] at hlen
    have hq : s.quote ≤ 1 := by
      rw [hquote]
      split <;> omega
    omega
  | splitInclude =>
    obtain rfl := Option.some.inj hs
    intro hkept
    have hle := hkept.angle_le
    change s.isys ≠ s.sys at hsafe
    change s.sys ≤ s.isys at hle
    omega
  | nostdinc =>
    obtain rfl := Option.some.inj hs
    intro hkept
    have hinside := hkept.inside
    -- the search now ends where the built-in directories began
    have hscan : s.handleNostdinc.search 0 = c.all.take s.sys := by
      have hle := h.length_le
      unfold includePaths at hle
      refine (h.holds.scan_cut (Nat.zero_le _) ?_).trans List.drop_zero
      unfold includePaths
      omega
    rw [hscan, List.length_take] at hinside
    change s.dirafter ≤ _ at hinside
    omega

end Laid

/-! ## Runs -/

theorem laid_initial : initial.Laid Sections.initial where
  holds i := by
    rcases i with _ | _ | _ | i
    all_goals rfl
  nodup := by decide
  length_le := by decide
  quote_eq := rfl
  angle_eq := rfl
  isys_eq := rfl
  sys_eq := rfl
  dirafter_eq := rfl
  system_pos := by decide

/-- In every state that a list of steps goes through, from a state whose sections are in
place. -/
def KeptThroughout (s : IncludePath) (c : Sections) (steps : List PathStep) : Prop :=
  ∀ taken rest t, steps = taken ++ rest → s.run taken = some t → t.Kept (c.run taken)

def SafeThroughout (s : IncludePath) (steps : List PathStep) : Prop :=
  ∀ taken p rest t, steps = taken ++ p :: rest → s.run taken = some t → t.Safe p

theorem keptThroughout_iff {s s' : IncludePath} {c : Sections} (h : s.Laid c)
    {steps : List PathStep} (hrun : s.run steps = some s') :
    s.KeptThroughout c steps ↔ s.SafeThroughout steps := by
  induction steps generalizing s c with
  | nil =>
    constructor
    · intro _ taken p rest t heq
      exact absurd heq (by simp)
    · intro _ taken rest t heq ht
      obtain ⟨rfl, rfl⟩ := List.append_eq_nil_iff.1 heq.symm
      exact Option.some.inj ht ▸ h.kept
  | cons p steps ih =>
    obtain ⟨s₁, hstep, hrest⟩ := Option.bind_eq_some_iff.1 hrun
    have hshift : ∀ {taken : List PathStep} {t : IncludePath}, s₁.run taken = some t →
        s.run (p :: taken) = some t := by
      intro taken t ht
      exact Option.bind_eq_some_iff.2 ⟨s₁, hstep, ht⟩
    have hunshift : ∀ {taken : List PathStep} {t : IncludePath}, s.run (p :: taken) = some t →
        s₁.run taken = some t := by
      intro taken t ht
      obtain ⟨s₂, hstep', ht⟩ := Option.bind_eq_some_iff.1 ht
      rw [hstep] at hstep'
      exact Option.some.inj hstep' ▸ ht
    constructor
    · intro hkept
      have hsafe : s.Safe p := by
        by_contra hunsafe
        exact h.not_kept hunsafe hstep (hkept [p] steps s₁ rfl (hshift rfl))
      have htail : s₁.KeptThroughout (c.step p) steps := fun taken rest t heq ht =>
        hkept (p :: taken) rest t (congrArg _ heq) (hshift ht)
      have hsafes := (ih (h.step hsafe hstep) hrest).1 htail
      intro taken q rest t heq ht
      cases taken with
      | nil =>
        obtain ⟨rfl, rfl⟩ := List.cons.inj heq
        exact Option.some.inj ht ▸ hsafe
      | cons q' taken =>
        obtain ⟨rfl, rfl⟩ := List.cons.inj heq
        exact hsafes taken q rest t rfl (hunshift ht)
    · intro hsafes
      have hsafe : s.Safe p := hsafes [] p steps s rfl rfl
      have htail : s₁.SafeThroughout steps := fun taken q rest t heq ht =>
        hsafes (p :: taken) q rest t (congrArg _ heq) (hshift ht)
      have hkept := (ih (h.step hsafe hstep) hrest).2 htail
      intro taken rest t heq ht
      cases taken with
      | nil => exact Option.some.inj ht ▸ h.kept
      | cons q' taken =>
        obtain ⟨rfl, rfl⟩ := List.cons.inj heq
        exact hkept taken rest t rfl (hunshift ht)

/-- From the start, within the capacity, the sections are in place throughout exactly when
every step is safe. -/
theorem includePaths_keptThroughout_iff (steps : List PathStep) (s : IncludePath)
    (hrun : initial.run steps = some s) :
    initial.KeptThroughout Sections.initial steps ↔ initial.SafeThroughout steps :=
  keptThroughout_iff laid_initial hrun

/-- `-I inc -idirafter late` -/
theorem includePaths_keptThroughout_inc : initial.KeptThroughout Sections.initial
    [.addInclude "inc", .addDirafter "late"] := by
  refine (includePaths_keptThroughout_iff _ _ rfl).2 ?_
  intro taken p rest t heq ht
  rcases taken with _ | ⟨q, _ | ⟨q', taken⟩⟩
  · obtain ⟨rfl, -⟩ := List.cons.inj heq
    exact trivial
  · obtain ⟨rfl, hrest⟩ := List.cons.inj heq
    obtain ⟨rfl, -⟩ := List.cons.inj hrest
    obtain rfl := Option.some.inj ht
    change "late" ∉ _
    decide
  · exact absurd (congrArg List.length heq) (by simp)

/-- `-nostdinc -isystem late`: the entry behind the terminator, which `nostdinc` removed, is
searched again. -/
theorem not_keptThroughout_nostdinc : ¬ initial.KeptThroughout Sections.initial
    [.nostdinc, .addIsystem "late"] := by
  intro h
  have hsearch := (h [.nostdinc, .addIsystem "late"] [] _ rfl rfl).angle_search
  have huncovered : ["late", "/usr/local/include"] = ["late"] := hsearch
  exact absurd huncovered (by decide)

end IncludePath

end Sparse
