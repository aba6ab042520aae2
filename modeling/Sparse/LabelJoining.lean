import Mathlib.Logic.Function.Basic
import Mathlib.Logic.Relation

/-!
# Labels that are joined

Keys get labels, one at a time, and two labels are made one by giving all keys of the
first the second. Keys that share a label go on sharing it, and keys share one only
where a chain of joined pairs leads from one to the other.
-/

namespace LabelJoining

variable {κ L : Type*}

/-- The keys share a label. -/
def Share (f : κ → Option L) (a b : κ) : Prop :=
  ∃ σ, f a = some σ ∧ f b = some σ

/-- A relation with which labels can be shared: it need not hold of keys that get no label. -/
structure Partial (E : κ → κ → Prop) : Prop where
  symm : ∀ {a b}, E a b → E b a
  trans : ∀ {a b c}, E a b → E b c → E a c

/-- Only related keys share labels. -/
def Respects (E : κ → κ → Prop) (f : κ → Option L) : Prop :=
  ∀ ⦃a b⦄, Share f a b → E a b

variable {f f' : κ → Option L} {x y a b : κ} {E : κ → κ → Prop}

theorem share_self (ha : f a ≠ none) : Share f a a := by
  obtain ⟨σ, hσ⟩ := Option.ne_none_iff_exists'.1 ha
  exact ⟨σ, hσ, hσ⟩

theorem Share.ne_none (h : Share f a b) : f a ≠ none := by
  obtain ⟨σ, ha, -⟩ := h
  rw [ha]
  exact nofun

theorem Share.eq (h : Share f a b) : f a = f b := by
  obtain ⟨σ, ha, hb⟩ := h
  rw [ha, hb]

theorem Share.symm (h : Share f a b) : Share f b a := by
  obtain ⟨σ, ha, hb⟩ := h
  exact ⟨σ, hb, ha⟩

/-- Keys with labels share one exactly where a chain of joined pairs relates them. -/
theorem share_iff_eqvGen {R : κ → κ → Prop} (hr : Respects E f) (hE : ∀ {a b}, E a b → Relation.EqvGen R a b)
    (hall : ∀ a b, R a b → Share f a b) (ha : f a ≠ none) :
    Share f a b ↔ Relation.EqvGen R a b := by
  refine ⟨fun h => hE (hr h), fun h => ?_⟩
  have hlabel : ∀ {c d}, Relation.EqvGen R c d → f c = f d := by
    intro c d hcd
    induction hcd with
    | rel c d hR =>
      obtain ⟨σ, hc, hd⟩ := hall c d hR
      rw [hc, hd]
    | refl c => rfl
    | symm c d _ ih => exact ih.symm
    | trans c d e _ _ ih ih' => exact ih.trans ih'
  obtain ⟨σ, hσ⟩ := Option.ne_none_iff_exists'.1 ha
  exact ⟨σ, hσ, (hlabel h).symm.trans hσ⟩

section Merging

variable [DecidableEq L]

/-- All keys of `σ` get `τ`. -/
def merge (f : κ → Option L) (σ τ : L) : κ → Option L :=
  fun a => (f a).map fun l => if l = σ then τ else l

theorem share_merge (h : Share f a b) (σ τ : L) : Share (merge f σ τ) a b := by
  obtain ⟨l, ha, hb⟩ := h
  exact ⟨if l = σ then τ else l, by rw [merge, ha, Option.map_some], by rw [merge, hb, Option.map_some]⟩

end Merging

section Updating

variable [DecidableEq κ]

theorem share_update (h : Share f a b) (hx : f x = none) (l : Option L) :
    Share (Function.update f x l) a b := by
  obtain ⟨σ, ha, hb⟩ := h
  have hne : ∀ {c}, f c = some σ → c ≠ x := fun hc heq => by
    rw [heq, hx] at hc
    exact absurd hc nofun
  exact ⟨σ, by rw [Function.update_of_ne (hne ha), ha], by rw [Function.update_of_ne (hne hb), hb]⟩

/-- A key that gets the label of another. -/
theorem Respects.update (hr : Respects E f) (hE : Partial E) (hxx : E x x) {σ : L}
    (hx : ∀ c, f c = some σ → E c x) :
    Respects E (Function.update f x (some σ)) := by
  rintro c d ⟨l, hc, hd⟩
  rw [Function.update_apply] at hc hd
  split at hc
  · next hcx =>
    subst hcx
    split at hd
    · next hdx => exact hdx ▸ hxx
    · rw [← Option.some.inj hc] at hd
      exact hE.symm (hx d hd)
  · split at hd
    · next hdx =>
      rw [← Option.some.inj hd] at hc
      exact hdx ▸ hx c hc
    · exact hr ⟨l, hc, hd⟩

end Updating

variable [DecidableEq κ] [DecidableEq L]

/-- One step that makes `x` and `y` share a label. -/
inductive Join (f : κ → Option L) : κ → κ → (κ → Option L) → Prop
  | same {x y : κ} {σ : L} : f x = some σ → f y = some σ → Join f x y f
  | fresh {x : κ} {σ : L} : f x = none → (∀ a, f a ≠ some σ) → Join f x x (Function.update f x (some σ))
  | right {x y : κ} {σ : L} : f x = some σ → f y = none → Join f x y (Function.update f y (some σ))
  | left {x y : κ} {σ : L} : f x = none → f y = some σ → Join f x y (Function.update f x (some σ))
  | merge {x y : κ} {σ τ : L} : f x = some σ → f y = some τ → Join f x y (merge f σ τ)

theorem Join.share (h : Join f x y f') : Share f' x y := by
  cases h with
  | same hx hy => exact ⟨_, hx, hy⟩
  | fresh hx _ => exact ⟨_, Function.update_self .., Function.update_self ..⟩
  | @right _ σ hx hy =>
    have hne : x ≠ y := fun heq => by
      rw [heq, hy] at hx
      exact absurd hx nofun
    exact ⟨σ, by rw [Function.update_of_ne hne, hx], Function.update_self ..⟩
  | @left _ σ hx hy =>
    have hne : y ≠ x := fun heq => by
      rw [heq, hx] at hy
      exact absurd hy nofun
    exact ⟨σ, Function.update_self .., by rw [Function.update_of_ne hne, hy]⟩
  | @merge _ σ τ hx hy =>
    refine ⟨τ, by rw [LabelJoining.merge, hx, Option.map_some, if_pos rfl], ?_⟩
    rw [LabelJoining.merge, hy, Option.map_some, ite_self]

/-- What shares a label keeps sharing one. -/
theorem Join.keeps (h : Join f x y f') (hab : Share f a b) : Share f' a b := by
  cases h with
  | same _ _ => exact hab
  | fresh hx _ => exact share_update hab hx _
  | right _ hy => exact share_update hab hy _
  | left hx _ => exact share_update hab hx _
  | merge _ _ => exact share_merge hab _ _

/-- Keys that share a label only where it is due do so after a join that is due. -/
theorem Join.respects (h : Join f x y f') (hE : Partial E) (hr : Respects E f) (hxy : E x y) :
    Respects E f' := by
  cases h with
  | same _ _ => exact hr
  | fresh _ hfresh => exact hr.update hE hxy fun c hc => absurd hc (hfresh c)
  | right hx _ => exact hr.update hE (hE.trans (hE.symm hxy) hxy) fun c hc => hE.trans (hr ⟨_, hc, hx⟩) hxy
  | left _ hy => exact hr.update hE (hE.trans hxy (hE.symm hxy)) fun c hc => hE.trans (hr ⟨_, hc, hy⟩) (hE.symm hxy)
  | @merge _ σ τ hx hy =>
    -- every label that is `τ` now was that of `x` or of `y`
    have hcase : ∀ {c l}, LabelJoining.merge f σ τ c = some l → f c = some l ∨ (l = τ ∧ E c y) := by
      intro c l hc
      obtain ⟨l', hl', heq⟩ := Option.map_eq_some_iff.1 hc
      split at heq
      · next hσ => exact .inr ⟨heq.symm, hE.trans (hr ⟨σ, hσ ▸ hl', hx⟩) hxy⟩
      · exact .inl (heq ▸ hl')
    rintro c d ⟨l, hc, hd⟩
    rcases hcase hc with hc' | ⟨hl, hcy⟩
    · rcases hcase hd with hd' | ⟨hl, hdy⟩
      · exact hr ⟨l, hc', hd'⟩
      · exact hE.trans (hr ⟨l, hc', hl ▸ hy⟩) (hE.symm hdy)
    · rcases hcase hd with hd' | ⟨-, hdy⟩
      · exact hE.trans hcy (hE.symm (hr ⟨l, hd', hl ▸ hy⟩))
      · exact hE.trans hcy (hE.symm hdy)

end LabelJoining
