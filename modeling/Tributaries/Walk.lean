import Mathlib.Data.List.Infix

/-! # Walks over records

  A string of records is walked from a position by a relation that says
  which record stands at a position and where the next one begins.  Where
  the relation leaves no choice, the chain that ends where nothing stands
  is the longest one, and it is the only chain that ends so.
-/

namespace Walk

variable {P ρ : Type*} {R : P → ρ → P → Prop} {p q t t' : P} {r : ρ} {rs rs' : List ρ}

/-- The records met on the way from one position to another. -/
inductive Chain (R : P → ρ → P → Prop) : P → List ρ → P → Prop where
  | nil (p : P) : Chain R p [] p
  | cons {p q t : P} {r : ρ} {rs : List ρ} (hr : R p r q) (hc : Chain R q rs t) :
      Chain R p (r :: rs) t

/-- No record stands at a position. -/
def Stuck (R : P → ρ → P → Prop) (p : P) : Prop := ∀ r q, ¬ R p r q

/-- At most one record stands at a position. -/
def Functional (R : P → ρ → P → Prop) : Prop :=
  ∀ p r r' q q', R p r q → R p r' q' → r = r' ∧ q = q'

/-- The records from a position on, up to where nothing stands. -/
def Longest (R : P → ρ → P → Prop) (p : P) (rs : List ρ) : Prop :=
  ∃ t, Chain R p rs t ∧ Stuck R t

/-- A chain to where nothing stands extends every chain from its start. -/
theorem Chain.extends (hf : Functional R) (h : Chain R p rs t) (hs : Stuck R t)
    (h' : Chain R p rs' t') : rs' <+: rs := by
  induction h generalizing rs' t' with
  | nil p =>
    cases h' with
    | nil => exact List.prefix_rfl
    | cons hr' _ => exact absurd hr' (hs _ _)
  | cons hr _ ih =>
    cases h' with
    | nil => exact List.nil_prefix
    | cons hr' hc' =>
      obtain ⟨hrr, hqq⟩ := hf _ _ _ _ _ hr hr'
      subst hrr
      subst hqq
      exact List.prefix_cons_inj _ |>.mpr (ih hs hc')

/-- Two chains from one start to where nothing stands are the same. -/
theorem Chain.unique (hf : Functional R) (h : Chain R p rs t) (hs : Stuck R t)
    (h' : Chain R p rs' t') (hs' : Stuck R t') : rs = rs' ∧ t = t' := by
  induction h generalizing rs' t' with
  | nil p =>
    cases h' with
    | nil => exact ⟨rfl, rfl⟩
    | cons hr' _ => exact absurd hr' (hs _ _)
  | cons hr _ ih =>
    cases h' with
    | nil => exact absurd hr (hs' _ _)
    | cons hr' hc' =>
      obtain ⟨hrr, hqq⟩ := hf _ _ _ _ _ hr hr'
      subst hrr
      subst hqq
      obtain ⟨hl, ht⟩ := ih hs hc' hs'
      exact ⟨by rw [hl], ht⟩

theorem Longest.extends (hf : Functional R) (h : Longest R p rs) (h' : Chain R p rs' t') :
    rs' <+: rs := by
  obtain ⟨t, hc, hs⟩ := h
  exact hc.extends hf hs h'

end Walk
