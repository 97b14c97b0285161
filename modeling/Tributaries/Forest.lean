import Mathlib

/-! # Forests of parent pointers

  A forest is given by its parent function: `up x` is the parent of `x`,
  or nothing when `x` is a root.  A node is *grounded* when walking up
  from it ends; a forest without cycles is one whose nodes are all
  grounded.  The ancestors of a grounded node form its *chain*, which
  names no node twice, and every bounded walk up the parents is a read of
  that list.

  The three ways a parent function is edited are a new leaf, a removal,
  and a re-keying of one node below another that is not among its
  descendants.  Each keeps every node grounded.
-/

namespace Forest

variable {K : Type} {up up' : K → Option K}

/-- Walking up from the node ends at a root. -/
inductive Grounded (up : K → Option K) : K → Prop where
  | root {x : K} (h : up x = none) : Grounded up x
  | step {x p : K} (h : up x = some p) (hp : Grounded up p) : Grounded up x

/-- The list of a node and its ancestors, nearest first. -/
inductive Chain (up : K → Option K) : K → List K → Prop where
  | root {x : K} (h : up x = none) : Chain up x [x]
  | step {x p : K} {l : List K} (h : up x = some p) (hp : Chain up p l) : Chain up x (x :: l)

/-- `a` is on the way up from `x`, the node itself included. -/
def Above (up : K → Option K) (a x : K) : Prop := ∃ l, Chain up x l ∧ a ∈ l

/-! ### Chains -/

theorem Grounded.chain {x : K} (h : Grounded up x) : ∃ l, Chain up x l := by
  induction h with
  | root h => exact ⟨_, .root h⟩
  | step h _ ih =>
    obtain ⟨l, hl⟩ := ih
    exact ⟨_, .step h hl⟩

namespace Chain

variable {x y p : K} {l l' : List K}

theorem grounded (h : Chain up x l) : Grounded up x := by
  induction h with
  | root h => exact .root h
  | step h _ ih => exact .step h ih

theorem unique (h : Chain up x l) (h' : Chain up x l') : l = l' := by
  induction h generalizing l' with
  | root h =>
    cases h' with
    | root => rfl
    | step hs => simp [h] at hs
  | step h _ ih =>
    cases h' with
    | root hr => simp [h] at hr
    | step hs hp =>
      obtain rfl := Option.some.inj (h.symm.trans hs)
      rw [ih hp]

theorem ne_nil (h : Chain up x l) : l ≠ [] := by
  cases h <;> simp

theorem head_mem (h : Chain up x l) : x ∈ l := by
  cases h <;> simp

/-- The chain of an ancestor is what is left of the chain from there on. -/
theorem suffix (h : Chain up x l) (hy : y ∈ l) : ∃ l', Chain up y l' ∧ l' <:+ l := by
  induction h with
  | root h =>
    obtain rfl := List.mem_singleton.mp hy
    exact ⟨_, .root h, List.suffix_refl _⟩
  | @step x p l h hp ih =>
    rcases List.mem_cons.mp hy with rfl | hy
    · exact ⟨_, .step h hp, List.suffix_refl _⟩
    · obtain ⟨l', hl', hs⟩ := ih hy
      exact ⟨l', hl', hs.trans (List.suffix_cons _ _)⟩

theorem nodup (h : Chain up x l) : l.Nodup := by
  induction h with
  | root => simp
  | @step x p l h hp ih =>
    refine List.nodup_cons.mpr ⟨fun hx => ?_, ih⟩
    -- `x` above its own parent would have a chain shorter than itself
    obtain ⟨l', hl', hs⟩ := hp.suffix hx
    have := hl'.unique (.step h hp)
    subst this
    have := hs.length_le
    simp at this

/-- What holds of the node and climbs to parents holds along the chain. -/
theorem forall_mem {P : K → Prop} (h : Chain up x l) (hx : P x)
    (hup : ∀ y p, P y → up y = some p → P p) : ∀ y ∈ l, P y := by
  induction h with
  | root => simpa using hx
  | step h _ ih =>
    intro y hy
    rcases List.mem_cons.mp hy with rfl | hy
    · exact hx
    · exact ih (hup _ _ hx h) y hy

/-- Two parent functions that agree along a chain have it in common. -/
theorem congr (h : Chain up x l) (he : ∀ y ∈ l, up' y = up y) : Chain up' x l := by
  induction h with
  | root h => exact .root ((he _ (by simp)).trans h)
  | step h _ ih =>
    exact .step ((he _ (by simp)).trans h) (ih fun y hy => he y (by simp [hy]))

/-- A chain that reaches another node reaches it through a child. -/
theorem child_link {r : K} (h : Chain up x l) (hr : r ∈ l) (hne : x ≠ r) : ∃ y ∈ l, up y = some r := by
  induction h with
  | root hx => exact absurd (List.mem_singleton.mp hr).symm hne
  | @step x p l hx hp ih =>
    by_cases hpr : p = r
    · exact ⟨x, by simp, hpr ▸ hx⟩
    · have hr' : r ∈ l := (List.mem_cons.mp hr).resolve_left (Ne.symm hne)
      obtain ⟨y, hy, hup⟩ := ih hr' hpr
      exact ⟨y, List.mem_cons_of_mem _ hy, hup⟩

theorem last_root (h : Chain up x l) : ∃ r ∈ l, up r = none := by
  induction h with
  | root h => exact ⟨_, by simp, h⟩
  | step _ _ ih =>
    obtain ⟨r, hr, hn⟩ := ih
    exact ⟨r, by simp [hr], hn⟩

end Chain

/-- Nothing is its own parent. -/
theorem Grounded.parent_ne {x p : K} (h : Grounded up x) (hp : up x = some p) : p ≠ x := by
  rintro rfl
  obtain ⟨l, hl⟩ := h.chain
  have hn := (Chain.step hp hl).nodup
  exact (List.nodup_cons.mp hn).1 hl.head_mem

/-! ### Ancestors -/

namespace Above

variable {a x y p : K}

theorem refl (h : Grounded up x) : Above up x x := by
  obtain ⟨l, hl⟩ := h.chain
  exact ⟨l, hl, hl.head_mem⟩

theorem step (h : up x = some p) (ha : Above up a p) : Above up a x := by
  obtain ⟨l, hl, hm⟩ := ha
  exact ⟨x :: l, .step h hl, by simp [hm]⟩

theorem iff_mem {l : List K} (h : Chain up x l) : Above up a x ↔ a ∈ l := by
  constructor
  · rintro ⟨l', hl', hm⟩
    rwa [h.unique hl']
  · exact fun hm => ⟨l, h, hm⟩

/-- An ancestor of a node is the node or an ancestor of its parent. -/
theorem cases_parent (h : Above up a x) : a = x ∨ ∃ p, up x = some p ∧ Above up a p := by
  obtain ⟨l, hl, hm⟩ := h
  cases hl with
  | root => exact .inl (by simpa using hm)
  | step hs hp =>
    rcases List.mem_cons.mp hm with rfl | hm
    · exact .inl rfl
    · exact .inr ⟨_, hs, _, hp, hm⟩

theorem trans (h : Above up a y) (h' : Above up y x) : Above up a x := by
  obtain ⟨l, hl, hm⟩ := h'
  obtain ⟨l', hl', hs⟩ := hl.suffix hm
  exact ⟨l, hl, hs.subset ((iff_mem hl').mp h)⟩

end Above

/-! ### Editing the parent function -/

/-- Removing nodes keeps every other node grounded: a child of a removed
    node becomes a root. -/
theorem Grounded.prune {x : K} (h : Grounded up x)
    (he : ∀ y, up' y = up y ∨ up' y = none) : Grounded up' x := by
  induction h with
  | root h => exact .root ((he _).elim (·.trans h) id)
  | @step x p h _ ih =>
    rcases he x with hx | hx
    · exact .step (hx.trans h) ih
    · exact .root hx

/-- Re-keying one node below a node it is no ancestor of closes no cycle. -/
theorem Grounded.rekey {c q x : K} (h : Grounded up x) (hq : Grounded up q)
    (hc : ¬ Above up c q) (hup : up' c = some q)
    (he : ∀ y, y ≠ c → up' y = up y) : Grounded up' x := by
  have hq' : Grounded up' q := by
    obtain ⟨l, hl⟩ := hq.chain
    refine (hl.congr fun y hy => he y ?_).grounded
    rintro rfl
    exact hc ⟨l, hl, hy⟩
  induction h with
  | @root x h =>
    by_cases hx : x = c
    · exact .step (hx ▸ hup) hq'
    · exact .root ((he x hx).trans h)
  | @step x p h _ ih =>
    by_cases hx : x = c
    · exact .step (hx ▸ hup) hq'
    · exact .step ((he x hx).trans h) ih

/-- A fresh leaf closes no cycle. -/
theorem Grounded.leaf {c q x : K} (h : ∀ y, Grounded up y) (hleaf : ∀ y, up y ≠ some c)
    (hne : q ≠ c) (hup : up' c = some q) (he : ∀ y, y ≠ c → up' y = up y) : Grounded up' x := by
  refine (h x).rekey (h q) ?_ hup he
  -- nothing has the leaf above it but the leaf
  have key : ∀ y l, Chain up y l → c ∈ l → y = c := by
    intro y l hl
    induction hl with
    | root => simp [eq_comm]
    | step hs hp ih =>
      intro hm
      rcases List.mem_cons.mp hm with hm | hm
      · exact hm.symm
      · exact absurd hs (ih hm ▸ hleaf _)
  rintro ⟨l, hl, hm⟩
  exact hne (key q l hl hm)

end Forest
