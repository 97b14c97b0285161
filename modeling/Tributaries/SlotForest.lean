import Tributaries.Forest

/-! # Forests with named slots

  A forest whose nodes stand in named slots under their parents, kept as
  four views of one fact: what each node says of itself (its parent, its
  name, its scope), what each parent says of its children, which node
  each slot holds, and which root each scope has.

  `Sound` says the views agree.  A `doomed` set relaxes it for a removal
  in progress: the nodes of the set may have lost their parent, or be a
  root that is no longer registered.  Each edit below keeps soundness
  under its own side conditions; between removals the set is empty.
-/

open Forest Classical

namespace SlotForest

variable {K N S : Type}

/-- Where one node stands. -/
@[ext] structure Place (K N S : Type) where
  parent : Option K
  name : Option N
  scope : S
  children : Set K

/-- The views of a forest. -/
@[ext] structure Shape (K N S : Type) where
  place : K → Option (Place K N S)
  slot : K × N → Option K
  root : S → Option K

namespace Shape

variable (t : Shape K N S)

def up (x : K) : Option K := (t.place x).bind (·.parent)

theorem up_eq_some {x p : K} : t.up x = some p ↔ ∃ n, t.place x = some n ∧ n.parent = some p := by
  simp [up, Option.bind_eq_some_iff]

/-- The views of the forest agree outside the doomed nodes. -/
structure Sound (doomed : Set K) : Prop where
  named : ∀ x n, t.place x = some n → (n.parent = none ↔ n.name = none)
  linked : ∀ x n p, t.place x = some n → n.parent = some p →
    (∃ np, t.place p = some np ∧ np.scope = n.scope ∧ x ∈ np.children) ∨ x ∈ doomed
  child_up : ∀ p np x, t.place p = some np → x ∈ np.children →
    ∃ n, t.place x = some n ∧ n.parent = some p
  slot_up : ∀ p name x, t.slot (p, name) = some x →
    ∃ n, t.place x = some n ∧ n.parent = some p ∧ n.name = some name
  root_up : ∀ s r, t.root s = some r → ∃ n, t.place r = some n ∧ n.parent = none ∧ n.scope = s
  rooted : ∀ x n, t.place x = some n → n.parent = none →
    t.root n.scope = some x ∨ (x ∈ doomed ∧ t.root n.scope = none)
  grounded : ∀ x, Grounded t.up x

/-! ### Edits -/

noncomputable section Edits

/-- A new registered root. -/
def register (r : K) (s : S) : Shape K N S where
  place := fun y => if y = r then some ⟨none, none, s, ∅⟩ else t.place y
  slot := t.slot
  root := fun s' => if s' = s then some r else t.root s'

/-- A new leaf in an empty slot. -/
def plant (x p : K) (name : N) (s : S) : Shape K N S where
  place := fun y =>
    if y = x then some ⟨some p, some name, s, ∅⟩
    else if y = p then (t.place y).map fun n => { n with children := insert x n.children }
    else t.place y
  slot := fun k => if k = (p, name) then some x else t.slot k
  root := t.root

/-- Emptying a slot; the node that stood in it keeps its parent. -/
def vacate (p : K) (name : N) : Shape K N S :=
  { t with slot := fun k => if k = (p, name) then none else t.slot k }

/-- Re-keying a node that stands in no slot. -/
def rekey (c q : K) (name : N) : Shape K N S where
  place := fun y =>
    (t.place y).map fun n =>
      { n with
        parent := if y = c then some q else n.parent
        name := if y = c then some name else n.name
        children := if y = q then insert c (n.children \ {c}) else n.children \ {c} }
  slot := fun k => if k = (q, name) then some c else t.slot k
  root := t.root

/-- A new root above the registered one. -/
def graft (r : K) (s : S) (c : K) (name : N) : Shape K N S where
  place := fun y =>
    if y = r then some ⟨none, none, s, {c}⟩
    else if y = c then (t.place y).map fun n => { n with parent := some r, name := some name }
    else t.place y
  slot := fun k => if k = (r, name) then some c else t.slot k
  root := fun s' => if s' = s then some r else t.root s'

/-- Forgetting a scope's root. -/
def uproot (s : S) : Shape K N S :=
  { t with root := fun s' => if s' = s then none else t.root s' }

/-- Removing one node. -/
def remove (x : K) (n : Place K N S) : Shape K N S where
  place := fun y =>
    if y = x then none
    else if n.parent = some y then
      (t.place y).map fun m => { m with children := m.children \ {x} }
    else t.place y
  slot := fun k => if n.parent = some k.1 ∧ n.name = some k.2 ∧ t.slot k = some x then none
    else t.slot k
  root := fun s => if n.parent = none ∧ s = n.scope then none else t.root s

variable {t} {x y r c p q : K} {name : N} {s s' : S} {n : Place K N S} {k : K × N}

@[grind =] theorem register_place : (t.register r s).place y =
    if y = r then some ⟨none, none, s, ∅⟩ else t.place y := rfl

@[grind =] theorem register_slot : (t.register r s).slot k = t.slot k := rfl

@[grind =] theorem register_root : (t.register r s).root s' =
    if s' = s then some r else t.root s' := rfl

@[grind =] theorem plant_place : (t.plant x p name s).place y =
    if y = x then some ⟨some p, some name, s, ∅⟩
    else if y = p then (t.place y).map fun n => { n with children := insert x n.children }
    else t.place y := rfl

@[grind =] theorem plant_slot : (t.plant x p name s).slot k =
    if k = (p, name) then some x else t.slot k := rfl

@[grind =] theorem plant_root : (t.plant x p name s).root s' = t.root s' := rfl

@[grind =] theorem vacate_place : (t.vacate p name).place y = t.place y := rfl

@[grind =] theorem vacate_slot : (t.vacate p name).slot k =
    if k = (p, name) then none else t.slot k := rfl

@[grind =] theorem uproot_place : (t.uproot s).place y = t.place y := rfl

@[grind =] theorem uproot_root : (t.uproot s).root s' =
    if s' = s then none else t.root s' := rfl

@[grind =] theorem rekey_place : (t.rekey c q name).place y =
    (t.place y).map fun n =>
      { n with
        parent := if y = c then some q else n.parent
        name := if y = c then some name else n.name
        children := if y = q then insert c (n.children \ {c}) else n.children \ {c} } := rfl

@[grind =] theorem rekey_slot : (t.rekey c q name).slot k =
    if k = (q, name) then some c else t.slot k := rfl

@[grind =] theorem rekey_root : (t.rekey c q name).root s' = t.root s' := rfl

@[grind =] theorem graft_place : (t.graft r s c name).place y =
    if y = r then some ⟨none, none, s, {c}⟩
    else if y = c then (t.place y).map fun n => { n with parent := some r, name := some name }
    else t.place y := rfl

@[grind =] theorem graft_slot : (t.graft r s c name).slot k =
    if k = (r, name) then some c else t.slot k := rfl

@[grind =] theorem graft_root : (t.graft r s c name).root s' =
    if s' = s then some r else t.root s' := rfl

@[grind =] theorem remove_place : (t.remove x n).place y =
    if y = x then none
    else if n.parent = some y then
      (t.place y).map fun m => { m with children := m.children \ {x} }
    else t.place y := rfl

@[grind =] theorem remove_slot : (t.remove x n).slot k =
    if n.parent = some k.1 ∧ n.name = some k.2 ∧ t.slot k = some x then none else t.slot k := rfl

@[grind =] theorem remove_root : (t.remove x n).root s' =
    if n.parent = none ∧ s' = n.scope then none else t.root s' := rfl

end Edits

namespace Sound

variable {t : Shape K N S} {doomed : Set K}

theorem mono {doomed' : Set K} (h : t.Sound doomed)
    (hd : ∀ x ∈ doomed, (t.place x).isSome → x ∈ doomed') : t.Sound doomed' :=
  { h with
    linked := fun x n p hn hp =>
      (h.linked x n p hn hp).imp_right fun hx => hd x hx (by simp [hn])
    rooted := fun x n hn hp =>
      (h.rooted x n hn hp).imp_right fun hx => ⟨hd x hx.1 (by simp [hn]), hx.2⟩ }

theorem parent_live (h : t.Sound ∅) {x p : K} {n : Place K N S} (hn : t.place x = some n)
    (hp : n.parent = some p) :
    ∃ np, t.place p = some np ∧ np.scope = n.scope ∧ x ∈ np.children :=
  (h.linked x n p hn hp).resolve_right (by simp)

theorem root_of (h : t.Sound ∅) {x : K} {n : Place K N S} (hn : t.place x = some n)
    (hp : n.parent = none) : t.root n.scope = some x :=
  (h.rooted x n hn hp).resolve_right (by simp)

theorem register {r : K} {s : S} (h : t.Sound ∅) (hr : t.place r = none) (hs : t.root s = none) :
    (t.register r s).Sound ∅ := by
  have hne : ∀ x n, t.place x = some n → x ≠ r := by rintro x n hn rfl; simp [hr] at hn
  have hpl : ∀ x n p, t.place x = some n → n.parent = some p →
      ∃ np, t.place p = some np ∧ np.scope = n.scope ∧ x ∈ np.children :=
    fun x n p hn hp => h.parent_live hn hp
  refine ⟨?_, ?_, ?_, ?_, ?_, ?_, fun x => (h.grounded x).prune fun y => ?_⟩
  · grind [h.named]
  · grind
  · grind [h.child_up]
  · grind [h.slot_up]
  · have hp : (t.register r s).place r = some ⟨none, none, s, ∅⟩ := by grind
    grind [h.root_up]
  · grind [h.rooted]
  · grind [Shape.up]

theorem plant {x p : K} {name : N} {s : S} {np : Place K N S} (h : t.Sound ∅)
    (hx : t.place x = none) (hp : t.place p = some np) (hs : np.scope = s) :
    (t.plant x p name s).Sound ∅ := by
  have hne : ∀ y n, t.place y = some n → y ≠ x := by rintro y n hn rfl; simp [hx] at hn
  have hpl : ∀ x n p, t.place x = some n → n.parent = some p →
      ∃ np, t.place p = some np ∧ np.scope = n.scope ∧ x ∈ np.children :=
    fun x n p hn hp => h.parent_live hn hp
  refine ⟨?_, ?_, ?_, ?_, ?_, ?_, fun y => Grounded.leaf (c := x) (q := p) h.grounded ?_ ?_ ?_ ?_⟩
  · grind [h.named]
  · intro y n q hn hq
    grind
  · grind [h.child_up]
  · grind [h.slot_up]
  · grind [h.root_up]
  · grind [h.rooted]
  · intro y hy
    obtain ⟨n, hn, hpar⟩ := (up_eq_some t).mp hy
    obtain ⟨np, hnp, -⟩ := hpl y n x hn hpar
    exact hne x np hnp rfl
  · grind
  · grind [Shape.up]
  · grind [Shape.up]

theorem vacate {p : K} {name : N} (h : t.Sound doomed) : (t.vacate p name).Sound doomed :=
  { h with
    slot_up := by
      intro q nm x hx
      obtain ⟨n, hn⟩ := h.slot_up q nm x (by grind)
      exact ⟨n, hn⟩
    grounded := h.grounded }

theorem uproot {s : S} {r : K} (h : t.Sound ∅) (hr : t.root s = some r) :
    (t.uproot s).Sound {r} := by
  refine ⟨h.named, ?_, h.child_up, h.slot_up, ?_, ?_, h.grounded⟩
  · intro x n p hn hp
    exact .inl (h.parent_live hn hp)
  · intro s' r' hr'
    exact h.root_up s' r' (by grind)
  · intro x n hn hp
    have := h.root_of hn hp
    grind

/-- Re-keying a node that stands in no slot below a node it is not above. -/
theorem rekey {c q : K} {name : N} {nc nq : Place K N S} (h : t.Sound ∅)
    (hc : t.place c = some nc) (hq : t.place q = some nq) (hs : nc.scope = nq.scope)
    (hoff : ∀ k, t.slot k ≠ some c) (hroot : nc.parent ≠ none) (ha : ¬ Above t.up c q) :
    (t.rekey c q name).Sound ∅ := by
  have hcq : q ≠ c := by rintro rfl; exact ha (.refl (h.grounded q))
  have hback : ∀ y n', (t.rekey c q name).place y = some n' → ∃ n, t.place y = some n ∧
      n'.parent = (if y = c then some q else n.parent) ∧
      n'.name = (if y = c then some name else n.name) ∧ n'.scope = n.scope ∧
      n'.children = (if y = q then insert c (n.children \ {c}) else n.children \ {c}) := by
    intro y n' hn'
    obtain ⟨n, hn, rfl⟩ := Option.map_eq_some_iff.mp hn'
    exact ⟨n, hn, rfl, rfl, rfl, rfl⟩
  have hfwd : ∀ y n, t.place y = some n → ∃ n', (t.rekey c q name).place y = some n' ∧
      n'.parent = (if y = c then some q else n.parent) ∧
      n'.name = (if y = c then some name else n.name) ∧ n'.scope = n.scope ∧
      n'.children = (if y = q then insert c (n.children \ {c}) else n.children \ {c}) := by
    intro y n hn
    exact ⟨_, Option.map_eq_some_iff.mpr ⟨n, hn, rfl⟩, rfl, rfl, rfl, rfl⟩
  refine ⟨?_, ?_, ?_, ?_, ?_, ?_, fun y =>
    (h.grounded y).rekey (c := c) (q := q) (h.grounded q) ha ?_ ?_⟩
  · intro y n' hn'
    obtain ⟨n, hn, h₁, h₂, -, -⟩ := hback y n' hn'
    grind [h.named]
  · intro y n' p hn' hp
    left
    obtain ⟨n, hn, h₁, -, h₃, -⟩ := hback y n' hn'
    by_cases hy : y = c
    · subst hy
      obtain ⟨nq', hnq', -, -, h₃', h₄'⟩ := hfwd q nq hq
      obtain rfl : q = p := by grind
      exact ⟨nq', hnq', by grind, by simp [h₄']⟩
    · obtain ⟨np, hnp, hsc, hm⟩ := h.parent_live hn (p := p) (by grind)
      obtain ⟨np', hnp', -, -, h₃', h₄'⟩ := hfwd p np hnp
      refine ⟨np', hnp', by grind, ?_⟩
      rw [h₄']
      split <;> simp [hm, hy]
  · intro p np' x hnp' hx
    obtain ⟨np, hnp, -, -, -, h₄⟩ := hback p np' hnp'
    rw [h₄] at hx
    by_cases hxc : x = c
    · obtain ⟨n', hn', h₁', -⟩ := hfwd c nc hc
      have hp : p = q := by
        by_contra hne
        simp [hxc, hne] at hx
      exact ⟨n', hxc ▸ hn', by simp [h₁', hp]⟩
    · have hx : x ∈ np.children := by
        split at hx <;> simpa [hxc] using hx
      obtain ⟨n, hn, hpar⟩ := h.child_up p np x hnp hx
      obtain ⟨n', hn', h₁', -⟩ := hfwd x n hn
      exact ⟨n', hn', by simp [h₁', hxc, hpar]⟩
  · intro p nm x hx
    by_cases hk : (p, nm) = (q, name)
    · obtain ⟨n', hn', h₁', h₂', -⟩ := hfwd c nc hc
      obtain ⟨rfl, rfl⟩ := Prod.mk.inj hk
      obtain rfl : c = x := by grind
      exact ⟨n', hn', by simp [h₁'], by simp [h₂']⟩
    · have hx' : t.slot (p, nm) = some x := by grind
      obtain ⟨n, hn, hpar, hnm⟩ := h.slot_up p nm x hx'
      obtain ⟨n', hn', h₁', h₂', -⟩ := hfwd x n hn
      have hxc : x ≠ c := by rintro rfl; exact hoff _ hx'
      exact ⟨n', hn', by simp [h₁', hxc, hpar], by simp [h₂', hxc, hnm]⟩
  · intro s' r hr
    obtain ⟨n, hn, hpar, hsc⟩ := h.root_up s' r hr
    obtain ⟨n', hn', h₁', -, h₃', -⟩ := hfwd r n hn
    have hrc : r ≠ c := by rintro rfl; exact hroot (by grind)
    exact ⟨n', hn', by simp [h₁', hrc, hpar], by rw [h₃', hsc]⟩
  · intro x n' hn' hp
    obtain ⟨n, hn, h₁, -, h₃, -⟩ := hback x n' hn'
    left
    have := h.root_of hn (by grind)
    grind
  · rw [up_eq_some]
    obtain ⟨n', hn', h₁', -⟩ := hfwd c nc hc
    exact ⟨n', hn', by simp [h₁']⟩
  · intro y hy
    simp [Shape.up, rekey_place, hy, Option.bind_map]

/-- A graft puts an unused node above the registered root of a scope. -/
theorem graft {r c : K} {s : S} {name : N} (h : t.Sound ∅) (hr : t.place r = none)
    (hc : t.root s = some c) : (t.graft r s c name).Sound ∅ := by
  obtain ⟨nc, hnc, hpc, hsc⟩ := h.root_up s c hc
  have hne : ∀ y n, t.place y = some n → y ≠ r := by rintro y n hn rfl; simp [hr] at hn
  have hcr : c ≠ r := hne c nc hnc
  have hpl : ∀ x n p, t.place x = some n → n.parent = some p →
      ∃ np, t.place p = some np ∧ np.scope = n.scope ∧ x ∈ np.children :=
    fun x n p hn hp => h.parent_live hn hp
  have hplr : (t.graft r s c name).place r = some ⟨none, none, s, {c}⟩ := by grind
  have hplc : (t.graft r s c name).place c =
      some { nc with parent := some r, name := some name } := by
    simp [graft_place, hcr, hnc]
  have hplo : ∀ y, y ≠ r → y ≠ c → (t.graft r s c name).place y = t.place y := by grind
  have hup : ∀ y, y ≠ r → y ≠ c → (t.graft r s c name).up y = t.up y := by
    intro y h₁ h₂
    simp [Shape.up, hplo y h₁ h₂]
  refine ⟨?_, ?_, ?_, ?_, ?_, ?_, fun y => ?_⟩
  · grind [h.named]
  · intro y n p hn hp
    left
    by_cases hyr : y = r
    · grind
    · by_cases hyc : y = c
      · subst hyc
        obtain rfl : r = p := by grind
        exact ⟨_, hplr, by grind, rfl⟩
      · obtain ⟨np, hnp, hs, hm⟩ := hpl y n p (by grind) hp
        grind
  · intro p np x hnp hx
    by_cases hpr : p = r
    · subst hpr
      obtain rfl : _ = np := by simpa [hplr] using hnp
      obtain rfl : x = c := hx
      exact ⟨_, hplc, rfl⟩
    · have hx' : ∃ np, t.place p = some np ∧ x ∈ np.children := by grind
      obtain ⟨np', hnp', hx'⟩ := hx'
      obtain ⟨n, hn, hpar⟩ := h.child_up p np' x hnp' hx'
      grind
  · intro p nm x hx
    by_cases hk : (p, nm) = (r, name)
    · obtain ⟨rfl, rfl⟩ := Prod.mk.inj hk
      obtain rfl : c = x := by grind
      exact ⟨_, hplc, rfl, rfl⟩
    · obtain ⟨n, hn, hpar, hnm⟩ := h.slot_up p nm x (by grind)
      grind
  · intro s' r' hr'
    by_cases hs' : s' = s
    · obtain rfl : r = r' := by grind
      exact ⟨_, hplr, rfl, hs'.symm⟩
    · obtain ⟨n, hn, hpar, hs⟩ := h.root_up s' r' (by grind)
      have : r' ≠ c := by grind
      grind
  · intro x n hn hp
    by_cases hxr : x = r
    · grind
    · have hxc : x ≠ c := by grind
      have hx := h.root_of (x := x) (n := n) (by grind) hp
      have : n.scope ≠ s := by grind
      grind
  · -- the old root climbs to the new one, which is a root
    have hgr : Grounded (t.graft r s c name).up r := .root (by simp [Shape.up, hplr])
    have hgc : Grounded (t.graft r s c name).up c :=
      .step (by simp [Shape.up, hplc]) hgr
    induction h.grounded y with
    | @root x hx =>
      by_cases hxr : x = r
      · exact hxr ▸ hgr
      · by_cases hxc : x = c
        · exact hxc ▸ hgc
        · exact .root ((hup x hxr hxc).trans hx)
    | @step x p hx _ ih =>
      by_cases hxr : x = r
      · exact hxr ▸ hgr
      · by_cases hxc : x = c
        · exact hxc ▸ hgc
        · exact .step ((hup x hxr hxc).trans hx) ih

/-- Removing a doomed node dooms its children. -/
theorem remove {x : K} {n : Place K N S} (h : t.Sound doomed) (hn : t.place x = some n) :
    (t.remove x n).Sound ((doomed \ {x}) ∪ n.children) := by
  have hback : ∀ y m', (t.remove x n).place y = some m' → y ≠ x ∧ ∃ m, t.place y = some m ∧
      m'.parent = m.parent ∧ m'.name = m.name ∧ m'.scope = m.scope ∧
      m'.children = (if n.parent = some y then m.children \ {x} else m.children) := by
    intro y m' hm'
    rw [remove_place] at hm'
    split at hm'
    · simp at hm'
    · refine ⟨‹_›, ?_⟩
      by_cases hy : n.parent = some y
      · rw [if_pos hy] at hm'
        obtain ⟨m, hm, rfl⟩ := Option.map_eq_some_iff.mp hm'
        exact ⟨m, hm, rfl, rfl, rfl, (if_pos hy).symm⟩
      · rw [if_neg hy] at hm'
        exact ⟨m', hm', rfl, rfl, rfl, (if_neg hy).symm⟩
  have hfwd : ∀ y m, y ≠ x → t.place y = some m → ∃ m', (t.remove x n).place y = some m' ∧
      m'.parent = m.parent ∧ m'.name = m.name ∧ m'.scope = m.scope ∧
      m'.children = (if n.parent = some y then m.children \ {x} else m.children) := by
    intro y m hy hm
    rw [remove_place, if_neg hy, hm]
    split
    · exact ⟨_, rfl, rfl, rfl, rfl, rfl⟩
    · exact ⟨_, rfl, rfl, rfl, rfl, rfl⟩
  refine ⟨?_, ?_, ?_, ?_, ?_, ?_, fun y => (h.grounded y).prune fun z => ?_⟩
  · intro y m' hm'
    obtain ⟨-, m, hm, h₁, h₂, -⟩ := hback y m' hm'
    rw [h₁, h₂]
    exact h.named y m hm
  · intro y m' p hm' hp
    obtain ⟨hyx, m, hm, h₁, -, h₃, -⟩ := hback y m' hm'
    rcases h.linked y m p hm (h₁ ▸ hp) with ⟨np, hnp, hs, hy⟩ | hd
    · by_cases hpx : p = x
      · subst hpx
        obtain rfl : n = np := by grind
        exact .inr (.inr hy)
      · obtain ⟨np', hnp', -, -, h₃', h₄'⟩ := hfwd p np hpx hnp
        refine .inl ⟨np', hnp', by rw [h₃', hs, h₃], ?_⟩
        rw [h₄']
        split <;> simp [hy, hyx]
    · exact .inr (.inl ⟨hd, hyx⟩)
  · intro p np' y hnp' hy
    obtain ⟨hpx, np, hnp, -, -, -, h₄⟩ := hback p np' hnp'
    have hym : y ∈ np.children := by
      rw [h₄] at hy
      split at hy
      · exact hy.1
      · exact hy
    obtain ⟨m, hm, hpar⟩ := h.child_up p np y hnp hym
    have hyx : y ≠ x := by
      rintro rfl
      obtain rfl : n = m := by grind
      simp [h₄, hpar] at hy
    obtain ⟨m', hm', h₁', -⟩ := hfwd y m hyx hm
    exact ⟨m', hm', h₁'.trans hpar⟩
  · intro p nm y hy
    have hy' : t.slot (p, nm) = some y := by grind
    obtain ⟨m, hm, hpar, hnm⟩ := h.slot_up p nm y hy'
    have hyx : y ≠ x := by
      rintro rfl
      obtain rfl : n = m := by grind
      simp [remove_slot, hpar, hnm, hy'] at hy
    obtain ⟨m', hm', h₁', h₂', -⟩ := hfwd y m hyx hm
    exact ⟨m', hm', h₁'.trans hpar, h₂'.trans hnm⟩
  · intro s r hr
    have hr' : t.root s = some r := by grind
    obtain ⟨m, hm, hpar, hs⟩ := h.root_up s r hr'
    have hrx : r ≠ x := by
      rintro rfl
      obtain rfl : n = m := by grind
      simp [remove_root, hpar, hs] at hr
    obtain ⟨m', hm', h₁', -, h₃', -⟩ := hfwd r m hrx hm
    exact ⟨m', hm', h₁'.trans hpar, h₃'.trans hs⟩
  · intro y m' hm' hp
    obtain ⟨hyx, m, hm, h₁, -, h₃, -⟩ := hback y m' hm'
    have hx := h.rooted x n hn
    rcases h.rooted y m hm (h₁ ▸ hp) with hr | ⟨hd, hr⟩
    · left
      -- a root removed beside `y` was registered under another scope
      have : ¬ (n.parent = none ∧ m.scope = n.scope) := by
        rintro ⟨hnp, hs⟩
        rcases hx hnp with hx | ⟨-, hx⟩
        · exact hyx (by grind)
        · grind
      rw [remove_root, h₃, if_neg this, hr]
    · right
      exact ⟨.inl ⟨hd, hyx⟩, by grind⟩
  · by_cases hz : z = x
    · exact .inr (by simp [Shape.up, remove_place, hz])
    · left
      simp only [Shape.up, remove_place, if_neg hz]
      split
      · simp [Option.bind_map]
      · rfl

/-! ### Chains and paths -/

section Paths

variable {t : Shape K N S} {x y r : K} {n : Place K N S} {l : List K}

/-- Every node climbs, inside its scope, to the registered root. -/
theorem chain (h : t.Sound ∅) (hn : t.place x = some n) :
    ∃ l, Chain t.up x l ∧ (∀ y ∈ l, ∃ ny, t.place y = some ny ∧ ny.scope = n.scope) ∧
      ∃ r ∈ l, t.root n.scope = some r := by
  obtain ⟨l, hl⟩ := (h.grounded x).chain
  have hall : ∀ y ∈ l, ∃ ny, t.place y = some ny ∧ ny.scope = n.scope := by
    refine hl.forall_mem ⟨n, hn, rfl⟩ fun y p hy hup => ?_
    obtain ⟨ny, hny, hs⟩ := hy
    obtain ⟨ny', hny', hpar⟩ := (up_eq_some t).mp hup
    obtain rfl : ny = ny' := by grind
    obtain ⟨np, hnp, hsp, -⟩ := h.parent_live hny hpar
    exact ⟨np, hnp, hsp.trans hs⟩
  obtain ⟨r, hr, hup⟩ := hl.last_root
  obtain ⟨nr, hnr, hs⟩ := hall r hr
  have hpar : nr.parent = none := by simpa [Shape.up, hnr] using hup
  exact ⟨l, hl, hall, r, hr, hs ▸ h.root_of hnr hpar⟩

end Paths

end Sound

/-- The path of a node, root first, and that every node on it but the root
    holds its slot. -/
inductive Path (t : Shape K N S) : K → S → List N → Prop where
  | root {x s} (hr : t.root s = some x) : Path t x s []
  | child {x n p name s path} (hn : t.place x = some n) (hp : n.parent = some p)
      (hname : n.name = some name) (hs : t.slot (p, name) = some x) (h : Path t p s path) :
      Path t x s (path ++ [name])

/-- Two slotted nodes of one scope at one path are one node. -/
theorem Path.unique {t : Shape K N S} {x y : K} {s : S} {path : List N}
    (hx : t.Path x s path) (hy : t.Path y s path) : x = y := by
  induction hx generalizing y with
  | root hr =>
    generalize hp : ([] : List N) = path at hy
    cases hy with
    | root hr' => grind
    | child => simp at hp
  | @child x n p name s path hn hp hname hs h ih =>
    generalize hq : path ++ [name] = path' at hy
    cases hy with
    | root => simp at hq
    | @child _ n' p' name' _ path'' hn' hp' hname' hs' h' =>
      obtain ⟨rfl, hnm⟩ := List.append_inj' hq rfl
      obtain rfl : name = name' := by simpa using hnm
      obtain rfl := ih h'
      grind

end Shape

end SlotForest
