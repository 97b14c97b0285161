import Tributaries.Proto.Rekeying
import Tributaries.Proto.Integrity

/-! # Where a re-key leaves things

  A re-keyed node takes its subtree along: every node below it that
  survives is found at the new place under the suffix it had, and every
  other node is found where it was.  A source is re-keyed exactly when it
  may take the slot and does not hang below what the slot holds.
-/

open Std Collections SlotForest Forest

namespace Proto

variable {m m' : Monitor} {g : Ghost} {k : Option Answer} {src p : WatchId} {name : Segment}

/-! ### Ancestors -/

/-- A node is not above its parent. -/
theorem above_parent_false {up : WatchId → Option WatchId} {x : WatchId} (hp : up x = some p) :
    ¬ Above up x p := by
  intro ⟨l, hl, hx⟩
  obtain ⟨l', hl', hsuf⟩ := hl.suffix hx
  have hlen := hsuf.length_le
  rw [hl'.unique (.step hp hl), List.length_cons] at hlen
  omega

/-- Cutting links leaves no new ancestors. -/
theorem above_cut {up up' : WatchId → Option WatchId} {a x : WatchId} (ha : Above up' a x)
    (hg : ∀ y, Grounded up y) (hcut : ∀ y q, up' y = some q → up y = some q) :
    Above up a x := by
  obtain ⟨l, hl, hm⟩ := ha
  induction hl with
  | root _ =>
    obtain rfl := List.mem_singleton.mp hm
    exact .refl (hg _)
  | step hx _ ih =>
    rcases List.mem_cons.mp hm with rfl | hm
    · exact .refl (hg _)
    · exact .step (hcut _ _ hx) (ih hm)

/-! ### Locations -/

/-- A node in a slot is found below the slot's parent, by the slot's name. -/
theorem location_step (h : m.shape.Sound ∅) {x : WatchId}
    (hs : m.slot_of x = some (p, name)) : m.location_of x = m.location_of p ++ [name] := by
  obtain ⟨n, hn, hp, hname⟩ := Monitor.slot_of_eq_some.mp hs
  obtain ⟨q, hq, -⟩ := h.parent_live (Monitor.place_of hn) hp
  obtain ⟨np, hnp, -⟩ := Monitor.place_eq_some.mp hq
  obtain ⟨l, hl, -⟩ := Monitor.chain_of h hnp
  have hx : Chain m.shape.up x (x :: l) := .step (by rw [Monitor.up_live hn, hp]) hl
  rw [Monitor.location_of_eq h hx hn, Monitor.location_of_eq h hl hnp, Monitor.names_cons hn, hname]
  rfl

/-- A parentless node is found at the root. -/
theorem location_root (h : m.shape.Sound ∅) {x : WatchId} {n : WatchNode}
    (hn : m.nodes[x]? = some n) (hp : n.parent = none) : m.location_of x = [] := by
  have hl : Chain m.shape.up x [x] := .root (by rw [Monitor.up_live hn, hp])
  have hname : n.name = none := (h.named x _ (Monitor.place_of hn)).mp hp
  rw [Monitor.location_of_eq h hl hn]
  simp [Monitor.names, hn, hname]

/-- A live node stands at the root or in a slot of a live node. -/
theorem slot_or_root (h : m.shape.Sound ∅) {x : WatchId} (hx : m.nodes[x]? ≠ none) :
    (∃ n, m.nodes[x]? = some n ∧ n.parent = none) ∨
    ∃ p name, m.slot_of x = some (p, name) ∧ m.nodes[p]? ≠ none ∧ m.shape.up x = some p := by
  obtain ⟨n, hn⟩ := Option.ne_none_iff_exists'.mp hx
  cases hp : n.parent with
  | none => exact .inl ⟨n, hn, hp⟩
  | some p =>
    have hname : n.name ≠ none := by
      intro hname
      have := (h.named x _ (Monitor.place_of hn)).mpr hname
      rw [show n.place.parent = n.parent from rfl, hp] at this
      cases this
    obtain ⟨name, hname⟩ := Option.ne_none_iff_exists'.mp hname
    obtain ⟨q, hq, -⟩ := h.parent_live (Monitor.place_of hn) hp
    obtain ⟨np, hnp, -⟩ := Monitor.place_eq_some.mp hq
    refine .inr ⟨p, name, Monitor.slot_of_eq_some.mpr ⟨n, hn, hp, hname⟩, by simp [hnp], ?_⟩
    rw [Monitor.up_live hn, hp]

namespace Rekeyed

theorem slot (hr : Rekeyed m m' src p name) {x : WatchId} (hx : x < m.watch_ids.next)
    (hx' : m'.nodes[x]? ≠ none) (hne : x ≠ src) : m'.slot_of x = m.slot_of x := by
  obtain ⟨n', hn'⟩ := Option.ne_none_iff_exists'.mp hx'
  obtain ⟨q, hq, hp, hname⟩ := hr.stays x _ (Monitor.place_of hn') hx hne
  rw [Monitor.slot_of_shape, Monitor.slot_of_shape, hq, Monitor.place_of hn', Option.bind_some,
    Option.bind_some, hp, hname]

/-- A survivor that is not below the re-keyed node is found where it was. -/
theorem location_off (hr : Rekeyed m m' src p name) (hm : Minted m) (h : m.shape.Sound ∅)
    (h' : m'.shape.Sound ∅) {x : WatchId} (hx : m.nodes[x]? ≠ none) (hx' : m'.nodes[x]? ≠ none)
    (hoff : ¬ Above m'.shape.up src x) : m'.location_of x = m.location_of x := by
  obtain ⟨n', hn'⟩ := Option.ne_none_iff_exists'.mp hx'
  obtain ⟨l, hl, -⟩ := Monitor.chain_of h' hn'
  clear hn' n'
  -- the induction climbs the chain that is left
  induction hl with
  | @root x hup =>
    have hne : x ≠ src := by
      rintro rfl
      exact hoff (.refl (h'.grounded x))
    obtain ⟨n', hn'⟩ := Option.ne_none_iff_exists'.mp hx'
    obtain ⟨q, hq, hp, -⟩ := hr.stays x _ (Monitor.place_of hn') (hm x hx) hne
    obtain ⟨n, hn, rfl⟩ := Monitor.place_eq_some.mp hq
    have hpar' : n'.parent = none := by rw [← Monitor.up_live hn', hup]
    have hpar : n.parent = none := hp.symm.trans hpar'
    rw [location_root h' hn' hpar', location_root h hn hpar]
  | @step x q l hup hl ih =>
    have hne : x ≠ src := by
      rintro rfl
      exact hoff (.refl (h'.grounded x))
    rcases slot_or_root h' hx' with ⟨n', hn', hp⟩ | ⟨q', name', hs', hq', hup'⟩
    · rw [Monitor.up_live hn', hp] at hup
      cases hup
    · rw [hup] at hup'
      obtain rfl := Option.some.inj hup'
      have hs := (hr.slot (hm x hx) hx' hne).symm.trans hs'
      obtain ⟨n, hn, hp, -⟩ := Monitor.slot_of_eq_some.mp hs
      obtain ⟨np, hnp, -⟩ := h.parent_live (Monitor.place_of hn) hp
      obtain ⟨np, hnp, -⟩ := Monitor.place_eq_some.mp hnp
      rw [location_step h' hs', location_step h hs,
        ih (by simp [hnp]) hq' fun ha => hoff (.step hup ha)]

/-- A survivor below the re-keyed node keeps its way from there. -/
theorem location_below (hr : Rekeyed m m' src p name) (hm : Minted m) (h : m.shape.Sound ∅)
    (h' : m'.shape.Sound ∅) {x : WatchId} (hx : m.nodes[x]? ≠ none) (hx' : m'.nodes[x]? ≠ none)
    (ha : Above m.shape.up src x) :
    ∃ suffix, m.location_of x = m.location_of src ++ suffix ∧
      m'.location_of x = m'.location_of src ++ suffix := by
  obtain ⟨n', hn'⟩ := Option.ne_none_iff_exists'.mp hx'
  obtain ⟨l, hl, -⟩ := Monitor.chain_of h' hn'
  clear hn' n'
  induction hl with
  | @root x hup =>
    by_cases hne : x = src
    · subst hne
      exact ⟨[], by simp, by simp⟩
    obtain ⟨n', hn'⟩ := Option.ne_none_iff_exists'.mp hx'
    obtain ⟨q, hq, hp, -⟩ := hr.stays x _ (Monitor.place_of hn') (hm x hx) hne
    obtain ⟨n, hn, rfl⟩ := Monitor.place_eq_some.mp hq
    have hpar : n.parent = none := hp.symm.trans (by
      show n'.parent = none
      rw [← Monitor.up_live hn', hup])
    rcases ha.cases_parent with he | ⟨q, hq, -⟩
    · exact absurd he.symm hne
    · rw [Monitor.up_live hn, hpar] at hq
      cases hq
  | @step x q l hup hl ih =>
    by_cases hne : x = src
    · subst hne
      exact ⟨[], by simp, by simp⟩
    rcases slot_or_root h' hx' with ⟨n', hn', hp⟩ | ⟨q', name', hs', hq', hup'⟩
    · rw [Monitor.up_live hn', hp] at hup
      cases hup
    · rw [hup] at hup'
      obtain rfl := Option.some.inj hup'
      have hs := (hr.slot (hm x hx) hx' hne).symm.trans hs'
      obtain ⟨n, hn, hp, -⟩ := Monitor.slot_of_eq_some.mp hs
      obtain ⟨np, hnp, -⟩ := h.parent_live (Monitor.place_of hn) hp
      obtain ⟨np, hnp, -⟩ := Monitor.place_eq_some.mp hnp
      have hq : Above m.shape.up src q := by
        rcases ha.cases_parent with he | ⟨q₂, hq₂, ha⟩
        · exact absurd he.symm hne
        · rw [Monitor.up_live hn, hp] at hq₂
          cases hq₂
          exact ha
      obtain ⟨suffix, h₁, h₂⟩ := ih (by simp [hnp]) hq' hq
      refine ⟨suffix ++ [name'], ?_, ?_⟩
      · rw [location_step h hs, h₁, List.append_assoc]
      · rw [location_step h' hs', h₂, List.append_assoc]

/-- The re-keyed node is found at its new slot, whose parent is where it was. -/
theorem location_new (hr : Rekeyed m m' src p name) (hm : Minted m) (h : m.shape.Sound ∅)
    (h' : m'.shape.Sound ∅) (hp : m.nodes[p]? ≠ none) :
    m'.location_of src = m.location_of p ++ [name] := by
  obtain ⟨n', hn', hpar, -⟩ := Monitor.slot_of_eq_some.mp hr.lands
  obtain ⟨q, hq, -⟩ := h'.parent_live (Monitor.place_of hn') hpar
  obtain ⟨np, hnp, -⟩ := Monitor.place_eq_some.mp hq
  rw [location_step h' hr.lands, hr.location_off hm h h' hp (by simp [hnp])]
  exact above_parent_false (by rw [Monitor.up_live hn', hpar])

end Rekeyed

/-! ### What a drop spares -/

/-- A drop walk removes what hangs below its stack, and nothing else. -/
theorem drop_walk_spares (n : Nat) : ∀ {m : Monitor} {stack : List WatchId}
    {erased : ErasedCovers} {doomed : Set WatchId} {x : WatchId}, m.shape.Sound doomed →
    m.nodes[x]? ≠ none → (∀ s ∈ stack, ¬ Above m.shape.up s x) →
      (Monitor.drop_walk n m stack erased).1.nodes[x]? ≠ none := by
  induction n with
  | zero =>
    intro m stack erased doomed x _ hx _
    exact hx
  | succ n ih =>
    intro m stack erased doomed x h hx hall
    cases stack with
    | nil => exact hx
    | cons id stack =>
      cases hn : m.nodes[id]? with
      | none =>
        simp only [Monitor.drop_walk, hn]
        exact ih h hx fun s hs => hall s (List.mem_cons_of_mem _ hs)
      | some node =>
        simp only [Monitor.drop_walk, hn]
        have hid : ¬ Above m.shape.up id x := hall id (by simp)
        have hne : x ≠ id := by
          rintro rfl
          exact hid (.refl (h.grounded x))
        have hplace : ∀ y, (m.remove_node id node erased).1.shape.place y =
            (m.shape.remove id node.place).place y := by
          intro y
          rw [Monitor.remove_shape]
        have hs₁ : (m.remove_node id node erased).1.shape.Sound
            ((doomed \ {id}) ∪ node.place.children) := by
          rw [Monitor.remove_shape]
          exact h.remove (Monitor.place_of hn)
        apply ih hs₁
        · intro hdead
          have hgone := (hplace x).symm.trans (Monitor.place_none.mpr hdead)
          rw [Shape.remove_place, if_neg hne] at hgone
          obtain ⟨nx, hnx⟩ := Option.ne_none_iff_exists'.mp hx
          rw [Monitor.place_of hnx] at hgone
          split at hgone <;> cases hgone
        · -- the removal only cuts links
          have hcut : ∀ y q, (m.remove_node id node erased).1.shape.up y = some q →
              m.shape.up y = some q := by
            intro y q hy
            obtain ⟨ny, hny, hp⟩ := (Shape.up_eq_some _).mp hy
            rw [hplace, Shape.remove_place] at hny
            split at hny
            · cases hny
            · split at hny
              · obtain ⟨n₀, hn₀, rfl⟩ := Option.map_eq_some_iff.mp hny
                exact (Shape.up_eq_some _).mpr ⟨n₀, hn₀, hp⟩
              · exact (Shape.up_eq_some _).mpr ⟨ny, hny, hp⟩
          intro s hs ha
          have ha := above_cut ha h.grounded hcut
          rcases List.mem_append.mp hs with hs | hs
          · have hmem : s ∈ node.children := by simpa using hs
            obtain ⟨ns, hns, hp⟩ := h.child_up id _ s (Monitor.place_of hn) hmem
            exact hid (Above.trans (.step ((Shape.up_eq_some _).mpr ⟨ns, hns, hp⟩)
              (.refl (h.grounded id))) ha)
          · exact hall s (List.mem_cons_of_mem _ hs) ha

theorem discharge_placed (walk : Walk) : Placed m (m.discharge walk).1 := by
  rcases discharge_cases (m := m) walk with he | ⟨_, d₁, d₂⟩ | l
  · rw [he]
    exact .refl m
  · exact d₁.placed.trans d₂.placed
  · exact l.placed

/-- A drop spares what does not hang below it. -/
theorem drop_subtree_spares (h : m.shape.Sound ∅) {root x : WatchId} (mode : DeficitDischarge)
    (hx : m.nodes[x]? ≠ none) (hoff : ¬ Above m.shape.up root x) :
    (m.drop_subtree root mode).1.nodes[x]? ≠ none := by
  rw [drop_subtree_eq]
  dsimp only
  have hwalk : (Monitor.drop_walk (m.drop_fuel + 1) m [root] .default).1.nodes[x]? ≠ none := by
    apply drop_walk_spares _ h hx
    intro s hs
    rwa [List.mem_singleton.mp hs]
  generalize Monitor.drop_walk (m.drop_fuel + 1) m [root] .default = walked at hwalk ⊢
  have hp := discharge_placed (m := walked.1)
    { m.open_walk root mode with stack := [], erased := walked.2 }
  generalize (walked.1.discharge { m.open_walk root mode with stack := [], erased := walked.2 }).1
    = m₂ at hp ⊢
  have hlive : m₂.nodes[x]? ≠ none := fun hn => hwalk (hp.dead_iff.mp hn)
  split
  · split
    · exact fun hn => hlive ((stand_counted_cover_calm (k := none) _).placed.dead_iff.mp hn)
    · exact hlive
  · exact hlive

/-- A drop leaves nothing below its root. -/
theorem drop_subtree_clears (h : Inv ⟨m, g⟩) (hw : g.walk = none) {root x : WatchId}
    (mode : DeficitDischarge) (ha : Above m.shape.up root x) :
    (m.drop_subtree root mode).1.nodes[x]? = none := by
  obtain ⟨ht, hp, hdead⟩ := drop_subtree_trace (m := m) (g := g) root mode hw
  have hs' := Inv.sound (Trace.inv h ht) hw
  generalize (m.drop_subtree root mode).1 = m₁ at ht hp hdead hs' ⊢
  cases hx : m₁.nodes[x]? with
  | none => rfl
  | some n =>
    obtain ⟨l, hl, -, hall, -⟩ := Monitor.chain_of hs' hx
    -- the chain that is left is the chain that was
    have hl' : Chain m.shape.up x l := by
      apply hl.congr
      intro y hy
      obtain ⟨ny, hny, -⟩ := hall y hy
      obtain ⟨nx, hnx, hpar, -⟩ := hp.node_back hny
      rw [Monitor.up_live hny, Monitor.up_live hnx, hpar]
    obtain ⟨nr, hnr, -⟩ := hall root ((Above.iff_mem hl').mp ha)
    rw [hdead] at hnr
    cases hnr

/-! ### When a source is re-keyed -/

/-- A slot may take a source: the source may move, and hangs neither above the slot
    nor below what the slot holds. -/
def Monitor.takes (m : Monitor) (src p : WatchId) (name : Segment) : Prop :=
  m.can_reparent src p = true ∧ m.reparentable_adoption src = true ∧
    ∀ stale, m.child_watch p name = some stale → m.is_descendant src stale = false

/-- A re-parenting drops what the slot holds before it takes the slot. -/
theorem reparent_eq (src p : WatchId) (name : Segment) :
    m.reparent src p name .moved = match m.child_watch p name with
      | some stale =>
        if stale = src then m.reparent_onto src p name .moved false
        else (m.drop_subtree stale .coveringRescan).1.reparent_onto src p name .moved
          (m.has_rearm_obligation stale)
      | none => m.reparent_onto src p name .moved false := by
  unfold Monitor.reparent
  cases m.child_watch p name with
  | none => rfl
  | some stale =>
    by_cases hne : stale = src
    · simp only [if_pos hne]
      rfl
    · simp only [if_neg hne]
      rfl

/-- A source off its slots is re-keyed exactly when the slot may take it. -/
theorem reparent_iff (h : Inv ⟨m, g⟩) (hw : g.walk = none)
    (hoff : ∀ slot : WatchId × Segment, m.child_index[slot]? ≠ some src)
    (hs : m.is_watched src = true) (hp : m.is_watched p = true) (name : Segment) :
    (m.reparent src p name .moved).2 = true ↔
      ∀ stale, m.child_watch p name = some stale → m.is_descendant src stale = false := by
  have hsound := h.sound hw
  have onto : ∀ (m₁ : Monitor) inherit, (m₁.reparent_onto src p name .moved inherit).2 = true ↔
      m₁.is_watched src = true ∧ m₁.is_watched p = true := by
    intro m₁ inherit
    unfold Monitor.reparent_onto
    split
    · rename_i hd
      simp only [Bool.or_eq_true, Bool.not_eq_true'] at hd
      rcases hd with hd | hd <;> simp [hd]
    · rename_i hd
      simp only [Bool.or_eq_true, Bool.not_eq_true', not_or, Bool.not_eq_false] at hd
      simp [hd]
  rw [reparent_eq]
  cases hc : m.child_watch p name with
  | none => simp [onto, hs, hp]
  | some stale =>
    have hne : stale ≠ src := by
      rintro rfl
      exact hoff _ hc
    simp only [if_neg hne, Option.some.injEq, forall_eq']
    rw [onto, Bool.eq_false_iff, ne_eq, Monitor.is_descendant_iff hsound]
    have hlive : ∀ {x : WatchId} {m₁ : Monitor}, m₁.is_watched x = true ↔ m₁.nodes[x]? ≠ none := by
      intro x m₁
      exact contains_iff.trans Option.ne_none_iff_exists'.symm
    constructor
    · intro hboth ha
      obtain ⟨hlive', -⟩ := hboth
      exact hlive.mp hlive' (drop_subtree_clears h hw _ ha)
    · intro ha
      refine ⟨hlive.mpr (drop_subtree_spares hsound _ (hlive.mp hs) ha),
        hlive.mpr (drop_subtree_spares hsound _ (hlive.mp hp) ?_)⟩
      -- the slot's parent is above what the slot holds
      obtain ⟨n, hn, hpar, -⟩ := Monitor.slot_of_eq_some.mp (slot_of_index hsound hc)
      exact above_parent_false (by rw [Monitor.up_live hn, hpar])

end Proto
