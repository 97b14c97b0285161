import Tributaries.Proto.Dropping

/-! # Slots as paths of effects

  The functions that bring a slot in line with what stands in it: installs,
  drops of the departed, and the adoption markers they dispose of.
-/

open Std Collections SlotForest Forest

namespace Proto

variable {m m' : Monitor} {g : Ghost}

/-! ### Drops -/

theorem drop_trace (root : WatchId) (mode : DeficitDischarge) (hw : g.walk = none) :
    Trace ⟨m, g⟩ ⟨(m.drop_subtree root mode).1, g⟩ :=
  (drop_subtree_trace root mode hw).1

theorem drop_departed_trace (occupant : WatchId) (hw : g.walk = none) :
    Trace ⟨m, g⟩ ⟨m.drop_departed_occupant occupant, g⟩ := by
  have h := drop_trace (m := m) occupant .coveringRescan hw
  unfold Monitor.drop_departed_occupant
  dsimp only
  split
  · split
    · exact h.trans (Effect.ledger .cover_vacancy).trace
    · exact h
  · exact h

theorem retire_adopted_trace (adopted : WatchId) (hw : g.walk = none) :
    Trace ⟨m, g⟩ ⟨m.retire_adopted adopted, g⟩ := by
  unfold Monitor.retire_adopted
  split
  · exact drop_trace adopted .coveringRescan hw
  · exact .refl

theorem retire_adopted_pruned (adopted : WatchId) : Pruned m (m.retire_adopted adopted) := by
  unfold Monitor.retire_adopted
  split
  · exact (drop_subtree_trace (g := Ghost.new false m) adopted .coveringRescan rfl).2.1
  · exact .refl m

/-! ### Adoption markers -/

theorem take_marker_trace (parent : WatchId) (scope : ScopeId) (ha : Anchored ⟨m, g⟩ parent scope) :
    Trace ⟨m, g⟩ ⟨(m.take_adoption_marker parent scope).1, g⟩ :=
  (Effect.mark (.take_marker ha)).trace

/-- A release is the taking of the marker and, of a counted retirement, the
    cover and the drop of the adopted watch. -/
theorem release_marker_eq (parent : WatchId) (scope : ScopeId) (disposal : AdoptionDisposal) :
    (m.release_adoption_marker parent scope disposal).1 =
      match m.pending_adoptions[parent]?, disposal with
      | some marker, .countedRetirement =>
        ((m.take_adoption_marker parent scope).1.stand_counted_cover scope).retire_adopted
          marker.adopted
      | _, _ => (m.take_adoption_marker parent scope).1 := by
  have h := (m.take_adoption_marker_eq parent scope).2
  unfold Monitor.release_adoption_marker
  dsimp only
  rw [h]
  cases m.pending_adoptions[parent]? with
  | none => cases disposal <;> rfl
  | some marker => cases disposal <;> rfl

theorem release_marker_trace (parent : WatchId) (scope : ScopeId) (disposal : AdoptionDisposal)
    (hw : g.walk = none) (ha : Anchored ⟨m, g⟩ parent scope) :
    Trace ⟨m, g⟩ ⟨(m.release_adoption_marker parent scope disposal).1, g⟩ := by
  have h := take_marker_trace parent scope ha
  rw [release_marker_eq]
  split
  · exact h.trans ((stand_counted_cover_calm scope).trace.trans (retire_adopted_trace _ hw))
  · exact h

/-- A released marker is gone. -/
theorem release_marker_gone (parent : WatchId) (scope : ScopeId) (disposal : AdoptionDisposal) :
    (m.release_adoption_marker parent scope disposal).1.pending_adoptions[parent]? = none := by
  have h : (m.take_adoption_marker parent scope).1.pending_adoptions[parent]? = none := by
    rw [get_take_marker, if_pos rfl]
  have keep : ∀ m₁ m₂ : Monitor, Pruned m₁ m₂ → m₁.pending_adoptions[parent]? = none →
      m₂.pending_adoptions[parent]? = none := by
    intro m₁ m₂ hp hn
    cases hm : m₂.pending_adoptions[parent]? with
    | none => rfl
    | some marker =>
      have := hp.markers parent marker hm
      rw [hn] at this
      cases this
  rw [release_marker_eq]
  split
  · exact keep _ _ (retire_adopted_pruned _) (keep _ _ (stand_counted_cover_calm (k := none) scope).pruned h)
  · exact h

/-! ### Installs -/

/-- An install heals the hole recorded at its slot and plants a node there. -/
theorem install_child_eq {parent : WatchId} {scope : ScopeId} {name : Segment} {is_dir : Bool}
    {identity : Option Identity} (hp : m.is_watched parent = true)
    (hs : m.child_index[(parent, name)]? = none) :
    (m.install_child parent scope name is_dir identity).1 =
      (m.remove_slot_deficit scope parent name).1.plant parent scope name is_dir identity := by
  unfold Monitor.install_child
  rw [if_neg (by simpa [Monitor.is_watched] using hp),
    if_neg (by rw [contains_false_iff.mpr hs]; simp)]
  rfl

theorem install_child_trace {parent : WatchId} {scope : ScopeId} (name : Segment) (is_dir : Bool)
    (identity : Option Identity) (h : Valid ⟨m, g⟩) (hw : g.walk = none)
    (ha : Anchored ⟨m, g⟩ parent scope) :
    Trace ⟨m, g⟩ ⟨(m.install_child parent scope name is_dir identity).1, g⟩ := by
  by_cases hp : m.is_watched parent = true
  · by_cases hs : m.child_index[(parent, name)]? = none
    · rw [install_child_eq hp hs]
      have e : Ledger m (m.remove_slot_deficit scope parent name).1 := .heal_slot
      refine (Effect.trace (.ledger e)).trans (Effect.trace (.edit (.plant hw ?_ ?_ ?_)))
      · obtain ⟨n, hn⟩ := contains_iff.mp hp
        obtain ⟨n', hn', -⟩ := e.placed.fwd hn
        exact contains_iff.mpr ⟨n', hn'⟩
      · exact (Effect.ledger e).anchored h.toInv ha
      · rw [e.placed.child_index]
        exact hs
    · have hc : m.child_index.contains (parent, name) = true :=
        contains_iff.mpr (Option.ne_none_iff_exists'.mp hs)
      unfold Monitor.install_child
      rw [if_neg (by simpa [Monitor.is_watched] using hp), if_pos hc]
  · unfold Monitor.install_child
    rw [if_pos (by simp only [Monitor.is_watched] at hp; simp [hp])]

/-- The install of a `Dir` slot, with what its predecessor left it. -/
theorem install_inherit_trace {parent : WatchId} {scope : ScopeId} {name : Segment}
    {identity : Option Identity} (inherit dark : Bool) (h : Valid ⟨m, g⟩) (hw : g.walk = none)
    (ha : Anchored ⟨m, g⟩ parent scope) :
    Trace ⟨m, g⟩ ⟨(let (m₂, healed) := m.install_child parent scope name true identity
      if inherit then
        match m₂.child_watch parent name with
        | some fresh =>
          let m₃ := (m₂.inherit_rearm fresh).1
          (if dark then { m₃ with dark_installs := m₃.dark_installs.insert fresh } else m₃, healed)
        | none => (m₂, healed)
      else (m₂, healed)).1, g⟩ := by
  have hins := install_child_trace name true identity h hw ha
  generalize m.install_child parent scope name true identity = installed at hins ⊢
  obtain ⟨m₂, healed⟩ := installed
  dsimp only at hins ⊢
  split
  · split
    · rename_i fresh _
      have hin := hins.trans (inherit_rearm_calm (m := m₂) fresh).trace
      dsimp only
      split
      · exact hin.tail (.ledger .darken)
      · exact hin
    · exact hins
  · exact hins

theorem reconcile_slot_trace {parent : WatchId} {scope : ScopeId} (name : Segment)
    (occupant : SlotOccupant) (replaced : Bool) (identity : Option Identity)
    (h : Valid ⟨m, g⟩) (hw : g.walk = none) (ha : Anchored ⟨m, g⟩ parent scope) :
    Trace ⟨m, g⟩ ⟨(m.reconcile_slot parent scope name occupant replaced identity).1, g⟩ := by
  unfold Monitor.reconcile_slot
  split
  · exact .refl
  · have gone : Trace ⟨m, g⟩ ⟨(match m.child_watch parent name with
        | some stale => m.drop_departed_occupant stale
        | none => m), g⟩ := by
      split
      · exact drop_departed_trace _ hw
      · exact .refl
    have healed : ∀ m₁ : Monitor, Trace ⟨m₁, g⟩
        ⟨if (m₁.remove_slot_deficit scope parent name).2 then
          (m₁.remove_slot_deficit scope parent name).1.cover_stat_vacancy parent name
        else (m₁.remove_slot_deficit scope parent name).1, g⟩ := by
      intro m₁
      have h₁ : Trace ⟨m₁, g⟩ ⟨(m₁.remove_slot_deficit scope parent name).1, g⟩ :=
        (Effect.ledger .heal_slot).trace
      split
      · exact h₁.tail (.ledger .cover_vacancy)
      · exact h₁
    cases occupant with
    | dir =>
      dsimp only
      -- the stale occupant first, then the install, then what it inherits
      generalize (if (replaced ||
          (m.child_watch parent name).any fun stale => m.identity_differs stale identity) = true
        then m.child_watch parent name else none) = stale
      cases stale with
      | none => exact install_inherit_trace false false h hw ha
      | some stale =>
        have hdrop := drop_trace (m := m) stale .coveringRescan hw
        exact hdrop.trans (install_inherit_trace _ _ (Trace.valid h hdrop) hw
          (Trace.anchored h.toInv ha hdrop))
    | unknown =>
      dsimp only
      have hrec : Trace ⟨m, g⟩ ⟨if (m.child_watch parent name).isNone then
          m.record_slot_deficit scope parent name else m, g⟩ := by
        split
        · exact (Effect.ledger .record_slot).trace
        · exact .refl
      exact hrec.tail (.ask (Trace.anchored h.toInv ha hrec))
    | file =>
      dsimp only
      exact gone.trans (healed _)
    | gone =>
      dsimp only
      exact gone.trans (healed _)

theorem cover_and_rebuild_trace {parent : WatchId} {scope : ScopeId} (name : Segment)
    (is_dir : Bool) (identity : Option Identity) (h : Valid ⟨m, g⟩) (hw : g.walk = none)
    (ha : Anchored ⟨m, g⟩ parent scope) :
    Trace ⟨m, g⟩ ⟨m.cover_and_rebuild_slot scope parent name is_dir identity, g⟩ := by
  have h₁ := (emit_rescan_calm (m := m) scope (m.child_location parent name)).trace (g := g)
  unfold Monitor.cover_and_rebuild_slot
  dsimp only
  generalize (m.emit_rescan scope (m.child_location parent name)).1 = m₁ at h₁ ⊢
  split
  · exact h₁
  · split
    · have h₂ := h₁.trans (install_child_trace name is_dir identity (Trace.valid h h₁) hw (Trace.anchored h.toInv ha h₁))
      split
      · exact h₂.trans (inherit_rearm_calm _).trace
      · exact h₂
    · exact h₁

/-! ### Teardown -/

/-- Once its root is dead and unregistered, a scope has no watch left. -/
theorem scope_empty (h : Inv ⟨m, g⟩) (hw : g.walk = none) {scope : ScopeId}
    (hr : m.roots[scope]? = none) (x : WatchId) : m.scope_of x ≠ some scope := by
  intro hx
  obtain ⟨n, hn, rfl⟩ := Monitor.scope_of_eq_some.mp hx
  obtain ⟨l, -, -, -, r, -, hroot⟩ := Monitor.chain_of (h.sound hw) hn
  rw [hr] at hroot
  cases hroot

/-- Dropping the root of a scope unregisters it. -/
theorem drop_root_gone (h : Inv ⟨m, g⟩) (hw : g.walk = none) {scope : ScopeId} {root : WatchId}
    (mode : DeficitDischarge) (hr : ∀ r, m.roots[scope]? = some r → r = root) :
    (m.drop_subtree root mode).1.roots[scope]? = none := by
  obtain ⟨ht, hp, hd⟩ := drop_subtree_trace (m := m) root mode hw
  cases hs : (m.drop_subtree root mode).1.roots[scope]? with
  | none => rfl
  | some r =>
    obtain rfl := hr r (hp.roots scope r hs)
    obtain ⟨q, hq, -⟩ := (Inv.sound (Trace.inv h ht) hw).root_up scope r hs
    obtain ⟨n, hn, -⟩ := Monitor.place_eq_some.mp hq
    rw [hd] at hn
    cases hn

theorem invalidate_root_trace {scope : ScopeId} {root : WatchId} (h : Valid ⟨m, g⟩)
    (hw : g.walk = none) (hr : ∀ r, m.roots[scope]? = some r → r = root)
    (hb : g.start.roots[scope]? ≠ none) :
    Trace ⟨m, g⟩ ⟨m.invalidate_root scope root, g⟩ := by
  have ht := drop_trace (m := m) root .teardown hw
  have hgone := drop_root_gone h.toInv hw .teardown hr
  have he : m.invalidate_root scope root =
      (((m.drop_subtree root .teardown).1).purge_scope_pending_moves scope).forget_scope scope :=
    rfl
  rw [he]
  generalize (m.drop_subtree root .teardown).1 = m₁ at ht hgone ⊢
  have h₁ := Trace.inv h.toInv ht
  exact (ht.tail (.purge fun src _ => scope_empty h₁ hw hgone src)).tail (.forget_scope hgone hb)

end Proto
