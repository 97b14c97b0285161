import Tributaries.Proto.Unmoved

/-! # What a re-key moves

  A destination that takes up a held source re-keys it to the record's
  slot.  Whatever else survives the call stands where it stood, and the
  slot the source left is still under a live watch.
-/

open Std Collections SlotForest Forest

namespace Proto

variable {m m' m'' : Monitor} {g : Ghost} {k : Option Answer} {src p : WatchId} {name : Segment}

/-- One live node is re-keyed to a slot, and nothing else moves. -/
structure Rekeyed (m m' : Monitor) (src p : WatchId) (name : Segment) : Prop where
  was : m.is_watched src = true
  lands : m'.slot_of src = some (p, name)
  fills : m'.child_index[(p, name)]? = some src
  stays : ∀ x q', m'.shape.place x = some q' → x < m.watch_ids.next → x ≠ src →
    ∃ q, m.shape.place x = some q ∧ q'.parent = q.parent ∧ q'.name = q.name
  keyed : ∀ (slot : WatchId × Segment) (x : WatchId), m'.child_index[slot]? = some x →
    x < m.watch_ids.next → x ≠ src → m.child_index[slot]? = some x
  /-- The parent it leaves is still watched. -/
  left : ∀ slot, m.slot_of src = some slot → m'.is_watched slot.1 = true

namespace Rekeyed

theorem placed (h : Rekeyed m m' src p name) (hp : Placed m' m'') : Rekeyed m m'' src p name := by
  constructor
  · exact h.was
  · rw [hp.slot_of]
    exact h.lands
  · rw [hp.child_index]
    exact h.fills
  · rw [hp.shape]
    exact h.stays
  · intro slot x hs
    rw [hp.child_index] at hs
    exact h.keyed slot x hs
  · intro slot hs
    obtain ⟨n, hn⟩ := contains_iff.mp (h.left slot hs)
    obtain ⟨n', hn', -⟩ := hp.fwd hn
    exact contains_iff.mpr ⟨n', hn'⟩

/-- What is taken away or planted ahead of the re-key. -/
theorem after (h : Unmoved m m') (hr : Rekeyed m' m'' src p name) (hs : src < m.watch_ids.next) :
    Rekeyed m m'' src p name := by
  obtain ⟨n', hn'⟩ := contains_iff.mp hr.was
  obtain ⟨q, hq, hp, hname⟩ := h.stays src _ (Monitor.place_of hn') hs
  obtain ⟨n, hn, rfl⟩ := Monitor.place_eq_some.mp hq
  constructor
  · exact contains_iff.mpr ⟨n, hn⟩
  · exact hr.lands
  · exact hr.fills
  · intro x q'' hq hx hne
    obtain ⟨q', hq', hp', hn'⟩ := hr.stays x q'' hq (h.ids x hx) hne
    obtain ⟨q, hq, hp, hn⟩ := h.stays x q' hq' hx
    exact ⟨q, hq, hp'.trans hp, hn'.trans hn⟩
  · intro slot x hs hx hne
    exact h.keyed slot x (hr.keyed slot x hs (h.ids x hx) hne) hx
  · intro slot hslot
    apply hr.left slot
    obtain ⟨n₀, hn₀, hpar, hnam⟩ := Monitor.slot_of_eq_some.mp hslot
    rw [hn] at hn₀
    cases hn₀
    exact Monitor.slot_of_eq_some.mpr ⟨n', hn', hp.trans hpar, hname.trans hnam⟩

end Rekeyed

theorem rekey_rekeyed (hsound : m.shape.Sound ∅) (hs : m.is_watched src = true) :
    Rekeyed m (m.rekey src p name) src p name := by
  obtain ⟨n, hn⟩ := contains_iff.mp hs
  have hget := fun x => m.get_rekeyed src p name x
  simp only [Monitor.get_attached] at hget
  constructor
  · exact hs
  · apply Monitor.slot_of_eq_some.mpr
    exact ⟨_, by rw [hget, hn]; rfl, by simp, by simp⟩
  · obtain ⟨_, he⟩ := m.rekey_eq src p name
    rw [he]
    simp only [get_insert, if_true]
  · intro x q' hq hx hne
    obtain ⟨n', hn', rfl⟩ := Monitor.place_eq_some.mp hq
    rw [hget] at hn'
    obtain ⟨n₁, hn₁, rfl⟩ := Option.map_eq_some_iff.mp hn'
    obtain ⟨n₀, hn₀, rfl⟩ := Option.map_eq_some_iff.mp hn₁
    exact ⟨_, Monitor.place_of hn₀, by simp [WatchNode.place, Ne.symm hne],
      by simp [WatchNode.place, Ne.symm hne]⟩
  · intro slot x hs _ hne
    obtain ⟨_, he⟩ := m.rekey_eq src p name
    rw [he] at hs
    simp only [get_insert] at hs
    split at hs
    · exact absurd (Option.some.inj hs).symm hne
    · exact hs
  · intro slot hslot
    obtain ⟨n₀, hn₀, hpar, -⟩ := Monitor.slot_of_eq_some.mp hslot
    obtain ⟨q, hq, -⟩ := hsound.parent_live (Monitor.place_of hn₀) hpar
    obtain ⟨np, hnp, -⟩ := Monitor.place_eq_some.mp hq
    apply contains_iff.mpr
    rw [hget, hnp]
    exact ⟨_, rfl⟩

/-- A re-parent re-keys the source or moves nothing. -/
theorem reparent_rekeyed (h : Inv ⟨m, g⟩) (hw : g.walk = none) (hs : src < m.watch_ids.next)
    (p : WatchId) (name : Segment) :
    ((m.reparent src p name .moved).2 = false ∧ Unmoved m (m.reparent src p name .moved).1) ∨
    ((m.reparent src p name .moved).2 = true ∧
      Rekeyed m (m.reparent src p name .moved).1 src p name) := by
  have hdrop : ∃ m₁ inherit, m.reparent src p name .moved =
        m₁.reparent_onto src p name .moved inherit ∧ Unmoved m m₁ ∧ m₁.shape.Sound ∅ := by
    have hself : ∃ m₁ inherit, m.reparent_onto src p name .moved false =
        m₁.reparent_onto src p name .moved inherit ∧ Unmoved m m₁ ∧ m₁.shape.Sound ∅ :=
      ⟨m, false, rfl, .refl m, h.sound hw⟩
    unfold Monitor.reparent
    cases m.child_watch p name with
    | none => exact hself
    | some stale =>
      by_cases hne : stale = src
      · simp only [if_pos hne]
        exact hself
      · simp only [if_neg hne]
        exact ⟨_, m.has_rearm_obligation stale, rfl, drop_subtree_unmoved _ _,
          Inv.sound (Trace.inv h (drop_trace stale .coveringRescan hw)) hw⟩
  obtain ⟨m₁, inherit, he, hu, hsound⟩ := hdrop
  rw [he]
  unfold Monitor.reparent_onto
  split
  · exact .inl ⟨rfl, hu⟩
  · rename_i hlive
    simp only [Bool.or_eq_true, Bool.not_eq_true', not_or, Bool.not_eq_false] at hlive
    refine .inr ⟨rfl, ?_⟩
    have hr : Rekeyed m (m₁.rekey src p name) src p name :=
      .after hu (rekey_rekeyed hsound hlive.1) hs
    have hcalm : Calms none (m₁.rekey src p name)
        ((if inherit then ((m₁.rekey src p name).inherit_rearm src).1
          else m₁.rekey src p name).readdress_outstanding_arm src) := by
      refine .trans ?_ (readdress_calm src)
      split
      · exact inherit_rearm_calm src
      · exact .refl
    exact hr.placed hcalm.placed

end Proto
