import Tributaries.Proto.Runs

/-! # The adoption markers along a trace

  A widen records one marker at the root it grafts.  Only the effects of
  `Marking`, and the removal of the node a marker stands at, touch the
  marker stores; so a marker stands at a live node, and a staged entry
  names a watch of its scope.
-/

open Std Collections SlotForest Forest

namespace Proto

variable {m m' : Monitor} {g g' : Ghost} {k : Option Answer}

/-- The marker stores are the same. -/
structure Unmarked (m m' : Monitor) : Prop where
  pending : m'.pending_adoptions = m.pending_adoptions
  staged : m'.staged_adoptions = m.staged_adoptions
  adopting : m'.adopting_by_scope = m.adopting_by_scope
  seq : m'.adoption_staging_seq = m.adoption_staging_seq

theorem Deliver.unmarked (h : Deliver m m') : Unmarked m m' := by
  rw [h.shape]
  exact ⟨rfl, rfl, rfl, rfl⟩

theorem Ledger.unmarked (h : Ledger m m') : Unmarked m m' := by
  rw [h.shape]
  exact ⟨rfl, rfl, rfl, rfl⟩

theorem Work.unmarked (h : Work k m m') : Unmarked m m' := by
  rw [h.shape]
  exact ⟨rfl, rfl, rfl, rfl⟩

theorem set_state_unmarked (id : WatchId) (state : NodeState) :
    Unmarked m (m.set_state id state) := by
  obtain ⟨_, _, _, h⟩ := m.set_state_shape id state
  rw [h]
  exact ⟨rfl, rfl, rfl, rfl⟩

/-- The nodes a removal takes away. -/
inductive Removal : Moment → Moment → WatchId → WatchNode → Prop where
  | intro {m : Monitor} {g : Ghost} {walk id stack node} (hw : g.walk = some walk)
      (hs : walk.stack = id :: stack) (hn : m.nodes[id]? = some node) :
      Removal ⟨m, g⟩ ⟨(m.remove_node id node walk.erased).1,
        { g with
          walk := some
            { walk with
              stack := node.children.toList.reverse ++ stack
              erased := (m.remove_node id node walk.erased).2 } }⟩ id node

theorem Edit.unmarked {c c' : Moment} (h : Inv c) (e : Edit c c') :
    (∃ id node, Removal c c' id node) ∨ Unmarked c.m c'.m := by
  cases e with
  | @register m g scope mask caps hw hr =>
    obtain ⟨_, _, _, _, -, -, -, -, -, -, -, -, he⟩ := Monitor.register_eq mask caps hr
    rw [he]
    exact .inr ⟨rfl, rfl, rfl, rfl⟩
  | @plant m g parent scope name is_dir identity hw hp ha hs =>
    have hpn : parent ≠ m.watch_ids.next := by
      rintro rfl
      exact Nat.lt_irrefl _ ha.minted
    rw [Monitor.plant_eq _ _ _ _ hpn]
    exact .inr ⟨rfl, rfl, rfl, rfl⟩
  | reserve => exact .inr ⟨rfl, rfl, rfl, rfl⟩
  | @graft m g scope reserved last old_root =>
    obtain ⟨_, he, -⟩ := m.graft_eq scope reserved last old_root
    rw [he]
    exact .inr ⟨rfl, rfl, rfl, rfl⟩
  | @hold m g scope src parent name hw ht hp hs hsc =>
    have hh := h.unheld hp hs
    obtain ⟨_, _, _, -, -, he⟩ := Monitor.take_source_eq scope hp hh
    rw [he]
    exact .inr ⟨rfl, rfl, rfl, rfl⟩
  | @rekey m g child new_parent new_name =>
    obtain ⟨_, he⟩ := m.rekey_eq child new_parent new_name
    rw [he]
    exact .inr ⟨rfl, rfl, rfl, rfl⟩
  | uproot => exact .inr ⟨rfl, rfl, rfl, rfl⟩
  | remove hw hs hn => exact .inl ⟨_, _, .intro hw hs hn⟩

/-- Only the marker effects and the removals touch the marker stores. -/
theorem Effect.unmarked {c c' : Moment} (h : Inv c) (e : Effect c c') :
    Marking c c' ∨ (∃ id node, Removal c c' id node) ∨ Unmarked c.m c'.m := by
  cases e with
  | edit e => exact .inr (e.unmarked h)
  | mark e => exact .inl e
  | deliver d => exact .inr (.inr d.unmarked)
  | ledger l => exact .inr (.inr l.unmarked)
  | work w => exact .inr (.inr w.unmarked)
  | @ask m g parent scope name =>
    obtain ⟨_, _, _, _, _, -, -, -, he⟩ := queue_stat_eq (m := m) parent scope name
    rw [he]
    exact .inr (.inr ⟨rfl, rfl, rfl, rfl⟩)
  | ack => exact .inr (.inr (set_state_unmarked _ _))
  | @finish m g req dir =>
    have h := set_state_unmarked (m := m.forget_read req) dir .live
    exact .inr (.inr ⟨h.pending, h.staged, h.adopting, h.seq⟩)
  | @reset m g root =>
    obtain ⟨_, _, _, _, _, he⟩ := m.reset_root_shape root
    rw [he]
    exact .inr (.inr ⟨rfl, rfl, rfl, rfl⟩)
  | @close_drop m g walk =>
    rcases discharge_cases (m := m) walk with he | ⟨_, d₁, d₂⟩ | l
    · rw [he]
      exact .inr (.inr ⟨rfl, rfl, rfl, rfl⟩)
    · have h₁ := d₁.unmarked
      have h₂ := d₂.unmarked
      exact .inr (.inr ⟨h₂.pending.trans h₁.pending, h₂.staged.trans h₁.staged,
        h₂.adopting.trans h₁.adopting, h₂.seq.trans h₁.seq⟩)
    · exact .inr (.inr l.unmarked)
  | @park m g scope cookie pending =>
    obtain ⟨_, he⟩ := m.park_shape scope cookie pending
    rw [he]
    exact .inr (.inr ⟨rfl, rfl, rfl, rfl⟩)
  | @release m g scope src =>
    obtain ⟨_, _, he⟩ := m.release_hold_shape scope src
    rw [he]
    exact .inr (.inr ⟨rfl, rfl, rfl, rfl⟩)
  | @reprofile m g scope caps =>
    obtain ⟨_, _, he⟩ := m.reprofile_shape scope caps
    rw [he]
    exact .inr (.inr ⟨rfl, rfl, rfl, rfl⟩)
  | @dispatch m g action rest =>
    unfold Monitor.stamp_dispatch
    split <;> exact .inr (.inr ⟨rfl, rfl, rfl, rfl⟩)
  | adopt => exact .inr (.inr ⟨rfl, rfl, rfl, rfl⟩)
  | rest => exact .inr (.inr ⟨rfl, rfl, rfl, rfl⟩)
  | respond => exact .inr (.inr ⟨rfl, rfl, rfl, rfl⟩)
  | identify => exact .inr (.inr ⟨rfl, rfl, rfl, rfl⟩)
  | land => exact .inr (.inr ⟨rfl, rfl, rfl, rfl⟩)
  | move_root => exact .inr (.inr ⟨rfl, rfl, rfl, rfl⟩)
  | open_drop => exact .inr (.inr ⟨rfl, rfl, rfl, rfl⟩)
  | skip_dead => exact .inr (.inr ⟨rfl, rfl, rfl, rfl⟩)
  | take => exact .inr (.inr ⟨rfl, rfl, rfl, rfl⟩)
  | remark => exact .inr (.inr ⟨rfl, rfl, rfl, rfl⟩)
  | purge => exact .inr (.inr ⟨rfl, rfl, rfl, rfl⟩)
  | forget_scope => exact .inr (.inr ⟨rfl, rfl, rfl, rfl⟩)
  | forget_registration => exact .inr (.inr ⟨rfl, rfl, rfl, rfl⟩)
  | forget_book => exact .inr (.inr ⟨rfl, rfl, rfl, rfl⟩)
  | skip_action => exact .inr (.inr ⟨rfl, rfl, rfl, rfl⟩)
  | poll_event => exact .inr (.inr ⟨rfl, rfl, rfl, rfl⟩)

/-- Only a removal takes a node away. -/
theorem Effect.survives {c c' : Moment} (h : Inv c) (e : Effect c c') :
    (∃ id node, Removal c c' id node) ∨
      ∀ x : WatchId, c'.m.nodes[x]? = none → c.m.nodes[x]? = none := by
  rcases e.still with e | ⟨hp, -⟩
  · cases e with
    | @register m g scope mask caps hw hr =>
      obtain ⟨_, _, _, _, -, -, -, -, -, -, -, -, he⟩ := Monitor.register_eq mask caps hr
      refine .inr fun x hx => ?_
      rw [he, get_insert] at hx
      split at hx
      · cases hx
      · exact hx
    | @plant m g parent scope name is_dir identity hw hp ha hs =>
      have hpn : parent ≠ m.watch_ids.next := by
        rintro rfl
        exact Nat.lt_irrefl _ ha.minted
      refine .inr fun x hx => ?_
      rw [← Monitor.place_none, Monitor.plant_shape hpn, Shape.plant_place] at hx
      rw [← Monitor.place_none]
      split at hx
      · cases hx
      · split at hx
        · exact Option.map_eq_none_iff.mp hx
        · exact hx
    | reserve => exact .inr fun x hx => hx
    | @graft m g scope reserved last old_root hw ht hr hs hd =>
      refine .inr fun x hx => ?_
      rw [← Monitor.place_none, Monitor.graft_shape (h.sound hw) (h.spare.dead _ hs) hr,
        Shape.graft_place] at hx
      rw [← Monitor.place_none]
      split at hx
      · cases hx
      · split at hx
        · exact Option.map_eq_none_iff.mp hx
        · exact hx
    | @hold m g scope src parent name hw ht hp hs hsc =>
      have hh := h.unheld hp hs
      refine .inr fun x hx => ?_
      rw [← Monitor.place_none, Monitor.take_source_shape _ hp hh] at hx
      exact Monitor.place_none.mp hx
    | @rekey m g child new_parent new_name scope hw =>
      refine .inr fun x hx => ?_
      rw [← Monitor.place_none, Monitor.rekey_shape _ _ _ (h.sound hw), Shape.rekey_place] at hx
      exact Monitor.place_none.mp (Option.map_eq_none_iff.mp hx)
    | uproot => exact .inr fun x hx => hx
    | remove hw hs hn => exact .inl ⟨_, _, .intro hw hs hn⟩
  · exact .inr fun x hx => hp.dead_iff.mp hx

/-! ### Markers stand at live nodes -/

/-- A marker stands at a live node; a staged entry names a watch of its scope. -/
structure Adopted (c : Moment) : Prop where
  live : ∀ (x : WatchId) (marker : AdoptionMarker),
    c.m.pending_adoptions[x]? = some marker → c.m.nodes[x]? ≠ none
  staged : ∀ (s : ScopeId) (x : WatchId) (seq : Nat),
    c.m.staged_adoptions[(s, x)]? = some seq → Anchored c x s

theorem get_take_marker (parent : WatchId) (scope : ScopeId) (x : WatchId) :
    (m.take_adoption_marker parent scope).1.pending_adoptions[x]? =
      if parent = x then none else m.pending_adoptions[x]? := by
  rw [(m.take_adoption_marker_eq parent scope).1, get_erase]

theorem get_take_staged {parent : WatchId} {scope : ScopeId} {k : ScopeId × WatchId} {seq : Nat}
    (h : (m.take_adoption_marker parent scope).1.staged_adoptions[k]? = some seq) :
    m.staged_adoptions[k]? = some seq := by
  rw [(m.take_adoption_marker_eq parent scope).1] at h
  dsimp only at h
  split at h
  · rw [get_erase] at h
    split at h
    · cases h
    · exact h
  · exact h

theorem stage_adoption_eq (parent : WatchId) (scope : ScopeId) :
    ∃ seq staged, m.stage_adoption parent scope =
        { m with adoption_staging_seq := seq, staged_adoptions := staged } ∧
      (∀ (k : ScopeId × WatchId) (n : Nat), staged[k]? = some n →
        k = (scope, parent) ∨ m.staged_adoptions[k]? = some n) ∧
      staged.contains (scope, parent) = true ∧
      ∀ (k : ScopeId × WatchId) (n : Nat), m.staged_adoptions[k]? = some n →
        staged[k]? = some n := by
  unfold Monitor.stage_adoption
  split
  · rename_i hc
    exact ⟨_, _, rfl, fun k n hk => .inr hk, hc, fun k n hk => hk⟩
  · rename_i hc
    have hnone : m.staged_adoptions[(scope, parent)]? = none :=
      contains_false_iff.mp (eq_false_of_ne_true hc)
    refine ⟨_, _, rfl, fun k n hk => ?_, ?_, fun k n hk => ?_⟩
    · rw [get_insert] at hk
      split at hk
      · rename_i he
        exact .inl he.symm
      · exact .inr hk
    · exact contains_iff.mpr ⟨_, by rw [get_insert, if_pos rfl]⟩
    · rw [get_insert, if_neg]
      · exact hk
      · rintro rfl
        rw [hnone] at hk
        cases hk

theorem Effect.adopted {c c' : Moment} (h : Inv c) (ha : Adopted c) (e : Effect c c') :
    Adopted c' := by
  have hanch : ∀ x s, Anchored c x s → Anchored c' x s := fun x s hx => e.anchored h hx
  rcases e.unmarked h with k | ⟨id, node, ⟨hw, hs, hn⟩⟩ | u
  · have hp := k.placed
    cases k with
    | @record_marker m g parent name adopted identity scope node hn =>
      refine ⟨fun x marker hx => ?_, fun s x seq hx => hanch x s (ha.staged s x seq hx)⟩
      rw [ne_eq, hp.dead_iff]
      have hx : (m.pending_adoptions.insert parent ⟨name, adopted, identity⟩)[x]? = some marker :=
        hx
      rw [get_insert] at hx
      split at hx
      · rename_i he
        subst he
        simp [hn]
      · exact ha.live x marker hx
    | @stage m g dir scope entries entry marker _ hsc =>
      obtain ⟨seq, staged, he, hback, -⟩ := stage_adoption_eq (m := m) dir scope
      have hpend : (m.stage_adoption dir scope).pending_adoptions = m.pending_adoptions := by
        rw [he]
      have hst : (m.stage_adoption dir scope).staged_adoptions = staged := by rw [he]
      refine ⟨fun x marker hx => ?_, fun s x n hx => ?_⟩
      · rw [ne_eq, hp.dead_iff]
        exact ha.live x marker (hpend ▸ hx)
      · rcases hback (s, x) n (hst ▸ hx) with hk | hk
        · cases hk
          exact hanch _ _ (h.anchored hsc)
        · exact hanch x s (ha.staged s x n hk)
    | @take_marker m g parent scope =>
      refine ⟨fun x marker hx => ?_, fun s x n hx => hanch x s (ha.staged s x n (get_take_staged hx))⟩
      rw [ne_eq, hp.dead_iff]
      dsimp only at hx
      rw [get_take_marker] at hx
      split at hx
      · cases hx
      · exact ha.live x marker hx
    | @unstage m g parent scope =>
      refine ⟨fun x marker hx => ha.live x marker hx, fun s x n hx => ?_⟩
      dsimp only at hx
      rw [get_erase] at hx
      split at hx
      · cases hx
      · exact hanch x s (ha.staged s x n hx)
  · rename_i m g walk stack
    have d := remove_death walk.erased hn
    obtain ⟨_, _, _, -, -, he, -⟩ := m.remove_node_eq id node walk.erased
    refine ⟨fun x marker hx => ?_, fun s x n hx => ?_⟩
    · rw [he] at hx
      dsimp only at hx
      rw [get_erase] at hx
      split at hx
      · cases hx
      · rename_i hne
        intro hd
        rcases (d.live_iff x).mp hd with rfl | hd
        · exact hne rfl
        · exact ha.live x marker hx hd
    · refine hanch x s (ha.staged s x n ?_)
      rw [he] at hx
      dsimp only at hx
      split at hx
      · rw [get_erase] at hx
        split at hx
        · cases hx
        · exact hx
      · exact hx
  · refine ⟨fun x marker hx hd => ?_, fun s x n hx => hanch x s (ha.staged s x n (u.staged ▸ hx))⟩
    rcases e.survives h with ⟨id, node, ⟨hw, hs, hn⟩⟩ | hsur
    · rename_i m g walk stack
      obtain ⟨_, _, _, -, -, he, -⟩ := m.remove_node_eq id node walk.erased
      have d := remove_death walk.erased hn
      rcases (d.live_iff x).mp hd with rfl | hd
      · rw [he] at hx
        simp at hx
      · exact ha.live x marker (u.pending ▸ hx) hd
    · exact ha.live x marker (u.pending ▸ hx) (hsur x hd)

/-- What every moment of every trace keeps. -/
structure Valid (c : Moment) : Prop extends Inv c where
  adopted : Adopted c

theorem Effect.valid {c c' : Moment} (h : Valid c) (e : Effect c c') : Valid c' :=
  ⟨e.inv h.toInv, e.adopted h.toInv h.adopted⟩

theorem Trace.valid {c c' : Moment} (h : Valid c) (t : Trace c c') : Valid c' := by
  induction t with
  | refl => exact h
  | tail _ e ih => exact e.valid ih

/-- What a call is for does not matter to what holds during it. -/
theorem Valid.recall {call : Option Input} {start : Monitor} (h : Valid ⟨m, g⟩) :
    Valid ⟨m, { g with call := call, start := start }⟩ where
  tree := h.tree
  minted := h.minted
  spare := h.spare
  holds := h.holds
  reads := h.reads
  stats := h.stats
  adopted := ⟨h.adopted.live, fun s x seq hx =>
    let ha := h.adopted.staged s x seq hx
    ⟨ha.minted, ha.used, ha.scope⟩⟩

end Proto
