import Tributaries.Proto.Shapes

/-! # One removal of a drop walk

  `remove_node` unlinks a node and then reclaims, store by store, what the
  Monitor keeps for it.  The stores are disjoint, so the whole removal is
  one record update; `remove_node_eq` writes it out.
-/

open Std Collections

namespace Proto

namespace Monitor

variable {m : Monitor}

/-! ### Unlinking -/

def unlinked_nodes (m : Monitor) (id : WatchId) (node : WatchNode) : Map WatchId WatchNode :=
  match node.parent with
  | none => m.nodes.erase id
  | some parent =>
    (m.nodes.erase id).modify parent fun n => { n with children := n.children.erase id }

def unlinked_index (m : Monitor) (id : WatchId) (node : WatchNode) :
    Map (WatchId × Segment) WatchId :=
  match node.parent, node.name with
  | some parent, some name =>
    if m.child_index[(parent, name)]? = some id then m.child_index.erase (parent, name)
    else m.child_index
  | _, _ => m.child_index

def unlinked_roots (m : Monitor) (node : WatchNode) : Map ScopeId WatchId :=
  match node.parent with
  | none => m.roots.erase node.scope
  | some _ => m.roots

theorem vacate_child_slot_eq (parent : WatchId) (name : Segment) :
    ∃ stat, Restats m.pending_stat stat ∧ m.vacate_child_slot parent name =
      { m with child_index := m.child_index.erase (parent, name), pending_stat := stat } := by
  unfold vacate_child_slot
  split
  · rename_i h
    have h : m.child_index[(parent, name)]? = none := contains_false_iff.mp (by simpa using h)
    exact ⟨_, .refl _, by rw [erase_absent h]⟩
  · obtain ⟨stat, hr, he⟩ := modify_slot_stat_restats parent name
      (m := { m with child_index := m.child_index.erase (parent, name) }) (f := fun slot => { slot with vacancy_covered := false })
      fun _ => ⟨rfl, rfl, rfl⟩
    exact ⟨stat, hr, he⟩

theorem unlink_node_eq (id : WatchId) (node : WatchNode) (h : m.nodes[id]? = none) :
    ∃ stat, Restats m.pending_stat stat ∧ m.unlink_node id node =
      { m with
        nodes := m.unlinked_nodes id node
        child_index := m.unlinked_index id node
        roots := m.unlinked_roots node
        pending_stat := stat } := by
  have he : m.nodes.erase id = m.nodes := erase_absent h
  unfold unlink_node unlinked_nodes unlinked_index unlinked_roots
  cases hp : node.parent with
  | none =>
    simp only [he]
    exact ⟨_, .refl _, rfl⟩
  | some parent =>
    simp only [he]
    cases hn : node.name with
    | none => exact ⟨_, .refl _, rfl⟩
    | some name =>
      dsimp only
      by_cases hi : m.child_index[(parent, name)]? = some id
      · obtain ⟨stat, hr, hv⟩ := vacate_child_slot_eq
          (m := m.modify_node parent fun n => { n with children := n.children.erase id })
          parent name
        refine ⟨stat, hr, ?_⟩
        rw [if_pos hi, if_pos (by exact hi), hv]
        rfl
      · refine ⟨_, .refl _, ?_⟩
        rw [if_neg hi, if_neg (by exact hi)]
        rfl

/-! ### Reclaiming -/

theorem reclaim_enumerate (id : WatchId) (node : WatchNode) :
    m.reclaim_node_marker .enumerate id node = (m.forget_state node.state, .nothing) := by
  unfold reclaim_node_marker forget_state
  cases node.state <;> rfl

theorem reclaim_stat_slots (id : WatchId) (node : WatchNode) :
    ∃ losses slots cover, m.reclaim_node_marker .statSlots id node =
      ({ m with
        pending_stat := m.pending_stat.filter fun _ slot => slot.parent != id
        stat_losses := losses
        stat_slots := slots }, cover) ∧ cover ≠ .counted := by
  simp only [reclaim_node_marker, stat_loss_dec]
  split
  · refine ⟨_, _, _, rfl, ?_⟩
    split <;> simp
  · refine ⟨_, _, _, rfl, ?_⟩
    split <;> simp

theorem reclaim_held_source (id : WatchId) (node : WatchNode) :
    m.reclaim_node_marker .heldSource id node =
      ({ m with
        held_sources := m.held_sources.erase id
        held_by_scope :=
          if m.held_sources.contains id then count_down m.held_by_scope node.scope 1
          else m.held_by_scope }, .nothing) := by
  simp only [reclaim_node_marker]
  by_cases h : m.held_sources.contains id = true
  · simp only [if_pos h]
    rfl
  · simp only [if_neg h]
    rw [set_erase_absent (eq_false_of_ne_true h)]

theorem reclaim_dirtied_hold (id : WatchId) (node : WatchNode) :
    m.reclaim_node_marker .dirtiedHold id node =
      ({ m with dirtied_holds := m.dirtied_holds.erase id },
        if m.dirtied_holds.contains id then .counted else .nothing) := by
  simp only [reclaim_node_marker]
  by_cases h : m.dirtied_holds.contains id = true
  · simp only [if_pos h]
  · simp only [if_neg h]
    rw [set_erase_absent (eq_false_of_ne_true h)]

theorem reclaim_owed_descent (id : WatchId) (node : WatchNode) :
    m.reclaim_node_marker .owedDescent id node =
      ({ m with owed_descents := m.owed_descents.erase id },
        if m.owed_descents.contains id then .counted else .nothing) := by
  simp only [reclaim_node_marker]
  by_cases h : m.owed_descents.contains id = true
  · simp only [if_pos h]
  · simp only [if_neg h]
    rw [erase_absent (contains_false_iff.mp (eq_false_of_ne_true h))]

theorem reclaim_reprove_stamp (id : WatchId) (node : WatchNode) :
    m.reclaim_node_marker .reproveStamp id node =
      ({ m with reprove_stamps := m.reprove_stamps.erase id }, .nothing) := rfl

theorem reclaim_dark_install (id : WatchId) (node : WatchNode) :
    m.reclaim_node_marker .darkInstall id node =
      ({ m with dark_installs := m.dark_installs.erase id }, .nothing) := rfl

theorem take_adoption_marker_eq (parent : WatchId) (scope : ScopeId) :
    (m.take_adoption_marker parent scope).1 =
      { m with
        pending_adoptions := m.pending_adoptions.erase parent
        staged_adoptions :=
          if m.pending_adoptions.contains parent then m.staged_adoptions.erase (scope, parent)
          else m.staged_adoptions
        adopting_by_scope :=
          if m.pending_adoptions.contains parent then count_down m.adopting_by_scope scope 1
          else m.adopting_by_scope }
      ∧ (m.take_adoption_marker parent scope).2 = m.pending_adoptions[parent]? := by
  unfold take_adoption_marker
  cases h : m.pending_adoptions[parent]? with
  | none =>
    have hc : m.pending_adoptions.contains parent = false := contains_false_iff.mpr h
    simp only [hc, erase_absent h]
    trivial
  | some marker =>
    have hc : m.pending_adoptions.contains parent = true := contains_iff.mpr ⟨_, h⟩
    simp only [hc]
    trivial

theorem drop_node_deficits_shape (scope : ScopeId) (id : WatchId) :
    ∃ deficits, (m.drop_node_deficits scope id).1 = { m with deficits := deficits } := by
  unfold drop_node_deficits
  split
  · exact ⟨_, rfl⟩
  · rename_i book _
    obtain ⟨deficits, h⟩ := gc_book_shape (m := { m with
      deficits := m.deficits.insert scope
        { book with interiors := book.interiors.erase id, slots := book.slots.erase id } }) scope
    exact ⟨deficits, h⟩

/-- Only the book decides what a dying node's entries leave of it. -/
theorem drop_node_deficits_congr {m' : Monitor} (scope : ScopeId) (id : WatchId)
    (h : m'.deficits = m.deficits) :
    (m'.drop_node_deficits scope id).1.deficits = (m.drop_node_deficits scope id).1.deficits
      ∧ (m'.drop_node_deficits scope id).2 = (m.drop_node_deficits scope id).2 := by
  unfold drop_node_deficits gc_deficit_book
  rw [h]
  cases hb : m.deficits[scope]? with
  | none => exact ⟨h, rfl⟩
  | some book =>
    refine ⟨?_, rfl⟩
    dsimp only
    split
    · split <;> rfl
    · rfl

theorem reclaim_adoption (id : WatchId) (node : WatchNode) :
    m.reclaim_node_marker .adoption id node =
      ({ m with
        pending_adoptions := m.pending_adoptions.erase id
        staged_adoptions :=
          if m.pending_adoptions.contains id then m.staged_adoptions.erase (node.scope, id)
          else m.staged_adoptions
        adopting_by_scope :=
          if m.pending_adoptions.contains id then count_down m.adopting_by_scope node.scope 1
          else m.adopting_by_scope },
        if m.pending_adoptions.contains id then .discharge else .nothing) := by
  obtain ⟨h₁, h₂⟩ := take_adoption_marker_eq (m := m) id node.scope
  simp only [reclaim_node_marker]
  rw [h₁, h₂, ExtTreeMap.contains_eq_isSome_getElem?]

theorem reclaim_deficits (m : Monitor) {m' : Monitor} (id : WatchId) (node : WatchNode)
    (h : m'.deficits = m.deficits) :
    m'.reclaim_node_marker .deficits id node =
      ({ m' with deficits := (m.drop_node_deficits node.scope id).1.deficits },
        if (m.drop_node_deficits node.scope id).2 then .discharge else .nothing) := by
  obtain ⟨h₁, h₂⟩ := drop_node_deficits_congr (m := m) node.scope id h
  obtain ⟨deficits, hd⟩ := m'.drop_node_deficits_shape node.scope id
  simp only [reclaim_node_marker]
  rw [← h₁, h₂, hd]

/-! ### The whole removal -/

theorem absorb_discharge (e : ErasedCovers) (c : ErasedCover) :
    (e.absorb c).discharge = true ↔ e.discharge = true ∨ c = .discharge := by
  cases c <;> simp [ErasedCovers.absorb]

theorem absorb_counted (e : ErasedCovers) (c : ErasedCover) :
    (e.absorb c).counted = true ↔ e.counted = true ∨ c = .counted := by
  cases c <;> simp [ErasedCovers.absorb]

/-- What a removal erases, by how it has to be covered. -/
structure Erasure (m : Monitor) (id : WatchId) (node : WatchNode) (before after : ErasedCovers) :
    Prop where
  discharge : before.discharge = true → after.discharge = true
  counted : before.counted = true → after.counted = true
  marker : m.pending_adoptions.contains id = true → after.discharge = true
  deficits : (m.drop_node_deficits node.scope id).2 = true → after.discharge = true
  hold : m.dirtied_holds.contains id = true → after.counted = true
  owed : m.owed_descents.contains id = true → after.counted = true

theorem remove_node_eq (id : WatchId) (node : WatchNode) (erased : ErasedCovers) :
    ∃ stat slots losses, Restats m.pending_stat stat ∧
      (∀ (req : ReqId) (slot : StatSlot), stat[req]? = some slot → slot.parent ≠ id) ∧
      (m.remove_node id node erased).1 =
        { m with
          nodes := m.unlinked_nodes id node
          child_index := m.unlinked_index id node
          roots := m.unlinked_roots node
          rearm_pending :=
            if node.state.is_rearm then count_down m.rearm_pending node.scope 1
            else m.rearm_pending
          pending_enumerate := (m.forget_state node.state).pending_enumerate
          latent_cold := (m.forget_state node.state).latent_cold
          pending_stat := stat
          stat_slots := slots
          stat_losses := losses
          held_sources := m.held_sources.erase id
          held_by_scope :=
            if m.held_sources.contains id then count_down m.held_by_scope node.scope 1
            else m.held_by_scope
          dirtied_holds := m.dirtied_holds.erase id
          owed_descents := m.owed_descents.erase id
          reprove_stamps := m.reprove_stamps.erase id
          pending_adoptions := m.pending_adoptions.erase id
          staged_adoptions :=
            if m.pending_adoptions.contains id then m.staged_adoptions.erase (node.scope, id)
            else m.staged_adoptions
          adopting_by_scope :=
            if m.pending_adoptions.contains id then count_down m.adopting_by_scope node.scope 1
            else m.adopting_by_scope
          deficits := (m.drop_node_deficits node.scope id).1.deficits
          dark_installs := m.dark_installs.erase id
          actions := m.actions ++ [.unwatch id] } ∧
      Erasure m id node erased (m.remove_node id node erased).2 := by
  -- the node itself, its count, its links
  let m₂ : Monitor :=
    { m with
      nodes := m.nodes.erase id
      rearm_pending :=
        if node.state.is_rearm then count_down m.rearm_pending node.scope 1 else m.rearm_pending }
  have h₂ : (if node.state.is_rearm then { m with nodes := m.nodes.erase id }.rearm_pending_dec
      node.scope else { m with nodes := m.nodes.erase id }) = m₂ := by
    unfold m₂
    split
    · rfl
    · rfl
  obtain ⟨stat₁, hr₁, h₃⟩ := unlink_node_eq (m := m₂) id node (by simp [m₂])
  have hnodes : m₂.unlinked_nodes id node = m.unlinked_nodes id node := by
    have he : (m.nodes.erase id).erase id = m.nodes.erase id := erase_absent (by simp)
    unfold unlinked_nodes
    cases node.parent <;> simp only [m₂, he]
  -- the stores, in reclaim order
  let m₃ : Monitor :=
    { m₂ with
      nodes := m.unlinked_nodes id node
      child_index := m.unlinked_index id node
      roots := m.unlinked_roots node
      pending_stat := stat₁ }
  have h₃ : m₂.unlink_node id node = m₃ := by
    rw [h₃, hnodes]
    rfl
  obtain ⟨enumerates, latent, hf⟩ := forget_state_shape (m := m₃) node.state
  let m₄ : Monitor := { m₃ with pending_enumerate := enumerates, latent_cold := latent }
  have hf : m₃.forget_state node.state = m₄ := hf
  have he : enumerates = (m.forget_state node.state).pending_enumerate
      ∧ latent = (m.forget_state node.state).latent_cold := by
    have h₁ : (m₃.forget_state node.state).pending_enumerate = enumerates := by rw [hf]
    have h₂ : (m₃.forget_state node.state).latent_cold = latent := by rw [hf]
    rw [← h₁, ← h₂]
    unfold forget_state
    cases node.state <;> exact ⟨rfl, rfl⟩
  obtain ⟨losses, slots, cover, h₄, hc⟩ := reclaim_stat_slots (m := m₄) id node
  obtain ⟨hd₁, hd₂⟩ := @drop_node_deficits_congr m m₄ node.scope id rfl
  refine ⟨stat₁.filter fun _ slot => slot.parent != id, slots, losses, ?_, ?_, ?_, ?_⟩
  · intro req slot' h
    rw [get_filter] at h
    exact hr₁ req slot' (Option.filter_eq_some_iff.mp h).1
  · intro req slot h
    rw [get_filter] at h
    simpa using (Option.filter_eq_some_iff.mp h).2
  · simp only [remove_node, NodeMarker.ALL, List.foldl_cons, List.foldl_nil]
    rw [h₂, h₃, reclaim_enumerate, hf]
    simp only [h₄, reclaim_held_source, reclaim_dirtied_hold, reclaim_owed_descent,
      reclaim_reprove_stamp, reclaim_adoption, reclaim_deficits m₄, reclaim_dark_install]
    rw [hd₁, ← he.1, ← he.2]
  · simp only [remove_node, NodeMarker.ALL, List.foldl_cons, List.foldl_nil]
    rw [h₂, h₃, reclaim_enumerate, hf]
    simp only [h₄, reclaim_held_source, reclaim_dirtied_hold, reclaim_owed_descent,
      reclaim_reprove_stamp, reclaim_adoption, reclaim_deficits m₄, reclaim_dark_install]
    rw [hd₂]
    constructor
    all_goals
      intro h
      simp only [absorb_discharge, absorb_counted]
    · exact .inl (.inl (.inl (.inl (.inl (.inl (.inl (.inl (.inl h))))))))
    · exact .inl (.inl (.inl (.inl (.inl (.inl (.inl (.inl (.inl h))))))))
    · exact .inl (.inl (.inr (if_pos h)))
    · exact .inl (.inr (if_pos h))
    · exact .inl (.inl (.inl (.inl (.inl (.inr (if_pos h))))))
    · exact .inl (.inl (.inl (.inl (.inr (if_pos h)))))

end Monitor

end Proto
