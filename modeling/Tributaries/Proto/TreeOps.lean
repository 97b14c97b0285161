import Tributaries.Proto.Invariants

/-! # The tree edits of the Monitor

  Each function that edits the watch tree is one edit of the slot forest:
  the equations here connect the two, and say which other fields the
  function writes.
-/

open Std Collections SlotForest

namespace Proto

namespace Monitor

variable {m : Monitor}

/-! ### Removing -/

theorem get_unlinked_nodes (id : WatchId) (node : WatchNode) (x : WatchId) :
    (m.unlinked_nodes id node)[x]? =
      if x = id then none
      else if node.parent = some x then
        (m.nodes[x]?).map fun n => { n with children := n.children.erase id }
      else m.nodes[x]? := by
  unfold unlinked_nodes
  cases hp : node.parent with
  | none =>
    simp only [get_erase]
    grind
  | some parent =>
    simp only [get_modify, get_erase]
    grind

theorem get_unlinked_index (id : WatchId) (node : WatchNode) (k : WatchId × Segment) :
    (m.unlinked_index id node)[k]? =
      if node.parent = some k.1 ∧ node.name = some k.2 ∧ m.child_index[k]? = some id then none
      else m.child_index[k]? := by
  unfold unlinked_index
  obtain ⟨p, nm⟩ := k
  cases hp : node.parent with
  | none => simp
  | some parent =>
    cases hn : node.name with
    | none => simp
    | some name =>
      by_cases hi : m.child_index[(parent, name)]? = some id
      · simp only [if_pos hi, get_erase]
        grind
      · simp only [if_neg hi]
        grind

theorem get_unlinked_roots (node : WatchNode) (s : ScopeId) :
    (m.unlinked_roots node)[s]? =
      if node.parent = none ∧ s = node.scope then none else m.roots[s]? := by
  unfold unlinked_roots
  cases hp : node.parent with
  | none =>
    simp only [get_erase]
    grind
  | some parent => simp

theorem mem_place_children {n : WatchNode} {x : WatchId} :
    x ∈ n.place.children ↔ x ∈ n.children := Iff.rfl

theorem place_erase_child (id : WatchId) (n : WatchNode) :
    WatchNode.place { n with children := n.children.erase id } =
      { n.place with children := n.place.children \ {id} } := by
  refine Place.ext rfl rfl rfl ?_
  ext x
  simp only [WatchNode.place, Set.mem_ofPred_eq, Set.mem_sdiff, Set.mem_singleton_iff,
    mem_erase_iff]
  grind

theorem place_insert_child (id : WatchId) (n : WatchNode) :
    WatchNode.place { n with children := n.children.insert id } =
      { n.place with children := insert id n.place.children } := by
  refine Place.ext rfl rfl rfl ?_
  ext x
  simp only [WatchNode.place, Set.mem_ofPred_eq, Set.mem_insert_iff, mem_insert_iff]
  grind

/-- A removal of the drop walk is a removal from the forest. -/
theorem remove_shape (id : WatchId) (node : WatchNode) (erased : ErasedCovers) :
    (m.remove_node id node erased).1.shape = m.shape.remove id node.place := by
  obtain ⟨_, _, _, -, -, h, -⟩ := m.remove_node_eq id node erased
  rw [h]
  refine Shape.ext (funext fun x => ?_) (funext fun k => ?_) (funext fun s => ?_)
  · simp only [shape, get_unlinked_nodes, Shape.remove_place]
    by_cases hx : x = id
    · simp [hx]
    · rw [if_neg hx, if_neg hx]
      by_cases hp : node.parent = some x
      · rw [if_pos hp, if_pos (by exact hp), Option.map_map, Option.map_map]
        congr 1
        funext n
        exact place_erase_child id n
      · rw [if_neg hp, if_neg (by exact hp)]
  · simp only [shape, get_unlinked_index, Shape.remove_slot]
    congr
  · simp only [shape, get_unlinked_roots, Shape.remove_root]
    congr

/-! ### Installing -/

/-- The node `install_child` births, its arm queued. -/
def sprout (m : Monitor) (parent : WatchId) (scope : ScopeId) (name : Segment) (is_dir : Bool)
    (identity : Option Identity) : WatchNode where
  parent := some parent
  name := some name
  scope := scope
  is_dir := is_dir
  attempt := m.arm_attempts.next.succ
  placement := m.placement_clock
  moved_at := NEVER_MOVED
  identity := identity
  state := .arming false false
  children := ∅

theorem plant_eq {parent : WatchId} (scope : ScopeId) (name : Segment) (is_dir : Bool)
    (identity : Option Identity) (hp : parent ≠ m.watch_ids.next) :
    m.plant parent scope name is_dir identity =
      { m with
        watch_ids := ⟨m.watch_ids.next.succ⟩
        arm_attempts := ⟨m.arm_attempts.next.succ.succ⟩
        nodes := (m.nodes.insert m.watch_ids.next
          (m.sprout parent scope name is_dir identity)).modify parent
            fun n => { n with children := n.children.insert m.watch_ids.next }
        child_index := m.child_index.insert (parent, name) m.watch_ids.next
        actions := m.actions ++ [.watch ⟨m.watch_ids.next, m.arm_attempts.next.succ,
          .child parent name, coverage_mask (m.scope_interest scope)⟩] } := by
  have hn : ∀ t : Map WatchId WatchNode, ∀ n : WatchNode,
      (((t.insert m.watch_ids.next n).modify parent fun n =>
        { n with children := n.children.insert m.watch_ids.next }).modify m.watch_ids.next fun n =>
          { n with attempt := m.arm_attempts.next.succ, placement := m.placement_clock }) =
      ((t.insert m.watch_ids.next { n with
        attempt := m.arm_attempts.next.succ
        placement := m.placement_clock }).modify parent fun n =>
          { n with children := n.children.insert m.watch_ids.next }) := by
    intro t n
    refine ExtTreeMap.ext_getElem? fun x => ?_
    simp only [get_modify, get_insert]
    grind
  unfold plant insert_node
  simp only [NodeState.is_rearm, Sequence.mint, next_arm_attempt, queue_watch_eq, modify_node,
    placement_now, Bool.false_eq_true, if_false]
  rw [if_neg (by simp)]
  simp only [hn]
  rfl

/-- A plant is a leaf of the forest. -/
theorem plant_shape {parent : WatchId} {scope : ScopeId} {name : Segment} {is_dir : Bool}
    {identity : Option Identity} (hp : parent ≠ m.watch_ids.next) :
    (m.plant parent scope name is_dir identity).shape =
      m.shape.plant m.watch_ids.next parent name scope := by
  rw [plant_eq _ _ _ _ hp]
  refine Shape.ext (funext fun x => ?_) (funext fun k => ?_) rfl
  · simp only [shape, get_modify, get_insert, Shape.plant_place]
    by_cases hx : x = m.watch_ids.next
    · subst hx
      rw [if_neg hp, if_pos rfl, if_pos rfl]
      refine congrArg some (Place.ext rfl rfl rfl ?_)
      simp [WatchNode.place, sprout]
    · rw [if_neg (Ne.symm hx), if_neg hx]
      by_cases hxp : x = parent
      · rw [if_pos hxp.symm, if_pos hxp, Option.map_map, Option.map_map]
        congr 1
        funext n
        exact place_insert_child _ n
      · rw [if_neg (Ne.symm hxp), if_neg hxp]
  · simp only [shape, get_insert, Shape.plant_slot]
    grind

/-! ### Holding -/

/-- Taking a source off its slot moves it and, if it arms, retires its arm. -/
theorem detach_child_eq {src parent : WatchId} {name : Segment}
    (hp : m.slot_of src = some (parent, name)) :
    ∃ stat arms f, Restats m.pending_stat stat ∧
      (∀ n, (f n).place = n.place ∧ (f n).moved_at = m.placement_clock + 1 ∧
        (f n).state = n.state ∧ (f n).is_dir = n.is_dir ∧ (f n).identity = n.identity) ∧
      m.detach_child src =
        { m with
          child_index := m.child_index.erase (parent, name)
          pending_stat := stat
          arm_attempts := arms
          placement_clock := m.placement_clock + 1
          nodes := m.nodes.modify src f } := by
  obtain ⟨stat, hr, hv⟩ := m.vacate_child_slot_eq parent name
  unfold detach_child
  simp only [hp, hv]
  split
  · refine ⟨stat, ⟨m.arm_attempts.next.succ⟩, fun n => { n with
      moved_at := m.placement_clock + 1
      attempt := m.arm_attempts.next
      placement := m.placement_clock + 1 }, hr, fun n => ⟨rfl, rfl, rfl, rfl, rfl⟩, ?_⟩
    simp only [moved_placement, retire_arm, adopt_arm, modify_node, next_arm_attempt,
      Sequence.mint, placement_now, modify_modify]
  · exact ⟨stat, m.arm_attempts, fun n => { n with moved_at := m.placement_clock + 1 }, hr,
      fun n => ⟨rfl, rfl, rfl, rfl, rfl⟩, rfl⟩

theorem take_source_eq (scope : ScopeId) {src parent : WatchId} {name : Segment}
    (hp : m.slot_of src = some (parent, name)) (hh : src ∉ m.held_sources) :
    ∃ stat arms f, Restats m.pending_stat stat ∧
      (∀ n, (f n).place = n.place ∧ (f n).moved_at = m.placement_clock + 1 ∧
        (f n).state = n.state ∧ (f n).is_dir = n.is_dir ∧ (f n).identity = n.identity) ∧
      m.take_source scope src =
        { m with
          child_index := m.child_index.erase (parent, name)
          pending_stat := stat
          arm_attempts := arms
          placement_clock := m.placement_clock + 1
          nodes := m.nodes.modify src f
          held_sources := m.held_sources.insert src
          held_by_scope := count_up m.held_by_scope scope
          coverage_work_epochs :=
            m.coverage_work_epochs.insert scope (m.coverage_work_count scope + 1) } := by
  obtain ⟨stat, arms, f, hr, hf, he⟩ := detach_child_eq hp
  refine ⟨stat, arms, f, hr, hf, ?_⟩
  unfold take_source
  rw [he]
  dsimp only
  rw [if_neg (by simpa using hh)]
  rfl

/-- A held source is one whose slot is vacated. -/
theorem take_source_shape (scope : ScopeId) {src parent : WatchId} {name : Segment}
    (hp : m.slot_of src = some (parent, name)) (hh : src ∉ m.held_sources) :
    (m.take_source scope src).shape = m.shape.vacate parent name := by
  obtain ⟨stat, arms, f, -, hf, he⟩ := take_source_eq scope hp hh
  rw [he]
  refine Shape.ext (funext fun x => ?_) (funext fun k => ?_) rfl
  · simp only [shape, get_modify, Shape.vacate_place]
    split
    · rw [Option.map_map]
      congr 1
      funext n
      exact (hf n).1
    · rfl
  · simp only [shape, get_erase, Shape.vacate_slot]
    grind

/-! ### Re-keying -/

theorem get_attached (child new_parent : WatchId) (new_name : Segment) (x : WatchId) :
    (m.attach_child child new_parent new_name).nodes[x]? =
      (m.nodes[x]?).map fun n =>
        { n with
          parent := if child = x then some new_parent else n.parent
          name := if child = x then some new_name else n.name
          children :=
            if new_parent = x then
              (if (m.nodes[child]?).bind (·.parent) = some x then n.children.erase child
                else n.children).insert child
            else if (m.nodes[child]?).bind (·.parent) = some x then n.children.erase child
            else n.children } := by
  unfold attach_child
  cases hx : m.nodes[x]? with
  | none =>
    cases ho : (m.nodes[child]?).bind (·.parent) <;> simp [modify_node, get_modify, hx]
  | some n =>
    cases ho : (m.nodes[child]?).bind (·.parent) with
    | none =>
      simp only [modify_node, get_modify, hx, Option.map_some]
      by_cases h₁ : child = x <;> by_cases h₂ : new_parent = x <;> simp [h₁, h₂]
    | some old =>
      simp only [modify_node, get_modify, hx, Option.map_some, Option.some.injEq]
      by_cases h₁ : child = x <;> by_cases h₂ : new_parent = x <;> by_cases h₃ : old = x <;>
        simp [h₁, h₂, h₃]

/-- The fields an attachment writes. -/
theorem attach_child_eq (child new_parent : WatchId) (new_name : Segment) :
    ∃ nodes, m.attach_child child new_parent new_name =
      { m with
        nodes := nodes
        child_index := m.child_index.insert (new_parent, new_name) child } := by
  unfold attach_child
  cases (m.nodes[child]?).bind (·.parent) <;> exact ⟨_, rfl⟩

/-- The fields a re-key writes. -/
theorem rekey_eq (child new_parent : WatchId) (new_name : Segment) :
    ∃ nodes, m.rekey child new_parent new_name =
      { m with
        nodes := nodes
        child_index := m.child_index.insert (new_parent, new_name) child
        placement_clock := m.placement_clock + 1 } := by
  obtain ⟨nodes, h⟩ := m.attach_child_eq child new_parent new_name
  rw [rekey, h]
  exact ⟨_, rfl⟩

theorem get_rekeyed (child new_parent : WatchId) (new_name : Segment) (x : WatchId) :
    (m.rekey child new_parent new_name).nodes[x]? =
      ((m.attach_child child new_parent new_name).nodes[x]?).map fun n =>
        { n with moved_at := if child = x then m.placement_clock + 1 else n.moved_at } := by
  have hc : (m.attach_child child new_parent new_name).placement_clock = m.placement_clock := by
    obtain ⟨nodes, h⟩ := m.attach_child_eq child new_parent new_name
    rw [h]
  simp only [rekey, moved_placement, modify_node, get_modify, hc]
  by_cases hx : child = x <;> simp [hx]

/-- Only a node's parent counts it among its children. -/
theorem child_of_parent {doomed : Set WatchId} (h : m.shape.Sound doomed) {p x : WatchId}
    {np : WatchNode} (hp : m.nodes[p]? = some np) (hx : x ∈ np.children) :
    ∃ n : WatchNode, m.nodes[x]? = some n ∧ n.parent = some p := by
  obtain ⟨q, hq, hpar⟩ := h.child_up p np.place x (place_of hp) hx
  obtain ⟨n, hn, rfl⟩ := place_eq_some.mp hq
  exact ⟨n, hn, hpar⟩

/-- Re-keying a source re-keys it in the forest. -/
theorem rekey_shape (child new_parent : WatchId) (new_name : Segment)
    (h : m.shape.Sound ∅) : (m.rekey child new_parent new_name).shape =
      m.shape.rekey child new_parent new_name := by
  refine Shape.ext (funext fun x => ?_) (funext fun k => ?_) ?_
  · simp only [shape, get_rekeyed, get_attached, Shape.rekey_place, Option.map_map]
    cases hx : m.nodes[x]? with
    | none => rfl
    | some n =>
      refine congrArg some (Place.ext ?_ ?_ rfl ?_)
      · simp [WatchNode.place, eq_comm]
      · simp [WatchNode.place, eq_comm]
      · -- a node that is not the old parent has no such child to lose
        have hc : ∀ y, y ∈ n.children → y = child →
            (m.nodes[child]?).bind (·.parent) = some x := by
          rintro y hy rfl
          obtain ⟨ny, hny, hpar⟩ := child_of_parent h hx hy
          simp [hny, hpar]
        ext y
        have hy := hc y
        have he : (x = new_parent) = (new_parent = x) := propext eq_comm
        simp only [Function.comp_apply, mem_place_children, he]
        by_cases ho : (m.nodes[child]?).bind (·.parent) = some x <;>
          by_cases hq : new_parent = x <;> simp [ho, hq, mem_place_children] <;> grind
  · obtain ⟨nodes, he⟩ := m.rekey_eq child new_parent new_name
    simp only [shape, he, get_insert, Shape.rekey_slot]
    grind
  · obtain ⟨nodes, he⟩ := m.rekey_eq child new_parent new_name
    simp only [shape, he]
    rfl

/-! ### Grafting and registering -/

/-- The root a graft puts above the registered one. -/
def stock (m : Monitor) (scope : ScopeId) : WatchNode where
  parent := none
  name := none
  scope := scope
  is_dir := true
  attempt := m.arm_attempts.next
  placement := m.placement_clock
  moved_at := NEVER_MOVED
  identity := none
  state := .arming false false
  children := ∅

/-- The Monitor `graft` attaches the old root in. -/
def stocked (m : Monitor) (scope : ScopeId) (reserved : WatchId) : Monitor :=
  { m with
    arm_attempts := ⟨m.arm_attempts.next.succ⟩
    nodes := m.nodes.insert reserved (m.stock scope) }

theorem graft_eq (scope : ScopeId) (reserved : WatchId) (last : Segment) (old_root : WatchId) :
    ∃ nodes, (m.graft scope reserved last old_root).1 =
        { m with
          arm_attempts := ⟨m.arm_attempts.next.succ⟩
          nodes := nodes
          child_index := m.child_index.insert (reserved, last) old_root
          roots := m.roots.insert scope reserved } ∧
      nodes = ((m.stocked scope reserved).attach_child old_root reserved last).nodes := by
  obtain ⟨nodes, h⟩ := (m.stocked scope reserved).attach_child_eq old_root reserved last
  have he : (m.graft scope reserved last old_root).1 =
      { (m.stocked scope reserved).attach_child old_root reserved last with
        roots := ((m.stocked scope reserved).attach_child old_root reserved last).roots.insert
          scope reserved } := by
    unfold graft insert_node
    simp only [NodeState.is_rearm, Sequence.mint, next_arm_attempt, Bool.false_eq_true, if_false]
    rw [if_neg (by simp)]
    rfl
  rw [he, h]
  exact ⟨_, rfl, rfl⟩

/-- A widen's graft is a graft of the forest. -/
theorem graft_shape {scope : ScopeId} {reserved old_root : WatchId} {last : Segment}
    (h : m.shape.Sound ∅) (hr : m.nodes[reserved]? = none) (ho : m.roots[scope]? = some old_root) :
    (m.graft scope reserved last old_root).1.shape =
      m.shape.graft reserved scope old_root last := by
  obtain ⟨nodes, he, hnodes⟩ := m.graft_eq scope reserved last old_root
  obtain ⟨q, hq, hpar, -⟩ := h.root_up scope old_root ho
  obtain ⟨no, hno, rfl⟩ := place_eq_some.mp hq
  have hne : old_root ≠ reserved := by
    rintro rfl
    simp [hr] at hno
  have hpo : ((m.stocked scope reserved).nodes[old_root]?).bind (·.parent) = none := by
    simp only [stocked, get_insert, if_neg (Ne.symm hne), hno]
    exact hpar
  rw [he, hnodes]
  refine Shape.ext (funext fun x => ?_) (funext fun k => ?_) (funext fun s => ?_)
  · simp only [shape, get_attached, hpo, Shape.graft_place, Option.map_map]
    simp only [stocked, get_insert]
    by_cases hx : x = reserved
    · subst hx
      rw [if_pos rfl, if_pos rfl]
      refine congrArg some (Place.ext ?_ ?_ rfl ?_)
      · simp [WatchNode.place, hne, stock]
      · simp [WatchNode.place, hne, stock]
      · ext y
        simp [WatchNode.place, stock]
    · rw [if_neg (Ne.symm hx), if_neg hx]
      by_cases hxo : x = old_root
      · subst hxo
        rw [if_pos rfl]
        congr 1
        funext n
        refine Place.ext ?_ ?_ rfl ?_
        · simp [WatchNode.place]
        · simp [WatchNode.place]
        · ext y
          simp [WatchNode.place, Ne.symm hx]
      · rw [if_neg hxo]
        congr 1
        funext n
        refine Place.ext ?_ ?_ rfl ?_
        · simp [WatchNode.place, Ne.symm hxo]
        · simp [WatchNode.place, Ne.symm hxo]
        · ext y
          simp [WatchNode.place, Ne.symm hx]
  · simp only [shape, get_insert, Shape.graft_slot]
    grind
  · simp only [shape, get_insert, Shape.graft_root]
    grind

/-- The fields a registration writes. -/
theorem register_eq {scope : ScopeId} (mask : Interest) (caps : Capabilities)
    (h : m.roots[scope]? = none) :
    ∃ node bridge pending work, node.parent = none ∧ node.name = none ∧ node.scope = scope ∧
      node.children = ∅ ∧ node.attempt = m.arm_attempts.next.succ ∧
      node.state = .arming true false ∧ node.moved_at = NEVER_MOVED ∧
      node.placement = m.placement_clock ∧
      (m.register_root_with_profile scope mask caps).1 =
        { m with
          watch_ids := ⟨m.watch_ids.next.succ⟩
          arm_attempts := ⟨m.arm_attempts.next.succ.succ⟩
          nodes := m.nodes.insert m.watch_ids.next node
          roots := m.roots.insert scope m.watch_ids.next
          scope_interests := m.scope_interests.insert scope mask
          scope_profiles := m.scope_profiles.insert scope caps
          bridge := bridge
          rearm_pending := pending
          coverage_work_epochs := work
          actions := m.actions ++ [.watch ⟨m.watch_ids.next, m.arm_attempts.next.succ,
            .root scope, coverage_mask mask⟩] } := by
  have hc : m.roots.contains scope = false := contains_false_iff.mpr h
  obtain ⟨b₁, pending, work, hi⟩ := insert_node_shape (m :=
    { m with
      watch_ids := ⟨m.watch_ids.next.succ⟩
      arm_attempts := ⟨m.arm_attempts.next.succ⟩
      scope_interests := m.scope_interests.insert scope mask
      scope_profiles := m.scope_profiles.insert scope caps }) m.watch_ids.next
    { parent := none, name := none, scope, is_dir := true, attempt := m.arm_attempts.next
      placement := m.placement_clock, moved_at := NEVER_MOVED, identity := none
      state := .arming true false, children := ∅ }
  obtain ⟨b₂, hb⟩ := bootstrap_shape (m :=
    { m with
      watch_ids := ⟨m.watch_ids.next.succ⟩
      arm_attempts := ⟨m.arm_attempts.next.succ⟩
      nodes := m.nodes.insert m.watch_ids.next
        { parent := none, name := none, scope, is_dir := true, attempt := m.arm_attempts.next
          placement := m.placement_clock, moved_at := NEVER_MOVED, identity := none
          state := .arming true false, children := ∅ }
      roots := m.roots.insert scope m.watch_ids.next
      scope_interests := m.scope_interests.insert scope mask
      scope_profiles := m.scope_profiles.insert scope caps
      bridge := b₁
      rearm_pending := pending
      coverage_work_epochs := work }) scope
  refine ⟨{ parent := none, name := none, scope, is_dir := true
            attempt := m.arm_attempts.next.succ, placement := m.placement_clock
            moved_at := NEVER_MOVED, identity := none, state := .arming true false
            children := ∅ }, b₂, pending, work, rfl, rfl, rfl, rfl, rfl, rfl, rfl, rfl, ?_⟩
  simp only [register_root_with_profile, hc, Bool.false_eq_true, if_false, Sequence.mint,
    next_arm_attempt, placement_now]
  rw [hi]
  dsimp only
  rw [hb, queue_watch_eq]
  simp only [modify_insert]

/-- A registration adds a root to the forest. -/
theorem register_shape {scope : ScopeId} (mask : Interest) (caps : Capabilities)
    (h : m.roots[scope]? = none) :
    (m.register_root_with_profile scope mask caps).1.shape =
      m.shape.register m.watch_ids.next scope := by
  obtain ⟨node, _, _, _, hp, hn, hs, hc, -, -, -, -, he⟩ := register_eq mask caps h
  rw [he]
  refine Shape.ext (funext fun x => ?_) rfl (funext fun s => ?_)
  · simp only [shape, get_insert, Shape.register_place]
    by_cases hx : x = m.watch_ids.next
    · subst hx
      rw [if_pos rfl, if_pos rfl]
      refine congrArg some (Place.ext hp hn hs ?_)
      simp [WatchNode.place, hc]
    · rw [if_neg (Ne.symm hx), if_neg hx]
  · simp only [shape, get_insert, Shape.register_root]
    grind

end Monitor

end Proto
