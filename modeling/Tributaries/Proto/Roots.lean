import Tributaries.Proto.Signals

/-! # Roots as paths of effects

  A root is registered, torn down, rebound in place, or widened by a new
  root above it.
-/

open Std Collections SlotForest Forest

namespace Proto

variable {m m' : Monitor} {g : Ghost}

/-! ### Registration -/

theorem register_trace {scope : ScopeId} {mask : Interest} {caps : Capabilities}
    (hw : g.walk = none) (hb : g.start = m) :
    Trace ⟨m, g⟩ ⟨(m.register_root_with_profile scope mask caps).1, g⟩ := by
  cases hr : m.roots[scope]? with
  | none => exact (Effect.edit (.register hw hr (hb ▸ hr))).trace
  | some root =>
    unfold Monitor.register_root_with_profile
    rw [if_pos (contains_iff.mpr ⟨root, hr⟩)]

/-- A scope whose root has no children and no marker has no marker at all. -/
theorem unadopted_of_root (h : Inv ⟨m, g⟩) (hw : g.walk = none) {scope : ScopeId}
    (hb : ∀ root node, m.roots[scope]? = some root → m.nodes[root]? = some node →
      node.children = ∅ ∧ m.pending_adoptions[root]? = none) : Unadopted m scope := by
  intro x node hn hs
  obtain ⟨l, hl, -, hall, r, hr, hroot⟩ := Monitor.chain_of (h.sound hw) hn
  rw [hs] at hroot
  obtain ⟨nr, hnr, -⟩ := hall r hr
  obtain ⟨hc, hm⟩ := hb r nr hroot hnr
  rcases eq_or_ne x r with rfl | hne
  · exact hm
  · -- the last link below the root would be one of its children
    obtain ⟨y, hy, hup⟩ := hl.child_link hr hne
    obtain ⟨ny, hny, -⟩ := hall y hy
    rw [Monitor.up_live hny] at hup
    obtain ⟨q, hq, -, hmem⟩ :=
      ((h.sound hw).linked y _ r (Monitor.place_of hny) hup).resolve_right (by simp)
    obtain ⟨nr', hnr', rfl⟩ := Monitor.place_eq_some.mp hq
    obtain rfl := Option.some.inj (hnr.symm.trans hnr')
    have : y ∈ nr.children := hmem
    rw [hc] at this
    simp at this

/-! ### Teardown -/

theorem unregister_trace {scope : ScopeId} (h : Valid ⟨m, g⟩) (hw : g.walk = none)
    (hb : g.start = m) :
    Trace ⟨m, g⟩ ⟨m.unregister_root scope, g⟩ := by
  unfold Monitor.unregister_root
  dsimp only
  cases hr : m.roots[scope]? with
  | none => exact settle_bridges_calm.trace
  | some root =>
    have e : Effect ⟨m, g⟩ ⟨{ m with roots := m.roots.erase scope },
        { g with walk := some (m.open_walk root .teardown) }⟩ := .edit (.uproot hw hr)
    obtain ⟨ht, hp, -⟩ := drop_opened_trace (m := { m with roots := m.roots.erase scope }) root
      .teardown hw
    have h₁ : Trace ⟨m, g⟩
        ⟨(Monitor.drop_subtree { m with roots := m.roots.erase scope } root .teardown).1, g⟩ :=
      .head e ht
    have hgone : (Monitor.drop_subtree { m with roots := m.roots.erase scope } root
        .teardown).1.roots[scope]? = none := by
      cases hs : (Monitor.drop_subtree { m with roots := m.roots.erase scope } root
          .teardown).1.roots[scope]? with
      | none => rfl
      | some r =>
        have := hp.roots scope r hs
        simp at this
    dsimp only
    generalize (Monitor.drop_subtree { m with roots := m.roots.erase scope } root .teardown).1 = m₁
      at h₁ hgone ⊢
    have hi := Trace.inv h.toInv h₁
    have h₂ := (h₁.tail (.purge fun src _ => scope_empty hi hw hgone src)).tail
      (.forget_scope hgone (by simp [hb, hr]))
    exact (h₂.tail (.forget_registration hgone)).trans settle_bridges_calm.trace

theorem drop_watch_trace {watch : WatchId} (hw : g.walk = none) :
    Trace ⟨m, g⟩ ⟨(m.drop_watch_subtree watch).1, g⟩ := by
  unfold Monitor.drop_watch_subtree
  split
  · split
    · exact (drop_trace watch .unsubscribedPrune hw).trans settle_bridges_calm.trace
    · exact settle_bridges_calm.trace
  · exact settle_bridges_calm.trace

/-! ### Rebinding -/

/-- Drops one after the other only take away, and their roots are dead. -/
theorem drop_each_trace (mode : DeficitDischarge) (hw : g.walk = none) (l : List WatchId) :
    ∀ {m : Monitor}, Trace ⟨m, g⟩ ⟨l.foldl (fun m child => (m.drop_subtree child mode).1) m, g⟩ ∧
      Pruned m (l.foldl (fun m child => (m.drop_subtree child mode).1) m) ∧
      ∀ x ∈ l, (l.foldl (fun m child => (m.drop_subtree child mode).1) m).nodes[x]? = none := by
  induction l with
  | nil => exact fun {m} => ⟨.refl, .refl m, by simp⟩
  | cons a l ih =>
    intro m
    obtain ⟨ht, hp, hd⟩ := drop_subtree_trace (m := m) a mode hw
    obtain ⟨ht', hp', hd'⟩ := ih (m := (m.drop_subtree a mode).1)
    refine ⟨ht.trans ht', hp.trans hp', fun x hx => ?_⟩
    rcases List.mem_cons.mp hx with rfl | hx
    · exact hp'.dead hd
    · exact hd' x hx

theorem mem_children_of {root x : WatchId} {node : WatchNode} (hn : m.nodes[root]? = some node)
    (hx : x ∈ node.children) : x ∈ m.children_of root := by
  unfold Monitor.children_of
  rw [hn]
  exact ExtTreeSet.mem_toList.mpr hx

/-- Once its children are dropped, the root is the only watch of its scope. -/
theorem childless_scope (h : Inv ⟨m, g⟩) (hw : g.walk = none) {scope : ScopeId} {root : WatchId}
    (hr : m.roots[scope]? = some root)
    (hc : ∀ node, m.nodes[root]? = some node → ∀ x ∈ node.children, m.nodes[x]? = none)
    {x : WatchId} (hx : m.scope_of x = some scope) : x = root := by
  obtain ⟨n, hn, hs⟩ := Monitor.scope_of_eq_some.mp hx
  obtain ⟨l, hl, -, hall, r, hmem, hroot⟩ := Monitor.chain_of (h.sound hw) hn
  rw [hs, hr, Option.some.injEq] at hroot
  subst hroot
  by_contra hne
  obtain ⟨y, hy, hup⟩ := hl.child_link hmem hne
  obtain ⟨ny, hny, -⟩ := hall y hy
  rw [Monitor.up_live hny] at hup
  obtain ⟨q, hq, -, hin⟩ :=
    ((h.sound hw).linked y _ root (Monitor.place_of hny) hup).resolve_right (by simp)
  obtain ⟨nr, hnr, rfl⟩ := Monitor.place_eq_some.mp hq
  have := hc nr hnr y hin
  rw [hny] at this
  cases this

theorem rebind_trace {scope : ScopeId} (h : Valid ⟨m, g⟩) (hw : g.walk = none)
    (hans : g.answer = none) (ho : g.owed = none) (hc : g.call = some (.rebind_root scope)) :
    Trace ⟨m, g⟩ ⟨(m.rebind_root scope).1,
      { g with out := (m.rebind_root scope).2.toList ++ g.out }⟩ := by
  unfold Monitor.rebind_root
  cases hr : m.roots[scope]? with
  | none => exact .refl
  | some root =>
    dsimp only
    split
    · exact .refl
    · obtain ⟨q, hq, hpar, hsc⟩ := (h.sound hw).root_up scope root hr
      obtain ⟨node, hn, rfl⟩ := Monitor.place_eq_some.mp hq
      have e₁ : Effect ⟨m, g⟩ ⟨m.moved_placement root, g⟩ := .move_root hr
      have hroot₁ : (m.moved_placement root).roots[scope]? = some root := hr
      have hn₁ : (m.moved_placement root).nodes[root]? =
          some { node with moved_at := m.placement_clock + 1 } := by
        simp only [Monitor.moved_placement, Monitor.modify_node, get_modify, if_true, hn,
          Option.map_some]
      generalize m.moved_placement root = m₁ at e₁ hroot₁ hn₁ ⊢
      have h₁ := e₁.trace
      obtain ⟨ht, hp, hd⟩ := drop_each_trace .teardown (g := g) hw (m₁.children_of root)
        (m := m₁)
      generalize (m₁.children_of root).foldl
        (fun m child => (m.drop_subtree child .teardown).1) m₁ = m₂ at ht hp hd ⊢
      have h₂ := h₁.trans ht
      have hv₂ := Trace.valid h h₂
      -- the root is the only watch the scope can have left, and no hold is a root
      have hpar₂ : ∀ n, m₂.nodes[root]? = some n → n.parent = none := by
        intro n hn₂
        obtain ⟨n₁, hn', hp', -⟩ := hp.node_back hn₂
        obtain rfl := Option.some.inj (hn₁.symm.trans hn')
        exact hp'.trans hpar
      have hfree : ∀ src ∈ m₂.held_sources, m₂.scope_of src ≠ some scope := by
        intro src hsrc hsc
        cases hr₂ : m₂.roots[scope]? with
        | none => exact scope_empty hv₂.toInv hw hr₂ src hsc
        | some r =>
          have hrr := hp.roots scope r hr₂
          obtain rfl := Option.some.inj (hrr.symm.trans hroot₁)
          have hkids : ∀ n, m₂.nodes[r]? = some n → ∀ x ∈ n.children, m₂.nodes[x]? = none := by
            intro n hn₂ x hx
            obtain ⟨n₁, hn', -, -, -, hch⟩ := hp.node_back hn₂
            exact hd x (mem_children_of hn' (hch x hx))
          obtain rfl := childless_scope hv₂.toInv hw hr₂ hkids hsc
          obtain ⟨⟨p, name⟩, hslot, -⟩ := hv₂.holds.held_off src hsrc
          obtain ⟨n, hn₂, hpn, -⟩ := Monitor.slot_of_eq_some.mp hslot
          rw [hpar₂ n hn₂] at hpn
          cases hpn
      have h₄ := (h₂.tail (.purge hfree)).tail (.forget_book hc)
      have hanch : Anchored ⟨m, g⟩ root scope :=
        h.toInv.anchored ((scope_of_node hn).trans (congrArg some hsc))
      have hpar₄ : ∀ n, ({ m₂.purge_scope_pending_moves scope with
          deficits := (m₂.purge_scope_pending_moves scope).deficits.erase
            scope } : Monitor).nodes[root]? = some n → n.parent = none := hpar₂
      generalize ({ m₂.purge_scope_pending_moves scope with
          deficits := (m₂.purge_scope_pending_moves scope).deficits.erase
            scope } : Monitor) = m₄ at h₄ hpar₄ ⊢
      have h₅ := h₄.tail (.reset hans ho hpar₄)
      have h₆ := h₅.trans (release_marker_trace (g := { g with owed := some root }) root
        scope .childAlreadyDropped hw (Trace.anchored h.toInv hanch h₅))
      generalize ((m₄.reset_root root).release_adoption_marker root scope
        .childAlreadyDropped).1 = m₆ at h₆ ⊢
      have h₇ := h₆.trans (settle_bridges_calm (m := m₆)).trace
      generalize m₆.settle_bridges = m₇ at h₇ ⊢
      have h₈ := h₇.tail (.adopt rfl)
      have hg : ({ g with owed := none } : Ghost) = g := by rw [← ho]
      have he : Trace ⟨m, g⟩ ⟨(m₇.adopt_arm root).1,
          { g with out := (root, (m₇.adopt_arm root).2) :: g.out }⟩ := by
        have := h₈
        dsimp only at this
        rwa [show ({ g with owed := none, out := (root, (m₇.adopt_arm root).2) :: g.out } : Ghost)
          = { g with out := (root, (m₇.adopt_arm root).2) :: g.out } by
          rw [← ho]] at this
      exact he

/-! ### Widening -/

/-- A re-address queues an arm of the watch, or changes nothing. -/
theorem readdress_eq (x : WatchId) :
    m.readdress_outstanding_arm x = m ∨ ∃ target mask stamps,
      m.readdress_outstanding_arm x =
        { m.queue_watch x target mask with reprove_stamps := stamps } := by
  unfold Monitor.readdress_outstanding_arm
  cases hn : m.nodes[x]? with
  | none => exact .inl rfl
  | some node =>
    dsimp only
    split
    · split
      · obtain ⟨target, mask, he⟩ := m.queue_reinstall_eq node.scope hn
        exact .inr ⟨target, mask, _, he⟩
      · obtain ⟨target, mask, he⟩ := m.queue_slot_arm_eq node.scope hn
        exact .inr ⟨target, mask, m.reprove_stamps, congrArg Prod.fst he⟩
    · exact .inl rfl

/-- A re-address reads no root. -/
theorem readdress_roots (roots : Map ScopeId WatchId) (x : WatchId) :
    ({ m with roots := roots } : Monitor).readdress_outstanding_arm x =
      { m.readdress_outstanding_arm x with roots := roots } := by
  unfold Monitor.readdress_outstanding_arm
  dsimp only
  cases hn : m.nodes[x]? with
  | none => rfl
  | some node =>
    dsimp only
    cases node.state with
    | arming rearm reprove =>
      cases reprove <;>
        simp only [Monitor.queue_reinstall, Monitor.queue_slot_arm, hn] <;> rfl
    | live => rfl
    | enumerating => rfl

/-- A splice onto an empty slot links the child and re-addresses its arm. -/
theorem rerooted_eq {child new_parent : WatchId} {new_name : Segment}
    (hs : m.child_watch new_parent new_name = none) (hc : m.is_watched child = true)
    (hp : m.is_watched new_parent = true) :
    (m.reparent child new_parent new_name .rerooted).1 =
      (m.attach_child child new_parent new_name).readdress_outstanding_arm child := by
  unfold Monitor.reparent
  simp only [hs, hc, hp]
  rfl

/-- No slot hangs below a watch that is not there. -/
theorem no_slot_below (hs : m.shape.Sound ∅) {p : WatchId} (hp : m.nodes[p]? = none)
    (name : Segment) : m.child_index[(p, name)]? = none := by
  cases hi : m.child_index[(p, name)]? with
  | none => rfl
  | some x =>
    obtain ⟨q, hq, hpar, -⟩ := hs.slot_up p name x hi
    obtain ⟨np, hnp, -⟩ := (hs.linked x q p hq hpar).resolve_right (by simp)
    obtain ⟨n, hn, -⟩ := Monitor.place_eq_some.mp hnp
    rw [hp] at hn
    cases hn

/-- The Monitor a widen records its marker in. -/
def Monitor.widened (m : Monitor) (scope : ScopeId) (reserved : WatchId) (last : Segment)
    (old_root : WatchId) (identity : Identity) : Monitor :=
  ((m.graft scope reserved last old_root).1.readdress_outstanding_arm old_root).modify_node old_root
    fun n => { n with identity := some identity }

/-- A widen that is served. -/
theorem widen_eq {scope : ScopeId} {reserved old_root : WatchId} {last : Segment}
    {identity : Identity} (hs : m.shape.Sound ∅) (hr : m.roots[scope]? = some old_root)
    (hd : m.scope_descends scope = true) (hn : m.nodes[reserved]? = none) :
    m.widen_root scope reserved [last] (some identity) =
      (((m.widened scope reserved last old_root identity).record_adoption_marker reserved last
        old_root identity scope).settle_bridges, some (reserved, m.arm_attempts.next)) := by
  obtain ⟨q, hq, -⟩ := hs.root_up scope old_root hr
  obtain ⟨no, hno, -⟩ := Monitor.place_eq_some.mp hq
  have hne : reserved ≠ old_root := by
    rintro rfl
    rw [hn] at hno
    cases hno
  have hins : m.next_arm_attempt.1.insert_node reserved
      { parent := none, name := none, scope := scope, is_dir := true,
        attempt := m.next_arm_attempt.2, placement := m.next_arm_attempt.1.placement_now,
        moved_at := NEVER_MOVED, identity := none, state := .arming false false, children := ∅ } =
      m.stocked scope reserved := by
    unfold Monitor.insert_node
    simp only [NodeState.is_rearm, Sequence.mint, Monitor.next_arm_attempt, Bool.false_eq_true,
      if_false]
    rw [if_neg (by simp)]
    rfl
  have hslot : (m.stocked scope reserved).child_watch reserved last = none :=
    no_slot_below hs hn last
  have hchild : (m.stocked scope reserved).is_watched old_root = true :=
    contains_iff.mpr ⟨no, by simp only [Monitor.stocked, get_insert, if_neg hne]; exact hno⟩
  have hparent : (m.stocked scope reserved).is_watched reserved = true :=
    contains_iff.mpr ⟨m.stock scope, by simp only [Monitor.stocked, get_insert, if_true]⟩
  have hgraft : (m.graft scope reserved last old_root).1 =
      { (m.stocked scope reserved).attach_child old_root reserved last with
        roots := ((m.stocked scope reserved).attach_child old_root reserved last).roots.insert
          scope reserved } := by
    rw [← hins]
    rfl
  have hw : m.widened scope reserved last old_root identity =
      { (((m.stocked scope reserved).attach_child old_root reserved
          last).readdress_outstanding_arm old_root).modify_node old_root
            fun n => { n with identity := some identity } with
        roots := ((m.stocked scope reserved).attach_child old_root reserved last).roots.insert
          scope reserved } := by
    rw [Monitor.widened, hgraft, readdress_roots]
    rfl
  unfold Monitor.widen_root
  rw [hr]
  dsimp only
  rw [if_neg (by simp [hd]), if_neg (by rw [contains_false_iff.mpr hn]; simp)]
  have hroots : (((m.stocked scope reserved).attach_child old_root reserved
      last).readdress_outstanding_arm old_root).roots =
      ((m.stocked scope reserved).attach_child old_root reserved last).roots := by
    rcases readdress_eq (m := (m.stocked scope reserved).attach_child old_root reserved last)
      old_root with h | ⟨_, _, _, h⟩
    · rw [h]
    · rw [h]
      rfl
  have hm := rerooted_eq hslot hchild hparent
  dsimp only [Monitor.next_arm_attempt, Sequence.mint] at hins ⊢
  rw [hins, hm, hw]
  dsimp only [Monitor.modify_node]
  rw [hroots]

/-- What a widen leaves at the reserved id. -/
theorem widened_root {scope : ScopeId} {reserved old_root : WatchId} (last : Segment)
    (identity : Identity) (hs : m.shape.Sound ∅) (hr : m.roots[scope]? = some old_root)
    (hn : m.nodes[reserved]? = none) :
    let w := m.widened scope reserved last old_root identity
    (∃ node, w.nodes[reserved]? = some node ∧ node.scope = scope ∧ node.is_dir = true ∧
      node.state = .arming false false) ∧
    w.child_index[(reserved, last)]? = some old_root ∧ w.pending_adoptions = m.pending_adoptions ∧
    w.scope_descends scope = m.scope_descends scope ∧ w.roots[scope]? = some reserved := by
  obtain ⟨q, hq, -⟩ := hs.root_up scope old_root hr
  obtain ⟨no, hno, -⟩ := Monitor.place_eq_some.mp hq
  have hne : reserved ≠ old_root := by
    rintro rfl
    rw [hn] at hno
    cases hno
  obtain ⟨nodes, he, hnodes⟩ := m.graft_eq scope reserved last old_root
  have hnode : ∃ node, nodes[reserved]? = some node ∧ node.scope = scope ∧ node.is_dir = true ∧
      node.state = .arming false false := by
    rw [hnodes]
    simp only [Monitor.get_attached, Monitor.stocked, get_insert, if_true]
    exact ⟨_, rfl, rfl, rfl, rfl⟩
  have hkeep : ∃ f : WatchNode → WatchNode, ∃ arm_attempts actions stamps,
      m.widened scope reserved last old_root identity =
      { (m.graft scope reserved last old_root).1 with
        arm_attempts := arm_attempts
        nodes := (m.graft scope reserved last old_root).1.nodes.modify old_root f
        actions := actions
        reprove_stamps := stamps } := by
    unfold Monitor.widened
    rcases readdress_eq (m := (m.graft scope reserved last old_root).1) old_root with
      h | ⟨target, mask, stamps, h⟩
    · rw [h]
      exact ⟨_, _, _, _, rfl⟩
    · rw [h, Monitor.queue_watch_eq]
      simp only [Monitor.modify_node, modify_modify]
      exact ⟨_, _, _, _, rfl⟩
  obtain ⟨f, _, _, _, hw⟩ := hkeep
  intro w
  have hw : w = _ := hw
  rw [hw, he]
  obtain ⟨node, hnode, h₁, h₂, h₃⟩ := hnode
  refine ⟨⟨node, ?_, h₁, h₂, h₃⟩, ?_, rfl, rfl, ?_⟩
  · simp only [get_modify, if_neg (Ne.symm hne), hnode]
  · simp only [get_insert, if_true]
  · simp only [get_insert, if_true]

theorem widen_trace {scope : ScopeId} {reserved : WatchId} {chain : List Segment}
    {old_identity : Option Identity} (h : Valid ⟨m, g⟩) (hw : g.walk = none)
    (ht : g.transit = none) (hs : reserved ∈ g.spare) :
    Trace ⟨m, g⟩ ⟨(m.widen_root scope reserved chain old_identity).1,
      { g with
        out := (m.widen_root scope reserved chain old_identity).2.toList ++ g.out
        spare := if (m.widen_root scope reserved chain old_identity).2.isSome then
          g.spare.filter (· ≠ reserved) else g.spare }⟩ := by
  have hn := h.spare.dead reserved hs
  have hsound := h.toInv.sound hw
  have still : m.widen_root scope reserved chain old_identity = (m, none) →
      Trace ⟨m, g⟩ ⟨(m.widen_root scope reserved chain old_identity).1,
        { g with
          out := (m.widen_root scope reserved chain old_identity).2.toList ++ g.out
          spare := if (m.widen_root scope reserved chain old_identity).2.isSome then
            g.spare.filter (· ≠ reserved) else g.spare }⟩ := by
    intro he
    rw [he]
    exact .refl
  cases hr : m.roots[scope]? with
  | none =>
    refine still ?_
    unfold Monitor.widen_root
    rw [hr]
  | some old_root =>
    match chain, old_identity with
    | [], _ =>
      refine still ?_
      unfold Monitor.widen_root
      rw [hr]
    | _ :: _ :: _, _ =>
      refine still ?_
      unfold Monitor.widen_root
      rw [hr]
    | [last], none =>
      refine still ?_
      unfold Monitor.widen_root
      rw [hr]
    | [last], some identity =>
      by_cases hd : m.scope_descends scope = true
      swap
      · refine still ?_
        unfold Monitor.widen_root
        rw [hr]
        dsimp only
        rw [if_pos (by simp [hd])]
      rw [widen_eq hsound hr hd hn]
      have e₁ : Effect ⟨m, g⟩ ⟨(m.graft scope reserved last old_root).1,
          { g with
            out := (reserved, (m.graft scope reserved last old_root).2) :: g.out
            spare := g.spare.filter (· ≠ reserved) }⟩ := .edit (.graft hw ht hr hs hd)
      have h₁ := e₁.trace.trans (readdress_calm old_root).trace
      have h₂ : Trace ⟨m, g⟩ ⟨m.widened scope reserved last old_root identity, _⟩ :=
        h₁.tail .identify
      obtain ⟨⟨node, hnode, hsc, hdir, hst⟩, hidx, hpend, hprof, -⟩ :=
        widened_root last identity hsound hr hn
      have hunmarked : m.pending_adoptions[reserved]? = none := by
        cases hm : m.pending_adoptions[reserved]? with
        | none => rfl
        | some marker => exact absurd hn (h.adopted.live reserved marker hm)
      have mark : ∀ g : Ghost, Marking ⟨m.widened scope reserved last old_root identity, g⟩
          ⟨(m.widened scope reserved last old_root identity).record_adoption_marker reserved last
            old_root identity scope, g⟩ := fun g =>
        .record_marker hnode hsc (by rw [hst]; exact ⟨rfl, NodeState.noConfusion⟩) hdir
          (hprof.trans hd) (by rw [hpend]; exact hunmarked) hidx
      exact (h₂.tail (.mark (mark _))).trans settle_bridges_calm.trace

end Proto
