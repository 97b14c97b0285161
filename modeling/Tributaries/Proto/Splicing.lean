import Tributaries.Proto.Windows

/-! # A widen is a splice

  A widen that is served puts one node above the old root and changes
  nothing else of the old tree: every path below it grows by one name,
  and what is in flight is judged as before.  A widen or a registration
  that is refused changes nothing.
-/

open Std Collections SlotForest Forest

namespace Proto

variable {m : Monitor} {scope : ScopeId} {reserved old_root : WatchId} {name : Segment}
  {identity : Identity}

/-! ### Arms that wait for an outcome -/

namespace NodeState

/-- Whether an arm of the node is outstanding. -/
def is_arming : NodeState → Bool
  | .arming _ _ => true
  | _ => false

/-- Whether the outstanding arm re-proves a binding. -/
def is_reproving : NodeState → Bool
  | .arming _ reprove => reprove
  | _ => false

theorem not_reproving {state : NodeState} (h : state.is_arming = false) :
    state.is_reproving = false := by
  cases state with
  | arming rearm reprove => cases h
  | live => rfl
  | enumerating => rfl

end NodeState

/-- The arm a re-address queues for a node in a slot. -/
def Monitor.slot_arm (m : Monitor) (watch parent : WatchId) (name : Segment) (scope : ScopeId) :
    Action :=
  .watch ⟨watch, m.arm_attempts.next, .child parent name,
    Monitor.coverage_mask (m.scope_interest scope)⟩

/-- A re-address of a node in a slot, field by field. -/
theorem readdress_spelled {x parent : WatchId} {n : WatchNode} (hn : m.nodes[x]? = some n)
    (hp : n.parent = some parent) (hname : n.name = some name) :
    m.readdress_outstanding_arm x =
      if n.state.is_arming then
        { m with
          arm_attempts := ⟨m.arm_attempts.next.succ⟩
          nodes := m.nodes.modify x fun n =>
            { n with attempt := m.arm_attempts.next, placement := m.placement_clock }
          actions := m.actions ++ [m.slot_arm x parent name n.scope]
          reprove_stamps :=
            if n.state.is_reproving then m.reprove_stamps.insert x (m.loss_gen n.scope)
            else m.reprove_stamps }
      else m := by
  unfold Monitor.readdress_outstanding_arm
  simp only [hn]
  cases hs : n.state with
  | live => rfl
  | enumerating => rfl
  | arming rearm reprove =>
    cases reprove <;>
      simp only [Monitor.queue_reinstall, Monitor.queue_slot_arm, hn, hp, hname,
        Monitor.queue_watch_eq, NodeState.is_arming, NodeState.is_reproving] <;> rfl

/-! ### What a widen leaves -/

/-- The old root under the new one: a fresh attempt if its arm was outstanding. -/
def adopted_node (m : Monitor) (reserved : WatchId) (name : Segment) (identity : Identity)
    (n : WatchNode) : WatchNode :=
  { n with
    parent := some reserved
    name := some name
    identity := some identity
    attempt := if n.state.is_arming then m.arm_attempts.next.succ else n.attempt
    placement := if n.state.is_arming then m.placement_clock else n.placement }

/-- The Monitor `w` is `m` with `reserved` put above the root `old_root` of a
    scope, whose node was `n`. -/
structure Spliced (m w : Monitor) (scope : ScopeId) (reserved old_root : WatchId) (name : Segment)
    (identity : Identity) (n : WatchNode) : Prop where
  /-- Every store that is not named here is the same. -/
  frame : w =
    { m with
      arm_attempts := w.arm_attempts
      nodes := w.nodes
      child_index := m.child_index.insert (reserved, name) old_root
      roots := m.roots.insert scope reserved
      bridge := w.bridge
      pending_adoptions := m.pending_adoptions.insert reserved ⟨name, old_root, identity⟩
      adopting_by_scope := Monitor.count_up m.adopting_by_scope scope
      coverage_work_epochs :=
        m.coverage_work_epochs.insert scope (m.coverage_work_count scope + 1)
      reprove_stamps := w.reprove_stamps
      actions := w.actions }
  /-- A bridge window closes where its scope has settled, with nothing delivered. -/
  windows : ∀ s, w.bridge[s]? = if m.rearm_settled s = true then none else m.bridge[s]?
  top : ∃ node, w.nodes[reserved]? = some node ∧ node.parent = none ∧ node.name = none ∧
    node.scope = scope ∧ node.is_dir = true ∧ node.state = .arming false false ∧
    ∀ x, x ∈ node.children ↔ x = old_root
  only : ∀ other, w.child_index[(reserved, other)]? = if other = name then some old_root else none
  adopted : w.nodes[old_root]? = some (adopted_node m reserved name identity n)
  others : ∀ x, x ≠ reserved → x ≠ old_root → w.nodes[x]? = m.nodes[x]?
  /-- The one action queued is the arm of a root whose arm was outstanding. -/
  actions : w.actions = m.actions ++ if n.state.is_arming then
    [.watch ⟨old_root, m.arm_attempts.next.succ, .child reserved name,
      Monitor.coverage_mask (m.scope_interest scope)⟩] else []
  stamps : ∀ x, (x = old_root → n.state.is_reproving = false) →
    w.reprove_stamps[x]? = m.reprove_stamps[x]?
  below : ∀ x, m.scope_of x = some scope → w.location_of x = name :: m.location_of x
  elsewhere : ∀ x s, m.scope_of x = some s → s ≠ scope → w.location_of x = m.location_of x
  /-- A result of a watch is judged by the same fence. -/
  judged : ∀ x, m.is_watched x = true → ∀ stamp,
    (w.fence_lowering x stamp).2 = (m.fence_lowering x stamp).2

/-- The nodes of a widened Monitor. -/
theorem widened_nodes (hs : m.shape.Sound ∅) {n : WatchNode} (hr : m.roots[scope]? = some old_root)
    (ho : m.nodes[old_root]? = some n) (hn : m.nodes[reserved]? = none) :
    ∃ top, top.parent = none ∧ top.name = none ∧ top.scope = scope ∧ top.is_dir = true ∧
      top.state = .arming false false ∧ top.moved_at = NEVER_MOVED ∧
      (∀ x, x ∈ top.children ↔ x = old_root) ∧
      ∃ nodes, (∀ x, nodes[x]? = if x = reserved then some top
          else if x = old_root then some (adopted_node m reserved name identity n)
          else m.nodes[x]?) ∧
        m.widened scope reserved name old_root identity =
          { m with
            arm_attempts := ⟨if n.state.is_arming then m.arm_attempts.next.succ.succ
              else m.arm_attempts.next.succ⟩
            nodes := nodes
            child_index := m.child_index.insert (reserved, name) old_root
            roots := m.roots.insert scope reserved
            reprove_stamps :=
              if n.state.is_reproving then m.reprove_stamps.insert old_root (m.loss_gen scope)
              else m.reprove_stamps
            actions := m.actions ++ if n.state.is_arming then
              [.watch ⟨old_root, m.arm_attempts.next.succ, .child reserved name,
                Monitor.coverage_mask (m.scope_interest scope)⟩] else [] } := by
  have hne : old_root ≠ reserved := by
    rintro rfl
    rw [hn] at ho
    cases ho
  obtain ⟨q, hq, hpar, hsc⟩ := hs.root_up scope old_root hr
  obtain ⟨n', hn', rfl⟩ := Monitor.place_eq_some.mp hq
  obtain rfl := Option.some.inj (ho.symm.trans hn')
  have hpar : n.parent = none := hpar
  have hsc : n.scope = scope := hsc
  obtain ⟨nodes, he, hnodes⟩ := m.graft_eq scope reserved name old_root
  -- the grafted tree, node by node
  have hold : ((m.stocked scope reserved).nodes[old_root]?).bind (·.parent) = none := by
    simp only [Monitor.stocked, get_insert, if_neg (Ne.symm hne), ho]
    exact hpar
  have hget : ∀ x, nodes[x]? = if x = reserved then
        some { m.stock scope with children := (∅ : OSet WatchId).insert old_root }
      else if x = old_root then some { n with parent := some reserved, name := some name }
      else m.nodes[x]? := by
    intro x
    rw [hnodes, Monitor.get_attached, hold]
    simp only [Monitor.stocked, get_insert]
    by_cases hx : x = reserved
    · subst hx
      simp [hne, Monitor.stock]
    · rw [if_neg (Ne.symm hx), if_neg hx]
      by_cases hx' : x = old_root
      · subst hx'
        simp [ho, Ne.symm hx]
      · rw [if_neg hx']
        simp [Ne.symm hx, Ne.symm hx']
  have hat : (m.graft scope reserved name old_root).1.nodes[old_root]? =
      some { n with parent := some reserved, name := some name } := by
    rw [he]
    dsimp only
    rw [hget, if_neg hne, if_pos rfl]
  have hre := readdress_spelled hat rfl rfl
  refine ⟨{ m.stock scope with children := (∅ : OSet WatchId).insert old_root },
    rfl, rfl, rfl, rfl, rfl, rfl, ?_, ?_⟩
  · intro x
    rw [mem_insert_iff]
    simp [eq_comm]
  · subst hsc
    unfold Monitor.widened
    rw [hre, he]
    cases harm : n.state.is_arming with
    | true =>
      refine ⟨(nodes.modify old_root fun n =>
        { n with attempt := m.arm_attempts.next.succ, placement := m.placement_clock }).modify
          old_root fun n => { n with identity := some identity }, ?_, rfl⟩
      intro x
      rw [get_modify, get_modify, hget]
      by_cases hx : x = reserved
      · rw [if_pos hx, if_pos hx, if_neg (by rintro rfl; exact hne hx),
          if_neg (by rintro rfl; exact hne hx)]
      · rw [if_neg hx, if_neg hx]
        by_cases hx' : x = old_root
        · simp [hx', adopted_node, harm]
        · rw [if_neg hx', if_neg hx', if_neg (Ne.symm hx'), if_neg (Ne.symm hx')]
    | false =>
      rw [NodeState.not_reproving harm]
      refine ⟨nodes.modify old_root fun n => { n with identity := some identity }, ?_, ?_⟩
      · intro x
        rw [get_modify, hget]
        by_cases hx : x = reserved
        · rw [if_pos hx, if_pos hx, if_neg (by rintro rfl; exact hne hx)]
        · rw [if_neg hx, if_neg hx]
          by_cases hx' : x = old_root
          · simp [hx', adopted_node, harm]
          · rw [if_neg hx', if_neg hx', if_neg (Ne.symm hx')]
      · simp only [Bool.false_eq_true, if_false, List.append_nil]
        rfl

/-! ### Paths under a graft -/

/-- A chain that ends at `c` goes on to the node put above `c`. -/
theorem chain_graft {up up' : WatchId → Option WatchId} {c r x : WatchId} {l : List WatchId}
    (h : Chain up x l) (hc : c ∈ l) (hroot : up c = none)
    (hup : ∀ y ∈ l, y ≠ c → up' y = up y) (hc' : up' c = some r) (hr : up' r = none) :
    Chain up' x (l ++ [r]) := by
  induction h with
  | @root x hx =>
    obtain rfl := List.mem_singleton.mp hc
    exact .step hc' (.root hr)
  | @step x p l hx hp ih =>
    have hne : x ≠ c := by
      rintro rfl
      rw [hroot] at hx
      cases hx
    refine .step ((hup x List.mem_cons_self hne).trans hx) ?_
    exact ih ((List.mem_cons.mp hc).resolve_left (Ne.symm hne)) fun y hy hyc =>
      hup y (List.mem_cons_of_mem _ hy) hyc

/-- A path that goes on to the new root begins with the old root's new name. -/
theorem names_graft {w : Monitor} {r x : WatchId} {l : List WatchId}
    (h : Chain m.shape.up x l) (hc : old_root ∈ l) (hroot : m.shape.up old_root = none)
    (hold : (m.nodes[old_root]?).bind (·.name) = none)
    (hnew : (w.nodes[old_root]?).bind (·.name) = some name)
    (hr : (w.nodes[r]?).bind (·.name) = none)
    (hsame : ∀ y ∈ l, y ≠ old_root → w.nodes[y]? = m.nodes[y]?) :
    w.names (l ++ [r]) = name :: m.names l := by
  induction h with
  | @root x hx =>
    obtain rfl := List.mem_singleton.mp hc
    simp [Monitor.names, hold, hnew, hr]
  | @step x p l hx hp ih =>
    have hne : x ≠ old_root := by
      rintro rfl
      rw [hroot] at hx
      cases hx
    have hl := ih ((List.mem_cons.mp hc).resolve_left (Ne.symm hne)) fun y hy hyc =>
      hsame y (List.mem_cons_of_mem _ hy) hyc
    have hx' := hsame x List.mem_cons_self hne
    unfold Monitor.names at hl ⊢
    rw [List.cons_append, List.filterMap_cons, List.filterMap_cons, hx']
    cases (m.nodes[x]?).bind (·.name) with
    | none => exact hl
    | some seg =>
      simp only [List.reverse_cons, hl]
      rfl

theorem any_congr {α : Type} {f g : α → Bool} {l : List α} (h : ∀ y ∈ l, f y = g y) :
    l.any f = l.any g := by
  induction l with
  | nil => rfl
  | cons y l ih =>
    rw [List.any_cons, List.any_cons, h y List.mem_cons_self,
      ih fun z hz => h z (List.mem_cons_of_mem _ hz)]

/-! ### The splice -/

section Splice

variable {w : Monitor} {n top : WatchNode}

/-- The Monitor `w` has the nodes and links of `m` with a root put above. -/
structure Regrown (m w : Monitor) (scope : ScopeId) (reserved old_root : WatchId) (name : Segment)
    (identity : Identity) (n top : WatchNode) : Prop where
  root : m.roots[scope]? = some old_root
  old : m.nodes[old_root]? = some n
  unused : m.nodes[reserved]? = none
  top_parent : top.parent = none
  top_name : top.name = none
  top_scope : top.scope = scope
  top_moved : top.moved_at = NEVER_MOVED
  top_children : ∀ x, x ∈ top.children ↔ x = old_root
  nodes : ∀ x, w.nodes[x]? = if x = reserved then some top
    else if x = old_root then some (adopted_node m reserved name identity n) else m.nodes[x]?
  slots : w.child_index = m.child_index.insert (reserved, name) old_root
  roots : w.roots = m.roots.insert scope reserved
  held : w.held_sources = m.held_sources

namespace Regrown

theorem ne (h : Regrown m w scope reserved old_root name identity n top) : old_root ≠ reserved := by
  rintro rfl
  have := h.old
  rw [h.unused] at this
  cases this

theorem other (h : Regrown m w scope reserved old_root name identity n top) {x : WatchId}
    (hr : x ≠ reserved) (ho : x ≠ old_root) : w.nodes[x]? = m.nodes[x]? := by
  rw [h.nodes, if_neg hr, if_neg ho]

theorem at_top (h : Regrown m w scope reserved old_root name identity n top) :
    w.nodes[reserved]? = some top := by
  rw [h.nodes, if_pos rfl]

theorem at_old (h : Regrown m w scope reserved old_root name identity n top) :
    w.nodes[old_root]? = some (adopted_node m reserved name identity n) := by
  rw [h.nodes, if_neg h.ne, if_pos rfl]

/-- The tree of `w` is a graft of the tree of `m`, so it is sound. -/
theorem sound (h : Regrown m w scope reserved old_root name identity n top)
    (hs : m.shape.Sound ∅) : w.shape.Sound ∅ := by
  have hshape : w.shape = m.shape.graft reserved scope old_root name := by
    refine Shape.ext (funext fun x => ?_) (funext fun k => ?_) (funext fun s => ?_)
    · rw [Shape.graft_place]
      change (w.nodes[x]?).map WatchNode.place = _
      rw [h.nodes]
      by_cases hx : x = reserved
      · rw [if_pos hx, if_pos hx, Option.map_some]
        refine congrArg some (Place.ext h.top_parent h.top_name h.top_scope ?_)
        ext y
        exact (h.top_children y).trans Iff.rfl
      · rw [if_neg hx, if_neg hx]
        by_cases hx' : x = old_root
        · subst hx'
          rw [if_pos rfl, if_pos rfl, Monitor.place_of h.old]
          rfl
        · rw [if_neg hx', if_neg hx']
          rfl
    · simp only [Monitor.shape, h.slots, get_insert, Shape.graft_slot]
      grind
    · simp only [Monitor.shape, h.roots, get_insert, Shape.graft_root]
      grind
  rw [hshape]
  exact hs.graft (Monitor.place_none.mpr h.unused) h.root

/-- The chain of a watch of the scope goes on to the new root. -/
theorem chain (h : Regrown m w scope reserved old_root name identity n top)
    (hs : m.shape.Sound ∅) {x : WatchId} (hx : m.scope_of x = some scope) :
    ∃ l, Chain m.shape.up x l ∧ Chain w.shape.up x (l ++ [reserved]) ∧ old_root ∈ l ∧
      m.shape.up old_root = none ∧ ∀ y ∈ l, y ≠ reserved := by
  obtain ⟨nx, hnx, hsc⟩ := Monitor.scope_of_eq_some.mp hx
  obtain ⟨l, hl, -, hall, r, hr, hroot⟩ := Monitor.chain_of hs hnx
  rw [hsc, h.root] at hroot
  obtain rfl := Option.some.inj hroot
  obtain ⟨q, hq, hpar, -⟩ := hs.root_up scope old_root h.root
  obtain ⟨n', hn', rfl⟩ := Monitor.place_eq_some.mp hq
  have hup : m.shape.up old_root = none := (Monitor.up_live hn').trans hpar
  have hne : ∀ y ∈ l, y ≠ reserved := by
    rintro y hy rfl
    obtain ⟨ny, hny, -⟩ := hall y hy
    rw [h.unused] at hny
    cases hny
  refine ⟨l, hl, chain_graft hl hr hup ?_ (Monitor.up_live h.at_old)
    ((Monitor.up_live h.at_top).trans h.top_parent), hr, hup, hne⟩
  intro y hy hyo
  rw [Monitor.up_of, Monitor.up_of, h.other (hne y hy) hyo]

/-- The chain of a watch of another scope is the same, over the same nodes. -/
theorem chain_elsewhere (h : Regrown m w scope reserved old_root name identity n top)
    (hs : m.shape.Sound ∅) {x : WatchId} {s : ScopeId} (hx : m.scope_of x = some s)
    (hne : s ≠ scope) :
    ∃ l, Chain m.shape.up x l ∧ Chain w.shape.up x l ∧ ∀ y ∈ l, w.nodes[y]? = m.nodes[y]? := by
  obtain ⟨nx, hnx, hsc⟩ := Monitor.scope_of_eq_some.mp hx
  obtain ⟨l, hl, -, hall, -⟩ := Monitor.chain_of hs hnx
  obtain ⟨q, hq, -, hsco⟩ := hs.root_up scope old_root h.root
  obtain ⟨n', hn', rfl⟩ := Monitor.place_eq_some.mp hq
  have hsame : ∀ y ∈ l, w.nodes[y]? = m.nodes[y]? := by
    intro y hy
    obtain ⟨ny, hny, hscy⟩ := hall y hy
    apply h.other
    · rintro rfl
      rw [h.unused] at hny
      cases hny
    · rintro rfl
      obtain rfl := Option.some.inj (hn'.symm.trans hny)
      have hsco : n'.scope = scope := hsco
      rw [hscy, hsc] at hsco
      exact hne hsco
  refine ⟨l, hl, hl.congr fun y hy => ?_, hsame⟩
  rw [Monitor.up_of, Monitor.up_of, hsame y hy]

theorem live (h : Regrown m w scope reserved old_root name identity n top) {x : WatchId}
    {nx : WatchNode} (hx : m.nodes[x]? = some nx) : ∃ nw, w.nodes[x]? = some nw ∧
      nw.moved_at = nx.moved_at := by
  by_cases ho : x = old_root
  · subst ho
    obtain rfl := Option.some.inj (h.old.symm.trans hx)
    exact ⟨_, h.at_old, rfl⟩
  · refine ⟨nx, ?_, rfl⟩
    rw [h.other _ ho]
    · exact hx
    · rintro rfl
      rw [h.unused] at hx
      cases hx

/-- Every path of the scope grows by the old root's new name. -/
theorem below (h : Regrown m w scope reserved old_root name identity n top)
    (hs : m.shape.Sound ∅) {x : WatchId} (hx : m.scope_of x = some scope) :
    w.location_of x = name :: m.location_of x := by
  obtain ⟨nx, hnx, -⟩ := Monitor.scope_of_eq_some.mp hx
  obtain ⟨nw, hnw, -⟩ := h.live hnx
  obtain ⟨l, hl, hlw, hr, hup, hne⟩ := h.chain hs hx
  rw [Monitor.location_of_eq hs hl hnx, Monitor.location_of_eq (h.sound hs) hlw hnw]
  have hname : n.name = none := by
    have := (hs.named old_root _ (Monitor.place_of h.old)).mp
    exact this ((Monitor.up_live h.old).symm.trans hup)
  refine names_graft hl hr hup ?_ ?_ ?_ fun y hy hyo => h.other (hne y hy) hyo
  · rw [h.old]
    exact hname
  · rw [h.at_old]
    rfl
  · rw [h.at_top]
    exact h.top_name

theorem elsewhere (h : Regrown m w scope reserved old_root name identity n top)
    (hs : m.shape.Sound ∅) {x : WatchId} {s : ScopeId} (hx : m.scope_of x = some s)
    (hne : s ≠ scope) : w.location_of x = m.location_of x := by
  obtain ⟨nx, hnx, -⟩ := Monitor.scope_of_eq_some.mp hx
  obtain ⟨nw, hnw, -⟩ := h.live hnx
  obtain ⟨l, hl, hlw, hsame⟩ := h.chain_elsewhere hs hx hne
  rw [Monitor.location_of_eq hs hl hnx, Monitor.location_of_eq (h.sound hs) hlw hnw]
  unfold Monitor.names
  rw [List.filterMap_congr fun y hy => by rw [hsame y hy]]

/-- The fence reads holds and moves along the chain; the new root is neither
    held nor moved. -/
theorem judged (h : Regrown m w scope reserved old_root name identity n top)
    (hs : m.shape.Sound ∅) (hheld : ∀ x ∈ m.held_sources, m.nodes[x]? ≠ none) {x : WatchId}
    (hx : m.is_watched x = true) (stamp : Nat) :
    (w.fence_lowering x stamp).2 = (m.fence_lowering x stamp).2 := by
  obtain ⟨nx, hnx⟩ := contains_iff.mp hx
  obtain ⟨nw, hnw, -⟩ := h.live hnx
  have hmoved : ∀ y, y ≠ reserved → w.moved_after stamp y = m.moved_after stamp y := by
    intro y hy
    unfold Monitor.moved_after
    rw [h.nodes, if_neg hy]
    by_cases ho : y = old_root
    · subst ho
      rw [if_pos rfl, h.old]
      rfl
    · rw [if_neg ho]
  have hboth : w.in_held_subtree x = m.in_held_subtree x ∧
      w.placement_moved_since x stamp = m.placement_moved_since x stamp := by
    by_cases hsc : nx.scope = scope
    · obtain ⟨l, hl, hlw, -, -, hne⟩ := h.chain hs ((scope_of_node hnx).trans (congrArg some hsc))
      rw [Monitor.in_held_subtree_eq hs hl, Monitor.in_held_subtree_eq (h.sound hs) hlw, h.held,
        Monitor.placement_moved_since_eq hs hl hnx,
        Monitor.placement_moved_since_eq (h.sound hs) hlw hnw, List.find?_append, List.any_append]
      have hno : m.held_sources.contains reserved = false := by
        by_contra hc
        exact hheld reserved (by simpa using hc) h.unused
      have hstill : w.moved_after stamp reserved = false := by
        unfold Monitor.moved_after
        rw [h.at_top]
        simp [h.top_moved, NEVER_MOVED]
      constructor
      · simp [hno]
      · rw [List.any_cons, List.any_nil, hstill, Bool.or_false, Bool.or_false]
        exact any_congr fun y hy => hmoved y (hne y hy)
    · obtain ⟨l, hl, hlw, hsame⟩ := h.chain_elsewhere hs (scope_of_node hnx) hsc
      rw [Monitor.in_held_subtree_eq hs hl, Monitor.in_held_subtree_eq (h.sound hs) hlw, h.held,
        Monitor.placement_moved_since_eq hs hl hnx,
        Monitor.placement_moved_since_eq (h.sound hs) hlw hnw]
      refine ⟨rfl, any_congr fun y hy => ?_⟩
      unfold Monitor.moved_after
      rw [hsame y hy]
  have hfence : ∀ m : Monitor, (m.fence_lowering x stamp).2 =
      ⟨m.in_held_subtree x, m.placement_moved_since x stamp⟩ := by
    intro m
    unfold Monitor.fence_lowering
    dsimp only
    cases m.in_held_subtree x with
    | none => rfl
    | some source =>
      refine congrArg (Lowering.mk _) ?_
      exact @Monitor.placement_moved_congr m (m.book_hold source) rfl x stamp
  rw [hfence, hfence, hboth.1, hboth.2]

end Regrown

/-- A widen that is served is a splice. -/
theorem Flushed.spliced (h : Flushed m) (hs : m.shape.Sound ∅)
    (hheld : ∀ x ∈ m.held_sources, m.nodes[x]? ≠ none) (hr : m.roots[scope]? = some old_root)
    (ho : m.nodes[old_root]? = some n) (hd : m.scope_descends scope = true)
    (hn : m.nodes[reserved]? = none) :
    Spliced m (m.widen_root scope reserved [name] (some identity)).1 scope reserved old_root name
      identity n := by
  obtain ⟨top, h₁, h₂, h₃, h₄, h₅, h₆, h₇, nodes, hnodes, hw⟩ :=
    @widened_nodes m scope reserved old_root name identity hs n hr ho hn
  have hflush : Flushed ((m.widened scope reserved name old_root identity).record_adoption_marker
      reserved name old_root identity scope) := by
    rw [hw]
    exact h.congr rfl rfl
  obtain ⟨bridge, hq, hwin⟩ := hflush.quiet
  have he := congrArg Prod.fst (@widen_eq m scope reserved old_root name identity hs hr hd hn)
  rw [hq, hw] at he
  have hgrown : Regrown m (m.widen_root scope reserved [name] (some identity)).1 scope reserved
      old_root name identity n top := by
    rw [he]
    exact ⟨hr, ho, hn, h₁, h₂, h₃, h₆, h₇, hnodes, rfl, rfl, rfl⟩
  constructor
  · rw [he]
    rfl
  · intro s
    rw [he]
    change bridge[s]? = _
    rw [hwin, hw]
    rfl
  · exact ⟨top, hgrown.at_top, h₁, h₂, h₃, h₄, h₅, h₇⟩
  · intro other
    rw [hgrown.slots, get_insert]
    by_cases hname : other = name
    · rw [if_pos (by rw [hname]), if_pos hname]
    · rw [if_neg fun heq => hname (Prod.mk.inj heq).2.symm, if_neg hname]
      exact no_slot_below hs hn other
  · exact hgrown.at_old
  · intro x hx hx'
    exact hgrown.other hx hx'
  · rw [he]
    rfl
  · intro x hx
    rw [he]
    change (if n.state.is_reproving then m.reprove_stamps.insert old_root (m.loss_gen scope)
      else m.reprove_stamps)[x]? = _
    split
    · rename_i hrep
      rw [get_insert, if_neg]
      rintro rfl
      rw [hx rfl] at hrep
      cases hrep
    · rfl
  · intro x hx
    exact hgrown.below hs hx
  · intro x s hx hne
    exact hgrown.elsewhere hs hx hne
  · intro x hx stamp
    exact hgrown.judged hs hheld hx stamp

end Splice

/-! ### Refusals -/

/-- A refused registration changes nothing. -/
theorem register_refused {mask : Interest} {caps : Capabilities}
    (h : (m.register_root_with_profile scope mask caps).2 = none) :
    (m.register_root_with_profile scope mask caps).1 = m := by
  unfold Monitor.register_root_with_profile at h ⊢
  split
  · rfl
  · rename_i hc
    rw [if_neg hc] at h
    cases h

/-- A widen is refused, and changes nothing, or it is served: then its scope has
    a root and descends, and its reserved id names no node. -/
theorem widen_cases (scope : ScopeId) (reserved : WatchId) (chain : List Segment)
    (old_identity : Option Identity) :
    m.widen_root scope reserved chain old_identity = (m, none) ∨
      (m.widen_root scope reserved chain old_identity).2 ≠ none ∧
        ∃ old_root name identity, chain = [name] ∧ old_identity = some identity ∧
          m.roots[scope]? = some old_root ∧ m.scope_descends scope = true ∧
          m.nodes[reserved]? = none := by
  cases hr : m.roots[scope]? with
  | none =>
    left
    unfold Monitor.widen_root
    rw [hr]
  | some old_root =>
    match chain, old_identity with
    | [], _ =>
      left
      unfold Monitor.widen_root
      rw [hr]
    | _ :: _ :: _, _ =>
      left
      unfold Monitor.widen_root
      rw [hr]
    | [name], none =>
      left
      unfold Monitor.widen_root
      rw [hr]
    | [name], some identity =>
      unfold Monitor.widen_root
      rw [hr]
      dsimp only
      split
      · exact .inl rfl
      · rename_i hd
        split
        · exact .inl rfl
        · rename_i hn
          right
          refine ⟨nofun, old_root, name, identity, rfl, rfl, rfl, by simpa using hd, ?_⟩
          rw [Bool.not_eq_true] at hn
          exact contains_false_iff.mp hn

/-! ### In every run -/

/-- While the marker of a widen stands, its scope is not settled. -/
theorem Session.Kept.marked {s : Session} {x : WatchId} (h : Session.Kept false s)
    (ha : Anchored (s.moment false) x scope) (hm : s.m.pending_adoptions[x]? ≠ none) :
    s.m.coverage_settled scope = false := by
  by_contra hc
  have hset : s.m.coverage_settled scope = true := by simpa using hc
  rw [settled_iff h.tallied, Set.eq_empty_iff_forall_notMem] at hset
  apply hset (.marker x)
  refine ⟨hm, ?_⟩
  obtain ⟨marker, hmk⟩ := Option.ne_none_iff_exists'.mp hm
  obtain ⟨n, hn⟩ := Option.ne_none_iff_exists'.mp (h.valid.adopted.live x marker hmk)
  exact Monitor.scope_of_eq_some.mpr ⟨n, hn, ha.scope n hn⟩

/-- A widen is a pure splice, a refused one is a no-op, and the scope is not
    settled before the marker of the splice is released. -/
theorem widen_is_splice {caps : Capabilities} {inputs : List Input}
    (hd : (Session.new caps).Drives false inputs) :
    let s := (Session.new caps).run inputs
    (∀ scope mask profile, (s.m.register_root_with_profile scope mask profile).2 = none →
      (s.m.register_root_with_profile scope mask profile).1 = s.m) ∧
    (∀ scope reserved chain old_identity,
      (s.m.widen_root scope reserved chain old_identity).2 = none →
        (s.m.widen_root scope reserved chain old_identity).1 = s.m) ∧
    ∀ scope reserved name identity armed,
      (s.m.widen_root scope reserved [name] (some identity)).2 = some armed →
      (∃ old_root n, s.m.roots[scope]? = some old_root ∧ s.m.nodes[old_root]? = some n ∧
        Spliced s.m (s.m.widen_root scope reserved [name] (some identity)).1 scope reserved old_root
          name identity n) ∧
      (reserved ∈ s.spare → ∀ rest,
        (s.step (.widen_root scope reserved [name] (some identity))).Drives false rest →
        let s' := (s.step (.widen_root scope reserved [name] (some identity))).run rest
        s'.m.pending_adoptions[reserved]? ≠ none → s'.m.coverage_settled scope = false) := by
  intro s
  have hk : Session.Kept false s := (Session.kept_new caps).run hd
  have hf : Flushed s.m := run_flushed hd
  have hsound := hk.valid.toInv.sound rfl
  have hheld : ∀ x ∈ s.m.held_sources, s.m.nodes[x]? ≠ none := by
    intro x hx hn
    obtain ⟨⟨p, seg⟩, hslot, -⟩ := hk.valid.holds.held_off x hx
    obtain ⟨n, hn', -⟩ := Monitor.slot_of_eq_some.mp hslot
    exact absurd (hn.symm.trans hn') nofun
  refine ⟨fun scope mask profile h => register_refused h, fun scope reserved chain old h => ?_, ?_⟩
  · rcases widen_cases (m := s.m) scope reserved chain old with he | ⟨hne, -⟩
    · rw [he]
    · exact absurd h hne
  · intro scope reserved name identity armed harm
    rcases widen_cases (m := s.m) scope reserved [name] (some identity) with
      he | ⟨-, old_root, name', identity', hname, hid, hr, hdesc, hn⟩
    · rw [he] at harm
      cases harm
    obtain rfl : name = name' := by simpa using hname
    obtain rfl : identity = identity' := by simpa using hid
    obtain ⟨q, hq, -⟩ := hsound.root_up scope old_root hr
    obtain ⟨n, ho, -⟩ := Monitor.place_eq_some.mp hq
    have hspliced : Spliced s.m _ scope reserved old_root name identity n :=
      hf.spliced hsound hheld hr ho hdesc hn
    refine ⟨⟨old_root, n, hr, ho, hspliced⟩, fun hspare rest hrest => ?_⟩
    intro s' hmark
    have hk' : Session.Kept false (s.step (.widen_root scope reserved [name] (some identity))) :=
      hk.step hspare
    have hanch : Anchored ((s.step (.widen_root scope reserved [name] (some identity))).moment
        false) reserved scope := by
      obtain ⟨top, htop, -, -, hsc, -⟩ := hspliced.top
      refine hk'.valid.toInv.anchored (Monitor.scope_of_eq_some.mpr ⟨top, ?_, hsc⟩)
      exact htop
    obtain ⟨-, hanch'⟩ := Session.run_keeps (P := fun c => Anchored c reserved scope)
      (fun _ _ hv ha e => e.anchored hv.toInv ha)
      (fun _ _ _ _ ha => ⟨ha.minted, ha.used, ha.scope⟩) hk'.valid hanch hrest
    exact (hk'.run hrest).marked hanch' hmark

/-- A root awaiting its first arm, with a placement read before another scope's
    rebind, and an id reserved for a widen. -/
def overtaken : List Input :=
  [.register_root ⟨1, Nat.one_pos⟩ Interest.all, .register_root ⟨2, Nat.two_pos⟩ Interest.all,
    .rebind_root ⟨2, Nat.two_pos⟩, .reserve_watch_id]

theorem overtaken_drives : (Session.new ⟨false, false⟩).Drives false overtaken :=
  ⟨trivial, trivial, trivial, trivial, trivial⟩

/-- The widen of an arming root is a splice. -/
theorem overtaken_is_splice :
    ∃ old_root n, Spliced ((Session.new ⟨false, false⟩).run overtaken).m
      (((Session.new ⟨false, false⟩).run overtaken).m.widen_root ⟨1, Nat.one_pos⟩
        ⟨3, by decide⟩ ["old"] (some ⟨7, by decide⟩)).1
      ⟨1, Nat.one_pos⟩ ⟨3, by decide⟩ old_root "old" ⟨7, by decide⟩ n := by
  have h := (widen_is_splice overtaken_drives).2.2 ⟨1, Nat.one_pos⟩ ⟨3, by decide⟩ "old"
    ⟨7, by decide⟩ (⟨3, by decide⟩, ⟨6, by decide⟩) (by decide +kernel)
  obtain ⟨old_root, n, -, -, hs⟩ := h.1
  exact ⟨old_root, n, hs⟩

/-- The fresh arm of an arming root takes a placement reading of its own, and the
    marker advances the scope's coverage-work epoch. -/
theorem overtaken_readings :
    let m := ((Session.new ⟨false, false⟩).run overtaken).m
    let w := m.widen_root ⟨1, Nat.one_pos⟩ ⟨3, by decide⟩ ["old"] (some ⟨7, by decide⟩)
    w.2.isSome = true ∧
      (m.nodes[(⟨1, Nat.one_pos⟩ : WatchId)]?).map (·.placement) = some 0 ∧
      (w.1.nodes[(⟨1, Nat.one_pos⟩ : WatchId)]?).map (·.placement) = some 1 ∧
      m.coverage_work_epoch ⟨1, Nat.one_pos⟩ = 1 ∧ w.1.coverage_work_epoch ⟨1, Nat.one_pos⟩ = 2 := by
  decide +kernel

end Proto
