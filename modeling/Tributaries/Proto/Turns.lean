import Tributaries.Proto.Markers

/-! # What an effect does to a node

  One inversion of the step relation at a single node: a node that is
  live after an effect was live before it, and the effect did one of a
  few things to it, or the effect gave birth to it.  What later modules
  say of arms, states and placements is read off this list, so that none
  of them splits the effects again.
-/

open Std Collections SlotForest

namespace Proto

variable {m m' : Monitor} {g g' : Ghost} {x : WatchId}

/-- What an effect did to a node that outlived it. -/
inductive Turn (c c' : Moment) (x : WatchId) (n : WatchNode) : WatchNode → Prop where
  /-- Only the set of its children may have changed. -/
  | keep (kids : OSet WatchId) : Turn c c' x n { n with children := kids }
  /-- A read of it was queued. -/
  | read (kind : EnumKind) (attempts : Nat) (h : ∀ rearm reprove, n.state ≠ .arming rearm reprove)
      (hm : c'.m = c.m.queue_enumerate x kind attempts) :
      Turn c c' x n { n with
        placement := c.m.placement_clock
        state := .enumerating c.m.req_ids.next kind attempts false }
  /-- Its outstanding read was marked. -/
  | dirty {req : ReqId} {kind : EnumKind} {attempts : Nat} {dirty : Bool} (attempts' : Nat)
      (h : n.state = .enumerating req kind attempts dirty) :
      Turn c c' x n { n with state := .enumerating req kind attempts' true }
  /-- Its outstanding arm was counted. -/
  | count {rearm reprove : Bool} (reprove' : Bool) (h : n.state = .arming rearm reprove) :
      Turn c c' x n { n with state := .arming true reprove' }
  /-- Its outstanding arm was queued again. -/
  | arm {rearm reprove : Bool} (h : n.state = .arming rearm reprove)
      (hlt : c.m.arm_attempts.next < c'.m.arm_attempts.next)
      (hq : Queued c'.m x c.m.arm_attempts.next) :
      Turn c c' x n { n with
        attempt := c.m.arm_attempts.next
        placement := c.m.placement_clock }
  /-- Its binding is to be proved again. -/
  | reprove (h : ∀ rearm reprove, n.state ≠ .arming rearm reprove)
      (ha : ∀ a, c.g.answer = some a → a.watch ≠ x)
      (hlt : c.m.arm_attempts.next < c'.m.arm_attempts.next)
      (hq : Queued c'.m x c.m.arm_attempts.next) :
      Turn c c' x n { n with
        attempt := c.m.arm_attempts.next
        placement := c.m.placement_clock
        state := .arming true true }
  /-- Its arm was acknowledged. -/
  | ack {rearm reprove : Bool} {ack : WatchAck} (h : n.state = .arming rearm reprove)
      (ho : c.g.owed = none)
      (hc : c.g.call = some (.on_watch_result x n.attempt (.ok ack)))
      (ha : c'.g.answer = some ⟨x, none⟩) :
      Turn c c' x n { n with state := .live }
  /-- Its read was answered. -/
  | finish {req : ReqId} {kind : EnumKind} {attempts : Nat} {dirty : Bool}
      (h : n.state = .enumerating req kind attempts dirty)
      (ha : ∃ listing, c'.g.answer = some ⟨x, listing⟩) :
      Turn c c' x n { n with state := .live }
  /-- It is a rebound root whose arm is owed. -/
  | reset (ha : c.g.answer = none) (ho : c'.g.owed = some x) :
      Turn c c' x n { n with state := .arming true false, identity := none }
  /-- The owed arm of a rebound root was handed out. -/
  | adopt (ho : c.g.owed = some x) (hlt : c.m.arm_attempts.next < c'.m.arm_attempts.next)
      (hq : (x, c.m.arm_attempts.next) ∈ c'.g.out) :
      Turn c c' x n { n with
        attempt := c.m.arm_attempts.next
        placement := c.m.placement_clock }
  /-- It was told which object it watches. -/
  | identify (identity : Option Identity) : Turn c c' x n { n with identity := identity }
  /-- Its arm was handed out. -/
  | dispatch : Turn c c' x n { n with placement := c.m.placement_clock }
  /-- It is the root of a scope, and the scope was rebound. -/
  | rebind (hr : c.m.roots[n.scope]? = some x) :
      Turn c c' x n { n with moved_at := c.m.placement_clock + 1 }
  /-- It was taken off its slot. -/
  | hold {attempt : ArmAttempt} {placement : Nat} (hh : x ∈ c'.m.held_sources)
      (ha : attempt = n.attempt ∨ (∃ rearm reprove, n.state = .arming rearm reprove) ∧
        attempt = c.m.arm_attempts.next ∧ c.m.arm_attempts.next < c'.m.arm_attempts.next)
      (hp : placement = n.placement ∨ placement = c.m.placement_clock + 1) :
      Turn c c' x n { n with
        moved_at := c.m.placement_clock + 1
        attempt := attempt
        placement := placement }
  /-- It was linked at another slot. -/
  | rekey (parent : WatchId) (name : Segment) (kids : OSet WatchId)
      (ht : c.g.transit = some x) :
      Turn c c' x n { n with
        parent := some parent
        name := some name
        moved_at := c.m.placement_clock + 1
        children := kids }
  /-- It was a root, and a widen put a new root above it. -/
  | graft (parent : WatchId) (name : Segment) (kids : OSet WatchId)
      (hr : c.m.roots[n.scope]? = some x) (hr' : c'.m.roots[n.scope]? = some parent) :
      Turn c c' x n { n with parent := some parent, name := some name, children := kids }

/-- What an effect gives a node it gives birth to. -/
structure Born (c c' : Moment) (x : WatchId) (n : WatchNode) : Prop where
  dead : c.m.nodes[x]? = none
  fresh : x = c.m.watch_ids.next ∨ x ∈ c.g.spare
  armed : ∃ rearm, n.state = .arming rearm false
  unmoved : n.moved_at = NEVER_MOVED
  minted : c.m.arm_attempts.next ≤ n.attempt ∧ n.attempt < c'.m.arm_attempts.next
  asked : Queued c'.m x n.attempt ∨ (x, n.attempt) ∈ c'.g.out

variable {c c' : Moment} {n' : WatchNode}

theorem turn_keep {d : Moment} (hn' : d.m.nodes[x]? = some n') (h : d.m.nodes[x]? = c.m.nodes[x]?) :
    ∃ n, c.m.nodes[x]? = some n ∧ Turn c d x n n' :=
  ⟨n', h ▸ hn', .keep n'.children⟩

theorem turn_modify {d : Moment} {y : WatchId} {f : WatchNode → WatchNode} (hn' : d.m.nodes[x]? = some n')
    (h : d.m.nodes = c.m.nodes.modify y f)
    (hf : ∀ n, c.m.nodes[y]? = some n → Turn c d y n (f n)) :
    ∃ n, c.m.nodes[x]? = some n ∧ Turn c d x n n' := by
  by_cases hy : y = x
  · subst hy
    rw [h, get_modify, if_pos rfl] at hn'
    obtain ⟨n, hn, rfl⟩ := Option.map_eq_some_iff.mp hn'
    exact ⟨n, hn, hf n hn⟩
  · apply turn_keep hn'
    rw [h, get_modify, if_neg hy]

theorem state_of_eq {y : WatchId} {n : WatchNode} {state : NodeState} (hn : m.nodes[y]? = some n)
    (hs : m.state_of y = some state) : n.state = state :=
  Option.some.inj ((state_of_node hn).symm.trans hs)

/-! ### Work -/

theorem Work.turn (w : Work g.answer m m') (hn' : m'.nodes[x]? = some n') :
    ∃ n, m.nodes[x]? = some n ∧ Turn ⟨m, g⟩ ⟨m', g⟩ x n n' := by
  cases w with
  | @read dir kind attempts hu =>
    cases hd : m.nodes[dir]? with
    | none =>
      have he : m.queue_enumerate dir kind attempts = m := by
        simp only [Monitor.queue_enumerate, Monitor.state_of, hd, Option.map_none]
      exact turn_keep (c := ⟨m, g⟩) (d := ⟨m.queue_enumerate dir kind attempts, g⟩) hn' (by rw [he])
    | some node =>
      obtain ⟨_, _, _, he⟩ := m.queue_enumerate_shape hd kind attempts
      refine turn_modify (c := ⟨m, g⟩) (d := ⟨m.queue_enumerate dir kind attempts, g⟩) hn'
        (congrArg Monitor.nodes he) fun n hn => .read kind attempts ?_ rfl
      intro rearm reprove hs
      exact hu rearm reprove ((state_of_node hn).trans (congrArg some hs))
  | @redirty dir scope req kind attempts dirty hs hsc =>
    obtain ⟨_, _, _, he⟩ := m.redirty_shape dir scope req kind
    exact turn_modify (c := ⟨m, g⟩) (d := ⟨m.redirty dir scope req kind, g⟩) hn'
      (congrArg Monitor.nodes he) fun n hn => .dirty 0 (state_of_eq hn hs)
  | @promote watch rearm reprove hs =>
    obtain ⟨_, _, _, he⟩ := m.set_state_shape watch (.arming true reprove)
    exact turn_modify (c := ⟨m, g⟩) (d := ⟨m.set_state watch (.arming true reprove), g⟩) hn'
      (congrArg Monitor.nodes he) fun n hn => .count reprove (state_of_eq hn hs)
  | @overtake watch =>
    refine turn_modify (c := ⟨m, g⟩) (d := ⟨m.mark_enumerate_dirty watch, g⟩) hn' rfl ?_
    intro n hn
    cases hs : n.state with
    | enumerating req kind attempts dirty => exact .dirty attempts hs
    | live => exact .keep n.children
    | arming => exact .keep n.children
  | @reinstall watch hk =>
    cases hd : m.nodes[watch]? with
    | none =>
      have he : m.start_reinstall watch = m := by
        simp only [Monitor.start_reinstall, Monitor.scope_of, hd, Option.map_none]
      exact turn_keep (c := ⟨m, g⟩) (d := ⟨m.start_reinstall watch, g⟩) hn' (by rw [he])
    | some node =>
      by_cases hs : ∃ rearm reprove, node.state = .arming rearm reprove
      · obtain ⟨rearm, reprove, hs⟩ := hs
        obtain ⟨_, _, _, _, he⟩ := m.start_reinstall_arming hd hs
        refine turn_modify (c := ⟨m, g⟩) (d := ⟨m.start_reinstall watch, g⟩) hn'
          (congrArg Monitor.nodes he) fun n hn => ?_
        obtain rfl := Option.some.inj (hd.symm.trans hn)
        exact .count true hs
      · obtain ⟨_, _, _, target, mask, he⟩ := m.start_reinstall_shape hd (by simpa using hs)
        refine turn_modify (c := ⟨m, g⟩) (d := ⟨m.start_reinstall watch, g⟩) hn'
          (congrArg Monitor.nodes he) fun n hn => ?_
        obtain rfl := Option.some.inj (hd.symm.trans hn)
        have hlt : m.arm_attempts.next < (m.start_reinstall watch).arm_attempts.next := by
          rw [he]
          exact ProtoId.lt_succ _
        refine .reprove (by simpa using hs) hk hlt
          ⟨⟨watch, m.arm_attempts.next, target, mask⟩, ?_, rfl, rfl⟩
        rw [he]
        simp
  | @arm watch target mask rearm reprove hs =>
    refine turn_modify (c := ⟨m, g⟩) (d := ⟨m.queue_watch watch target mask, g⟩) hn' rfl ?_
    intro n hn
    refine .arm (state_of_eq hn hs) (ProtoId.lt_succ _) ⟨⟨watch, m.arm_attempts.next, target, mask⟩, ?_, rfl, rfl⟩
    simp [Monitor.queue_watch_eq]

/-! ### Edits -/

/-- Taking a source off its slot retires the arm outstanding for it. -/
theorem detach_child_node {src parent : WatchId} {name : Segment} {n : WatchNode}
    (hp : m.slot_of src = some (parent, name)) (hn : m.nodes[src]? = some n) :
    ∃ attempt placement, (attempt = n.attempt ∨ (∃ rearm reprove, n.state = .arming rearm reprove) ∧
        attempt = m.arm_attempts.next ∧
          m.arm_attempts.next < (m.detach_child src).arm_attempts.next) ∧
      (placement = n.placement ∨ placement = m.placement_clock + 1) ∧
      (m.detach_child src).nodes[src]? = some { n with
        moved_at := m.placement_clock + 1
        attempt := attempt
        placement := placement } := by
  obtain ⟨stat, -, hv⟩ := m.vacate_child_slot_eq parent name
  unfold Monitor.detach_child
  simp only [hp, hv]
  split
  · rename_i rearm reprove hs
    have hs : n.state = .arming rearm reprove := by
      simpa [Monitor.state_of, Monitor.moved_placement, Monitor.modify_node, hn] using hs
    refine ⟨m.arm_attempts.next, m.placement_clock + 1,
      .inr ⟨⟨rearm, reprove, hs⟩, rfl, ProtoId.lt_succ _⟩, .inr rfl, ?_⟩
    simp [Monitor.retire_arm, Monitor.adopt_arm, Monitor.next_arm_attempt, Sequence.mint,
      Monitor.moved_placement, Monitor.modify_node, Monitor.placement_now, hn]
  · refine ⟨n.attempt, n.placement, .inl rfl, .inl rfl, ?_⟩
    simp [Monitor.moved_placement, Monitor.modify_node, hn]

theorem take_source_nodes (scope : ScopeId) (src : WatchId) :
    (m.take_source scope src).nodes = (m.detach_child src).nodes ∧
      (m.take_source scope src).arm_attempts = (m.detach_child src).arm_attempts := by
  unfold Monitor.take_source
  dsimp only
  split <;> exact ⟨rfl, rfl⟩

theorem Edit.turn (h : Inv c) (e : Edit c c') (hn' : c'.m.nodes[x]? = some n') :
    (∃ n, c.m.nodes[x]? = some n ∧ Turn c c' x n n') ∨ Born c c' x n' := by
  cases e with
  | @register m g scope mask caps hw hr hs =>
    obtain ⟨node, _, _, _, -, -, -, -, hat, hst, hmv, -, he⟩ := Monitor.register_eq mask caps hr
    by_cases hx : x = m.watch_ids.next
    · subst hx
      rw [he, get_insert, if_pos rfl] at hn'
      obtain rfl := Option.some.inj hn'
      refine .inr ⟨?_, .inl rfl, ⟨true, hst⟩, hmv, ?_, .inl ?_⟩
      · exact h.next_dead
      · rw [he, hat]
        simp only [ProtoId.le_def, ProtoId.lt_def, ProtoId.succ]
        omega
      · refine ⟨⟨m.watch_ids.next, m.arm_attempts.next.succ, .root scope,
          Monitor.coverage_mask mask⟩, ?_, rfl, hat.symm⟩
        rw [he]
        simp
    · refine .inl (turn_keep hn' ?_)
      simp only [he, get_insert, if_neg (Ne.symm hx)]
  | @plant m g parent scope name is_dir identity hw hp ha hs =>
    have hpn : parent ≠ m.watch_ids.next := by
      rintro rfl
      exact Nat.lt_irrefl _ ha.minted
    have he := Monitor.plant_eq scope name is_dir identity hpn
    by_cases hx : x = m.watch_ids.next
    · subst hx
      simp only [he, get_modify, get_insert, if_neg hpn, if_true] at hn'
      obtain rfl := Option.some.inj hn'
      refine .inr ⟨h.next_dead, .inl rfl, ⟨false, rfl⟩, rfl, ?_, .inl ?_⟩
      · rw [he]
        simp only [ProtoId.le_def, ProtoId.lt_def, ProtoId.succ, Monitor.sprout]
        omega
      · refine ⟨⟨m.watch_ids.next, m.arm_attempts.next.succ, .child parent name,
          Monitor.coverage_mask (m.scope_interest scope)⟩, ?_, rfl, rfl⟩
        rw [he]
        simp
    · refine .inl ?_
      simp only [he, get_modify, get_insert, if_neg (Ne.symm hx)] at hn'
      split at hn'
      · obtain ⟨n, hn, rfl⟩ := Option.map_eq_some_iff.mp hn'
        exact ⟨n, hn, .keep _⟩
      · exact ⟨n', hn', .keep n'.children⟩
  | reserve => exact .inl (turn_keep hn' rfl)
  | @graft m g scope reserved last old_root hw ht hr hs hd =>
    obtain ⟨nodes, he, hnodes⟩ := m.graft_eq scope reserved last old_root
    have hdead := h.spare.dead _ hs
    obtain ⟨q, hq, hpar, hsc⟩ := (h.sound hw).root_up scope old_root hr
    obtain ⟨no, hno, rfl⟩ := Monitor.place_eq_some.mp hq
    have hne : old_root ≠ reserved := by
      rintro rfl
      rw [hdead] at hno
      cases hno
    simp only [he, hnodes, Monitor.get_attached, Monitor.stocked, get_insert] at hn'
    by_cases hx : x = reserved
    · subst hx
      simp only [if_true, Option.map_some, if_neg hne, Option.some.injEq] at hn'
      subst hn'
      refine .inr ⟨hdead, .inr hs, ⟨false, rfl⟩, rfl, ?_, .inr ?_⟩
      · rw [he]
        simp only [ProtoId.le_def, ProtoId.lt_def, ProtoId.succ, Monitor.stock]
        omega
      · exact List.mem_cons_self
    · rw [if_neg (Ne.symm hx)] at hn'
      obtain ⟨n, hn, rfl⟩ := Option.map_eq_some_iff.mp hn'
      refine .inl ⟨n, hn, ?_⟩
      by_cases ho : old_root = x
      · subst ho
        obtain rfl := Option.some.inj (hno.symm.trans hn)
        have hsc : no.scope = scope := hsc
        simp only [if_true]
        refine .graft reserved last _ (hsc ▸ hr) ?_
        simp only [he, hsc, get_insert, if_true]
      · simp only [if_neg ho]
        exact .keep _
  | @hold m g scope src parent name hw ht hp hs hsc =>
    have hh := h.unheld hp hs
    obtain ⟨_, _, f, -, -, he⟩ := Monitor.take_source_eq scope hp hh
    by_cases hx : x = src
    · subst hx
      obtain ⟨n, hn, -⟩ := Monitor.slot_of_eq_some.mp hp
      obtain ⟨hnodes, harms⟩ := take_source_nodes (m := m) scope x
      obtain ⟨attempt, placement, ha, hpl, hn₁⟩ := detach_child_node hp hn
      rw [← hnodes] at hn₁
      rw [← harms] at ha
      obtain rfl := Option.some.inj (hn₁.symm.trans hn')
      refine .inl ⟨n, hn, .hold ?_ ha hpl⟩
      rw [he]
      simp
    · refine .inl (turn_keep hn' ?_)
      simp only [he, get_modify, if_neg (Ne.symm hx)]
  | @rekey m g child new_parent new_name scope hw ht =>
    simp only [Monitor.get_rekeyed, Monitor.get_attached, Option.map_map] at hn'
    obtain ⟨n, hn, rfl⟩ := Option.map_eq_some_iff.mp hn'
    refine .inl ⟨n, hn, ?_⟩
    by_cases hx : child = x
    · subst hx
      simp only [Function.comp_apply, if_true]
      exact .rekey new_parent new_name _ ht
    · simp only [Function.comp_apply, if_neg hx]
      exact .keep _
  | uproot => exact .inl (turn_keep hn' rfl)
  | @remove m g walk id stack node hw hs hid =>
    obtain ⟨_, _, _, -, -, he, -⟩ := m.remove_node_eq id node walk.erased
    simp only [he, Monitor.get_unlinked_nodes] at hn'
    split at hn'
    · cases hn'
    · split at hn'
      · obtain ⟨n, hn, rfl⟩ := Option.map_eq_some_iff.mp hn'
        exact .inl ⟨n, hn, .keep _⟩
      · exact .inl ⟨n', hn', .keep n'.children⟩

/-! ### Every effect -/

theorem Deliver.nodes_eq (h : Deliver m m') : m'.nodes = m.nodes := by
  rw [h.shape]
  rfl

theorem Ledger.nodes_eq (h : Ledger m m') : m'.nodes = m.nodes := by
  rw [h.shape]
  rfl

theorem Marking.nodes_eq (h : Marking c c') : c'.m.nodes = c.m.nodes := by
  cases h with
  | record_marker => rfl
  | @stage m g dir scope =>
    show (m.stage_adoption dir scope).nodes = m.nodes
    unfold Monitor.stage_adoption
    split <;> rfl
  | @take_marker m g parent scope =>
    show (m.take_adoption_marker parent scope).1.nodes = m.nodes
    unfold Monitor.take_adoption_marker
    split <;> rfl
  | unstage => rfl

theorem discharge_nodes (walk : Walk) : (m.discharge walk).1.nodes = m.nodes := by
  obtain h | ⟨_, h₁, h₂⟩ | h := discharge_cases (m := m) walk
  · rw [h]
  · exact h₂.nodes_eq.trans h₁.nodes_eq
  · exact h.nodes_eq

/-- A node that is live after an effect was live before it, or was born by it. -/
theorem Effect.turn (h : Inv c) (e : Effect c c') (hn' : c'.m.nodes[x]? = some n') :
    (∃ n, c.m.nodes[x]? = some n ∧ Turn c c' x n n') ∨ Born c c' x n' := by
  cases e with
  | edit e => exact e.turn h hn'
  | mark e =>
    apply Or.inl
    apply turn_keep hn'
    rw [e.nodes_eq]
  | @deliver m m' g e =>
    apply Or.inl
    apply turn_keep hn'
    rw [e.nodes_eq]
  | @ledger m m' g e =>
    apply Or.inl
    apply turn_keep hn'
    rw [e.nodes_eq]
  | work e => exact .inl (e.turn hn')
  | @ask m g parent scope name =>
    obtain ⟨_, _, _, _, _, -, -, -, he⟩ := queue_stat_eq (m := m) parent scope name
    apply Or.inl
    apply turn_keep hn'
    rw [he]
  | @ack m g id attempt ack rearm reprove ha ho hc hat hs =>
    obtain ⟨_, _, _, he⟩ := m.set_state_shape id .live
    refine .inl (turn_modify hn' (congrArg Monitor.nodes he) fun n hn => ?_)
    have hat : n.attempt = attempt := by simpa [Monitor.arm_attempt, hn] using hat
    exact .ack (state_of_eq hn hs) ho (hat ▸ hc) rfl
  | @finish m g req dir kind attempts dirty listing ha hs =>
    obtain ⟨_, _, _, he⟩ := (m.forget_read req).set_state_shape dir .live
    exact .inl (turn_modify hn' (congrArg Monitor.nodes he) fun n hn =>
      .finish (state_of_eq hn hs) ⟨_, rfl⟩)
  | @reset m g root ha ho hp =>
    obtain ⟨_, _, _, _, _, he⟩ := m.reset_root_shape root
    exact .inl (turn_modify hn' (congrArg Monitor.nodes he) fun n hn => .reset ha rfl)
  | @adopt m g id ho =>
    exact .inl (turn_modify hn' rfl fun n hn =>
      .adopt ho (ProtoId.lt_succ _) List.mem_cons_self)
  | rest => exact .inl (turn_keep hn' rfl)
  | respond => exact .inl (turn_keep hn' rfl)
  | @identify m g watch identity =>
    exact .inl (turn_modify hn' rfl fun n hn => .identify identity)
  | land => exact .inl (turn_keep hn' rfl)
  | @move_root m g scope root hr =>
    refine .inl (turn_modify hn' rfl fun n hn => .rebind ?_)
    obtain ⟨q, hq, -, hsc⟩ := h.tree.root_up scope root hr
    obtain ⟨no, hno, rfl⟩ := Monitor.place_eq_some.mp hq
    obtain rfl := Option.some.inj (hn.symm.trans hno)
    have hsc : n.scope = scope := hsc
    rw [hsc]
    exact hr
  | open_drop => exact .inl (turn_keep hn' rfl)
  | skip_dead => exact .inl (turn_keep hn' rfl)
  | @close_drop m g walk =>
    apply Or.inl
    apply turn_keep hn'
    rw [discharge_nodes]
  | @park m g scope cookie pending =>
    apply Or.inl
    apply turn_keep hn'
    obtain ⟨_, he⟩ := m.park_shape scope cookie pending
    rw [he]
  | take => exact .inl (turn_keep hn' rfl)
  | @release m g scope src =>
    obtain ⟨_, _, he⟩ := m.release_hold_shape scope src
    apply Or.inl
    apply turn_keep hn'
    rw [he]
  | remark => exact .inl (turn_keep hn' rfl)
  | purge => exact .inl (turn_keep hn' rfl)
  | @reprofile m g scope caps =>
    apply Or.inl
    apply turn_keep hn'
    obtain ⟨_, _, he⟩ := m.reprofile_shape scope caps
    rw [he]
  | forget_scope => exact .inl (turn_keep hn' rfl)
  | forget_registration => exact .inl (turn_keep hn' rfl)
  | forget_book => exact .inl (turn_keep hn' rfl)
  | skip_action => exact .inl (turn_keep hn' rfl)
  | @dispatch m g action rest hc ha hs =>
    cases hw : action.as_watch with
    | none =>
      refine .inl (turn_keep (c := ⟨m, g⟩) (d := ⟨_, _⟩) hn' ?_)
      simp only [Monitor.stamp_dispatch, hw]
    | some cmd =>
      apply Or.inl
      refine turn_modify (y := cmd.id) (f := fun n => { n with placement := m.placement_clock }) hn' ?_
        fun n hn => .dispatch
      simp only [Monitor.stamp_dispatch, hw, Monitor.modify_node, Monitor.placement_now]
  | poll_event => exact .inl (turn_keep hn' rfl)

/-! ### The watch whose answer is worked off -/

/-- The watch whose answer is worked off awaits no arm. -/
def Worked (c : Moment) : Prop :=
  ∀ a, c.g.answer = some a → (∃ s, Anchored c a.watch s) ∧ c.m.Unarmed a.watch

theorem set_live_unarmed (y : WatchId) : (m.set_state y .live).Unarmed y := by
  intro rearm reprove hs
  obtain ⟨_, _, _, he⟩ := m.set_state_shape y .live
  rw [he] at hs
  cases hn : m.nodes[y]? <;> simp [Monitor.state_of, hn] at hs

/-- Where the answer of a moment comes from. -/
theorem Effect.answer {a : Answer} (e : Effect c c') (ha : c'.g.answer = some a) :
    c.g.answer = some a ∨ (c.g.answer = none ∧ c'.m.Unarmed a.watch ∧
      c.m.nodes[a.watch]? ≠ none) := by
  cases e with
  | edit e => cases e <;> exact .inl ha
  | mark e => cases e <;> exact .inl ha
  | @ack m g id attempt ack rearm reprove hnone ho hc hat hs =>
    obtain rfl := Option.some.inj ha
    refine .inr ⟨hnone, set_live_unarmed id, ?_⟩
    intro hn
    simp [Monitor.state_of, hn] at hs
  | @finish m g req dir kind attempts dirty listing hnone hs =>
    obtain rfl := Option.some.inj ha
    refine .inr ⟨hnone, set_live_unarmed dir, ?_⟩
    intro hn
    simp [Monitor.state_of, hn] at hs
  | rest => cases ha
  | _ => exact .inl ha

theorem Effect.worked (h : Inv c) (hw : Worked c) (e : Effect c c') : Worked c' := by
  intro a ha
  rcases e.answer ha with hold | ⟨-, hun, hlive⟩
  · obtain ⟨⟨s, hs⟩, hun⟩ := hw a hold
    refine ⟨⟨s, e.anchored h hs⟩, ?_⟩
    intro rearm reprove hst
    obtain ⟨n', hn', hst⟩ := Option.map_eq_some_iff.mp hst
    rcases e.turn h hn' with ⟨n, hn, t⟩ | b
    · have hne : ∀ rearm reprove, n.state ≠ .arming rearm reprove := fun rearm reprove hs =>
        hun rearm reprove ((state_of_node hn).trans (congrArg some hs))
      cases t with
      | count _ hs => exact hne _ _ hs
      | reprove _ hk => exact hk a hold rfl
      | reset hnone =>
        rw [hold] at hnone
        cases hnone
      | read => cases hst
      | dirty => cases hst
      | ack => cases hst
      | finish => cases hst
      | _ => exact hne _ _ hst
    · rcases b.fresh with hb | hb
      · exact absurd (hb ▸ hs.minted) (Nat.lt_irrefl _)
      · exact hs.used hb
  · obtain ⟨s, hs⟩ := scope_live hlive
    exact ⟨⟨s, e.anchored h (h.anchored hs)⟩, hun⟩

theorem Trace.worked (h : Inv c) (hw : Worked c) (t : Trace c c') : Worked c' := by
  induction t with
  | refl => exact hw
  | tail t e ih => exact e.worked (Trace.inv h t) ih

end Proto
