import Tributaries.Proto.Turns

/-! # Arms and the action queue

  What one effect puts at the end of the action queue, and what the arms
  of a Monitor have in common at every moment: an attempt is never issued
  twice, none outstanding is later than the one its watch stands at, and
  a watch that arms has its arm outstanding somewhere.
-/

open Std Collections SlotForest

namespace Proto

variable {m m' : Monitor} {g : Ghost} {c c' : Moment} {x : WatchId}

/-! ### Queued actions -/

/-- What an effect may put at the end of the action queue. -/
inductive Issue (c c' : Moment) : List Action → Prop where
  | quiet : Issue c c' []
  /-- An arm under a new attempt, which becomes the attempt of its watch. -/
  | watch {cmd : WatchCommand} {n : WatchNode} {rearm reprove : Bool}
      (hn' : c'.m.nodes[cmd.id]? = some n) (ha : n.attempt = cmd.attempt)
      (hs : n.state = .arming rearm reprove) (hlo : c.m.arm_attempts.next ≤ cmd.attempt)
      (hhi : cmd.attempt < c'.m.arm_attempts.next) : Issue c c' [.watch cmd]
  /-- The farewell of a node that was just removed. -/
  | unwatch {id : WatchId} {node : WatchNode} (h : Removal c c' id node) :
      Issue c c' [.unwatch id]
  /-- A read of a directory that does not arm. -/
  | enumerate {dir : WatchId} {kind : EnumKind} {attempts : Nat} {n : WatchNode}
      (hn : c.m.nodes[dir]? = some n) (hs : ∀ rearm reprove, n.state ≠ .arming rearm reprove)
      (hm : c'.m = c.m.queue_enumerate dir kind attempts) (hg : c'.g = c.g) :
      Issue c c' [.enumerate c.m.req_ids.next dir]
  /-- A stat of a slot of a live directory. -/
  | stat {req : ReqId} {parent : WatchId} {name : Segment} (hn : c.m.nodes[parent]? ≠ none)
      (hn' : c'.m.nodes = c.m.nodes) : Issue c c' [.stat req parent name]

/-- What an effect does to the arms in the driver's hands. -/
inductive Hands (c c' : Moment) : Prop where
  | same (h : c'.g.out = c.g.out)
  /-- One is handed out under a new attempt, which becomes that of its watch. -/
  | more {w : WatchId} {attempt : ArmAttempt} (h : c'.g.out = (w, attempt) :: c.g.out)
      (hn' : ∀ n' : WatchNode, c'.m.nodes[w]? = some n' → n'.attempt = attempt)
      (hlo : c.m.arm_attempts.next ≤ attempt) (hhi : attempt < c'.m.arm_attempts.next)
  /-- One was answered: its watch no longer arms under it. -/
  | less {id : WatchId} {attempt : ArmAttempt}
      (h : c'.g.out = c.g.out.filter (· ≠ (id, attempt))) (hm : c'.m = c.m)
      (hn : ∀ node rearm reprove, c.m.nodes[id]? = some node →
        node.state = .arming rearm reprove → node.attempt ≠ attempt ∨ Queued c.m id node.attempt)

/-- What an effect put at the end of the action queue and in the driver's hands. -/
structure Issues (c c' : Moment) (l : List Action) : Prop where
  appended : c'.m.actions = c.m.actions ++ l
  issue : Issue c c' l
  attempts : c.m.arm_attempts.next ≤ c'.m.arm_attempts.next
  hands : Hands c c'

/-- An effect that issues no arm and queues nothing. -/
theorem issue_none
    (h : (c'.m.actions, c'.m.arm_attempts) = (c.m.actions, c.m.arm_attempts))
    (ho : c'.g.out = c.g.out) : ∃ l, Issues c c' l := by
  obtain ⟨h, ha⟩ := Prod.mk.inj h
  exact ⟨[], by rw [h, List.append_nil], .quiet, Nat.le_of_eq (by rw [ha]), .same ho⟩

/-- A source that is taken off its slot may have its arm retired. -/
theorem take_source_attempts (scope : ScopeId) (src : WatchId) :
    m.arm_attempts.next ≤ (m.take_source scope src).arm_attempts.next := by
  rw [(take_source_nodes scope src).2]
  have kept : ∀ m₁ : Monitor, m₁.arm_attempts = m.arm_attempts →
      m.arm_attempts.next ≤ (m₁.moved_placement src).arm_attempts.next ∧
        m.arm_attempts.next ≤ ((m₁.moved_placement src).retire_arm src).arm_attempts.next := by
    intro m₁ h₁
    rw [← h₁]
    exact ⟨Nat.le_refl _, Nat.le_succ _⟩
  unfold Monitor.detach_child
  split
  · rename_i parent name _
    obtain ⟨_, -, hv⟩ := m.vacate_child_slot_eq parent name
    obtain ⟨hmoved, hretired⟩ := kept (m.vacate_child_slot parent name) (by rw [hv])
    dsimp only
    split
    · exact hretired
    · exact hmoved
  · obtain ⟨hmoved, hretired⟩ := kept m rfl
    dsimp only
    split
    · exact hretired
    · exact hmoved

theorem Work.issues (w : Work g.answer m m') :
    ∃ l, Issues ⟨m, g⟩ ⟨m', g⟩ l := by
  cases w with
  | @read dir kind attempts hu =>
    cases hd : m.nodes[dir]? with
    | none =>
      have he : m.queue_enumerate dir kind attempts = m := by
        simp only [Monitor.queue_enumerate, Monitor.state_of, hd, Option.map_none]
      exact issue_none (by rw [he]) rfl
    | some node =>
      obtain ⟨_, _, _, he⟩ := m.queue_enumerate_shape hd kind attempts
      refine ⟨_, congrArg Monitor.actions he, .enumerate hd ?_ rfl rfl, ?_, .same rfl⟩
      · intro rearm reprove hs
        exact hu rearm reprove ((state_of_node hd).trans (congrArg some hs))
      · show m.arm_attempts.next ≤ (m.queue_enumerate dir kind attempts).arm_attempts.next
        rw [he]
        exact Nat.le_refl _
  | @redirty dir scope req kind attempts dirty =>
    obtain ⟨_, _, _, he⟩ := m.redirty_shape dir scope req kind
    exact issue_none (by rw [he]) rfl
  | @promote watch rearm reprove =>
    obtain ⟨_, _, _, he⟩ := m.set_state_shape watch (.arming true reprove)
    exact issue_none (by rw [he]) rfl
  | overtake => exact issue_none rfl rfl
  | @reinstall watch hk =>
    cases hd : m.nodes[watch]? with
    | none =>
      have he : m.start_reinstall watch = m := by
        simp only [Monitor.start_reinstall, Monitor.scope_of, hd, Option.map_none]
      exact issue_none (by rw [he]) rfl
    | some node =>
      by_cases hs : ∃ rearm reprove, node.state = .arming rearm reprove
      · obtain ⟨rearm, reprove, hs⟩ := hs
        obtain ⟨_, _, _, _, he⟩ := m.start_reinstall_arming hd hs
        exact issue_none (by rw [he]) rfl
      · obtain ⟨_, _, _, target, mask, he⟩ := m.start_reinstall_shape hd (by simpa using hs)
        refine ⟨_, congrArg Monitor.actions he,
          .watch (n := { node with
            attempt := m.arm_attempts.next
            placement := m.placement_clock
            state := .arming true true }) ?_ rfl rfl (Nat.le_refl _) ?_, ?_, .same rfl⟩
        · show (m.start_reinstall watch).nodes[watch]? = _
          rw [he]
          simp [hd]
        · show _ < (m.start_reinstall watch).arm_attempts.next
          rw [he]
          exact ProtoId.lt_succ _
        · show _ ≤ (m.start_reinstall watch).arm_attempts.next
          rw [he]
          exact Nat.le_succ _
  | @arm watch target mask rearm reprove hs =>
    obtain ⟨n, hn, hs⟩ := Option.map_eq_some_iff.mp hs
    refine ⟨_, rfl, .watch (n := { n with
      attempt := m.arm_attempts.next
      placement := m.placement_clock }) ?_ rfl hs (Nat.le_refl _) (ProtoId.lt_succ _),
      Nat.le_succ _, .same rfl⟩
    show (m.queue_watch watch target mask).nodes[watch]? = _
    rw [Monitor.queue_watch_eq]
    simp [hn]

theorem Edit.issues (e : Edit c c') (h : Inv c) :
    ∃ l, Issues c c' l := by
  cases e with
  | @register m g scope mask caps hw hr hs =>
    obtain ⟨node, _, _, _, -, -, -, -, hat, hst, -, -, he⟩ := Monitor.register_eq mask caps hr
    refine ⟨_, congrArg Monitor.actions he, .watch (n := node) ?_ hat hst ?_ ?_, ?_,
      .same rfl⟩
    · show (m.register_root_with_profile scope mask caps).1.nodes[m.watch_ids.next]? = some node
      rw [he, get_insert, if_pos rfl]
    · exact Nat.le_succ _
    · show _ < (m.register_root_with_profile scope mask caps).1.arm_attempts.next
      rw [he]
      exact ProtoId.lt_succ _
    · show _ ≤ (m.register_root_with_profile scope mask caps).1.arm_attempts.next
      rw [he]
      exact Nat.le_succ_of_le (Nat.le_succ _)
  | @plant m g parent scope name is_dir identity hw hp ha hs =>
    have hpn : parent ≠ m.watch_ids.next := by
      intro hp
      exact Nat.lt_irrefl _ (hp ▸ ha.minted)
    have he := Monitor.plant_eq scope name is_dir identity hpn
    refine ⟨_, congrArg Monitor.actions he,
      .watch (n := m.sprout parent scope name is_dir identity) ?_ rfl rfl (Nat.le_succ _) ?_, ?_,
      .same rfl⟩
    · show (m.plant parent scope name is_dir identity).nodes[m.watch_ids.next]? = _
      rw [he, get_modify, if_neg hpn, get_insert, if_pos rfl]
    · show _ < (m.plant parent scope name is_dir identity).arm_attempts.next
      rw [he]
      exact ProtoId.lt_succ _
    · show _ ≤ (m.plant parent scope name is_dir identity).arm_attempts.next
      rw [he]
      exact Nat.le_succ_of_le (Nat.le_succ _)
  | reserve => exact issue_none rfl rfl
  | @graft m g scope reserved last old_root hw ht hr hs =>
    obtain ⟨nodes, he, hnodes⟩ := m.graft_eq scope reserved last old_root
    obtain ⟨q, hq, -⟩ := (h.sound hw).root_up scope old_root hr
    obtain ⟨no, hno, rfl⟩ := Monitor.place_eq_some.mp hq
    have hne : old_root ≠ reserved := by
      intro he
      rw [he, show m.nodes[reserved]? = none from h.spare.dead _ hs] at hno
      cases hno
    obtain ⟨n', hn', ha⟩ : ∃ n' : WatchNode,
        (m.graft scope reserved last old_root).1.nodes[reserved]? = some n' ∧
          n'.attempt = (m.graft scope reserved last old_root).2 := by
      rw [he, hnodes, Monitor.get_attached]
      simp only [Monitor.stocked, get_insert, if_true, Option.map_some, if_neg hne]
      exact ⟨_, rfl, rfl⟩
    refine ⟨[], ?_, .quiet, ?_, .more (w := reserved) rfl ?_ (Nat.le_refl _) ?_⟩
    · show (m.graft scope reserved last old_root).1.actions = m.actions ++ []
      rw [he, List.append_nil]
    · show _ ≤ (m.graft scope reserved last old_root).1.arm_attempts.next
      rw [he]
      exact Nat.le_succ _
    · intro n hn
      obtain rfl := Option.some.inj (hn'.symm.trans hn)
      exact ha
    · show _ < (m.graft scope reserved last old_root).1.arm_attempts.next
      rw [he]
      exact ProtoId.lt_succ _
  | @hold m g scope src parent name hw ht hp hs =>
    obtain ⟨_, _, _, -, -, he⟩ := Monitor.take_source_eq scope hp (h.unheld hp hs)
    refine ⟨[], ?_, .quiet, take_source_attempts scope src, .same rfl⟩
    show (m.take_source scope src).actions = m.actions ++ []
    rw [he, List.append_nil]
  | @rekey m g child new_parent new_name =>
    obtain ⟨_, he⟩ := m.attach_child_eq child new_parent new_name
    refine issue_none ?_ rfl
    show ((m.attach_child child new_parent new_name).actions,
      (m.attach_child child new_parent new_name).arm_attempts) = _
    rw [he]
  | uproot => exact issue_none rfl rfl
  | @remove m g walk id stack node hw hs hn =>
    obtain ⟨_, _, _, -, -, he, -⟩ := m.remove_node_eq id node walk.erased
    refine ⟨_, congrArg Monitor.actions he, .unwatch (.intro hw hs hn), ?_, .same rfl⟩
    show m.arm_attempts.next ≤ (m.remove_node id node walk.erased).1.arm_attempts.next
    rw [he]
    exact Nat.le_refl _

theorem Marking.issues (e : Marking c c') : ∃ l, Issues c c' l := by
  cases e with
  | record_marker => exact issue_none rfl rfl
  | @stage m g dir scope =>
    obtain ⟨_, _, he, -⟩ := stage_adoption_eq (m := m) dir scope
    exact issue_none (by rw [he]) rfl
  | @take_marker m g parent scope =>
    exact issue_none (by rw [(m.take_adoption_marker_eq parent scope).1]) rfl
  | unstage => exact issue_none rfl rfl

/-- A poll takes the action in front, and changes no node but the stamp of one
    whose arm it hands out. -/
structure Popped (c c' : Moment) : Prop where
  call : c.g.call = some .poll_action
  front : ∃ action, c.m.actions = action :: c'.m.actions ∧
    (c'.g.out = c.g.out ∧ c.m.is_superseded_arm action = true ∨
      c'.g.out = (action.as_watch.map fun cmd => (cmd.id, cmd.attempt)).toList ++ c.g.out)
  attempts : c'.m.arm_attempts = c.m.arm_attempts

/-- An effect queues one action at most, or takes one away. -/
theorem Effect.issues (h : Inv c) (e : Effect c c') :
    (∃ l, Issues c c' l) ∨ Popped c c' := by
  cases e with
  | edit e => exact .inl (e.issues h)
  | mark e => exact .inl e.issues
  | @deliver m m' g e =>
    refine .inl (issue_none ?_ rfl)
    show (m'.actions, m'.arm_attempts) = (m.actions, m.arm_attempts)
    rw [e.shape]
    rfl
  | @ledger m m' g e =>
    refine .inl (issue_none ?_ rfl)
    show (m'.actions, m'.arm_attempts) = (m.actions, m.arm_attempts)
    rw [e.shape]
    rfl
  | work w => exact .inl w.issues
  | @ask m g parent scope name =>
    apply Or.inl
    cases hp : m.nodes[parent]? with
    | none =>
      have he : m.queue_stat parent scope name = m := by
        have hc : m.nodes.contains parent = false := contains_false_iff.mpr hp
        simp only [Monitor.queue_stat, hc, Bool.not_false, if_true]
      exact issue_none (by rw [he]) rfl
    | some node =>
      obtain ⟨_, _, _, _, actions, -, ha, -, he⟩ := queue_stat_eq (m := m) parent scope name
      have hacts : (m.queue_stat parent scope name).actions = actions := congrArg Monitor.actions he
      have hatt : (m.queue_stat parent scope name).arm_attempts = m.arm_attempts := by rw [he]
      rcases ha with ha | ha
      · exact issue_none (c := ⟨m, g⟩) (congrArg₂ Prod.mk (hacts.trans ha) hatt) rfl
      · refine ⟨_, hacts.trans ha, .stat ?_ ?_, Nat.le_of_eq (by rw [hatt]), .same rfl⟩
        · show m.nodes[parent]? ≠ none
          simp [hp]
        · show (m.queue_stat parent scope name).nodes = m.nodes
          rw [he]
  | @ack m g id =>
    obtain ⟨_, _, _, he⟩ := m.set_state_shape id .live
    exact .inl (issue_none (by rw [he]) rfl)
  | @finish m g req dir =>
    obtain ⟨_, _, _, he⟩ := (m.forget_read req).set_state_shape dir .live
    refine .inl (issue_none ?_ rfl)
    show (((m.forget_read req).set_state dir .live).actions,
      ((m.forget_read req).set_state dir .live).arm_attempts) = _
    rw [he]
    rfl
  | @reset m g root =>
    obtain ⟨_, _, _, _, _, he⟩ := m.reset_root_shape root
    exact .inl (issue_none (by rw [he]) rfl)
  | @adopt m g id ho =>
    refine .inl ⟨[], by rw [List.append_nil]; rfl, .quiet, Nat.le_succ _,
      .more rfl ?_ (Nat.le_refl _) (ProtoId.lt_succ _)⟩
    intro n' hn'
    have hn' : (m.nodes.modify id fun n => { n with
      attempt := m.arm_attempts.next, placement := m.placement_clock })[id]? = some n' := hn'
    rw [get_modify, if_pos rfl] at hn'
    obtain ⟨n, -, rfl⟩ := Option.map_eq_some_iff.mp hn'
    rfl
  | @respond m g id attempt hn =>
    exact .inl ⟨[], by rw [List.append_nil], .quiet, Nat.le_refl _, .less rfl rfl hn⟩
  | @close_drop m g walk =>
    refine .inl (issue_none ?_ rfl)
    show ((m.discharge walk).1.actions, (m.discharge walk).1.arm_attempts) = _
    obtain he | ⟨_, d₁, d₂⟩ | l := discharge_cases (m := m) walk
    · rw [he]
    · rw [d₂.shape, d₁.shape]
      rfl
    · rw [l.shape]
      rfl
  | @park m g scope cookie pending =>
    obtain ⟨_, he⟩ := m.park_shape scope cookie pending
    exact .inl (issue_none (by rw [he]) rfl)
  | @release m g scope src =>
    obtain ⟨_, _, he⟩ := m.release_hold_shape scope src
    exact .inl (issue_none (by rw [he]) rfl)
  | @reprofile m g scope caps =>
    obtain ⟨_, _, he⟩ := m.reprofile_shape scope caps
    exact .inl (issue_none (by rw [he]) rfl)
  | @skip_action m g action rest hc ha hs =>
    exact .inr ⟨hc, ⟨action, ha, .inl ⟨rfl, hs⟩⟩, rfl⟩
  | @dispatch m g action rest hc ha hs =>
    obtain ⟨_, -, he⟩ := Monitor.dispatch_shape (m := { m with actions := rest }) action
    refine .inr ⟨hc, ⟨action, ?_, .inr rfl⟩, ?_⟩
    · show m.actions = action :: ({ m with actions := rest }.stamp_dispatch action).actions
      rw [he, ha]
    · show ({ m with actions := rest }.stamp_dispatch action).arm_attempts = m.arm_attempts
      rw [he]
  | _ => exact .inl (issue_none rfl rfl)

theorem Effect.attempts_le (h : Inv c) (e : Effect c c') :
    c.m.arm_attempts.next ≤ c'.m.arm_attempts.next := by
  rcases e.issues h with ⟨_, i⟩ | p
  · exact i.attempts
  · exact Nat.le_of_eq (by rw [p.attempts])

/-! ### Arms -/

variable {n n' : WatchNode} {a : ArmAttempt}

theorem Turn.attempt (t : Turn c c' x n n') : n'.attempt = n.attempt ∨
    n'.attempt = c.m.arm_attempts.next ∧ c.m.arm_attempts.next < c'.m.arm_attempts.next := by
  cases t with
  | arm h hlt => exact .inr ⟨rfl, hlt⟩
  | reprove h ha hlt => exact .inr ⟨rfl, hlt⟩
  | adopt ho hlt => exact .inr ⟨rfl, hlt⟩
  | hold hh ha =>
    rcases ha with ha | ⟨-, ha, hlt⟩
    · exact .inl ha
    · exact .inr ⟨ha, hlt⟩
  | _ => exact .inl rfl

/-- A node stops arming only when its arm is acknowledged. -/
theorem Turn.arming (t : Turn c c' x n n') {rearm reprove : Bool}
    (h : n.state = .arming rearm reprove) : (∃ rearm reprove, n'.state = .arming rearm reprove) ∨
      c.g.owed = none ∧ n'.attempt = n.attempt ∧
        ∃ ack, c.g.call = some (.on_watch_result x n.attempt (.ok ack)) := by
  cases t with
  | read _ _ hs => exact absurd h (hs _ _)
  | dirty _ hs =>
    rw [hs] at h
    cases h
  | finish hs =>
    rw [hs] at h
    cases h
  | count => exact .inl ⟨_, _, rfl⟩
  | reprove => exact .inl ⟨_, _, rfl⟩
  | reset => exact .inl ⟨_, _, rfl⟩
  | ack hs ho hc => exact .inr ⟨ho, rfl, _, hc⟩
  | _ => exact .inl ⟨_, _, h⟩

/-- A watch that is excused from having its arm issued. -/
def Excused (c : Moment) (x : WatchId) : Prop :=
  x ∈ c.m.held_sources ∨ c.g.transit = some x ∨ c.g.owed = some x

/-- What the arms of a Monitor have in common at every moment. -/
structure Arms (c : Moment) : Prop where
  minted : ∀ (x : WatchId) (n : WatchNode), c.m.nodes[x]? = some n →
    n.attempt < c.m.arm_attempts.next
  issued : ∀ (x : WatchId) (a : ArmAttempt), Awaited c.m c.g x a →
    a < c.m.arm_attempts.next ∧ ∀ n : WatchNode, c.m.nodes[x]? = some n → a ≤ n.attempt
  owed : ∀ (x : WatchId) (n : WatchNode), c.g.owed = some x → c.m.nodes[x]? = some n →
    ∃ rearm reprove, n.state = .arming rearm reprove
  awaited : ∀ (x : WatchId) (n : WatchNode) (rearm reprove : Bool), c.m.nodes[x]? = some n →
    n.state = .arming rearm reprove → Awaited c.m c.g x n.attempt ∨ Excused c x

/-- The arms an effect issues are new, and become those of their watches. -/
theorem Effect.awaited (h : Inv c) (e : Effect c c') (ha : Awaited c'.m c'.g x a) :
    Awaited c.m c.g x a ∨ c.m.arm_attempts.next ≤ a ∧ a < c'.m.arm_attempts.next ∧
      ∀ n' : WatchNode, c'.m.nodes[x]? = some n' → n'.attempt = a := by
  rcases e.issues h with ⟨l, i⟩ | p
  · rcases ha with ⟨cmd, hm, rfl, rfl⟩ | ho
    · rw [i.appended, List.mem_append] at hm
      rcases hm with hm | hm
      · exact .inl (.inl ⟨cmd, hm, rfl, rfl⟩)
      · cases i.issue with
        | watch hn' hat hs hlo hhi =>
          obtain rfl : cmd = _ := by simpa using hm
          refine .inr ⟨hlo, hhi, fun n hn => ?_⟩
          obtain rfl := Option.some.inj (hn'.symm.trans hn)
          exact hat
        | quiet => simp at hm
        | unwatch => simp at hm
        | enumerate => simp at hm
        | stat => simp at hm
    · cases i.hands with
      | same hh => exact .inl (.inr (hh ▸ ho))
      | more hh hn' hlo hhi =>
        rw [hh] at ho
        rcases List.mem_cons.mp ho with he | ho
        · obtain ⟨rfl, rfl⟩ := Prod.mk.inj he
          exact .inr ⟨hlo, hhi, hn'⟩
        · exact .inl (.inr ho)
      | less hh =>
        rw [hh] at ho
        exact .inl (.inr (List.mem_filter.mp ho).1)
  · obtain ⟨action, hf, hout⟩ := p.front
    rcases ha with ⟨cmd, hm, rfl, rfl⟩ | ho
    · exact .inl (.inl ⟨cmd, hf ▸ List.mem_cons_of_mem _ hm, rfl, rfl⟩)
    · rcases hout with ⟨hh, -⟩ | hh
      · exact .inl (.inr (hh ▸ ho))
      · rw [hh, List.mem_append] at ho
        rcases ho with ho | ho
        · cases action with
          | watch cmd =>
            obtain ⟨rfl, rfl⟩ : x = cmd.id ∧ a = cmd.attempt := by
              simpa [Action.as_watch] using ho
            exact .inl (.inl ⟨cmd, hf ▸ List.mem_cons_self, rfl, rfl⟩)
          | unwatch => simp [Action.as_watch] at ho
          | enumerate => simp [Action.as_watch] at ho
          | stat => simp [Action.as_watch] at ho
        · exact .inl (.inr ho)

/-- The arm a watch waits for stays issued as long as it is waited for. -/
theorem Effect.awaits (h : Inv c) (e : Effect c c') {rearm reprove : Bool}
    (hn : c.m.nodes[x]? = some n) (hs : n.state = .arming rearm reprove)
    (ha : Awaited c.m c.g x n.attempt) : Awaited c'.m c'.g x n.attempt := by
  rcases e.issues h with ⟨l, i⟩ | p
  · rcases ha with ⟨cmd, hm, hid, hat⟩ | ho
    · refine .inl ⟨cmd, ?_, hid, hat⟩
      rw [i.appended]
      exact List.mem_append_left _ hm
    · cases i.hands with
      | same hh => exact .inr (hh.symm ▸ ho)
      | more hh => exact .inr (hh.symm ▸ List.mem_cons_of_mem _ ho)
      | @less id attempt hh hm hq =>
        by_cases he : (x, n.attempt) = (id, attempt)
        · -- the answered arm: the watch no longer waits for it, or it is queued
          obtain ⟨rfl, rfl⟩ := Prod.mk.inj he
          rcases hq n rearm reprove hn hs with hq | hq
          · exact absurd rfl hq
          · exact .inl (hm.symm ▸ hq)
        · refine .inr (hh.symm ▸ List.mem_filter.mpr ⟨ho, ?_⟩)
          exact decide_eq_true he
  · obtain ⟨action, hf, hout⟩ := p.front
    rcases ha with ⟨cmd, hm, rfl, hat⟩ | ho
    · rw [hf, List.mem_cons] at hm
      rcases hm with rfl | hm
      · rcases hout with ⟨-, hsup⟩ | hh
        · -- a superseded arm is not the one its watch waits for
          simp [Monitor.is_superseded_arm, Action.as_watch, hn, hat] at hsup
        · refine .inr ?_
          rw [hh]
          simp [Action.as_watch, hat]
      · exact .inl ⟨cmd, hm, rfl, hat⟩
    · rcases hout with ⟨hh, -⟩ | hh
      · exact .inr (hh.symm ▸ ho)
      · exact .inr (hh.symm ▸ List.mem_append_right _ ho)

/-- A watch whose arm is owed arms. -/
theorem Effect.owed (e : Effect c c') (ho : c'.g.owed = some x) : c.g.owed = some x ∨
    ∀ n' : WatchNode, c'.m.nodes[x]? = some n' →
      ∃ rearm reprove, n'.state = .arming rearm reprove := by
  cases e with
  | edit e => cases e <;> exact .inl ho
  | mark e => cases e <;> exact .inl ho
  | @reset m g root =>
    obtain rfl : root = x := Option.some.inj ho
    refine .inr fun n' hn' => ?_
    obtain ⟨_, _, _, _, _, he⟩ := m.reset_root_shape root
    rw [he, get_modify, if_pos rfl] at hn'
    obtain ⟨n, -, rfl⟩ := Option.map_eq_some_iff.mp hn'
    exact ⟨_, _, rfl⟩
  | adopt => cases ho
  | _ => exact .inl ho

theorem Excused.same {x : WatchId} (hx : Excused c x)
    (hh : c'.m.held_sources = c.m.held_sources) (ht : c'.g.transit = c.g.transit)
    (ho : c'.g.owed = c.g.owed) : Excused c' x := by
  unfold Excused
  rw [hh, ht, ho]
  exact hx

theorem Effect.excused (h : Inv c) (e : Effect c c') {rearm reprove : Bool}
    (hx : Excused c x) (hn' : c'.m.nodes[x]? = some n') (hs : n'.state = .arming rearm reprove) :
    Awaited c'.m c'.g x n'.attempt ∨ Excused c' x := by
  cases e with
  | edit e =>
    apply Or.inr
    cases e with
    | @register m g scope mask caps hw hr =>
      obtain ⟨_, _, _, _, -, -, -, -, -, -, -, -, he⟩ := Monitor.register_eq mask caps hr
      exact hx.same (by rw [he]) rfl rfl
    | @plant m g parent scope name is_dir identity hw hp ha hs =>
      have hpn : parent ≠ m.watch_ids.next := by
        intro hp
        exact Nat.lt_irrefl _ (hp ▸ ha.minted)
      exact hx.same (by rw [Monitor.plant_eq scope name is_dir identity hpn]) rfl rfl
    | reserve => exact hx.same rfl rfl rfl
    | @graft m g scope reserved last old_root =>
      obtain ⟨_, he, -⟩ := m.graft_eq scope reserved last old_root
      exact hx.same (by rw [he]) rfl rfl
    | @hold m g scope src parent name hw ht hp hs =>
      obtain ⟨_, _, _, -, -, he⟩ := Monitor.take_source_eq scope hp (h.unheld hp hs)
      rcases hx with hx | hx | hx
      · apply Or.inl
        show x ∈ (m.take_source scope src).held_sources
        rw [he]
        exact ExtTreeSet.mem_insert.mpr (.inr hx)
      · rw [show g.transit = some x from hx] at ht
        cases ht
      · exact .inr (.inr hx)
    | @rekey m g child new_parent new_name =>
      obtain ⟨_, he⟩ := m.rekey_eq child new_parent new_name
      exact hx.same (by rw [he]) rfl rfl
    | uproot => exact hx.same rfl rfl rfl
    | @remove m g walk id stack node hw hs hid =>
      have d := remove_death walk.erased hid
      rcases hx with hx | hx | hx
      · apply Or.inl
        show x ∈ (m.remove_node id node walk.erased).1.held_sources
        rw [d.held_sources, ExtTreeSet.mem_erase]
        refine ⟨?_, hx⟩
        intro hc
        obtain rfl : id = x := compare_eq_iff_eq.mp hc
        rw [d.dead] at hn'
        cases hn'
      · exact .inr (.inl hx)
      · exact .inr (.inr hx)
  | mark e =>
    apply Or.inr
    cases e with
    | record_marker => exact hx.same rfl rfl rfl
    | @stage m g dir scope =>
      obtain ⟨_, _, he, -⟩ := stage_adoption_eq (m := m) dir scope
      exact hx.same (by rw [he]) rfl rfl
    | @take_marker m g parent scope =>
      exact hx.same (by rw [(m.take_adoption_marker_eq parent scope).1]) rfl rfl
    | unstage => exact hx.same rfl rfl rfl
  | @deliver m m' g e =>
    refine .inr (hx.same ?_ rfl rfl)
    show m'.held_sources = m.held_sources
    rw [e.shape]
    rfl
  | @ledger m m' g e =>
    refine .inr (hx.same ?_ rfl rfl)
    show m'.held_sources = m.held_sources
    rw [e.shape]
    rfl
  | @work m m' g e =>
    refine .inr (hx.same ?_ rfl rfl)
    show m'.held_sources = m.held_sources
    rw [e.shape]
    rfl
  | @ask m g parent scope name =>
    obtain ⟨_, _, _, _, _, -, -, -, he⟩ := queue_stat_eq (m := m) parent scope name
    exact .inr (hx.same (by rw [he]) rfl rfl)
  | @ack m g id =>
    obtain ⟨_, _, _, he⟩ := m.set_state_shape id .live
    exact .inr (hx.same (by rw [he]) rfl rfl)
  | @finish m g req dir =>
    obtain ⟨_, _, _, he⟩ := (m.forget_read req).set_state_shape dir .live
    refine .inr (hx.same ?_ rfl rfl)
    show ((m.forget_read req).set_state dir .live).held_sources = m.held_sources
    rw [he]
    rfl
  | @reset m g root ha ho =>
    obtain ⟨_, _, _, _, _, he⟩ := m.reset_root_shape root
    rcases hx with hx | hx | hx
    · refine .inr (.inl ?_)
      show x ∈ (m.reset_root root).held_sources
      rw [he]
      exact hx
    · exact .inr (.inr (.inl hx))
    · rw [show g.owed = some x from hx] at ho
      cases ho
  | @adopt m g id ho =>
    rcases hx with hx | hx | hx
    · exact .inr (.inl hx)
    · exact .inr (.inr (.inl hx))
    · -- the arm that was owed is handed out
      obtain rfl : id = x := Option.some.inj (ho.symm.trans hx)
      have hn' : (m.nodes.modify id fun n => { n with
        attempt := m.arm_attempts.next, placement := m.placement_clock })[id]? = some n' := hn'
      rw [get_modify, if_pos rfl] at hn'
      obtain ⟨n, -, rfl⟩ := Option.map_eq_some_iff.mp hn'
      exact .inl (.inr List.mem_cons_self)
  | @land m g src ht hl =>
    rcases hx with hx | hx | hx
    · exact .inr (.inl hx)
    · obtain rfl : src = x := Option.some.inj (ht.symm.trans hx)
      rcases hl with hd | hl
      · rw [show m.nodes[src]? = some n' from hn'] at hd
        cases hd
      · exact .inl (hl.armed n' rearm reprove hn' hs)
    · exact .inr (.inr (.inr hx))
  | @close_drop m g walk =>
    refine .inr (hx.same ?_ rfl rfl)
    show (m.discharge walk).1.held_sources = m.held_sources
    obtain he | ⟨_, d₁, d₂⟩ | l := discharge_cases (m := m) walk
    · rw [he]
    · rw [d₂.shape, d₁.shape]
      rfl
    · rw [l.shape]
      rfl
  | @park m g scope cookie pending ht hk hs =>
    obtain ⟨_, he⟩ := m.park_shape scope cookie pending
    have held : ∀ y ∈ m.held_sources,
        y ∈ (m.park_pending_move scope cookie pending).1.held_sources := by
      rw [he]
      exact fun y hy => hy
    rcases hx with hx | hx | hx
    · exact .inr (.inl (held x hx))
    · exact .inr (.inl (held x (hs x (ht.symm.trans hx)).1))
    · exact .inr (.inr (.inr hx))
  | @take m g key half ht =>
    rcases hx with hx | hx | hx
    · exact .inr (.inl hx)
    · rw [show g.transit = some x from hx] at ht
      cases ht
    · exact .inr (.inr (.inr hx))
  | @release m g scope src ht =>
    obtain ⟨_, _, he⟩ := m.release_hold_shape scope src
    by_cases hxs : src = x
    · subst hxs
      exact .inr (.inr (.inl ht))
    · rcases hx with hx | hx
      · refine .inr (.inl ?_)
        show x ∈ (m.release_hold scope src).1.held_sources
        rw [he, ExtTreeSet.mem_erase]
        exact ⟨fun hc => hxs (compare_eq_iff_eq.mp hc), hx⟩
      · exact .inr (.inr hx)
  | @reprofile m g scope caps =>
    obtain ⟨_, _, he⟩ := m.reprofile_shape scope caps
    exact .inr (hx.same (by rw [he]) rfl rfl)
  | @dispatch m g action rest =>
    obtain ⟨_, -, he⟩ := Monitor.dispatch_shape (m := { m with actions := rest }) action
    exact .inr (hx.same (by rw [he]) rfl rfl)
  | _ => exact .inr (hx.same rfl rfl rfl)

/-- A watch that arms after an effect armed before it, or its arm is issued. -/
theorem Turn.armed (t : Turn c c' x n n') {rearm reprove : Bool}
    (hs : n'.state = .arming rearm reprove) :
    (n'.attempt = n.attempt ∧ ∃ rearm reprove, n.state = .arming rearm reprove) ∨
      Awaited c'.m c'.g x n'.attempt ∨ Excused c' x := by
  cases t with
  | read => cases hs
  | dirty => cases hs
  | ack => cases hs
  | finish => cases hs
  | arm h hlt hq => exact .inr (.inl (.inl hq))
  | reprove h ha hlt hq => exact .inr (.inl (.inl hq))
  | adopt ho hlt hq => exact .inr (.inl (.inr hq))
  | reset ha ho => exact .inr (.inr (.inr (.inr ho)))
  | hold hh => exact .inr (.inr (.inl hh))
  | count _ h => exact .inl ⟨rfl, _, _, h⟩
  | _ => exact .inl ⟨rfl, _, _, hs⟩

theorem Effect.arms (h : Inv c) (hA : Arms c) (e : Effect c c') : Arms c' where
  minted x n' hn' := by
    have hle := e.attempts_le h
    rcases e.turn h hn' with ⟨n, hn, t⟩ | b
    · rcases t.attempt with he | ⟨he, hlt⟩
      · rw [he]
        exact Nat.lt_of_lt_of_le (hA.minted x n hn) hle
      · rw [he]
        exact hlt
    · exact b.minted.2
  issued x a ha := by
    have hle := e.attempts_le h
    rcases e.awaited h ha with hold | ⟨-, hhi, hn⟩
    · obtain ⟨hlt, hall⟩ := hA.issued x a hold
      refine ⟨Nat.lt_of_lt_of_le hlt hle, fun n' hn' => ?_⟩
      rcases e.turn h hn' with ⟨n, hn, t⟩ | b
      · rcases t.attempt with he | ⟨he, -⟩
        · rw [he]
          exact hall n hn
        · rw [he]
          exact Nat.le_of_lt hlt
      · exact Nat.le_trans (Nat.le_of_lt hlt) b.minted.1
    · refine ⟨hhi, fun n' hn' => ?_⟩
      rw [hn n' hn']
      exact Nat.le_refl _
  owed x n' ho hn' := by
    rcases e.owed ho with hold | hnew
    · rcases e.turn h hn' with ⟨n, hn, t⟩ | b
      · obtain ⟨rearm, reprove, hs⟩ := hA.owed x n hold hn
        rcases t.arming hs with hs' | ⟨hnone, -⟩
        · exact hs'
        · rw [hold] at hnone
          cases hnone
      · obtain ⟨rearm, hs⟩ := b.armed
        exact ⟨rearm, false, hs⟩
    · exact hnew n' hn'
  awaited x n' rearm reprove hn' hs := by
    rcases e.turn h hn' with ⟨n, hn, t⟩ | b
    · rcases t.armed hs with ⟨he, rearm', reprove', hs'⟩ | hx
      · rcases hA.awaited x n rearm' reprove' hn hs' with ha | hx
        · rw [he]
          exact .inl (e.awaits h hn hs' ha)
        · exact e.excused h hx hn' hs
      · exact hx
    · exact .inl b.asked

end Proto
