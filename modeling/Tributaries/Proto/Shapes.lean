import Tributaries.Proto.Effects

/-! # Which fields an effect writes

  Each lemma here says of one source function that its result is the
  Monitor it was given with a few fields replaced.  A field that is not
  named is unchanged by definition, so an invariant over other fields is
  kept without looking at the function again.
-/

open Std Collections

namespace Proto

theorem modify_absent {K V : Type} [Ord K] [TransOrd K] [LawfulEqOrd K] [DecidableEq K]
    {t : Map K V} {k : K} {f : V → V} (h : t[k]? = none) : t.modify k f = t := by
  refine ExtTreeMap.ext_getElem? fun a => ?_
  rw [get_modify]
  grind

theorem erase_absent {K V : Type} [Ord K] [TransOrd K] [LawfulEqOrd K] [DecidableEq K]
    {t : Map K V} {k : K} (h : t[k]? = none) : t.erase k = t := by
  refine ExtTreeMap.ext_getElem? fun a => ?_
  rw [get_erase]
  grind

theorem set_erase_absent {K : Type} [Ord K] [TransOrd K] [LawfulEqOrd K]
    {s : OSet K} {k : K} (h : s.contains k = false) : s.erase k = s := by
  refine ExtTreeSet.ext_contains fun a => ?_
  rw [ExtTreeSet.contains_erase]
  by_cases hk : k = a
  · subst hk
    simp [h]
  · simp [hk]

theorem modify_modify {K V : Type} [Ord K] [TransOrd K] [LawfulEqOrd K] [DecidableEq K]
    {t : Map K V} {k : K} {f g : V → V} :
    (t.modify k f).modify k g = t.modify k fun v => g (f v) := by
  refine ExtTreeMap.ext_getElem? fun a => ?_
  simp only [get_modify]
  grind

theorem modify_insert {K V : Type} [Ord K] [TransOrd K] [LawfulEqOrd K] [DecidableEq K]
    {t : Map K V} {k : K} {v : V} {f : V → V} :
    (t.insert k v).modify k f = t.insert k (f v) := by
  refine ExtTreeMap.ext_getElem? fun a => ?_
  simp only [get_modify, get_insert]
  grind

namespace Monitor

variable {m : Monitor} {k : Option Answer}

/-! ### Delivery -/

theorem emit_shape (scope : ScopeId) (location : Location) (kind : ChangeKind)
    (evidence : Evidence) (is_dir : Option Bool) :
    ∃ ids events, (m.emit scope location kind evidence is_dir).1 =
      { m with change_ids := ids, events := events } := by
  unfold emit
  split
  · exact ⟨_, _, rfl⟩
  · split
    · exact ⟨_, _, rfl⟩
    · exact ⟨_, _, rfl⟩

theorem mint_shape (scope : ScopeId) (location : Location) :
    ∃ ids events epochs, (m.mint_rescan scope location).1 =
      { m with change_ids := ids, events := events, scope_epochs := epochs } := by
  unfold mint_rescan
  split
  · exact ⟨_, _, _, rfl⟩
  · obtain ⟨ids, events, h⟩ :=
      (m.bump_epoch scope).emit_shape scope location .rescan Evidence.new none
    exact ⟨ids, events, _, h⟩

theorem saw_rescan_shape (scope : ScopeId) :
    ∃ bridge, m.bridge_saw_rescan scope = { m with bridge := bridge } := by
  unfold bridge_saw_rescan
  split
  · exact ⟨_, rfl⟩
  · exact ⟨_, rfl⟩

theorem fresh_rearm_shape (scope : ScopeId) :
    ∃ bridge, m.bridge_fresh_rearm scope = { m with bridge := bridge } := by
  unfold bridge_fresh_rearm
  split
  · exact ⟨_, rfl⟩
  · exact ⟨_, rfl⟩

theorem bootstrap_shape (scope : ScopeId) :
    ∃ bridge, m.bridge_bootstrap scope = { m with bridge := bridge } := by
  unfold bridge_bootstrap
  split
  · exact ⟨_, rfl⟩
  · exact ⟨_, rfl⟩

theorem emit_rescan_shape (scope : ScopeId) (location : Location) :
    ∃ ids events epochs bridge, (m.emit_rescan scope location).1 =
      { m with change_ids := ids, events := events, scope_epochs := epochs, bridge := bridge } := by
  obtain ⟨bridge, hb⟩ := m.saw_rescan_shape scope
  obtain ⟨ids, events, epochs, h⟩ := (m.bridge_saw_rescan scope).mint_shape scope location
  refine ⟨ids, events, epochs, bridge, ?_⟩
  rw [emit_rescan, h, hb]

theorem settle_bridge_shape (scope : ScopeId) :
    ∃ ids events epochs bridge, m.settle_bridge scope =
      { m with change_ids := ids, events := events, scope_epochs := epochs, bridge := bridge } := by
  unfold settle_bridge
  split
  · exact ⟨_, _, _, _, rfl⟩
  · dsimp only
    split
    · obtain ⟨ids, events, epochs, bridge, h⟩ := m.emit_rescan_shape scope []
      rw [h]
      exact ⟨_, _, _, _, rfl⟩
    · exact ⟨_, _, _, _, rfl⟩

/-! ### Node states -/

theorem set_state_shape (id : WatchId) (state : NodeState) :
    ∃ bridge pending work, m.set_state id state =
      { m with
        nodes := m.nodes.modify id fun n => { n with state := state }
        bridge := bridge
        rearm_pending := pending
        coverage_work_epochs := work } := by
  unfold set_state
  split
  · rename_i h
    exact ⟨m.bridge, m.rearm_pending, m.coverage_work_epochs, by rw [modify_absent h]⟩
  · rename_i node h
    dsimp only
    obtain ⟨bridge, hb⟩ : ∃ bridge,
        (if enters_fresh state node.state then
            (m.modify_node id fun n => { n with state := state }).bridge_fresh_rearm node.scope
          else m.modify_node id fun n => { n with state := state }) =
        { m with
          nodes := m.nodes.modify id fun n => { n with state := state }
          bridge := bridge } := by
      split
      · obtain ⟨bridge, hb⟩ :=
          (m.modify_node id fun n => { n with state := state }).fresh_rearm_shape node.scope
        exact ⟨bridge, hb⟩
      · exact ⟨_, rfl⟩
    rw [hb]
    split
    · exact ⟨_, _, _, rfl⟩
    · split
      · exact ⟨_, _, _, rfl⟩
      · exact ⟨_, _, _, rfl⟩

theorem insert_node_shape (id : WatchId) (node : WatchNode) :
    ∃ bridge pending work, m.insert_node id node =
      { m with
        nodes := m.nodes.insert id node
        bridge := bridge
        rearm_pending := pending
        coverage_work_epochs := work } := by
  unfold insert_node
  dsimp only
  by_cases hr : node.state.is_rearm = true
  · simp only [if_pos hr]
    split
    · obtain ⟨bridge, hb⟩ := (m.rearm_pending_inc node.scope).fresh_rearm_shape node.scope
      rw [hb]
      exact ⟨_, _, _, rfl⟩
    · exact ⟨_, _, _, rfl⟩
  · simp only [if_neg hr]
    split
    · obtain ⟨bridge, hb⟩ := m.fresh_rearm_shape node.scope
      rw [hb]
      exact ⟨_, _, _, rfl⟩
    · exact ⟨_, _, _, rfl⟩

theorem latent_insert_shape (req : ReqId) (scope : ScopeId) :
    ∃ work, m.latent_cold_insert req scope =
      { m with
        latent_cold := m.latent_cold.insert req scope
        coverage_work_epochs := work } := by
  unfold latent_cold_insert
  dsimp only
  split
  · exact ⟨_, rfl⟩
  · exact ⟨_, rfl⟩

/-- A queued arm: the node's attempt and stamp, and the action. -/
theorem queue_watch_eq (id : WatchId) (target : WatchTarget) (mask : Interest) :
    m.queue_watch id target mask =
      { m with
        arm_attempts := ⟨m.arm_attempts.next.succ⟩
        nodes := m.nodes.modify id fun n =>
          { n with attempt := m.arm_attempts.next, placement := m.placement_clock }
        actions := m.actions ++ [.watch ⟨id, m.arm_attempts.next, target, mask⟩] } := rfl

theorem queue_slot_arm_eq {watch : WatchId} (scope : ScopeId) {node : WatchNode}
    (h : m.nodes[watch]? = some node) :
    ∃ target mask, m.queue_slot_arm watch scope = (m.queue_watch watch target mask, true) := by
  simp only [queue_slot_arm, h]
  exact ⟨_, _, rfl⟩

theorem queue_reinstall_eq {w : WatchId} (scope : ScopeId) {n : WatchNode}
    (h : m.nodes[w]? = some n) :
    ∃ target mask, m.queue_reinstall w scope =
      { m.queue_watch w target mask with
        reprove_stamps := m.reprove_stamps.insert w (m.loss_gen scope) } := by
  obtain ⟨target, mask, he⟩ := m.queue_slot_arm_eq scope h
  refine ⟨target, mask, ?_⟩
  simp only [queue_reinstall, he]
  rfl

/-! ### Groups of fields -/

/-- `m` with the delivery side of another Monitor. -/
def with_delivery (m d : Monitor) : Monitor :=
  { m with
    change_ids := d.change_ids
    events := d.events
    scope_epochs := d.scope_epochs
    bridge := d.bridge }

/-- `m` with the ledgers of another Monitor. -/
def with_ledgers (m l : Monitor) : Monitor :=
  { m with
    move_window := l.move_window
    pending_stat := l.pending_stat
    stat_slots := l.stat_slots
    stat_losses := l.stat_losses
    owed_descents := l.owed_descents
    dirtied_holds := l.dirtied_holds
    dark_installs := l.dark_installs
    bridge := l.bridge
    deficits := l.deficits
    loss_gens := l.loss_gens
    reprove_stamps := l.reprove_stamps }

/-- `m` with the node states and the queued work of another Monitor. -/
def with_work (m w : Monitor) : Monitor :=
  { m with
    req_ids := w.req_ids
    arm_attempts := w.arm_attempts
    nodes := w.nodes
    rearm_pending := w.rearm_pending
    pending_enumerate := w.pending_enumerate
    latent_cold := w.latent_cold
    bridge := w.bridge
    coverage_work_epochs := w.coverage_work_epochs
    reprove_stamps := w.reprove_stamps
    actions := w.actions }

theorem gc_book_shape (scope : ScopeId) :
    ∃ deficits, m.gc_deficit_book scope = { m with deficits := deficits } := by
  unfold gc_deficit_book
  split
  · split
    · exact ⟨_, rfl⟩
    · exact ⟨_, rfl⟩
  · exact ⟨_, rfl⟩

/-- Updates of outstanding stats that leave each the question it was. -/
def Restats (stat stat' : Map ReqId StatSlot) : Prop :=
  ∀ (req : ReqId) (slot' : StatSlot), stat'[req]? = some slot' →
    ∃ slot : StatSlot, stat[req]? = some slot ∧ slot'.parent = slot.parent ∧ slot'.name = slot.name ∧ slot'.scope = slot.scope

theorem Restats.refl (stat : Map ReqId StatSlot) : Restats stat stat :=
  fun _ slot h => ⟨slot, h, rfl, rfl, rfl⟩

theorem Restats.trans {s₁ s₂ s₃ : Map ReqId StatSlot} (h : Restats s₁ s₂) (h' : Restats s₂ s₃) :
    Restats s₁ s₃ := by
  intro req slot hs
  obtain ⟨slot₂, h₂, hp₂, hn₂, hc₂⟩ := h' req slot hs
  obtain ⟨slot₁, h₁, hp₁, hn₁, hc₁⟩ := h req slot₂ h₂
  exact ⟨slot₁, h₁, hp₂.trans hp₁, hn₂.trans hn₁, hc₂.trans hc₁⟩

theorem Restats.modify {stat : Map ReqId StatSlot} {req : ReqId} {f : StatSlot → StatSlot}
    (hf : ∀ s, (f s).parent = s.parent ∧ (f s).name = s.name ∧ (f s).scope = s.scope) :
    Restats stat (stat.modify req f) := by
  intro r slot' h
  rw [get_modify] at h
  split at h
  · obtain ⟨slot, hs, rfl⟩ := Option.map_eq_some_iff.mp h
    exact ⟨slot, hs, hf slot⟩
  · exact ⟨slot', h, rfl, rfl, rfl⟩

theorem modify_slot_stat_restats (parent : WatchId) (name : Segment) {f : StatSlot → StatSlot}
    (hf : ∀ s, (f s).parent = s.parent ∧ (f s).name = s.name ∧ (f s).scope = s.scope) :
    ∃ stat, Restats m.pending_stat stat ∧
      m.modify_slot_stat parent name f = { m with pending_stat := stat } := by
  unfold modify_slot_stat
  split
  · exact ⟨_, .refl _, rfl⟩
  · exact ⟨_, .modify hf, rfl⟩

theorem cover_stat_vacancy_eq (parent : WatchId) (name : Segment) :
    ∃ stat, Restats m.pending_stat stat ∧
      m.cover_stat_vacancy parent name = { m with pending_stat := stat } :=
  modify_slot_stat_restats _ _ fun _ => ⟨rfl, rfl, rfl⟩

theorem record_slot_shape (scope : ScopeId) (parent : WatchId) (name : Segment) :
    ∃ deficits, m.record_slot_deficit scope parent name = { m with deficits := deficits } := by
  unfold record_slot_deficit
  split
  · exact ⟨_, rfl⟩
  · split
    · exact ⟨_, rfl⟩
    · exact ⟨_, rfl⟩

theorem record_interior_shape (scope : ScopeId) (dir : WatchId) :
    ∃ deficits, m.record_interior_deficit scope dir = { m with deficits := deficits } := by
  unfold record_interior_deficit
  split
  · exact ⟨_, rfl⟩
  · split
    · exact ⟨_, rfl⟩
    · exact ⟨_, rfl⟩

theorem heal_slot_shape (scope : ScopeId) (parent : WatchId) (name : Segment) :
    ∃ deficits bridge stat, Restats m.pending_stat stat ∧
      (m.remove_slot_deficit scope parent name).1 =
        { m with deficits := deficits, bridge := bridge, pending_stat := stat } := by
  unfold remove_slot_deficit
  split
  · exact ⟨_, _, _, .refl _, rfl⟩
  · rename_i book _
    split
    · exact ⟨_, _, _, .refl _, rfl⟩
    · dsimp only
      obtain ⟨deficits, hg⟩ :=
        gc_book_shape (m := { m with
          deficits := m.deficits.insert scope (DeficitBook.remove_slot book parent name) }) scope
      rw [hg]
      split
      · obtain ⟨b₁, h₁⟩ :=
          saw_rescan_shape (m := { m with deficits := deficits }) scope
        obtain ⟨b₂, h₂⟩ :=
          fresh_rearm_shape (m := { m with deficits := deficits, bridge := b₁ }) scope
        obtain ⟨stat, hr, h₃⟩ :=
          modify_slot_stat_restats parent name (m := { m with deficits := deficits, bridge := b₂ })
            (f := fun slot => { slot with dark_uncovered := false }) fun _ => ⟨rfl, rfl, rfl⟩
        refine ⟨deficits, b₂, stat, hr, ?_⟩
        dsimp only
        rw [h₁, h₂, h₃]
      · exact ⟨_, _, _, .refl _, rfl⟩

theorem heal_interior_shape (scope : ScopeId) (dir : WatchId) :
    ∃ deficits bridge, m.clear_interior_deficit scope dir =
      { m with deficits := deficits, bridge := bridge } := by
  unfold clear_interior_deficit
  split
  · exact ⟨_, _, rfl⟩
  · rename_i book _
    dsimp only
    obtain ⟨deficits, hg⟩ :=
      gc_book_shape (m := { m with
        deficits := m.deficits.insert scope
          { book with interiors := book.interiors.erase dir } }) scope
    rw [hg]
    split
    · obtain ⟨b₁, h₁⟩ := saw_rescan_shape (m := { m with deficits := deficits }) scope
      obtain ⟨b₂, h₂⟩ :=
        fresh_rearm_shape (m := { m with deficits := deficits, bridge := b₁ }) scope
      exact ⟨deficits, b₂, by rw [h₁, h₂]⟩
    · exact ⟨_, _, rfl⟩

theorem take_stat_shape (req : ReqId) (slot : StatSlot) :
    ∃ losses, m.take_stat req slot =
      { m with
        pending_stat := m.pending_stat.erase req
        stat_slots := m.stat_slots.erase (slot.parent, slot.name)
        stat_losses := losses } := by
  unfold take_stat
  dsimp only
  split
  · unfold stat_loss_dec
    exact ⟨_, rfl⟩
  · exact ⟨_, rfl⟩

/-- What a superseding read or arm forgets of a node's old state. -/
def forget_state (m : Monitor) : NodeState → Monitor
  | .enumerating prior _ _ _ => m.forget_read prior
  | _ => m

theorem forget_state_shape (state : NodeState) :
    ∃ enumerates latent, m.forget_state state =
      { m with pending_enumerate := enumerates, latent_cold := latent } := by
  unfold forget_state
  split
  · exact ⟨_, _, rfl⟩
  · exact ⟨_, _, rfl⟩

/-- A read queued for a live directory. -/
theorem queue_enumerate_shape {dir : WatchId} {node : WatchNode} (h : m.nodes[dir]? = some node)
    (kind : EnumKind) (attempts : Nat) :
    ∃ pending bridge work, m.queue_enumerate dir kind attempts =
      { m with
        req_ids := ⟨m.req_ids.next.succ⟩
        nodes := m.nodes.modify dir fun n =>
          { n with
            placement := m.placement_clock
            state := .enumerating m.req_ids.next kind attempts false }
        pending_enumerate := (m.forget_state node.state).pending_enumerate.insert m.req_ids.next dir
        latent_cold := (m.forget_state node.state).latent_cold
        rearm_pending := pending
        bridge := bridge
        coverage_work_epochs := work
        actions := m.actions ++ [.enumerate m.req_ids.next dir] } := by
  have hs : m.state_of dir = some node.state := by simp [state_of, h]
  obtain ⟨enumerates, latent, hf⟩ := m.forget_state_shape node.state
  have he : m.queue_enumerate dir kind attempts =
      (let m₁ := m.forget_state node.state
       let m₂ := m₁.next_req_id.1
       let req := m₁.next_req_id.2
       let m₃ := { m₂ with pending_enumerate := m₂.pending_enumerate.insert req dir }
       let placement := m₃.placement_now
       let m₄ := m₃.modify_node dir fun n => { n with placement := placement }
       let m₅ := m₄.set_state dir (.enumerating req kind attempts false)
       { m₅ with actions := m₅.actions ++ [.enumerate req dir] }) := by
    simp only [queue_enumerate, hs]
    rfl
  rw [he, hf]
  dsimp only [next_req_id, Sequence.mint]
  obtain ⟨bridge, pending, work, hset⟩ := set_state_shape (m := modify_node
    { m with
      req_ids := ⟨m.req_ids.next.succ⟩
      pending_enumerate := enumerates.insert m.req_ids.next dir
      latent_cold := latent } dir fun n => { n with placement := m.placement_clock })
    dir (.enumerating m.req_ids.next kind attempts false)
  refine ⟨pending, bridge, work, ?_⟩
  simp only [placement_now]
  rw [hset]
  simp only [modify_node, modify_modify]

/-- A re-proof queued for a node that is not arming. -/
theorem start_reinstall_shape {watch : WatchId} {node : WatchNode}
    (h : m.nodes[watch]? = some node) (hs : ∀ rearm reprove, node.state ≠ .arming rearm reprove) :
    ∃ pending bridge work target mask, m.start_reinstall watch =
      { m with
        arm_attempts := ⟨m.arm_attempts.next.succ⟩
        nodes := m.nodes.modify watch fun n =>
          { n with
            attempt := m.arm_attempts.next
            placement := m.placement_clock
            state := .arming true true }
        pending_enumerate := (m.forget_state node.state).pending_enumerate
        latent_cold := (m.forget_state node.state).latent_cold
        rearm_pending := pending
        bridge := bridge
        coverage_work_epochs := work
        reprove_stamps := m.reprove_stamps.insert watch (m.loss_gen node.scope)
        actions := m.actions ++ [.watch ⟨watch, m.arm_attempts.next, target, mask⟩] } := by
  have hst : m.state_of watch = some node.state := by simp [state_of, h]
  have hsc : m.scope_of watch = some node.scope := by simp [scope_of, h]
  obtain ⟨enumerates, latent, hf⟩ := m.forget_state_shape node.state
  have he : m.start_reinstall watch =
      ((m.forget_state node.state).set_state watch (.arming true true)).queue_reinstall watch
        node.scope := by
    simp only [start_reinstall, hst, hsc]
    cases hn : node.state with
    | arming rearm reprove => exact absurd hn (hs rearm reprove)
    | live => rfl
    | enumerating => rfl
  obtain ⟨bridge, pending, work, hset⟩ := set_state_shape (m :=
    { m with pending_enumerate := enumerates, latent_cold := latent }) watch (.arming true true)
  rw [he, hf, hset]
  obtain ⟨target, mask, hq⟩ := queue_reinstall_eq node.scope
    (m := { m with
      nodes := m.nodes.modify watch fun n => { n with state := .arming true true }
      pending_enumerate := enumerates
      latent_cold := latent
      bridge := bridge
      rearm_pending := pending
      coverage_work_epochs := work })
    (w := watch) (n := { node with state := .arming true true })
    (by simp only [get_modify, if_true, h, Option.map_some])
  refine ⟨pending, bridge, work, target, mask, ?_⟩
  rw [hq]
  simp only [queue_watch_eq, modify_modify]
  rfl

/-- A re-proof of a node whose arm is outstanding. -/
theorem start_reinstall_arming {watch : WatchId} {node : WatchNode} {rearm reprove : Bool}
    (h : m.nodes[watch]? = some node) (hs : node.state = .arming rearm reprove) :
    ∃ pending bridge work gen, m.start_reinstall watch =
      { m with
        nodes := m.nodes.modify watch fun n => { n with state := .arming true true }
        rearm_pending := pending
        bridge := bridge
        coverage_work_epochs := work
        reprove_stamps := m.reprove_stamps.insertIfNew watch gen } := by
  obtain ⟨bridge, pending, work, hset⟩ := m.set_state_shape watch (.arming true true)
  simp only [start_reinstall, state_of, scope_of, h, hs, Option.map_some]
  rw [hset]
  exact ⟨_, _, _, _, rfl⟩

theorem redirty_shape (dir : WatchId) (scope : ScopeId) (req : ReqId) (kind : EnumKind) :
    ∃ pending bridge work, m.redirty dir scope req kind =
      { m with
        nodes := m.nodes.modify dir fun n => { n with state := .enumerating req kind 0 true }
        latent_cold := if kind = .cold then m.latent_cold.insert req scope else m.latent_cold
        rearm_pending := pending
        bridge := bridge
        coverage_work_epochs := work } := by
  obtain ⟨bridge, pending, work, hset⟩ := m.set_state_shape dir (.enumerating req kind 0 true)
  cases kind with
  | rearm reprove =>
    rw [redirty, hset]
    exact ⟨_, _, _, rfl⟩
  | cold =>
    obtain ⟨work', hl⟩ :=
      (m.set_state dir (.enumerating req .cold 0 true)).latent_insert_shape req scope
    rw [redirty, hl, hset]
    exact ⟨_, _, _, rfl⟩

/-! ### Roots and halves -/

/-- The fields a reset of a root writes. -/
theorem reset_root_eq {root : WatchId} {node : WatchNode} (hn : m.nodes[root]? = some node) :
    ∃ bridge pending work, m.reset_root root =
      { m with
        nodes := m.nodes.modify root fun n =>
          { n with state := .arming true false, identity := none }
        pending_enumerate := (m.forget_state node.state).pending_enumerate
        latent_cold := (m.forget_state node.state).latent_cold
        bridge := bridge
        rearm_pending := pending
        coverage_work_epochs := work
        reprove_stamps := m.reprove_stamps.erase root } := by
  obtain ⟨enumerates, latent, hfs⟩ := forget_state_shape (m := m) node.state
  obtain ⟨bridge, pending, work, he⟩ :=
    (m.forget_state node.state).set_state_shape root (.arming true false)
  have hr : m.reset_root root =
      modify_node { (m.forget_state node.state).set_state root (.arming true false) with
        reprove_stamps := ((m.forget_state node.state).set_state root
          (.arming true false)).reprove_stamps.erase root } root
        fun n => { n with identity := none } := by
    simp only [reset_root, state_of, hn, Option.map_some]
    cases node.state <;> rfl
  refine ⟨bridge, pending, work, ?_⟩
  rw [hr, he, hfs]
  simp only [modify_node, modify_modify]

theorem reset_root_dead {root : WatchId} (hn : m.nodes[root]? = none) :
    m.reset_root root = { m with reprove_stamps := m.reprove_stamps.erase root } := by
  simp only [reset_root, state_of, set_state, modify_node, hn, Option.map_none]
  rw [modify_absent hn]

theorem reset_root_shape (root : WatchId) :
    ∃ enumerates latent bridge pending work, m.reset_root root =
      { m with
        nodes := m.nodes.modify root fun n =>
          { n with state := .arming true false, identity := none }
        pending_enumerate := enumerates
        latent_cold := latent
        bridge := bridge
        rearm_pending := pending
        coverage_work_epochs := work
        reprove_stamps := m.reprove_stamps.erase root } := by
  cases hn : m.nodes[root]? with
  | none =>
    rw [reset_root_dead hn]
    exact ⟨_, _, _, _, _, by rw [modify_absent hn]⟩
  | some node =>
    obtain ⟨_, _, _, he⟩ := reset_root_eq hn
    exact ⟨_, _, _, _, _, he⟩

/-- The fields a release writes. -/
theorem release_hold_shape (scope : ScopeId) (src : WatchId) :
    ∃ held dirtied, (m.release_hold scope src).1 =
      { m with
        held_sources := m.held_sources.erase src
        held_by_scope := held
        dirtied_holds := dirtied } := by
  by_cases hs : m.held_sources.contains src = true
  · simp only [release_hold, if_pos hs]
    exact ⟨_, _, rfl⟩
  · simp only [release_hold, if_neg hs]
    rw [set_erase_absent (eq_false_of_ne_true hs)]
    exact ⟨_, _, rfl⟩

theorem park_shape (scope : ScopeId) (cookie : MoveCookie) (pending : PendingMove) :
    ∃ work, (m.park_pending_move scope cookie pending).1 =
      { m with
        pending_moves := m.pending_moves.insert (scope, cookie) pending
        coverage_work_epochs := work } := by
  unfold park_pending_move
  dsimp only
  split
  · exact ⟨_, rfl⟩
  · exact ⟨_, rfl⟩

theorem reprofile_shape (scope : ScopeId) (caps : Capabilities) :
    ∃ profiles bridge, m.reprofile_root scope caps =
      { m with scope_profiles := profiles, bridge := bridge } := by
  unfold reprofile_root bridge_bootstrap bridge_fresh_rearm set_bridge
  dsimp only
  repeat' split
  all_goals exact ⟨_, _, rfl⟩

theorem dispatch_shape (action : Action) :
    ∃ f : WatchNode → WatchNode, (∀ n, f n = { n with placement := (f n).placement }) ∧
      m.stamp_dispatch action =
        { m with nodes := match action.as_watch with
          | some cmd => m.nodes.modify cmd.id f
          | none => m.nodes } := by
  refine ⟨fun n => { n with placement := m.placement_clock }, fun _ => rfl, ?_⟩
  unfold stamp_dispatch
  cases action.as_watch <;> rfl

end Monitor

/-! ### Groups of effects -/

theorem Deliver.shape {m m' : Monitor} (h : Deliver m m') : m' = m.with_delivery m' := by
  cases h with
  | emit =>
    obtain ⟨ids, events, h⟩ := m.emit_shape _ _ _ _ _
    rw [h]
    rfl
  | mint =>
    obtain ⟨ids, events, epochs, h⟩ := m.mint_shape _ _
    rw [h]
    rfl
  | raise => rfl
  | settle =>
    obtain ⟨ids, events, epochs, bridge, h⟩ := m.settle_bridge_shape _
    rw [h]
    rfl

theorem Ledger.shape {m m' : Monitor} (h : Ledger m m') : m' = m.with_ledgers m' := by
  cases h with
  | record_slot =>
    obtain ⟨_, h⟩ := m.record_slot_shape _ _ _
    rw [h]
    rfl
  | record_interior =>
    obtain ⟨_, h⟩ := m.record_interior_shape _ _
    rw [h]
    rfl
  | heal_slot =>
    obtain ⟨_, _, _, -, h⟩ := m.heal_slot_shape _ _ _
    rw [h]
    rfl
  | heal_interior =>
    obtain ⟨_, _, h⟩ := m.heal_interior_shape _ _
    rw [h]
    rfl
  | gc_book =>
    obtain ⟨_, h⟩ := m.gc_book_shape _
    rw [h]
    rfl
  | take_stat =>
    obtain ⟨_, h⟩ := m.take_stat_shape _ _
    rw [h]
    rfl
  | cover_vacancy =>
    obtain ⟨_, -, h⟩ := m.cover_stat_vacancy_eq _ _
    rw [h]
    rfl
  | book_hold => rfl
  | unbook_hold => rfl
  | stamp => rfl
  | unstamp => rfl
  | bump_loss_gen => rfl
  | darken => rfl
  | lighten => rfl
  | owe => rfl
  | disown => rfl
  | spend_interior => rfl
  | spend_slot => rfl
  | spend_book => rfl
  | window => rfl

theorem Work.shape {m m' : Monitor} (h : Work k m m') : m' = m.with_work m' := by
  cases h with
  | @read dir kind attempts =>
    cases hn : m.nodes[dir]? with
    | none =>
      simp only [Monitor.queue_enumerate, Monitor.state_of, hn, Option.map_none]
      rfl
    | some node =>
      obtain ⟨_, _, _, h⟩ := m.queue_enumerate_shape hn kind attempts
      rw [h]
      rfl
  | @redirty dir scope req kind =>
    obtain ⟨_, _, _, h⟩ := m.redirty_shape dir scope req kind
    rw [h]
    rfl
  | promote =>
    obtain ⟨_, _, _, h⟩ := m.set_state_shape _ _
    rw [h]
    rfl
  | overtake => rfl
  | @reinstall watch =>
    cases hn : m.nodes[watch]? with
    | none =>
      simp only [Monitor.start_reinstall, Monitor.scope_of, hn, Option.map_none]
      rfl
    | some node =>
      by_cases hs : ∃ rearm reprove, node.state = .arming rearm reprove
      · obtain ⟨rearm, reprove, hs⟩ := hs
        obtain ⟨_, _, _, _, h⟩ := m.start_reinstall_arming hn hs
        rw [h]
        rfl
      · obtain ⟨_, _, _, _, _, h⟩ := m.start_reinstall_shape hn (by simpa using hs)
        rw [h]
        rfl
  | arm => rfl

end Proto
