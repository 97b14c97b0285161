import Tributaries.Proto.Results

/-! # The public inputs

  Every method a driver may call on a Monitor, and the transition system
  they make: an `Input` is one call with its arguments, `step` runs it.
  Each method that mutates ends in `settle_bridges`, as in the source.
-/

open Std Collections

namespace Proto

namespace Monitor

variable (m : Monitor)

/-! ### Roots -/

def register_root_with_profile (scope : ScopeId) (mask : Interest) (caps : Capabilities) :
    Monitor × Option WatchId :=
  if m.roots.contains scope then (m, none)
  else
    let (id, watch_ids) := m.watch_ids.mint
    let (m₁, attempt) := { m with watch_ids := watch_ids }.next_arm_attempt
    let m₂ :=
      { m₁ with
        scope_interests := m₁.scope_interests.insert scope mask
        scope_profiles := m₁.scope_profiles.insert scope caps }
    let m₃ := m₂.insert_node id
      { parent := none, name := none, scope, is_dir := true, attempt,
        placement := m₂.placement_now, moved_at := NEVER_MOVED, identity := none,
        state := .arming true false, children := ∅ }
    let m₄ := { m₃ with roots := m₃.roots.insert scope id }
    ((m₄.bridge_bootstrap scope).queue_watch id (.root scope) (coverage_mask mask), some id)

def register_root (scope : ScopeId) (mask : Interest) : Monitor × Option WatchId :=
  m.register_root_with_profile scope mask m.capabilities

/-- Whether the scope's root still awaits its first arm's outcome. -/
def root_arms_fresh (scope : ScopeId) : Bool :=
  match (m.roots[scope]?).bind m.state_of with
  | some (.arming true false) => true
  | _ => false

def reprofile_root (scope : ScopeId) (caps : Capabilities) : Monitor :=
  if !m.roots.contains scope then m
  else
    let m₁ := { m with scope_profiles := m.scope_profiles.insert scope caps }
    if !m₁.scope_descends scope then { m₁ with bridge := m₁.bridge.erase scope }
    else
      let m₂ := m₁.bridge_bootstrap scope
      if m₂.root_arms_fresh scope then m₂.bridge_fresh_rearm scope else m₂

def unregister_root (scope : ScopeId) : Monitor :=
  let m₁ :=
    match m.roots[scope]? with
    | none => m
    | some root =>
      let m₁ := { m with roots := m.roots.erase scope }
      let m₂ := ((m₁.drop_subtree root .teardown).1).purge_scope_pending_moves scope
      { m₂ with
        scope_interests := m₂.scope_interests.erase scope
        scope_profiles := m₂.scope_profiles.erase scope
        bridge := m₂.bridge.erase scope
        deficits := m₂.deficits.erase scope
        loss_gens := m₂.loss_gens.erase scope
        coverage_work_epochs := m₂.coverage_work_epochs.erase scope }
  m₁.settle_bridges

def drop_watch_subtree (watch : WatchId) : Monitor × Bool :=
  match m.nodes[watch]? with
  | some node =>
    if node.parent.isSome then
      (((m.drop_subtree watch .unsubscribedPrune).1).settle_bridges, true)
    else (m.settle_bridges, false)
  | none => (m.settle_bridges, false)

def rearm_watch_subtree (watch : WatchId) : Monitor × RearmKickoff :=
  match m.scope_of watch with
  | none => (m, .refused)
  | some scope =>
    if !m.scope_descends scope then (m, .refused)
    else
      let m₁ :=
        match m.state_of watch with
        | some (.arming false _) => (m.emit_rescan scope (m.location_of watch)).1
        | _ => m
      let (m₂, kick) := m₁.inherit_rearm watch
      (m₂.settle_bridges, kick)

/-- The reset of a rebound root: its read forgotten, a counted arm owed. -/
def reset_root (root : WatchId) : Monitor :=
  let m₁ :=
    match m.state_of root with
    | some (.enumerating req _ _ _) => m.forget_read req
    | _ => m
  let m₂ := m₁.set_state root (.arming true false)
  let m₃ := { m₂ with reprove_stamps := m₂.reprove_stamps.erase root }
  m₃.modify_node root fun n => { n with identity := none }

def rebind_root (scope : ScopeId) : Monitor × Option (WatchId × ArmAttempt) :=
  match m.roots[scope]? with
  | none => (m, none)
  | some root =>
    if !m.scope_descends scope then (m, none)
    else
      let m₁ := m.moved_placement root
      let m₂ := (m₁.children_of root).foldl (fun m child => (m.drop_subtree child .teardown).1) m₁
      let m₃ := m₂.purge_scope_pending_moves scope
      let m₄ := { m₃ with deficits := m₃.deficits.erase scope }
      let m₅ := m₄.reset_root root
      let m₆ := (m₅.release_adoption_marker root scope .childAlreadyDropped).1
      let (m₇, attempt) := m₆.settle_bridges.adopt_arm root
      (m₇, some (root, attempt))

def reserve_watch_id : Monitor × WatchId :=
  let (id, watch_ids) := m.watch_ids.mint
  ({ m with watch_ids := watch_ids }, id)

/-- `widen_root`.  A chain of exactly one segment is the only shape served, so
    the loop over the connectors is empty. -/
def widen_root (scope : ScopeId) (reserved : WatchId) (chain : List Segment)
    (old_identity : Option Identity) : Monitor × Option (WatchId × ArmAttempt) :=
  match m.roots[scope]?, chain, old_identity with
  | some old_root, [last], some adopted_identity =>
    if !m.scope_descends scope then (m, none)
    else if m.nodes.contains reserved then (m, none)
    else
      let (m₁, attempt) := m.next_arm_attempt
      let m₂ := m₁.insert_node reserved
        { parent := none, name := none, scope, is_dir := true, attempt,
          placement := m₁.placement_now, moved_at := NEVER_MOVED, identity := none,
          state := .arming false false, children := ∅ }
      let m₃ := (m₂.reparent old_root reserved last .rerooted).1
      let m₄ := m₃.modify_node old_root fun n => { n with identity := some adopted_identity }
      let m₅ := { m₄ with roots := m₄.roots.insert scope reserved }
      let m₆ := m₅.record_adoption_marker reserved last old_root adopted_identity scope
      (m₆.settle_bridges, some (reserved, attempt))
  | _, _, _ => (m, none)

/-! ### Signals -/

def cover_stat_loss (scope : ScopeId) : Monitor × Bool :=
  if !m.stat_loss_outstanding scope || !m.roots.contains scope then (m, false)
  else (((m.emit_rescan scope []).1).settle_bridges, true)

/-- `if let Some(book) = deficits.get_mut(&scope)`. -/
def modify_book (scope : ScopeId) (f : DeficitBook → DeficitBook) : Monitor :=
  { m with deficits := m.deficits.modify scope f }

/-- One interior hole of the re-signal; the flag says whether one was signalled. -/
def resignal_interior (scope : ScopeId) (acc : Monitor × Bool) (dir : WatchId) :
    Monitor × Bool :=
  let m := acc.1
  match m.in_held_subtree dir with
  | some hold => (m.book_hold hold, acc.2)
  | none =>
    let m₁ := (m.emit_rescan scope (m.location_of dir)).1
    let m₂ := m₁.heal_kick scope dir
    (m₂.modify_book scope fun book => { book with interiors := book.interiors.erase dir }, true)

/-- One slot hole of the re-signal. -/
def resignal_slot (scope : ScopeId) (acc : Monitor × Bool) (slot : WatchId × Segment) :
    Monitor × Bool :=
  let m := acc.1
  match m.in_held_subtree slot.1 with
  | some hold => (m.book_hold hold, acc.2)
  | none =>
    let m₁ := (m.emit_rescan scope ((m.location_of slot.1).child slot.2)).1
    let m₂ := m₁.heal_kick scope slot.1
    (m₂.modify_book scope fun book => DeficitBook.remove_slot book slot.1 slot.2, true)

/-- The slot holes of a book in key order. -/
def DeficitBook.slot_list (book : DeficitBook) : List (WatchId × Segment) :=
  book.slots.toList.flatMap fun e => e.2.toList.map fun name => (e.1, name)

def resignal_deficits (scope : ScopeId) : Monitor × Bool :=
  match m.roots[scope]? with
  | none => (m, false)
  | some root =>
    if !m.scope_descends scope then (m, false)
    else
      match m.deficits[scope]? with
      | none => (m, false)
      | some book =>
        if book.collapsed then
          let m₁ := (m.emit_rescan scope []).1
          let m₂ := m₁.heal_kick scope root
          ({ m₂ with deficits := m₂.deficits.erase scope }, true)
        else
          let acc₁ := book.interiors.toList.foldl (resignal_interior scope) (m, false)
          let acc₂ := (DeficitBook.slot_list book).foldl (resignal_slot scope) acc₁
          (acc₂.1.gc_deficit_book scope, acc₂.2)

def resignal_coverage_deficits (scope : ScopeId) : Monitor × Bool :=
  let (m₁, signaled) := m.resignal_deficits scope
  (m₁.settle_bridges, signaled)

/-- One due marker of a seal. -/
def seal_adoption (scope : ScopeId) (parent : WatchId) : Monitor :=
  match m.pending_adoptions[parent]? with
  | none => { m with staged_adoptions := m.staged_adoptions.erase (scope, parent) }
  | some marker =>
    if !m.nodes.contains marker.adopted then
      let m₁ := (m.release_adoption_marker parent scope .verdict).1
      (m₁.emit_rescan scope ((m₁.location_of parent).child marker.name)).1
    else if m.child_watch parent marker.name = some marker.adopted then
      (m.release_adoption_marker parent scope .verdict).1
    else (m.release_adoption_marker parent scope .countedRetirement).1

def seal_staged_adoptions (scope : ScopeId) (through : Nat) : Monitor :=
  let due := ((m.scope_staged scope).filter fun e => decide (e.2 ≤ through)).map fun e => e.1.2
  (due.foldl (fun m parent => m.seal_adoption scope parent) m).settle_bridges

/-! ### Records and results -/

def on_os_record (rec : OsRecord) (now : Instant) : Monitor × RecordOutcome :=
  let (m₁, outcome) := m.ingest_record rec now
  (m₁.settle_bridges, outcome)

def on_stat_result (req : ReqId) (res : StatResult) : Monitor :=
  (m.ingest_stat_result req res).settle_bridges

def on_enumerate (req : ReqId) (res : EnumerateResult) : Monitor :=
  (m.ingest_enumerate req res).settle_bridges

def on_watch_result (id : WatchId) (attempt : ArmAttempt) (res : Except WatchError WatchAck) :
    Monitor :=
  (m.ingest_watch_result id attempt res).settle_bridges

/-- One registered scope of a whole-backend overflow. -/
def overflow_root (scope : ScopeId) (root : WatchId) : Monitor :=
  (m.dirty_pending_sources_touching scope [] none none).scope_loss_recovery scope root

/-- The effect of an overflow ahead of the bridge flush. -/
def ingest_overflow : Scope → Monitor × Bool
  | .all =>
    let m₁ := m.roots.toList.foldl (fun m e => m.overflow_root e.1 e.2) m
    (m₁.dirty_held_sources none, !m.roots.isEmpty)
  | .root scope =>
    match m.roots[scope]? with
    | none => (m, false)
    | some root => ((m.overflow_root scope root).dirty_held_sources (some scope), true)
  | .subtree sub =>
    match m.in_held_subtree sub.watch with
    | some source =>
      let covered :=
        (m.scope_of sub.watch).bind fun scope => (m.roots[scope]?).map fun root => (scope, root)
      let m₁ := m.suppress_in_hold source sub.watch
      match covered with
      | some (scope, root) => ((m₁.emit_rescan scope (m₁.location_of root)).1, true)
      | none => (m₁, false)
    | none =>
      match m.scope_of sub.watch with
      | none => (m, false)
      | some scope =>
        let place := (m.location_of sub.watch).join sub.descent
        let m₁ := m.dirty_pending_sources_touching scope place none none
        let m₂ := (m₁.emit_rescan scope place).1
        ((m₂.start_rearm sub.watch).1, true)

def on_overflow (scope : Scope) : Monitor × Bool :=
  let (m₁, stands) := m.ingest_overflow scope
  (m₁.settle_bridges, stands)

def report_loss (scope : ScopeId) : Monitor × Option ChangeId :=
  match m.roots[scope]? with
  | none => (m, none)
  | some root =>
    let (m₁, queued) := m.emit_rescan scope (m.location_of root)
    (m₁.settle_bridges, queued)

def cover_domination : Scope → Monitor × Option ChangeId
  | .all => (m, none)
  | .root scope =>
    match m.roots[scope]? with
    | none => (m, none)
    | some root => m.mint_rescan scope (m.location_of root)
  | .subtree sub =>
    match m.scope_of sub.watch with
    | none => (m, none)
    | some scope =>
      if (m.in_held_subtree sub.watch).isSome then
        match m.roots[scope]? with
        | none => (m, none)
        | some root => m.mint_rescan scope (m.location_of root)
      else m.mint_rescan scope ((m.location_of sub.watch).join sub.descent)

/-! ### Time and polling -/

/-- One expired half of `handle_timeout`. -/
def expire_half (key : PendingKey) : Monitor :=
  match m.take_half key with
  | (m₁, some pending) => m₁.resolve_stored_half pending
  | (m₁, none) => m₁

def handle_timeout (now : Instant) : Monitor :=
  let expired :=
    (m.pending_moves.toList.filter fun e => !e.2.in_window now).map (·.1)
  (expired.foldl expire_half m).settle_bridges

def consume_pending_move (scope : ScopeId) (cookie : MoveCookie) : Monitor :=
  match m.take_half (scope, cookie) with
  | (m₁, some pending) => (m₁.resolve_stored_half pending).settle_bridges
  | (_, none) => m

def is_superseded_arm (action : Action) : Bool :=
  match action.as_watch with
  | none => false
  | some cmd =>
    match m.nodes[cmd.id]? with
    | some node => node.attempt != cmd.attempt
    | none => false

def stamp_dispatch (action : Action) : Monitor :=
  match action.as_watch with
  | none => m
  | some cmd =>
    let now := m.placement_now
    m.modify_node cmd.id fun n => { n with placement := now }

/-- The loop of `poll_action` over the queue. -/
def poll_action_loop : List Action → Monitor × Option Action
  | [] => ({ m with actions := [] }, none)
  | action :: rest =>
    if m.is_superseded_arm action then poll_action_loop rest
    else ({ m with actions := rest }.stamp_dispatch action, some action)

def poll_action : Monitor × Option Action := m.poll_action_loop m.actions

def poll_event : Monitor × Option Change :=
  match m.events with
  | [] => (m, none)
  | change :: rest => ({ m with events := rest }, some change)

end Monitor

/-! ### The transition system -/

/-- One public call. -/
inductive Input where
  | set_move_window (window : Duration)
  | register_root (scope : ScopeId) (mask : Interest)
  | register_root_with_profile (scope : ScopeId) (mask : Interest) (caps : Capabilities)
  | reprofile_root (scope : ScopeId) (caps : Capabilities)
  | unregister_root (scope : ScopeId)
  | drop_watch_subtree (watch : WatchId)
  | rearm_watch_subtree (watch : WatchId)
  | rebind_root (scope : ScopeId)
  | reserve_watch_id
  | widen_root (scope : ScopeId) (reserved : WatchId) (chain : List Segment)
      (old_identity : Option Identity)
  | cover_stat_loss (scope : ScopeId)
  | resignal_coverage_deficits (scope : ScopeId)
  | seal_staged_adoptions (scope : ScopeId) (through : Nat)
  | on_os_record (rec : OsRecord) (now : Instant)
  | on_stat_result (req : ReqId) (res : StatResult)
  | on_enumerate (req : ReqId) (res : EnumerateResult)
  | on_watch_result (id : WatchId) (attempt : ArmAttempt) (res : Except WatchError WatchAck)
  | on_overflow (scope : Scope)
  | report_loss (scope : ScopeId)
  | cover_domination (scope : Scope)
  | handle_timeout (now : Instant)
  | consume_pending_move (scope : ScopeId) (cookie : MoveCookie)
  | poll_action
  | poll_event

/-- What a call returns. -/
inductive Output where
  | none
  | watch (id : Option WatchId)
  | arm (armed : Option (WatchId × ArmAttempt))
  | flag (answer : Bool)
  | kickoff (kick : RearmKickoff)
  | outcome (outcome : RecordOutcome)
  | change_id (id : Option ChangeId)
  | action (action : Option Action)
  | change (change : Option Change)
deriving DecidableEq

namespace Monitor

/-- Runs one public call. -/
def step (m : Monitor) : Input → Monitor × Output
  | .set_move_window window => ({ m with move_window := window }, .none)
  | .register_root scope mask =>
    let (m₁, id) := m.register_root scope mask
    (m₁, .watch id)
  | .register_root_with_profile scope mask caps =>
    let (m₁, id) := m.register_root_with_profile scope mask caps
    (m₁, .watch id)
  | .reprofile_root scope caps => (m.reprofile_root scope caps, .none)
  | .unregister_root scope => (m.unregister_root scope, .none)
  | .drop_watch_subtree watch =>
    let (m₁, dropped) := m.drop_watch_subtree watch
    (m₁, .flag dropped)
  | .rearm_watch_subtree watch =>
    let (m₁, kick) := m.rearm_watch_subtree watch
    (m₁, .kickoff kick)
  | .rebind_root scope =>
    let (m₁, armed) := m.rebind_root scope
    (m₁, .arm armed)
  | .reserve_watch_id =>
    let (m₁, id) := m.reserve_watch_id
    (m₁, .watch (some id))
  | .widen_root scope reserved chain old_identity =>
    let (m₁, armed) := m.widen_root scope reserved chain old_identity
    (m₁, .arm armed)
  | .cover_stat_loss scope =>
    let (m₁, stood) := m.cover_stat_loss scope
    (m₁, .flag stood)
  | .resignal_coverage_deficits scope =>
    let (m₁, signaled) := m.resignal_coverage_deficits scope
    (m₁, .flag signaled)
  | .seal_staged_adoptions scope through => (m.seal_staged_adoptions scope through, .none)
  | .on_os_record rec now =>
    let (m₁, outcome) := m.on_os_record rec now
    (m₁, .outcome outcome)
  | .on_stat_result req res => (m.on_stat_result req res, .none)
  | .on_enumerate req res => (m.on_enumerate req res, .none)
  | .on_watch_result id attempt res => (m.on_watch_result id attempt res, .none)
  | .on_overflow scope =>
    let (m₁, stands) := m.on_overflow scope
    (m₁, .flag stands)
  | .report_loss scope =>
    let (m₁, id) := m.report_loss scope
    (m₁, .change_id id)
  | .cover_domination scope =>
    let (m₁, id) := m.cover_domination scope
    (m₁, .change_id id)
  | .handle_timeout now => (m.handle_timeout now, .none)
  | .consume_pending_move scope cookie => (m.consume_pending_move scope cookie, .none)
  | .poll_action =>
    let (m₁, action) := m.poll_action
    (m₁, .action action)
  | .poll_event =>
    let (m₁, change) := m.poll_event
    (m₁, .change change)

end Monitor

end Proto
