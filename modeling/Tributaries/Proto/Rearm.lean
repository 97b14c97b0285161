import Tributaries.Proto.Emit

/-! # Arms, reads and re-arm work

  The states of one node and the work queued for it: arms under fresh
  attempts, enumerates under fresh requests, and the per-scope counters
  the settlement reads are taken from.  A node is counted while its state
  `is_rearm`; `set_state` and `insert_node` are the only writers of the
  counter besides a node's removal.
-/

open Std Collections

namespace Proto

namespace Monitor

variable (m : Monitor)

/-- `if let Some(node) = nodes.get_mut(&id)`. -/
def modify_node (id : WatchId) (f : WatchNode → WatchNode) : Monitor :=
  { m with nodes := m.nodes.modify id f }

/-! ### Settle counters -/

def acquired_coverage_work (scope : ScopeId) : Monitor :=
  { m with
    coverage_work_epochs :=
      m.coverage_work_epochs.insert scope (m.coverage_work_count scope + 1) }

/-- `*entry(scope).or_insert(0) += 1`. -/
def count_up (counts : Map ScopeId Nat) (scope : ScopeId) : Map ScopeId Nat :=
  counts.insert scope ((counts[scope]?).getD 0 + 1)

/-- `*count -= by`, removing the entry at zero. -/
def count_down (counts : Map ScopeId Nat) (scope : ScopeId) (amount : Nat) : Map ScopeId Nat :=
  match counts[scope]? with
  | some count =>
    if count - amount = 0 then counts.erase scope else counts.insert scope (count - amount)
  | none => counts

def rearm_pending_inc (scope : ScopeId) : Monitor :=
  { m with rearm_pending := count_up m.rearm_pending scope }.acquired_coverage_work scope

def rearm_pending_dec (scope : ScopeId) : Monitor :=
  { m with rearm_pending := count_down m.rearm_pending scope 1 }

def held_by_scope_inc (scope : ScopeId) : Monitor :=
  { m with held_by_scope := count_up m.held_by_scope scope }.acquired_coverage_work scope

def held_by_scope_dec (scope : ScopeId) : Monitor :=
  { m with held_by_scope := count_down m.held_by_scope scope 1 }

def stat_loss_inc (scope : ScopeId) : Monitor :=
  { m with stat_losses := count_up m.stat_losses scope }

def stat_loss_dec (scope : ScopeId) (amount : Nat) : Monitor :=
  if amount = 0 then m else { m with stat_losses := count_down m.stat_losses scope amount }

def latent_cold_insert (req : ReqId) (scope : ScopeId) : Monitor :=
  let m₁ := { m with latent_cold := m.latent_cold.insert req scope }
  if m.latent_cold.contains req then m₁ else m₁.acquired_coverage_work scope

/-! ### Node states -/

/-- Whether a transition enters a counted arm that was not one before. -/
def enters_fresh (state was : NodeState) : Bool :=
  match state, was with
  | .arming true false, .arming true _ => false
  | .arming true false, _ => true
  | _, _ => false

/-- Moves a node to a state, counting the re-arm work it enters or leaves. -/
def set_state (id : WatchId) (state : NodeState) : Monitor :=
  match m.nodes[id]? with
  | none => m
  | some node =>
    let was := node.state.is_rearm
    let now_rearm := state.is_rearm
    let m₁ := m.modify_node id fun n => { n with state := state }
    let m₂ := if enters_fresh state node.state then m₁.bridge_fresh_rearm node.scope else m₁
    if was == now_rearm then m₂
    else if now_rearm then m₂.rearm_pending_inc node.scope
    else m₂.rearm_pending_dec node.scope

/-- Marks the read outstanding at a node, if any, as overtaken. -/
def mark_enumerate_dirty (watch : WatchId) : Monitor :=
  m.modify_node watch fun n =>
    match n.state with
    | .enumerating req kind attempts _ => { n with state := .enumerating req kind attempts true }
    | _ => n

/-- Births a node; a birth into counted work is counted. -/
def insert_node (id : WatchId) (node : WatchNode) : Monitor :=
  let m₁ := if node.state.is_rearm then m.rearm_pending_inc node.scope else m
  let m₂ := if node.state = .arming true false then m₁.bridge_fresh_rearm node.scope else m₁
  { m₂ with nodes := m₂.nodes.insert id node }

/-! ### Minting attempts and requests -/

def next_arm_attempt : Monitor × ArmAttempt :=
  let (attempt, arm_attempts) := m.arm_attempts.mint
  ({ m with arm_attempts := arm_attempts }, attempt)

def next_req_id : Monitor × ReqId :=
  let (req, req_ids) := m.req_ids.mint
  ({ m with req_ids := req_ids }, req)

/-- Queues an arm under a fresh attempt, which becomes the node's current one. -/
def queue_watch (id : WatchId) (target : WatchTarget) (mask : Interest) : Monitor :=
  let (m₁, attempt) := m.next_arm_attempt
  let placement := m₁.placement_now
  let m₂ := m₁.modify_node id fun n => { n with attempt := attempt, placement := placement }
  { m₂ with actions := m₂.actions ++ [.watch ⟨id, attempt, target, mask⟩] }

/-- Gives the node a fresh attempt without queueing an arm for it. -/
def adopt_arm (id : WatchId) : Monitor × ArmAttempt :=
  let (m₁, attempt) := m.next_arm_attempt
  let placement := m₁.placement_now
  (m₁.modify_node id fun n => { n with attempt := attempt, placement := placement }, attempt)

def retire_arm (watch : WatchId) : Monitor := (m.adopt_arm watch).1

/-- Re-issues the arm of a node at its own slot. -/
def queue_slot_arm (watch : WatchId) (scope : ScopeId) : Monitor × Bool :=
  match m.nodes[watch]? with
  | none => (m, false)
  | some node =>
    let target :=
      match node.parent, node.name with
      | some parent, some name => WatchTarget.child parent name
      | _, _ => WatchTarget.rearmRoot scope
    (m.queue_watch watch target (coverage_mask (m.scope_interest scope)), true)

/-- Re-issues an arm stamped with the scope's loss generation. -/
def queue_reinstall (watch : WatchId) (scope : ScopeId) : Monitor :=
  let (m₁, queued) := m.queue_slot_arm watch scope
  if !queued then m₁
  else { m₁ with reprove_stamps := m₁.reprove_stamps.insert watch (m₁.loss_gen scope) }

/-- Re-issues an arm whose address a move invalidated. -/
def readdress_outstanding_arm (watch : WatchId) : Monitor :=
  match m.nodes[watch]? with
  | none => m
  | some node =>
    match node.state with
    | .arming _ reprove =>
      if reprove then m.queue_reinstall watch node.scope
      else (m.queue_slot_arm watch node.scope).1
    | _ => m

/-! ### Reads -/

/-- Forgets an outstanding read. -/
def forget_read (req : ReqId) : Monitor :=
  { m with
    pending_enumerate := m.pending_enumerate.erase req
    latent_cold := m.latent_cold.erase req }

/-- Queues a read of a directory, superseding the one outstanding. -/
def queue_enumerate (dir : WatchId) (kind : EnumKind) (attempts : Nat) : Monitor :=
  match m.state_of dir with
  | none => m
  | some state =>
    let m₁ :=
      match state with
      | .enumerating prior _ _ _ => m.forget_read prior
      | _ => m
    let (m₂, req) := m₁.next_req_id
    let m₃ := { m₂ with pending_enumerate := m₂.pending_enumerate.insert req dir }
    let placement := m₃.placement_now
    let m₄ := m₃.modify_node dir fun n => { n with placement := placement }
    let m₅ := m₄.set_state dir (.enumerating req kind attempts false)
    { m₅ with actions := m₅.actions ++ [.enumerate req dir] }

/-- Begins a re-arm read, or dirties the read outstanding. -/
def start_rearm (dir : WatchId) : Monitor × RearmKickoff :=
  match m.scope_of dir with
  | none => (m, .refused)
  | some scope =>
    if !m.scope_descends scope then (m, .refused)
    else
      match m.state_of dir with
      | some .live => (m.queue_enumerate dir (.rearm false) 0, .started)
      | some (.enumerating req kind _ _) =>
        let m₁ := m.set_state dir (.enumerating req kind 0 true)
        match kind with
        | .cold => (m₁.latent_cold_insert req scope, .coalesced)
        | .rearm _ => (m₁, .started)
      | _ => (m, .refused)

/-- Transfers a re-arm obligation onto a watch. -/
def inherit_rearm (watch : WatchId) : Monitor × RearmKickoff :=
  match m.state_of watch with
  | some .live | some (.enumerating _ _ _ _) => m.start_rearm watch
  | some (.arming _ reprove) => (m.set_state watch (.arming true reprove), .started)
  | none => (m, .refused)

/-- Re-proves a binding: the node arms again before it is read. -/
def start_reinstall (watch : WatchId) : Monitor :=
  match m.scope_of watch with
  | none => m
  | some scope =>
    match m.state_of watch with
    | some .live => (m.set_state watch (.arming true true)).queue_reinstall watch scope
    | some (.enumerating req _ _ _) =>
      ((m.forget_read req).set_state watch (.arming true true)).queue_reinstall watch scope
    | some (.arming _ _) =>
      let m₁ := m.set_state watch (.arming true true)
      -- the outstanding arm predates the loss, so its stamp is a past generation
      let stale := m₁.loss_gen scope - 1
      { m₁ with reprove_stamps := m₁.reprove_stamps.insertIfNew watch stale }
    | none => m

/-- Re-arms a healed directory, through a reproof where the scope needs one. -/
def heal_kick (scope : ScopeId) (dir : WatchId) : Monitor :=
  if m.scope_needs_reproof scope then m.start_reinstall dir else (m.inherit_rearm dir).1

def apply_descent (watch : WatchId) : StatDescent → Monitor
  | .reprove => m.start_reinstall watch
  | .rearm => (m.inherit_rearm watch).1

def rescan_and_rearm (scope : ScopeId) (dir : WatchId) : Monitor :=
  let m₁ := (m.emit_rescan scope (m.location_of dir)).1
  (m₁.start_rearm dir).1

/-- A root `Rescan` that opens counted re-arm work at the root. -/
def stand_counted_cover (scope : ScopeId) : Monitor :=
  if !m.scope_descends scope then m
  else
    match m.roots[scope]? with
    | none => m
    | some root =>
      let m₁ := (m.emit_rescan scope (m.location_of root)).1
      (m₁.inherit_rearm root).1

/-! ### Loss generations and placements -/

def bump_loss_gen (scope : ScopeId) : Monitor :=
  { m with loss_gens := m.loss_gens.insert scope (m.loss_gen scope + 1) }

/-- A whole-scope loss: re-read the root, or re-prove every binding below it. -/
def scope_loss_recovery (scope : ScopeId) (root : WatchId) : Monitor :=
  if !m.scope_reproves_bindings scope then m.rescan_and_rearm scope root
  else
    let m₁ := m.bump_loss_gen scope
    let m₂ := (m₁.emit_rescan scope (m₁.location_of root)).1
    m₂.start_reinstall root

/-- Advances the placement clock and stamps the watch with it. -/
def moved_placement (watch : WatchId) : Monitor :=
  let now := m.placement_clock + 1
  { m with placement_clock := now }.modify_node watch fun n => { n with moved_at := now }

/-- `dirtied_holds.insert(source)`. -/
def book_hold (source : WatchId) : Monitor :=
  { m with dirtied_holds := m.dirtied_holds.insert source }

/-- What a result issued at `stamp` may be trusted for; a held one books its hold. -/
def fence_lowering (watch : WatchId) (stamp : Nat) : Monitor × Lowering :=
  let held := m.in_held_subtree watch
  let m₁ :=
    match held with
    | some source => m.book_hold source
    | none => m
  (m₁, ⟨held, m₁.placement_moved_since watch stamp⟩)

end Monitor

end Proto
