import Tributaries.Proto.Inputs

/-! # The effects of a call

  A public call of the Monitor is a sequence of small effects: one change
  queued, one node's state moved, one node removed by a drop walk, one
  half parked.  This module lists them as a step relation between
  *moments*, a moment being the Monitor in the middle of a call together
  with the ghost state that says what the call is in the middle of.

  An effect's guards are what the code checks before it, or what the
  invariants of `Tributaries.Proto.Invariants` give at that point;
  `Tributaries.Proto.Traces` shows that every call is a path of effects.
-/

open Std Collections

namespace Proto

/-! ### Ghost state -/

/-- A drop walk under way. -/
structure Walk where
  stack : List WatchId
  erased : ErasedCovers
  scope : Option ScopeId
  mode : DeficitDischarge
  anchor : Option (ScopeId × WatchId × Segment)

/-- An arm or a read that was just answered; `listing` is what a read that
    may be trusted as evidence returned. -/
structure Answer where
  watch : WatchId
  listing : Option (List DirEntry)

/-- What a call is in the middle of, and what the driver has in hand. -/
structure Ghost where
  /-- The call under way. -/
  call : Option Input
  walk : Option Walk
  /-- The move source of a half that was taken from the store. -/
  transit : Option WatchId
  answer : Option Answer
  /-- The rebound root whose arm is not handed out yet. -/
  owed : Option WatchId
  /-- The arms handed to the driver and not answered. -/
  out : List (WatchId × ArmAttempt)
  /-- The ids `reserve_watch_id` handed out and no widen used. -/
  spare : List WatchId
  /-- Whether the driver reprofiles only roots that still bootstrap. -/
  strict : Bool
  /-- The Monitor the call began with. -/
  start : Monitor

/-- The Monitor at one point of a call. -/
structure Moment where
  m : Monitor
  g : Ghost

namespace Ghost

def new (strict : Bool) (start : Monitor) : Ghost :=
  ⟨none, none, none, none, none, [], [], strict, start⟩

/-- The nodes a drop walk still has to remove. -/
def doomed (g : Ghost) : List WatchId :=
  match g.walk with
  | some walk => walk.stack
  | none => []

end Ghost

namespace Monitor

variable (m : Monitor)

/-! ### The pieces of the source functions -/

/-- `install_child` past its guards and the healing of its slot. -/
def plant (parent : WatchId) (scope : ScopeId) (name : Segment) (is_dir : Bool)
    (identity : Option Identity) : Monitor :=
  let (id, watch_ids) := m.watch_ids.mint
  let m₂ := { m with watch_ids := watch_ids }
  let (m₃, attempt) := m₂.next_arm_attempt
  let m₄ := m₃.insert_node id
    { parent := some parent, name := some name, scope, is_dir, attempt,
      placement := m₃.placement_now, moved_at := NEVER_MOVED, identity,
      state := .arming false false, children := ∅ }
  let m₅ := m₄.modify_node parent fun n => { n with children := n.children.insert id }
  let m₆ := { m₅ with child_index := m₅.child_index.insert (parent, name) id }
  m₆.queue_watch id (.child parent name) (coverage_mask (m₆.scope_interest scope))

/-- `hold_source` ahead of its booking. -/
def take_source (scope : ScopeId) (src : WatchId) : Monitor :=
  let m₁ := m.detach_child src
  if m₁.held_sources.contains src then m₁
  else { m₁ with held_sources := m₁.held_sources.insert src }.held_by_scope_inc scope

/-- The re-key of a paired source. -/
def rekey (child new_parent : WatchId) (new_name : Segment) : Monitor :=
  (m.attach_child child new_parent new_name).moved_placement child

/-- The graft of a widen: a new root above the old one. -/
def graft (scope : ScopeId) (reserved : WatchId) (last : Segment) (old_root : WatchId) :
    Monitor × ArmAttempt :=
  let (m₁, attempt) := m.next_arm_attempt
  let m₂ := m₁.insert_node reserved
    { parent := none, name := none, scope, is_dir := true, attempt,
      placement := m₁.placement_now, moved_at := NEVER_MOVED, identity := none,
      state := .arming false false, children := ∅ }
  let m₃ := m₂.attach_child old_root reserved last
  ({ m₃ with roots := m₃.roots.insert scope reserved }, attempt)

/-- The read answered by `req` is over. -/
def finish_read (req : ReqId) (dir : WatchId) : Monitor :=
  (m.forget_read req).set_state dir .live

/-- The stat answered by `req` is over. -/
def take_stat (req : ReqId) (slot : StatSlot) : Monitor :=
  let m₁ := { m with pending_stat := m.pending_stat.erase req }
  let m₂ := { m₁ with stat_slots := m₁.stat_slots.erase (slot.parent, slot.name) }
  if slot.stands_loss then m₂.stat_loss_dec slot.scope 1 else m₂

/-- The re-arm obligation of a read that is already outstanding. -/
def redirty (dir : WatchId) (scope : ScopeId) (req : ReqId) : EnumKind → Monitor
  | .cold =>
    (m.set_state dir (.enumerating req .cold 0 true)).latent_cold_insert req scope
  | .rearm reprove => m.set_state dir (.enumerating req (.rearm reprove) 0 true)

/-- The walk `drop_subtree` opens. -/
def open_walk (root : WatchId) (mode : DeficitDischarge) : Walk where
  stack := [root]
  erased := .default
  scope := m.scope_of root
  mode := mode
  anchor :=
    if mode = .reanchor then
      match m.scope_of root, m.slot_of root with
      | some scope, some slot => some (scope, slot)
      | _, _ => none
    else none

/-- How `drop_subtree` discharges what its walk erased. -/
def discharge (walk : Walk) : Monitor × Bool :=
  if walk.erased.discharge then
    match walk.mode with
    | .coveringRescan =>
      match walk.scope with
      | some scope => ((m.bridge_saw_rescan scope).bridge_fresh_rearm scope, m.scope_descends scope)
      | none => (m, false)
    | .reanchor =>
      match walk.anchor with
      | some (scope, parent, name) => (m.record_slot_deficit scope parent name, false)
      | none => (m, false)
    | .teardown | .unsubscribedPrune => (m, false)
  else (m, false)

/-- What `invalidate_root` and `unregister_root` forget of a scope. -/
def forget_scope (scope : ScopeId) : Monitor :=
  { m with
    bridge := m.bridge.erase scope
    deficits := m.deficits.erase scope
    loss_gens := m.loss_gens.erase scope
    coverage_work_epochs := m.coverage_work_epochs.erase scope }

/-- The subscription `unregister_root` forgets. -/
def forget_registration (scope : ScopeId) : Monitor :=
  { m with
    scope_interests := m.scope_interests.erase scope
    scope_profiles := m.scope_profiles.erase scope }

/-- Whether no arm of the watch is outstanding. -/
def Unarmed (x : WatchId) : Prop :=
  ∀ rearm reprove, m.state_of x ≠ some (.arming rearm reprove)

/-- Whether a `Rescan` at a location or above it stands in the queue. -/
def covered (scope : ScopeId) (location : Location) : Prop :=
  ∃ change ∈ m.events, change.scope = scope ∧ change.kind = .rescan ∧
    change.location <+: location

end Monitor

/-! ### Effects without ghost state -/

/-- Effects on the delivery side. -/
inductive Deliver : Monitor → Monitor → Prop where
  | emit {m : Monitor} {scope location kind evidence is_dir} (h : kind.is_rescan = false) :
      Deliver m (m.emit scope location kind evidence is_dir).1
  | mint {m : Monitor} {scope location} : Deliver m (m.mint_rescan scope location).1
  | raise {m : Monitor} {scope} {f : BridgeFlags → BridgeFlags}
      (h : ∀ b, (b.saw_rescan → (f b).saw_rescan) ∧ (b.fresh_rearm → (f b).fresh_rearm)
        ∧ (b.bootstrap → (f b).bootstrap)) :
      Deliver m (m.set_bridge scope f)
  | settle {m : Monitor} {scope} : Deliver m (m.settle_bridge scope)

/-- Effects on the ledgers kept beside the tree. -/
inductive Ledger : Monitor → Monitor → Prop where
  | book_hold {m : Monitor} {source} : Ledger m (m.book_hold source)
  | unbook_hold {m : Monitor} {source} :
      Ledger m { m with dirtied_holds := m.dirtied_holds.erase source }
  | stamp {m : Monitor} {watch gen} :
      Ledger m { m with reprove_stamps := m.reprove_stamps.insert watch gen }
  | unstamp {m : Monitor} {watch} :
      Ledger m { m with reprove_stamps := m.reprove_stamps.erase watch }
  | bump_loss_gen {m : Monitor} {scope} : Ledger m (m.bump_loss_gen scope)
  | darken {m : Monitor} {watch} :
      Ledger m { m with dark_installs := m.dark_installs.insert watch }
  | lighten {m : Monitor} {watch} :
      Ledger m { m with dark_installs := m.dark_installs.erase watch }
  | owe {m : Monitor} {watch descent} :
      Ledger m { m with owed_descents := m.owed_descents.insert watch descent }
  | disown {m : Monitor} {watch} :
      Ledger m { m with owed_descents := m.owed_descents.erase watch }
  | record_slot {m : Monitor} {scope parent name} :
      Ledger m (m.record_slot_deficit scope parent name)
  | record_interior {m : Monitor} {scope dir} : Ledger m (m.record_interior_deficit scope dir)
  | heal_slot {m : Monitor} {scope parent name} :
      Ledger m (m.remove_slot_deficit scope parent name).1
  | heal_interior {m : Monitor} {scope dir} : Ledger m (m.clear_interior_deficit scope dir)
  /-- A hole leaves the book once a `Rescan` over it stands in the queue. -/
  | spend_interior {m : Monitor} {scope dir} (h : m.covered scope (m.location_of dir)) :
      Ledger m (m.modify_book scope fun book => { book with interiors := book.interiors.erase dir })
  | spend_slot {m : Monitor} {scope parent name}
      (h : m.covered scope ((m.location_of parent).child name)) :
      Ledger m (m.modify_book scope fun book => Monitor.DeficitBook.remove_slot book parent name)
  | spend_book {m : Monitor} {scope} (h : m.covered scope []) :
      Ledger m { m with deficits := m.deficits.erase scope }
  | gc_book {m : Monitor} {scope} : Ledger m (m.gc_deficit_book scope)
  | take_stat {m : Monitor} {req slot} (h : m.pending_stat[req]? = some slot) :
      Ledger m (m.take_stat req slot)
  | cover_vacancy {m : Monitor} {parent name} : Ledger m (m.cover_stat_vacancy parent name)
  | window {m : Monitor} {window} : Ledger m { m with move_window := window }

/-- Effects on one node's state and the work queued for it.  The watch whose
    answer is being worked off is never armed again before the work is done. -/
inductive Work (k : Option Answer) : Monitor → Monitor → Prop where
  | read {m : Monitor} {dir kind attempts} (h : m.Unarmed dir) :
      Work k m (m.queue_enumerate dir kind attempts)
  | redirty {m : Monitor} {dir scope req kind attempts dirty}
      (h : m.state_of dir = some (.enumerating req kind attempts dirty))
      (hs : m.scope_of dir = some scope) :
      Work k m (m.redirty dir scope req kind)
  | promote {m : Monitor} {watch rearm reprove}
      (h : m.state_of watch = some (.arming rearm reprove)) :
      Work k m (m.set_state watch (.arming true reprove))
  | overtake {m : Monitor} {watch} : Work k m (m.mark_enumerate_dirty watch)
  | reinstall {m : Monitor} {watch} (hk : ∀ a, k = some a → a.watch ≠ watch) :
      Work k m (m.start_reinstall watch)
  | arm {m : Monitor} {watch target mask rearm reprove}
      (h : m.state_of watch = some (.arming rearm reprove)) :
      Work k m (m.queue_watch watch target mask)

/-! ### The effects -/

/-- The arm of a watch under an attempt waits in the action queue. -/
def Queued (m : Monitor) (watch : WatchId) (attempt : ArmAttempt) : Prop :=
  ∃ cmd, Action.watch cmd ∈ m.actions ∧ cmd.id = watch ∧ cmd.attempt = attempt

/-- The arm of a watch is queued or in the driver's hands. -/
def Awaited (m : Monitor) (g : Ghost) (watch : WatchId) (attempt : ArmAttempt) : Prop :=
  Queued m watch attempt ∨ (watch, attempt) ∈ g.out

/-- Whether the scope has no adoption marker. -/
def Unadopted (m : Monitor) (scope : ScopeId) : Prop :=
  ∀ (x : WatchId) (node : WatchNode), m.nodes[x]? = some node → node.scope = scope →
    m.pending_adoptions[x]? = none

/-- A directory whose answer has been worked off: it is read again, or its
    marker is staged or gone. -/
def AtRest (m : Monitor) (watch : WatchId) : Prop :=
  ∀ node, m.nodes[watch]? = some node → node.is_dir = true → m.scope_descends node.scope = true →
    m.pending_adoptions.contains watch = true → node.state = .live →
    m.staged_adoptions.contains (node.scope, watch) = true

/-- A source back in a slot. -/
structure Landed (m : Monitor) (g : Ghost) (src : WatchId) : Prop where
  released : src ∉ m.held_sources
  slotted : ∀ slot, m.slot_of src = some slot → m.child_index[slot]? = some src
  armed : ∀ node rearm reprove, m.nodes[src]? = some node →
    node.state = .arming rearm reprove → Awaited m g src node.attempt

/-- A watch that is, if it is watched at all, one of the scope. -/
structure Anchored (c : Moment) (watch : WatchId) (scope : ScopeId) : Prop where
  minted : watch < c.m.watch_ids.next
  used : watch ∉ c.g.spare
  scope : ∀ node, c.m.nodes[watch]? = some node → node.scope = scope

/-- An update that leaves a half the half it was: its source, its anchor and
    what the source is called below it. -/
structure Remarks (f : PendingMove → PendingMove) : Prop where
  held : ∀ p, (f p).held = p.held
  scope : ∀ p, (f p).scope = p.scope
  dirty : ∀ p, p.dirty → (f p).dirty
  from_parent : ∀ p, (f p).from_parent = p.from_parent
  called : ∀ p name, p.source.getLast? = some name → (f p).source.getLast? = some name

/-- Effects on the tree: a node appears, leaves its place or disappears. -/
inductive Edit : Moment → Moment → Prop where
  | register {m : Monitor} {g : Ghost} {scope : ScopeId} {mask caps} (hw : g.walk = none)
      (h : m.roots[scope]? = none) (hs : g.start.roots[scope]? = none) :
      Edit ⟨m, g⟩ ⟨(m.register_root_with_profile scope mask caps).1, g⟩
  | plant {m : Monitor} {g : Ghost} {parent : WatchId} {scope name is_dir identity} (hw : g.walk = none)
      (hp : m.is_watched parent = true) (ha : Anchored ⟨m, g⟩ parent scope)
      (hs : m.child_index[(parent, name)]? = none) :
      Edit ⟨m, g⟩ ⟨m.plant parent scope name is_dir identity, g⟩
  | reserve {m : Monitor} {g : Ghost} :
      Edit ⟨m, g⟩ ⟨m.reserve_watch_id.1, { g with spare := m.reserve_watch_id.2 :: g.spare }⟩
  | graft {m : Monitor} {g : Ghost} {scope : ScopeId} {reserved last old_root} (hw : g.walk = none)
      (ht : g.transit = none) (hr : m.roots[scope]? = some old_root) (hs : reserved ∈ g.spare)
      (hd : m.scope_descends scope = true) :
      Edit ⟨m, g⟩ ⟨(m.graft scope reserved last old_root).1,
        { g with
          out := (reserved, (m.graft scope reserved last old_root).2) :: g.out
          spare := g.spare.filter (· ≠ reserved) }⟩
  | hold {m : Monitor} {g : Ghost} {scope src parent name} (hw : g.walk = none)
      (ht : g.transit = none) (hp : m.slot_of src = some (parent, name))
      (hs : m.child_index[(parent, name)]? = some src) (hsc : m.scope_of src = some scope) :
      Edit ⟨m, g⟩ ⟨m.take_source scope src, { g with transit := some src }⟩
  | rekey {m : Monitor} {g : Ghost} {child new_parent new_name scope} (hw : g.walk = none)
      (ht : g.transit = some child) (hh : child ∉ m.held_sources)
      (hc : m.scope_of child = some scope) (hp : m.scope_of new_parent = some scope)
      (hd : m.is_descendant new_parent child = false)
      (hoff : ∀ slot, m.slot_of child = some slot → m.child_index[slot]? ≠ some child)
      (hs : m.child_index[(new_parent, new_name)]? = none)
      (ha : m.unproven_adoption_of child = none) :
      Edit ⟨m, g⟩ ⟨m.rekey child new_parent new_name, g⟩
  | uproot {m : Monitor} {g : Ghost} {scope : ScopeId} {root} (hw : g.walk = none)
      (hr : m.roots[scope]? = some root) :
      Edit ⟨m, g⟩ ⟨{ m with roots := m.roots.erase scope },
        { g with walk := some (m.open_walk root .teardown) }⟩
  | remove {m : Monitor} {g : Ghost} {walk id stack node} (hw : g.walk = some walk)
      (hs : walk.stack = id :: stack) (hn : m.nodes[id]? = some node) :
      Edit ⟨m, g⟩ ⟨(m.remove_node id node walk.erased).1,
        { g with
          walk := some
            { walk with
              stack := node.children.toList.reverse ++ stack
              erased := (m.remove_node id node walk.erased).2 } }⟩

/-- Effects on the adoption markers. -/
inductive Marking : Moment → Moment → Prop where
  | record_marker {m : Monitor} {g : Ghost} {parent name adopted identity scope node}
      (hn : m.nodes[parent]? = some node) (hs : node.scope = scope)
      (hst : node.state.is_rearm = false ∧ node.state ≠ .live) (hd : node.is_dir = true)
      (hds : m.scope_descends scope = true) (hm : m.pending_adoptions[parent]? = none)
      (hc : m.child_index[(parent, name)]? = some adopted) :
      Marking ⟨m, g⟩ ⟨m.record_adoption_marker parent name adopted identity scope, g⟩
  | stage {m : Monitor} {g : Ghost} {dir scope entries entry marker}
      (ha : g.answer = some ⟨dir, some entries⟩) (hs : m.scope_of dir = some scope)
      (hm : m.pending_adoptions[dir]? = some marker)
      (hc : m.child_watch dir marker.name = some marker.adopted)
      (hf : entries.find? (fun entry => entry.name == marker.name) = some entry)
      (hd : entry.descends = true) (hi : entry.node = some marker.identity) :
      Marking ⟨m, g⟩ ⟨m.stage_adoption dir scope, g⟩
  | take_marker {m : Monitor} {g : Ghost} {parent scope} (hs : Anchored ⟨m, g⟩ parent scope) :
      Marking ⟨m, g⟩ ⟨(m.take_adoption_marker parent scope).1, g⟩
  | unstage {m : Monitor} {g : Ghost} {parent : WatchId} {scope} (h : m.pending_adoptions[parent]? = none) :
      Marking ⟨m, g⟩ ⟨{ m with staged_adoptions := m.staged_adoptions.erase (scope, parent) }, g⟩

inductive Effect : Moment → Moment → Prop where
  | edit {c c'} (h : Edit c c') : Effect c c'
  | mark {c c'} (h : Marking c c') : Effect c c'
  | deliver {m m' g} (h : Deliver m m') : Effect ⟨m, g⟩ ⟨m', g⟩
  | ledger {m m' g} (h : Ledger m m') : Effect ⟨m, g⟩ ⟨m', g⟩
  | work {m m'} {g : Ghost} (h : Work g.answer m m') : Effect ⟨m, g⟩ ⟨m', g⟩
  -- stats
  | ask {m g parent scope name} (h : Anchored ⟨m, g⟩ parent scope) :
      Effect ⟨m, g⟩ ⟨m.queue_stat parent scope name, g⟩
  -- answers
  | ack {m : Monitor} {g : Ghost} {id attempt ack rearm reprove} (ha : g.answer = none)
      (ho : g.owed = none) (hc : g.call = some (.on_watch_result id attempt (.ok ack)))
      (hat : m.arm_attempt id = some attempt)
      (h : m.state_of id = some (.arming rearm reprove)) :
      Effect ⟨m, g⟩ ⟨m.set_state id .live, { g with answer := some ⟨id, none⟩ }⟩
  | finish {m : Monitor} {g : Ghost} {req dir kind attempts dirty listing} (ha : g.answer = none)
      (h : m.state_of dir = some (.enumerating req kind attempts dirty))
      (hl : ∀ entries, listing = some entries →
        g.call = some (.on_enumerate req (.ok entries)) ∧ dirty = false
          ∧ m.in_held_subtree dir = none
          ∧ ∀ node, m.nodes[dir]? = some node →
              m.placement_moved_since dir node.placement = false) :
      Effect ⟨m, g⟩ ⟨m.finish_read req dir, { g with answer := some ⟨dir, listing⟩ }⟩
  | reset {m : Monitor} {g : Ghost} {root} (ha : g.answer = none) (ho : g.owed = none)
      (h : ∀ node, m.nodes[root]? = some node → node.parent = none) :
      Effect ⟨m, g⟩ ⟨m.reset_root root, { g with owed := some root }⟩
  | adopt {m : Monitor} {g : Ghost} {id} (ho : g.owed = some id) :
      Effect ⟨m, g⟩ ⟨(m.adopt_arm id).1,
        { g with owed := none, out := (id, (m.adopt_arm id).2) :: g.out }⟩
  | rest {m g a} (ha : g.answer = some a) (h : AtRest m a.watch) :
      Effect ⟨m, g⟩ ⟨m, { g with answer := none }⟩
  | respond {m : Monitor} {g : Ghost} {id attempt}
      (h : ∀ node rearm reprove, m.nodes[id]? = some node →
        node.state = .arming rearm reprove → node.attempt ≠ attempt ∨ Queued m id node.attempt) :
      Effect ⟨m, g⟩ ⟨m, { g with out := g.out.filter (· ≠ (id, attempt)) }⟩
  -- the tree
  | identify {m : Monitor} {g : Ghost} {watch identity} :
      Effect ⟨m, g⟩ ⟨m.modify_node watch fun n => { n with identity := identity }, g⟩
  | land {m : Monitor} {g : Ghost} {src} (ht : g.transit = some src)
      (h : m.nodes[src]? = none ∨ Landed m g src) :
      Effect ⟨m, g⟩ ⟨m, { g with transit := none }⟩
  | move_root {m : Monitor} {g : Ghost} {scope : ScopeId} {root} (h : m.roots[scope]? = some root) :
      Effect ⟨m, g⟩ ⟨m.moved_placement root, g⟩
  -- drop walks
  | open_drop {m : Monitor} {g : Ghost} {root mode} (hw : g.walk = none) :
      Effect ⟨m, g⟩ ⟨m, { g with walk := some (m.open_walk root mode) }⟩
  | skip_dead {m : Monitor} {g : Ghost} {walk id stack} (hw : g.walk = some walk)
      (hs : walk.stack = id :: stack) (hn : m.nodes[id]? = none) :
      Effect ⟨m, g⟩ ⟨m, { g with walk := some { walk with stack } }⟩
  | close_drop {m : Monitor} {g : Ghost} {walk} (hw : g.walk = some walk) (hs : walk.stack = []) :
      Effect ⟨m, g⟩ ⟨(m.discharge walk).1, { g with walk := none }⟩
  -- rename halves
  | park {m : Monitor} {g : Ghost} {scope cookie} {pending : PendingMove}
      (ht : g.transit = pending.held) (hk : pending.scope = scope)
      (hs : ∀ src, pending.held = some src → src ∈ m.held_sources ∧ m.scope_of src = some scope)
      (hf : ∀ src, pending.held = some src → ∃ name,
        m.slot_of src = some (pending.from_parent, name) ∧ pending.source.getLast? = some name) :
      Effect ⟨m, g⟩ ⟨(m.park_pending_move scope cookie pending).1,
        { g with transit := (m.pending_moves[(scope, cookie)]?).bind (·.held) }⟩
  | take {m : Monitor} {g : Ghost} {key : PendingKey} {half : PendingMove} (ht : g.transit = none)
      (h : m.pending_moves[key]? = some half) :
      Effect ⟨m, g⟩ ⟨(m.take_half key).1, { g with transit := half.held }⟩
  | release {m : Monitor} {g : Ghost} {scope src} (ht : g.transit = some src)
      (ha : Anchored ⟨m, g⟩ src scope) :
      Effect ⟨m, g⟩ ⟨(m.release_hold scope src).1, g⟩
  | remark {m : Monitor} {g : Ghost} {key f} (hf : Remarks f) :
      Effect ⟨m, g⟩ ⟨m.modify_half key f, g⟩
  | purge {m : Monitor} {g : Ghost} {scope}
      (h : ∀ src ∈ m.held_sources, m.scope_of src ≠ some scope) :
      Effect ⟨m, g⟩ ⟨m.purge_scope_pending_moves scope, g⟩
  -- scopes
  | reprofile {m : Monitor} {g : Ghost} {scope caps} (hb : g.strict = true → Unadopted m scope) :
      Effect ⟨m, g⟩ ⟨m.reprofile_root scope caps, g⟩
  | forget_scope {m : Monitor} {g : Ghost} {scope : ScopeId} (hr : m.roots[scope]? = none)
      (hs : g.start.roots[scope]? ≠ none) :
      Effect ⟨m, g⟩ ⟨m.forget_scope scope, g⟩
  | forget_registration {m : Monitor} {g : Ghost} {scope : ScopeId} (hr : m.roots[scope]? = none) :
      Effect ⟨m, g⟩ ⟨m.forget_registration scope, g⟩
  | forget_book {m : Monitor} {g : Ghost} {scope} (hc : g.call = some (.rebind_root scope)) :
      Effect ⟨m, g⟩ ⟨{ m with deficits := m.deficits.erase scope }, g⟩
  -- polling
  | skip_action {m : Monitor} {g : Ghost} {action rest} (hc : g.call = some .poll_action)
      (h : m.actions = action :: rest) (hs : m.is_superseded_arm action = true) :
      Effect ⟨m, g⟩ ⟨{ m with actions := rest }, g⟩
  | dispatch {m : Monitor} {g : Ghost} {action rest} (hc : g.call = some .poll_action)
      (h : m.actions = action :: rest) (hs : m.is_superseded_arm action = false) :
      Effect ⟨m, g⟩ ⟨{ m with actions := rest }.stamp_dispatch action,
        { g with out := (action.as_watch.map fun cmd => (cmd.id, cmd.attempt)).toList ++ g.out }⟩
  | poll_event {m : Monitor} {g : Ghost} {change rest} (hc : g.call = some .poll_event)
      (h : m.events = change :: rest) :
      Effect ⟨m, g⟩ ⟨{ m with events := rest }, g⟩

/-- A path of effects. -/
abbrev Trace : Moment → Moment → Prop := Relation.ReflTransGen Effect

end Proto
