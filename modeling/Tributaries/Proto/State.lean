import Tributaries.Proto.Vocabulary

/-! # The Monitor's state

  The record `Monitor` keeps and the reads over it that change nothing:
  profile gates, the parent walks, and the location reconstruction.  The
  field names are the source's.  Where the source iterates a tree map or
  set, the order is the key order, as here.

  The bounded loops over `nodes.len()` keep their bound: each is a walk
  up the parent links that gives up after that many steps.
-/

open Std Collections

namespace Proto

/-! ### Constants -/

/-- `DEFAULT_MOVE_WINDOW`, 100 ms. -/
def DEFAULT_MOVE_WINDOW : Duration := 100000000

/-- How often an incomplete re-arm read is retried. -/
def REARM_MAX_RETRIES : Nat := 2

/-- The bound past which a deficit book collapses. -/
def DEFICIT_CAP : Nat := 16

/-- The bound on one scope's parked halves. -/
def PENDING_MOVE_CAP : Nat := 64

/-- The reading a node that never moved carries. -/
def NEVER_MOVED : Nat := 0

def FIRST_COOKIE : MoveCookie := ProtoId.min

def FIRST_WATCH : WatchId := ProtoId.min

/-! ### Nodes -/

/-- What an outstanding read is for. -/
inductive EnumKind where
  | cold
  | rearm (reprove : Bool)
deriving DecidableEq, Repr

inductive NodeState where
  | arming (rearm reprove : Bool)
  | live
  | enumerating (req : ReqId) (kind : EnumKind) (attempts : Nat) (dirty : Bool)
deriving DecidableEq

namespace NodeState

/-- Whether the state is counted re-arm work. -/
def is_rearm : NodeState → Bool
  | .arming rearm _ => rearm
  | .live => false
  | .enumerating _ (.rearm _) _ _ => true
  | .enumerating _ .cold _ _ => false

end NodeState

/-- The two flavours of a re-key. -/
inductive Reparent where
  | moved | rerooted
deriving DecidableEq, Repr

/-- What a result lowered at a path may still be trusted for. -/
structure Lowering where
  held : Option WatchId
  moved : Bool
deriving DecidableEq

namespace Lowering

def locatable (l : Lowering) : Bool := l.held.isNone

def is_evidence (l : Lowering) : Bool := !l.moved && l.held.isNone

end Lowering

/-- One watched object of the tree. -/
structure WatchNode where
  parent : Option WatchId
  name : Option Segment
  scope : ScopeId
  is_dir : Bool
  attempt : ArmAttempt
  placement : Nat
  moved_at : Nat
  identity : Option Identity
  state : NodeState
  children : OSet WatchId

/-! ### Bridges, deficits and adoptions -/

structure BridgeFlags where
  saw_rescan : Bool
  fresh_rearm : Bool
  bootstrap : Bool
deriving DecidableEq, Repr

namespace BridgeFlags

def default : BridgeFlags := ⟨false, false, false⟩

end BridgeFlags

/-- A scope's recorded blind spots. -/
structure DeficitBook where
  slots : Map WatchId (OSet Segment)
  interiors : OSet WatchId
  collapsed : Bool

namespace DeficitBook

def default : DeficitBook := ⟨∅, ∅, false⟩

def is_clear (b : DeficitBook) : Bool :=
  !b.collapsed && b.slots.isEmpty && b.interiors.isEmpty

/-- The number of fine entries. -/
def fine_len (b : DeficitBook) : Nat :=
  (b.slots.toList.map fun e => e.2.size).sum + b.interiors.size

end DeficitBook

/-- How the entries a drop erases are discharged. -/
inductive DeficitDischarge where
  | coveringRescan | reanchor | teardown | unsubscribedPrune
deriving DecidableEq, Repr

structure AdoptionMarker where
  name : Segment
  adopted : WatchId
  identity : Identity
deriving DecidableEq

inductive AdoptionDisposal where
  | verdict | countedRetirement | diesWithTheWalk | childAlreadyDropped
deriving DecidableEq, Repr

/-- The per-node stores a drop reclaims, in reclaim order. -/
inductive NodeMarker where
  | enumerate | statSlots | heldSource | dirtiedHold | owedDescent
  | reproveStamp | adoption | deficits | darkInstall
deriving DecidableEq, Repr

namespace NodeMarker

def ALL : List NodeMarker :=
  [.enumerate, .statSlots, .heldSource, .dirtiedHold, .owedDescent,
    .reproveStamp, .adoption, .deficits, .darkInstall]

end NodeMarker

inductive ErasedCover where
  | nothing | discharge | counted
deriving DecidableEq, Repr

structure ErasedCovers where
  discharge : Bool
  counted : Bool
deriving DecidableEq, Repr

namespace ErasedCovers

def default : ErasedCovers := ⟨false, false⟩

def absorb (e : ErasedCovers) : ErasedCover → ErasedCovers
  | .nothing => e
  | .discharge => { e with discharge := true }
  | .counted => { e with counted := true }

end ErasedCovers

/-! ### Moves and stats -/

/-- A parked rename half. -/
structure PendingMove where
  from_parent : WatchId
  source : Location
  scope : ScopeId
  deadline : Instant
  held : Option WatchId
  is_dir : Option Bool
  evidence : Evidence
  dirty : Bool
deriving DecidableEq

namespace PendingMove

def in_window (p : PendingMove) (now : Instant) : Bool := !now.reached p.deadline

end PendingMove

abbrev PendingKey := ScopeId × MoveCookie

/-- The descent owed to a watch whose slot kind is being asked. -/
inductive StatDescent where
  | rearm | reprove
deriving DecidableEq, Repr

namespace StatDescent

/-- `Ord::max` under the declaration order. -/
def max : StatDescent → StatDescent → StatDescent
  | .rearm, d => d
  | .reprove, _ => .reprove

end StatDescent

structure StatSlot where
  parent : WatchId
  name : Segment
  scope : ScopeId
  placement : Nat
  bootstrap : Bool
  stands_loss : Bool
  dark_uncovered : Bool
  vacancy_covered : Bool
deriving DecidableEq

inductive SlotOccupant where
  | dir | file | gone | unknown
deriving DecidableEq, Repr

inductive RearmKickoff where
  | refused | started | coalesced
deriving DecidableEq, Repr

inductive RecordOutcome where
  | nothing
  | renamed (source : Location)
  | reparented (from_parent : WatchId) (source : Location)
deriving DecidableEq

-- one comparison law for each kind of key, so that every map's lookups share it
instance instTransOrdSlot : TransOrd (WatchId × Segment) := Collections.instTransOrdProd

instance instTransOrdPendingKey : TransOrd PendingKey := Collections.instTransOrdProd

instance instTransOrdStaged : TransOrd (ScopeId × WatchId) := Collections.instTransOrdProd

abbrev DedupKey := ScopeId × Location × Nat × Option Location

/-! ### The Monitor -/

structure Monitor where
  capabilities : Capabilities
  move_window : Duration
  watch_ids : Sequence .watch
  req_ids : Sequence .req
  change_ids : Sequence .change
  arm_attempts : Sequence .arm
  nodes : Map WatchId WatchNode
  child_index : Map (WatchId × Segment) WatchId
  roots : Map ScopeId WatchId
  scope_epochs : Map ScopeId Epoch
  scope_interests : Map ScopeId Interest
  scope_profiles : Map ScopeId Capabilities
  rearm_pending : Map ScopeId Nat
  pending_enumerate : Map ReqId WatchId
  pending_stat : Map ReqId StatSlot
  stat_slots : Map (WatchId × Segment) ReqId
  stat_losses : Map ScopeId Nat
  owed_descents : Map WatchId StatDescent
  pending_moves : Map PendingKey PendingMove
  held_sources : OSet WatchId
  dirtied_holds : OSet WatchId
  dark_installs : OSet WatchId
  bridge : Map ScopeId BridgeFlags
  deficits : Map ScopeId DeficitBook
  held_by_scope : Map ScopeId Nat
  latent_cold : Map ReqId ScopeId
  pending_adoptions : Map WatchId AdoptionMarker
  staged_adoptions : Map (ScopeId × WatchId) Nat
  adoption_staging_seq : Nat
  adopting_by_scope : Map ScopeId Nat
  /-- The counters are 64 bits wide and wrap: `coverage_work_epoch` reads them so. -/
  coverage_work_epochs : Map ScopeId Nat
  loss_gens : Map ScopeId Nat
  placement_clock : Nat
  reprove_stamps : Map WatchId Nat
  actions : List Action
  events : List Change

namespace Monitor

/-- `Monitor::new`. -/
def new (capabilities : Capabilities) : Monitor where
  capabilities := capabilities
  move_window := DEFAULT_MOVE_WINDOW
  watch_ids := .new
  req_ids := .new
  change_ids := .new
  arm_attempts := .new
  nodes := ∅
  child_index := ∅
  roots := ∅
  scope_epochs := ∅
  scope_interests := ∅
  scope_profiles := ∅
  rearm_pending := ∅
  pending_enumerate := ∅
  pending_stat := ∅
  stat_slots := ∅
  stat_losses := ∅
  owed_descents := ∅
  pending_moves := ∅
  held_sources := ∅
  dirtied_holds := ∅
  dark_installs := ∅
  bridge := ∅
  deficits := ∅
  held_by_scope := ∅
  latent_cold := ∅
  pending_adoptions := ∅
  staged_adoptions := ∅
  adoption_staging_seq := 0
  adopting_by_scope := ∅
  coverage_work_epochs := ∅
  loss_gens := ∅
  placement_clock := 0
  reprove_stamps := ∅
  actions := []
  events := []

variable (m : Monitor)

/-! ### Profile gates -/

def scope_profile (scope : ScopeId) : Capabilities :=
  (m.scope_profiles[scope]?).getD m.capabilities

def scope_descends (scope : ScopeId) : Bool :=
  !(m.scope_profile scope).kernel_recursive

def scope_reproves_bindings (scope : ScopeId) : Bool :=
  !(m.scope_profile scope).kernel_recursive && (m.scope_profile scope).lossy_watch_teardown

def loss_gen (scope : ScopeId) : Nat := (m.loss_gens[scope]?).getD 0

def scope_needs_reproof (scope : ScopeId) : Bool :=
  m.scope_reproves_bindings scope && decide (0 < m.loss_gen scope)

def placement_now : Nat := m.placement_clock

/-- What the watch set subscribes to, whatever the scope asked for. -/
def coverage_mask (mask : Interest) : Interest :=
  { mask with created := true, removed := true, moved := true, ondir := true }

def scope_interest (scope : ScopeId) : Interest :=
  (m.scope_interests[scope]?).getD Interest.all

def ondir_allows (scope : ScopeId) (is_dir : Option Bool) : Bool :=
  is_dir != some true || (m.scope_interest scope).ondir

/-! ### Node reads -/

def is_watched (id : WatchId) : Bool := m.nodes.contains id

def scope_of (id : WatchId) : Option ScopeId := (m.nodes[id]?).map (·.scope)

/-- The state of a live node. -/
def state_of (id : WatchId) : Option NodeState := (m.nodes[id]?).map (·.state)

/-- The parent and name of a node that has both. -/
def slot_of (id : WatchId) : Option (WatchId × Segment) :=
  (m.nodes[id]?).bind fun node =>
    match node.parent, node.name with
    | some parent, some name => some (parent, name)
    | _, _ => none

def is_root_watch (id : WatchId) : Bool :=
  match m.nodes[id]? with
  | some node => node.parent.isNone
  | none => false

def arm_attempt (id : WatchId) : Option ArmAttempt := (m.nodes[id]?).map (·.attempt)

def node_identity (id : WatchId) : Option Identity := (m.nodes[id]?).bind (·.identity)

def child_watch (parent : WatchId) (name : Segment) : Option WatchId :=
  m.child_index[(parent, name)]?

/-- The children of a live node in id order. -/
def children_of (id : WatchId) : List WatchId :=
  match m.nodes[id]? with
  | some node => node.children.toList
  | none => []

def is_slot_child (parent child : WatchId) : Bool :=
  match (m.nodes[child]?).bind (·.name) with
  | some name => m.child_index[(parent, name)]? == some child
  | none => false

def has_rearm_obligation (id : WatchId) : Bool :=
  match m.nodes[id]? with
  | some node => node.state.is_rearm
  | none => false

def identity_differs (watch : WatchId) (other : Option Identity) : Bool :=
  match m.node_identity watch, other with
  | some installed, some fresh => installed != fresh
  | _, _ => false

def identity_matches (watch : WatchId) (other : Option Identity) : Bool :=
  match m.node_identity watch, other with
  | some installed, some fresh => installed == fresh
  | _, _ => false

/-! ### Parent walks -/

/-- The loop of `placement_moved_since`. -/
def placement_moved_loop (stamp : Nat) : Nat → Option WatchId → Bool
  | 0, _ => false
  | _ + 1, none => false
  | n + 1, some id =>
    match m.nodes[id]? with
    | none => false
    | some node => decide (stamp < node.moved_at) || placement_moved_loop stamp n node.parent

/-- Whether a node of `watch`'s current chain moved after the stamp. -/
def placement_moved_since (watch : WatchId) (stamp : Nat) : Bool :=
  m.placement_moved_loop stamp m.nodes.size (some watch)

/-- The loop of `in_held_subtree`. -/
def in_held_loop : Nat → Option WatchId → Option WatchId
  | 0, _ => none
  | _ + 1, none => none
  | n + 1, some id =>
    if m.held_sources.contains id then some id
    else in_held_loop n ((m.nodes[id]?).bind (·.parent))

/-- The nearest held move source at or above `watch`. -/
def in_held_subtree (watch : WatchId) : Option WatchId :=
  m.in_held_loop (m.nodes.size + 1) (some watch)

/-- The loop of `is_descendant`. -/
def is_descendant_loop (ancestor : WatchId) : Nat → Option WatchId → Bool
  | 0, _ => false
  | _ + 1, none => false
  | n + 1, some id =>
    id == ancestor || is_descendant_loop ancestor n ((m.nodes[id]?).bind (·.parent))

/-- Whether `ancestor` is on the chain of `maybe_descendant`, itself included. -/
def is_descendant (maybe_descendant ancestor : WatchId) : Bool :=
  m.is_descendant_loop ancestor (m.nodes.size + 1) (some maybe_descendant)

def can_reparent (child new_parent : WatchId) : Bool :=
  m.is_watched child && m.is_watched new_parent && new_parent != child
    && !m.is_descendant new_parent child

/-- The loop of `location_of`; the segments come out root first. -/
def location_loop : Nat → Option WatchId → Location → Location
  | 0, _, segments => segments
  | _ + 1, none, segments => segments
  | n + 1, some id, segments =>
    match m.nodes[id]? with
    | none => segments
    | some node =>
      location_loop n node.parent
        (match node.name with
          | some name => name :: segments
          | none => segments)

/-- The root-relative location reconstructed through the parent links. -/
def location_of (id : WatchId) : Location := m.location_loop m.nodes.size (some id) []

/-- The loop of `location_of_checked`. -/
def location_checked_loop (root : WatchId) : Nat → WatchId → Location → Option Location
  | 0, _, _ => none
  | n + 1, cursor, segments =>
    if cursor == root then some segments
    else
      match m.nodes[cursor]? with
      | none => none
      | some node =>
        match node.name, node.parent with
        | some name, some parent => location_checked_loop root n parent (name :: segments)
        | _, _ => none

/-- `location_of`, or nothing for a watch that does not reach its scope's root. -/
def location_of_checked (id : WatchId) : Option Location :=
  match m.nodes[id]? with
  | none => none
  | some node =>
    match m.roots[node.scope]? with
    | none => none
    | some root => m.location_checked_loop root m.nodes.size id []

def child_location (parent : WatchId) (name : Segment) : Location :=
  (m.location_of parent).child name

def record_location (rec : OsRecord) : Location :=
  match rec.target with
  | some target => (m.location_of rec.watch).join target
  | none => m.location_of rec.watch

/-! ### Pending halves -/

/-- `pending_moves.range((scope, FIRST_COOKIE)..)` while the scope lasts. -/
def scope_halves (scope : ScopeId) : List (PendingKey × PendingMove) :=
  (m.pending_moves.toList.dropWhile fun e => (compare e.1 (scope, FIRST_COOKIE)).isLT).takeWhile
    fun e => e.1.1 == scope

def pending_from (pending : PendingMove) : Location :=
  (m.location_of pending.from_parent).join pending.source

/-- The source of a half whose anchor is still watched. -/
def live_pending_from (pending : PendingMove) : Option Location :=
  if m.is_watched pending.from_parent then some (m.pending_from pending) else none

def admits_pending_move (scope : ScopeId) (cookie : MoveCookie) : Bool :=
  m.pending_moves.contains (scope, cookie)
    || decide (((m.scope_halves scope).take PENDING_MOVE_CAP).length < PENDING_MOVE_CAP)

/-- Whether either location is a prefix of the other. -/
def locations_touch (a b : Location) : Bool := a.starts_with b || b.starts_with a

/-- The source and anchor of a half that would ride a reparent. -/
def reparenting_source (pending : PendingMove) (name : Option Segment) (now : Instant) :
    Option (WatchId × Location) :=
  if !pending.in_window now || name.isNone || pending.held.isNone then none
  else (m.live_pending_from pending).map fun source => (pending.from_parent, source)

def pending_move_from (scope : ScopeId) (cookie : MoveCookie) : Option Location :=
  (m.pending_moves[(scope, cookie)]?).bind m.live_pending_from

/-! ### Settlement -/

def rearm_settled (scope : ScopeId) : Bool := !m.rearm_pending.contains scope

def holds_settled (scope : ScopeId) : Bool := !m.held_by_scope.contains scope

def adoptions_settled (scope : ScopeId) : Bool := !m.adopting_by_scope.contains scope

def latent_settled (scope : ScopeId) : Bool :=
  !m.latent_cold.toList.any fun e => e.2 == scope

/-- Whether the scope parks no half: the first key at or past the scope's
    range is another scope's. -/
def moves_settled (scope : ScopeId) : Bool :=
  match (m.pending_moves.toList.dropWhile fun e =>
      (compare e.1 (scope, FIRST_COOKIE)).isLT).head? with
  | none => true
  | some e => e.1.1 != scope

/-- The barrier a sync waits on. -/
def coverage_settled (scope : ScopeId) : Bool :=
  m.rearm_settled scope && m.holds_settled scope && m.latent_settled scope
    && m.adoptions_settled scope && m.moves_settled scope

def stat_loss_outstanding (scope : ScopeId) : Bool := m.stat_losses.contains scope

/-- The advances of the scope's counter so far, of which the counter holds the low bits. -/
def coverage_work_count (scope : ScopeId) : Nat := (m.coverage_work_epochs[scope]?).getD 0

def coverage_work_epoch (scope : ScopeId) : UInt64 := .ofNat (m.coverage_work_count scope)

def has_coverage_deficit (scope : ScopeId) : Bool := m.deficits.contains scope

def poll_timeout : Option Instant :=
  ((m.pending_moves.toList.map fun e => e.2.deadline.elapsed).min?).map Instant.mk

/-! ### Adoption reads -/

/-- The marker's parent when `watch` is a still unproven adopted edge. -/
def unproven_adoption_of (watch : WatchId) : Option WatchId :=
  (m.nodes[watch]?).bind fun node => node.parent.bind fun parent =>
    match m.pending_adoptions[parent]? with
    | some marker => if marker.adopted == watch then some parent else none
    | none => none

def reparentable_adoption (src : WatchId) : Bool := (m.unproven_adoption_of src).isNone

/-- `staged_adoptions.range((scope, FIRST_WATCH)..)` while the scope lasts. -/
def scope_staged (scope : ScopeId) : List ((ScopeId × WatchId) × Nat) :=
  (m.staged_adoptions.toList.dropWhile fun e => (compare e.1 (scope, FIRST_WATCH)).isLT).takeWhile
    fun e => e.1.1 == scope

def adoption_staging_high_water (scope : ScopeId) : Option Nat :=
  ((m.scope_staged scope).map (·.2)).max?

/-! ### Bridge and stat reads -/

def bridge_is_lossy (scope : ScopeId) : Bool :=
  match m.bridge[scope]? with
  | some flags => flags.saw_rescan
  | none => false

def in_bootstrap_window (scope : ScopeId) : Bool :=
  match m.bridge[scope]? with
  | some flags => flags.bootstrap
  | none => false

def stat_slot_dark (slot : StatSlot) : Bool :=
  slot.dark_uncovered || ((m.child_watch slot.parent slot.name).isNone && !slot.vacancy_covered)

/-! ### Occupants -/

def entry_occupant : FileKind → SlotOccupant
  | .dir => .dir
  | .unknown => .unknown
  | .file | .symlink | .other => .file

def listed_occupant (entry : DirEntry) : SlotOccupant :=
  if entry.boundary then .file else entry_occupant entry.kind

def class_occupant (is_dir : Option Bool) : SlotOccupant :=
  if is_dir == some true then .dir else .file

def record_occupant (rec : OsRecord) : SlotOccupant := class_occupant rec.is_dir

/-- The entries an untrusted listing may still add coverage from. -/
def additive_entries (dir : WatchId) (entries : List DirEntry) : List DirEntry :=
  entries.filter fun entry =>
    entry.kind.is_unknown || (entry.descends && (m.child_watch dir entry.name).isNone)

end Monitor

end Proto
