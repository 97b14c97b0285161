import Tributaries.Proto.State

/-! # Delivery and bridge windows

  The two queues a Monitor delivers through are written here: changes are
  minted by `emit` and `mint_rescan`, and the bridge window learns of a
  loss through `emit_rescan`.  Nothing in this module reads or writes the
  watch tree beyond reconstructing the source of a parked half.
-/

open Std Collections

namespace Proto

namespace Monitor

variable (m : Monitor)

/-! ### Epochs -/

def epoch_of (scope : ScopeId) : Epoch := (m.scope_epochs[scope]?).getD Epoch.START

def bump_epoch (scope : ScopeId) : Monitor :=
  { m with scope_epochs := m.scope_epochs.insert scope (m.epoch_of scope).next }

/-! ### Coalescing -/

def kind_tag : ChangeKind → Nat
  | .created => 0
  | .modified => 1
  | .removed => 2
  | .moved _ => 3
  | .rescan => 4

def dedup_key (change : Change) : DedupKey :=
  (change.scope, change.location, kind_tag change.kind, change.kind.moved_from)

/-- The locations a change of this kind at `location` touches. -/
def touched (location : Location) (kind : ChangeKind) : List Location :=
  location :: kind.moved_from.toList

/-- Whether a parked half's source touches one of the locations. -/
def pending_blocks (scope : ScopeId) (locations : List Location) : Bool :=
  (m.scope_halves scope).any fun e =>
    m.is_watched e.2.from_parent
      && locations.any fun loc => locations_touch (m.pending_from e.2) loc

/-- Whether a queued change of the scope touches one of the locations. -/
def change_touches (scope : ScopeId) (locations : List Location) (queued : Change) : Bool :=
  queued.scope == scope && locations.any fun loc =>
    locations_touch queued.location loc
      || queued.kind.moved_from.any fun source => locations_touch source loc

/-- Whether a change would fold into the most recent still-queued change
    touching it. -/
def would_coalesce (scope : ScopeId) (location : Location) (kind : ChangeKind) : Bool :=
  if m.pending_blocks scope (touched location kind) then false
  else
    match m.events.reverse.find? (change_touches scope (touched location kind)) with
    | some queued => dedup_key queued == (scope, location, kind_tag kind, kind.moved_from)
    | none => false

/-! ### Minting -/

/-- Whether the interest asked for changes of this kind. -/
def wanted (interest : Interest) : ChangeKind → Bool
  | .rescan => true
  | .created => interest.created
  | .removed => interest.removed
  | .moved _ => interest.moved
  | .modified => interest.modified || interest.attrib

/-- Queues one change unless the interest filters it or it coalesces. -/
def emit (scope : ScopeId) (location : Location) (kind : ChangeKind) (evidence : Evidence)
    (is_dir : Option Bool) : Monitor × Option ChangeId :=
  if !wanted (m.scope_interest scope) kind && !evidence.admits (m.scope_interest scope) then
    (m, none)
  else if m.would_coalesce scope location kind then (m, none)
  else
    let (id, change_ids) := m.change_ids.mint
    let change : Change := ⟨id, scope, location, kind, m.epoch_of scope, is_dir⟩
    ({ m with change_ids := change_ids, events := m.events ++ [change] }, some id)

/-- Mints one `Rescan`: the coalesce is decided before the bump. -/
def mint_rescan (scope : ScopeId) (location : Location) : Monitor × Option ChangeId :=
  if m.would_coalesce scope location .rescan then (m, none)
  else (m.bump_epoch scope).emit scope location .rescan Evidence.new none

def emit_child (scope : ScopeId) (rec : OsRecord) (kind : ChangeKind) : Monitor :=
  (m.emit scope (m.record_location rec) kind rec.evidence rec.is_dir).1

/-- The `Removed` a source that never paired resolves into. -/
def resolve_lost_source (scope : ScopeId) (source : Location) (is_dir : Option Bool)
    (evidence : Evidence) : Monitor :=
  if !m.ondir_allows scope is_dir then m
  else (m.emit scope source .removed evidence is_dir).1

/-- The delivery of a pairing: `Moved`, or `Created` when the anchor died. -/
def emit_pair (scope : ScopeId) (dest : Location) (pending : PendingMove) (class_ : Option Bool)
    (evidence : Evidence) : Monitor :=
  if !m.ondir_allows scope class_ then m
  else
    match m.live_pending_from pending with
    | some source => (m.emit scope dest (.moved source) evidence class_).1
    | none => (m.emit scope dest .created evidence class_).1

/-! ### Bridge windows -/

/-- `bridge.entry(scope).or_default()`, updated. -/
def set_bridge (scope : ScopeId) (f : BridgeFlags → BridgeFlags) : Monitor :=
  { m with bridge := m.bridge.insert scope (f ((m.bridge[scope]?).getD .default)) }

def bridge_saw_rescan (scope : ScopeId) : Monitor :=
  if m.scope_descends scope then m.set_bridge scope fun f => { f with saw_rescan := true } else m

def bridge_fresh_rearm (scope : ScopeId) : Monitor :=
  if m.scope_descends scope then m.set_bridge scope fun f => { f with fresh_rearm := true } else m

def bridge_bootstrap (scope : ScopeId) : Monitor :=
  if m.scope_descends scope then m.set_bridge scope fun f => { f with bootstrap := true } else m

def mark_bootstrap_loss (scope : ScopeId) : Monitor :=
  if m.in_bootstrap_window scope then m.bridge_saw_rescan scope else m

/-- The loss seat: the window learns of the loss before the coalesce check. -/
def emit_rescan (scope : ScopeId) (location : Location) : Monitor × Option ChangeId :=
  (m.bridge_saw_rescan scope).mint_rescan scope location

/-- One flagged scope of `settle_bridges`. -/
def settle_bridge (scope : ScopeId) : Monitor :=
  if !m.rearm_settled scope then m
  else
    let flags := (m.bridge[scope]?).getD .default
    let m₁ :=
      if m.roots.contains scope && flags.saw_rescan && flags.fresh_rearm then
        (m.emit_rescan scope []).1
      else m
    { m₁ with bridge := m₁.bridge.erase scope }

/-- Flushes every bridge window whose scope has settled. -/
def settle_bridges : Monitor := m.bridge.keys.foldl settle_bridge m

/-- The covers a dirty paired half owes at resolution. -/
def rescan_dirty_pair (scope : ScopeId) (pending : PendingMove) (dest : Location) : Monitor :=
  if !pending.dirty then m
  else
    let m₁ :=
      match m.live_pending_from pending with
      | some source => (m.emit_rescan scope source).1
      | none => m
    (m₁.emit_rescan scope dest).1

end Monitor

end Proto
