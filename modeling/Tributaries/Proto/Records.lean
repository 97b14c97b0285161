import Tributaries.Proto.Tree

/-! # Ingesting records

  `on_os_record` and the handlers behind it: the hold fence, the rename
  halves and their pairing, and the self-events of a watch.
-/

open Std Collections

namespace Proto

namespace Monitor

variable (m : Monitor)

/-! ### The pending-move store -/

/-- The halves of a scope a transition at `loc` interleaves with. -/
def halves_touching (scope : ScopeId) (loc : Location) (exclude : Option MoveCookie)
    (carried : Option WatchId) : List PendingKey :=
  ((m.scope_halves scope).filter fun e =>
    some e.1.2 != exclude && !e.2.dirty && m.is_watched e.2.from_parent
      && !(carried.any fun held =>
        e.2.from_parent == held || m.is_descendant e.2.from_parent held)
      && locations_touch (m.pending_from e.2) loc).map (·.1)

/-- `if let Some(pending) = pending_moves.get_mut(&key)`. -/
def modify_half (key : PendingKey) (f : PendingMove → PendingMove) : Monitor :=
  { m with pending_moves := m.pending_moves.modify key f }

def dirty_pending_sources_touching (scope : ScopeId) (loc : Location)
    (exclude : Option MoveCookie) (carried : Option WatchId) : Monitor :=
  (m.halves_touching scope loc exclude carried).foldl
    (fun m key => m.modify_half key fun p => { p with dirty := true }) m

def dirty_held_sources (scope : Option ScopeId) : Monitor :=
  (m.held_sources.toList.filter fun source =>
    match scope with
    | none => true
    | some scope => m.scope_of source == some scope).foldl book_hold m

/-- The suffix a parked half gets when a resolved pair carried its source along;
    `none` keeps the one it has. -/
def rewritten_source (pending : PendingMove) (source from_ dest : Location) : Option Location :=
  if source = from_ then none
  else
    let anchor := m.location_of pending.from_parent
    if dest.starts_with anchor then
      some (dest.drop anchor.length ++ source.drop from_.length)
    else none

def reanchored (scope : ScopeId) (from_ dest : Location) :
    List (PendingKey × Option Location) :=
  ((m.scope_halves scope).filter fun e => m.is_watched e.2.from_parent).filterMap fun e =>
    let source := m.pending_from e.2
    if !source.starts_with from_ then none
    else some (e.1, m.rewritten_source e.2 source from_ dest)

def reanchor_pending_sources (scope : ScopeId) (from_ dest : Location) : Monitor :=
  (m.reanchored scope from_ dest).foldl
    (fun m e => m.modify_half e.1 fun p =>
      { p with source := e.2.getD p.source, dirty := true }) m

/-- Parks a half; an occupied key displaces the half standing there. -/
def park_pending_move (scope : ScopeId) (cookie : MoveCookie) (pending : PendingMove) :
    Monitor × Option PendingMove :=
  let displaced := m.pending_moves[(scope, cookie)]?
  let m₁ := { m with pending_moves := m.pending_moves.insert (scope, cookie) pending }
  (if displaced.isNone then m₁.acquired_coverage_work scope else m₁, displaced)

/-- `pending_moves.remove(&key)`. -/
def take_half (key : PendingKey) : Monitor × Option PendingMove :=
  ({ m with pending_moves := m.pending_moves.erase key }, m.pending_moves[key]?)

/-- Resolves a half taken from the store without a destination. -/
def resolve_stored_half (pending : PendingMove) : Monitor :=
  let m₁ :=
    match pending.held with
    | some src => (m.drop_subtree src .coveringRescan).1
    | none => m
  match m₁.live_pending_from pending with
  | none => m₁
  | some source =>
    let m₂ := m₁.resolve_lost_source pending.scope source pending.is_dir pending.evidence
    let m₃ := if pending.dirty then (m₂.emit_rescan pending.scope source).1 else m₂
    m₃.dirty_pending_sources_touching pending.scope source none none

/-! ### Structural records -/

def on_created (scope : ScopeId) (rec : OsRecord) : Monitor :=
  let m₁ := if m.ondir_allows scope rec.is_dir then m.emit_child scope rec .created else m
  match rec.name with
  | some name => (m₁.reconcile_slot rec.watch scope name (record_occupant rec) false rec.node).1
  | none => m₁

def on_removed (scope : ScopeId) (rec : OsRecord) : Monitor :=
  let m₁ := if m.ondir_allows scope rec.is_dir then m.emit_child scope rec .removed else m
  match rec.name with
  | some name => (m₁.reconcile_slot rec.watch scope name .gone false rec.node).1
  | none => m₁

/-- Detaches a rename source and holds it for its pairing. -/
def hold_source (scope : ScopeId) (src : WatchId) : Monitor :=
  let m₁ := m.detach_child src
  let m₂ :=
    if m₁.held_sources.contains src then m₁
    else { m₁ with held_sources := m₁.held_sources.insert src }.held_by_scope_inc scope
  if m₂.scope_needs_reproof scope && !m₂.rearm_settled scope then m₂.book_hold src else m₂

def on_moved_from (scope : ScopeId) (rec : OsRecord) (now : Instant) : Monitor :=
  let src := rec.name.bind fun name => m.child_watch rec.watch name
  let is_dir := if src.isSome then some true else rec.is_dir
  let unpairable :=
    -- a refused cookied source proves the object survives somewhere in the scope
    let m₁ :=
      match src with
      | some src =>
        let m₁ :=
          if rec.cookie.isSome && rec.target.isSome then m.stand_counted_cover scope else m
        m₁.drop_departed_occupant src
      | none => m
    m₁.resolve_lost_source scope (m₁.record_location rec) is_dir rec.evidence
  match rec.cookie, rec.target with
  | some cookie, some target =>
    if m.admits_pending_move scope cookie then
      let m₁ :=
        match src with
        | some src => m.hold_source scope src
        | none => m
      let pending : PendingMove :=
        { from_parent := rec.watch, source := target, scope,
          deadline := now.add m₁.move_window, held := src, is_dir, evidence := rec.evidence,
          dirty := false }
      let (m₂, displaced) := m₁.park_pending_move scope cookie pending
      match displaced with
      | some displaced => m₂.resolve_stored_half displaced
      | none => m₂
    else unpairable
  | _, _ => unpairable

/-- The release of a paired source's hold, with whether it was booked. -/
def release_hold (scope : ScopeId) (src : WatchId) : Monitor × Bool :=
  let m₁ :=
    if m.held_sources.contains src then
      { m with held_sources := m.held_sources.erase src }.held_by_scope_dec scope
    else m
  ({ m₁ with dirtied_holds := m₁.dirtied_holds.erase src }, m₁.dirtied_holds.contains src)

/-- The root escalation for a destination whose parent died with the source. -/
def escalate_stale_destination (scope : ScopeId) : Monitor :=
  ((m.dirty_pending_sources_touching scope [] none none).dirty_held_sources
    (some scope)).stand_counted_cover scope

/-- The re-arm a dirtied or stat-deferred source owes where it landed. -/
def settle_moved_source (scope : ScopeId) (src : WatchId) (dest : Location) (dirtied : Bool) :
    Monitor :=
  let m₁ :=
    if dirtied then
      let m₁ := (m.emit_rescan scope dest).1
      if m₁.scope_needs_reproof scope then m₁.start_reinstall src else (m₁.inherit_rearm src).1
    else m
  match m₁.owed_descents[src]? with
  | some descent =>
    { m₁ with owed_descents := m₁.owed_descents.erase src }.apply_descent src descent
  | none => m₁

/-- `inherit_rearm` on whatever watch a slot holds. -/
def inherit_at_slot (parent : WatchId) (name : Segment) : Monitor :=
  match m.child_watch parent name with
  | some fresh => (m.inherit_rearm fresh).1
  | none => m

/-- A destination pairing inside the window with a held directory source. -/
def pair_held (scope : ScopeId) (rec : OsRecord) (pending : PendingMove) (now : Instant)
    (dest : Location) (class_ : Option Bool) (name : Segment) (src : WatchId) :
    Monitor × RecordOutcome :=
  let paired := pending.evidence.union rec.evidence
  let resolved_from := m.live_pending_from pending
  let reparenting := m.reparenting_source pending rec.name now
  let renamed :=
    if class_ != some false && decide (0 < rec.depth) then
      match resolved_from with
      | some source => RecordOutcome.renamed source
      | none => .nothing
    else .nothing
  let (m₁, dirtied) := m.release_hold scope src
  let (m₂, moved) :=
    if m₁.can_reparent src rec.watch && m₁.reparentable_adoption src then
      m₁.reparent src rec.watch name .moved
    else (m₁, false)
  if moved then
    let m₃ := m₂.emit_pair scope dest pending class_ paired
    let m₄ :=
      match reparenting with
      | some (_, source) => m₃.reanchor_pending_sources scope source dest
      | none => m₃
    let outcome :=
      match reparenting with
      | some (from_parent, source) => RecordOutcome.reparented from_parent source
      | none => .nothing
    let m₅ := m₄.rescan_dirty_pair scope pending dest
    (m₅.settle_moved_source scope src dest dirtied, outcome)
  else
    let m₃ := if m₂.is_watched src then (m₂.drop_subtree src .coveringRescan).1 else m₂
    if m₃.is_watched rec.watch then
      let m₄ := m₃.emit_pair scope dest pending class_ paired
      let m₅ :=
        match reparenting with
        | some (_, source) => m₄.reanchor_pending_sources scope source dest
        | none => m₄
      let m₆ := m₅.rescan_dirty_pair scope pending dest
      let m₇ := (m₆.emit_rescan scope dest).1
      let m₈ := (m₇.reconcile_slot rec.watch scope name (class_occupant class_) true rec.node).1
      (m₈.inherit_at_slot rec.watch name, renamed)
    else (m₃.escalate_stale_destination scope, .nothing)

/-- A destination pairing inside the window without a source to re-key. -/
def pair_unheld (scope : ScopeId) (rec : OsRecord) (pending : PendingMove) (dest : Location)
    (class_ : Option Bool) : Monitor × RecordOutcome :=
  let paired := pending.evidence.union rec.evidence
  let resolved_from := m.live_pending_from pending
  let renamed :=
    if class_ != some false && decide (0 < rec.depth) then
      match resolved_from with
      | some source => RecordOutcome.renamed source
      | none => .nothing
    else .nothing
  let m₁ :=
    match rec.name, pending.held with
    | none, some src =>
      ((m.stand_counted_cover scope).drop_subtree src .coveringRescan).1
    | _, _ => m
  let m₂ := m₁.emit_pair scope dest pending class_ paired
  let m₃ :=
    match resolved_from with
    | some source => m₂.reanchor_pending_sources scope source dest
    | none => m₂
  let m₄ := m₃.rescan_dirty_pair scope pending dest
  match rec.name with
  | some name =>
    ((m₄.reconcile_slot rec.watch scope name (class_occupant class_) true rec.node).1, renamed)
  | none => (m₄, renamed)

/-- A destination past its half's window: the half strands, the destination arrives. -/
def pair_late (scope : ScopeId) (rec : OsRecord) (pending : PendingMove) (dest : Location) :
    Monitor :=
  let class_ := rec.is_dir.or pending.is_dir
  let carried := pending.held.any m.is_watched
  let m₁ := m.resolve_stored_half pending
  if m₁.is_watched rec.watch then
    let m₂ :=
      if m₁.ondir_allows scope class_ then (m₁.emit scope dest .created rec.evidence class_).1
      else m₁
    match rec.name with
    | some name =>
      let m₃ := if carried then (m₂.emit_rescan scope dest).1 else m₂
      let m₄ := (m₃.reconcile_slot rec.watch scope name (class_occupant class_) true rec.node).1
      if carried then m₄.inherit_at_slot rec.watch name else m₄
    | none => if carried then m₂.stand_counted_cover scope else m₂
  else m₁.escalate_stale_destination scope

/-- A destination that pairs with nothing parked. -/
def arrive_unpaired (scope : ScopeId) (rec : OsRecord) (dest : Location) : Monitor :=
  let m₁ :=
    if m.ondir_allows scope rec.is_dir then (m.emit scope dest .created rec.evidence rec.is_dir).1
    else m
  match rec.name with
  | some name => (m₁.reconcile_slot rec.watch scope name (record_occupant rec) true rec.node).1
  | none => m₁

def on_moved_to (scope : ScopeId) (rec : OsRecord) (now : Instant) : Monitor × RecordOutcome :=
  let dest := m.record_location rec
  match rec.cookie with
  | none => (m.arrive_unpaired scope rec dest, .nothing)
  | some cookie =>
    let (m₁, half) := m.take_half (scope, cookie)
    match half with
    | none => (m₁.arrive_unpaired scope rec dest, .nothing)
    | some pending =>
      if pending.in_window now then
        let class_ := rec.is_dir.or pending.is_dir
        match rec.name, pending.held with
        | some name, some src => m₁.pair_held scope rec pending now dest class_ name src
        | _, _ => m₁.pair_unheld scope rec pending dest class_
      else (m₁.pair_late scope rec pending dest, .nothing)

/-! ### Self-events -/

def on_move_self (scope : ScopeId) (rec : OsRecord) : Monitor :=
  if m.is_root_watch rec.watch then
    ((m.emit_rescan scope []).1).invalidate_root scope rec.watch
  else
    match m.unproven_adoption_of rec.watch with
    | some parent => (m.release_adoption_marker parent scope .countedRetirement).1
    | none => m

def on_delete_self (scope : ScopeId) (rec : OsRecord) : Monitor :=
  if m.is_root_watch rec.watch then
    let m₁ :=
      if m.ondir_allows scope (some true) then
        (m.emit scope (m.location_of rec.watch) .removed rec.evidence rec.is_dir).1
      else m
    ((m₁.emit_rescan scope []).1).invalidate_root scope rec.watch
  else m.drop_departed_occupant rec.watch

def on_ignored (scope : ScopeId) (rec : OsRecord) : Monitor :=
  if m.is_root_watch rec.watch then
    ((m.emit_rescan scope []).1).invalidate_root scope rec.watch
  else
    match m.in_held_subtree rec.watch with
    | some source => ((m.book_hold source).drop_subtree rec.watch .coveringRescan).1
    | none =>
      let slot :=
        match m.slot_of rec.watch, m.nodes[rec.watch]? with
        | some slot, some node => some (slot, node.is_dir)
        | _, _ => none
      let m₁ := (m.drop_subtree rec.watch .coveringRescan).1
      match slot with
      | none => m₁.stand_counted_cover scope
      | some ((parent, name), is_dir) => m₁.cover_and_rebuild_slot scope parent name is_dir none

/-! ### The record door -/

/-- Whether a record inside a held subtree is fenced off. -/
def hold_fences (scope : ScopeId) (rec : OsRecord) (source : WatchId) : Bool :=
  match rec.kind with
  | .created | .removed | .modified | .attrib | .movedFrom => true
  -- only the source's own pairing passes: it may be a cyclic move to reject
  | .movedTo =>
    !(rec.cookie.any fun cookie =>
      match m.pending_moves[(scope, cookie)]? with
      | some pending => pending.held == some source
      | none => false)
  | .ignored | .moveSelf | .deleteSelf => false

/-- The watch whose subtree an admitted `MovedFrom` is about to detach. -/
def carried_source (scope : ScopeId) (rec : OsRecord) : Option WatchId :=
  if rec.kind.is_moved_from && rec.cookie.any (m.admits_pending_move scope) then
    rec.name.bind fun name => m.child_watch rec.watch name
  else none

/-- Marks the halves a surviving record interleaves with. -/
def fence_latent_transitions (scope : ScopeId) (rec : OsRecord) : Monitor :=
  if rec.kind.is_self_event then m
  else
    let exclude := if rec.kind = .movedTo then rec.cookie else none
    m.dirty_pending_sources_touching scope (m.record_location rec) exclude
      (m.carried_source scope rec)

/-- Whether the record changes what its watch lists. -/
def is_structural (kind : RecordKind) : Bool :=
  match kind with
  | .created | .removed | .movedFrom | .movedTo => true
  | _ => false

/-- The dispatch of a record past every fence. -/
def dispatch_record (scope : ScopeId) (rec : OsRecord) (now : Instant) :
    Monitor × RecordOutcome :=
  match rec.kind with
  | .movedTo => m.on_moved_to scope rec now
  | .created => (m.on_created scope rec, .nothing)
  | .removed => (m.on_removed scope rec, .nothing)
  | .modified | .attrib =>
    (if rec.evidence.admits (m.scope_interest scope) && m.ondir_allows scope rec.is_dir then
        m.emit_child scope rec .modified
      else m, .nothing)
  | .movedFrom => (m.on_moved_from scope rec now, .nothing)
  | .moveSelf => (m.on_move_self scope rec, .nothing)
  | .deleteSelf => (m.on_delete_self scope rec, .nothing)
  | .ignored => (m.on_ignored scope rec, .nothing)

/-- Whether a record breaks the target contract of its kind. -/
def is_malformed (scope : ScopeId) (rec : OsRecord) : Bool :=
  (decide (1 < rec.depth) && m.scope_descends scope)
    || (decide (0 < rec.depth) && rec.kind.is_self_event)

/-- What a suppressed record inside a hold leaves behind. -/
def suppress_in_hold (source watch : WatchId) : Monitor :=
  (m.book_hold source).mark_enumerate_dirty watch

def ingest_record (rec : OsRecord) (now : Instant) : Monitor × RecordOutcome :=
  match m.scope_of rec.watch with
  | none => (m, .nothing)
  | some scope =>
    let held := m.in_held_subtree rec.watch
    if m.is_malformed scope rec then
      match held with
      | some source => (m.suppress_in_hold source rec.watch, .nothing)
      | none => (m.rescan_and_rearm scope rec.watch, .nothing)
    else
      match held.filter (m.hold_fences scope rec) with
      | some source => (m.suppress_in_hold source rec.watch, .nothing)
      | none =>
        let m₁ := m.fence_latent_transitions scope rec
        let m₂ := if is_structural rec.kind then m₁.mark_enumerate_dirty rec.watch else m₁
        m₂.dispatch_record scope rec now

end Monitor

end Proto
