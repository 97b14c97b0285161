import Tributaries.Proto.Records

/-! # Ingesting results

  The answers a driver feeds back: stats, directory reads and arms.  Every
  answer is lowered through the fence of `fence_lowering` first, so that a
  path that moved under the request is never trusted for evidence.
-/

open Std Collections

namespace Proto

namespace Monitor

variable (m : Monitor)

/-! ### Stats -/

/-- The answered slot's successor takes over what the incumbent was owed. -/
def settle_stat_slot (scope : ScopeId) (parent : WatchId) (name : Segment)
    (incumbent : Option WatchId) (descent : Option StatDescent) (deliver : Bool) : Monitor :=
  let successor := m.child_watch parent name
  if successor = incumbent then
    match incumbent, descent with
    | some kept, some descent => m.apply_descent kept descent
    | _, _ => m
  else if incumbent.isNone then m
  else
    let cover := m.child_location parent name
    match successor with
    | some fresh =>
      let m₁ :=
        if deliver && !m.bridge_is_lossy scope then (m.emit_rescan scope cover).1 else m
      (m₁.inherit_rearm fresh).1
    | none => if deliver then (m.emit_rescan scope cover).1 else m

/-- What an answer says of its slot, with whether the slot's cover is owed. -/
def settle_stat_answer (slot : StatSlot) (incumbent : Option WatchId) (stale dark : Bool)
    (res : StatResult) : Monitor × Bool :=
  let unproved :=
    (if (m.child_watch slot.parent slot.name).isNone then
        m.record_slot_deficit slot.scope slot.parent slot.name
      else m, true)
  match res with
  | .ok entry =>
    if !stale && !entry.kind.is_unknown then
      let (m₁, healed) :=
        m.reconcile_slot slot.parent slot.scope slot.name (entry_occupant entry.kind) false
          entry.node
      let installed := if incumbent.isNone then m₁.child_watch slot.parent slot.name else none
      let m₂ :=
        match installed with
        | some fresh =>
          if slot.bootstrap then ((m₁.bridge_saw_rescan slot.scope).inherit_rearm fresh).1 else m₁
        | none => m₁
      (m₂, slot.stands_loss && dark && !healed && !(slot.bootstrap && installed.isSome))
    else unproved
  | .failed class_ =>
    if !stale && class_.is_not_found then
      let (m₁, healed) := m.reconcile_slot slot.parent slot.scope slot.name .gone false none
      (m₁, slot.stands_loss && dark && !healed)
    else unproved

def ingest_stat_result (req : ReqId) (res : StatResult) : Monitor :=
  match m.pending_stat[req]? with
  | none => m
  | some slot =>
    let m₁ := { m with pending_stat := m.pending_stat.erase req }
    let dark := m₁.stat_slot_dark slot
    let m₂ := { m₁ with stat_slots := m₁.stat_slots.erase (slot.parent, slot.name) }
    let m₃ := if slot.stands_loss then m₂.stat_loss_dec slot.scope 1 else m₂
    if !m₃.is_watched slot.parent then m₃
    else
      let (m₄, lowering) := m₃.fence_lowering slot.parent slot.placement
      let incumbent := m₄.child_watch slot.parent slot.name
      let descent := incumbent.bind fun kept => m₄.owed_descents[kept]?
      let m₅ :=
        match incumbent with
        | some kept => { m₄ with owed_descents := m₄.owed_descents.erase kept }
        | none => m₄
      let (m₆, owes_cover) :=
        m₅.settle_stat_answer slot incumbent (!lowering.is_evidence) dark res
      let m₇ :=
        if owes_cover && lowering.locatable then
          (m₆.emit_rescan slot.scope (m₆.child_location slot.parent slot.name)).1
        else m₆
      m₇.settle_stat_slot slot.scope slot.parent slot.name incumbent descent lowering.locatable

/-! ### Directory reads -/

/-- The slot of one listed entry under an incomplete read. -/
def reconcile_incomplete_entry (dir : WatchId) (scope : ScopeId) (entry : DirEntry) : Monitor :=
  let occupant := listed_occupant entry
  let fresh := decide (occupant = .dir) && (m.child_watch dir entry.name).isNone
  let m₁ := (m.reconcile_slot dir scope entry.name occupant false entry.node).1
  if fresh then m₁.mark_fresh_install scope (m₁.child_watch dir entry.name) else m₁

/-- The cascade of a read onto one child of the directory. -/
def cascade_child (dir : WatchId) (reprove : Bool) (child : WatchId) : Monitor :=
  if reprove && m.is_slot_child dir child then m.start_reinstall child
  else (m.inherit_rearm child).1

/-- A read that may not be trusted as a whole: add what it shows, cascade, and
    retry until the budget is gone. -/
def handle_incomplete_enumerate (dir : WatchId) (scope : ScopeId) (entries : List DirEntry)
    (attempts : Nat) (deliver reprove : Bool) : Monitor :=
  let m₁ := entries.foldl (fun m entry => m.reconcile_incomplete_entry dir scope entry) m
  let m₂ := (m₁.children_of dir).foldl (fun m child => m.cascade_child dir reprove child) m₁
  let m₃ := if deliver then (m₂.emit_rescan scope (m₂.location_of dir)).1 else m₂
  if attempts < REARM_MAX_RETRIES then m₃.queue_enumerate dir (.rearm reprove) (attempts + 1)
  else
    let m₄ := { m₃ with dark_installs := m₃.dark_installs.erase dir }
    let m₅ := (m₄.release_adoption_marker dir scope .countedRetirement).1
    if deliver then m₅.record_interior_deficit scope dir else m₅

/-- The identities a listing gives its descendable names. -/
def present_of (entries : List DirEntry) : Map Segment (Option Identity) :=
  (entries.filter DirEntry.descends).foldl
    (fun acc entry => acc.insert entry.name entry.node) ∅

/-- The names a listing could not classify. -/
def unsettled_of (entries : List DirEntry) : OSet Segment :=
  (entries.filter fun entry => entry.kind.is_unknown).foldl
    (fun acc entry => acc.insert entry.name) ∅

/-- The two flags of the retirement pass. -/
structure Retirement where
  retired : Bool
  rebuilt_every : Bool

/-- One existing child of a re-arm read: kept and cascaded into, or retired. -/
def settle_existing_child (dir : WatchId) (reprove : Bool) (entries : List DirEntry)
    (acc : Monitor × Retirement) (child : WatchId) : Monitor × Retirement :=
  let m := acc.1
  if !m.is_slot_child dir child then acc
  else
    let name := (m.nodes[child]?).bind (·.name)
    if name.any (unsettled_of entries).contains then acc
    else
      let survives :=
        match name.bind fun name => (present_of entries)[name]? with
        | some fresh => m.identity_matches child fresh
        | none => false
      if survives then
        (if reprove then m.start_reinstall child else (m.inherit_rearm child).1, acc.2)
      else
        (m.drop_subtree_for_crawl_rebuild child,
          ⟨true, acc.2.rebuilt_every && name.any (present_of entries).contains⟩)

/-- The fresh install of one listed entry of a re-arm read. -/
def install_listed (dir : WatchId) (scope : ScopeId) (entry : DirEntry) : Monitor :=
  if !entry.descends then m
  else if (m.child_watch dir entry.name).isNone then
    let m₁ := (m.install_child dir scope entry.name true entry.node).1
    let fresh := m₁.child_watch dir entry.name
    let m₂ :=
      match fresh with
      | some fresh => (m₁.inherit_rearm fresh).1
      | none => m₁
    m₂.mark_fresh_install scope fresh
  else m

/-- The question one unclassified entry of a re-arm read raises. -/
def ask_listed (dir : WatchId) (scope : ScopeId) (reprove : Bool) (entry : DirEntry) : Monitor :=
  if !entry.kind.is_unknown then m
  else
    let m₁ := (m.reconcile_slot dir scope entry.name .unknown false entry.node).1
    m₁.defer_stat_descent dir entry.name (if reprove then .reprove else .rearm)

/-- A complete re-arm read: settle the existing children, install what is new,
    ask about what is unknown. -/
def rearm_enumerate (dir : WatchId) (scope : ScopeId) (entries : List DirEntry)
    (reprove : Bool) : Monitor :=
  let (m₁, retirement) := (m.children_of dir).foldl
    (fun acc child => settle_existing_child dir reprove entries acc child) (m, ⟨false, true⟩)
  let m₂ :=
    if retirement.retired && !(retirement.rebuilt_every && m₁.bridge_is_lossy scope) then
      (m₁.emit_rescan scope (m₁.location_of dir)).1
    else m₁
  let m₃ := entries.foldl (fun m entry => m.install_listed dir scope entry) m₂
  entries.foldl (fun m entry => m.ask_listed dir scope reprove entry) m₃

/-- The verdict a complete listing gives on an adopted edge. -/
def resolve_adoption (dir : WatchId) (scope : ScopeId) (held : Bool) (entries : List DirEntry) :
    Monitor :=
  if held then (m.release_adoption_marker dir scope .countedRetirement).1
  else
    match m.pending_adoptions[dir]? with
    | none => m
    | some marker =>
      if !m.nodes.contains marker.adopted then
        let m₁ := (m.release_adoption_marker dir scope .verdict).1
        (m₁.emit_rescan scope ((m₁.location_of dir).child marker.name)).1
      else
        let entry := entries.find? fun entry => entry.name == marker.name
        let confirmed :=
          m.child_watch dir marker.name == some marker.adopted
            && entry.any fun entry => entry.descends && entry.node == some marker.identity
        if confirmed then m.stage_adoption dir scope
        else
          let m₁ := (m.release_adoption_marker dir scope .verdict).1
          (m₁.stand_counted_cover scope).retire_adopted marker.adopted

/-- One listed entry of a cold read: announced, and its slot reconciled. -/
def announce_listed (dir : WatchId) (scope : ScopeId) (entry : DirEntry) : Monitor :=
  let class_ := entry.kind.proven_dir
  let m₁ :=
    if m.ondir_allows scope class_ then
      (m.emit scope (m.child_location dir entry.name) .created (Evidence.of .created) class_).1
    else m
  (m₁.reconcile_slot dir scope entry.name (listed_occupant entry) false entry.node).1

/-- A complete listing lowered as evidence. -/
def handle_complete_enumerate (dir : WatchId) (scope : ScopeId) (kind : EnumKind) (held : Bool)
    (entries : List DirEntry) : Monitor :=
  let m₁ := m.clear_interior_deficit scope dir
  let m₂ := m₁.resolve_adoption dir scope held entries
  let m₃ :=
    match kind with
    | .rearm reprove => m₂.rearm_enumerate dir scope entries reprove
    | .cold =>
      if held then m₂.rearm_enumerate dir scope entries false
      else entries.foldl (fun m entry => m.announce_listed dir scope entry) m₂
  m₃.settle_dark_install dir scope entries

/-- Whether a read's kind is a reproving re-arm. -/
def reproves : EnumKind → Bool
  | .rearm reprove => reprove
  | .cold => false

def ingest_enumerate (req : ReqId) (res : EnumerateResult) : Monitor :=
  let m₁ := { m with latent_cold := m.latent_cold.erase req }
  match m₁.pending_enumerate[req]? with
  | none => m₁
  | some dir =>
    let m₂ := { m₁ with pending_enumerate := m₁.pending_enumerate.erase req }
    match m₂.nodes[dir]? with
    | none => m₂
    | some node =>
      match node.state with
      | .enumerating r kind attempts dirty =>
        if r ≠ req then m₂
        else
          let (m₃, lowering) := m₂.fence_lowering dir node.placement
          let m₄ := m₃.set_state dir .live
          if res.forces_rescan || dirty || !lowering.is_evidence then
            let entries :=
              if lowering.is_evidence then res.entries
              else if lowering.moved then []
              else m₄.additive_entries dir res.entries
            m₄.handle_incomplete_enumerate dir node.scope entries attempts lowering.locatable
              (reproves kind)
          else m₄.handle_complete_enumerate dir node.scope kind lowering.held.isSome res.entries
      | _ => m₂

/-! ### Arms -/

/-- A binding that cannot be proved is dropped, and its slot armed again. -/
def retire_unprovable_binding (id : WatchId) (scope : ScopeId) (lowering : Lowering) : Monitor :=
  match m.slot_of id, m.nodes[id]? with
  | some (parent, name), some node =>
    let m₁ := (m.drop_subtree id .coveringRescan).1
    if !lowering.locatable then m₁
    else m₁.cover_and_rebuild_slot scope parent name node.is_dir node.identity
  | _, _ => ((m.emit_rescan scope (m.location_of id)).1).invalidate_root scope id

/-- The continuation of an accepted arm. -/
def accept_arm (id : WatchId) (node : WatchNode) (reprove rearm : Bool) (ack : WatchAck) :
    Monitor :=
  let m₁ := if reprove && ack.is_installed then m.bridge_fresh_rearm node.scope else m
  if reprove && m₁.reprove_stamps[id]? ≠ some (m₁.loss_gen node.scope) then
    m₁.queue_reinstall id node.scope
  else
    let m₂ :=
      if reprove then { m₁ with reprove_stamps := m₁.reprove_stamps.erase id } else m₁
    let m₃ := m₂.set_state id .live
    if node.is_dir && m₃.scope_descends node.scope then
      if reprove then m₃.queue_enumerate id (.rearm true) 0
      else if rearm then (m₃.start_rearm id).1
      else m₃.queue_enumerate id .cold 0
    else m₃

/-- A refused arm: the watch dies with its slot booked, a root with its scope. -/
def refuse_arm (id : WatchId) (scope : ScopeId) (lowering : Lowering) : Monitor :=
  if !lowering.locatable then (m.drop_subtree id .coveringRescan).1
  else if m.is_root_watch id then
    ((m.emit_rescan scope (m.location_of id)).1).invalidate_root scope id
  else
    let m₁ := (m.emit_rescan scope (m.location_of id)).1
    let m₂ :=
      match m₁.slot_of id with
      | some (parent, name) => m₁.record_slot_deficit scope parent name
      | none => m₁
    (m₂.drop_subtree id .coveringRescan).1

def ingest_watch_result (id : WatchId) (attempt : ArmAttempt) (res : Except WatchError WatchAck) :
    Monitor :=
  match m.nodes[id]? with
  | none => m
  | some node =>
    if node.attempt ≠ attempt then m
    else
      let (m₁, lowering) := m.fence_lowering id node.placement
      match res, node.state with
      | .ok ack, .arming rearm reprove =>
        if !lowering.is_evidence then m₁.retire_unprovable_binding id node.scope lowering
        else m₁.accept_arm id node reprove rearm ack
      | .ok _, _ =>
        if lowering.moved then m₁.readdress_outstanding_arm id else m₁
      | .error _, _ =>
        if lowering.moved then m₁.readdress_outstanding_arm id
        else m₁.refuse_arm id node.scope lowering

end Monitor

end Proto
