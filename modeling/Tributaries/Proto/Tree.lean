import Tributaries.Proto.Rearm

/-! # The watch tree and its ledgers

  Installing, detaching, re-keying and dropping watches, together with
  the per-slot and per-node stores that have to follow: the deficit book,
  the outstanding stats, the adoption markers.
-/

open Std Collections

namespace Proto

namespace Monitor

variable (m : Monitor)

/-! ### The deficit book -/

def enforce_deficit_cap (book : DeficitBook) : DeficitBook :=
  if DEFICIT_CAP < book.fine_len then { slots := ∅, interiors := ∅, collapsed := true } else book

def gc_deficit_book (scope : ScopeId) : Monitor :=
  match m.deficits[scope]? with
  | some book => if book.is_clear then { m with deficits := m.deficits.erase scope } else m
  | none => m

/-- `book.slots.entry(parent).or_default().insert(name)`. -/
def DeficitBook.add_slot (book : DeficitBook) (parent : WatchId) (name : Segment) : DeficitBook :=
  { book with slots := book.slots.insert parent (((book.slots[parent]?).getD ∅).insert name) }

/-- Removes one name of a parent's holes, and the parent with its last name. -/
def DeficitBook.remove_slot (book : DeficitBook) (parent : WatchId) (name : Segment) :
    DeficitBook :=
  match book.slots[parent]? with
  | none => book
  | some names =>
    let rest := names.erase name
    if rest.isEmpty then { book with slots := book.slots.erase parent }
    else { book with slots := book.slots.insert parent rest }

def DeficitBook.has_slot (book : DeficitBook) (parent : WatchId) (name : Segment) : Bool :=
  match book.slots[parent]? with
  | none => false
  | some names => names.contains name

def record_slot_deficit (scope : ScopeId) (parent : WatchId) (name : Segment) : Monitor :=
  if !m.scope_descends scope then m
  else if !m.nodes.contains parent then m
  else
    let book := (m.deficits[scope]?).getD .default
    let book₁ :=
      if book.collapsed then book else enforce_deficit_cap (DeficitBook.add_slot book parent name)
    { m with deficits := m.deficits.insert scope book₁ }

def record_interior_deficit (scope : ScopeId) (dir : WatchId) : Monitor :=
  if !m.scope_descends scope then m
  else if !m.nodes.contains dir then m
  else
    let book := (m.deficits[scope]?).getD .default
    let book₁ :=
      if book.collapsed then book
      else enforce_deficit_cap { book with interiors := book.interiors.insert dir }
    { m with deficits := m.deficits.insert scope book₁ }

/-- Updates the stat outstanding for a slot, if any. -/
def modify_slot_stat (parent : WatchId) (name : Segment) (f : StatSlot → StatSlot) : Monitor :=
  match m.stat_slots[(parent, name)]? with
  | none => m
  | some req => { m with pending_stat := m.pending_stat.modify req f }

/-- Heals a recorded hole; both bridge bits then stand for its cover. -/
def remove_slot_deficit (scope : ScopeId) (parent : WatchId) (name : Segment) : Monitor × Bool :=
  match m.deficits[scope]? with
  | none => (m, false)
  | some book =>
    match book.slots[parent]? with
    | none => (m, false)
    | some names =>
      let removed := names.contains name
      let m₁ :=
        { m with deficits := m.deficits.insert scope (DeficitBook.remove_slot book parent name) }
      let m₂ := m₁.gc_deficit_book scope
      if removed then
        let m₃ := (m₂.bridge_saw_rescan scope).bridge_fresh_rearm scope
        (m₃.modify_slot_stat parent name fun slot => { slot with dark_uncovered := false }, true)
      else (m₂, false)

def clear_interior_deficit (scope : ScopeId) (dir : WatchId) : Monitor :=
  match m.deficits[scope]? with
  | none => m
  | some book =>
    let removed := book.interiors.contains dir
    let m₁ :=
      { m with
        deficits := m.deficits.insert scope { book with interiors := book.interiors.erase dir } }
    let m₂ := m₁.gc_deficit_book scope
    if removed then (m₂.bridge_saw_rescan scope).bridge_fresh_rearm scope else m₂

/-- Drops every entry anchored at a dying node. -/
def drop_node_deficits (scope : ScopeId) (id : WatchId) : Monitor × Bool :=
  match m.deficits[scope]? with
  | none => (m, false)
  | some book =>
    let interior := book.interiors.contains id
    let slots := book.slots.contains id
    let book₁ := { book with interiors := book.interiors.erase id, slots := book.slots.erase id }
    let m₁ := { m with deficits := m.deficits.insert scope book₁ }
    (m₁.gc_deficit_book scope, interior || slots)

/-! ### Outstanding stats -/

def raise_stat_darkness (req : ReqId) : Monitor :=
  match m.pending_stat[req]? with
  | none => m
  | some slot =>
    let m₁ :=
      { m with
        pending_stat :=
          m.pending_stat.insert req { slot with dark_uncovered := true, stands_loss := true } }
    if slot.stands_loss then m₁ else m₁.stat_loss_inc slot.scope

def cover_stat_vacancy (parent : WatchId) (name : Segment) : Monitor :=
  m.modify_slot_stat parent name fun slot => { slot with vacancy_covered := true }

/-- Empties a child slot; the stat asking about it is uncovered again. -/
def vacate_child_slot (parent : WatchId) (name : Segment) : Monitor :=
  if !m.child_index.contains (parent, name) then m
  else
    let m₁ := { m with child_index := m.child_index.erase (parent, name) }
    m₁.modify_slot_stat parent name fun slot => { slot with vacancy_covered := false }

/-- Asks what stands in a slot, once per slot. -/
def queue_stat (parent : WatchId) (scope : ScopeId) (name : Segment) : Monitor :=
  if !m.nodes.contains parent then m
  else
    let uncovered := (m.child_watch parent name).isNone
    match m.stat_slots[(parent, name)]? with
    | some outstanding => if uncovered then m.raise_stat_darkness outstanding else m
    | none =>
      let (m₁, req) := m.next_req_id
      let bootstrap := m₁.in_bootstrap_window scope
      let stands_loss := bootstrap || uncovered
      let m₂ := if stands_loss then m₁.stat_loss_inc scope else m₁
      let m₃ := { m₂ with stat_slots := m₂.stat_slots.insert (parent, name) req }
      let slot : StatSlot :=
        { parent, name, scope, placement := m₃.placement_now, bootstrap, stands_loss,
          dark_uncovered := uncovered, vacancy_covered := false }
      let m₄ := { m₃ with pending_stat := m₃.pending_stat.insert req slot }
      { m₄ with actions := m₄.actions ++ [.stat req parent name] }

/-- Books the descent an incumbent is owed once its slot's kind is known. -/
def defer_stat_descent (parent : WatchId) (name : Segment) (descent : StatDescent) : Monitor :=
  if !m.stat_slots.contains (parent, name) then m
  else
    match m.child_watch parent name with
    | none => m
    | some incumbent =>
      let owed :=
        match m.owed_descents[incumbent]? with
        | some owed => owed.max descent
        | none => descent
      { m with owed_descents := m.owed_descents.insert incumbent owed }

/-! ### Adoption markers -/

def record_adoption_marker (parent : WatchId) (name : Segment) (adopted : WatchId)
    (identity : Identity) (scope : ScopeId) : Monitor :=
  let m₁ := { m with pending_adoptions := m.pending_adoptions.insert parent ⟨name, adopted, identity⟩ }
  { m₁ with adopting_by_scope := count_up m₁.adopting_by_scope scope }.acquired_coverage_work scope

def stage_adoption (parent : WatchId) (scope : ScopeId) : Monitor :=
  if m.staged_adoptions.contains (scope, parent) then m
  else
    let m₁ := { m with adoption_staging_seq := m.adoption_staging_seq + 1 }
    { m₁ with
      staged_adoptions := m₁.staged_adoptions.insert (scope, parent) m₁.adoption_staging_seq }

/-- The part of `release_adoption_marker` every disposal shares. -/
def take_adoption_marker (parent : WatchId) (scope : ScopeId) : Monitor × Option AdoptionMarker :=
  match m.pending_adoptions[parent]? with
  | none => (m, none)
  | some marker =>
    ({ m with
        pending_adoptions := m.pending_adoptions.erase parent
        staged_adoptions := m.staged_adoptions.erase (scope, parent)
        adopting_by_scope := count_down m.adopting_by_scope scope 1 },
      some marker)

/-! ### Dropping a subtree -/

/-- Reclaims what one store keeps for a removed node.  The adoption arm is
    `release_adoption_marker` under `DiesWithTheWalk`, which disposes of nothing. -/
def reclaim_node_marker (marker : NodeMarker) (id : WatchId) (node : WatchNode) :
    Monitor × ErasedCover :=
  match marker with
  | .enumerate =>
    match node.state with
    | .enumerating req _ _ _ => (m.forget_read req, .nothing)
    | _ => (m, .nothing)
  | .statSlots =>
    let dark := m.pending_stat.toList.any fun e =>
      e.2.parent == id && e.2.stands_loss && m.stat_slot_dark e.2
    let standing :=
      (m.pending_stat.toList.filter fun e => e.2.parent == id && e.2.stands_loss).length
    let m₁ := { m with pending_stat := m.pending_stat.filter fun _ slot => slot.parent != id }
    let m₂ := m₁.stat_loss_dec node.scope standing
    let m₃ := { m₂ with stat_slots := m₂.stat_slots.filter fun key _ => key.1 != id }
    (m₃, if dark then .discharge else .nothing)
  | .heldSource =>
    if m.held_sources.contains id then
      ({ m with held_sources := m.held_sources.erase id }.held_by_scope_dec node.scope, .nothing)
    else (m, .nothing)
  | .dirtiedHold =>
    if m.dirtied_holds.contains id then
      ({ m with dirtied_holds := m.dirtied_holds.erase id }, .counted)
    else (m, .nothing)
  | .owedDescent =>
    if m.owed_descents.contains id then
      ({ m with owed_descents := m.owed_descents.erase id }, .counted)
    else (m, .nothing)
  | .reproveStamp => ({ m with reprove_stamps := m.reprove_stamps.erase id }, .nothing)
  | .adoption =>
    let (m₁, released) := m.take_adoption_marker id node.scope
    (m₁, if released.isSome then .discharge else .nothing)
  | .deficits =>
    let (m₁, erased) := m.drop_node_deficits node.scope id
    (m₁, if erased then .discharge else .nothing)
  | .darkInstall => ({ m with dark_installs := m.dark_installs.erase id }, .nothing)

/-- Unlinks a removed node from its parent, its slot or its scope. -/
def unlink_node (id : WatchId) (node : WatchNode) : Monitor :=
  match node.parent with
  | none => { m with roots := m.roots.erase node.scope }
  | some parent =>
    let m₁ := m.modify_node parent fun n => { n with children := n.children.erase id }
    match node.name with
    | none => m₁
    | some name =>
      if m₁.child_index[(parent, name)]? = some id then m₁.vacate_child_slot parent name else m₁

/-- One iteration of the drop walk: removes a live node with everything kept for it. -/
def remove_node (id : WatchId) (node : WatchNode) (erased : ErasedCovers) :
    Monitor × ErasedCovers :=
  let m₁ := { m with nodes := m.nodes.erase id }
  let m₂ := if node.state.is_rearm then m₁.rearm_pending_dec node.scope else m₁
  let m₃ := m₂.unlink_node id node
  let (m₄, erased₁) := NodeMarker.ALL.foldl
    (fun (acc : Monitor × ErasedCovers) marker =>
      let (acc₁, cover) := acc.1.reclaim_node_marker marker id node
      (acc₁, acc.2.absorb cover))
    (m₃, erased)
  ({ m₄ with actions := m₄.actions ++ [.unwatch id] }, erased₁)

/-- The `while let Some(id) = stack.pop()` loop of `drop_subtree`; the head of
    the list is the top of the stack. -/
def drop_walk : Nat → Monitor → List WatchId → ErasedCovers → Monitor × ErasedCovers
  | 0, m, _, erased => (m, erased)
  | _ + 1, m, [], erased => (m, erased)
  | n + 1, m, id :: stack, erased =>
    match m.nodes[id]? with
    | none => drop_walk n m stack erased
    | some node =>
      let (m₁, erased₁) := m.remove_node id node erased
      drop_walk n m₁ (node.children.toList.reverse ++ stack) erased₁

/-- Enough iterations for any drop walk: each pops one entry, and only a
    removed node's children are pushed. -/
def drop_fuel : Nat := (m.nodes.toList.map fun e => e.2.children.size).sum + 1

/-- Drops a watch with everything below it and discharges what was erased. -/
def drop_subtree (root : WatchId) (discharge : DeficitDischarge) : Monitor × Bool :=
  let root_scope := m.scope_of root
  let reanchor :=
    if discharge = .reanchor then
      match m.scope_of root, m.slot_of root with
      | some scope, some slot => some (scope, slot)
      | _, _ => none
    else none
  let (m₁, erased) := drop_walk (m.drop_fuel + 1) m [root] .default
  let (m₂, stood) :=
    if erased.discharge then
      match discharge with
      | .coveringRescan =>
        match root_scope with
        | some scope =>
          ((m₁.bridge_saw_rescan scope).bridge_fresh_rearm scope, m₁.scope_descends scope)
        | none => (m₁, false)
      | .reanchor =>
        match reanchor with
        | some (scope, parent, name) => (m₁.record_slot_deficit scope parent name, false)
        | none => (m₁, false)
      | .teardown | .unsubscribedPrune => (m₁, false)
    else (m₁, false)
  let m₃ :=
    if erased.counted && (discharge = .coveringRescan || discharge = .reanchor) then
      match root_scope with
      | some scope => m₂.stand_counted_cover scope
      | none => m₂
    else m₂
  (m₃, stood)

def drop_subtree_for_crawl_rebuild (child : WatchId) : Monitor :=
  (m.drop_subtree child .reanchor).1

/-- Drops an occupant whose object is gone from its slot. -/
def drop_departed_occupant (occupant : WatchId) : Monitor :=
  let vacated :=
    match m.slot_of occupant with
    | some slot => if m.child_index[slot]? = some occupant then some slot else none
    | none => none
  let (m₁, stood) := m.drop_subtree occupant .coveringRescan
  if stood then
    match vacated with
    | some (parent, name) => m₁.cover_stat_vacancy parent name
    | none => m₁
  else m₁

/-- `retire_adopted`: drops the adopted watch if it still lives. -/
def retire_adopted (adopted : WatchId) : Monitor :=
  if m.nodes.contains adopted then (m.drop_subtree adopted .coveringRescan).1 else m

def release_adoption_marker (parent : WatchId) (scope : ScopeId) (disposal : AdoptionDisposal) :
    Monitor × Option AdoptionMarker :=
  let (m₁, released) := m.take_adoption_marker parent scope
  match released with
  | none => (m₁, none)
  | some marker =>
    match disposal with
    | .countedRetirement =>
      ((m₁.stand_counted_cover scope).retire_adopted marker.adopted, some marker)
    | .verdict | .diesWithTheWalk | .childAlreadyDropped => (m₁, some marker)

/-! ### Installing and re-keying -/

/-- Arms a child slot; reports whether that healed a recorded hole. -/
def install_child (parent : WatchId) (scope : ScopeId) (name : Segment) (is_dir : Bool)
    (identity : Option Identity) : Monitor × Bool :=
  if !m.nodes.contains parent then (m, false)
  else if m.child_index.contains (parent, name) then (m, false)
  else
    let (m₁, healed) := m.remove_slot_deficit scope parent name
    let (id, watch_ids) := m₁.watch_ids.mint
    let m₂ := { m₁ with watch_ids := watch_ids }
    let (m₃, attempt) := m₂.next_arm_attempt
    let m₄ := m₃.insert_node id
      { parent := some parent, name := some name, scope, is_dir, attempt,
        placement := m₃.placement_now, moved_at := NEVER_MOVED, identity,
        state := .arming false false, children := ∅ }
    let m₅ := m₄.modify_node parent fun n => { n with children := n.children.insert id }
    let m₆ := { m₅ with child_index := m₅.child_index.insert (parent, name) id }
    (m₆.queue_watch id (.child parent name) (coverage_mask (m₆.scope_interest scope)), healed)

/-- Takes a move source off its slot; an arm outstanding for it is retired. -/
def detach_child (child : WatchId) : Monitor :=
  let m₁ :=
    match m.slot_of child with
    | some (parent, name) => m.vacate_child_slot parent name
    | none => m
  let m₂ := m₁.moved_placement child
  match m₂.state_of child with
  | some (.arming _ _) => m₂.retire_arm child
  | _ => m₂

/-- Links a live child under a live parent at a slot. -/
def attach_child (child new_parent : WatchId) (new_name : Segment) : Monitor :=
  let old_parent := (m.nodes[child]?).bind (·.parent)
  let m₁ :=
    match old_parent with
    | some old => m.modify_node old fun n => { n with children := n.children.erase child }
    | none => m
  let m₂ := m₁.modify_node child fun n =>
    { n with parent := some new_parent, name := some new_name }
  let m₃ := m₂.modify_node new_parent fun n => { n with children := n.children.insert child }
  { m₃ with child_index := m₃.child_index.insert (new_parent, new_name) child }

/-- Re-keys a watch onto a slot, dropping a stale occupant and inheriting
    its re-arm obligation. -/
def reparent (child new_parent : WatchId) (new_name : Segment) (flavor : Reparent) :
    Monitor × Bool :=
  let stale :=
    match m.child_watch new_parent new_name with
    | some stale => if stale = child then none else some stale
    | none => none
  let (m₁, inherit) :=
    match stale with
    | some stale =>
      ((m.drop_subtree stale .coveringRescan).1, m.has_rearm_obligation stale)
    | none => (m, false)
  if !m₁.is_watched child || !m₁.is_watched new_parent then (m₁, false)
  else
    let m₂ := m₁.attach_child child new_parent new_name
    let m₃ := if flavor = .moved then m₂.moved_placement child else m₂
    let m₄ := if inherit then (m₃.inherit_rearm child).1 else m₃
    (m₄.readdress_outstanding_arm child, true)

/-- Brings a slot in line with what stands in it. -/
def reconcile_slot (parent : WatchId) (scope : ScopeId) (name : Segment)
    (occupant : SlotOccupant) (replaced : Bool) (identity : Option Identity) : Monitor × Bool :=
  if !m.scope_descends scope then (m, false)
  else
    match occupant with
    | .dir =>
      let existing := m.child_watch parent name
      let replace := replaced || existing.any fun stale => m.identity_differs stale identity
      let stale := if replace then existing else none
      let (m₁, inherit, dark) :=
        match stale with
        | some stale =>
          let inherit := m.has_rearm_obligation stale
          ((m.drop_subtree stale .coveringRescan).1, inherit,
            inherit && m.dark_installs.contains stale)
        | none => (m, false, false)
      let (m₂, healed) := m₁.install_child parent scope name true identity
      if inherit then
        match m₂.child_watch parent name with
        | some fresh =>
          let m₃ := (m₂.inherit_rearm fresh).1
          (if dark then { m₃ with dark_installs := m₃.dark_installs.insert fresh } else m₃, healed)
        | none => (m₂, healed)
      else (m₂, healed)
    | .unknown =>
      let m₁ :=
        if (m.child_watch parent name).isNone then m.record_slot_deficit scope parent name else m
      (m₁.queue_stat parent scope name, false)
    | .file | .gone =>
      let m₁ :=
        match m.child_watch parent name with
        | some stale => m.drop_departed_occupant stale
        | none => m
      let (m₂, covered) := m₁.remove_slot_deficit scope parent name
      (if covered then m₂.cover_stat_vacancy parent name else m₂, covered)

/-- Covers a slot whose watch died and arms it again. -/
def cover_and_rebuild_slot (scope : ScopeId) (parent : WatchId) (name : Segment) (is_dir : Bool)
    (identity : Option Identity) : Monitor :=
  let m₁ := (m.emit_rescan scope (m.child_location parent name)).1
  if !m₁.scope_descends scope then m₁
  else if (m₁.child_watch parent name).isNone then
    let m₂ := (m₁.install_child parent scope name is_dir identity).1
    match m₂.child_watch parent name with
    | some fresh => (m₂.inherit_rearm fresh).1
    | none => m₂
  else m₁

/-! ### Fresh installs -/

def mark_fresh_install (scope : ScopeId) (fresh : Option WatchId) : Monitor :=
  let m₁ := m.mark_bootstrap_loss scope
  match fresh with
  | some id => { m₁ with dark_installs := m₁.dark_installs.insert id }
  | none => m₁

def settle_dark_install (dir : WatchId) (scope : ScopeId) (entries : List DirEntry) : Monitor :=
  if !m.dark_installs.contains dir then m
  else
    let m₁ := { m with dark_installs := m.dark_installs.erase dir }
    if entries.isEmpty then m₁ else m₁.bridge_saw_rescan scope

/-! ### Scope teardown -/

def purge_scope_pending_moves (scope : ScopeId) : Monitor :=
  { m with pending_moves := m.pending_moves.filter fun key _ => key.1 != scope }

/-- Drops a scope's root and everything kept for the scope. -/
def invalidate_root (scope : ScopeId) (root : WatchId) : Monitor :=
  let m₁ := ((m.drop_subtree root .teardown).1).purge_scope_pending_moves scope
  { m₁ with
    bridge := m₁.bridge.erase scope
    deficits := m₁.deficits.erase scope
    loss_gens := m₁.loss_gens.erase scope
    coverage_work_epochs := m₁.coverage_work_epochs.erase scope }

end Monitor

end Proto
