import Tributaries.Proto.Pairing

/-! # Results as paths of effects

  The answers a driver feeds back: stats, directory reads and arms.  A
  read that is over and an arm that was accepted leave their directory
  live for as long as the answer is being worked off.
-/

open Std Collections SlotForest Forest

namespace Proto

variable {m m' : Monitor} {g : Ghost} {k : Option Answer}

/-! ### Stats -/

theorem settle_stat_slot_calm (scope : ScopeId) (parent : WatchId) (name : Segment)
    (incumbent : Option WatchId) (descent : Option StatDescent) (deliver : Bool)
    (hk : k = none) : Calms k m (m.settle_stat_slot scope parent name incumbent descent deliver) := by
  unfold Monitor.settle_stat_slot
  dsimp only
  split
  · split
    · exact apply_descent_calm _ (by simp [hk])
    · exact .refl
  · split
    · exact .refl
    · split
      · refine .trans ?_ (inherit_rearm_calm _)
        split
        · exact emit_rescan_calm scope _
        · exact .refl
      · split
        · exact emit_rescan_calm scope _
        · exact .refl

theorem settle_stat_answer_trace {slot : StatSlot} (incumbent : Option WatchId)
    (stale dark : Bool) (res : StatResult) (h : Valid ⟨m, g⟩) (hw : g.walk = none)
    (ha : Anchored ⟨m, g⟩ slot.parent slot.scope) :
    Trace ⟨m, g⟩ ⟨(m.settle_stat_answer slot incumbent stale dark res).1, g⟩ := by
  have unproved : Trace ⟨m, g⟩ ⟨if (m.child_watch slot.parent slot.name).isNone then
      m.record_slot_deficit slot.scope slot.parent slot.name else m, g⟩ := by
    split
    · exact (Effect.ledger .record_slot).trace
    · exact .refl
  unfold Monitor.settle_stat_answer
  dsimp only
  cases res with
  | ok entry =>
    dsimp only
    split
    · have hr := reconcile_slot_trace slot.name (Monitor.entry_occupant entry.kind) false entry.node h hw ha
      generalize m.reconcile_slot slot.parent slot.scope slot.name
        (Monitor.entry_occupant entry.kind) false entry.node = reconciled at hr ⊢
      obtain ⟨m₁, healed⟩ := reconciled
      dsimp only at hr ⊢
      refine hr.trans (Calms.trace ?_)
      split
      · split
        · exact (saw_rescan_calm slot.scope).trans (inherit_rearm_calm _)
        · exact .refl
      · exact .refl
    · exact unproved
  | failed class_ =>
    dsimp only
    split
    · exact reconcile_slot_trace _ _ _ _ h hw ha
    · exact unproved

/-- The incumbent of an answered slot owes no descent of its own. -/
theorem disown_kept_trace {m₀ : Monitor} (incumbent : Option WatchId)
    (h : Trace ⟨m₀, g⟩ ⟨m, g⟩) :
    Trace ⟨m₀, g⟩ ⟨match incumbent with
      | some kept => { m with owed_descents := m.owed_descents.erase kept }
      | none => m, g⟩ := by
  cases incumbent with
  | none => exact h
  | some kept => exact h.tail (.ledger .disown)

theorem ingest_stat_result_trace {req : ReqId} {res : StatResult} (h : Valid ⟨m, g⟩)
    (hw : g.walk = none) (hans : g.answer = none) :
    Trace ⟨m, g⟩ ⟨m.ingest_stat_result req res, g⟩ := by
  unfold Monitor.ingest_stat_result
  cases hs : m.pending_stat[req]? with
  | none => exact .refl
  | some slot =>
    have h₃ : Trace ⟨m, g⟩ ⟨m.take_stat req slot, g⟩ := (Effect.ledger (.take_stat hs)).trace
    have ha := h.toInv.anchored (h.stats req slot hs)
    dsimp only
    generalize hdark : Monitor.stat_slot_dark _ slot = dark
    have hm₃ : (if slot.stands_loss then
        Monitor.stat_loss_dec { m with
          pending_stat := m.pending_stat.erase req
          stat_slots := m.stat_slots.erase (slot.parent, slot.name) } slot.scope 1
        else { m with
          pending_stat := m.pending_stat.erase req
          stat_slots := m.stat_slots.erase (slot.parent, slot.name) }) = m.take_stat req slot := rfl
    rw [hm₃]
    generalize m.take_stat req slot = m₃ at h₃ ⊢
    split
    · exact h₃
    · have h₄ := h₃.trans (fence_lowering_calm slot.parent slot.placement).trace
      generalize m₃.fence_lowering slot.parent slot.placement = fenced at h₄ ⊢
      obtain ⟨m₄, lowering⟩ := fenced
      dsimp only at h₄ ⊢
      generalize m₄.child_watch slot.parent slot.name = incumbent
      have h₅ := disown_kept_trace incumbent h₄
      generalize (incumbent.bind fun kept => m₄.owed_descents[kept]?) = descent
      have htail : ∀ m₅ : Monitor, Trace ⟨m, g⟩ ⟨m₅, g⟩ → Trace ⟨m, g⟩
          ⟨((if ((m₅.settle_stat_answer slot incumbent (!lowering.is_evidence) dark res).2 &&
              lowering.locatable) = true then
            ((m₅.settle_stat_answer slot incumbent (!lowering.is_evidence) dark
              res).1.emit_rescan slot.scope
              ((m₅.settle_stat_answer slot incumbent (!lowering.is_evidence) dark
                res).1.child_location slot.parent slot.name)).1
            else (m₅.settle_stat_answer slot incumbent (!lowering.is_evidence) dark
              res).1).settle_stat_slot slot.scope slot.parent slot.name incumbent descent
                lowering.locatable), g⟩ := by
        intro m₅ h₅
        have h₆ := h₅.trans (settle_stat_answer_trace incumbent (!lowering.is_evidence) dark res (Trace.valid h h₅) hw
          (Trace.anchored h.toInv ha h₅))
        refine h₆.trans (Calms.trace (.trans ?_ (settle_stat_slot_calm _ _ _ _ _ _ hans)))
        split
        · exact emit_rescan_calm _ _
        · exact .refl
      exact htail _ h₅

/-! ### Reads -/

theorem reconcile_incomplete_trace {dir : WatchId} {scope : ScopeId} (entry : DirEntry)
    (h : Valid ⟨m, g⟩) (hw : g.walk = none) (ha : Anchored ⟨m, g⟩ dir scope) :
    Trace ⟨m, g⟩ ⟨m.reconcile_incomplete_entry dir scope entry, g⟩ := by
  unfold Monitor.reconcile_incomplete_entry
  dsimp only
  have hr := reconcile_slot_trace entry.name (Monitor.listed_occupant entry) false entry.node h hw ha
  split
  · exact hr.trans (mark_fresh_install_calm _ _).trace
  · exact hr

theorem child_ne (hs : m.shape.Sound ∅) {dir child : WatchId}
    (hc : child ∈ m.children_of dir) : child ≠ dir := by
  unfold Monitor.children_of at hc
  split at hc
  · rename_i node hn
    have hm : child ∈ node.place.children := ExtTreeSet.mem_toList.mp hc
    obtain ⟨q, hq, hp⟩ := hs.child_up dir _ child (Monitor.place_of hn) hm
    exact ((hs.grounded child).parent_ne (m.shape.up_eq_some.mpr ⟨q, hq, hp⟩)).symm
  · cases hc

theorem cascade_child_calm (dir : WatchId) (reprove : Bool) {child : WatchId}
    (hk : ∀ a, k = some a → a.watch ≠ child) : Calms k m (m.cascade_child dir reprove child) := by
  unfold Monitor.cascade_child
  split
  · exact start_reinstall_calm hk
  · exact inherit_rearm_calm child

theorem settle_existing_trace {dir : WatchId} {reprove : Bool} {entries : List DirEntry}
    {acc : Monitor × Monitor.Retirement} {child : WatchId} (hw : g.walk = none)
    (hans : g.answer = none) :
    Trace ⟨acc.1, g⟩ ⟨(Monitor.settle_existing_child dir reprove entries acc child).1, g⟩ := by
  unfold Monitor.settle_existing_child
  dsimp only
  have tail : ∀ (survives : Bool) (retirement : Monitor.Retirement),
      Trace ⟨acc.1, g⟩ ⟨(if survives then
        (if reprove then acc.1.start_reinstall child else (acc.1.inherit_rearm child).1, acc.2)
        else (acc.1.drop_subtree_for_crawl_rebuild child, retirement)).1, g⟩ := by
    intro survives retirement
    cases survives with
    | false => exact drop_trace child .reanchor hw
    | true =>
      cases reprove with
      | true => exact (start_reinstall_calm (by simp [hans])).trace
      | false => exact (inherit_rearm_calm child).trace
  by_cases hs : (!acc.1.is_slot_child dir child) = true
  · rw [if_pos hs]
  · rw [if_neg hs]
    by_cases hu : ((acc.1.nodes[child]?).bind (·.name)).any
        (Monitor.unsettled_of entries).contains = true
    · rw [if_pos hu]
    · rw [if_neg hu]
      exact tail _ _

theorem install_listed_trace {dir : WatchId} {scope : ScopeId} {entry : DirEntry}
    (h : Valid ⟨m, g⟩) (hw : g.walk = none) (ha : Anchored ⟨m, g⟩ dir scope) :
    Trace ⟨m, g⟩ ⟨m.install_listed dir scope entry, g⟩ := by
  unfold Monitor.install_listed
  split
  · exact .refl
  · split
    · have hi := install_child_trace entry.name true entry.node h hw ha
      refine hi.trans (Calms.trace ?_)
      dsimp only
      refine .trans ?_ (mark_fresh_install_calm _ _)
      split
      · exact inherit_rearm_calm _
      · exact .refl
    · exact .refl

theorem ask_listed_trace {dir : WatchId} {scope : ScopeId} {reprove : Bool} {entry : DirEntry}
    (h : Valid ⟨m, g⟩) (hw : g.walk = none) (ha : Anchored ⟨m, g⟩ dir scope) :
    Trace ⟨m, g⟩ ⟨m.ask_listed dir scope reprove entry, g⟩ := by
  unfold Monitor.ask_listed
  split
  · exact .refl
  · exact (reconcile_slot_trace _ _ _ _ h hw ha).trans (defer_stat_descent_calm _ _ _).trace

theorem rearm_enumerate_trace {dir : WatchId} {scope : ScopeId} {entries : List DirEntry}
    {reprove : Bool} (h : Valid ⟨m, g⟩) (hw : g.walk = none) (hans : g.answer = none)
    (ha : Anchored ⟨m, g⟩ dir scope) :
    Trace ⟨m, g⟩ ⟨m.rearm_enumerate dir scope entries reprove, g⟩ := by
  have h₁ := Trace.foldl_fst (g := g) (m.children_of dir)
    (f := fun acc child => Monitor.settle_existing_child dir reprove entries acc child)
    (m, ⟨false, true⟩) fun _ _ _ _ => settle_existing_trace hw hans
  unfold Monitor.rearm_enumerate
  generalize (m.children_of dir).foldl
    (fun acc child => Monitor.settle_existing_child dir reprove entries acc child)
    (m, ⟨false, true⟩) = settled at h₁ ⊢
  obtain ⟨m₁, retirement⟩ := settled
  dsimp only at h₁ ⊢
  have h₂ : Trace ⟨m, g⟩ ⟨if (retirement.retired &&
      !(retirement.rebuilt_every && m₁.bridge_is_lossy scope)) = true then
      (m₁.emit_rescan scope (m₁.location_of dir)).1 else m₁, g⟩ := by
    split
    · exact h₁.trans (emit_rescan_calm _ _).trace
    · exact h₁
  have h₃ := h₂.trans (Trace.foldl entries (f := fun m entry => m.install_listed dir scope entry)
    fun m' entry _ ht => install_listed_trace (Trace.valid h (h₂.trans ht)) hw
      (Trace.anchored h.toInv ha (h₂.trans ht)))
  exact h₃.trans (Trace.foldl entries (f := fun m entry => m.ask_listed dir scope reprove entry)
    fun m' entry _ ht => ask_listed_trace (Trace.valid h (h₃.trans ht)) hw
      (Trace.anchored h.toInv ha (h₃.trans ht)))

/-! ### Answers that have been worked off -/

/-- The ghost state with an answer being worked off. -/
def Ghost.answering (g : Ghost) (a : Answer) : Ghost := { g with answer := some a }

theorem rest_trace {a : Answer} (ha : g.answer = none) (h : AtRest m a.watch) :
    Trace ⟨m, g.answering a⟩ ⟨m, g⟩ := by
  have e := Effect.rest (m := m) (g := g.answering a) rfl h
  have hg : { g.answering a with answer := none } = g := by
    unfold Ghost.answering
    rw [← ha]
  rw [hg] at e
  exact e.trace

theorem at_rest_unmarked {dir : WatchId} (h : m.pending_adoptions[dir]? = none) :
    AtRest m dir := by
  intro node _ _ _ hm
  rw [contains_false_iff.mpr h] at hm
  cases hm

/-- A directory that is read again is at rest. -/
theorem at_rest_read (dir : WatchId) (kind : EnumKind) (attempts : Nat) :
    AtRest (m.queue_enumerate dir kind attempts) dir := by
  intro node hn _ _ _ hl
  cases hm : m.nodes[dir]? with
  | none =>
    rw [(queue_enumerate_placed dir kind attempts).dead_iff.mpr hm] at hn
    cases hn
  | some old =>
    obtain ⟨_, _, _, he⟩ := m.queue_enumerate_shape hm kind attempts
    have := state_of_modify hm (congrArg Monitor.nodes he) dir
    rw [state_of_node hn, if_pos rfl, hl] at this
    cases this

theorem unmarked_pruned (hp : Pruned m m') {x : WatchId} (hu : m.pending_adoptions[x]? = none) :
    m'.pending_adoptions[x]? = none := by
  cases hx : m'.pending_adoptions[x]? with
  | none => rfl
  | some marker =>
    rw [hp.markers x marker hx] at hu
    cases hu

theorem handle_incomplete_trace {dir : WatchId} {scope : ScopeId} {entries : List DirEntry}
    {attempts : Nat} {deliver reprove : Bool} (h : Valid ⟨m, g.answering ⟨dir, none⟩⟩)
    (hw : g.walk = none) (hans : g.answer = none)
    (ha : Anchored ⟨m, g.answering ⟨dir, none⟩⟩ dir scope) (hun : m.Unarmed dir) :
    Trace ⟨m, g.answering ⟨dir, none⟩⟩
      ⟨m.handle_incomplete_enumerate dir scope entries attempts deliver reprove, g⟩ := by
  have h₁ := Trace.foldl (m := m) entries
    (f := fun m entry => m.reconcile_incomplete_entry dir scope entry)
    fun m' entry _ ht => reconcile_incomplete_trace entry (Trace.valid h ht) hw
      (Trace.anchored h.toInv ha ht)
  unfold Monitor.handle_incomplete_enumerate
  generalize entries.foldl (fun m entry => m.reconcile_incomplete_entry dir scope entry) m = m₁
    at h₁ ⊢
  have h₂ := h₁.trans (Calms.trace (Calms.foldl (m := m₁) (m₁.children_of dir)
    (f := fun m child => m.cascade_child dir reprove child)
    fun _ child hc => cascade_child_calm dir reprove (by
      rintro _ ⟨⟩
      exact (child_ne (Inv.sound (Trace.inv h.toInv h₁) hw) hc).symm)))
  dsimp only
  generalize (m₁.children_of dir).foldl (fun m child => m.cascade_child dir reprove child) m₁ = m₂
    at h₂ ⊢
  have h₃ : Trace ⟨m, g.answering ⟨dir, none⟩⟩ ⟨if deliver then
      (m₂.emit_rescan scope (m₂.location_of dir)).1 else m₂, g.answering ⟨dir, none⟩⟩ := by
    split
    · exact h₂.trans (emit_rescan_calm _ _).trace
    · exact h₂
  generalize (if deliver then (m₂.emit_rescan scope (m₂.location_of dir)).1 else m₂) = m₃
    at h₃ ⊢
  split
  · have hw₀ : Worked ⟨m, g.answering ⟨dir, none⟩⟩ := by
      rintro _ ⟨⟩
      exact ⟨⟨scope, ha⟩, hun⟩
    have e : Work (some ⟨dir, none⟩) m₃ (m₃.queue_enumerate dir (.rearm reprove) (attempts + 1)) :=
      .read (Trace.worked h.toInv hw₀ h₃ _ rfl).2
    exact (h₃.tail (.work e)).trans (rest_trace hans (at_rest_read dir _ _))
  · -- the budget is gone: the marker is retired, and the read booked as a hole
    have e : Calm (some ⟨dir, none⟩) m₃ { m₃ with dark_installs := m₃.dark_installs.erase dir } := .ledger .lighten
    have h₄ := h₃.tail e.effect
    have h₅ := h₄.trans (release_marker_trace dir scope .countedRetirement hw
      (Trace.anchored h.toInv ha h₄))
    have hgone := release_marker_gone (m := { m₃ with
      dark_installs := m₃.dark_installs.erase dir }) dir scope .countedRetirement
    generalize (Monitor.release_adoption_marker { m₃ with
      dark_installs := m₃.dark_installs.erase dir } dir scope .countedRetirement).1 = m₅
      at h₅ hgone ⊢
    split
    · have e : Calm (some ⟨dir, none⟩) m₅ (m₅.record_interior_deficit scope dir) := .ledger .record_interior
      exact (h₅.tail e.effect).trans
        (rest_trace hans (at_rest_unmarked (unmarked_pruned e.pruned hgone)))
    · exact h₅.trans (rest_trace hans (at_rest_unmarked hgone))

/-- A complete listing gives its verdict on the marker at the directory. -/
theorem resolve_adoption_trace {dir : WatchId} {scope : ScopeId} {entries : List DirEntry}
    (h : Valid ⟨m, g.answering ⟨dir, some entries⟩⟩) (hw : g.walk = none) (hans : g.answer = none)
    (ha : Anchored ⟨m, g.answering ⟨dir, some entries⟩⟩ dir scope) :
    Trace ⟨m, g.answering ⟨dir, some entries⟩⟩
      ⟨m.resolve_adoption dir scope false entries, g⟩ := by
  unfold Monitor.resolve_adoption
  simp only [Bool.false_eq_true, if_false]
  cases hm : m.pending_adoptions[dir]? with
  | none => exact rest_trace hans (at_rest_unmarked hm)
  | some marker =>
    dsimp only
    have hrel := release_marker_trace (m := m) (g := g.answering ⟨dir, some entries⟩) dir scope
      .verdict hw ha
    have hgone := release_marker_gone (m := m) dir scope .verdict
    split
    · have hc := emit_rescan_calm (k := some ⟨dir, some entries⟩)
        (m := (m.release_adoption_marker dir scope .verdict).1) scope
        (((m.release_adoption_marker dir scope .verdict).1.location_of dir).child marker.name)
      exact (hrel.trans hc.trace).trans
        (rest_trace hans (at_rest_unmarked (unmarked_pruned hc.pruned hgone)))
    · obtain ⟨node, hn⟩ := Option.ne_none_iff_exists'.mp (h.adopted.live dir marker hm)
      split
      · rename_i hconf
        simp only [Bool.and_eq_true, beq_iff_eq, Option.any_eq_true] at hconf
        obtain ⟨hchild, entry, hfind, hdesc, hid⟩ := hconf
        have e : Effect ⟨m, g.answering ⟨dir, some entries⟩⟩
            ⟨m.stage_adoption dir scope, g.answering ⟨dir, some entries⟩⟩ :=
          .mark (.stage rfl ((scope_of_node hn).trans (congrArg some (ha.scope node hn))) hm
            hchild hfind hdesc hid)
        refine e.trace.trans (rest_trace hans ?_)
        intro node' hn' _ _ _ _
        obtain ⟨seq, staged, he, -, hst, -⟩ := stage_adoption_eq (m := m) dir scope
        have hsc := (e.anchored h.toInv ha).scope node' hn'
        rw [hsc, he]
        exact hst
      · have hc := stand_counted_cover_calm (k := some ⟨dir, some entries⟩)
          (m := (m.release_adoption_marker dir scope .verdict).1) scope
        have hr := retire_adopted_pruned (m :=
          (m.release_adoption_marker dir scope .verdict).1.stand_counted_cover scope)
          marker.adopted
        exact ((hrel.trans hc.trace).trans (retire_adopted_trace marker.adopted hw)).trans
          (rest_trace hans (at_rest_unmarked
            (unmarked_pruned hr (unmarked_pruned hc.pruned hgone))))

theorem announce_listed_trace {dir : WatchId} {scope : ScopeId} {entry : DirEntry}
    (h : Valid ⟨m, g⟩) (hw : g.walk = none) (ha : Anchored ⟨m, g⟩ dir scope) :
    Trace ⟨m, g⟩ ⟨m.announce_listed dir scope entry, g⟩ := by
  unfold Monitor.announce_listed
  dsimp only
  have he : Calms g.answer m (if m.ondir_allows scope entry.kind.proven_dir then
      (m.emit scope (m.child_location dir entry.name) .created (Evidence.of .created)
        entry.kind.proven_dir).1 else m) := by
    split
    · exact emit_calm rfl
    · exact .refl
  exact he.trace.trans (reconcile_slot_trace _ _ _ _ (Trace.valid h he.trace) hw
    (Trace.anchored h.toInv ha he.trace))

theorem handle_complete_trace {dir : WatchId} {scope : ScopeId} {kind : EnumKind}
    {entries : List DirEntry} (h : Valid ⟨m, g.answering ⟨dir, some entries⟩⟩)
    (hw : g.walk = none) (hans : g.answer = none)
    (ha : Anchored ⟨m, g.answering ⟨dir, some entries⟩⟩ dir scope) :
    Trace ⟨m, g.answering ⟨dir, some entries⟩⟩
      ⟨m.handle_complete_enumerate dir scope kind false entries, g⟩ := by
  have h₁ : Trace ⟨m, g.answering ⟨dir, some entries⟩⟩
      ⟨m.clear_interior_deficit scope dir, g.answering ⟨dir, some entries⟩⟩ :=
    (Effect.ledger .heal_interior).trace
  unfold Monitor.handle_complete_enumerate
  generalize m.clear_interior_deficit scope dir = m₁ at h₁ ⊢
  have h₂ := h₁.trans (resolve_adoption_trace (Trace.valid h h₁) hw hans
    (Trace.anchored h.toInv ha h₁))
  dsimp only
  generalize m₁.resolve_adoption dir scope false entries = m₂ at h₂ ⊢
  refine .trans ?_ (settle_dark_install_calm dir scope entries).trace
  cases kind with
  | rearm reprove =>
    exact h₂.trans (rearm_enumerate_trace (Trace.valid h h₂) hw hans (Trace.anchored h.toInv ha h₂))
  | cold =>
    exact h₂.trans (Trace.foldl entries (f := fun m entry => m.announce_listed dir scope entry)
      fun m' entry _ ht => announce_listed_trace (Trace.valid h (h₂.trans ht)) hw
        (Trace.anchored h.toInv ha (h₂.trans ht)))

/-! ### The fence ahead of an answer -/

/-- What the fence does to the Monitor. -/
theorem fence_eq (watch : WatchId) (stamp : Nat) :
    (m.fence_lowering watch stamp).1 = (match m.in_held_subtree watch with
      | some source => m.book_hold source
      | none => m) ∧
    (m.fence_lowering watch stamp).2 =
      ⟨m.in_held_subtree watch, m.placement_moved_since watch stamp⟩ := by
  unfold Monitor.fence_lowering
  refine ⟨rfl, ?_⟩
  dsimp only
  congr 1
  exact Monitor.placement_moved_congr (by split <;> rfl) watch stamp

theorem fence_nodes (watch : WatchId) (stamp : Nat) :
    (m.fence_lowering watch stamp).1.nodes = m.nodes ∧
      (m.fence_lowering watch stamp).1.held_sources = m.held_sources := by
  rw [(fence_eq watch stamp).1]
  split <;> exact ⟨rfl, rfl⟩

/-- A read is forgotten before its answer is fenced; the order does not matter. -/
theorem fence_forget (req : ReqId) (watch : WatchId) (stamp : Nat) :
    (m.forget_read req).fence_lowering watch stamp =
      (((m.fence_lowering watch stamp).1).forget_read req, (m.fence_lowering watch stamp).2) := by
  have hh : (m.forget_read req).in_held_subtree watch = m.in_held_subtree watch :=
    @Monitor.in_held_subtree_congr m (m.forget_read req) rfl rfl watch
  have hp : (m.forget_read req).placement_moved_since watch stamp =
      m.placement_moved_since watch stamp :=
    @Monitor.placement_moved_congr m (m.forget_read req) rfl watch stamp
  refine Prod.ext ?_ ?_
  · rw [(fence_eq watch stamp).1, (fence_eq (m := m) watch stamp).1, hh]
    cases m.in_held_subtree watch <;> rfl
  · rw [(fence_eq watch stamp).2, (fence_eq (m := m) watch stamp).2, hh, hp]

/-- An answer that is evidence comes from outside every hold, unmoved. -/
theorem evidence_of_fence {watch : WatchId} {stamp : Nat}
    (h : (m.fence_lowering watch stamp).2.is_evidence = true) :
    m.in_held_subtree watch = none ∧ m.placement_moved_since watch stamp = false := by
  rw [(fence_eq watch stamp).2] at h
  simpa [Lowering.is_evidence, and_comm] using h

/-- A live read that is answered: the fence, then the end of the read. -/
theorem finish_trace {req : ReqId} {dir : WatchId} {kind : EnumKind} {attempts : Nat}
    {dirty : Bool} {node : WatchNode} (listing : Option (List DirEntry))
    (hans : g.answer = none) (hn : m.nodes[dir]? = some node)
    (hst : node.state = .enumerating req kind attempts dirty)
    (hl : ∀ entries, listing = some entries →
      g.call = some (.on_enumerate req (.ok entries)) ∧ dirty = false ∧
        (m.fence_lowering dir node.placement).2.is_evidence = true) :
    Trace ⟨m, g⟩ ⟨(((m.forget_read req).fence_lowering dir node.placement).1).set_state dir .live,
      g.answering ⟨dir, listing⟩⟩ := by
  have hf := (fence_lowering_calm (m := m) dir node.placement).trace (g := g)
  obtain ⟨hnodes, hheld⟩ := fence_nodes (m := m) dir node.placement
  rw [fence_forget]
  have hs : (m.fence_lowering dir node.placement).1.state_of dir =
      some (.enumerating req kind attempts dirty) := by
    rw [Monitor.state_of, hnodes, hn, Option.map_some, hst]
  refine hf.tail (.finish hans hs ?_)
  intro entries he
  obtain ⟨hc, hd, hev⟩ := hl entries he
  obtain ⟨hh, hm⟩ := evidence_of_fence hev
  refine ⟨hc, hd, by rw [Monitor.in_held_subtree_congr hnodes hheld, hh], fun n hn' => ?_⟩
  rw [hnodes] at hn'
  obtain rfl := Option.some.inj (hn.symm.trans hn')
  rw [Monitor.placement_moved_congr hnodes, hm]

theorem ingest_enumerate_trace {req : ReqId} {res : EnumerateResult} (h : Valid ⟨m, g⟩)
    (hw : g.walk = none) (hans : g.answer = none) (hc : g.call = some (.on_enumerate req res)) :
    Trace ⟨m, g⟩ ⟨m.ingest_enumerate req res, g⟩ := by
  unfold Monitor.ingest_enumerate
  cases hp : m.pending_enumerate[req]? with
  | none =>
    have hl : m.latent_cold[req]? = none := by
      cases hq : m.latent_cold[req]? with
      | none => rfl
      | some s =>
        obtain ⟨x, a, hx, -⟩ := h.reads.latent req s hq
        rw [hp] at hx
        cases hx
    dsimp only
    rw [hp, erase_absent hl]
  | some dir =>
    obtain ⟨-, kind, attempts, dirty, hst⟩ := h.reads.waiting req dir hp
    obtain ⟨node, hn, hst⟩ := Option.map_eq_some_iff.mp hst
    have hn : m.nodes[dir]? = some node := hn
    have hsc := scope_of_node hn
    have hm₂ : ({ m with
        latent_cold := m.latent_cold.erase req
        pending_enumerate := m.pending_enumerate.erase req } : Monitor) = m.forget_read req := rfl
    dsimp only
    rw [hp]
    dsimp only
    rw [hm₂, hn]
    dsimp only
    rw [hst]
    simp only [ne_eq, not_true_eq_false, if_false]
    by_cases hinc : (res.forces_rescan || dirty ||
        !((m.forget_read req).fence_lowering dir node.placement).2.is_evidence) = true
    · rw [if_pos hinc]
      have h₁ := finish_trace none (g := g) hans hn hst (fun _ he => by cases he)
      generalize (if ((m.forget_read req).fence_lowering dir node.placement).2.is_evidence then _
        else _) = entries
      exact h₁.trans (handle_incomplete_trace (Trace.valid h h₁) hw hans
        (Trace.anchored h.toInv (h.toInv.anchored hsc) h₁) (set_live_unarmed dir))
    · rw [if_neg hinc]
      simp only [Bool.or_eq_true, not_or, Bool.not_eq_true, Bool.not_eq_false'] at hinc
      obtain ⟨⟨hf, rfl⟩, hev⟩ := hinc
      have hev' : (m.fence_lowering dir node.placement).2.is_evidence = true := by
        rwa [fence_forget] at hev
      have h₁ := finish_trace (some res.entries) (g := g) hans hn hst fun es he => by
        obtain rfl := Option.some.inj he
        refine ⟨?_, rfl, hev'⟩
        cases res with
        | ok entries => exact hc
        | partial_ entries => cases hf
        | failed class_ => cases hf
      have hheld : ((m.forget_read req).fence_lowering dir node.placement).2.held.isSome
          = false := by
        rw [fence_forget, (fence_eq dir node.placement).2]
        simp [(evidence_of_fence hev').1]
      rw [hheld]
      exact h₁.trans (handle_complete_trace (Trace.valid h h₁) hw hans
        (Trace.anchored h.toInv (h.toInv.anchored hsc) h₁))

end Proto
