import Tributaries.Proto.Installing

/-! # Renames as paths of effects

  A rename half carries its source through the store: the source is taken
  off its slot and parked, and later taken up again and either re-keyed to
  where it went or dropped.  While no half holds it the source is in
  transit, and every function here ends with nothing in transit.
-/

open Std Collections SlotForest Forest

namespace Proto

variable {m m' : Monitor} {g : Ghost} {k : Option Answer}

/-- The ghost state with a source in transit. -/
def Ghost.carry (g : Ghost) (src : Option WatchId) : Ghost := { g with transit := src }

theorem Ghost.carry_none (ht : g.transit = none) : g.carry none = g := by
  unfold Ghost.carry
  rw [← ht]

theorem Calm.placed (h : Calm k m m') : Placed m m' := by
  cases h with
  | deliver h => exact h.placed
  | ledger h => exact h.placed
  | work h => exact h.placed
  | remark => exact .of_eq rfl rfl rfl rfl

theorem Calms.placed {k : Option Answer} (h : Calms k m m') : Placed m m' := by
  induction h with
  | refl => exact .refl _
  | tail _ e ih => exact ih.trans e.placed

/-! ### Scopes along the tree -/

/-- A watch in a slot is one of its parent's scope. -/
theorem index_scope (h : Inv ⟨m, g⟩) (hw : g.walk = none) {p x : WatchId} {name : Segment}
    (hs : m.child_index[(p, name)]? = some x) {scope : ScopeId} (hp : m.scope_of p = some scope) :
    m.scope_of x = some scope := by
  have hsound := h.sound hw
  obtain ⟨n, hn, hpar, -⟩ := Monitor.slot_of_eq_some.mp (slot_of_index hsound hs)
  obtain ⟨np, hnp, hsc, -⟩ := hsound.parent_live (Monitor.place_of hn) hpar
  obtain ⟨np, hnp', rfl⟩ := Monitor.place_eq_some.mp hnp
  rw [scope_of_node hnp'] at hp
  rw [scope_of_node hn, ← hp]
  exact congrArg some hsc.symm

/-- A parentless watch is the registered root of its scope. -/
theorem root_registered (h : Inv ⟨m, g⟩) (hw : g.walk = none) {x : WatchId} {scope : ScopeId}
    (hr : m.is_root_watch x = true) (hs : m.scope_of x = some scope) :
    m.roots[scope]? = some x := by
  obtain ⟨n, hn, rfl⟩ := Monitor.scope_of_eq_some.mp hs
  have hp : n.parent = none := by simpa [Monitor.is_root_watch, hn] using hr
  exact (h.sound hw).root_of (Monitor.place_of hn) hp

/-! ### Taking a source up and letting it go -/

/-- A held source is in transit, held, and of the scope it was. -/
theorem hold_source_trace {scope : ScopeId} {src parent : WatchId} {name : Segment}
    (h : Inv ⟨m, g⟩) (hw : g.walk = none) (ht : g.transit = none)
    (hs : m.child_index[(parent, name)]? = some src) (hsc : m.scope_of src = some scope) :
    Trace ⟨m, g⟩ ⟨m.hold_source scope src, g.carry (some src)⟩ ∧
      src ∈ (m.hold_source scope src).held_sources ∧
      (m.hold_source scope src).scope_of src = some scope ∧
      (m.hold_source scope src).slot_of src = some (parent, name) := by
  have hslot := slot_of_index (h.sound hw) hs
  have e : Effect ⟨m, g⟩ ⟨m.take_source scope src, g.carry (some src)⟩ :=
    .edit (.hold hw ht hslot hs hsc)
  have hh := h.unheld hslot hs
  obtain ⟨_, _, _, -, -, heq⟩ := Monitor.take_source_eq scope hslot hh
  have hheld : src ∈ (m.take_source scope src).held_sources := by
    rw [heq]
    simp
  have hscope : (m.take_source scope src).scope_of src = some scope := by
    rw [Monitor.scope_of_shape, Monitor.take_source_shape _ hslot hh, ← hsc,
      Monitor.scope_of_shape]
    rfl
  have hstands : (m.take_source scope src).slot_of src = some (parent, name) := by
    rw [Monitor.slot_of_shape, Monitor.take_source_shape _ hslot hh, ← hslot,
      Monitor.slot_of_shape]
    rfl
  have hd : m.hold_source scope src =
      if (m.take_source scope src).scope_needs_reproof scope &&
          !(m.take_source scope src).rearm_settled scope then
        (m.take_source scope src).book_hold src
      else m.take_source scope src := rfl
  rw [hd]
  split
  · exact ⟨e.trace.tail (.ledger .book_hold), hheld, hscope, hstands⟩
  · exact ⟨e.trace, hheld, hscope, hstands⟩

/-- A source that is dropped in transit lands. -/
theorem drop_carried_trace {mode : DeficitDischarge} (src : WatchId) (hw : g.walk = none)
    (ht : g.transit = none) :
    Trace ⟨m, g.carry (some src)⟩ ⟨(m.drop_subtree src mode).1, g⟩ := by
  obtain ⟨htr, -, hd⟩ := drop_subtree_trace (m := m) (g := g.carry (some src)) src mode hw
  have hl := Effect.land (m := (m.drop_subtree src mode).1) (g := g.carry (some src)) rfl (.inl hd)
  have hg : { g.carry (some src) with transit := none } = g := Ghost.carry_none ht
  rw [hg] at hl
  exact htr.tail hl

/-- What a half resolves to once the watch it held is dropped. -/
theorem report_half_calm (pending : PendingMove) :
    Calms k m (match m.live_pending_from pending with
      | none => m
      | some source =>
        let m₁ := m.resolve_lost_source pending.scope source pending.is_dir pending.evidence
        let m₂ := if pending.dirty then (m₁.emit_rescan pending.scope source).1 else m₁
        m₂.dirty_pending_sources_touching pending.scope source none none) := by
  split
  · exact .refl
  · rename_i source _
    refine .trans ?_ (dirty_touching_calm pending.scope source none none)
    have h := resolve_lost_source_calm (k := k) (m := m) pending.scope source pending.is_dir
      pending.evidence
    split
    · exact h.trans (emit_rescan_calm pending.scope source)
    · exact h

/-- The half taken from the store resolves without a destination. -/
theorem resolve_stored_half_trace (pending : PendingMove) (hw : g.walk = none)
    (ht : g.transit = none) :
    Trace ⟨m, g.carry pending.held⟩ ⟨m.resolve_stored_half pending, g⟩ := by
  unfold Monitor.resolve_stored_half
  refine .trans ?_ (report_half_calm pending).trace
  cases pending.held with
  | none =>
    rw [Ghost.carry_none ht]
  | some src => exact drop_carried_trace src hw ht

/-- The half at a key leaves the store with its source in transit. -/
theorem take_half_trace {key : PendingKey} {pending : PendingMove} (ht : g.transit = none)
    (hp : m.pending_moves[key]? = some pending) :
    Trace ⟨m, g⟩ ⟨(m.take_half key).1, g.carry pending.held⟩ :=
  (Effect.take ht hp).trace

theorem take_half_none {key : PendingKey} (hp : m.pending_moves[key]? = none) :
    m.take_half key = (m, none) := by
  unfold Monitor.take_half
  rw [hp, erase_absent hp]

/-! ### Sources that move away -/

/-- A half is parked, and the one it displaces resolves. -/
theorem park_trace (scope : ScopeId) (cookie : MoveCookie) (pending : PendingMove)
    (hw : g.walk = none) (ht : g.transit = none) (hk : pending.scope = scope)
    (hs : ∀ src, pending.held = some src → src ∈ m.held_sources ∧ m.scope_of src = some scope)
    (hf : ∀ src, pending.held = some src → ∃ name,
      m.slot_of src = some (pending.from_parent, name) ∧ pending.source.getLast? = some name) :
    Trace ⟨m, g.carry pending.held⟩
      ⟨(match (m.park_pending_move scope cookie pending).2 with
        | some displaced =>
          (m.park_pending_move scope cookie pending).1.resolve_stored_half displaced
        | none => (m.park_pending_move scope cookie pending).1), g⟩ := by
  have e : Effect ⟨m, g.carry pending.held⟩ ⟨(m.park_pending_move scope cookie pending).1,
      g.carry ((m.pending_moves[(scope, cookie)]?).bind (·.held))⟩ := .park rfl hk hs hf
  have hd : (m.park_pending_move scope cookie pending).2 = m.pending_moves[(scope, cookie)]? := rfl
  rw [hd]
  cases hold : m.pending_moves[(scope, cookie)]? with
  | none =>
    rw [hold, Option.bind_none, Ghost.carry_none ht] at e
    exact e.trace
  | some old =>
    rw [hold, Option.bind_some] at e
    exact e.trace.trans (resolve_stored_half_trace old hw ht)

/-- A record that names a slot names it by the end of its target. -/
theorem name_last {rec : OsRecord} {target : Location} {name : Segment}
    (ht : rec.target = some target) (hn : rec.name = some name) :
    target.getLast? = some name := by
  simp only [OsRecord.name, ht] at hn
  split at hn
  · exact hn
  · cases hn

theorem on_moved_from_trace {scope : ScopeId} {rec : OsRecord} {now : Instant}
    (h : Valid ⟨m, g⟩) (hw : g.walk = none) (ht : g.transit = none)
    (hs : m.scope_of rec.watch = some scope) :
    Trace ⟨m, g⟩ ⟨m.on_moved_from scope rec now, g⟩ := by
  unfold Monitor.on_moved_from
  cases hb : (rec.name.bind fun name => m.child_watch rec.watch name) with
  | none =>
    dsimp only
    have unpairable := (resolve_lost_source_calm (m := m) scope (m.record_location rec)
      rec.is_dir rec.evidence).trace (g := g)
    split
    · split
      · have hp := park_trace scope ‹MoveCookie› ⟨rec.watch, ‹Location›, scope, now.add m.move_window, none, rec.is_dir,
            rec.evidence, false⟩ (m := m) (g := g) hw ht rfl (by simp) (by simp)
        rw [Ghost.carry_none ht] at hp
        exact hp
      · exact unpairable
    · exact unpairable
  | some src =>
    simp only [Option.isSome_some, if_true]
    obtain ⟨name, hname, hn⟩ := Option.bind_eq_some_iff.mp hb
    have unpairable : ∀ m₁ m₂ : Monitor, Calms g.answer m m₁ → m₂ = m₁.drop_departed_occupant src →
        Trace ⟨m, g⟩ ⟨m₂.resolve_lost_source scope (m₂.record_location rec) (some true)
          rec.evidence, g⟩ := by
      rintro m₁ m₂ hc rfl
      exact (hc.trace.trans (drop_departed_trace src hw)).trans
        (resolve_lost_source_calm _ _ _ _).trace
    have covered : ∀ b : Bool, Calms g.answer m (if b then m.stand_counted_cover scope else m) := by
      intro b
      cases b with
      | true => exact stand_counted_cover_calm scope
      | false => exact .refl
    split
    · rename_i cookie target _ htarget
      split
      · -- the source is held, and the half parked
        obtain ⟨h₁, h₂, h₃, h₄⟩ := hold_source_trace h.toInv hw ht hn
          (index_scope h.toInv hw hn hs)
        have hlast : target.getLast? = some name := name_last htarget hname
        generalize m.hold_source scope src = m₁ at h₁ h₂ h₃ h₄ ⊢
        have hp := park_trace scope cookie ⟨rec.watch, target, scope, now.add m₁.move_window, some src, some true,
            rec.evidence, false⟩ (m := m₁) (g := g) hw ht rfl (by rintro x ⟨⟩; exact ⟨h₂, h₃⟩)
          (by rintro x ⟨⟩; exact ⟨name, h₄, hlast⟩)
        exact h₁.trans hp
      · exact unpairable _ _ (covered _) rfl
    · exact unpairable _ _ (covered _) rfl

/-! ### Re-keying -/

/-- A watch that still arms after a re-address has its arm queued. -/
theorem readdress_queued {watch : WatchId} {node : WatchNode} {rearm reprove : Bool}
    (hn : (m.readdress_outstanding_arm watch).nodes[watch]? = some node)
    (hs : node.state = .arming rearm reprove) :
    Queued (m.readdress_outstanding_arm watch) watch node.attempt := by
  cases hm : m.nodes[watch]? with
  | none =>
    have he : m.readdress_outstanding_arm watch = m := by
      simp only [Monitor.readdress_outstanding_arm, hm]
    rw [he, hm] at hn
    cases hn
  | some old =>
    have arm : ∀ scope, ∃ target, (m.queue_slot_arm watch scope) = (m.queue_watch watch target
        (Monitor.coverage_mask (m.scope_interest scope)), true) := by
      intro scope
      simp only [Monitor.queue_slot_arm, hm]
      exact ⟨_, rfl⟩
    have await : ∀ target mask, ∀ node : WatchNode,
        (m.queue_watch watch target mask).nodes[watch]? = some node →
        Queued (m.queue_watch watch target mask) watch node.attempt := by
      intro target mask node hnode
      rw [Monitor.queue_watch_eq] at hnode ⊢
      simp only [get_modify, if_true, hm, Option.map_some, Option.some.injEq] at hnode
      refine ⟨_, List.mem_append_right _ (List.mem_singleton.mpr rfl), rfl, ?_⟩
      rw [← hnode]
    cases hst : old.state with
    | arming rearm' reprove' =>
      obtain ⟨target, ht⟩ := arm old.scope
      simp only [Monitor.readdress_outstanding_arm, hm, hst, Monitor.queue_reinstall, ht] at hn ⊢
      cases reprove' with
      | true => exact await target _ node hn
      | false => exact await target _ node hn
    | live =>
      have he : m.readdress_outstanding_arm watch = m := by
        simp only [Monitor.readdress_outstanding_arm, hm, hst]
      rw [he, hm] at hn
      cases hn
      rw [hst] at hs
      cases hs
    | enumerating req kind attempts dirty =>
      have he : m.readdress_outstanding_arm watch = m := by
        simp only [Monitor.readdress_outstanding_arm, hm, hst]
      rw [he, hm] at hn
      cases hn
      rw [hst] at hs
      cases hs

theorem unproven_pruned (hp : Pruned m m') {x : WatchId} (hu : m.unproven_adoption_of x = none) :
    m'.unproven_adoption_of x = none := by
  cases hx : m'.unproven_adoption_of x with
  | none => rfl
  | some p =>
    obtain ⟨n', hn', hb⟩ := Option.bind_eq_some_iff.mp hx
    obtain ⟨q, hq, hm⟩ := Option.bind_eq_some_iff.mp hb
    obtain ⟨n, hn, hpar, -⟩ := hp.node_back hn'
    cases hk : m'.pending_adoptions[q]? with
    | none => simp [hk] at hm
    | some marker =>
      have hk' := hp.markers q marker hk
      rw [hk] at hm
      simp only [Monitor.unproven_adoption_of, hn, Option.bind_some, ← hpar, hq, hk'] at hu
      dsimp only at hm hu
      rw [hu] at hm
      cases hm

/-- `reparent` once the slot is clear. -/
def Monitor.reparent_onto (m : Monitor) (child new_parent : WatchId) (new_name : Segment)
    (flavor : Reparent) (inherit : Bool) : Monitor × Bool :=
  if !m.is_watched child || !m.is_watched new_parent then (m, false)
  else
    let m₂ := m.attach_child child new_parent new_name
    let m₃ := if flavor = .moved then m₂.moved_placement child else m₂
    let m₄ := if inherit then (m₃.inherit_rearm child).1 else m₃
    (m₄.readdress_outstanding_arm child, true)

/-- A source in transit is re-keyed to a slot it is free to take, and lands. -/
theorem reparent_trace {child new_parent : WatchId} (new_name : Segment) {scope : ScopeId}
    (h : Valid ⟨m, g.carry (some child)⟩) (hw : g.walk = none) (hh : child ∉ m.held_sources)
    (hc : m.scope_of child = some scope) (hp : m.scope_of new_parent = some scope)
    (hd : m.is_descendant new_parent child = false)
    (hoff : ∀ slot, m.slot_of child = some slot → m.child_index[slot]? ≠ some child)
    (hu : m.unproven_adoption_of child = none) :
    Trace ⟨m, g.carry (some child)⟩
        ⟨(m.reparent child new_parent new_name .moved).1, g.carry (some child)⟩ ∧
      ((m.reparent child new_parent new_name .moved).2 = true →
        Landed (m.reparent child new_parent new_name .moved).1 (g.carry (some child)) child) := by
  have hw' : (g.carry (some child)).walk = none := hw
  have hsound := Inv.sound h.toInv hw'
  -- the slot's occupant is another watch, and the drop empties the slot
  have hocc : m.child_index[(new_parent, new_name)]? ≠ some child := fun hi =>
    hoff _ (slot_of_index hsound hi) hi
  have hdrop : ∃ m₁ inherit, m.reparent child new_parent new_name .moved =
        m₁.reparent_onto child new_parent new_name .moved inherit ∧
      Trace ⟨m, g.carry (some child)⟩ ⟨m₁, g.carry (some child)⟩ ∧ Pruned m m₁ ∧
      m₁.child_index[(new_parent, new_name)]? = none := by
    cases hi : m.child_index[(new_parent, new_name)]? with
    | none =>
      refine ⟨m, false, ?_, .refl, .refl m, hi⟩
      simp only [Monitor.reparent, Monitor.child_watch, hi]
      rfl
    | some stale =>
      have hne : stale ≠ child := fun he => hocc (he ▸ hi)
      obtain ⟨ht, hpr, hdead⟩ := drop_subtree_trace (m := m) (g := g.carry (some child)) stale
        .coveringRescan hw'
      refine ⟨_, m.has_rearm_obligation stale, ?_, ht, hpr, ?_⟩
      · simp only [Monitor.reparent, Monitor.child_watch, hi, if_neg hne]
        rfl
      · cases hi' : (m.drop_subtree stale .coveringRescan).1.child_index[(new_parent, new_name)]?
          with
        | none => rfl
        | some y =>
          obtain rfl := Option.some.inj (hi.symm.trans (hpr.index _ y hi'))
          have := slot_of_index (Inv.sound (Trace.inv h.toInv ht) hw') hi'
          rw [slot_dead hdead] at this
          cases this
  obtain ⟨m₁, inherit, hm₁, ht₁, hpr, hempty⟩ := hdrop
  rw [hm₁]
  have h₁ := Trace.valid h ht₁
  have hsound₁ := Inv.sound h₁.toInv hw'
  by_cases hlive : m₁.is_watched child = true ∧ m₁.is_watched new_parent = true
  swap
  · have hrest : m₁.reparent_onto child new_parent new_name .moved inherit = (m₁, false) := by
      unfold Monitor.reparent_onto
      rw [if_pos]
      simp only [Bool.or_eq_true, Bool.not_eq_true']
      rcases not_and_or.mp hlive with hl | hl
      · exact .inl (eq_false_of_ne_true hl)
      · exact .inr (eq_false_of_ne_true hl)
    rw [hrest]
    exact ⟨ht₁, by simp⟩
  · have hrest : m₁.reparent_onto child new_parent new_name .moved inherit =
        ((if inherit then ((m₁.rekey child new_parent new_name).inherit_rearm child).1
          else m₁.rekey child new_parent new_name).readdress_outstanding_arm child, true) := by
      unfold Monitor.reparent_onto
      rw [if_neg (by simp [hlive])]
      rfl
    rw [hrest]
    obtain ⟨nc, hnc⟩ := contains_iff.mp hlive.1
    obtain ⟨nq, hnq⟩ := contains_iff.mp hlive.2
    have ha := Trace.anchored h.toInv (h.toInv.anchored hc) ht₁
    have haq := Trace.anchored h.toInv (h.toInv.anchored hp) ht₁
    have e : Effect ⟨m₁, g.carry (some child)⟩
        ⟨m₁.rekey child new_parent new_name, g.carry (some child)⟩ := by
      have hsc : m₁.scope_of child = some scope := by
        rw [scope_of_node hnc, ha.scope nc hnc]
      refine .edit (.rekey hw' rfl (fun hm => hh (hpr.held _ hm)) hsc ?_ ?_ ?_
        hempty (unproven_pruned hpr hu))
      · rw [scope_of_node hnq, haq.scope nq hnq]
      · rw [Bool.eq_false_iff, ne_eq, Monitor.is_descendant_iff hsound₁]
        intro hab
        have := hpr.above hab (by simp [hnq]) hsound₁
        rw [← Monitor.is_descendant_iff hsound, hd] at this
        cases this
      · exact fun slot hs hi => hoff slot (hpr.slot_back hs) (hpr.index slot child hi)
    have hcalm : Calms g.answer (m₁.rekey child new_parent new_name)
        ((if inherit then ((m₁.rekey child new_parent new_name).inherit_rearm child).1
          else m₁.rekey child new_parent new_name).readdress_outstanding_arm child) := by
      refine .trans ?_ (readdress_calm child)
      split
      · exact inherit_rearm_calm child
      · exact .refl
    refine ⟨(ht₁.tail e).trans (Calms.trace (g := g.carry (some child)) hcalm), fun _ => ⟨?_, ?_, ?_⟩⟩
    · intro hm
      have hm := hcalm.pruned.held _ hm
      obtain ⟨_, he⟩ := m₁.rekey_eq child new_parent new_name
      rw [he] at hm
      exact hh (hpr.held _ hm)
    · intro slot hs
      rw [hcalm.placed.slot_of] at hs
      rw [hcalm.placed.child_index]
      have hself : (m₁.rekey child new_parent new_name).slot_of child =
          some (new_parent, new_name) := by
        rw [Monitor.slot_of_shape, Monitor.rekey_shape _ _ _ hsound₁, Shape.rekey_place,
          Monitor.place_of hnc]
        simp
      obtain rfl := Option.some.inj (hself.symm.trans hs)
      obtain ⟨_, he⟩ := m₁.rekey_eq child new_parent new_name
      rw [he]
      simp only [get_insert, if_true]
    · intro node rearm reprove hn hst
      exact .inl (readdress_queued hn hst)

end Proto
