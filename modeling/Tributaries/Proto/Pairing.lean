import Tributaries.Proto.Renaming

/-! # Records as paths of effects

  A destination takes up the half parked under its cookie, lets go of the
  source and brings its slot in line.  With the other handlers this makes
  every record a path of effects.
-/

open Std Collections SlotForest Forest

namespace Proto

variable {m m' : Monitor} {g : Ghost} {k : Option Answer}

/-! ### Pairing with a held source -/

/-- A source that is not re-keyed is dropped, and its destination announced. -/
theorem pair_lost_trace {scope : ScopeId} {rec : OsRecord} {pending : PendingMove}
    {dest : Location} {class_ : Option Bool} {name : Segment} {src : WatchId}
    {reparenting : Option (WatchId × Location)} {paired : Evidence}
    {renamed : RecordOutcome} (h : Valid ⟨m, g.carry (some src)⟩) (hw : g.walk = none)
    (ht : g.transit = none) (ha : Anchored ⟨m, g.carry (some src)⟩ rec.watch scope) :
    Trace ⟨m, g.carry (some src)⟩
      ⟨(let m₃ := if m.is_watched src then (m.drop_subtree src .coveringRescan).1 else m
        if m₃.is_watched rec.watch then
          let m₄ := m₃.emit_pair scope dest pending class_ paired
          let m₅ :=
            match reparenting with
            | some (_, source) => m₄.reanchor_pending_sources scope source dest
            | none => m₄
          let m₆ := m₅.rescan_dirty_pair scope pending dest
          let m₇ := (m₆.emit_rescan scope dest).1
          let m₈ := (m₇.reconcile_slot rec.watch scope name (Monitor.class_occupant class_) true rec.node).1
          (m₈.inherit_at_slot rec.watch name, renamed)
        else (m₃.escalate_stale_destination scope, RecordOutcome.nothing)).1, g⟩ := by
  have hdrop : Trace ⟨m, g.carry (some src)⟩
      ⟨if m.is_watched src then (m.drop_subtree src .coveringRescan).1 else m, g⟩ := by
    split
    · exact drop_carried_trace src hw ht
    · rename_i hn
      have hl := Effect.land (m := m) (g := g.carry (some src)) rfl
        (.inl (contains_false_iff.mp (eq_false_of_ne_true hn)))
      have hg : { g.carry (some src) with transit := none } = g := Ghost.carry_none ht
      rw [hg] at hl
      exact hl.trace
  dsimp only
  generalize (if m.is_watched src then (m.drop_subtree src .coveringRescan).1 else m) = m₃
    at hdrop ⊢
  split
  · have hre : ∀ m₄ : Monitor, Calms g.answer m₄ (match reparenting with
        | some (_, source) => m₄.reanchor_pending_sources scope source dest
        | none => m₄) := by
      intro m₄
      cases reparenting with
      | none => exact .refl
      | some r => exact reanchor_calm scope r.2 dest
    have h₇ := hdrop.trans (Calms.trace ((((emit_pair_calm (m := m₃) scope dest pending class_
      paired).trans (hre _)).trans (rescan_dirty_pair_calm scope pending dest)).trans
        (emit_rescan_calm scope dest)))
    refine (h₇.trans (reconcile_slot_trace _ _ _ _ (Trace.valid h h₇) hw ?_)).trans
      (inherit_at_slot_calm rec.watch name).trace
    exact Trace.anchored h.toInv ha h₇
  · exact hdrop.trans (escalate_calm scope).trace

theorem pair_held_trace {scope : ScopeId} {rec : OsRecord} {pending : PendingMove} {now : Instant}
    {dest : Location} {class_ : Option Bool} {name : Segment} {src : WatchId}
    (h : Valid ⟨m, g.carry (some src)⟩) (hw : g.walk = none) (ht : g.transit = none)
    (hans : g.answer = none) (hs : m.scope_of rec.watch = some scope)
    (hheld : ∀ s, m.scope_of src = some s → src ∈ m.held_sources ∧ s = scope) :
    Trace ⟨m, g.carry (some src)⟩
      ⟨(m.pair_held scope rec pending now dest class_ name src).1, g⟩ := by
  obtain ⟨hmint, hused⟩ := h.holds.transit_minted src rfl
  have ha : Anchored ⟨m, g.carry (some src)⟩ src scope :=
    ⟨hmint, hused, fun node hn => (hheld _ (scope_of_node hn)).2⟩
  have e : Effect ⟨m, g.carry (some src)⟩ ⟨(m.release_hold scope src).1, g.carry (some src)⟩ :=
    .release rfl ha
  have hrel := m.release_hold_shape scope src
  have haw := e.anchored h.toInv (h.toInv.anchored hs)
  have h₁ := e.valid h
  unfold Monitor.pair_held
  generalize m.release_hold scope src = released at e hrel haw h₁ ⊢
  obtain ⟨m₁, dirtied⟩ := released
  obtain ⟨held, dirt, rfl⟩ := hrel
  dsimp only at e haw h₁ ⊢
  generalize hm₁ : ({ m with
    held_sources := m.held_sources.erase src
    held_by_scope := held
    dirtied_holds := dirt } : Monitor) = m₁ at e haw h₁ ⊢
  have hplaced : Placed m m₁ := by
    rw [← hm₁]
    exact .of_eq rfl rfl rfl rfl
  have hout : src ∉ m₁.held_sources := by
    rw [← hm₁]
    simp
  generalize m.reparenting_source pending rec.name now = reparenting
  generalize (ite (class_ != some false && decide (0 < rec.depth)) _ _ : RecordOutcome) = renamed
  -- the re-key, if the source may take the slot
  have hre : ∃ m₂ moved, (if m₁.can_reparent src rec.watch && m₁.reparentable_adoption src then
        m₁.reparent src rec.watch name .moved else (m₁, false)) = (m₂, moved) ∧
      Trace ⟨m₁, g.carry (some src)⟩ ⟨m₂, g.carry (some src)⟩ ∧
      (moved = true → Landed m₂ (g.carry (some src)) src) := by
    split
    · rename_i hc
      simp only [Monitor.can_reparent, Monitor.reparentable_adoption, Bool.and_eq_true,
        Bool.not_eq_true', Option.isNone_iff_eq_none] at hc
      obtain ⟨⟨⟨⟨hlive, hlivew⟩, -⟩, hdesc⟩, hunp⟩ := hc
      obtain ⟨n, hn⟩ := contains_iff.mp hlive
      obtain ⟨nw, hnw⟩ := contains_iff.mp hlivew
      have hsc : m.scope_of src = some scope := by
        rw [← hplaced.scope_of, scope_of_node hn]
        exact congrArg some ((e.anchored h.toInv ha).scope n hn)
      have hoff : ∀ slot, m₁.slot_of src = some slot → m₁.child_index[slot]? ≠ some src := by
        intro slot hslot
        obtain ⟨slot', hslot', hoff⟩ := h.holds.held_off src (hheld scope hsc).1
        rw [hplaced.slot_of, hslot'] at hslot
        obtain rfl := Option.some.inj hslot
        rw [hplaced.child_index]
        exact hoff
      obtain ⟨h₂, h₃⟩ := reparent_trace name h₁ hw hout
        ((hplaced.scope_of src).trans hsc) ((hplaced.scope_of rec.watch).trans hs) hdesc hoff hunp
      exact ⟨_, _, rfl, h₂, h₃⟩
    · exact ⟨m₁, false, rfl, .refl, by simp⟩
  obtain ⟨m₂, moved, hm₂, ht₂, hland⟩ := hre
  rw [hm₂]
  have h₂ := Trace.valid h₁ ht₂
  have ht' := (e.trace).trans ht₂
  cases moved with
  | true =>
    simp only [if_true]
    have hl := Effect.land (m := m₂) (g := g.carry (some src)) rfl (.inr (hland rfl))
    have hg : { g.carry (some src) with transit := none } = g := Ghost.carry_none ht
    rw [hg] at hl
    have hanchor : ∀ m₄ : Monitor, Calms g.answer m₄ (match reparenting with
        | some (_, source) => m₄.reanchor_pending_sources scope source dest
        | none => m₄) := by
      intro m₄
      cases reparenting with
      | none => exact .refl
      | some r => exact reanchor_calm scope r.2 dest
    exact (ht'.tail hl).trans (Calms.trace ((((emit_pair_calm scope dest pending class_ _).trans
      (hanchor _)).trans (rescan_dirty_pair_calm scope pending dest)).trans
        (settle_moved_source_calm scope dest dirtied (by simp [hans]))))
  | false =>
    simp only [Bool.false_eq_true, if_false]
    exact ht'.trans (pair_lost_trace h₂ hw ht (Trace.anchored h₁.toInv haw ht₂))

/-! ### Pairing without a held source -/

/-- The deliveries of a pairing without a source to re-key. -/
theorem deliver_pair_calm (scope : ScopeId) (pending : PendingMove) (dest : Location)
    (class_ : Option Bool) (paired : Evidence) (resolved : Option Location) :
    Calms k m (Monitor.rescan_dirty_pair (match resolved with
      | some source =>
        (m.emit_pair scope dest pending class_ paired).reanchor_pending_sources scope source dest
      | none => m.emit_pair scope dest pending class_ paired) scope pending dest) := by
  refine .trans ?_ (rescan_dirty_pair_calm scope pending dest)
  have h := emit_pair_calm (k := k) (m := m) scope dest pending class_ paired
  cases resolved with
  | none => exact h
  | some source => exact h.trans (reanchor_calm scope source dest)

theorem pair_unheld_eq (scope : ScopeId) (rec : OsRecord) (pending : PendingMove)
    (dest : Location) (class_ : Option Bool) :
    ∃ m₁ resolved, (m₁ = match rec.name, pending.held with
        | none, some src => ((m.stand_counted_cover scope).drop_subtree src .coveringRescan).1
        | _, _ => m) ∧
      ∀ m₄, (m₄ = Monitor.rescan_dirty_pair (match resolved with
          | some source => (m₁.emit_pair scope dest pending class_
              (pending.evidence.union rec.evidence)).reanchor_pending_sources scope source dest
          | none => m₁.emit_pair scope dest pending class_ (pending.evidence.union rec.evidence))
          scope pending dest) →
        (m.pair_unheld scope rec pending dest class_).1 = match rec.name with
          | some name => (m₄.reconcile_slot rec.watch scope name
              (Monitor.class_occupant class_) true rec.node).1
          | none => m₄ := by
  refine ⟨_, m.live_pending_from pending, rfl, ?_⟩
  rintro m₄ rfl
  unfold Monitor.pair_unheld
  cases rec.name <;> rfl

theorem pair_unheld_trace {scope : ScopeId} {rec : OsRecord} {pending : PendingMove}
    {dest : Location} {class_ : Option Bool} (h : Valid ⟨m, g.carry pending.held⟩)
    (hw : g.walk = none) (ht : g.transit = none) (hs : m.scope_of rec.watch = some scope)
    (hne : rec.name = none ∨ pending.held = none) :
    Trace ⟨m, g.carry pending.held⟩ ⟨(m.pair_unheld scope rec pending dest class_).1, g⟩ := by
  obtain ⟨m₁, resolved, hm₁, heq⟩ := pair_unheld_eq (m := m) scope rec pending dest class_
  have ht₁ : Trace ⟨m, g.carry pending.held⟩ ⟨m₁, g⟩ := by
    rw [hm₁]
    cases hh : pending.held with
    | none =>
      rw [Ghost.carry_none ht]
      cases rec.name <;> exact .refl
    | some src =>
      rw [hne.resolve_right (by simp [hh])]
      exact (stand_counted_cover_calm scope).trace.trans (drop_carried_trace src hw ht)
  have h₄ := ht₁.trans (deliver_pair_calm scope pending dest class_
    (pending.evidence.union rec.evidence) resolved).trace
  rw [heq _ rfl]
  cases rec.name with
  | none => exact h₄
  | some name =>
    exact h₄.trans (reconcile_slot_trace _ _ _ _ (Trace.valid h h₄) hw
      (Trace.anchored h.toInv (h.toInv.anchored hs) h₄))

theorem pair_late_trace {scope : ScopeId} {rec : OsRecord} {pending : PendingMove}
    {dest : Location} (h : Valid ⟨m, g.carry pending.held⟩) (hw : g.walk = none)
    (ht : g.transit = none) (hs : m.scope_of rec.watch = some scope) :
    Trace ⟨m, g.carry pending.held⟩ ⟨m.pair_late scope rec pending dest, g⟩ := by
  have h₁ := resolve_stored_half_trace (m := m) pending hw ht
  unfold Monitor.pair_late
  dsimp only
  generalize m.resolve_stored_half pending = m₁ at h₁ ⊢
  generalize (pending.held.any m.is_watched) = carried
  generalize rec.is_dir.or pending.is_dir = class_
  split
  · have hemit : Calms g.answer m₁ (if m₁.ondir_allows scope class_ then
        (m₁.emit scope dest .created rec.evidence class_).1 else m₁) := by
      split
      · exact emit_calm rfl
      · exact .refl
    cases rec.name with
    | none =>
      dsimp only
      cases carried with
      | true => exact h₁.trans (Calms.trace (hemit.trans (stand_counted_cover_calm scope)))
      | false => exact h₁.trans hemit.trace
    | some name =>
      dsimp only
      have h₃ : Trace ⟨m, g.carry pending.held⟩ ⟨if carried then
          ((if m₁.ondir_allows scope class_ then
            (m₁.emit scope dest .created rec.evidence class_).1 else m₁).emit_rescan scope dest).1
          else (if m₁.ondir_allows scope class_ then
            (m₁.emit scope dest .created rec.evidence class_).1 else m₁), g⟩ := by
        cases carried with
        | true => exact h₁.trans (Calms.trace (hemit.trans (emit_rescan_calm scope dest)))
        | false => exact h₁.trans hemit.trace
      have h₄ := h₃.trans (reconcile_slot_trace name (Monitor.class_occupant class_) true rec.node
        (Trace.valid h h₃) hw (Trace.anchored h.toInv (h.toInv.anchored hs) h₃))
      cases carried with
      | true => exact h₄.trans (inherit_at_slot_calm rec.watch name).trace
      | false => exact h₄
  · exact h₁.trans (escalate_calm scope).trace

theorem arrive_unpaired_trace {scope : ScopeId} {rec : OsRecord} {dest : Location}
    (h : Valid ⟨m, g⟩) (hw : g.walk = none) (hs : m.scope_of rec.watch = some scope) :
    Trace ⟨m, g⟩ ⟨m.arrive_unpaired scope rec dest, g⟩ := by
  unfold Monitor.arrive_unpaired
  have hemit : Calms g.answer m (if m.ondir_allows scope rec.is_dir then
      (m.emit scope dest .created rec.evidence rec.is_dir).1 else m) := by
    split
    · exact emit_calm rfl
    · exact .refl
  cases rec.name with
  | none => exact hemit.trace
  | some name =>
    exact hemit.trace.trans (reconcile_slot_trace _ _ _ _ (Trace.valid h hemit.trace) hw
      (Trace.anchored h.toInv (h.toInv.anchored hs) hemit.trace))

theorem on_moved_to_trace {scope : ScopeId} {rec : OsRecord} {now : Instant} (h : Valid ⟨m, g⟩)
    (hw : g.walk = none) (ht : g.transit = none) (hans : g.answer = none)
    (hs : m.scope_of rec.watch = some scope) :
    Trace ⟨m, g⟩ ⟨(m.on_moved_to scope rec now).1, g⟩ := by
  unfold Monitor.on_moved_to
  dsimp only
  cases rec.cookie with
  | none => exact arrive_unpaired_trace h hw hs
  | some cookie =>
    dsimp only
    cases hp : m.pending_moves[(scope, cookie)]? with
    | none =>
      rw [take_half_none hp]
      exact arrive_unpaired_trace h hw hs
    | some pending =>
      have h₁ := take_half_trace ht hp
      have hv := Trace.valid h h₁
      have hheld : ∀ src, pending.held = some src → ∀ s, m.scope_of src = some s →
          src ∈ m.held_sources ∧ s = scope := fun src hsrc s hss =>
        ⟨(h.holds.half_held _ pending src s hp hsrc hss).1,
          (h.holds.half_held _ pending src s hp hsrc hss).2.1⟩
      have he : m.take_half (scope, cookie) =
          ({ m with pending_moves := m.pending_moves.erase (scope, cookie) }, some pending) := by
        unfold Monitor.take_half
        rw [hp]
      rw [he] at h₁ hv ⊢
      dsimp only at h₁ hv ⊢
      split
      · split
        · rename_i name src hname hsrc
          rw [hsrc] at h₁ hv
          exact h₁.trans (pair_held_trace hv hw ht hans hs (hheld src hsrc))
        · rename_i hne
          refine h₁.trans (pair_unheld_trace hv hw ht hs ?_)
          cases hname : rec.name with
          | none => exact .inl rfl
          | some name =>
            cases hsrc : pending.held with
            | none => exact .inr rfl
            | some src => exact absurd hsrc (hne name src hname)
      · exact h₁.trans (pair_late_trace hv hw ht hs)

/-! ### Self-events and the record door -/

theorem invalidate_self_trace {scope : ScopeId} {watch : WatchId} (h : Valid ⟨m, g⟩)
    (hw : g.walk = none) (hb : Pruned g.start m) (hs : m.scope_of watch = some scope)
    (hr : m.is_root_watch watch = true) (hc : Calms g.answer m m') :
    Trace ⟨m, g⟩ ⟨m'.invalidate_root scope watch, g⟩ := by
  have hroot := root_registered h.toInv hw hr hs
  have hstart : g.start.roots[scope]? ≠ none := by simp [hb.roots scope watch hroot]
  refine hc.trace.trans (invalidate_root_trace (Trace.valid h hc.trace) hw (fun r hr' => ?_)
    hstart)
  rw [hc.placed.roots, hroot] at hr'
  exact (Option.some.inj hr').symm

theorem on_move_self_trace {scope : ScopeId} {rec : OsRecord} (h : Valid ⟨m, g⟩)
    (hw : g.walk = none) (hb : Pruned g.start m) (hs : m.scope_of rec.watch = some scope) :
    Trace ⟨m, g⟩ ⟨m.on_move_self scope rec, g⟩ := by
  unfold Monitor.on_move_self
  split
  · rename_i hr
    exact invalidate_self_trace h hw hb hs hr (emit_rescan_calm scope [])
  · split
    · rename_i parent hu
      refine release_marker_trace parent scope _ hw ?_
      -- the marker's parent is the parent of a watch of the scope
      obtain ⟨n, hn, hb⟩ := Option.bind_eq_some_iff.mp hu
      obtain ⟨q, hq, hm⟩ := Option.bind_eq_some_iff.mp hb
      have hqp : q = parent := by
        cases hk : m.pending_adoptions[q]? with
        | none => simp [hk] at hm
        | some marker =>
          simp only [hk] at hm
          split at hm
          · exact Option.some.inj hm
          · cases hm
      subst hqp
      obtain ⟨np, hnp, hsc, -⟩ := (h.toInv.sound hw).parent_live (Monitor.place_of hn) hq
      obtain ⟨np, hnp', rfl⟩ := Monitor.place_eq_some.mp hnp
      refine h.toInv.anchored ?_
      rw [scope_of_node hn] at hs
      rw [scope_of_node hnp', ← hs]
      exact congrArg some hsc
    · exact .refl

theorem on_delete_self_trace {scope : ScopeId} {rec : OsRecord} (h : Valid ⟨m, g⟩)
    (hw : g.walk = none) (hb : Pruned g.start m) (hs : m.scope_of rec.watch = some scope) :
    Trace ⟨m, g⟩ ⟨m.on_delete_self scope rec, g⟩ := by
  unfold Monitor.on_delete_self
  split
  · rename_i hr
    refine invalidate_self_trace h hw hb hs hr (.trans ?_ (emit_rescan_calm scope []))
    split
    · exact emit_calm rfl
    · exact .refl
  · exact drop_departed_trace rec.watch hw

theorem on_ignored_trace {scope : ScopeId} {rec : OsRecord} (h : Valid ⟨m, g⟩)
    (hw : g.walk = none) (hb : Pruned g.start m) (hs : m.scope_of rec.watch = some scope) :
    Trace ⟨m, g⟩ ⟨m.on_ignored scope rec, g⟩ := by
  unfold Monitor.on_ignored
  split
  · rename_i hr
    exact invalidate_self_trace h hw hb hs hr (emit_rescan_calm scope [])
  · split
    · exact (book_hold_calm _).trace.trans (drop_trace rec.watch .coveringRescan hw)
    · have hd := drop_trace (m := m) rec.watch .coveringRescan hw
      dsimp only
      cases hslot : m.slot_of rec.watch with
      | none => exact hd.trans (stand_counted_cover_calm scope).trace
      | some slot =>
        obtain ⟨parent, name⟩ := slot
        obtain ⟨n, hn, hp, -⟩ := Monitor.slot_of_eq_some.mp hslot
        simp only [hn]
        refine hd.trans (cover_and_rebuild_trace _ _ _ (Trace.valid h hd) hw
          (Trace.anchored h.toInv (h.toInv.anchored ?_) hd))
        obtain ⟨np, hnp, hsc, -⟩ := (h.toInv.sound hw).parent_live (Monitor.place_of hn) hp
        obtain ⟨np, hnp', rfl⟩ := Monitor.place_eq_some.mp hnp
        rw [scope_of_node hn] at hs
        rw [scope_of_node hnp', ← hs]
        exact congrArg some hsc

theorem on_slot_record_trace {scope : ScopeId} {rec : OsRecord} {kind : ChangeKind}
    {occupant : SlotOccupant} (hk : kind.is_rescan = false) (h : Valid ⟨m, g⟩)
    (hw : g.walk = none) (hs : m.scope_of rec.watch = some scope) :
    Trace ⟨m, g⟩ ⟨(let m₁ :=
        if m.ondir_allows scope rec.is_dir then m.emit_child scope rec kind else m
      match rec.name with
      | some name => (m₁.reconcile_slot rec.watch scope name occupant false rec.node).1
      | none => m₁), g⟩ := by
  have hemit : Calms g.answer m (if m.ondir_allows scope rec.is_dir then m.emit_child scope rec kind
      else m) := by
    split
    · exact emit_child_calm hk
    · exact .refl
  cases rec.name with
  | none => exact hemit.trace
  | some name =>
    exact hemit.trace.trans (reconcile_slot_trace _ _ _ _ (Trace.valid h hemit.trace) hw
      (Trace.anchored h.toInv (h.toInv.anchored hs) hemit.trace))

theorem dispatch_record_trace {scope : ScopeId} {rec : OsRecord} {now : Instant}
    (h : Valid ⟨m, g⟩) (hw : g.walk = none) (ht : g.transit = none) (hans : g.answer = none)
    (hb : Pruned g.start m) (hs : m.scope_of rec.watch = some scope) :
    Trace ⟨m, g⟩ ⟨(m.dispatch_record scope rec now).1, g⟩ := by
  have modified : Calms g.answer m (if rec.evidence.admits (m.scope_interest scope) &&
      m.ondir_allows scope rec.is_dir then m.emit_child scope rec .modified else m) := by
    split
    · exact emit_child_calm rfl
    · exact .refl
  unfold Monitor.dispatch_record
  cases rec.kind with
  | movedTo => exact on_moved_to_trace h hw ht hans hs
  | created => exact on_slot_record_trace rfl h hw hs
  | removed => exact on_slot_record_trace rfl h hw hs
  | modified => exact modified.trace
  | attrib => exact modified.trace
  | movedFrom => exact on_moved_from_trace h hw ht hs
  | moveSelf => exact on_move_self_trace h hw hb hs
  | deleteSelf => exact on_delete_self_trace h hw hb hs
  | ignored => exact on_ignored_trace h hw hb hs

theorem fence_latent_calm (scope : ScopeId) (rec : OsRecord) :
    Calms g.answer m (m.fence_latent_transitions scope rec) := by
  unfold Monitor.fence_latent_transitions
  split
  · exact .refl
  · exact dirty_touching_calm _ _ _ _

theorem ingest_record_trace {rec : OsRecord} {now : Instant} (h : Valid ⟨m, g⟩)
    (hw : g.walk = none) (ht : g.transit = none) (hans : g.answer = none)
    (hb : Pruned g.start m) :
    Trace ⟨m, g⟩ ⟨(m.ingest_record rec now).1, g⟩ := by
  unfold Monitor.ingest_record
  cases hs : m.scope_of rec.watch with
  | none => exact .refl
  | some scope =>
    dsimp only
    split
    · split
      · exact (suppress_in_hold_calm _ _).trace
      · exact (rescan_and_rearm_calm scope rec.watch).trace
    · split
      · exact (suppress_in_hold_calm _ _).trace
      · have hc : Calms g.answer m (if Monitor.is_structural rec.kind then
            (m.fence_latent_transitions scope rec).mark_enumerate_dirty rec.watch
            else m.fence_latent_transitions scope rec) := by
          split
          · exact (fence_latent_calm scope rec).trans (Calm.work .overtake).once
          · exact fence_latent_calm scope rec
        exact hc.trace.trans (dispatch_record_trace (Trace.valid h hc.trace) hw ht hans
          (hb.trans hc.pruned)
          ((hc.placed.scope_of rec.watch).trans hs))

end Proto
