import Tributaries.Proto.Relocation
import Tributaries.Proto.Halves

/-! # What a record says it relocated

  A record that pairs with a held source inside the window tries to re-key
  it.  If the slot may take the source the call re-keys it and reports the
  half's slot; in every other case nothing that survives the call has
  moved, and the report says so.
-/

open Std Collections SlotForest Forest

namespace Proto

variable {m m' : Monitor} {g : Ghost} {k : Option Answer} {src p : WatchId} {name : Segment}
variable {scope : ScopeId} {rec : OsRecord} {pending : PendingMove} {now : Instant}

/-! ### What calm effects leave -/

theorem Calm.adoptions (h : Calm k m m') : m'.pending_adoptions = m.pending_adoptions := by
  cases h with
  | deliver h =>
    rw [h.shape]
    rfl
  | ledger h =>
    rw [h.shape]
    rfl
  | work h =>
    rw [h.shape]
    rfl
  | remark => rfl

theorem Calms.adoptions (h : Calms k m m') : m'.pending_adoptions = m.pending_adoptions := by
  induction h with
  | refl => rfl
  | tail _ e ih => exact e.adoptions.trans ih

theorem unproven_placed (hp : Placed m m') (ha : m'.pending_adoptions = m.pending_adoptions)
    (x : WatchId) : m'.unproven_adoption_of x = m.unproven_adoption_of x := by
  have hpar : ((m'.nodes[x]?).bind (·.parent)) = (m.nodes[x]?).bind (·.parent) := by
    rw [← Monitor.up_of, ← Monitor.up_of, hp.shape]
  simp only [Monitor.unproven_adoption_of, ← Option.bind_assoc, ha, hpar]

theorem takes_placed (hp : Placed m m') (ha : m'.pending_adoptions = m.pending_adoptions)
    (h : m.shape.Sound ∅) (src p : WatchId) (name : Segment) :
    m'.takes src p name ↔ m.takes src p name := by
  have hdesc : ∀ x y, m'.is_descendant x y = m.is_descendant x y := by
    intro x y
    have h' : m'.shape.Sound ∅ := by rwa [hp.shape]
    rw [Bool.eq_iff_iff, Monitor.is_descendant_iff h', Monitor.is_descendant_iff h, hp.shape]
  simp only [Monitor.takes, Monitor.can_reparent, Monitor.reparentable_adoption,
    Monitor.child_watch, hp.watched, hdesc, unproven_placed hp ha, hp.child_index]

/-! ### Pairing -/

/-- An outcome that reports no re-key. -/
def Silent (out : RecordOutcome) : Prop := ∀ watch source, out ≠ .reparented watch source

/-- The end of a pairing that re-keys nothing: the source is dropped, and the
    destination announced. -/
def Monitor.pair_lost (m : Monitor) (scope : ScopeId) (rec : OsRecord) (pending : PendingMove)
    (dest : Location) (class_ : Option Bool) (name : Segment) (src : WatchId)
    (reparenting : Option (WatchId × Location)) (renamed : RecordOutcome) :
    Monitor × RecordOutcome :=
  let m₃ := if m.is_watched src then (m.drop_subtree src .coveringRescan).1 else m
  if m₃.is_watched rec.watch then
    let m₄ := m₃.emit_pair scope dest pending class_ (pending.evidence.union rec.evidence)
    let m₅ :=
      match reparenting with
      | some (_, source) => m₄.reanchor_pending_sources scope source dest
      | none => m₄
    let m₆ := m₅.rescan_dirty_pair scope pending dest
    let m₇ := (m₆.emit_rescan scope dest).1
    let m₈ := (m₇.reconcile_slot rec.watch scope name (class_occupant class_) true rec.node).1
    (m₈.inherit_at_slot rec.watch name, renamed)
  else (m₃.escalate_stale_destination scope, .nothing)

theorem pair_lost_unmoved (dest : Location) (class_ : Option Bool)
    (reparenting : Option (WatchId × Location)) (renamed : RecordOutcome) (hm : Minted m) :
    Unmoved m (m.pair_lost scope rec pending dest class_ name src reparenting renamed).1 := by
  have hdrop : Unmoved m (if m.is_watched src then (m.drop_subtree src .coveringRescan).1
      else m) := by
    split
    · exact drop_subtree_unmoved src .coveringRescan
    · exact .refl m
  unfold Monitor.pair_lost
  dsimp only
  generalize (if m.is_watched src then (m.drop_subtree src .coveringRescan).1 else m) = m₃
    at hdrop ⊢
  split
  · have hre : ∀ m₄ : Monitor, Calms none m₄ (match reparenting with
        | some (_, source) => m₄.reanchor_pending_sources scope source dest
        | none => m₄) := by
      intro m₄
      cases reparenting with
      | none => exact .refl
      | some r => exact reanchor_calm scope r.2 dest
    have h₇ := hdrop.trans (Calms.unmoved ((((emit_pair_calm (m := m₃) scope dest pending class_
      (pending.evidence.union rec.evidence)).trans (hre _)).trans
        (rescan_dirty_pair_calm scope pending dest)).trans (emit_rescan_calm scope dest)))
    exact (h₇.trans (reconcile_slot_unmoved _ _ _ _ _ _ (h₇.minted hm))).trans
      (inherit_at_slot_calm (k := none) rec.watch name).unmoved
  · exact hdrop.trans (escalate_calm (k := none) scope).unmoved

theorem pair_lost_silent (dest : Location) (class_ : Option Bool)
    (reparenting : Option (WatchId × Location)) {renamed : RecordOutcome} (hr : Silent renamed) :
    Silent (m.pair_lost scope rec pending dest class_ name src reparenting renamed).2 := by
  unfold Monitor.pair_lost
  dsimp only
  generalize (if m.is_watched src then (m.drop_subtree src .coveringRescan).1 else m) = m₃
  split
  · exact hr
  · intro watch source he
    cases he

theorem renamed_silent (b : Bool) (resolved : Option Location) :
    Silent (if b then
      match resolved with
      | some source => RecordOutcome.renamed source
      | none => .nothing
    else .nothing) := by
  intro watch source he
  split at he
  · split at he <;> cases he
  · cases he

/-- A pairing re-keys a held source its slot may take, and reports where the half
    says it was; any other held source it drops. -/
theorem pair_held_outcome (dest : Location) (class_ : Option Bool)
    (h : Valid ⟨m, g.carry (some src)⟩) (hw : g.walk = none) (hname : rec.name = some name)
    (hheld : pending.held = some src) (hin : pending.in_window now = true)
    (hscope : ∀ s, m.scope_of src = some s → src ∈ m.held_sources ∧ s = scope)
    (hfrom : m.is_watched src = true → m.is_watched pending.from_parent = true) :
    (m.takes src rec.watch name ∧
      (m.pair_held scope rec pending now dest class_ name src).2 =
        .reparented pending.from_parent (m.pending_from pending) ∧
      Rekeyed m (m.pair_held scope rec pending now dest class_ name src).1 src rec.watch name) ∨
    (¬ m.takes src rec.watch name ∧
      Unmoved m (m.pair_held scope rec pending now dest class_ name src).1 ∧
      Silent (m.pair_held scope rec pending now dest class_ name src).2) := by
  have hsound := h.toInv.sound hw
  obtain ⟨hmint, hused⟩ := h.holds.transit_minted src rfl
  have ha : Anchored ⟨m, g.carry (some src)⟩ src scope :=
    ⟨hmint, hused, fun node hn => (hscope _ (scope_of_node hn)).2⟩
  have e : Effect ⟨m, g.carry (some src)⟩ ⟨(m.release_hold scope src).1, g.carry (some src)⟩ :=
    .release rfl ha
  have hrel := m.release_hold_shape scope src
  have h₁ := e.valid h
  have hoff : ∀ slot : WatchId × Segment, m.child_index[slot]? ≠ some src := by
    intro slot hi
    have hslot := slot_of_index hsound hi
    obtain ⟨n, hn, -⟩ := Monitor.slot_of_eq_some.mp hslot
    obtain ⟨slot', hslot', hne⟩ := h.holds.held_off src (hscope _ (scope_of_node hn)).1
    rw [hslot] at hslot'
    obtain rfl := Option.some.inj hslot'
    exact hne hi
  have hreport : m.is_watched src = true → m.reparenting_source pending rec.name now =
      some (pending.from_parent, m.pending_from pending) := by
    intro hl
    simp [Monitor.reparenting_source, Monitor.live_pending_from, hin, hname, hheld, hfrom hl]
  unfold Monitor.pair_held
  generalize m.release_hold scope src = released at e hrel h₁ ⊢
  obtain ⟨m₁, dirtied⟩ := released
  obtain ⟨held, dirt, rfl⟩ := hrel
  dsimp only at e h₁ ⊢
  generalize hm₁ : ({ m with
    held_sources := m.held_sources.erase src
    held_by_scope := held
    dirtied_holds := dirt } : Monitor) = m₁ at e h₁ ⊢
  have hplaced : Placed m m₁ := by
    rw [← hm₁]
    exact .of_eq rfl rfl rfl rfl
  have hadopt : m₁.pending_adoptions = m.pending_adoptions := by rw [← hm₁]
  have hunmoved := Unmoved.of_placed hplaced
  have htakes := takes_placed hplaced hadopt hsound src rec.watch name
  have hoff₁ : ∀ slot : WatchId × Segment, m₁.child_index[slot]? ≠ some src := by
    intro slot
    rw [hplaced.child_index]
    exact hoff slot
  have hmint₁ : Minted m₁ := h₁.minted
  generalize m.reparenting_source pending rec.name now = reparenting at hreport ⊢
  have hsilent := renamed_silent (class_ != some false && decide (0 < rec.depth))
    (m.live_pending_from pending)
  generalize (if class_ != some false && decide (0 < rec.depth) then
      match m.live_pending_from pending with
      | some source => RecordOutcome.renamed source
      | none => .nothing
    else .nothing) = renamed at hsilent ⊢
  -- the re-key, if the slot may take the source
  have hre : ∃ m₂ moved, (if m₁.can_reparent src rec.watch && m₁.reparentable_adoption src then
        m₁.reparent src rec.watch name .moved else (m₁, false)) = (m₂, moved) ∧
      ((moved = true ∧ m₁.takes src rec.watch name ∧ Rekeyed m₁ m₂ src rec.watch name) ∨
        (moved = false ∧ ¬ m₁.takes src rec.watch name ∧ Unmoved m₁ m₂)) := by
    split
    · rename_i hc
      simp only [Bool.and_eq_true] at hc
      have hlive := hc.1
      simp only [Monitor.can_reparent, Bool.and_eq_true] at hlive
      have hiff := reparent_iff h₁.toInv hw hoff₁ hlive.1.1.1 hlive.1.1.2 name
      refine ⟨_, _, rfl, ?_⟩
      rcases reparent_rekeyed h₁.toInv hw (hplaced.watch_ids ▸ hmint) rec.watch name with
        ⟨hno, hu⟩ | ⟨hyes, hk⟩
      · refine .inr ⟨hno, ?_, hu⟩
        intro ht
        rw [hiff.mpr ht.2.2] at hno
        cases hno
      · exact .inl ⟨hyes, ⟨hc.1, hc.2, hiff.mp hyes⟩, hk⟩
    · rename_i hc
      refine ⟨m₁, false, rfl, .inr ⟨rfl, ?_, .refl m₁⟩⟩
      intro ht
      simp [ht.1, ht.2.1] at hc
  obtain ⟨m₂, moved, hm₂, hcase⟩ := hre
  rw [hm₂]
  rcases hcase with ⟨rfl, ht, hk⟩ | ⟨rfl, ht, hu⟩
  · have ht := htakes.mp ht
    have hlive := ht.1
    simp only [Monitor.can_reparent, Bool.and_eq_true] at hlive
    rw [hreport hlive.1.1.1]
    simp only [if_true]
    refine .inl ⟨ht, trivial, ?_⟩
    have hsettle : ∀ m₅ : Monitor, Calms none m₅ (m₅.settle_moved_source scope src dest dirtied) :=
      fun _ => settle_moved_source_calm scope dest dirtied (by simp)
    have hcalm : Calms none m₂ _ := (((emit_pair_calm (k := none) (m := m₂) scope dest pending
      class_ (pending.evidence.union rec.evidence)).trans
        (reanchor_calm scope (m.pending_from pending) dest)).trans
          (rescan_dirty_pair_calm scope pending dest)).trans (hsettle _)
    exact (Rekeyed.after hunmoved hk hmint).placed (Calms.placed hcalm)
  · simp only [Bool.false_eq_true, if_false]
    refine .inr ⟨fun ht' => ht (htakes.mpr ht'), ?_, ?_⟩
    · exact (hunmoved.trans hu).trans
        (pair_lost_unmoved dest class_ reparenting renamed (hu.minted hmint₁))
    · exact pair_lost_silent dest class_ reparenting hsilent

/-- The anchor of a half is watched as long as its source is. -/
theorem Addressed.anchor (ha : Addressed ⟨m, g⟩) (h : m.shape.Sound ∅) {key : PendingKey}
    {half : PendingMove} (hk : m.pending_moves[key]? = some half) (hs : half.held = some src)
    (hl : m.is_watched src = true) :
    ∃ name, m.slot_of src = some (half.from_parent, name) ∧
      half.source.getLast? = some name ∧ m.is_watched half.from_parent = true := by
  obtain ⟨n, hn⟩ := contains_iff.mp hl
  obtain ⟨name, hslot, hlast⟩ := ha key half src hk hs (by simp [hn])
  obtain ⟨n', hn', hpar, -⟩ := Monitor.slot_of_eq_some.mp hslot
  obtain ⟨q, hq, -⟩ := h.parent_live (Monitor.place_of hn') hpar
  obtain ⟨np, hnp, -⟩ := Monitor.place_eq_some.mp hq
  exact ⟨name, hslot, hlast, contains_iff.mpr ⟨np, hnp⟩⟩

/-- A record that finds its half in the window, with a source to place in a slot. -/
def Pairs (m : Monitor) (scope : ScopeId) (rec : OsRecord) (now : Instant) (half : PendingMove)
    (src : WatchId) (name : Segment) : Prop :=
  ∃ cookie, rec.cookie = some cookie ∧ m.pending_moves[(scope, cookie)]? = some half ∧
    half.in_window now = true ∧ half.held = some src ∧ rec.name = some name

theorem on_moved_to_outcome (scope : ScopeId) (rec : OsRecord) (now : Instant)
    (h : Valid ⟨m, g⟩) (hw : g.walk = none) (ht : g.transit = none)
    (haddr : Addressed ⟨m, g⟩) :
    (∃ half src name, Pairs m scope rec now half src name ∧ m.takes src rec.watch name ∧
      (m.on_moved_to scope rec now).2 = .reparented half.from_parent (m.pending_from half) ∧
      Rekeyed m (m.on_moved_to scope rec now).1 src rec.watch name) ∨
    ((∀ half src name, Pairs m scope rec now half src name → ¬ m.takes src rec.watch name) ∧
      Unmoved m (m.on_moved_to scope rec now).1 ∧ Silent (m.on_moved_to scope rec now).2) := by
  have silent : Silent .nothing := by
    intro watch source he
    cases he
  have hmint : Minted m := h.minted
  unfold Monitor.on_moved_to
  dsimp only
  cases hc : rec.cookie with
  | none =>
    refine .inr ⟨?_, arrive_unpaired_unmoved scope rec _ hmint, silent⟩
    intro half src name ⟨cookie, hcookie, _⟩
    rw [hc] at hcookie
    cases hcookie
  | some cookie =>
    dsimp only
    cases hp : m.pending_moves[(scope, cookie)]? with
    | none =>
      rw [take_half_none hp]
      refine .inr ⟨?_, arrive_unpaired_unmoved scope rec _ hmint, silent⟩
      intro half src name ⟨cookie', hcookie, hhalf, _⟩
      rw [hc] at hcookie
      cases hcookie
      rw [hp] at hhalf
      cases hhalf
    | some pending =>
      have only : ∀ half src name, Pairs m scope rec now half src name →
          half = pending ∧ pending.in_window now = true ∧ pending.held = some src ∧
            rec.name = some name := by
        intro half src name ⟨cookie', hcookie, hhalf, hin, hheld, hname⟩
        rw [hc] at hcookie
        cases hcookie
        rw [hp] at hhalf
        cases hhalf
        exact ⟨rfl, hin, hheld, hname⟩
      have h₁ := take_half_trace ht hp
      have hv := Trace.valid h h₁
      have he : m.take_half (scope, cookie) =
          ({ m with pending_moves := m.pending_moves.erase (scope, cookie) }, some pending) := by
        unfold Monitor.take_half
        rw [hp]
      rw [he] at hv ⊢
      dsimp only at hv ⊢
      generalize hm₁ : ({ m with
        pending_moves := m.pending_moves.erase (scope, cookie) } : Monitor) = m₁ at hv ⊢
      have hplaced : Placed m m₁ := by
        rw [← hm₁]
        exact .of_eq rfl rfl rfl rfl
      have hnodes : m₁.nodes = m.nodes := by rw [← hm₁]
      have hunmoved := Unmoved.of_placed hplaced
      have hmint₁ : Minted m₁ := hunmoved.minted hmint
      split
      swap
      · rename_i hout
        refine .inr ⟨?_, hunmoved.trans (pair_late_unmoved scope rec pending _ hmint₁), silent⟩
        intro half src name hpair
        exact absurd (only half src name hpair).2.1 hout
      · rename_i hin
        split
        · rename_i name src hname hheld
          rw [hheld] at hv
          have htakes := takes_placed hplaced (by rw [← hm₁]) (h.toInv.sound hw) src rec.watch
            name
          have hfrom : m₁.is_watched src = true → m₁.is_watched pending.from_parent = true := by
            simp only [Monitor.is_watched, hnodes]
            intro hl
            obtain ⟨-, -, -, hlive⟩ := haddr.anchor (h.toInv.sound hw) hp hheld hl
            exact hlive
          have hscope : ∀ s, m₁.scope_of src = some s → src ∈ m₁.held_sources ∧ s = scope := by
            intro s hs
            rw [hplaced.scope_of] at hs
            obtain ⟨hmem, hsc, -⟩ := h.holds.half_held _ pending src s hp hheld hs
            rw [← hm₁]
            exact ⟨hmem, hsc⟩
          rcases pair_held_outcome (m.record_location rec) (rec.is_dir.or pending.is_dir) hv hw
            hname hheld hin hscope hfrom with
            ⟨h₂, h₃, h₄⟩ | ⟨h₂, h₃, h₄⟩
          · refine .inl ⟨pending, src, name, ⟨cookie, hc, hp, hin, hheld, hname⟩, htakes.mp h₂, ?_,
              .after hunmoved h₄ (h.holds.half_minted _ pending src hp hheld).1⟩
            rw [h₃]
            simp only [Monitor.pending_from, Monitor.location_of_congr hnodes]
          · refine .inr ⟨?_, hunmoved.trans h₃, h₄⟩
            intro half src' name' hpair ht'
            obtain ⟨-, -, hsrc, hname'⟩ := only half src' name' hpair
            rw [hheld] at hsrc
            cases hsrc
            rw [hname] at hname'
            cases hname'
            exact h₂ (htakes.mpr ht')
        · rename_i hne
          refine .inr ⟨?_, hunmoved.trans (pair_unheld_unmoved scope rec pending _ _ hmint₁), ?_⟩
          · intro half src name hpair
            obtain ⟨-, -, hsrc, hname⟩ := only half src name hpair
            exact absurd hsrc (hne name src hname)
          · have hsilent := renamed_silent
              (rec.is_dir.or pending.is_dir != some false && decide (0 < rec.depth))
              (m₁.live_pending_from pending)
            unfold Monitor.pair_unheld
            cases rec.name <;> exact hsilent

/-! ### The record door -/

/-- A record is about to re-key the source of a half: no hold fences it off, the two
    pair in the window, and the source may take the slot it names. -/
def Carries (m : Monitor) (rec : OsRecord) (now : Instant) (half : PendingMove) (src : WatchId)
    (name : Segment) : Prop :=
  rec.kind = .movedTo ∧ ∃ scope, m.scope_of rec.watch = some scope ∧
    (m.in_held_subtree rec.watch).filter (m.hold_fences scope rec) = none ∧
    Pairs m scope rec now half src name ∧ m.takes src rec.watch name

theorem Trace.addressed {c c' : Moment} (t : Trace c c') (hv : Valid c) (ha : Addressed c) :
    Addressed c' := by
  induction t with
  | refl => exact ha
  | tail t e ih => exact e.addressed (Trace.valid hv t).toInv ih

/-- Remarks on other halves leave a half as it is. -/
theorem foldl_modify_half {f : PendingMove → PendingMove} {key : PendingKey}
    (keys : List PendingKey) : ∀ {m : Monitor}, key ∉ keys →
      (keys.foldl (fun m key => m.modify_half key f) m).pending_moves[key]? =
        m.pending_moves[key]? := by
  induction keys with
  | nil => exact fun _ => rfl
  | cons other keys ih =>
    intro m hk
    rw [List.mem_cons, not_or] at hk
    rw [List.foldl_cons, ih hk.2]
    simp only [Monitor.modify_half, get_modify, if_neg (Ne.symm hk.1)]

/-- The fence spares the half that the record itself resolves. -/
theorem fence_latent_half (hk : rec.kind = .movedTo) {cookie : MoveCookie}
    (hc : rec.cookie = some cookie) (sc : ScopeId) :
    (m.fence_latent_transitions scope rec).pending_moves[(sc, cookie)]? =
      m.pending_moves[(sc, cookie)]? := by
  unfold Monitor.fence_latent_transitions
  split
  · rfl
  · apply foldl_modify_half
    simp [Monitor.halves_touching, hc]

/-- The fences ahead of a record's handler. -/
def Monitor.fenced (m : Monitor) (scope : ScopeId) (rec : OsRecord) : Monitor :=
  if Monitor.is_structural rec.kind then
    (m.fence_latent_transitions scope rec).mark_enumerate_dirty rec.watch
  else m.fence_latent_transitions scope rec

theorem fenced_calm (scope : ScopeId) (rec : OsRecord) : Calms k m (m.fenced scope rec) := by
  unfold Monitor.fenced
  have hf : Calms k m (m.fence_latent_transitions scope rec) := by
    unfold Monitor.fence_latent_transitions
    split
    · exact .refl
    · exact dirty_touching_calm _ _ _ _
  split
  · exact hf.trans (Calm.work .overtake).once
  · exact hf

theorem fenced_half (hk : rec.kind = .movedTo) {cookie : MoveCookie}
    (hc : rec.cookie = some cookie) (sc : ScopeId) :
    (m.fenced scope rec).pending_moves[(sc, cookie)]? = m.pending_moves[(sc, cookie)]? := by
  unfold Monitor.fenced
  split
  · exact fence_latent_half hk hc sc
  · exact fence_latent_half hk hc sc

/-- Every other record leaves what survives it in its place. -/
theorem dispatch_record_unmoved (scope : ScopeId) (now : Instant) (h : Valid ⟨m, g⟩)
    (hw : g.walk = none)
    (hk : rec.kind ≠ .movedTo) :
    Unmoved m (m.dispatch_record scope rec now).1 ∧
      Silent (m.dispatch_record scope rec now).2 := by
  have silent : Silent .nothing := by
    intro watch source he
    cases he
  have hmint : Minted m := h.minted
  have modified : Unmoved m (if rec.evidence.admits (m.scope_interest scope) &&
      m.ondir_allows scope rec.is_dir then m.emit_child scope rec .modified else m) := by
    split
    · exact (emit_child_calm (k := none) rfl).unmoved
    · exact .refl m
  unfold Monitor.dispatch_record
  cases hkind : rec.kind with
  | movedTo => exact absurd hkind hk
  | created => exact ⟨on_slot_record_unmoved _ _ .created _ rfl hmint, silent⟩
  | removed => exact ⟨on_slot_record_unmoved _ _ .removed _ rfl hmint, silent⟩
  | modified => exact ⟨modified, silent⟩
  | attrib => exact ⟨modified, silent⟩
  | movedFrom => exact ⟨on_moved_from_unmoved h.toInv hw, silent⟩
  | moveSelf => exact ⟨on_move_self_unmoved _ _, silent⟩
  | deleteSelf => exact ⟨on_delete_self_unmoved _ _, silent⟩
  | ignored => exact ⟨on_ignored_unmoved _ _ hmint, silent⟩

/-- A record re-keys the source it carries and reports the half's slot, or moves nothing. -/
theorem ingest_record_outcome (rec : OsRecord) (now : Instant) (h : Valid ⟨m, g⟩)
    (hw : g.walk = none) (ht : g.transit = none)
    (haddr : Addressed ⟨m, g⟩) :
    (∃ half src name, Carries m rec now half src name ∧
      (m.ingest_record rec now).2 = .reparented half.from_parent (m.pending_from half) ∧
      Rekeyed m (m.ingest_record rec now).1 src rec.watch name) ∨
    ((∀ half src name, ¬ Carries m rec now half src name) ∧
      Unmoved m (m.ingest_record rec now).1 ∧ Silent (m.ingest_record rec now).2) := by
  have silent : Silent .nothing := by
    intro watch source he
    cases he
  unfold Monitor.ingest_record
  cases hs : m.scope_of rec.watch with
  | none =>
    refine .inr ⟨?_, .refl m, silent⟩
    intro half src name hcar
    obtain ⟨-, scope, hscope, -⟩ := hcar
    rw [hs] at hscope
    cases hscope
  | some scope =>
    dsimp only
    split
    · rename_i hmal
      refine .inr ⟨?_, ?_, ?_⟩
      · -- a record that names a slot is not malformed
        intro half src name hcar
        obtain ⟨hkind, -, -, -, ⟨-, -, -, -, -, hname⟩, -⟩ := hcar
        have hdepth : rec.depth = 1 := by
          unfold OsRecord.name at hname
          unfold OsRecord.depth
          cases ht : rec.target with
          | none =>
            rw [ht] at hname
            cases hname
          | some target =>
            rw [ht] at hname
            dsimp only at hname ⊢
            split at hname
            · assumption
            · cases hname
        simp [Monitor.is_malformed, hdepth, hkind, RecordKind.is_self_event] at hmal
      · split
        · exact (suppress_in_hold_calm (k := none) _ _).unmoved
        · exact (rescan_and_rearm_calm (k := none) scope rec.watch).unmoved
      · split <;> exact silent
    · split
      · rename_i source hfence
        refine .inr ⟨?_, (suppress_in_hold_calm (k := none) _ _).unmoved, silent⟩
        intro half src name hcar
        obtain ⟨-, scope', hscope, hopen, -⟩ := hcar
        rw [hs] at hscope
        cases hscope
        rw [hfence] at hopen
        cases hopen
      · rename_i hopen
        have hc : Calms g.answer m (m.fenced scope rec) := fenced_calm scope rec
        have hv := Trace.valid h hc.trace
        have ha := hc.trace.addressed h haddr
        have hsound := h.toInv.sound hw
        have hunmoved := hc.unmoved
        show (∃ half src name, Carries m rec now half src name ∧
            ((m.fenced scope rec).dispatch_record scope rec now).2 = _ ∧
            Rekeyed m ((m.fenced scope rec).dispatch_record scope rec now).1 src rec.watch name) ∨
          (_ ∧ Unmoved m ((m.fenced scope rec).dispatch_record scope rec now).1 ∧
            Silent ((m.fenced scope rec).dispatch_record scope rec now).2)
        by_cases hkind : rec.kind = .movedTo
        swap
        · obtain ⟨hu, hsil⟩ := dispatch_record_unmoved scope now hv hw hkind
          exact .inr ⟨fun _ _ _ hcar => hkind hcar.1, hunmoved.trans hu, hsil⟩
        · have hdis : (m.fenced scope rec).dispatch_record scope rec now =
              (m.fenced scope rec).on_moved_to scope rec now := by
            unfold Monitor.dispatch_record
            rw [hkind]
          have hpairs : ∀ half src name, Pairs (m.fenced scope rec) scope rec now half src name ↔
              Pairs m scope rec now half src name := by
            intro half src name
            unfold Pairs
            apply exists_congr
            intro cookie
            apply and_congr_right
            intro hcookie
            rw [fenced_half hkind hcookie]
          have htakes : ∀ src name, (m.fenced scope rec).takes src rec.watch name ↔
              m.takes src rec.watch name := 
              fun src name => takes_placed hc.placed hc.adoptions hsound src rec.watch name
          rw [hdis]
          rcases on_moved_to_outcome scope rec now hv hw ht ha with
            ⟨half, src, name, hp, htk, hout, hr⟩ | ⟨hno, hu, hsil⟩
          · have hpair := (hpairs _ _ _).mp hp
            obtain ⟨cookie, -, hhalf, -, hheld, -⟩ := id hpair
            refine .inl ⟨half, src, name, ⟨hkind, scope, hs, hopen, hpair, (htakes _ _).mp htk⟩, ?_,
              .after hunmoved hr (h.holds.half_minted _ half src hhalf hheld).1⟩
            rw [hout]
            simp only [Monitor.pending_from, hc.location hsound]
          · refine .inr ⟨?_, hunmoved.trans hu, hsil⟩
            intro half src name hcar
            obtain ⟨-, scope', hscope, -, hp, htk⟩ := hcar
            rw [hs] at hscope
            cases hscope
            exact hno half src name ((hpairs _ _ _).mpr hp) ((htakes _ _).mpr htk)

end Proto
