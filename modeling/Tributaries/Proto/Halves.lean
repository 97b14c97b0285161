import Tributaries.Proto.Session

/-! # Where the parked halves say their sources were

  A half that holds a source was parked for the slot the source stood in,
  and nothing re-keys a held source.  A resolved rename may re-spell the
  way from the half's anchor to its source, but never the source's own
  name nor the anchor.
-/

open Std Collections SlotForest Forest

namespace Proto

variable {m m' : Monitor} {g : Ghost} {c c' : Moment}

/-- A held source stands at a slot of the half's anchor, under the last name of the
    half's way to it. -/
def Addressed (c : Moment) : Prop :=
  ∀ (key : PendingKey) (half : PendingMove) (src : WatchId),
    c.m.pending_moves[key]? = some half → half.held = some src → c.m.nodes[src]? ≠ none →
      ∃ name, c.m.slot_of src = some (half.from_parent, name) ∧
        half.source.getLast? = some name

/-- What an effect may do to a half: it leaves it what it was. -/
def WasParked (m : Monitor) (key : PendingKey) (half : PendingMove) : Prop :=
  ∃ old, m.pending_moves[key]? = some old ∧ half.held = old.held ∧
    half.from_parent = old.from_parent ∧
    ∀ name, old.source.getLast? = some name → half.source.getLast? = some name

theorem WasParked.same {key : PendingKey} {half : PendingMove} (h : m.pending_moves[key]? = some half) :
    WasParked m key half :=
  ⟨half, h, rfl, rfl, fun _ hn => hn⟩

theorem Deliver.halves_eq (h : Deliver m m') : m'.pending_moves = m.pending_moves := by
  rw [h.shape]
  rfl

theorem Ledger.halves_eq (h : Ledger m m') : m'.pending_moves = m.pending_moves := by
  rw [h.shape]
  rfl

theorem discharge_halves (walk : Walk) :
    (m.discharge walk).1.pending_moves = m.pending_moves := by
  rcases discharge_cases (m := m) walk with he | ⟨_, d₁, d₂⟩ | l
  · rw [he]
  · exact d₂.halves_eq.trans d₁.halves_eq
  · exact l.halves_eq

theorem Edit.halves_eq (h : Inv c) (e : Edit c c') :
    c'.m.pending_moves = c.m.pending_moves := by
  cases e with
  | @register m g scope mask caps hw hr hs =>
    obtain ⟨_, _, _, _, -, -, -, -, -, -, -, -, he⟩ := Monitor.register_eq mask caps hr
    rw [he]
  | @plant m g parent scope name is_dir identity hw hp ha hs =>
    have hpn : parent ≠ m.watch_ids.next := by
      rintro rfl
      exact Nat.lt_irrefl _ ha.minted
    rw [Monitor.plant_eq scope name is_dir identity hpn]
  | reserve => rfl
  | @graft m g scope reserved last old_root =>
    obtain ⟨_, he, -⟩ := m.graft_eq scope reserved last old_root
    rw [he]
  | @hold m g scope src parent name hw ht hp hs hsc =>
    obtain ⟨_, _, _, -, -, he⟩ := Monitor.take_source_eq scope hp (h.unheld hp hs)
    rw [he]
  | @rekey m g child new_parent new_name =>
    obtain ⟨_, he⟩ := m.rekey_eq child new_parent new_name
    rw [he]
  | uproot => rfl
  | @remove m g walk id stack node =>
    obtain ⟨_, _, _, -, -, he, -⟩ := m.remove_node_eq id node walk.erased
    rw [he]

theorem Marking.halves_eq (e : Marking c c') : c'.m.pending_moves = c.m.pending_moves := by
  cases e with
  | record_marker => rfl
  | @stage m g dir scope =>
    show (m.stage_adoption dir scope).pending_moves = m.pending_moves
    unfold Monitor.stage_adoption
    split <;> rfl
  | @take_marker m g parent scope =>
    rw [(m.take_adoption_marker_eq parent scope).1]
  | unstage => rfl

/-- A half was there before an effect, or is parked by it for the slot its source is at. -/
theorem Effect.halves (h : Inv c) (e : Effect c c') {key : PendingKey} {half : PendingMove}
    (hk : c'.m.pending_moves[key]? = some half) :
    WasParked c.m key half ∨ ∀ src, half.held = some src → ∃ name,
      c'.m.slot_of src = some (half.from_parent, name) ∧ half.source.getLast? = some name := by
  have same : c'.m.pending_moves = c.m.pending_moves → WasParked c.m key half := by
    intro he
    rw [he] at hk
    exact .same hk
  cases e with
  | edit e => exact .inl (same (e.halves_eq h))
  | mark e => exact .inl (same e.halves_eq)
  | deliver e => exact .inl (same e.halves_eq)
  | ledger e => exact .inl (same e.halves_eq)
  | work e =>
    apply Or.inl
    apply same
    rw [e.shape]
    rfl
  | @ask m g parent scope name =>
    obtain ⟨_, _, _, _, _, -, -, -, he⟩ := queue_stat_eq (m := m) parent scope name
    apply Or.inl
    apply same
    rw [he]
  | @ack m g id =>
    obtain ⟨_, _, _, he⟩ := m.set_state_shape id .live
    apply Or.inl
    apply same
    show (m.set_state id .live).pending_moves = m.pending_moves
    rw [he]
  | @finish m g req dir =>
    obtain ⟨_, _, _, he⟩ := (m.forget_read req).set_state_shape dir .live
    apply Or.inl
    apply same
    show ((m.forget_read req).set_state dir .live).pending_moves = m.pending_moves
    rw [he]
    rfl
  | @reset m g root =>
    obtain ⟨_, _, _, _, _, he⟩ := m.reset_root_shape root
    apply Or.inl
    apply same
    show (m.reset_root root).pending_moves = m.pending_moves
    rw [he]
  | adopt => exact .inl (same rfl)
  | rest => exact .inl (same rfl)
  | respond => exact .inl (same rfl)
  | identify => exact .inl (same rfl)
  | land => exact .inl (same rfl)
  | move_root => exact .inl (same rfl)
  | open_drop => exact .inl (same rfl)
  | skip_dead => exact .inl (same rfl)
  | close_drop => exact .inl (same (discharge_halves _))
  | @park m g scope cookie pending ht hs hm hf =>
    obtain ⟨_, he⟩ := m.park_shape scope cookie pending
    simp only [he, get_insert] at hk ⊢
    split at hk
    · obtain rfl := Option.some.inj hk
      exact .inr hf
    · exact .inl (.same hk)
  | @take m g key' half' ht hp =>
    simp only [Monitor.take_half, get_erase] at hk
    split at hk
    · cases hk
    · exact .inl (.same hk)
  | @release m g scope src =>
    obtain ⟨_, _, he⟩ := m.release_hold_shape scope src
    apply Or.inl
    apply same
    show (m.release_hold scope src).1.pending_moves = m.pending_moves
    rw [he]
  | @remark m g key' f hf =>
    simp only [Monitor.modify_half, get_modify] at hk
    split at hk
    · obtain ⟨old, hold, rfl⟩ := Option.map_eq_some_iff.mp hk
      exact .inl ⟨old, hold, hf.held old, hf.from_parent old, hf.called old⟩
    · exact .inl (.same hk)
  | @purge m g scope =>
    simp only [Monitor.purge_scope_pending_moves, get_filter, Option.filter_eq_some_iff] at hk
    exact .inl (.same hk.1)
  | @reprofile m g scope caps =>
    obtain ⟨_, _, he⟩ := m.reprofile_shape scope caps
    apply Or.inl
    apply same
    show (m.reprofile_root scope caps).pending_moves = m.pending_moves
    rw [he]
  | forget_scope => exact .inl (same rfl)
  | forget_registration => exact .inl (same rfl)
  | forget_book => exact .inl (same rfl)
  | skip_action => exact .inl (same rfl)
  | @dispatch m g action =>
    apply Or.inl
    apply same
    obtain ⟨_, -, he⟩ := Monitor.dispatch_shape (m := { m with actions := _ }) action
    rw [he]
  | poll_event => exact .inl (same rfl)

/-- A held source keeps its slot as long as it lives. -/
theorem Effect.held_slot (h : Inv c) (e : Effect c c') {key : PendingKey} {old : PendingMove}
    {src : WatchId} {slot : WatchId × Segment} (hk : c.m.pending_moves[key]? = some old)
    (hs : old.held = some src) (hslot : c.m.slot_of src = some slot)
    (hl : c'.m.nodes[src]? ≠ none) : c'.m.slot_of src = some slot := by
  obtain ⟨n', hn'⟩ := Option.ne_none_iff_exists'.mp hl
  obtain ⟨p, name⟩ := slot
  obtain ⟨n₀, hn₀, hp, hname⟩ := Monitor.slot_of_eq_some.mp hslot
  have keep : n'.parent = n₀.parent → n'.name = n₀.name → c'.m.slot_of src = some (p, name) :=
    fun h₁ h₂ => Monitor.slot_of_eq_some.mpr ⟨n', hn', h₁.trans hp, h₂.trans hname⟩
  rcases e.turn h hn' with ⟨n, hn, t⟩ | hb
  · rw [hn₀] at hn
    obtain rfl := Option.some.inj hn
    cases t with
    | rekey parent name' kids ht =>
      -- a source in transit is no half's
      exact absurd ht (h.holds.half_held key old src _ hk hs (scope_of_node hn₀)).2.2
    | graft parent name' kids hr =>
      obtain ⟨q, hq, hpar, -⟩ := h.tree.root_up _ src hr
      rw [Monitor.place_of hn₀] at hq
      obtain rfl := Option.some.inj hq
      rw [show n₀.place.parent = n₀.parent from rfl, hp] at hpar
      cases hpar
    | _ => exact keep rfl rfl
  · have hdead := hb.dead
    rw [hn₀] at hdead
    cases hdead

theorem Effect.addressed (h : Inv c) (ha : Addressed c) (e : Effect c c') : Addressed c' := by
  intro key half src hk hs hl
  rcases e.halves h hk with ⟨old, hold, hheld, hfrom, hcalled⟩ | hp
  swap
  · exact hp src hs
  rw [hheld] at hs
  have hlive : c.m.nodes[src]? ≠ none := by
    intro hdead
    obtain ⟨n', hn'⟩ := Option.ne_none_iff_exists'.mp hl
    rcases e.turn h hn' with ⟨n, hn, -⟩ | hb
    · rw [hdead] at hn
      cases hn
    · obtain ⟨hlt, hns⟩ := h.holds.half_minted key old src hold hs
      rcases hb.fresh with rfl | hf
      · exact Nat.lt_irrefl _ hlt
      · exact hns hf
  obtain ⟨name, hslot, hlast⟩ := ha key old src hold hs hlive
  refine ⟨name, ?_, hcalled name hlast⟩
  rw [hfrom]
  exact e.held_slot h hold hs hslot hl

/-- The halves of every run are addressed to where their sources stand. -/
theorem run_addressed {caps : Capabilities} {strict : Bool} {inputs : List Input}
    (hd : (Session.new caps).Drives strict inputs) :
    Addressed (((Session.new caps).run inputs).moment strict) := by
  apply (Session.run_keeps (P := Addressed) ?_ ?_ (valid_new caps) ?_ hd).2
  · intro c c' hv ha e
    exact e.addressed hv.toInv ha
  · intro m g call start ha
    exact ha
  · intro key half src hk
    have hnone : (Monitor.new caps).pending_moves[key]? = none := by simp [Monitor.new]
    rw [show ((Session.new caps).moment strict).m = Monitor.new caps from rfl, hnone] at hk
    cases hk

end Proto
