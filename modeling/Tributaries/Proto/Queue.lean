import Tributaries.Proto.Traces
import Tributaries.Proto.Walks

/-! # The change queue

  What `emit` and `mint_rescan` do to the queue: they append at most one
  change.  A `Rescan` that is not appended folds into one that stands in
  the queue at the same location.
-/

open Std Collections SlotForest Forest

namespace Proto

variable {m m' : Monitor} {g : Ghost} {k : Option Answer}

/-! ### Coalescing -/

/-- A coalesce reads the tree, the parked halves and the queue. -/
theorem would_coalesce_congr (hn : m'.nodes = m.nodes) (hp : m'.pending_moves = m.pending_moves)
    (he : m'.events = m.events) (scope : ScopeId) (location : Location) (kind : ChangeKind) :
    m'.would_coalesce scope location kind = m.would_coalesce scope location kind := by
  have hloc : ∀ x, m'.location_of x = m.location_of x := Monitor.location_of_congr hn
  have hb : ∀ locations, m'.pending_blocks scope locations = m.pending_blocks scope locations := by
    intro locations
    simp only [Monitor.pending_blocks, Monitor.scope_halves, Monitor.is_watched,
      Monitor.pending_from, hn, hp, hloc]
  unfold Monitor.would_coalesce
  rw [hb, he]

/-- What coalesces has an equal change in the queue. -/
theorem coalesce_queued {scope : ScopeId} {location : Location} {kind : ChangeKind}
    (h : m.would_coalesce scope location kind = true) :
    ∃ queued ∈ m.events, Monitor.dedup_key queued =
      (scope, location, Monitor.kind_tag kind, kind.moved_from) := by
  unfold Monitor.would_coalesce at h
  split at h
  · cases h
  · split at h
    · rename_i queued hq
      exact ⟨queued, List.mem_reverse.mp (List.mem_of_find?_eq_some hq), beq_iff_eq.mp h⟩
    · cases h

theorem kind_of_tag {kind : ChangeKind} (h : Monitor.kind_tag kind = Monitor.kind_tag .rescan) :
    kind = .rescan := by
  cases kind <;> simp [Monitor.kind_tag] at h ⊢

/-! ### Minting -/

/-- A delivery is filtered, folds into a queued one, or is appended under the
    scope's epoch. -/
theorem emit_cases (scope : ScopeId) (location : Location) (kind : ChangeKind)
    (evidence : Evidence) (is_dir : Option Bool) :
    (m.emit scope location kind evidence is_dir).1 = m ∨
      (m.emit scope location kind evidence is_dir).1 =
        { m with
          change_ids := ⟨m.change_ids.next.succ⟩
          events := m.events ++
            [⟨m.change_ids.next, scope, location, kind, m.epoch_of scope, is_dir⟩] } := by
  unfold Monitor.emit
  split
  · exact .inl rfl
  · split
    · exact .inl rfl
    · exact .inr rfl

/-- A `Rescan` folds into a queued one, or is appended under the next epoch. -/
theorem mint_cases (scope : ScopeId) (location : Location) :
    (m.would_coalesce scope location .rescan = true ∧ m.mint_rescan scope location = (m, none)) ∨
      (m.mint_rescan scope location).1 =
        { m.bump_epoch scope with
          change_ids := ⟨m.change_ids.next.succ⟩
          events := m.events ++
            [⟨m.change_ids.next, scope, location, .rescan,
              (m.bump_epoch scope).epoch_of scope, none⟩] } := by
  by_cases hc : m.would_coalesce scope location .rescan = true
  · refine .inl ⟨hc, ?_⟩
    unfold Monitor.mint_rescan
    rw [if_pos hc]
  · have hc' : (m.bump_epoch scope).would_coalesce scope location .rescan = false := by
      rw [@would_coalesce_congr m (m.bump_epoch scope) rfl rfl rfl]
      exact eq_false_of_ne_true hc
    refine .inr ?_
    unfold Monitor.mint_rescan
    rw [if_neg hc]
    unfold Monitor.emit
    rw [if_neg (by simp [Monitor.wanted]), if_neg (by simp [hc'])]
    rfl

/-! ### Appending -/

/-- The queue only grows at its end. -/
def Appends (m m' : Monitor) : Prop := m.events <+: m'.events

theorem emit_appends (scope : ScopeId) (location : Location) (kind : ChangeKind)
    (evidence : Evidence) (is_dir : Option Bool) :
    Appends m (m.emit scope location kind evidence is_dir).1 := by
  unfold Appends
  rcases emit_cases (m := m) scope location kind evidence is_dir with h | h
  · rw [h]
  · rw [h]
    exact List.prefix_append _ _

theorem mint_appends (scope : ScopeId) (location : Location) :
    Appends m (m.mint_rescan scope location).1 := by
  unfold Appends
  rcases mint_cases (m := m) scope location with ⟨-, h⟩ | h
  · rw [h]
  · rw [h]
    exact List.prefix_append _ _

theorem saw_rescan_events (scope : ScopeId) :
    (m.bridge_saw_rescan scope).events = m.events := by
  unfold Monitor.bridge_saw_rescan
  split <;> rfl

theorem Calm.appends (h : Calm k m m') : Appends m m' := by
  cases h with
  | deliver h =>
    cases h with
    | emit => exact emit_appends _ _ _ _ _
    | mint => exact mint_appends _ _
    | raise => exact List.prefix_rfl
    | @settle scope =>
      unfold Monitor.settle_bridge Appends
      split
      · exact List.prefix_rfl
      · dsimp only
        split
        · have := mint_appends (m := m.bridge_saw_rescan scope) scope []
          unfold Appends at this
          rwa [saw_rescan_events] at this
        · exact List.prefix_rfl
  | ledger h =>
    rw [h.shape]
    exact List.prefix_rfl
  | work h =>
    rw [h.shape]
    exact List.prefix_rfl
  | remark => exact List.prefix_rfl

theorem Calms.appends (h : Calms k m m') : Appends m m' := by
  induction h with
  | refl => exact List.prefix_rfl
  | tail _ e ih => exact List.IsPrefix.trans ih e.appends

/-! ### Covers in the queue -/

/-- A minted `Rescan` stands in the queue, its own or the one it folded into. -/
theorem mint_covered (scope : ScopeId) (location : Location) :
    (m.mint_rescan scope location).1.covered scope location := by
  rcases mint_cases (m := m) scope location with ⟨hc, h⟩ | h
  · obtain ⟨queued, hm, hk⟩ := coalesce_queued hc
    simp only [Monitor.dedup_key, Prod.mk.injEq] at hk
    obtain ⟨hs, hl, ht, -⟩ := hk
    rw [h]
    exact ⟨queued, hm, hs, kind_of_tag ht, by rw [hl]⟩
  · rw [h]
    exact ⟨_, List.mem_append_right _ (List.mem_singleton.mpr rfl), rfl, rfl, List.prefix_rfl⟩

/-- A cover stays where calm effects follow. -/
theorem Calms.covered (h : Calms k m m') {scope : ScopeId} {location : Location}
    (hc : m.covered scope location) : m'.covered scope location := by
  obtain ⟨change, hm, hs, hk, hl⟩ := hc
  exact ⟨change, h.appends.subset hm, hs, hk, hl⟩

end Proto
