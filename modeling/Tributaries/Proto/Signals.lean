import Tributaries.Proto.Arming
import Tributaries.Proto.Queue

/-! # Losses and signals as paths of effects

  The calls that say something was missed: overflows, reported losses,
  re-signals of recorded holes, seals of staged adoptions, and the
  expiry of parked halves.
-/

open Std Collections SlotForest Forest

namespace Proto

variable {m m' : Monitor} {g : Ghost} {k : Option Answer}

/-! ### Locations -/

theorem location_dead {x : WatchId} (hx : m.nodes[x]? = none) : m.location_of x = [] := by
  unfold Monitor.location_of
  cases m.nodes.size with
  | zero => rfl
  | succ n => simp only [Monitor.location_loop, hx]

/-- A calm effect leaves every location as it is. -/
theorem Calms.location (h : Calms k m m') (hs : m.shape.Sound ∅) (x : WatchId) :
    m'.location_of x = m.location_of x := by
  cases hn : m.nodes[x]? with
  | none => rw [location_dead hn, location_dead (h.placed.dead_iff.mpr hn)]
  | some n =>
  obtain ⟨l, hl, -, hall, -⟩ := Monitor.chain_of hs hn
  have hp := h.placed
  obtain ⟨n', hn', -⟩ := hp.fwd hn
  have hs' : m'.shape.Sound ∅ := by rwa [hp.shape]
  have hl' : Chain m'.shape.up x l := by rwa [hp.shape]
  rw [Monitor.location_of_eq hs' hl' hn', Monitor.location_of_eq hs hl hn]
  unfold Monitor.names
  congr 1
  refine List.filterMap_congr fun y hy => ?_
  obtain ⟨ny, hny, -⟩ := hall y hy
  obtain ⟨ny', hny', hpl⟩ := hp.fwd hny
  rw [hny, hny']
  exact congrArg Place.name hpl

/-! ### Losses -/

theorem overflow_root_calm (scope : ScopeId) (root : WatchId) :
    Calms none m (m.overflow_root scope root) :=
  (dirty_touching_calm scope [] none none).trans (scope_loss_recovery_calm scope nofun)

theorem ingest_overflow_calm (scope : Scope) : Calms none m (m.ingest_overflow scope).1 := by
  unfold Monitor.ingest_overflow
  cases scope with
  | all =>
    have h : Calms none m (m.roots.toList.foldl (fun m e => m.overflow_root e.1 e.2) m) :=
      Calms.foldl _ fun m' e _ => overflow_root_calm e.1 e.2
    dsimp only
    generalize m.roots.toList.foldl (fun m e => m.overflow_root e.1 e.2) m = m₁ at h ⊢
    exact h.trans (dirty_held_calm none)
  | root scope =>
    dsimp only
    split
    · exact .refl
    · exact (overflow_root_calm scope _).trans (dirty_held_calm (some scope))
  | subtree sub =>
    dsimp only
    split
    · rename_i source _
      have h := suppress_in_hold_calm (k := none) (m := m) source sub.watch
      split
      · exact h.trans (emit_rescan_calm _ _)
      · exact h
    · split
      · exact .refl
      · exact (dirty_touching_calm _ _ _ _).trans
          ((emit_rescan_calm _ _).trans (start_rearm_calm sub.watch))

theorem report_loss_calm (scope : ScopeId) : Calms k m (m.report_loss scope).1 := by
  unfold Monitor.report_loss
  split
  · exact .refl
  · exact (emit_rescan_calm scope _).trans settle_bridges_calm

theorem cover_stat_loss_calm (scope : ScopeId) : Calms k m (m.cover_stat_loss scope).1 := by
  unfold Monitor.cover_stat_loss
  split
  · exact .refl
  · exact (emit_rescan_calm scope []).trans settle_bridges_calm

theorem cover_domination_calm (scope : Scope) : Calms k m (m.cover_domination scope).1 := by
  unfold Monitor.cover_domination
  cases scope with
  | all => exact .refl
  | root scope =>
    dsimp only
    split
    · exact .refl
    · exact mint_calm scope _
  | subtree sub =>
    dsimp only
    split
    · exact .refl
    · split
      · split
        · exact .refl
        · exact mint_calm _ _
      · exact mint_calm _ _

theorem rearm_watch_calm (watch : WatchId) : Calms k m (m.rearm_watch_subtree watch).1 := by
  unfold Monitor.rearm_watch_subtree
  split
  · exact .refl
  · rename_i scope _
    split
    · exact .refl
    · dsimp only
      refine .trans ?_ ((inherit_rearm_calm watch).trans settle_bridges_calm)
      split
      · exact emit_rescan_calm scope _
      · exact .refl

/-! ### Re-signalled holes -/

/-- A hole is re-signalled by a `Rescan` over it and the re-arm of its watch;
    only then it leaves the book. -/
theorem signalled_calm (scope : ScopeId) (location : Location) (dir : WatchId) :
    ∃ m₁, m₁ = ((m.emit_rescan scope location).1).heal_kick scope dir ∧ Calms none m m₁ ∧
      m₁.covered scope location := by
  have h₁ := emit_rescan_calm (k := none) (m := m) scope location
  have h₂ := heal_kick_calm (k := none) (m := (m.emit_rescan scope location).1) scope
    (d := dir) nofun
  have hc : (m.emit_rescan scope location).1.covered scope location :=
    mint_covered (m := m.bridge_saw_rescan scope) scope location
  exact ⟨_, rfl, h₁.trans h₂, h₂.covered hc⟩

theorem resignal_interior_calm (scope : ScopeId) (acc : Monitor × Bool) (dir : WatchId)
    (hs : acc.1.shape.Sound ∅) :
    Calms none acc.1 (Monitor.resignal_interior scope acc dir).1 := by
  unfold Monitor.resignal_interior
  dsimp only
  split
  · exact book_hold_calm _
  · obtain ⟨m₁, he, hc, hcov⟩ := signalled_calm scope (acc.1.location_of dir) dir (m := acc.1)
    rw [← he]
    refine hc.tail (.ledger (.spend_interior ?_))
    rwa [hc.location hs]

theorem resignal_slot_calm (scope : ScopeId) (acc : Monitor × Bool) (slot : WatchId × Segment)
    (hs : acc.1.shape.Sound ∅) :
    Calms none acc.1 (Monitor.resignal_slot scope acc slot).1 := by
  unfold Monitor.resignal_slot
  dsimp only
  split
  · exact book_hold_calm _
  · obtain ⟨m₁, he, hc, hcov⟩ := signalled_calm scope ((acc.1.location_of slot.1).child slot.2) slot.1 (m := acc.1)
    rw [← he]
    refine hc.tail (.ledger (.spend_slot ?_))
    rwa [hc.location hs]

theorem Calms.sound (h : Calms k m m') (hs : m.shape.Sound ∅) : m'.shape.Sound ∅ := by
  rwa [h.placed.shape]

/-- A loop of calm rounds that reads the tree. -/
theorem Calms.foldl_fst {α β : Type} {f : Monitor × β → α → Monitor × β} (l : List α)
    (hf : ∀ (acc : Monitor × β) a, acc.1.shape.Sound ∅ → Calms k acc.1 (f acc a).1) :
    ∀ (acc : Monitor × β), acc.1.shape.Sound ∅ → Calms k acc.1 (l.foldl f acc).1 := by
  induction l with
  | nil => exact fun _ _ => .refl
  | cons a l ih =>
    intro acc hs
    exact (hf acc a hs).trans (ih _ ((hf acc a hs).sound hs))

theorem resignal_deficits_calm (scope : ScopeId) (hs : m.shape.Sound ∅) :
    Calms none m (m.resignal_deficits scope).1 := by
  unfold Monitor.resignal_deficits
  split
  · exact .refl
  · rename_i root _
    split
    · exact .refl
    · split
      · exact .refl
      · rename_i book _
        split
        · obtain ⟨m₁, he, hc, hcov⟩ := signalled_calm scope [] root (m := m)
          dsimp only
          rw [← he]
          exact hc.tail (.ledger (.spend_book hcov))
        · have h₁ := Calms.foldl_fst (f := Monitor.resignal_interior scope)
            book.interiors.toList
            (fun acc dir hs => resignal_interior_calm scope acc dir hs) (m, false) hs
          dsimp only
          generalize book.interiors.toList.foldl (Monitor.resignal_interior scope) (m, false) = acc₁
            at h₁ ⊢
          have h₂ := Calms.foldl_fst (f := Monitor.resignal_slot scope)
            (Monitor.DeficitBook.slot_list book)
            (fun acc slot hs => resignal_slot_calm scope acc slot hs) acc₁ (h₁.sound hs)
          exact (h₁.trans h₂).tail (.ledger .gc_book)

/-! ### Seals -/

theorem seal_adoption_trace {scope : ScopeId} {parent : WatchId} (hw : g.walk = none)
    (ha : Anchored ⟨m, g⟩ parent scope) : Trace ⟨m, g⟩ ⟨m.seal_adoption scope parent, g⟩ := by
  unfold Monitor.seal_adoption
  cases hm : m.pending_adoptions[parent]? with
  | none => exact (Effect.mark (.unstage hm)).trace
  | some marker =>
    have hr := fun d => release_marker_trace (g := g) parent scope d hw ha
    dsimp only
    split
    · exact (hr .verdict).trans (emit_rescan_calm scope _).trace
    · split
      · exact hr .verdict
      · exact hr .countedRetirement

theorem seal_staged_trace {scope : ScopeId} {through : Nat} (h : Valid ⟨m, g⟩)
    (hw : g.walk = none) : Trace ⟨m, g⟩ ⟨m.seal_staged_adoptions scope through, g⟩ := by
  unfold Monitor.seal_staged_adoptions
  dsimp only
  have hdue : ∀ parent ∈ ((m.scope_staged scope).filter fun e => decide (e.2 ≤ through)).map
      fun e => e.1.2, Anchored ⟨m, g⟩ parent scope := by
    intro parent hp
    obtain ⟨e, he, rfl⟩ := List.mem_map.mp hp
    have he := (List.mem_filter.mp he).1
    have hscope : e.1.1 = scope := by
      have := List.mem_takeWhile_imp he
      simpa using this
    have hmem : e ∈ m.staged_adoptions.toList :=
      (List.dropWhile_sublist _).subset ((List.takeWhile_sublist _).subset he)
    have hget : m.staged_adoptions[(e.1.1, e.1.2)]? = some e.2 :=
      mem_toList.mp hmem
    have := h.adopted.staged _ _ _ hget
    rwa [hscope] at this
  refine .trans ?_ (settle_bridges_calm).trace
  exact Trace.foldl _ fun m' parent hp ht =>
    seal_adoption_trace hw (Trace.anchored h.toInv (hdue parent hp) ht)

/-! ### Expired halves -/

theorem expire_half_trace {key : PendingKey} (hw : g.walk = none) (ht : g.transit = none) :
    Trace ⟨m, g⟩ ⟨m.expire_half key, g⟩ := by
  unfold Monitor.expire_half
  cases hp : m.pending_moves[key]? with
  | none =>
    rw [take_half_none hp]
  | some pending =>
    have h := take_half_trace (g := g) ht hp
    have he : m.take_half key = ((m.take_half key).1, some pending) := Prod.ext rfl hp
    rw [he]
    exact h.trans (resolve_stored_half_trace pending hw ht)

theorem handle_timeout_trace {now : Instant} (hw : g.walk = none) (ht : g.transit = none) :
    Trace ⟨m, g⟩ ⟨m.handle_timeout now, g⟩ := by
  unfold Monitor.handle_timeout
  dsimp only
  refine .trans ?_ (settle_bridges_calm).trace
  exact Trace.foldl _ fun _ _ _ _ => expire_half_trace hw ht

theorem consume_half_trace {scope : ScopeId} {cookie : MoveCookie} (hw : g.walk = none)
    (ht : g.transit = none) : Trace ⟨m, g⟩ ⟨m.consume_pending_move scope cookie, g⟩ := by
  unfold Monitor.consume_pending_move
  cases hp : m.pending_moves[(scope, cookie)]? with
  | none =>
    rw [take_half_none hp]
  | some pending =>
    have h := take_half_trace (g := g) ht hp
    have he : m.take_half (scope, cookie) = ((m.take_half (scope, cookie)).1, some pending) :=
      Prod.ext rfl hp
    rw [he]
    exact (h.trans (resolve_stored_half_trace pending hw ht)).trans settle_bridges_calm.trace

/-! ### Polling -/

theorem poll_action_loop_eq (l : List Action) :
    (∃ action rest skipped, l = skipped ++ action :: rest ∧
        (∀ a ∈ skipped, m.is_superseded_arm a = true) ∧ m.is_superseded_arm action = false ∧
        m.poll_action_loop l = ({ m with actions := rest }.stamp_dispatch action, some action)) ∨
      ((∀ a ∈ l, m.is_superseded_arm a = true) ∧
        m.poll_action_loop l = ({ m with actions := [] }, none)) := by
  induction l with
  | nil => exact .inr ⟨by simp, rfl⟩
  | cons action rest ih =>
    by_cases hs : m.is_superseded_arm action = true
    · have he : m.poll_action_loop (action :: rest) = m.poll_action_loop rest := by
        simp only [Monitor.poll_action_loop, hs, if_true]
      rcases ih with ⟨a, r, sk, rfl, hsk, ha, hp⟩ | ⟨hall, hp⟩
      · exact .inl ⟨a, r, action :: sk, rfl, by simpa [hs] using hsk, ha, he.trans hp⟩
      · exact .inr ⟨by simpa [hs] using hall, he.trans hp⟩
    · refine .inl ⟨action, rest, [], rfl, by simp, eq_false_of_ne_true hs, ?_⟩
      simp only [Monitor.poll_action_loop, if_neg hs]

/-- Superseded arms leave the front of the queue one by one. -/
theorem skip_trace {skipped : List Action} (hc : g.call = some .poll_action) :
    ∀ (rest : List Action), (∀ a ∈ skipped, m.is_superseded_arm a = true) →
      Trace ⟨{ m with actions := skipped ++ rest }, g⟩ ⟨{ m with actions := rest }, g⟩ := by
  induction skipped with
  | nil => exact fun _ _ => .refl
  | cons a l ih =>
    intro rest hs
    have e : Effect ⟨{ m with actions := a :: (l ++ rest) }, g⟩
        ⟨{ m with actions := l ++ rest }, g⟩ :=
      Effect.skip_action (m := { m with actions := a :: (l ++ rest) }) hc rfl (hs a (by simp))
    exact .head e (ih rest fun b hb => hs b (by simp [hb]))

end Proto
