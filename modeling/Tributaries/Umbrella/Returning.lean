import Tributaries.Umbrella.Lossless

/-! # Every turn returns

  The coalescer drains its books under assertions: a batch it finds in its
  deadline queue has to be in its buffer.  Whatever a turn does before it
  drains keeps the books, so no assertion fails, in any run.
-/

open Std Collections

namespace Umbrella

namespace Delivery

variable {C V H : Type} [Ord C] [TransOrd C] [LawfulEqOrd C] [DecidableEq C] [DecidableEq H]
  {G : Subscription → Option (List C × V)} {d d' : Delivery C V H} {a r evs : List (Event C V)}
  {s : Subscription}

/-! ### Drains -/

section
omit [DecidableEq H]

/-- Wherever a turn stands, the coalescer drains. -/
theorem Sound.drains {i : List (Event C V)} {c : Coalescer C V} (h : Sound G ⟨d, i, a, r⟩)
    (hc : d.coalescer = some c) : ∃ out c', c.drain_ready d.clock = some (out, c') := by
  obtain ⟨out, c', hd, -⟩ := Coalescer.drain_waits (h.kept c hc).1 (Nat.le_refl d.clock)
  exact ⟨out, c', hd⟩

end

theorem push_all_returns (h : Sound G ⟨d, evs, [], []⟩) : ∃ d', d.push_all evs = some d' := by
  unfold push_all
  split
  · exact ⟨_, rfl⟩
  · rename_i c hc
    -- the batch is admitted first
    have hnow : Sound G ⟨{ d.now with coalescer := some c }, evs, [], []⟩ := by
      have he : { d.now with coalescer := some c } = d.now := by
        rw [← hc]
        rfl
      rw [he]
      exact h.quiet (quiet_now d)
    obtain ⟨rs, -, hp⟩ := admit_all_path (P := fun _ => True) (d := d.now) (a := []) d.now.far evs
      (fun _ _ => trivial) c []
    obtain ⟨out, c', hd⟩ := (hnow.path hp).drains rfl
    refine ⟨(((admit_all d.now.clock d.now.far c evs).1.foldl park_rescan
      { d.now with coalescer := some c' }).try_emit_all out), ?_⟩
    apply Option.bind_eq_some_iff.mpr
    exact ⟨(out, c'), hd, rfl⟩

section
omit [DecidableEq H]

theorem drain_coalescer_due_returns (h : Sound G (.rest d)) : ∃ d', d.drain_coalescer_due = some d' := by
  unfold drain_coalescer_due
  split
  · exact ⟨_, rfl⟩
  · rename_i c hc
    have hnow : Sound G (.rest d.now) := h.quiet (quiet_now d)
    obtain ⟨out, c', hd⟩ := hnow.drains hc
    refine ⟨({ d.now with coalescer := some c' }).try_emit_all out, ?_⟩
    apply Option.bind_eq_some_iff.mpr
    exact ⟨(out, c'), hd, rfl⟩

end

theorem flush_subscription_now_returns (h : Sound G (.rest d)) (s : Subscription) :
    ∃ clean d', d.flush_subscription_now s = some (clean, d') := by
  unfold flush_subscription_now
  dsimp only
  split
  · exact ⟨_, _, rfl⟩
  · rename_i c hc
    have hnow : Sound G (.rest d.now) := h.quiet (quiet_now d)
    -- a flush makes everything due; the drain after it is as any other
    have hflush : Sound G (.rest { d.now with coalescer := some (c.flush_subscription s d.now.clock) }) :=
      hnow.move (.flush hc)
    obtain ⟨out, c', hd⟩ := hflush.drains rfl
    have hd : (c.flush_subscription s d.now.clock).drain_ready d.now.clock = some (out, c') := hd
    rw [hd]
    exact ⟨_, _, rfl⟩

/-! ### Barriers -/

section
omit [TransOrd C] [LawfulEqOrd C] [DecidableEq C] [DecidableEq H]

/-- A scan returns where every settlement does and keeps what the next one needs. -/
theorem sweep_returns {I : Delivery C V H → Prop} (hit : PendingSync C H → Bool)
    {settle : Delivery C V H → PendingSync C H → Option (Delivery C V H)}
    (hpending : ∀ d l, I d → I { d with pending_syncs := l })
    (hsettle : ∀ d p, I d → ∃ d', settle d p = some d' ∧ I d') (fuel : Nat) :
    ∀ (i : Nat) (d : Delivery C V H), I d → ∃ d', sweep hit settle fuel i d = some d' ∧ I d' := by
  induction fuel with
  | zero => exact fun i d h => ⟨d, rfl, h⟩
  | succ fuel ih =>
    intro i d h
    unfold sweep
    split
    · exact ⟨d, rfl, h⟩
    · rename_i p hp
      split
      · obtain ⟨d₁, hd₁, h₁⟩ := hsettle _ p (hpending d (swap_remove d.pending_syncs i) h)
        obtain ⟨d', hd', h'⟩ := ih i d₁ h₁
        refine ⟨d', ?_, h'⟩
        apply Option.bind_eq_some_iff.mpr
        exact ⟨d₁, hd₁, hd'⟩
      · exact ih (i + 1) d h

/-- Settlements that cannot fail. -/
theorem sweep_all_returns (hit : PendingSync C H → Bool)
    (settle : Delivery C V H → PendingSync C H → Delivery C V H) (d : Delivery C V H) :
    ∃ d', d.sweep_all hit (fun d p => some (settle d p)) = some d' := by
  obtain ⟨d', hd', -⟩ := sweep_returns (I := fun _ : Delivery C V H => True) hit
    (fun _ _ h => h) (fun d p h => ⟨settle d p, rfl, h⟩) d.pending_syncs.length 0 d trivial
  exact ⟨d', hd'⟩

end

section
omit [LawfulEqOrd C] [DecidableEq C] [DecidableEq H]

theorem sound_pending (l : List (PendingSync C H)) (h : Sound G (.rest d)) :
    Sound G (.rest { d with pending_syncs := l }) :=
  h.quiet { Quiet.refl d with }

end

theorem resolve_sync_returns (p : PendingSync C H) (h : Sound G (.rest d)) :
    ∃ d', d.resolve_sync p = some d' ∧ Sound G (.rest d') := by
  have h₁ : Sound G (.rest (d.reap_cookie p.root p.cookie_key)) := h.quiet { Quiet.refl d with }
  obtain ⟨clean, d₁, hd₁⟩ := flush_subscription_now_returns h₁ p.sub
  have hr : ∃ d', d.resolve_sync p = some d' := ⟨_, Option.bind_eq_some_iff.mpr ⟨(clean, d₁), hd₁, rfl⟩⟩
  obtain ⟨d', hd'⟩ := hr
  exact ⟨d', hd', h.path (resolve_sync_path (P := fun _ => True) trivial hd')⟩

theorem resolve_matching_returns (event : SourceEvent C H) (reserved : ReservedEndpoints)
    (h : Sound G (.rest d)) : ∃ d', d.resolve_matching_pending_sync event reserved = some d' := by
  obtain ⟨d', hd', -⟩ := sweep_returns (I := fun d => Sound G (.rest d)) _
    (fun _ l h => sound_pending l h) (fun _ p h => resolve_sync_returns p h) _ 0 d h
  exact ⟨d', hd'⟩

theorem dominate_pending_returns (event : SourceEvent C H) (h : Sound G (.rest d)) :
    ∃ d', d.dominate_pending_syncs event = some d' := by
  have settle : ∀ (d : Delivery C V H) (p : PendingSync C H), Sound G (.rest d) → ∃ d',
      ((d.reap_cookie p.root p.cookie_key).flush_subscription_now p.sub).bind
        (fun flushed => some (flushed.2.reply p.ticket .dominated)) = some d' ∧ Sound G (.rest d') := by
    intro d p h
    have h₁ : Sound G (.rest (d.reap_cookie p.root p.cookie_key)) := h.quiet { Quiet.refl d with }
    obtain ⟨clean, d₁, hd₁⟩ := flush_subscription_now_returns h₁ p.sub
    refine ⟨d₁.reply p.ticket .dominated, Option.bind_eq_some_iff.mpr ⟨(clean, d₁), hd₁, rfl⟩, ?_⟩
    -- the next barrier of the scan starts from sound books
    have h₂ : Sound G (.rest d₁) := h₁.path (flush_subscription_now_path (P := fun _ => True) trivial hd₁)
    exact h₂.quiet { Quiet.refl d₁ with }
  obtain ⟨d', hd', -⟩ := sweep_returns (I := fun d => Sound G (.rest d)) _ (fun _ l h => sound_pending l h)
    settle _ 0 d.note_domination (h.quiet (quiet_note_domination d))
  exact ⟨d', hd'⟩

section
omit [TransOrd C] [LawfulEqOrd C] [DecidableEq C] [DecidableEq H]

theorem on_sync_returns (d : Delivery C V H) (req : SyncRequest) (begun : Begun C) :
    ∃ d', d.on_sync req begun = some d' := by
  unfold on_sync
  split
  · exact ⟨_, rfl⟩
  split
  · exact ⟨_, rfl⟩
  · obtain ⟨d₁, hd₁⟩ := sweep_all_returns (fun p => d.canceled.contains p.ticket)
      (fun d p => d.reap_cookie p.root p.cookie_key) d
    have hd₁ : d.prune_abandoned_syncs = some d₁ := hd₁
    rw [hd₁]
    dsimp only [bind, Option.bind, pure]
    split
    · exact ⟨_, rfl⟩
    · split
      · exact ⟨_, rfl⟩
      · split
        · exact ⟨_, rfl⟩
        · exact ⟨_, rfl⟩
        · exact ⟨_, rfl⟩
        · exact ⟨_, rfl⟩

end

/-! ### Source events -/

section
omit [TransOrd C] [LawfulEqOrd C] [DecidableEq C] [DecidableEq H]

theorem dominate_subscription_returns (d : Delivery C V H) (s : Subscription) :
    ∃ d', d.dominate_syncs_of_subscription s = some d' :=
  sweep_all_returns _ _ d.note_domination

end

section
omit [LawfulEqOrd C] [DecidableEq H]

theorem quarantine_filter_returns (d : Delivery C V H) (s : Subscription) :
    ∃ d', d.quarantine_filter s = some d' := by
  unfold quarantine_filter
  split
  · exact ⟨_, rfl⟩
  · split
    · exact ⟨_, rfl⟩
    · exact dominate_subscription_returns _ s

end

section
omit [TransOrd C] [LawfulEqOrd C] [DecidableEq C] [DecidableEq H]

theorem foldlM_returns {α : Type} {f : Delivery C V H → α → Option (Delivery C V H)}
    (hf : ∀ d x, ∃ d', f d x = some d') (l : List α) : ∀ d, ∃ d', l.foldlM f d = some d' := by
  induction l with
  | nil => exact fun d => ⟨d, rfl⟩
  | cons x l ih =>
    intro d
    obtain ⟨d₁, hd₁⟩ := hf d x
    obtain ⟨d', hd'⟩ := ih d₁
    refine ⟨d', ?_⟩
    rw [List.foldlM_cons]
    exact Option.bind_eq_some_iff.mpr ⟨d₁, hd₁, hd'⟩

end

theorem fan_out_and_push_returns (raw : SourceEvent C H) (order : List Subscription) (gate : Gate C)
    (h : Sound G (.rest d)) : ∃ reserved d', d.fan_out_and_push raw order gate = some (reserved, d') := by
  unfold fan_out_and_push
  dsimp only
  split
  · exact ⟨_, _, rfl⟩
  · have hmint : Path (fun _ => True) (Flight.rest d)
        ⟨(d.fan_out_raw raw (d.reserved_endpoints raw) order gate).2.2,
          (d.fan_out_raw raw (d.reserved_endpoints raw) order gate).1, [], []⟩ :=
      fan_out_raw_path (i := []) fun _ _ => trivial
    have h₁ := h.path hmint
    generalize d.fan_out_raw raw (d.reserved_endpoints raw) order gate = result at h₁
    obtain ⟨fanned, poisoned, d₁⟩ := result
    dsimp only at h₁ ⊢
    split
    · obtain ⟨d₂, hd₂⟩ := push_all_returns h₁
      exact ⟨_, d₂, Option.map_eq_some_iff.mpr ⟨d₂, hd₂, rfl⟩⟩
    · obtain ⟨d₂, hd₂⟩ := foldlM_returns quarantine_filter_returns poisoned d₁
      have hd₂ : d₁.quarantine_filters poisoned = some d₂ := hd₂
      have hp : Path (fun _ => True) ⟨d₁, fanned, [], []⟩
          ⟨d₂.try_emit_all (fanned.filter fun ev => poisoned.contains ev.subscription),
            fanned.filter fun ev => !poisoned.contains ev.subscription, [], []⟩ :=
        (quarantine_filters_path trivial poisoned (fun _ _ => trivial) d₁ hd₂).trans
          ((pass_path trivial fun s => poisoned.contains s).trans (try_emit_all_path trivial _ d₂))
      -- the quarantined go past the coalescer, the rest through it
      obtain ⟨d₃, hd₃⟩ := push_all_returns (h₁.path hp)
      rw [List.partition_eq_filter_filter]
      exact ⟨_, d₃, Option.bind_eq_some_iff.mpr ⟨d₂, hd₂, Option.bind_eq_some_iff.mpr ⟨d₃, hd₃, rfl⟩⟩⟩

/-! ### Turns -/

section
omit [LawfulEqOrd C]

theorem rescan_live_root_returns (d : Delivery C V H) (root : H) (root_key : List C)
    (order : List Subscription) : ∃ d', d.rescan_live_root root root_key order = some d' := by
  unfold rescan_live_root
  dsimp only
  split
  · exact ⟨_, rfl⟩
  · exact sweep_all_returns _ _ (note_domination _)

theorem retire_root_returns (d : Delivery C V H) (handle : H) (root_key : List C)
    (order : List Subscription) :
    ∃ d', d.retire_root_with_terminal_rescan handle root_key order = some d' := by
  obtain ⟨d₁, hd₁⟩ := rescan_live_root_returns d handle root_key order
  exact ⟨_, Option.bind_eq_some_iff.mpr ⟨d₁, hd₁, rfl⟩⟩

end

theorem repoint_and_push_returns {handle : H} {fs_key : List C} {moved : List Subscription}
    (h : Sound G (.rest d)) (hl : ∀ s ∈ moved, ∃ key value, d.grant_of s = some (key, value)) :
    ∃ d', d.repoint_and_push handle fs_key moved = some d' := by
  have hp : Path (fun _ => True) (Flight.rest d) ⟨(d.repoint_all handle fs_key moved).2,
      (d.repoint_all handle fs_key moved).1, [], []⟩ :=
    repoint_all_path trivial handle fs_key moved (fun _ _ => trivial) ([], d) hl
  obtain ⟨d₁, hd₁⟩ := push_all_returns (h.path hp)
  obtain ⟨d', hd'⟩ := foldlM_returns dominate_subscription_returns moved d₁
  exact ⟨d', Option.bind_eq_some_iff.mpr ⟨d₁, hd₁, hd'⟩⟩

section
omit [LawfulEqOrd C] [DecidableEq C] [DecidableEq H]

theorem release_returns (d : Delivery C V H) (s : Subscription) :
    ∃ d', d.release_subscription s = some d' := by
  obtain ⟨d₁, hd₁⟩ := sweep_all_returns (fun p => decide (p.sub = s))
    (fun d p => d.settle_sync .retired p) d
  unfold release_subscription
  have hd₁ : d.retire_syncs_of_subscription s = some d₁ := hd₁
  rw [hd₁]
  dsimp only [bind, Option.bind, pure]
  split
  · exact ⟨_, rfl⟩
  · exact ⟨_, rfl⟩

end

theorem consume_source_event_returns (event : SourceEvent C H) (root_key : Option (List C))
    (recorded : List C) (order : List Subscription) (gate : Gate C) (h : Sound G (.rest d)) :
    ∃ d', d.consume_source_event event root_key recorded order gate = some d' := by
  unfold consume_source_event
  split
  · obtain ⟨d₁, hd₁⟩ := retire_root_returns d event.handle recorded order
    obtain ⟨d', hd'⟩ := drain_coalescer_due_returns (retire_root_sound h hd₁)
    exact ⟨d', Option.bind_eq_some_iff.mpr ⟨d₁, hd₁, hd'⟩⟩
  · dsimp only
    obtain ⟨reserved, d₁, hd₁⟩ := fan_out_and_push_returns (clamped root_key event) order gate h
    obtain ⟨d₀, -, hmint, hpush⟩ := fan_out_and_push_path hd₁
    have h₁ : Sound G (.rest d₁) := (h.path hmint).path hpush
    obtain ⟨d₂, hd₂⟩ := drain_coalescer_due_returns h₁
    have h₂ : Sound G (.rest d₂) :=
      h₁.path (drain_coalescer_due_path (P := fun _ => True) trivial hd₂)
    rw [hd₁]
    dsimp only [bind, Option.bind]
    rw [hd₂]
    dsimp only
    split
    · exact dominate_pending_returns _ h₂
    · split
      · exact resolve_matching_returns _ reserved h₂
      · exact ⟨_, rfl⟩

/-- Every turn returns. -/
theorem step_returns (op : Op C V H) (h : Sound G (.rest d)) : ∃ d', d.step op = some d' := by
  cases op with
  | commit_watch root key value debounce => exact ⟨_, rfl⟩
  | commit_widen handle fs_key key value debounce repointed =>
    have hl : ∀ s ∈ repointed.filter (fun sub => d.subs.contains sub), ∃ k v,
        (d.commit_watch handle key value debounce).grant_of s = some (k, v) := by
      intro s hs
      obtain ⟨k, v, hg⟩ := contains_grant (List.mem_filter.mp hs).2
      exact ⟨k, v, (commit_keeps h hg).1⟩
    have hr : ∃ d₁, (d.commit_watch handle key value debounce).repoint_and_push handle fs_key
        (repointed.filter fun sub => d.subs.contains sub) = some d₁ :=
      repoint_and_push_returns (h.commit_watch handle key value debounce) hl
    obtain ⟨d₁, hd₁⟩ := hr
    exact ⟨_, Option.bind_eq_some_iff.mpr ⟨d₁, hd₁, rfl⟩⟩
  | restore_disarmed_root old new_handle root_key order => exact repoint_and_push_returns h restore_live
  | rescan_live_root root root_key order => exact rescan_live_root_returns d root root_key order
  | retire_root handle root_key order => exact retire_root_returns d handle root_key order
  | claim sub => exact ⟨_, rfl⟩
  | drop_orphan sub | unwatch sub => exact release_returns d sub
  | source_event event root_key recorded order gate =>
    exact consume_source_event_returns event root_key recorded order gate h
  | flush_pending_rescans => exact ⟨_, rfl⟩
  | drain_coalescer_due => exact drain_coalescer_due_returns h
  | drain_owed_once => exact ⟨_, rfl⟩
  | sync sub => exact ⟨_, rfl⟩
  | on_sync begun =>
    unfold step
    dsimp only
    split
    · exact ⟨_, rfl⟩
    · exact on_sync_returns _ _ begun
  | abandon ticket => exact ⟨_, rfl⟩
  | prune_abandoned_syncs => exact sweep_all_returns _ _ d
  | source_forgot => exact ⟨_, rfl⟩
  | teardown => exact ⟨_, rfl⟩
  | recv => exact ⟨_, rfl⟩
  | hang_up => exact ⟨_, rfl⟩

theorem run_returns_from {instance_id : InstanceId} (ops : List (Op C V H)) :
    ∀ (done : List (Op C V H)) (d : Delivery C V H), Standing instance_id done d →
      ∃ d', d.run ops = some d' := by
  induction ops with
  | nil => exact fun done d h => ⟨d, rfl⟩
  | cons op ops ih =>
    intro done d h
    obtain ⟨d₁, hd₁⟩ := step_returns op h.sound
    obtain ⟨d', hd'⟩ := ih _ d₁ (standing_step h hd₁)
    refine ⟨d', ?_⟩
    unfold run
    rw [List.foldlM_cons]
    exact Option.bind_eq_some_iff.mpr ⟨d₁, hd₁, hd'⟩

/-- No assertion of the coalescer fails in any run. -/
theorem run_returns (instance_id : InstanceId) (capacity : Nat) (debounce : Option DebounceConfig)
    (is_sync_artifact : List C → Bool) (elapsed : Nat → Nat) (far_future : Nat → Instant)
    (forgets : Nat → Bool)
    (ops : List (Op C V H)) : ∃ d, (new (V := V) (H := H) instance_id capacity debounce
      is_sync_artifact elapsed far_future forgets).run ops = some d :=
  run_returns_from ops [] _ (standing_new _ _ _ _ _ _ _)

theorem run_returns_burst : ∃ d, settling.run (opened ++ created_at [1, 2] :: burst) = some d :=
  run_returns _ _ _ _ _ _ _ (opened ++ created_at [1, 2] :: burst)

end Delivery

end Umbrella
