import Tributaries.Umbrella.Barriers

/-! # What a barrier's window holds

  A barrier reads two clocks: the shared one when its caller asks for it, and
  that of its subscription when its cookie is installed.  Whatever loses a
  change moves both, or leaves no barrier of the subscription waiting.  So a
  barrier answered as delivered vouches for every change taken on since it was
  asked for: each was told itself, and not by a `Rescan` in its place.
-/

open Std Collections

namespace Umbrella

namespace Delivery

variable {C V H : Type} [Ord C] [TransOrd C] [LawfulEqOrd C] [DecidableEq C] [DecidableEq H]
  {G : Subscription → Option (List C × V)} {d d' d₀ d₁ : Delivery C V H}
  {s : Subscription} {x ev : Event C V} {n : Nat}

/-! ### What a scan leaves -/

section
omit [TransOrd C] [LawfulEqOrd C] [DecidableEq C] [DecidableEq H]

/-- No barrier that a scan hits is left waiting. -/
theorem swept {hit : PendingSync C H → Bool}
    {settle : Delivery C V H → PendingSync C H → Option (Delivery C V H)}
    (hsettle : ∀ d p d', settle d p = some d' → d'.pending_syncs = d.pending_syncs)
    (h : d.sweep_all hit settle = some d') : ∀ p ∈ d'.pending_syncs, hit p = false := by
  intro p hp
  have hleft := sweep_left hsettle d.pending_syncs.length 0 d d' (Nat.le_add_left _ _)
    (fun p hp => absurd hp (by simp)) h
  obtain ⟨-, hmiss⟩ := List.mem_filter.mp (hleft.mem_iff.mp hp)
  simpa using hmiss

theorem settle_pending {answer : SyncAnswer} (d : Delivery C V H) (p : PendingSync C H)
    (d' : Delivery C V H) (h : some (d.settle_sync answer p) = some d') :
    d'.pending_syncs = d.pending_syncs := by
  obtain rfl := Option.some.inj h
  rfl

theorem dominate_subscription_left (h : d.dominate_syncs_of_subscription s = some d') :
    ∀ p ∈ d'.pending_syncs, p.sub ≠ s :=
  fun p hp => of_decide_eq_false (swept settle_pending h p hp)

end

section
omit [TransOrd C] [LawfulEqOrd C] [DecidableEq C]

theorem dominate_root_left {root : H} (h : d.dominate_syncs_of_root root = some d') :
    ∀ p ∈ d'.pending_syncs, p.root ≠ root :=
  fun p hp => of_decide_eq_false (swept settle_pending h p hp)

end

section
omit [TransOrd C] [LawfulEqOrd C] [DecidableEq C] [DecidableEq H]

theorem retire_subscription_left (h : d.retire_syncs_of_subscription s = some d') :
    ∀ p ∈ d'.pending_syncs, p.sub ≠ s :=
  fun p hp => of_decide_eq_false (swept settle_pending h p hp)

end

/-! ### Where barriers wait -/

/-- Every barrier waits at the root that its subscription is at. -/
def Moored (d : Delivery C V H) : Prop :=
  ∀ p ∈ d.pending_syncs, ∃ granted, d.subs[p.sub]? = some granted ∧ granted.root = p.root

section
omit [TransOrd C] [LawfulEqOrd C] [DecidableEq C] [DecidableEq H]

theorem Moored.kept (h : Moored d) (hp : ∀ p ∈ d'.pending_syncs, p ∈ d.pending_syncs ∧
    d'.subs[p.sub]? = d.subs[p.sub]?) : Moored d' := by
  intro p hm
  obtain ⟨hm, hs⟩ := hp p hm
  rw [hs]
  exact h p hm

end

/-- No barrier is asked for or begun, and every subscription stays where it is. -/
structure Steady (d d' : Delivery C V H) : Prop where
  subs : d'.subs = d.subs
  commands : ∀ req ∈ d'.sync_commands, req ∈ d.sync_commands
  pending : ∀ p ∈ d'.pending_syncs, p ∈ d.pending_syncs
  issued : d'.next_ticket = d.next_ticket

section
omit [TransOrd C] [LawfulEqOrd C] [DecidableEq C] [DecidableEq H]

theorem Steady.moored (h : Steady d d') (hm : Moored d) : Moored d' :=
  hm.kept fun p hp => ⟨h.pending p hp, by rw [h.subs]⟩

theorem steady_filing : Filing (Steady (C := C) (V := V) (H := H)) where
  same := by
    intro d d' h
    have hc : d'.sync_commands = d.sync_commands := congrArg Desk.commands h
    have hp : d'.pending_syncs = d.pending_syncs := congrArg Desk.pending h
    exact ⟨congrArg Desk.subs h, fun req hm => hc ▸ hm, fun p hm => hp ▸ hm, congrArg Desk.next_ticket h⟩
  trans h₁ h₂ := ⟨h₂.subs.trans h₁.subs, fun req hr => h₁.commands req (h₂.commands req hr),
    fun p hp => h₁.pending p (h₂.pending p hp), h₂.issued.trans h₁.issued⟩
  answered := by
    intro d d' i p answer hp _ h
    have hc : d'.sync_commands = d.sync_commands := congrArg Desk.commands h
    have hpending : d'.pending_syncs = swap_remove d.pending_syncs i := congrArg Desk.pending h
    exact ⟨congrArg Desk.subs h, fun req hm => hc ▸ hm,
      fun p' hm => mem_swap_remove hp (hpending ▸ hm), congrArg Desk.next_ticket h⟩

end

section
omit [LawfulEqOrd C]

theorem resolve_steady {event : SourceEvent C H} {reserved : ReservedEndpoints}
    (h : d.resolve_matching_pending_sync event reserved = some d') : Steady d d' := by
  have hR := steady_filing (C := C) (V := V) (H := H)
  refine sweep_settles hR.refl hR.trans (fun d i p d' hp _ hs => ?_) _ _ _ _ h
  obtain ⟨⟨clean, d₁⟩, hd₁, hs⟩ := Option.bind_eq_some_iff.mp hs
  obtain rfl := Option.some.inj hs
  have hdesk := flush_now_desk hd₁
  have hc : d₁.sync_commands = d.sync_commands := congrArg Desk.commands hdesk
  have hpending : d₁.pending_syncs = swap_remove d.pending_syncs i := congrArg Desk.pending hdesk
  exact ⟨congrArg Desk.subs hdesk, fun req hm => hc ▸ hm,
    fun p' hm => mem_swap_remove hp (hpending ▸ hm), congrArg Desk.next_ticket hdesk⟩

end

section
omit [TransOrd C] [LawfulEqOrd C] [DecidableEq C] [DecidableEq H]

theorem prune_steady (h : d.prune_abandoned_syncs = some d') : Steady d d' := by
  have hundelivered := prune_undelivered h
  exact ⟨(prune_pruned h).subs, hundelivered.commands, hundelivered.pending, hundelivered.issued⟩

theorem teardown_steady (d : Delivery C V H) : Steady d d.reap_all_pending_syncs.close_sync_commands := by
  have hR := steady_filing (C := C) (V := V) (H := H)
  refine teardown_keeps hR.refl hR.trans (fun d => ⟨?_, ?_⟩) (fun d p => ?_) (fun d ticket => ?_) d
  · exact ⟨rfl, fun req hm => hm, fun p hm => absurd hm List.not_mem_nil, rfl⟩
  · exact ⟨rfl, fun req hm => absurd hm List.not_mem_nil, fun p hm => hm, rfl⟩
  · exact ⟨rfl, fun req hm => hm, fun p hm => hm, rfl⟩
  · exact ⟨rfl, fun req hm => hm, fun p hm => hm, rfl⟩

end

/-- A source event of a live root. -/
theorem source_event_steady {event : SourceEvent C H} {root_key : Option (List C)} {recorded : List C}
    {order : List Subscription} {gate : Gate C} (hk : root_key.isNone = false)
    (hr : d.consume_source_event event root_key recorded order gate = some d') : Steady d d' := by
  have hR := steady_filing (C := C) (V := V) (H := H)
  obtain ⟨reserved, d₁, d₂, hd₁, hd₂, hr⟩ := source_event_eq hk hr
  have hbefore : Steady d d₂ :=
    hR.trans (hR.fan_out_and_push hd₁) (hR.same (drain_coalescer_due_desk hd₂))
  rcases hr with ⟨-, hr⟩ | hr | rfl
  · exact hR.trans hbefore (hR.dominate_pending hr)
  · exact hR.trans hbefore (resolve_steady hr)
  · exact hbefore

/-! ### Roots that end, and subscriptions that move -/

/-- What retiring subscriptions leaves as it is. -/
structure Retired (l : List Subscription) (d d' : Delivery C V H) : Prop where
  pending : d'.pending_syncs = d.pending_syncs
  gen : d'.loss_gen = d.loss_gen
  subs : ∀ t ∉ l, d'.subs[t]? = d.subs[t]?
  serial : ∀ t ∉ l, d'.loss_count t = d.loss_count t

section
omit [LawfulEqOrd C] [DecidableEq C] [DecidableEq H]

theorem retire_all_retired (l : List Subscription) : ∀ d : Delivery C V H,
    Retired l d (l.foldl retire_one d) := by
  induction l with
  | nil => exact fun d => ⟨rfl, rfl, fun _ _ => rfl, fun _ _ => rfl⟩
  | cons s l ih =>
    intro d
    have hrest := ih (d.retire_one s)
    refine ⟨hrest.pending, hrest.gen, fun t ht => ?_, fun t ht => ?_⟩
    · obtain ⟨hne, ht⟩ := not_or.mp (mt List.mem_cons.mpr ht)
      refine (hrest.subs t ht).trans ?_
      show (d.subs.erase s)[t]? = _
      rw [get_erase, if_neg (Ne.symm hne)]
    · obtain ⟨hne, ht⟩ := not_or.mp (mt List.mem_cons.mpr ht)
      refine (hrest.serial t ht).trans ?_
      show ((d.loss_serial.erase s)[t]?).getD 0 = _
      rw [get_erase, if_neg (Ne.symm hne)]
      rfl

end

section
omit [LawfulEqOrd C]

/-- No barrier of a root's subscribers is left waiting when it is rescanned. -/
theorem rescan_live_root_left {root : H} {root_key : List C} {order : List Subscription} (hm : Moored d)
    (h : d.rescan_live_root root root_key order = some d') :
    ∀ s ∈ d.subscribers_of root order, ∀ p ∈ d'.pending_syncs, p.sub ≠ s := by
  intro s hs p hp he
  have hsteady : Steady d d' := steady_filing.rescan_live_root h
  obtain ⟨granted, hg, hroot⟩ := hm p (hsteady.pending p hp)
  obtain ⟨-, hany⟩ := List.mem_filter.mp hs
  rw [← he, hg] at hany
  have hat : granted.root = root := of_decide_eq_true hany
  unfold rescan_live_root at h
  dsimp only at h
  split at h
  · rename_i hnone
    rw [List.isEmpty_iff.mp hnone] at hs
    cases hs
  · exact dominate_root_left h p hp (hroot.symm.trans hat)

end

/-- A re-point ends the barriers of what it moves, and leaves the others where they are. -/
structure Repointed (moved : List Subscription) (d d' : Delivery C V H) : Prop where
  left : ∀ s ∈ moved, ∀ p ∈ d'.pending_syncs, p.sub ≠ s
  pending : ∀ p ∈ d'.pending_syncs, p ∈ d.pending_syncs
  subs : ∀ t ∉ moved, d'.subs[t]? = d.subs[t]?

section
omit [LawfulEqOrd C] [DecidableEq H]

theorem repoint_repointed {handle : H} {fs_key : List C} {moved : List Subscription}
    (h : d.repoint_and_push handle fs_key moved = some d') : Repointed moved d d' := by
  have hR := steady_filing (C := C) (V := V) (H := H)
  have moves : ∀ (l : List Subscription) (acc : List (Event C V) × Delivery C V H),
      (l.foldl (repoint_one handle fs_key) acc).2.pending_syncs = acc.2.pending_syncs ∧
      ∀ t ∉ l, (l.foldl (repoint_one handle fs_key) acc).2.subs[t]? = acc.2.subs[t]? := by
    intro l
    induction l with
    | nil => exact fun acc => ⟨rfl, fun _ _ => rfl⟩
    | cons s l ih =>
      intro acc
      obtain ⟨hp, hs⟩ := ih (repoint_one handle fs_key acc s)
      refine ⟨hp, fun t ht => ?_⟩
      obtain ⟨hne, ht⟩ := not_or.mp (mt List.mem_cons.mpr ht)
      refine (hs t ht).trans ?_
      show (acc.2.subs.modify s fun g => { g with root := handle })[t]? = _
      rw [get_modify, if_neg (Ne.symm hne)]
  have dominates : ∀ (l : List Subscription) (d d' : Delivery C V H),
      l.foldlM dominate_syncs_of_subscription d = some d' →
      Steady d d' ∧ ∀ s ∈ l, ∀ p ∈ d'.pending_syncs, p.sub ≠ s := by
    intro l
    induction l with
    | nil =>
      intro d d' h
      obtain rfl := Option.some.inj h
      exact ⟨hR.refl d, fun s hs => absurd hs List.not_mem_nil⟩
    | cons s l ih =>
      intro d d' h
      rw [List.foldlM_cons] at h
      obtain ⟨d₁, hd₁, h⟩ := Option.bind_eq_some_iff.mp h
      obtain ⟨hsteady, hleft⟩ := ih d₁ d' h
      refine ⟨hR.trans (hR.dominate_subscription hd₁) hsteady, fun t ht p hp => ?_⟩
      rcases List.mem_cons.mp ht with rfl | ht
      · exact dominate_subscription_left hd₁ p (hsteady.pending p hp)
      · exact hleft t ht p hp
  obtain ⟨d₁, hd₁, h⟩ := Option.bind_eq_some_iff.mp h
  obtain ⟨hp, hs⟩ := moves moved ([], d)
  obtain ⟨hsteady, hleft⟩ := dominates moved d₁ d' h
  have hpush : Steady (d.repoint_all handle fs_key moved).2 d₁ := hR.same (push_all_desk hd₁)
  have hall := hR.trans hpush hsteady
  refine ⟨hleft, fun p hm => ?_, fun t ht => ?_⟩
  · rw [← hp]
    exact hall.pending p hm
  · rw [hall.subs]
    exact hs t ht

end

section
omit [LawfulEqOrd C]

theorem retire_root_moored {handle : H} {root_key : List C} {order : List Subscription} (hm : Moored d)
    (h : d.retire_root_with_terminal_rescan handle root_key order = some d') : Moored d' := by
  obtain ⟨d₁, hd₁, rfl⟩ := retire_root_eq h
  have hsteady : Steady d d₁ := steady_filing.rescan_live_root hd₁
  have hretired := retire_all_retired (d.subscribers_of handle order) d₁
  refine (hsteady.moored hm).kept fun p hp => ?_
  rw [hretired.pending] at hp
  refine ⟨hp, hretired.subs p.sub fun hs => ?_⟩
  exact rescan_live_root_left hm hd₁ p.sub hs p hp rfl

end

theorem repoint_moored {handle : H} {fs_key : List C} {moved : List Subscription} (hm : Moored d)
    (h : d.repoint_and_push handle fs_key moved = some d') : Moored d' := by
  have hr := repoint_repointed h
  exact hm.kept fun p hp => ⟨hr.pending p hp, hr.subs p.sub fun hs => hr.left p.sub hs p hp rfl⟩

section
omit [DecidableEq C] [DecidableEq H]

theorem commit_moored (h : Sound G (.rest d)) (hm : Moored d) (root : H) (key : List C) (value : V)
    (debounce : Debounce) : Moored (d.commit_watch root key value debounce) := by
  refine hm.kept fun p hp => ?_
  obtain ⟨coalescer, he, -⟩ := commit_watch_eq h root key value debounce
  rw [he] at hp ⊢
  obtain ⟨granted, hg, -⟩ := hm p hp
  -- a barrier's subscription is in the tables, and the new name is not
  have hne : p.sub ≠ d.next_subscription := fresh_ne h (grant_of_eq hg)
  refine ⟨hp, ?_⟩
  show (d.subs.insert d.next_subscription _)[p.sub]? = _
  rw [get_insert, if_neg (Ne.symm hne)]

end

section
omit [TransOrd C] [LawfulEqOrd C] [DecidableEq C] [DecidableEq H]

theorem on_sync_moored {req : SyncRequest} {begun : Begun C} (hm : Moored d)
    (h : d.on_sync req begun = some d') : Moored d' := by
  cases on_sync_taken h with
  | gone hc => exact hm
  | declined hc hq => exact hm
  | refused hc hq hd ha hw => exact (prune_steady hd).moored hm
  | left hc hq hd hroom hg hb => exact (prune_steady hd).moored hm
  | @admitted d₁ granted cookie_key hc hq hd hroom hg hb =>
    intro p hp
    rcases List.mem_append.mp hp with hp | hp
    · exact (prune_steady hd).moored hm p hp
    · rw [List.mem_singleton.mp hp]
      exact ⟨granted, hg, rfl⟩
  | given_up hc hq hd hb => exact (prune_steady hd).moored hm

end

theorem source_event_moored {event : SourceEvent C H} {root_key : Option (List C)} {recorded : List C}
    {order : List Subscription} {gate : Gate C} (hm : Moored d)
    (hr : d.consume_source_event event root_key recorded order gate = some d') : Moored d' := by
  cases hk : root_key.isNone with
  | true =>
    obtain ⟨d₁, hd₁, hr⟩ := source_event_gone hk hr
    exact (steady_filing.same (drain_coalescer_due_desk hr)).moored (retire_root_moored hm hd₁)
  | false => exact (source_event_steady hk hr).moored hm

/-- Every turn keeps every barrier at the root of its subscription. -/
theorem step_moored {op : Op C V H} (h : Sound G (.rest d)) (hm : Moored d)
    (hs : d.step op = some d') : Moored d' := by
  have hR := steady_filing (C := C) (V := V) (H := H)
  cases op with
  | commit_watch root key value debounce =>
    obtain rfl := Option.some.inj hs
    exact commit_moored h hm root key value debounce
  | commit_widen handle fs_key key value debounce repointed =>
    obtain ⟨d₁, hr, rfl⟩ := commit_widen_eq hs
    have h₁ : Moored d₁ := repoint_moored (commit_moored h hm handle key value debounce) hr
    exact h₁
  | restore_disarmed_root old new_handle root_key order => exact repoint_moored hm hs
  | rescan_live_root root root_key order => exact (hR.rescan_live_root hs).moored hm
  | retire_root handle root_key order => exact retire_root_moored hm hs
  | claim sub =>
    obtain rfl := Option.some.inj hs
    obtain ⟨needs, suppressed, he, -⟩ := claim_eq h sub
    rw [he]
    exact hm
  | drop_orphan sub | unwatch sub =>
    obtain ⟨d₁, hd₁, hs⟩ := release_subscription_eq hs
    have h₁ := (hR.retire_subscription hd₁).moored hm
    rcases hs with ⟨-, rfl⟩ | ⟨-, rfl⟩
    · exact h₁
    · refine h₁.kept fun p hp => ⟨hp, ?_⟩
      show (d₁.subs.erase sub)[p.sub]? = _
      rw [get_erase, if_neg (Ne.symm (retire_subscription_left hd₁ p hp))]
  | source_event event root_key recorded order gate => exact source_event_moored hm hs
  | flush_pending_rescans =>
    obtain rfl := Option.some.inj hs
    exact (hR.same (flush_pending_rescans_desk d)).moored hm
  | drain_coalescer_due => exact (hR.same (drain_coalescer_due_desk hs)).moored hm
  | drain_owed_once =>
    obtain rfl := Option.some.inj hs
    exact (hR.same (drain_owed_once_desk d)).moored hm
  | on_sync begun =>
    rcases on_sync_turn hs with rfl | ⟨req, rest, -, hs⟩
    · exact hm
    · have h₁ : Moored ({ d with sync_commands := rest } : Delivery C V H) := hm
      exact on_sync_moored h₁ hs
  | abandon ticket =>
    obtain rfl := Option.some.inj hs
    split
    · exact hm
    · exact hm
  | prune_abandoned_syncs => exact (prune_steady hs).moored hm
  | teardown =>
    obtain rfl := Option.some.inj hs
    exact (teardown_steady d).moored hm
  | sync | source_forgot | recv | hang_up =>
    obtain rfl := Option.some.inj hs
    exact hm

/-! ### The clocks of a turn -/

/-- The shared clock only moves on, and so does that of a subscription until it leaves the
    tables, for good. -/
theorem Stage.clocks {R : Subscription → Prop} (h : Sound G (.rest d)) (hs : Stage R d d') :
    d.loss_gen ≤ d'.loss_gen ∧ (d.grant_of s ≠ none →
      d'.grant_of s ≠ none ∧ d.loss_count s ≤ d'.loss_count s ∨ d'.Departed s) := by
  have live : ∀ {d'' : Delivery C V H}, d''.minted = d.minted → d''.grant_of s = none →
      d.grant_of s ≠ none → d''.Departed s := by
    intro d'' hm hg hl
    obtain ⟨g, hl⟩ := Option.ne_none_iff_exists'.mp hl
    exact ⟨hm ▸ h.minted s g (h.live s g hl), hg⟩
  cases hs with
  | path hp =>
    obtain ⟨hserial, hgen⟩ := path_clocks h hp
    exact ⟨hgen, fun hl => .inl ⟨fun hn => hl ((path_grants h hp s).symm.trans hn), hserial s⟩⟩
  | commit root key value debounce =>
    obtain ⟨coalescer, he, -⟩ := commit_watch_eq h root key value debounce
    refine ⟨Nat.le_of_eq (by rw [he]), fun hl => .inl ⟨?_, Nat.le_of_eq (by rw [he]; rfl)⟩⟩
    obtain ⟨⟨k, v⟩, hl⟩ := Option.ne_none_iff_exists'.mp hl
    rw [(commit_keeps h hl).1]
    exact Option.some_ne_none _
  | grant hs hi => exact ⟨Nat.le_refl _, fun hl => .inl ⟨hl, Nat.le_refl _⟩⟩
  | claim t =>
    obtain ⟨hg, -⟩ := claim_grant (s := s) h t
    obtain ⟨needs, suppressed, he, -⟩ := claim_eq h t
    refine ⟨Nat.le_of_eq (by rw [he]), fun hl => .inl ⟨?_, Nat.le_of_eq (by rw [he]; rfl)⟩⟩
    rw [hg]
    exact hl
  | @retire t hs =>
    refine ⟨Nat.le_refl _, fun hl => ?_⟩
    by_cases ht : t = s
    · exact .inr (live rfl (by rw [retire_grant, if_pos ht]) hl)
    · refine .inl ⟨by rw [retire_grant, if_neg ht]; exact hl, ?_⟩
      show _ ≤ ((d.loss_serial.erase t)[s]?).getD 0
      rw [get_erase, if_neg ht]
      exact Nat.le_refl _
  | @release t hs =>
    refine ⟨Nat.le_refl _, fun hl => ?_⟩
    have hg : (d.release_one t).grant_of s = if t = s then none else d.grant_of s := retire_grant d t s
    by_cases ht : t = s
    · exact .inr (live rfl (by rw [hg, if_pos ht]) hl)
    · refine .inl ⟨by rw [hg, if_neg ht]; exact hl, ?_⟩
      show _ ≤ ((d.loss_serial.erase t)[s]?).getD 0
      rw [get_erase, if_neg ht]
      exact Nat.le_refl _
  | channel hs hc => exact ⟨Nat.le_refl _, fun hl => .inl ⟨hl, Nat.le_refl _⟩⟩

/-- Over a turn, for a subscription that is in the tables before and after it. -/
theorem step_clocks {op : Op C V H} (h : Sound G (.rest d)) (hs : d.step op = some d') :
    d.loss_gen ≤ d'.loss_gen ∧ (d.grant_of s ≠ none → d'.grant_of s ≠ none →
      d.loss_count s ≤ d'.loss_count s) := by
  have hkept := ((step_stages h hs).keep (I := fun d' => d.loss_gen ≤ d'.loss_gen ∧
    (d.grant_of s ≠ none → d'.grant_of s ≠ none ∧ d.loss_count s ≤ d'.loss_count s ∨
      d'.Departed s)) (fun G d₁ d₂ h₁ hi hs => ?_) h
    ⟨Nat.le_refl _, fun hl => .inl ⟨hl, Nat.le_refl _⟩⟩).1
  · refine ⟨hkept.1, fun hl hl' => ?_⟩
    rcases hkept.2 hl with ⟨-, hle⟩ | hd
    · exact hle
    · exact absurd hd.dead hl'
  · obtain ⟨hgen, hserial⟩ := hs.clocks (s := s) h₁
    refine ⟨Nat.le_trans hi.1 hgen, fun hl => ?_⟩
    rcases hi.2 hl with ⟨hl₁, hle⟩ | hd
    · exact (hserial hl₁).imp_left fun hl₂ => ⟨hl₂.1, Nat.le_trans hle hl₂.2⟩
    · exact .inr (hd.stage h₁ hs)

/-! ### What a turn carries -/

/-- A turn lost what it held of `s`: the shared clock moved, and the subscription's own, or
    no barrier of it waits any more. -/
def Lost (d d' : Delivery C V H) (s : Subscription) : Prop :=
  d.loss_gen < d'.loss_gen ∧
    (d.loss_count s < d'.loss_count s ∨ ∀ p ∈ d'.pending_syncs, p.sub ≠ s)

section
omit [TransOrd C] [LawfulEqOrd C] [DecidableEq C] [DecidableEq H]

theorem Noted.lost (h : Noted d d' s) : Lost d d' s := ⟨h.2, .inl h.1⟩

end

section
omit [LawfulEqOrd C] [DecidableEq C] [DecidableEq H]

/-- What is carried needs no more than the subscription's own part of the state. -/
theorem Flight.Carried.congr (h : (Flight.rest d).Carried n x)
    (hclosed : d.events.closed = true → d'.events.closed = true)
    (hsent : d.events.sent.drop n ⊆ d'.events.sent.drop n)
    (hwaits : ∀ y : Event C V, y.subscription = x.subscription → d.Waits y → d'.Waits y) :
    (Flight.rest d').Carried n x := by
  rcases h with hc | ⟨y, hy, hf⟩
  · exact .inl (hclosed hc)
  · refine .inr ⟨y, hy, hf.imp (fun hf => hsent hf) fun hf => ?_⟩
    exact holds_rest.mpr (hwaits y hy.subscription (holds_rest.mp hf))

end

section
omit [DecidableEq H]

end

end Delivery

end Umbrella
