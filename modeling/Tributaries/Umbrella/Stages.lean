import Tributaries.Umbrella.Standing

/-! # The stages of a turn

  Between two stages the owner holds nothing in its hands.  Every turn is made
  of stages, so what each stage keeps holds along every run, and a property of
  runs takes one argument for each of the seven.
-/

open Std Collections Relation

namespace Umbrella

namespace Delivery

variable {C V H : Type} [Ord C] [TransOrd C] [LawfulEqOrd C] [DecidableEq C] [DecidableEq H]
  {G : Subscription → Option (List C × V)} {F F' : Flight C V H} {d d' d'' : Delivery C V H}
  {s : Subscription} {x ev : Event C V} {act : Act C V} {R R' : Subscription → Prop}

/-! ### Subscriptions that have nothing settling -/

/-- Nothing of a subscription settles. -/
def Settled (d : Delivery C V H) (s : Subscription) : Prop := ∀ x, d.Waits x → x.subscription ≠ s

section
omit [DecidableEq H]

theorem shed_settled {key : List C} {value : V} (h : Sound G (.rest d)) :
    (d.shed_whole s key (some value)).Settled s := by
  intro x hx
  obtain ⟨epoch, -, -, -, hc⟩ := owing_shed d s key (some value)
  obtain ⟨c', hc', hw⟩ := hx
  obtain ⟨c, hc₀, rfl⟩ := Option.map_eq_some_iff.mp (hc.symm.trans hc')
  exact ((Coalescer.drop_waits (h.kept c hc₀).1 s).mp hw).2

end

/-- A subscription of which nothing settles stays so where nothing is minted. -/
theorem Settled.path {P : Act C V → Prop} (hd : d.Settled s) (h : Sound G (.rest d))
    (hP : ∀ act, P act → act.minted = none) (hp : Path P (Flight.rest d) (.rest d')) : d'.Settled s := by
  intro x hx hs
  obtain ⟨y, hy, hslot, -⟩ := path_origin h hP hp (holds_rest.mpr hx)
  exact hd y (holds_rest.mp hy) ((congrArg Prod.fst hslot).trans hs)

theorem rescan_subscribers_settled {root_key : List C} (l : List Subscription) :
    ∀ d : Delivery C V H, Sound G (.rest d) →
      (∀ s ∈ l, ∃ key value, d.grant_of s = some (key, value)) →
      ∀ s ∈ l, (l.foldl (rescan_subscriber root_key) d).Settled s := by
  induction l with
  | nil => exact fun d _ _ s hs => absurd hs List.not_mem_nil
  | cons t l ih =>
    intro d h hl s hs
    obtain ⟨key, value, hg⟩ := hl t List.mem_cons_self
    rw [List.foldl_cons, rescan_subscriber_live hg]
    have h₁ : Sound G (.rest (d.shed_whole t key (some value))) := h.shed hg fun x hx => hx
    have hl₁ : ∀ s ∈ l, ∃ k v, (d.shed_whole t key (some value)).grant_of s = some (k, v) := by
      intro s hs
      rw [shed_whole_grants]
      exact hl s (List.mem_cons_of_mem t hs)
    rcases List.mem_cons.mp hs with rfl | hs
    · refine Settled.path (P := fun act => ∃ s, act = .shed s) (shed_settled h) h₁ ?_
        (rescan_subscribers_path l (fun s _ => ⟨s, rfl⟩) _ hl₁)
      intro act he
      obtain ⟨s, rfl⟩ := he
      rfl
    · exact ih _ h₁ hl₁ s hs

theorem rescan_live_root_settled {root : H} {root_key : List C} {order : List Subscription}
    (h : Sound G (.rest d)) (hr : d.rescan_live_root root root_key order = some d') :
    ∀ s ∈ d.subscribers_of root order, d'.Settled s := by
  intro s hs
  unfold rescan_live_root at hr
  dsimp only at hr
  split at hr
  · rename_i hn
    rw [List.isEmpty_iff.mp hn] at hs
    exact absurd hs List.not_mem_nil
  · have hl : ∀ s ∈ d.subscribers_of root order, ∃ key value, d.grant_of s = some (key, value) :=
      fun s hs => subscribers_live hs
    have hp : Path (fun _ => True) (Flight.rest d)
        (.rest ((d.subscribers_of root order).foldl (rescan_subscriber root_key) d)) :=
      rescan_subscribers_path _ (fun s _ => trivial) d hl
    have h₁ := h.path hp
    refine (rescan_subscribers_settled _ d h hl s hs).path h₁ ?_
      (dominate_syncs_of_root_path (P := fun act => act = .still) rfl hr)
    intro act he
    subst he
    rfl

/-! ### Stages -/

/-- One stage of a turn; `R` are the subscriptions that may be released. -/
inductive Stage (R : Subscription → Prop) : Delivery C V H → Delivery C V H → Prop
  | path {d d' : Delivery C V H} (hp : Path (fun _ => True) (Flight.rest d) (.rest d')) : Stage R d d'
  | commit (d : Delivery C V H) (root : H) (key : List C) (value : V) (debounce : Debounce) :
    Stage R d (d.commit_watch root key value debounce)
  | grant {d : Delivery C V H} {s : Subscription} (hs : s ∈ d.minted)
    (hi : ∀ q, ¬ d.Owed s q) : Stage R d (d.grant s)
  | claim (d : Delivery C V H) (s : Subscription) : Stage R d (d.claim s)
  | retire {d : Delivery C V H} {s : Subscription} (hs : d.Settled s) : Stage R d (d.retire_one s)
  | release {d : Delivery C V H} {s : Subscription} (hs : R s) : Stage R d (d.release_one s)
  /-- The consumer receives, or goes away. -/
  | channel {d : Delivery C V H} {events : BoundedChannel (Event C V)} (hs : events.sent = d.events.sent)
    (hc : d.events.closed = true → events.closed = true) : Stage R d { d with events }

abbrev Stages (R : Subscription → Prop) : Delivery C V H → Delivery C V H → Prop :=
  ReflTransGen (Stage R)

section
omit [LawfulEqOrd C] [DecidableEq H]

theorem Stages.mono (h : Stages R d d') (hR : ∀ s, R s → R' s) : Stages R' d d' := by
  refine ReflTransGen.mono (fun d d' hs => ?_) _ _ h
  cases hs with
  | path hp => exact .path hp
  | commit root key value debounce => exact .commit _ root key value debounce
  | grant hs hi => exact .grant hs hi
  | claim s => exact .claim _ s
  | retire hs => exact .retire hs
  | release hs => exact .release (hR _ hs)
  | channel hs hc => exact .channel hs hc

end

/-- A stage keeps the invariant, for the grants as they are after it. -/
theorem Stage.sound (h : Sound G (.rest d)) (hs : Stage R d d') : ∃ G', Sound G' (.rest d') := by
  cases hs with
  | path hp => exact ⟨G, h.path hp⟩
  | commit root key value debounce => exact ⟨_, h.commit_watch root key value debounce⟩
  | @grant s hs hi =>
    refine ⟨G, h.grant ?_⟩
    cases hn : d.needs_rescan[s]? with
    | none => rfl
    | some q => exact absurd (.inl hn) (hi q)
  | claim s => exact ⟨G, h.claim s⟩
  | retire hs => exact ⟨G, h.retire _⟩
  | release hs => exact ⟨G, h.release _⟩
  | channel hs hc => exact ⟨G, h.received hs⟩

/-- What every stage keeps, a stretch of them keeps. -/
theorem Stages.keep {I : Delivery C V H → Prop}
    (hI : ∀ (G : Subscription → Option (List C × V)) d d', Sound G (.rest d) → I d → Stage R d d' → I d')
    (hs : Stages R d d') (h : Sound G (.rest d)) (hd : I d) : I d' ∧ ∃ G', Sound G' (.rest d') := by
  induction hs with
  | refl => exact ⟨hd, G, h⟩
  | tail _ hs ih =>
    obtain ⟨hd₁, G₁, h₁⟩ := ih
    exact ⟨hI G₁ _ _ h₁ hd₁ hs, hs.sound h₁⟩

/-- The stream only grows, and a consumer that is gone stays gone. -/
theorem Stage.extends (h : Sound G (.rest d)) (hs : Stage R d d') :
    d.events.Extends d'.events := by
  cases hs with
  | path hp => exact path_extends h hp
  | commit root key value debounce =>
    obtain ⟨coalescer, he, -, -⟩ := commit_watch_eq h root key value debounce
    rw [he]
    exact .refl _
  | grant hs hi => exact .refl _
  | claim s =>
    obtain ⟨needs, suppressed, he, -⟩ := claim_eq h s
    rw [he]
    exact .refl _
  | retire hs => exact .refl _
  | release hs => exact .refl _
  | channel hs hc => exact ⟨hs ▸ List.prefix_rfl, hc⟩

theorem Stages.extends (hs : Stages R d d') (h : Sound G (.rest d)) :
    d.events.Extends d'.events :=
  (hs.keep (I := fun d' => d.events.Extends d'.events)
    (fun _ _ _ h hd hs => hd.trans (hs.extends h)) h (.refl _)).1

/-! ### Turns -/

/-- What a turn may release. -/
def Op.releases : Op C V H → Subscription → Prop
  | .drop_orphan sub, s | .unwatch sub, s => s = sub
  | _, _ => False

section
omit [DecidableEq H]

theorem retire_all_stages (l : List Subscription) : ∀ d : Delivery C V H, Sound G (.rest d) →
    (∀ s ∈ l, d.Settled s) → Stages R d (l.foldl retire_one d) := by
  induction l with
  | nil => exact fun d _ _ => .refl
  | cons s l ih =>
    intro d h hl
    refine (ReflTransGen.single (.retire (hl s List.mem_cons_self))).trans (ih _ (h.retire s) ?_)
    intro t ht y hy
    exact hl t (List.mem_cons_of_mem s ht) y ((retire_waits h s).mp hy).1

end

theorem retire_root_stages {handle : H} {root_key : List C} {order : List Subscription}
    (h : Sound G (.rest d)) (hr : d.retire_root_with_terminal_rescan handle root_key order = some d') :
    Stages R d d' := by
  obtain ⟨d₁, hd₁, rfl⟩ := retire_root_eq hr
  have hp : Path (fun _ => True) (Flight.rest d) (.rest d₁) :=
    rescan_live_root_path trivial (fun _ => trivial) hd₁
  exact (ReflTransGen.single (.path hp)).trans
    (retire_all_stages _ _ (h.path hp) (rescan_live_root_settled h hd₁))

theorem repoint_stages {handle : H} {fs_key : List C} {moved : List Subscription}
    (hl : ∀ s ∈ moved, ∃ key value, d.grant_of s = some (key, value))
    (hr : d.repoint_and_push handle fs_key moved = some d') : Stages R d d' := by
  obtain ⟨d₁, rescans, -, hp₁, hp₂⟩ := repoint_and_push_path hl hr
  exact .single (.path ((hp₁.mono fun _ _ => trivial).trans (hp₂.mono fun _ _ => trivial)))

/-- A widen moves none of what the new subscription is owed: nothing. -/
theorem commit_widen_unowed {handle : H} {fs_key key : List C} {value : V} {debounce : Debounce}
    {repointed : List Subscription} (h : Sound G (.rest d))
    (hr : (d.commit_watch handle key value debounce).repoint_and_push handle fs_key
      (repointed.filter fun sub => d.subs.contains sub) = some d') :
    ∀ q, ¬ d'.Owed d.next_subscription q := by
  have hl : ∀ s ∈ repointed.filter (fun sub => d.subs.contains sub), ∃ k v,
      (d.commit_watch handle key value debounce).grant_of s = some (k, v) ∧ s ≠ d.next_subscription := by
    intro s hs
    obtain ⟨k, v, hg⟩ := contains_grant (List.mem_filter.mp hs).2
    exact ⟨k, v, commit_keeps h hg⟩
  have h₁ := h.commit_watch handle key value debounce
  obtain ⟨d₂, rescans, -, hp₁, hp₂⟩ :=
    repoint_and_push_path (fun s hs => (hl s hs).imp fun k hk => hk.imp fun v hv => hv.1) hr
  -- the new subscription is not among those moved
  have hmint : ∀ (act : Act C V) (ev : Event C V), (act = .still ∨
      ∃ ev', ev'.subscription ∈ repointed.filter (fun sub => d.subs.contains sub) ∧
        act = .rebase ev') → act.minted = some ev → ev.subscription ≠ d.next_subscription := by
    intro act ev ha hev
    rcases ha with rfl | ⟨ev', hm, rfl⟩
    · cases hev
    · cases hev
      obtain ⟨k, v, -, hne⟩ := hl _ hm
      exact hne
  have hi := (commit_idle h handle key value debounce).path h₁ hp₁ hmint (by simp)
  exact (hi.path (h₁.path hp₁) hp₂ pushes_mint_nothing (by simp)).owed

section
omit [LawfulEqOrd C] [DecidableEq H]

theorem release_stages (hr : d.release_subscription s = some d') (hs : R s) : Stages R d d' := by
  obtain ⟨d₁, hd₁, hr⟩ := release_subscription_eq hr
  have hp : Stages R d d₁ := .single (.path (retire_syncs_of_subscription_path trivial hd₁))
  rcases hr with ⟨-, rfl⟩ | ⟨-, rfl⟩
  · exact hp
  · exact hp.tail (.release hs)

end

theorem source_event_stages {event : SourceEvent C H} {root_key : Option (List C)} {recorded : List C}
    {order : List Subscription} {gate : Gate C} (h : Sound G (.rest d))
    (hr : d.consume_source_event event root_key recorded order gate = some d') : Stages R d d' := by
  cases hk : root_key.isNone with
  | true =>
    obtain ⟨d₁, hd₁, hr⟩ := source_event_gone hk hr
    exact (retire_root_stages h hd₁).tail (.path (drain_coalescer_due_path trivial hr))
  | false =>
    obtain ⟨d₁, -, hp₁, hp₂⟩ := source_event_path hk hr
    exact .single (.path ((hp₁.mono fun _ _ => trivial).trans (hp₂.mono fun _ _ => trivial)))

section
omit [DecidableEq C] [DecidableEq H]

/-- What a commit mints. -/
theorem commit_minted (h : Sound G (.rest d)) (root : H) (key : List C) (value : V) (debounce : Debounce) :
    d.next_subscription ∈ (d.commit_watch root key value debounce).minted ∧
      d.minted ⊆ (d.commit_watch root key value debounce).minted := by
  obtain ⟨coalescer, he, -, -⟩ := commit_watch_eq h root key value debounce
  rw [he]
  exact ⟨⟨rfl, Nat.lt_succ_self _⟩, fun s hs => ⟨hs.1, Nat.lt_succ_of_lt hs.2⟩⟩

end

section
omit [TransOrd C] [LawfulEqOrd C] [DecidableEq C] [DecidableEq H]

theorem minted_eq (h : d'.mints = d.mints) : d'.minted = d.minted := by
  unfold minted
  rw [show d'.instance_id = d.instance_id from congrArg Prod.fst h,
    show d'.next_sub = d.next_sub from congrArg Prod.snd h]

end

/-- Every turn is made of stages. -/
theorem step_stages {op : Op C V H} (h : Sound G (.rest d)) (hs : d.step op = some d') :
    Stages op.releases d d' := by
  have path : Path (fun _ => True) (Flight.rest d) (.rest d') → Stages op.releases d d' :=
    fun hp => .single (.path hp)
  cases op with
  | commit_watch root key value debounce =>
    obtain rfl := Option.some.inj hs
    exact (ReflTransGen.single (.commit d root key value debounce)).tail
      (.grant (commit_minted h root key value debounce).1 (commit_idle h root key value debounce).owed)
  | commit_widen handle fs_key key value debounce repointed =>
    obtain ⟨d₁, hr, rfl⟩ := commit_widen_eq hs
    have hl : ∀ s ∈ repointed.filter (fun sub => d.subs.contains sub), ∃ k v,
        (d.commit_watch handle key value debounce).grant_of s = some (k, v) := by
      intro s hs
      obtain ⟨k, v, hg⟩ := contains_grant (List.mem_filter.mp hs).2
      exact ⟨k, v, (commit_keeps h hg).1⟩
    obtain ⟨d₂, rescans, -, hp₁, hp₂⟩ := repoint_and_push_path hl hr
    have hm : d₁.mints = (d.commit_watch handle key value debounce).mints :=
      (path_mints hp₂).trans (path_mints hp₁)
    refine ((ReflTransGen.single (.commit d handle key value debounce)).trans (repoint_stages hl hr)).tail
      (.grant ?_ (commit_widen_unowed h hr))
    rw [minted_eq hm]
    exact (commit_minted h handle key value debounce).1
  | restore_disarmed_root old new_handle root_key order => exact repoint_stages restore_live hs
  | rescan_live_root root root_key order =>
    exact path (rescan_live_root_path trivial (fun _ => trivial) hs)
  | retire_root handle root_key order => exact retire_root_stages h hs
  | claim sub =>
    obtain rfl := Option.some.inj hs
    exact .single (.claim d sub)
  | drop_orphan sub | unwatch sub => exact release_stages hs rfl
  | source_event event root_key recorded order gate => exact source_event_stages h hs
  | flush_pending_rescans =>
    obtain rfl := Option.some.inj hs
    exact path (flush_pending_rescans_path trivial fun x hx => absurd hx List.not_mem_nil)
  | drain_coalescer_due => exact path (drain_coalescer_due_path trivial hs)
  | drain_owed_once =>
    obtain rfl := Option.some.inj hs
    exact path (drain_owed_once_path trivial trivial)
  | sync sub =>
    obtain rfl := Option.some.inj hs
    exact path (quiet_path trivial { Quiet.refl d with })
  | on_sync begun =>
    rcases on_sync_turn hs with rfl | ⟨req, rest, -, hs⟩
    · exact .refl
    · have hq : Quiet d { d with sync_commands := rest } := { Quiet.refl d with }
      exact path ((quiet_path trivial hq).trans (on_sync_path trivial hs))
  | abandon ticket =>
    obtain rfl := Option.some.inj hs
    split
    · exact .single (.path (quiet_path trivial { Quiet.refl d with }))
    · exact .refl
  | prune_abandoned_syncs => exact path (prune_abandoned_syncs_path trivial hs)
  | source_forgot =>
    obtain rfl := Option.some.inj hs
    exact path (quiet_path trivial { Quiet.refl d with })
  | teardown =>
    obtain rfl := Option.some.inj hs
    exact path (teardown_path trivial d)
  | recv =>
    obtain rfl := Option.some.inj hs
    exact .single (.channel (recv_sent d.events) (BoundedChannel.Extends.of_recv d.events).closed)
  | hang_up =>
    obtain rfl := Option.some.inj hs
    exact .single (.channel rfl fun _ => rfl)

/-! ### Runs -/

/-- What a run may release. -/
def releases (ops : List (Op C V H)) (s : Subscription) : Prop := ∃ op ∈ ops, op.releases s

/-- Every run is made of stages. -/
theorem run_stages (ops : List (Op C V H)) : ∀ (G : Subscription → Option (List C × V))
    (d d' : Delivery C V H), Sound G (.rest d) → d.run ops = some d' → Stages (releases ops) d d' := by
  induction ops with
  | nil =>
    intro G d d' h hr
    obtain rfl := Option.some.inj hr
    exact .refl
  | cons op ops ih =>
    intro G d d' h hr
    unfold run at hr
    rw [List.foldlM_cons] at hr
    obtain ⟨d₁, hd₁, hr⟩ := Option.bind_eq_some_iff.mp hr
    refine ((step_stages h hd₁).mono fun s hs => ⟨op, List.mem_cons_self, hs⟩).trans
      ((ih _ d₁ d' (step_sound h hd₁) hr).mono fun s hs => ?_)
    obtain ⟨op', hop, hs⟩ := hs
    exact ⟨op', List.mem_cons_of_mem op hop, hs⟩

/-- What every stage keeps, every run keeps. -/
theorem run_keeps {I : Delivery C V H → Prop} {ops : List (Op C V H)}
    (hI : ∀ (G : Subscription → Option (List C × V)) d d', Sound G (.rest d) → I d →
      Stage (releases ops) d d' → I d')
    (h : Sound G (.rest d)) (hr : d.run ops = some d') (hd : I d) : I d' :=
  ((run_stages ops G d d' h hr).keep hI h hd).1

end Delivery

end Umbrella
