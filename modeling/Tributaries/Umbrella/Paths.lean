import Tributaries.Umbrella.Moves

/-! # Every turn is a path of moves

  The owner's operations, one by one: what each does to the state and to the
  deliveries it holds is a path of moves, and which moves they may be says
  what the operation is about.
-/

open Std Collections

namespace Umbrella

open Proto (Epoch)

namespace Delivery

variable {C V H : Type} [Ord C] [TransOrd C] [LawfulEqOrd C] [DecidableEq C] [DecidableEq H]
  {P : Act C V → Prop} {d d' : Delivery C V H} {i a r evs : List (Event C V)} {s : Subscription}

/-! ### Barriers -/

section
omit [TransOrd C] [LawfulEqOrd C] [DecidableEq C] [DecidableEq H]

/-- What every settlement keeps, a scan keeps. -/
theorem sweep_keeps {R : Delivery C V H → Delivery C V H → Prop} {hit : PendingSync C H → Bool}
    {settle : Delivery C V H → PendingSync C H → Option (Delivery C V H)}
    (hrefl : ∀ d, R d d) (htrans : ∀ {d₁ d₂ d₃}, R d₁ d₂ → R d₂ d₃ → R d₁ d₃)
    (hpending : ∀ (d : Delivery C V H) (l : List (PendingSync C H)), R d { d with pending_syncs := l })
    (hsettle : ∀ (d d' : Delivery C V H) (p : PendingSync C H), settle d p = some d' → R d d')
    (fuel : Nat) : ∀ (i : Nat) (d d' : Delivery C V H), sweep hit settle fuel i d = some d' → R d d' := by
  induction fuel with
  | zero =>
    intro i d d' h
    obtain rfl := Option.some.inj h
    exact hrefl d
  | succ fuel ih =>
    intro i d d' h
    unfold sweep at h
    split at h
    · obtain rfl := Option.some.inj h
      exact hrefl d
    · rename_i p hp
      split at h
      · obtain ⟨d₁, hd₁, h⟩ := Option.bind_eq_some_iff.mp h
        exact htrans (hpending d _) (htrans (hsettle _ _ _ hd₁) (ih _ _ _ h))
      · exact ih _ _ _ h

end

section
omit [LawfulEqOrd C] [DecidableEq H]

/-- A scan whose settlements are paths is a path. -/
theorem sweep_all_path {hit : PendingSync C H → Bool}
    {settle : Delivery C V H → PendingSync C H → Option (Delivery C V H)} (hs : P .still)
    (hsettle : ∀ (d d' : Delivery C V H) (p : PendingSync C H), settle d p = some d' →
      Path P ⟨d, i, a, r⟩ ⟨d', i, a, r⟩)
    (h : d.sweep_all hit settle = some d') : Path P ⟨d, i, a, r⟩ ⟨d', i, a, r⟩ :=
  sweep_keeps (R := fun d d' => Path P ⟨d, i, a, r⟩ ⟨d', i, a, r⟩) (fun _ => .refl)
    (fun h₁ h₂ => h₁.trans h₂) (fun d _ => quiet_path hs { Quiet.refl d with }) hsettle _ _ _ _ h

/-- Answering a barrier and removing its cookie delivers nothing. -/
theorem settle_sync_path (hs : P .still) {answer : SyncAnswer} {p : PendingSync C H}
    (h : some (d.settle_sync answer p) = some d') : Path P ⟨d, i, a, r⟩ ⟨d', i, a, r⟩ := by
  obtain rfl := Option.some.inj h
  exact quiet_path hs { Quiet.refl d with }

theorem dominate_syncs_of_subscription_path (hs : P .still)
    (h : d.dominate_syncs_of_subscription s = some d') : Path P ⟨d, i, a, r⟩ ⟨d', i, a, r⟩ :=
  (quiet_path hs (quiet_note_domination d)).trans
    (sweep_all_path hs (fun _ _ _ h => settle_sync_path hs h) h)

end

section
omit [LawfulEqOrd C]

theorem dominate_syncs_of_root_path (hs : P .still) {root : H}
    (h : d.dominate_syncs_of_root root = some d') : Path P ⟨d, i, a, r⟩ ⟨d', i, a, r⟩ :=
  (quiet_path hs (quiet_note_domination d)).trans
    (sweep_all_path hs (fun _ _ _ h => settle_sync_path hs h) h)

end

section
omit [LawfulEqOrd C] [DecidableEq H]

theorem retire_syncs_of_subscription_path (hs : P .still)
    (h : d.retire_syncs_of_subscription s = some d') : Path P ⟨d, i, a, r⟩ ⟨d', i, a, r⟩ :=
  sweep_all_path hs (fun _ _ _ h => settle_sync_path hs h) h

theorem prune_abandoned_syncs_path (hs : P .still) (h : d.prune_abandoned_syncs = some d') :
    Path P ⟨d, i, a, r⟩ ⟨d', i, a, r⟩ := by
  refine sweep_all_path hs (fun d d' p h => ?_) h
  obtain rfl := Option.some.inj h
  exact quiet_path hs { Quiet.refl d with }

theorem flush_subscription_now_path (hs : P .still) {clean : Bool}
    (h : d.flush_subscription_now s = some (clean, d')) : Path P ⟨d, [], [], []⟩ ⟨d', [], [], []⟩ := by
  unfold flush_subscription_now at h
  dsimp only at h
  split at h
  · obtain rfl := congrArg Prod.snd (Option.some.inj h)
    exact quiet_path hs (quiet_now d)
  · rename_i c hc
    obtain ⟨⟨out, c'⟩, hd, h⟩ := Option.bind_eq_some_iff.mp h
    obtain rfl := congrArg Prod.snd (Option.some.inj h)
    have hflush : Path P ⟨d.now, [], [], []⟩
        ⟨{ d.now with coalescer := some (c.flush_subscription s d.now.clock) }, [], [], []⟩ :=
      .one hs (.flush hc)
    have hdrain : Path P
        ⟨{ d.now with coalescer := some (c.flush_subscription s d.now.clock) }, [], [], []⟩
        ⟨{ d.now with coalescer := some c' }, [], out, []⟩ := .one hs (.drain rfl hd)
    exact (quiet_path hs (quiet_now d)).trans
      (hflush.trans (hdrain.trans (try_emit_all_path hs out _)))

theorem resolve_sync_path (hs : P .still) {p : PendingSync C H} (h : d.resolve_sync p = some d') :
    Path P ⟨d, [], [], []⟩ ⟨d', [], [], []⟩ := by
  obtain ⟨⟨clean, d₁⟩, hd₁, h⟩ := Option.bind_eq_some_iff.mp h
  obtain rfl := Option.some.inj h
  have hreap : Path P ⟨d, [], [], []⟩ ⟨d.reap_cookie p.root p.cookie_key, [], [], []⟩ :=
    quiet_path hs { Quiet.refl d with }
  exact hreap.trans ((flush_subscription_now_path hs hd₁).trans (quiet_path hs { Quiet.refl d₁ with }))

end

section
omit [LawfulEqOrd C]

theorem resolve_matching_pending_sync_path (hs : P .still) {event : SourceEvent C H}
    {reserved : ReservedEndpoints} (h : d.resolve_matching_pending_sync event reserved = some d') :
    Path P ⟨d, [], [], []⟩ ⟨d', [], [], []⟩ :=
  sweep_all_path hs (fun _ _ _ h => resolve_sync_path hs h) h

theorem dominate_pending_syncs_path (hs : P .still) {event : SourceEvent C H}
    (h : d.dominate_pending_syncs event = some d') : Path P ⟨d, [], [], []⟩ ⟨d', [], [], []⟩ := by
  refine (quiet_path hs (quiet_note_domination d)).trans (sweep_all_path hs (fun d d' p h => ?_) h)
  obtain ⟨⟨clean, d₁⟩, hd₁, h⟩ := Option.bind_eq_some_iff.mp h
  obtain rfl := Option.some.inj h
  have hreap : Path P ⟨d, [], [], []⟩ ⟨d.reap_cookie p.root p.cookie_key, [], [], []⟩ :=
    quiet_path hs { Quiet.refl d with }
  exact hreap.trans ((flush_subscription_now_path hs hd₁).trans (quiet_path hs { Quiet.refl d₁ with }))

end

/-- Pruning gives up barriers and their cookies, and nothing else. -/
structure Pruned (d d' : Delivery C V H) : Prop where
  subs : d'.subs = d.subs
  canceled : d'.canceled = d.canceled
  commands : d'.sync_commands = d.sync_commands
  issued : d'.next_ticket = d.next_ticket
  answers : d'.answers = d.answers
  serial : d'.loss_serial = d.loss_serial
  gen : d'.loss_gen = d.loss_gen

section
omit [TransOrd C] [LawfulEqOrd C] [DecidableEq C] [DecidableEq H]

theorem Pruned.refl (d : Delivery C V H) : Pruned d d := ⟨rfl, rfl, rfl, rfl, rfl, rfl, rfl⟩

theorem prune_pruned (h : d.prune_abandoned_syncs = some d') : Pruned d d' := by
  refine sweep_keeps (R := Pruned) .refl (fun h₁ h₂ => ?_) (fun d l => ?_) (fun d d' p hs => ?_)
    _ _ _ _ h
  · exact ⟨h₂.subs.trans h₁.subs, h₂.canceled.trans h₁.canceled, h₂.commands.trans h₁.commands,
      h₂.issued.trans h₁.issued, h₂.answers.trans h₁.answers, h₂.serial.trans h₁.serial,
      h₂.gen.trans h₁.gen⟩
  · exact ⟨rfl, rfl, rfl, rfl, rfl, rfl, rfl⟩
  · obtain rfl := Option.some.inj hs
    exact ⟨rfl, rfl, rfl, rfl, rfl, rfl, rfl⟩

end

/-- What taking up a request comes to; past the first two, in the state that pruning left. -/
inductive TakenUp (d : Delivery C V H) (req : SyncRequest) (begun : Begun C) :
    Delivery C V H → Prop
  | gone (hc : d.canceled.contains req.ticket = true) : TakenUp d req begun d
  | declined (hc : d.canceled.contains req.ticket = false) (hq : d.source_quarantined = true) :
    TakenUp d req begun (d.reply req.ticket .source_retired)
  | refused {d₁ : Delivery C V H} {answer : SyncAnswer}
    (hc : d.canceled.contains req.ticket = false) (hq : d.source_quarantined = false)
    (hd : d.prune_abandoned_syncs = some d₁) (ha : answer ≠ .delivered)
    (hw : MAX_PENDING_SYNCS ≤ d₁.pending_syncs.length ∨ d₁.subs[req.sub]? = none ∨
      ∀ cookie_key left, begun ≠ .installed cookie_key left) :
    TakenUp d req begun (d₁.reply req.ticket answer)
  /-- The caller left while the cookie was written. -/
  | left {d₁ : Delivery C V H} {granted : Granted C V H} {cookie_key : List C}
    (hc : d.canceled.contains req.ticket = false) (hq : d.source_quarantined = false)
    (hd : d.prune_abandoned_syncs = some d₁) (hroom : d₁.pending_syncs.length < MAX_PENDING_SYNCS)
    (hg : d₁.subs[req.sub]? = some granted) (hb : begun = .installed cookie_key true) :
    TakenUp d req begun ((d₁.leave req.ticket).reap_cookie granted.root cookie_key)
  | admitted {d₁ : Delivery C V H} {granted : Granted C V H} {cookie_key : List C}
    (hc : d.canceled.contains req.ticket = false) (hq : d.source_quarantined = false)
    (hd : d.prune_abandoned_syncs = some d₁) (hroom : d₁.pending_syncs.length < MAX_PENDING_SYNCS)
    (hg : d₁.subs[req.sub]? = some granted) (hb : begun = .installed cookie_key false) :
    TakenUp d req begun
      { d₁ with
        pending_syncs := d₁.pending_syncs ++
          [{ cookie_key, sub := req.sub, root := granted.root
             loss_serial_at_install := d₁.loss_serial_of req.sub
             dominated_at_install := d₁.owes req.sub || d₁.loss_gen_now != req.loss_gen_at_call
             ticket := req.ticket }] }
  | given_up {d₁ : Delivery C V H} {forgets : Bool}
    (hc : d.canceled.contains req.ticket = false) (hq : d.source_quarantined = false)
    (hd : d.prune_abandoned_syncs = some d₁) (hb : begun = .abandoned forgets) :
    TakenUp d req begun { d₁ with source_quarantined := d₁.source_quarantined || forgets }

section
omit [TransOrd C] [LawfulEqOrd C] [DecidableEq C] [DecidableEq H]

theorem on_sync_taken {req : SyncRequest} {begun : Begun C} (h : d.on_sync req begun = some d') :
    TakenUp d req begun d' := by
  unfold on_sync at h
  split at h
  · rename_i hc
    obtain rfl := Option.some.inj h
    exact .gone hc
  · rename_i hc
    have hc := Bool.eq_false_iff.mpr hc
    split at h
    · rename_i hq
      obtain rfl := Option.some.inj h
      exact .declined hc hq
    · rename_i hq
      have hq := Bool.eq_false_iff.mpr hq
      obtain ⟨d₁, hd, h⟩ := Option.bind_eq_some_iff.mp h
      split at h
      · rename_i hfull
        obtain rfl := Option.some.inj h
        exact .refused hc hq hd (by decide) (.inl hfull)
      · rename_i hroom
        have hroom := Nat.lt_of_not_le hroom
        split at h
        · rename_i hg
          obtain rfl := Option.some.inj h
          exact .refused hc hq hd (by decide) (.inr (.inl hg))
        · rename_i granted hg
          cases begun with
          | installed cookie_key left =>
            obtain rfl := Option.some.inj h
            cases left with
            | true =>
              have hleft : (d₁.leave req.ticket).canceled.contains req.ticket = true :=
                ExtTreeSet.contains_insert_self
              show TakenUp d req _ ((d₁.leave req.ticket).admit_begun_cookie ..)
              unfold admit_begun_cookie
              rw [if_pos hleft]
              exact .left hc hq hd hroom hg rfl
            | false =>
              -- pruning asks nobody to leave
              have hstays : ¬ d₁.canceled.contains req.ticket = true := by
                rw [(prune_pruned hd).canceled, hc]
                exact Bool.false_ne_true
              show TakenUp d req _ (d₁.admit_begun_cookie ..)
              unfold admit_begun_cookie
              rw [if_neg hstays]
              exact .admitted hc hq hd hroom hg rfl
          | dominated =>
            obtain rfl := Option.some.inj h
            exact .refused hc hq hd (by decide) (.inr (.inr nofun))
          | failed =>
            obtain rfl := Option.some.inj h
            exact .refused hc hq hd (by decide) (.inr (.inr nofun))
          | abandoned forgets =>
            obtain rfl := Option.some.inj h
            exact .given_up hc hq hd rfl

end

section
omit [LawfulEqOrd C] [DecidableEq H]

theorem on_sync_path (hs : P .still) {req : SyncRequest} {begun : Begun C}
    (h : d.on_sync req begun = some d') : Path P ⟨d, [], [], []⟩ ⟨d', [], [], []⟩ := by
  cases on_sync_taken h with
  | gone hc => exact .refl
  | declined hc hq => exact quiet_path hs { Quiet.refl d with }
  | @refused d₁ answer hc hq hd ha hw =>
    exact (prune_abandoned_syncs_path hs hd).trans (quiet_path hs { Quiet.refl d₁ with })
  | @left d₁ granted cookie_key hc hq hd hroom hg hb =>
    exact (prune_abandoned_syncs_path hs hd).trans (quiet_path hs { Quiet.refl d₁ with })
  | @admitted d₁ granted cookie_key hc hq hd hroom hg hb =>
    exact (prune_abandoned_syncs_path hs hd).trans (quiet_path hs { Quiet.refl d₁ with })
  | @given_up d₁ forgets hc hq hd hb =>
    exact (prune_abandoned_syncs_path hs hd).trans (quiet_path hs { Quiet.refl d₁ with })

end

section
omit [TransOrd C] [LawfulEqOrd C] [DecidableEq C] [DecidableEq H]

/-- What every answer keeps, the end of the task keeps. -/
theorem teardown_keeps {R : Delivery C V H → Delivery C V H → Prop} (hrefl : ∀ d, R d d)
    (htrans : ∀ {d₁ d₂ d₃}, R d₁ d₂ → R d₂ d₃ → R d₁ d₃)
    (hclear : ∀ d : Delivery C V H, R d { d with pending_syncs := [] } ∧ R d { d with sync_commands := [] })
    (hsettle : ∀ d p, R d (settle_sync .closed d p))
    (hreply : ∀ (d : Delivery C V H) ticket, R d (d.reply ticket .closed)) (d : Delivery C V H) :
    R d d.reap_all_pending_syncs.close_sync_commands := by
  have each : ∀ {α : Type} {f : Delivery C V H → α → Delivery C V H}, (∀ d x, R d (f d x)) →
      ∀ (l : List α) (d : Delivery C V H), R d (l.foldl f d) := by
    intro α f hf l
    induction l with
    | nil => exact fun d => hrefl d
    | cons x l ih => exact fun d => htrans (hf d x) (ih _)
  have hpending : R d d.reap_all_pending_syncs :=
    htrans (hclear d).1 (each hsettle d.pending_syncs _)
  exact htrans hpending (htrans (hclear _).2
    (each (fun d req => hreply d req.ticket) d.reap_all_pending_syncs.sync_commands _))

end

section
omit [LawfulEqOrd C] [DecidableEq H]

/-- The end of the task only answers. -/
theorem teardown_path (hs : P .still) (d : Delivery C V H) :
    Path P ⟨d, i, a, r⟩ ⟨d.reap_all_pending_syncs.close_sync_commands, i, a, r⟩ :=
  teardown_keeps (R := fun d d' => Path P ⟨d, i, a, r⟩ ⟨d', i, a, r⟩) (fun _ => .refl)
    (fun h₁ h₂ => h₁.trans h₂)
    (fun d => ⟨quiet_path hs { Quiet.refl d with }, quiet_path hs { Quiet.refl d with }⟩)
    (fun d _ => quiet_path hs { Quiet.refl d with }) (fun d _ => quiet_path hs { Quiet.refl d with }) d

end

/-! ### Source events -/

section
omit [TransOrd C] [LawfulEqOrd C] [DecidableEq C] [DecidableEq H]

theorem grant_of_eq {g : Granted C V H} (h : d.subs[s]? = some g) :
    d.grant_of s = some (g.key, g.value) := by
  unfold grant_of
  rw [h]
  rfl

end

section
omit [LawfulEqOrd C] [DecidableEq H]

/-- Shedding in the quarantine's order. -/
theorem quarantine_shed (d : Delivery C V H) (s : Subscription) (key : List C) (value : Option V) :
    ((((d.drop_buffered s).note_loss s).shed s).2.merge_owed s key
      (((d.drop_buffered s).note_loss s).shed s).1 value) = d.shed_whole s key value := by
  unfold shed_whole merge_owed
  dsimp only
  show (if d.unclaimed.contains s then _ else _) =
    (if d.unclaimed.contains s then _ else _ : Delivery C V H).drop_buffered s
  split
  · rfl
  · rfl

theorem quarantine_filter_path (hs : P .still) (hshed : P (.shed s))
    (h : d.quarantine_filter s = some d') : Path P ⟨d, i, a, r⟩ ⟨d', i, a, r⟩ := by
  unfold quarantine_filter at h
  split at h
  · obtain rfl := Option.some.inj h
    exact .refl
  · rename_i g hg
    split at h
    · obtain rfl := Option.some.inj h
      exact .refl
    · dsimp only at h
      rw [quarantine_shed] at h
      have hquiet : Quiet d { d with quarantined := d.quarantined.insert s } := { Quiet.refl d with }
      have hgrant : ({ d with quarantined := d.quarantined.insert s } : Delivery C V H).grant_of s =
          some (g.key, g.value) := grant_of_eq hg
      exact (quiet_path hs hquiet).trans ((Path.one hshed (.shed hgrant)).trans
        (dominate_syncs_of_subscription_path hs h))

theorem quarantine_filters_path (hs : P .still) (l : List Subscription) (hshed : ∀ s ∈ l, P (.shed s)) :
    ∀ d, d.quarantine_filters l = some d' → Path P ⟨d, i, a, r⟩ ⟨d', i, a, r⟩ := by
  induction l with
  | nil =>
    intro d h
    obtain rfl := Option.some.inj h
    exact .refl
  | cons s l ih =>
    intro d h
    unfold quarantine_filters at h
    rw [List.foldlM_cons] at h
    obtain ⟨d₁, hd₁, h⟩ := Option.bind_eq_some_iff.mp h
    exact (quarantine_filter_path hs (hshed s List.mem_cons_self) hd₁).trans
      (ih (fun t ht => hshed t (List.mem_cons_of_mem s ht)) d₁ h)

end

/-- What one raw event is delivered as. -/
def deliveries (d : Delivery C V H) (raw : SourceEvent C H) (order : List Subscription)
    (gate : Gate C) : List (Event C V) :=
  if d.reserved_endpoints raw = .all then []
  else (d.fan_out_raw raw (d.reserved_endpoints raw) order gate).1

/-- A raw event is minted for its subscribers, and then pushed. -/
theorem fan_out_and_push_path {raw : SourceEvent C H} {order : List Subscription} {gate : Gate C}
    {reserved : ReservedEndpoints} (h : d.fan_out_and_push raw order gate = some (reserved, d')) :
    ∃ d₁, d₁.coalescer = d.coalescer ∧
      Path (fun act => ∃ ev ∈ d.deliveries raw order gate, act = .mint ev)
        ⟨d, [], [], []⟩ ⟨d₁, d.deliveries raw order gate, [], []⟩ ∧
      Path (fun act => act = .still ∨ (∃ s, act = .shed s) ∨
        ∃ ev ∈ d.deliveries raw order gate, act = .offer ev)
        ⟨d₁, d.deliveries raw order gate, [], []⟩ ⟨d', [], [], []⟩ := by
  unfold fan_out_and_push at h
  dsimp only at h
  split at h
  · rename_i hall
    obtain rfl := congrArg Prod.snd (Option.some.inj h)
    unfold deliveries
    rw [if_pos hall]
    exact ⟨d, rfl, .refl, .refl⟩
  · rename_i hall
    have hd : d.deliveries raw order gate =
        (d.fan_out_raw raw (d.reserved_endpoints raw) order gate).1 := if_neg hall
    rw [hd]
    refine ⟨(d.fan_out_raw raw (d.reserved_endpoints raw) order gate).2.2, rfl,
      fan_out_raw_path (i := []) fun ev hev => ⟨ev, hev, rfl⟩, ?_⟩
    generalize d.fan_out_raw raw (d.reserved_endpoints raw) order gate = result at h
    obtain ⟨fanned, poisoned, d₁⟩ := result
    dsimp only at h ⊢
    split at h
    · obtain ⟨d₂, hd₂, h⟩ := Option.map_eq_some_iff.mp h
      obtain rfl := congrArg Prod.snd h
      exact push_all_path (.inl rfl) (fun ev hev => .inr (.inr ⟨ev, hev, rfl⟩)) hd₂
    · obtain ⟨d₂, hd₂, h⟩ := Option.bind_eq_some_iff.mp h
      obtain ⟨d₃, hd₃, h⟩ := Option.bind_eq_some_iff.mp h
      obtain rfl := congrArg Prod.snd (Option.some.inj h)
      rw [List.partition_eq_filter_filter] at hd₃
      refine (quarantine_filters_path (.inl rfl) poisoned (fun s _ => .inr (.inl ⟨s, rfl⟩)) d₁ hd₂).trans ?_
      refine (pass_path (.inl rfl) fun s => poisoned.contains s).trans ?_
      refine (try_emit_all_path (.inl rfl) _ d₂).trans (push_all_path (.inl rfl) (fun ev hev => ?_) hd₃)
      exact .inr (.inr ⟨ev, (List.mem_filter.mp hev).1, rfl⟩)

/-! ### Roots -/

section
omit [TransOrd C] [LawfulEqOrd C] [DecidableEq C]

theorem subscribers_live {root : H} {order : List Subscription} (h : s ∈ d.subscribers_of root order) :
    ∃ key value, d.grant_of s = some (key, value) := by
  obtain ⟨-, hm⟩ := List.mem_filter.mp h
  obtain ⟨g, hg, -⟩ := (Option.any_eq_true _ _).mp hm
  exact ⟨g.key, g.value, grant_of_eq hg⟩

end

section
omit [LawfulEqOrd C] [DecidableEq H]

theorem rescan_subscriber_live {root_key key : List C} {value : V}
    (h : d.grant_of s = some (key, value)) :
    rescan_subscriber root_key d s = d.shed_whole s key (some value) := by
  have hv : (d.note_loss s).subscription_value s = some value := by
    rw [subscription_value_eq]
    exact congrArg (Option.map Prod.snd) h
  have hk : ∀ d₁ : Delivery C V H, d₁.grant_of s = some (key, value) →
      d₁.rescan_key_for s root_key = key := by
    intro d₁ h₁
    unfold rescan_key_for
    rw [subscription_key_eq, h₁]
    rfl
  unfold rescan_subscriber shed_whole
  dsimp only
  rw [hv, hk ((d.note_loss s).shed s).2 h]

theorem shed_whole_grants (d : Delivery C V H) (s t : Subscription) (key : List C) (value : Option V) :
    (d.shed_whole s key value).grant_of t = d.grant_of t := by
  obtain ⟨epoch, -, ho, -⟩ := owing_shed d s key value
  unfold grant_of
  rw [ho.subs]

theorem rescan_subscribers_path {root_key : List C} (l : List Subscription)
    (hshed : ∀ s ∈ l, P (.shed s)) : ∀ d : Delivery C V H,
      (∀ s ∈ l, ∃ key value, d.grant_of s = some (key, value)) →
      Path P ⟨d, i, a, r⟩ ⟨l.foldl (rescan_subscriber root_key) d, i, a, r⟩ := by
  induction l with
  | nil =>
    intro d _
    exact .refl
  | cons s l ih =>
    intro d hl
    obtain ⟨key, value, hg⟩ := hl s List.mem_cons_self
    rw [List.foldl_cons, rescan_subscriber_live hg]
    refine (Path.one (hshed s List.mem_cons_self) (.shed hg)).trans
      (ih (fun t ht => hshed t (List.mem_cons_of_mem s ht)) _ fun t ht => ?_)
    rw [shed_whole_grants]
    exact hl t (List.mem_cons_of_mem s ht)

end

section
omit [LawfulEqOrd C]

theorem rescan_live_root_path (hs : P .still) (hshed : ∀ s, P (.shed s)) {root : H}
    {root_key : List C} {order : List Subscription}
    (h : d.rescan_live_root root root_key order = some d') :
    Path P ⟨d, i, a, r⟩ ⟨d', i, a, r⟩ := by
  unfold rescan_live_root at h
  dsimp only at h
  split at h
  · obtain rfl := Option.some.inj h
    exact .refl
  · exact (rescan_subscribers_path _ (fun s _ => hshed s) d fun s hs => subscribers_live hs).trans
      (dominate_syncs_of_root_path hs h)

end

/-! ### Moves to another root -/

section
omit [LawfulEqOrd C] [DecidableEq H]

theorem repoint_one_path (hs : P .still) {handle : H} {fs_key : List C} {moved : Subscription}
    (hm : ∀ ev, ev.subscription = moved → P (.rebase ev))
    (hg : ∃ key value, d.grant_of moved = some (key, value)) :
    Path P ⟨d, i, a, r⟩ ⟨(repoint_one handle fs_key (i, d) moved).2,
      (repoint_one handle fs_key (i, d) moved).1, a, r⟩ := by
  obtain ⟨key, value, hg⟩ := hg
  have hk : (d.drop_buffered moved).rescan_key_for moved fs_key = key := by
    unfold rescan_key_for
    rw [subscription_key_eq]
    show ((d.grant_of moved).map Prod.fst).getD fs_key = key
    rw [hg]
    rfl
  have hv : (d.drop_buffered moved).subscription_value moved = some value := by
    rw [subscription_value_eq]
    show (d.grant_of moved).map Prod.snd = some value
    rw [hg]
    rfl
  have hone : repoint_one handle fs_key (i, d) moved =
      (i ++ [(Event.rescan moved key (d.epochs.repoint moved).1).set_value (some value)],
        { d.drop_buffered moved with
          epochs := (d.epochs.repoint moved).2
          subs := d.subs.modify moved fun g => { g with root := handle } }) := by
    unfold repoint_one
    dsimp only
    rw [hk, hv]
    rfl
  rw [hone]
  have hmove : Path P ⟨d, i, a, r⟩ ⟨{ d.drop_buffered moved with epochs := (d.epochs.repoint moved).2 },
      i ++ [(Event.rescan moved key (d.epochs.repoint moved).1).set_value (some value)], a, r⟩ := by
    have hd : Addressed d ((Event.rescan moved key (d.epochs.repoint moved).1).set_value (some value))
        key value := by
      refine ⟨hg, ?_, rfl⟩
      intro spot hspot
      have hspot : spot ∈ [key] := hspot
      rw [List.mem_singleton.mp hspot]
    exact .one (hm _ rfl) (.rebase hd (stamped_repoint d.epochs _ rfl) rfl rfl)
  refine hmove.trans (quiet_path hs ?_)
  refine { Quiet.refl _ with grants := ?_ }
  intro t
  show ((d.subs.modify moved fun g => { g with root := handle })[t]?).map _ = (d.subs[t]?).map _
  rw [get_modify]
  split
  · rw [Option.map_map]
    rfl
  · rfl

end

section
omit [LawfulEqOrd C] [DecidableEq C] [DecidableEq H]

theorem repoint_one_grants (handle : H) (fs_key : List C) (acc : List (Event C V) × Delivery C V H)
    (moved t : Subscription) : (repoint_one handle fs_key acc moved).2.grant_of t = acc.2.grant_of t := by
  show ((acc.2.subs.modify moved fun g => { g with root := handle })[t]?).map _ = (acc.2.subs[t]?).map _
  rw [get_modify]
  split
  · rw [Option.map_map]
    rfl
  · rfl

end

section
omit [LawfulEqOrd C] [DecidableEq H]

theorem repoint_all_path (hs : P .still) (handle : H) (fs_key : List C) (l : List Subscription)
    (hm : ∀ ev, ev.subscription ∈ l → P (.rebase ev)) :
    ∀ acc : List (Event C V) × Delivery C V H,
      (∀ s ∈ l, ∃ key value, acc.2.grant_of s = some (key, value)) →
      Path P ⟨acc.2, acc.1, a, r⟩ ⟨(l.foldl (repoint_one handle fs_key) acc).2,
        (l.foldl (repoint_one handle fs_key) acc).1, a, r⟩ := by
  induction l with
  | nil =>
    intro acc _
    exact .refl
  | cons s l ih =>
    intro acc hl
    rw [List.foldl_cons]
    have hone : Path P ⟨acc.2, acc.1, a, r⟩ ⟨(repoint_one handle fs_key acc s).2,
        (repoint_one handle fs_key acc s).1, a, r⟩ :=
      repoint_one_path hs (fun ev he => hm ev (he ▸ List.mem_cons_self)) (hl s List.mem_cons_self)
    refine hone.trans (ih (fun ev he => hm ev (List.mem_cons_of_mem s he)) _ ?_)
    intro t ht
    rw [repoint_one_grants]
    exact hl t (List.mem_cons_of_mem s ht)

theorem dominate_all_path (hs : P .still) (l : List Subscription) : ∀ d : Delivery C V H,
    l.foldlM dominate_syncs_of_subscription d = some d' → Path P ⟨d, i, a, r⟩ ⟨d', i, a, r⟩ := by
  induction l with
  | nil =>
    intro d h
    obtain rfl := Option.some.inj h
    exact .refl
  | cons s l ih =>
    intro d h
    rw [List.foldlM_cons] at h
    obtain ⟨d₁, hd₁, h⟩ := Option.bind_eq_some_iff.mp h
    exact (dominate_syncs_of_subscription_path hs hd₁).trans (ih d₁ h)

end

section
omit [LawfulEqOrd C] [DecidableEq C] [DecidableEq H]

theorem repoint_all_rescans {handle : H} {fs_key : List C} (l : List Subscription) :
    ∀ acc : List (Event C V) × Delivery C V H, (∀ ev ∈ acc.1, ev.is_rescan = true) →
      ∀ ev ∈ (l.foldl (repoint_one handle fs_key) acc).1, ev.is_rescan = true := by
  induction l with
  | nil => exact fun acc h => h
  | cons s l ih =>
    intro acc h
    refine ih _ fun ev hev => ?_
    rcases List.mem_append.mp hev with hev | hev
    · exact h ev hev
    · rw [List.mem_singleton.mp hev]
      rfl

end

section
omit [LawfulEqOrd C] [DecidableEq H]

/-- A re-point mints the `Rescan`s that tell of it, and then pushes them. -/
theorem repoint_and_push_path {handle : H} {fs_key : List C} {moved : List Subscription}
    (hl : ∀ s ∈ moved, ∃ key value, d.grant_of s = some (key, value))
    (h : d.repoint_and_push handle fs_key moved = some d') :
    ∃ d₁ rescans, (∀ ev ∈ rescans, ev.is_rescan = true) ∧
      Path (fun act => act = .still ∨ ∃ ev, ev.subscription ∈ moved ∧ act = .rebase ev)
        ⟨d, [], [], []⟩ ⟨d₁, rescans, [], []⟩ ∧
      Path (fun act => act = .still ∨ ∃ ev ∈ rescans, act = .offer ev)
        ⟨d₁, rescans, [], []⟩ ⟨d', [], [], []⟩ := by
  obtain ⟨d₂, hd₂, h⟩ := Option.bind_eq_some_iff.mp h
  refine ⟨(d.repoint_all handle fs_key moved).2, (d.repoint_all handle fs_key moved).1, ?_, ?_, ?_⟩
  · exact repoint_all_rescans moved ([], d) fun ev hev => absurd hev List.not_mem_nil
  · exact repoint_all_path (.inl rfl) handle fs_key moved (fun ev hev => .inr ⟨ev, hev, rfl⟩) ([], d) hl
  · exact (push_all_path (.inl rfl) (fun ev hev => .inr ⟨ev, hev, rfl⟩) hd₂).trans
      (dominate_all_path (.inl rfl) moved d₂ h)

end

end Delivery

end Umbrella
