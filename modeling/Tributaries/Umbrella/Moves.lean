import Tributaries.Umbrella.Owing

/-! # The moves of a turn

  Part way through a turn the owner holds deliveries in its hands: some on
  their way to the coalescer, some on their way to the stream.  A turn is a
  path of small moves of what it holds and of its state, so what a move keeps
  a turn keeps.
-/

open Std Collections

namespace Umbrella

open Proto (Epoch u64Max)

namespace Delivery

variable {C V H : Type} [Ord C] [TransOrd C] [LawfulEqOrd C] [DecidableEq C] [DecidableEq H]

/-! ### Moves -/

/-- A turn part way. -/
structure Flight (C V H : Type) [Ord C] where
  d : Delivery C V H
  /-- Minted, and not yet pushed, oldest first. -/
  inbox : List (Event C V)
  /-- On the way to the stream, oldest first. -/
  air : List (Event C V)
  /-- Refused at a cap: their subscriptions are shed once the batch is in. -/
  refused : List (Event C V)

/-- What a move is about, where a later fact depends on it. -/
inductive Act (C V : Type) where
  | still
  | mint (ev : Event C V)
  | rebase (ev : Event C V)
  | shed (sub : Subscription)
  | offer (ev : Event C V)
  | tail

/-- The event a move puts on its way. -/
def Act.minted {C V : Type} : Act C V → Option (Event C V)
  | .mint ev | .rebase ev => some ev
  | _ => none

/-- A stamp: no lower than any before it, and above them all for a `Rescan`, short of
    the ceiling. -/
structure Stamped (l : EpochLedger) (ev : Event C V) (l' : EpochLedger) : Prop where
  floor : (l.high_water_of ev.subscription).as_u64 ≤ ev.epoch.as_u64 ∨ u64Max ≤ ev.epoch.as_u64
  above : ev.is_rescan = true → (l.high_water_of ev.subscription).as_u64 < ev.epoch.as_u64 ∨
    u64Max ≤ ev.epoch.as_u64
  marked : ev.epoch.as_u64 ≤ (l'.high_water_of ev.subscription).as_u64
  marks : ∀ t, (l.high_water_of t).as_u64 ≤ (l'.high_water_of t).as_u64
  bounded : (∀ t, (l.high_water_of t).as_u64 ≤ u64Max) → ∀ t, (l'.high_water_of t).as_u64 ≤ u64Max

/-- A delivery to a live subscription: inside its subtree, with the value it was watched with. -/
structure Addressed (d : Delivery C V H) (ev : Event C V) (key : List C) (value : V) : Prop where
  live : d.grant_of ev.subscription = some (key, value)
  inside : ∀ spot ∈ ev.spots, key <+: spot
  value : ev.value = some value

inductive Move : Act C V → Flight C V H → Flight C V H → Prop
  | quiet {d d' i a r} (h : Quiet d d') : Move .still ⟨d, i, a, r⟩ ⟨d', i, a, r⟩
  /-- A raw event is stamped for one subscription. -/
  | mint {d : Delivery C V H} {i a r ev key value epochs} (hd : Addressed d ev key value)
    (hs : Stamped d.epochs ev epochs) :
    Move (.mint ev) ⟨d, i, a, r⟩ ⟨{ d with epochs }, i ++ [ev], a, r⟩
  /-- A subscription is told that it was moved to another root. -/
  | rebase {d : Delivery C V H} {i a r ev key value epochs} (hd : Addressed d ev key value)
    (hs : Stamped d.epochs ev epochs) (hr : ev.is_rescan = true) (hk : ev.key = key) :
    Move (.rebase ev) ⟨d, i, a, r⟩ ⟨{ d.drop_buffered ev.subscription with epochs }, i ++ [ev], a, r⟩
  | shed {d : Delivery C V H} {i a r s key value} (hg : d.grant_of s = some (key, value)) :
    Move (.shed s) ⟨d, i, a, r⟩ ⟨d.shed_whole s key (some value), i, a, r⟩
  /-- The coalescer takes the oldest. -/
  | take {d : Delivery C V H} {i a r ev c far} (hc : d.coalescer = some c) :
    Move (.offer ev) ⟨d, ev :: i, a, r⟩
      ⟨{ d with coalescer := some (c.admit_event ev d.clock far).2 }, i, a,
        r ++ (c.admit_event ev d.clock far).1.toList.map fun _ => ev⟩
  /-- Past the coalescer; nothing older of its subscription is overtaken. -/
  | pass {d : Delivery C V H} {pre post a r ev} (h : ∀ x ∈ pre, x.subscription ≠ ev.subscription) :
    Move .still ⟨d, pre ++ ev :: post, a, r⟩ ⟨d, pre ++ post, a ++ [ev], r⟩
  | drain {d : Delivery C V H} {i a r c c' out} (hc : d.coalescer = some c)
    (hd : c.drain_ready d.clock = some (out, c')) :
    Move .still ⟨d, i, a, r⟩ ⟨{ d with coalescer := some c' }, i, a ++ out, r⟩
  | overflow {d : Delivery C V H} {i a r ev} :
    Move .still ⟨d, i, a, ev :: r⟩ ⟨d.park_rescan ev.subscription, i, a, r⟩
  | emit {d : Delivery C V H} {i a r ev} : Move .still ⟨d, i, ev :: a, r⟩ ⟨d.try_emit ev, i, a, r⟩
  /-- What is owed is delivered. -/
  | publish {d : Delivery C V H} {i a r s q events} (hq : d.needs_rescan[s]? = some q)
    (ha : d.events.try_send (q.offer s) = .accepted events)
    (hair : ∀ x ∈ i ++ a, x.subscription ≠ s) :
    Move .still ⟨d, i, a, r⟩
      ⟨{ d with events, needs_rescan := d.needs_rescan.erase s }, i, a, r⟩
  | discard {d : Delivery C V H} {i a r s} (hc : d.events.closed = true) :
    Move .still ⟨d, i, a, r⟩ ⟨{ d with needs_rescan := d.needs_rescan.erase s }, i, a, r⟩
  | flush {d : Delivery C V H} {i a r c s} (hc : d.coalescer = some c) :
    Move .still ⟨d, i, a, r⟩
      ⟨{ d with coalescer := some (c.flush_subscription s d.clock) }, i, a, r⟩
  | tail {d : Delivery C V H} {c} (hc : d.coalescer = some c) :
    Move .tail ⟨d, [], [], []⟩
      ⟨{ d with coalescer := some c.flush_all.2 }, [],
        c.flush_all.1.filter (fun ev => !d.owes ev.subscription), []⟩

/-- A turn, or a stretch of one, whose moves are all among `P`. -/
abbrev Path (P : Act C V → Prop) : Flight C V H → Flight C V H → Prop :=
  Relation.ReflTransGen fun F F' => ∃ act, P act ∧ Move act F F'

variable {P : Act C V → Prop} {d d' : Delivery C V H} {i a r evs : List (Event C V)}

section
omit [LawfulEqOrd C] [DecidableEq H]

theorem Path.one {act : Act C V} {F F' : Flight C V H} (h : P act) (hm : Move act F F') :
    Path P F F' := .single ⟨act, h, hm⟩

theorem Path.mono {Q : Act C V → Prop} {F F' : Flight C V H} (h : Path P F F')
    (hPQ : ∀ act, P act → Q act) : Path Q F F' :=
  Relation.ReflTransGen.mono (fun _ _ hm => hm.imp fun act hp => ⟨hPQ act hp.1, hp.2⟩) _ _ h

end

/-! ### The funnel -/

section
omit [LawfulEqOrd C] [DecidableEq H]

theorem quiet_path (hs : P .still) (h : Quiet d d') : Path P ⟨d, i, a, r⟩ ⟨d', i, a, r⟩ :=
  .one hs (.quiet h)

theorem try_emit_all_path (hs : P .still) (evs : List (Event C V)) :
    ∀ d : Delivery C V H, Path P ⟨d, i, evs, r⟩ ⟨d.try_emit_all evs, i, [], r⟩ := by
  induction evs with
  | nil =>
    intro d
    exact .refl
  | cons ev evs ih =>
    intro d
    exact (Path.one hs .emit).trans (ih _)

end

section
omit [LawfulEqOrd C] [DecidableEq C]

theorem coalesce_refused {c : Coalescer C V} {ev : Event C V} {now far : Instant}
    {config : DebounceConfig} {s : Subscription} (h : s ∈ (c.coalesce ev now far config).1) :
    s = ev.subscription := by
  unfold Coalescer.coalesce at h
  dsimp only at h
  split at h
  · unfold Coalescer.open_burst at h
    dsimp only at h
    split at h
    · exact (Option.some.inj h).symm
    · split at h
      · exact (Option.some.inj h).symm
      · cases h
  · cases h

/-- A refused event is of the subscription it names. -/
theorem admit_refused {c : Coalescer C V} {ev : Event C V} {now far : Instant} :
    ∀ s ∈ (c.admit_event ev now far).1, s = ev.subscription := by
  intro s hs
  by_cases hk : ev.kind.is_lifecycle = true
  · cases hp : c.effective_policy ev.subscription with
    | none =>
      rw [Coalescer.admit_event_immediate hk hp] at hs
      cases hs
    | some config =>
      rw [Coalescer.admit_event_coalesced hk hp] at hs
      exact coalesce_refused hs
  · -- what is no change is never refused
    unfold Coalescer.admit_event at hs
    cases hkind : ev.kind with
    | rescan =>
      rw [hkind] at hs
      cases hs
    | moved source =>
      rw [hkind] at hs
      cases hs
    | _ => exact absurd (by rw [hkind]; rfl) hk

theorem admit_all_cons (now far : Instant) (c : Coalescer C V) (ev : Event C V)
    (evs : List (Event C V)) : admit_all now far c (ev :: evs) =
      ((c.admit_event ev now far).1.toList ++ (admit_all now far (c.admit_event ev now far).2 evs).1,
        (admit_all now far (c.admit_event ev now far).2 evs).2) := rfl

end

section
omit [LawfulEqOrd C] [DecidableEq H]

theorem admit_all_path (far : Instant) (evs : List (Event C V)) (ho : ∀ ev ∈ evs, P (.offer ev)) :
    ∀ (c : Coalescer C V) (r : List (Event C V)),
      ∃ rs, (admit_all d.clock far c evs).1 = rs.map Event.subscription ∧
        Path P ⟨{ d with coalescer := some c }, evs, a, r⟩
          ⟨{ d with coalescer := some (admit_all d.clock far c evs).2 }, [], a, r ++ rs⟩ := by
  induction evs with
  | nil =>
    intro c r
    refine ⟨[], rfl, ?_⟩
    rw [List.append_nil]
    exact .refl
  | cons ev evs ih =>
    intro c r
    obtain ⟨rs, hr, hp⟩ := ih (fun x hx => ho x (List.mem_cons_of_mem ev hx))
      (c.admit_event ev d.clock far).2
      (r ++ (c.admit_event ev d.clock far).1.toList.map fun _ => ev)
    refine ⟨((c.admit_event ev d.clock far).1.toList.map fun _ => ev) ++ rs, ?_, ?_⟩
    · have hone : (c.admit_event ev d.clock far).1.toList =
          ((c.admit_event ev d.clock far).1.toList.map fun _ => ev).map Event.subscription := by
        cases hs : (c.admit_event ev d.clock far).1 with
        | none => rfl
        | some s => exact congrArg (fun s => [s]) (admit_refused s hs)
      rw [admit_all_cons, List.map_append, ← hr, ← hone]
    · rw [← List.append_assoc, admit_all_cons]
      exact (Path.one (ho ev List.mem_cons_self) (.take rfl)).trans hp

theorem overflow_path (hs : P .still) :
    Path P ⟨d, i, a, r⟩ ⟨(r.map Event.subscription).foldl park_rescan d, i, a, []⟩ := by
  induction r generalizing d with
  | nil => exact .refl
  | cons ev r ih => exact (Path.one hs .overflow).trans ih

/-- Past the coalescer, all of some subscriptions. -/
theorem pass_path (hs : P .still) (p : Subscription → Bool) :
    Path P ⟨d, evs, a, r⟩ ⟨d, evs.filter (fun ev => !p ev.subscription),
      a ++ evs.filter (fun ev => p ev.subscription), r⟩ := by
  have pass : ∀ (evs pre a : List (Event C V)), (∀ x ∈ pre, p x.subscription = false) →
      Path P ⟨d, pre ++ evs, a, r⟩ ⟨d, pre ++ evs.filter (fun ev => !p ev.subscription),
        a ++ evs.filter (fun ev => p ev.subscription), r⟩ := by
    intro evs
    induction evs with
    | nil =>
      intro pre a _
      simp only [List.filter_nil, List.append_nil]
      exact .refl
    | cons ev evs ih =>
      intro pre a hpre
      by_cases hp : p ev.subscription = true
      · rw [List.filter_cons_of_pos (p := fun ev : Event C V => p ev.subscription) hp,
          List.filter_cons_of_neg (p := fun ev : Event C V => !p ev.subscription) (by simp [hp]),
          List.append_cons a]
        refine (Path.one hs (.pass ?_)).trans (ih pre (a ++ [ev]) hpre)
        intro x hx he
        rw [← he, hpre x hx] at hp
        cases hp
      · have hp : p ev.subscription = false := Bool.eq_false_iff.mpr hp
        rw [List.filter_cons_of_neg (p := fun ev : Event C V => p ev.subscription) (by simp [hp]),
          List.filter_cons_of_pos (p := fun ev : Event C V => !p ev.subscription) (by simp [hp]),
          List.append_cons pre, List.append_cons pre _ (evs.filter _)]
        refine ih (pre ++ [ev]) a ?_
        intro x hx
        rcases List.mem_append.mp hx with hx | hx
        · exact hpre x hx
        · rw [List.mem_singleton.mp hx]
          exact hp
  exact pass evs [] a fun x hx => absurd hx List.not_mem_nil

theorem push_all_path (hs : P .still) (ho : ∀ ev ∈ evs, P (.offer ev))
    (h : d.push_all evs = some d') : Path P ⟨d, evs, [], []⟩ ⟨d', [], [], []⟩ := by
  unfold push_all at h
  split at h
  · obtain rfl := Option.some.inj h
    have hpass : Path P ⟨d, evs, [], []⟩
        ⟨d, evs.filter fun _ => !true, [] ++ evs.filter fun _ => true, []⟩ := pass_path hs fun _ => true
    have hnone : (evs.filter fun _ => !true) = [] := List.filter_eq_nil_iff.mpr fun _ _ h => by cases h
    have hall : (evs.filter fun _ => true) = evs := List.filter_eq_self.mpr fun _ _ => rfl
    rw [hnone, hall] at hpass
    exact hpass.trans (try_emit_all_path hs evs d)
  · rename_i c hc
    obtain ⟨⟨out, c'⟩, hd, h⟩ := Option.bind_eq_some_iff.mp h
    obtain rfl := Option.some.inj h
    obtain ⟨rs, hr, hp⟩ := admit_all_path (d := d.now) (a := []) d.now.far evs ho c []
    rw [hr]
    have hnow : Path P ⟨d, evs, [], []⟩ ⟨{ d.now with coalescer := some c }, evs, [], []⟩ := by
      have he : { d.now with coalescer := some c } = d.now := by rw [← hc]; rfl
      rw [he]
      exact quiet_path hs (quiet_now d)
    have hdrain : Path P
        ⟨{ d.now with coalescer := some (admit_all d.now.clock d.now.far c evs).2 }, [], [], rs⟩
        ⟨{ d.now with coalescer := some c' }, [], out, rs⟩ := .one hs (.drain rfl hd)
    exact hnow.trans (hp.trans (hdrain.trans ((overflow_path hs).trans (try_emit_all_path hs out _))))

theorem drain_coalescer_due_path (hs : P .still) (h : d.drain_coalescer_due = some d') :
    Path P ⟨d, [], [], []⟩ ⟨d', [], [], []⟩ := by
  unfold drain_coalescer_due at h
  split at h
  · obtain rfl := Option.some.inj h
    exact .refl
  · rename_i c hc
    obtain ⟨⟨out, c'⟩, hd, h⟩ := Option.bind_eq_some_iff.mp h
    obtain rfl := Option.some.inj h
    have hdrain : Path P ⟨d.now, [], [], []⟩ ⟨{ d.now with coalescer := some c' }, [], out, []⟩ :=
      .one hs (.drain hc hd)
    exact (quiet_path hs (quiet_now d)).trans (hdrain.trans (try_emit_all_path hs out _))

end

/-! ### What is owed -/

section
omit [LawfulEqOrd C] [DecidableEq H]

theorem flush_visits_path (hs : P .still) (n : Nat) :
    ∀ (bound : ParkedRescans.Bound) (d : Delivery C V H),
      (∀ x ∈ i ++ a, d.needs_rescan[x.subscription]? = none) →
      Path P ⟨d, i, a, r⟩ ⟨d.flush_visits n bound, i, a, r⟩ := by
  have cursor : ∀ (d : Delivery C V H) (c : Option Subscription),
      Path P ⟨d, i, a, r⟩ ⟨{ d with flush_cursor := c }, i, a, r⟩ :=
    fun d c => quiet_path hs { Quiet.refl d with }
  induction n with
  | zero =>
    intro bound d _
    exact cursor d none
  | succ n ih =>
    intro bound d hair
    -- erasing an entry leaves what flies unowed
    have erased : ∀ sub : Subscription, ∀ x ∈ i ++ a,
        (d.needs_rescan.erase sub)[x.subscription]? = none := by
      intro sub x hx
      rw [get_erase]
      split
      · rfl
      · exact hair x hx
    unfold flush_visits
    split
    · exact cursor d none
    · rename_i sub hfirst
      split
      · exact ih _ d hair
      · rename_i q hq
        split
        · rename_i events ha
          have hne : ∀ x ∈ i ++ a, x.subscription ≠ sub := by
            intro x hx he
            have := hair x hx
            rw [he, hq] at this
            cases this
          have hmove : Path P ⟨d, i, a, r⟩
              ⟨{ d with events, needs_rescan := d.needs_rescan.erase sub }, i, a, r⟩ :=
            .one hs (.publish hq ha hne)
          exact hmove.trans ((quiet_path hs (quiet_note_domination _)).trans (ih _ _ (erased sub)))
        · rename_i hc
          have hmove : Path P ⟨d, i, a, r⟩
              ⟨{ d with needs_rescan := d.needs_rescan.erase sub }, i, a, r⟩ :=
            .one hs (.discard (BoundedChannel.try_send_closed hc))
          exact hmove.trans (ih _ _ (erased sub))
        · exact cursor d (some sub)

theorem flush_pending_rescans_path (hs : P .still)
    (hair : ∀ x ∈ i ++ a, d.needs_rescan[x.subscription]? = none) :
    Path P ⟨d, i, a, r⟩ ⟨d.flush_pending_rescans, i, a, r⟩ := by
  unfold flush_pending_rescans
  split
  · exact .refl
  · split
    · exact .refl
    · exact flush_visits_path hs _ _ d hair

/-- The teardown pass: the tail is taken first, and nothing after it drops anything. -/
theorem drain_owed_once_moves (d : Delivery C V H) : ∃ F : Flight C V H,
    (F = ⟨d, [], [], []⟩ ∨ Move .tail ⟨d, [], [], []⟩ F) ∧
      Path (fun act => act = .still) F ⟨d.drain_owed_once, [], [], []⟩ := by
  unfold drain_owed_once
  cases hc : d.coalescer with
  | none =>
    have he : { d with coalescer := none } = d := by rw [← hc]
    refine ⟨_, .inl rfl, ?_⟩
    dsimp only
    rw [he]
    exact flush_pending_rescans_path (P := fun act => act = .still) rfl
      fun x hx => absurd hx List.not_mem_nil
  | some c =>
    refine ⟨_, .inr (.tail hc), ?_⟩
    apply (flush_pending_rescans_path (P := fun act => act = .still) rfl ?_).trans
    · exact try_emit_all_path (P := fun act => act = .still) rfl _ _
    -- the tail kept is of subscriptions that are owed nothing
    intro x hx
    obtain ⟨-, ho⟩ := List.mem_filter.mp hx
    have ho : d.owes x.subscription = false := by simpa using ho
    unfold owes at ho
    rw [Bool.or_eq_false_iff] at ho
    exact contains_false_iff.mp ho.1

theorem drain_owed_once_path (hs : P .still) (ht : P .tail) :
    Path P ⟨d, [], [], []⟩ ⟨d.drain_owed_once, [], [], []⟩ := by
  obtain ⟨F, hF, hp⟩ := drain_owed_once_moves d
  have hp : Path P F ⟨d.drain_owed_once, [], [], []⟩ := hp.mono fun act ha => ha ▸ hs
  rcases hF with rfl | hm
  · exact hp
  · exact (Path.one ht hm).trans hp

end

/-! ### Fan-out -/

section
omit [Ord C] [TransOrd C] [LawfulEqOrd C] [DecidableEq C]

/-- A bump by a stamp no lower than the mark. -/
theorem stamped_bump {l l' : EpochLedger} {ev : Event C V} {n : Nat}
    (hl : l'.high_water = (l.bump ev.subscription ev.epoch).high_water)
    (he : ev.epoch.as_u64 = Nat.max (Nat.min n u64Max) (l.high_water_of ev.subscription).as_u64 ∧
        ev.is_rescan = false ∨
      ev.epoch.as_u64 = Nat.max (Nat.min n u64Max) (l.high_water_of ev.subscription).next.as_u64) :
    Stamped l ev l' := by
  have hmark : ∀ t, l'.high_water_of t = (l.bump ev.subscription ev.epoch).high_water_of t := by
    intro t
    unfold EpochLedger.high_water_of
    rw [hl]
  have hnext := EpochLedger.lt_next (Nat.le_refl (l.high_water_of ev.subscription).as_u64)
  have hcap := EpochLedger.next_bounded (l.high_water_of ev.subscription)
  have hmin : Nat.min n u64Max ≤ u64Max := Nat.min_le_right _ _
  refine ⟨?_, ?_, ?_, ?_, ?_⟩
  · rcases he with ⟨he, -⟩ | he
    · exact .inl (he ▸ Nat.le_max_right _ _)
    · have hle := Nat.le_trans (Nat.le_max_right _ _) (Nat.le_of_eq he.symm)
      omega
  · intro hr
    rcases he with ⟨-, hn⟩ | he
    · rw [hn] at hr
      cases hr
    · have hle := Nat.le_trans (Nat.le_max_right _ _) (Nat.le_of_eq he.symm)
      omega
  · rw [hmark]
    exact EpochLedger.le_high_water_bump l _ _
  · intro t
    rw [hmark]
    exact EpochLedger.high_water_le_bump l _ t _
  · intro hb t
    rw [hmark]
    refine EpochLedger.bump_bounded _ hb ?_ t
    rcases he with ⟨he, -⟩ | he
    · exact he ▸ Nat.max_le.mpr ⟨hmin, hb _⟩
    · exact he ▸ Nat.max_le.mpr ⟨hmin, hcap⟩

theorem stamped_stamp (l : EpochLedger) (ev : Event C V) (raw : Epoch) (h : ev.is_rescan = false)
    (he : ev.epoch = (l.stamp ev.subscription raw).1) :
    Stamped l ev (l.stamp ev.subscription raw).2 :=
  stamped_bump (by rw [he]; rfl) (.inl ⟨congrArg Epoch.as_u64 he, h⟩)

theorem stamped_rescan (l : EpochLedger) (ev : Event C V) (raw : Epoch)
    (he : ev.epoch = (l.stamp_rescan ev.subscription raw).1) :
    Stamped l ev (l.stamp_rescan ev.subscription raw).2 :=
  stamped_bump (by rw [he]; rfl) (.inr (congrArg Epoch.as_u64 he))

theorem stamped_repoint (l : EpochLedger) (ev : Event C V)
    (he : ev.epoch = (l.repoint ev.subscription).1) : Stamped l ev (l.repoint ev.subscription).2 := by
  refine stamped_bump (n := 0) (by rw [he]; rfl) (.inr ?_)
  rw [he]
  show _ = max (min 0 u64Max) _
  have : (l.repoint ev.subscription).1.as_u64 = (l.high_water_of ev.subscription).next.as_u64 := rfl
  omega

end

section
omit [Ord C] [TransOrd C] [LawfulEqOrd C] [DecidableEq H]

/-- What a fan-out mints for a subscription is inside its subtree. -/
theorem mem_fan_out_inside {raw : SourceEvent C H} {reserved : ReservedEndpoints}
    {subs : List Subscription} {canonical_of : Subscription → Option (List C)}
    {admits : Subscription → Event C V → Bool} {ev : Event C V}
    (h : ev ∈ fan_out (SourceRoutable raw reserved) subs canonical_of admits) :
    ∃ key, canonical_of ev.subscription = some key ∧ (∀ spot ∈ ev.spots, key <+: spot) ∧
      (ev.is_rescan = true → raw.is_rescan = true) := by
  obtain ⟨sub, hs, hb⟩ := List.mem_filterMap.mp h
  obtain ⟨key, hk, hp⟩ := Option.bind_eq_some_iff.mp hb
  obtain ⟨p, hproj, hd⟩ := project_for_projects hp
  have hface : ev.key = p.key ∧ ev.kind = p.kind ∧ ev.subscription = p.subscription := by
    rw [hd]
    split
    · exact rebase_location_key p _
    · exact ⟨rfl, rfl, rfl⟩
  obtain ⟨hkey, hkind, hsub⟩ := hface
  have hspots : ev.spots = p.spots := by
    unfold Event.spots Event.move_from
    rw [hkey, hkind]
  have hrescan : ev.is_rescan = p.is_rescan := by
    unfold Event.is_rescan
    rw [hkind]
  rw [hspots, hrescan, hsub]
  cases hproj with
  | whole hin hsrc =>
    refine ⟨key, hk, ?_, fun hr => hr⟩
    intro spot hm
    rcases List.mem_cons.mp hm with rfl | hm
    · exact hin
    · have hm : raw.kind.moved_from = some spot := Option.mem_toList.mp hm
      unfold EventKind.moved_from at hm
      split at hm
      · rename_i hkind
        exact hsrc spot (hkind.trans (congrArg EventKind.moved (Option.some.inj hm)))
      · cases hm
  | @move_out source hraw hin =>
    refine ⟨key, hk, ?_, fun hr => by cases hr⟩
    intro spot hm
    have hm : spot ∈ [raw.move_from.getD raw.key] := hm
    rw [List.mem_singleton.mp hm]
    unfold SourceEvent.move_from
    rw [hraw]
    exact hin
  | move_in hin =>
    refine ⟨key, hk, ?_, fun hr => by cases hr⟩
    intro spot hm
    have hm : spot ∈ [raw.key] := hm
    rw [List.mem_singleton.mp hm]
    exact hin
  | clamped hraw hn hin =>
    refine ⟨key, hk, ?_, fun _ => ?_⟩
    · intro spot hm
      have hm : spot ∈ [key] := hm
      rw [List.mem_singleton.mp hm]
    · unfold SourceEvent.is_rescan
      rw [hraw]
      rfl

end

/-- The deliveries of one raw event, stamped in order. -/
def stamp_deliveries (d : Delivery C V H) (is_rescan : Bool) (raw : Epoch) (epochs : EpochLedger)
    (l : List (Event C V)) : List (Event C V) × EpochLedger :=
  epochs.stamp_all is_rescan raw Event.subscription
    (fun ev stamp => (ev.set_epoch stamp).set_value (d.subscription_value ev.subscription)) l

section
omit [TransOrd C] [LawfulEqOrd C] [DecidableEq C] [DecidableEq H]

theorem stamp_deliveries_cons {is_rescan : Bool} {raw stamp : Epoch} {epochs epochs' : EpochLedger}
    {x : Event C V} (l : List (Event C V))
    (h : (if is_rescan then epochs.stamp_rescan x.subscription raw
      else epochs.stamp x.subscription raw) = (stamp, epochs')) :
    d.stamp_deliveries is_rescan raw epochs (x :: l) =
      ((x.set_epoch stamp).set_value (d.subscription_value x.subscription) ::
        (d.stamp_deliveries is_rescan raw epochs' l).1,
        (d.stamp_deliveries is_rescan raw epochs' l).2) := by
  show EpochLedger.stamp_all _ _ _ _ _ _ = _
  rw [EpochLedger.stamp_all, h]
  rfl

end

section
omit [LawfulEqOrd C] [DecidableEq H]

theorem stamp_deliveries_path {is_rescan : Bool} {raw : Epoch} (l : List (Event C V)) :
    ∀ (epochs : EpochLedger) (i : List (Event C V)),
      (∀ x ∈ l, ∃ key value, d.grant_of x.subscription = some (key, value) ∧
        (∀ spot ∈ x.spots, key <+: spot) ∧ (x.is_rescan = true → is_rescan = true)) →
      (∀ ev ∈ (d.stamp_deliveries is_rescan raw epochs l).1, P (.mint ev)) →
      Path P ⟨{ d with epochs }, i, a, r⟩
        ⟨{ d with epochs := (d.stamp_deliveries is_rescan raw epochs l).2 },
          i ++ (d.stamp_deliveries is_rescan raw epochs l).1, a, r⟩ := by
  induction l with
  | nil =>
    intro epochs i _ _
    show Path P _ ⟨_, i ++ [], a, r⟩
    rw [List.append_nil]
    exact .refl
  | cons x l ih =>
    intro epochs i hl hm
    obtain ⟨key, value, hg, hin, hr⟩ := hl x List.mem_cons_self
    generalize hst : (if is_rescan then epochs.stamp_rescan x.subscription raw
      else epochs.stamp x.subscription raw) = stamped at *
    obtain ⟨stamp, epochs'⟩ := stamped
    rw [stamp_deliveries_cons l hst] at hm ⊢
    have hmint : Path P ⟨{ d with epochs }, i, a, r⟩ ⟨{ d with epochs := epochs' },
        i ++ [(x.set_epoch stamp).set_value (d.subscription_value x.subscription)], a, r⟩ := by
      have hvalue : d.subscription_value x.subscription = some value := by
        rw [subscription_value_eq, hg]
        rfl
      have hd : Addressed { d with epochs }
          ((x.set_epoch stamp).set_value (d.subscription_value x.subscription)) key value :=
        ⟨hg, hin, hvalue⟩
      refine .one (hm _ List.mem_cons_self) (.mint hd ?_)
      show Stamped epochs _ epochs'
      cases is_rescan with
      | true =>
        have h₁ : stamp = (epochs.stamp_rescan x.subscription raw).1 := (congrArg Prod.fst hst).symm
        have h₂ : (epochs.stamp_rescan x.subscription raw).2 = epochs' := congrArg Prod.snd hst
        rw [← h₂]
        exact stamped_rescan epochs _ raw h₁
      | false =>
        have h₁ : stamp = (epochs.stamp x.subscription raw).1 := (congrArg Prod.fst hst).symm
        have h₂ : (epochs.stamp x.subscription raw).2 = epochs' := congrArg Prod.snd hst
        have hx : x.is_rescan = false := Bool.eq_false_iff.mpr fun hx => by cases hr hx
        rw [← h₂]
        exact stamped_stamp epochs _ raw hx h₁
    refine hmint.trans ?_
    have hrest := ih epochs' (i ++ [(x.set_epoch stamp).set_value (d.subscription_value x.subscription)])
      (fun y hy => hl y (List.mem_cons_of_mem x hy)) fun ev hev => hm ev (List.mem_cons_of_mem _ hev)
    rwa [List.append_assoc] at hrest

end

section
omit [LawfulEqOrd C]

theorem fan_out_raw_path {raw : SourceEvent C H} {reserved : ReservedEndpoints}
    {order : List Subscription} {gate : Gate C}
    (hm : ∀ ev ∈ (d.fan_out_raw raw reserved order gate).1, P (.mint ev)) :
    Path P ⟨d, i, a, r⟩ ⟨(d.fan_out_raw raw reserved order gate).2.2,
      i ++ (d.fan_out_raw raw reserved order gate).1, a, r⟩ := by
  refine stamp_deliveries_path (d := d) _ d.epochs i ?_ hm
  intro x hx
  obtain ⟨key, hk, hin, hr⟩ := mem_fan_out_inside hx
  rw [subscription_key_eq] at hk
  obtain ⟨⟨key', value⟩, hg, rfl⟩ := Option.map_eq_some_iff.mp hk
  exact ⟨key', value, hg, hin, hr⟩

end

end Delivery

end Umbrella
