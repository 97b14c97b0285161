import Tributaries.Umbrella.Delivery
import Tributaries.Umbrella.Waiting

/-! # What a loss leaves behind

  A delivery that cannot be made is stood for by what is owed in its place.
  The three ways to owe more are described at once: what was owed is still
  owed, at a key above and an epoch no lower, and it covers what was lost.
-/

open Std Collections

namespace Umbrella

open Proto (Epoch u64Max)

/-! ### Covering -/

section

variable {C V : Type}

/-- The keys a change is at: its own, and a move's source. -/
def Event.spots (e : Event C V) : List (List C) := e.key :: e.move_from.toList

/-- A `Rescan` of `key` at `epoch` stands in for a change: it reads every key of it again,
    and is told apart from everything stamped no later than it. -/
structure Covers (key : List C) (epoch : Epoch) (x : Event C V) : Prop where
  spots : ∀ spot ∈ x.spots, key <+: spot
  overtakes : x.epoch.as_u64 < epoch.as_u64 ∨ u64Max ≤ epoch.as_u64 ∨
    x.is_rescan = true ∧ x.epoch.as_u64 ≤ epoch.as_u64

theorem Covers.widen {key key' : List C} {epoch epoch' : Epoch} {x : Event C V}
    (h : Covers key epoch x) (hk : key' <+: key) (he : epoch.as_u64 ≤ epoch'.as_u64) :
    Covers key' epoch' x where
  spots spot hs := hk.trans (h.spots spot hs)
  overtakes := by
    rcases h.overtakes with ho | ho | ⟨hr, ho⟩
    · exact .inl (by omega)
    · exact .inr (.inl (by omega))
    · exact .inr (.inr ⟨hr, by omega⟩)

theorem Event.spots_rescan {e : Event C V} (h : e.is_rescan = true) : e.spots = [e.key] := by
  unfold spots move_from
  unfold is_rescan EventKind.is_rescan at h
  split at h
  · rename_i hk
    rw [hk]
    rfl
  · cases h

/-- What covers a covering `Rescan` covers what it covers. -/
theorem Covers.trans {key : List C} {epoch : Epoch} {r x : Event C V} (h : Covers key epoch r)
    (hr : r.is_rescan = true) (hx : Covers r.key r.epoch x) : Covers key epoch x where
  spots spot hs := by
    have hk : key <+: r.key := h.spots r.key (by rw [Event.spots_rescan hr]; exact List.mem_singleton.mpr rfl)
    exact hk.trans (hx.spots spot hs)
  overtakes := by
    rcases h.overtakes with h | h | ⟨-, h⟩ <;> rcases hx.overtakes with hx | hx | ⟨hr, hx⟩
    · exact .inl (by omega)
    · exact .inr (.inl (by omega))
    · exact .inl (by omega)
    · exact .inr (.inl h)
    · exact .inr (.inl h)
    · exact .inr (.inl h)
    · exact .inl (by omega)
    · exact .inr (.inl (by omega))
    · exact .inr (.inr ⟨hr, by omega⟩)

end

namespace Delivery

variable {C V H : Type} [Ord C] [TransOrd C] [LawfulEqOrd C] [DecidableEq C] [DecidableEq H]
  {d d' d'' : Delivery C V H} {s t : Subscription} {x ev : Event C V}

/-! ### Reads -/

/-- Where and with what a live subscription was watched. -/
def grant_of (d : Delivery C V H) (sub : Subscription) : Option (List C × V) :=
  (d.subs[sub]?).map fun g => (g.key, g.value)

/-- The greatest epoch a subscription was stamped with. -/
def mark (d : Delivery C V H) (sub : Subscription) : Nat := (d.epochs.high_water_of sub).as_u64

/-- An event settles, or is ready to leave. -/
def Waits (d : Delivery C V H) (x : Event C V) : Prop := ∃ c, d.coalescer = some c ∧ c.Waits x

/-- The subscriptions minted so far. -/
def minted (d : Delivery C V H) : Set Subscription :=
  { s | s.instance_id = d.instance_id ∧ s.scope.as_u64 < d.next_sub.as_u64 }

/-- What is owed, in either plane. -/
def Owed (d : Delivery C V H) (sub : Subscription) (q : ParkedRescan C V) : Prop :=
  d.needs_rescan[sub]? = some q ∨ d.suppressed_rescan[sub]? = some q

section
omit [TransOrd C] [LawfulEqOrd C] [DecidableEq C] [DecidableEq H]

theorem owes_iff : d.owes s = true ↔ ∃ q, d.Owed s q := by
  unfold owes Owed
  rw [Bool.or_eq_true, contains_iff, contains_iff]
  constructor
  · intro h
    rcases h with ⟨q, hq⟩ | ⟨q, hq⟩
    · exact ⟨q, .inl hq⟩
    · exact ⟨q, .inr hq⟩
  · intro h
    obtain ⟨q, hq | hq⟩ := h
    · exact .inl ⟨q, hq⟩
    · exact .inr ⟨q, hq⟩

theorem subscription_key_eq : d.subscription_key s = (d.grant_of s).map Prod.fst := by
  unfold subscription_key grant_of
  rw [Option.map_map]
  rfl

theorem subscription_value_eq : d.subscription_value s = (d.grant_of s).map Prod.snd := by
  unfold subscription_value grant_of
  rw [Option.map_map]
  rfl

end

/-! ### Turns that deliver nothing -/

/-- Nothing of the way to the stream changes; the clocks only move on. -/
structure Quiet (d d' : Delivery C V H) : Prop where
  instance_id : d'.instance_id = d.instance_id
  next_sub : d'.next_sub = d.next_sub
  grants : ∀ s, d'.grant_of s = d.grant_of s
  epochs : d'.epochs = d.epochs
  debounce : d'.debounce = d.debounce
  coalescer : d'.coalescer = d.coalescer
  events : d'.events = d.events
  needs : d'.needs_rescan = d.needs_rescan
  suppressed : d'.suppressed_rescan = d.suppressed_rescan
  unclaimed : d'.unclaimed = d.unclaimed
  clock : d.clock ≤ d'.clock
  serial : ∀ s, d'.loss_count s = d.loss_count s
  gen : d.loss_gen ≤ d'.loss_gen

section
omit [TransOrd C] [LawfulEqOrd C] [DecidableEq C] [DecidableEq H]

theorem Quiet.refl (d : Delivery C V H) : Quiet d d :=
  ⟨rfl, rfl, fun _ => rfl, rfl, rfl, rfl, rfl, rfl, rfl, rfl, Nat.le_refl _, fun _ => rfl,
    Nat.le_refl _⟩

theorem loss_count_note (d : Delivery C V H) (s t : Subscription) :
    (d.note_loss s).loss_count t = if s = t then d.loss_count s + 1 else d.loss_count t := by
  unfold note_loss loss_count
  dsimp only
  rw [get_insert]
  by_cases h : s = t
  · rw [if_pos h, if_pos h]
    rfl
  · rw [if_neg h, if_neg h]

theorem quiet_now (d : Delivery C V H) : Quiet d d.now :=
  { Quiet.refl d with clock := Nat.le_add_right _ _ }

theorem quiet_note_domination (d : Delivery C V H) : Quiet d d.note_domination :=
  { Quiet.refl d with gen := Nat.le_succ _ }

end

/-! ### Owing more -/

/-- A subscription is owed more: at `epoch` or later, over all of `covers`. -/
structure Owing (d d' : Delivery C V H) (s : Subscription) (covers : List (List C)) (epoch : Epoch)
    (value : Option V) : Prop where
  instance_id : d'.instance_id = d.instance_id
  next_sub : d'.next_sub = d.next_sub
  subs : d'.subs = d.subs
  debounce : d'.debounce = d.debounce
  events : d'.events = d.events
  unclaimed : d'.unclaimed = d.unclaimed
  clock : d'.clock = d.clock
  /-- What still settles of it may be dropped, and nothing else is. -/
  coalescer : d'.coalescer = d.coalescer ∨
    d'.coalescer = d.coalescer.map fun c => c.drop_subscription s
  marks : ∀ t, d.mark t ≤ d'.mark t
  bounded : (∀ t, d.mark t ≤ u64Max) → ∀ t, d'.mark t ≤ u64Max
  needs : Widens d.needs_rescan d'.needs_rescan s covers epoch value
  suppressed : Widens d.suppressed_rescan d'.suppressed_rescan s covers epoch value
  /-- A plane that owed nothing is that of the subscription's claim. -/
  claimed : d.needs_rescan[s]? = none → d'.needs_rescan[s]? = none ∨ s ∉ d.unclaimed
  unclaimed_only : d.suppressed_rescan[s]? = none → d'.suppressed_rescan[s]? = none ∨ s ∈ d.unclaimed
  owed : ∃ q, d'.Owed s q ∧ (∀ key ∈ covers, q.key <+: key) ∧ epoch.as_u64 ≤ q.epoch.as_u64
  /-- The loss is noted. -/
  serial : ∀ t, d'.loss_count t = if s = t then d.loss_count s + 1 else d.loss_count t
  gen : d'.loss_gen = d.loss_gen + 1

section
omit [TransOrd C] [LawfulEqOrd C] [DecidableEq H]

/-- Owing in the plane of the claim. -/
theorem merge_owed_planes (d : Delivery C V H) (s : Subscription) (key : List C) (epoch : Epoch)
    (value : Option V) :
    Widens d.needs_rescan (d.merge_owed s key epoch value).needs_rescan s [key] epoch value ∧
    Widens d.suppressed_rescan (d.merge_owed s key epoch value).suppressed_rescan s [key] epoch value ∧
    (d.needs_rescan[s]? = none →
      (d.merge_owed s key epoch value).needs_rescan[s]? = none ∨ s ∉ d.unclaimed) ∧
    (d.suppressed_rescan[s]? = none →
      (d.merge_owed s key epoch value).suppressed_rescan[s]? = none ∨ s ∈ d.unclaimed) ∧
    ∃ q, (d.merge_owed s key epoch value).Owed s q ∧ (∀ k ∈ [key], q.key <+: k) ∧
      epoch.as_u64 ≤ q.epoch.as_u64 := by
  unfold merge_owed
  split
  · rename_i h
    obtain ⟨hw, q, hq, hk, he⟩ := merge_max_widens d.suppressed_rescan s key epoch value
    have hs : s ∈ d.unclaimed := ExtTreeSet.contains_iff_mem.mp h
    refine ⟨.refl _ _ _ _ _, hw, fun hn => .inl hn, fun _ => .inr hs, q, .inr hq, ?_, he⟩
    intro k hm
    rw [List.mem_singleton.mp hm]
    exact hk
  · rename_i h
    obtain ⟨hw, q, hq, hk, he⟩ := merge_max_widens d.needs_rescan s key epoch value
    have hs : s ∉ d.unclaimed := fun hm => h (ExtTreeSet.contains_iff_mem.mpr hm)
    refine ⟨hw, .refl _ _ _ _ _, fun _ => .inr hs, fun hn => .inl hn, q, .inl hq, ?_, he⟩
    intro k hm
    rw [List.mem_singleton.mp hm]
    exact hk

theorem merge_owed_rest (d : Delivery C V H) (s : Subscription) (key : List C) (epoch : Epoch)
    (value : Option V) : ∃ needs suppressed, d.merge_owed s key epoch value =
      { d with needs_rescan := needs, suppressed_rescan := suppressed } := by
  unfold merge_owed
  split
  · exact ⟨_, _, rfl⟩
  · exact ⟨_, _, rfl⟩

end

section
omit [TransOrd C] [LawfulEqOrd C] [DecidableEq C] [DecidableEq H]

/-- The epoch a shed answers is above everything stamped, and stamped itself. -/
theorem shed_marks (d : Delivery C V H) (s : Subscription) :
    (∀ t, d.mark t ≤ (d.shed s).2.mark t) ∧ (d.shed s).1.as_u64 ≤ (d.shed s).2.mark s ∧
      (d.mark s < (d.shed s).1.as_u64 ∨ u64Max ≤ (d.shed s).1.as_u64) :=
  ⟨fun t => EpochLedger.high_water_le_bump d.epochs s t _,
    EpochLedger.le_high_water_bump d.epochs s _, EpochLedger.lt_next (Nat.le_refl _)⟩

end

/-- Sheds a subscription: what settles of it is dropped behind a `Rescan` at `key`. -/
def shed_whole (d : Delivery C V H) (s : Subscription) (key : List C) (value : Option V) :
    Delivery C V H :=
  let d := d.note_loss s
  let (epoch, d) := d.shed s
  (d.merge_owed s key epoch value).drop_buffered s

section
omit [LawfulEqOrd C] [DecidableEq H]

/-- The `Rescan` is above everything the subscription was stamped with. -/
theorem owing_shed (d : Delivery C V H) (s : Subscription) (key : List C) (value : Option V) :
    ∃ epoch, (d.mark s < epoch.as_u64 ∨ u64Max ≤ epoch.as_u64) ∧
      Owing d (d.shed_whole s key value) s [key] epoch value ∧
      epoch.as_u64 ≤ (d.shed_whole s key value).mark s ∧
      (d.shed_whole s key value).coalescer = d.coalescer.map fun c => c.drop_subscription s := by
  obtain ⟨hmono, hle, habove⟩ := shed_marks (d.note_loss s) s
  obtain ⟨hn, hs, hcn, hcs, ho⟩ :=
    merge_owed_planes ((d.note_loss s).shed s).2 s key ((d.note_loss s).shed s).1 value
  obtain ⟨needs, suppressed, hm⟩ :=
    merge_owed_rest ((d.note_loss s).shed s).2 s key ((d.note_loss s).shed s).1 value
  have he : d.shed_whole s key value =
      (((d.note_loss s).shed s).2.merge_owed s key ((d.note_loss s).shed s).1 value).drop_buffered s :=
    rfl
  rw [he]
  rw [hm] at hn hs hcn hcs ho ⊢
  exact ⟨_, habove, ⟨rfl, rfl, rfl, rfl, rfl, rfl, rfl, .inr rfl, hmono,
    fun hb => EpochLedger.bump_bounded s hb (EpochLedger.next_bounded _), hn, hs, hcn, hcs, ho,
    loss_count_note d s, rfl⟩, hle, rfl⟩

theorem owing_park_event (d : Delivery C V H) (ev : Event C V) :
    Owing d (d.park_rescan_event ev) ev.subscription [ev.key] ev.epoch ev.value := by
  obtain ⟨hn, hs, hcn, hcs, ho⟩ :=
    merge_owed_planes (d.note_loss ev.subscription) ev.subscription ev.key ev.epoch ev.value
  obtain ⟨needs, suppressed, hm⟩ :=
    merge_owed_rest (d.note_loss ev.subscription) ev.subscription ev.key ev.epoch ev.value
  unfold park_rescan_event
  rw [hm] at hn hs hcn hcs ho ⊢
  exact ⟨rfl, rfl, rfl, rfl, rfl, rfl, rfl, .inl rfl, fun _ => Nat.le_refl _,
    fun hb => hb, hn, hs, hcn, hcs, ho,
    loss_count_note d _, rfl⟩

theorem owing_widen (d : Delivery C V H) (ev : Event C V) (h : d.owes ev.subscription = true) :
    ∃ epoch, (d.mark ev.subscription < epoch.as_u64 ∨ u64Max ≤ epoch.as_u64) ∧
      Owing d (d.widen_parked_debt ev) ev.subscription ev.spots epoch ev.value ∧
      epoch.as_u64 ≤ (d.widen_parked_debt ev).mark ev.subscription ∧
      (d.widen_parked_debt ev).coalescer = d.coalescer := by
  obtain ⟨hmono, hle, habove⟩ := shed_marks (d.note_loss ev.subscription) ev.subscription
  obtain ⟨hn, hcn⟩ := widen_debt_widens d.needs_rescan ev.subscription ev.spots
    ((d.note_loss ev.subscription).shed ev.subscription).1 ev.value
  obtain ⟨hs, hcs⟩ := widen_debt_widens d.suppressed_rescan ev.subscription ev.spots
    ((d.note_loss ev.subscription).shed ev.subscription).1 ev.value
  -- a plane that owes nothing is untouched
  have none_stays : ∀ p : ParkedRescans C V, p[ev.subscription]? = none → ∀ epoch,
      (p.widen_debt ev.subscription ev.spots epoch)[ev.subscription]? = none := by
    intro p hp epoch
    unfold ParkedRescans.widen_debt
    rw [hp]
    exact hp
  refine ⟨_, habove, ⟨rfl, rfl, rfl, rfl, rfl, rfl, rfl, .inl rfl, hmono,
    fun hb => EpochLedger.bump_bounded _ hb (EpochLedger.next_bounded _), hn, hs,
    fun h => .inl (none_stays _ h _), fun h => .inl (none_stays _ h _), ?_,
    loss_count_note d _, rfl⟩, hle, rfl⟩
  obtain ⟨q, hq | hq⟩ := owes_iff.mp h
  · obtain ⟨q', hq', hk, he⟩ := hcn q hq
    exact ⟨q', .inl hq', hk, he⟩
  · obtain ⟨q', hq', hk, he⟩ := hcs q hq
    exact ⟨q', .inr hq', hk, he⟩

theorem park_rescan_live {key : List C} {value : V} (h : d.grant_of s = some (key, value)) :
    d.park_rescan s = d.shed_whole s key (some value) := by
  have hk : (d.note_loss s).subscription_key s = some key := by
    rw [subscription_key_eq]
    exact congrArg (Option.map Prod.fst) h
  have hv : (d.note_loss s).subscription_value s = some value := by
    rw [subscription_value_eq]
    exact congrArg (Option.map Prod.snd) h
  unfold park_rescan shed_whole
  dsimp only
  rw [hk, hv]

end

/-- What an offer to the funnel comes to. -/
inductive Emits (d : Delivery C V H) (ev : Event C V) : Delivery C V H → Prop where
  | sent {events : BoundedChannel (Event C V)} (ho : d.owes ev.subscription = false)
    (h : d.events.try_send ev = .accepted events) : Emits d ev { d with events }
  | closed (h : d.events.closed = true) : Emits d ev d
  | parked (hr : ev.is_rescan = true) : Emits d ev (d.park_rescan_event ev)
  | widened (ho : d.owes ev.subscription = true) (hr : ev.is_rescan = false) :
    Emits d ev (d.widen_parked_debt ev)
  | shed (ho : d.owes ev.subscription = false) (hr : ev.is_rescan = false) :
    Emits d ev (d.park_rescan ev.subscription)

section
omit [LawfulEqOrd C] [DecidableEq H]

theorem try_emit_emits (d : Delivery C V H) (ev : Event C V) : Emits d ev (d.try_emit ev) := by
  unfold try_emit
  split
  · rename_i ho
    split
    · rename_i hr
      exact .parked hr
    · rename_i hr
      exact .widened ho (Bool.eq_false_iff.mpr hr)
  · rename_i ho
    have ho := Bool.eq_false_iff.mpr ho
    split
    · rename_i events h
      exact .sent ho h
    · split
      · rename_i hr
        exact .parked hr
      · rename_i hr
        exact .shed ho (Bool.eq_false_iff.mpr hr)
    · rename_i h
      exact .closed (BoundedChannel.try_send_closed h)

/-- Where the subscription is gone only the loss is noted. -/
theorem park_rescan_gone (h : d.grant_of s = none) : d.park_rescan s = d.note_loss s := by
  have hk : (d.note_loss s).subscription_key s = none := by
    rw [subscription_key_eq]
    exact congrArg (Option.map Prod.fst) h
  unfold park_rescan
  dsimp only
  rw [hk]

end

end Delivery

end Umbrella
