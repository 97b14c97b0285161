import Tributaries.BoundedChannel
import Tributaries.Umbrella.Coalesce
import Tributaries.Umbrella.Coordinates
import Tributaries.Umbrella.Debt

/-! # The owner's delivery half

  One task owns the way from the source to the event stream.  It never waits
  on the stream: what a full stream refuses is owed as a `Rescan`, and a
  subscription that is owed one is delivered nothing else until it has had
  it.  A barrier certifies that everything before it was delivered, or says
  that a `Rescan` stands in for it.

  Each operation below is one uninterrupted turn of the task, so a run is any
  order of turns; the engine's and the source's answers come with the turn.
-/

open Std Collections

namespace Umbrella

open Proto (Epoch Location ScopeId)

/-! ### State -/

/-- What the engine's tables record of a live subscription. -/
structure Granted (C V H : Type) where
  key : List C
  value : V
  root : H

/-- A barrier's request, with the generation its caller read before the call. -/
structure SyncRequest where
  sub : Subscription
  loss_gen_at_call : UInt64
  ticket : Nat
deriving DecidableEq

/-- A barrier that waits for its cookie. -/
structure PendingSync (C H : Type) where
  cookie_key : List C
  sub : Subscription
  root : H
  loss_serial_at_install : UInt64
  dominated_at_install : Bool
  ticket : Nat
deriving DecidableEq

/-- Whether a location names the barrier's marker: its last component is the marker's. -/
def PendingSync.names {C H : Type} [DecidableEq C] (p : PendingSync C H) (location : List C) :
    Bool :=
  match p.cookie_key.getLast?, location.getLast? with
  | some marker, some leaf => marker = leaf
  | _, _ => false

/-- What a barrier's caller is told. -/
inductive SyncAnswer where
  | delivered
  | dominated
  | busy
  | unknown_subscription
  | retired
  /-- The source plane is quarantined. -/
  | source_retired
  /-- The cookie could not be named, or its write failed. -/
  | failed
  /-- The owner is gone. -/
  | closed
deriving DecidableEq, Repr

/-- What the source's cookie write came to. -/
inductive Begun (C : Type) where
  /-- `left` is whether the caller went away by the time it was written. -/
  | installed (cookie_key : List C) (left : Bool)
  | dominated
  | failed
  /-- The caller went away, or a close won, while the write was pending: the source is asked
      to cancel it, and may forget what that call unwound with. -/
  | abandoned (forgets : Bool)
deriving DecidableEq

/-- The most barriers that wait at once. -/
def MAX_PENDING_SYNCS : Nat := 256

structure Delivery (C V H : Type) [Ord C] where
  instance_id : InstanceId
  next_sub : ScopeId
  subs : Map Subscription (Granted C V H)
  /-- The subscriptions whose filter unwound once, and is not entered again. -/
  quarantined : OSet Subscription
  epochs : EpochLedger
  debounce : Option DebounceConfig
  coalescer : Option (Coalescer C V)
  events : BoundedChannel (Event C V)
  /-- Owed to subscriptions their callers hold. -/
  needs_rescan : ParkedRescans C V
  /-- Owed to subscriptions still on their way to a caller. -/
  suppressed_rescan : ParkedRescans C V
  unclaimed : OSet Subscription
  flush_cursor : Option Subscription
  /-- The clocks are 64 bits wide and wrap: barriers read them so. -/
  loss_serial : Map Subscription Nat
  loss_gen : Nat
  sync_commands : List SyncRequest
  pending_syncs : List (PendingSync C H)
  next_ticket : Nat
  /-- The callers that went away. -/
  canceled : OSet Nat
  /-- What the callers were told, oldest first. -/
  answers : List (Nat × SyncAnswer)
  /-- The cookies the source was asked to remove, oldest first. -/
  reaped : List (H × List C)
  /-- A call of the source unwound with what could not be dropped and was forgotten.  No
      call that may be declined is made from then on. -/
  source_quarantined : Bool
  /-- Whether the removal of a cookie ends so, by how many were asked for before it. -/
  forgets : Nat → Bool
  /-- The source's reserved namespace. -/
  is_sync_artifact : List C → Bool
  /-- The last reading of the clock, and how far on each later one is. -/
  clock : Instant
  elapsed : Nat → Nat
  /-- What `far_future` reads at each. -/
  far_future : Nat → Instant
  readings : Nat

/-- What a predicate is shown of a delivery. -/
structure FilterInput (C : Type) where
  key : List C
  kind : EventKind C
  location : Location

/-- What a subscription's predicate makes of a delivery. -/
inductive Verdict where
  | admitted
  | rejected
  | unwound
deriving DecidableEq, Repr

/-- What each subscription asked to be told of. -/
structure Gate (C : Type) where
  interest : Subscription → EventKind C → Bool
  filter : Subscription → FilterInput C → Verdict

namespace Delivery

variable {C V H : Type} [Ord C] [TransOrd C] [LawfulEqOrd C] [DecidableEq C] [DecidableEq H]

def new (instance_id : InstanceId) (capacity : Nat) (debounce : Option DebounceConfig)
    (is_sync_artifact : List C → Bool) (elapsed : Nat → Nat) (far_future : Nat → Instant)
    (forgets : Nat → Bool) : Delivery C V H where
  instance_id
  next_sub := .min
  subs := ∅
  quarantined := ∅
  epochs := .new
  debounce
  coalescer := debounce.map fun config => .new (some config)
  events := .bounded capacity
  needs_rescan := ∅
  suppressed_rescan := ∅
  unclaimed := ∅
  flush_cursor := none
  loss_serial := ∅
  loss_gen := 0
  sync_commands := []
  pending_syncs := []
  next_ticket := 0
  canceled := ∅
  answers := []
  reaped := []
  source_quarantined := false
  forgets
  is_sync_artifact
  clock := 0
  elapsed
  far_future
  readings := 0

/-! ### Reads -/

/-- `R::now()`: the clock does not run backwards. -/
def now (d : Delivery C V H) : Delivery C V H :=
  { d with
    clock := d.clock + d.elapsed d.readings
    readings := d.readings + 1 }

def far (d : Delivery C V H) : Instant := d.far_future d.readings

def subscription_key (d : Delivery C V H) (sub : Subscription) : Option (List C) :=
  (d.subs[sub]?).map Granted.key

def subscription_value (d : Delivery C V H) (sub : Subscription) : Option V :=
  (d.subs[sub]?).map Granted.value

/-- The subscribers of a root, in the order the engine lists them. -/
def subscribers_of (d : Delivery C V H) (handle : H) (order : List Subscription) :
    List Subscription :=
  order.filter fun sub => (d.subs[sub]?).any fun g => g.root = handle

/-- Whether a `Rescan` is owed, in either plane. -/
def owes (d : Delivery C V H) (sub : Subscription) : Bool :=
  d.needs_rescan.contains sub || d.suppressed_rescan.contains sub

/-- The losses noted of a subscription so far, of which its clock holds the low bits. -/
def loss_count (d : Delivery C V H) (sub : Subscription) : Nat :=
  (d.loss_serial[sub]?).getD 0

def loss_serial_of (d : Delivery C V H) (sub : Subscription) : UInt64 := .ofNat (d.loss_count sub)

/-- The shared clock, as a caller reads it. -/
def loss_gen_now (d : Delivery C V H) : UInt64 := .ofNat d.loss_gen

/-! ### Losses -/

/-- The one place a coverage loss is noted: both clocks a barrier reads move. -/
def note_loss (d : Delivery C V H) (sub : Subscription) : Delivery C V H :=
  { d with
    loss_serial := d.loss_serial.insert sub (d.loss_count sub + 1)
    loss_gen := d.loss_gen + 1 }

/-- A `Rescan` that is delivered moves the shared clock only. -/
def note_domination (d : Delivery C V H) : Delivery C V H := { d with loss_gen := d.loss_gen + 1 }

/-- Owes a `Rescan` in the plane of the subscription's claim. -/
def merge_owed (d : Delivery C V H) (sub : Subscription) (key : List C) (epoch : Epoch)
    (value : Option V) : Delivery C V H :=
  if d.unclaimed.contains sub then
    { d with suppressed_rescan := d.suppressed_rescan.merge_max sub key epoch value }
  else { d with needs_rescan := d.needs_rescan.merge_max sub key epoch value }

/-- Drops what still settles of a subscription; its policy stays. -/
def drop_buffered (d : Delivery C V H) (sub : Subscription) : Delivery C V H :=
  { d with coalescer := d.coalescer.map fun c => c.drop_subscription sub }

/-- An epoch above everything the subscription was stamped with. -/
def shed (d : Delivery C V H) (sub : Subscription) : Epoch × Delivery C V H :=
  let (epoch, epochs) := d.epochs.shed_rescan sub
  (epoch, { d with epochs })

/-- Sheds a subscription whose delivery was refused.  One whose key no longer
    resolves is owed nothing. -/
def park_rescan (d : Delivery C V H) (sub : Subscription) : Delivery C V H :=
  let d := d.note_loss sub
  match d.subscription_key sub with
  | none => d
  | some key =>
    let value := d.subscription_value sub
    let (epoch, d) := d.shed sub
    (d.merge_owed sub key epoch value).drop_buffered sub

def rescan_key_for (d : Delivery C V H) (sub : Subscription) (root_key : List C) : List C :=
  (d.subscription_key sub).getD root_key

/-- Makes what is owed cover a delivery that is about to be withheld behind it: both
    endpoints, at an epoch minted now. -/
def widen_parked_debt (d : Delivery C V H) (ev : Event C V) : Delivery C V H :=
  let sub := ev.subscription
  let d := d.note_loss sub
  let (epoch, d) := d.shed sub
  let covers := ev.key :: ev.move_from.toList
  { d with
    needs_rescan := d.needs_rescan.widen_debt sub covers epoch
    suppressed_rescan := d.suppressed_rescan.widen_debt sub covers epoch }

/-- Parks a `Rescan` as it is: its epoch was calibrated where it was minted. -/
def park_rescan_event (d : Delivery C V H) (ev : Event C V) : Delivery C V H :=
  (d.note_loss ev.subscription).merge_owed ev.subscription ev.key ev.epoch ev.value

/-! ### The funnel -/

/-- The one way an ordinary delivery reaches the stream. -/
def try_emit (d : Delivery C V H) (ev : Event C V) : Delivery C V H :=
  if d.owes ev.subscription then
    if ev.is_rescan then d.park_rescan_event ev else d.widen_parked_debt ev
  else
    match d.events.try_send ev with
    | .accepted events => { d with events }
    | .full => if ev.is_rescan then d.park_rescan_event ev else d.park_rescan ev.subscription
    -- the consumer is gone
    | .closed => d

def try_emit_all (d : Delivery C V H) (evs : List (Event C V)) : Delivery C V H :=
  evs.foldl try_emit d

/-- Admits a batch in order; the answer is the subscriptions whose cap it met. -/
def admit_all (now far : Instant) :
    Coalescer C V → List (Event C V) → List Subscription × Coalescer C V
  | c, [] => ([], c)
  | c, ev :: evs =>
    let (refused, c) := c.admit_event ev now far
    let (overflowed, c) := admit_all now far c evs
    (refused.toList ++ overflowed, c)

/-- Through the coalescer, if there is one.  `none` where one of its `expect`s fails. -/
def push_all (d : Delivery C V H) (evs : List (Event C V)) : Option (Delivery C V H) :=
  match d.coalescer with
  | none => some (d.try_emit_all evs)
  | some c => do
    let d := d.now
    let (overflowed, c) := admit_all d.clock d.far c evs
    let (ready, c) ← c.drain_ready d.clock
    let d := { d with coalescer := some c }
    let d := overflowed.foldl park_rescan d
    return d.try_emit_all ready

/-- Releases what is due. -/
def drain_coalescer_due (d : Delivery C V H) : Option (Delivery C V H) :=
  match d.coalescer with
  | none => some d
  | some c => do
    let d := d.now
    let (ready, c) ← c.drain_ready d.clock
    return ({ d with coalescer := some c }).try_emit_all ready

/-! ### Offering what is owed -/

/-- Offers round robin, at most `visits` times, until the stream refuses one. -/
def flush_visits : Nat → ParkedRescans.Bound → Delivery C V H → Delivery C V H
  | 0, _, d => { d with flush_cursor := none }
  | visits + 1, bound, d =>
    match d.needs_rescan.first_from bound with
    | none => { d with flush_cursor := none }
    | some sub =>
      match d.needs_rescan[sub]? with
      | none => flush_visits visits (.excluded sub) d
      | some parked =>
        match d.events.try_send (parked.offer sub) with
        | .accepted events =>
          flush_visits visits (.excluded sub)
            { ({ d with events }).note_domination with needs_rescan := d.needs_rescan.erase sub }
        -- nothing was published, so nothing is dominated
        | .closed =>
          flush_visits visits (.excluded sub) { d with needs_rescan := d.needs_rescan.erase sub }
        -- this one is retried first
        | .full => { d with flush_cursor := some sub }

def flush_pending_rescans (d : Delivery C V H) : Delivery C V H :=
  if d.events.is_full then d
  else if d.needs_rescan.size = 0 then d
  else
    d.flush_visits d.needs_rescan.size
      (d.flush_cursor.elim ParkedRescans.Bound.unbounded ParkedRescans.Bound.included)

/-- One ordered pass of everything owed at teardown: the tail of a subscription that is
    owed a `Rescan` is dropped, and the `Rescan`s go before the rest of the tail. -/
def drain_owed_once (d : Delivery C V H) : Delivery C V H :=
  let (tail, coalescer) :=
    match d.coalescer with
    | none => ([], none)
    | some c => (c.flush_all.1, some c.flush_all.2)
  let d := { d with coalescer }
  let tail := tail.filter fun ev => !d.owes ev.subscription
  d.flush_pending_rescans.try_emit_all tail

/-! ### Barriers -/

/-- `Vec::swap_remove`. -/
def swap_remove {α : Type} (l : List α) (i : Nat) : List α :=
  match l.getLast? with
  | none => l
  | some last => (l.set i last).dropLast

/-- The scan that takes out every barrier that matches.  The one moved into the place of
    one taken out is examined next. -/
def sweep (hit : PendingSync C H → Bool)
    (settle : Delivery C V H → PendingSync C H → Option (Delivery C V H)) :
    Nat → Nat → Delivery C V H → Option (Delivery C V H)
  | 0, _, d => some d
  | fuel + 1, i, d =>
    match d.pending_syncs[i]? with
    | none => some d
    | some pending =>
      if hit pending then do
        let d ← settle { d with pending_syncs := swap_remove d.pending_syncs i } pending
        sweep hit settle fuel i d
      else sweep hit settle fuel (i + 1) d

/-- Every turn of the scan leaves one barrier fewer to examine. -/
def sweep_all (d : Delivery C V H) (hit : PendingSync C H → Bool)
    (settle : Delivery C V H → PendingSync C H → Option (Delivery C V H)) :
    Option (Delivery C V H) :=
  sweep hit settle d.pending_syncs.length 0 d

/-- The source is asked to remove a cookie, unless its plane is quarantined. -/
def reap_cookie (d : Delivery C V H) (root : H) (cookie_key : List C) : Delivery C V H :=
  { d with
    reaped := if d.source_quarantined then d.reaped else d.reaped ++ [(root, cookie_key)]
    source_quarantined := d.source_quarantined || d.forgets d.reaped.length }

def reply (d : Delivery C V H) (ticket : Nat) (answer : SyncAnswer) : Delivery C V H :=
  { d with answers := d.answers ++ [(ticket, answer)] }

/-- A barrier is over: its caller is told, and its cookie is given up for removal. -/
def settle_sync (answer : SyncAnswer) (d : Delivery C V H) (pending : PendingSync C H) :
    Delivery C V H :=
  (d.reply pending.ticket answer).reap_cookie pending.root pending.cookie_key

/-- A subscription has just been owed or handed a `Rescan` that covers all of it. -/
def dominate_syncs_of_subscription (d : Delivery C V H) (sub : Subscription) :
    Option (Delivery C V H) :=
  d.note_domination.sweep_all (fun p => p.sub = sub) fun d p => some (d.settle_sync .dominated p)

def dominate_syncs_of_root (d : Delivery C V H) (root : H) : Option (Delivery C V H) :=
  d.note_domination.sweep_all (fun p => p.root = root) fun d p => some (d.settle_sync .dominated p)

/-- The caller unwatched: no `Rescan` is owed, so nothing meets the barrier. -/
def retire_syncs_of_subscription (d : Delivery C V H) (sub : Subscription) :
    Option (Delivery C V H) :=
  d.sweep_all (fun p => p.sub = sub) fun d p => some (d.settle_sync .retired p)

/-- The barriers whose callers went away are removed with their cookies. -/
def prune_abandoned_syncs (d : Delivery C V H) : Option (Delivery C V H) :=
  d.sweep_all (fun p => d.canceled.contains p.ticket) fun d p =>
    some (d.reap_cookie p.root p.cookie_key)

/-- Emits everything the coalescer holds of a subscription.  The answer is whether it was
    delivered clean; it reads the plane of claimed subscriptions. -/
def flush_subscription_now (d : Delivery C V H) (sub : Subscription) :
    Option (Bool × Delivery C V H) :=
  let d := d.now
  match d.coalescer with
  | none => some (!d.needs_rescan.contains sub, d)
  | some c => do
    let (due, c) ← (c.flush_subscription sub d.clock).drain_ready d.clock
    let d := ({ d with coalescer := some c }).try_emit_all due
    return (!d.needs_rescan.contains sub, d)

/-- The cookie of a barrier was seen: the debounce is flushed, and the barrier was met by
    delivery unless a loss stood at its install, came since, or came in the flush. -/
def resolve_sync (d : Delivery C V H) (pending : PendingSync C H) : Option (Delivery C V H) := do
  let lost_during_window : Bool := d.loss_serial_of pending.sub ≠ pending.loss_serial_at_install
  let d := d.reap_cookie pending.root pending.cookie_key
  let (flushed, d) ← d.flush_subscription_now pending.sub
  let clean := flushed && !lost_during_window && !pending.dominated_at_install
  return d.reply pending.ticket (if clean then .delivered else .dominated)

/-- Resolves every barrier whose marker the change names at a reserved end. -/
def resolve_matching_pending_sync (d : Delivery C V H) (event : SourceEvent C H)
    (reserved : ReservedEndpoints) : Option (Delivery C V H) :=
  d.sweep_all
    (fun p => p.root = event.handle &&
      ((reserved.masks_destination && p.names event.key) ||
        (reserved.masks_source && event.move_from.any fun source => p.names source)))
    resolve_sync

/-- Whether a `Rescan` at `at_key` is delivered to a subscription; one that no longer
    resolves counts as affected. -/
def rescan_affects (d : Delivery C V H) (sub : Subscription) (at_key : List C) : Bool :=
  (d.subscription_key sub).all fun key => key.isPrefixOf at_key || at_key.isPrefixOf key

/-- A `Rescan` of a live root stands in for the cookies of every barrier it reaches. -/
def dominate_pending_syncs (d : Delivery C V H) (event : SourceEvent C H) :
    Option (Delivery C V H) :=
  d.note_domination.sweep_all
    (fun p => p.root = event.handle && d.rescan_affects p.sub event.key)
    fun d p => do
      let d := d.reap_cookie p.root p.cookie_key
      let (_, d) ← d.flush_subscription_now p.sub
      return d.reply p.ticket .dominated

/-- A cookie was written: the barrier waits for it, dominated already if something is owed
    or the generation moved since the call.  Nobody waits if the caller has left. -/
def admit_begun_cookie (d : Delivery C V H) (cookie_key : List C) (sub : Subscription) (root : H)
    (loss_gen_at_call : UInt64) (ticket : Nat) : Delivery C V H :=
  if d.canceled.contains ticket then d.reap_cookie root cookie_key
  else
    { d with
      pending_syncs := d.pending_syncs ++
        [{ cookie_key, sub, root
           loss_serial_at_install := d.loss_serial_of sub
           dominated_at_install := d.owes sub || d.loss_gen_now != loss_gen_at_call
           ticket }] }

/-- The caller of a ticket went away. -/
def leave (d : Delivery C V H) (ticket : Nat) : Delivery C V H :=
  { d with canceled := d.canceled.insert ticket }

/-- Takes up a request; `begun` is what its cookie write comes to, if it gets that far.  A
    quarantined plane could not remove a cookie, so none is written. -/
def on_sync (d : Delivery C V H) (req : SyncRequest) (begun : Begun C) :
    Option (Delivery C V H) :=
  if d.canceled.contains req.ticket then some d
  else if d.source_quarantined then some (d.reply req.ticket .source_retired)
  else do
    let d ← d.prune_abandoned_syncs
    if MAX_PENDING_SYNCS ≤ d.pending_syncs.length then return d.reply req.ticket .busy
    else
      match d.subs[req.sub]? with
      | none => return d.reply req.ticket .unknown_subscription
      | some granted =>
        match begun with
        | .installed cookie_key left =>
          let d := if left then d.leave req.ticket else d
          return d.admit_begun_cookie cookie_key req.sub granted.root req.loss_gen_at_call req.ticket
        | .dominated => return d.reply req.ticket .dominated
        | .failed => return d.reply req.ticket .failed
        | .abandoned forgets => return { d with source_quarantined := d.source_quarantined || forgets }

/-- The owner goes: every cookie that is waited for is given up for removal. -/
def reap_all_pending_syncs (d : Delivery C V H) : Delivery C V H :=
  d.pending_syncs.foldl (settle_sync .closed) { d with pending_syncs := [] }

/-- And every request that was not taken up is answered. -/
def close_sync_commands (d : Delivery C V H) : Delivery C V H :=
  d.sync_commands.foldl (fun d req => d.reply req.ticket .closed) { d with sync_commands := [] }

/-! ### Source events -/

/-- Which ends of a change lie in the reserved namespace.  A `Rescan` names no object. -/
def reserved_endpoints (d : Delivery C V H) (raw : SourceEvent C H) : ReservedEndpoints :=
  if raw.is_rescan then .none
  else
    match raw.move_from with
    | none => if d.is_sync_artifact raw.key then .all else .none
    | some source =>
      match d.is_sync_artifact source, d.is_sync_artifact raw.key with
      | true, true => .all
      | true, false => .source
      | false, true => .destination
      | false, false => .none

/-- What is delivered of a raw event, and the subscriptions whose predicate unwound on it.
    A predicate that unwinds admits; one that unwound before is not entered, and what its
    subscription takes no interest in is rejected all the same. -/
def fan_out_raw (d : Delivery C V H) (raw : SourceEvent C H) (reserved : ReservedEndpoints)
    (order : List Subscription) (gate : Gate C) :
    List (Event C V) × List Subscription × Delivery C V H :=
  let asks (ev : Event C V) : Verdict :=
    if !gate.interest ev.subscription ev.kind then .rejected
    else if d.quarantined.contains ev.subscription then .admitted
    else gate.filter ev.subscription ⟨ev.key, ev.kind, ev.location⟩
  let (fanned, epochs) :=
    Umbrella.fan_out_raw d.epochs raw reserved (d.subscribers_of raw.handle order)
      d.subscription_key (fun _ ev => asks ev ≠ .rejected) d.subscription_value
  let poisoned :=
    if raw.is_rescan then [] else (fanned.filter fun ev => asks ev = .unwound).map Event.subscription
  (fanned, poisoned, { d with epochs })

/-- Retires the gate of a subscription whose predicate unwound, and owes it a `Rescan`. -/
def quarantine_filter (d : Delivery C V H) (sub : Subscription) : Option (Delivery C V H) :=
  match d.subs[sub]? with
  | none => some d
  | some granted =>
    if d.quarantined.contains sub then some d
    else
      let d := { d with quarantined := d.quarantined.insert sub }
      let d := (d.drop_buffered sub).note_loss sub
      let (epoch, d) := d.shed sub
      (d.merge_owed sub granted.key epoch (some granted.value)).dominate_syncs_of_subscription sub

def quarantine_filters (d : Delivery C V H) (poisoned : List Subscription) :
    Option (Delivery C V H) :=
  poisoned.foldlM quarantine_filter d

/-- Fans a raw event out and pushes what is delivered.  A delivery that an unwinding
    predicate admitted goes behind the `Rescan` it earned, past the coalescer. -/
def fan_out_and_push (d : Delivery C V H) (raw : SourceEvent C H) (order : List Subscription)
    (gate : Gate C) : Option (ReservedEndpoints × Delivery C V H) :=
  let reserved := d.reserved_endpoints raw
  if reserved = .all then some (reserved, d)
  else
    let (fanned, poisoned, d) := d.fan_out_raw raw reserved order gate
    if poisoned.isEmpty then (d.push_all fanned).map fun d => (reserved, d)
    else do
      let d ← d.quarantine_filters poisoned
      let (behind_new_debt, rest) := fanned.partition fun ev => poisoned.contains ev.subscription
      let d ← (d.try_emit_all behind_new_debt).push_all rest
      return (reserved, d)

/-! ### Roots and subscriptions -/

/-- Owes one subscriber of a root a `Rescan` of everything it owns. -/
def rescan_subscriber (root_key : List C) (d : Delivery C V H) (sub : Subscription) :
    Delivery C V H :=
  let d := d.note_loss sub
  let value := d.subscription_value sub
  let (epoch, d) := d.shed sub
  (d.merge_owed sub (d.rescan_key_for sub root_key) epoch value).drop_buffered sub

/-- Owes every subscriber of a root a `Rescan`; the root stays live. -/
def rescan_live_root (d : Delivery C V H) (root : H) (root_key : List C)
    (order : List Subscription) : Option (Delivery C V H) :=
  let subscribers := d.subscribers_of root order
  -- a recorded root has a subscriber
  if subscribers.isEmpty then some d
  else (subscribers.foldl (rescan_subscriber root_key) d).dominate_syncs_of_root root

def forget_buffered (d : Delivery C V H) (sub : Subscription) : Delivery C V H :=
  { d with coalescer := d.coalescer.map fun c => c.forget_subscription sub }

/-- What every retirement frees; what is owed is not part of it. -/
def retire_sub_state (d : Delivery C V H) (sub : Subscription) : Delivery C V H :=
  { d with
    quarantined := d.quarantined.erase sub
    epochs := d.epochs.remove sub
    loss_serial := d.loss_serial.erase sub }

/-- A root is gone: every subscriber is owed its last `Rescan` and is retired. -/
def retire_root_with_terminal_rescan (d : Delivery C V H) (handle : H) (root_key : List C)
    (order : List Subscription) : Option (Delivery C V H) := do
  let subscribers := d.subscribers_of handle order
  let d ← d.rescan_live_root handle root_key order
  return subscribers.foldl
    (fun d sub => ({ d with subs := d.subs.erase sub }.forget_buffered sub).retire_sub_state sub) d

/-- A caller is done with a subscription: it is owed nothing more. -/
def release_subscription (d : Delivery C V H) (sub : Subscription) : Option (Delivery C V H) := do
  let d ← d.retire_syncs_of_subscription sub
  if sub.instance_id ≠ d.instance_id then return d
  else
    let d := d.retire_sub_state sub
    let d :=
      { d with
        needs_rescan := d.needs_rescan.erase sub
        suppressed_rescan := d.suppressed_rescan.erase sub
        unclaimed := d.unclaimed.erase sub }
    return { d.forget_buffered sub with subs := d.subs.erase sub }

/-- A caller took hold of a subscription: what it is owed can be offered. -/
def claim (d : Delivery C V H) (sub : Subscription) : Delivery C V H :=
  let (suppressed_rescan, needs_rescan) :=
    ParkedRescans.promote d.suppressed_rescan d.needs_rescan sub
  { d with unclaimed := d.unclaimed.erase sub, suppressed_rescan, needs_rescan }

/-- `None` until a posture asks for a coalescer. -/
def register_debounce (d : Delivery C V H) (sub : Subscription) (debounce : Debounce) :
    Delivery C V H :=
  match debounce with
  | .inherit => d
  | .off => { d with coalescer := d.coalescer.map fun c => c.set_policy sub .off }
  | .custom config =>
    { d with
      coalescer := some ((d.coalescer.getD (.new d.debounce)).set_policy sub (.custom config)) }

/-- A watch commits. -/
def commit_watch (d : Delivery C V H) (root : H) (key : List C) (value : V) (debounce : Debounce) :
    Delivery C V H :=
  let sub : Subscription := ⟨d.instance_id, d.next_sub⟩
  { d with
    next_sub := d.next_sub.succ
    subs := d.subs.insert sub ⟨key, value, root⟩ }.register_debounce sub debounce

/-- The grant of a committed watch is on its way to the caller. -/
def grant (d : Delivery C V H) (sub : Subscription) : Delivery C V H :=
  { d with unclaimed := d.unclaimed.insert sub }

/-- Moves a live subscription onto another root.  The `Rescan` that says so dominates
    what it still had settling. -/
def repoint_one (handle : H) (fs_key : List C) (acc : List (Event C V) × Delivery C V H)
    (moved : Subscription) : List (Event C V) × Delivery C V H :=
  let d := acc.2.drop_buffered moved
  let (rescan, epochs) := d.epochs.repoint moved
  let event :=
    (Event.rescan moved (d.rescan_key_for moved fs_key) rescan).set_value (d.subscription_value moved)
  (acc.1 ++ [event],
    { d with
      epochs
      subs := d.subs.modify moved fun g => { g with root := handle } })

def repoint_all (d : Delivery C V H) (handle : H) (fs_key : List C) (moved : List Subscription) :
    List (Event C V) × Delivery C V H :=
  moved.foldl (repoint_one handle fs_key) ([], d)

/-- Moves live subscriptions onto a root: they are told, and their barriers are dominated. -/
def repoint_and_push (d : Delivery C V H) (handle : H) (fs_key : List C)
    (moved : List Subscription) : Option (Delivery C V H) := do
  let (rescans, d) := d.repoint_all handle fs_key moved
  let d ← d.push_all rescans
  moved.foldlM dominate_syncs_of_subscription d

/-- A watch commits above existing roots, whose subscriptions it takes over; the engine
    lists them. -/
def commit_widen (d : Delivery C V H) (handle : H) (fs_key key : List C) (value : V)
    (debounce : Debounce) (repointed : List Subscription) : Option (Delivery C V H) := do
  let moved := repointed.filter fun sub => d.subs.contains sub
  let sub : Subscription := ⟨d.instance_id, d.next_sub⟩
  let d ← (d.commit_watch handle key value debounce).repoint_and_push handle fs_key moved
  return d.grant sub

/-- A failed widen's root is armed again, under a new handle. -/
def restore_disarmed_root (d : Delivery C V H) (old new_handle : H) (root_key : List C)
    (order : List Subscription) : Option (Delivery C V H) :=
  d.repoint_and_push new_handle root_key (d.subscribers_of old order)

/-! ### The event loop -/

/-- One record of the source.  `root_key` is where its root is now, if it is live, and
    `recorded` where the engine has it. -/
def consume_source_event (d : Delivery C V H) (event : SourceEvent C H)
    (root_key : Option (List C)) (recorded : List C) (order : List Subscription) (gate : Gate C) :
    Option (Delivery C V H) :=
  if root_key.isNone then do
    let d ← d.retire_root_with_terminal_rescan event.handle recorded order
    d.drain_coalescer_due
  else do
    let event := clamped root_key event
    let (reserved, d) ← d.fan_out_and_push event order gate
    -- everything of this turn is published before any barrier is answered
    let d ← d.drain_coalescer_due
    if event.is_rescan then d.dominate_pending_syncs event
    else if reserved ≠ .none then d.resolve_matching_pending_sync event reserved
    else some d

/-- What reaches the task, or its consumer. -/
inductive Op (C V H : Type) where
  | commit_watch (root : H) (key : List C) (value : V) (debounce : Debounce)
  | commit_widen (handle : H) (fs_key key : List C) (value : V) (debounce : Debounce)
    (repointed : List Subscription)
  | restore_disarmed_root (old new_handle : H) (root_key : List C) (order : List Subscription)
  | rescan_live_root (root : H) (root_key : List C) (order : List Subscription)
  | retire_root (handle : H) (root_key : List C) (order : List Subscription)
  | claim (sub : Subscription)
  | drop_orphan (sub : Subscription)
  | unwatch (sub : Subscription)
  | source_event (event : SourceEvent C H) (root_key : Option (List C)) (recorded : List C)
    (order : List Subscription) (gate : Gate C)
  | flush_pending_rescans
  | drain_coalescer_due
  | drain_owed_once
  /-- A caller asks for a barrier. -/
  | sync (sub : Subscription)
  /-- The owner takes up the oldest request. -/
  | on_sync (begun : Begun C)
  /-- A caller goes away. -/
  | abandon (ticket : Nat)
  | prune_abandoned_syncs
  /-- Some other call of the source forgets what it unwound with. -/
  | source_forgot
  /-- The owner's task ends. -/
  | teardown
  /-- The consumer receives one event, or goes away. -/
  | recv
  | hang_up

/-- One turn; `none` where an `expect` of the source fails. -/
def step (d : Delivery C V H) : Op C V H → Option (Delivery C V H)
  | .commit_watch root key value debounce =>
    some ((d.commit_watch root key value debounce).grant ⟨d.instance_id, d.next_sub⟩)
  | .commit_widen handle fs_key key value debounce repointed =>
    d.commit_widen handle fs_key key value debounce repointed
  | .restore_disarmed_root old new_handle root_key order =>
    d.restore_disarmed_root old new_handle root_key order
  | .rescan_live_root root root_key order => d.rescan_live_root root root_key order
  | .retire_root handle root_key order => d.retire_root_with_terminal_rescan handle root_key order
  | .claim sub => some (d.claim sub)
  | .drop_orphan sub | .unwatch sub => d.release_subscription sub
  | .source_event event root_key recorded order gate =>
    d.consume_source_event event root_key recorded order gate
  | .flush_pending_rescans => some d.flush_pending_rescans
  | .drain_coalescer_due => d.drain_coalescer_due
  | .drain_owed_once => some d.drain_owed_once
  | .sync sub =>
    some { d with
      sync_commands := d.sync_commands ++ [⟨sub, d.loss_gen_now, d.next_ticket⟩]
      next_ticket := d.next_ticket + 1 }
  | .on_sync begun =>
    match d.sync_commands with
    | [] => some d
    | req :: rest => { d with sync_commands := rest }.on_sync req begun
  | .abandon ticket =>
    some (if ticket < d.next_ticket then d.leave ticket else d)
  | .prune_abandoned_syncs => d.prune_abandoned_syncs
  | .source_forgot => some { d with source_quarantined := true }
  | .teardown => some d.reap_all_pending_syncs.close_sync_commands
  | .recv => some { d with events := d.events.recv }
  | .hang_up => some { d with events := d.events.hang_up }

def run (d : Delivery C V H) (ops : List (Op C V H)) : Option (Delivery C V H) := ops.foldlM step d

/-! ### A small owner -/

/-- An owner whose stream holds two events, and the first subscription it mints. -/
def two_slots : Delivery Nat Nat Nat :=
  new ⟨1, Nat.one_pos⟩ 2 none (fun _ => false) (fun _ => 1) (fun _ => 1000) (fun _ => false)

def first_watch : Subscription := ⟨⟨1, Nat.one_pos⟩, .min⟩

def opened : List (Op Nat Nat Nat) := [.commit_watch 7 [1] 5 .inherit, .claim first_watch]

/-- A gate that admits everything. -/
def open_gate : Gate Nat := ⟨fun _ _ => true, fun _ _ => .admitted⟩

def created_at (key : List Nat) : Op Nat Nat Nat :=
  .source_event ⟨7, key, .created, [], none, .START, none, none⟩ (some [1]) [1] [first_watch]
    open_gate

/-- The third creation finds the stream full. -/
def overrun : List (Op Nat Nat Nat) :=
  opened ++ [created_at [1, 2], created_at [1, 3], created_at [1, 4]]

end Delivery

end Umbrella
