import Tributaries.Umbrella.Event

/-! # The settle coalescer

  A burst of changes to one key of one subscription is folded into one
  event, held until the key has been quiet or the hold cap is met.  Moves
  and `Rescan`s flush their subscription and are emitted at once.
-/

open Std Collections

namespace Umbrella

/-! ### Time and policies -/

/-- A reading of the monotonic clock, in nanoseconds. -/
abbrev Instant := Nat

/-- The last instant the platform represents: signed seconds and nanoseconds. -/
def instant_max : Instant := (2 ^ 63 - 1) * 1000000000 + 999999999

/-- `Instant::checked_add`. -/
def checked_add (now : Instant) (span : Nat) : Option Instant :=
  if now + span ≤ instant_max then some (now + span) else none

structure DebounceConfig where
  quiet_window : Nat
  max_hold : Nat
  max_buffered : Nat
deriving DecidableEq, Repr

def DebounceConfig.DEFAULT_MAX_BUFFERED : Nat := 1024

/-- The posture of one subscription. -/
inductive Debounce where
  | inherit
  | off
  | custom (config : DebounceConfig)
deriving DecidableEq, Repr

/-! ### State -/

/-- The slot of one subscription and key. -/
abbrev BufKey (C : Type) := Subscription × List C

instance instTransOrdBufKey {C : Type} [Ord C] [TransOrd C] : TransOrd (BufKey C) :=
  Collections.instTransOrdProd

instance instTransOrdDeadline {C : Type} [Ord C] [TransOrd C] : TransOrd (Instant × BufKey C) :=
  Collections.instTransOrdProd

/-- One entry that still settles. -/
structure Buffered (C V : Type) where
  first_seen : Instant
  emit_at : Instant
  seq : Nat
  event : Event C V

/-- What the collapse table does with a buffered kind that meets another. -/
inductive Collapse where
  | keep_buffered
  | replace_with_incoming
  | become_modified
  | annihilate
deriving DecidableEq, Repr

structure Coalescer (C V : Type) [Ord C] where
  default : Option DebounceConfig
  /-- `none` is pass-through; an absent subscription inherits the default. -/
  policies : Map Subscription (Option DebounceConfig)
  per_sub_len : Map Subscription Nat
  buffer : Map (BufKey C) (Buffered C V)
  /-- The deadline of every buffered entry, in order. -/
  deadlines : OSet (Instant × BufKey C)
  /-- What is emitted at the next drain, in order. -/
  ready : List (Instant × Event C V)
  next_seq : Nat

namespace Coalescer

section

variable {C V : Type} [Ord C]

def new (default : Option DebounceConfig) : Coalescer C V :=
  { default, policies := ∅, per_sub_len := ∅, buffer := ∅, deadlines := ∅, ready := []
    next_seq := 0 }

def collapse : EventKind C → EventKind C → Collapse
  | .created, .removed => .annihilate
  | .removed, .created => .become_modified
  | .modified, .removed | .removed, .removed | .removed, .modified => .replace_with_incoming
  | _, _ => .keep_buffered

/-- Quiet from `now`, but no later than the hold cap.  `far` is what
    `far_future()` reads where the platform cannot represent a sum. -/
def deadline (first_seen now : Instant) (quiet_window max_hold : Nat) (far : Instant) : Instant :=
  Nat.min ((checked_add now quiet_window).getD far) ((checked_add first_seen max_hold).getD far)

/-! ### Policies and counters -/

variable [TransOrd C]

def set_policy (c : Coalescer C V) (sub : Subscription) (policy : Debounce) : Coalescer C V :=
  match policy with
  | .inherit => { c with policies := c.policies.erase sub }
  | .off => { c with policies := c.policies.insert sub none }
  | .custom config => { c with policies := c.policies.insert sub (some config) }

/-- The settle policy of a subscription; `none` is pass-through. -/
def effective_policy (c : Coalescer C V) (sub : Subscription) : Option DebounceConfig :=
  match c.policies[sub]? with
  | some policy => policy
  | none => c.default

def structural_cap (c : Coalescer C V) : Nat :=
  c.default.elim DebounceConfig.DEFAULT_MAX_BUFFERED DebounceConfig.max_buffered

def per_sub (c : Coalescer C V) (sub : Subscription) : Nat := (c.per_sub_len[sub]?).getD 0

/-- One entry of a subscription less; absent at zero. -/
def dec_per_sub (c : Coalescer C V) (sub : Subscription) : Coalescer C V :=
  match c.per_sub_len[sub]? with
  | none => c
  | some count =>
    if count - 1 = 0 then { c with per_sub_len := c.per_sub_len.erase sub }
    else { c with per_sub_len := c.per_sub_len.insert sub (count - 1) }

/-- Takes one entry out of the buffer and the index. -/
def take_entry (c : Coalescer C V) (key : BufKey C) (entry : Buffered C V) : Coalescer C V :=
  { c with
    buffer := c.buffer.erase key
    deadlines := c.deadlines.erase (entry.emit_at, key) }

/-! ### Admission -/

/-- Admits the first change of a burst, unless a cap is met. -/
def open_burst (c : Coalescer C V) (ev : Event C V) (now far : Instant)
    (config : DebounceConfig) (seq : Nat) : Option Subscription × Coalescer C V :=
  let sub := ev.subscription
  let key : BufKey C := (sub, ev.key)
  if c.structural_cap ≤ c.buffer.size then (some sub, c)
  else if config.max_buffered ≤ c.per_sub sub then (some sub, c)
  else
    let emit_at := deadline now now config.quiet_window config.max_hold far
    (none, { c with
      deadlines := c.deadlines.insert (emit_at, key)
      buffer := c.buffer.insert key { first_seen := now, emit_at, seq, event := ev }
      per_sub_len := c.per_sub_len.insert sub (c.per_sub sub + 1) })

/-- Files a collapsed entry under its new deadline. -/
def refile (c : Coalescer C V) (key : BufKey C) (was_due_at : Instant) (entry : Buffered C V) :
    Coalescer C V :=
  { c with
    buffer := c.buffer.insert key entry
    deadlines :=
      if entry.emit_at ≠ was_due_at then
        (c.deadlines.erase (was_due_at, key)).insert (entry.emit_at, key)
      else c.deadlines }

/-- Folds a change into the entry its slot holds. -/
def fold_burst (c : Coalescer C V) (ev : Event C V) (now far : Instant)
    (config : DebounceConfig) (seq : Nat) (buffered : Buffered C V) : Coalescer C V :=
  let key : BufKey C := (ev.subscription, ev.key)
  let emit_at := deadline buffered.first_seen now config.quiet_window config.max_hold far
  match collapse buffered.event.kind ev.kind with
  | .keep_buffered =>
    c.refile key buffered.emit_at
      { buffered with event := buffered.event.set_epoch ev.epoch, emit_at, seq }
  | .replace_with_incoming =>
    c.refile key buffered.emit_at { buffered with event := ev, emit_at, seq }
  | .become_modified =>
    let synthetic :=
      (Event.synthetic ev.subscription ev.key ev.location .modified ev.epoch).set_value ev.value
    c.refile key buffered.emit_at { buffered with event := synthetic, emit_at, seq }
  | .annihilate => (c.take_entry key buffered).dec_per_sub ev.subscription

/-- Buffers a lifecycle change under its policy.  The sequence number is spent
    whatever becomes of it. -/
def coalesce (c : Coalescer C V) (ev : Event C V) (now far : Instant) (config : DebounceConfig) :
    Option Subscription × Coalescer C V :=
  let seq := c.next_seq
  let c := { c with next_seq := c.next_seq + 1 }
  match c.buffer[((ev.subscription, ev.key) : BufKey C)]? with
  | none => c.open_burst ev now far config seq
  | some buffered => (none, c.fold_burst ev now far config seq buffered)

/-- The buffered entries of a subscription. -/
def subscription_entries (c : Coalescer C V) (sub : Subscription) :
    List (BufKey C × Buffered C V) :=
  c.buffer.toList.filter fun entry => entry.1.1 = sub

/-- The order of emission: by subscription, then by admission. -/
def emission_le (a b : BufKey C × Buffered C V) : Prop :=
  (compare (a.1.1, a.2.seq) (b.1.1, b.2.seq)).isLE

instance : DecidableRel (emission_le (C := C) (V := V)) := fun _ _ => instDecidableEqBool _ _

/-- Moves every entry of a subscription to the ready queue. -/
def flush_subscription (c : Coalescer C V) (sub : Subscription) (now : Instant) :
    Coalescer C V :=
  let entries := (c.subscription_entries sub).insertionSort emission_le
  let c := entries.foldl (fun c entry => c.take_entry entry.1 entry.2) c
  { c with
    ready := c.ready ++ entries.map fun entry => (now, entry.2.event)
    per_sub_len := c.per_sub_len.erase sub }

def push_ready (c : Coalescer C V) (now : Instant) (ev : Event C V) : Coalescer C V :=
  { c with ready := c.ready ++ [(now, ev)] }

/-- Admits one event; `some sub` is a subscription whose cap it overflowed. -/
def admit_event (c : Coalescer C V) (ev : Event C V) (now far : Instant) :
    Option Subscription × Coalescer C V :=
  match ev.kind with
  | .rescan | .moved _ => (none, (c.flush_subscription ev.subscription now).push_ready now ev)
  | .created | .modified | .removed =>
    match c.effective_policy ev.subscription with
    | none => (none, c.push_ready now ev)
    | some config => c.coalesce ev now far config

/-! ### Drains -/

/-- The earliest instant at which something is due. -/
def next_deadline (c : Coalescer C V) : Option Instant :=
  let buffered := c.deadlines.toList.head?.map Prod.fst
  let ready := c.ready.head?.map Prod.fst
  match buffered, ready with
  | some a, some b => some (Nat.min a b)
  | a, b => a.or b

/-- Takes one due entry out; `none` where the source's `expect` fails. -/
def release (out : List (Event C V) × Coalescer C V) (key : BufKey C) :
    Option (List (Event C V) × Coalescer C V) :=
  (out.2.buffer[key]?).map fun entry =>
    (out.1 ++ [entry.event], (out.2.take_entry key entry).dec_per_sub key.1)

/-- What is due at `now`: the ready queue, then the buffered entries whose
    deadline has passed, in order of emission.  `none` where an `expect` fails. -/
def drain_ready (c : Coalescer C V) (now : Instant) :
    Option (List (Event C V) × Coalescer C V) := do
  let out := (c.ready.takeWhile fun r => r.1 ≤ now).map Prod.snd
  let c := { c with ready := c.ready.dropWhile fun r => r.1 ≤ now }
  let keys := (c.deadlines.toList.takeWhile fun d => d.1 ≤ now).map Prod.snd
  let due ← keys.mapM fun key => (c.buffer[key]?).map fun entry => (key, entry)
  let due := due.insertionSort emission_le
  due.foldlM (fun out entry => release out entry.1) (out, c)

/-- Everything pending, whatever its deadline. -/
def flush_all (c : Coalescer C V) : List (Event C V) × Coalescer C V :=
  let tail := c.buffer.toList.insertionSort emission_le
  (c.ready.map Prod.snd ++ tail.map fun entry => entry.2.event,
    { c with ready := [], deadlines := ∅, buffer := ∅, per_sub_len := ∅ })

/-- Drops everything pending of a subscription, and keeps its policy. -/
def drop_subscription (c : Coalescer C V) (sub : Subscription) : Coalescer C V :=
  let entries := c.subscription_entries sub
  let c := entries.foldl (fun c entry => c.take_entry entry.1 entry.2) c
  { c with
    per_sub_len := c.per_sub_len.erase sub
    ready := c.ready.filter fun r => r.2.subscription ≠ sub }

/-- Drops everything pending of a subscription and its policy. -/
def forget_subscription (c : Coalescer C V) (sub : Subscription) : Coalescer C V :=
  let c := c.drop_subscription sub
  { c with policies := c.policies.erase sub }

end

end Coalescer

end Umbrella
