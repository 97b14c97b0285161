import Tributaries.Umbrella.Event

/-! # Routing

  One raw event fans out to the subscriptions of its root: each gets at
  most one projection of it, restated in its own coordinate and stamped in
  its own epoch space.
-/

open Std Collections

namespace Umbrella

open Proto (Epoch u64Max)

/-! ### The routing seam -/

/-- Which endpoints of a change lie in the source's reserved namespace. -/
inductive ReservedEndpoints where
  | none
  | source
  | destination
  | all
deriving DecidableEq, Repr

namespace ReservedEndpoints

def masks_source : ReservedEndpoints → Bool
  | .source | .all => true
  | _ => false

def masks_destination : ReservedEndpoints → Bool
  | .destination | .all => true
  | _ => false

end ReservedEndpoints

section

variable {C D V H : Type}

/-- What the router reads of a raw event, and how it mints a delivery of it. -/
structure RoutableEvent (C D : Type) where
  key : List C
  move_from : Option (List C)
  is_rescan : Bool
  reserved : ReservedEndpoints
  deliver : Subscription → D
  deliver_move_out : Subscription → D
  deliver_move_in : Subscription → D
  deliver_rescan_clamped : Subscription → List C → D
  captured_root_depth : Nat
  rebase : D → Nat → D
  anchor_at_root : D → D

/-- A source event as the router sees it. -/
def SourceRoutable (event : SourceEvent C H) (reserved : ReservedEndpoints) :
    RoutableEvent C (Event C V) where
  key := event.key
  move_from := event.move_from
  is_rescan := event.is_rescan
  reserved := reserved
  deliver sub := .from_source sub event
  deliver_move_out sub := .source_move_out sub event
  deliver_move_in sub := .source_move_in sub event
  deliver_rescan_clamped sub key := .source_rescan_clamped sub event key
  -- saturating: a location longer than its key reads as captured at the top
  captured_root_depth := event.key.length - event.location.length
  rebase := Event.rebase_location
  anchor_at_root := Event.anchor_location_at_root

variable [DecidableEq C]

/-- The one projection a subscription at `canonical` receives of a change that
    is not a `Rescan`, or nothing if it covers none of its endpoints. -/
def project (event : RoutableEvent C D) (sub : Subscription) (canonical to_key : List C)
    (move_from : Option (List C)) (reserved : ReservedEndpoints) : Option D :=
  let covers_to := canonical.isPrefixOf to_key && !reserved.masks_destination
  match move_from with
  | none => if covers_to then some (event.deliver sub) else none
  | some source =>
    let covers_from := canonical.isPrefixOf source && !reserved.masks_source
    match covers_from, covers_to with
    | true, true => some (event.deliver sub)
    | true, false => some (event.deliver_move_out sub)
    | false, true => some (event.deliver_move_in sub)
    | false, false => none

/-- The projection a subscription at `canonical` receives of a `Rescan` at
    `at_key`: whole, clamped to its own key, or nothing. -/
def project_rescan (event : RoutableEvent C D) (sub : Subscription)
    (canonical at_key : List C) : Option D :=
  if canonical.isPrefixOf at_key then some (event.deliver sub)
  else if at_key.isPrefixOf canonical then some (event.deliver_rescan_clamped sub canonical)
  else none

/-- What one subscription at `canonical` receives of an event. -/
def project_for (event : RoutableEvent C D) (admits : Subscription → D → Bool)
    (sub : Subscription) (canonical : List C) : Option D :=
  let projected :=
    if event.is_rescan then project_rescan event sub canonical event.key
    else project event sub canonical event.key event.move_from event.reserved
  projected.bind fun projected =>
    let projected :=
      -- a subscription above the captured root has no coordinate for the change
      if event.captured_root_depth ≤ canonical.length then
        event.rebase projected (canonical.length - event.captured_root_depth)
      else event.anchor_at_root projected
    if event.is_rescan || admits sub projected then some projected else none

/-- Fans one event out to the subscribers of its root.  A subscriber whose key
    no longer resolves gets nothing. -/
def fan_out (event : RoutableEvent C D) (subscribers : List Subscription)
    (canonical_of : Subscription → Option (List C)) (admits : Subscription → D → Bool) : List D :=
  subscribers.filterMap fun sub => (canonical_of sub).bind (project_for event admits sub)

end

/-! ### Stamping -/

/-- The per-subscription epoch state: the floor of the current root's epochs
    and the greatest stamp delivered. -/
structure EpochLedger where
  base : Map Subscription Epoch
  high_water : Map Subscription Epoch

namespace EpochLedger

def new : EpochLedger := ⟨∅, ∅⟩

def base_of (l : EpochLedger) (sub : Subscription) : Epoch := (l.base[sub]?).getD Epoch.START

def high_water_of (l : EpochLedger) (sub : Subscription) : Epoch :=
  (l.high_water[sub]?).getD Epoch.START

/-- Advances the high-water mark to cover `stamp`. -/
def bump (l : EpochLedger) (sub : Subscription) (stamp : Epoch) : EpochLedger :=
  { l with
    high_water := l.high_water.insert sub
      ⟨Nat.max ((l.high_water[sub]?).elim stamp.as_u64 Epoch.as_u64) stamp.as_u64⟩ }

/-- The raw epoch over the base, saturating. -/
def natural (l : EpochLedger) (sub : Subscription) (raw : Epoch) : Nat :=
  Nat.min ((l.base_of sub).as_u64 + raw.as_u64) u64Max

/-- The stamp of an ordinary delivery: never below the high-water mark. -/
def stamp (l : EpochLedger) (sub : Subscription) (raw : Epoch) : Epoch × EpochLedger :=
  let stamp : Epoch := ⟨Nat.max (l.natural sub raw) (l.high_water_of sub).as_u64⟩
  (stamp, l.bump sub stamp)

/-- The stamp of a source's `Rescan`: strictly above the high-water mark. -/
def stamp_rescan (l : EpochLedger) (sub : Subscription) (raw : Epoch) : Epoch × EpochLedger :=
  let stamp : Epoch := ⟨Nat.max (l.natural sub raw) (l.high_water_of sub).next.as_u64⟩
  (stamp, l.bump sub stamp)

/-- Stamps the deliveries of one event in order. -/
def stamp_all {D D' : Type} (is_rescan : Bool) (raw : Epoch) (sub_of : D → Subscription)
    (stamp_into : D → Epoch → D') : EpochLedger → List D → List D' × EpochLedger
  | l, [] => ([], l)
  | l, delivered :: rest =>
    let (stamp, l) :=
      if is_rescan then l.stamp_rescan (sub_of delivered) raw else l.stamp (sub_of delivered) raw
    let (stamped, l) := stamp_all is_rescan raw sub_of stamp_into l rest
    (stamp_into delivered stamp :: stamped, l)

/-- Fans an event out and stamps each delivery in its subscription's space. -/
def stamp_and_fan_out {C D D' : Type} [DecidableEq C] (l : EpochLedger)
    (event : RoutableEvent C D) (raw : Epoch) (subscribers : List Subscription)
    (canonical_of : Subscription → Option (List C)) (admits : Subscription → D → Bool)
    (sub_of : D → Subscription) (stamp_into : D → Epoch → D') : List D' × EpochLedger :=
  stamp_all event.is_rescan raw sub_of stamp_into l (fan_out event subscribers canonical_of admits)

end EpochLedger

/-- What the owner delivers of one raw event to the subscribers of its root:
    `canonical_of`, `admits` and `value_of` are its reads of the engine and of
    the gates. -/
def fan_out_raw {C V H : Type} [DecidableEq C] (epochs : EpochLedger) (raw : SourceEvent C H)
    (reserved : ReservedEndpoints) (subscribers : List Subscription)
    (canonical_of : Subscription → Option (List C))
    (admits : Subscription → Event C V → Bool) (value_of : Subscription → Option V) :
    List (Event C V) × EpochLedger :=
  epochs.stamp_and_fan_out (SourceRoutable raw reserved) raw.epoch subscribers canonical_of admits
    Event.subscription
    fun event stamp => (event.set_epoch stamp).set_value (value_of event.subscription)

end Umbrella
