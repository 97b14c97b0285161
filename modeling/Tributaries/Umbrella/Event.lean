import Tributaries.Proto.Vocabulary

/-! # Events of the umbrella

  What a source reports, what a subscription is delivered, and the
  projections one delivery is minted by.  Keys are lists of components of
  any type; a location is the part of a key below the root it was captured
  against.
-/

open Std Collections

namespace Umbrella

open Proto (Epoch Location ChangeId ScopeId)

/-! ### Subscriptions -/

/-- The brand of one watcher. -/
structure InstanceId where
  get : Nat
  nonzero : 0 < get

namespace InstanceId

theorem ext {a b : InstanceId} (h : a.get = b.get) : a = b := by
  cases a; cases b; cases h; rfl

instance : DecidableEq InstanceId := fun a b =>
  decidable_of_iff (a.get = b.get) ⟨ext, fun h => h ▸ rfl⟩

instance : Ord InstanceId := ⟨compareOn get⟩

instance : TransOrd InstanceId := inferInstanceAs (TransCmp (compareOn get))

instance : LawfulEqOrd InstanceId where
  compare_self := fun {a} => @ReflCmp.compare_self _ (compareOn get) _ a
  eq_of_compare := fun h => ext (@LawfulEqCmp.eq_of_compare _ compare _ _ _ h)

end InstanceId

/-- A caller's handle: the brand of its watcher and the scope minted for it. -/
structure Subscription where
  instance_id : InstanceId
  scope : ScopeId
deriving DecidableEq

namespace Subscription

def pair (s : Subscription) : InstanceId × ScopeId := (s.instance_id, s.scope)

theorem ext_pair {a b : Subscription} (h : a.pair = b.pair) : a = b := by
  cases a; cases b; cases h; rfl

instance : Ord Subscription := ⟨compareOn pair⟩

instance : TransOrd Subscription := inferInstanceAs (TransCmp (compareOn pair))

instance : LawfulEqOrd Subscription where
  compare_self := fun {a} => @ReflCmp.compare_self _ (compareOn pair) _ a
  eq_of_compare := fun h => ext_pair (@LawfulEqCmp.eq_of_compare _ compare _ _ _ h)

end Subscription

/-! ### Kinds and events -/

section

variable {C V H : Type}

/-- What happened.  A move carries the key it moved away from. -/
inductive EventKind (C : Type) where
  | created
  | modified
  | removed
  | moved (source : List C)
  | rescan
deriving DecidableEq, Repr

namespace EventKind

def is_rescan : EventKind C → Bool
  | .rescan => true
  | _ => false

/-- The source key, iff this is a move. -/
def moved_from : EventKind C → Option (List C)
  | .moved source => some source
  | _ => none

end EventKind

/-- One raw change of an armed root. -/
structure SourceEvent (C H : Type) where
  handle : H
  key : List C
  kind : EventKind C
  location : Location
  move_from_location : Option Location
  epoch : Epoch
  change_id : Option ChangeId
  is_dir : Option Bool
deriving DecidableEq

namespace SourceEvent

def is_rescan (e : SourceEvent C H) : Bool := e.kind.is_rescan

/-- The source key, iff the change is a move. -/
def move_from (e : SourceEvent C H) : Option (List C) := e.kind.moved_from

end SourceEvent

/-- One change delivered to a subscription. -/
structure Event (C V : Type) where
  subscription : Subscription
  epoch : Epoch
  key : List C
  kind : EventKind C
  location : Location
  change_id : Option ChangeId
  value : Option V
  is_dir : Option Bool
deriving DecidableEq

namespace Event

/-- An event carried by no source record. -/
def synthetic (subscription : Subscription) (key : List C) (location : Location)
    (kind : EventKind C) (epoch : Epoch) : Event C V :=
  { subscription, epoch, key, kind, location, change_id := none, value := none, is_dir := none }

/-- The `Rescan` owed to a subscription re-pointed onto a widened root. -/
def rescan (subscription : Subscription) (key : List C) (epoch : Epoch) : Event C V :=
  { subscription, epoch, key, kind := .rescan, location := [], change_id := none, value := none
    is_dir := none }

/-- The raw change, whole. -/
def from_source (subscription : Subscription) (event : SourceEvent C H) : Event C V :=
  { subscription
    epoch := event.epoch
    key := event.key
    kind := event.kind
    location := event.location
    change_id := event.change_id
    value := none
    is_dir := event.is_dir }

/-- The move-out projection: a `Removed` at the source of a move.  It is only
    minted for a move; elsewhere the source panics, here the key stands in. -/
def source_move_out (subscription : Subscription) (event : SourceEvent C H) : Event C V :=
  { subscription
    epoch := event.epoch
    key := event.move_from.getD event.key
    kind := .removed
    location := event.move_from_location.getD []
    change_id := none
    value := none
    is_dir := event.is_dir }

/-- The move-in projection: a `Created` at the destination of a move. -/
def source_move_in (subscription : Subscription) (event : SourceEvent C H) : Event C V :=
  { subscription
    epoch := event.epoch
    key := event.key
    kind := .created
    location := event.location
    change_id := none
    value := none
    is_dir := event.is_dir }

/-- The clamped projection of a `Rescan` that strictly contains `key`. -/
def source_rescan_clamped (subscription : Subscription) (event : SourceEvent C H)
    (key : List C) : Event C V :=
  { subscription
    epoch := event.epoch
    key
    kind := .rescan
    location := []
    change_id := event.change_id
    value := none
    is_dir := none }

/-- Drops the first `strip` segments of the location. -/
def rebase_location (e : Event C V) (strip : Nat) : Event C V :=
  if strip = 0 ∨ e.location = [] then e else { e with location := e.location.drop strip }

def anchor_location_at_root (e : Event C V) : Event C V := { e with location := [] }

def set_epoch (e : Event C V) (epoch : Epoch) : Event C V := { e with epoch }

def set_value (e : Event C V) (value : Option V) : Event C V := { e with value }

def is_rescan (e : Event C V) : Bool := e.kind.is_rescan

def move_from (e : Event C V) : Option (List C) := e.kind.moved_from

end Event

end

end Umbrella
