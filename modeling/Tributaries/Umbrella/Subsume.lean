import Tributaries.Umbrella.Event
import Tributaries.Radix

/-! # The subsumption engine

  Overlapping subscriptions folded onto pairwise disjoint armed roots.  The
  engine does no I/O: a `watch` is planned, armed by the owner, and then
  committed or aborted; every other call applies at once.

  An `expect` that fails is an error naming it.  What a call hands back only
  to be released by its caller is left out.
-/

open Std Collections

namespace Umbrella

open Proto (ScopeId)

/-! ### Data -/

/-- The `expect`s of the engine. -/
inductive Panic where
  /-- "subscription id space (u64) exhausted" -/
  | id_space_exhausted
  /-- "commit_watch consumes its own plan's pending entry (not yet aborted)" -/
  | pending_missing
  /-- "covered root is live" -/
  | covered_root_dead
  /-- "re-pointed subscription is live" -/
  | repointed_dead
  /-- "live subscription's root is live" -/
  | root_dead
  /-- "live subscription's root has a cohort" -/
  | cohort_missing
  /-- "a surviving subscriber is live in the side table" -/
  | survivor_dead
  /-- "a live root's subscriber is live in the side table" -/
  | subscriber_dead
  /-- "force-removed root record" -/
  | record_missing
  /-- "a present cover entry holds at least one live subscription" -/
  | entry_empty
deriving DecidableEq, Repr

/-- A glob is compared by its text. -/
abbrev Glob := String

/-- The glob words a root is armed with. -/
structure RootGlobs where
  prune : List Glob
  include_ : Option (List Glob)
deriving DecidableEq, Repr

/-- No words at all. -/
def RootGlobs.new : RootGlobs := ⟨[], none⟩

/-- The kinds a subscription wants delivered. -/
structure Interest where
  created : Bool
  modified : Bool
  removed : Bool
  moved : Bool
deriving DecidableEq, Repr

/-- How a watch's words failed to fit a root's. -/
inductive WordsConflict where
  | differ
  | anchored
deriving DecidableEq, Repr

/-- One live root. -/
structure RootRecord (C H : Type) where
  key : List C
  handle : H
  globs : RootGlobs
  /-- `none` is full coverage, `some cover` a narrowed one. -/
  retained_cover : Option (List (List C))

/-- One live subscription: the root it rides, its own key and its interest. -/
structure SubRecord (C H : Type) where
  root : H
  key : List C
  interest : Interest

/-- The reservation of a planned watch. -/
structure PendingWatch (C V : Type) where
  key : List C
  value : V
  interest : Interest

/-- What the owner must do before a watch is committed. -/
inductive WatchOutcome (H : Type) where
  | covered (fs_root : H) (sub : Subscription) (outside_cover : Bool)
  | widen (repointed : List Subscription) (unwatch : List H) (sub : Subscription)
  | disjoint (sub : Subscription)
deriving DecidableEq

/-- The subscription a plan minted. -/
def WatchOutcome.sub {H : Type} : WatchOutcome H → Subscription
  | .covered _ sub _ => sub
  | .widen _ _ sub => sub
  | .disjoint sub => sub

/-- A watch whose words differ from those of a root it would share. -/
structure WordsRefusal (V H : Type) where
  root : H
  reason : WordsConflict
  root_depth : Nat
  armed : RootGlobs
  value : V

inductive UnwatchOutcome (C H : Type) where
  | dropped (shrink : Option (H × List (List C)))
  | root_emptied (fs_root : H)
deriving DecidableEq

/-! ### Cover entries -/

section CoverEntry

variable (T : Type → Type) (V : Type)

/-- The live subscriptions at one key, each with its own value. -/
structure CoverEntry where
  subs : T V

variable {T V} [Trie ScopeId T]

namespace CoverEntry

def new : CoverEntry T V := ⟨Trie.empty⟩

def is_empty (e : CoverEntry T V) : Bool := Trie.is_empty e.subs

/-- The value of the subscription installed last. -/
def value (e : CoverEntry T V) : Except Panic V :=
  match Trie.last e.subs with
  | some v => .ok v
  | none => .error .entry_empty

def value_of (e : CoverEntry T V) (sub : Subscription) : Option V := Trie.get e.subs sub.scope

def push (e : CoverEntry T V) (sub : Subscription) (value : V) : CoverEntry T V :=
  ⟨Trie.insert e.subs sub.scope value⟩

def remove (e : CoverEntry T V) (sub : Subscription) : CoverEntry T V :=
  ⟨Trie.remove e.subs sub.scope⟩

def remove_all (e : CoverEntry T V) (departing : List Subscription) : CoverEntry T V :=
  departing.foldl remove e

end CoverEntry

end CoverEntry

/-! ### The engine -/

section Engine

variable (C V H : Type) (R T : Type → Type)

/-- The two trees a reader sees, swapped in together. -/
structure Published where
  roots : R (RootRecord C H)
  covers : R (CoverEntry T V)

structure Subsumer [Ord H] where
  index : R (RootRecord C H)
  covers : R (CoverEntry T V)
  by_handle : Map H (List C)
  /-- The cohort of a root, in registration order. -/
  root_subs : Map H (List Subscription)
  subs : Map Subscription (SubRecord C H)
  pending : Map Subscription (PendingWatch C V)
  instance_id : InstanceId
  next_sub : ScopeId
  shared : Published C V H R T

end Engine

section

variable {C V H : Type} {R T : Type → Type}

/-- A key under none of the retained prefixes of a narrowed root. -/
def RootRecord.covered_outside [DecidableEq C] (record : RootRecord C H) (key : List C) : Bool :=
  match record.retained_cover with
  | none => false
  | some cover => !cover.any fun p => p.isPrefixOf key

def WordsRefusal.against (record : RootRecord C H) (value : V) (reason : WordsConflict) :
    WordsRefusal V H where
  root := record.handle
  reason := reason
  root_depth := record.key.length
  armed := record.globs
  value := value

/-- A key joins the deduplicated keys unless it repeats the last of them. -/
def dedup_step [DecidableEq C] (deduped : List (List C)) (key : List C) : List (List C) :=
  if deduped.getLast? = some key then deduped else deduped ++ [key]

/-- The keys, sorted and deduplicated, that no strictly shorter one is a
    prefix of. -/
def antichain [DecidableEq C] [Ord C] (keys : List (List C)) : List (List C) :=
  let deduped := (keys.mergeSort fun a b => (compare a b).isLE).foldl dedup_step []
  deduped.filter fun key =>
    !deduped.any fun other => decide (other.length < key.length) && other.isPrefixOf key

namespace Subsumer

variable [DecidableEq C] [Ord C] [TransOrd C] [LawfulEqOrd C]
  [DecidableEq H] [Ord H] [TransOrd H] [LawfulEqOrd H] [Radix C R] [Trie ScopeId T]

def new (instance_id : InstanceId) : Subsumer C V H R T where
  index := Trie.empty
  covers := Trie.empty
  by_handle := ∅
  root_subs := ∅
  subs := ∅
  pending := ∅
  instance_id := instance_id
  next_sub := Proto.ProtoId.min
  shared := ⟨Trie.empty, Trie.empty⟩

def publish (s : Subsumer C V H R T) : Subsumer C V H R T :=
  { s with shared := ⟨s.index, s.covers⟩ }

def cover_add (s : Subsumer C V H R T) (sub : Subscription) (key : List C) (value : V) :
    Subsumer C V H R T :=
  let entry := (Trie.get s.covers key).getD CoverEntry.new
  { s with covers := Trie.insert s.covers key (entry.push sub value) }

/-- An entry goes back to the plane, unless nothing is left of it. -/
def put_entry (covers : R (CoverEntry T V)) (key : List C) (entry : CoverEntry T V) :
    R (CoverEntry T V) :=
  if entry.is_empty then Trie.remove covers key else Trie.insert covers key entry

def cover_remove (s : Subsumer C V H R T) (sub : Subscription) (key : List C) :
    Subsumer C V H R T :=
  { s with covers :=
      match Trie.get s.covers key with
      | some entry => put_entry s.covers key (entry.remove sub)
      | none => s.covers }

/-! ### Plans -/

/-- `checked_add` on a `u64`. -/
def mint_subscription (s : Subsumer C V H R T) : Except Panic (Subscription × Subsumer C V H R T) :=
  if s.next_sub.as_u64 + 1 < 2 ^ 64 then
    .ok (⟨s.instance_id, s.next_sub⟩, { s with next_sub := s.next_sub.succ })
  else .error .id_space_exhausted

def reserve (s : Subsumer C V H R T) (key : List C) (value : V) (interest : Interest) :
    Except Panic (Subscription × Subsumer C V H R T) :=
  match s.mint_subscription with
  | .error e => .error e
  | .ok (sub, s) => .ok (sub, { s with pending := s.pending.insert sub ⟨key, value, interest⟩ })

/-- The covering root, unless its words refuse the watch. -/
def plan_covered (s : Subsumer C V H R T) (key : List C) (value : V) (globs : RootGlobs) :
    Except (WordsRefusal V H) (Option (H × Bool)) :=
  match Radix.get_ancestor s.index key with
  | none => .ok none
  | some record =>
    if record.globs ≠ globs then .error (.against record value .differ)
    else if record.key.length ≠ key.length ∧ globs.prune ≠ [] then
      .error (.against record value .anchored)
    else .ok (some (record.handle, record.covered_outside key))

/-- The roots a wider one subsumes, with their cohorts, unless the words of
    one of them refuse the watch. -/
def plan_widen (s : Subsumer C V H R T) (value : V) (globs : RootGlobs) :
    List (RootRecord C H) → List Subscription × List H →
      Except (WordsRefusal V H) (List Subscription × List H)
  | [], acc => .ok acc
  | record :: rest, (repointed, unwatch) =>
    if record.globs ≠ globs then .error (.against record value .differ)
    else if globs.prune ≠ [] ∨ record.globs.prune ≠ [] then
      .error (.against record value .anchored)
    else
      plan_widen s value globs rest
        (repointed ++ (s.root_subs[record.handle]?).getD [], unwatch ++ [record.handle])

/-- Reserves a subscription for a classified plan. -/
def reserve_as (s : Subsumer C V H R T) (key : List C) (value : V) (interest : Interest)
    (outcome : Subscription → WatchOutcome H) :
    Except Panic (Except (WordsRefusal V H) (WatchOutcome H) × Subsumer C V H R T) :=
  match s.reserve key value interest with
  | .error e => .error e
  | .ok (sub, s) => .ok (.ok (outcome sub), s)

def plan_watch (s : Subsumer C V H R T) (key : List C) (value : V) (interest : Interest)
    (globs : RootGlobs) :
    Except Panic (Except (WordsRefusal V H) (WatchOutcome H) × Subsumer C V H R T) :=
  match s.plan_covered key value globs with
  | .error refusal => .ok (.error refusal, s)
  | .ok (some (fs_root, outside_cover)) =>
    s.reserve_as key value interest fun sub => .covered fs_root sub outside_cover
  | .ok none =>
    match s.plan_widen value globs (Radix.descendants s.index key) ([], []) with
    | .error refusal => .ok (.error refusal, s)
    | .ok (repointed, unwatch) =>
      if unwatch ≠ [] then
        s.reserve_as key value interest fun sub => .widen repointed unwatch sub
      else s.reserve_as key value interest .disjoint

/-! ### Commits -/

def take_pending (s : Subsumer C V H R T) (sub : Subscription) :
    Except Panic (PendingWatch C V × Subsumer C V H R T) :=
  match s.pending[sub]? with
  | some reservation => .ok (reservation, { s with pending := s.pending.erase sub })
  | none => .error .pending_missing

/-- Every re-pointed subscription rides the wider root. -/
def repoint_all (fs_root : H) :
    List Subscription → Map Subscription (SubRecord C H) →
      Except Panic (Map Subscription (SubRecord C H))
  | [], subs => .ok subs
  | moved :: rest, subs =>
    match subs[moved]? with
    | none => .error .repointed_dead
    | some side => repoint_all fs_root rest (subs.insert moved { side with root := fs_root })

/-- A subscription joins the covers at its own key, and the side table. -/
def settle_sub (s : Subsumer C V H R T) (sub : Subscription) (fs_root : H) (key : List C)
    (value : V) (interest : Interest) : Subsumer C V H R T :=
  let s := s.cover_add sub key value
  { s with subs := s.subs.insert sub ⟨fs_root, key, interest⟩ }.publish

def commit_covered (s : Subsumer C V H R T) (sub : Subscription) (fs_root : H) :
    Except Panic (Subsumer C V H R T) :=
  match s.take_pending sub with
  | .error e => .error e
  | .ok (⟨key, value, interest⟩, s) =>
    match s.root_subs[fs_root]? with
    | none => .error .covered_root_dead
    | some cohort =>
      .ok ({ s with root_subs := s.root_subs.insert fs_root (cohort ++ [sub]) }.settle_sub sub
        fs_root key value interest)

/-- The record of a root armed just now. -/
def armed_record (fs_root : H) (key : List C) (globs : RootGlobs) : RootRecord C H :=
  ⟨key, fs_root, globs, none⟩

def commit_disjoint (s : Subsumer C V H R T) (sub : Subscription) (fs_root : H)
    (root_key : List C) (globs : RootGlobs) : Except Panic (Subsumer C V H R T) :=
  match s.take_pending sub with
  | .error e => .error e
  | .ok (⟨_, value, interest⟩, s) =>
    .ok ({ s with
      index := Trie.insert s.index root_key (armed_record fs_root root_key globs)
      by_handle := s.by_handle.insert fs_root root_key
      root_subs := s.root_subs.insert fs_root [sub] }.settle_sub sub fs_root root_key value
        interest)

/-- A map without the handles of the subsumed roots. -/
def forget_all {W : Type} (unwatch : List H) (m : Map H W) : Map H W :=
  unwatch.foldl (fun m old => m.erase old) m

def commit_widen (s : Subsumer C V H R T) (repointed : List Subscription) (unwatch : List H)
    (sub : Subscription) (fs_root : H) (root_key : List C) (globs : RootGlobs) :
    Except Panic (Subsumer C V H R T) :=
  match s.take_pending sub with
  | .error e => .error e
  | .ok (⟨_, value, interest⟩, s) =>
    match repoint_all fs_root repointed s.subs with
    | .error e => .error e
    | .ok subs =>
      .ok ({ s with
        index := Trie.insert (Radix.remove_descendants s.index root_key) root_key
          (armed_record fs_root root_key globs)
        by_handle := (forget_all unwatch s.by_handle).insert fs_root root_key
        root_subs := (forget_all unwatch s.root_subs).insert fs_root (repointed ++ [sub])
        subs := subs }.settle_sub sub fs_root root_key value interest)

def commit_watch (s : Subsumer C V H R T) (outcome : WatchOutcome H) (fs_root : H)
    (fs_root_key : List C) (globs : RootGlobs) : Except Panic (Subsumer C V H R T) :=
  match outcome with
  | .covered _ sub _ => s.commit_covered sub fs_root
  | .disjoint sub => s.commit_disjoint sub fs_root fs_root_key globs
  | .widen repointed unwatch sub =>
    s.commit_widen repointed unwatch sub fs_root fs_root_key globs

def abort_watch (s : Subsumer C V H R T) (outcome : WatchOutcome H) : Subsumer C V H R T :=
  { s with pending := s.pending.erase outcome.sub }

/-- Whether a root committed at `fs_root_key` would subsume what was planned. -/
def fs_path_preserves_plan (s : Subsumer C V H R T) (fs_root_key : List C)
    (planned_unwatch : List H) : Bool :=
  if (Radix.get_ancestor s.index fs_root_key).isSome then false
  else
    let now := (Radix.descendants s.index fs_root_key).map RootRecord.handle
    now.all planned_unwatch.contains && planned_unwatch.all now.contains

/-! ### Departures -/

/-- The keys of some subscriptions, all of them live. -/
def keys_of (s : Subsumer C V H R T) (expect : Panic) :
    List Subscription → Except Panic (List (List C))
  | [] => .ok []
  | sub :: rest =>
    match s.subs[sub]? with
    | none => .error expect
    | some record =>
      match s.keys_of expect rest with
      | .error e => .error e
      | .ok keys => .ok (record.key :: keys)

/-- The cover the source may prune a root down to, when that reclaims
    anything. -/
def detect_shrink (s : Subsumer C V H R T) (root_key : List C) (root_handle : H)
    (survivors : List Subscription) : Except Panic (Option (H × List (List C))) :=
  match s.keys_of .survivor_dead survivors with
  | .error e => .error e
  | .ok survivor_keys =>
    match (Trie.get s.index root_key).bind RootRecord.retained_cover with
    | none =>
      if root_key ∈ survivor_keys then .ok none
      else .ok (some (root_handle, antichain survivor_keys))
    | some cover =>
      let survivor_antichain := antichain survivor_keys
      let contained := survivor_antichain.all fun key => cover.any fun c => c.isPrefixOf key
      if contained ∧ survivor_antichain ≠ cover then .ok (some (root_handle, survivor_antichain))
      else .ok none

def plan_unwatch (s : Subsumer C V H R T) (sub : Subscription) :
    Except Panic (Option (UnwatchOutcome C H) × Subsumer C V H R T) :=
  match s.subs[sub]? with
  | none => .ok (none, s)
  | some record =>
    let s := { s with subs := s.subs.erase sub }
    match s.by_handle[record.root]? with
    | none => .error .root_dead
    | some root_key =>
      match s.root_subs[record.root]? with
      | none => .error .cohort_missing
      | some cohort =>
        let survivors := cohort.filter fun other => decide (other ≠ sub)
        if survivors = [] then
          let s := { s with
            index := Trie.remove s.index root_key
            root_subs := s.root_subs.insert record.root survivors }.cover_remove sub record.key
          let s := { s with
            by_handle := s.by_handle.erase record.root
            root_subs := s.root_subs.erase record.root }
          .ok (some (.root_emptied record.root), s.publish)
        else
          let s := { s with
            root_subs := s.root_subs.insert record.root survivors }.cover_remove sub record.key
          match s.detect_shrink root_key record.root survivors with
          | .error e => .error e
          | .ok shrink => .ok (some (.dropped shrink), s.publish)

/-- The departing subscriptions, grouped by their keys. -/
def departing_by_key (departing : List (Subscription × SubRecord C H)) :
    Map (List C) (List Subscription) :=
  departing.foldl
    (fun groups d => groups.insert d.2.key ((groups[d.2.key]?).getD [] ++ [d.1])) ∅

/-- One group leaves the covers. -/
def retire_group (covers : R (CoverEntry T V)) (group : List C × List Subscription) :
    R (CoverEntry T V) :=
  match Trie.get covers group.1 with
  | some entry => put_entry covers group.1 (entry.remove_all group.2)
  | none => covers

def force_remove_root (s : Subsumer C V H R T) (handle : H) :
    Except Panic (List Subscription × Subsumer C V H R T) :=
  match s.by_handle[handle]? with
  | none => .ok ([], s)
  | some root_key =>
    match Trie.get s.index root_key with
    | none => .error .record_missing
    | some _ =>
      let subscribers := (s.root_subs[handle]?).getD []
      let departing := subscribers.filterMap fun sub => (s.subs[sub]?).map fun r => (sub, r)
      .ok (subscribers, { s with
        by_handle := s.by_handle.erase handle
        index := Trie.remove s.index root_key
        root_subs := s.root_subs.erase handle
        subs := subscribers.foldl (fun subs sub => subs.erase sub) s.subs
        covers := (departing_by_key departing).toList.foldl retire_group s.covers }.publish)

def rebind_root (s : Subsumer C V H R T) (old new : H) : Subsumer C V H R T :=
  match s.by_handle[old]? with
  | none => s
  | some root_key =>
    match Trie.get s.index root_key with
    | none => s
    | some record =>
      let subscribers := (s.root_subs[old]?).getD []
      { s with
        index := Trie.insert s.index root_key { record with handle := new }
        by_handle := (s.by_handle.erase old).insert new root_key
        subs := subscribers.foldl
          (fun subs sub => subs.modify sub fun side => { side with root := new }) s.subs
        root_subs := (s.root_subs.erase old).insert new subscribers }.publish

/-! ### The retained cover -/

/-- The cover naming every subscriber of a root and a newcomer, unless one of
    them needs the whole root. -/
def retained_cover_for (s : Subsumer C V H R T) (handle : H) (newcomer : Option (List C)) :
    Except Panic (Option (List (List C))) :=
  match s.by_handle[handle]? with
  | none => .ok none
  | some root_key =>
    match Trie.get s.index root_key with
    | none => .ok none
    | some _ =>
      match s.keys_of .subscriber_dead ((s.root_subs[handle]?).getD []) with
      | .error e => .error e
      | .ok keys =>
        let subscriber_keys := keys ++ newcomer.toList
        if root_key ∈ subscriber_keys then .ok none
        else .ok (some (antichain subscriber_keys))

def set_retained_cover (s : Subsumer C V H R T) (handle : H) (cover : Option (List (List C))) :
    Subsumer C V H R T :=
  match s.by_handle[handle]? with
  | none => s
  | some root_key =>
    match Trie.get s.index root_key with
    | none => s
    | some record =>
      { s with
        index := Trie.insert s.index root_key { record with retained_cover := cover } }.publish

/-- A narrowed record claims nothing any more. -/
def degrade_retained_cover (s : Subsumer C V H R T) (handle : H) : Subsumer C V H R T :=
  match s.by_handle[handle]? with
  | none => s
  | some root_key =>
    match Trie.get s.index root_key with
    | none => s
    | some record =>
      match record.retained_cover with
      | none | some [] => s
      | some (_ :: _) =>
        { s with
          index := Trie.insert s.index root_key { record with retained_cover := some [] } }.publish

/-! ### Reads -/

/-- The live record of a root. -/
def entry (s : Subsumer C V H R T) (fs_root : H) : Option (RootRecord C H) :=
  (s.by_handle[fs_root]?).bind (Trie.get s.index)

/-- A root's key and its cohort. -/
def root_view (s : Subsumer C V H R T) (fs_root : H) : Option (List C × List Subscription) :=
  (s.entry fs_root).map fun record => (record.key, (s.root_subs[fs_root]?).getD [])

def root_globs (s : Subsumer C V H R T) (fs_root : H) : Option RootGlobs :=
  (s.entry fs_root).map RootRecord.globs

def subscription_key (s : Subsumer C V H R T) (sub : Subscription) : Option (List C) :=
  (s.subs[sub]?).map SubRecord.key

def subscription_root (s : Subsumer C V H R T) (sub : Subscription) : Option H :=
  (s.subs[sub]?).map SubRecord.root

def subscription_interest (s : Subsumer C V H R T) (sub : Subscription) : Option Interest :=
  (s.subs[sub]?).map SubRecord.interest

def subscription_value (s : Subsumer C V H R T) (sub : Subscription) : Option V :=
  ((s.subscription_key sub).bind (Trie.get s.covers)).bind fun e => e.value_of sub

end Subsumer

end

end Umbrella
