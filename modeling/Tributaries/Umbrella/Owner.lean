import Tributaries.Umbrella.Subsume

/-! # The owner over its engine

  The parts of the owner that decide what a root's source covers: a watch
  from its plan to its commit, a departure with the prune it asks for, and
  a source event.  What the source answers is given; each call returns the
  engine after it and what the source has proved by the way.
-/

open Std Collections

namespace Umbrella

open Proto (ScopeId)

/-! ### Answers of the source -/

/-- What a call establishes about the ground a source covers. -/
inductive Fact (C H : Type) where
  /-- A root was armed at a key. -/
  | armed (handle : H) (key : List C)
  /-- A root was retargeted in place to a wider key. -/
  | widened (handle : H) (key : List C)
  /-- A `set_cover` ran. -/
  | pruned (handle : H) (cover : List (List C))
  /-- A prune unwound or was skipped, or a loss was signalled. -/
  | unproved (handle : H)
  /-- A `grow` answered `Ok`. -/
  | grew (handle : H) (cover : List (List C))
deriving DecidableEq

/-- What became of an optional request. -/
inductive SourceOffer where
  | ran
  | skipped
  | unwound
deriving DecidableEq, Repr

inductive ArmStep (C H : Type) where
  | armed (handle : H) (fs_key : List C)
  | failed
  /-- A close won the race, or every handle is gone. -/
  | stopped
deriving DecidableEq

inductive ReplaceStep (C H : Type) where
  | replaced (handle : H) (fs_key : List C)
  /-- A capacity refusal. -/
  | refused
  | failed
  | stopped
deriving DecidableEq

inductive RearmStep (C H : Type) where
  | armed (handle : H) (fs_key : List C)
  | refused
  | terminal
deriving DecidableEq

/-- What the source answers during one watch. -/
structure Answers (C H : Type) where
  /-- The key a live handle watches. -/
  root_key : H → Option (List C)
  grow : Bool
  replace : H → ReplaceStep C H
  rollback : H → ReplaceStep C H
  arm : ArmStep C H
  /-- A terminal condition is found before a root is re-armed. -/
  probe : H → Bool
  rearm : H → RearmStep C H

variable {C V H : Type} {R T : Type → Type}
variable [DecidableEq C] [Ord C] [TransOrd C] [LawfulEqOrd C]
  [DecidableEq H] [Ord H] [TransOrd H] [LawfulEqOrd H] [Radix C R] [Trie ScopeId T]

/-- An engine, and what was proved on the way to it. -/
abbrev Proving (C V H : Type) (R T : Type → Type) [Ord H] : Type :=
  Except Panic (Subsumer C V H R T × List (Fact C H))

namespace Owner

/-! ### Retirement -/

/-- `retire_root_with_terminal_rescan`, as far as the engine sees it. -/
def retire_root (s : Subsumer C V H R T) (handle : H) : Except Panic (Subsumer C V H R T) :=
  match s.force_remove_root handle with
  | .error e => .error e
  | .ok (_, s) => .ok s

/-- `begin_close_then_retire_disarmed_roots`. -/
def retire_disarmed_roots (s : Subsumer C V H R T) : List H → Except Panic (Subsumer C V H R T)
  | [] => .ok s
  | pending :: rest =>
    match retire_root s pending with
    | .error e => .error e
    | .ok s => retire_disarmed_roots s rest

/-! ### Watches -/

section Watch

variable (a : Answers C H) (key : List C) (value : V) (interest : Interest) (globs : RootGlobs)

/-- Plans until no root the plan names is one the source has forgotten; each
    pass over such a root retires it, so the live roots bound the passes. -/
def settle_plan : Nat → Subsumer C V H R T →
    Except Panic (Option (WatchOutcome H) × Subsumer C V H R T)
  | 0, s => .ok (none, s)
  | fuel + 1, s =>
    match s.plan_watch key value interest globs with
    | .error e => .error e
    | .ok (.error conflict, s) =>
      if (a.root_key conflict.root).isNone then
        match retire_root s conflict.root with
        | .error e => .error e
        | .ok s => settle_plan fuel s
      else .ok (none, s)
    | .ok (.ok (.covered fs_root sub outside_cover), s) =>
      if (a.root_key fs_root).isNone then
        match retire_root (s.abort_watch (.covered fs_root sub outside_cover)) fs_root with
        | .error e => .error e
        | .ok s => settle_plan fuel s
      else .ok (some (.covered fs_root sub outside_cover), s)
    | .ok (.ok outcome, s) => .ok (some outcome, s)

/-- The commit of a watch, with what was proved for it. -/
def commit_proving (s : Subsumer C V H R T) (outcome : WatchOutcome H) (fs_root : H)
    (fs_root_key : List C) (globs : RootGlobs) (facts : List (Fact C H)) : Proving C V H R T :=
  match s.commit_watch outcome fs_root fs_root_key globs with
  | .error e => .error e
  | .ok s => .ok (s, facts)

/-- A commit after a grow that answered `Ok` records the grown cover; a grow
    that failed aborts. -/
def commit_grown (s : Subsumer C V H R T) (outcome : WatchOutcome H) (fs_root : H)
    (grown : List (List C)) (record : Option (List (List C))) : Proving C V H R T :=
  if a.grow then
    match s.commit_watch outcome fs_root key globs with
    | .error e => .error e
    | .ok s => .ok (s.set_retained_cover fs_root record, [.grew fs_root grown])
  else .ok (s.abort_watch outcome, [])

def watch_covered (s : Subsumer C V H R T) (outcome : WatchOutcome H) (fs_root : H)
    (outside_cover : Bool) : Proving C V H R T :=
  if outside_cover then
    match s.retained_cover_for fs_root (some key) with
    | .error e => .error e
    | .ok (some cover) => commit_grown a key globs s outcome fs_root cover (some cover)
    | .ok none =>
      match s.entry fs_root with
      | some record => commit_grown a key globs s outcome fs_root [record.key] none
      | none => commit_proving s outcome fs_root key globs []
  else commit_proving s outcome fs_root key globs []

def watch_disjoint (s : Subsumer C V H R T) (outcome : WatchOutcome H) : Proving C V H R T :=
  match a.arm with
  | .armed handle fs_key =>
    if s.fs_path_preserves_plan fs_key [] then
      commit_proving s outcome handle fs_key globs [.armed handle fs_key]
    else .ok (s.abort_watch outcome, [])
  | .failed | .stopped => .ok (s.abort_watch outcome, [])

/-- Every released root is re-armed at its own key, or retired. -/
def restore_disarmed_roots (unwatch : List H) : List H → Subsumer C V H R T → Proving C V H R T
  | [], s => .ok (s, [])
  | old :: rest, s =>
    let retire_all : Proving C V H R T :=
      match retire_disarmed_roots s unwatch with
      | .error e => .error e
      | .ok s => .ok (s, [])
    let retire_one : Proving C V H R T :=
      match retire_root s old with
      | .error e => .error e
      | .ok s => restore_disarmed_roots unwatch rest s
    if a.probe old then retire_all
    else
      match s.root_view old with
      | none => restore_disarmed_roots unwatch rest s
      | some (root_key, _) =>
        match a.rearm old with
        | .armed new_handle fs_key =>
          if fs_key = root_key then
            match restore_disarmed_roots unwatch rest (s.rebind_root old new_handle) with
            | .error e => .error e
            | .ok (s, facts) => .ok (s, .armed new_handle root_key :: facts)
          else retire_one
        | .refused => retire_one
        | .terminal => retire_all

/-- A plan is given up after the engine was put back in order. -/
def abort_after (outcome : WatchOutcome H) : Proving C V H R T → Proving C V H R T
  | .error e => .error e
  | .ok (s, facts) => .ok (s.abort_watch outcome, facts)

/-- The subsumed roots are released and the wider one armed. -/
def release_and_arm (s : Subsumer C V H R T) (outcome : WatchOutcome H) (unwatch : List H) :
    Proving C V H R T :=
  match a.arm with
  | .stopped =>
    match retire_disarmed_roots s unwatch with
    | .error e => .error e
    | .ok s => .ok (s.abort_watch outcome, [])
  | .failed => abort_after outcome (restore_disarmed_roots a unwatch unwatch s)
  | .armed handle fs_key =>
    if s.fs_path_preserves_plan fs_key unwatch then
      commit_proving s outcome handle fs_key globs [.armed handle fs_key]
    else abort_after outcome (restore_disarmed_roots a unwatch unwatch s)

/-- A root whose retarget could not be taken back is retired. -/
def retire_and_abort (s : Subsumer C V H R T) (outcome : WatchOutcome H) (handle : H) :
    Proving C V H R T :=
  match retire_root s handle with
  | .error e => .error e
  | .ok s => .ok (s.abort_watch outcome, [])

/-- The sole subsumed root is retargeted in place. -/
def replace_in_place (s : Subsumer C V H R T) (outcome : WatchOutcome H) (unwatch : List H)
    (only : H) (only_key : List C) : Proving C V H R T :=
  match a.replace only with
  | .replaced handle fs_key =>
    if s.fs_path_preserves_plan fs_key unwatch then
      commit_proving s outcome handle fs_key ((s.root_globs handle).getD .new)
        [.widened handle fs_key]
    else
      match a.rollback handle with
      | .stopped => .ok (s.abort_watch outcome, [])
      | .replaced _ back_key =>
        if back_key = only_key then .ok (s.abort_watch outcome, [])
        else retire_and_abort s outcome handle
      | .refused | .failed => retire_and_abort s outcome handle
  | .refused | .stopped => .ok (s.abort_watch outcome, [])
  | .failed => release_and_arm a globs s outcome unwatch

def watch_widen (s : Subsumer C V H R T) (outcome : WatchOutcome H) (unwatch : List H) :
    Proving C V H R T :=
  match unwatch with
  | [only] =>
    match a.root_key only with
    | some only_key => replace_in_place a globs s outcome [only] only only_key
    | none => release_and_arm a globs s outcome [only]
  | _ => release_and_arm a globs s outcome unwatch

/-- `reconcile_canonical_watch`. -/
def watch (s : Subsumer C V H R T) : Proving C V H R T :=
  match settle_plan a key value interest globs (s.by_handle.size + 1) s with
  | .error e => .error e
  | .ok (none, s) => .ok (s, [])
  | .ok (some outcome, s) =>
    match outcome with
    | .covered fs_root _ outside_cover => watch_covered a key globs s outcome fs_root outside_cover
    | .disjoint _ => watch_disjoint a globs s outcome
    | .widen _ unwatch _ => watch_widen a globs s outcome unwatch

end Watch

/-! ### Departures and events -/

/-- `release_subscription`: a departure that leaves coverage to reclaim asks
    for a prune, and records what the request came to. -/
def release_subscription (s : Subsumer C V H R T) (sub : Subscription) (offer : SourceOffer) :
    Proving C V H R T :=
  if sub.instance_id ≠ s.instance_id then .ok (s, [])
  else
    match s.plan_unwatch sub with
    | .error e => .error e
    | .ok (some (.dropped (some (handle, retained))), s) =>
      match offer with
      | .ran => .ok (s.set_retained_cover handle (some retained), [.pruned handle retained])
      | .skipped | .unwound => .ok (s.set_retained_cover handle (some []), [.unproved handle])
    | .ok (_, s) => .ok (s, [])

/-- Whether a live root's record is narrowed. -/
def narrowed (s : Subsumer C V H R T) (handle : H) : Bool :=
  ((s.entry handle).bind RootRecord.retained_cover).isSome

/-- `consume_source_event`: an event of a root the source has forgotten
    retires it, and a `Rescan` of a live one degrades its record. -/
def consume_source_event (s : Subsumer C V H R T) (handle : H) (is_rescan forgotten : Bool) :
    Proving C V H R T :=
  if forgotten then
    match retire_root s handle with
    | .error e => .error e
    | .ok s => .ok (s, [])
  else if is_rescan then
    .ok (s.degrade_retained_cover handle, if narrowed s handle then [.unproved handle] else [])
  else .ok (s, [])

/-! ### Runs -/

inductive Op (C V H : Type) where
  | watch (a : Answers C H) (key : List C) (value : V) (interest : Interest) (globs : RootGlobs)
  | unwatch (sub : Subscription) (offer : SourceOffer)
  | source_event (handle : H) (is_rescan forgotten : Bool)

def step (s : Subsumer C V H R T) : Op C V H → Proving C V H R T
  | .watch a key value interest globs => watch a key value interest globs s
  | .unwatch sub offer => release_subscription s sub offer
  | .source_event handle is_rescan forgotten => consume_source_event s handle is_rescan forgotten

def run (s : Subsumer C V H R T) : List (Op C V H) → Proving C V H R T
  | [] => .ok (s, [])
  | op :: ops =>
    match step s op with
    | .error e => .error e
    | .ok (s, facts) =>
      match run s ops with
      | .error e => .error e
      | .ok (s, later) => .ok (s, facts ++ later)

/-- Handles are generation-unique, as `Source::Handle` asks: an arm returns a
    handle no live root has, a retarget the handle it was given, and no two
    re-arms one handle. -/
structure Unique (s : Subsumer C V H R T) (a : Answers C H) : Prop where
  arm : ∀ handle key, a.arm = .armed handle key → s.by_handle[handle]? = none
  replace : ∀ only handle key, a.replace only = .replaced handle key → handle = only
  rearm : ∀ old new key, a.rearm old = .armed new key → s.by_handle[new]? = none
  distinct : ∀ old old' new key key', a.rearm old = .armed new key →
    a.rearm old' = .armed new key' → old = old'

/-- A run whose handles are generation-unique. -/
def Honest (s : Subsumer C V H R T) : List (Op C V H) → Prop
  | [] => True
  | op :: ops =>
    (match op with
      | .watch a _ _ _ _ => Unique s a
      | _ => True) ∧
    match step s op with
    | .error _ => True
    | .ok (s, _) => Honest s ops

end Owner

end Umbrella
