import Tributaries.Collections
import Tributaries.Forest
import Tributaries.Os.Fanotify

/-! # The fanotify admission map

  The directories under a watched root, by file handle, each with its name
  and a link to its parent.  An event's directory is admitted when walking up
  its links reaches the anchor, and the walk spells out its path.

  An insertion re-parents a directory in place and looks at nothing above it.
  The map is a forest under its anchor as long as no insertion hangs a
  directory below itself.
-/

open Collections Std Forest

namespace Fanotify

abbrev HandleKey : Type := List UInt8

abbrev OsString : Type := List UInt8

/-- A path's bytes. -/
abbrev PathBuf : Type := List UInt8

namespace PathBuf

def separator : UInt8 := 0x2F

def is_absolute (path : PathBuf) : Bool := path.head? == some separator

/-- `PathBuf::push`: an absolute path takes the place of what stood there. -/
def push (path : PathBuf) (component : OsString) : PathBuf :=
  if is_absolute component then component
  else if path = [] ∨ path.getLast? = some separator then path ++ component
  else path ++ separator :: component

end PathBuf

structure SeedEntry where
  fid : Fid
  parent : Option Fid
  name : OsString
  deriving DecidableEq

structure DirNode where
  parent : Option HandleKey
  name : OsString
  children : OSet HandleKey
  pending_walk : Bool

structure FidMap where
  dirs : Map HandleKey DirNode
  generation : UInt64

/-- A raw name as a path component, unless it is none. -/
def os_name (name : List UInt8) : Option OsString :=
  if name = [] ∨ name = [0x2E] ∨ name = [0x2E, 0x2E] ∨ PathBuf.separator ∈ name then none
  else some name

/-! ### Walking up -/

/-- The walk up from `cursor`, with the components met so far, outermost first. -/
def resolve_from (dirs : Map HandleKey DirNode) :
    Nat → List OsString → HandleKey → Option PathBuf
  | 0, _, _ => none
  | guard + 1, components, cursor =>
    match dirs[cursor]? with
    | none => none
    | some node =>
      match node.parent with
      | none => some (components.foldl PathBuf.push node.name)
      | some parent => resolve_from dirs guard (node.name :: components) parent

/-- The subtree's removal; the stack is given from its top. -/
def prune_from (dirs : Map HandleKey DirNode) (stack : List HandleKey) (removed : Bool) :
    Map HandleKey DirNode × Bool :=
  match stack with
  | [] => (dirs, removed)
  | key :: stack =>
    match _h : dirs[key]? with
    | none => prune_from dirs stack removed
    | some node => prune_from (dirs.erase key) (node.children.toList.reverse ++ stack) true
  termination_by (dirs.size, stack.length)
  decreasing_by
    · simp_wf
      right
      omega
    · simp_wf
      left
      have hc : dirs.contains key = true := contains_iff.mpr ⟨node, _h⟩
      have hpos : 1 ≤ dirs.size := length_le_size (l := [key]) (by simp) (by simpa using hc)
      rw [ExtTreeMap.size_erase, if_pos hc]
      omega

namespace FidMap

def new : FidMap := { dirs := ∅, generation := 0 }

/-- The counter wraps. -/
def bump (map : FidMap) : FidMap := { map with generation := map.generation + 1 }

def resolve (map : FidMap) (handle : HandleKey) : Option PathBuf :=
  resolve_from map.dirs (map.dirs.size + 1) [] handle

def resolve_path (map : FidMap) (fid : Fid) : Option PathBuf := map.resolve fid.handle

def contains (map : FidMap) (fid : Fid) : Bool := map.dirs.contains fid.handle

def is_root (map : FidMap) (fid : Fid) : Bool :=
  (map.dirs[fid.handle]?).any fun node => node.parent.isNone

/-- The children sets with `key` taken out of `parent`'s, if both are there. -/
def unlink (dirs : Map HandleKey DirNode) (parent : Option HandleKey) (key : HandleKey) :
    Map HandleKey DirNode :=
  match parent with
  | none => dirs
  | some parent => dirs.modify parent fun node => { node with children := node.children.erase key }

def link (dirs : Map HandleKey DirNode) (parent : Option HandleKey) (key : HandleKey) :
    Map HandleKey DirNode :=
  match parent with
  | none => dirs
  | some parent => dirs.modify parent fun node => { node with children := node.children.insert key }

/-- The map without the subtree, and a bump if that was anything. -/
def prune_subtree (map : FidMap) (root : HandleKey) : FidMap :=
  let (dirs, removed) := prune_from map.dirs [root] false
  if removed then { map with dirs }.bump else { map with dirs }

def evict_orphan (map : FidMap) (handle : HandleKey) : FidMap :=
  match map.dirs[handle]? with
  | none => map
  | some node => { map with dirs := unlink map.dirs node.parent handle }.prune_subtree handle

def admit_fid (map : FidMap) (fid : Fid) : Option PathBuf × FidMap :=
  match map.resolve fid.handle with
  | some path => (some path, map)
  | none => (none, map.evict_orphan fid.handle)

def forget (map : FidMap) (fid : Fid) : FidMap :=
  let key := fid.handle
  match map.dirs[key]? with
  | none => map.prune_subtree key
  | some node => { map with dirs := unlink map.dirs node.parent key }.prune_subtree key

/-- An insertion, or a re-parent in place: the children and an outstanding walk
    are carried across. -/
def insert_dir (map : FidMap) (entry : SeedEntry) (pending_walk : Bool) : FidMap :=
  let map := map.bump
  let key := entry.fid.handle
  let parent := entry.parent.map Fid.handle
  let existing := map.dirs[key]?
  let dirs :=
    match existing with
    | none => map.dirs
    | some node => if node.parent = parent then map.dirs else unlink map.dirs node.parent key
  let dirs := link dirs parent key
  let (children, pending_walk) :=
    match existing with
    | none => (∅, pending_walk)
    | some node => (node.children, pending_walk || node.pending_walk)
  { map with dirs := dirs.insert key { parent, name := entry.name, children, pending_walk } }

def seed (map : FidMap) (entries : List SeedEntry) : FidMap :=
  entries.foldl (fun map entry => map.insert_dir entry false) map

def reseed (map : FidMap) (entries : List SeedEntry) : FidMap :=
  ({ map with dirs := ∅ }.bump).seed entries

def learn_inner (map : FidMap) (dir_fid : Fid) (name : List UInt8) (child_fid : Option Fid)
    (pending_walk : Bool) : FidMap :=
  match child_fid with
  | none => map
  | some child_fid =>
    if map.dirs.contains dir_fid.handle then
      match os_name name with
      | none => map
      | some name => map.insert_dir { fid := child_fid, parent := some dir_fid, name } pending_walk
    else
      map

def learn (map : FidMap) (dir_fid : Fid) (name : List UInt8) (child_fid : Option Fid) : FidMap :=
  map.learn_inner dir_fid name child_fid false

def learn_moved_in (map : FidMap) (dir_fid : Fid) (name : List UInt8) (child_fid : Fid) : FidMap :=
  map.learn_inner dir_fid name (some child_fid) true

def pending_walk_target (map : FidMap) (fid : Fid) : Option (PathBuf × Bool) := do
  let node ← map.dirs[fid.handle]?
  let path ← map.resolve fid.handle
  return (path, node.pending_walk)

def clear_pending_walk (map : FidMap) (fid : Fid) : FidMap :=
  { map with dirs := map.dirs.modify fid.handle fun node => { node with pending_walk := false } }

end FidMap

/-! ### What a removal removes -/

/-- The keys a removal from `stack` comes by. -/
inductive Reached (dirs : Map HandleKey DirNode) (stack : List HandleKey) : HandleKey → Prop where
  | start {k : HandleKey} (h : k ∈ stack) : Reached dirs stack k
  | child {k c : HandleKey} {n : DirNode} (h : Reached dirs stack k) (hn : dirs[k]? = some n)
      (hc : c ∈ n.children) : Reached dirs stack c

section Prune

variable {dirs : Map HandleKey DirNode} {stack : List HandleKey} {removed : Bool} {k key : HandleKey}

theorem prune_from_nil : prune_from dirs [] removed = (dirs, removed) := by
  rw [prune_from]

theorem prune_from_gone (h : dirs[key]? = none) :
    prune_from dirs (key :: stack) removed = prune_from dirs stack removed := by
  rw [prune_from]
  split
  · rfl
  · next heq => simp [h] at heq

theorem prune_from_node {n : DirNode} (h : dirs[key]? = some n) :
    prune_from dirs (key :: stack) removed =
      prune_from (dirs.erase key) (n.children.toList.reverse ++ stack) true := by
  rw [prune_from]
  split
  · next heq => simp [h] at heq
  · next node heq =>
    obtain rfl := Option.some.inj (h.symm.trans heq)
    rfl

theorem Reached.mono {stack' : List HandleKey} (h : Reached dirs stack k) (hs : stack ⊆ stack') :
    Reached dirs stack' k := by
  induction h with
  | start hm => exact .start (hs hm)
  | child _ hn hc ih => exact .child ih hn hc

/-- A key without a node leads nowhere. -/
theorem Reached.gone (h : dirs[key]? = none) (hk : Reached dirs (key :: stack) k) :
    k = key ∨ Reached dirs stack k := by
  induction hk with
  | start hm =>
    rcases List.mem_cons.mp hm with rfl | hm
    · exact .inl rfl
    · exact .inr (.start hm)
  | child _ hn hc ih =>
    rcases ih with rfl | ih
    · simp [h] at hn
    · exact .inr (.child ih hn hc)

/-- Taking a node off the stack leaves its children to reach the rest from. -/
theorem reached_node {n : DirNode} (h : dirs[key]? = some n) :
    Reached dirs (key :: stack) k ↔
      k = key ∨ Reached (dirs.erase key) (n.children.toList.reverse ++ stack) k := by
  constructor
  · intro hk
    induction hk with
    | start hm =>
      rcases List.mem_cons.mp hm with rfl | hm
      · exact .inl rfl
      · exact .inr (.start (by simp [hm]))
    | @child x c m _ hn hc ih =>
      by_cases hx : x = key
      · subst hx
        obtain rfl := Option.some.inj (h.symm.trans hn)
        exact .inr (.start (by simp [hc]))
      · have hx' : (dirs.erase key)[x]? = some m := by rw [get_erase, if_neg (Ne.symm hx), hn]
        exact .inr (.child (ih.resolve_left hx) hx' hc)
  · intro hk
    rcases hk with rfl | hk
    · exact .start (by simp)
    · induction hk with
      | start hm =>
        rcases List.mem_append.mp hm with hm | hm
        · exact .child (.start (by simp)) h (by simpa using hm)
        · exact .start (by simp [hm])
      | child _ hn hc ih =>
        rw [get_erase] at hn
        split at hn
        · cases hn
        · exact .child ih hn hc

/-- A removal takes what it reaches and leaves the rest as it was. -/
theorem prune_from_spec (dirs : Map HandleKey DirNode) (stack : List HandleKey) (removed : Bool) :
    ∀ k, (Reached dirs stack k → (prune_from dirs stack removed).1[k]? = none) ∧
      (¬ Reached dirs stack k → (prune_from dirs stack removed).1[k]? = dirs[k]?) := by
  induction dirs, stack, removed using prune_from.induct with
  | case1 dirs removed =>
    intro k
    rw [prune_from_nil]
    refine ⟨fun h => ?_, fun _ => rfl⟩
    exfalso
    induction h with
    | start hm => cases hm
    | child _ _ _ ih => exact ih
  | case2 dirs removed key stack h ih =>
    intro k
    rw [prune_from_gone h]
    by_cases hk : k = key
    · subst hk
      by_cases hr : Reached dirs stack k
      · exact ⟨fun _ => (ih k).1 hr, fun hn => absurd (.start (by simp)) hn⟩
      · exact ⟨fun _ => ((ih k).2 hr).trans h, fun _ => (ih k).2 hr⟩
    · constructor
      · intro hr
        exact (ih k).1 ((hr.gone h).resolve_left hk)
      · intro hr
        exact (ih k).2 fun hs => hr (hs.mono (List.subset_cons_self _ _))
  | case3 dirs removed key stack node h ih =>
    intro k
    rw [prune_from_node h, reached_node h]
    constructor
    · intro hr
      by_cases hs : Reached (dirs.erase key) (node.children.toList.reverse ++ stack) k
      · exact (ih k).1 hs
      · obtain rfl := hr.resolve_right hs
        rw [(ih k).2 hs, get_erase, if_pos rfl]
    · intro hr
      obtain ⟨hk, hs⟩ := not_or.mp hr
      rw [(ih k).2 hs, get_erase, if_neg (Ne.symm hk)]

theorem prune_from_removed (dirs : Map HandleKey DirNode) (stack : List HandleKey) :
    (prune_from dirs stack true).2 = true := by
  generalize hr : true = removed
  induction dirs, stack, removed using prune_from.induct with
  | case1 => rw [prune_from_nil]
  | case2 dirs removed key stack h ih => rw [prune_from_gone h, ih hr]
  | case3 dirs removed key stack node h ih => rw [prune_from_node h, ih rfl, hr]

end Prune

end Fanotify
