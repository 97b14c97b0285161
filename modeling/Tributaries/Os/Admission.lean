import Tributaries.Os.Fence
import Tributaries.Os.FanotifyEvents

/-! # The fanotify classifier

  Every decoded event is answered with one action, and the action's change
  to the admission map is made on the way.  The events of one read buffer
  share a memo of the directories they were looked up under; an answer is
  taken from it only while the map's counter stands where it stood.
-/

open Collections Std

namespace Fanotify

/-! ### The mask -/

def fan_create : UInt64 := 0x00000100

def fan_delete : UInt64 := 0x00000200

def fan_delete_self : UInt64 := 0x00000400

def fan_move_self : UInt64 := 0x00000800

def fan_ondir : UInt64 := 0x40000000

namespace FanMask

def created (m : FanMask) : Bool := m.bits &&& fan_create != 0

def removed (m : FanMask) : Bool := m.bits &&& fan_delete != 0

def delete_self (m : FanMask) : Bool := m.bits &&& fan_delete_self != 0

def move_self (m : FanMask) : Bool := m.bits &&& fan_move_self != 0

def ondir (m : FanMask) : Bool := m.bits &&& fan_ondir != 0

def structural_verbs (m : FanMask) : Nat :=
  m.created.toNat + m.removed.toNat + m.delete_self.toNat + m.move_self.toNat + m.rename.toNat

def multi_structural (m : FanMask) : Bool := 2 ≤ m.structural_verbs

end FanMask

/-! ### Actions -/

structure AdmittedRename where
  old_path : PathBuf
  new_path : PathBuf
  deriving DecidableEq

structure AdmittedEvent where
  mask : FanMask
  path : Option PathBuf
  rename : Option AdmittedRename
  deriving DecidableEq

inductive Admission where
  | Forward (event : AdmittedEvent)
  | LearnDir (event : AdmittedEvent)
  | ForgetDir (event : AdmittedEvent)
  | Rename (event : AdmittedEvent) (seed : Option Fid)
  | RootDeath (event : AdmittedEvent)
  | ForeignDrop
  | ExcludedDrop
  | Lossy
  deriving DecidableEq

/-! ### Looking a directory up -/

/-- The admitted directories of one buffer, each with the counter it was found at. -/
structure MemoBatch where
  entries : Map HandleKey (UInt64 × PathBuf)
  hits : UInt64
  misses : UInt64

namespace MemoBatch

def new : MemoBatch := { entries := ∅, hits := 0, misses := 0 }

def admit_fid (memo : MemoBatch) (map : FidMap) (fid : Fid) : Option PathBuf × MemoBatch × FidMap :=
  let generation := map.generation
  let hit := (memo.entries[fid.handle]?).filter fun entry => entry.1 == generation
  match hit with
  | some entry => (some entry.2, { memo with hits := memo.hits + 1 }, map)
  | none =>
    let memo := { memo with misses := memo.misses + 1 }
    let (path, map) := map.admit_fid fid
    match path with
    | none => (none, memo, map)
    | some path =>
      (some path,
        { memo with entries := memo.entries.insert fid.handle (map.generation, path) }, map)

end MemoBatch

/-- How the classifier looks a directory up, and what it remembers. -/
abbrev Lookup (M : Type) : Type := M → FidMap → Fid → Option PathBuf × M × FidMap

/-- The map is asked every time. -/
def directly : Lookup Unit := fun _ map fid =>
  let (path, map) := map.admit_fid fid
  (path, (), map)

/-! ### The fence's verdict -/

/-- A name is joined as it came. -/
def join_name (dir : PathBuf) (name : List UInt8) : PathBuf := dir.push name

inductive RenameEnd where
  | Reported (path : PathBuf)
  | Excluded
  | Outside

namespace RenameEnd

def is_reported : RenameEnd → Bool
  | Reported _ => true
  | _ => false

end RenameEnd

def rename_end (dir : Option PathBuf) (name : List UInt8) (fence : Fence) (directory : Bool) :
    RenameEnd :=
  match dir with
  | none => .Outside
  | some dir =>
    let path := join_name dir name
    if fence.fences directory path then .Excluded else .Reported path

/-- The mask a root's death is restated to. -/
def root_death_mask (mask : FanMask) : Option FanMask :=
  if mask.removed || mask.delete_self then some ⟨fan_delete_self ||| fan_ondir⟩
  else if mask.move_self || mask.rename then some ⟨fan_move_self ||| fan_ondir⟩
  else none

def reports_root_death (map : FidMap) (event : RawFanotifyEvent) : Bool :=
  if event.rename.isNone && event.name.isNone &&
      (event.mask.delete_self || event.mask.move_self) &&
      (event.dir_fid <|> event.target_fid).any map.is_root then
    true
  else
    (root_death_mask event.mask).isSome && event.target_fid.any map.is_root

/-- The objects an event acts on; its directory is one only when it names no child. -/
def affected_object_fids (event : RawFanotifyEvent) : List Fid :=
  event.target_fid.toList ++ if event.name.isNone then event.dir_fid.toList else []

def affects_reported_object (map : FidMap) (event : RawFanotifyEvent) (fence : Fence) : Bool :=
  (affected_object_fids event).any fun fid =>
    map.contains fid && (map.resolve_path fid).any fun path => !fence.fences true path

def names_no_reported_path (map : FidMap) (event : RawFanotifyEvent) (fence : Fence) : Bool :=
  let directory := event.mask.ondir
  match event.rename with
  | some rename =>
    let reported (dir : Fid) (name : List UInt8) : Bool :=
      (rename_end (map.resolve_path dir) name fence directory).is_reported
    !reported rename.old_dir rename.old_name && !reported rename.new_dir rename.new_name
  | none =>
    match event.name with
    | some name =>
      (event.dir_fid.bind map.resolve_path).any fun dir =>
        fence.fences directory (join_name dir name)
    | none =>
      ((event.dir_fid <|> event.target_fid).bind map.resolve_path).any fun path =>
        fence.fences directory path

def fence_verdict (map : FidMap) (event : RawFanotifyEvent) (fence : Fence) : Option Admission :=
  if fence.unengaged then none
  else if reports_root_death map event then none
  else if !names_no_reported_path map event fence then none
  else if affects_reported_object map event fence then some .Lossy
  else some .ExcludedDrop

/-! ### The gate of merged masks -/

def map_neutral_merge (map : FidMap) (event : RawFanotifyEvent) : Bool :=
  event.rename.isNone && event.name.isSome && !event.mask.ondir && !event.mask.rename &&
    !event.mask.delete_self && !event.mask.move_self &&
      event.dir_fid.any fun dir => (map.resolve_path dir).isSome

def addresses_in_root (map : FidMap) (event : RawFanotifyEvent) : Bool :=
  let rename_ends := event.rename.toList.flatMap fun rename => [rename.old_dir, rename.new_dir]
  let singles := event.dir_fid.toList ++ event.target_fid.toList
  (rename_ends ++ singles).any fun fid => (map.resolve_path fid).isSome

/-! ### The shapes -/

def self_event (mask : FanMask) (path : PathBuf) : AdmittedEvent :=
  { mask, path := some path, rename := none }

def classify_foreign_parent (map : FidMap) (event : RawFanotifyEvent) : Admission :=
  match event.target_fid with
  | none => .ForeignDrop
  | some target =>
    match map.resolve_path target with
    | none => .ForeignDrop
    | some path =>
      match if map.is_root target then root_death_mask event.mask else none with
      | some mask => .RootDeath (self_event mask path)
      | none => .Lossy

section Shapes

variable {M : Type} (look : Lookup M) (memo : M) (map : FidMap) (event : RawFanotifyEvent)

def classify_dirent (name : List UInt8) : Admission × M × FidMap :=
  let mask := event.mask
  match event.dir_fid with
  | none => (classify_foreign_parent map event, memo, map)
  | some dir_fid =>
    match look memo map dir_fid with
    | (none, memo, map) => (classify_foreign_parent map event, memo, map)
    | (some dir_path, memo, map) =>
      let admitted : AdmittedEvent :=
        { mask, path := some (join_name dir_path name), rename := none }
      if mask.ondir && mask.created then
        match event.target_fid with
        | none => (.Lossy, memo, map)
        | some child => (.LearnDir admitted, memo, map.learn dir_fid name (some child))
      else if mask.ondir && (mask.removed || mask.move_self) then
        match event.target_fid with
        | none => (.Lossy, memo, map)
        | some child => (.ForgetDir admitted, memo, map.forget child)
      else
        (.Forward admitted, memo, map)

def classify_nameless : Admission × M × FidMap :=
  let mask := event.mask
  match event.dir_fid <|> event.target_fid with
  | none => (.ForeignDrop, memo, map)
  | some self_fid =>
    let is_root := map.is_root self_fid
    match look memo map self_fid with
    | (none, memo, map) => (classify_foreign_parent map event, memo, map)
    | (some path, memo, map) =>
      if mask.delete_self || mask.move_self then
        if is_root then (.RootDeath (self_event mask path), memo, map)
        else if mask.delete_self then
          (.ForgetDir (self_event mask path), memo, map.forget self_fid)
        else (.Forward (self_event mask path), memo, map)
      else if mask.created || mask.removed then (.Lossy, memo, map)
      else (.Forward (self_event mask path), memo, map)

/-- Whether a move of a mapped directory changes what below it is fenced; any move
    might under prune patterns. -/
def fence_geometry_changed (moved : Fid) (destination : PathBuf) (fence : Fence) : Bool :=
  if fence.unengaged then false
  else
    match map.resolve_path moved with
    | none => true
    | some source =>
      if !fence.prune.is_empty then true
      else fence.exclusions.any fun exclusion => excluded [source, destination] exclusion

def classify_rename (rename : RenameInfo) (fence : Fence) : Admission × M × FidMap :=
  let (old_dir, memo, map) := look memo map rename.old_dir
  let (new_dir, memo, map) := look memo map rename.new_dir
  if old_dir.isNone && new_dir.isNone then (classify_foreign_parent map event, memo, map)
  else
    let old_path := (old_dir.map fun dir => join_name dir rename.old_name).getD rename.old_name
    let new_path := (new_dir.map fun dir => join_name dir rename.new_name).getD rename.new_name
    let admitted : AdmittedEvent :=
      { mask := event.mask, path := none, rename := some { old_path, new_path } }
    if event.mask.ondir then
      match event.target_fid with
      | none => (.Lossy, memo, map)
      | some moved =>
        match rename_end new_dir rename.new_name fence true with
        | .Reported destination =>
          if map.contains moved && !fence_geometry_changed map moved destination fence then
            (.Rename admitted none, memo, map.learn rename.new_dir rename.new_name (some moved))
          else
            let map := map.forget moved
            (.Rename admitted (some moved), memo,
              map.learn_moved_in rename.new_dir rename.new_name moved)
        | .Excluded | .Outside => (.Rename admitted none, memo, map.forget moved)
    else
      (.Rename admitted none, memo, map)

/-- One event's action, the directories looked up by `look`. -/
def classify_with (fence : Fence) : Admission × M × FidMap :=
  match fence_verdict map event fence with
  | some fenced => (fenced, memo, map)
  | none =>
    if event.mask.multi_structural && addresses_in_root map event &&
        !map_neutral_merge map event then
      (.Lossy, memo, map)
    else
      match event.rename with
      | some rename => classify_rename look memo map event rename fence
      | none =>
        match event.name with
        | some name => classify_dirent look memo map event name
        | none => classify_nameless look memo map event

end Shapes

def classify (map : FidMap) (event : RawFanotifyEvent) (memo : MemoBatch) (fence : Fence) :
    Admission × MemoBatch × FidMap :=
  classify_with MemoBatch.admit_fid memo map event fence

/-- The actions of a run of events, and the map they leave. -/
def classify_all {M : Type} (look : Lookup M) (fence : Fence) :
    M → FidMap → List RawFanotifyEvent → List Admission × FidMap
  | _, map, [] => ([], map)
  | memo, map, event :: events =>
    let (admission, memo, map) := classify_with look memo map event fence
    let (admissions, map) := classify_all look fence memo map events
    (admission :: admissions, map)

/-! ### The memo's answers -/

/-- The map was left alone, or its counter moved on. -/
def Stepped (map map' : FidMap) : Prop := map' = map ∨ map'.generation = map.generation + 1

theorem prune_subtree_stepped (map : FidMap) (key : HandleKey) (dirs : Map HandleKey DirNode)
    {n : DirNode} (h : dirs[key]? = some n) :
    ({ map with dirs }.prune_subtree key).generation = map.generation + 1 := by
  rw [FidMap.prune_subtree]
  dsimp only
  rw [prune_from_node h, prune_from_removed]
  rfl

theorem get_unlink_isSome {dirs : Map HandleKey DirNode} {k : HandleKey} {n : DirNode}
    (h : dirs[k]? = some n) (parent : Option HandleKey) (key : HandleKey) :
    ∃ n', (FidMap.unlink dirs parent key)[k]? = some n' := by
  cases parent with
  | none => exact ⟨n, h⟩
  | some p =>
    rw [FidMap.unlink, get_modify, h]
    split
    · exact ⟨_, rfl⟩
    · exact ⟨_, rfl⟩

theorem evict_orphan_stepped (map : FidMap) (handle : HandleKey) :
    Stepped map (map.evict_orphan handle) := by
  rw [FidMap.evict_orphan]
  cases h : map.dirs[handle]? with
  | none => exact .inl rfl
  | some n =>
    obtain ⟨n', hn'⟩ := get_unlink_isSome h n.parent handle
    exact .inr (prune_subtree_stepped map handle _ hn')

theorem forget_stepped (map : FidMap) (fid : Fid) : Stepped map (map.forget fid) := by
  rw [FidMap.forget]
  cases h : map.dirs[fid.handle]? with
  | none =>
    left
    simp only [FidMap.prune_subtree, prune_from_gone h, prune_from_nil]
    rfl
  | some n =>
    obtain ⟨n', hn'⟩ := get_unlink_isSome h n.parent fid.handle
    exact .inr (prune_subtree_stepped map fid.handle _ hn')

theorem learn_inner_stepped (map : FidMap) (dir : Fid) (name : List UInt8) (child : Option Fid)
    (walk : Bool) : Stepped map (map.learn_inner dir name child walk) := by
  cases child with
  | none => exact .inl rfl
  | some c =>
    simp only [FidMap.learn_inner]
    split
    · cases os_name name with
      | none => exact .inl rfl
      | some name => exact .inr rfl
    · exact .inl rfl

/-- The memo of a buffer that began at counter `start`, `n` steps of the map ago: what
    it found at the counter's present value is the map's answer. -/
structure Fresh (start : UInt64) (n : Nat) (memo : MemoBatch) (map : FidMap) : Prop where
  now : map.generation = start + UInt64.ofNat n
  tagged : ∀ k g path, memo.entries[k]? = some (g, path) →
    ∃ j ≤ n, g = start + UInt64.ofNat j ∧ (j = n → map.resolve k = some path)

namespace Fresh

variable {start : UInt64} {n : Nat} {memo : MemoBatch} {map map' : FidMap}

theorem new (map : FidMap) : Fresh map.generation 0 .new map where
  now := by simp
  tagged := by
    intro k g path h
    simp [MemoBatch.new] at h

theorem stepped (h : Fresh start n memo map) (hs : Stepped map map') :
    ∃ n' ≤ n + 1, Fresh start n' memo map' := by
  rcases hs with rfl | hg
  · exact ⟨n, by omega, h⟩
  · refine ⟨n + 1, Nat.le_refl _, ?_, ?_⟩
    · rw [hg, h.now, UInt64.ofNat_add, ← UInt64.add_assoc]
      rfl
    · -- every older entry has an older counter
      intro k g path hk
      obtain ⟨j, hj, hg', _⟩ := h.tagged k g path hk
      exact ⟨j, by omega, hg', fun e => by omega⟩

/-- Short of the counter's wrap, a lookup through the memo is one of the map. -/
theorem lookup (h : Fresh start n memo map) (hn : n < 2 ^ 64) (fid : Fid) :
    ∃ path memo' map', MemoBatch.admit_fid memo map fid = (path, memo', map') ∧
      directly () map fid = (path, (), map') ∧ ∃ n' ≤ n + 1, Fresh start n' memo' map' := by
  cases hit : (memo.entries[fid.handle]?).filter fun entry => entry.1 == map.generation with
  | some entry =>
    obtain ⟨g, path⟩ := entry
    obtain ⟨hk, hg⟩ := Option.filter_eq_some_iff.mp hit
    obtain ⟨j, hj, hgj, hres⟩ := h.tagged _ _ _ hk
    have hjn : j = n := by
      have hsame : start + UInt64.ofNat j = start + UInt64.ofNat n := by
        rw [← hgj, ← h.now]
        exact eq_of_beq hg
      have hof : UInt64.ofNat j = UInt64.ofNat n := (UInt64.add_right_inj start).mp hsame
      have := congrArg UInt64.toNat hof
      rw [UInt64.toNat_ofNat_of_lt' (by show j < 2 ^ 64; omega),
        UInt64.toNat_ofNat_of_lt' (by show n < 2 ^ 64; omega)] at this
      exact this
    refine ⟨some path, { memo with hits := memo.hits + 1 }, map,
      by simp only [MemoBatch.admit_fid, hit], ?_, n, by omega, h.now, h.tagged⟩
    simp only [directly, FidMap.admit_fid, hres hjn]
  | none =>
    cases hres : map.resolve fid.handle with
    | some path =>
      refine ⟨some path,
        { memo with
          entries := memo.entries.insert fid.handle (map.generation, path)
          misses := memo.misses + 1 }, map,
        by simp only [MemoBatch.admit_fid, hit, FidMap.admit_fid, hres],
        by simp only [directly, FidMap.admit_fid, hres], n, by omega, h.now, ?_⟩
      intro k g p hk
      dsimp only at hk
      rw [get_insert] at hk
      split at hk
      · next he =>
        obtain ⟨rfl, rfl⟩ := Prod.mk.inj (Option.some.inj hk)
        exact ⟨n, Nat.le_refl _, h.now, fun _ => he ▸ hres⟩
      · exact h.tagged k g p hk
    | none =>
      refine ⟨none, { memo with misses := memo.misses + 1 }, map.evict_orphan fid.handle,
        by simp only [MemoBatch.admit_fid, hit, FidMap.admit_fid, hres],
        by simp only [directly, FidMap.admit_fid, hres], ?_⟩
      have h' : Fresh start n { memo with misses := memo.misses + 1 } map := ⟨h.now, h.tagged⟩
      exact h'.stepped (evict_orphan_stepped map fid.handle)

end Fresh

/-! ### One event both ways -/

/-- The same action and map, at most `n` steps from the buffer's start. -/
def Agrees (start : UInt64) (n : Nat) (x : Admission × MemoBatch × FidMap)
    (y : Admission × Unit × FidMap) : Prop :=
  ∃ a memo map, x = (a, memo, map) ∧ y = (a, (), map) ∧ ∃ n' ≤ n, Fresh start n' memo map

section Agree

variable {start : UInt64} {n : Nat} {memo : MemoBatch} {map map' : FidMap}
  {event : RawFanotifyEvent} {fence : Fence}

theorem Agrees.same {m : Nat} (h : Fresh start n memo map) (hn : n ≤ m) (a : Admission) :
    Agrees start m (a, memo, map) (a, (), map) :=
  ⟨a, memo, map, rfl, rfl, n, hn, h⟩

theorem Agrees.stepped {m : Nat} (h : Fresh start n memo map) (hs : Stepped map map')
    (hn : n + 1 ≤ m) (a : Admission) : Agrees start m (a, memo, map') (a, (), map') := by
  obtain ⟨n', hn', h'⟩ := h.stepped hs
  exact ⟨a, memo, map', rfl, rfl, n', by omega, h'⟩

theorem classify_dirent_agrees (h : Fresh start n memo map) (hn : n + 4 < 2 ^ 64)
    (name : List UInt8) :
    Agrees start (n + 4) (classify_dirent MemoBatch.admit_fid memo map event name)
      (classify_dirent directly () map event name) := by
  cases hd : event.dir_fid with
  | none =>
    simp only [classify_dirent, hd]
    exact .same h (by omega) _
  | some dir =>
    obtain ⟨path, memo', map', hl, hl', n', hn', h'⟩ := h.lookup (by omega) dir
    simp only [classify_dirent, hd, hl, hl']
    cases path with
    | none => exact .same h' (by omega) _
    | some path =>
      dsimp only
      split
      · -- a directory's create
        cases event.target_fid with
        | none => exact .same h' (by omega) _
        | some child => exact .stepped h' (learn_inner_stepped _ _ _ _ _) (by omega) _
      · split
        · cases event.target_fid with
          | none => exact .same h' (by omega) _
          | some child => exact .stepped h' (forget_stepped _ _) (by omega) _
        · exact .same h' (by omega) _

theorem classify_nameless_agrees (h : Fresh start n memo map) (hn : n + 4 < 2 ^ 64) :
    Agrees start (n + 4) (classify_nameless MemoBatch.admit_fid memo map event)
      (classify_nameless directly () map event) := by
  cases hd : (event.dir_fid <|> event.target_fid) with
  | none =>
    simp only [classify_nameless, hd]
    exact .same h (by omega) _
  | some self_fid =>
    obtain ⟨path, memo', map', hl, hl', n', hn', h'⟩ := h.lookup (by omega) self_fid
    simp only [classify_nameless, hd, hl, hl']
    cases path with
    | none => exact .same h' (by omega) _
    | some path =>
      dsimp only
      split
      · split
        · exact .same h' (by omega) _
        · split
          · exact .stepped h' (forget_stepped _ _) (by omega) _
          · exact .same h' (by omega) _
      · split
        · exact .same h' (by omega) _
        · exact .same h' (by omega) _

theorem classify_rename_agrees (h : Fresh start n memo map) (hn : n + 4 < 2 ^ 64)
    (rename : RenameInfo) :
    Agrees start (n + 4) (classify_rename MemoBatch.admit_fid memo map event rename fence)
      (classify_rename directly () map event rename fence) := by
  obtain ⟨old_dir, memo₁, map₁, hl₁, hl₁', n₁, hn₁, h₁⟩ := h.lookup (by omega) rename.old_dir
  obtain ⟨new_dir, memo₂, map₂, hl₂, hl₂', n₂, hn₂, h₂⟩ := h₁.lookup (by omega) rename.new_dir
  simp only [classify_rename, hl₁, hl₁', hl₂, hl₂']
  split
  · exact .same h₂ (by omega) _
  · split
    · cases event.target_fid with
      | none => exact .same h₂ (by omega) _
      | some moved =>
        dsimp only
        cases rename_end new_dir rename.new_name fence true with
        | Reported destination =>
          dsimp only
          split
          · exact .stepped h₂ (learn_inner_stepped _ _ _ _ _) (by omega) _
          · -- forgotten and learned anew
            obtain ⟨n₃, hn₃, h₃⟩ := h₂.stepped (forget_stepped map₂ moved)
            exact .stepped h₃ (learn_inner_stepped _ _ _ _ _) (by omega) _
        | Excluded => exact .stepped h₂ (forget_stepped _ _) (by omega) _
        | Outside => exact .stepped h₂ (forget_stepped _ _) (by omega) _
    · exact .same h₂ (by omega) _

theorem classify_with_agrees (h : Fresh start n memo map) (hn : n + 4 < 2 ^ 64)
    (event : RawFanotifyEvent) (fence : Fence) :
    Agrees start (n + 4) (classify_with MemoBatch.admit_fid memo map event fence)
      (classify_with directly () map event fence) := by
  simp only [classify_with]
  cases fence_verdict map event fence with
  | some fenced => exact .same h (by omega) _
  | none =>
    dsimp only
    split
    · exact .same h (by omega) _
    · cases event.rename with
      | some rename => exact classify_rename_agrees h hn rename
      | none =>
        cases event.name with
        | some name => exact classify_dirent_agrees h hn name
        | none => exact classify_nameless_agrees h hn

/-- A run of events through one memo answers as the map does, as long as the counter
    cannot have wrapped. -/
theorem classify_all_agrees {events : List RawFanotifyEvent} (h : Fresh start n memo map)
    (hn : n + 4 * events.length < 2 ^ 64) :
    classify_all MemoBatch.admit_fid fence memo map events =
      classify_all directly fence () map events := by
  induction events generalizing n memo map with
  | nil => rfl
  | cons event events ih =>
    rw [List.length_cons] at hn
    obtain ⟨a, memo', map', hx, hy, n', hn', h'⟩ :=
      classify_with_agrees h (by omega) event fence
    simp only [classify_all, hx, hy]
    rw [ih h' (by omega)]

end Agree

/-! ### The events of one buffer -/

/-- Every event takes up its header, so a buffer holds too few to wrap the counter. -/
theorem decoded_length {w : Machine.Width} {endian : Bytes.Endian} {buf : Machine.Slice w}
    {out : DecodeOutcome} (h : decode_events endian buf = .ok (.ok out)) :
    out.events.length < 2 ^ 62 := by
  have hroom : ∀ {pos stop : Nat} {items : List (Option RawFanotifyEvent)},
      Walk.Chain (Stride endian buf.bytes) pos items stop → pos ≤ buf.bytes.length →
        pos + 24 * items.length ≤ buf.bytes.length := by
    intro pos stop items hc hpos
    induction hc with
    | nil => simpa using hpos
    | @cons p q t r rs hr _ ih =>
      have hh := hr.headed
      have h₁ := hh.header
      have h₂ := hh.event
      have h₃ := hh.next_eq
      unfold metadata_len at h₁
      have := ih hr.pos_lt.2
      rw [List.length_cons]
      omega
  obtain ⟨items, stop, res, hc, -, hd, he⟩ := decode_from_chain endian buf [] false 0 (Nat.zero_le _)
  rw [show decode_from endian buf [] false 0 = decode_events endian buf from rfl, h] at hd
  obtain rfl := Except.ok.inj hd
  obtain ⟨rfl, -⟩ := he
  have hfit : buf.bytes.length < 2 ^ 63 := by
    refine Nat.lt_of_lt_of_le buf.fits (Nat.pow_le_pow_right (by omega) ?_)
    cases w <;> simp [Machine.Width.bits]
  have hlen : items.reduceOption.length ≤ items.length := List.reduceOption_length_le items
  have := hroom hc (Nat.zero_le _)
  simp only [List.nil_append]
  omega

/-! ### Verdicts without a mutation -/

section Verdicts

variable {M : Type} {look : Lookup M} {memo : M} {map : FidMap} {event : RawFanotifyEvent}
  {fence : Fence}

/-- The fence bars or drops. -/
theorem fence_verdict_cases {a : Admission} (h : fence_verdict map event fence = some a) :
    a = .Lossy ∨ a = .ExcludedDrop := by
  simp only [fence_verdict] at h
  split at h
  · cases h
  · split at h
    · cases h
    · split at h
      · cases h
      · split at h
        · exact .inl (Option.some.inj h).symm
        · exact .inr (Option.some.inj h).symm

theorem foreign_not_excluded : classify_foreign_parent map event ≠ .ExcludedDrop := by
  simp only [classify_foreign_parent]
  repeat' split
  all_goals nofun

theorem dirent_not_excluded {name : List UInt8} :
    (classify_dirent look memo map event name).1 ≠ .ExcludedDrop := by
  simp only [classify_dirent]
  repeat' split
  all_goals first | exact foreign_not_excluded | nofun

theorem nameless_not_excluded : (classify_nameless look memo map event).1 ≠ .ExcludedDrop := by
  simp only [classify_nameless]
  repeat' split
  all_goals first | exact foreign_not_excluded | nofun

theorem rename_not_excluded {rename : RenameInfo} :
    (classify_rename look memo map event rename fence).1 ≠ .ExcludedDrop := by
  simp only [classify_rename]
  repeat' split
  all_goals first | exact foreign_not_excluded | nofun

/-- Only the fence drops an event as excluded, and it looks at no more than the map. -/
theorem excluded_unchanged (h : (classify_with look memo map event fence).1 = .ExcludedDrop) :
    (classify_with look memo map event fence).2.2 = map := by
  simp only [classify_with] at h ⊢
  split
  · rfl
  · next hn =>
    rw [hn] at h
    dsimp only at h
    exfalso
    split at h
    · cases h
    · split at h
      · exact rename_not_excluded h
      · split at h
        · exact dirent_not_excluded h
        · exact nameless_not_excluded h

end Verdicts

/-- The event carries the identifier, in whatever place. -/
def Carries (event : RawFanotifyEvent) (fid : Fid) : Prop :=
  event.dir_fid = some fid ∨ event.target_fid = some fid ∨
    ∃ rename, event.rename = some rename ∧ (fid = rename.old_dir ∨ fid = rename.new_dir)

/-- A plain file's create and delete of one name under an admitted directory. -/
structure PlainMerge (map : FidMap) (event : RawFanotifyEvent) : Prop where
  named : event.rename = none ∧ event.name ≠ none
  plain : event.mask.ondir = false
  verbs : event.mask.created = true ∧ event.mask.removed = true ∧ event.mask.rename = false ∧
    event.mask.delete_self = false ∧ event.mask.move_self = false
  admitted : ∃ dir path, event.dir_fid = some dir ∧ map.resolve_path dir = some path

section Gate

variable {map : FidMap} {event : RawFanotifyEvent}

theorem addresses_in_root_of_carries {fid : Fid} (h : Carries event fid)
    (hr : (map.resolve_path fid).isSome) : addresses_in_root map event = true := by
  simp only [addresses_in_root, List.any_eq_true]
  refine ⟨fid, ?_, hr⟩
  rcases h with h | h | ⟨rename, h, rfl | rfl⟩ <;> simp [h]

/-- A merge of two verbs that the gate lets pass is one file's create and delete. -/
theorem plain_of_neutral (hv : event.mask.multi_structural = true)
    (h : map_neutral_merge map event = true) : PlainMerge map event := by
  simp only [map_neutral_merge, Bool.and_eq_true, Bool.not_eq_true', Option.any_eq_true] at h
  obtain ⟨⟨⟨⟨⟨⟨hr, hn⟩, ho⟩, hren⟩, hds⟩, hms⟩, dir, hdir, hpath⟩ := h
  obtain ⟨path, hpath⟩ := Option.isSome_iff_exists.mp hpath
  have hv' : event.mask.created = true ∧ event.mask.removed = true := by
    simp only [FanMask.multi_structural, FanMask.structural_verbs, hren, hds, hms,
      decide_eq_true_eq] at hv
    cases hc : event.mask.created <;> cases hd : event.mask.removed <;> simp [hc, hd] at hv ⊢
  refine ⟨⟨Option.isNone_iff_eq_none.mp hr, ?_⟩, ho, ⟨hv'.1, hv'.2, hren, hds, hms⟩, dir, path,
    hdir, hpath⟩
  intro he
  simp [he] at hn

end Gate

/-- The events of one buffer are answered through the memo as they are without it,
    and leave the same map.  What the fence drops or bars, and what the gate of
    merged masks bars, leaves the map alone; a merge the fence does not drop is
    barred if anything it carries is in the root, unless it is one plain file's
    create and delete. -/
theorem classify_memo_exact (fence : Fence) :
    (∀ (w : Machine.Width) (endian : Bytes.Endian) (buf : Machine.Slice w) (out : DecodeOutcome),
      decode_events endian buf = .ok (.ok out) → out.events.length < 2 ^ 62) ∧
    (∀ (map : FidMap) (events : List RawFanotifyEvent), events.length < 2 ^ 62 →
      classify_all MemoBatch.admit_fid fence .new map events =
        classify_all directly fence () map events) ∧
    (∀ map event memo, (classify map event memo fence).1 = .ExcludedDrop →
      (classify map event memo fence).2.2 = map) ∧
    (∀ map event memo, fence_verdict map event fence = some .Lossy ∨
        fence_verdict map event fence = none ∧ event.mask.multi_structural = true ∧
          addresses_in_root map event = true ∧ map_neutral_merge map event = false →
      classify map event memo fence = (.Lossy, memo, map)) ∧
    ∀ map event memo fid, 2 ≤ event.mask.structural_verbs → ¬ PlainMerge map event →
      fence_verdict map event fence ≠ some .ExcludedDrop → Carries event fid →
        (map.resolve_path fid).isSome → classify map event memo fence = (.Lossy, memo, map) := by
  have hbarred : ∀ map event memo, fence_verdict map event fence = some .Lossy ∨
        fence_verdict map event fence = none ∧ event.mask.multi_structural = true ∧
          addresses_in_root map event = true ∧ map_neutral_merge map event = false →
      classify map event memo fence = (.Lossy, memo, map) := by
    intro map event memo h
    rcases h with h | ⟨h, hm, ha, hn⟩
    · simp only [classify, classify_with, h]
    · simp only [classify, classify_with, h, hm, ha, hn]
      rfl
  refine ⟨fun w endian buf out => decoded_length, ?_, fun map event memo => excluded_unchanged,
    hbarred, ?_⟩
  · intro map events hlen
    exact classify_all_agrees (.new map) (by omega)
  · intro map event memo fid hv hp hx hc hr
    have hmulti : event.mask.multi_structural = true := decide_eq_true hv
    have hneutral : map_neutral_merge map event = false := by
      apply Bool.eq_false_iff.mpr
      intro h
      exact hp (plain_of_neutral hmulti h)
    cases hfv : fence_verdict map event fence with
    | none =>
      have ha : addresses_in_root map event = true := addresses_in_root_of_carries hc hr
      exact hbarred map event memo (.inr ⟨hfv, hmulti, ha, hneutral⟩)
    | some fenced =>
      rcases fence_verdict_cases hfv with rfl | rfl
      · exact hbarred map event memo (.inl hfv)
      · exact absurd hfv hx

end Fanotify
