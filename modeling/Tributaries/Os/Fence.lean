import Tributaries.Os.FidMap

/-! # The fanotify fence

  What a root does not report: the paths at or under an exclusion, and those
  under a directory its prune patterns match.  Both are asked about paths
  alone, so the fence is read before any event acts on the map.
-/

namespace Fanotify

/-! ### Components -/

inductive Component where
  | root_dir
  | cur_dir
  | parent_dir
  | normal (name : OsString)
  deriving DecidableEq

namespace PathBuf

/-- The stretches between separators. -/
def segments : PathBuf → List OsString
  | [] => [[]]
  | b :: bytes =>
    if b = separator then [] :: segments bytes
    else
      match segments bytes with
      | [] => [[b]]
      | segment :: rest => (b :: segment) :: rest

/-- A stretch's component; an empty one and a dot have none. -/
def component (segment : OsString) : Option Component :=
  if segment = [] ∨ segment = [0x2E] then none
  else if segment = [0x2E, 0x2E] then some .parent_dir
  else some (.normal segment)

/-- `Path::components`: a leading dot counts. -/
def components (path : PathBuf) : List Component :=
  (if is_absolute path then [.root_dir]
    else if (segments path).head? = some [0x2E] then [.cur_dir] else []) ++
    (segments path).filterMap component

def starts_with (path : List Component) (base : List Component) : Bool := base.isPrefixOf path

def strip_prefix (path base : PathBuf) : Option (List Component) :=
  if (components base).isPrefixOf (components path) then
    some ((components path).drop (components base).length)
  else
    none

/-- What is kept so far is given innermost first; nothing is above a root or an
    empty path. -/
def normalize_from (out : List Component) : List Component → Option (List Component)
  | [] => some out.reverse
  | .parent_dir :: rest =>
    match out with
    | [] | [.root_dir] => none
    | _ :: out => normalize_from out rest
  | .cur_dir :: rest => normalize_from out rest
  | other :: rest => normalize_from (other :: out) rest

def lexically_normalized (path : PathBuf) : Option (List Component) :=
  normalize_from [] (components path)

end PathBuf

open PathBuf

/-! ### Exclusions -/

def cookie_dir_excluded (exclusions : List PathBuf) (dir : PathBuf) : Option PathBuf := do
  let dir ← lexically_normalized dir
  exclusions.find? fun exclusion =>
    match lexically_normalized exclusion with
    | none => false
    | some folded => starts_with dir folded

def excluded (exclusions : List PathBuf) (path : PathBuf) : Bool :=
  !exclusions.isEmpty && (cookie_dir_excluded exclusions path).isSome

/-! ### Pruned directories -/

def cookie_dir_prefix : List Char := ".tributaries-sync-cookies".toList

/-- A number as it is written without sign or leading zeros, below the unowned one. -/
def is_minted_uid (field : List Char) : Bool :=
  field.all Char.isDigit && (field.length == 1 || field.head? != some '0') && !field.isEmpty &&
    decide (field.foldl (fun n c => 10 * n + (c.toNat - 0x30)) 0 < 2 ^ 32 - 1)

def is_sync_cookie_dir_name (name : List Char) : Bool :=
  cookie_dir_prefix.isPrefixOf name &&
    match name.drop cookie_dir_prefix.length with
    | [] => true
    | c :: suffix => c == '-' && is_minted_uid suffix

def is_sync_cookie_artifact_segment (segment : List Char) (index total : Nat) : Bool :=
  decide (total ≤ index + 2) && is_sync_cookie_dir_name segment

/-- A compiled set of patterns.  The normalization of texts and what the compiled
    patterns match are other packages' code. -/
structure Globs where
  nfc : List Char → List Char
  inner : Option (List Char → Bool)

namespace Globs

def is_empty (globs : Globs) : Bool := globs.inner.isNone

def is_match (globs : Globs) (path : List Char) : Bool :=
  if path = [] then false
  else
    match globs.inner with
    | none => false
    | some compiled => compiled (globs.nfc path)

end Globs

/-- A component's text, if it is UTF-8. -/
def to_str : Component → Option (List Char)
  | .root_dir => some ['/']
  | .cur_dir => some ['.']
  | .parent_dir => some ['.', '.']
  | .normal name => (String.fromUTF8? ⟨name.toArray⟩).map String.toList

/-- The walk down the directory prefixes, from the segment at `index` on. -/
def prune_from_segment (prune : Globs) (directory : Bool) (total : Nat) :
    Nat → List Char → List Component → Bool
  | _, _, [] => false
  | index, walked, component :: rest =>
    match to_str component with
    | none => false
    | some segment =>
      if is_sync_cookie_artifact_segment segment index total then false
      else if index + 1 = total ∧ directory = false then false
      else
        let walked := (if walked = [] then walked else walked ++ ['/']) ++ segment
        prune.is_match walked || prune_from_segment prune directory total (index + 1) walked rest

def pruned (root : PathBuf) (prune : Globs) (directory : Bool) (path : PathBuf) : Bool :=
  !prune.is_empty &&
    match strip_prefix path root with
    | none => false
    | some relative => prune_from_segment prune directory relative.length 0 [] relative

/-! ### Both seats -/

structure Fence where
  root : PathBuf
  exclusions : List PathBuf
  prune : Globs

namespace Fence

def unengaged (fence : Fence) : Bool := fence.exclusions.isEmpty && fence.prune.is_empty

def fences (fence : Fence) (directory : Bool) (path : PathBuf) : Bool :=
  excluded fence.exclusions path || pruned fence.root fence.prune directory path

end Fence

/-- `/r/cached` survives an exclusion of `/r/cache`, what is in `/r/cache` does not. -/
example :
    (["/r/cached", "/r/cache/x", "/r/a/../cache"].map fun path =>
        excluded ["/r/cache".toUTF8.toList] path.toUTF8.toList) = [false, true, true] := by
  decide +kernel

end Fanotify
