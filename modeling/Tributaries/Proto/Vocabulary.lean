import Tributaries.Collections

/-! # The vocabulary of the Monitor

  Handles, paths, interests, records, results, actions and changes: the
  plain data `tributary-proto` exchanges with its driver.  Nothing here
  decides anything; the state machine over it starts in
  `Tributaries.Proto.State`.
-/

open Std Collections

namespace Proto

/-! ### Handles

    The `proto_id!` family: opaque non-zero `u64` handles.  A handle is a
    positive natural number here; the Rust counter panics once the `u64`
    space is exhausted, so no run of the code sees a handle past it. -/

/-- The members of the `proto_id!` family. -/
inductive IdKind where
  | watch | req | arm | change | scope | cookie | identity
deriving DecidableEq, Repr

/-- An opaque non-zero handle of one kind. -/
structure ProtoId (κ : IdKind) where
  as_u64 : Nat
  nonzero : 0 < as_u64

namespace ProtoId

variable {κ : IdKind}

theorem ext {a b : ProtoId κ} (h : a.as_u64 = b.as_u64) : a = b := by
  cases a; cases b; cases h; rfl

instance : DecidableEq (ProtoId κ) := fun a b =>
  decidable_of_iff (a.as_u64 = b.as_u64) ⟨ext, fun h => h ▸ rfl⟩

instance : Ord (ProtoId κ) := ⟨compareOn as_u64⟩

instance : TransOrd (ProtoId κ) :=
  inferInstanceAs (TransCmp (compareOn (as_u64 (κ := κ))))

instance : LawfulEqOrd (ProtoId κ) where
  compare_self := fun {a} => @ReflCmp.compare_self _ (compareOn as_u64) _ a
  eq_of_compare := fun h => ext (@LawfulEqCmp.eq_of_compare _ compare _ _ _ h)

instance : LT (ProtoId κ) := ⟨fun a b => a.as_u64 < b.as_u64⟩

instance : LE (ProtoId κ) := ⟨fun a b => a.as_u64 ≤ b.as_u64⟩

instance (a b : ProtoId κ) : Decidable (a < b) :=
  inferInstanceAs (Decidable (a.as_u64 < b.as_u64))

instance (a b : ProtoId κ) : Decidable (a ≤ b) :=
  inferInstanceAs (Decidable (a.as_u64 ≤ b.as_u64))

theorem lt_def {a b : ProtoId κ} : a < b ↔ a.as_u64 < b.as_u64 := Iff.rfl

theorem le_def {a b : ProtoId κ} : a ≤ b ↔ a.as_u64 ≤ b.as_u64 := Iff.rfl

/-- `NonZeroU64::MIN`, the least handle. -/
def min : ProtoId κ := ⟨1, Nat.one_pos⟩

/-- The handle after this one. -/
def succ (a : ProtoId κ) : ProtoId κ := ⟨a.as_u64 + 1, Nat.succ_pos _⟩

theorem lt_succ (a : ProtoId κ) : a < a.succ := Nat.lt_succ_self _

end ProtoId

abbrev WatchId := ProtoId .watch
abbrev ReqId := ProtoId .req
abbrev ArmAttempt := ProtoId .arm
abbrev ChangeId := ProtoId .change
abbrev ScopeId := ProtoId .scope
abbrev MoveCookie := ProtoId .cookie
/-- A driver-sourced object identity. -/
abbrev Identity := ProtoId .identity

/-- A monotone minting sequence. -/
structure Sequence (κ : IdKind) where
  next : ProtoId κ
deriving DecidableEq

namespace Sequence

variable {κ : IdKind}

def new : Sequence κ := ⟨ProtoId.min⟩

/-- Hands out the next handle and advances past it. -/
def mint (s : Sequence κ) : ProtoId κ × Sequence κ := (s.next, ⟨s.next.succ⟩)

end Sequence

/-! ### Epochs and instants -/

/-- `u64::MAX`, where `Epoch::next` saturates. -/
def u64Max : Nat := 2 ^ 64 - 1

/-- A per-scope reconciliation generation. -/
structure Epoch where
  as_u64 : Nat
deriving DecidableEq, Repr

namespace Epoch

def START : Epoch := ⟨0⟩

/-- The next generation, saturating at `u64::MAX`. -/
def next (e : Epoch) : Epoch := ⟨Nat.min (e.as_u64 + 1) u64Max⟩

end Epoch

/-- A span of time in nanoseconds. -/
abbrev Duration := Nat

/-- `Duration::MAX` in nanoseconds. -/
def durationMax : Duration := u64Max * 1000000000 + 999999999

/-- A driver clock reading: the time elapsed since the origin. -/
structure Instant where
  elapsed : Duration
deriving DecidableEq, Repr

namespace Instant

/-- Whether this reading is at or past `deadline`. -/
def reached (now deadline : Instant) : Bool := decide (deadline.elapsed ≤ now.elapsed)

/-- `Instant + Duration`, saturating. -/
def add (now : Instant) (span : Duration) : Instant :=
  ⟨Nat.min (now.elapsed + span) durationMax⟩

end Instant

/-! ### Locations -/

/-- One name of a location. -/
abbrev Segment := String

/-- A root-relative path. -/
abbrev Location := List Segment

namespace Location

/-- This location followed by one more segment. -/
def child (l : Location) (segment : Segment) : Location := l ++ [segment]

/-- This location followed by every segment of `suffix`. -/
def join (l suffix : Location) : Location := l ++ suffix

/-- Whether `pre` is a segment-wise prefix of this location. -/
def starts_with (l pre : Location) : Bool := pre.isPrefixOf l

theorem starts_with_iff {l pre : Location} : l.starts_with pre = true ↔ pre <+: l := by
  simp [starts_with]

end Location

/-! ### Interests, evidence and capabilities -/

/-- The per-scope subscription mask. -/
structure Interest where
  created : Bool
  removed : Bool
  modified : Bool
  moved : Bool
  attrib : Bool
  ondir : Bool
deriving DecidableEq, Repr

namespace Interest

def all : Interest := ⟨true, true, true, true, true, true⟩

end Interest

inductive FileKind where
  | file | dir | symlink | other | unknown
deriving DecidableEq, Repr

namespace FileKind

def is_dir (k : FileKind) : Bool := k == .dir

def is_unknown (k : FileKind) : Bool := k == .unknown

/-- Whether the kind proves the object a directory, or proves it is not one. -/
def proven_dir : FileKind → Option Bool
  | .dir => some true
  | .unknown => none
  | .file | .symlink | .other => some false

end FileKind

inductive RecordKind where
  | created | removed | modified | attrib | movedFrom | movedTo
  | moveSelf | deleteSelf | ignored
deriving DecidableEq, Repr

namespace RecordKind

def is_moved_from (k : RecordKind) : Bool := k == .movedFrom

def is_self_event : RecordKind → Bool
  | .moveSelf | .deleteSelf | .ignored => true
  | _ => false

end RecordKind

/-- The facts a record proves. -/
structure Evidence where
  created : Bool
  removed : Bool
  modified : Bool
  attrib : Bool
  moved : Bool
deriving DecidableEq, Repr

namespace Evidence

def new : Evidence := ⟨false, false, false, false, false⟩

/-- What a record of the given kind proves. -/
def of : RecordKind → Evidence
  | .created => { new with created := true }
  | .removed | .deleteSelf => { new with removed := true }
  | .modified => { new with modified := true }
  | .attrib => { new with attrib := true }
  | .movedFrom | .movedTo | .moveSelf => { new with moved := true }
  | .ignored => new

def union (e f : Evidence) : Evidence :=
  ⟨e.created || f.created, e.removed || f.removed, e.modified || f.modified,
    e.attrib || f.attrib, e.moved || f.moved⟩

/-- Whether some proven fact is one the interest asked for. -/
def admits (e : Evidence) (i : Interest) : Bool :=
  (e.created && i.created) || (e.removed && i.removed) || (e.modified && i.modified)
    || (e.attrib && i.attrib) || (e.moved && i.moved)

end Evidence

/-- The two capabilities of a backend profile the Monitor reads. -/
structure Capabilities where
  kernel_recursive : Bool
  lossy_watch_teardown : Bool
deriving DecidableEq, Repr

/-! ### Records and results -/

inductive IoClass where
  | notFound | permission | loop | outOfDescriptors | io
deriving DecidableEq, Repr

namespace IoClass

def is_not_found (c : IoClass) : Bool := c == .notFound

end IoClass

/-- One listed entry of a directory. -/
structure DirEntry where
  name : Segment
  kind : FileKind
  node : Option Identity
  boundary : Bool
deriving DecidableEq

namespace DirEntry

/-- Whether the entry is a directory a crawl may descend into. -/
def descends (e : DirEntry) : Bool := e.kind.is_dir && !e.boundary

end DirEntry

/-- The answer to an enumerate. -/
inductive EnumerateResult where
  | ok (entries : List DirEntry)
  | partial_ (entries : List DirEntry)
  | failed (class_ : IoClass)
deriving DecidableEq

namespace EnumerateResult

def forces_rescan : EnumerateResult → Bool
  | .ok _ => false
  | .partial_ _ | .failed _ => true

def entries : EnumerateResult → List DirEntry
  | .ok es | .partial_ es => es
  | .failed _ => []

end EnumerateResult

structure StatEntry where
  kind : FileKind
  node : Option Identity
deriving DecidableEq

/-- The answer to a stat. -/
inductive StatResult where
  | ok (entry : StatEntry)
  | failed (class_ : IoClass)
deriving DecidableEq

/-- How an accepted arm bound. -/
inductive WatchAck where
  | installed | aliased
deriving DecidableEq, Repr

namespace WatchAck

def is_installed (a : WatchAck) : Bool := a == .installed

end WatchAck

inductive WatchError where
  | noSpace | permission | notFound | gone | io
deriving DecidableEq, Repr

/-- One normalized event a driver feeds. -/
structure OsRecord where
  watch : WatchId
  kind : RecordKind
  evidence : Evidence
  target : Option Location
  is_dir : Option Bool
  cookie : Option MoveCookie
  node : Option Identity
deriving DecidableEq

namespace OsRecord

/-- A record of one kind that names nothing. -/
def new (watch : WatchId) (kind : RecordKind) : OsRecord :=
  ⟨watch, kind, Evidence.of kind, none, none, none, none⟩

/-- The target's one segment, when it has exactly one. -/
def name (rec : OsRecord) : Option Segment :=
  match rec.target with
  | some target => if target.length = 1 then target.getLast? else none
  | none => none

/-- The number of segments of the target. -/
def depth (rec : OsRecord) : Nat :=
  match rec.target with
  | some target => target.length
  | none => 0

end OsRecord

/-- A located slice: a watch and a descent below it. -/
structure SubtreeScope where
  watch : WatchId
  descent : Location
deriving DecidableEq

/-- The slice an overflow or a domination speaks for. -/
inductive Scope where
  | all
  | root (scope : ScopeId)
  | subtree (sub : SubtreeScope)
deriving DecidableEq

/-! ### Actions and changes -/

/-- What a watch action arms. -/
inductive WatchTarget where
  | root (scope : ScopeId)
  | child (parent : WatchId) (name : Segment)
  | rearmRoot (scope : ScopeId)
deriving DecidableEq

structure WatchCommand where
  id : WatchId
  attempt : ArmAttempt
  target : WatchTarget
  mask : Interest
deriving DecidableEq

/-- One unit of work for the driver. -/
inductive Action where
  | watch (cmd : WatchCommand)
  | unwatch (id : WatchId)
  | enumerate (req : ReqId) (dir : WatchId)
  | stat (req : ReqId) (parent : WatchId) (name : Segment)
deriving DecidableEq

namespace Action

def as_watch : Action → Option WatchCommand
  | .watch cmd => some cmd
  | _ => none

end Action

inductive ChangeKind where
  | created | modified | removed
  | moved (source : Location)
  | rescan
deriving DecidableEq

namespace ChangeKind

def is_rescan : ChangeKind → Bool
  | .rescan => true
  | _ => false

/-- The source of a move. -/
def moved_from : ChangeKind → Option Location
  | .moved source => some source
  | _ => none

end ChangeKind

/-- One normalized change, stamped with its scope's generation. -/
structure Change where
  id : ChangeId
  scope : ScopeId
  location : Location
  kind : ChangeKind
  epoch : Epoch
  is_dir : Option Bool
deriving DecidableEq

end Proto
