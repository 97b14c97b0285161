import Mathlib.Data.List.ReduceOption
import Tributaries.Machine
import Tributaries.Walk

/-! # The fanotify event buffer

  `decode_events` strides over events by their own lengths, and reads the
  info records of each.  What it computes with machine numbers is compared
  with the records whose bytes stand in the buffer (`Info`, `Headed`).
-/

namespace Fanotify

open Machine Bytes

/-! ### The vocabulary -/

def fan_rename : UInt64 := 0x10000000

def fan_q_overflow : UInt64 := 0x4000

def metadata_version : UInt8 := 3

structure FanMask where
  bits : UInt64
  deriving DecidableEq, Repr

namespace FanMask

def rename (m : FanMask) : Bool := m.bits &&& fan_rename != 0

def q_overflow (m : FanMask) : Bool := m.bits &&& fan_q_overflow != 0

end FanMask

structure Fid where
  fsid : List UInt8
  handle : List UInt8
  deriving DecidableEq, Repr

structure RenameInfo where
  old_dir : Fid
  old_name : List UInt8
  new_dir : Fid
  new_name : List UInt8
  deriving DecidableEq, Repr

structure RawFanotifyEvent where
  mask : FanMask
  dir_fid : Option Fid
  target_fid : Option Fid
  name : Option (List UInt8)
  rename : Option RenameInfo
  deriving DecidableEq, Repr

structure DecodeOutcome where
  events : List RawFanotifyEvent
  lossy : Bool
  deriving DecidableEq, Repr

/-- A header of another version: a verdict on the descriptor, not on one event. -/
structure AbiMismatch where
  found : UInt8
  deriving DecidableEq, Repr

def metadata_len : Nat := 24

def info_header_len : Nat := 4

def fsid_len : Nat := 8

def file_handle_prefix : Nat := 8

/-- The kinds of info record that name an object. -/
inductive Tag where
  | fid
  | dfid_name
  | dfid
  | old_dfid_name
  | new_dfid_name
  deriving DecidableEq, Repr

namespace Tag

def byte : Tag → UInt8
  | .fid => 1
  | .dfid_name => 2
  | .dfid => 3
  | .old_dfid_name => 10
  | .new_dfid_name => 12

def of_byte (b : UInt8) : Option Tag :=
  match b.toNat with
  | 1 => some .fid
  | 2 => some .dfid_name
  | 3 => some .dfid
  | 10 => some .old_dfid_name
  | 12 => some .new_dfid_name
  | _ => none

def has_name : Tag → Bool
  | .dfid_name | .old_dfid_name | .new_dfid_name => true
  | _ => false

end Tag

/-! ### The decoder -/

structure FidRecord where
  fid : Fid
  name : Option (List UInt8)
  deriving DecidableEq, Repr

/-- The name trimmed at its first NUL; an empty one and the self-name are none. -/
def name_of (after : List UInt8) : Option (List UInt8) :=
  match after.takeWhile (· ≠ 0) with
  | [] => none
  | [0x2E] => none
  | bytes => some bytes

def decode_fid_record (w : Width) (endian : Endian) (payload : List UInt8) (has_name : Bool) :
    Except Fault (Option FidRecord) := do
  match get payload 0 fsid_len, get payload fsid_len payload.length with
  | some fsid, some fh =>
    match get fh 0 file_handle_prefix with
    | none => .ok none
    | some fh_prefix =>
      let handle_bytes := endian.number (← slice fh_prefix 0 4)
      let type_bytes ← slice fh_prefix 4 8
      match checked_add w file_handle_prefix handle_bytes with
      | none => .ok none
      | some handle_end =>
        match get fh file_handle_prefix handle_end with
        | none => .ok none
        | some opaque_bytes =>
          let fid : Fid := { fsid, handle := type_bytes ++ opaque_bytes }
          if has_name then
            match get fh handle_end fh.length with
            | none => .ok none
            | some after => .ok (some { fid, name := name_of after })
          else
            .ok (some { fid, name := none })
  | _, _ => .ok none

/-- What the info records of an event have said so far. -/
structure Gathered where
  dir_fid : Option Fid
  target_fid : Option Fid
  name : Option (List UInt8)
  rename_old : Option (Fid × Option (List UInt8))
  rename_new : Option (Fid × Option (List UInt8))
  deriving DecidableEq, Repr

namespace Gathered

def start : Gathered := ⟨none, none, none, none, none⟩

def note (g : Gathered) (r : FidRecord) : Tag → Gathered
  | .dfid_name => { g with dir_fid := some r.fid, name := r.name }
  | .dfid => { g with dir_fid := some r.fid }
  | .fid => { g with target_fid := some r.fid }
  | .old_dfid_name => { g with rename_old := some (r.fid, r.name) }
  | .new_dfid_name => { g with rename_new := some (r.fid, r.name) }

/-- The event of what was gathered; a rename needs both halves, each with a name. -/
def event (g : Gathered) (mask : FanMask) : Option RawFanotifyEvent :=
  if mask.rename then
    match g.rename_old, g.rename_new with
    | some (old_dir, some old_name), some (new_dir, some new_name) =>
      some
        { mask, dir_fid := g.dir_fid, target_fid := g.target_fid, name := g.name
          rename := some { old_dir, old_name, new_dir, new_name } }
    | _, _ => none
  else
    some
      { mask, dir_fid := g.dir_fid, target_fid := g.target_fid, name := g.name, rename := none }

end Gathered

/-- What is gathered with a record's type and payload; nothing for a payload that
    cannot be read. -/
def noted (w : Width) (endian : Endian) (g : Gathered) (info_type : UInt8) (payload : List UInt8) :
    Except Fault (Option Gathered) :=
  match Tag.of_byte info_type with
  | none => .ok (some g)
  | some tag => do
    let record ← decode_fid_record w endian payload tag.has_name
    .ok (record.map fun r => g.note r tag)

/-- One info record: what is gathered with it, and the records behind it. -/
def read_info (w : Width) (endian : Endian) (g : Gathered) (info : List UInt8) :
    Except Fault (Option (Gathered × List UInt8)) := do
  match get info 0 info_header_len with
  | none => .ok none
  | some header =>
    let info_type ← index header 0
    let record_len := endian.number (← slice header 2 4)
    if record_len < info_header_len ∨ info.length < record_len then
      .ok none
    else
      let payload ← slice info info_header_len record_len
      match ← noted w endian g info_type payload with
      | none => .ok none
      | some g => .ok (some (g, ← slice info record_len info.length))

/-! ### What an info record's bytes say -/

/-- The identity of an object, as the wire carries it. -/
structure Handle where
  fsid : Vector UInt8 8
  kind : Vector UInt8 4
  bytes : List UInt8

namespace Handle

def fid (h : Handle) : Fid := { fsid := h.fsid.toList, handle := h.kind.toList ++ h.bytes }

def wire (endian : Endian) (h : Handle) : List UInt8 :=
  h.fsid.toList ++ (endian.bytes 4 h.bytes.length ++ (h.kind.toList ++ h.bytes))

end Handle

/-- An info record: an object, its name and padding behind it, or a payload of
    another type. -/
inductive Info where
  | object (tag : Tag) (pad : UInt8) (handle : Handle) (after : List UInt8)
  | other (info_type pad : UInt8) (payload : List UInt8)

namespace Info

def info_type : Info → UInt8
  | .object tag .. => tag.byte
  | .other info_type .. => info_type

def pad : Info → UInt8
  | .object _ pad .. => pad
  | .other _ pad _ => pad

def payload (endian : Endian) : Info → List UInt8
  | .object _ _ handle after => handle.wire endian ++ after
  | .other _ _ payload => payload

/-- The record's header: its type, a pad byte and the length of the whole. -/
def head (endian : Endian) (i : Info) : List UInt8 :=
  i.info_type :: i.pad :: endian.bytes 2 (4 + (i.payload endian).length)

def wire (endian : Endian) (i : Info) : List UInt8 := i.head endian ++ i.payload endian

/-- The record's length fits its field, and another type is not a known one. -/
structure Fits (endian : Endian) (i : Info) : Prop where
  length : 4 + (i.payload endian).length < 2 ^ 16
  other : ∀ info_type pad payload, i = .other info_type pad payload → Tag.of_byte info_type = none

end Info

/-- What is gathered with one more info record. -/
def Gathered.add (g : Gathered) : Info → Gathered
  | .object tag _ handle after =>
    g.note { fid := handle.fid, name := if tag.has_name then name_of after else none } tag
  | .other .. => g

variable {w : Width} {endian : Endian}

@[simp] theorem length_handle_wire (h : Handle) : (h.wire endian).length = 16 + h.bytes.length := by
  simp only [Handle.wire, List.length_append, length_bytes, Vector.length_toList]
  omega

@[simp] theorem of_byte_byte (tag : Tag) : Tag.of_byte tag.byte = some tag := by
  cases tag <;> rfl

theorem byte_of_byte {b : UInt8} {tag : Tag} (h : Tag.of_byte b = some tag) : tag.byte = b := by
  unfold Tag.of_byte at h
  apply UInt8.toNat_inj.mp
  split at h <;> first | (cases h; symm; assumption) | cases h

/-- The number of opaque bytes that a payload claims for its handle. -/
def handle_len (endian : Endian) (payload : List UInt8) : Nat :=
  endian.number (window payload 8 4)

/-- A payload is read where it holds the handle it claims. -/
theorem decode_fid_record_eq {payload : List UInt8} {has_name : Bool}
    (hlim : payload.length < w.limit) :
    decode_fid_record w endian payload has_name = .ok
      (if 16 + handle_len endian payload ≤ payload.length then
        some
          { fid :=
              { fsid := window payload 0 8
                handle := window payload 12 4 ++ window payload 16 (handle_len endian payload) }
            name := if has_name then
              name_of (window payload (16 + handle_len endian payload)
                (payload.length - (16 + handle_len endian payload))) else none }
      else none) := by
  have hw := limit_ge w
  unfold decode_fid_record fsid_len file_handle_prefix
  by_cases h8 : 8 ≤ payload.length
  swap
  · rw [get_none (by omega), if_neg (by omega)]
  have hfh : (window payload 8 (payload.length - 8)).length = payload.length - 8 :=
    length_window (by omega)
  rw [get_some (by omega) h8, get_some h8 (Nat.le_refl _)]
  dsimp only
  by_cases h16 : 16 ≤ payload.length
  swap
  · rw [get_none (by omega), if_neg (by omega)]
  have hpre : window (window payload 8 (payload.length - 8)) 0 8 = window payload 8 8 :=
    window_window (by omega)
  have hlen : window (window payload 8 8) 0 4 = window payload 8 4 := window_window (by omega)
  have htype : window (window payload 8 8) 4 4 = window payload 12 4 := window_window (by omega)
  have h8' : (window payload 8 8).length = 8 := length_window (by omega)
  rw [get_some (by omega) (by omega)]
  dsimp only
  rw [Nat.sub_zero, hpre, slice_ok (by omega) (by omega), slice_ok (by omega) (by omega)]
  simp only [bind, Except.bind, Nat.sub_zero, hlen, htype, Nat.reduceSub]
  rw [← handle_len]
  by_cases hn : 16 + handle_len endian payload ≤ payload.length
  · have hopaque : window (window payload 8 (payload.length - 8)) 8 (handle_len endian payload) =
        window payload 16 (handle_len endian payload) := window_window (by omega)
    have hafter : window (window payload 8 (payload.length - 8)) (8 + handle_len endian payload)
        (payload.length - 8 - (8 + handle_len endian payload)) =
        window payload (16 + handle_len endian payload)
          (payload.length - (16 + handle_len endian payload)) := by
      rw [window_window (by omega)]
      congr 1 <;> omega
    rw [checked_add_some (by omega), if_pos hn]
    dsimp only
    rw [get_some (by omega) (by omega), Nat.add_sub_cancel_left, hopaque, hfh,
      get_some (by omega) (by omega), hafter]
    cases has_name <;> rfl
  · rw [if_neg hn]
    by_cases hadd : 8 + handle_len endian payload < w.limit
    · rw [checked_add_some hadd]
      dsimp only
      rw [get_none (by omega)]
    · rw [checked_add, if_neg hadd]

theorem handle_len_wire (endian : Endian) (h : Handle) (after : List UInt8) (hl : h.bytes.length < 2 ^ 32) :
    handle_len endian (h.wire endian ++ after) = h.bytes.length := by
  have hwin : window (h.wire endian ++ after) 8 4 = endian.bytes 4 h.bytes.length := by
    rw [Handle.wire]
    simp (disch := simp) [window_append_right, window_head]
  rw [handle_len, hwin, number_bytes]
  exact Nat.mod_eq_of_lt hl

/-- A handle's bytes are read back, with the name that stands behind them. -/
theorem decode_fid_record_wire (h : Handle) (after : List UInt8) (has_name : Bool)
    (hl : h.bytes.length < 2 ^ 32) (hlim : (h.wire endian ++ after).length < w.limit) :
    decode_fid_record w endian (h.wire endian ++ after) has_name =
      .ok (some { fid := h.fid, name := if has_name then name_of after else none }) := by
  have hn := handle_len_wire endian h after hl
  have hlen : (h.wire endian ++ after).length = 16 + h.bytes.length + after.length := by
    rw [List.length_append, length_handle_wire]
  have hfsid : window (h.wire endian ++ after) 0 8 = h.fsid.toList := by
    rw [Handle.wire, List.append_assoc, window_head (by simp)]
  have hkind : window (h.wire endian ++ after) 12 4 = h.kind.toList := by
    rw [Handle.wire]
    simp (disch := simp) [window_append_right, window_head]
  have hbytes : window (h.wire endian ++ after) 16 h.bytes.length = h.bytes := by
    rw [Handle.wire]
    simp (disch := simp) [window_append_right, window_head]
  have hafter : window (h.wire endian ++ after) (16 + h.bytes.length) after.length = after := by
    rw [window_append_right (by simp), length_handle_wire, Nat.sub_self, window_self rfl]
  have hrest : (h.wire endian ++ after).length - (16 + h.bytes.length) = after.length := by omega
  rw [decode_fid_record_eq hlim, hn, if_pos (by omega), hfsid, hkind, hbytes, hrest, hafter]
  rfl

/-- A payload that is read is a handle's bytes with something behind them. -/
theorem payload_wire {payload : List UInt8} (h : 16 + handle_len endian payload ≤ payload.length) :
    ∃ (handle : Handle) (after : List UInt8), handle.bytes.length < 2 ^ 32 ∧
      payload = handle.wire endian ++ after := by
  have hlen4 : (window payload 8 4).length = 4 := length_window (by omega)
  have hlt : handle_len endian payload < 2 ^ 32 := by
    have hb := number_lt endian (window payload 8 4)
    rw [hlen4] at hb
    exact hb
  have hnum : endian.bytes 4 (handle_len endian payload) = window payload 8 4 := by
    have hb := bytes_number endian (window payload 8 4)
    rw [hlen4] at hb
    exact hb
  refine ⟨{ fsid := ⟨(window payload 0 8).toArray, by simpa using length_window (by omega)⟩
            kind := ⟨(window payload 12 4).toArray, by simpa using length_window (by omega)⟩
            bytes := window payload 16 (handle_len endian payload) },
    window payload (16 + handle_len endian payload)
      (payload.length - (16 + handle_len endian payload)), ?_, ?_⟩
  · rw [length_window h]
    exact hlt
  · have hsum : payload.length = 8 + (4 + (4 + (handle_len endian payload +
        (payload.length - (16 + handle_len endian payload))))) := by omega
    have hself : window payload 0 payload.length = payload := window_self rfl
    rw [hsum, window_add, window_add, window_add, window_add] at hself
    unfold Handle.wire
    dsimp only
    rw [length_window h, hnum]
    simp only [Vector.toList_mk, List.append_assoc]
    exact hself.symm

@[simp] theorem length_head (i : Info) : (i.head endian).length = 4 := by simp [Info.head]

theorem length_info_wire (endian : Endian) (i : Info) :
    (i.wire endian).length = 4 + (i.payload endian).length := by
  rw [Info.wire, List.length_append, length_head]

theorem noted_info (g : Gathered) (i : Info) (hf : i.Fits endian) :
    noted w endian g i.info_type (i.payload endian) = .ok (some (g.add i)) := by
  have hfl := hf.length
  have hw := limit_ge w
  unfold noted
  cases i with
  | object tag pad handle after =>
    have hl : (handle.wire endian ++ after).length = _ := List.length_append
    rw [length_handle_wire] at hl
    simp only [Info.info_type, of_byte_byte, Info.payload] at hfl ⊢
    rw [decode_fid_record_wire handle after _ (by omega) (by omega)]
    rfl
  | other info_type pad payload =>
    simp only [Info.info_type, hf.other info_type pad payload rfl]
    rfl

/-- One record is read off the front of a region. -/
theorem read_info_wire (g : Gathered) (i : Info) (rest : List UInt8) (hf : i.Fits endian) :
    read_info w endian g (i.wire endian ++ rest) = .ok (some (g.add i, rest)) := by
  have hfl := hf.length
  have hlen := length_info_wire endian i
  have hall : (i.wire endian ++ rest).length = (i.wire endian).length + rest.length :=
    List.length_append
  have hhead : window (i.wire endian ++ rest) 0 4 = i.head endian := by
    rw [Info.wire, List.append_assoc, window_head (by simp)]
  have htype : index (i.head endian) 0 = .ok i.info_type := rfl
  have hrec : window (i.head endian) 2 2 = endian.bytes 2 (4 + (i.payload endian).length) := by
    show (endian.bytes 2 (4 + (i.payload endian).length)).take 2 = _
    exact List.take_of_length_le (by simp)
  have hnum : endian.number (endian.bytes 2 (4 + (i.payload endian).length)) =
      4 + (i.payload endian).length := by
    rw [number_bytes]
    exact Nat.mod_eq_of_lt hfl
  have hpay : window (i.wire endian ++ rest) 4 (i.payload endian).length = i.payload endian := by
    rw [Info.wire]
    simp (disch := simp) [window_append_right, window_head]
  have hrest : window (i.wire endian ++ rest) (4 + (i.payload endian).length) rest.length =
      rest := by
    rw [window_append_right (by omega), hlen, Nat.sub_self, window_self rfl]
  have hcut : (i.wire endian ++ rest).length - (4 + (i.payload endian).length) = rest.length := by
    omega
  unfold read_info info_header_len
  rw [get_some (by omega) (by omega), Nat.sub_zero, hhead]
  dsimp only
  rw [htype, slice_ok (by omega) (by simp), hrec]
  simp only [bind, Except.bind, hnum]
  rw [if_neg (by omega), slice_ok (by omega) (by omega), Nat.add_sub_cancel_left, hpay]
  dsimp only
  rw [noted_info g i hf]
  dsimp only
  rw [slice_ok (by omega) (Nat.le_refl _), hcut, hrest]

/-- A region is read where a record stands at its front, and refused elsewhere. -/
theorem read_info_spec (endian : Endian) (g : Gathered) {info : List UInt8} (hlim : info.length < w.limit) :
    (∃ (i : Info) (rest : List UInt8), i.Fits endian ∧ info = i.wire endian ++ rest) ∨
      read_info w endian g info = .ok none := by
  by_cases h4 : 4 ≤ info.length
  swap
  · right
    unfold read_info info_header_len
    rw [get_none (by omega)]
  have hhead : (window info 0 4).length = 4 := length_window (by omega)
  have hrec : window (window info 0 4) 2 2 = window info 2 2 := window_window (by omega)
  have htype : index (window info 0 4) 0 = .ok info[0] := by
    rw [index_ok (by omega)]
    simp [window]
  by_cases hn : endian.number (window info 2 2) < 4 ∨ info.length < endian.number (window info 2 2)
  · right
    unfold read_info info_header_len
    rw [get_some (by omega) h4, Nat.sub_zero]
    dsimp only
    rw [htype, slice_ok (by omega) (by omega), hrec]
    simp only [bind, Except.bind]
    rw [if_pos hn]
  have hlen2 : (window info 2 2).length = 2 := length_window (by omega)
  have hlt : endian.number (window info 2 2) < 2 ^ 16 := by
    have hb := number_lt endian (window info 2 2)
    rw [hlen2] at hb
    exact hb
  have hpl : (window info 4 (endian.number (window info 2 2) - 4)).length =
      endian.number (window info 2 2) - 4 := length_window (by omega)
  -- the record whose parts are the region's own bytes stands at its front
  have hwire : ∀ i : Info, i.info_type = info[0] → i.pad = info[1] →
      i.payload endian = window info 4 (endian.number (window info 2 2) - 4) →
      i.Fits endian → ∃ (i : Info) (rest : List UInt8), i.Fits endian ∧
        info = i.wire endian ++ rest := by
    intro i ht hp hpay hf
    refine ⟨i, window info (endian.number (window info 2 2))
      (info.length - endian.number (window info 2 2)), hf, ?_⟩
    have hnum := bytes_number endian (window info 2 2)
    have hself : window info 0 info.length = info := window_self rfl
    have hsum : info.length = 1 + (1 + (2 + ((endian.number (window info 2 2) - 4) +
        (info.length - endian.number (window info 2 2))))) := by omega
    have hstop : 4 + (endian.number (window info 2 2) - 4) = endian.number (window info 2 2) := by
      omega
    rw [hsum, window_add, window_add, window_add, window_add] at hself
    rw [hlen2] at hnum
    rw [Info.wire, Info.head, ht, hp, hpay, hpl, hstop, hnum]
    have hpos : 0 + 1 + 1 + 2 + (endian.number (window info 2 2) - 4) =
        endian.number (window info 2 2) := by omega
    refine hself.symm.trans ?_
    rw [hpos, window_cons (show 0 < info.length by omega),
      window_cons (show 0 + 1 < info.length by omega)]
    simp [window]
  cases htag : Tag.of_byte info[0] with
  | none =>
    left
    apply hwire (.other info[0] info[1] (window info 4 (endian.number (window info 2 2) - 4)))
      rfl rfl rfl
    refine ⟨?_, ?_⟩
    · show 4 + (window info 4 _).length < 2 ^ 16
      omega
    · intro t p q h
      cases h
      exact htag
  | some tag =>
    by_cases hfid : 16 + handle_len endian (window info 4 (endian.number (window info 2 2) - 4)) ≤
        (window info 4 (endian.number (window info 2 2) - 4)).length
    · left
      obtain ⟨handle, after, -, hpay⟩ := payload_wire hfid
      apply hwire (.object tag info[1] handle after) (byte_of_byte htag) rfl hpay.symm
      refine ⟨?_, ?_⟩
      · show 4 + (handle.wire endian ++ after).length < 2 ^ 16
        rw [← hpay]
        omega
      · intro t p q h
        cases h
    · right
      have hnone : noted w endian g info[0]
          (window info 4 (endian.number (window info 2 2) - 4)) = .ok none := by
        rw [noted, htag]
        dsimp only
        rw [decode_fid_record_eq (by omega), if_neg hfid]
        rfl
      unfold read_info info_header_len
      rw [get_some (by omega) h4, Nat.sub_zero]
      dsimp only
      rw [htype, slice_ok (by omega) (by omega), hrec]
      simp only [bind, Except.bind]
      rw [if_neg hn, slice_ok (by omega) (by omega)]
      dsimp only
      rw [hnone]

/-! ### The records of one event -/

/-- A record that is read leaves less of the region behind it. -/
theorem read_info_rest {g g' : Gathered} {info rest : List UInt8}
    (h : read_info w endian g info = .ok (some (g', rest))) : rest.length < info.length := by
  unfold read_info info_header_len at h
  split at h
  · cases h
  obtain ⟨_, -, h⟩ := bind_ok h
  obtain ⟨_, -, h⟩ := bind_ok h
  dsimp only at h
  split_ifs at h with hn
  · cases h
  obtain ⟨_, -, h⟩ := bind_ok h
  obtain ⟨_, -, h⟩ := bind_ok h
  split at h
  · cases h
  obtain ⟨_, hs, h⟩ := bind_ok h
  cases h
  have hl := slice_length hs
  omega

/-- The loop of `decode_info`, behind what it has gathered. -/
def gather_from (w : Width) (endian : Endian) (g : Gathered) (info : List UInt8) :
    Except Fault (Option Gathered) :=
  if info.isEmpty then
    .ok (some g)
  else
    match _h : read_info w endian g info with
    | .error e => .error e
    | .ok none => .ok none
    | .ok (some (g', rest)) => gather_from w endian g' rest
termination_by info.length
decreasing_by exact read_info_rest _h

def decode_info (w : Width) (endian : Endian) (mask : FanMask) (info : List UInt8) :
    Except Fault (Option RawFanotifyEvent) := do
  match ← gather_from w endian .start info with
  | none => .ok none
  | some g => .ok (g.event mask)

/-- One record of the loop, without the proof that it ends. -/
theorem gather_from_eq (g : Gathered) {info : List UInt8} (hne : info ≠ []) :
    gather_from w endian g info =
      match read_info w endian g info with
      | .error e => .error e
      | .ok none => .ok none
      | .ok (some (g', rest)) => gather_from w endian g' rest := by
  rw [gather_from, if_neg (by simpa using hne)]
  split <;> rename_i h <;> rw [h]

theorem gather_from_nil (g : Gathered) : gather_from w endian g [] = .ok (some g) := by
  rw [gather_from]
  rfl

/-- The bytes of a list of info records. -/
def region (endian : Endian) (infos : List Info) : List UInt8 := infos.flatMap (Info.wire endian)

/-- What a whole list of records says. -/
def gather (infos : List Info) : Gathered := infos.foldl Gathered.add .start

theorem gather_from_region (g : Gathered) (infos : List Info) (hf : ∀ i ∈ infos, i.Fits endian) :
    gather_from w endian g (region endian infos) = .ok (some (infos.foldl Gathered.add g)) := by
  induction infos generalizing g with
  | nil => exact gather_from_nil g
  | cons i infos ih =>
    have hne : region endian (i :: infos) ≠ [] := by
      intro h
      have hl := congrArg List.length h
      rw [region, List.flatMap_cons, List.length_append, length_info_wire, List.length_nil] at hl
      omega
    have hread : read_info w endian g (region endian (i :: infos)) =
        .ok (some (g.add i, region endian infos)) :=
      read_info_wire g i (region endian infos) (hf i (List.mem_cons_self ..))
    rw [gather_from_eq g hne, hread]
    exact ih (g.add i) (fun x hx => hf x (List.mem_cons_of_mem _ hx))

/-- The loop gathers a region that is a list of records, and refuses any other. -/
theorem gather_from_spec (endian : Endian) (g : Gathered) (info : List UInt8) (hlim : info.length < w.limit) :
    (∃ infos, (∀ i ∈ infos, Info.Fits endian i) ∧ info = region endian infos) ∨
      gather_from w endian g info = .ok none := by
  induction hn : info.length using Nat.strong_induction_on generalizing g info with
  | _ n ih =>
    by_cases hne : info = []
    · left
      exact ⟨[], by simp, hne⟩
    rcases read_info_spec endian g hlim with ⟨i, rest, hf, rfl⟩ | hnone
    · have hlen := length_info_wire endian i
      have hall : (i.wire endian ++ rest).length = (i.wire endian).length + rest.length :=
        List.length_append
      rcases ih rest.length (by omega) (g.add i) rest (by omega) rfl with ⟨infos, hfs, hr⟩ | hr
      · left
        refine ⟨i :: infos, ?_, ?_⟩
        · intro x hx
          rcases List.mem_cons.mp hx with rfl | hx
          · exact hf
          · exact hfs x hx
        · rw [hr, region, region, List.flatMap_cons]
      · right
        rw [gather_from_eq g hne, read_info_wire g i rest hf]
        exact hr
    · right
      rw [gather_from_eq g hne, hnone]

theorem decode_info_region (mask : FanMask) (infos : List Info)
    (hf : ∀ i ∈ infos, Info.Fits endian i) :
    decode_info w endian mask (region endian infos) = .ok ((gather infos).event mask) := by
  rw [decode_info, gather_from_region _ _ hf]
  rfl

theorem decode_info_spec (endian : Endian) (mask : FanMask) (info : List UInt8) (hlim : info.length < w.limit) :
    (∃ infos, (∀ i ∈ infos, Info.Fits endian i) ∧ info = region endian infos) ∨
      decode_info w endian mask info = .ok none := by
  rcases gather_from_spec endian .start info hlim with h | h
  · exact .inl h
  · right
    rw [decode_info, h]
    rfl

end Fanotify
