import Tributaries.Os.Usn

/-! # Journal buffers as the kernel writes them

  A journal buffer is a cursor and a list of records of the two known
  versions, with records of other versions between them.  Decoding it
  answers the records that were written.
-/

namespace Usn

open Machine Bytes

variable {w : Width}

/-- The ids of a record, as wide as its version has them. -/
inductive Ids where
  | v2 (frn parent : UInt64)
  | v3 (frn parent : BitVec 128)

namespace Ids

def major : Ids → Nat
  | .v2 .. => 2
  | .v3 .. => 3

def header : Ids → Nat
  | .v2 .. => v2_header
  | .v3 .. => v3_header

def wide : Ids → Bool
  | .v2 .. => false
  | .v3 .. => true

def bytes : Ids → List UInt8
  | .v2 frn parent => le 8 frn.toNat ++ le 8 parent.toNat
  | .v3 frn parent => le 16 frn.toNat ++ le 16 parent.toNat

def frn : Ids → BitVec 128
  | .v2 frn _ => BitVec.ofNat 128 frn.toNat
  | .v3 frn _ => frn

def parent : Ids → BitVec 128
  | .v2 _ parent => BitVec.ofNat 128 parent.toNat
  | .v3 _ parent => parent

end Ids

/-- A record of a known version.  Some bytes may stand between the fixed prefix
    and the name, and some behind the name; three fields are never read. -/
structure Entry where
  minor : UInt16
  ids : Ids
  usn : Int64
  timestamp : UInt64
  reason : UInt32
  source_info : UInt32
  security_id : UInt32
  attributes : UInt32
  units : List UInt16
  gap : List UInt8
  padding : List UInt8

namespace Entry

variable (e : Entry)

def name_off : Nat := e.ids.header + e.gap.length

def length : Nat := e.name_off + 2 * e.units.length + e.padding.length

/-- The fields behind the ids. -/
def tail : List UInt8 :=
  le 8 e.usn.toUInt64.toNat ++ (le 8 e.timestamp.toNat ++ (le 4 e.reason.toNat ++
    (le 4 e.source_info.toNat ++ (le 4 e.security_id.toNat ++ (le 4 e.attributes.toNat ++
      (le 2 (2 * e.units.length) ++ le 2 e.name_off))))))

def bytes : List UInt8 :=
  le 4 e.length ++ (le 2 e.ids.major ++ (le 2 e.minor.toNat ++ (e.ids.bytes ++ (e.tail ++
    (e.gap ++ (Utf16.bytes e.units ++ e.padding))))))

/-- The lengths and offsets fit their fields, and the stride is aligned. -/
structure Fits : Prop where
  aligned : e.length % 8 = 0
  length : e.length < 2 ^ 32
  off : e.name_off < 2 ^ 16
  name : 2 * e.units.length < 2 ^ 16

/-- The record a reader should see. -/
def record : UsnRecord :=
  { frn := e.ids.frn, parent := e.ids.parent, usn := e.usn, reason := e.reason
    source_info := e.source_info, attributes := e.attributes, name := decode_name e.units }

end Entry

/-- A record of a buffer: of a known version, or of another one. -/
inductive Written where
  | entry (e : Entry)
  | foreign (major : UInt16) (body : List UInt8)

namespace Written

def length : Written → Nat
  | .entry e => e.length
  | .foreign _ body => 6 + body.length

def bytes : Written → List UInt8
  | .entry e => e.bytes
  | .foreign major body => le 4 (6 + body.length) ++ (le 2 major.toNat ++ body)

/-- A stride that the format allows; a foreign record has another version. -/
def Fits : Written → Prop
  | .entry e => e.Fits
  | .foreign major body => layout major.toNat = none ∧ (6 + body.length) % 8 = 0 ∧
      6 + body.length < 2 ^ 32

def record : Written → Option UsnRecord
  | .entry e => some e.record
  | .foreign .. => none

end Written

def encode (cursor : Int64) (ws : List Written) : List UInt8 :=
  le 8 cursor.toUInt64.toNat ++ ws.flatMap Written.bytes

/-! ### Reading one record back -/

@[simp] theorem length_ids (i : Ids) : i.bytes.length + 44 = i.header := by
  cases i <;> simp [Ids.bytes, Ids.header, v2_header, v3_header]

@[simp] theorem length_tail (e : Entry) : e.tail.length = 36 := by
  simp [Entry.tail]

theorem length_bytes (e : Entry) : e.bytes.length = e.length := by
  have hi := length_ids e.ids
  simp only [Entry.bytes, List.length_append, length_le, length_tail, Utf16.length_bytes,
    Entry.length, Entry.name_off]
  omega

section Reading

variable {e : Entry} {bytes : List UInt8} {pos : Nat}

/-- A field behind the ids is read back where the record's bytes stand. -/
theorem tail_field {k n v : Nat} (h : window bytes pos e.bytes.length = e.bytes)
    (hk : k + n ≤ 36) (hf : window e.tail k n = le n v) (hv : v < 256 ^ n) :
    word bytes (tail_of pos e.ids.header + k) n = v := by
  have hi := length_ids e.ids
  have hlen := length_bytes e
  have ht := length_tail e
  have hoff : tail_of pos e.ids.header + k = pos + (8 + e.ids.bytes.length + k) := by
    unfold tail_of
    omega
  unfold Entry.length Entry.name_off at hlen
  rw [hoff, word_of_window h (by omega)]
  apply word_eq _ hv
  rw [Entry.bytes, window_append_right (by simp; omega), window_append_right (by simp; omega),
    window_append_right (by simp; omega), window_append_right (by simp; omega),
    window_append_left (by simp; omega), ← hf]
  congr 1
  simp only [length_le]
  omega

theorem record_length_written (h : window bytes pos e.bytes.length = e.bytes) (hf : e.Fits) :
    record_length bytes pos = e.length := by
  have hi := length_ids e.ids
  have hlen := length_bytes e
  unfold Entry.length Entry.name_off at hlen
  have hw : window e.bytes 0 4 = le 4 e.length := window_head (by simp)
  have hword := word_of_window (k := 0) (n := 4) h (by omega)
  exact hword.trans (word_eq hw hf.length)

theorem major_written (h : window bytes pos e.bytes.length = e.bytes) :
    major bytes pos = e.ids.major := by
  have hi := length_ids e.ids
  have hlen := length_bytes e
  unfold Entry.length Entry.name_off at hlen
  have hw : window e.bytes 4 2 = le 2 e.ids.major := by
    unfold Entry.bytes
    simp (disch := simp) [window_append_right, window_head]
  have hword := word_of_window (k := 4) (n := 2) h (by omega)
  have hv : e.ids.major < 256 ^ 2 := by
    cases e.ids with
    | v2 => show 2 < 256 ^ 2; omega
    | v3 => show 3 < 256 ^ 2; omega
  exact hword.trans (word_eq hw hv)

theorem name_len_written (h : window bytes pos e.bytes.length = e.bytes) (hf : e.Fits) :
    name_len bytes pos e.ids.header = 2 * e.units.length := by
  apply tail_field h (by omega) _ hf.name
  unfold Entry.tail
  simp (disch := simp) [window_append_right, window_head]

theorem name_off_written (h : window bytes pos e.bytes.length = e.bytes) (hf : e.Fits) :
    name_off bytes pos e.ids.header = e.name_off := by
  apply tail_field h (by omega) _ hf.off
  unfold Entry.tail
  simp (disch := simp) [window_append_right, window_self]

theorem layout_written (e : Entry) : layout e.ids.major = some (e.ids.header, e.ids.wide) := by
  cases e.ids <;> rfl

/-- The ids are read back at the width of their version. -/
theorem ids_written (h : window bytes pos e.bytes.length = e.bytes) :
    BitVec.ofNat 128 (word bytes (pos + 8) (if e.ids.wide then 16 else 8)) = e.ids.frn ∧
      BitVec.ofNat 128 (word bytes (pos + if e.ids.wide then 24 else 16)
        (if e.ids.wide then 16 else 8)) = e.ids.parent := by
  have hlen := length_bytes e
  unfold Entry.length Entry.name_off at hlen
  cases hi : e.ids with
  | v2 frn parent =>
    have hh : e.ids.header = 60 := by rw [hi]; rfl
    have hf : window e.bytes 8 8 = le 8 frn.toNat := by
      rw [Entry.bytes, hi, Ids.bytes]
      simp (disch := simp) [window_append_right, window_head]
    have hp : window e.bytes 16 8 = le 8 parent.toNat := by
      rw [Entry.bytes, hi, Ids.bytes]
      simp (disch := simp) [window_append_right, window_head]
    have hwf := (word_of_window (k := 8) (n := 8) h (by omega)).trans (word_eq hf frn.toNat_lt)
    have hwp := (word_of_window (k := 16) (n := 8) h (by omega)).trans
      (word_eq hp parent.toNat_lt)
    simp only [Ids.wide, Bool.false_eq_true, if_false, hwf, hwp, Ids.frn, Ids.parent, and_self]
  | v3 frn parent =>
    have hh : e.ids.header = 76 := by rw [hi]; rfl
    have hf : window e.bytes 8 16 = le 16 frn.toNat := by
      rw [Entry.bytes, hi, Ids.bytes]
      simp (disch := simp) [window_append_right, window_head]
    have hp : window e.bytes 24 16 = le 16 parent.toNat := by
      rw [Entry.bytes, hi, Ids.bytes]
      simp (disch := simp) [window_append_right, window_head]
    have hwf := (word_of_window (k := 8) (n := 16) h (by omega)).trans (word_eq hf frn.isLt)
    have hwp := (word_of_window (k := 24) (n := 16) h (by omega)).trans (word_eq hp parent.isLt)
    simp only [Ids.wide, if_true, hwf, hwp, Ids.frn, Ids.parent, BitVec.ofNat_toNat,
      BitVec.setWidth_eq, and_self]

/-- The name is read back behind its gap. -/
theorem name_written (h : window bytes pos e.bytes.length = e.bytes) (hf : e.Fits) :
    window bytes (pos + name_off bytes pos e.ids.header) (name_len bytes pos e.ids.header) =
      Utf16.bytes e.units := by
  have hi := length_ids e.ids
  have hlen := length_bytes e
  unfold Entry.length at hlen
  have hoff : e.name_off = e.ids.header + e.gap.length := rfl
  rw [name_off_written h hf, name_len_written h hf,
    ← window_window (m := e.bytes.length) (by omega), h, Entry.bytes,
    window_append_right (by simp; omega), window_append_right (by simp; omega),
    window_append_right (by simp; omega), window_append_right (by simp; omega),
    window_append_right (by simp; omega), window_append_right (by simp; omega)]
  have hz : e.name_off - (le 4 e.length).length - (le 2 e.ids.major).length -
      (le 2 e.minor.toNat).length - e.ids.bytes.length - e.tail.length - e.gap.length = 0 := by
    simp only [length_le, length_tail]
    omega
  rw [hz, window_head (by simp)]

/-- A written record is read back with the fields it was written with. -/
theorem record_at_written (h : window bytes pos e.bytes.length = e.bytes) (hf : e.Fits) :
    record_at bytes pos e.ids.header e.ids.wide = e.record := by
  have hu : word bytes (tail_of pos e.ids.header + 0) 8 = e.usn.toUInt64.toNat := by
    apply tail_field h (by omega) _ e.usn.toUInt64.toNat_lt
    exact window_head (by simp)
  have hr : word bytes (tail_of pos e.ids.header + 16) 4 = e.reason.toNat := by
    apply tail_field h (by omega) _ e.reason.toNat_lt
    unfold Entry.tail
    simp (disch := simp) [window_append_right, window_head]
  have hs : word bytes (tail_of pos e.ids.header + 20) 4 = e.source_info.toNat := by
    apply tail_field h (by omega) _ e.source_info.toNat_lt
    unfold Entry.tail
    simp (disch := simp) [window_append_right, window_head]
  have ha : word bytes (tail_of pos e.ids.header + 28) 4 = e.attributes.toNat := by
    apply tail_field h (by omega) _ e.attributes.toNat_lt
    unfold Entry.tail
    simp (disch := simp) [window_append_right, window_head]
  rw [Nat.add_zero] at hu
  rw [record_at, (ids_written h).1, (ids_written h).2, hu, hr, hs, ha, name_written h hf,
    Utf16.of_bytes_bytes]
  simp only [UInt64.ofNat_toNat, UInt32.ofNat_toNat]
  rfl

/-- A written record of a known version is framed where its bytes stand. -/
theorem framed_written (h : window bytes pos e.bytes.length = e.bytes) (hf : e.Fits)
    (hin : pos + e.length ≤ bytes.length) :
    Framed bytes pos e.ids.header e.ids.wide (pos + e.length) := by
  have hi := length_ids e.ids
  have hlen := record_length_written h hf
  have hname := name_len_written h hf
  have hoff := name_off_written h hf
  have hge : e.length = e.ids.header + e.gap.length + 2 * e.units.length + e.padding.length := rfl
  have hno : e.name_off = e.ids.header + e.gap.length := rfl
  have hal := hf.aligned
  refine ⟨⟨by omega, by omega, by omega, by omega, hin⟩, ?_, by omega, by omega, by omega, by omega⟩
  rw [major_written h, layout_written]

end Reading

/-! ### Reading the chain back -/

theorem length_written (x : Written) : x.bytes.length = x.length := by
  cases x with
  | entry e => exact length_bytes e
  | foreign major body =>
    simp only [Written.bytes, Written.length, List.length_append, length_le]
    omega

/-- A written record of either kind is one stride of the walk. -/
theorem stride_written {bytes : List UInt8} {pos : Nat} {x : Written}
    (h : window bytes pos x.bytes.length = x.bytes) (hf : x.Fits)
    (hin : pos + x.length ≤ bytes.length) :
    Stride bytes pos x.record (pos + x.length) := by
  cases x with
  | entry e =>
    have hr := framed_written h hf hin
    show Stride bytes pos (some e.record) (pos + e.length)
    rw [← record_at_written h hf]
    exact .record hr
  | foreign major body =>
    obtain ⟨hu, ha, hl⟩ := hf
    have hlen : (Written.foreign major body).bytes.length = 6 + body.length :=
      length_written (.foreign major body)
    have hw : window (Written.foreign major body).bytes 0 4 = le 4 (6 + body.length) :=
      window_head (by simp)
    have hm : window (Written.foreign major body).bytes 4 2 = le 2 major.toNat := by
      unfold Written.bytes
      simp (disch := simp) [window_append_right, window_head]
    have hrl : record_length bytes pos = 6 + body.length :=
      (word_of_window (k := 0) (n := 4) h (by omega)).trans (word_eq hw hl)
    have hmj : Usn.major bytes pos = major.toNat :=
      (word_of_window (k := 4) (n := 2) h (by omega)).trans (word_eq hm major.toNat_lt)
    have hin' : pos + (6 + body.length) ≤ bytes.length := hin
    refine .skipped ⟨⟨by omega, by omega, by omega, ?_, hin⟩, by rw [hmj, hu]⟩
    rw [hrl]
    rfl

/-- Written records are walked one by one, wherever they begin. -/
theorem encode_chain (ws : List Written) (hf : ∀ x ∈ ws, x.Fits) (front : List UInt8) :
    Walk.Chain (Stride (front ++ ws.flatMap Written.bytes)) front.length (ws.map Written.record)
      (front ++ ws.flatMap Written.bytes).length := by
  induction ws generalizing front with
  | nil =>
    rw [List.flatMap_nil, List.append_nil]
    exact .nil _
  | cons x ws ih =>
    have hlen := length_written x
    have hw : window (front ++ (x :: ws).flatMap Written.bytes) front.length x.bytes.length =
        x.bytes := by
      rw [window_append_right (Nat.le_refl _), Nat.sub_self, List.flatMap_cons, window_head rfl]
    have hs := stride_written hw (hf x (List.mem_cons_self ..)) (by
      simp only [List.length_append, List.flatMap_cons]
      omega)
    have htail := ih (fun y hy => hf y (List.mem_cons_of_mem _ hy)) (front ++ x.bytes)
    rw [List.append_assoc, ← List.flatMap_cons, List.length_append, hlen] at htail
    exact .cons hs htail

/-! ### The decoder -/

/-- What a decoded buffer says of its bytes: its records are those of the longest
    chain of strides, foreign ones skipped, and something is lost exactly where
    there is no cursor, a record was skipped or the chain stops before the end. -/
structure Exact (bytes : List UInt8) (out : DecodedJournal) : Prop where
  cursorless : bytes.length < 8 → out = { next_usn := 0, records := [], lossy := true }
  walked : 8 ≤ bytes.length →
    out.next_usn = (UInt64.ofNat (word bytes 0 8)).toInt64 ∧
    ∃ items stop, Walk.Chain (Stride bytes) 8 items stop ∧ Walk.Stuck (Stride bytes) stop ∧
      (∀ items' stop', Walk.Chain (Stride bytes) 8 items' stop' → items' <+: items) ∧
      out.records = items.reduceOption ∧
      (out.lossy = true ↔ none ∈ items ∨ stop ≠ bytes.length)

theorem lost_iff {bytes : List UInt8} {items : List (Option UsnRecord)} {stop : Nat} :
    lost bytes items stop = true ↔ none ∈ items ∨ stop ≠ bytes.length := by
  simp [lost]

theorem decode_journal_eq (buf : Slice w) (h : 8 ≤ buf.len) : ∃ items stop,
    Walk.Chain (Stride buf.bytes) 8 items stop ∧ Walk.Stuck (Stride buf.bytes) stop ∧
    decode_journal buf = .ok
      { next_usn := (UInt64.ofNat (word buf.bytes 0 8)).toInt64, records := items.reduceOption
        lossy := lost buf.bytes items stop } := by
  obtain ⟨items, stop, hc, hs, hd⟩ := decode_from_chain buf [] false 8 h
  refine ⟨items, stop, hc, hs, ?_⟩
  rw [decode_journal, if_neg (by omega), load_u64_ok (show 0 + 8 ≤ buf.len by omega)]
  simp only [bind, Except.bind, hd]
  simp

/-- The decoder stops at no fault, on either width.  Its records are those of the
    longest chain of strides, and a written buffer is read back: the cursor, every
    record of a known version with its name as its units spell it, and a loss
    exactly where a foreign one stands. -/
theorem decode_journal_exact (w : Width) (buf : Slice w) :
    ∃ out, decode_journal buf = .ok out ∧ Exact buf.bytes out ∧
      ∀ (cursor : Int64) (ws : List Written), (∀ x ∈ ws, x.Fits) →
        buf.bytes = encode cursor ws →
        out = { next_usn := cursor, records := (ws.map Written.record).reduceOption
                lossy := (ws.map Written.record).any Option.isNone } ∧
        ∀ e, Written.entry e ∈ ws → Spelled e.units e.record.name := by
  by_cases h : 8 ≤ buf.bytes.length
  swap
  · refine ⟨_, if_pos (Nat.lt_of_not_le h), ⟨fun _ => rfl, fun h' => absurd h' h⟩, ?_⟩
    intro cursor ws _ hb
    refine absurd ?_ h
    rw [hb, encode, List.length_append, length_le]
    omega
  obtain ⟨items, stop, hc, hs, hd⟩ := decode_journal_eq buf h
  have hfun := functional buf.bytes
  refine ⟨_, hd, ⟨fun h' => absurd h (Nat.not_le_of_lt h'), fun _ => ⟨rfl, items, stop, hc, hs,
    fun items' stop' h' => hc.extends hfun hs h', rfl, lost_iff⟩⟩, ?_⟩
  intro cursor ws hf hb
  have hch := encode_chain ws hf (le 8 cursor.toUInt64.toNat)
  have hcur : window (encode cursor ws) 0 8 = le 8 cursor.toUInt64.toNat := window_head (by simp)
  rw [← encode, ← hb, length_le] at hch
  obtain ⟨hi, ht⟩ := hc.unique hfun hs hch (stuck_end _)
  refine ⟨?_, fun e _ => decode_name_spelled e.units⟩
  rw [hi, ht, hb, word_eq hcur cursor.toUInt64.toNat_lt, UInt64.ofNat_toNat]
  simp [lost]

end Usn
