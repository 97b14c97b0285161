import Tributaries.Os.Rdcw

/-! # Completion buffers as a producer writes them

  A producer writes a chain of records, each squared off to an alignment
  of its layout; decoding the buffer answers the records it wrote.
-/

namespace Rdcw

open Machine Bytes

/-- A layout and the alignment its producer keeps. -/
inductive Layout where
  | basic
  | extended_4
  | extended_8
  deriving DecidableEq, Repr

namespace Layout

def extended : Layout → Bool
  | .basic => false
  | _ => true

def align : Layout → Nat
  | .extended_8 => 8
  | _ => 4

end Layout

/-- A record as a producer holds it; a basic one writes the action and the name only.
    The times and sizes of an extended record are never read. -/
structure Entry where
  action : UInt32
  name : List UInt16
  stat : Vector UInt8 48
  attributes : UInt32
  reparse_tag : UInt32
  file_id : UInt64
  parent_id : UInt64

namespace Entry

variable (l : Layout) (e : Entry)

/-- The fixed prefix, linked to a next record `offset` bytes on. -/
def fixed (offset : Nat) : List UInt8 :=
  if l.extended then
    le 4 offset ++ (le 4 e.action.toNat ++ (e.stat.toList ++ (le 4 e.attributes.toNat ++
      (le 4 e.reparse_tag.toNat ++ (le 8 e.file_id.toNat ++ (le 8 e.parent_id.toNat ++
        le 4 (2 * e.name.length)))))))
  else
    le 4 offset ++ (le 4 e.action.toNat ++ le 4 (2 * e.name.length))

def bytes (offset : Nat) : List UInt8 := e.fixed l offset ++ Utf16.bytes e.name

def size : Nat := header_len l.extended + 2 * e.name.length

/-- The size rounded up to the producer's alignment. -/
def stride : Nat := (e.size l + (l.align - 1)) / l.align * l.align

def padding : List UInt8 := List.replicate (e.stride l - e.size l) 0

/-- The record a reader of the layout should see. -/
def record : RdcwRecord :=
  let action := RdcwAction.from_word e.action
  { action, name := decode_name e.name action.is_stream
    file_id := if l.extended then some e.file_id else none
    parent_id := if l.extended then some e.parent_id else none
    attributes := if l.extended then some e.attributes else none
    reparse_tag := if l.extended then some e.reparse_tag else none }

end Entry

/-- The buffer of a chain; its length counts the last record's padding or not. -/
def encode (l : Layout) (counted : Bool) : List Entry → List UInt8
  | [] => []
  | [e] => e.bytes l 0 ++ if counted then e.padding l else []
  | e :: e' :: es => e.bytes l (e.stride l) ++ (e.padding l ++ encode l counted (e' :: es))

/-! ### Reading one record back -/

variable {l : Layout} {e : Entry} {offset : Nat}

@[simp] theorem length_fixed : (e.fixed l offset).length = header_len l.extended := by
  unfold Entry.fixed header_len
  cases l.extended <;> simp [basic_header, extended_header]

@[simp] theorem length_bytes : (e.bytes l offset).length = e.size l := by
  rw [Entry.bytes, List.length_append, length_fixed, Utf16.length_bytes]
  rfl

/-- A field of the fixed prefix is read back where the record's bytes stand. -/
theorem word_field {bytes : List UInt8} {pos k n v : Nat}
    (h : window bytes pos (e.size l) = e.bytes l offset) (hk : k + n ≤ header_len l.extended)
    (hf : window (e.fixed l offset) k n = le n v) (hv : v < 256 ^ n) :
    word bytes (pos + k) n = v := by
  have hsize : header_len l.extended ≤ e.size l := Nat.le_add_right _ _
  have hb : (e.bytes l offset).length = e.size l := length_bytes
  rw [← hb] at h hsize
  have hf' : window (e.bytes l offset) k n = le n v := by
    rw [Entry.bytes, window_append_left (by simpa using hk), hf]
  rw [word_of_window h (by omega), word_eq hf' hv]

theorem fixed_offset : window (e.fixed l offset) 0 4 = le 4 offset := by
  unfold Entry.fixed
  split <;> exact window_head (by simp)

theorem fixed_action : window (e.fixed l offset) 4 4 = le 4 e.action.toNat := by
  unfold Entry.fixed
  split <;> simp (disch := simp) [window_append_right, window_head]

theorem fixed_name_len :
    window (e.fixed l offset) (header_len l.extended - 4) 4 = le 4 (2 * e.name.length) := by
  unfold Entry.fixed header_len extended_header basic_header
  split <;> simp (disch := simp) [window_append_right, window_self]

section Extended

variable (hl : l.extended = true)

include hl

theorem fixed_attributes : window (e.fixed l offset) 56 4 = le 4 e.attributes.toNat := by
  rw [Entry.fixed, if_pos hl]
  simp (disch := simp) [window_append_right, window_head]

theorem fixed_reparse_tag : window (e.fixed l offset) 60 4 = le 4 e.reparse_tag.toNat := by
  rw [Entry.fixed, if_pos hl]
  simp (disch := simp) [window_append_right, window_head]

theorem fixed_file_id : window (e.fixed l offset) 64 8 = le 8 e.file_id.toNat := by
  rw [Entry.fixed, if_pos hl]
  simp (disch := simp) [window_append_right, window_head]

theorem fixed_parent_id : window (e.fixed l offset) 72 8 = le 8 e.parent_id.toNat := by
  rw [Entry.fixed, if_pos hl]
  simp (disch := simp) [window_append_right, window_head]

end Extended

section Reading

variable {bytes : List UInt8} {pos : Nat}

theorem next_offset_written (h : window bytes pos (e.size l) = e.bytes l offset)
    (ho : offset < 2 ^ 32) : next_offset bytes pos = offset := by
  have hh : 0 + 4 ≤ header_len l.extended := by cases l <;> decide
  exact word_field h hh fixed_offset ho

theorem name_len_written (h : window bytes pos (e.size l) = e.bytes l offset)
    (hs : e.size l < 2 ^ 32) : name_len bytes l.extended pos = 2 * e.name.length := by
  have hh : header_len l.extended - 4 + 4 ≤ header_len l.extended := by cases l <;> decide
  unfold Entry.size at hs
  exact word_field h hh fixed_name_len (by omega)

theorem name_units_written (h : window bytes pos (e.size l) = e.bytes l offset)
    (hs : e.size l < 2 ^ 32) : name_units bytes l.extended pos = e.name := by
  rw [name_units, name_len_written h hs, ← window_window (m := e.size l) (Nat.le_refl _), h,
    Entry.bytes, window_append_right (by simp), length_fixed, Nat.sub_self,
    window_self (by simp), Utf16.of_bytes_bytes]

/-- A written record is read back as the producer holds it. -/
theorem record_at_written (h : window bytes pos (e.size l) = e.bytes l offset)
    (hs : e.size l < 2 ^ 32) : record_at bytes l.extended pos = e.record l := by
  have ha : word bytes (pos + 4) 4 = e.action.toNat := by
    have hh : 4 + 4 ≤ header_len l.extended := by cases l <;> decide
    exact word_field h hh fixed_action e.action.toNat_lt
  unfold record_at Entry.record
  rw [name_units_written h hs, ha, UInt32.ofNat_toNat]
  cases hl : l.extended with
  | false => rfl
  | true =>
    have hh : header_len l.extended = 84 := by rw [hl]; rfl
    have hf : word bytes (pos + 64) 8 = e.file_id.toNat :=
      word_field h (by omega) (fixed_file_id hl) e.file_id.toNat_lt
    have hp : word bytes (pos + 72) 8 = e.parent_id.toNat :=
      word_field h (by omega) (fixed_parent_id hl) e.parent_id.toNat_lt
    have hat : word bytes (pos + 56) 4 = e.attributes.toNat :=
      word_field h (by omega) (fixed_attributes hl) e.attributes.toNat_lt
    have hr : word bytes (pos + 60) 4 = e.reparse_tag.toNat :=
      word_field h (by omega) (fixed_reparse_tag hl) e.reparse_tag.toNat_lt
    rw [hf, hp, hat, hr, UInt64.ofNat_toNat, UInt64.ofNat_toNat, UInt32.ofNat_toNat,
      UInt32.ofNat_toNat]

end Reading

/-! ### Reading the chain back -/

/-- A producer's alignment moves a record's end past its padded end by at most
    four bytes, and by none in the basic layout. -/
theorem stride_bounds (l : Layout) (e : Entry) :
    padded (e.size l) ≤ e.stride l ∧
      e.stride l ≤ padded (e.size l) + (if l.extended then 4 else 0) ∧
      e.stride l % 4 = 0 ∧ e.size l ≤ e.stride l ∧ 12 ≤ e.size l := by
  have hs : 12 ≤ e.size l := by
    unfold Entry.size
    have hh : 12 ≤ header_len l.extended := by cases l <;> decide
    omega
  unfold Entry.stride padded
  cases l <;> simp only [Layout.align, Layout.extended] <;> simp <;> omega

@[simp] theorem length_padding {l : Layout} {e : Entry} :
    (e.padding l).length = e.stride l - e.size l := by
  simp [Entry.padding]

/-- A producer's record, where it stands whole and its name is possible. -/
theorem stands_written {bytes : List UInt8} {pos stop : Nat}
    (h : window bytes pos (e.size l) = e.bytes l offset) (hs : e.size l < 2 ^ 32)
    (hn : 0 ∉ e.name) (hlen : pos + e.size l ≤ bytes.length) (hstop : pos + e.size l ≤ stop) :
    Stands bytes l.extended pos stop := by
  have hname := name_len_written h hs
  unfold Entry.size at hlen hstop
  constructor
  · omega
  · omega
  · omega
  · rw [name_units_written h hs]
    exact hn

theorem extent_written {bytes : List UInt8} {pos : Nat}
    (h : window bytes pos (e.size l) = e.bytes l offset) (hs : e.size l < 2 ^ 32) :
    extent bytes l.extended pos = padded (e.size l) := by
  rw [extent, name_len_written h hs]
  rfl

theorem encode_ne_nil (l : Layout) (counted : Bool) (es : List Entry) (h : es ≠ []) :
    0 < (encode l counted es).length := by
  match es with
  | [] => exact absurd rfl h
  | [e] =>
    have hb := (stride_bounds l e).2.2.2.2
    simp only [encode, List.length_append, length_bytes]
    omega
  | e :: e' :: es =>
    have hb := (stride_bounds l e).2.2.2.2
    simp only [encode, List.length_append, length_bytes]
    omega

/-- A written chain is walked record by record to its end, wherever it begins. -/
theorem encode_chain (counted : Bool) (es : List Entry) (hne : es ≠ [])
    (hn : ∀ e ∈ es, 0 ∉ e.name) (hs : ∀ e ∈ es, e.stride l < 2 ^ 32) (front : List UInt8) :
    Walk.Chain (Stride (front ++ encode l counted es) l.extended) (some front.length)
      (es.map (Entry.record l)) none := by
  induction es generalizing front with
  | nil => exact absurd rfl hne
  | cons e es ih =>
    have hb := stride_bounds l e
    have hse := hs e (List.mem_cons_self ..)
    have hne' := hn e (List.mem_cons_self ..)
    cases es with
    | nil =>
      have hw : window (front ++ encode l counted [e]) front.length (e.size l) = e.bytes l 0 := by
        rw [window_append_right (Nat.le_refl _), Nat.sub_self, encode, window_head (by simp)]
      have hlen : (front ++ encode l counted [e]).length =
          front.length + e.size l + (if counted then e.stride l - e.size l else 0) := by
        cases counted with
        | true =>
          simp [encode]
          omega
        | false => simp [encode]
      have hst : Stands (front ++ encode l counted [e]) l.extended front.length
          (front ++ encode l counted [e]).length :=
        stands_written hw (by omega) hne' (by omega) (by omega)
      rw [List.map_cons, List.map_nil, ← record_at_written hw (by omega)]
      refine .cons (.last ⟨hst, next_offset_written hw (by omega), ?_⟩) (.nil _)
      have hp : (if counted then e.stride l - e.size l else 0) ≤ e.stride l - e.size l := by
        split_ifs <;> omega
      rw [extent_written hw (by omega), hlen]
      omega
    | cons e' es =>
      have hpos := encode_ne_nil l counted (e' :: es) (by simp)
      have hw : window (front ++ encode l counted (e :: e' :: es)) front.length (e.size l) =
          e.bytes l (e.stride l) := by
        rw [window_append_right (Nat.le_refl _), Nat.sub_self, encode, window_head (by simp)]
      have hfront : front ++ encode l counted (e :: e' :: es) =
          (front ++ (e.bytes l (e.stride l) ++ e.padding l)) ++ encode l counted (e' :: es) := by
        simp [encode]
      have hnext : (front ++ (e.bytes l (e.stride l) ++ e.padding l)).length =
          front.length + e.stride l := by
        simp only [List.length_append, length_bytes, length_padding]
        omega
      have hlen : (front ++ encode l counted (e :: e' :: es)).length =
          front.length + e.stride l + (encode l counted (e' :: es)).length := by
        rw [hfront, List.length_append, hnext]
      have hst : Stands (front ++ encode l counted (e :: e' :: es)) l.extended front.length
          (front.length + e.stride l) :=
        stands_written hw (by omega) hne' (by omega) (by omega)
      have hoff := next_offset_written hw hse
      have hext := extent_written hw (by omega)
      have hh : 12 ≤ header_len l.extended := by cases l <;> decide
      have hlink : Linked (front ++ encode l counted (e :: e' :: es)) l.extended front.length
          (front.length + e.stride l) := by
        refine ⟨hst, by omega, by omega, by omega, ?_, ⟨by omega, ?_⟩, by omega⟩
        · intro hx
          rw [hx] at hb
          simp only [Bool.false_eq_true, if_false] at hb
          omega
        · have hle : (if l.extended then 4 else 0) ≤ 4 := by split_ifs <;> omega
          omega
      rw [List.map_cons, ← record_at_written hw (by omega)]
      refine .cons (.linked hlink) ?_
      have htail := ih (by simp) (fun x hx => hn x (List.mem_cons_of_mem _ hx))
        (fun x hx => hs x (List.mem_cons_of_mem _ hx))
        (front ++ (e.bytes l (e.stride l) ++ e.padding l))
      rw [hnext, ← hfront] at htail
      exact htail

/-! ### The decoder -/

/-- What a decoded buffer says of its bytes: its records are those of the longest
    valid chain, and nothing is lost exactly where they tile the whole buffer. -/
structure Exact (bytes : List UInt8) (extended : Bool) (out : DecodedBuffer) : Prop where
  longest : Walk.Longest (Stride bytes extended) (some 0) out.records
  tiled : out.lossy = false ↔ Walk.Chain (Stride bytes extended) (some 0) out.records none

/-- The decoder stops at no fault, on either width.  Its records are the longest
    valid chain of the buffer, they tile the buffer where nothing is lost, and a
    buffer that a producer wrote is read back whole. -/
theorem decode_records_exact (w : Width) (buf : Slice w) (extended : Bool) :
    ∃ out, decode_records buf extended = .ok out ∧ Exact buf.bytes extended out ∧
      (∀ rs stop, Walk.Chain (Stride buf.bytes extended) (some 0) rs stop → rs <+: out.records) ∧
      ∀ (l : Layout) (counted : Bool) (es : List Entry), l.extended = extended → es ≠ [] →
        (∀ e ∈ es, 0 ∉ e.name) → (∀ e ∈ es, e.stride l < 2 ^ 32) →
        buf.bytes = encode l counted es →
        out = { records := es.map (Entry.record l), lossy := false } := by
  obtain ⟨rs, stop, hc, hs, hd⟩ := decode_from_chain buf extended [] 0
  have hf := functional buf.bytes extended
  have htile : stop.isSome = false ↔ Walk.Chain (Stride buf.bytes extended) (some 0) rs none := by
    constructor
    · intro h
      rw [Option.isSome_eq_false_iff, Option.isNone_iff_eq_none] at h
      exact h ▸ hc
    · intro h
      rw [(hc.unique hf hs h (stuck_end _ _)).2]
      rfl
  refine ⟨{ records := rs, lossy := stop.isSome }, hd, ⟨⟨stop, hc, hs⟩, htile⟩, ?_, ?_⟩
  · intro rs' stop' h'
    exact hc.extends hf hs h'
  · intro l counted es hl hne hn hz hb
    subst hl
    have h := encode_chain counted es hne hn hz []
    rw [List.nil_append, ← hb] at h
    obtain ⟨hr, ht⟩ := hc.unique hf hs h (stuck_end _ _)
    rw [hr, ht]
    rfl

end Rdcw
