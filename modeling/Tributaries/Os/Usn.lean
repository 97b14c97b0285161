import Mathlib.Data.List.ReduceOption
import Tributaries.Machine
import Tributaries.Utf16
import Tributaries.Walk

/-! # The change-journal buffer

  `decode_journal` reads a cursor and then strides over records by their
  own lengths.  What it computes with machine numbers is compared with the
  records that stand in the buffer by plain arithmetic (`Framed`, `Foreign`).
-/

namespace Usn

open Machine Bytes

/-! ### The vocabulary -/

inductive UsnName where
  | utf8 (name : List Char)
  | escalate
  deriving DecidableEq, Repr

structure UsnRecord where
  frn : BitVec 128
  parent : BitVec 128
  usn : Int64
  reason : UInt32
  source_info : UInt32
  attributes : UInt32
  name : UsnName
  deriving DecidableEq

structure DecodedJournal where
  next_usn : Int64
  records : List UsnRecord
  lossy : Bool
  deriving DecidableEq

def decode_name (units : List UInt16) : UsnName :=
  match Utf16.decode units with
  | some name => .utf8 name
  | none => .escalate

/-- A name in UTF-8 is the text its units encode, and one that escalates has
    units which are the encoding of no text. -/
def Spelled (units : List UInt16) : UsnName → Prop
  | .utf8 name => units = Utf16.encode name
  | .escalate => ∀ name, units ≠ Utf16.encode name

theorem decode_name_spelled (units : List UInt16) : Spelled units (decode_name units) := by
  unfold decode_name
  cases h : Utf16.decode units with
  | none => exact Utf16.decode_none_iff.mp h
  | some name => exact Utf16.decode_iff.mp h

/-! ### The decoder -/

def v2_header : Nat := 60

def v3_header : Nat := 76

/-- The fixed prefix of a version, and whether its ids are 128 bits wide. -/
def layout (major : Nat) : Option (Nat × Bool) :=
  match major with
  | 2 => some (v2_header, false)
  | 3 => some (v3_header, true)
  | _ => none

variable {w : Width}

/-- The two ids, and where the fields behind them begin. -/
def load_ids (buf : Slice w) (wide_ids : Bool) (pos : Nat) :
    Except Fault (BitVec 128 × BitVec 128 × Nat) := do
  if wide_ids then
    let frn ← load_u128 buf (← add w pos 8)
    let parent ← load_u128 buf (← add w pos 24)
    .ok (frn, parent, ← add w pos 40)
  else
    let frn ← load_u64 buf (← add w pos 8)
    let parent ← load_u64 buf (← add w pos 16)
    .ok (BitVec.ofNat 128 frn.toNat, BitVec.ofNat 128 parent.toNat, ← add w pos 24)

/-- What the loop meets at one position. -/
inductive Visit where
  | refused
  | skipped (next : Nat)
  | record (r : UsnRecord) (next : Nat)
  deriving DecidableEq

/-- The fields of a record of a known version, behind a stride that holds it. -/
def read_record (buf : Slice w) (pos record_end header : Nat) (wide_ids : Bool) :
    Except Fault Visit := do
  let (frn, parent, tail) ← load_ids buf wide_ids pos
  let usn := (← load_u64 buf tail).toInt64
  let reason ← load_u32 buf (← add w tail 16)
  let source_info ← load_u32 buf (← add w tail 20)
  let attributes ← load_u32 buf (← add w tail 28)
  let name_len := (← load_u16 buf (← add w tail 32)).toNat
  let name_off := (← load_u16 buf (← add w tail 34)).toNat
  let name_fits := name_len % 2 == 0 && decide (header ≤ name_off) &&
    ((checked_add w pos name_off).bind fun start => checked_add w start name_len).any
      (· ≤ record_end)
  if !name_fits then
    .ok .refused
  else
    let name_at ← add w pos name_off
    let units := Utf16.of_bytes (← slice buf.bytes name_at (← add w name_at name_len))
    .ok (.record
      { frn, parent, usn, reason, source_info, attributes, name := decode_name units } record_end)

/-- One turn of the loop of `decode_journal`. -/
def visit (buf : Slice w) (pos : Nat) : Except Fault Visit := do
  if buf.len < (← add w pos 8) then
    .ok .refused
  else
    let record_length := (← load_u32 buf pos).toNat
    let major := (← load_u16 buf (← add w pos 4)).toNat
    match checked_add w pos record_length with
    | none => .ok .refused
    | some record_end =>
      if record_length = 0 ∨ record_length % 8 ≠ 0 ∨ buf.len < record_end then
        .ok .refused
      else
        match layout major with
        | none => .ok (.skipped record_end)
        | some (header, wide_ids) =>
          if record_length < header then .ok .refused
          else read_record buf pos record_end header wide_ids

/-! ### What stands in the buffer -/

section Standing

variable (bytes : List UInt8) (pos : Nat)

def record_length : Nat := word bytes pos 4

def major : Nat := word bytes (pos + 4) 2

/-- A stride that can be taken: eight-aligned, not empty, inside the buffer. -/
structure Strided (next : Nat) : Prop where
  probe : pos + 8 ≤ bytes.length
  some_length : record_length bytes pos ≠ 0
  aligned : record_length bytes pos % 8 = 0
  next_eq : next = pos + record_length bytes pos
  inside : next ≤ bytes.length

/-- Where the fields behind the ids begin. -/
def tail_of (header : Nat) : Nat := pos + (header - 36)

def name_len (header : Nat) : Nat := word bytes (tail_of pos header + 32) 2

def name_off (header : Nat) : Nat := word bytes (tail_of pos header + 34) 2

/-- The record that the bytes at a position spell, in a layout. -/
def record_at (header : Nat) (wide_ids : Bool) : UsnRecord :=
  { frn := BitVec.ofNat 128 (word bytes (pos + 8) (if wide_ids then 16 else 8))
    parent := BitVec.ofNat 128
      (word bytes (pos + if wide_ids then 24 else 16) (if wide_ids then 16 else 8))
    usn := (UInt64.ofNat (word bytes (tail_of pos header) 8)).toInt64
    reason := UInt32.ofNat (word bytes (tail_of pos header + 16) 4)
    source_info := UInt32.ofNat (word bytes (tail_of pos header + 20) 4)
    attributes := UInt32.ofNat (word bytes (tail_of pos header + 28) 4)
    name := decode_name (Utf16.of_bytes
      (window bytes (pos + name_off bytes pos header) (name_len bytes pos header))) }

/-- A record of a known layout whose name lies behind its prefix and inside it. -/
structure Framed (header : Nat) (wide_ids : Bool) (next : Nat) : Prop
    extends Strided bytes pos next where
  known : layout (major bytes pos) = some (header, wide_ids)
  long : header ≤ record_length bytes pos
  even : name_len bytes pos header % 2 = 0
  behind : header ≤ name_off bytes pos header
  name : name_off bytes pos header + name_len bytes pos header ≤ record_length bytes pos

/-- A record of another version, of which only the stride is known. -/
structure Foreign (next : Nat) : Prop extends Strided bytes pos next where
  unknown : layout (major bytes pos) = none

end Standing

/-- One stride, with the record it passes or none for a foreign one. -/
inductive Stride (bytes : List UInt8) : Nat → Option UsnRecord → Nat → Prop where
  | record {pos header next : Nat} {wide_ids : Bool} (h : Framed bytes pos header wide_ids next) :
      Stride bytes pos (some (record_at bytes pos header wide_ids)) next
  | skipped {pos next : Nat} (h : Foreign bytes pos next) : Stride bytes pos none next

theorem Stride.strided {bytes : List UInt8} {pos next : Nat} {r : Option UsnRecord}
    (h : Stride bytes pos r next) : Strided bytes pos next := by
  cases h with
  | record h => exact h.toStrided
  | skipped h => exact h.toStrided

theorem functional (bytes : List UInt8) : Walk.Functional (Stride bytes) := by
  intro p r r' q q' h h'
  have hq : q = q' := by rw [h.strided.next_eq, h'.strided.next_eq]
  refine ⟨?_, hq⟩
  cases h with
  | record h =>
    cases h' with
    | record h' =>
      have hk := h.known
      rw [h'.known] at hk
      cases hk
      rfl
    | skipped h' =>
      have hk := h.known
      rw [h'.unknown] at hk
      cases hk
  | skipped h =>
    cases h' with
    | record h' =>
      have hk := h.unknown
      rw [h'.known] at hk
      cases hk
    | skipped _ => rfl

/-- Nothing stands at the buffer's end. -/
theorem stuck_end (bytes : List UInt8) : Walk.Stuck (Stride bytes) bytes.length := by
  intro r q h
  have hp := h.strided.probe
  omega

/-! ### One turn of the loop -/

/-- The layouts are the two that the decoder knows. -/
theorem layout_cases {m header : Nat} {wide_ids : Bool} (h : layout m = some (header, wide_ids)) :
    (header = 60 ∧ wide_ids = false) ∨ (header = 76 ∧ wide_ids = true) := by
  unfold layout at h
  split at h
  · cases h
    exact .inl ⟨rfl, rfl⟩
  · cases h
    exact .inr ⟨rfl, rfl⟩
  · cases h

theorem load_ids_ok {buf : Slice w} {pos header : Nat} {wide_ids : Bool}
    (hl : (header = 60 ∧ wide_ids = false) ∨ (header = 76 ∧ wide_ids = true))
    (h : pos + header ≤ buf.len) :
    load_ids buf wide_ids pos = .ok
      (BitVec.ofNat 128 (word buf.bytes (pos + 8) (if wide_ids then 16 else 8)),
        BitVec.ofNat 128
          (word buf.bytes (pos + if wide_ids then 24 else 16) (if wide_ids then 16 else 8)),
        tail_of pos header) := by
  have hw := buf.len_lt
  rcases hl with ⟨rfl, rfl⟩ | ⟨rfl, rfl⟩
  · simp only [load_ids, Bool.false_eq_true, if_false, bind, Except.bind,
      add_ok (show pos + 8 < w.limit by omega), add_ok (show pos + 16 < w.limit by omega),
      add_ok (show pos + 24 < w.limit by omega), load_u64_ok (show pos + 8 + 8 ≤ buf.len by omega),
      load_u64_ok (show pos + 16 + 8 ≤ buf.len by omega), toNat_word64]
    rfl
  · simp only [load_ids, if_true, bind, Except.bind,
      add_ok (show pos + 8 < w.limit by omega), add_ok (show pos + 24 < w.limit by omega),
      add_ok (show pos + 40 < w.limit by omega),
      load_u128_ok (show pos + 8 + 16 ≤ buf.len by omega),
      load_u128_ok (show pos + 24 + 16 ≤ buf.len by omega)]
    rfl

/-- A name's window lies inside its record. -/
theorem name_fits_iff {buf : Slice w} {pos header len off stop : Nat} (hstop : stop ≤ buf.len) :
    (len % 2 == 0 && decide (header ≤ off) &&
      ((checked_add w pos off).bind fun start => checked_add w start len).any (· ≤ stop)) = true ↔
      len % 2 = 0 ∧ header ≤ off ∧ pos + off + len ≤ stop := by
  have hw := buf.len_lt
  rw [Bool.and_eq_true, Bool.and_eq_true, beq_iff_eq, decide_eq_true_eq, and_assoc]
  by_cases hlim : pos + off + len < w.limit
  · rw [checked_add_some (show pos + off < w.limit by omega), Option.bind_some,
      checked_add_some hlim, Option.any_some, decide_eq_true_eq]
  · constructor
    · intro h
      obtain ⟨n, hn, -⟩ := Option.any_eq_true _ _ |>.mp h.2.2
      obtain ⟨start, hs, hn⟩ := Option.bind_eq_some_iff.mp hn
      rw [checked_add] at hs hn
      split_ifs at hs hn
      cases hs
      exact absurd ‹_› hlim
    · intro h
      omega

/-- Behind a stride that holds the prefix, a record is read where its name fits. -/
theorem read_record_eq {buf : Slice w} {pos header stop : Nat} {wide_ids : Bool}
    (hl : (header = 60 ∧ wide_ids = false) ∨ (header = 76 ∧ wide_ids = true))
    (h : pos + header ≤ stop) (hstop : stop ≤ buf.len) :
    read_record buf pos stop header wide_ids =
      if name_len buf.bytes pos header % 2 = 0 ∧ header ≤ name_off buf.bytes pos header ∧
          pos + name_off buf.bytes pos header + name_len buf.bytes pos header ≤ stop then
        .ok (.record (record_at buf.bytes pos header wide_ids) stop)
      else .ok .refused := by
  have hw := buf.len_lt
  have ht : tail_of pos header + 36 = pos + header := by
    unfold tail_of
    omega
  unfold read_record
  simp only [load_ids_ok hl (h.trans hstop), bind, Except.bind,
    load_u64_ok (show tail_of pos header + 8 ≤ buf.len by omega),
    add_ok (show tail_of pos header + 16 < w.limit by omega),
    add_ok (show tail_of pos header + 20 < w.limit by omega),
    add_ok (show tail_of pos header + 28 < w.limit by omega),
    add_ok (show tail_of pos header + 32 < w.limit by omega),
    add_ok (show tail_of pos header + 34 < w.limit by omega),
    load_u32_ok (show tail_of pos header + 16 + 4 ≤ buf.len by omega),
    load_u32_ok (show tail_of pos header + 20 + 4 ≤ buf.len by omega),
    load_u32_ok (show tail_of pos header + 28 + 4 ≤ buf.len by omega),
    load_u16_ok (show tail_of pos header + 32 + 2 ≤ buf.len by omega),
    load_u16_ok (show tail_of pos header + 34 + 2 ≤ buf.len by omega), toNat_word16]
  rw [← name_len, ← name_off]
  by_cases hf : name_len buf.bytes pos header % 2 = 0 ∧ header ≤ name_off buf.bytes pos header ∧
      pos + name_off buf.bytes pos header + name_len buf.bytes pos header ≤ stop
  · have hlen : pos + name_off buf.bytes pos header + name_len buf.bytes pos header -
        (pos + name_off buf.bytes pos header) = name_len buf.bytes pos header := by omega
    rw [(name_fits_iff hstop).mpr hf, if_pos hf, Bool.not_true, if_neg Bool.false_ne_true,
      add_ok (by omega)]
    dsimp only
    rw [add_ok (by omega)]
    dsimp only
    rw [slice_ok (Nat.le_add_right _ _) (hf.2.2.trans hstop), hlen]
    rfl
  · rw [Bool.eq_false_iff.mpr (fun hb => hf ((name_fits_iff hstop).mp hb)), if_neg hf,
      Bool.not_false, if_pos rfl]

/-- What a turn of the loop answers, said of what stands at its position. -/
def Meets (bytes : List UInt8) (pos : Nat) : Visit → Prop
  | .refused => Walk.Stuck (Stride bytes) pos
  | .skipped next => Stride bytes pos none next
  | .record r next => Stride bytes pos (some r) next

theorem stuck_of {bytes : List UInt8} {pos : Nat} (h : ∀ next, ¬ Strided bytes pos next) :
    Walk.Stuck (Stride bytes) pos := by
  intro r q hs
  exact h q hs.strided

theorem visit_meets (buf : Slice w) (pos : Nat) (hpos : pos < buf.len) :
    ∃ v, visit buf pos = .ok v ∧ Meets buf.bytes pos v := by
  have hw := buf.len_lt
  have hlim := limit_ge w
  have hlen : buf.len = buf.bytes.length := rfl
  unfold visit
  rw [add_ok (by omega)]
  simp only [bind, Except.bind]
  by_cases hp : pos + 8 ≤ buf.len
  swap
  · exact ⟨.refused, if_pos (by omega), stuck_of (fun _ h => hp h.probe)⟩
  simp only [if_neg (show ¬ buf.len < pos + 8 by omega),
    load_u32_ok (show pos + 4 ≤ buf.len by omega), add_ok (show pos + 4 < w.limit by omega),
    load_u16_ok (show pos + 4 + 2 ≤ buf.len by omega), toNat_word16, toNat_word32]
  rw [← record_length, ← major]
  by_cases hs : Strided buf.bytes pos (pos + record_length buf.bytes pos)
  swap
  · -- a stride that cannot be taken hides whatever follows it
    refine ⟨.refused, ?_, stuck_of (fun _ h => hs (h.next_eq ▸ h))⟩
    by_cases hadd : pos + record_length buf.bytes pos < w.limit
    · rw [checked_add_some hadd]
      dsimp only
      rw [if_pos]
      by_contra hc
      exact hs ⟨hp, by omega, by omega, rfl, by omega⟩
    · rw [checked_add, if_neg hadd]
  have hin := hs.inside
  have hz := hs.some_length
  have ha := hs.aligned
  rw [checked_add_some (by omega)]
  dsimp only
  rw [if_neg (by omega)]
  cases hk : layout (major buf.bytes pos) with
  | none => exact ⟨.skipped _, rfl, .skipped ⟨hs, hk⟩⟩
  | some known =>
    obtain ⟨header, wide_ids⟩ := known
    have hl := layout_cases hk
    have huniq : ∀ {r : Option UsnRecord} {q : Nat}, Stride buf.bytes pos r q →
        Framed buf.bytes pos header wide_ids q := by
      intro r q h
      cases h with
      | record h =>
        have hk' := h.known
        rw [hk] at hk'
        cases hk'
        exact h
      | skipped h =>
        have hk' := h.unknown
        rw [hk] at hk'
        cases hk'
    dsimp only
    by_cases hlong : record_length buf.bytes pos < header
    · refine ⟨.refused, if_pos hlong, ?_⟩
      intro r q h
      have hf := (huniq h).long
      omega
    rw [if_neg hlong, read_record_eq hl (by omega) (by omega)]
    by_cases hf : name_len buf.bytes pos header % 2 = 0 ∧
        header ≤ name_off buf.bytes pos header ∧
        pos + name_off buf.bytes pos header + name_len buf.bytes pos header ≤
          pos + record_length buf.bytes pos
    · exact ⟨.record _ _, if_pos hf,
        .record ⟨hs, hk, by omega, hf.1, hf.2.1, by omega⟩⟩
    · refine ⟨.refused, if_neg hf, ?_⟩
      intro r q h
      have hfr := huniq h
      have hname := hfr.name
      exact hf ⟨hfr.even, hfr.behind, by omega⟩

/-! ### The loop -/

theorem Strided.pos_lt {bytes : List UInt8} {pos next : Nat} (h : Strided bytes pos next) :
    pos < next ∧ next ≤ bytes.length := by
  have hz := h.some_length
  have hn := h.next_eq
  exact ⟨by omega, h.inside⟩

/-- A stride leads on, and stays inside the buffer. -/
theorem visit_next {buf : Slice w} {pos next : Nat} {v : Visit} (hpos : pos < buf.len)
    (h : visit buf pos = .ok v) (hv : v = .skipped next ∨ ∃ r, v = .record r next) :
    pos < next ∧ next ≤ buf.len := by
  obtain ⟨v', hv', hm⟩ := visit_meets buf pos hpos
  rw [h] at hv'
  cases hv'
  rcases hv with rfl | ⟨r, rfl⟩
  · exact (Stride.strided hm).pos_lt
  · exact (Stride.strided hm).pos_lt

/-- The loop of `decode_journal`, behind the records it has pushed. -/
def decode_from (buf : Slice w) (records : List UsnRecord) (lossy : Bool) (pos : Nat) :
    Except Fault (List UsnRecord × Bool) :=
  if _hpos : pos < buf.len then
    match _h : visit buf pos with
    | .error e => .error e
    | .ok .refused => .ok (records, true)
    | .ok (.skipped next) => decode_from buf records true next
    | .ok (.record r next) => decode_from buf (records ++ [r]) lossy next
  else
    .ok (records, lossy)
termination_by buf.len - pos
decreasing_by
  · have hlt := visit_next _hpos _h (.inl rfl)
    omega
  · have hlt := visit_next _hpos _h (.inr ⟨r, rfl⟩)
    omega

def decode_journal (buf : Slice w) : Except Fault DecodedJournal := do
  if buf.len < 8 then
    .ok { next_usn := 0, records := [], lossy := true }
  else
    let next_usn := (← load_u64 buf 0).toInt64
    let (records, lossy) ← decode_from buf [] false 8
    .ok { next_usn, records, lossy }

/-- One turn of the loop, without the proof that it ends. -/
theorem decode_from_eq (buf : Slice w) (records : List UsnRecord) (lossy : Bool) (pos : Nat)
    (hpos : pos < buf.len) : decode_from buf records lossy pos =
      match visit buf pos with
      | .error e => .error e
      | .ok .refused => .ok (records, true)
      | .ok (.skipped next) => decode_from buf records true next
      | .ok (.record r next) => decode_from buf (records ++ [r]) lossy next := by
  rw [decode_from, dif_pos hpos]
  split <;> rename_i h <;> rw [h]

/-- Whether a walk lost something: it skipped a record, or stopped early. -/
def lost (bytes : List UInt8) (items : List (Option UsnRecord)) (stop : Nat) : Bool :=
  items.any Option.isNone || stop != bytes.length

/-- The records of the chain from a position on are pushed behind the others. -/
theorem decode_from_chain (buf : Slice w) (records : List UsnRecord) (lossy : Bool) (pos : Nat)
    (hle : pos ≤ buf.len) : ∃ items stop, Walk.Chain (Stride buf.bytes) pos items stop ∧
      Walk.Stuck (Stride buf.bytes) stop ∧
      decode_from buf records lossy pos =
        .ok (records ++ items.reduceOption, lossy || lost buf.bytes items stop) := by
  induction records, lossy, pos using decode_from.induct buf with
  | case1 records lossy pos hpos e h =>
    obtain ⟨v, hv, -⟩ := visit_meets buf pos hpos
    rw [h] at hv
    cases hv
  | case2 records lossy pos hpos h =>
    obtain ⟨v, hv, hm⟩ := visit_meets buf pos hpos
    rw [h] at hv
    cases hv
    refine ⟨[], pos, .nil _, hm, ?_⟩
    have hne : (pos != buf.bytes.length) = true := bne_iff_ne.mpr (Nat.ne_of_lt hpos)
    rw [decode_from_eq _ _ _ _ hpos, h, List.reduceOption_nil, List.append_nil, lost, hne]
    simp
  | case3 records lossy pos hpos next h ih =>
    obtain ⟨v, hv, hm⟩ := visit_meets buf pos hpos
    rw [h] at hv
    cases hv
    obtain ⟨items, stop, hc, hs, hd⟩ := ih (visit_next hpos h (.inl rfl)).2
    refine ⟨none :: items, stop, .cons hm hc, hs, ?_⟩
    rw [decode_from_eq _ _ _ _ hpos, h]
    show decode_from buf records true next = _
    rw [hd, List.reduceOption_cons_of_none]
    simp [lost]
  | case4 records lossy pos hpos r next h ih =>
    obtain ⟨v, hv, hm⟩ := visit_meets buf pos hpos
    rw [h] at hv
    cases hv
    obtain ⟨items, stop, hc, hs, hd⟩ := ih (visit_next hpos h (.inr ⟨r, rfl⟩)).2
    refine ⟨some r :: items, stop, .cons hm hc, hs, ?_⟩
    rw [decode_from_eq _ _ _ _ hpos, h]
    show decode_from buf (records ++ [r]) lossy next = _
    rw [hd, List.reduceOption_cons_of_some, List.append_assoc]
    simp [lost]
  | case5 records lossy pos hpos =>
    have he : pos = buf.bytes.length := Nat.le_antisymm hle (Nat.le_of_not_lt hpos)
    refine ⟨[], pos, .nil _, he ▸ stuck_end buf.bytes, ?_⟩
    rw [decode_from, dif_neg hpos, List.reduceOption_nil, List.append_nil, he]
    simp [lost]

end Usn
