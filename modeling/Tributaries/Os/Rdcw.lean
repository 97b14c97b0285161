import Tributaries.Machine
import Tributaries.Utf16
import Tributaries.Walk

/-! # The `ReadDirectoryChangesW` completion buffer

  `decode_records` walks a chain of records linked by their own offsets.
  What it computes with machine numbers is compared with the records that
  stand in the buffer by plain arithmetic (`Linked`, `Terminal`).
-/

namespace Rdcw

open Machine Bytes

/-! ### The vocabulary -/

inductive RdcwAction where
  | added
  | removed
  | modified
  | renamed_old
  | renamed_new
  | stream_added
  | stream_removed
  | stream_modified
  | unknown (word : UInt32)
  deriving DecidableEq, Repr

namespace RdcwAction

def from_word (word : UInt32) : RdcwAction :=
  match word.toNat with
  | 1 => .added
  | 2 => .removed
  | 3 => .modified
  | 4 => .renamed_old
  | 5 => .renamed_new
  | 6 => .stream_added
  | 7 => .stream_removed
  | 8 => .stream_modified
  | _ => .unknown word

def is_stream : RdcwAction → Bool
  | .stream_added | .stream_removed | .stream_modified => true
  | _ => false

end RdcwAction

/-- A text, as its characters. -/
abbrev Text := List Char

inductive RdcwName where
  | utf8 (components : List Text)
  /-- A component cannot be published; the ones above it can. -/
  | escalate (above : List Text)
  deriving DecidableEq, Repr

structure RdcwRecord where
  action : RdcwAction
  name : RdcwName
  file_id : Option UInt64
  parent_id : Option UInt64
  attributes : Option UInt32
  reparse_tag : Option UInt32
  deriving DecidableEq, Repr

structure DecodedBuffer where
  records : List RdcwRecord
  lossy : Bool
  deriving DecidableEq, Repr

/-! ### Names -/

/-- `rsplit_once`: what stands before and behind the last separator. -/
def rsplit_once (sep : Char) (cs : Text) : Option (Text × Text) :=
  match cs.reverse.span (· ≠ sep) with
  | (_, []) => none
  | (tail, _ :: head) => some (head.reverse, tail.reverse)

/-- A base and an extension of the 8.3 form, the base ending in `~` and digits. -/
def is_short_form (base : Text) (extension : Option Text) : Bool :=
  if base.length < 1 ∨ 8 < base.length then
    false
  else if extension.any fun ext => 3 < ext.length then
    false
  else
    match rsplit_once '~' base with
    | none => false
    | some (head, tail) => !head.isEmpty && !tail.isEmpty && tail.all Char.isDigit

def is_short_name_alias (component : Text) : Bool :=
  if component.any Char.isLower then
    false
  else
    match component.splitOn '.' with
    | [base] => is_short_form base none
    | [base, ext] => is_short_form base (some ext)
    | _ => false

def name_is_possible (units : List UInt16) : Bool := !units.contains 0

/-- The separator of a path, and the mark of a stream. -/
def separator : UInt16 := 0x5C

def colon : UInt16 := 0x3A

/-- The components left to decode, behind those already decoded. -/
def decode_components (stream : Bool) : List (List UInt16) → List Text → RdcwName
  | [], components => .utf8 components
  | raw :: rest, components =>
    -- only the last component of a stream's name carries the stream
    let component := if stream && rest.isEmpty then raw.takeWhile (· ≠ colon) else raw
    if component.isEmpty then
      decode_components stream rest components
    else
      match Utf16.decode component with
      | none => .escalate components
      | some decoded =>
        if is_short_name_alias decoded then .escalate components
        else decode_components stream rest (components ++ [decoded])

def decode_name (units : List UInt16) (stream : Bool) : RdcwName :=
  decode_components stream ((units.splitOn separator).filter (!·.isEmpty)) []

/-! ### The decoder -/

def basic_header : Nat := 12

def extended_header : Nat := 84

def extended_align : Nat := 8

def extended_terminal_slack : Nat := extended_align - 4

def header_len (extended : Bool) : Nat := if extended then extended_header else basic_header

def padded_extent (w : Width) (header name_len : Nat) : Option Nat :=
  (checked_add w header name_len).bind fun n => checked_next_multiple_of w n 4

/-- The fields that only the extended layout has, and where the name's length is. -/
structure Fields where
  file_id : Option UInt64
  parent_id : Option UInt64
  attributes : Option UInt32
  reparse_tag : Option UInt32
  name_len_at : Nat

variable {w : Width}

def load_fields (buf : Slice w) (extended : Bool) (pos : Nat) : Except Fault Fields := do
  if extended then
    let file_id ← load_u64 buf (← add w pos 64)
    let parent_id ← load_u64 buf (← add w pos 72)
    let attributes ← load_u32 buf (← add w pos 56)
    let reparse_tag ← load_u32 buf (← add w pos 60)
    let name_len_at ← add w pos 80
    .ok ⟨some file_id, some parent_id, some attributes, some reparse_tag, name_len_at⟩
  else
    let name_len_at ← add w pos 8
    .ok ⟨none, none, none, none, name_len_at⟩

/-- Where the next record begins: nothing when the link is refused, no position
    at the end of the chain. -/
def next_at (buf : Slice w) (extended : Bool) (pos next_offset padded_end : Nat) :
    Option (Option Nat) :=
  if next_offset = 0 then
    let stranded := match checked_add w pos padded_end with
      | none => 0
      | some end_of_record => buf.len - end_of_record
    let trailing_is_only_padding :=
      if extended then decide (stranded ≤ extended_terminal_slack) else decide (stranded = 0)
    if trailing_is_only_padding then some none else none
  else
    match checked_add w pos next_offset with
    | none => none
    | some next =>
      let gap := checked_sub next_offset padded_end
      let strides_to_the_next_record :=
        if extended then gap.any (· < header_len extended) else gap == some 0
      if next_offset % 4 ≠ 0 ∨ strides_to_the_next_record = false ∨ buf.len ≤ next then none
      else some (some next)

/-- What the loop meets at one position. -/
inductive Visit where
  | refused
  | last (record : RdcwRecord)
  | linked (record : RdcwRecord) (next : Nat)
  deriving DecidableEq, Repr

/-- The name is read inside the record's extent, and the record pushed. -/
def publish (buf : Slice w) (name_at name_len : Nat) (action : RdcwAction) (fields : Fields)
    (next : Option Nat) : Except Fault Visit := do
  let extent := next.getD buf.len
  let name_fits := name_len % 2 == 0 && (checked_add w name_at name_len).any (· ≤ extent)
  if !name_fits then
    .ok .refused
  else
    let units := Utf16.of_bytes (← slice buf.bytes name_at (← add w name_at name_len))
    if !name_is_possible units then
      .ok .refused
    else
      let record : RdcwRecord :=
        { action, name := decode_name units action.is_stream
          file_id := fields.file_id, parent_id := fields.parent_id
          attributes := fields.attributes, reparse_tag := fields.reparse_tag }
      match next with
      | none => .ok (.last record)
      | some next => .ok (.linked record next)

/-- One turn of the loop of `decode_records`. -/
def visit (buf : Slice w) (extended : Bool) (pos : Nat) : Except Fault Visit := do
  let header := header_len extended
  match checked_add w pos header with
  | none => .ok .refused
  | some end_of_header =>
    if buf.len < end_of_header then
      .ok .refused
    else
      let next_offset := (← load_u32 buf pos).toNat
      let action := RdcwAction.from_word (← load_u32 buf (← add w pos 4))
      let fields ← load_fields buf extended pos
      let name_len := (← load_u32 buf fields.name_len_at).toNat
      match padded_extent w header name_len with
      | none => .ok .refused
      | some padded_end =>
        match next_at buf extended pos next_offset padded_end with
        | none => .ok .refused
        | some next =>
          publish buf end_of_header name_len action fields next

/-! ### What stands in the buffer -/

/-- The end of a record that squares its name off to four bytes. -/
def padded (n : Nat) : Nat := (n + 3) / 4 * 4

section Standing

variable (bytes : List UInt8) (extended : Bool) (pos : Nat)

def next_offset : Nat := word bytes pos 4

/-- The name's length is the last word of the fixed prefix. -/
def name_len : Nat := word bytes (pos + (header_len extended - 4)) 4

def name_units : List UInt16 :=
  Utf16.of_bytes (window bytes (pos + header_len extended) (name_len bytes extended pos))

def extent : Nat := padded (header_len extended + name_len bytes extended pos)

/-- The record that the bytes at a position spell. -/
def record_at : RdcwRecord :=
  let action := RdcwAction.from_word (UInt32.ofNat (word bytes (pos + 4) 4))
  { action, name := decode_name (name_units bytes extended pos) action.is_stream
    file_id := if extended then some (UInt64.ofNat (word bytes (pos + 64) 8)) else none
    parent_id := if extended then some (UInt64.ofNat (word bytes (pos + 72) 8)) else none
    attributes := if extended then some (UInt32.ofNat (word bytes (pos + 56) 4)) else none
    reparse_tag := if extended then some (UInt32.ofNat (word bytes (pos + 60) 4)) else none }

/-- A fixed prefix and a possible name stand between `pos` and `stop`. -/
structure Stands (stop : Nat) : Prop where
  header : pos + header_len extended ≤ bytes.length
  even : name_len bytes extended pos % 2 = 0
  name : pos + header_len extended + name_len bytes extended pos ≤ stop
  possible : 0 ∉ name_units bytes extended pos

/-- A record and the link to the next one: a basic link leads to the record's
    padded end, an extended one leaves less than a record's prefix behind it. -/
structure Linked (next : Nat) : Prop extends Stands bytes extended pos next where
  offset : next_offset bytes pos ≠ 0
  link : next = pos + next_offset bytes pos
  aligned : next_offset bytes pos % 4 = 0
  basic : extended = false → next = pos + extent bytes extended pos
  gap : pos + extent bytes extended pos ≤ next ∧
    next < pos + extent bytes extended pos + header_len extended
  inside : next < bytes.length

/-- The last record of a chain: nothing but its own padding trails it. -/
structure Terminal : Prop extends Stands bytes extended pos bytes.length where
  offset : next_offset bytes pos = 0
  trailing : bytes.length ≤ pos + extent bytes extended pos + if extended then 4 else 0

end Standing

/-- One link of the chain; behind the last record there is no position. -/
inductive Stride (bytes : List UInt8) (extended : Bool) :
    Option Nat → RdcwRecord → Option Nat → Prop where
  | linked {pos next : Nat} (h : Linked bytes extended pos next) :
      Stride bytes extended (some pos) (record_at bytes extended pos) (some next)
  | last {pos : Nat} (h : Terminal bytes extended pos) :
      Stride bytes extended (some pos) (record_at bytes extended pos) none

theorem functional (bytes : List UInt8) (extended : Bool) :
    Walk.Functional (Stride bytes extended) := by
  intro p r r' q q' h h'
  cases h with
  | linked h =>
    cases h' with
    | linked h' => exact ⟨rfl, by rw [h.link, h'.link]⟩
    | last h' => exact absurd h'.offset h.offset
  | last h =>
    cases h' with
    | linked h' => exact absurd h.offset h'.offset
    | last _ => exact ⟨rfl, rfl⟩

/-- Nothing follows the end of a chain. -/
theorem stuck_end (bytes : List UInt8) (extended : Bool) :
    Walk.Stuck (Stride bytes extended) none := by
  intro r q h
  cases h

/-- Where neither kind of record stands, the chain is stuck. -/
theorem stuck_of {bytes : List UInt8} {extended : Bool} {pos : Nat}
    (hl : ∀ next, ¬ Linked bytes extended pos next) (ht : ¬ Terminal bytes extended pos) :
    Walk.Stuck (Stride bytes extended) (some pos) := by
  intro r q h
  cases h with
  | linked h => exact hl _ h
  | last h => exact ht h

/-! ### One turn of the loop -/

theorem load_fields_ok {buf : Slice w} {extended : Bool} {pos : Nat}
    (h : pos + header_len extended ≤ buf.len) :
    load_fields buf extended pos = .ok
      { file_id := if extended then some (UInt64.ofNat (word buf.bytes (pos + 64) 8)) else none
        parent_id := if extended then some (UInt64.ofNat (word buf.bytes (pos + 72) 8)) else none
        attributes := if extended then some (UInt32.ofNat (word buf.bytes (pos + 56) 4)) else none
        reparse_tag := if extended then some (UInt32.ofNat (word buf.bytes (pos + 60) 4)) else none
        name_len_at := pos + (header_len extended - 4) } := by
  have hw := buf.len_lt
  cases extended with
  | true =>
    have hh : pos + 84 ≤ buf.len := h
    simp only [load_fields, if_true, bind, Except.bind,
      add_ok (show pos + 64 < w.limit by omega), add_ok (show pos + 72 < w.limit by omega),
      add_ok (show pos + 56 < w.limit by omega), add_ok (show pos + 60 < w.limit by omega),
      add_ok (show pos + 80 < w.limit by omega), load_u64_ok (show pos + 64 + 8 ≤ buf.len by omega),
      load_u64_ok (show pos + 72 + 8 ≤ buf.len by omega),
      load_u32_ok (show pos + 56 + 4 ≤ buf.len by omega),
      load_u32_ok (show pos + 60 + 4 ≤ buf.len by omega)]
    rfl
  | false =>
    have hh : pos + 12 ≤ buf.len := h
    simp only [load_fields, Bool.false_eq_true, if_false, bind, Except.bind,
      add_ok (show pos + 8 < w.limit by omega)]
    rfl

/-- The padded extent of a record, where it is a number of the machine. -/
theorem padded_extent_eq (w : Width) (header len : Nat) :
    padded_extent w header len =
      if padded (header + len) < w.limit then some (padded (header + len)) else none := by
  unfold padded_extent checked_next_multiple_of checked_add padded
  have hw := limit_ge w
  have hm : w.limit % 4 = 0 := by cases w <;> decide
  split_ifs <;> simp only [Option.bind_some, Option.bind_none] <;> try split_ifs
  all_goals first | rfl | (congr 1; omega)

/-- The end of the chain is answered where only padding trails the record. -/
theorem next_at_end {buf : Slice w} {extended : Bool} {pos padded_end : Nat} :
    next_at buf extended pos 0 padded_end =
      if buf.len ≤ pos + padded_end + (if extended then 4 else 0) then some none else none := by
  have hw := buf.len_lt
  have hs : (match checked_add w pos padded_end with
      | none => 0
      | some end_of_record => buf.len - end_of_record) = buf.len - (pos + padded_end) := by
    by_cases hlim : pos + padded_end < w.limit
    · rw [checked_add_some hlim]
    · rw [checked_add, if_neg hlim]
      show 0 = _
      omega
  unfold next_at
  rw [if_pos rfl]
  simp only [hs]
  by_cases hle : buf.len ≤ pos + padded_end + (if extended then 4 else 0)
  · rw [if_pos hle, if_pos]
    cases extended with
    | true =>
      show decide (_ ≤ 4) = true
      simp only [if_true] at hle
      exact decide_eq_true (by omega)
    | false =>
      show decide (_ = 0) = true
      simp only [Bool.false_eq_true, if_false] at hle
      exact decide_eq_true (by omega)
  · rw [if_neg hle, if_neg]
    cases extended with
    | true =>
      intro hd
      have hd' : _ ≤ 4 := of_decide_eq_true hd
      simp only [if_true] at hle
      omega
    | false =>
      intro hd
      have hd' : _ = 0 := of_decide_eq_true hd
      simp only [Bool.false_eq_true, if_false] at hle
      omega

/-- The stride rule of a link, as bounds on where it leads. -/
theorem strides_iff {extended : Bool} {pos offset padded_end : Nat} :
    (if extended then (checked_sub offset padded_end).any (· < header_len extended)
      else checked_sub offset padded_end == some 0) = true ↔
    (extended = false → pos + offset = pos + padded_end) ∧ pos + padded_end ≤ pos + offset ∧
      pos + offset < pos + padded_end + header_len extended := by
  unfold checked_sub
  cases extended with
  | true =>
    have hh : header_len true = 84 := rfl
    by_cases hle : padded_end ≤ offset
    · simp [hle, hh]
      omega
    · simp [hle]
  | false =>
    have hh : header_len false = 12 := rfl
    by_cases hle : padded_end ≤ offset
    · simp [hle, hh]
      omega
    · simp [hle]

/-- A link is answered where it leads to the end of its record. -/
theorem next_at_link {buf : Slice w} {extended : Bool} {pos offset padded_end : Nat}
    (h : offset ≠ 0) :
    next_at buf extended pos offset padded_end =
      if offset % 4 = 0 ∧ ((extended = false → pos + offset = pos + padded_end) ∧
          pos + padded_end ≤ pos + offset ∧
            pos + offset < pos + padded_end + header_len extended) ∧ pos + offset < buf.len
      then some (some (pos + offset)) else none := by
  have hw := buf.len_lt
  unfold next_at
  rw [if_neg h]
  by_cases hlim : pos + offset < w.limit
  · rw [checked_add_some hlim]
    dsimp only
    simp only [← strides_iff]
    generalize (if extended then _ else _ : Bool) = strides
    cases strides with
    | true =>
      by_cases hc : offset % 4 = 0 ∧ pos + offset < buf.len
      · rw [if_neg (by simp; omega), if_pos (by simp; omega)]
      · rw [if_pos (by simp; omega), if_neg (by simp; omega)]
    | false =>
      rw [if_pos (by simp), if_neg (by simp)]
  · rw [checked_add, if_neg hlim, if_neg (by omega)]

/-- What a turn of the loop answers, said of what stands at its position. -/
def Meets (buf : Slice w) (extended : Bool) (pos : Nat) : Visit → Prop
  | .refused => Walk.Stuck (Stride buf.bytes extended) (some pos)
  | .last r => r = record_at buf.bytes extended pos ∧ Terminal buf.bytes extended pos
  | .linked r next =>
    r = record_at buf.bytes extended pos ∧ Linked buf.bytes extended pos next

/-- The record is pushed where its name ends inside its extent and is possible. -/
theorem publish_eq {buf : Slice w} {name_at len : Nat} {action : RdcwAction} {fields : Fields}
    {next : Option Nat} (hstop : next.getD buf.len ≤ buf.len) :
    publish buf name_at len action fields next =
      if len % 2 = 0 ∧ name_at + len ≤ next.getD buf.len ∧
          0 ∉ Utf16.of_bytes (window buf.bytes name_at len) then
        .ok (next.elim Visit.last (fun n r => Visit.linked r n)
          { action, name := decode_name (Utf16.of_bytes (window buf.bytes name_at len)) action.is_stream
            file_id := fields.file_id, parent_id := fields.parent_id
            attributes := fields.attributes, reparse_tag := fields.reparse_tag })
      else .ok .refused := by
  have hw := buf.len_lt
  unfold publish
  dsimp only
  by_cases hfit : len % 2 = 0 ∧ name_at + len ≤ next.getD buf.len
  · have hlim : name_at + len < w.limit := by omega
    have hadd : name_at + len - name_at = len := by omega
    rw [checked_add_some hlim, Option.any_some, decide_eq_true hfit.2, hfit.1]
    simp only [beq_self_eq_true, Bool.and_self, Bool.not_true, Bool.false_eq_true, if_false,
      bind, Except.bind, add_ok hlim, slice_ok (Nat.le_add_right _ _) (hfit.2.trans hstop), hadd]
    by_cases hn : (0 : UInt16) ∈ Utf16.of_bytes (window buf.bytes name_at len)
    · rw [if_pos (by simpa [name_is_possible] using hn), if_neg (fun h => h.2.2 hn)]
    · rw [if_neg (by simpa [name_is_possible] using hn), if_pos ⟨trivial, hfit.2, hn⟩]
      cases next <;> rfl
  · have hnot : (len % 2 == 0 && (checked_add w name_at len).any (· ≤ next.getD buf.len)) = false := by
      rw [Bool.eq_false_iff]
      intro h
      rw [Bool.and_eq_true, beq_iff_eq, Option.any_eq_true] at h
      obtain ⟨he, n, hn, hle⟩ := h
      rw [checked_add] at hn
      split_ifs at hn
      cases hn
      exact hfit ⟨he, of_decide_eq_true hle⟩
    rw [hnot, Bool.not_false, if_pos rfl, if_neg (fun h => hfit ⟨h.1, h.2.1⟩)]

theorem visit_meets (buf : Slice w) (extended : Bool) (pos : Nat) :
    ∃ v, visit buf extended pos = .ok v ∧ Meets buf extended pos v := by
  have hw := buf.len_lt
  have hlen : buf.len = buf.bytes.length := rfl
  by_cases hh : pos + header_len extended ≤ buf.len
  swap
  · -- the fixed prefix does not fit, whatever its bytes
    refine ⟨.refused, ?_, stuck_of (fun _ h => hh h.header) (fun h => hh h.header)⟩
    unfold visit
    dsimp only
    by_cases hlim : pos + header_len extended < w.limit
    · rw [checked_add_some hlim]
      exact if_pos (by omega)
    · rw [checked_add, if_neg hlim]
  have hpos : 12 ≤ header_len extended := by cases extended <;> decide
  have hname : pos + (header_len extended - 4) + 4 ≤ buf.len := by omega
  unfold visit
  dsimp only
  rw [checked_add_some (by omega)]
  dsimp only
  rw [if_neg (by omega), load_u32_ok (show pos + 4 ≤ buf.len by omega)]
  simp only [bind, Except.bind, add_ok (show pos + 4 < w.limit by omega),
    load_u32_ok (show pos + 4 + 4 ≤ buf.len by omega), load_fields_ok hh,
    load_u32_ok hname, toNat_word32]
  rw [padded_extent_eq]
  have hpad : header_len extended + name_len buf.bytes extended pos ≤
      padded (header_len extended + name_len buf.bytes extended pos) := by
    unfold padded
    omega
  by_cases hpe : padded (header_len extended + name_len buf.bytes extended pos) < w.limit
  swap
  · -- an extent past the machine's numbers is past every buffer
    refine ⟨.refused, by rw [← name_len, if_neg hpe], stuck_of ?_ ?_⟩
    · intro next h
      have hg := h.gap.1
      have hi := h.inside
      unfold extent at hg
      omega
    · intro h
      have hn := h.name
      have hle : w.limit % 4 = 0 := by cases w <;> decide
      unfold padded at hpe
      omega
  rw [← name_len, ← next_offset, if_pos hpe, ← extent]
  dsimp only
  by_cases h0 : next_offset buf.bytes pos = 0
  · rw [h0, next_at_end]
    by_cases hle : buf.len ≤ pos + extent buf.bytes extended pos + (if extended then 4 else 0)
    swap
    · exact ⟨.refused, by rw [if_neg hle], stuck_of (fun _ h => h.offset h0)
        (fun h => hle h.trailing)⟩
    rw [if_pos hle]
    dsimp only
    rw [publish_eq (Nat.le_refl _)]
    by_cases hp : name_len buf.bytes extended pos % 2 = 0 ∧
        pos + header_len extended + name_len buf.bytes extended pos ≤ buf.len ∧
        0 ∉ name_units buf.bytes extended pos
    · exact ⟨.last (record_at buf.bytes extended pos), if_pos hp, rfl,
        ⟨⟨hh, hp.1, hp.2.1, hp.2.2⟩, h0, hle⟩⟩
    · exact ⟨.refused, if_neg hp, stuck_of (fun _ h => h.offset h0)
        (fun h => hp ⟨h.even, h.name, h.possible⟩)⟩
  · rw [next_at_link h0]
    by_cases hl : next_offset buf.bytes pos % 4 = 0 ∧
        ((extended = false → pos + next_offset buf.bytes pos = pos + extent buf.bytes extended pos) ∧
          pos + extent buf.bytes extended pos ≤ pos + next_offset buf.bytes pos ∧
          pos + next_offset buf.bytes pos <
            pos + extent buf.bytes extended pos + header_len extended) ∧
        pos + next_offset buf.bytes pos < buf.len
    swap
    · refine ⟨.refused, by rw [if_neg hl], stuck_of ?_ (fun h => h0 h.offset)⟩
      intro next h
      have hlink := h.link
      subst hlink
      exact hl ⟨h.aligned, ⟨h.basic, h.gap⟩, h.inside⟩
    rw [if_pos hl]
    dsimp only
    rw [publish_eq (show (some _ : Option Nat).getD buf.len ≤ buf.len from Nat.le_of_lt hl.2.2)]
    by_cases hp : name_len buf.bytes extended pos % 2 = 0 ∧
        pos + header_len extended + name_len buf.bytes extended pos ≤
          pos + next_offset buf.bytes pos ∧
        0 ∉ name_units buf.bytes extended pos
    · exact ⟨.linked (record_at buf.bytes extended pos) (pos + next_offset buf.bytes pos),
        if_pos hp, rfl, ⟨⟨hh, hp.1, hp.2.1, hp.2.2⟩, h0, rfl, hl.1, hl.2.1.1, hl.2.1.2, hl.2.2⟩⟩
    · refine ⟨.refused, if_neg hp, stuck_of ?_ (fun h => h0 h.offset)⟩
      intro next h
      have hlink := h.link
      subst hlink
      exact hp ⟨h.even, h.name, h.possible⟩

/-! ### The loop -/

/-- A link leads on, and stays inside the buffer. -/
theorem visit_linked {buf : Slice w} {extended : Bool} {pos next : Nat} {r : RdcwRecord}
    (h : visit buf extended pos = .ok (.linked r next)) : pos < next ∧ next < buf.len := by
  obtain ⟨v, hv, hm⟩ := visit_meets buf extended pos
  rw [h] at hv
  cases hv
  obtain ⟨-, hl⟩ := hm
  have ho := hl.offset
  have hk := hl.link
  exact ⟨by omega, hl.inside⟩

/-- The loop of `decode_records`, behind the records it has pushed. -/
def decode_from (buf : Slice w) (extended : Bool) (records : List RdcwRecord) (pos : Nat) :
    Except Fault DecodedBuffer :=
  match _h : visit buf extended pos with
  | .error e => .error e
  | .ok .refused => .ok { records, lossy := true }
  | .ok (.last r) => .ok { records := records ++ [r], lossy := false }
  | .ok (.linked r next) => decode_from buf extended (records ++ [r]) next
termination_by buf.len - pos
decreasing_by
  have hlt := visit_linked _h
  omega

def decode_records (buf : Slice w) (extended : Bool) : Except Fault DecodedBuffer :=
  decode_from buf extended [] 0

/-- One turn of the loop, without the proof that it ends. -/
theorem decode_from_eq (buf : Slice w) (extended : Bool) (records : List RdcwRecord) (pos : Nat) :
    decode_from buf extended records pos =
      match visit buf extended pos with
      | .error e => .error e
      | .ok .refused => .ok { records, lossy := true }
      | .ok (.last r) => .ok { records := records ++ [r], lossy := false }
      | .ok (.linked r next) => decode_from buf extended (records ++ [r]) next := by
  rw [decode_from]
  split <;> rename_i h <;> rw [h]

/-- The records of the chain from a position on are pushed behind the others;
    nothing is lost exactly where the chain reaches its end. -/
theorem decode_from_chain (buf : Slice w) (extended : Bool) (records : List RdcwRecord)
    (pos : Nat) : ∃ rs stop, Walk.Chain (Stride buf.bytes extended) (some pos) rs stop ∧
      Walk.Stuck (Stride buf.bytes extended) stop ∧
      decode_from buf extended records pos =
        .ok { records := records ++ rs, lossy := stop.isSome } := by
  induction records, pos using decode_from.induct buf extended with
  | case1 records pos e h =>
    obtain ⟨v, hv, -⟩ := visit_meets buf extended pos
    rw [h] at hv
    cases hv
  | case2 records pos h =>
    obtain ⟨v, hv, hm⟩ := visit_meets buf extended pos
    rw [h] at hv
    cases hv
    refine ⟨[], some pos, .nil _, hm, ?_⟩
    rw [decode_from_eq, h, List.append_nil]
    rfl
  | case3 records pos r h =>
    obtain ⟨v, hv, hm⟩ := visit_meets buf extended pos
    rw [h] at hv
    cases hv
    obtain ⟨hr, ht⟩ := hm
    subst hr
    refine ⟨[record_at buf.bytes extended pos], none, .cons (.last ht) (.nil _),
      stuck_end _ _, ?_⟩
    rw [decode_from_eq, h]
    rfl
  | case4 records pos r next h ih =>
    obtain ⟨v, hv, hm⟩ := visit_meets buf extended pos
    rw [h] at hv
    cases hv
    obtain ⟨hr, hl⟩ := hm
    subst hr
    obtain ⟨rs, stop, hc, hs, hd⟩ := ih
    refine ⟨record_at buf.bytes extended pos :: rs, stop, .cons (.linked hl) hc, hs, ?_⟩
    rw [decode_from_eq, h]
    show decode_from buf extended (records ++ [record_at buf.bytes extended pos]) next = _
    rw [hd, List.append_assoc]
    rfl

end Rdcw
