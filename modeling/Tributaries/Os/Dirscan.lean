import Tributaries.Os.Rdcw

/-! # Directory pages

  `decode_page` walks the records of a directory enumeration, each linked
  to the next by its own offset.  The extent of a record and the test of a
  name are the ones of the completion buffer, and what the decoder computes
  is compared with the records that stand in the page by plain arithmetic.
-/

namespace Dirscan

open Machine Bytes
open Rdcw (Text name_is_possible padded padded_extent padded_extent_eq)

/-! ### The vocabulary -/

structure DirChild where
  name : Option Text
  frn : BitVec 128
  attributes : UInt32
  deriving DecidableEq

structure DecodedPage where
  children : List DirChild
  lossy : Bool
  deriving DecidableEq

/-- The fixed prefix of a record. -/
def header : Nat := 88

def dot : UInt16 := 0x2E

/-- The child of a record, unless its name is `.` or `..`. -/
def child_of (units : List UInt16) (frn : BitVec 128) (attributes : UInt32) : Option DirChild :=
  if units = [dot] ∨ units = [dot, dot] then none
  else some { name := Utf16.decode units, frn, attributes }

/-! ### The decoder -/

/-- What the loop meets at one position. -/
inductive Visit where
  | refused
  /-- The child is pushed, and its link refused. -/
  | broken (child : Option DirChild)
  | last (child : Option DirChild)
  | linked (child : Option DirChild) (next : Nat)
  deriving DecidableEq

variable {w : Width}

/-- How far a record's name may reach; nothing where the link leaves `usize`. -/
def extent_of (buf : Slice w) (pos next_offset : Nat) : Option Nat :=
  if next_offset = 0 then some buf.len
  else (checked_add w pos next_offset).map fun end_of_record => min end_of_record buf.len

/-- Where the record behind a pushed child leads. -/
def follow (buf : Slice w) (pos next_offset name_len : Nat) (child : Option DirChild) : Visit :=
  if next_offset = 0 then
    .last child
  else
    match checked_add w pos next_offset with
    | none => .broken child
    | some next_at =>
      let gap := (padded_extent w header name_len).bind fun stop => checked_sub next_offset stop
      let strides_to_the_next_record := gap.any (· < header)
      if next_offset % 8 ≠ 0 ∨ strides_to_the_next_record = false ∨ buf.len ≤ next_at then
        .broken child
      else .linked child next_at

/-- One turn of the loop of `decode_page`. -/
def visit (buf : Slice w) (pos : Nat) : Except Fault Visit := do
  if buf.len < (← add w pos header) then
    .ok .refused
  else
    let next_offset := (← load_u32 buf pos).toNat
    let attributes ← load_u32 buf (← add w pos 56)
    let name_len := (← load_u32 buf (← add w pos 60)).toNat
    let frn ← load_u128 buf (← add w pos 72)
    match extent_of buf pos next_offset with
    | none => .ok .refused
    | some extent =>
      let name_at ← add w pos header
      let name_fits := name_len % 2 == 0 && (checked_add w name_at name_len).any (· ≤ extent)
      if !name_fits then
        .ok .refused
      else
        let units := Utf16.of_bytes (← slice buf.bytes name_at (← add w name_at name_len))
        if !name_is_possible units then .ok .refused
        else .ok (follow buf pos next_offset name_len (child_of units frn attributes))

/-! ### What stands in the page -/

/-- What the bytes of one record say of an entry. -/
structure DirRecord where
  units : List UInt16
  frn : BitVec 128
  attributes : UInt32
  deriving DecidableEq

def DirRecord.child (r : DirRecord) : Option DirChild := child_of r.units r.frn r.attributes

section Standing

variable (bytes : List UInt8) (pos : Nat)

def next_offset : Nat := word bytes pos 4

def name_len : Nat := word bytes (pos + 60) 4

def name_units : List UInt16 :=
  Utf16.of_bytes (window bytes (pos + header) (name_len bytes pos))

/-- The record's end, its name squared off to four bytes. -/
def extent : Nat := padded (header + name_len bytes pos)

def record_at : DirRecord where
  units := name_units bytes pos
  frn := BitVec.ofNat 128 (word bytes (pos + 72) 16)
  attributes := UInt32.ofNat (word bytes (pos + 56) 4)

/-- A fixed prefix and a name without U+0000 stand between `pos` and `stop`. -/
structure Stands (stop : Nat) : Prop where
  header : pos + header ≤ bytes.length
  even : name_len bytes pos % 2 = 0
  name : pos + Dirscan.header + name_len bytes pos ≤ stop
  possible : 0 ∉ name_units bytes pos

/-- A record and the link to the next one, which leads past the record's padded end
    by less than a record's prefix. -/
structure Linked (next : Nat) : Prop extends Stands bytes pos next where
  offset : next_offset bytes pos ≠ 0
  link : next = pos + next_offset bytes pos
  aligned : next_offset bytes pos % 8 = 0
  gap : pos + extent bytes pos ≤ next ∧ next < pos + extent bytes pos + Dirscan.header
  inside : next < bytes.length

/-- The last record of a page; what trails it is not looked at. -/
structure Terminal : Prop extends Stands bytes pos bytes.length where
  offset : next_offset bytes pos = 0

end Standing

/-- One link of the chain; behind the last record there is no position. -/
inductive Stride (bytes : List UInt8) : Option Nat → DirRecord → Option Nat → Prop where
  | linked {pos next : Nat} (h : Linked bytes pos next) :
      Stride bytes (some pos) (record_at bytes pos) (some next)
  | last {pos : Nat} (h : Terminal bytes pos) :
      Stride bytes (some pos) (record_at bytes pos) none

theorem functional (bytes : List UInt8) : Walk.Functional (Stride bytes) := by
  intro p r r' q q' h h'
  cases h with
  | linked h =>
    cases h' with
    | linked h' => exact ⟨rfl, by rw [h.link, h'.link]⟩
    | last h' => exact absurd h'.offset h.offset
  | last h =>
    cases h' with
    | linked h' => exact absurd h.offset h'.offset
    | last _ => exact ⟨rfl, rfl⟩

theorem stuck_end (bytes : List UInt8) : Walk.Stuck (Stride bytes) none := by
  intro r q h
  cases h

theorem stuck_of {bytes : List UInt8} {pos : Nat} (hl : ∀ next, ¬ Linked bytes pos next)
    (ht : ¬ Terminal bytes pos) : Walk.Stuck (Stride bytes) (some pos) := by
  intro r q h
  cases h with
  | linked h => exact hl _ h
  | last h => exact ht h

/-! ### One turn of the loop -/

/-- What a turn of the loop answers, said of what stands at its position. -/
def Meets (buf : Slice w) (pos : Nat) : Visit → Prop
  | .refused | .broken _ => Walk.Stuck (Stride buf.bytes) (some pos)
  | .last child => child = (record_at buf.bytes pos).child ∧ Terminal buf.bytes pos
  | .linked child next =>
    child = (record_at buf.bytes pos).child ∧ Linked buf.bytes pos next

/-- The reads of a turn, where the fixed prefix stands in the page. -/
theorem visit_eq {buf : Slice w} {pos : Nat} (hh : pos + header ≤ buf.len) :
    visit buf pos =
      match extent_of buf pos (next_offset buf.bytes pos) with
      | none => .ok .refused
      | some stop =>
        if name_len buf.bytes pos % 2 = 0 ∧ pos + header + name_len buf.bytes pos ≤ stop then
          if 0 ∈ name_units buf.bytes pos then .ok .refused
          else .ok (follow buf pos (next_offset buf.bytes pos) (name_len buf.bytes pos)
            (record_at buf.bytes pos).child)
        else .ok .refused := by
  have hw := buf.len_lt
  have h88 : header = 88 := rfl
  unfold visit
  simp only [bind, Except.bind, add_ok (show pos + header < w.limit by omega),
    if_neg (show ¬ buf.len < pos + header by omega),
    load_u32_ok (show pos + 4 ≤ buf.len by omega), add_ok (show pos + 56 < w.limit by omega),
    load_u32_ok (show pos + 56 + 4 ≤ buf.len by omega), add_ok (show pos + 60 < w.limit by omega),
    load_u32_ok (show pos + 60 + 4 ≤ buf.len by omega), add_ok (show pos + 72 < w.limit by omega),
    load_u128_ok (show pos + 72 + 16 ≤ buf.len by omega), toNat_word32]
  rw [← next_offset, ← name_len]
  cases he : extent_of buf pos (next_offset buf.bytes pos) with
  | none => rfl
  | some stop =>
    dsimp only
    have hstop : stop ≤ buf.len := by
      unfold extent_of at he
      split at he
      · exact Nat.le_of_eq (Option.some.inj he).symm
      · obtain ⟨n, -, rfl⟩ := Option.map_eq_some_iff.mp he
        exact Nat.min_le_right _ _
    by_cases hfit : name_len buf.bytes pos % 2 = 0 ∧ pos + header + name_len buf.bytes pos ≤ stop
    · have hlim : pos + header + name_len buf.bytes pos < w.limit := by omega
      have hsub : pos + header + name_len buf.bytes pos - (pos + header) =
          name_len buf.bytes pos := by omega
      rw [if_pos hfit, checked_add_some hlim, Option.any_some, decide_eq_true hfit.2, hfit.1]
      simp only [beq_self_eq_true, Bool.and_self, Bool.not_true, Bool.false_eq_true, if_false,
        add_ok hlim, slice_ok (Nat.le_add_right _ _) (hfit.2.trans hstop), hsub]
      rw [← name_units]
      by_cases hn : (0 : UInt16) ∈ name_units buf.bytes pos
      · rw [if_pos hn, if_pos (by simpa [name_is_possible] using hn)]
      · rw [if_neg hn, if_neg (by simpa [name_is_possible] using hn)]
        rfl
    · have hnot : (name_len buf.bytes pos % 2 == 0 &&
          (checked_add w (pos + header) (name_len buf.bytes pos)).any (· ≤ stop)) = false := by
        rw [Bool.eq_false_iff]
        intro h
        rw [Bool.and_eq_true, beq_iff_eq, Option.any_eq_true] at h
        obtain ⟨heven, n, hn, hle⟩ := h
        rw [checked_add] at hn
        split_ifs at hn
        cases hn
        exact hfit ⟨heven, of_decide_eq_true hle⟩
      rw [hnot, if_neg hfit]
      rfl

/-- A link is followed where it is aligned and leads on past its record by less than
    a record's prefix. -/
theorem follow_link {buf : Slice w} {pos offset len : Nat} {child : Option DirChild}
    (h : offset ≠ 0) (hl : padded (header + len) < w.limit) :
    follow buf pos offset len child =
      if offset % 8 = 0 ∧ pos + offset < buf.len ∧ padded (header + len) ≤ offset ∧
          offset < padded (header + len) + header then .linked child (pos + offset)
      else .broken child := by
  have hw := buf.len_lt
  unfold follow
  rw [if_neg h]
  by_cases hlim : pos + offset < w.limit
  · rw [checked_add_some hlim, padded_extent_eq, if_pos hl]
    dsimp only [Option.bind_some]
    have hgap : (checked_sub offset (padded (header + len))).any (· < header) = true ↔
        padded (header + len) ≤ offset ∧ offset < padded (header + len) + header := by
      unfold checked_sub
      by_cases hle : padded (header + len) ≤ offset
      · rw [if_pos hle, Option.any_some, decide_eq_true_eq]
        omega
      · simp [hle]
    by_cases hg : padded (header + len) ≤ offset ∧ offset < padded (header + len) + header
    · rw [hgap.mpr hg]
      by_cases hc : offset % 8 = 0 ∧ pos + offset < buf.len
      · rw [if_neg (by simp; omega), if_pos ⟨hc.1, hc.2, hg⟩]
      · rw [if_pos (by simp; omega), if_neg (fun hx => hc ⟨hx.1, hx.2.1⟩)]
    · rw [eq_false_of_ne_true (mt hgap.mp hg), if_pos (by simp), if_neg (fun hx => hg hx.2.2)]
  · rw [checked_add, if_neg hlim, if_neg (by omega)]

theorem visit_meets (buf : Slice w) {pos : Nat} (hpos : pos ≤ buf.len) :
    ∃ v, visit buf pos = .ok v ∧ Meets buf pos v := by
  have hw := buf.len_lt
  have hl := limit_ge w
  have h88 : header = 88 := rfl
  have hlen : buf.len = buf.bytes.length := rfl
  by_cases hh : pos + header ≤ buf.len
  swap
  · -- half the address space leaves room for one prefix more
    have hadd : pos + header < w.limit := by
      have hlim : 2 ^ 32 ≤ w.limit := hl
      omega
    refine ⟨.refused, ?_, stuck_of (fun _ h => hh h.header) (fun h => hh h.header)⟩
    unfold visit
    rw [add_ok hadd]
    simp only [bind, Except.bind]
    exact if_pos (by omega)
  rw [visit_eq hh]
  have hpad : header + name_len buf.bytes pos ≤ padded (header + name_len buf.bytes pos) ∧
      padded (header + name_len buf.bytes pos) ≤ header + name_len buf.bytes pos + 3 := by
    unfold padded
    omega
  by_cases h0 : next_offset buf.bytes pos = 0
  · rw [h0, extent_of, if_pos rfl]
    dsimp only
    have hnone : ∀ next, ¬ Linked buf.bytes pos next := fun next h => h.offset h0
    by_cases hfit : name_len buf.bytes pos % 2 = 0 ∧
        pos + header + name_len buf.bytes pos ≤ buf.len
    · rw [if_pos hfit]
      by_cases hn : 0 ∈ name_units buf.bytes pos
      · exact ⟨.refused, if_pos hn, stuck_of hnone fun h => h.possible hn⟩
      · refine ⟨.last (record_at buf.bytes pos).child, ?_, rfl, ⟨hh, hfit.1, hfit.2, hn⟩, h0⟩
        rw [if_neg hn]
        rfl
    · exact ⟨.refused, if_neg hfit, stuck_of hnone fun h => hfit ⟨h.even, h.name⟩⟩
  · have hterm : ¬ Terminal buf.bytes pos := fun h => h0 h.offset
    rw [extent_of, if_neg h0]
    by_cases hlim : pos + next_offset buf.bytes pos < w.limit
    swap
    · rw [checked_add, if_neg hlim]
      refine ⟨.refused, rfl, stuck_of ?_ hterm⟩
      intro next h
      have hi := h.inside
      have hk := h.link
      omega
    rw [checked_add_some hlim]
    dsimp only [Option.map_some]
    by_cases hfit : name_len buf.bytes pos % 2 = 0 ∧ pos + header + name_len buf.bytes pos ≤
        min (pos + next_offset buf.bytes pos) buf.len
    swap
    · refine ⟨.refused, if_neg hfit, stuck_of ?_ hterm⟩
      intro next h
      have hi := h.inside
      have hk := h.link
      have hn := h.name
      exact hfit ⟨h.even, by omega⟩
    rw [if_pos hfit]
    by_cases hn : 0 ∈ name_units buf.bytes pos
    · exact ⟨.refused, if_pos hn, stuck_of (fun next h => h.possible hn) hterm⟩
    rw [if_neg hn, follow_link h0 (by omega)]
    by_cases hs : next_offset buf.bytes pos % 8 = 0 ∧
        pos + next_offset buf.bytes pos < buf.len ∧
        padded (header + name_len buf.bytes pos) ≤ next_offset buf.bytes pos ∧
        next_offset buf.bytes pos < padded (header + name_len buf.bytes pos) + header
    · have hlink : Linked buf.bytes pos (pos + next_offset buf.bytes pos) := by
        refine ⟨⟨hh, hfit.1, by omega, hn⟩, h0, rfl, hs.1, ?_, hs.2.1⟩
        unfold extent
        omega
      exact ⟨.linked (record_at buf.bytes pos).child (pos + next_offset buf.bytes pos),
        by rw [if_pos hs], rfl, hlink⟩
    · refine ⟨.broken (record_at buf.bytes pos).child, by rw [if_neg hs], stuck_of ?_ hterm⟩
      intro next h
      have hk := h.link
      have hi := h.inside
      have hg := h.gap
      unfold extent at hg
      exact hs ⟨h.aligned, by omega, by omega, by omega⟩

/-! ### The loop -/

theorem visit_linked {buf : Slice w} {pos next : Nat} {child : Option DirChild}
    (hpos : pos ≤ buf.len) (h : visit buf pos = .ok (.linked child next)) :
    pos < next ∧ next < buf.len := by
  obtain ⟨v, hv, hm⟩ := visit_meets buf hpos
  rw [h] at hv
  cases hv
  obtain ⟨-, hl⟩ := hm
  have ho := hl.offset
  have hk := hl.link
  exact ⟨by omega, hl.inside⟩

/-- The loop of `decode_page` from a position inside the page, behind the children it
    has pushed. -/
def decode_from (buf : Slice w) (children : List DirChild) (pos : Nat) (hpos : pos ≤ buf.len) :
    Except Fault DecodedPage :=
  match h : visit buf pos with
  | .error e => .error e
  | .ok .refused => .ok { children, lossy := true }
  | .ok (.broken child) => .ok { children := children ++ child.toList, lossy := true }
  | .ok (.last child) => .ok { children := children ++ child.toList, lossy := false }
  | .ok (.linked child next) =>
    decode_from buf (children ++ child.toList) next (Nat.le_of_lt (visit_linked hpos h).2)
termination_by buf.len - pos
decreasing_by
  have hlt := visit_linked hpos h
  omega

def decode_page (buf : Slice w) : Except Fault DecodedPage :=
  decode_from buf [] 0 (Nat.zero_le _)

section Turns

variable {buf : Slice w} {children : List DirChild} {pos next : Nat} {hpos : pos ≤ buf.len}
  {child : Option DirChild}

theorem decode_from_refused (h : visit buf pos = .ok .refused) :
    decode_from buf children pos hpos = .ok { children, lossy := true } := by
  rw [decode_from]
  split <;> simp_all

theorem decode_from_broken (h : visit buf pos = .ok (.broken child)) :
    decode_from buf children pos hpos =
      .ok { children := children ++ child.toList, lossy := true } := by
  rw [decode_from]
  split <;> simp_all

theorem decode_from_last (h : visit buf pos = .ok (.last child)) :
    decode_from buf children pos hpos =
      .ok { children := children ++ child.toList, lossy := false } := by
  rw [decode_from]
  split <;> simp_all

theorem decode_from_linked (h : visit buf pos = .ok (.linked child next)) :
    decode_from buf children pos hpos = decode_from buf (children ++ child.toList) next
      (Nat.le_of_lt (visit_linked hpos h).2) := by
  rw [decode_from]
  split <;> rename_i h' <;> rw [h] at h' <;> cases h'
  rfl

end Turns

/-- The children a walk pushes: those of its records, and where it stops short perhaps
    the one of the record it stopped at. -/
structure Pushed (rs : List DirRecord) (stop : Option Nat) (pushed : List DirChild) : Prop where
  walked : rs.filterMap DirRecord.child <+: pushed
  whole : stop = none → pushed = rs.filterMap DirRecord.child

theorem Pushed.cons {r : DirRecord} {rs : List DirRecord} {stop : Option Nat}
    {pushed : List DirChild} (h : Pushed rs stop pushed) :
    Pushed (r :: rs) stop (r.child.toList ++ pushed) := by
  have hcons : (r :: rs).filterMap DirRecord.child =
      r.child.toList ++ rs.filterMap DirRecord.child := by
    cases hc : r.child with
    | none => simp [hc]
    | some c => simp [hc]
  constructor
  · rw [hcons]
    exact (List.prefix_append_right_inj _).mpr h.walked
  · intro hs
    rw [hcons, h.whole hs]

/-- The loop walks the records from its position on to where none stands. -/
theorem decode_from_chain (buf : Slice w) (children : List DirChild) (pos : Nat)
    (hpos : pos ≤ buf.len) : ∃ rs stop pushed,
      Walk.Chain (Stride buf.bytes) (some pos) rs stop ∧ Walk.Stuck (Stride buf.bytes) stop ∧
      Pushed rs stop pushed ∧
      decode_from buf children pos hpos =
        .ok { children := children ++ pushed, lossy := stop.isSome } := by
  -- the induction is on the bytes that remain behind the position
  induction hk : buf.len - pos using Nat.strong_induction_on generalizing pos children with
  | _ k ih =>
    obtain ⟨v, hv, hm⟩ := visit_meets buf hpos
    cases v with
    | refused =>
      refine ⟨[], some pos, [], .nil _, hm, ⟨List.prefix_rfl, nofun⟩, ?_⟩
      rw [decode_from_refused hv, List.append_nil]
      rfl
    | broken child =>
      refine ⟨[], some pos, child.toList, .nil _, hm, ⟨List.nil_prefix, nofun⟩, ?_⟩
      rw [decode_from_broken hv]
      rfl
    | last child =>
      obtain ⟨hc, ht⟩ := hm
      have hp : Pushed [] none [] := ⟨List.prefix_rfl, fun _ => rfl⟩
      refine ⟨[record_at buf.bytes pos], none, child.toList ++ [], .cons (.last ht) (.nil _),
        stuck_end _, hc ▸ hp.cons, ?_⟩
      rw [decode_from_last hv, List.append_nil]
      rfl
    | linked child next =>
      obtain ⟨hc, hl⟩ := hm
      obtain ⟨hlt, hin⟩ := visit_linked hpos hv
      obtain ⟨rs, stop, pushed, hchain, hstuck, hp, hd⟩ :=
        ih (buf.len - next) (by omega) (children ++ child.toList) next (Nat.le_of_lt hin) rfl
      refine ⟨record_at buf.bytes pos :: rs, stop, child.toList ++ pushed,
        .cons (.linked hl) hchain, hstuck, hc ▸ hp.cons, ?_⟩
      rw [decode_from_linked hv, hd, List.append_assoc]

end Dirscan
