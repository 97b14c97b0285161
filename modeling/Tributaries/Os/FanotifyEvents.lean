import Tributaries.Os.Fanotify

/-! # The events of a fanotify buffer

  The loop of `decode_events`, the chain of events that stands in a buffer,
  and the events as the kernel writes them: decoding a buffer of these
  answers the masks, objects and names that were written.
-/

namespace Fanotify

open Machine Bytes

variable {w : Width} {endian : Endian}

/-! ### The loop -/

/-- What the loop meets at one position. -/
inductive Visit where
  | refused
  | mismatch (found : UInt8)
  | overflow (next : Nat)
  | event (e : RawFanotifyEvent) (next : Nat)
  deriving DecidableEq, Repr

/-- One turn of the loop of `decode_events`. -/
def visit (endian : Endian) (buf : Slice w) (pos : Nat) : Except Fault Visit := do
  match get buf.bytes pos (← add w pos metadata_len) with
  | none => .ok .refused
  | some header =>
    let event_len := endian.number (← slice header 0 4)
    let vers ← index header 4
    let metadata := endian.number (← slice header 6 8)
    let mask : FanMask := { bits := UInt64.ofNat (endian.number (← slice header 8 16)) }
    if vers ≠ metadata_version then
      .ok (.mismatch vers)
    else if metadata < metadata_len ∨ event_len < metadata ∨ buf.len - pos < event_len then
      .ok .refused
    else if mask.q_overflow then
      .ok (.overflow (← add w pos event_len))
    else
      let info ← slice buf.bytes (← add w pos metadata) (← add w pos event_len)
      match ← decode_info w endian mask info with
      | none => .ok .refused
      | some e => .ok (.event e (← add w pos event_len))

/-! ### What stands in the buffer -/

section Standing

variable (endian : Endian) (bytes : List UInt8) (pos : Nat)

def event_len_at : Nat := endian.number (window bytes pos 4)

def header_len_at : Nat := endian.number (window bytes (pos + 6) 2)

def mask_at : FanMask := { bits := UInt64.ofNat (endian.number (window bytes (pos + 8) 8)) }

/-- The info records of the event, between its header and its end. -/
def infos_at : List UInt8 :=
  window bytes (pos + header_len_at endian bytes pos)
    (event_len_at endian bytes pos - header_len_at endian bytes pos)

/-- A header of the known version, whose lengths stay inside the buffer. -/
structure Headed (next : Nat) : Prop where
  fits : pos + metadata_len ≤ bytes.length
  vers : bytes[pos + 4]? = some metadata_version
  header : metadata_len ≤ header_len_at endian bytes pos
  event : header_len_at endian bytes pos ≤ event_len_at endian bytes pos
  next_eq : next = pos + event_len_at endian bytes pos
  inside : next ≤ bytes.length

end Standing

/-- A header of another version. -/
structure Mismatched (bytes : List UInt8) (pos : Nat) (found : UInt8) : Prop where
  fits : pos + metadata_len ≤ bytes.length
  vers : bytes[pos + 4]? = some found
  foreign : found ≠ metadata_version

/-- One stride over a well-formed event, or over a marker of an overflow. -/
inductive Stride (endian : Endian) (bytes : List UInt8) :
    Nat → Option RawFanotifyEvent → Nat → Prop where
  | overflow {pos next : Nat} (h : Headed endian bytes pos next)
      (hm : (mask_at endian bytes pos).q_overflow = true) : Stride endian bytes pos none next
  | event {pos next : Nat} {infos : List Info} {e : RawFanotifyEvent}
      (h : Headed endian bytes pos next) (hm : (mask_at endian bytes pos).q_overflow = false)
      (hf : ∀ i ∈ infos, Info.Fits endian i) (hr : infos_at endian bytes pos = region endian infos)
      (he : (gather infos).event (mask_at endian bytes pos) = some e) :
      Stride endian bytes pos (some e) next

theorem Stride.headed {bytes : List UInt8} {pos next : Nat} {r : Option RawFanotifyEvent}
    (h : Stride endian bytes pos r next) : Headed endian bytes pos next := by
  cases h with
  | overflow h => exact h
  | event h => exact h

/-- A region of records says one thing. -/
theorem gather_unique {infos infos' : List Info} (mask : FanMask)
    (hf : ∀ i ∈ infos, Info.Fits endian i) (hf' : ∀ i ∈ infos', Info.Fits endian i)
    (h : region endian infos = region endian infos') :
    (gather infos).event mask = (gather infos').event mask := by
  have hd := decode_info_region (w := .w64) mask infos hf
  rw [h, decode_info_region mask infos' hf'] at hd
  exact (Except.ok.inj hd).symm

theorem functional (endian : Endian) (bytes : List UInt8) :
    Walk.Functional (Stride endian bytes) := by
  intro p r r' q q' h h'
  have hq : q = q' := by rw [h.headed.next_eq, h'.headed.next_eq]
  refine ⟨?_, hq⟩
  cases h with
  | overflow _ hm =>
    cases h' with
    | overflow => rfl
    | event _ hm' =>
      rw [hm] at hm'
      cases hm'
  | event _ hm hf hr he =>
    cases h' with
    | overflow _ hm' =>
      rw [hm] at hm'
      cases hm'
    | event _ _ hf' hr' he' =>
      rw [← he, ← he']
      exact gather_unique _ hf hf' (hr.symm.trans hr')

/-- Nothing stands where the buffer has no room for a header. -/
theorem stuck_short {bytes : List UInt8} {pos : Nat} (h : bytes.length < pos + metadata_len) :
    Walk.Stuck (Stride endian bytes) pos := by
  intro r q hs
  have hf := hs.headed.fits
  omega

/-- Nothing stands at a header of another version. -/
theorem Mismatched.stuck {bytes : List UInt8} {pos : Nat} {found : UInt8}
    (h : Mismatched bytes pos found) : Walk.Stuck (Stride endian bytes) pos := by
  intro r q hs
  have hv := hs.headed.vers
  rw [h.vers] at hv
  cases hv
  exact h.foreign rfl

/-! ### One turn of the loop -/

/-- What a turn of the loop answers, said of what stands at its position. -/
def Meets (endian : Endian) (bytes : List UInt8) (pos : Nat) : Visit → Prop
  | .refused => Walk.Stuck (Stride endian bytes) pos ∧ ∀ found, ¬ Mismatched bytes pos found
  | .mismatch found => Mismatched bytes pos found
  | .overflow next => Stride endian bytes pos none next
  | .event e next => Stride endian bytes pos (some e) next

theorem visit_meets (endian : Endian) (buf : Slice w) (pos : Nat) (hpos : pos < buf.len) :
    ∃ v, visit endian buf pos = .ok v ∧ Meets endian buf.bytes pos v := by
  have hw := buf.len_lt
  have hlim := limit_ge w
  have hlen : buf.len = buf.bytes.length := rfl
  unfold visit metadata_len
  rw [add_ok (by omega)]
  simp only [bind, Except.bind]
  by_cases h24 : pos + 24 ≤ buf.bytes.length
  swap
  · rw [get_none (by omega)]
    refine ⟨.refused, rfl, stuck_short (by unfold metadata_len; omega), ?_⟩
    intro found h
    exact h24 h.fits
  have hhead : (window buf.bytes pos 24).length = 24 := length_window h24
  have hevent : window (window buf.bytes pos 24) 0 4 = window buf.bytes pos 4 :=
    window_window (by omega)
  have hmeta : window (window buf.bytes pos 24) 6 2 = window buf.bytes (pos + 6) 2 :=
    window_window (by omega)
  have hmask : window (window buf.bytes pos 24) 8 8 = window buf.bytes (pos + 8) 8 :=
    window_window (by omega)
  have h4 : pos + 4 < buf.bytes.length := by omega
  have hvers : index (window buf.bytes pos 24) 4 = .ok buf.bytes[pos + 4] := by
    rw [index_ok (by omega)]
    simp [window]
  have hget : buf.bytes[pos + 4]? = some buf.bytes[pos + 4] :=
    List.getElem?_eq_getElem _
  rw [get_some (by omega) h24, Nat.add_sub_cancel_left]
  dsimp only
  rw [slice_ok (by omega) (by omega), hvers, slice_ok (by omega) (by omega),
    slice_ok (by omega) (by omega)]
  simp only [Nat.sub_zero, Nat.reduceSub, hevent, hmeta, hmask]
  rw [← event_len_at, ← header_len_at, ← mask_at]
  by_cases hv : buf.bytes[pos + 4] ≠ metadata_version
  · exact ⟨.mismatch _, if_pos hv, h24, hget, hv⟩
  rw [if_neg hv]
  rw [not_not.mp hv] at hget
  have hmis : ∀ found, ¬ Mismatched buf.bytes pos found := by
    intro found h
    have hf := h.vers
    rw [hget] at hf
    cases hf
    exact h.foreign rfl
  by_cases hb : header_len_at endian buf.bytes pos < 24 ∨
      event_len_at endian buf.bytes pos < header_len_at endian buf.bytes pos ∨
      buf.len - pos < event_len_at endian buf.bytes pos
  · refine ⟨.refused, if_pos hb, ?_, hmis⟩
    intro r q hs
    have hh := hs.headed
    have h₁ := hh.header
    have h₂ := hh.event
    have h₃ := hh.next_eq
    have h₄ := hh.inside
    unfold metadata_len at h₁
    omega
  have hhead : Headed endian buf.bytes pos (pos + event_len_at endian buf.bytes pos) := by
    refine ⟨h24, hget, ?_, by omega, rfl, by omega⟩
    unfold metadata_len
    omega
  rw [if_neg hb, add_ok (show pos + event_len_at endian buf.bytes pos < w.limit by omega)]
  dsimp only
  cases hq : (mask_at endian buf.bytes pos).q_overflow with
  | true => exact ⟨.overflow _, rfl, .overflow hhead hq⟩
  | false =>
    have hcut : pos + event_len_at endian buf.bytes pos - (pos + header_len_at endian buf.bytes pos) =
        event_len_at endian buf.bytes pos - header_len_at endian buf.bytes pos := by omega
    have hil : (infos_at endian buf.bytes pos).length < w.limit := by
      have hle : (infos_at endian buf.bytes pos).length ≤ _ := length_window_le
      omega
    rw [if_neg Bool.false_ne_true, add_ok (by omega)]
    dsimp only
    rw [slice_ok (by omega) (by omega), hcut, ← infos_at]
    dsimp only
    rcases decode_info_spec endian (mask_at endian buf.bytes pos) _ hil with ⟨infos, hf, hr⟩ | hnone
    · rw [hr, decode_info_region _ _ hf]
      cases he : (gather infos).event (mask_at endian buf.bytes pos) with
      | some e => exact ⟨.event e _, rfl, .event hhead hq hf hr he⟩
      | none =>
        refine ⟨.refused, rfl, ?_, hmis⟩
        intro r q hs
        cases hs with
        | overflow _ hm =>
          rw [hq] at hm
          cases hm
        | event _ _ hf' hr' he' =>
          rw [gather_unique _ hf' hf (hr'.symm.trans hr), he] at he'
          cases he'
    · rw [hnone]
      refine ⟨.refused, rfl, ?_, hmis⟩
      intro r q hs
      cases hs with
      | overflow _ hm =>
        rw [hq] at hm
        cases hm
      | event _ _ hf' hr' he' =>
        rw [hr', decode_info_region _ _ hf', he'] at hnone
        cases hnone

/-- A stride leads on, and stays inside the buffer. -/
theorem Stride.pos_lt {bytes : List UInt8} {pos next : Nat} {r : Option RawFanotifyEvent}
    (h : Stride endian bytes pos r next) : pos < next ∧ next ≤ bytes.length := by
  have hh := h.headed
  have h₁ := hh.header
  have h₂ := hh.event
  have h₃ := hh.next_eq
  unfold metadata_len at h₁
  exact ⟨by omega, hh.inside⟩

theorem visit_next {buf : Slice w} {pos next : Nat} {v : Visit} (hpos : pos < buf.len)
    (h : visit endian buf pos = .ok v) (hv : v = .overflow next ∨ ∃ e, v = .event e next) :
    pos < next ∧ next ≤ buf.len := by
  obtain ⟨v', hv', hm⟩ := visit_meets endian buf pos hpos
  rw [h] at hv'
  cases hv'
  rcases hv with rfl | ⟨e, rfl⟩
  · exact Stride.pos_lt hm
  · exact Stride.pos_lt hm

/-- The loop of `decode_events`, behind the events it has pushed. -/
def decode_from (endian : Endian) (buf : Slice w) (events : List RawFanotifyEvent) (lossy : Bool)
    (pos : Nat) : Except Fault (Except AbiMismatch DecodeOutcome) :=
  if _hpos : pos < buf.len then
    match _h : visit endian buf pos with
    | .error e => .error e
    | .ok .refused => .ok (.ok { events, lossy := true })
    | .ok (.mismatch found) => .ok (.error { found })
    | .ok (.overflow next) => decode_from endian buf events true next
    | .ok (.event e next) => decode_from endian buf (events ++ [e]) lossy next
  else
    .ok (.ok { events, lossy })
termination_by buf.len - pos
decreasing_by
  · have hlt := visit_next _hpos _h (.inl rfl)
    omega
  · have hlt := visit_next _hpos _h (.inr ⟨e, rfl⟩)
    omega

def decode_events (endian : Endian) (buf : Slice w) :
    Except Fault (Except AbiMismatch DecodeOutcome) :=
  decode_from endian buf [] false 0

/-- One turn of the loop, without the proof that it ends. -/
theorem decode_from_eq (buf : Slice w) (events : List RawFanotifyEvent) (lossy : Bool) (pos : Nat)
    (hpos : pos < buf.len) : decode_from endian buf events lossy pos =
      match visit endian buf pos with
      | .error e => .error e
      | .ok .refused => .ok (.ok { events, lossy := true })
      | .ok (.mismatch found) => .ok (.error { found })
      | .ok (.overflow next) => decode_from endian buf events true next
      | .ok (.event e next) => decode_from endian buf (events ++ [e]) lossy next := by
  rw [decode_from, dif_pos hpos]
  split <;> rename_i h <;> rw [h]

/-- Whether a walk lost something: it passed a marker, or stopped early. -/
def lost (bytes : List UInt8) (items : List (Option RawFanotifyEvent)) (stop : Nat) : Bool :=
  items.any Option.isNone || stop != bytes.length

/-- What the loop answers at the end of a chain: a verdict on the descriptor where
    a header of another version stands, and the events elsewhere. -/
def Ends (bytes : List UInt8) (stop : Nat) (out : DecodeOutcome) :
    Except AbiMismatch DecodeOutcome → Prop
  | .error m => Mismatched bytes stop m.found
  | .ok out' => out' = out ∧ ∀ found, ¬ Mismatched bytes stop found

/-- The events of the chain from a position on are pushed behind the others. -/
theorem decode_from_chain (endian : Endian) (buf : Slice w) (events : List RawFanotifyEvent) (lossy : Bool)
    (pos : Nat) (hle : pos ≤ buf.len) : ∃ items stop res,
      Walk.Chain (Stride endian buf.bytes) pos items stop ∧
      Walk.Stuck (Stride endian buf.bytes) stop ∧
      decode_from endian buf events lossy pos = .ok res ∧
      Ends buf.bytes stop
        { events := events ++ items.reduceOption, lossy := lossy || lost buf.bytes items stop }
        res := by
  induction events, lossy, pos using decode_from.induct endian buf with
  | case1 events lossy pos hpos e h =>
    obtain ⟨v, hv, -⟩ := visit_meets endian buf pos hpos
    rw [h] at hv
    cases hv
  | case2 events lossy pos hpos h =>
    obtain ⟨v, hv, hm⟩ := visit_meets endian buf pos hpos
    rw [h] at hv
    cases hv
    have hne : (pos != buf.bytes.length) = true := bne_iff_ne.mpr (Nat.ne_of_lt hpos)
    refine ⟨[], pos, .ok { events, lossy := true }, .nil _, hm.1, ?_, ?_, hm.2⟩
    · rw [decode_from_eq _ _ _ _ hpos, h]
    · simp [lost, hne]
  | case3 events lossy pos hpos found h =>
    obtain ⟨v, hv, hm⟩ := visit_meets endian buf pos hpos
    rw [h] at hv
    cases hv
    refine ⟨[], pos, .error { found }, .nil _, Mismatched.stuck hm, ?_, hm⟩
    rw [decode_from_eq _ _ _ _ hpos, h]
  | case4 events lossy pos hpos next h ih =>
    obtain ⟨v, hv, hm⟩ := visit_meets endian buf pos hpos
    rw [h] at hv
    cases hv
    obtain ⟨items, stop, res, hc, hs, hd, he⟩ := ih (visit_next hpos h (.inl rfl)).2
    refine ⟨none :: items, stop, res, .cons hm hc, hs, ?_, ?_⟩
    · rw [decode_from_eq _ _ _ _ hpos, h]
      exact hd
    · rw [List.reduceOption_cons_of_none]
      simpa [lost] using he
  | case5 events lossy pos hpos e next h ih =>
    obtain ⟨v, hv, hm⟩ := visit_meets endian buf pos hpos
    rw [h] at hv
    cases hv
    obtain ⟨items, stop, res, hc, hs, hd, he⟩ := ih (visit_next hpos h (.inr ⟨e, rfl⟩)).2
    refine ⟨some e :: items, stop, res, .cons hm hc, hs, ?_, ?_⟩
    · rw [decode_from_eq _ _ _ _ hpos, h]
      exact hd
    · rw [List.reduceOption_cons_of_some]
      simpa [lost] using he
  | case6 events lossy pos hpos =>
    have he : pos = buf.bytes.length := Nat.le_antisymm hle (Nat.le_of_not_lt hpos)
    refine ⟨[], pos, .ok { events, lossy }, .nil _,
      stuck_short (by unfold metadata_len; omega), ?_, ?_, ?_⟩
    · rw [decode_from, dif_neg hpos]
    · simp [lost, he]
    · intro found h
      have hf := h.fits
      unfold metadata_len at hf
      omega

/-! ### Events as the kernel writes them -/

/-- An event: its header, which may be longer than the fixed one, and its records. -/
structure Event where
  reserved : UInt8
  mask : FanMask
  descriptors : Vector UInt8 8
  extra : List UInt8
  infos : List Info

namespace Event

def header_len (e : Event) : Nat := metadata_len + e.extra.length

def length (endian : Endian) (e : Event) : Nat := e.header_len + (region endian e.infos).length

def version (e : Event) : List UInt8 := [metadata_version, e.reserved]

def wire (endian : Endian) (e : Event) : List UInt8 :=
  endian.bytes 4 (e.length endian) ++ (e.version ++
    (endian.bytes 2 e.header_len ++ (endian.bytes 8 e.mask.bits.toNat ++
      (e.descriptors.toList ++ (e.extra ++ region endian e.infos)))))

/-- The lengths fit their fields. -/
structure Fits (endian : Endian) (e : Event) : Prop where
  header : e.header_len < 2 ^ 16
  length : e.length endian < 2 ^ 32
  infos : ∀ i ∈ e.infos, Info.Fits endian i

end Event

def encode (endian : Endian) (es : List Event) : List UInt8 := es.flatMap (Event.wire endian)

@[simp] theorem length_version (e : Event) : e.version.length = 2 := by simp [Event.version]

theorem length_wire (endian : Endian) (e : Event) : (e.wire endian).length = e.length endian := by
  simp only [Event.wire, Event.length, Event.header_len, metadata_len, List.length_append,
    length_bytes, length_version, Vector.length_toList]
  omega

section Reading

variable {e : Event} {bytes : List UInt8} {pos : Nat}

/-- A number of the header is read back where the event's bytes stand. -/
theorem number_written {k n v : Nat} (h : window bytes pos (e.wire endian).length = e.wire endian)
    (hk : k + n ≤ 24) (hf : window (e.wire endian) k n = endian.bytes n v) (hv : v < 256 ^ n) :
    endian.number (window bytes (pos + k) n) = v := by
  have hlen := length_wire endian e
  unfold Event.length Event.header_len metadata_len at hlen
  rw [← window_window (m := (e.wire endian).length) (by omega), h, hf, number_bytes,
    Nat.mod_eq_of_lt hv]

theorem event_len_written (h : window bytes pos (e.wire endian).length = e.wire endian)
    (hf : e.Fits endian) : event_len_at endian bytes pos = e.length endian := by
  have hw : window (e.wire endian) 0 4 = endian.bytes 4 (e.length endian) := window_head (by simp)
  exact number_written (k := 0) h (by omega) hw hf.length

theorem header_len_written (h : window bytes pos (e.wire endian).length = e.wire endian)
    (hf : e.Fits endian) : header_len_at endian bytes pos = e.header_len := by
  have hw : window (e.wire endian) 6 2 = endian.bytes 2 e.header_len := by
    rw [Event.wire]
    simp (disch := simp) [window_append_right, window_head]
  exact number_written h (by omega) hw hf.header

theorem mask_written (h : window bytes pos (e.wire endian).length = e.wire endian) :
    mask_at endian bytes pos = e.mask := by
  have hw : window (e.wire endian) 8 8 = endian.bytes 8 e.mask.bits.toNat := by
    rw [Event.wire]
    simp (disch := simp) [window_append_right, window_head]
  rw [mask_at, number_written h (by omega) hw e.mask.bits.toNat_lt, UInt64.ofNat_toNat]

theorem infos_written (h : window bytes pos (e.wire endian).length = e.wire endian)
    (hf : e.Fits endian) : infos_at endian bytes pos = region endian e.infos := by
  have hlen := length_wire endian e
  have hl : e.length endian = e.header_len + (region endian e.infos).length := rfl
  have hh : e.header_len = 24 + e.extra.length := rfl
  have hcut : e.length endian - e.header_len = (region endian e.infos).length := by omega
  rw [infos_at, event_len_written h hf, header_len_written h hf, hcut,
    ← window_window (m := (e.wire endian).length) (by omega), h, Event.wire,
    window_append_right (by simp; omega), window_append_right (by simp; omega),
    window_append_right (by simp; omega), window_append_right (by simp; omega),
    window_append_right (by simp; omega), window_append_right (by simp; omega)]
  have hz : e.header_len - (endian.bytes 4 (e.length endian)).length - e.version.length -
      (endian.bytes 2 e.header_len).length - (endian.bytes 8 e.mask.bits.toNat).length -
      e.descriptors.toList.length - e.extra.length = 0 := by
    simp only [length_bytes, length_version, Vector.length_toList]
    omega
  rw [hz, window_self rfl]

/-- A written event has a header of the known version where its bytes stand. -/
theorem headed_written (h : window bytes pos (e.wire endian).length = e.wire endian)
    (hf : e.Fits endian) (hin : pos + e.length endian ≤ bytes.length) :
    Headed endian bytes pos (pos + e.length endian) := by
  have hlen := length_wire endian e
  have hl : e.length endian = e.header_len + (region endian e.infos).length := rfl
  have hh : e.header_len = 24 + e.extra.length := rfl
  have hvers : window bytes (pos + 4) 1 = [metadata_version] := by
    rw [← window_window (m := (e.wire endian).length) (by omega), h, Event.wire,
      window_append_right (by simp), window_append_left (by simp)]
    simp [window, Event.version]
  refine ⟨by unfold metadata_len; omega, ?_, ?_, ?_, ?_, hin⟩
  · rw [window_cons (by omega)] at hvers
    rw [List.getElem?_eq_getElem (by omega)]
    exact congrArg some (List.cons.inj hvers).1
  · rw [header_len_written h hf]
    unfold metadata_len
    omega
  · rw [header_len_written h hf, event_len_written h hf]
    omega
  · rw [event_len_written h hf]

/-- A written event is passed by the walk, with what its records say. -/
theorem stride_written {r : RawFanotifyEvent}
    (h : window bytes pos (e.wire endian).length = e.wire endian) (hf : e.Fits endian)
    (hin : pos + e.length endian ≤ bytes.length) (hm : e.mask.q_overflow = false)
    (he : (gather e.infos).event e.mask = some r) :
    Stride endian bytes pos (some r) (pos + e.length endian) := by
  have hmask := mask_written h
  refine .event (headed_written h hf hin) ?_ hf.infos (infos_written h hf) ?_
  · rw [hmask]
    exact hm
  · rw [hmask]
    exact he

/-- An event whose records say nothing stops the walk. -/
theorem stuck_written (h : window bytes pos (e.wire endian).length = e.wire endian)
    (hf : e.Fits endian) (hin : pos + e.length endian ≤ bytes.length)
    (hm : e.mask.q_overflow = false) (he : (gather e.infos).event e.mask = none) :
    Walk.Stuck (Stride endian bytes) pos ∧ ∀ found, ¬ Mismatched bytes pos found := by
  have hmask := mask_written h
  constructor
  · intro r q hs
    cases hs with
    | overflow _ hm' =>
      rw [hmask, hm] at hm'
      cases hm'
    | event _ _ hf' hr' he' =>
      rw [gather_unique _ hf' hf.infos (hr'.symm.trans (infos_written h hf)), hmask, he] at he'
      cases he'
  · intro found hx
    have hv := (headed_written h hf hin).vers
    rw [hx.vers] at hv
    cases hv
    exact hx.foreign rfl

end Reading

/-- Written events are walked one by one, wherever they begin and whatever follows. -/
theorem encode_chain (endian : Endian) (es : List (Event × RawFanotifyEvent))
    (hf : ∀ x ∈ es, x.1.Fits endian ∧ x.1.mask.q_overflow = false ∧
      (gather x.1.infos).event x.1.mask = some x.2) (front rest : List UInt8) :
    Walk.Chain (Stride endian (front ++ (encode endian (es.map Prod.fst) ++ rest))) front.length
      (es.map fun x => some x.2) (front ++ encode endian (es.map Prod.fst)).length := by
  induction es generalizing front with
  | nil =>
    simp only [encode, List.map_nil, List.flatMap_nil, List.append_nil]
    exact .nil _
  | cons x es ih =>
    obtain ⟨hfits, hm, he⟩ := hf x (List.mem_cons_self ..)
    have hlen := length_wire endian x.1
    have hcons : encode endian ((x :: es).map Prod.fst) =
        x.1.wire endian ++ encode endian (es.map Prod.fst) := by
      rw [List.map_cons, encode, List.flatMap_cons]
      rfl
    have hw : window (front ++ (encode endian ((x :: es).map Prod.fst) ++ rest)) front.length
        (x.1.wire endian).length = x.1.wire endian := by
      rw [window_append_right (Nat.le_refl _), Nat.sub_self, hcons, List.append_assoc,
        window_head rfl]
    have hs := stride_written hw hfits (by
      rw [hcons]
      simp only [List.length_append]
      omega) hm he
    have htail := ih (fun y hy => hf y (List.mem_cons_of_mem _ hy)) (front ++ x.1.wire endian)
    have hassoc : front ++ x.1.wire endian ++ (encode endian (es.map Prod.fst) ++ rest) =
        front ++ (encode endian ((x :: es).map Prod.fst) ++ rest) := by
      rw [hcons]
      simp only [List.append_assoc]
    rw [hassoc, List.append_assoc, ← hcons, List.length_append, hlen] at htail
    exact .cons hs htail

end Fanotify
