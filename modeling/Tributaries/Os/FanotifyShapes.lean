import Tributaries.Os.FanotifyEvents

/-! # The shapes of event that the kernel reports

  A directory entry, an object's own event in its three spellings, and a
  rename.  An event of one of these shapes is read back as what it reports;
  a rename that lacks a half, or a half's name, stops the decoder.
-/

namespace Fanotify

open Machine Bytes

variable {w : Width} {endian : Endian}

/-- What an event reports. -/
inductive Shape where
  | dirent (dir : Handle) (name : List UInt8) (target : Option Handle)
  | self_dir (subject : Handle)
  | self_object (subject : Handle)
  | self_named (subject : Handle)
  | rename (old_dir : Handle) (old_name : List UInt8) (new_dir : Handle) (new_name : List UInt8)
      (target : Option Handle)

/-- The name of the directory that is addressed itself. -/
def self_name : List UInt8 := [0x2E]

/-- A record that names an object: its kind, the object, and what stands behind it. -/
abbrev Said := Tag × Handle × List UInt8

/-- The records of an event that name an object, in order. -/
def said (infos : List Info) : List Said :=
  infos.filterMap fun
    | .object tag _ handle after => some (tag, handle, after)
    | .other .. => none

/-- A name with any number of NUL bytes behind it. -/
def Padded (name after : List UInt8) : Prop := ∃ n, after = name ++ List.replicate n 0

/-- A name that a directory entry can have. -/
structure Proper (name : List UInt8) : Prop where
  nul_free : 0 ∉ name
  ne_nil : name ≠ []
  ne_self : name ≠ self_name

/-- The records say the shape; behind an unnamed object anything may stand. -/
def Shape.Carried (records : List Said) : Shape → Prop
  | .dirent dir name none => ∃ a, Padded name a ∧ records = [(.dfid_name, dir, a)]
  | .dirent dir name (some target) => ∃ a b, Padded name a ∧
      records = [(.dfid_name, dir, a), (.fid, target, b)]
  | .self_dir subject => ∃ a, records = [(.dfid, subject, a)]
  | .self_object subject => ∃ a, records = [(.fid, subject, a)]
  | .self_named subject => ∃ a, Padded self_name a ∧ records = [(.dfid_name, subject, a)]
  | .rename old_dir old_name new_dir new_name none => ∃ a b, Padded old_name a ∧
      Padded new_name b ∧ records = [(.old_dfid_name, old_dir, a), (.new_dfid_name, new_dir, b)]
  | .rename old_dir old_name new_dir new_name (some target) => ∃ a b c, Padded old_name a ∧
      Padded new_name b ∧
      records = [(.old_dfid_name, old_dir, a), (.new_dfid_name, new_dir, b), (.fid, target, c)]

/-- The names of a shape are those of directory entries. -/
def Shape.Named : Shape → Prop
  | .dirent _ name _ => Proper name
  | .rename _ old_name _ new_name _ => Proper old_name ∧ Proper new_name
  | _ => True

def Shape.is_rename : Shape → Bool
  | .rename .. => true
  | _ => false

/-- The event that a reader should see. -/
def Shape.event (mask : FanMask) : Shape → RawFanotifyEvent
  | .dirent dir name target =>
    { mask, dir_fid := some dir.fid, target_fid := target.map Handle.fid, name := some name
      rename := none }
  | .self_dir subject =>
    { mask, dir_fid := some subject.fid, target_fid := none, name := none, rename := none }
  | .self_object subject =>
    { mask, dir_fid := none, target_fid := some subject.fid, name := none, rename := none }
  | .self_named subject =>
    { mask, dir_fid := some subject.fid, target_fid := none, name := none, rename := none }
  | .rename old_dir old_name new_dir new_name target =>
    { mask, dir_fid := none, target_fid := target.map Handle.fid, name := none
      rename := some { old_dir := old_dir.fid, old_name, new_dir := new_dir.fid, new_name } }

/-- A written event of a shape: its mask is no overflow's, and a rename's exactly
    where the shape is one. -/
structure Reported (endian : Endian) (e : Event) (s : Shape) : Prop where
  fits : e.Fits endian
  carried : s.Carried (said e.infos)
  named : s.Named
  overflow : e.mask.q_overflow = false
  rename : e.mask.rename = s.is_rename

/-! ### Names -/

theorem takeWhile_padded {name after : List UInt8} (hn : 0 ∉ name) (h : Padded name after) :
    after.takeWhile (· ≠ 0) = name := by
  obtain ⟨n, rfl⟩ := h
  induction name with
  | nil => cases n <;> simp [List.replicate_succ]
  | cons b name ih =>
    have hb : b ≠ 0 := fun h => hn (h ▸ List.mem_cons_self ..)
    rw [List.cons_append, List.takeWhile_cons_of_pos (by simpa using hb),
      ih (fun h => hn (List.mem_cons_of_mem _ h))]

/-- A padded name of a directory entry is read back without its padding. -/
theorem name_of_padded {name after : List UInt8} (hp : Proper name) (h : Padded name after) :
    name_of after = some name := by
  have ht := takeWhile_padded hp.nul_free h
  unfold name_of
  rw [ht]
  split
  · exact absurd rfl hp.ne_nil
  · exact absurd rfl hp.ne_self
  · rfl

/-- The self-name is read as none. -/
theorem name_of_self {after : List UInt8} (h : Padded self_name after) : name_of after = none := by
  have ht := takeWhile_padded (by decide) h
  unfold name_of
  rw [ht]
  rfl

/-- What a record that names an object is gathered as. -/
def Gathered.hear (g : Gathered) (r : Said) : Gathered :=
  g.note { fid := r.2.1.fid, name := if r.1.has_name then name_of r.2.2 else none } r.1

/-- Only the records that name an object are gathered. -/
theorem foldl_add (g : Gathered) (infos : List Info) :
    infos.foldl Gathered.add g = (said infos).foldl Gathered.hear g := by
  induction infos generalizing g with
  | nil => rfl
  | cons i infos ih =>
    cases i with
    | object tag pad handle after => exact ih _
    | other info_type pad payload => exact ih _

theorem gather_eq (infos : List Info) : gather infos = (said infos).foldl Gathered.hear .start :=
  foldl_add .start infos

/-! ### Shapes -/

/-- An event of a shape says what the shape reports. -/
theorem Reported.event {e : Event} {s : Shape} (h : Reported endian e s) :
    (gather e.infos).event e.mask = some (s.event e.mask) := by
  have hc := h.carried
  have hn := h.named
  have hr := h.rename
  rw [gather_eq]
  unfold Gathered.event
  cases s with
  | dirent dir name target =>
    cases target with
    | none =>
      obtain ⟨a, ha, hs⟩ := hc
      rw [hr, hs]
      simp [Gathered.hear, Gathered.note, Gathered.start, Tag.has_name, name_of_padded hn ha,
        Shape.is_rename, Shape.event]
    | some target =>
      obtain ⟨a, b, ha, hs⟩ := hc
      rw [hr, hs]
      simp [Gathered.hear, Gathered.note, Gathered.start, Tag.has_name, name_of_padded hn ha,
        Shape.is_rename, Shape.event]
  | self_dir subject =>
    obtain ⟨a, hs⟩ := hc
    rw [hr, hs]
    rfl
  | self_object subject =>
    obtain ⟨a, hs⟩ := hc
    rw [hr, hs]
    rfl
  | self_named subject =>
    obtain ⟨a, ha, hs⟩ := hc
    rw [hr, hs]
    simp [Gathered.hear, Gathered.note, Gathered.start, Tag.has_name, name_of_self ha,
      Shape.is_rename, Shape.event]
  | rename old_dir old_name new_dir new_name target =>
    cases target with
    | none =>
      obtain ⟨a, b, ha, hb, hs⟩ := hc
      rw [hr, hs]
      simp [Gathered.hear, Gathered.note, Gathered.start, Tag.has_name, name_of_padded hn.1 ha,
        name_of_padded hn.2 hb, Shape.is_rename, Shape.event]
    | some target =>
      obtain ⟨a, b, c, ha, hb, hs⟩ := hc
      rw [hr, hs]
      simp [Gathered.hear, Gathered.note, Gathered.start, Tag.has_name, name_of_padded hn.1 ha,
        name_of_padded hn.2 hb, Shape.is_rename, Shape.event]

/-- No record of a kind carries a name: none is there, or each is empty or the
    self-name. -/
def Nameless (tag : Tag) (infos : List Info) : Prop :=
  ∀ handle after, (tag, handle, after) ∈ said infos → name_of after = none

/-- A half that no record names is not gathered with a name. -/
theorem foldl_hear_old (records : List Said) (g : Gathered)
    (h : ∀ handle after, (.old_dfid_name, handle, after) ∈ records → name_of after = none)
    (hg : ∀ fid name, g.rename_old ≠ some (fid, some name)) :
    ∀ fid name, (records.foldl Gathered.hear g).rename_old ≠ some (fid, some name) := by
  induction records generalizing g with
  | nil => exact hg
  | cons r records ih =>
    apply ih (g.hear r) (fun handle after hr => h handle after (List.mem_cons_of_mem _ hr))
    obtain ⟨tag, handle, after⟩ := r
    intro fid name
    cases tag with
    | old_dfid_name =>
      have hnone := h handle after (List.mem_cons_self ..)
      simp [Gathered.hear, Gathered.note, Tag.has_name, hnone]
    | _ => exact hg fid name

theorem foldl_hear_new (records : List Said) (g : Gathered)
    (h : ∀ handle after, (.new_dfid_name, handle, after) ∈ records → name_of after = none)
    (hg : ∀ fid name, g.rename_new ≠ some (fid, some name)) :
    ∀ fid name, (records.foldl Gathered.hear g).rename_new ≠ some (fid, some name) := by
  induction records generalizing g with
  | nil => exact hg
  | cons r records ih =>
    apply ih (g.hear r) (fun handle after hr => h handle after (List.mem_cons_of_mem _ hr))
    obtain ⟨tag, handle, after⟩ := r
    intro fid name
    cases tag with
    | new_dfid_name =>
      have hnone := h handle after (List.mem_cons_self ..)
      simp [Gathered.hear, Gathered.note, Tag.has_name, hnone]
    | _ => exact hg fid name

/-- A rename whose half is missing or nameless is no event. -/
theorem event_nameless {infos : List Info} {mask : FanMask} (hm : mask.rename = true)
    (h : Nameless .old_dfid_name infos ∨ Nameless .new_dfid_name infos) :
    (gather infos).event mask = none := by
  rw [gather_eq, Gathered.event, if_pos hm]
  split
  · rename_i old_dir old_name new_dir new_name ho hn
    rcases h with h | h
    · exact absurd ho (foldl_hear_old _ _ h (by simp [Gathered.start]) _ _)
    · exact absurd hn (foldl_hear_new _ _ h (by simp [Gathered.start]) _ _)
  · rfl

/-! ### The decoder -/

/-- What the decoder's answer says of the buffer's bytes: an error is a header of
    another version that the walk reached, and otherwise the events are those of
    the longest chain, with a loss exactly where an overflow's marker was passed
    or the walk stopped early. -/
def Exact (endian : Endian) (bytes : List UInt8) : Except AbiMismatch DecodeOutcome → Prop
  | .error m => ∃ items stop, Walk.Chain (Stride endian bytes) 0 items stop ∧
      Mismatched bytes stop m.found
  | .ok out => ∃ items stop, Walk.Chain (Stride endian bytes) 0 items stop ∧
      Walk.Stuck (Stride endian bytes) stop ∧ (∀ found, ¬ Mismatched bytes stop found) ∧
      (∀ items' stop', Walk.Chain (Stride endian bytes) 0 items' stop' → items' <+: items) ∧
      out.events = items.reduceOption ∧
      (out.lossy = true ↔ none ∈ items ∨ stop ≠ bytes.length)

/-- A chain from the front to a stuck end that is no foreign header is the answer. -/
theorem decode_events_chain (buf : Slice w) {items : List (Option RawFanotifyEvent)} {stop : Nat}
    (hc : Walk.Chain (Stride endian buf.bytes) 0 items stop)
    (hs : Walk.Stuck (Stride endian buf.bytes) stop) (hm : ∀ found, ¬ Mismatched buf.bytes stop found) :
    decode_events endian buf =
      .ok (.ok { events := items.reduceOption, lossy := lost buf.bytes items stop }) := by
  obtain ⟨items', stop', res, hc', hs', hd, he⟩ :=
    decode_from_chain endian buf [] false 0 (Nat.zero_le _)
  obtain ⟨rfl, rfl⟩ := hc.unique (functional endian buf.bytes) hs hc' hs'
  rw [decode_events, hd]
  cases res with
  | error m => exact absurd he (hm m.found)
  | ok out =>
    rw [he.1]
    simp

/-- The chain of written events of the kernel's shapes. -/
theorem reported_chain (es : List (Event × Shape)) (h : ∀ x ∈ es, Reported endian x.1 x.2)
    (rest : List UInt8) :
    Walk.Chain (Stride endian (encode endian (es.map Prod.fst) ++ rest)) 0
      (es.map fun x => some (x.2.event x.1.mask)) (encode endian (es.map Prod.fst)).length := by
  have hc := encode_chain endian (es.map fun x => (x.1, x.2.event x.1.mask)) (by
    intro y hy
    obtain ⟨x, hx, rfl⟩ := List.mem_map.mp hy
    exact ⟨(h x hx).fits, (h x hx).overflow, (h x hx).event⟩) [] rest
  simpa [List.map_map, Function.comp_def] using hc

theorem reduceOption_map_some {α β : Type} (f : α → β) (xs : List α) :
    (xs.map fun x => some (f x)).reduceOption = xs.map f := by
  induction xs with
  | nil => rfl
  | cons x xs ih =>
    rw [List.map_cons, List.reduceOption_cons_of_some, ih, List.map_cons]

/-- The decoder stops at no fault, on either width and in either byte order, and
    answers what stands in the buffer.  Events of the kernel's shapes are read back
    as what they report, and a rename without a named half ends the walk in a loss. -/
theorem decode_events_exact (w : Width) (endian : Endian) (buf : Slice w) :
    (∃ res, decode_events endian buf = .ok res ∧ Exact endian buf.bytes res) ∧
      (∀ es : List (Event × Shape), (∀ x ∈ es, Reported endian x.1 x.2) →
        buf.bytes = encode endian (es.map Prod.fst) →
        decode_events endian buf =
          .ok (.ok { events := es.map fun x => x.2.event x.1.mask, lossy := false })) ∧
      ∀ (es : List (Event × Shape)) (bad : Event) (rest : List UInt8),
        (∀ x ∈ es, Reported endian x.1 x.2) → bad.Fits endian → bad.mask.q_overflow = false →
        bad.mask.rename = true →
        Nameless .old_dfid_name bad.infos ∨ Nameless .new_dfid_name bad.infos →
        buf.bytes = encode endian (es.map Prod.fst) ++ (bad.wire endian ++ rest) →
        decode_events endian buf =
          .ok (.ok { events := es.map fun x => x.2.event x.1.mask, lossy := true }) := by
  refine ⟨?_, ?_, ?_⟩
  · obtain ⟨items, stop, res, hc, hs, hd, he⟩ :=
      decode_from_chain endian buf [] false 0 (Nat.zero_le _)
    refine ⟨res, hd, ?_⟩
    cases res with
    | error m => exact ⟨items, stop, hc, he⟩
    | ok out =>
      obtain ⟨rfl, hm⟩ := he
      exact ⟨items, stop, hc, hs, hm,
        fun items' stop' h' => hc.extends (functional endian buf.bytes) hs h', by simp,
        by simp [lost]⟩
  · intro es h hb
    have hc := reported_chain es h []
    rw [List.append_nil, ← hb] at hc
    have hs : Walk.Stuck (Stride endian buf.bytes) buf.bytes.length :=
      stuck_short (by unfold metadata_len; omega)
    rw [decode_events_chain buf hc hs, reduceOption_map_some]
    · simp [lost]
    · intro found hx
      have hf := hx.fits
      unfold metadata_len at hf
      omega
  · intro es bad rest h hfits hm hr hnone hb
    have hc := reported_chain es h (bad.wire endian ++ rest)
    rw [← hb] at hc
    have hlen := length_wire endian bad
    have hall : buf.bytes.length = (encode endian (es.map Prod.fst)).length +
        (bad.length endian + rest.length) := by
      rw [hb, List.length_append, List.length_append, hlen]
    have hpos : 24 ≤ bad.length endian := by
      unfold Event.length Event.header_len metadata_len
      omega
    have hw : window buf.bytes (encode endian (es.map Prod.fst)).length
        (bad.wire endian).length = bad.wire endian := by
      rw [hb, window_append_right (Nat.le_refl _), Nat.sub_self, window_head rfl]
    obtain ⟨hs, hmis⟩ := stuck_written hw hfits (by omega) hm (event_nameless hr hnone)
    rw [decode_events_chain buf hc hs hmis, reduceOption_map_some]
    have hne : (encode endian (es.map Prod.fst)).length ≠ buf.bytes.length := by omega
    simp [lost, hne]

end Fanotify
