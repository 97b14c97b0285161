import Tributaries.Os.Dirscan

/-! # Directory pages as an enumeration writes them

  An enumeration writes a chain of entries, each linked to the next by a
  multiple of eight bytes.  A page reads back as the entries written, the
  entries named `.` and `..` apart.
-/

namespace Dirscan

open Machine Bytes
open Rdcw (Text padded)

/-- An entry as an enumeration holds it.  The times, the sizes, the extended attributes'
    size and the reparse tag are never read; `padding` is what stands behind the name. -/
structure Entry where
  name : List UInt16
  frn : BitVec 128
  attributes : UInt32
  stat : Vector UInt8 52
  tags : Vector UInt8 8
  padding : List UInt8

namespace Entry

variable (e : Entry)

/-- The fixed prefix, linked to a next entry `offset` bytes on. -/
def fixed (offset : Nat) : List UInt8 :=
  le 4 offset ++ (e.stat.toList ++ (le 4 e.attributes.toNat ++ (le 4 (2 * e.name.length) ++
    (e.tags.toList ++ le 16 e.frn.toNat))))

def bytes (offset : Nat) : List UInt8 := e.fixed offset ++ Utf16.bytes e.name

def size : Nat := header + 2 * e.name.length

/-- Where the next entry begins, counted from this one. -/
def stride : Nat := e.size + e.padding.length

/-- What the bytes of the entry say. -/
def record : DirRecord where
  units := e.name
  frn := e.frn
  attributes := e.attributes

/-- The child a reader should see; `.` and `..` are none. -/
def child : Option DirChild := e.record.child

/-- A name without U+0000, whose length fits its field. -/
structure Named : Prop where
  possible : 0 ∉ e.name
  fits : 2 * e.name.length < 2 ^ 32

/-- A link that fits its field, is aligned, and leaves no room for another entry. -/
structure Spaced : Prop where
  fits : e.stride < 2 ^ 32
  aligned : e.stride % 8 = 0
  gap : padded e.size ≤ e.stride ∧ e.stride < padded e.size + header

end Entry

/-- The page of a chain of entries; what stands behind the last name trails the page. -/
def encode : List Entry → List UInt8
  | [] => []
  | [e] => e.bytes 0 ++ e.padding
  | e :: e' :: es => e.bytes e.stride ++ (e.padding ++ encode (e' :: es))

/-- Every entry is named, and every entry but the last is spaced. -/
def Written : List Entry → Prop
  | [] => True
  | [e] => e.Named
  | e :: e' :: es => e.Named ∧ e.Spaced ∧ Written (e' :: es)

/-! ### Reading one entry back -/

variable {e : Entry} {offset : Nat}

@[simp] theorem length_fixed : (e.fixed offset).length = header := by
  simp [Entry.fixed, header]

@[simp] theorem length_bytes : (e.bytes offset).length = e.size := by
  rw [Entry.bytes, List.length_append, length_fixed, Utf16.length_bytes]
  rfl

/-- A field of the fixed prefix is read back where the entry's bytes stand. -/
theorem word_field {bytes : List UInt8} {pos k n v : Nat}
    (h : window bytes pos e.size = e.bytes offset) (hk : k + n ≤ header)
    (hf : window (e.fixed offset) k n = le n v) (hv : v < 256 ^ n) :
    word bytes (pos + k) n = v := by
  have hsize : header ≤ e.size := Nat.le_add_right _ _
  have hb : (e.bytes offset).length = e.size := length_bytes
  rw [← hb] at h hsize
  have hf' : window (e.bytes offset) k n = le n v := by
    rw [Entry.bytes, window_append_left (by simpa using hk), hf]
  rw [word_of_window h (by omega), word_eq hf' hv]

theorem fixed_offset : window (e.fixed offset) 0 4 = le 4 offset := by
  rw [Entry.fixed, window_head (by simp)]

theorem fixed_attributes : window (e.fixed offset) 56 4 = le 4 e.attributes.toNat := by
  rw [Entry.fixed]
  simp (disch := simp) [window_append_right, window_head]

theorem fixed_name_len : window (e.fixed offset) 60 4 = le 4 (2 * e.name.length) := by
  rw [Entry.fixed]
  simp (disch := simp) [window_append_right, window_head]

theorem fixed_frn : window (e.fixed offset) 72 16 = le 16 e.frn.toNat := by
  rw [Entry.fixed]
  simp (disch := simp) [window_append_right, window_self]

section Reading

variable {bytes : List UInt8} {pos : Nat}

theorem next_offset_written (h : window bytes pos e.size = e.bytes offset)
    (ho : offset < 2 ^ 32) : next_offset bytes pos = offset :=
  word_field h (by decide) fixed_offset ho

theorem name_len_written (h : window bytes pos e.size = e.bytes offset) (hn : e.Named) :
    name_len bytes pos = 2 * e.name.length :=
  word_field h (by decide) fixed_name_len hn.fits

theorem name_units_written (h : window bytes pos e.size = e.bytes offset) (hn : e.Named) :
    name_units bytes pos = e.name := by
  rw [name_units, name_len_written h hn, ← window_window (m := e.size) (Nat.le_refl _), h,
    Entry.bytes, window_append_right (by simp), length_fixed, Nat.sub_self,
    window_self (by simp), Utf16.of_bytes_bytes]

/-- A written entry is read back as the enumeration holds it. -/
theorem record_at_written (h : window bytes pos e.size = e.bytes offset) (hn : e.Named) :
    record_at bytes pos = e.record := by
  have ha : word bytes (pos + 56) 4 = e.attributes.toNat :=
    word_field h (by decide) fixed_attributes e.attributes.toNat_lt
  have hf : word bytes (pos + 72) 16 = e.frn.toNat :=
    word_field h (by decide) fixed_frn e.frn.isLt
  unfold record_at Entry.record
  rw [name_units_written h hn, ha, hf, UInt32.ofNat_toNat, BitVec.ofNat_toNat,
    BitVec.setWidth_eq]

theorem stands_written {stop : Nat} (h : window bytes pos e.size = e.bytes offset)
    (hn : e.Named) (hlen : pos + e.size ≤ bytes.length) (hstop : pos + e.size ≤ stop) :
    Stands bytes pos stop := by
  have hname := name_len_written h hn
  have hsize : e.size = header + 2 * e.name.length := rfl
  constructor
  · omega
  · omega
  · omega
  · rw [name_units_written h hn]
    exact hn.possible

end Reading

/-! ### Reading the chain back -/

theorem encode_ne_nil (es : List Entry) (h : es ≠ []) : 0 < (encode es).length := by
  match es with
  | [] => exact absurd rfl h
  | [e] =>
    simp only [encode, List.length_append, length_bytes, Entry.size, header]
    omega
  | e :: e' :: es =>
    simp only [encode, List.length_append, length_bytes, Entry.size, header]
    omega

/-- A written chain is walked entry by entry to its end, wherever it begins. -/
theorem encode_chain (es : List Entry) (hne : es ≠ []) (hw : Written es) (front : List UInt8) :
    Walk.Chain (Stride (front ++ encode es)) (some front.length) (es.map Entry.record) none := by
  induction es generalizing front with
  | nil => exact absurd rfl hne
  | cons e es ih =>
    have hsize : e.size = header + 2 * e.name.length := rfl
    have hstride : e.stride = e.size + e.padding.length := rfl
    cases es with
    | nil =>
      have hn : e.Named := hw
      have hwin : window (front ++ encode [e]) front.length e.size = e.bytes 0 := by
        rw [window_append_right (Nat.le_refl _), Nat.sub_self, encode, window_head (by simp)]
      have hlen : front.length + e.size ≤ (front ++ encode [e]).length := by
        simp only [encode, List.length_append, length_bytes]
        omega
      rw [List.map_cons, List.map_nil, ← record_at_written hwin hn]
      have hterm : Terminal (front ++ encode [e]) front.length :=
        ⟨stands_written hwin hn hlen (by omega), next_offset_written hwin (by omega)⟩
      exact .cons (.last hterm) (.nil _)
    | cons e' es =>
      obtain ⟨hn, hs, hrest⟩ := hw
      have hrest_ne := encode_ne_nil (e' :: es) (by simp)
      have hwin : window (front ++ encode (e :: e' :: es)) front.length e.size =
          e.bytes e.stride := by
        rw [window_append_right (Nat.le_refl _), Nat.sub_self, encode, window_head (by simp)]
      have hfront : front ++ encode (e :: e' :: es) =
          (front ++ (e.bytes e.stride ++ e.padding)) ++ encode (e' :: es) := by
        simp [encode]
      have hnext : (front ++ (e.bytes e.stride ++ e.padding)).length =
          front.length + e.stride := by
        simp only [List.length_append, length_bytes]
        omega
      have hlen : (front ++ encode (e :: e' :: es)).length =
          front.length + e.stride + (encode (e' :: es)).length := by
        rw [hfront, List.length_append, hnext]
      have hoff := next_offset_written hwin hs.fits
      have hext : extent (front ++ encode (e :: e' :: es)) front.length = padded e.size := by
        rw [extent, name_len_written hwin hn]
        rfl
      have hgap := hs.gap
      have h88 : header = 88 := rfl
      have hlink : Linked (front ++ encode (e :: e' :: es)) front.length
          (front.length + e.stride) := by
        refine ⟨stands_written hwin hn (by omega) (by omega), by omega, by omega, ?_,
          ⟨by omega, by omega⟩, by omega⟩
        rw [hoff]
        exact hs.aligned
      rw [List.map_cons, ← record_at_written hwin hn]
      apply Walk.Chain.cons (.linked hlink)
      have htail := ih (by simp) hrest (front ++ (e.bytes e.stride ++ e.padding))
      rw [hnext, ← hfront] at htail
      exact htail

/-! ### The decoder -/

/-- A clean page lists the child of every record of the one chain that tiles it. -/
structure Exact (bytes : List UInt8) (out : DecodedPage) : Prop where
  whole : out.lossy = false → ∃ rs, Walk.Chain (Stride bytes) (some 0) rs none ∧
    out.children = rs.filterMap DirRecord.child
  clean : ∀ rs, Walk.Chain (Stride bytes) (some 0) rs none → out.lossy = false

/-- A written page reads back as the children of its entries. -/
theorem decode_page_written {w : Width} {buf : Slice w} {es : List Entry} (hne : es ≠ [])
    (hw : Written es) (hb : buf.bytes = encode es) :
    decode_page buf = .ok { children := es.filterMap Entry.child, lossy := false } := by
  obtain ⟨rs, stop, pushed, hc, hs, hp, hd⟩ := decode_from_chain buf [] 0 (Nat.zero_le _)
  have h := encode_chain es hne hw []
  rw [List.nil_append, ← hb] at h
  obtain ⟨hr, ht⟩ := hc.unique (functional _) hs h (stuck_end _)
  have hpushed : pushed = es.filterMap Entry.child := by
    rw [hp.whole ht, hr, List.filterMap_map]
    rfl
  rw [decode_page, hd, hpushed, ht]
  rfl

/-- The decoder stops at no fault, on either width, and a page it calls clean lists
    every record that tiles it, `.` and `..` apart.  An enumeration's page is read back
    whole, and a name is missing exactly where no text spells it. -/
theorem decode_page_exact (w : Width) (buf : Slice w) :
    ∃ out, decode_page buf = .ok out ∧ Exact buf.bytes out ∧
      ∀ es : List Entry, es ≠ [] → Written es → buf.bytes = encode es →
        out = { children := es.filterMap Entry.child, lossy := false } ∧
        ∀ e ∈ es, ∀ c, e.child = some c →
          (c.name = none ↔ ∀ cs, e.name ≠ Utf16.encode cs) := by
  obtain ⟨rs, stop, pushed, hc, hs, hp, hd⟩ := decode_from_chain buf [] 0 (Nat.zero_le _)
  refine ⟨{ children := pushed, lossy := stop.isSome }, hd, ⟨?_, ?_⟩, ?_⟩
  · intro h
    have hn : stop = none := by simpa using h
    subst hn
    exact ⟨rs, hc, hp.whole rfl⟩
  · intro rs' h
    show stop.isSome = false
    rw [(hc.unique (functional _) hs h (stuck_end _)).2]
    rfl
  · intro es hne hw hb
    constructor
    · have h := decode_page_written hne hw hb
      rw [decode_page, hd] at h
      exact Except.ok.inj h
    · intro e _ c h
      rw [← Utf16.decode_none_iff]
      unfold Entry.child DirRecord.child child_of at h
      split_ifs at h
      cases h
      rfl

/-- An entry named `.` is written like any other and read back as no child, so a page
    does not read back as exactly the entries written. -/
theorem dot_is_skipped :
    ¬ ∀ (w : Width) (buf : Slice w) (es : List Entry), es ≠ [] → Written es →
      buf.bytes = encode es → ∃ out, decode_page buf = .ok out ∧ out.lossy = false ∧
        out.children = es.map fun e =>
          { name := Utf16.decode e.name, frn := e.frn, attributes := e.attributes } := by
  intro h
  let here : Entry :=
    { name := [dot], frn := 5, attributes := 16, stat := Vector.replicate 52 0
      tags := Vector.replicate 8 0, padding := [] }
  let page : Slice .w32 := { bytes := encode [here], fits := by decide +kernel }
  have hw : Written [here] := ⟨by decide, by decide⟩
  obtain ⟨out, hd, -, hc⟩ := h .w32 page [here] (by simp) hw rfl
  have hpage : page.bytes = encode [here] := rfl
  have hread := decode_page_written (by simp) hw hpage
  rw [hd] at hread
  cases hread
  exact absurd hc (by decide)

end Dirscan
