import Tributaries.Bytes

/-! # UTF-16

  A text as 16-bit units, and the strict decoder, which refuses every unit
  of the surrogate range that is not half of a pair.  The decoder answers a
  text exactly when the units are that text's encoding.
-/

namespace Utf16

/-- The units of one character: itself, or a pair of surrogates. -/
def units (c : Char) : List UInt16 :=
  if c.toNat < 0x10000 then
    [UInt16.ofNat c.toNat]
  else
    [UInt16.ofNat (0xD800 + (c.toNat - 0x10000) / 0x400),
      UInt16.ofNat (0xDC00 + (c.toNat - 0x10000) % 0x400)]

def encode (cs : List Char) : List UInt16 := cs.flatMap units

def is_surrogate (u : UInt16) : Bool := 0xD800 ≤ u.toNat && u.toNat ≤ 0xDFFF

def is_trailing (u : UInt16) : Bool := 0xDC00 ≤ u.toNat && u.toNat ≤ 0xDFFF

/-- The character of a leading and a trailing surrogate. -/
def pair (u v : UInt16) : Char :=
  Char.ofNat (0x10000 + (u.toNat - 0xD800) * 0x400 + (v.toNat - 0xDC00))

/-- The strict decoder: nothing for units with an unpaired surrogate. -/
def decode : List UInt16 → Option (List Char)
  | [] => some []
  | u :: us =>
    if is_surrogate u then
      if is_trailing u then
        none
      else
        match us with
        | [] => none
        | v :: vs => if is_trailing v then (decode vs).map (pair u v :: ·) else none
    else
      (decode us).map (Char.ofNat u.toNat :: ·)

/-! ### Units and bytes -/

/-- The units of a string of bytes, two bytes each; an odd last byte is left out. -/
def of_bytes : List UInt8 → List UInt16
  | a :: b :: bs => UInt16.ofNat (Bytes.of_le [a, b]) :: of_bytes bs
  | _ => []

def bytes (us : List UInt16) : List UInt8 := us.flatMap fun u => Bytes.le 2 u.toNat

@[simp] theorem length_bytes (us : List UInt16) : (bytes us).length = 2 * us.length := by
  induction us with
  | nil => rfl
  | cons u us ih =>
    have hc : bytes (u :: us) = Bytes.le 2 u.toNat ++ bytes us := rfl
    rw [hc, List.length_append, Bytes.length_le, ih, List.length_cons]
    omega

theorem of_bytes_bytes (us : List UInt16) : of_bytes (bytes us) = us := by
  induction us with
  | nil => rfl
  | cons u us ih =>
    have hu := u.toNat_lt
    have hn : Bytes.of_le (Bytes.le 2 u.toNat) = u.toNat := by
      rw [Bytes.of_le_le]
      omega
    show UInt16.ofNat (Bytes.of_le (Bytes.le 2 u.toNat)) :: of_bytes (bytes us) = u :: us
    rw [hn, ih, UInt16.ofNat_toNat]

/-! ### One character -/

theorem toNat_valid (c : Char) : c.toNat < 0xD800 ∨ (0xDFFF < c.toNat ∧ c.toNat < 0x110000) := by
  exact c.valid

theorem toNat_ofNat {n : Nat} (h : n < 0xD800 ∨ (0xDFFF < n ∧ n < 0x110000)) :
    (Char.ofNat n).toNat = n := by
  have hv : n.isValidChar := h
  rw [Char.ofNat, dif_pos hv]
  rfl

theorem units_low {c : Char} (h : c.toNat < 0x10000) : units c = [UInt16.ofNat c.toNat] := by
  rw [units, if_pos h]

theorem units_high {c : Char} (h : ¬ c.toNat < 0x10000) :
    units c = [UInt16.ofNat (0xD800 + (c.toNat - 0x10000) / 0x400),
      UInt16.ofNat (0xDC00 + (c.toNat - 0x10000) % 0x400)] := by
  rw [units, if_neg h]

theorem toNat_ofNat_unit {n : Nat} (h : n < 0x10000) : (UInt16.ofNat n).toNat = n :=
  UInt16.toNat_ofNat_of_lt' h

/-- A unit outside the surrogates is the whole of its character. -/
theorem units_ofNat {u : UInt16} (h : is_surrogate u = false) :
    units (Char.ofNat u.toNat) = [u] := by
  have hu := u.toNat_lt
  simp only [is_surrogate, Bool.and_eq_false_iff, decide_eq_false_iff_not] at h
  have hc : (Char.ofNat u.toNat).toNat = u.toNat := toNat_ofNat (by omega)
  rw [units_low (by omega), hc, UInt16.ofNat_toNat]

/-- A leading and a trailing surrogate are the whole of theirs. -/
theorem units_pair {u v : UInt16} (hu : is_surrogate u = true) (hu' : is_trailing u = false)
    (hv : is_trailing v = true) : units (pair u v) = [u, v] := by
  simp only [is_surrogate, is_trailing, Bool.and_eq_true, Bool.and_eq_false_iff,
    decide_eq_true_eq, decide_eq_false_iff_not] at hu hu' hv
  have hc : (pair u v).toNat = 0x10000 + (u.toNat - 0xD800) * 0x400 + (v.toNat - 0xDC00) :=
    toNat_ofNat (by omega)
  have hlead : 0xD800 + ((pair u v).toNat - 0x10000) / 0x400 = u.toNat := by omega
  have htrail : 0xDC00 + ((pair u v).toNat - 0x10000) % 0x400 = v.toNat := by omega
  rw [units_high (by omega), hlead, htrail, UInt16.ofNat_toNat, UInt16.ofNat_toNat]

/-- Decoding reads a character's own units back and goes on behind them. -/
theorem decode_units (c : Char) (us : List UInt16) :
    decode (units c ++ us) = (decode us).map (c :: ·) := by
  have hv := toNat_valid c
  by_cases h : c.toNat < 0x10000
  · have hn := toNat_ofNat_unit h
    have hs : is_surrogate (UInt16.ofNat c.toNat) = false := by
      simp only [is_surrogate, hn, Bool.and_eq_false_iff, decide_eq_false_iff_not]
      omega
    rw [units_low h, List.singleton_append, decode.eq_def]
    simp only [hs, hn, Char.ofNat_toNat, Bool.false_eq_true, if_false]
  · have hu : (UInt16.ofNat (0xD800 + (c.toNat - 0x10000) / 0x400)).toNat =
        0xD800 + (c.toNat - 0x10000) / 0x400 := toNat_ofNat_unit (by omega)
    have hw : (UInt16.ofNat (0xDC00 + (c.toNat - 0x10000) % 0x400)).toNat =
        0xDC00 + (c.toNat - 0x10000) % 0x400 := toNat_ofNat_unit (by omega)
    have hs : is_surrogate (UInt16.ofNat (0xD800 + (c.toNat - 0x10000) / 0x400)) = true := by
      simp only [is_surrogate, hu, Bool.and_eq_true, decide_eq_true_eq]
      omega
    have ht : is_trailing (UInt16.ofNat (0xD800 + (c.toNat - 0x10000) / 0x400)) = false := by
      simp only [is_trailing, hu, Bool.and_eq_false_iff, decide_eq_false_iff_not]
      omega
    have hz : is_trailing (UInt16.ofNat (0xDC00 + (c.toNat - 0x10000) % 0x400)) = true := by
      simp only [is_trailing, hw, Bool.and_eq_true, decide_eq_true_eq]
      omega
    have hc : pair (UInt16.ofNat (0xD800 + (c.toNat - 0x10000) / 0x400))
        (UInt16.ofNat (0xDC00 + (c.toNat - 0x10000) % 0x400)) = c := by
      have he : 0x10000 + (c.toNat - 0x10000) / 0x400 * 0x400 + (c.toNat - 0x10000) % 0x400 =
          c.toNat := by omega
      rw [pair, hu, hw, Nat.add_sub_cancel_left, Nat.add_sub_cancel_left, he, Char.ofNat_toNat]
    rw [units_high h, List.cons_append, List.singleton_append, decode.eq_def]
    simp only [hs, ht, hz, hc, Bool.false_eq_true, if_false, if_true]

/-! ### Texts -/

theorem decode_encode (cs : List Char) : decode (encode cs) = some cs := by
  induction cs with
  | nil => rfl
  | cons c cs ih =>
    show decode (units c ++ encode cs) = _
    rw [decode_units, ih]
    rfl

theorem encode_decode {us : List UInt16} {cs : List Char} (h : decode us = some cs) :
    encode cs = us := by
  fun_induction decode us generalizing cs with
  | case1 =>
    cases h
    rfl
  | case2 => cases h
  | case3 => cases h
  | case4 u hs ht v vs hv ih =>
    obtain ⟨ds, hd, rfl⟩ := Option.map_eq_some_iff.mp h
    show units (pair u v) ++ encode ds = _
    rw [units_pair hs (by simpa using ht) hv, ih hd]
    rfl
  | case5 => cases h
  | case6 u us hs ih =>
    obtain ⟨ds, hd, rfl⟩ := Option.map_eq_some_iff.mp h
    show units (Char.ofNat u.toNat) ++ encode ds = _
    rw [units_ofNat (by simpa using hs), ih hd]
    rfl

/-- The decoder answers a text for exactly that text's encoding. -/
theorem decode_iff {us : List UInt16} {cs : List Char} :
    decode us = some cs ↔ us = encode cs := by
  constructor
  · intro h
    exact (encode_decode h).symm
  · intro h
    rw [h, decode_encode]

theorem decode_none_iff {us : List UInt16} : decode us = none ↔ ∀ cs, us ≠ encode cs := by
  constructor
  · intro h cs he
    rw [decode_iff.mpr he] at h
    cases h
  · intro h
    cases hd : decode us with
    | none => rfl
    | some cs => exact absurd (decode_iff.mp hd) (h cs)

end Utf16
