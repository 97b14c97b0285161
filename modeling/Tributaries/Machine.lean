import Tributaries.Bytes

/-! # Machine arithmetic and slices

  What a program computes with pointer-sized numbers, and what it reads
  out of a slice of bytes.  An operation that the language checks answers
  the fault it would stop with; the `checked_` ones answer nothing.
-/

namespace Machine

open Bytes

/-- The width of a pointer. -/
inductive Width where
  | w32
  | w64
  deriving DecidableEq, Repr

def Width.bits : Width → Nat
  | .w32 => 32
  | .w64 => 64

/-- One more than the largest pointer-sized number. -/
def Width.limit (w : Width) : Nat := 2 ^ w.bits

inductive Fault where
  | overflow
  | out_of_range
  deriving DecidableEq, Repr

/-- A slice of bytes.  No object is longer than half the address space. -/
structure Slice (w : Width) where
  bytes : List UInt8
  fits : bytes.length < 2 ^ (w.bits - 1)

namespace Slice

def len {w : Width} (buf : Slice w) : Nat := buf.bytes.length

end Slice

variable {w : Width} {buf : Slice w} {a b p n start stop : Nat}

theorem limit_ge (w : Width) : 2 ^ 32 ≤ w.limit := by
  cases w <;> decide

theorem Slice.len_lt (buf : Slice w) : 2 * buf.len < w.limit := by
  have h := buf.fits
  cases w with
  | w32 =>
    simp only [Width.bits, Width.limit, Slice.len] at h ⊢
    omega
  | w64 =>
    simp only [Width.bits, Width.limit, Slice.len] at h ⊢
    omega

/-- A step of a fallible computation answered, and so did what follows it. -/
theorem bind_ok {α β : Type} {x : Except Fault α} {f : α → Except Fault β} {r : β}
    (h : x >>= f = .ok r) : ∃ a, x = .ok a ∧ f a = .ok r := by
  cases x with
  | error e => cases h
  | ok a => exact ⟨a, rfl, h⟩

/-! ### Arithmetic -/

def add (w : Width) (a b : Nat) : Except Fault Nat :=
  if a + b < w.limit then .ok (a + b) else .error .overflow

def checked_add (w : Width) (a b : Nat) : Option Nat :=
  if a + b < w.limit then some (a + b) else none

def checked_sub (a b : Nat) : Option Nat :=
  if b ≤ a then some (a - b) else none

def checked_next_multiple_of (w : Width) (a n : Nat) : Option Nat :=
  if a % n = 0 then some a else checked_add w a (n - a % n)

theorem add_ok (h : a + b < w.limit) : add w a b = .ok (a + b) := by
  rw [add, if_pos h]

theorem checked_add_some (h : a + b < w.limit) : checked_add w a b = some (a + b) := by
  rw [checked_add, if_pos h]

/-! ### Reads -/

/-- `bytes[i]` -/
def index (bytes : List UInt8) (i : Nat) : Except Fault UInt8 :=
  match bytes[i]? with
  | some b => .ok b
  | none => .error .out_of_range

/-- `bytes[start..stop]` -/
def slice (bytes : List UInt8) (start stop : Nat) : Except Fault (List UInt8) :=
  if start ≤ stop ∧ stop ≤ bytes.length then .ok (window bytes start (stop - start))
  else .error .out_of_range

/-- `bytes.get(start..stop)` -/
def get (bytes : List UInt8) (start stop : Nat) : Option (List UInt8) :=
  if start ≤ stop ∧ stop ≤ bytes.length then some (window bytes start (stop - start)) else none

/-- The two bytes at `pos`, one index at a time. -/
def load_u16 (buf : Slice w) (pos : Nat) : Except Fault UInt16 := do
  let b₀ ← index buf.bytes pos
  let b₁ ← index buf.bytes (← add w pos 1)
  .ok (UInt16.ofNat (of_le [b₀, b₁]))

/-- The four bytes at `pos`, one index at a time. -/
def load_u32 (buf : Slice w) (pos : Nat) : Except Fault UInt32 := do
  let b₀ ← index buf.bytes pos
  let b₁ ← index buf.bytes (← add w pos 1)
  let b₂ ← index buf.bytes (← add w pos 2)
  let b₃ ← index buf.bytes (← add w pos 3)
  .ok (UInt32.ofNat (of_le [b₀, b₁, b₂, b₃]))

def load_u64 (buf : Slice w) (pos : Nat) : Except Fault UInt64 := do
  let bytes ← slice buf.bytes pos (← add w pos 8)
  .ok (UInt64.ofNat (of_le bytes))

def load_u128 (buf : Slice w) (pos : Nat) : Except Fault (BitVec 128) := do
  let bytes ← slice buf.bytes pos (← add w pos 16)
  .ok (BitVec.ofNat 128 (of_le bytes))

/-- The little-endian number in a window. -/
def word (bytes : List UInt8) (p n : Nat) : Nat := of_le (window bytes p n)

theorem word_lt (bytes : List UInt8) (p n : Nat) : word bytes p n < 256 ^ n :=
  Nat.lt_of_lt_of_le (of_le_lt _) (Nat.pow_le_pow_right (by omega) length_window_le)

/-- A field is read out of the record whose bytes stand at `p`. -/
theorem word_of_window {bytes record : List UInt8} {k : Nat}
    (h : window bytes p record.length = record) (hk : k + n ≤ record.length) :
    word bytes (p + k) n = word record k n := by
  rw [word, word, ← window_window hk, h]

/-- A field holds the number written there. -/
theorem word_eq {record : List UInt8} {k v : Nat} (h : window record k n = le n v)
    (hv : v < 256 ^ n) : word record k n = v := by
  rw [word, h, of_le_le, Nat.mod_eq_of_lt hv]

theorem toNat_word16 (bytes : List UInt8) (p : Nat) :
    (UInt16.ofNat (word bytes p 2)).toNat = word bytes p 2 :=
  UInt16.toNat_ofNat_of_lt' (word_lt bytes p 2)

theorem toNat_word32 (bytes : List UInt8) (p : Nat) :
    (UInt32.ofNat (word bytes p 4)).toNat = word bytes p 4 :=
  UInt32.toNat_ofNat_of_lt' (word_lt bytes p 4)

theorem toNat_word64 (bytes : List UInt8) (p : Nat) :
    (UInt64.ofNat (word bytes p 8)).toNat = word bytes p 8 :=
  UInt64.toNat_ofNat_of_lt' (word_lt bytes p 8)

theorem slice_ok {bytes : List UInt8} (h : start ≤ stop) (h' : stop ≤ bytes.length) :
    slice bytes start stop = .ok (window bytes start (stop - start)) := by
  rw [slice, if_pos ⟨h, h'⟩]

theorem slice_length {bytes r : List UInt8} (h : slice bytes start stop = .ok r) :
    start ≤ stop ∧ r.length = stop - start := by
  unfold slice at h
  split_ifs at h with hb
  cases h
  exact ⟨hb.1, length_window (by omega)⟩

theorem get_some {bytes : List UInt8} (h : start ≤ stop) (h' : stop ≤ bytes.length) :
    get bytes start stop = some (window bytes start (stop - start)) := by
  rw [get, if_pos ⟨h, h'⟩]

theorem get_none {bytes : List UInt8} (h : bytes.length < stop) : get bytes start stop = none := by
  rw [get, if_neg (by omega)]

theorem index_ok {bytes : List UInt8} (h : p < bytes.length) : index bytes p = .ok bytes[p] := by
  rw [index, List.getElem?_eq_getElem h]

theorem load_u16_ok (h : p + 2 ≤ buf.len) :
    load_u16 buf p = .ok (UInt16.ofNat (word buf.bytes p 2)) := by
  have hl := buf.len_lt
  have h0 : p < buf.bytes.length := Nat.lt_of_lt_of_le (by omega) h
  have h1 : p + 1 < buf.bytes.length := Nat.lt_of_lt_of_le (by omega) h
  rw [load_u16, index_ok h0, add_ok (by omega)]
  simp only [bind, Except.bind, index_ok h1]
  rw [word, window_cons h0, window_cons h1]
  rfl

theorem load_u32_ok (h : p + 4 ≤ buf.len) :
    load_u32 buf p = .ok (UInt32.ofNat (word buf.bytes p 4)) := by
  have hl := buf.len_lt
  have h0 : p < buf.bytes.length := Nat.lt_of_lt_of_le (by omega) h
  have h1 : p + 1 < buf.bytes.length := Nat.lt_of_lt_of_le (by omega) h
  have h2 : p + 1 + 1 < buf.bytes.length := Nat.lt_of_lt_of_le (by omega) h
  have h3 : p + 1 + 1 + 1 < buf.bytes.length := Nat.lt_of_lt_of_le (by omega) h
  rw [load_u32, index_ok h0, add_ok (by omega)]
  simp only [bind, Except.bind, index_ok h1, add_ok (show p + 2 < w.limit by omega),
    add_ok (show p + 3 < w.limit by omega), index_ok h2, index_ok h3]
  rw [word, window_cons h0, window_cons h1, window_cons h2, window_cons h3]
  rfl

theorem load_u64_ok (h : p + 8 ≤ buf.len) :
    load_u64 buf p = .ok (UInt64.ofNat (word buf.bytes p 8)) := by
  have hl := buf.len_lt
  rw [load_u64, add_ok (by omega)]
  simp only [bind, Except.bind, slice_ok (Nat.le_add_right p 8) h, Nat.add_sub_cancel_left]
  rfl

theorem load_u128_ok (h : p + 16 ≤ buf.len) :
    load_u128 buf p = .ok (BitVec.ofNat 128 (word buf.bytes p 16)) := by
  have hl := buf.len_lt
  rw [load_u128, add_ok (by omega)]
  simp only [bind, Except.bind, slice_ok (Nat.le_add_right p 16) h, Nat.add_sub_cancel_left]
  rfl

end Machine
