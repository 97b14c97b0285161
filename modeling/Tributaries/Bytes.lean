import Mathlib.Data.Nat.Digits.Defs
import Mathlib.Data.List.Basic

/-! # Numbers and windows in a string of bytes

  A number written in a fixed count of bytes, in either byte order, and the
  windows a reader cuts out of a string of bytes by position and length.
-/

namespace Bytes

/-! ### Numbers -/

/-- The order in which a number's bytes stand. -/
inductive Endian where
  | little
  | big
  deriving DecidableEq, Repr

/-- The number a string of bytes spells, least significant byte first. -/
def of_le (bs : List UInt8) : Nat := Nat.ofDigits 256 (bs.map UInt8.toNat)

/-- The last `n` base-256 digits of a number, least significant first. -/
def le : Nat → Nat → List UInt8
  | 0, _ => []
  | n + 1, v => UInt8.ofNat v :: le n (v / 256)

def Endian.number : Endian → List UInt8 → Nat
  | .little, bs => of_le bs
  | .big, bs => of_le bs.reverse

def Endian.bytes : Endian → Nat → Nat → List UInt8
  | .little, n, v => le n v
  | .big, n, v => (le n v).reverse

@[simp] theorem length_le (n v : Nat) : (le n v).length = n := by
  induction n generalizing v with
  | zero => rfl
  | succ n ih =>
    simp only [le, List.length_cons]
    rw [ih]

@[simp] theorem length_bytes (e : Endian) (n v : Nat) : (e.bytes n v).length = n := by
  cases e <;> simp [Endian.bytes]

/-- A number written in `n` bytes is read back modulo `256 ^ n`. -/
theorem of_le_le (n v : Nat) : of_le (le n v) = v % 256 ^ n := by
  induction n generalizing v with
  | zero =>
    show 0 = v % 1
    omega
  | succ n ih =>
    have hd : (UInt8.ofNat v).toNat = v % 256 := rfl
    have ih' := ih (v / 256)
    unfold of_le at ih' ⊢
    simp only [le, List.map_cons, Nat.ofDigits_cons, ih', hd]
    rw [Nat.pow_succ, Nat.mul_comm (256 ^ n) 256, Nat.mod_mul]

theorem number_bytes (e : Endian) (n v : Nat) : e.number (e.bytes n v) = v % 256 ^ n := by
  cases e with
  | little => exact of_le_le n v
  | big =>
    show of_le (le n v).reverse.reverse = _
    rw [List.reverse_reverse]
    exact of_le_le n v

theorem of_le_lt (bs : List UInt8) : of_le bs < 256 ^ bs.length := by
  have h := Nat.ofDigits_lt_base_pow_length (b := 256) (l := bs.map UInt8.toNat) (by omega) (by
    intro x hx
    obtain ⟨b, -, hb⟩ := List.mem_map.mp hx
    have := b.toNat_lt
    omega)
  simpa [of_le] using h

theorem number_lt (e : Endian) (bs : List UInt8) : e.number bs < 256 ^ bs.length := by
  cases e with
  | little => exact of_le_lt bs
  | big => simpa [Endian.number] using of_le_lt bs.reverse

/-- Every string of bytes is the digits of the number it spells. -/
theorem le_of_le (bs : List UInt8) : le bs.length (of_le bs) = bs := by
  induction bs with
  | nil => rfl
  | cons b bs ih =>
    have hb := b.toNat_lt
    have hn : of_le (b :: bs) = b.toNat + 256 * of_le bs := by
      simp [of_le, Nat.ofDigits_cons]
    have hlow : UInt8.ofNat (b.toNat + 256 * of_le bs) = b := by
      apply UInt8.toNat_inj.mp
      show (b.toNat + 256 * of_le bs) % 256 = b.toNat
      omega
    have hhigh : (b.toNat + 256 * of_le bs) / 256 = of_le bs := by omega
    rw [List.length_cons, le, hn, hlow, hhigh, ih]

theorem bytes_number (e : Endian) (bs : List UInt8) : e.bytes bs.length (e.number bs) = bs := by
  cases e with
  | little => exact le_of_le bs
  | big =>
    have h := le_of_le bs.reverse
    rw [List.length_reverse] at h
    show (le bs.length (of_le bs.reverse)).reverse = bs
    rw [h, List.reverse_reverse]

/-! ### Windows -/

variable {a b buf : List UInt8} {p q n m : Nat}

/-- The `n` bytes from `p` on. -/
def window (buf : List UInt8) (p n : Nat) : List UInt8 := (buf.drop p).take n

theorem length_window (h : p + n ≤ buf.length) : (window buf p n).length = n := by
  simp only [window, List.length_take, List.length_drop]
  omega

theorem length_window_le : (window buf p n).length ≤ n := by
  simp only [window, List.length_take]
  omega

/-- A window past the first part of a string lies in the rest. -/
theorem window_append_right (h : a.length ≤ p) :
    window (a ++ b) p n = window b (p - a.length) n := by
  unfold window
  rw [List.drop_append, List.drop_eq_nil_of_le h, List.nil_append]

/-- A window inside the first part of a string does not see the rest. -/
theorem window_append_left (h : p + n ≤ a.length) : window (a ++ b) p n = window a p n := by
  unfold window
  rw [List.drop_append, List.take_append_of_le_length]
  simp only [List.length_drop]
  omega

/-- The first part of a string, read as a window. -/
theorem window_head (h : n = a.length) : window (a ++ b) 0 n = a := by
  subst h
  simp [window]

theorem window_self (h : n = a.length) : window a 0 n = a := by
  subst h
  simp [window]

/-- A window of a window. -/
theorem window_window (h : q + n ≤ m) : window (window buf p m) q n = window buf (p + q) n := by
  unfold window
  rw [List.drop_take, List.drop_drop, List.take_take]
  congr 1
  omega

theorem window_cons (h : p < buf.length) :
    window buf p (n + 1) = buf[p] :: window buf (p + 1) n := by
  unfold window
  rw [List.drop_eq_getElem_cons h, List.take_succ_cons]

/-- Two windows side by side. -/
theorem window_add (buf : List UInt8) (p m n : Nat) :
    window buf p (m + n) = window buf p m ++ window buf (p + m) n := by
  unfold window
  rw [List.take_add, List.drop_drop]

end Bytes
