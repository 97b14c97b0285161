import Mathlib

/-! # Clocks that certify an interval

  A system keeps a set of entries and a clock.  A step is metered when it
  takes a new entry on only together with an advance of the clock.  Then
  two readings of the clock that agree certify what happened between
  them: no step took an entry on.
-/

open Relation

namespace Meter

variable {σ E : Type} {entries : σ → Set E} {clock : σ → Nat} {R : σ → σ → Prop}

/-- A step that leaves the clock and takes nothing on, or advances it and does. -/
inductive Metered (entries : σ → Set E) (clock : σ → Nat) (c c' : σ) : Prop where
  | ebb (h : entries c' ⊆ entries c) (hc : clock c' = clock c)
  | gain (e : E) (h : e ∉ entries c) (h' : e ∈ entries c') (hc : clock c < clock c')

theorem Metered.le {c c' : σ} (h : Metered entries clock c c') : clock c ≤ clock c' := by
  cases h with
  | ebb _ hc => omega
  | gain _ _ _ hc => omega

/-- A step takes something on exactly when it advances the clock. -/
theorem Metered.ebb_iff {c c' : σ} (h : Metered entries clock c c') :
    clock c' = clock c ↔ entries c' ⊆ entries c := by
  cases h with
  | ebb h hc => exact ⟨fun _ => h, fun _ => hc⟩
  | gain e h h' hc =>
    refine ⟨fun he => ?_, fun hs => absurd (hs h') h⟩
    omega

theorem path_le {a b : σ} (t : ReflTransGen (Metered entries clock) a b) : clock a ≤ clock b := by
  induction t with
  | refl => exact Nat.le_refl _
  | tail _ r ih => exact Nat.le_trans ih r.le

/-- Two readings that agree: what is there at the end was there at the start. -/
theorem path_ebb {a b : σ} (t : ReflTransGen (Metered entries clock) a b)
    (he : clock b ≤ clock a) : entries b ⊆ entries a := by
  induction t with
  | refl => exact fun _ he => he
  | @tail c c' t r ih =>
    have h₁ := path_le t
    have h₂ := r.le
    have hs : entries c' ⊆ entries c := r.ebb_iff.mp (by omega)
    exact hs.trans (ih (by omega))

/-- A path whose every step is metered. -/
theorem path_of {a b : σ} (t : ReflTransGen R a b)
    (hR : ∀ c c', ReflTransGen R a c → R c c' → ReflTransGen R c' b → Metered entries clock c c') :
    ReflTransGen (Metered entries clock) a b := by
  induction t with
  | refl => exact .refl
  | @tail c c' t r ih =>
    refine .tail (ih ?_) (hR c c' t r .refl)
    intro d d' td rd td'
    exact hR d d' td rd (td'.tail r)

/-- Two readings that agree certify every step between them. -/
theorem certified {a b c c' : σ} (t : ReflTransGen R a c) (r : R c c') (t' : ReflTransGen R c' b)
    (hR : ∀ c c', ReflTransGen R a c → R c c' → ReflTransGen R c' b → Metered entries clock c c')
    (he : clock b = clock a) : entries c' ⊆ entries c := by
  have h₁ := path_le (path_of t fun d d' td rd td' => hR d d' td rd ((td'.tail r).trans t'))
  have h₂ := hR c c' t r t'
  have h₃ := path_le (path_of t' fun d d' td rd td' => hR d d' ((t.tail r).trans td) rd td')
  have h₄ := h₂.le
  exact h₂.ebb_iff.mp (by omega)

/-- A path on which no step takes an entry on leaves the clock. -/
theorem idle {a b : σ} (t : ReflTransGen R a b)
    (hR : ∀ c c', ReflTransGen R a c → R c c' → ReflTransGen R c' b → Metered entries clock c c')
    (hs : ∀ c c', ReflTransGen R a c → R c c' → ReflTransGen R c' b → entries c' ⊆ entries c) :
    clock b = clock a := by
  induction t with
  | refl => rfl
  | @tail c c' t r ih =>
    have h := (hR c c' t r .refl).ebb_iff.mpr (hs c c' t r .refl)
    refine h.trans (ih ?_ ?_)
    · intro d d' td rd td'
      exact hR d d' td rd (td'.tail r)
    · intro d d' td rd td'
      exact hs d d' td rd (td'.tail r)

/-! ### Clocks of one word

  A clock of 64 bits shows the low bits of how often it was advanced.  Its
  readings compare as the advances do until it wraps, and two of them tell
  fewer than a whole turn of advances apart. -/

section Word

variable {a b : Nat}

theorem word_le (h : a ≤ b) (hb : b < 2 ^ 64) : UInt64.ofNat a ≤ UInt64.ofNat b := by
  rw [UInt64.le_iff_toNat_le, UInt64.toNat_ofNat', UInt64.toNat_ofNat', Nat.mod_eq_of_lt hb,
    Nat.mod_eq_of_lt (by omega)]
  exact h

theorem word_lt (h : a < b) (hb : b < 2 ^ 64) : UInt64.ofNat a < UInt64.ofNat b := by
  rw [UInt64.lt_iff_toNat_lt, UInt64.toNat_ofNat', UInt64.toNat_ofNat', Nat.mod_eq_of_lt hb,
    Nat.mod_eq_of_lt (by omega)]
  exact h

theorem word_inj (h : a ≤ b) (hb : b < a + 2 ^ 64) (he : UInt64.ofNat b = UInt64.ofNat a) :
    b = a := by
  rw [← UInt64.toNat_inj, UInt64.toNat_ofNat', UInt64.toNat_ofNat'] at he
  omega

/-- A whole turn is not seen. -/
theorem word_turn (a : Nat) : UInt64.ofNat (a + 2 ^ 64) = UInt64.ofNat a := by
  rw [← UInt64.toNat_inj, UInt64.toNat_ofNat', UInt64.toNat_ofNat', Nat.add_mod_right]

end Word

end Meter
