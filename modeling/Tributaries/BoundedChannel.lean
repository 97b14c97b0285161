import Mathlib

/-! # Bounded channels

  A channel of a fixed capacity between one sender that never waits and a
  consumer.  What was accepted is kept whole, in order, beside how much of
  it was received: the channel's history is its state.
-/

structure BoundedChannel (α : Type) where
  capacity : Nat
  /-- Everything accepted, oldest first. -/
  sent : List α
  /-- How much of it the consumer has received. -/
  taken : Nat
  closed : Bool

/-- What an offer that does not wait meets. -/
inductive TrySend (α : Type) where
  | accepted (channel : BoundedChannel α)
  | full
  | closed

namespace BoundedChannel

variable {α : Type} {c c' : BoundedChannel α} {x : α}

def bounded (capacity : Nat) : BoundedChannel α := ⟨capacity, [], 0, false⟩

/-- What waits to be received. -/
def len (c : BoundedChannel α) : Nat := c.sent.length - c.taken

def is_full (c : BoundedChannel α) : Bool := c.capacity ≤ c.len

/-- An offer: a closed channel refuses before a full one does. -/
def try_send (c : BoundedChannel α) (x : α) : TrySend α :=
  if c.closed then .closed
  else if c.is_full then .full
  else .accepted { c with sent := c.sent ++ [x] }

/-- The consumer receives one, if one waits. -/
def recv (c : BoundedChannel α) : BoundedChannel α :=
  if c.taken < c.sent.length then { c with taken := c.taken + 1 } else c

/-- The consumer is gone. -/
def hang_up (c : BoundedChannel α) : BoundedChannel α := { c with closed := true }

/-! ### Offers -/

theorem try_send_accepted (h : c.try_send x = .accepted c') :
    c' = { c with sent := c.sent ++ [x] } ∧ c.closed = false := by
  unfold try_send at h
  split at h
  · cases h
  · rename_i hc
    split at h
    · cases h
    · exact ⟨(TrySend.accepted.inj h).symm, Bool.eq_false_iff.mpr hc⟩

theorem try_send_closed (h : c.try_send x = .closed) : c.closed = true := by
  unfold try_send at h
  split at h
  · assumption
  · split at h <;> cases h

/-- What one offer meets, any other would have met. -/
theorem try_send_full : c.try_send x = .full ↔ c.closed = false ∧ c.is_full = true := by
  unfold try_send
  split
  · rename_i hc
    simp [hc]
  · rename_i hc
    split
    · rename_i hf
      simp [Bool.eq_false_iff.mpr hc, hf]
    · rename_i hf
      simp [hf]

/-- The history only grows, and a closed channel stays closed. -/
structure Extends (c c' : BoundedChannel α) : Prop where
  sent : c.sent <+: c'.sent
  closed : c.closed = true → c'.closed = true

namespace Extends

theorem refl (c : BoundedChannel α) : Extends c c := ⟨List.prefix_rfl, id⟩

theorem trans {c₁ c₂ c₃ : BoundedChannel α} (h₁ : Extends c₁ c₂) (h₂ : Extends c₂ c₃) : Extends c₁ c₃ :=
  ⟨h₁.sent.trans h₂.sent, h₂.closed ∘ h₁.closed⟩

theorem of_accepted (h : c.try_send x = .accepted c') : Extends c c' := by
  obtain ⟨rfl, -⟩ := try_send_accepted h
  exact ⟨List.prefix_append _ _, id⟩

theorem of_recv (c : BoundedChannel α) : Extends c c.recv := by
  unfold recv
  split
  · exact ⟨List.prefix_rfl, id⟩
  · exact refl c

end Extends

end BoundedChannel
