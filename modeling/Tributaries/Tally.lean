import Tributaries.Collections
import Mathlib.Data.Set.Card

/-! # Counters kept beside the sets they count

  A tally keeps, for each key, how many members are filed under it, and
  forgets a key with its last member.  So a key has a counter exactly
  while something is filed under it.
-/

open Std Collections

namespace Tally

variable {S K : Type} [Ord S] [TransOrd S]

/-- Each counter is the number of members filed under its key. -/
structure Counts (counts : Map S Nat) (members : S → Set K) : Prop where
  finite : ∀ s, (members s).Finite
  count : ∀ s, counts[s]? = if (members s).ncard = 0 then none else some (members s).ncard

variable {counts : Map S Nat} {members members' : S → Set K}

theorem empty : Counts (∅ : Map S Nat) (fun _ => (∅ : Set K)) := by
  refine ⟨fun _ => Set.finite_empty, fun s => ?_⟩
  simp

/-- A key without a counter is one with nothing filed under it. -/
theorem Counts.settled (h : Counts counts members) (s : S) :
    counts[s]? = none ↔ members s = ∅ := by
  rw [h.count s, ← Set.ncard_eq_zero (h.finite s)]
  split
  · simp_all
  · simp_all

theorem Counts.getD (h : Counts counts members) (s : S) :
    (counts[s]?).getD 0 = (members s).ncard := by
  rw [h.count s]
  split
  · next he => rw [he]; rfl
  · rfl

theorem Counts.congr (h : Counts counts members) (he : ∀ s, members' s = members s) :
    Counts counts members' := by
  obtain rfl : members' = members := funext he
  exact h

variable [LawfulEqOrd S] [DecidableEq S]

/-- One more member is filed under `s`. -/
theorem Counts.up {s : S} {x : K} (h : Counts counts members) (hx : x ∉ members s)
    (hs : members' s = insert x (members s)) (hne : ∀ t, t ≠ s → members' t = members t) :
    Counts (counts.insert s ((counts[s]?).getD 0 + 1)) members' := by
  refine ⟨fun t => ?_, fun t => ?_⟩
  · by_cases ht : t = s
    · subst ht
      rw [hs]
      exact (h.finite t).insert x
    · rw [hne t ht]
      exact h.finite t
  · rw [get_insert]
    by_cases ht : s = t
    · subst ht
      have hcard : (members' s).ncard = (members s).ncard + 1 := by
        rw [hs]
        exact Set.ncard_insert_of_notMem hx (h.finite s)
      rw [if_pos rfl, h.getD, hcard, if_neg (Nat.succ_ne_zero _)]
    · rw [if_neg ht, hne t (Ne.symm ht)]
      exact h.count t

/-- The member `x` is no longer filed under `s`. -/
theorem Counts.down {s : S} {x : K} (h : Counts counts members) (hx : x ∈ members s)
    (hs : members' s = members s \ {x}) (hne : ∀ t, t ≠ s → members' t = members t) :
    Counts (match counts[s]? with
      | some count =>
        if count - 1 = 0 then counts.erase s else counts.insert s (count - 1)
      | none => counts) members' := by
  have hpos : 0 < (members s).ncard := (Set.ncard_pos (h.finite s)).mpr ⟨x, hx⟩
  have hcard : (members' s).ncard = (members s).ncard - 1 := by
    rw [hs]
    exact Set.ncard_sdiff_singleton_of_mem hx
  have hc : counts[s]? = some (members s).ncard := by
    rw [h.count s, if_neg (by omega)]
  refine ⟨fun t => ?_, fun t => ?_⟩
  · by_cases ht : t = s
    · subst ht
      rw [hs]
      exact (h.finite t).subset Set.sdiff_subset
    · rw [hne t ht]
      exact h.finite t
  · rw [hc]
    dsimp only
    by_cases ht : s = t
    · subst ht
      rw [hcard]
      split
      · rw [get_erase, if_pos rfl]
      · rw [get_insert, if_pos rfl]
    · rw [hne t (Ne.symm ht), ← h.count t]
      split
      · rw [get_erase, if_neg ht]
      · rw [get_insert, if_neg ht]

end Tally
