import Tributaries.Region

/-! # Covers by prefix-free lists

  A list of keys covers the regions below them.  Among the lists that cover
  some keys there is a least region, and one prefix-free list that covers
  it: the keys that no other one is a proper prefix of.
-/

namespace Region

variable {C : Type*} {A B keys : List (List C)} {k : List C}

/-- The keys at or below a key of the list. -/
def ground (A : List (List C)) : Set (List C) := {k | ∃ a ∈ A, a <+: k}

/-- No key of the list is a proper prefix of another. -/
def PrefixFree (A : List (List C)) : Prop := ∀ a ∈ A, ∀ b ∈ A, a <+: b → a = b

@[simp] theorem ground_nil : ground ([] : List (List C)) = ∅ := by
  simp [ground]

@[simp] theorem ground_singleton (a : List C) : ground [a] = below a := by
  simp [ground, below]

theorem mem_ground_self (h : k ∈ A) : k ∈ ground A := ⟨k, h, List.prefix_rfl⟩

theorem ground_closed (h : k ∈ ground A) : below k ⊆ ground A := by
  obtain ⟨a, ha, hp⟩ := h
  intro k' hk'
  exact ⟨a, ha, hp.trans hk'⟩

/-- A list covers a region when it covers its keys. -/
theorem ground_subset_iff : ground A ⊆ ground B ↔ ∀ a ∈ A, a ∈ ground B := by
  constructor
  · intro h a ha
    exact h (mem_ground_self ha)
  · rintro h k ⟨a, ha, hp⟩
    exact ground_closed (h a ha) hp

/-- Prefix-free lists of one region have the same keys. -/
theorem PrefixFree.mem_of_ground (hA : PrefixFree A) (h : ground A = ground B) (hk : k ∈ A) :
    k ∈ B := by
  have hkB : k ∈ ground B := h ▸ mem_ground_self hk
  obtain ⟨b, hb, hbk⟩ := hkB
  have hbA : b ∈ ground A := h ▸ mem_ground_self hb
  obtain ⟨a, ha, hab⟩ := hbA
  have he : a = k := hA a ha k hk (hab.trans hbk)
  subst he
  have hle : a = b := List.IsPrefix.eq_of_length_le hab hbk.length_le
  rw [hle]
  exact hb

/-- `A` is a prefix-free cover of the keys, and no cover of them is narrower. -/
structure LeastCover (keys A : List (List C)) : Prop where
  prefix_free : PrefixFree A
  covers : ∀ k ∈ keys, k ∈ ground A
  least : ∀ B, (∀ k ∈ keys, k ∈ ground B) → ground A ⊆ ground B

/-- The least cover is unique. -/
theorem LeastCover.unique (hA : LeastCover keys A) (hB : LeastCover keys B) : k ∈ A ↔ k ∈ B := by
  have h : ground A = ground B := (hA.least B hB.covers).antisymm (hB.least A hA.covers)
  exact ⟨hA.prefix_free.mem_of_ground h, hB.prefix_free.mem_of_ground h.symm⟩

/-- A list that holds the keys no other key of `keys` is a proper prefix of
    is their least cover. -/
theorem leastCover_of_minimal (h : ∀ k, k ∈ A ↔ k ∈ keys ∧ ∀ a ∈ keys, a <+: k → a = k) :
    LeastCover keys A := by
  refine ⟨?_, ?_, ?_⟩
  · intro a ha b hb hp
    exact ((h b).mp hb).2 a ((h a).mp ha).1 hp
  · -- the shortest prefix of the key among the keys is one of `A`
    intro k hk
    induction hn : k.length using Nat.strong_induction_on generalizing k with
    | _ n ih =>
      by_cases hm : ∀ a ∈ keys, a <+: k → a = k
      · exact mem_ground_self ((h k).mpr ⟨hk, hm⟩)
      · push Not at hm
        obtain ⟨a, ha, hp, hne⟩ := hm
        have hlt : a.length < n := by
          rw [← hn]
          refine lt_of_le_of_ne hp.length_le ?_
          intro he
          exact hne (hp.eq_of_length he)
        exact ground_closed (ih a.length hlt a ha rfl) hp
  · intro B hB
    rw [ground_subset_iff]
    intro a ha
    exact hB a ((h a).mp ha).1

end Region
