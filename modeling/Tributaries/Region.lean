import Mathlib

/-! # Regions of a tree of keys

  A key is a list of components, and the region below a key is the set of
  the keys it is a prefix of.  Three edits of a set of keys (reading a
  region again, deleting it, moving it) are restricted to a region: what
  is left of the edit depends only on where its keys lie.
-/

namespace Region

variable {C : Type*} {a b p q K : List C} {v fs s : Set (List C)}

/-! ### The region below a key -/

/-- The keys at or below `p`. -/
def below (p : List C) : Set (List C) := {k | p <+: k}

@[simp] theorem mem_below {k : List C} : k ∈ below p ↔ p <+: k := Iff.rfl

theorem below_anti (h : p <+: q) : below q ⊆ below p := by
  intro k hk
  exact h.trans hk

theorem isPrefixOf_eq_decide [DecidableEq C] (p q : List C) :
    p.isPrefixOf q = decide (p <+: q) := by
  rw [Bool.eq_iff_iff, decide_eq_true_iff, List.isPrefixOf_iff_prefix]

/-- Two keys of which neither is a prefix of the other. -/
def Apart (p q : List C) : Prop := ¬ p <+: q ∧ ¬ q <+: p

theorem Apart.symm (h : Apart p q) : Apart q p := ⟨h.2, h.1⟩

theorem Apart.not_mem (h : Apart p q) {k : List C} (hp : p <+: k) : ¬ q <+: k := by
  intro hq
  rcases List.prefix_or_prefix_of_prefix hp hq with h' | h'
  · exact h.1 h'
  · exact h.2 h'

/-- `p` is a proper prefix of `q`. -/
def Above (p q : List C) : Prop := p <+: q ∧ p ≠ q

theorem Above.not_within (h : Above p q) : ¬ q <+: p := by
  intro h'
  exact h.2 (List.IsPrefix.eq_of_length_le h.1 h'.length_le)

theorem above_append {u : List C} (hu : u ≠ []) : Above b (b ++ u) := by
  refine ⟨List.prefix_append b u, ?_⟩
  intro h
  exact hu (List.self_eq_append_right.mp h)

/-- A key is at or below another, strictly above it, or apart from it. -/
theorem position (p K : List C) : K <+: p ∨ Above p K ∨ Apart p K := by
  by_cases h : K <+: p
  · exact .inl h
  · by_cases h' : p <+: K
    · right
      left
      exact ⟨h', fun he => h (he ▸ List.prefix_rfl)⟩
    · exact .inr (.inr ⟨h', h⟩)

/-! ### Edits of a set of keys -/

/-- The region below `p` is read again from `fs`. -/
def reread (fs : Set (List C)) (p : List C) (v : Set (List C)) : Set (List C) :=
  (v \ below p) ∪ (fs ∩ below p)

/-- The region below `p` is dropped. -/
def delete (p : List C) (v : Set (List C)) : Set (List C) := v \ below p

/-- What `v` holds below `a`, put below `b`. -/
def transplant (a b : List C) (v : Set (List C)) : Set (List C) :=
  {k | ∃ t, k = b ++ t ∧ a ++ t ∈ v}

/-- The region below `a` becomes the region below `b`. -/
def relocate (a b : List C) (v : Set (List C)) : Set (List C) :=
  (v \ below a) \ below b ∪ transplant a b v

/-- The part of a set at or below `K`. -/
def clip (K : List C) (v : Set (List C)) : Set (List C) := v ∩ below K

theorem transplant_below : transplant a b v ⊆ below b := by
  rintro k ⟨t, rfl, -⟩
  exact List.prefix_append b t

theorem append_mem_transplant {t : List C} : b ++ t ∈ transplant a b v ↔ a ++ t ∈ v := by
  constructor
  · rintro ⟨t', he, ht⟩
    rwa [List.append_cancel_left he]
  · intro ht
    exact ⟨t, rfl, ht⟩

/-- A set of keys below `b` is a transplant when it answers like one. -/
theorem eq_transplant_iff (hs : s ⊆ below b) :
    s = transplant a b v ↔ ∀ t, b ++ t ∈ s ↔ a ++ t ∈ v := by
  constructor
  · intro h t
    rw [h]
    exact append_mem_transplant
  · intro h
    ext k
    constructor
    · intro hk
      obtain ⟨t, rfl⟩ := hs hk
      exact ⟨t, rfl, (h t).mp hk⟩
    · rintro ⟨t, rfl, ht⟩
      exact (h t).mpr ht

theorem clip_eq_empty_iff : clip K v = ∅ ↔ ∀ k, K <+: k → k ∉ v := by
  rw [Set.eq_empty_iff_forall_notMem]
  constructor
  · intro h k hk hv
    exact h k ⟨hv, hk⟩
  · rintro h k ⟨hv, hk⟩
    exact h k hk hv

theorem clip_eq_iff : clip K v = clip K fs ↔ ∀ k, K <+: k → (k ∈ v ↔ k ∈ fs) := by
  rw [Set.ext_iff]
  constructor
  · intro h k hk
    simpa [clip, hk] using h k
  · intro h k
    simp only [clip, Set.mem_inter_iff, mem_below]
    constructor
    · rintro ⟨hv, hk⟩
      exact ⟨(h k hk).mp hv, hk⟩
    · rintro ⟨hv, hk⟩
      exact ⟨(h k hk).mpr hv, hk⟩

/-- Two sets agree when they agree off a region and in it. -/
theorem diff_union_eq_iff {w x y z : Set (List C)} (hy : y ⊆ below b) (hz : z ⊆ below b) :
    w \ below b ∪ y = x \ below b ∪ z ↔ w \ below b = x \ below b ∧ y = z := by
  constructor
  · intro h
    constructor
    · ext k
      have hk := Set.ext_iff.mp h k
      have hy := @hy k
      have hz := @hz k
      simp only [Set.mem_union, Set.mem_sdiff] at hk hy hz ⊢
      tauto
    · ext k
      have hk := Set.ext_iff.mp h k
      have hy := @hy k
      have hz := @hz k
      simp only [Set.mem_union, Set.mem_sdiff] at hk hy hz ⊢
      tauto
  · rintro ⟨h₁, h₂⟩
    rw [h₁, h₂]

/-! ### Edits seen from a region -/

theorem clip_reread_inside (h : K <+: p) :
    clip K (reread fs p v) = reread fs p (clip K v) := by
  ext k
  have hk : p <+: k → K <+: k := fun hp => h.trans hp
  simp only [clip, reread, Set.mem_inter_iff, Set.mem_union, Set.mem_sdiff, mem_below]
  tauto

theorem clip_reread_above (h : p <+: K) : clip K (reread fs p v) = clip K fs := by
  ext k
  have hk : K <+: k → p <+: k := fun hp => h.trans hp
  simp only [clip, reread, Set.mem_inter_iff, Set.mem_union, Set.mem_sdiff, mem_below]
  tauto

theorem clip_reread_apart (h : Apart p K) : clip K (reread fs p v) = clip K v := by
  ext k
  have hk : p <+: k → ¬ K <+: k := fun hp => h.not_mem hp
  simp only [clip, reread, Set.mem_inter_iff, Set.mem_union, Set.mem_sdiff, mem_below]
  tauto

/-- Deleting a region is reading it again as empty. -/
theorem delete_eq_reread : delete p v = reread ∅ p v := by
  simp [delete, reread]

theorem clip_delete_inside (h : K <+: p) : clip K (delete p v) = delete p (clip K v) := by
  rw [delete_eq_reread, delete_eq_reread, clip_reread_inside h]

theorem clip_delete_above (h : p <+: K) : clip K (delete p v) = ∅ := by
  rw [delete_eq_reread, clip_reread_above h]
  exact Set.empty_inter _

theorem clip_delete_apart (h : Apart p K) : clip K (delete p v) = clip K v := by
  rw [delete_eq_reread, clip_reread_apart h]

/-- Every key of the region is below what lies above it. -/
theorem clip_diff_above (h : p <+: K) : clip K v \ below p = ∅ := by
  rw [Set.sdiff_eq_empty]
  rintro k ⟨-, hk⟩
  exact h.trans hk

/-- No key of the region is below what lies apart from it. -/
theorem clip_diff_apart (h : Apart p K) : clip K v \ below p = clip K v := by
  ext k
  constructor
  · exact fun hk => hk.1
  · rintro ⟨hv, hk⟩
    exact ⟨⟨hv, hk⟩, h.symm.not_mem hk⟩

/-- A transplant whose source and target lie in the region keeps in it. -/
theorem transplant_clip (h : K <+: a) : transplant a b (clip K v) = transplant a b v := by
  ext k
  constructor
  · rintro ⟨t, rfl, ht, -⟩
    exact ⟨t, rfl, ht⟩
  · rintro ⟨t, rfl, ht⟩
    exact ⟨t, rfl, ht, h.trans (List.prefix_append a t)⟩

/-- The target of a move lies in the region. -/
theorem clip_relocate_inside (h : K <+: b) :
    clip K (relocate a b v) = (clip K v \ below a) \ below b ∪ transplant a b v := by
  have ht : transplant a b v ⊆ below K := fun k hk => h.trans (transplant_below hk)
  ext k
  have hk := @ht k
  simp only [clip, relocate, Set.mem_inter_iff, Set.mem_union, Set.mem_sdiff, mem_below] at hk ⊢
  tauto

/-- The target of a move lies above the region: what arrives in the region is
    the part of the source at the same depth. -/
theorem clip_relocate_above (u : List C) :
    clip (b ++ u) (relocate a b v) = transplant (a ++ u) (b ++ u) v := by
  ext k
  constructor
  · rintro ⟨⟨-, hb⟩ | ⟨t, rfl, ht⟩, hk⟩
    · exact absurd ((List.prefix_append b u).trans hk) hb
    · obtain ⟨t', he⟩ := hk
      rw [List.append_assoc, List.append_cancel_left_eq] at he
      subst he
      exact ⟨t', by simp, by simpa using ht⟩
  · rintro ⟨t, rfl, ht⟩
    refine ⟨.inr ⟨u ++ t, by simp, by simpa using ht⟩, ?_⟩
    exact List.prefix_append _ t

/-- The target of a move lies apart from the region: only the departure shows. -/
theorem clip_relocate_apart (h : Apart b K) :
    clip K (relocate a b v) = clip K v \ below a := by
  ext k
  have hb : b <+: k → ¬ K <+: k := fun hp => h.not_mem hp
  have ht : k ∈ transplant a b v → b <+: k := fun hk => transplant_below hk
  simp only [clip, relocate, Set.mem_inter_iff, Set.mem_union, Set.mem_sdiff, mem_below]
  tauto

/-! ### Edits of separate regions -/

/-- An edit that reads and writes only the keys of `R`. -/
structure Local (R : Set (List C)) (edit : Set (List C) → Set (List C)) : Prop where
  outside : ∀ v k, k ∉ R → (k ∈ edit v ↔ k ∈ v)
  inside : ∀ v w, (∀ k ∈ R, k ∈ v ↔ k ∈ w) → ∀ k ∈ R, k ∈ edit v ↔ k ∈ edit w

theorem Local.mono {R S : Set (List C)} {edit : Set (List C) → Set (List C)}
    (h : Local R edit) (hs : R ⊆ S) : Local S edit where
  outside v k hk := h.outside v k fun hr => hk (hs hr)
  inside v w hv k hk := by
    by_cases hr : k ∈ R
    · exact h.inside v w (fun j hj => hv j (hs hj)) k hr
    · rw [h.outside v k hr, h.outside w k hr]
      exact hv k hk

/-- Edits of separate regions commute. -/
theorem Local.comm {R S : Set (List C)} {edit edit' : Set (List C) → Set (List C)}
    (h : Local R edit) (h' : Local S edit') (hd : Disjoint R S) (v : Set (List C)) :
    edit (edit' v) = edit' (edit v) := by
  have apart : ∀ k ∈ R, k ∉ S := fun k hR hS => Set.disjoint_left.mp hd hR hS
  ext k
  by_cases hR : k ∈ R
  · have hin : k ∈ edit (edit' v) ↔ k ∈ edit v :=
      h.inside _ _ (fun j hj => h'.outside v j (apart j hj)) k hR
    rw [hin, h'.outside _ k (apart k hR)]
  · rw [h.outside _ k hR]
    by_cases hS : k ∈ S
    · exact h'.inside _ _ (fun j hj => (h.outside v j fun hj' => apart j hj' hj).symm) k hS
    · rw [h'.outside _ k hS, h'.outside _ k hS, h.outside _ k hR]

theorem local_reread : Local (below p) (reread fs p) where
  outside := by
    intro v k hk
    simp only [reread, Set.mem_union, Set.mem_sdiff, Set.mem_inter_iff]
    tauto
  inside := by
    intro v w _ k hk
    simp only [reread, Set.mem_union, Set.mem_sdiff, Set.mem_inter_iff]
    tauto

theorem local_delete : Local (below p) (delete p) := by
  have h : (delete p : Set (List C) → Set (List C)) = reread ∅ p := funext fun _ => delete_eq_reread
  rw [h]
  exact local_reread

theorem local_insert : Local (below p) (insert p) where
  outside := by
    intro v k hk
    have hne : k ≠ p := by
      rintro rfl
      exact hk List.prefix_rfl
    simp [hne]
  inside := by
    intro v w h k hk
    rw [Set.mem_insert_iff, Set.mem_insert_iff, h k hk]

theorem local_relocate : Local (below a ∪ below b) (relocate a b) where
  outside := by
    intro v k hk
    have hb : k ∉ transplant a b v := fun ht => hk (.inr (transplant_below ht))
    simp only [Set.mem_union] at hk
    simp only [relocate, Set.mem_union, Set.mem_sdiff]
    tauto
  inside := by
    intro v w h k hk
    have ht : k ∈ transplant a b v ↔ k ∈ transplant a b w := by
      constructor
      · rintro ⟨t, rfl, ht⟩
        exact ⟨t, rfl, (h _ (.inl (List.prefix_append a t))).mp ht⟩
      · rintro ⟨t, rfl, ht⟩
        exact ⟨t, rfl, (h _ (.inl (List.prefix_append a t))).mpr ht⟩
    simp only [Set.mem_union] at hk
    simp only [relocate, Set.mem_union, Set.mem_sdiff]
    tauto

end Region
