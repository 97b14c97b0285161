import Tributaries.Umbrella.Departures
import Tributaries.Antichain

/-! # Retained covers

  The antichain of some keys is their least cover, in ascending order; what
  the engine reports as a shrink, and what it would grow a root up to, are
  antichains of the keys of live subscriptions.
-/

open Std Collections Region

namespace Umbrella

open Proto (ScopeId)

variable {C V H : Type} {R T : Type → Type}
variable [DecidableEq C] [Ord C] [TransOrd C] [LawfulEqOrd C]
  [DecidableEq H] [Ord H] [TransOrd H] [LawfulEqOrd H] [Radix C R] [Trie ScopeId T]

/-! ### Ascending lists -/

/-- The keys ascend. -/
def Ascending (A : List (List C)) : Prop := A.Pairwise fun a b => compare a b = .lt

section
omit [DecidableEq C] [LawfulEqOrd C]

theorem compare_lt_trans {a b c : List C} (hab : compare a b = .lt) (hbc : compare b c = .lt) :
    compare a c = .lt := TransCmp.lt_trans hab hbc

end

section
omit [DecidableEq C] [TransOrd C]

theorem compare_lt_irrefl (a : List C) : compare a a ≠ .lt := by
  intro h
  have he : compare a a = .eq := ReflCmp.compare_self
  rw [he] at h
  cases h

/-- What is not above and not equal is below. -/
theorem compare_lt_of_isLE {a b : List C} (h : (compare a b).isLE) (hne : a ≠ b) :
    compare a b = .lt := by
  cases hc : compare a b with
  | lt => rfl
  | eq => exact absurd (LawfulEqCmp.eq_of_compare hc) hne
  | gt =>
    rw [hc] at h
    cases h

theorem Ascending.nodup {A : List (List C)} (h : Ascending A) : A.Nodup := by
  refine h.imp ?_
  intro a b hab he
  exact compare_lt_irrefl b (he ▸ hab)

end

section
omit [DecidableEq C]

/-- Ascending lists of the same keys are equal. -/
theorem Ascending.eq {A B : List (List C)} (hA : Ascending A) (hB : Ascending B)
    (h : ∀ k, k ∈ A ↔ k ∈ B) : A = B := by
  refine List.Perm.eq_of_pairwise ?_ hA hB
    ((List.perm_ext_iff_of_nodup hA.nodup hB.nodup).mpr h)
  intro a b _ _ hab hba
  exact absurd (compare_lt_trans hab hba) (compare_lt_irrefl a)

end

/-! ### The antichain of some keys -/

/-- Each step of the deduplication keeps an ascending list of what it met. -/
theorem dedup_ascending {l : List (List C)} (acc : List (List C)) (hacc : Ascending acc)
    (hl : l.Pairwise fun a b => (compare a b).isLE)
    (hle : ∀ a ∈ acc, ∀ b ∈ l, (compare a b).isLE) :
    Ascending (l.foldl dedup_step acc) ∧ ∀ k, k ∈ l.foldl dedup_step acc ↔ k ∈ acc ∨ k ∈ l := by
  induction l generalizing acc with
  | nil => exact ⟨hacc, fun k => by simp⟩
  | cons key l ih =>
    rw [List.pairwise_cons] at hl
    rw [List.foldl_cons]
    by_cases hlast : acc.getLast? = some key
    · have hmem : key ∈ acc := List.mem_of_getLast? hlast
      rw [dedup_step, if_pos hlast]
      obtain ⟨h₁, h₂⟩ := ih _ hacc hl.2 fun a ha b hb => hle a ha b (List.mem_cons_of_mem _ hb)
      refine ⟨h₁, fun k => ?_⟩
      rw [h₂, List.mem_cons]
      constructor
      · rintro (h | h)
        · exact .inl h
        · exact .inr (.inr h)
      · rintro (h | rfl | h)
        · exact .inl h
        · exact .inl hmem
        · exact .inr h
    · rw [dedup_step, if_neg hlast]
      -- the key is above the last one kept, so above all of them
      have hlt : ∀ a ∈ acc, compare a key = .lt := by
        intro a ha
        refine compare_lt_of_isLE (hle a ha key List.mem_cons_self) ?_
        rintro rfl
        obtain ⟨init, last, rfl⟩ := (List.eq_nil_or_concat' acc).resolve_left
          (List.ne_nil_of_mem ha)
        have hmem : last ∈ init ++ [last] := List.mem_append_right _ (List.mem_singleton.mpr rfl)
        have hne : a ≠ last := fun he => hlast (by rw [he, List.getLast?_concat])
        have ha' : a ∈ init := by
          rcases List.mem_append.mp ha with h | h
          · exact h
          · exact absurd (List.mem_singleton.mp h) hne
        have hal : compare a last = .lt :=
          (List.pairwise_append.mp hacc).2.2 a ha' last (List.mem_singleton.mpr rfl)
        have hla : compare last a = .lt :=
          compare_lt_of_isLE (hle last hmem a List.mem_cons_self) hne.symm
        exact compare_lt_irrefl a (compare_lt_trans hal hla)
      have hacc' : Ascending (acc ++ [key]) := by
        refine List.pairwise_append.mpr ⟨hacc, List.pairwise_singleton .., ?_⟩
        intro a ha b hb
        rw [List.mem_singleton.mp hb]
        exact hlt a ha
      have hle' : ∀ a ∈ acc ++ [key], ∀ b ∈ l, (compare a b).isLE := by
        intro a ha b hb
        rcases List.mem_append.mp ha with h | h
        · exact hle a h b (List.mem_cons_of_mem _ hb)
        · rw [List.mem_singleton.mp h]
          exact hl.1 b hb
      obtain ⟨h₁, h₂⟩ := ih _ hacc' hl.2 hle'
      refine ⟨h₁, fun k => ?_⟩
      rw [h₂, List.mem_append, List.mem_singleton, List.mem_cons, or_assoc]

theorem antichain_spec (keys : List (List C)) : Ascending (antichain keys) ∧
    ∀ k, k ∈ antichain keys ↔ k ∈ keys ∧ ∀ a ∈ keys, a <+: k → a = k := by
  have hsort : (keys.mergeSort fun a b => (compare a b).isLE).Pairwise
      fun a b => (compare a b).isLE := by
    refine List.pairwise_mergeSort ?_ ?_ keys
    · intro a b c hab hbc
      exact TransCmp.isLE_trans hab hbc
    · intro a b
      cases h : compare a b with
      | lt | eq => rfl
      | gt =>
        rw [OrientedCmp.gt_iff_lt] at h
        rw [h]
        rfl
  obtain ⟨hasc, hmem⟩ := dedup_ascending [] List.Pairwise.nil hsort
    fun a ha => absurd ha List.not_mem_nil
  have hded : ∀ k, k ∈ (keys.mergeSort fun a b => (compare a b).isLE).foldl dedup_step [] ↔
      k ∈ keys := by
    intro k
    rw [hmem, List.mem_mergeSort]
    exact or_iff_right List.not_mem_nil
  unfold antichain
  refine ⟨hasc.filter _, ?_⟩
  intro k
  rw [List.mem_filter, hded]
  refine and_congr_right fun _ => ?_
  rw [Bool.not_eq_true', List.any_eq_false]
  constructor
  · intro h a ha hp
    by_contra hne
    refine h a ((hded a).mpr ha) ?_
    rw [Bool.and_eq_true, decide_eq_true_iff, List.isPrefixOf_iff_prefix]
    exact ⟨Nat.lt_of_le_of_ne hp.length_le fun he => hne (hp.eq_of_length he), hp⟩
  · intro h a ha hc
    rw [Bool.and_eq_true, decide_eq_true_iff, List.isPrefixOf_iff_prefix] at hc
    rw [h a ((hded a).mp ha) hc.2] at hc
    exact Nat.lt_irrefl _ hc.1

theorem antichain_ascending (keys : List (List C)) : Ascending (antichain keys) :=
  (antichain_spec keys).1

/-- The antichain of some keys is their least cover. -/
theorem antichain_least (keys : List (List C)) : LeastCover keys (antichain keys) :=
  leastCover_of_minimal (antichain_spec keys).2

theorem mem_antichain {keys : List (List C)} {k : List C} (h : k ∈ antichain keys) : k ∈ keys :=
  ((antichain_spec keys).2 k |>.mp h).1

/-! ### Recorded coverage -/

/-- The coverage recorded for a root: all of it, or what lies below the
    retained prefixes. -/
def RootRecord.coverage (r : RootRecord C H) : Set (List C) :=
  match r.retained_cover with
  | none => below r.key
  | some cover => ground cover

/-- A cover as the engine records one: prefix-free, ascending, and below the
    root it is recorded for. -/
structure Formed (k : List C) (cover : List (List C)) : Prop where
  prefix_free : PrefixFree cover
  ascending : Ascending cover
  inside : ∀ c ∈ cover, k <+: c

section
omit [DecidableEq C] [TransOrd C] [LawfulEqOrd C]

theorem formed_nil (k : List C) : Formed k [] :=
  ⟨fun _ h => absurd h List.not_mem_nil, List.Pairwise.nil, fun _ h => absurd h List.not_mem_nil⟩

end

theorem formed_antichain {k : List C} {keys : List (List C)} (h : ∀ key ∈ keys, k <+: key) :
    Formed k (antichain keys) :=
  ⟨(antichain_least keys).prefix_free, antichain_ascending keys, fun c hc => h c (mem_antichain hc)⟩

section
omit [DecidableEq C] [TransOrd C] [LawfulEqOrd C] [DecidableEq H] [Ord H] [TransOrd H] [LawfulEqOrd H]

/-- The coverage recorded for a root lies below it. -/
theorem RootRecord.coverage_inside {r : RootRecord C H}
    (h : ∀ cover, r.retained_cover = some cover → Formed r.key cover) :
    r.coverage ⊆ below r.key := by
  unfold RootRecord.coverage
  cases hc : r.retained_cover with
  | none => exact subset_rfl
  | some cover =>
    rw [← ground_singleton, ground_subset_iff]
    intro c hm
    exact ⟨r.key, List.mem_singleton.mpr rfl, (h cover hc).inside c hm⟩

end

section
omit [Ord C] [TransOrd C] [LawfulEqOrd C] [DecidableEq H] [Ord H] [TransOrd H] [LawfulEqOrd H]

/-- A key that is not outside a record is in the coverage it records. -/
theorem RootRecord.below_coverage {r : RootRecord C H} {key : List C} (hk : r.key <+: key)
    (h : r.covered_outside key = false) : below key ⊆ r.coverage := by
  unfold RootRecord.covered_outside at h
  unfold RootRecord.coverage
  cases hc : r.retained_cover with
  | none => exact below_anti hk
  | some cover =>
    rw [hc] at h
    simp only [Bool.not_eq_false', List.any_eq_true, List.isPrefixOf_iff_prefix] at h
    exact ground_closed h

end

namespace Subsumer

variable {s s' : Subsumer C V H R T} {carried : Carried V}

/-- Every recorded cover is well formed. -/
def Recorded (s : Subsumer C V H R T) : Prop :=
  ∀ k r, Trie.get s.index k = some r → ∀ cover, r.retained_cover = some cover → Formed k cover

/-- The keys of the live subscriptions of a root. -/
def RiderKeys (s : Subsumer C V H R T) (handle : H) (keys : List (List C)) : Prop :=
  ∀ k, k ∈ keys ↔ ∃ x ∈ cohort_of s.root_subs handle, s.subscription_key x = some k

section
omit [TransOrd C] [LawfulEqOrd C] [DecidableEq H] [LawfulEqOrd H]

theorem subscription_key_below (hs : Sound s carried) {handle : H} {k key : List C}
    {x : Subscription} (hk : s.by_handle[handle]? = some k)
    (hx : x ∈ cohort_of s.root_subs handle) (hkey : s.subscription_key x = some key) :
    k <+: key := by
  obtain ⟨r, hr, rfl⟩ := hs.housed.live hx
  unfold subscription_key at hkey
  rw [hr] at hkey
  cases hkey
  exact hs.housed.below x r k hr hk

end

section
omit [DecidableEq H] [TransOrd H] [LawfulEqOrd H] [Trie ScopeId T]

/-- A shrink that is found is the least cover of the survivors' keys, and
    strictly narrower than what was recorded. -/
theorem detect_shrink_spec {root_key : List C} (root : H) {handle : H} {cohort : List Subscription}
    {A : List (List C)} {r : RootRecord C H} (hrec : s.Recorded)
    (hg : Trie.get s.index root_key = some r) (hkey : r.key = root_key)
    (hlive : ∀ x ∈ cohort, ∃ r', s.subs[x]? = some r')
    (hin : ∀ x ∈ cohort, ∀ key, s.subscription_key x = some key → root_key <+: key)
    (h : s.detect_shrink root_key root cohort = .ok (some (handle, A))) :
    handle = root ∧ Ascending A ∧ ground A ⊂ r.coverage ∧
      ∃ keys, (∀ k, k ∈ keys ↔ ∃ x ∈ cohort, s.subscription_key x = some k) ∧
        LeastCover keys A := by
  obtain ⟨keys, hkeys, hmem⟩ := keys_of_ok (s := s) .survivor_dead _ hlive
  unfold detect_shrink at h
  rw [hkeys] at h
  dsimp only at h
  rw [hg, Option.bind_some] at h
  have hbelow : ∀ key ∈ keys, root_key <+: key := by
    intro key hk
    obtain ⟨x, hx, hxk⟩ := (hmem key).mp hk
    exact hin x hx key hxk
  have hleast := antichain_least keys
  cases hc : r.retained_cover with
  | none =>
    rw [hc] at h
    dsimp only at h
    split at h
    · cases h
    · next hout =>
      cases h
      refine ⟨rfl, antichain_ascending keys, ?_, keys, hmem, hleast⟩
      unfold RootRecord.coverage
      rw [hc, hkey]
      refine ⟨?_, ?_⟩
      · dsimp only
        rw [← ground_singleton, ground_subset_iff]
        intro a ha
        exact ⟨root_key, List.mem_singleton.mpr rfl, hbelow a (mem_antichain ha)⟩
      · intro hsub
        obtain ⟨a, ha, hp⟩ := hsub (show root_key ∈ below root_key from List.prefix_rfl)
        have ha' := mem_antichain ha
        have he : a = root_key :=
          List.IsPrefix.eq_of_length_le hp (hbelow a ha').length_le
        exact hout (he ▸ ha')
  | some cover =>
    have hform := hrec root_key r hg cover hc
    rw [hc] at h
    dsimp only at h
    split at h
    · next hcond =>
      cases h
      obtain ⟨hcontained, hne⟩ := hcond
      refine ⟨rfl, antichain_ascending keys, ?_, keys, hmem, hleast⟩
      unfold RootRecord.coverage
      rw [hc]
      dsimp only
      have hsub : ground (antichain keys) ⊆ ground cover := by
        rw [ground_subset_iff]
        intro a ha
        simp only [List.all_eq_true, List.any_eq_true, List.isPrefixOf_iff_prefix] at hcontained
        exact hcontained a ha
      refine ⟨hsub, ?_⟩
      intro hsup
      -- covers of one region are one ascending list
      have he := hsub.antisymm hsup
      apply hne
      refine (antichain_ascending keys).eq hform.ascending fun k => ⟨?_, ?_⟩
      · exact hleast.prefix_free.mem_of_ground he
      · exact hform.prefix_free.mem_of_ground he.symm
    · cases h

end

/-- A shrink the engine reports names a live root, is the least cover of the
    keys that survive on it, and is strictly narrower than what was recorded
    for it. -/
theorem plan_unwatch_shrink (hs : Sound s carried) (hrec : s.Recorded) {sub : Subscription}
    {handle : H} {A : List (List C)}
    (h : s.plan_unwatch sub = .ok (some (.dropped (some (handle, A))), s')) :
    ∃ k r, s.by_handle[handle]? = some k ∧ Trie.get s.index k = some r ∧ r.handle = handle ∧
      Ascending A ∧ ground A ⊂ r.coverage ∧
      ∃ keys, s'.RiderKeys handle keys ∧ LeastCover keys A := by
  rcases plan_unwatch_cases hs sub with ⟨-, h'⟩ | ⟨r₀, k, hr₀, hk, ⟨-, h'⟩ | ⟨-, shrink, hd, h'⟩⟩
  · rw [h'] at h
    cases h
  · rw [h'] at h
    cases h
  · rw [h'] at h
    cases h
    obtain ⟨r, hg, hh⟩ := hs.rooted.handle r₀.root k hk
    have hkey := (hs.rooted.record k r hg).1
    have hkeep : ∀ x key, (s.dropped sub r₀).subscription_key x = some key →
        s.subscription_key x = some key := by
      intro x key hx
      obtain ⟨r', hr', rfl⟩ := Option.map_eq_some_iff.mp hx
      obtain ⟨r₁, hr₁, hk₁, -⟩ := subs_erase_keeps x r' hr'
      rw [subscription_key, hr₁, Option.map_some, hk₁]
    obtain ⟨rfl, hasc, hsub, keys, hmem, hleast⟩ :=
      detect_shrink_spec (s := s.dropped sub r₀) r₀.root hrec hg hkey (survivors_live hs)
        (fun x hx key hkey' => subscription_key_below hs hk (List.mem_filter.mp hx).1
          (hkeep x key hkey')) hd
    refine ⟨k, r, hk, hg, hh, hasc, hsub, keys, ?_, hleast⟩
    intro k'
    rw [hmem]
    show _ ↔ ∃ x ∈ cohort_of (s.root_subs.insert r₀.root (s.survivors sub r₀.root)) r₀.root, _
    rw [cohort_of_insert, if_pos rfl]
    rfl

section
omit [DecidableEq H] [LawfulEqOrd H]

/-- What a root would be grown up to covers the keys of its subscriptions and
    the newcomer's. -/
theorem retained_cover_for_spec (hs : Sound s carried) {handle : H} {k key : List C}
    (hk : s.by_handle[handle]? = some k) (hle : k <+: key) :
    ∃ answer, s.retained_cover_for handle (some key) = .ok answer ∧
      ∀ cover, answer = some cover → Formed k cover ∧ key ∈ ground cover := by
  obtain ⟨r, hg, -⟩ := hs.rooted.handle handle k hk
  obtain ⟨keys, hkeys, hmem⟩ := keys_of_ok (s := s) .subscriber_dead
    (cohort_of s.root_subs handle) fun x hx => by
      obtain ⟨r, hr, -⟩ := hs.housed.live hx
      exact ⟨r, hr⟩
  have hbelow : ∀ key' ∈ keys ++ (some key).toList, k <+: key' := by
    intro key' hm
    rcases List.mem_append.mp hm with hm | hm
    · obtain ⟨x, hx, hxk⟩ := (hmem key').mp hm
      exact subscription_key_below hs hk hx hxk
    · rw [List.mem_singleton.mp hm]
      exact hle
  unfold cohort_of at hkeys
  unfold retained_cover_for
  rw [hk]
  dsimp only
  rw [hg]
  dsimp only
  rw [hkeys]
  dsimp only
  by_cases hm : k ∈ keys ++ (some key).toList
  · rw [if_pos hm]
    exact ⟨none, rfl, fun cover h => by cases h⟩
  · rw [if_neg hm]
    refine ⟨_, rfl, ?_⟩
    intro cover h
    cases h
    exact ⟨formed_antichain hbelow, (antichain_least _).covers key
      (List.mem_append_right _ (List.mem_singleton.mpr rfl))⟩

end

end Subsumer

end Umbrella
