import Tributaries.Umbrella.Commits

/-! # Departures and rebinds

  The calls that apply at once: each goes through without a panic, keeps
  the invariant, and leaves alone the roots it does not name.
-/

open Std Collections Region

namespace Umbrella

open Proto (ScopeId)

variable {C V H : Type} {R T : Type → Type}
variable [DecidableEq C] [Ord C] [TransOrd C] [LawfulEqOrd C]
  [DecidableEq H] [Ord H] [TransOrd H] [LawfulEqOrd H] [Radix C R] [Trie ScopeId T]

/-- A call leaves the roots of some handles where they are, plants none, and
    leaves the plans. -/
structure Spares (s s' : Subsumer C V H R T) (u : List H) : Prop where
  keys : ∀ p r', Trie.get s'.index p = some r' → ∃ r, Trie.get s.index p = some r
  roots : ∀ p r, Trie.get s.index p = some r → r.handle ∈ u →
    ∃ r', Trie.get s'.index p = some r' ∧ r'.handle = r.handle
  handles : ∀ h ∈ u, s'.by_handle[h]? = s.by_handle[h]?
  pending : s'.pending = s.pending

namespace Subsumer

variable {s s' : Subsumer C V H R T} {carried : Carried V}

section
omit [TransOrd C] [LawfulEqOrd C] [LawfulEqOrd H] [Trie ScopeId T]

/-- A check that held still holds where the planned roots are spared. -/
theorem fs_path_preserves_plan_spared {u : List H} (h : Spares s s' u) {key : List C}
    (hk : s.fs_path_preserves_plan key u = true) : s'.fs_path_preserves_plan key u = true := by
  obtain ⟨habove, hbelow, hu⟩ := fs_path_preserves_plan_iff.mp hk
  refine fs_path_preserves_plan_iff.mpr ⟨?_, ?_, ?_⟩
  · intro p hp
    cases hg : Trie.get s'.index p with
    | none => rfl
    | some r' =>
      obtain ⟨r, hr⟩ := h.keys p r' hg
      rw [habove p hp] at hr
      cases hr
  · intro p r' hg ha
    obtain ⟨r, hr⟩ := h.keys p r' hg
    have hmem := hbelow p r hr ha
    obtain ⟨r'', hg', hh⟩ := h.roots p r hr hmem
    rw [hg] at hg'
    cases hg'
    rw [hh]
    exact hmem
  · intro h' hmem
    obtain ⟨p, r, hr, ha, rfl⟩ := hu h' hmem
    obtain ⟨r', hg, hh⟩ := h.roots p r hr hmem
    exact ⟨p, r', hg, ha, hh⟩

end

/-! ### An aborted plan -/

section
omit [TransOrd C] [LawfulEqOrd C] [DecidableEq H] [LawfulEqOrd H]

theorem abort_watch_sound (hs : Sound s carried) (outcome : WatchOutcome H) :
    Sound (s.abort_watch outcome) carried ∧ Keeps s (s.abort_watch outcome) := by
  refine ⟨⟨hs.rooted, hs.housed, hs.attributed, hs.minted.unplan outcome.sub, hs.published⟩, ?_⟩
  refine ⟨fun _ r' h => .inl ⟨r', h, rfl, rfl⟩, ?_, Nat.le_refl _, rfl⟩
  intro x p' hx
  unfold abort_watch at hx
  rw [get_erase] at hx
  split at hx
  · cases hx
  · exact .inl ⟨p', hx⟩

end

/-! ### A subscription departs -/

/-- The rest of a departing subscription's cohort. -/
def survivors (s : Subsumer C V H R T) (sub : Subscription) (root : H) : List Subscription :=
  (cohort_of s.root_subs root).filter fun other => decide (other ≠ sub)

/-- The engine without a subscription that was its root's last. -/
def emptied (s : Subsumer C V H R T) (sub : Subscription) (r : SubRecord C H) (k : List C) :
    Subsumer C V H R T :=
  { s.cover_remove sub r.key with
    subs := s.subs.erase sub
    index := Trie.remove s.index k
    by_handle := s.by_handle.erase r.root
    root_subs := (s.root_subs.insert r.root []).erase r.root }.publish

/-- The engine without a subscription whose root lives on. -/
def dropped (s : Subsumer C V H R T) (sub : Subscription) (r : SubRecord C H) :
    Subsumer C V H R T :=
  { s.cover_remove sub r.key with
    subs := s.subs.erase sub
    root_subs := s.root_subs.insert r.root (s.survivors sub r.root) }

section
omit [TransOrd C] [LawfulEqOrd C] [DecidableEq H] [LawfulEqOrd H]

theorem survivors_live (hs : Sound s carried) {sub : Subscription} {r : SubRecord C H} :
    ∀ x ∈ s.survivors sub r.root, ∃ r', (s.dropped sub r).subs[x]? = some r' := by
  intro x hx
  obtain ⟨hx, hne⟩ := List.mem_filter.mp hx
  obtain ⟨r', hr', -⟩ := hs.housed.live hx
  refine ⟨r', ?_⟩
  show (s.subs.erase sub)[x]? = some r'
  rw [get_erase, if_neg (Ne.symm (of_decide_eq_true hne))]
  exact hr'

end

section
omit [TransOrd C] [LawfulEqOrd C] [DecidableEq H] [TransOrd H] [LawfulEqOrd H] [Trie ScopeId T]

/-- A shrink is looked for without a panic. -/
theorem detect_shrink_ok (root_key : List C) (root : H) {cohort : List Subscription}
    (h : ∀ x ∈ cohort, ∃ r, s.subs[x]? = some r) :
    ∃ shrink, s.detect_shrink root_key root cohort = .ok shrink := by
  obtain ⟨keys, hk, -⟩ := keys_of_ok .survivor_dead _ h
  unfold detect_shrink
  rw [hk]
  dsimp only
  cases (Trie.get s.index root_key).bind RootRecord.retained_cover with
  | none =>
    dsimp only
    split
    · exact ⟨_, rfl⟩
    · exact ⟨_, rfl⟩
  | some cover =>
    dsimp only
    split
    · exact ⟨_, rfl⟩
    · exact ⟨_, rfl⟩

end

section
omit [TransOrd C] [LawfulEqOrd C] [DecidableEq H] [LawfulEqOrd H]

/-- What `plan_unwatch` does: nothing, or it empties a root, or it drops one
    of several subscriptions. -/
theorem plan_unwatch_cases (hs : Sound s carried) (sub : Subscription) :
    (s.subs[sub]? = none ∧ s.plan_unwatch sub = .ok (none, s)) ∨
    ∃ r k, s.subs[sub]? = some r ∧ s.by_handle[r.root]? = some k ∧
      ((s.survivors sub r.root = [] ∧
        s.plan_unwatch sub = .ok (some (.root_emptied r.root), s.emptied sub r k)) ∨
      (s.survivors sub r.root ≠ [] ∧ ∃ shrink,
        (s.dropped sub r).detect_shrink k r.root (s.survivors sub r.root) = .ok shrink ∧
        s.plan_unwatch sub = .ok (some (.dropped shrink), (s.dropped sub r).publish))) := by
  cases hsub : s.subs[sub]? with
  | none =>
    left
    unfold plan_unwatch
    rw [hsub]
    exact ⟨rfl, rfl⟩
  | some r =>
    right
    have hcohort : sub ∈ cohort_of s.root_subs r.root := (hs.housed.rides sub r.root).mpr ⟨r, hsub, rfl⟩
    cases hc : s.root_subs[r.root]? with
    | none =>
      rw [cohort_of, hc] at hcohort
      cases hcohort
    | some cohort =>
      have hco : cohort_of s.root_subs r.root = cohort := by rw [cohort_of, hc]; rfl
      cases hk : s.by_handle[r.root]? with
      | none =>
        rw [(hs.rooted.cohort r.root).mp hk] at hc
        cases hc
      | some k =>
        have hsv : (cohort.filter fun other => decide (other ≠ sub)) = s.survivors sub r.root := by
          rw [survivors, hco]
        refine ⟨r, k, rfl, hk, ?_⟩
        unfold plan_unwatch
        rw [hsub]
        dsimp only
        rw [hk, hc]
        dsimp only
        rw [hsv]
        by_cases he : s.survivors sub r.root = []
        · left
          rw [if_pos he, he]
          exact ⟨rfl, rfl⟩
        · right
          obtain ⟨shrink, hd⟩ := detect_shrink_ok (s := s.dropped sub r) k r.root
            (survivors_live hs)
          refine ⟨he, shrink, hd, ?_⟩
          rw [if_neg he]
          have hd' : ({ s with
              subs := s.subs.erase sub
              root_subs := s.root_subs.insert r.root (s.survivors sub r.root) }.cover_remove sub
                r.key).detect_shrink k r.root (s.survivors sub r.root) = .ok shrink := hd
          rw [hd']
          rfl

end

section
omit [DecidableEq C] [Ord C] [TransOrd C] [LawfulEqOrd C] [DecidableEq H] [TransOrd H] [LawfulEqOrd H] [Radix C R] [Trie ScopeId T]

theorem subs_erase_keeps {sub : Subscription} (x : Subscription) (r' : SubRecord C H)
    (h : (s.subs.erase sub)[x]? = some r') :
    ∃ r, s.subs[x]? = some r ∧ r.key = r'.key ∧ r.interest = r'.interest := by
  rw [get_erase] at h
  split at h
  · cases h
  · exact ⟨r', h, rfl, rfl⟩

end

section
omit [TransOrd C] [LawfulEqOrd C] [DecidableEq H] [LawfulEqOrd H]

/-- The coverage plane without one subscription. -/
theorem depart_attributed (hs : Sound s carried) {sub : Subscription} {r : SubRecord C H}
    (hr : s.subs[sub]? = some r) :
    Attributed (s.cover_remove sub r.key).covers (s.subs.erase sub) s.instance_id carried := by
  refine hs.attributed.depart [sub] (cover_remove_filled s hs.attributed.filled sub r.key)
    (fun x r h => (hs.minted.live x r h).1) ?_ ?_
  · intro x
    rw [get_erase]
    by_cases hx : sub = x
    · rw [if_pos hx, if_pos (List.mem_singleton.mpr hx.symm)]
    · rw [if_neg hx, if_neg fun h => hx (List.mem_singleton.mp h).symm]
  · intro k id
    rw [at_cover_remove]
    congr 1
    simp only [List.mem_singleton, exists_eq_left, hr, Option.some.injEq, exists_eq_left', eq_iff_iff]
    exact and_comm

end

section
omit [TransOrd C] [LawfulEqOrd C]

theorem emptied_sound (hs : Sound s carried) {sub : Subscription} {r : SubRecord C H} {k : List C}
    (hr : s.subs[sub]? = some r) (hk : s.by_handle[r.root]? = some k)
    (he : s.survivors sub r.root = []) : Sound (s.emptied sub r k) carried := by
  have hroots : ((s.root_subs.insert r.root []).erase r.root) = s.root_subs.erase r.root := by
    refine ExtTreeMap.ext_getElem? fun h => ?_
    rw [get_erase, get_erase, get_insert]
    split <;> rfl
  refine ⟨?_, ?_, depart_attributed hs hr, ?_, rfl⟩
  · show Rooted _ _ ((s.root_subs.insert r.root []).erase r.root)
    rw [hroots]
    exact hs.rooted.drop hk
  · show Housed _ ((s.root_subs.insert r.root []).erase r.root) _
    have hleave := hs.housed.leave hr
    rw [show (cohort_of s.root_subs r.root).filter (fun other => decide (other ≠ sub)) = []
      from he] at hleave
    refine hleave.congr ?_ ?_
    · intro h
      rw [hroots, cohort_of_erase, cohort_of_insert]
    · intro h k' hb
      replace hb : (s.by_handle.erase r.root)[h]? = some k' := hb
      rw [get_erase] at hb
      split at hb
      · cases hb
      · exact hb
  · refine hs.minted.fewer ?_
    intro x r' hr'
    obtain ⟨r₀, hr₀, -⟩ := subs_erase_keeps x r' hr'
    exact ⟨r₀, hr₀⟩

theorem dropped_sound (hs : Sound s carried) {sub : Subscription} {r : SubRecord C H} {k : List C}
    (hr : s.subs[sub]? = some r) (hk : s.by_handle[r.root]? = some k) :
    Sound (s.dropped sub r).publish carried := by
  refine ⟨hs.rooted.recohort hk, hs.housed.leave hr, depart_attributed hs hr, ?_, rfl⟩
  refine hs.minted.fewer ?_
  intro x r' hr'
  obtain ⟨r₀, hr₀, -⟩ := subs_erase_keeps x r' hr'
  exact ⟨r₀, hr₀⟩

theorem plan_unwatch_sound (hs : Sound s carried) (sub : Subscription) :
    ∃ o s', s.plan_unwatch sub = .ok (o, s') ∧ Sound s' carried ∧ Keeps s s' ∧
      s'.next_sub = s.next_sub := by
  rcases plan_unwatch_cases hs sub with ⟨-, h⟩ | ⟨r, k, hr, hk, ⟨he, h⟩ | ⟨-, shrink, -, h⟩⟩
  · exact ⟨_, _, h, hs, Keeps.refl s, rfl⟩
  · exact ⟨_, _, h, emptied_sound hs hr hk he, Keeps.of_subs subs_erase_keeps rfl rfl rfl, rfl⟩
  · exact ⟨_, _, h, dropped_sound hs hr hk, Keeps.of_subs subs_erase_keeps rfl rfl rfl, rfl⟩

/-- A departure spares every root but the one it empties. -/
theorem plan_unwatch_spares (hs : Sound s carried) {sub : Subscription}
    {o : Option (UnwatchOutcome C H)} {u : List H}
    (hu : ∀ h ∈ u, sub ∈ cohort_of s.root_subs h → s.survivors sub h ≠ [])
    (h : s.plan_unwatch sub = .ok (o, s')) : Spares s s' u := by
  rcases plan_unwatch_cases hs sub with ⟨-, h'⟩ | ⟨r, k, hr, hk, ⟨he, h'⟩ | ⟨-, shrink, -, h'⟩⟩
  · rw [h'] at h
    cases h
    exact ⟨fun p r h => ⟨r, h⟩, fun p r h _ => ⟨r, h, rfl⟩, fun h _ => rfl, rfl⟩
  · rw [h'] at h
    cases h
    have hne : ∀ h ∈ u, r.root ≠ h := by
      intro h hh hroot
      subst hroot
      exact hu r.root hh ((hs.housed.rides sub r.root).mpr ⟨r, hr, rfl⟩) he
    refine ⟨?_, ?_, ?_, rfl⟩
    · intro p r' hg
      replace hg : Trie.get (Trie.remove s.index k) p = some r' := hg
      rw [Trie.get_remove] at hg
      split at hg
      · cases hg
      · exact ⟨r', hg⟩
    · intro p r' hg hh
      refine ⟨r', ?_, rfl⟩
      show Trie.get (Trie.remove s.index k) p = some r'
      rw [Trie.get_remove, if_neg, hg]
      rintro rfl
      obtain ⟨r₀, hg₀, hh₀⟩ := hs.rooted.handle r.root k hk
      rw [hg] at hg₀
      cases hg₀
      exact hne _ hh hh₀.symm
    · intro h hh
      exact (get_erase s.by_handle r.root h).trans (if_neg (hne h hh))
  · rw [h'] at h
    cases h
    exact ⟨fun p r h => ⟨r, h⟩, fun p r h _ => ⟨r, h, rfl⟩, fun h _ => rfl, rfl⟩

/-- A departure leaves the cohorts it is not in. -/
theorem plan_unwatch_cohorts (hs : Sound s carried) {sub : Subscription}
    {o : Option (UnwatchOutcome C H)} {h : H} (hn : sub ∉ cohort_of s.root_subs h)
    (h' : s.plan_unwatch sub = .ok (o, s')) : cohort_of s'.root_subs h = cohort_of s.root_subs h := by
  have hne : ∀ r, s.subs[sub]? = some r → r.root ≠ h := by
    rintro r hr rfl
    exact hn ((hs.housed.rides sub r.root).mpr ⟨r, hr, rfl⟩)
  rcases plan_unwatch_cases hs sub with ⟨-, h₁⟩ | ⟨r, k, hr, hk, ⟨-, h₁⟩ | ⟨-, shrink, -, h₁⟩⟩
  · rw [h₁] at h'
    cases h'
    rfl
  · rw [h₁] at h'
    cases h'
    show cohort_of ((s.root_subs.insert r.root []).erase r.root) h = _
    rw [cohort_of_erase, if_neg (hne r hr), cohort_of_insert, if_neg (hne r hr)]
  · rw [h₁] at h'
    cases h'
    show cohort_of (s.root_subs.insert r.root _) h = _
    rw [cohort_of_insert, if_neg (hne r hr)]

end

/-! ### A root dies -/

/-- The cohort of a root with its side-table records. -/
def departing (s : Subsumer C V H R T) (h : H) : List (Subscription × SubRecord C H) :=
  (cohort_of s.root_subs h).filterMap fun sub => (s.subs[sub]?).map fun r => (sub, r)

/-- The engine without a root and its cohort. -/
def disbanded (s : Subsumer C V H R T) (h : H) (k : List C) : Subsumer C V H R T :=
  { s with
    by_handle := s.by_handle.erase h
    index := Trie.remove s.index k
    root_subs := s.root_subs.erase h
    subs := (cohort_of s.root_subs h).foldl (fun subs sub => subs.erase sub) s.subs
    covers := (departing_by_key (s.departing h)).toList.foldl retire_group s.covers }.publish

section
omit [LawfulEqOrd C] [DecidableEq H] [LawfulEqOrd H]

theorem force_remove_root_cases (hs : Sound s carried) (h : H) :
    (s.by_handle[h]? = none ∧ s.force_remove_root h = .ok ([], s)) ∨
    ∃ k, s.by_handle[h]? = some k ∧
      s.force_remove_root h = .ok (cohort_of s.root_subs h, s.disbanded h k) := by
  unfold force_remove_root
  cases hk : s.by_handle[h]? with
  | none => exact .inl ⟨rfl, rfl⟩
  | some k =>
    obtain ⟨r, hg, -⟩ := hs.rooted.handle h k hk
    right
    refine ⟨k, rfl, ?_⟩
    dsimp only
    rw [hg]
    rfl

end

section
omit [DecidableEq C] [Ord C] [TransOrd C] [LawfulEqOrd C] [DecidableEq H] [LawfulEqOrd H] [Radix C R] [Trie ScopeId T]

theorem subs_disband_keeps {h : H} (x : Subscription) (r' : SubRecord C H)
    (hx : ((cohort_of s.root_subs h).foldl (fun subs sub => subs.erase sub) s.subs)[x]? = some r') :
    ∃ r, s.subs[x]? = some r ∧ r.key = r'.key ∧ r.interest = r'.interest := by
  rw [get_erase_all] at hx
  split at hx
  · cases hx
  · exact ⟨r', hx, rfl, rfl⟩

end

section
omit [DecidableEq H] [LawfulEqOrd H] [Radix C R] [Trie ScopeId T]

theorem mem_cohort_departing (h : H) (k : List C) (id : ScopeId) :
    (∃ g ∈ (departing_by_key (s.departing h)).toList, g.1 = k ∧ ∃ sub ∈ g.2, sub.scope = id) ↔
      ∃ x ∈ cohort_of s.root_subs h, x.scope = id ∧ ∃ r, s.subs[x]? = some r ∧ r.key = k := by
  have hmem : ∀ x r, (x, r) ∈ s.departing h ↔ x ∈ cohort_of s.root_subs h ∧ s.subs[x]? = some r := by
    intro x r
    unfold departing
    rw [List.mem_filterMap]
    constructor
    · rintro ⟨y, hy, he⟩
      obtain ⟨r', hr', he⟩ := Option.map_eq_some_iff.mp he
      cases he
      exact ⟨hy, hr'⟩
    · rintro ⟨hx, hr⟩
      exact ⟨x, hx, by rw [hr]; rfl⟩
  constructor
  · rintro ⟨g, hg, hk, x, hx, hid⟩
    obtain ⟨r, hd, hkey⟩ := (mem_departing (s.departing h) k x).mp ⟨g, hg, hk, hx⟩
    obtain ⟨hc, hr⟩ := (hmem x r).mp hd
    exact ⟨x, hc, hid, r, hr, hkey⟩
  · rintro ⟨x, hc, hid, r, hr, hkey⟩
    obtain ⟨g, hg, hk, hx⟩ := (mem_departing (s.departing h) k x).mpr ⟨r, (hmem x r).mpr ⟨hc, hr⟩, hkey⟩
    exact ⟨g, hg, hk, x, hx, hid⟩

end

theorem disbanded_sound (hs : Sound s carried) {h : H} {k : List C}
    (hk : s.by_handle[h]? = some k) : Sound (s.disbanded h k) carried := by
  refine ⟨hs.rooted.drop hk, hs.housed.disband fun x => get_erase_all .., ?_, ?_, rfl⟩
  · refine hs.attributed.depart (cohort_of s.root_subs h)
      (retire_groups_filled _ hs.attributed.filled) (fun x r h => (hs.minted.live x r h).1)
      (fun x => get_erase_all ..) ?_
    intro k' id
    show at_key ((departing_by_key (s.departing h)).toList.foldl retire_group s.covers) k' id = _
    rw [at_retire_groups]
    exact if_congr (mem_cohort_departing h k' id) rfl rfl
  · refine hs.minted.fewer ?_
    intro x r' hr'
    obtain ⟨r, hr, -⟩ := subs_disband_keeps x r' hr'
    exact ⟨r, hr⟩

theorem force_remove_root_sound (hs : Sound s carried) (h : H) :
    ∃ o s', s.force_remove_root h = .ok (o, s') ∧ Sound s' carried ∧ Keeps s s' ∧
      s'.next_sub = s.next_sub := by
  rcases force_remove_root_cases hs h with ⟨-, h'⟩ | ⟨k, hk, h'⟩
  · exact ⟨_, _, h', hs, Keeps.refl s, rfl⟩
  · exact ⟨_, _, h', disbanded_sound hs hk, Keeps.of_subs subs_disband_keeps rfl rfl rfl, rfl⟩

section
omit [LawfulEqOrd C]

theorem force_remove_root_spares (hs : Sound s carried) {h : H} {o : List Subscription}
    {u : List H} (hu : h ∉ u) (h' : s.force_remove_root h = .ok (o, s')) : Spares s s' u ∧
      ∀ h₁ ∈ u, cohort_of s'.root_subs h₁ = cohort_of s.root_subs h₁ := by
  rcases force_remove_root_cases hs h with ⟨-, h₁⟩ | ⟨k, hk, h₁⟩
  · rw [h₁] at h'
    cases h'
    exact ⟨⟨fun p r h => ⟨r, h⟩, fun p r h _ => ⟨r, h, rfl⟩, fun h _ => rfl, rfl⟩, fun h _ => rfl⟩
  · rw [h₁] at h'
    cases h'
    have hne : ∀ h₁ ∈ u, h ≠ h₁ := fun h₁ hm he => hu (he ▸ hm)
    refine ⟨⟨?_, ?_, ?_, rfl⟩, ?_⟩
    · intro p r' hg
      replace hg : Trie.get (Trie.remove s.index k) p = some r' := hg
      rw [Trie.get_remove] at hg
      split at hg
      · cases hg
      · exact ⟨r', hg⟩
    · intro p r' hg hh
      refine ⟨r', ?_, rfl⟩
      show Trie.get (Trie.remove s.index k) p = some r'
      rw [Trie.get_remove, if_neg, hg]
      rintro rfl
      obtain ⟨r₀, hg₀, hh₀⟩ := hs.rooted.handle h k hk
      rw [hg] at hg₀
      cases hg₀
      exact hne _ hh hh₀.symm
    · intro h₁ hh
      exact (get_erase s.by_handle h h₁).trans (if_neg (hne h₁ hh))
    · intro h₁ hh
      exact (cohort_of_erase s.root_subs h h₁).trans (if_neg (hne h₁ hh))

end

/-! ### A root is rebound -/

/-- The engine with a root on a fresh handle. -/
def rebound (s : Subsumer C V H R T) (old new : H) (k : List C) (record : RootRecord C H) :
    Subsumer C V H R T :=
  { s with
    index := Trie.insert s.index k { record with handle := new }
    by_handle := (s.by_handle.erase old).insert new k
    subs := (cohort_of s.root_subs old).foldl
      (fun subs sub => subs.modify sub fun side => { side with root := new }) s.subs
    root_subs := (s.root_subs.erase old).insert new (cohort_of s.root_subs old) }.publish

section
omit [TransOrd C] [LawfulEqOrd C] [DecidableEq H] [LawfulEqOrd H]

theorem rebind_root_cases (hs : Sound s carried) (old new : H) :
    (s.by_handle[old]? = none ∧ s.rebind_root old new = s) ∨
    ∃ k record, s.by_handle[old]? = some k ∧ Trie.get s.index k = some record ∧
      record.handle = old ∧ s.rebind_root old new = s.rebound old new k record := by
  unfold rebind_root
  cases hk : s.by_handle[old]? with
  | none => exact .inl ⟨rfl, rfl⟩
  | some k =>
    obtain ⟨record, hg, hh⟩ := hs.rooted.handle old k hk
    right
    refine ⟨k, record, rfl, hg, hh, ?_⟩
    dsimp only
    rw [hg]
    rfl

end

section
omit [DecidableEq C] [Ord C] [TransOrd C] [LawfulEqOrd C] [DecidableEq H] [LawfulEqOrd H] [Radix C R] [Trie ScopeId T]

theorem subs_rebind_keeps {old new : H} (x : Subscription) (r' : SubRecord C H)
    (hx : ((cohort_of s.root_subs old).foldl
      (fun subs sub => subs.modify sub fun side => { side with root := new }) s.subs)[x]? =
        some r') : ∃ r, s.subs[x]? = some r ∧ r.key = r'.key ∧ r.interest = r'.interest := by
  rw [get_modify_all] at hx
  split at hx
  · obtain ⟨r, hr, rfl⟩ := Option.map_eq_some_iff.mp hx
    exact ⟨r, hr, rfl, rfl⟩
  · exact ⟨r', hx, rfl, rfl⟩

end

section
omit [TransOrd C] [LawfulEqOrd C]

theorem rebound_sound (hs : Sound s carried) {old new : H} {k : List C}
    {record : RootRecord C H} (hk : s.by_handle[old]? = some k)
    (hg : Trie.get s.index k = some record) (hnew : s.by_handle[new]? = none) :
    Sound (s.rebound old new k record) carried := by
  have hne : old ≠ new := by
    rintro rfl
    rw [hnew] at hk
    cases hk
  refine ⟨?_, ?_, hs.attributed.reroot fun x => get_modify_all .., ?_, rfl⟩
  · have hplant := (hs.rooted.drop hk).plant { record with handle := new }
      (cohort_of s.root_subs old) (hs.rooted.record k record hg).1 rfl
      (by rw [get_erase, if_neg hne]; exact hnew) ?_
    · refine hplant.congr ?_
      intro k'
      show Trie.get (Trie.insert s.index k _) k' = _
      rw [Trie.get_insert, Trie.get_insert, Trie.get_remove]
      split <;> rfl
    · intro k' r hg'
      rw [Trie.get_remove] at hg'
      by_cases he : k = k'
      · rw [if_pos he] at hg'
        cases hg'
      · rw [if_neg he] at hg'
        exact ⟨fun hle => he (hs.rooted.prefix_free k' k r record hg' hg hle).symm,
          fun hle => he (hs.rooted.prefix_free k k' record r hg hg' hle)⟩
  · refine hs.housed.merge (f := new) (u := [old]) k
      ?_ ?_ (fun x => get_modify_all ..) (fun x => by simp) (hs.housed.nodup old) ?_ ?_
    · intro h
      show ((s.by_handle.erase old).insert new k)[h]? = _
      rw [get_insert, get_erase]
      simp only [List.mem_singleton, eq_comm]
    · intro h
      show cohort_of ((s.root_subs.erase old).insert new _) h = _
      rw [cohort_of_insert, cohort_of_erase]
      simp only [List.mem_singleton, eq_comm]
    · left
      rw [cohort_of, (hs.rooted.cohort new).mp hnew]
      rfl
    · intro h hh
      rw [List.mem_singleton.mp hh]
      exact ⟨k, hk, List.prefix_rfl⟩
  · refine hs.minted.fewer ?_
    intro x r' hr'
    obtain ⟨r, hr, -⟩ := subs_rebind_keeps x r' hr'
    exact ⟨r, hr⟩

theorem rebind_root_sound (hs : Sound s carried) (old new : H)
    (hnew : s.by_handle[old]? = none ∨ s.by_handle[new]? = none) :
    Sound (s.rebind_root old new) carried ∧ Keeps s (s.rebind_root old new) := by
  rcases rebind_root_cases hs old new with ⟨-, h⟩ | ⟨k, record, hk, hg, -, h⟩
  · rw [h]
    exact ⟨hs, Keeps.refl s⟩
  · rw [h]
    have hnew : s.by_handle[new]? = none := by
      rcases hnew with hn | hn
      · rw [hk] at hn
        cases hn
      · exact hn
    exact ⟨rebound_sound hs hk hg hnew, Keeps.of_subs subs_rebind_keeps rfl rfl rfl⟩

end

section
omit [TransOrd C] [LawfulEqOrd C] [DecidableEq H] [LawfulEqOrd H]

theorem rebind_root_minted (hs : Sound s carried) (old new : H) :
    (s.rebind_root old new).next_sub = s.next_sub := by
  rcases rebind_root_cases hs old new with ⟨-, h⟩ | ⟨k, record, -, -, -, h⟩
  · rw [h]
  · rw [h]
    rfl

end

section
omit [TransOrd C] [LawfulEqOrd C]

theorem rebind_root_spares (hs : Sound s carried) {old new : H} {u : List H}
    (hnew : s.by_handle[old]? = none ∨ s.by_handle[new]? = none) (hold : old ∉ u)
    (hu : ∀ h ∈ u, ∃ k, s.by_handle[h]? = some k) : Spares s (s.rebind_root old new) u ∧
      ∀ h ∈ u, cohort_of (s.rebind_root old new).root_subs h = cohort_of s.root_subs h := by
  rcases rebind_root_cases hs old new with ⟨-, h⟩ | ⟨k, record, hk, hg, hh, h⟩
  · rw [h]
    exact ⟨⟨fun p r h => ⟨r, h⟩, fun p r h _ => ⟨r, h, rfl⟩, fun h _ => rfl, rfl⟩, fun h _ => rfl⟩
  · rw [h]
    have hneo : ∀ h ∈ u, old ≠ h := fun h hm he => hold (he ▸ hm)
    have hnen : ∀ h ∈ u, new ≠ h := by
      rintro h hm rfl
      obtain ⟨k', hk'⟩ := hu new hm
      rcases hnew with hn | hn
      · rw [hk] at hn
        cases hn
      · rw [hk'] at hn
        cases hn
    refine ⟨⟨?_, ?_, ?_, rfl⟩, ?_⟩
    · intro p r' hg'
      replace hg' : Trie.get (Trie.insert s.index k { record with handle := new }) p = some r' := hg'
      rw [Trie.get_insert] at hg'
      by_cases he : k = p
      · exact ⟨record, he ▸ hg⟩
      · rw [if_neg he] at hg'
        exact ⟨r', hg'⟩
    · intro p r' hg' hm
      refine ⟨r', ?_, rfl⟩
      show Trie.get (Trie.insert s.index k { record with handle := new }) p = some r'
      rw [Trie.get_insert, if_neg, hg']
      rintro rfl
      rw [hg] at hg'
      cases hg'
      exact hneo _ hm hh.symm
    · intro h hm
      show ((s.by_handle.erase old).insert new k)[h]? = _
      rw [get_insert, if_neg (hnen h hm), get_erase, if_neg (hneo h hm)]
    · intro h hm
      show cohort_of ((s.root_subs.erase old).insert new _) h = _
      rw [cohort_of_insert, if_neg (hnen h hm), cohort_of_erase, if_neg (hneo h hm)]

end

/-! ### A cover is recorded -/

/-- The engine with another cover recorded for a root. -/
def recovered (s : Subsumer C V H R T) (k : List C) (record : RootRecord C H)
    (cover : Option (List (List C))) : Subsumer C V H R T :=
  { s with index := Trie.insert s.index k { record with retained_cover := cover } }.publish

section
omit [TransOrd C] [LawfulEqOrd C] [DecidableEq H] [LawfulEqOrd H]

theorem set_retained_cover_cases (hs : Sound s carried) (h : H)
    (cover : Option (List (List C))) :
    (s.by_handle[h]? = none ∧ s.set_retained_cover h cover = s) ∨
    ∃ k record, s.by_handle[h]? = some k ∧ Trie.get s.index k = some record ∧
      record.handle = h ∧ s.set_retained_cover h cover = s.recovered k record cover := by
  unfold set_retained_cover
  cases hk : s.by_handle[h]? with
  | none => exact .inl ⟨rfl, rfl⟩
  | some k =>
    obtain ⟨record, hg, hh⟩ := hs.rooted.handle h k hk
    right
    refine ⟨k, record, rfl, hg, hh, ?_⟩
    dsimp only
    rw [hg]
    rfl

/-- Degrading a record is recording the empty cover, if it claims anything. -/
theorem degrade_retained_cover_cases (hs : Sound s carried) (h : H) :
    s.degrade_retained_cover h = s ∨ s.degrade_retained_cover h = s.set_retained_cover h (some []) := by
  unfold degrade_retained_cover set_retained_cover
  cases hk : s.by_handle[h]? with
  | none => exact .inl rfl
  | some k =>
    obtain ⟨record, hg, -⟩ := hs.rooted.handle h k hk
    dsimp only
    rw [hg]
    dsimp only
    split
    · exact .inl rfl
    · exact .inl rfl
    · exact .inr rfl

theorem set_retained_cover_sound (hs : Sound s carried) (h : H)
    (cover : Option (List (List C))) : Sound (s.set_retained_cover h cover) carried ∧
      Keeps s (s.set_retained_cover h cover) := by
  rcases set_retained_cover_cases hs h cover with ⟨-, he⟩ | ⟨k, record, hk, hg, -, he⟩
  · rw [he]
    exact ⟨hs, Keeps.refl s⟩
  · rw [he]
    refine ⟨⟨hs.rooted.rewrite hg rfl rfl, hs.housed, hs.attributed, hs.minted, rfl⟩, ?_⟩
    exact Keeps.of_subs (fun x r' h => ⟨r', h, rfl, rfl⟩) rfl rfl rfl

theorem set_retained_cover_minted (hs : Sound s carried) (h : H)
    (cover : Option (List (List C))) : (s.set_retained_cover h cover).next_sub = s.next_sub := by
  rcases set_retained_cover_cases hs h cover with ⟨-, he⟩ | ⟨k, record, -, -, -, he⟩
  · rw [he]
  · rw [he]
    rfl

theorem set_retained_cover_spares (hs : Sound s carried) (h : H)
    (cover : Option (List (List C))) (u : List H) : Spares s (s.set_retained_cover h cover) u ∧
      (s.set_retained_cover h cover).root_subs = s.root_subs := by
  rcases set_retained_cover_cases hs h cover with ⟨-, he⟩ | ⟨k, record, hk, hg, hh, he⟩
  · rw [he]
    exact ⟨⟨fun p r h => ⟨r, h⟩, fun p r h _ => ⟨r, h, rfl⟩, fun h _ => rfl, rfl⟩, rfl⟩
  · rw [he]
    refine ⟨⟨?_, ?_, fun h _ => rfl, rfl⟩, rfl⟩
    · intro p r' hg'
      replace hg' : Trie.get (Trie.insert s.index k { record with retained_cover := cover }) p =
        some r' := hg'
      rw [Trie.get_insert] at hg'
      by_cases he : k = p
      · exact ⟨record, he ▸ hg⟩
      · rw [if_neg he] at hg'
        exact ⟨r', hg'⟩
    · intro p r hg' _
      show ∃ r', Trie.get (Trie.insert s.index k { record with retained_cover := cover }) p =
        some r' ∧ _
      rw [Trie.get_insert]
      by_cases he : k = p
      · subst he
        rw [hg] at hg'
        cases hg'
        exact ⟨_, if_pos rfl, rfl⟩
      · exact ⟨r, by rw [if_neg he, hg'], rfl⟩

end

end Subsumer

end Umbrella
