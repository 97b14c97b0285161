import Tributaries.Umbrella.Engine

/-! # Plans and commits

  A plan says what its commit may rely on, and a commit made where that
  still holds goes through without a panic and keeps the invariant.
-/

open Std Collections Region

namespace Umbrella

open Proto (ScopeId)

variable {C V H : Type} {R T : Type → Type}
variable [DecidableEq C] [Ord C] [TransOrd C] [LawfulEqOrd C]
  [DecidableEq H] [Ord H] [TransOrd H] [LawfulEqOrd H] [Radix C R] [Trie ScopeId T]

/-! ### What lasts -/

/-- What a call leaves of the subscriptions: a live one was live with the
    same key and interest, or was planned; a planned one was planned, or is
    new. -/
structure Keeps (s s' : Subsumer C V H R T) : Prop where
  live : ∀ (x : Subscription) (r' : SubRecord C H), s'.subs[x]? = some r' →
    (∃ r, s.subs[x]? = some r ∧ r.key = r'.key ∧ r.interest = r'.interest) ∨
      ∃ p, s.pending[x]? = some p
  planned : ∀ (x : Subscription) (p' : PendingWatch C V), s'.pending[x]? = some p' →
    (∃ p, s.pending[x]? = some p) ∨ ¬ x.scope < s.next_sub
  minted : s.next_sub ≤ s'.next_sub
  branded : s'.instance_id = s.instance_id

section
omit [DecidableEq C] [Ord C] [TransOrd C] [LawfulEqOrd C] [DecidableEq H] [TransOrd H] [LawfulEqOrd H] [Radix C R] [Trie ScopeId T]

theorem Keeps.refl (s : Subsumer C V H R T) : Keeps s s :=
  ⟨fun _ r' h => .inl ⟨r', h, rfl, rfl⟩, fun _ p' h => .inl ⟨p', h⟩, Nat.le_refl _, rfl⟩

/-- Nothing is planned or minted, and nothing comes alive. -/
theorem Keeps.of_subs {s s' : Subsumer C V H R T}
    (hs : ∀ (x : Subscription) (r' : SubRecord C H), s'.subs[x]? = some r' →
      ∃ r, s.subs[x]? = some r ∧ r.key = r'.key ∧ r.interest = r'.interest)
    (hp : s'.pending = s.pending) (hn : s'.next_sub = s.next_sub)
    (hi : s'.instance_id = s.instance_id) : Keeps s s' :=
  ⟨fun x r' h => .inl (hs x r' h), fun _ p' h => .inl ⟨p', hp ▸ h⟩, hn ▸ Nat.le_refl _, hi⟩

end

/-! ### Plans -/

/-- The handles a plan would release. -/
def WatchOutcome.planned_unwatch : WatchOutcome H → List H
  | .widen _ unwatch _ => unwatch
  | _ => []

/-- What a commit of the plan may rely on. -/
def Planned (s : Subsumer C V H R T) : WatchOutcome H → Prop
  | .covered fs_root sub _ => ∃ p k, s.pending[sub]? = some p ∧
      s.by_handle[fs_root]? = some k ∧ k <+: p.key
  | .widen repointed unwatch sub => (∃ p, s.pending[sub]? = some p) ∧ repointed.Nodup ∧
      (∀ x, x ∈ repointed ↔ ∃ h ∈ unwatch, x ∈ cohort_of s.root_subs h) ∧
      ∀ h ∈ unwatch, ∃ k, s.by_handle[h]? = some k
  | .disjoint sub => ∃ p, s.pending[sub]? = some p

namespace Subsumer

variable {s : Subsumer C V H R T} {carried : Carried V}

section
omit [TransOrd C] [LawfulEqOrd C] [TransOrd H] [LawfulEqOrd H] [Trie ScopeId T]

theorem fs_path_preserves_plan_iff {key : List C} {u : List H} :
    s.fs_path_preserves_plan key u = true ↔
      (∀ p, p <+: key → Trie.get s.index p = none) ∧
      (∀ p r, Trie.get s.index p = some r → Above key p → r.handle ∈ u) ∧
      ∀ h ∈ u, ∃ p r, Trie.get s.index p = some r ∧ Above key p ∧ r.handle = h := by
  unfold fs_path_preserves_plan
  rw [← Radix.get_ancestor_eq_none_iff]
  cases Radix.get_ancestor s.index key with
  | some r => simp
  | none =>
    simp only [Option.isSome_none, Bool.false_eq_true, if_false, Bool.and_eq_true, List.all_eq_true,
      List.contains_iff_mem, List.mem_map, Radix.mem_descendants, forall_exists_index, and_imp,
      true_and]
    constructor
    · rintro ⟨h₁, h₂⟩
      refine ⟨fun p r hg ha => h₁ _ r p ha hg rfl, ?_⟩
      intro h hu
      obtain ⟨r, ⟨p, ha, hg⟩, hh⟩ := h₂ h hu
      exact ⟨p, r, hg, ha, hh⟩
    · rintro ⟨h₁, h₂⟩
      refine ⟨fun _ r p ha hg he => he ▸ h₁ p r hg ha, ?_⟩
      intro h hu
      obtain ⟨p, r, hg, ha, hh⟩ := h₂ h hu
      exact ⟨r, ⟨p, ha, hg⟩, hh⟩

end

section
omit [TransOrd C] [LawfulEqOrd C] [DecidableEq H] [LawfulEqOrd H]

/-- The covering root of a plan is live, at or above the key. -/
theorem plan_covered_live (hs : Sound s carried) {key : List C} {value : V} {globs : RootGlobs}
    {fs_root : H} {outside : Bool}
    (h : s.plan_covered key value globs = .ok (some (fs_root, outside))) :
    ∃ k, s.by_handle[fs_root]? = some k ∧ k <+: key := by
  unfold plan_covered at h
  cases ha : Radix.get_ancestor s.index key with
  | none =>
    rw [ha] at h
    cases h
  | some record =>
    rw [ha] at h
    obtain ⟨p, hp, hg, -⟩ := Radix.get_ancestor_some s.index key record ha
    dsimp only at h
    split at h
    · cases h
    · split at h
      · cases h
      · cases h
        exact ⟨p, (hs.rooted.record p record hg).2, hp⟩

end

section
omit [DecidableEq C] [Ord C] [TransOrd C] [LawfulEqOrd C] [DecidableEq H] [LawfulEqOrd H] [Radix C R] [Trie ScopeId T]

/-- The subsumed roots of a plan are the ones listed, with their cohorts. -/
theorem plan_widen_lists {value : V} {globs : RootGlobs} {records : List (RootRecord C H)}
    {acc out : List Subscription × List H} (h : s.plan_widen value globs records acc = .ok out) :
    out.1 = acc.1 ++ (records.map RootRecord.handle).flatMap (cohort_of s.root_subs) ∧
      out.2 = acc.2 ++ records.map RootRecord.handle := by
  induction records generalizing acc with
  | nil =>
    cases h
    simp
  | cons record rest ih =>
    unfold plan_widen at h
    split at h
    · cases h
    · split at h
      · cases h
      · obtain ⟨h₁, h₂⟩ := ih h
        rw [h₁, h₂]
        simp [cohort_of]

end

section
omit [TransOrd C] [LawfulEqOrd C] [DecidableEq H] [LawfulEqOrd H]

/-- The cohorts of distinct roots have no subscription in common. -/
theorem nodup_cohorts (hs : Sound s carried) {handles : List H} (hn : handles.Nodup) :
    (handles.flatMap (cohort_of s.root_subs)).Nodup := by
  rw [List.nodup_flatMap]
  refine ⟨fun h _ => hs.housed.nodup h, ?_⟩
  refine hn.imp ?_
  intro h h' hne x hx hx'
  obtain ⟨r, hr, hh⟩ := hs.housed.live hx
  obtain ⟨r', hr', hh'⟩ := hs.housed.live hx'
  rw [hr] at hr'
  cases hr'
  exact hne (hh.symm.trans hh')

theorem plan_widen_planned (hs : Sound s carried) {key : List C} {value : V} {globs : RootGlobs}
    {repointed : List Subscription} {unwatch : List H}
    (h : s.plan_widen value globs (Radix.descendants s.index key) ([], []) =
      .ok (repointed, unwatch)) :
    repointed.Nodup ∧ (∀ x, x ∈ repointed ↔ ∃ h ∈ unwatch, x ∈ cohort_of s.root_subs h) ∧
      ∀ h ∈ unwatch, ∃ k, s.by_handle[h]? = some k := by
  obtain ⟨h₁, h₂⟩ := plan_widen_lists h
  simp only [List.nil_append] at h₁ h₂
  subst h₁ h₂
  refine ⟨nodup_cohorts hs ?_, fun x => List.mem_flatMap, ?_⟩
  · exact Radix.nodup_descendants fun p q v w => hs.rooted.unique
  · intro h hm
    obtain ⟨r, hr, rfl⟩ := List.mem_map.mp hm
    obtain ⟨p, -, hg⟩ := Radix.mem_descendants.mp hr
    exact ⟨p, (hs.rooted.record p r hg).2⟩

end

/-- What a reservation leaves: a new subscription, planned with what the
    watch was called with. -/
structure Reserved (s : Subsumer C V H R T) (carried : Carried V) (key : List C) (value : V)
    (interest : Interest) (sub : Subscription) (s' : Subsumer C V H R T) : Prop where
  sound : Sound s' (Function.update carried sub (some (value, interest)))
  keeps : Keeps s s'
  fresh : ¬ sub.scope < s.next_sub
  pending : s'.pending[sub]? = some ⟨key, value, interest⟩
  index : s'.index = s.index
  by_handle : s'.by_handle = s.by_handle
  root_subs : s'.root_subs = s.root_subs
  subs : s'.subs = s.subs

section
omit [TransOrd C] [LawfulEqOrd C] [DecidableEq H] [LawfulEqOrd H]

/-- A reservation goes through, unless the ids are used up. -/
theorem reserve_sound (hs : Sound s carried) (key : List C) (value : V) (interest : Interest) :
    (∃ sub s', s.reserve key value interest = .ok (sub, s') ∧
      Reserved s carried key value interest sub s' ∧ s'.next_sub = s.next_sub.succ) ∨
      s.reserve key value interest = .error .id_space_exhausted ∧
        2 ^ 64 ≤ s.next_sub.as_u64 + 1 := by
  unfold reserve mint_subscription
  by_cases hn : s.next_sub.as_u64 + 1 < 2 ^ 64
  · rw [if_pos hn]
    left
    refine ⟨⟨s.instance_id, s.next_sub⟩, _, rfl, ?_, rfl⟩
    have hget : (s.pending.insert ⟨s.instance_id, s.next_sub⟩
        (⟨key, value, interest⟩ : PendingWatch C V))[(⟨s.instance_id, s.next_sub⟩ :
          Subscription)]? = some ⟨key, value, interest⟩ := by
      rw [get_insert, if_pos rfl]
    have hcarry : ∀ (x : Subscription) (r : SubRecord C H), s.subs[x]? = some r →
        Function.update carried ⟨s.instance_id, s.next_sub⟩ (some (value, interest)) x =
          carried x := by
      intro x r hr
      refine Function.update_of_ne ?_ ..
      rintro rfl
      exact Nat.lt_irrefl _ (hs.minted.live _ r hr).2
    refine ⟨⟨hs.rooted, hs.housed, ⟨hs.attributed.filled, ?_, ?_⟩, hs.minted.plan _,
      hs.published⟩, ⟨fun _ r' h => .inl ⟨r', h, rfl, rfl⟩, ?_, Nat.le_succ _, rfl⟩,
      Nat.lt_irrefl _, hget, rfl, rfl, rfl, rfl⟩
    · intro k id v
      rw [hs.attributed.values]
      constructor
      · rintro ⟨r, hr, hk, hc⟩
        exact ⟨r, hr, hk, (hcarry _ r hr).trans hc⟩
      · rintro ⟨r, hr, hk, hc⟩
        exact ⟨r, hr, hk, (hcarry _ r hr).symm.trans hc⟩
    · intro x r hr
      obtain ⟨v, hv⟩ := hs.attributed.carries x r hr
      exact ⟨v, (hcarry x r hr).trans hv⟩
    · intro x p' hp'
      rw [get_insert] at hp'
      by_cases hx : (⟨s.instance_id, s.next_sub⟩ : Subscription) = x
      · right
        rw [← hx]
        exact Nat.lt_irrefl _
      · rw [if_neg hx] at hp'
        exact .inl ⟨p', hp'⟩
  · rw [if_neg hn]
    right
    exact ⟨rfl, by omega⟩

end

/-- What an accepted plan leaves. -/
structure Accepted (s : Subsumer C V H R T) (carried : Carried V) (key : List C) (value : V)
    (interest : Interest) (outcome : WatchOutcome H) (s' : Subsumer C V H R T) : Prop where
  sound : Sound s' (Function.update carried outcome.sub (some (value, interest)))
  keeps : Keeps s s'
  fresh : ¬ outcome.sub.scope < s.next_sub
  planned : Planned s' outcome
  minted : s'.next_sub = s.next_sub.succ
  pending : s'.pending[outcome.sub]? = some ⟨key, value, interest⟩
  index : s'.index = s.index
  by_handle : s'.by_handle = s.by_handle
  subs : s'.subs = s.subs

section
omit [TransOrd C] [LawfulEqOrd C] [DecidableEq H] [LawfulEqOrd H]

/-- Reserving for a classified plan accepts it, unless the ids are used up. -/
theorem reserve_as_sound (hs : Sound s carried) {key : List C} {value : V} {interest : Interest}
    {outcome : Subscription → WatchOutcome H} (hsub : ∀ sub, (outcome sub).sub = sub)
    (hp : ∀ sub s', Reserved s carried key value interest sub s' → Planned s' (outcome sub)) :
    (∃ o s', s.reserve_as key value interest outcome = .ok (.ok o, s') ∧
      Accepted s carried key value interest o s') ∨
      s.reserve_as key value interest outcome = .error .id_space_exhausted ∧
        2 ^ 64 ≤ s.next_sub.as_u64 + 1 := by
  unfold reserve_as
  rcases reserve_sound hs key value interest with ⟨sub, s', he, hr, hn⟩ | ⟨he, hn⟩
  · left
    rw [he]
    refine ⟨outcome sub, s', rfl, ?_, hr.keeps, ?_, hp sub s' hr, hn, ?_, hr.index, hr.by_handle,
      hr.subs⟩
    · rw [hsub]
      exact hr.sound
    · rw [hsub]
      exact hr.fresh
    · rw [hsub]
      exact hr.pending
  · right
    rw [he]
    exact ⟨rfl, hn⟩

/-- A watch is refused and changes nothing, or accepted, or finds no id left. -/
theorem plan_watch_sound (hs : Sound s carried) (key : List C) (value : V) (interest : Interest)
    (globs : RootGlobs) :
    (∃ refusal, s.plan_watch key value interest globs = .ok (.error refusal, s)) ∨
    (∃ outcome s', s.plan_watch key value interest globs = .ok (.ok outcome, s') ∧
      Accepted s carried key value interest outcome s') ∨
    s.plan_watch key value interest globs = .error .id_space_exhausted ∧
      2 ^ 64 ≤ s.next_sub.as_u64 + 1 := by
  unfold plan_watch
  cases hc : s.plan_covered key value globs with
  | error refusal => exact .inl ⟨refusal, rfl⟩
  | ok covering =>
    cases covering with
    | some c =>
      obtain ⟨fs_root, outside⟩ := c
      obtain ⟨k, hk, hle⟩ := plan_covered_live hs hc
      right
      refine reserve_as_sound hs (fun sub => rfl) ?_
      intro sub s' hr
      exact ⟨_, k, hr.pending, hr.by_handle ▸ hk, hle⟩
    | none =>
      dsimp only
      cases hw : s.plan_widen value globs (Radix.descendants s.index key) ([], []) with
      | error refusal => exact .inl ⟨refusal, rfl⟩
      | ok lists =>
        obtain ⟨repointed, unwatch⟩ := lists
        obtain ⟨hn, hm, hu⟩ := plan_widen_planned hs hw
        right
        dsimp only
        by_cases he : unwatch ≠ []
        · rw [if_pos he]
          refine reserve_as_sound hs (fun sub => rfl) ?_
          intro sub s' hr
          refine ⟨⟨_, hr.pending⟩, hn, ?_, ?_⟩
          · rw [hr.root_subs]
            exact hm
          · rw [hr.by_handle]
            exact hu
        · rw [if_neg he]
          refine reserve_as_sound hs (fun sub => rfl) ?_
          intro sub s' hr
          exact ⟨_, hr.pending⟩

end

section
omit [TransOrd C] [LawfulEqOrd C] [DecidableEq H] [LawfulEqOrd H] [Trie ScopeId T]

/-- A watch apart from every recorded root is planned as disjoint. -/
theorem plan_watch_free {key : List C} (habove : ∀ p, p <+: key → Trie.get s.index p = none)
    (hbelow : ∀ p, Above key p → Trie.get s.index p = none) (value : V) (interest : Interest)
    (globs : RootGlobs) :
    s.plan_watch key value interest globs = s.reserve_as key value interest .disjoint := by
  have ha : Radix.get_ancestor s.index key = none := Radix.get_ancestor_eq_none_iff.mpr habove
  have hd : Radix.descendants s.index key = [] := by
    rw [List.eq_nil_iff_forall_not_mem]
    intro r hr
    obtain ⟨p, hp, hg⟩ := Radix.mem_descendants.mp hr
    rw [hbelow p hp] at hg
    cases hg
  unfold plan_watch plan_covered
  rw [ha, hd]
  rfl

end

/-! ### Commits -/

section
omit [DecidableEq C] [Ord C] [TransOrd C] [LawfulEqOrd C] [DecidableEq H] [TransOrd H] [LawfulEqOrd H] [Radix C R] [Trie ScopeId T]

theorem take_pending_ok {sub : Subscription} {p : PendingWatch C V}
    (h : s.pending[sub]? = some p) :
    s.take_pending sub = .ok (p, { s with pending := s.pending.erase sub }) := by
  unfold take_pending
  rw [h]

end

section
omit [TransOrd C] [LawfulEqOrd C] [DecidableEq H] [LawfulEqOrd H]

/-- A subscription settles where its root and cohort are in place. -/
theorem settle_sound {sub : Subscription} {root : H} {key : List C} {value : V}
    {interest : Interest} (hr : Rooted s.index s.by_handle s.root_subs)
    (hh : Housed s.by_handle s.root_subs (s.subs.insert sub ⟨root, key, interest⟩))
    (ha : Attributed s.covers s.subs s.instance_id carried)
    (hm : Minted (s.subs.insert sub ⟨root, key, interest⟩) s.pending s.instance_id s.next_sub
      carried)
    (hn : s.subs[sub]? = none) (hc : carried sub = some (value, interest)) :
    Sound (s.settle_sub sub root key value interest) carried := by
  refine ⟨hr, hh, ?_, hm, rfl⟩
  refine ha.join ⟨root, key, interest⟩ (cover_add_filled s ha.filled sub key value)
    (fun k id => at_cover_add s sub key k value id) ?_ hn hc
  exact (hm.live sub ⟨root, key, interest⟩ (by rw [get_insert, if_pos rfl])).1

end

section
omit [DecidableEq C] [Ord C] [TransOrd C] [LawfulEqOrd C] [DecidableEq H] [TransOrd H] [LawfulEqOrd H] [Radix C R] [Trie ScopeId T]

/-- The side table after a commit holds what it held, and what was planned. -/
theorem settle_keeps {s' : Subsumer C V H R T} {sub : Subscription} {p : PendingWatch C V}
    {side : SubRecord C H} {subs : Map Subscription (SubRecord C H)}
    (hp : s.pending[sub]? = some p)
    (hsubs : ∀ (x : Subscription) (r' : SubRecord C H), subs[x]? = some r' →
      ∃ r, s.subs[x]? = some r ∧ r.key = r'.key ∧ r.interest = r'.interest)
    (hs : s'.subs = subs.insert sub side) (hp' : s'.pending = s.pending.erase sub)
    (hn : s'.next_sub = s.next_sub) (hi : s'.instance_id = s.instance_id) : Keeps s s' := by
  refine ⟨?_, ?_, hn ▸ Nat.le_refl _, hi⟩
  · intro x r' hr'
    rw [hs, get_insert] at hr'
    by_cases hx : sub = x
    · exact .inr ⟨p, hx ▸ hp⟩
    · rw [if_neg hx] at hr'
      exact .inl (hsubs x r' hr')
  · intro x p' hx
    rw [hp', get_erase] at hx
    by_cases he : sub = x
    · rw [if_pos he] at hx
      cases hx
    · rw [if_neg he] at hx
      exact .inl ⟨p', hx⟩

end

section
omit [TransOrd C] [LawfulEqOrd C]

theorem commit_covered_sound (hs : Sound s carried) {fs_root : H} {sub : Subscription}
    {outside : Bool} (hp : Planned s (.covered fs_root sub outside)) :
    ∃ s', s.commit_covered sub fs_root = .ok s' ∧ Sound s' carried ∧ Keeps s s' ∧
      s'.next_sub = s.next_sub := by
  obtain ⟨p, k, hpend, hk, hle⟩ := hp
  obtain ⟨-, -, hn, hc⟩ := hs.minted.planned sub p hpend
  have hcohort : ∃ cohort, s.root_subs[fs_root]? = some cohort := by
    rw [← Option.ne_none_iff_exists', ne_eq, ← hs.rooted.cohort, hk]
    simp
  obtain ⟨cohort, hco⟩ := hcohort
  have hcof : cohort_of s.root_subs fs_root = cohort := by rw [cohort_of, hco]; rfl
  unfold commit_covered
  rw [take_pending_ok hpend]
  dsimp only
  rw [hco]
  refine ⟨_, rfl, ?_, ?_, rfl⟩
  · refine settle_sound (hs.rooted.recohort hk) ?_ hs.attributed (hs.minted.settle hpend _) hn hc
    have henroll := hs.housed.enroll ⟨fs_root, p.key, p.interest⟩ hn rfl
      fun k' hk' => by
        rw [hk] at hk'
        cases hk'
        exact hle
    rw [hcof] at henroll
    exact henroll
  · exact settle_keeps hpend (fun x r' h => ⟨r', h, rfl, rfl⟩) rfl rfl rfl rfl

theorem commit_disjoint_sound (hs : Sound s carried) {fs_root : H} {sub : Subscription}
    {key : List C} (hp : Planned s (.disjoint sub)) (hf : s.by_handle[fs_root]? = none)
    (hk : s.fs_path_preserves_plan key [] = true) (globs : RootGlobs) :
    ∃ s', s.commit_disjoint sub fs_root key globs = .ok s' ∧ Sound s' carried ∧ Keeps s s' ∧
      s'.next_sub = s.next_sub := by
  obtain ⟨p, hpend⟩ := hp
  obtain ⟨-, -, hn, hc⟩ := hs.minted.planned sub p hpend
  obtain ⟨habove, hbelow, -⟩ := fs_path_preserves_plan_iff.mp hk
  have hcof : cohort_of s.root_subs fs_root = [] := by
    rw [cohort_of, (hs.rooted.cohort fs_root).mp hf]
    rfl
  unfold commit_disjoint
  rw [take_pending_ok hpend]
  refine ⟨_, rfl, ?_, ?_, rfl⟩
  · refine settle_sound ?_ ?_ hs.attributed (hs.minted.settle hpend _) hn hc
    · refine hs.rooted.plant _ _ rfl rfl hf ?_
      intro k' r hg
      constructor
      · intro hle
        rw [habove k' hle] at hg
        cases hg
      · intro hle
        by_cases he : key = k'
        · rw [habove k' (he ▸ List.prefix_rfl)] at hg
          cases hg
        · exact absurd (hbelow k' r hg ⟨hle, he⟩) List.not_mem_nil
    · have henroll := (hs.housed.extend key hcof).enroll (f := fs_root)
        ⟨fs_root, key, p.interest⟩ hn rfl fun k' hk' => by
          rw [get_insert, if_pos rfl] at hk'
          cases hk'
          exact List.prefix_rfl
      rw [hcof] at henroll
      exact henroll
  · exact settle_keeps hpend (fun x r' h => ⟨r', h, rfl, rfl⟩) rfl rfl rfl rfl

/-- The subsumed roots give way to the wider one. -/
theorem widen_rooted (hs : Sound s carried) {key : List C} {u : List H} {fs_root : H}
    (hk : s.fs_path_preserves_plan key u = true) (hf : s.by_handle[fs_root]? = none ∨ fs_root ∈ u)
    (globs : RootGlobs) (cohort : List Subscription) :
    Rooted (Trie.insert (Radix.remove_descendants s.index key) key
        (armed_record fs_root key globs))
      ((forget_all u s.by_handle).insert fs_root key)
      ((forget_all u s.root_subs).insert fs_root cohort) := by
  obtain ⟨habove, hbelow, hu⟩ := fs_path_preserves_plan_iff.mp hk
  have hi : ∀ k r, Trie.get (Radix.remove_descendants s.index key) k = some r ↔
      Trie.get s.index k = some r ∧ ¬ r.handle ∈ u := by
    intro k r
    rw [Radix.get_remove_descendants]
    by_cases ha : key <+: k ∧ key ≠ k
    · rw [if_pos ha]
      constructor
      · intro h
        cases h
      · rintro ⟨hg, hn⟩
        exact absurd (hbelow k r hg ha) hn
    · rw [if_neg ha]
      refine ⟨fun hg => ⟨hg, fun hmem => ha ?_⟩, fun h => h.1⟩
      obtain ⟨p, r', hg', hp, hh⟩ := hu r.handle hmem
      rw [hs.rooted.unique hg hg' hh.symm]
      exact hp
  refine (hs.rooted.prune hi (fun h => get_forget_all u s.by_handle h)
    fun h => get_forget_all u s.root_subs h).plant _ _ rfl rfl ?_ ?_
  · rw [get_forget_all]
    rcases hf with hf | hf
    · rw [hf, ite_self]
    · rw [if_pos hf]
  · intro k' r hg
    obtain ⟨hg, hn⟩ := (hi k' r).mp hg
    constructor
    · intro hle
      rw [habove k' hle] at hg
      cases hg
    · intro hle
      by_cases he : key = k'
      · rw [habove k' (he ▸ List.prefix_rfl)] at hg
        cases hg
      · exact hn (hbelow k' r hg ⟨hle, he⟩)

/-- The cohorts of the subsumed roots move onto the wider one, and the new
    subscription joins them. -/
theorem widen_housed (hs : Sound s carried) {key : List C} {u : List H} {fs_root : H}
    {repointed : List Subscription} {sub : Subscription} {interest : Interest}
    {subs : Map Subscription (SubRecord C H)}
    (hk : s.fs_path_preserves_plan key u = true) (hf : s.by_handle[fs_root]? = none ∨ fs_root ∈ u)
    (hrp : repointed.Nodup)
    (hmem : ∀ x, x ∈ repointed ↔ ∃ h ∈ u, x ∈ cohort_of s.root_subs h)
    (hsubs : ∀ x : Subscription, subs[x]? =
      if x ∈ repointed then (s.subs[x]?).map (SubRecord.ride fs_root) else s.subs[x]?)
    (hn : subs[sub]? = none) :
    Housed ((forget_all u s.by_handle).insert fs_root key)
      ((forget_all u s.root_subs).insert fs_root (repointed ++ [sub]))
      (subs.insert sub ⟨fs_root, key, interest⟩) := by
  obtain ⟨-, -, hu⟩ := fs_path_preserves_plan_iff.mp hk
  have hmerge : Housed ((forget_all u s.by_handle).insert fs_root key)
      ((forget_all u s.root_subs).insert fs_root repointed) subs := by
    refine hs.housed.merge (f := fs_root) (u := u) key ?_ ?_ hsubs hmem hrp ?_ ?_
    · intro h
      rw [get_insert, get_forget_all]
    · intro h
      rw [cohort_of_insert, cohort_of_forget]
    · rcases hf with hf | hf
      · left
        rw [cohort_of, (hs.rooted.cohort fs_root).mp hf]
        rfl
      · exact .inr hf
    · intro h hmem
      obtain ⟨p, r, hg, ha, rfl⟩ := hu h hmem
      exact ⟨p, (hs.rooted.record p r hg).2, ha.1⟩
  have henroll := hmerge.enroll (f := fs_root) ⟨fs_root, key, interest⟩ hn
    rfl fun k' hk' => by
      rw [get_insert, if_pos rfl] at hk'
      cases hk'
      exact List.prefix_rfl
  refine henroll.congr ?_ fun h k hb => hb
  intro h
  simp only [cohort_of_insert]
  split <;> rfl

theorem commit_widen_sound (hs : Sound s carried) {fs_root : H} {sub : Subscription}
    {repointed : List Subscription} {u : List H} {key : List C}
    (hp : Planned s (.widen repointed u sub))
    (hf : s.by_handle[fs_root]? = none ∨ fs_root ∈ u)
    (hk : s.fs_path_preserves_plan key u = true) (globs : RootGlobs) :
    ∃ s', s.commit_widen repointed u sub fs_root key globs = .ok s' ∧ Sound s' carried ∧
      Keeps s s' ∧ s'.next_sub = s.next_sub := by
  obtain ⟨⟨p, hpend⟩, hrp, hmem, -⟩ := hp
  obtain ⟨-, -, hn, hc⟩ := hs.minted.planned sub p hpend
  have hlive : ∀ x ∈ repointed, ∃ r, s.subs[x]? = some r := by
    intro x hx
    obtain ⟨h, -, hx⟩ := (hmem x).mp hx
    obtain ⟨r, hr, -⟩ := hs.housed.live hx
    exact ⟨r, hr⟩
  obtain ⟨subs, hok, hsubs⟩ := repoint_all_ok fs_root hlive
  have hback : ∀ (x : Subscription) (r' : SubRecord C H), subs[x]? = some r' →
      ∃ r, s.subs[x]? = some r ∧ r.key = r'.key ∧ r.interest = r'.interest := by
    intro x r' hr'
    rw [hsubs] at hr'
    by_cases hx : x ∈ repointed
    · rw [if_pos hx] at hr'
      obtain ⟨r, hr, rfl⟩ := Option.map_eq_some_iff.mp hr'
      exact ⟨r, hr, rfl, rfl⟩
    · rw [if_neg hx] at hr'
      exact ⟨r', hr', rfl, rfl⟩
  have hn' : subs[sub]? = none := by
    cases hx : subs[sub]? with
    | none => rfl
    | some r' =>
      obtain ⟨r, hr, -⟩ := hback sub r' hx
      rw [hn] at hr
      cases hr
  unfold commit_widen
  rw [take_pending_ok hpend]
  dsimp only
  rw [hok]
  refine ⟨_, rfl, ?_, ?_, rfl⟩
  · refine settle_sound (widen_rooted hs hk hf globs _)
      (widen_housed hs hk hf hrp hmem hsubs hn') (hs.attributed.reroot hsubs) ?_ hn' hc
    refine (hs.minted.fewer ?_).settle hpend _
    intro x r' hr'
    obtain ⟨r, hr, -⟩ := hback x r' hr'
    exact ⟨r, hr⟩
  · exact settle_keeps hpend hback rfl rfl rfl rfl

end

end Subsumer

end Umbrella
