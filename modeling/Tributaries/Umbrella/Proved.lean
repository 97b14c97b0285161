import Tributaries.Umbrella.Covers
import Tributaries.Umbrella.Owner

/-! # Proved ground

  Beside the engine stands the ground each root's source has proved, read
  off the facts of a run.  What the engine records as covered is always
  inside it.
-/

open Std Collections Region

namespace Umbrella

open Proto (ScopeId)

variable {C V H : Type} {R T : Type → Type}
variable [DecidableEq C] [Ord C] [TransOrd C] [LawfulEqOrd C]
  [DecidableEq H] [Ord H] [TransOrd H] [LawfulEqOrd H] [Radix C R] [Trie ScopeId T]

/-! ### The ground -/

/-- The ground proved for each handle. -/
abbrev Ground (C H : Type) : Type := H → Set (List C)

/-- An arm and a retarget prove the whole root; a prune that ran keeps what
    lies below its cover, and a loss keeps nothing; a grow adds its cover. -/
def Fact.apply (proved : Ground C H) : Fact C H → Ground C H
  | .armed handle key | .widened handle key => Function.update proved handle (below key)
  | .pruned handle cover => Function.update proved handle (proved handle ∩ ground cover)
  | .unproved handle => Function.update proved handle ∅
  | .grew handle cover => Function.update proved handle (proved handle ∪ ground cover)

/-- The ground after some facts. -/
def track (proved : Ground C H) (facts : List (Fact C H)) : Ground C H :=
  facts.foldl Fact.apply proved

/-- What is recorded for every root is well formed and proved. -/
structure Proved (s : Subsumer C V H R T) (proved : Ground C H) : Prop where
  sound : ∃ carried, Sound s carried
  recorded : s.Recorded
  covered : ∀ k r, Trie.get s.index k = some r → r.coverage ⊆ proved r.handle

variable {s s' : Subsumer C V H R T} {proved : Ground C H}

section
omit [TransOrd C] [LawfulEqOrd C] [DecidableEq H] [LawfulEqOrd H]

/-- Nothing is recorded but what was. -/
theorem Proved.fewer (h : Proved s proved) {carried : Carried V} (hs : Sound s' carried)
    (hi : ∀ k r, Trie.get s'.index k = some r → Trie.get s.index k = some r) :
    Proved s' proved :=
  ⟨⟨carried, hs⟩, fun k r hg => h.recorded k r (hi k r hg), fun k r hg => h.covered k r (hi k r hg)⟩

end

section
omit [TransOrd C] [LawfulEqOrd C] [LawfulEqOrd H]

/-- One root is recorded anew, inside the ground its source has now. -/
theorem Proved.write (h : Proved s proved) {carried : Carried V} (hs : Sound s' carried)
    {k : List C} {r : RootRecord C H} {g : Set (List C)} (hg : Trie.get s'.index k = some r)
    (hi : ∀ k' r', k' ≠ k → Trie.get s'.index k' = some r' → Trie.get s.index k' = some r')
    (hform : ∀ cover, r.retained_cover = some cover → Formed k cover) (hcov : r.coverage ⊆ g) :
    Proved s' (Function.update proved r.handle g) := by
  refine ⟨⟨carried, hs⟩, ?_, ?_⟩
  · intro k' r' hg'
    by_cases he : k' = k
    · subst he
      rw [hg] at hg'
      cases hg'
      exact hform
    · exact h.recorded k' r' (hi k' r' he hg')
  · intro k' r' hg'
    by_cases he : k' = k
    · subst he
      rw [hg] at hg'
      cases hg'
      rw [Function.update_self]
      exact hcov
    · have hne : r'.handle ≠ r.handle := fun hh => he (hs.rooted.unique hg' hg hh)
      rw [Function.update_of_ne hne]
      exact h.covered k' r' (hi k' r' he hg')

/-- The ground of a handle may change around what is recorded for it. -/
theorem Proved.reground (h : Proved s proved) {handle : H} {g : Set (List C)}
    (hin : ∀ k r, Trie.get s.index k = some r → r.handle = handle → r.coverage ⊆ g) :
    Proved s (Function.update proved handle g) := by
  refine ⟨h.sound, h.recorded, ?_⟩
  intro k r hg
  by_cases he : r.handle = handle
  · rw [he, Function.update_self]
    exact hin k r hg he
  · rw [Function.update_of_ne he]
    exact h.covered k r hg

/-- The ground of a handle that names no root is free. -/
theorem Proved.unnamed (h : Proved s proved) {handle : H} (hn : s.by_handle[handle]? = none)
    (g : Set (List C)) : Proved s (Function.update proved handle g) := by
  obtain ⟨carried, hs⟩ := h.sound
  refine h.reground fun k r hg he => ?_
  have hk := (hs.rooted.record k r hg).2
  rw [he, hn] at hk
  cases hk

end

section
omit [DecidableEq C] [Ord C] [TransOrd C] [LawfulEqOrd C] [DecidableEq H] [Ord H] [TransOrd H] [LawfulEqOrd H]

/-- A record with full coverage is inside its own root. -/
theorem coverage_full {r : RootRecord C H} (h : r.retained_cover = none) :
    r.coverage = below r.key := by
  unfold RootRecord.coverage
  rw [h]

theorem coverage_narrowed {r : RootRecord C H} {cover : List (List C)}
    (h : r.retained_cover = some cover) : r.coverage = ground cover := by
  unfold RootRecord.coverage
  rw [h]

end

/-! ### What a plan says -/

namespace Subsumer

section
omit [TransOrd C] [LawfulEqOrd C] [DecidableEq H] [LawfulEqOrd H]

/-- A watch planned as covered, inside the record of its root, lies in what
    is recorded. -/
theorem plan_watch_inside {carried : Carried V} (hs : Sound s carried) {key : List C} {value : V}
    {interest : Interest} {globs : RootGlobs} {fs_root : H} {sub : Subscription}
    (h : s.plan_watch key value interest globs = .ok (.ok (.covered fs_root sub false), s')) :
    ∃ k r, Trie.get s.index k = some r ∧ r.handle = fs_root ∧ below key ⊆ r.coverage := by
  unfold plan_watch at h
  cases hc : s.plan_covered key value globs with
  | error refusal =>
    rw [hc] at h
    cases h
  | ok covering =>
    rw [hc] at h
    cases covering with
    | none =>
      dsimp only at h
      split at h
      · cases h
      · unfold reserve_as at h
        split at h
        · split at h
          · cases h
          · cases h
        · split at h
          · cases h
          · cases h
    | some c =>
      obtain ⟨root, outside⟩ := c
      dsimp only at h
      unfold reserve_as at h
      split at h
      · cases h
      · cases h
        unfold plan_covered at hc
        cases ha : Radix.get_ancestor s.index key with
        | none =>
          rw [ha] at hc
          cases hc
        | some record =>
          rw [ha] at hc
          obtain ⟨k, hk, hg, -⟩ := Radix.get_ancestor_some s.index key record ha
          dsimp only at hc
          split at hc
          · cases hc
          · split at hc
            · cases hc
            · simp only [Except.ok.injEq, Option.some.injEq, Prod.mk.injEq] at hc
              refine ⟨k, record, hg, hc.1, ?_⟩
              refine RootRecord.below_coverage ?_ hc.2
              rw [(hs.rooted.record k record hg).1]
              exact hk

end

section
omit [DecidableEq C] [Ord C] [TransOrd C] [LawfulEqOrd C] [DecidableEq H] [LawfulEqOrd H] [Radix C R] [Trie ScopeId T]

/-- A refusal names the record it is about. -/
theorem plan_widen_refused {value : V} {globs : RootGlobs} {records : List (RootRecord C H)}
    {acc : List Subscription × List H} {refusal : WordsRefusal V H}
    (h : s.plan_widen value globs records acc = .error refusal) :
    ∃ r ∈ records, refusal.root = r.handle := by
  induction records generalizing acc with
  | nil => cases h
  | cons record rest ih =>
    unfold plan_widen at h
    split at h
    · cases h
      exact ⟨record, List.mem_cons_self, rfl⟩
    · split at h
      · cases h
        exact ⟨record, List.mem_cons_self, rfl⟩
      · obtain ⟨r, hm, he⟩ := ih h
        exact ⟨r, List.mem_cons_of_mem _ hm, he⟩

end

/-- A watch is refused on account of a live root. -/
theorem plan_watch_refused {carried : Carried V} (hs : Sound s carried) {key : List C} {value : V}
    {interest : Interest} {globs : RootGlobs} {refusal : WordsRefusal V H}
    (h : s.plan_watch key value interest globs = .ok (.error refusal, s')) :
    ∃ k, s.by_handle[refusal.root]? = some k := by
  have hreserve : ∀ outcome, s.reserve_as key value interest outcome ≠ .ok (.error refusal, s') := by
    intro outcome h
    unfold reserve_as at h
    split at h
    · cases h
    · cases h
  unfold plan_watch at h
  cases hc : s.plan_covered key value globs with
  | error conflict =>
    rw [hc] at h
    cases h
    unfold plan_covered at hc
    cases ha : Radix.get_ancestor s.index key with
    | none =>
      rw [ha] at hc
      cases hc
    | some record =>
      rw [ha] at hc
      obtain ⟨k, -, hg, -⟩ := Radix.get_ancestor_some s.index key record ha
      have hk := (hs.rooted.record k record hg).2
      dsimp only at hc
      split at hc
      · cases hc
        exact ⟨k, hk⟩
      · split at hc
        · cases hc
          exact ⟨k, hk⟩
        · cases hc
  | ok covering =>
    rw [hc] at h
    cases covering with
    | some c => exact absurd h (hreserve _)
    | none =>
      dsimp only at h
      cases hw : s.plan_widen value globs (Radix.descendants s.index key) ([], []) with
      | error conflict =>
        rw [hw] at h
        cases h
        obtain ⟨r, hm, he⟩ := plan_widen_refused hw
        obtain ⟨k, -, hg⟩ := Radix.mem_descendants.mp hm
        exact ⟨k, he ▸ (hs.rooted.record k r hg).2⟩
      | ok lists =>
        rw [hw] at h
        dsimp only at h
        split at h
        · exact absurd h (hreserve _)
        · exact absurd h (hreserve _)
end Subsumer

/-! ### Retirement -/

namespace Owner

/-- No handle comes alive. -/
def FewerHandles (s s' : Subsumer C V H R T) : Prop :=
  ∀ h : H, s.by_handle[h]? = none → s'.by_handle[h]? = none

theorem retire_root_proved (h : Proved s proved) (handle : H) :
    ∃ s', retire_root s handle = .ok s' ∧ Proved s' proved ∧ FewerHandles s s' := by
  obtain ⟨carried, hs⟩ := h.sound
  unfold retire_root
  rcases Subsumer.force_remove_root_cases hs handle with ⟨-, he⟩ | ⟨k, hk, he⟩
  · rw [he]
    exact ⟨s, rfl, h, fun _ hn => hn⟩
  · rw [he]
    refine ⟨s.disbanded handle k, rfl, h.fewer (Subsumer.disbanded_sound hs hk) ?_, ?_⟩
    · intro k' r hg
      replace hg : Trie.get (Trie.remove s.index k) k' = some r := hg
      rw [Trie.get_remove] at hg
      split at hg
      · cases hg
      · exact hg
    · intro h' hn
      show (s.by_handle.erase handle)[h']? = none
      rw [get_erase, hn, ite_self]

theorem retire_disarmed_roots_proved (unwatch : List H) (h : Proved s proved) :
    ∃ s', retire_disarmed_roots s unwatch = .ok s' ∧ Proved s' proved := by
  induction unwatch generalizing s with
  | nil => exact ⟨s, rfl, h⟩
  | cons pending rest ih =>
    obtain ⟨s₁, h₁, hp, -⟩ := retire_root_proved h pending
    obtain ⟨s₂, h₂, hp₂⟩ := ih hp
    refine ⟨s₂, ?_, hp₂⟩
    unfold retire_disarmed_roots
    rw [h₁]
    exact h₂

section
omit [TransOrd C] [LawfulEqOrd C] [DecidableEq H] [LawfulEqOrd H]

theorem abort_watch_proved (h : Proved s proved) (outcome : WatchOutcome H) :
    Proved (s.abort_watch outcome) proved := by
  obtain ⟨carried, hs⟩ := h.sound
  exact h.fewer (Subsumer.abort_watch_sound hs outcome).1 fun _ _ hg => hg

end

/-! ### Plans -/

/-- What a settled plan is committed from: the state is proved, the plan can
    be committed, and its own key is the one watched. -/
structure Settled (s : Subsumer C V H R T) (proved : Ground C H) (key : List C)
    (outcome : WatchOutcome H) : Prop where
  proved : Proved s proved
  planned : Planned s outcome
  pending : ∃ p, s.pending[outcome.sub]? = some p ∧ p.key = key

theorem settle_plan_proved (a : Answers C H) (key : List C) (value : V) (interest : Interest)
    (globs : RootGlobs) (fuel : Nat) (h : Proved s proved) :
    (∃ o s', settle_plan a key value interest globs fuel s = .ok (o, s') ∧ Proved s' proved ∧
      FewerHandles s s' ∧ ∀ outcome, o = some outcome → Settled s' proved key outcome) ∨
    settle_plan a key value interest globs fuel s = .error .id_space_exhausted := by
  induction fuel generalizing s with
  | zero => exact .inl ⟨none, s, rfl, h, fun _ hn => hn, fun o ho => by cases ho⟩
  | succ fuel ih =>
    obtain ⟨carried, hs⟩ := h.sound
    unfold settle_plan
    rcases Subsumer.plan_watch_sound hs key value interest globs with
      ⟨conflict, he⟩ | ⟨outcome, s₁, he, ha⟩ | ⟨he, -⟩
    · rw [he]
      dsimp only
      by_cases hd : (a.root_key conflict.root).isNone = true
      · rw [if_pos hd]
        obtain ⟨s₁, h₁, hp₁, hf₁⟩ := retire_root_proved h conflict.root
        rw [h₁]
        rcases ih hp₁ with ⟨o, s₂, h₂, hp₂, hf₂, hset⟩ | h₂
        · exact .inl ⟨o, s₂, h₂, hp₂, fun x hx => hf₂ x (hf₁ x hx), hset⟩
        · exact .inr h₂
      · rw [if_neg hd]
        exact .inl ⟨none, s, rfl, h, fun _ hn => hn, fun o ho => by cases ho⟩
    · have hp₁ : Proved s₁ proved := h.fewer ha.sound fun k r hg => ha.index ▸ hg
      have hf₁ : FewerHandles s s₁ := fun x hx => ha.by_handle ▸ hx
      have hset : Settled s₁ proved key outcome :=
        ⟨hp₁, ha.planned, _, ha.pending, rfl⟩
      have hdone : ∃ o s', (.ok (some outcome, s₁) : Except Panic _) = .ok (o, s') ∧
          Proved s' proved ∧ FewerHandles s s' ∧
          ∀ outcome, o = some outcome → Settled s' proved key outcome :=
        ⟨_, s₁, rfl, hp₁, hf₁, fun o ho => by cases ho; exact hset⟩
      rw [he]
      cases outcome with
      | widen repointed unwatch sub => exact .inl hdone
      | disjoint sub => exact .inl hdone
      | covered fs_root sub outside =>
        dsimp only
        by_cases hd : (a.root_key fs_root).isNone = true
        · rw [if_pos hd]
          have hab := abort_watch_proved hp₁ (.covered fs_root sub outside)
          obtain ⟨s₂, h₂, hp₂, hf₂⟩ := retire_root_proved hab fs_root
          rw [h₂]
          rcases ih hp₂ with ⟨o, s₃, h₃, hp₃, hf₃, hset₃⟩ | h₃
          · exact .inl ⟨o, s₃, h₃, hp₃, fun x hx => hf₃ x (hf₂ x (hf₁ x hx)), hset₃⟩
          · exact .inr h₃
        · rw [if_neg hd]
          exact .inl hdone
    · right
      rw [he]

/-- Retiring a live root leaves one live root less. -/
theorem retire_root_shrinks {carried : Carried V} (hs : Sound s carried) {handle : H} {k : List C}
    (hk : s.by_handle[handle]? = some k) : ∃ s', retire_root s handle = .ok s' ∧ Sound s' carried ∧
      s'.by_handle.size < s.by_handle.size := by
  unfold retire_root
  rcases Subsumer.force_remove_root_cases hs handle with ⟨hn, -⟩ | ⟨k', hk', he⟩
  · rw [hn] at hk
    cases hk
  · rw [he]
    refine ⟨s.disbanded handle k', rfl, Subsumer.disbanded_sound hs hk', ?_⟩
    show (s.by_handle.erase handle).size < _
    have hlen := (toList_perm hk).length_eq
    rw [ExtTreeMap.length_toList, List.length_cons, ExtTreeMap.length_toList] at hlen
    omega

/-- More passes than live roots settle every plan. -/
theorem settle_plan_settles (a : Answers C H) (key : List C) (value : V) (interest : Interest)
    (globs : RootGlobs) {carried : Carried V} (hs : Sound s carried) {m n : Nat}
    (hm : s.by_handle.size < m) (hn : s.by_handle.size < n) :
    settle_plan a key value interest globs m s = settle_plan a key value interest globs n s := by
  induction m generalizing n s carried with
  | zero => omega
  | succ m ih =>
    obtain ⟨n, rfl⟩ : ∃ n', n = n' + 1 := ⟨n - 1, by omega⟩
    unfold settle_plan
    rcases Subsumer.plan_watch_sound hs key value interest globs with
      ⟨conflict, he⟩ | ⟨outcome, s₁, he, ha⟩ | ⟨he, -⟩
    · rw [he]
      dsimp only
      obtain ⟨k, hk⟩ := Subsumer.plan_watch_refused hs he
      obtain ⟨s₂, h₂, hs₂, hlt⟩ := retire_root_shrinks hs hk
      rw [h₂]
      dsimp only
      rw [ih hs₂ (n := n) (by omega) (by omega)]
    · rw [he]
      cases outcome with
      | widen repointed unwatch sub => rfl
      | disjoint sub => rfl
      | covered fs_root sub outside =>
        dsimp only
        obtain ⟨p, k, -, hk, -⟩ := ha.planned
        obtain ⟨s₂, h₂, hs₂, hlt⟩ := retire_root_shrinks
          (Subsumer.abort_watch_sound ha.sound (.covered fs_root sub outside)).1 hk
        have hsize : s₂.by_handle.size < s.by_handle.size := by
          rw [← ha.by_handle]
          exact hlt
        rw [h₂]
        dsimp only
        rw [ih hs₂ (n := n) (by omega) (by omega)]
    · rw [he]
/-! ### Commits -/

/-- A call goes through, and what it proved holds after it. -/
def Grounded (proved : Ground C H) (result : Proving C V H R T) : Prop :=
  ∃ s' facts, result = .ok (s', facts) ∧ Proved s' (track proved facts)

section
omit [TransOrd C] [LawfulEqOrd C] [LawfulEqOrd H]

theorem grounded_abort (h : Proved s proved) (outcome : WatchOutcome H) :
    Grounded proved (.ok (s.abort_watch outcome, [])) :=
  ⟨_, [], rfl, abort_watch_proved h outcome⟩

end

theorem retire_and_abort_grounded (h : Proved s proved) (outcome : WatchOutcome H) (handle : H) :
    Grounded proved (retire_and_abort s outcome handle) := by
  obtain ⟨s₁, h₁, hp, -⟩ := retire_root_proved h handle
  unfold retire_and_abort
  rw [h₁]
  exact grounded_abort hp outcome

section
omit [TransOrd C] [LawfulEqOrd C] [LawfulEqOrd H]

/-- Recording a cover inside the ground a root has now. -/
theorem set_retained_cover_proved (h : Proved s proved) (handle : H)
    (cover : Option (List (List C))) (g : Set (List C))
    (hin : ∀ k r, s.by_handle[handle]? = some k → Trie.get s.index k = some r →
      (∀ c, cover = some c → Formed k c) ∧
        RootRecord.coverage { r with retained_cover := cover } ⊆ g) :
    Proved (s.set_retained_cover handle cover) (Function.update proved handle g) := by
  obtain ⟨carried, hs⟩ := h.sound
  have hsound := (Subsumer.set_retained_cover_sound hs handle cover).1
  rcases Subsumer.set_retained_cover_cases hs handle cover with ⟨hn, he⟩ | ⟨k, r, hk, hg, hh, he⟩
  · rw [he]
    exact h.unnamed hn g
  · rw [he] at hsound ⊢
    obtain ⟨hform, hcov⟩ := hin k r hk hg
    have hget : ∀ k', Trie.get (s.recovered k r cover).index k' =
        if k = k' then some { r with retained_cover := cover } else Trie.get s.index k' :=
      fun k' => Trie.get_insert ..
    have hw := h.write (k := k) (r := { r with retained_cover := cover }) hsound
      (by rw [hget, if_pos rfl]) (fun k' r' hne hg' => by
        rw [hget, if_neg (Ne.symm hne)] at hg'
        exact hg') hform hcov
    rw [← hh]
    exact hw

end

section
omit [TransOrd C] [LawfulEqOrd C]

/-- A commit under a covering root moves no root. -/
theorem commit_covered_proved (h : Proved s proved) {fs_root : H} {sub : Subscription}
    {outside : Bool} (hp : Planned s (.covered fs_root sub outside)) :
    ∃ s', s.commit_covered sub fs_root = .ok s' ∧ Proved s' proved ∧ s'.index = s.index ∧
      s'.by_handle = s.by_handle := by
  obtain ⟨carried, hs⟩ := h.sound
  obtain ⟨s', he, hs', -⟩ := Subsumer.commit_covered_sound hs hp
  have hsame : s'.index = s.index ∧ s'.by_handle = s.by_handle := by
    unfold Subsumer.commit_covered at he
    obtain ⟨p, k, hpend, -⟩ := hp
    rw [Subsumer.take_pending_ok hpend] at he
    dsimp only at he
    split at he
    · cases he
    · cases he
      exact ⟨rfl, rfl⟩
  exact ⟨s', he, h.fewer hs' (fun k r hg => hsame.1 ▸ hg), hsame⟩

/-- A root armed apart from every other is proved whole. -/
theorem commit_disjoint_proved (h : Proved s proved) {fs_root : H} {sub : Subscription}
    {key : List C} (hp : Planned s (.disjoint sub)) (hf : s.by_handle[fs_root]? = none)
    (hk : s.fs_path_preserves_plan key [] = true) (globs : RootGlobs) :
    ∃ s', s.commit_disjoint sub fs_root key globs = .ok s' ∧
      Proved s' (Function.update proved fs_root (below key)) := by
  obtain ⟨carried, hs⟩ := h.sound
  obtain ⟨s', he, hs', -⟩ := Subsumer.commit_disjoint_sound hs hp hf hk globs
  have hindex : s'.index = Trie.insert s.index key (Subsumer.armed_record fs_root key globs) := by
    unfold Subsumer.commit_disjoint at he
    obtain ⟨p, hpend⟩ := hp
    rw [Subsumer.take_pending_ok hpend] at he
    cases he
    rfl
  refine ⟨s', he, h.write (k := key) (r := Subsumer.armed_record fs_root key globs) hs' ?_ ?_ ?_ ?_⟩
  · rw [hindex, Trie.get_insert, if_pos rfl]
  · intro k' r' hne hg
    rw [hindex, Trie.get_insert, if_neg (Ne.symm hne)] at hg
    exact hg
  · intro cover hc
    cases hc
  · rw [coverage_full rfl]
    exact subset_rfl

/-- A root that takes over the ones below it is proved whole. -/
theorem commit_widen_proved (h : Proved s proved) {fs_root : H} {sub : Subscription}
    {repointed : List Subscription} {u : List H} {key : List C}
    (hp : Planned s (.widen repointed u sub))
    (hf : s.by_handle[fs_root]? = none ∨ fs_root ∈ u)
    (hk : s.fs_path_preserves_plan key u = true) (globs : RootGlobs) :
    ∃ s', s.commit_widen repointed u sub fs_root key globs = .ok s' ∧
      Proved s' (Function.update proved fs_root (below key)) := by
  obtain ⟨carried, hs⟩ := h.sound
  obtain ⟨s', he, hs', -⟩ := Subsumer.commit_widen_sound hs hp hf hk globs
  have hindex : s'.index = Trie.insert (Radix.remove_descendants s.index key) key
      (Subsumer.armed_record fs_root key globs) := by
    unfold Subsumer.commit_widen at he
    obtain ⟨⟨p, hpend⟩, -⟩ := hp
    rw [Subsumer.take_pending_ok hpend] at he
    dsimp only at he
    split at he
    · cases he
    · cases he
      rfl
  refine ⟨s', he, h.write (k := key) (r := Subsumer.armed_record fs_root key globs) hs' ?_ ?_ ?_ ?_⟩
  · rw [hindex, Trie.get_insert, if_pos rfl]
  · intro k' r' hne hg
    rw [hindex, Trie.get_insert, if_neg (Ne.symm hne), Radix.get_remove_descendants] at hg
    split at hg
    · cases hg
    · exact hg
  · intro cover hc
    cases hc
  · rw [coverage_full rfl]
    exact subset_rfl

end

/-! ### Watches -/

section Watch

variable (a : Answers C H) {key : List C} {globs : RootGlobs} {outcome : WatchOutcome H}

section
omit [TransOrd C] [LawfulEqOrd C]

theorem commit_grown_grounded {fs_root : H} {sub : Subscription} {outside : Bool}
    (h : Proved s proved) (hp : Planned s (.covered fs_root sub outside)) (grown : List (List C))
    (record : Option (List (List C)))
    (hin : ∀ k r, s.by_handle[fs_root]? = some k → Trie.get s.index k = some r →
      (∀ c, record = some c → Formed k c) ∧
        RootRecord.coverage { r with retained_cover := record } ⊆ ground grown) :
    Grounded proved (commit_grown a key globs s (.covered fs_root sub outside) fs_root grown
      record) := by
  obtain ⟨s₁, h₁, hp₁, hi, hb⟩ := commit_covered_proved h hp
  unfold commit_grown
  by_cases hg : a.grow = true
  · rw [if_pos hg]
    rw [show s.commit_watch (.covered fs_root sub outside) fs_root key globs = .ok s₁ from h₁]
    refine ⟨_, _, rfl, ?_⟩
    refine set_retained_cover_proved hp₁ fs_root record _ ?_
    intro k r hk hget
    obtain ⟨hform, hcov⟩ := hin k r (hb ▸ hk) (hi ▸ hget)
    exact ⟨hform, fun x hx => .inr (hcov hx)⟩
  · rw [if_neg hg]
    exact grounded_abort h _

end

theorem watch_covered_grounded {fs_root : H} {sub : Subscription} {outside : Bool}
    (h : Settled s proved key (.covered fs_root sub outside)) :
    Grounded proved (watch_covered a key globs s (.covered fs_root sub outside) fs_root
      outside) := by
  obtain ⟨hproved, hplanned, p, hp, hkey⟩ := h
  obtain ⟨carried, hs⟩ := hproved.sound
  have hcommit : Grounded proved
      (commit_proving s (.covered fs_root sub outside) fs_root key globs []) := by
    obtain ⟨s₁, h₁, hp₁, -⟩ := commit_covered_proved hproved hplanned
    refine ⟨s₁, [], ?_, hp₁⟩
    unfold commit_proving
    rw [show s.commit_watch (.covered fs_root sub outside) fs_root key globs = .ok s₁ from h₁]
  unfold watch_covered
  by_cases ho : outside = true
  · rw [if_pos ho]
    have hcovered := hplanned
    obtain ⟨p', k, hp', hk, hle⟩ := hcovered
    -- the plan reserved the key that is watched
    have he : p' = p := by
      have hpend : s.pending[sub]? = some p := hp
      rw [hp'] at hpend
      exact Option.some.inj hpend
    subst he
    rw [hkey] at hle
    obtain ⟨answer, hans, hspec⟩ := Subsumer.retained_cover_for_spec hs hk hle
    obtain ⟨r, hg, hh⟩ := hs.rooted.handle fs_root k hk
    rw [hans]
    cases answer with
    | some cover =>
      refine commit_grown_grounded a hproved hplanned cover (some cover) ?_
      intro k' r' hk' hg'
      rw [hk] at hk'
      cases hk'
      refine ⟨?_, ?_⟩
      · intro c hc
        cases hc
        exact (hspec cover rfl).1
      · rw [coverage_narrowed rfl]
    | none =>
      have hentry : s.entry fs_root = some r := by
        unfold Subsumer.entry
        rw [hk]
        exact hg
      dsimp only
      rw [hentry]
      refine commit_grown_grounded a hproved hplanned [r.key] none ?_
      intro k' r' hk' hg'
      rw [hk] at hk'
      cases hk'
      rw [hg] at hg'
      cases hg'
      refine ⟨fun c hc => (by cases hc), ?_⟩
      rw [coverage_full rfl, ground_singleton]
  · rw [if_neg ho]
    exact hcommit

section
omit [TransOrd C] [LawfulEqOrd C]

theorem watch_disjoint_grounded {sub : Subscription} (hu : Unique s a)
    (h : Settled s proved key (.disjoint sub)) :
    Grounded proved (watch_disjoint a globs s (.disjoint sub)) := by
  unfold watch_disjoint
  cases ha : a.arm with
  | armed handle fs_key =>
    dsimp only
    by_cases hk : s.fs_path_preserves_plan fs_key [] = true
    · rw [if_pos hk]
      obtain ⟨s₁, h₁, hp₁⟩ :=
        commit_disjoint_proved h.proved h.planned (hu.arm handle fs_key ha) hk globs
      refine ⟨s₁, [.armed handle fs_key], ?_, hp₁⟩
      unfold commit_proving
      rw [show s.commit_watch (.disjoint sub) handle fs_key globs = .ok s₁ from h₁]
    · rw [if_neg hk]
      exact grounded_abort h.proved _
  | failed => exact grounded_abort h.proved _
  | stopped => exact grounded_abort h.proved _

end

/-! ### Re-arms -/

section
omit [TransOrd C] [LawfulEqOrd C]

/-- A re-armed root is proved whole under its new handle. -/
theorem rebind_root_proved (h : Proved s proved) {old new : H} {k : List C}
    {cohort : List Subscription} (hv : s.root_view old = some (k, cohort))
    (hnew : s.by_handle[new]? = none) :
    Proved (s.rebind_root old new) (Function.update proved new (below k)) ∧
      ∀ x, x ≠ new → (x = old ∨ s.by_handle[x]? = none) →
        (s.rebind_root old new).by_handle[x]? = none := by
  obtain ⟨carried, hs⟩ := h.sound
  have hsound := (Subsumer.rebind_root_sound hs old new (.inr hnew)).1
  unfold Subsumer.root_view Subsumer.entry at hv
  rcases Subsumer.rebind_root_cases hs old new with ⟨hn, he⟩ | ⟨k', r, hk, hg, -, he⟩
  · rw [hn] at hv
    cases hv
  · rw [hk, Option.bind_some, hg] at hv
    have hkey : k' = k := by
      cases hv
      exact (hs.rooted.record k' r hg).1.symm
    subst hkey
    rw [he] at hsound ⊢
    have hget : ∀ p, Trie.get (s.rebound old new k' r).index p =
        if k' = p then some { r with handle := new } else Trie.get s.index p :=
      fun p => Trie.get_insert ..
    refine ⟨h.write (k := k') (r := { r with handle := new }) hsound ?_ ?_ ?_ ?_, ?_⟩
    · rw [hget, if_pos rfl]
    · intro p r' hne hg'
      rw [hget, if_neg (Ne.symm hne)] at hg'
      exact hg'
    · exact h.recorded k' r hg
    · have hrec := (hs.rooted.record k' r hg).1
      have hin := RootRecord.coverage_inside (r := r) (hrec ▸ h.recorded k' r hg)
      rw [hrec] at hin
      exact hin
    · intro x hx hn
      show ((s.by_handle.erase old).insert new k')[x]? = none
      rw [get_insert, if_neg (Ne.symm hx), get_erase]
      rcases hn with rfl | hn
      · exact if_pos rfl
      · rw [hn, ite_self]

end

/-- The released roots are re-armed one after the other: no handle a re-arm
    returns is one that was released, or one that is live. -/
theorem restore_disarmed_roots_grounded (unwatch : List H) (rest : List H)
    (hdistinct : ∀ old old' new key key', a.rearm old = .armed new key →
      a.rearm old' = .armed new key' → old = old')
    (hfresh : ∀ old new key, a.rearm old = .armed new key → new ∉ rest)
    (hlive : ∀ old ∈ rest, ∀ new key, a.rearm old = .armed new key →
      s.by_handle[old]? = none ∨ s.by_handle[new]? = none)
    (h : Proved s proved) : Grounded proved (restore_disarmed_roots a unwatch rest s) := by
  induction rest generalizing s proved with
  | nil => exact ⟨s, [], rfl, h⟩
  | cons old rest ih =>
    have hfresh' : ∀ old new key, a.rearm old = .armed new key → new ∉ rest :=
      fun o n k hr hm => hfresh o n k hr (List.mem_cons_of_mem _ hm)
    have hall : ∃ s₁, retire_disarmed_roots s unwatch = .ok s₁ ∧ Proved s₁ proved :=
      retire_disarmed_roots_proved unwatch h
    obtain ⟨s₁, h₁, hp₁⟩ := hall
    obtain ⟨s₂, h₂, hp₂, hf₂⟩ := retire_root_proved h old
    have hone : Grounded proved (restore_disarmed_roots a unwatch rest s₂) := by
      refine ih hfresh' ?_ hp₂
      intro o hm n k hr
      exact (hlive o (List.mem_cons_of_mem _ hm) n k hr).imp (hf₂ o) (hf₂ n)
    unfold restore_disarmed_roots
    rw [h₁, h₂]
    dsimp only
    by_cases hpr : a.probe old = true
    · rw [if_pos hpr]
      exact ⟨s₁, [], rfl, hp₁⟩
    · rw [if_neg hpr]
      cases hv : s.root_view old with
      | none =>
        exact ih hfresh' (fun o hm => hlive o (List.mem_cons_of_mem _ hm)) h
      | some view =>
        obtain ⟨root_key, cohort⟩ := view
        dsimp only
        cases hr : a.rearm old with
        | refused => exact hone
        | terminal => exact ⟨s₁, [], rfl, hp₁⟩
        | armed new fs_key =>
          dsimp only
          by_cases hk : fs_key = root_key
          · rw [if_pos hk]
            have hnew : s.by_handle[new]? = none := by
              refine (hlive old List.mem_cons_self new fs_key hr).resolve_left ?_
              intro hn
              unfold Subsumer.root_view Subsumer.entry at hv
              rw [hn] at hv
              cases hv
            obtain ⟨hp, hkeep⟩ := rebind_root_proved h hv hnew
            have hrest : Grounded (Function.update proved new (below root_key))
                (restore_disarmed_roots a unwatch rest (s.rebind_root old new)) := by
              refine ih hfresh' ?_ hp
              intro o hm n k hr'
              have hon : o ≠ new := fun he =>
                hfresh old new fs_key hr (List.mem_cons_of_mem _ (he ▸ hm))
              by_cases hn : n = new
              · -- one handle is returned for one root only
                have he : o = old := hdistinct o old new k fs_key (hn ▸ hr') hr
                exact .inl (hkeep o hon (.inl he))
              · exact (hlive o (List.mem_cons_of_mem _ hm) n k hr').imp
                  (fun hd => hkeep o hon (.inr hd)) fun hd => hkeep n hn (.inr hd)
            obtain ⟨s₃, facts, h₃, hp₃⟩ := hrest
            rw [h₃]
            exact ⟨s₃, .armed new root_key :: facts, rfl, hp₃⟩
          · rw [if_neg hk]
            exact hone

section
omit [TransOrd C] [LawfulEqOrd C] [LawfulEqOrd H]

theorem abort_after_grounded {result : Proving C V H R T} (h : Grounded proved result)
    (outcome : WatchOutcome H) : Grounded proved (abort_after outcome result) := by
  obtain ⟨s₁, facts, he, hp⟩ := h
  rw [he]
  exact ⟨_, facts, rfl, abort_watch_proved hp outcome⟩

end

/-! ### Wider roots -/

theorem restore_grounded (hu : Unique s a) {repointed : List Subscription} {unwatch : List H}
    {sub : Subscription} (h : Settled s proved key (.widen repointed unwatch sub)) :
    Grounded proved (restore_disarmed_roots a unwatch unwatch s) := by
  refine restore_disarmed_roots_grounded a unwatch unwatch hu.distinct ?_ ?_ h.proved
  · intro old new k hr hm
    -- every released root is live, and what a re-arm returns is not
    obtain ⟨-, -, -, hlive⟩ := h.planned
    obtain ⟨k', hk'⟩ := hlive new hm
    rw [hu.rearm old new k hr] at hk'
    cases hk'
  · intro old _ new k hr
    exact .inr (hu.rearm old new k hr)

section
omit [TransOrd C] [LawfulEqOrd C]

theorem commit_widen_grounded {handle : H} {fs_key : List C} {repointed : List Subscription}
    {unwatch : List H} {sub : Subscription} {fact : Fact C H}
    (h : Settled s proved key (.widen repointed unwatch sub))
    (hf : s.by_handle[handle]? = none ∨ handle ∈ unwatch)
    (hk : s.fs_path_preserves_plan fs_key unwatch = true) (globs : RootGlobs)
    (hfact : fact.apply proved = Function.update proved handle (below fs_key)) :
    Grounded proved (commit_proving s (.widen repointed unwatch sub) handle fs_key globs
      [fact]) := by
  obtain ⟨s₁, h₁, hp₁⟩ := commit_widen_proved h.proved h.planned hf hk globs
  refine ⟨s₁, [fact], ?_, ?_⟩
  · unfold commit_proving
    rw [show s.commit_watch (.widen repointed unwatch sub) handle fs_key globs = .ok s₁ from h₁]
  · show Proved s₁ (fact.apply proved)
    rw [hfact]
    exact hp₁

end

theorem release_and_arm_grounded (hu : Unique s a) {repointed : List Subscription}
    {unwatch : List H} {sub : Subscription}
    (h : Settled s proved key (.widen repointed unwatch sub)) :
    Grounded proved (release_and_arm a globs s (.widen repointed unwatch sub) unwatch) := by
  have hback := abort_after_grounded (restore_grounded a hu h) (.widen repointed unwatch sub)
  unfold release_and_arm
  cases ha : a.arm with
  | stopped =>
    obtain ⟨s₁, h₁, hp₁⟩ := retire_disarmed_roots_proved unwatch h.proved
    dsimp only
    rw [h₁]
    exact grounded_abort hp₁ _
  | failed => exact hback
  | armed handle fs_key =>
    dsimp only
    by_cases hk : s.fs_path_preserves_plan fs_key unwatch = true
    · rw [if_pos hk]
      exact commit_widen_grounded h (.inl (hu.arm handle fs_key ha)) hk globs rfl
    · rw [if_neg hk]
      exact hback

theorem replace_in_place_grounded (hu : Unique s a) {repointed : List Subscription} {only : H}
    {sub : Subscription} (h : Settled s proved key (.widen repointed [only] sub))
    (only_key : List C) :
    Grounded proved (replace_in_place a globs s (.widen repointed [only] sub) [only] only
      only_key) := by
  have habort := grounded_abort h.proved (.widen repointed [only] sub)
  unfold replace_in_place
  cases ha : a.replace only with
  | refused => exact habort
  | stopped => exact habort
  | failed => exact release_and_arm_grounded a hu h
  | replaced handle fs_key =>
    have hretire := retire_and_abort_grounded h.proved (.widen repointed [only] sub) handle
    dsimp only
    by_cases hk : s.fs_path_preserves_plan fs_key [only] = true
    · rw [if_pos hk]
      have hin : handle ∈ [only] := List.mem_singleton.mpr (hu.replace only handle fs_key ha)
      exact commit_widen_grounded h (.inr hin) hk _ rfl
    · rw [if_neg hk]
      cases a.rollback handle with
      | stopped => exact habort
      | refused => exact hretire
      | failed => exact hretire
      | replaced _ back_key =>
        dsimp only
        by_cases hb : back_key = only_key
        · rw [if_pos hb]
          exact habort
        · rw [if_neg hb]
          exact hretire

theorem watch_widen_grounded (hu : Unique s a) {repointed : List Subscription}
    {unwatch : List H} {sub : Subscription}
    (h : Settled s proved key (.widen repointed unwatch sub)) :
    Grounded proved (watch_widen a globs s (.widen repointed unwatch sub) unwatch) := by
  unfold watch_widen
  split
  · next only =>
    cases a.root_key only with
    | some only_key => exact replace_in_place_grounded a hu h only_key
    | none => exact release_and_arm_grounded a hu h
  · exact release_and_arm_grounded a hu h

end Watch

/-- What no live root had before, none has after. -/
theorem Unique.fewer {a : Answers C H} (hu : Unique s a) (hf : FewerHandles s s') :
    Unique s' a :=
  ⟨fun h k ha => hf h (hu.arm h k ha), hu.replace, fun o n k hr => hf n (hu.rearm o n k hr),
    hu.distinct⟩

theorem watch_grounded {a : Answers C H} (hu : Unique s a) (h : Proved s proved) (key : List C)
    (value : V) (interest : Interest) (globs : RootGlobs) :
    Grounded proved (watch a key value interest globs s) ∨
      watch a key value interest globs s = .error .id_space_exhausted := by
  unfold watch
  rcases settle_plan_proved a key value interest globs (s.by_handle.size + 1) h with
    ⟨o, s₁, he, hp, hf, hset⟩ | he
  · left
    rw [he]
    cases o with
    | none => exact ⟨s₁, [], rfl, hp⟩
    | some outcome =>
      have hsettled := hset outcome rfl
      have hu₁ := hu.fewer hf
      cases outcome with
      | covered fs_root sub outside => exact watch_covered_grounded a hsettled
      | disjoint sub => exact watch_disjoint_grounded a hu₁ hsettled
      | widen repointed unwatch sub => exact watch_widen_grounded a hu₁ hsettled
  · right
    rw [he]

end Owner

end Umbrella
