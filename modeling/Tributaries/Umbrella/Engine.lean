import Tributaries.Umbrella.Lookups

/-! # The invariant of the engine

  Four parts, each over the planes it speaks of: the roots and the maps
  that name them, the cohorts and the side table, the coverage plane, and
  the minted ids.  Every call of the engine keeps all four.
-/

open Std Collections Region

namespace Umbrella

open Proto (ScopeId)

variable {C V H : Type} {R T : Type → Type}
variable [DecidableEq C] [Ord C] [TransOrd C] [LawfulEqOrd C]
  [DecidableEq H] [Ord H] [TransOrd H] [LawfulEqOrd H] [Radix C R] [Trie ScopeId T]

/-! ### The parts -/

/-- The cohort of a root, empty for a handle that names none. -/
def cohort_of (root_subs : Map H (List Subscription)) (h : H) : List Subscription :=
  (root_subs[h]?).getD []

/-- The roots are prefix-free, and the three maps that name them agree. -/
structure Rooted (index : R (RootRecord C H)) (by_handle : Map H (List C))
    (root_subs : Map H (List Subscription)) : Prop where
  record : ∀ k r, Trie.get index k = some r → r.key = k ∧ by_handle[r.handle]? = some k
  handle : ∀ (h : H) (k : List C), by_handle[h]? = some k → ∃ r, Trie.get index k = some r ∧ r.handle = h
  cohort : ∀ h : H, by_handle[h]? = none ↔ root_subs[h]? = none
  prefix_free : ∀ k k' r r', Trie.get index k = some r → Trie.get index k' = some r' →
    k <+: k' → k = k'

/-- A live subscription is in the cohort of the root it records, once, and
    in no other; its key is at or below that root's. -/
structure Housed (by_handle : Map H (List C)) (root_subs : Map H (List Subscription))
    (subs : Map Subscription (SubRecord C H)) : Prop where
  nodup : ∀ h, (cohort_of root_subs h).Nodup
  rides : ∀ (sub : Subscription) (h : H), sub ∈ cohort_of root_subs h ↔
    ∃ r, subs[sub]? = some r ∧ r.root = h
  below : ∀ (sub : Subscription) (r : SubRecord C H) (k : List C), subs[sub]? = some r →
    by_handle[r.root]? = some k → k <+: r.key

/-- The values and interests the watches were called with. -/
abbrev Carried (V : Type) := Subscription → Option (V × Interest)

/-- The coverage plane holds the live subscriptions, each at its own key with
    the value it was watched with, and no empty entry. -/
structure Attributed (covers : R (CoverEntry T V)) (subs : Map Subscription (SubRecord C H))
    (instance_id : InstanceId) (carried : Carried V) : Prop where
  filled : Filled covers
  values : ∀ k id v, at_key covers k id = some v ↔ ∃ r, subs[(⟨instance_id, id⟩ : Subscription)]? =
    some r ∧ r.key = k ∧ carried ⟨instance_id, id⟩ = some (v, r.interest)
  carries : ∀ (sub : Subscription) (r : SubRecord C H), subs[sub]? = some r → ∃ v, carried sub = some (v, r.interest)

/-- Ids are minted once, and a planned subscription is not live yet. -/
structure Minted (subs : Map Subscription (SubRecord C H))
    (pending : Map Subscription (PendingWatch C V)) (instance_id : InstanceId)
    (next_sub : ScopeId) (carried : Carried V) : Prop where
  live : ∀ (sub : Subscription) (r : SubRecord C H), subs[sub]? = some r →
    sub.instance_id = instance_id ∧ sub.scope < next_sub
  planned : ∀ (sub : Subscription) (p : PendingWatch C V), pending[sub]? = some p → sub.instance_id = instance_id ∧
    sub.scope < next_sub ∧ subs[sub]? = none ∧ carried sub = some (p.value, p.interest)

/-- The invariant of the engine. -/
structure Sound (s : Subsumer C V H R T) (carried : Carried V) : Prop where
  rooted : Rooted s.index s.by_handle s.root_subs
  housed : Housed s.by_handle s.root_subs s.subs
  attributed : Attributed s.covers s.subs s.instance_id carried
  minted : Minted s.subs s.pending s.instance_id s.next_sub carried
  published : s.shared = ⟨s.index, s.covers⟩

/-! ### Roots -/

section Rooted

variable {index : R (RootRecord C H)} {by_handle : Map H (List C)}
variable {root_subs : Map H (List Subscription)} {k k' : List C} {h h' : H}

section
omit [TransOrd C] [LawfulEqOrd C] [DecidableEq H] [LawfulEqOrd H]

theorem Rooted.unique (hr : Rooted index by_handle root_subs) {r r' : RootRecord C H}
    (hk : Trie.get index k = some r) (hk' : Trie.get index k' = some r')
    (hh : r.handle = r'.handle) : k = k' := by
  have h₁ := (hr.record k r hk).2
  have h₂ := (hr.record k' r' hk').2
  rw [hh, h₂] at h₁
  exact (Option.some.inj h₁).symm

theorem Rooted.congr (hr : Rooted index by_handle root_subs) {index' : R (RootRecord C H)}
    (hi : ∀ k, Trie.get index' k = Trie.get index k) : Rooted index' by_handle root_subs := by
  constructor
  · intro k r hg
    exact hr.record k r (hi k ▸ hg)
  · intro h k hb
    rw [hi]
    exact hr.handle h k hb
  · exact hr.cohort
  · intro k k' r r' h₁ h₂
    exact hr.prefix_free k k' r r' (hi k ▸ h₁) (hi k' ▸ h₂)

end

section
omit [TransOrd C] [LawfulEqOrd C]

/-- A new root at a key no other is at, above or below. -/
theorem Rooted.plant (hr : Rooted index by_handle root_subs) (record : RootRecord C H)
    (cohort : List Subscription) (hk : record.key = k) (hh : record.handle = h)
    (hn : by_handle[h]? = none)
    (ha : ∀ k' r, Trie.get index k' = some r → ¬ k' <+: k ∧ ¬ k <+: k') :
    Rooted (Trie.insert index k record) (by_handle.insert h k) (root_subs.insert h cohort) := by
  constructor
  · intro k' r hg
    rw [Trie.get_insert] at hg
    by_cases he : k = k'
    · rw [if_pos he] at hg
      cases hg
      rw [get_insert, if_pos hh.symm]
      exact ⟨hk.trans he, congrArg some he⟩
    · rw [if_neg he] at hg
      obtain ⟨hk', hb⟩ := hr.record k' r hg
      have hne : h ≠ r.handle := by
        intro heq
        rw [← heq, hn] at hb
        cases hb
      rw [get_insert, if_neg hne]
      exact ⟨hk', hb⟩
  · intro h' k' hb
    rw [get_insert] at hb
    by_cases he : h = h'
    · rw [if_pos he] at hb
      cases hb
      exact ⟨record, by rw [Trie.get_insert, if_pos rfl], hh.trans he⟩
    · rw [if_neg he] at hb
      obtain ⟨r, hg, hrh⟩ := hr.handle h' k' hb
      refine ⟨r, ?_, hrh⟩
      rw [Trie.get_insert, if_neg, hg]
      intro heq
      exact (ha k' r hg).1 (heq ▸ List.prefix_rfl)
  · intro h'
    rw [get_insert, get_insert]
    by_cases he : h = h'
    · simp [he]
    · rw [if_neg he, if_neg he]
      exact hr.cohort h'
  · intro k₁ k₂ r₁ r₂ h₁ h₂ hp
    rw [Trie.get_insert] at h₁ h₂
    by_cases he₁ : k = k₁
    · by_cases he₂ : k = k₂
      · exact he₁.symm.trans he₂
      · rw [if_neg he₂] at h₂
        exact absurd (he₁ ▸ hp) (ha k₂ r₂ h₂).2
    · rw [if_neg he₁] at h₁
      by_cases he₂ : k = k₂
      · exact absurd (he₂ ▸ hp) (ha k₁ r₁ h₁).1
      · rw [if_neg he₂] at h₂
        exact hr.prefix_free k₁ k₂ r₁ r₂ h₁ h₂ hp

end

section
omit [TransOrd C] [LawfulEqOrd C] [DecidableEq H] [LawfulEqOrd H]

/-- Some of the roots, with their handles. -/
theorem Rooted.prune (hr : Rooted index by_handle root_subs) {index' : R (RootRecord C H)}
    {by_handle' : Map H (List C)} {root_subs' : Map H (List Subscription)} {P : H → Prop}
    [DecidablePred P]
    (hi : ∀ k r, Trie.get index' k = some r ↔ Trie.get index k = some r ∧ ¬ P r.handle)
    (hb : ∀ h : H, by_handle'[h]? = if P h then none else by_handle[h]?)
    (hs : ∀ h : H, root_subs'[h]? = if P h then none else root_subs[h]?) :
    Rooted index' by_handle' root_subs' := by
  constructor
  · intro k r hg
    obtain ⟨hg, hp⟩ := (hi k r).mp hg
    rw [hb, if_neg hp]
    exact hr.record k r hg
  · intro h k hg
    rw [hb] at hg
    by_cases hp : P h
    · rw [if_pos hp] at hg
      cases hg
    · rw [if_neg hp] at hg
      obtain ⟨r, hr', hh⟩ := hr.handle h k hg
      exact ⟨r, (hi k r).mpr ⟨hr', hh ▸ hp⟩, hh⟩
  · intro h
    rw [hb, hs]
    by_cases hp : P h
    · rw [if_pos hp, if_pos hp]
      simp
    · rw [if_neg hp, if_neg hp]
      exact hr.cohort h
  · intro k k' r r' h₁ h₂
    exact hr.prefix_free k k' r r' ((hi k r).mp h₁).1 ((hi k' r').mp h₂).1

end

section
omit [TransOrd C] [LawfulEqOrd C]

/-- A root is dropped by its handle. -/
theorem Rooted.drop (hr : Rooted index by_handle root_subs) (hk : by_handle[h]? = some k) :
    Rooted (Trie.remove index k) (by_handle.erase h) (root_subs.erase h) := by
  obtain ⟨r, hg, hh⟩ := hr.handle h k hk
  refine hr.prune (P := fun h' => h = h') ?_ (fun h' => get_erase ..) (fun h' => get_erase ..)
  intro k' r'
  rw [Trie.get_remove]
  by_cases he : k = k'
  · subst he
    rw [if_pos rfl]
    constructor
    · intro hc
      cases hc
    · rintro ⟨hg', hn⟩
      rw [hg] at hg'
      cases hg'
      exact absurd hh.symm hn
  · rw [if_neg he]
    constructor
    · intro hg'
      refine ⟨hg', fun heq => he ?_⟩
      exact hr.unique hg hg' (hh.trans heq)
    · exact fun hg' => hg'.1

end

section
omit [TransOrd C] [LawfulEqOrd C] [DecidableEq H] [LawfulEqOrd H]

/-- A record changes at its key, and keeps its key and handle. -/
theorem Rooted.rewrite (hr : Rooted index by_handle root_subs) {r r' : RootRecord C H}
    (hg : Trie.get index k = some r) (hk : r'.key = r.key) (hh : r'.handle = r.handle) :
    Rooted (Trie.insert index k r') by_handle root_subs := by
  have hi : ∀ k₁ r₁, Trie.get (Trie.insert index k r') k₁ = some r₁ →
      ∃ r₂, Trie.get index k₁ = some r₂ ∧ r₂.key = r₁.key ∧ r₂.handle = r₁.handle := by
    intro k₁ r₁ h₁
    rw [Trie.get_insert] at h₁
    by_cases he : k = k₁
    · rw [if_pos he] at h₁
      cases h₁
      exact ⟨r, he ▸ hg, hk.symm, hh.symm⟩
    · rw [if_neg he] at h₁
      exact ⟨r₁, h₁, rfl, rfl⟩
  constructor
  · intro k₁ r₁ h₁
    obtain ⟨r₂, h₂, hk₂, hh₂⟩ := hi k₁ r₁ h₁
    rw [← hk₂, ← hh₂]
    exact hr.record k₁ r₂ h₂
  · intro h k₁ hb
    obtain ⟨r₁, h₁, hh₁⟩ := hr.handle h k₁ hb
    by_cases he : k = k₁
    · subst he
      rw [hg] at h₁
      cases h₁
      exact ⟨r', by rw [Trie.get_insert, if_pos rfl], hh.trans hh₁⟩
    · exact ⟨r₁, by rw [Trie.get_insert, if_neg he, h₁], hh₁⟩
  · exact hr.cohort
  · intro k₁ k₂ r₁ r₂ h₁ h₂ hp
    obtain ⟨r₁', h₁', -⟩ := hi k₁ r₁ h₁
    obtain ⟨r₂', h₂', -⟩ := hi k₂ r₂ h₂
    exact hr.prefix_free k₁ k₂ r₁' r₂' h₁' h₂' hp

end

section
omit [TransOrd C] [LawfulEqOrd C]

/-- The cohort of a live root changes. -/
theorem Rooted.recohort (hr : Rooted index by_handle root_subs) {cohort : List Subscription}
    (hk : by_handle[h]? = some k) : Rooted index by_handle (root_subs.insert h cohort) := by
  refine ⟨hr.record, hr.handle, ?_, hr.prefix_free⟩
  intro h'
  rw [get_insert]
  by_cases he : h = h'
  · subst he
    simp [hk]
  · rw [if_neg he]
    exact hr.cohort h'

end

end Rooted

/-! ### Cohorts -/

section Housed

variable {by_handle : Map H (List C)} {root_subs : Map H (List Subscription)}
variable {subs : Map Subscription (SubRecord C H)} {sub : Subscription} {h f : H}

theorem cohort_of_insert (root_subs : Map H (List Subscription)) (h h' : H)
    (cohort : List Subscription) :
    cohort_of (root_subs.insert h cohort) h' = if h = h' then cohort else cohort_of root_subs h' := by
  unfold cohort_of
  rw [get_insert]
  split <;> rfl

theorem cohort_of_erase (root_subs : Map H (List Subscription)) (h h' : H) :
    cohort_of (root_subs.erase h) h' = if h = h' then [] else cohort_of root_subs h' := by
  unfold cohort_of
  rw [get_erase]
  split <;> rfl

theorem cohort_of_forget (root_subs : Map H (List Subscription)) (u : List H) (h : H) :
    cohort_of (Subsumer.forget_all u root_subs) h =
      if h ∈ u then [] else cohort_of root_subs h := by
  unfold cohort_of
  rw [Subsumer.get_forget_all]
  split <;> rfl

section
omit [DecidableEq C] [Ord C] [TransOrd C] [LawfulEqOrd C] [DecidableEq H] [LawfulEqOrd H]

/-- Only the cohorts and the live handles matter. -/
theorem Housed.congr (hh : Housed by_handle root_subs subs) {by_handle' : Map H (List C)}
    {root_subs' : Map H (List Subscription)}
    (hs : ∀ h, cohort_of root_subs' h = cohort_of root_subs h)
    (hb : ∀ (h : H) (k : List C), by_handle'[h]? = some k → by_handle[h]? = some k) :
    Housed by_handle' root_subs' subs := by
  constructor
  · intro h
    rw [hs]
    exact hh.nodup h
  · intro sub h
    rw [hs]
    exact hh.rides sub h
  · intro sub r k hr hk
    exact hh.below sub r k hr (hb r.root k hk)

theorem Housed.absent (hh : Housed by_handle root_subs subs) (hn : subs[sub]? = none) (h : H) :
    sub ∉ cohort_of root_subs h := by
  intro hm
  obtain ⟨r, hr, -⟩ := (hh.rides sub h).mp hm
  rw [hn] at hr
  cases hr

theorem Housed.live (hh : Housed by_handle root_subs subs) (hm : sub ∈ cohort_of root_subs h) :
    ∃ r, subs[sub]? = some r ∧ r.root = h := (hh.rides sub h).mp hm

end

section
omit [DecidableEq C] [Ord C] [TransOrd C] [LawfulEqOrd C]

/-- A new root nobody rides yet. -/
theorem Housed.extend (hh : Housed by_handle root_subs subs) (key : List C)
    (hf : cohort_of root_subs f = []) : Housed (by_handle.insert f key) root_subs subs := by
  refine ⟨hh.nodup, hh.rides, ?_⟩
  intro sub r k hr hk
  rw [get_insert] at hk
  by_cases he : f = r.root
  · have hm := (hh.rides sub f).mpr ⟨r, hr, he.symm⟩
    rw [hf] at hm
    cases hm
  · rw [if_neg he] at hk
    exact hh.below sub r k hr hk

/-- A subscription joins a cohort. -/
theorem Housed.enroll (hh : Housed by_handle root_subs subs) (side : SubRecord C H)
    (hn : subs[sub]? = none) (hf : side.root = f)
    (hb : ∀ k, by_handle[f]? = some k → k <+: side.key) :
    Housed by_handle (root_subs.insert f (cohort_of root_subs f ++ [sub]))
      (subs.insert sub side) := by
  constructor
  · intro h
    rw [cohort_of_insert]
    by_cases he : f = h
    · rw [if_pos he, List.nodup_append]
      refine ⟨hh.nodup f, List.nodup_singleton sub, ?_⟩
      intro a ha b hb' hab
      rw [List.mem_singleton.mp hb'] at hab
      exact hh.absent hn f (hab ▸ ha)
    · rw [if_neg he]
      exact hh.nodup h
  · intro x h
    rw [cohort_of_insert, get_insert]
    by_cases hx : sub = x
    · subst hx
      rw [if_pos rfl]
      constructor
      · intro hm
        by_cases he : f = h
        · exact ⟨side, rfl, hf.trans he⟩
        · rw [if_neg he] at hm
          exact absurd hm (hh.absent hn h)
      · rintro ⟨r, hr, rfl⟩
        cases hr
        rw [if_pos hf.symm]
        exact List.mem_append_right _ (List.mem_singleton.mpr rfl)
    · rw [if_neg hx, ← hh.rides x h]
      by_cases he : f = h
      · subst he
        rw [if_pos rfl, List.mem_append, List.mem_singleton]
        exact or_iff_left (Ne.symm hx)
      · rw [if_neg he]
  · intro x r k hr hk
    rw [get_insert] at hr
    by_cases hx : sub = x
    · rw [if_pos hx] at hr
      cases hr
      exact hb k (hf ▸ hk)
    · rw [if_neg hx] at hr
      exact hh.below x r k hr hk

end

section
omit [DecidableEq C] [Ord C] [TransOrd C] [LawfulEqOrd C] [LawfulEqOrd H]

/-- The cohorts of some roots move onto one root above them. -/
theorem Housed.merge (hh : Housed by_handle root_subs subs) {by_handle' : Map H (List C)}
    {root_subs' : Map H (List Subscription)} {subs' : Map Subscription (SubRecord C H)}
    {u : List H} {moved : List Subscription} (key : List C)
    (hb : ∀ h : H, by_handle'[h]? = if f = h then some key else if h ∈ u then none
      else by_handle[h]?)
    (hs : ∀ h, cohort_of root_subs' h = if f = h then moved else if h ∈ u then []
      else cohort_of root_subs h)
    (hsub : ∀ x : Subscription, subs'[x]? =
      if x ∈ moved then (subs[x]?).map (SubRecord.ride f) else subs[x]?)
    (hm : ∀ x, x ∈ moved ↔ ∃ h ∈ u, x ∈ cohort_of root_subs h) (hn : moved.Nodup)
    (hf : cohort_of root_subs f = [] ∨ f ∈ u)
    (hk : ∀ h ∈ u, ∃ k, by_handle[h]? = some k ∧ key <+: k) :
    Housed by_handle' root_subs' subs' := by
  -- a subscription that stays does not ride a root that goes, nor the new one
  have hstay : ∀ x r, x ∉ moved → subs[x]? = some r → r.root ∉ u ∧ f ≠ r.root := by
    intro x r hx hr
    have hx' : x ∈ cohort_of root_subs r.root := (hh.rides x r.root).mpr ⟨r, hr, rfl⟩
    have hu : r.root ∉ u := fun hu => hx ((hm x).mpr ⟨r.root, hu, hx'⟩)
    refine ⟨hu, ?_⟩
    intro he
    rcases hf with hf | hf
    · rw [← he, hf] at hx'
      cases hx'
    · exact hu (he ▸ hf)
  constructor
  · intro h
    rw [hs]
    by_cases he : f = h
    · rw [if_pos he]
      exact hn
    · rw [if_neg he]
      by_cases hu : h ∈ u
      · rw [if_pos hu]
        exact List.nodup_nil
      · rw [if_neg hu]
        exact hh.nodup h
  · intro x h
    rw [hs, hsub]
    by_cases hx : x ∈ moved
    · rw [if_pos hx]
      obtain ⟨h₀, hu₀, hc⟩ := (hm x).mp hx
      obtain ⟨r, hr, hroot⟩ := hh.live hc
      rw [hr, Option.map_some]
      constructor
      · intro hmem
        by_cases he : f = h
        · exact ⟨_, rfl, he⟩
        · rw [if_neg he] at hmem
          by_cases hu : h ∈ u
          · rw [if_pos hu] at hmem
            cases hmem
          · rw [if_neg hu] at hmem
            obtain ⟨r', hr', hroot'⟩ := hh.live hmem
            rw [hr] at hr'
            cases hr'
            exact absurd (hroot.symm.trans hroot' ▸ hu₀) hu
      · rintro ⟨r', hr', hroot'⟩
        cases hr'
        rw [if_pos (show f = h from hroot')]
        exact hx
    · rw [if_neg hx]
      constructor
      · intro hmem
        by_cases he : f = h
        · rw [if_pos he] at hmem
          exact absurd hmem hx
        · rw [if_neg he] at hmem
          by_cases hu : h ∈ u
          · rw [if_pos hu] at hmem
            cases hmem
          · rw [if_neg hu] at hmem
            exact hh.live hmem
      · rintro ⟨r, hr, rfl⟩
        obtain ⟨hu, he⟩ := hstay x r hx hr
        rw [if_neg he, if_neg hu]
        exact (hh.rides x r.root).mpr ⟨r, hr, rfl⟩
  · intro x r k hr hkey
    rw [hsub] at hr
    rw [hb] at hkey
    by_cases hx : x ∈ moved
    · rw [if_pos hx] at hr
      obtain ⟨h₀, hu₀, hc⟩ := (hm x).mp hx
      obtain ⟨r₀, hr₀, hroot⟩ := hh.live hc
      rw [hr₀, Option.map_some] at hr
      cases hr
      obtain ⟨k₀, hk₀, hp⟩ := hk h₀ hu₀
      rw [if_pos (show f = (SubRecord.ride f r₀).root from rfl)] at hkey
      cases hkey
      exact hp.trans (hh.below x r₀ k₀ hr₀ (hroot ▸ hk₀))
    · rw [if_neg hx] at hr
      obtain ⟨hu, he⟩ := hstay x r hx hr
      rw [if_neg he, if_neg hu] at hkey
      exact hh.below x r k hr hkey

end

section
omit [DecidableEq C] [Ord C] [TransOrd C] [LawfulEqOrd C]

/-- A subscription leaves its cohort. -/
theorem Housed.leave (hh : Housed by_handle root_subs subs) {r : SubRecord C H}
    (hr : subs[sub]? = some r) :
    Housed by_handle (root_subs.insert r.root
      ((cohort_of root_subs r.root).filter fun other => decide (other ≠ sub))) (subs.erase sub) := by
  have hget : ∀ x, (subs.erase sub)[x]? = if sub = x then none else subs[x]? := get_erase subs sub
  constructor
  · intro h
    rw [cohort_of_insert]
    by_cases he : r.root = h
    · rw [if_pos he]
      exact (hh.nodup r.root).filter _
    · rw [if_neg he]
      exact hh.nodup h
  · intro x h
    have hmem : x ∈ cohort_of (root_subs.insert r.root
        ((cohort_of root_subs r.root).filter fun other => decide (other ≠ sub))) h ↔
        x ∈ cohort_of root_subs h ∧ (r.root = h → x ≠ sub) := by
      rw [cohort_of_insert]
      by_cases he : r.root = h
      · subst he
        simp
      · simp [he]
    rw [hmem, hget, hh.rides]
    by_cases hx : sub = x
    · subst hx
      rw [if_pos rfl, hr]
      constructor
      · rintro ⟨⟨r', hr', he⟩, hne⟩
        cases hr'
        exact absurd rfl (hne he)
      · rintro ⟨r', hr', -⟩
        cases hr'
    · rw [if_neg hx]
      exact and_iff_left fun _ => Ne.symm hx
  · intro x r' k hr' hk
    rw [hget] at hr'
    by_cases hx : sub = x
    · rw [if_pos hx] at hr'
      cases hr'
    · rw [if_neg hx] at hr'
      exact hh.below x r' k hr' hk

/-- A whole cohort goes, with its root. -/
theorem Housed.disband (hh : Housed by_handle root_subs subs)
    {subs' : Map Subscription (SubRecord C H)}
    (hsub : ∀ x : Subscription, subs'[x]? =
      if x ∈ cohort_of root_subs h then none else subs[x]?) :
    Housed (by_handle.erase h) (root_subs.erase h) subs' := by
  constructor
  · intro h'
    rw [cohort_of_erase]
    by_cases he : h = h'
    · rw [if_pos he]
      exact List.nodup_nil
    · rw [if_neg he]
      exact hh.nodup h'
  · intro x h'
    rw [cohort_of_erase, hsub]
    by_cases hx : x ∈ cohort_of root_subs h
    · rw [if_pos hx]
      obtain ⟨r, hr, hroot⟩ := hh.live hx
      constructor
      · intro hm
        by_cases he : h = h'
        · rw [if_pos he] at hm
          cases hm
        · rw [if_neg he] at hm
          obtain ⟨r', hr', hroot'⟩ := hh.live hm
          rw [hr] at hr'
          cases hr'
          exact absurd (hroot.symm.trans hroot') he
      · rintro ⟨r', hr', -⟩
        cases hr'
    · rw [if_neg hx, ← hh.rides]
      by_cases he : h = h'
      · subst he
        rw [if_pos rfl]
        exact iff_of_false List.not_mem_nil hx
      · rw [if_neg he]
  · intro x r k hr hk
    rw [hsub] at hr
    rw [get_erase] at hk
    by_cases hx : x ∈ cohort_of root_subs h
    · rw [if_pos hx] at hr
      cases hr
    · rw [if_neg hx] at hr
      by_cases he : h = r.root
      · rw [if_pos he] at hk
        cases hk
      · rw [if_neg he] at hk
        exact hh.below x r k hr hk

end

end Housed

/-! ### The coverage plane -/

section Attributed

variable {covers covers' : R (CoverEntry T V)} {subs subs' : Map Subscription (SubRecord C H)}
variable {instance_id : InstanceId} {carried : Carried V} {sub : Subscription}

section
omit [TransOrd C] [LawfulEqOrd C] [DecidableEq H] [Ord H] [TransOrd H] [LawfulEqOrd H]

/-- The side table changes nothing but the roots ridden. -/
theorem Attributed.reroot (ha : Attributed covers subs instance_id carried) {root : H}
    {moved : List Subscription}
    (hsub : ∀ x : Subscription, subs'[x]? =
      if x ∈ moved then (subs[x]?).map (SubRecord.ride root) else subs[x]?) :
    Attributed covers subs' instance_id carried := by
  have hkeep : ∀ (x : Subscription) (q : List C → Interest → Prop),
      (∃ r' : SubRecord C H, subs'[x]? = some r' ∧ q r'.key r'.interest) ↔
        ∃ r : SubRecord C H, subs[x]? = some r ∧ q r.key r.interest := by
    intro x q
    rw [hsub]
    by_cases hx : x ∈ moved
    · rw [if_pos hx]
      cases subs[x]? with
      | none => simp
      | some r => simp [SubRecord.ride]
    · rw [if_neg hx]
  refine ⟨ha.filled, ?_, ?_⟩
  · intro k id v
    rw [ha.values]
    exact (hkeep _ fun key interest => key = k ∧ carried _ = some (v, interest)).symm
  · intro x r' hr'
    obtain ⟨r, hr, he⟩ := (hkeep x fun _ interest => interest = r'.interest).mp ⟨r', hr', rfl⟩
    rw [← he]
    exact ha.carries x r hr

/-- A new subscription joins the plane at its key. -/
theorem Attributed.join (ha : Attributed covers subs instance_id carried) (side : SubRecord C H)
    {v : V} (hf : Filled covers')
    (hat : ∀ k id, at_key covers' k id =
      if side.key = k ∧ sub.scope = id then some v else at_key covers k id)
    (hi : sub.instance_id = instance_id) (hn : subs[sub]? = none)
    (hc : carried sub = some (v, side.interest)) :
    Attributed covers' (subs.insert sub side) instance_id carried := by
  refine ⟨hf, ?_, ?_⟩
  · intro k id w
    rw [hat, get_insert]
    by_cases hs : sub.scope = id
    · have he : sub = ⟨instance_id, id⟩ := by rw [← hi, ← hs]
      rw [if_pos he, ← he]
      constructor
      · intro h
        by_cases hk : side.key = k
        · rw [if_pos ⟨hk, hs⟩] at h
          cases h
          exact ⟨side, rfl, hk, hc⟩
        · rw [if_neg fun h => hk h.1] at h
          obtain ⟨r, hr, -⟩ := (ha.values k id w).mp h
          rw [← he, hn] at hr
          cases hr
      · rintro ⟨r, hr, hk, hv⟩
        cases hr
        rw [hc] at hv
        cases hv
        rw [if_pos ⟨hk, hs⟩]
    · have he : sub ≠ ⟨instance_id, id⟩ := fun h => hs (congrArg Subscription.scope h)
      rw [if_neg he, if_neg fun h => hs h.2]
      exact ha.values k id w
  · intro x r hr
    rw [get_insert] at hr
    by_cases hx : sub = x
    · rw [if_pos hx] at hr
      cases hr
      exact ⟨v, hx ▸ hc⟩
    · rw [if_neg hx] at hr
      exact ha.carries x r hr

/-- Some subscriptions leave the plane. -/
theorem Attributed.depart (ha : Attributed covers subs instance_id carried)
    (gone : List Subscription) (hf : Filled covers')
    (hi : ∀ (x : Subscription) (r : SubRecord C H), subs[x]? = some r →
      x.instance_id = instance_id)
    (hsub : ∀ x : Subscription, subs'[x]? = if x ∈ gone then none else subs[x]?)
    (hat : ∀ k id, at_key covers' k id =
      if ∃ x ∈ gone, x.scope = id ∧ ∃ r, subs[x]? = some r ∧ r.key = k then none
      else at_key covers k id) :
    Attributed covers' subs' instance_id carried := by
  refine ⟨hf, ?_, ?_⟩
  · intro k id v
    rw [hat, hsub]
    by_cases hg : (⟨instance_id, id⟩ : Subscription) ∈ gone
    · rw [if_pos hg]
      constructor
      · intro h
        by_cases hx : ∃ x ∈ gone, x.scope = id ∧ ∃ r, subs[x]? = some r ∧ r.key = k
        · rw [if_pos hx] at h
          cases h
        · rw [if_neg hx] at h
          obtain ⟨r, hr, hk, -⟩ := (ha.values k id v).mp h
          exact absurd ⟨_, hg, rfl, r, hr, hk⟩ hx
      · rintro ⟨r, hr, -⟩
        cases hr
    · rw [if_neg hg, if_neg]
      · exact ha.values k id v
      · rintro ⟨x, hx, rfl, r, hr, -⟩
        apply hg
        rw [← hi x r hr]
        exact hx
  · intro x r hr
    rw [hsub] at hr
    by_cases hx : x ∈ gone
    · rw [if_pos hx] at hr
      cases hr
    · rw [if_neg hx] at hr
      exact ha.carries x r hr

end

end Attributed

/-! ### Minted ids -/

section Minted

variable {subs subs' : Map Subscription (SubRecord C H)}
variable {pending : Map Subscription (PendingWatch C V)} {instance_id : InstanceId}
variable {next_sub : ScopeId} {carried : Carried V} {sub : Subscription}

section
omit [DecidableEq C] [Ord C] [TransOrd C] [LawfulEqOrd C] [DecidableEq H] [Ord H] [TransOrd H] [LawfulEqOrd H]

/-- No subscription comes alive. -/
theorem Minted.fewer (hm : Minted subs pending instance_id next_sub carried)
    (hsub : ∀ (x : Subscription) (r' : SubRecord C H), subs'[x]? = some r' →
      ∃ r, subs[x]? = some r) : Minted subs' pending instance_id next_sub carried := by
  constructor
  · intro x r' hr'
    obtain ⟨r, hr⟩ := hsub x r' hr'
    exact hm.live x r hr
  · intro x p hp
    obtain ⟨hi, hs, hn, hc⟩ := hm.planned x p hp
    refine ⟨hi, hs, ?_, hc⟩
    cases hx : subs'[x]? with
    | none => rfl
    | some r' =>
      obtain ⟨r, hr⟩ := hsub x r' hx
      rw [hn] at hr
      cases hr

theorem Minted.unplan (hm : Minted subs pending instance_id next_sub carried)
    (sub : Subscription) : Minted subs (pending.erase sub) instance_id next_sub carried := by
  refine ⟨hm.live, ?_⟩
  intro x p hp
  rw [get_erase] at hp
  by_cases hx : sub = x
  · rw [if_pos hx] at hp
    cases hp
  · rw [if_neg hx] at hp
    exact hm.planned x p hp

/-- A planned subscription comes alive. -/
theorem Minted.settle (hm : Minted subs pending instance_id next_sub carried)
    {p : PendingWatch C V} (hp : pending[sub]? = some p) (side : SubRecord C H) :
    Minted (subs.insert sub side) (pending.erase sub) instance_id next_sub carried := by
  constructor
  · intro x r hr
    rw [get_insert] at hr
    by_cases hx : sub = x
    · subst hx
      obtain ⟨hi, hs, -⟩ := hm.planned sub p hp
      exact ⟨hi, hs⟩
    · rw [if_neg hx] at hr
      exact hm.live x r hr
  · intro x p' hp'
    rw [get_erase] at hp'
    by_cases hx : sub = x
    · rw [if_pos hx] at hp'
      cases hp'
    · rw [if_neg hx] at hp'
      rw [get_insert, if_neg hx]
      exact hm.planned x p' hp'

/-- The next id is minted for a plan. -/
theorem Minted.plan (hm : Minted subs pending instance_id next_sub carried)
    (p : PendingWatch C V) :
    Minted subs (pending.insert ⟨instance_id, next_sub⟩ p) instance_id next_sub.succ
      (Function.update carried ⟨instance_id, next_sub⟩ (some (p.value, p.interest))) := by
  have hlt : next_sub < next_sub.succ := Proto.ProtoId.lt_succ next_sub
  have hlater : ∀ {x : ScopeId}, x < next_sub → x < next_sub.succ := fun hx =>
    Nat.lt_trans hx hlt
  constructor
  · intro x r hr
    obtain ⟨hi, hs⟩ := hm.live x r hr
    exact ⟨hi, hlater hs⟩
  · intro x p' hp'
    rw [get_insert] at hp'
    by_cases hx : (⟨instance_id, next_sub⟩ : Subscription) = x
    · subst hx
      rw [if_pos rfl] at hp'
      cases hp'
      refine ⟨rfl, hlt, ?_, Function.update_self ..⟩
      cases hn : subs[(⟨instance_id, next_sub⟩ : Subscription)]? with
      | none => rfl
      | some r => exact absurd (hm.live _ r hn).2 (Nat.lt_irrefl _)
    · rw [if_neg hx] at hp'
      obtain ⟨hi, hs, hn, hc⟩ := hm.planned x p' hp'
      exact ⟨hi, hlater hs, hn, (Function.update_of_ne (Ne.symm hx) ..).trans hc⟩

end

end Minted

/-! ### Roots of live subscriptions -/

section
omit [TransOrd C] [LawfulEqOrd C] [DecidableEq H] [LawfulEqOrd H]

/-- A live subscription rides a live root. -/
theorem Sound.root_live {s : Subsumer C V H R T} {carried : Carried V} (h : Sound s carried)
    {sub : Subscription} {r : SubRecord C H} (hr : s.subs[sub]? = some r) :
    ∃ k, s.by_handle[r.root]? = some k := by
  have hmem : sub ∈ cohort_of s.root_subs r.root := (h.housed.rides sub r.root).mpr ⟨r, hr, rfl⟩
  cases hb : s.by_handle[r.root]? with
  | some k => exact ⟨k, rfl⟩
  | none =>
    rw [cohort_of, (h.rooted.cohort r.root).mp hb] at hmem
    cases hmem

end

/-! ### The start -/

section
omit [TransOrd C] [LawfulEqOrd C] [DecidableEq H] [LawfulEqOrd H]

/-- A new engine holds nothing. -/
theorem Subsumer.new_sound (instance_id : InstanceId) :
    Sound (Subsumer.new instance_id : Subsumer C V H R T) fun _ => none := by
  have hget : ∀ k, Trie.get (Trie.empty : R (RootRecord C H)) k = none := fun k => Trie.get_empty k
  refine ⟨⟨?_, ?_, ?_, ?_⟩, ⟨?_, ?_, ?_⟩, ⟨?_, ?_, ?_⟩, ⟨?_, ?_⟩, rfl⟩
  · intro k r h
    replace h : Trie.get (Trie.empty : R (RootRecord C H)) k = some r := h
    rw [hget] at h
    cases h
  · intro h k hb
    simp [Subsumer.new] at hb
  · intro h
    simp [Subsumer.new]
  · intro k k' r r' h
    replace h : Trie.get (Trie.empty : R (RootRecord C H)) k = some r := h
    rw [hget] at h
    cases h
  · intro h
    simp [Subsumer.new, cohort_of]
  · intro sub h
    simp [Subsumer.new, cohort_of]
  · intro sub r k hr
    simp [Subsumer.new] at hr
  · intro k e h
    replace h : Trie.get (Trie.empty : R (CoverEntry T V)) k = some e := h
    rw [Trie.get_empty] at h
    cases h
  · intro k id v
    simp [Subsumer.new, at_key]
  · intro sub r hr
    simp [Subsumer.new] at hr
  · intro sub r hr
    simp [Subsumer.new] at hr
  · intro sub p hp
    simp [Subsumer.new] at hp

end

end Umbrella
