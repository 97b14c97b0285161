import Tributaries.Umbrella.Subsume

/-! # Lookups in the engine's planes

  What each edit of the coverage plane, the side table and the reverse
  maps answers at a key afterwards.  The invariants of the engine are
  proved from these, and no edit is unfolded past this module.
-/

open Std Collections

namespace Umbrella

open Proto (ScopeId)

variable {C V H : Type} {R T : Type → Type}
variable [DecidableEq C] [Ord C] [TransOrd C] [LawfulEqOrd C]
  [DecidableEq H] [Ord H] [TransOrd H] [LawfulEqOrd H] [Radix C R] [Trie ScopeId T]

/-! ### Cover entries -/

namespace CoverEntry

variable {e : CoverEntry T V} {sub : Subscription} {id : ScopeId} {v : V}

theorem get_push (e : CoverEntry T V) (sub : Subscription) (v : V) (id : ScopeId) :
    Trie.get (e.push sub v).subs id = if sub.scope = id then some v else Trie.get e.subs id :=
  Trie.get_insert ..

theorem get_remove (e : CoverEntry T V) (sub : Subscription) (id : ScopeId) :
    Trie.get (e.remove sub).subs id = if sub.scope = id then none else Trie.get e.subs id :=
  Trie.get_remove ..

theorem get_remove_all (e : CoverEntry T V) (departing : List Subscription) (id : ScopeId) :
    Trie.get (e.remove_all departing).subs id =
      if ∃ sub ∈ departing, sub.scope = id then none else Trie.get e.subs id := by
  unfold remove_all
  induction departing generalizing e with
  | nil => simp
  | cons sub rest ih =>
    rw [List.foldl_cons, ih, get_remove]
    by_cases hr : ∃ sub ∈ rest, sub.scope = id
    · simp [hr]
    · by_cases hs : sub.scope = id <;> simp [hr, hs]

theorem not_empty (h : Trie.get e.subs id = some v) : e.is_empty = false := by
  cases he : e.is_empty with
  | false => rfl
  | true =>
    rw [(Trie.is_empty_iff e.subs).mp he id] at h
    cases h

/-- An entry that holds a subscription has a value to show. -/
theorem value_ok (h : e.is_empty = false) : ∃ v, e.value = .ok v := by
  unfold value
  cases hl : Trie.last e.subs with
  | some v => exact ⟨v, rfl⟩
  | none =>
    have he : e.is_empty = true := (Trie.is_empty_iff e.subs).mpr (Trie.last_none e.subs hl)
    rw [he] at h
    cases h

end CoverEntry

/-! ### The coverage plane -/

/-- What a subscription rides after its root's handle became `root`. -/
def SubRecord.ride (root : H) (side : SubRecord C H) : SubRecord C H := { side with root := root }

/-- The value a subscription has in the plane at a key. -/
def at_key (covers : R (CoverEntry T V)) (k : List C) (id : ScopeId) : Option V :=
  (Trie.get covers k).bind fun e => Trie.get e.subs id

/-- No entry of the plane is empty. -/
def Filled (covers : R (CoverEntry T V)) : Prop :=
  ∀ k e, Trie.get covers k = some e → e.is_empty = false

section
omit [TransOrd C] [LawfulEqOrd C]

theorem Filled.put {covers : R (CoverEntry T V)} (h : Filled covers) {key : List C}
    {e : CoverEntry T V} (he : e.is_empty = false) : Filled (Trie.insert covers key e) := by
  intro k e' hk
  rw [Trie.get_insert] at hk
  by_cases hkey : key = k
  · rw [if_pos hkey] at hk
    cases hk
    exact he
  · rw [if_neg hkey] at hk
    exact h k e' hk

end

namespace Subsumer

section
omit [TransOrd C] [LawfulEqOrd C]

theorem at_put_entry (covers : R (CoverEntry T V)) (key k : List C) (e : CoverEntry T V)
    (id : ScopeId) :
    at_key (put_entry covers key e) k id =
      if key = k then Trie.get e.subs id else at_key covers k id := by
  unfold at_key put_entry
  cases he : e.is_empty with
  | true =>
    rw [if_pos rfl, Trie.get_remove]
    by_cases hk : key = k
    · rw [if_pos hk, if_pos hk, (Trie.is_empty_iff e.subs).mp he id]
      rfl
    · rw [if_neg hk, if_neg hk]
  | false =>
    rw [if_neg Bool.false_ne_true, Trie.get_insert]
    by_cases hk : key = k
    · rw [if_pos hk, if_pos hk]
      rfl
    · rw [if_neg hk, if_neg hk]

theorem put_entry_filled {covers : R (CoverEntry T V)} (h : Filled covers) (key : List C)
    (e : CoverEntry T V) : Filled (put_entry covers key e) := by
  unfold put_entry
  cases he : e.is_empty with
  | false => exact h.put he
  | true =>
    intro k e' hk
    rw [if_pos rfl, Trie.get_remove] at hk
    by_cases hkey : key = k
    · rw [if_pos hkey] at hk
      cases hk
    · rw [if_neg hkey] at hk
      exact h k e' hk

end

section
omit [TransOrd C] [LawfulEqOrd C] [DecidableEq H] [TransOrd H] [LawfulEqOrd H]

theorem at_cover_add (s : Subsumer C V H R T) (sub : Subscription) (key k : List C) (v : V)
    (id : ScopeId) :
    at_key (s.cover_add sub key v).covers k id =
      if key = k ∧ sub.scope = id then some v else at_key s.covers k id := by
  unfold at_key cover_add
  simp only [Trie.get_insert]
  by_cases hk : key = k
  · subst hk
    rw [if_pos rfl, Option.bind_some, CoverEntry.get_push]
    by_cases hs : sub.scope = id
    · rw [if_pos hs, if_pos ⟨rfl, hs⟩]
    · rw [if_neg hs, if_neg fun h => hs h.2]
      cases Trie.get s.covers key with
      | none => exact Trie.get_empty id
      | some e => rfl
  · rw [if_neg hk, if_neg fun h => hk h.1]

theorem cover_add_filled (s : Subsumer C V H R T) (h : Filled s.covers) (sub : Subscription)
    (key : List C) (v : V) : Filled (s.cover_add sub key v).covers := by
  have hv := (CoverEntry.get_push ((Trie.get s.covers key).getD .new) sub v sub.scope).trans
    (if_pos rfl)
  exact h.put (CoverEntry.not_empty hv)

/-- The covers without one subscription. -/
theorem at_cover_remove (s : Subsumer C V H R T) (sub : Subscription) (key k : List C)
    (id : ScopeId) :
    at_key (s.cover_remove sub key).covers k id =
      if key = k ∧ sub.scope = id then none else at_key s.covers k id := by
  unfold cover_remove
  dsimp only
  cases hg : Trie.get s.covers key with
  | none =>
    by_cases hk : key = k ∧ sub.scope = id
    · rw [if_pos hk, ← hk.1]
      simp only [at_key, hg, Option.bind_none]
    · rw [if_neg hk]
  | some e =>
    simp only [at_put_entry, CoverEntry.get_remove]
    by_cases hk : key = k
    · subst hk
      by_cases hs : sub.scope = id
      · rw [if_pos rfl, if_pos hs, if_pos ⟨rfl, hs⟩]
      · rw [if_pos rfl, if_neg hs, if_neg fun h => hs h.2, at_key, hg]
        rfl
    · rw [if_neg hk, if_neg fun h => hk h.1]

theorem cover_remove_filled (s : Subsumer C V H R T) (h : Filled s.covers) (sub : Subscription)
    (key : List C) : Filled (s.cover_remove sub key).covers := by
  unfold cover_remove
  dsimp only
  cases Trie.get s.covers key with
  | none => exact h
  | some e => exact put_entry_filled h key _

end

section
omit [TransOrd C] [LawfulEqOrd C]

theorem at_retire_group (covers : R (CoverEntry T V)) (group : List C × List Subscription)
    (k : List C) (id : ScopeId) :
    at_key (retire_group covers group) k id =
      if group.1 = k ∧ ∃ sub ∈ group.2, sub.scope = id then none else at_key covers k id := by
  unfold retire_group
  cases hg : Trie.get covers group.1 with
  | none =>
    by_cases hk : group.1 = k
    · have hn : at_key covers k id = none := by rw [at_key, ← hk, hg]; rfl
      simp only [hn, ite_self]
    · rw [if_neg fun h => hk h.1]
  | some e =>
    simp only [at_put_entry, CoverEntry.get_remove_all]
    by_cases hk : group.1 = k
    · have hn : at_key covers k id = Trie.get e.subs id := by rw [at_key, ← hk, hg]; rfl
      simp only [hk, if_true, true_and, hn]
    · rw [if_neg hk, if_neg fun h => hk h.1]

theorem at_retire_groups (groups : List (List C × List Subscription))
    (covers : R (CoverEntry T V)) (k : List C) (id : ScopeId) :
    at_key (groups.foldl retire_group covers) k id =
      if ∃ g ∈ groups, g.1 = k ∧ ∃ sub ∈ g.2, sub.scope = id then none
      else at_key covers k id := by
  induction groups generalizing covers with
  | nil => simp
  | cons g rest ih =>
    rw [List.foldl_cons, ih, at_retire_group]
    by_cases hr : ∃ g ∈ rest, g.1 = k ∧ ∃ sub ∈ g.2, sub.scope = id
    · rw [if_pos hr, if_pos]
      obtain ⟨g', hg', h⟩ := hr
      exact ⟨g', List.mem_cons_of_mem _ hg', h⟩
    · rw [if_neg hr]
      by_cases hg : g.1 = k ∧ ∃ sub ∈ g.2, sub.scope = id
      · rw [if_pos hg, if_pos ⟨g, List.mem_cons_self, hg⟩]
      · rw [if_neg hg, if_neg]
        rintro ⟨g', hg', h⟩
        rcases List.mem_cons.mp hg' with rfl | hg'
        · exact hg h
        · exact hr ⟨g', hg', h⟩

theorem retire_groups_filled (groups : List (List C × List Subscription))
    {covers : R (CoverEntry T V)} (h : Filled covers) :
    Filled (groups.foldl retire_group covers) := by
  induction groups generalizing covers with
  | nil => exact h
  | cons g rest ih =>
    refine ih ?_
    unfold retire_group
    cases Trie.get covers g.1 with
    | none => exact h
    | some e => exact put_entry_filled h g.1 _

end

/-! ### Departing cohorts -/

section
omit [DecidableEq H] [Ord H] [TransOrd H] [LawfulEqOrd H]

theorem get_departing (departing : List (Subscription × SubRecord C H))
    (groups : Map (List C) (List Subscription)) (k : List C) :
    ((departing.foldl (fun groups d =>
        groups.insert d.2.key ((groups[d.2.key]?).getD [] ++ [d.1])) groups)[k]?).getD [] =
      (groups[k]?).getD [] ++ (departing.filter fun d => decide (d.2.key = k)).map Prod.fst := by
  induction departing generalizing groups with
  | nil => simp
  | cons d rest ih =>
    rw [List.foldl_cons, ih, get_insert]
    by_cases hk : d.2.key = k
    · subst hk
      simp
    · simp [hk]

/-- A subscription departs at a key when it departs and that key is its own. -/
theorem mem_departing (departing : List (Subscription × SubRecord C H)) (k : List C)
    (sub : Subscription) :
    (∃ g ∈ (departing_by_key departing).toList, g.1 = k ∧ sub ∈ g.2) ↔
      ∃ r, (sub, r) ∈ departing ∧ r.key = k := by
  have hget : ((departing_by_key departing)[k]?).getD [] =
      (departing.filter fun d => decide (d.2.key = k)).map Prod.fst := by
    unfold departing_by_key
    rw [get_departing]
    simp
  constructor
  · rintro ⟨⟨key, subs⟩, hg, hkey, hs⟩
    obtain rfl : key = k := hkey
    rw [mem_toList.mp hg, Option.getD_some] at hget
    obtain ⟨⟨_, r⟩, hd, rfl⟩ := List.mem_map.mp (hget ▸ hs)
    obtain ⟨hd, hk⟩ := List.mem_filter.mp hd
    exact ⟨r, hd, of_decide_eq_true hk⟩
  · rintro ⟨r, hd, hk⟩
    have hs : sub ∈ ((departing_by_key departing)[k]?).getD [] := by
      rw [hget]
      exact List.mem_map.mpr ⟨(sub, r), List.mem_filter.mpr ⟨hd, decide_eq_true hk⟩, rfl⟩
    cases hm : (departing_by_key departing)[k]? with
    | none =>
      rw [hm] at hs
      cases hs
    | some subs =>
      rw [hm] at hs
      exact ⟨(k, subs), mem_toList.mpr hm, rfl, hs⟩

end

/-! ### Folds over the side table and the reverse maps -/

section
omit [DecidableEq C] [Ord C] [TransOrd C] [LawfulEqOrd C] [DecidableEq H] [Ord H] [TransOrd H] [LawfulEqOrd H]

theorem get_erase_all (subscribers : List Subscription) (subs : Map Subscription (SubRecord C H))
    (x : Subscription) :
    (subscribers.foldl (fun subs sub => subs.erase sub) subs)[x]? =
      if x ∈ subscribers then none else subs[x]? := by
  induction subscribers generalizing subs with
  | nil => simp
  | cons sub rest ih =>
    rw [List.foldl_cons, ih, get_erase]
    by_cases hx : x ∈ rest
    · simp [hx]
    · by_cases he : sub = x
      · simp [he]
      · simp [hx, he, Ne.symm he]

end

theorem get_forget_all {W : Type} (unwatch : List H) (m : Map H W) (h : H) :
    (forget_all unwatch m)[h]? = if h ∈ unwatch then none else m[h]? := by
  unfold forget_all
  induction unwatch generalizing m with
  | nil => simp
  | cons old rest ih =>
    rw [List.foldl_cons, ih, get_erase]
    by_cases hx : h ∈ rest
    · simp [hx]
    · by_cases he : old = h
      · simp [he]
      · simp [hx, he, Ne.symm he]

section
omit [DecidableEq C] [Ord C] [TransOrd C] [LawfulEqOrd C] [DecidableEq H] [Ord H] [TransOrd H] [LawfulEqOrd H]

theorem get_modify_all (root : H) (subscribers : List Subscription)
    (subs : Map Subscription (SubRecord C H)) (x : Subscription) :
    (subscribers.foldl (fun subs sub => subs.modify sub fun side => { side with root := root })
        subs)[x]? =
      if x ∈ subscribers then (subs[x]?).map (SubRecord.ride root) else subs[x]? := by
  induction subscribers generalizing subs with
  | nil => simp
  | cons sub rest ih =>
    rw [List.foldl_cons, ih, get_modify]
    by_cases he : sub = x
    · subst he
      by_cases hx : sub ∈ rest
      · simp only [hx, if_true, List.mem_cons, true_or, Option.map_map]
        rfl
      · simp only [hx, if_true, if_false, List.mem_cons, true_or]
        rfl
    · simp only [if_neg he, List.mem_cons, Ne.symm he, false_or]

/-- Live subscriptions are re-pointed without a panic. -/
theorem repoint_all_ok (root : H) {repointed : List Subscription}
    {subs : Map Subscription (SubRecord C H)} (h : ∀ x ∈ repointed, ∃ r, subs[x]? = some r) :
    ∃ subs', repoint_all root repointed subs = .ok subs' ∧
      ∀ x, subs'[x]? = if x ∈ repointed then (subs[x]?).map (SubRecord.ride root) else subs[x]? := by
  induction repointed generalizing subs with
  | nil => exact ⟨subs, rfl, fun x => by simp⟩
  | cons moved rest ih =>
    obtain ⟨r, hr⟩ := h moved List.mem_cons_self
    have hrest : ∀ x ∈ rest, ∃ r', (subs.insert moved { r with root := root })[x]? = some r' := by
      intro x hx
      rw [get_insert]
      by_cases he : moved = x
      · exact ⟨_, if_pos he⟩
      · rw [if_neg he]
        exact h x (List.mem_cons_of_mem _ hx)
    obtain ⟨subs', hok, hget⟩ := ih hrest
    refine ⟨subs', ?_, ?_⟩
    · unfold repoint_all
      rw [hr]
      exact hok
    · intro x
      rw [hget x, get_insert]
      by_cases he : moved = x
      · subst he
        by_cases hx : moved ∈ rest
        · simp only [hx, if_true, List.mem_cons, true_or, hr]
          rfl
        · simp only [hx, if_true, if_false, List.mem_cons, true_or, hr]
          rfl
      · simp only [if_neg he, List.mem_cons, Ne.symm he, false_or]

end

section
omit [DecidableEq C] [Ord C] [TransOrd C] [LawfulEqOrd C] [DecidableEq H] [TransOrd H] [LawfulEqOrd H] [Radix C R] [Trie ScopeId T]

/-- Live subscriptions have their keys read without a panic. -/
theorem keys_of_ok {s : Subsumer C V H R T} (expect : Panic) (cohort : List Subscription)
    (h : ∀ x ∈ cohort, ∃ r, s.subs[x]? = some r) :
    ∃ keys, s.keys_of expect cohort = .ok keys ∧
      ∀ k, k ∈ keys ↔ ∃ x ∈ cohort, s.subscription_key x = some k := by
  induction cohort with
  | nil => exact ⟨[], rfl, fun k => by simp⟩
  | cons sub rest ih =>
    obtain ⟨r, hr⟩ := h sub List.mem_cons_self
    obtain ⟨keys, hok, hkeys⟩ := ih fun x hx => h x (List.mem_cons_of_mem _ hx)
    refine ⟨r.key :: keys, ?_, ?_⟩
    · unfold keys_of
      rw [hr]
      simp only [hok]
    · intro k
      simp only [List.mem_cons, hkeys, exists_eq_or_imp, subscription_key, hr, Option.map_some,
        Option.some.injEq]
      rw [eq_comm]

end

end Subsumer

end Umbrella
