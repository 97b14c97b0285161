import Tributaries.Collections
import Tributaries.Region

/-! # Persistent tries

  The interface of a persistent map over ordered keys, and of one whose
  keys are lists of components: the longest stored prefix of a key, and
  the entries strictly below one.  What a development may rely on is
  stated as laws; a sorted map keeps them.
-/

open Std Collections Region

/-! ### Interfaces -/

/-- A persistent map from keys to values, read in key order. -/
class Trie (K : outParam Type) [DecidableEq K] [Ord K] (R : Type → Type) where
  empty {V : Type} : R V
  get {V : Type} : R V → K → Option V
  insert {V : Type} : R V → K → V → R V
  remove {V : Type} : R V → K → R V
  is_empty {V : Type} : R V → Bool
  /-- The value of the greatest key. -/
  last {V : Type} : R V → Option V
  get_empty {V : Type} (k : K) : get (empty : R V) k = none
  get_insert {V : Type} (t : R V) (k a : K) (v : V) :
    get (insert t k v) a = if k = a then some v else get t a
  get_remove {V : Type} (t : R V) (k a : K) :
    get (remove t k) a = if k = a then none else get t a
  is_empty_iff {V : Type} (t : R V) : is_empty t = true ↔ ∀ k, get t k = none
  last_none {V : Type} (t : R V) : last t = none → ∀ k, get t k = none
  last_some {V : Type} (t : R V) (v : V) : last t = some v →
    ∃ k, get t k = some v ∧ ∀ a, (get t a).isSome → (compare a k).isLE

/-- A persistent map whose keys are lists of components. -/
class Radix (C : outParam Type) [DecidableEq C] [Ord C] (R : Type → Type)
    extends Trie (List C) R where
  /-- The value of the longest stored prefix of a key, the key itself included. -/
  get_ancestor {V : Type} : R V → List C → Option V
  /-- The values stored strictly below a key. -/
  descendants {V : Type} : R V → List C → List V
  remove_descendants {V : Type} : R V → List C → R V
  get_ancestor_some {V : Type} (t : R V) (k : List C) (v : V) : get_ancestor t k = some v →
    ∃ p, p <+: k ∧ get t p = some v ∧ ∀ q, q <+: k → (get t q).isSome → q <+: p
  get_ancestor_none {V : Type} (t : R V) (k : List C) : get_ancestor t k = none →
    ∀ q, q <+: k → get t q = none
  descendants_keys {V : Type} (t : R V) (k : List C) : ∃ ks : List (List C), ks.Nodup ∧
    (∀ p, p ∈ ks ↔ Above k p ∧ (get t p).isSome) ∧ descendants t k = ks.filterMap (get t)
  get_remove_descendants {V : Type} (t : R V) (k p : List C) :
    get (remove_descendants t k) p = if k <+: p ∧ k ≠ p then none else get t p

attribute [simp] Trie.get_empty

/-! ### Lookups -/

namespace Radix

variable {C : Type} [DecidableEq C] [Ord C] {R : Type → Type} [Radix C R] {V : Type}
variable {t : R V} {k p : List C} {v : V}

theorem get_ancestor_eq_none_iff :
    get_ancestor t k = none ↔ ∀ q, q <+: k → Trie.get t q = none := by
  constructor
  · exact get_ancestor_none t k
  · intro h
    cases ha : get_ancestor t k with
    | none => rfl
    | some v =>
      obtain ⟨p, hp, hv, -⟩ := get_ancestor_some t k v ha
      rw [h p hp] at hv
      cases hv

theorem mem_descendants :
    v ∈ descendants t k ↔ ∃ p, Above k p ∧ Trie.get t p = some v := by
  obtain ⟨ks, -, hks, he⟩ := descendants_keys t k
  rw [he, List.mem_filterMap]
  constructor
  · rintro ⟨p, hp, hv⟩
    exact ⟨p, ((hks p).mp hp).1, hv⟩
  · rintro ⟨p, hp, hv⟩
    refine ⟨p, (hks p).mpr ⟨hp, ?_⟩, hv⟩
    rw [hv]
    rfl

/-- Each entry below a key is listed once: what tells two entries apart
    tells their values apart. -/
theorem nodup_descendants {α : Type} {f : V → α}
    (hf : ∀ p q v w, Trie.get t p = some v → Trie.get t q = some w → f v = f w → p = q) :
    ((descendants t k).map f).Nodup := by
  obtain ⟨ks, hn, -, he⟩ := descendants_keys t k
  rw [he]
  clear he
  induction ks with
  | nil => exact List.nodup_nil
  | cons p ks ih =>
    rw [List.nodup_cons] at hn
    cases hp : Trie.get t p with
    | none =>
      rw [List.filterMap_cons_none hp]
      exact ih hn.2
    | some v =>
      rw [List.filterMap_cons_some hp, List.map_cons, List.nodup_cons]
      refine ⟨?_, ih hn.2⟩
      intro hm
      obtain ⟨w, hw, hfw⟩ := List.mem_map.mp hm
      obtain ⟨q, hq, hqw⟩ := List.mem_filterMap.mp hw
      have hpq : q = p := hf q p w v hqw hp hfw
      exact hn.1 (hpq ▸ hq)

end Radix

/-! ### Sorted maps -/

/-- A trie kept as a sorted map. -/
def Sorted (K : Type) [Ord K] (V : Type) : Type := Map K V

namespace Sorted

variable {K C V : Type}

section

variable [Ord K] [TransOrd K] [LawfulEqOrd K]

/-- The map a sorted trie is. -/
def map (t : Sorted K V) : Map K V := t

theorem last_none (t : Map K V) (h : (t.maxKey?.bind fun k => t[k]?) = none) (k : K) :
    t[k]? = none := by
  cases hm : t.maxKey? with
  | none =>
    rw [ExtTreeMap.maxKey?_eq_none_iff] at hm
    rw [hm]
    simp
  | some m =>
    rw [hm, Option.bind_some] at h
    have hmem : m ∈ t := (ExtTreeMap.maxKey?_eq_some_iff_mem_and_forall.mp hm).1
    rw [ExtTreeMap.mem_iff_isSome_getElem?, h] at hmem
    cases hmem

theorem last_some (t : Map K V) (v : V) (h : (t.maxKey?.bind fun k => t[k]?) = some v) :
    ∃ k : K, t[k]? = some v ∧ ∀ a : K, (t[a]?).isSome → (compare a k).isLE := by
  obtain ⟨m, hm, hv⟩ := Option.bind_eq_some_iff.mp h
  refine ⟨m, hv, ?_⟩
  intro a ha
  exact (ExtTreeMap.maxKey?_eq_some_iff_mem_and_forall.mp hm).2 a
    (ExtTreeMap.mem_iff_isSome_getElem?.mpr ha)

instance [DecidableEq K] : Trie K (Sorted K) where
  empty {V} := (∅ : Map K V)
  get t k := t.map[k]?
  insert t k v := t.map.insert k v
  remove t k := t.map.erase k
  is_empty t := t.map.isEmpty
  last t := t.map.maxKey?.bind fun k => t.map[k]?
  get_empty _ := ExtTreeMap.getElem?_empty
  get_insert t k a v := Collections.get_insert t.map k a v
  get_remove t k a := Collections.get_erase t.map k a
  is_empty_iff t := by
    rw [ExtTreeMap.isEmpty_iff]
    constructor
    · intro h k
      rw [h]
      exact ExtTreeMap.getElem?_empty
    · intro h
      refine ExtTreeMap.ext_getElem? fun k => ?_
      rw [h k, ExtTreeMap.getElem?_empty]
  last_none t := last_none t.map
  last_some t := last_some t.map

end

section

variable [Ord C] [TransOrd C] [LawfulEqOrd C]

/-- The value of the longest stored prefix of `k` of length at most `n`. -/
def longest (t : Map (List C) V) (k : List C) : Nat → Option V
  | 0 => t[([] : List C)]?
  | n + 1 => (t[k.take (n + 1)]?).or (longest t k n)

section
omit [LawfulEqOrd C]

theorem longest_none {t : Map (List C) V} {k : List C} {n : Nat} (h : longest t k n = none)
    {m : Nat} (hm : m ≤ n) : t[k.take m]? = none := by
  induction n with
  | zero =>
    obtain rfl : m = 0 := by omega
    exact h
  | succ n ih =>
    unfold longest at h
    rw [Option.or_eq_none_iff] at h
    by_cases he : m = n + 1
    · rw [he]
      exact h.1
    · exact ih h.2 (by omega)

theorem longest_some {t : Map (List C) V} {k : List C} {n : Nat} {v : V}
    (h : longest t k n = some v) : ∃ m, m ≤ n ∧ t[k.take m]? = some v ∧
      ∀ j, m < j → j ≤ n → t[k.take j]? = none := by
  induction n with
  | zero =>
    refine ⟨0, le_rfl, h, ?_⟩
    intro j hj hj'
    omega
  | succ n ih =>
    unfold longest at h
    cases ht : t[k.take (n + 1)]? with
    | some w =>
      rw [ht, Option.some_or] at h
      refine ⟨n + 1, le_rfl, ht.trans h, ?_⟩
      intro j hj hj'
      omega
    | none =>
      rw [ht, Option.none_or] at h
      obtain ⟨m, hm, hv, hj⟩ := ih h
      refine ⟨m, by omega, hv, ?_⟩
      intro j hmj hjn
      by_cases he : j = n + 1
      · rw [he]
        exact ht
      · exact hj j hmj (by omega)

theorem longest_greatest {t : Map (List C) V} {k : List C} {v : V}
    (h : longest t k k.length = some v) :
    ∃ p, p <+: k ∧ t[p]? = some v ∧ ∀ q, q <+: k → (t[q]?).isSome → q <+: p := by
  obtain ⟨m, hm, hv, hj⟩ := longest_some h
  refine ⟨k.take m, List.take_prefix m k, hv, ?_⟩
  intro q hq hs
  have hqm : q.length ≤ m := by
    by_contra hc
    rw [List.prefix_iff_eq_take.mp hq, hj q.length (by omega) hq.length_le] at hs
    cases hs
  rw [List.prefix_iff_eq_take.mp hq]
  exact List.take_prefix_take_left hqm

end

/-- The entries strictly below a key, in key order. -/
def under [DecidableEq C] (t : Map (List C) V) (k : List C) : List (List C × V) :=
  t.toList.filter fun e => decide (k <+: e.1 ∧ k ≠ e.1)

theorem mem_under [DecidableEq C] {t : Map (List C) V} {k p : List C} {v : V} :
    (p, v) ∈ under t k ↔ Above k p ∧ t[p]? = some v := by
  unfold under
  rw [List.mem_filter, mem_toList, decide_eq_true_iff]
  exact and_comm

theorem under_keys [DecidableEq C] (t : Map (List C) V) (k : List C) :
    ∃ ks : List (List C), ks.Nodup ∧ (∀ p, p ∈ ks ↔ Above k p ∧ (t[p]?).isSome) ∧
      (under t k).map Prod.snd = ks.filterMap fun p => t[p]? := by
  refine ⟨(under t k).map Prod.fst, ?_, ?_, ?_⟩
  · have hd : (t.toList.map Prod.fst).Nodup := by
      rw [ExtTreeMap.map_fst_toList_eq_keys]
      exact ExtTreeMap.nodup_keys
    exact hd.sublist (List.filter_sublist.map _)
  · intro p
    rw [List.mem_map]
    constructor
    · rintro ⟨⟨q, v⟩, hm, rfl⟩
      obtain ⟨ha, hv⟩ := mem_under.mp hm
      exact ⟨ha, by rw [hv]; rfl⟩
    · rintro ⟨ha, hs⟩
      obtain ⟨v, hv⟩ := Option.isSome_iff_exists.mp hs
      exact ⟨(p, v), mem_under.mpr ⟨ha, hv⟩, rfl⟩
  · rw [List.filterMap_map]
    have he : ∀ e ∈ under t k, t[e.1]? = some e.2 := fun e h => (mem_under.mp h).2
    generalize under t k = l at he
    induction l with
    | nil => rfl
    | cons e l ih =>
      have hv := he e List.mem_cons_self
      rw [List.filterMap_cons_some (f := (fun p => t[p]?) ∘ Prod.fst) hv, List.map_cons,
        ih fun e h => he e (List.mem_cons_of_mem _ h)]

instance [DecidableEq C] : Radix C (Sorted (List C)) where
  get_ancestor t k := longest t.map k k.length
  descendants t k := (under t.map k).map Prod.snd
  remove_descendants t k := t.map.filter fun p _ => decide (¬ (k <+: p ∧ k ≠ p))
  get_ancestor_some t k v := longest_greatest
  get_ancestor_none t k := by
    intro h q hq
    show t.map[q]? = none
    rw [List.prefix_iff_eq_take.mp hq]
    exact longest_none h hq.length_le
  descendants_keys t k := under_keys t.map k
  get_remove_descendants t k p := by
    show (t.map.filter _)[p]? = if k <+: p ∧ k ≠ p then none else t.map[p]?
    rw [get_filter]
    by_cases h : k <+: p ∧ k ≠ p
    · rw [if_pos h, Option.filter_eq_none_iff]
      intro v _
      simp [h]
    · rw [if_neg h]
      cases t.map[p]? with
      | none => rfl
      | some v => rw [Option.filter_some, if_pos (decide_eq_true h)]

end

end Sorted
