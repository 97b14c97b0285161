import Mathlib

/-! # Ordered collections

  The maps and sets the state machines are written over: finite maps keyed
  by a linearly compared type, iterated in key order.  They are the
  standard library's extensional tree maps; this module only fixes the
  comparison, adds the lexicographic order on pairs of keys, and collects
  the few lookups-after-update facts the developments below use by name.
-/

open Std

namespace Collections

/-- A finite map iterated in key order. -/
abbrev Map (K : Type) (V : Type) [Ord K] : Type := ExtTreeMap K V compare

/-- A finite set iterated in key order. -/
abbrev OSet (K : Type) [Ord K] : Type := ExtTreeSet K compare

/-! ### Pairs of keys -/

section Pair

variable {α β : Type} [Ord α] [Ord β]

instance instOrdProd : Ord (α × β) where
  compare a b := compareLex (compareOn Prod.fst) (compareOn Prod.snd) a b

instance instTransOrdProd [TransOrd α] [TransOrd β] : TransOrd (α × β) :=
  inferInstanceAs (TransCmp (compareLex (compareOn Prod.fst) (compareOn Prod.snd)))

instance instLawfulEqOrdProd [LawfulEqOrd α] [LawfulEqOrd β] : LawfulEqOrd (α × β) where
  compare_self := by
    intro a
    simp [compare, compareLex, compareOn, ReflCmp.compare_self]
  eq_of_compare := by
    rintro ⟨a₁, a₂⟩ ⟨b₁, b₂⟩ h
    simp only [compare, compareLex, compareOn, Ordering.then_eq_eq] at h
    exact Prod.ext (LawfulEqCmp.eq_of_compare h.1) (LawfulEqCmp.eq_of_compare h.2)

end Pair

/-! ### Lookups after an update -/

section Lookup

variable {K V : Type} [Ord K] [TransOrd K]

theorem contains_iff {t : Map K V} {k : K} : t.contains k = true ↔ ∃ v, t[k]? = some v := by
  rw [ExtTreeMap.contains_eq_isSome_getElem?, Option.isSome_iff_exists]

theorem contains_false_iff {t : Map K V} {k : K} : t.contains k = false ↔ t[k]? = none := by
  rw [ExtTreeMap.contains_eq_isSome_getElem?, Option.isSome_eq_false_iff, Option.isNone_iff_eq_none]

variable [LawfulEqOrd K]

theorem get_filter (t : Map K V) (f : K → V → Bool) (a : K) :
    (t.filter f)[a]? = (t[a]?).filter (f a) := by
  simp

theorem mem_insert_iff {s : OSet K} {k a : K} : a ∈ s.insert k ↔ k = a ∨ a ∈ s := by
  simp

theorem mem_erase_iff {s : OSet K} {k a : K} : a ∈ s.erase k ↔ k ≠ a ∧ a ∈ s := by
  simp

variable [DecidableEq K]

theorem get_insert (t : Map K V) (k a : K) (v : V) :
    (t.insert k v)[a]? = if k = a then some v else t[a]? := by
  simp [ExtTreeMap.getElem?_insert]

theorem get_erase (t : Map K V) (k a : K) :
    (t.erase k)[a]? = if k = a then none else t[a]? := by
  simp [ExtTreeMap.getElem?_erase]

theorem get_modify (t : Map K V) (k a : K) (f : V → V) :
    (t.modify k f)[a]? = if k = a then (t[a]?).map f else t[a]? := by
  simp only [ExtTreeMap.getElem?_modify, LawfulEqCmp.compare_eq_iff_eq]
  split <;> simp_all

theorem get_insertIfNew (t : Map K V) (k a : K) (v : V) :
    (t.insertIfNew k v)[a]? = if k = a ∧ t[k]? = none then some v else t[a]? := by
  simp only [ExtTreeMap.getElem?_insertIfNew, LawfulEqCmp.compare_eq_iff_eq,
    ExtTreeMap.mem_iff_isSome_getElem?, Option.not_isSome_iff_eq_none]

end Lookup

/-! ### Ranges of a sorted list -/

section Range

variable {α : Type} {p : α → Bool} {l : List α}

/-- Where those that meet `p` come first, they are a prefix. -/
theorem takeWhile_eq_filter (h : l.Pairwise fun a b => p b = true → p a = true) :
    l.takeWhile p = l.filter p := by
  induction l with
  | nil => rfl
  | cons a l ih =>
    obtain ⟨ha, hl⟩ := List.pairwise_cons.mp h
    by_cases hp : p a = true
    · rw [List.takeWhile_cons_of_pos hp, List.filter_cons_of_pos hp, ih hl]
    · rw [List.takeWhile_cons_of_neg hp, List.filter_cons_of_neg hp, eq_comm,
        List.filter_eq_nil_iff]
      intro b hb hpb
      exact hp (ha b hb hpb)

/-- Where those that meet `p` come first, the others are the rest. -/
theorem dropWhile_eq_filter (h : l.Pairwise fun a b => p b = true → p a = true) :
    l.dropWhile p = l.filter fun a => !p a := by
  induction l with
  | nil => rfl
  | cons a l ih =>
    obtain ⟨ha, hl⟩ := List.pairwise_cons.mp h
    by_cases hp : p a = true
    · rw [List.dropWhile_cons_of_pos hp, ih hl, List.filter_cons_of_neg (by simp [hp])]
    · rw [List.dropWhile_cons_of_neg hp, eq_comm, List.filter_eq_self]
      intro b hb
      rcases List.mem_cons.mp hb with rfl | hb
      · simpa using hp
      · have := mt (ha b hb) hp
        simpa using this

end Range

/-! ### Sums over a map -/

section Tally

variable {K V : Type} [Ord K] [TransOrd K] [LawfulEqOrd K]

/-- The sum of a weight over the entries of a map. -/
def tally (f : K → V → Nat) (t : Map K V) : Nat := (t.toList.map fun e => f e.1 e.2).sum

theorem nodup_toList (t : Map K V) : t.toList.Nodup :=
  t.distinct_keys_toList.imp fun h e => h (by rw [e]; exact ReflCmp.compare_self)

theorem mem_toList {t : Map K V} {k : K} {v : V} : (k, v) ∈ t.toList ↔ t[k]? = some v :=
  ExtTreeMap.mem_toList_iff_getElem?_eq_some

/-- Distinct keys of a map are no more than its entries. -/
theorem length_le_size {t : Map K V} {l : List K} (hn : l.Nodup)
    (hl : ∀ k ∈ l, t.contains k = true) : l.length ≤ t.size := by
  rw [← ExtTreeMap.length_keys]
  refine List.Subperm.length_le (List.subperm_of_subset hn fun k hk => ?_)
  rw [ExtTreeMap.mem_keys]
  exact hl k hk

variable [DecidableEq K]

/-- A map lists one of its entries and the rest. -/
theorem toList_perm {t : Map K V} {k : K} {v : V} (h : t[k]? = some v) :
    t.toList.Perm ((k, v) :: (t.erase k).toList) := by
  rw [List.perm_ext_iff_of_nodup (nodup_toList t)]
  · rintro ⟨a, b⟩
    simp only [List.mem_cons, mem_toList, get_erase, Prod.mk.injEq]
    grind
  · rw [List.nodup_cons]
    refine ⟨?_, nodup_toList _⟩
    simp

theorem tally_erase {f : K → V → Nat} {t : Map K V} {k : K} {v : V} (h : t[k]? = some v) :
    tally f t = f k v + tally f (t.erase k) := by
  unfold tally
  rw [((toList_perm h).map _).sum_nat]
  simp

theorem tally_insert {f : K → V → Nat} {t : Map K V} {k : K} {v : V} (h : t[k]? = none) :
    tally f (t.insert k v) = f k v + tally f t := by
  have e : (t.insert k v).erase k = t := by
    refine ExtTreeMap.ext_getElem? fun a => ?_
    rw [get_erase, get_insert]
    grind
  rw [tally_erase (k := k) (v := v) (by simp), e]

theorem tally_modify {f : K → V → Nat} {t : Map K V} {k : K} {v : V} {g : V → V}
    (h : t[k]? = some v) : tally f (t.modify k g) + f k v = tally f t + f k (g v) := by
  have e : (t.modify k g).erase k = t.erase k := by
    refine ExtTreeMap.ext_getElem? fun a => ?_
    simp only [get_erase, get_modify]
    grind
  rw [tally_erase h, tally_erase (t := t.modify k g) (k := k) (v := g v) (by simp [h]), e]
  omega

end Tally

end Collections
