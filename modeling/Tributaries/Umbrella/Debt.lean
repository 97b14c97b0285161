import Tributaries.Umbrella.Route

/-! # Owed re-enumerations

  A subscription whose delivery cannot be made is owed a `Rescan` in its
  place: the key to read again, an epoch above everything that was lost, and
  the value the subscription was watched with.  One subscription is owed at
  most one; a second loss widens the first.
-/

open Std Collections

namespace Umbrella

open Proto (Epoch)

/-! ### Epochs of a shed and of a re-point -/

namespace EpochLedger

/-- Rebases a subscription onto a new root; the answer is the epoch of the `Rescan`
    that tells it so, and the floor of the root's own epochs. -/
def repoint (l : EpochLedger) (sub : Subscription) : Epoch × EpochLedger :=
  let rescan := (l.high_water_of sub).next
  (rescan, { l with base := l.base.insert sub rescan }.bump sub rescan)

/-- The epoch of a `Rescan` that stays on the same root: the base is left alone. -/
def shed_rescan (l : EpochLedger) (sub : Subscription) : Epoch × EpochLedger :=
  let rescan := (l.high_water_of sub).next
  (rescan, l.bump sub rescan)

def remove (l : EpochLedger) (sub : Subscription) : EpochLedger :=
  { base := l.base.erase sub, high_water := l.high_water.erase sub }

end EpochLedger

/-! ### Parked `Rescan`s -/

section

variable {C V : Type}

structure ParkedRescan (C V : Type) where
  key : List C
  epoch : Epoch
  /-- `none` only where the subscription had no live value when it was captured. -/
  value : Option V

/-- The offer a parked entry is minted into. -/
def ParkedRescan.offer (parked : ParkedRescan C V) (sub : Subscription) : Event C V :=
  (Event.rescan sub parked.key parked.epoch).set_value parked.value

/-- The longest common prefix: the nearest key at or above both. -/
def widen_to_cover [DecidableEq C] (parked key : List C) : List C :=
  parked.take ((key.zip parked).takeWhile fun p => p.1 = p.2).length

/-- The `Rescan`s owed, by subscription and in order. -/
abbrev ParkedRescans (C V : Type) := Map Subscription (ParkedRescan C V)

namespace ParkedRescans

variable [DecidableEq C]

/-- Owes one more: what was owed is widened to cover both, at the later epoch. -/
def merge_max (p : ParkedRescans C V) (sub : Subscription) (key : List C) (epoch : Epoch)
    (value : Option V) : ParkedRescans C V :=
  match p[sub]? with
  | some parked =>
    p.insert sub ⟨widen_to_cover parked.key key, ⟨Nat.max parked.epoch.as_u64 epoch.as_u64⟩, value⟩
  | none => p.insert sub ⟨key, epoch, value⟩

/-- Widens what a subscription is owed to cover more keys, at the later epoch.  One that
    is owed nothing is untouched. -/
def widen_debt (p : ParkedRescans C V) (sub : Subscription) (covers : List (List C))
    (epoch : Epoch) : ParkedRescans C V :=
  match p[sub]? with
  | none => p
  | some parked =>
    p.insert sub
      { parked with
        key := covers.foldl widen_to_cover parked.key
        epoch := ⟨Nat.max parked.epoch.as_u64 epoch.as_u64⟩ }

/-- Moves a subscription's entry out of one plane and into another. -/
def promote (source target : ParkedRescans C V) (sub : Subscription) :
    ParkedRescans C V × ParkedRescans C V :=
  match source[sub]? with
  | some parked =>
    (source.erase sub, target.merge_max sub parked.key parked.epoch parked.value)
  | none => (source, target)

/-- Where a probe of the plane starts. -/
inductive Bound where
  | unbounded
  | included (sub : Subscription)
  | excluded (sub : Subscription)
deriving DecidableEq

def Bound.admits : Bound → Subscription → Bool
  | .unbounded, _ => true
  | .included from_, sub => (compare from_ sub).isLE
  | .excluded from_, sub => (compare from_ sub).isLT

/-- The least owed subscription within the bound, or the least of all. -/
def first_from (p : ParkedRescans C V) (bound : Bound) : Option Subscription :=
  (p.keys.find? bound.admits).or p.keys.head?

end ParkedRescans

/-! ### Widening -/

section Widen

variable [DecidableEq C] {parked key k : List C}

theorem widen_to_cover_nil (key : List C) : widen_to_cover [] key = [] := List.take_nil

theorem widen_to_cover_cons (a b : C) (parked key : List C) :
    widen_to_cover (a :: parked) (b :: key) =
      if b = a then a :: widen_to_cover parked key else [] := by
  unfold widen_to_cover
  rw [List.zip_cons_cons]
  by_cases h : b = a
  · rw [if_pos h, List.takeWhile_cons_of_pos (p := fun p : C × C => p.1 = p.2) (decide_eq_true h)]
    exact List.take_succ_cons
  · rw [if_neg h, List.takeWhile_cons_of_neg (p := fun p : C × C => p.1 = p.2) (by simpa using h)]
    exact List.take_zero

/-- A widened key is above what it was. -/
theorem widen_prefix_left (parked key : List C) : widen_to_cover parked key <+: parked :=
  List.take_prefix _ _

/-- A widened key is above what it was widened for. -/
theorem widen_prefix_right : ∀ parked key : List C, widen_to_cover parked key <+: key
  | [], key => by
    rw [widen_to_cover_nil]
    exact List.nil_prefix
  | a :: parked, [] => List.prefix_rfl
  | a :: parked, b :: key => by
    rw [widen_to_cover_cons]
    split
    · rename_i h
      subst h
      exact List.cons_prefix_cons.mpr ⟨rfl, widen_prefix_right parked key⟩
    · exact List.nil_prefix

/-- No further than it must. -/
theorem prefix_widen (h₁ : k <+: parked) (h₂ : k <+: key) : k <+: widen_to_cover parked key := by
  induction k generalizing parked key with
  | nil => exact List.nil_prefix
  | cons a k ih =>
    obtain ⟨t₁, rfl⟩ := h₁
    obtain ⟨t₂, rfl⟩ := h₂
    rw [List.cons_append, List.cons_append, widen_to_cover_cons, if_pos rfl]
    exact List.cons_prefix_cons.mpr ⟨rfl, ih (List.prefix_append _ _) (List.prefix_append _ _)⟩

theorem widen_all_prefix_left (covers : List (List C)) :
    ∀ parked : List C, covers.foldl widen_to_cover parked <+: parked := by
  induction covers with
  | nil =>
    intro parked
    exact List.prefix_rfl
  | cons key covers ih =>
    intro parked
    exact (ih (widen_to_cover parked key)).trans (widen_prefix_left parked key)

theorem widen_all_prefix_right (covers : List (List C)) :
    ∀ parked : List C, ∀ key ∈ covers, covers.foldl widen_to_cover parked <+: key := by
  induction covers with
  | nil =>
    intro parked key hk
    exact absurd hk List.not_mem_nil
  | cons c covers ih =>
    intro parked key hk
    rw [List.foldl_cons]
    rcases List.mem_cons.mp hk with rfl | hk
    · exact (widen_all_prefix_left covers _).trans (widen_prefix_right parked key)
    · exact ih _ key hk

theorem prefix_widen_all (covers : List (List C)) :
    ∀ {parked : List C}, k <+: parked → (∀ key ∈ covers, k <+: key) →
      k <+: covers.foldl widen_to_cover parked := by
  induction covers with
  | nil =>
    intro parked h _
    exact h
  | cons c covers ih =>
    intro parked h hc
    exact ih (prefix_widen h (hc c List.mem_cons_self))
      fun key hk => hc key (List.mem_cons_of_mem c hk)

end Widen

/-! ### A plane that is owed more -/

section Plane

variable {p p' : ParkedRescans C V} {s t : Subscription} {q : ParkedRescan C V}

/-- What is owed to `s` is widened to cover more keys, at an epoch at least `epoch`. -/
structure Widens (p p' : ParkedRescans C V) (s : Subscription) (covers : List (List C))
    (epoch : Epoch) (value : Option V) : Prop where
  others : ∀ t, t ≠ s → p'[t]? = p[t]?
  /-- What was owed is still owed, at a key above and an epoch no lower. -/
  forth : ∀ q, p[s]? = some q →
    ∃ q', p'[s]? = some q' ∧ q'.key <+: q.key ∧ q.epoch.as_u64 ≤ q'.epoch.as_u64
  /-- No further than it must. -/
  back : ∀ q', p'[s]? = some q' → p[s]? = some q' ∨
    (∀ k, (∀ key ∈ covers, k <+: key) → (∀ q, p[s]? = some q → k <+: q.key) → k <+: q'.key) ∧
      (q'.epoch = epoch ∨ ∃ q, p[s]? = some q ∧ q'.epoch = q.epoch) ∧
      (q'.value = value ∨ ∃ q, p[s]? = some q ∧ q'.value = q.value)

theorem Widens.refl (p : ParkedRescans C V) (s : Subscription) (covers : List (List C))
    (epoch : Epoch) (value : Option V) : Widens p p s covers epoch value where
  others _ _ := rfl
  forth q hq := ⟨q, hq, List.prefix_rfl, Nat.le_refl _⟩
  back _ hq := .inl hq

/-- The later of two epochs is one of them. -/
theorem max_epoch (a b : Epoch) : (⟨Nat.max a.as_u64 b.as_u64⟩ : Epoch) = b ∨
    (⟨Nat.max a.as_u64 b.as_u64⟩ : Epoch) = a := by
  rcases Nat.le_total a.as_u64 b.as_u64 with h | h
  · exact .inl (congrArg Epoch.mk (Nat.max_eq_right h))
  · exact .inr (congrArg Epoch.mk (Nat.max_eq_left h))

variable [DecidableEq C]

theorem merge_max_widens (p : ParkedRescans C V) (s : Subscription) (key : List C) (epoch : Epoch)
    (value : Option V) : Widens p (p.merge_max s key epoch value) s [key] epoch value ∧
      ∃ q, (p.merge_max s key epoch value)[s]? = some q ∧ q.key <+: key ∧
        epoch.as_u64 ≤ q.epoch.as_u64 := by
  cases h : p[s]? with
  | none =>
    have hm : p.merge_max s key epoch value = p.insert s ⟨key, epoch, value⟩ := by
      unfold ParkedRescans.merge_max
      rw [h]
    rw [hm]
    refine ⟨⟨?_, ?_, ?_⟩, _, by rw [get_insert, if_pos rfl], List.prefix_rfl, Nat.le_refl _⟩
    · intro t ht
      rw [get_insert, if_neg (Ne.symm ht)]
    · intro q hq
      rw [h] at hq
      cases hq
    · intro q hq
      rw [get_insert, if_pos rfl] at hq
      obtain rfl := Option.some.inj hq
      exact .inr ⟨fun k hk _ => hk key (List.mem_singleton.mpr rfl), .inl rfl, .inl rfl⟩
  | some old =>
    have hm : p.merge_max s key epoch value = p.insert s ⟨widen_to_cover old.key key,
        ⟨Nat.max old.epoch.as_u64 epoch.as_u64⟩, value⟩ := by
      unfold ParkedRescans.merge_max
      rw [h]
    rw [hm]
    refine ⟨⟨?_, ?_, ?_⟩, _, by rw [get_insert, if_pos rfl], widen_prefix_right _ _,
      Nat.le_max_right _ _⟩
    · intro t ht
      rw [get_insert, if_neg (Ne.symm ht)]
    · intro q hq
      rw [h] at hq
      obtain rfl := Option.some.inj hq
      exact ⟨_, by rw [get_insert, if_pos rfl], widen_prefix_left _ _, Nat.le_max_left _ _⟩
    · intro q hq
      rw [get_insert, if_pos rfl] at hq
      obtain rfl := Option.some.inj hq
      refine .inr ⟨fun k hk ho => ?_, ?_, .inl rfl⟩
      · exact prefix_widen (ho old h) (hk key (List.mem_singleton.mpr rfl))
      · exact (max_epoch old.epoch epoch).imp_right fun he => ⟨old, h, he⟩

theorem widen_debt_widens (p : ParkedRescans C V) (s : Subscription) (covers : List (List C))
    (epoch : Epoch) (value : Option V) : Widens p (p.widen_debt s covers epoch) s covers epoch value ∧
      ∀ old, p[s]? = some old → ∃ q, (p.widen_debt s covers epoch)[s]? = some q ∧
        (∀ key ∈ covers, q.key <+: key) ∧ epoch.as_u64 ≤ q.epoch.as_u64 := by
  cases h : p[s]? with
  | none =>
    have hm : p.widen_debt s covers epoch = p := by
      unfold ParkedRescans.widen_debt
      rw [h]
    rw [hm]
    exact ⟨.refl p s covers epoch value, fun old ho => by cases ho⟩
  | some old =>
    have hm : p.widen_debt s covers epoch = p.insert s { old with
        key := covers.foldl widen_to_cover old.key
        epoch := ⟨Nat.max old.epoch.as_u64 epoch.as_u64⟩ } := by
      unfold ParkedRescans.widen_debt
      rw [h]
    rw [hm]
    refine ⟨⟨?_, ?_, ?_⟩, fun _ _ => ⟨_, by rw [get_insert, if_pos rfl],
      widen_all_prefix_right covers old.key, Nat.le_max_right _ _⟩⟩
    · intro t ht
      rw [get_insert, if_neg (Ne.symm ht)]
    · intro q hq
      rw [h] at hq
      obtain rfl := Option.some.inj hq
      exact ⟨_, by rw [get_insert, if_pos rfl], widen_all_prefix_left _ _, Nat.le_max_left _ _⟩
    · intro q hq
      rw [get_insert, if_pos rfl] at hq
      obtain rfl := Option.some.inj hq
      refine .inr ⟨fun k hk ho => prefix_widen_all covers (ho old h) hk, ?_, .inr ⟨old, h, rfl⟩⟩
      exact (max_epoch old.epoch epoch).imp_right fun he => ⟨old, h, he⟩

end Plane

end

/-! ### What the epochs answer -/

namespace EpochLedger

variable {l : EpochLedger} {sub s : Subscription}

theorem high_water_bump (l : EpochLedger) (sub s : Subscription) (stamp : Epoch) :
    ((l.bump sub stamp).high_water_of s).as_u64 =
      if sub = s then Nat.max (l.high_water_of sub).as_u64 stamp.as_u64
      else (l.high_water_of s).as_u64 := by
  unfold bump high_water_of
  dsimp only
  rw [get_insert]
  by_cases h : sub = s
  · subst h
    rw [if_pos rfl, if_pos rfl]
    cases l.high_water[sub]? with
    | none =>
      show max stamp.as_u64 stamp.as_u64 = max 0 stamp.as_u64
      omega
    | some e => rfl
  · rw [if_neg h, if_neg h]

theorem high_water_le_bump (l : EpochLedger) (sub s : Subscription) (stamp : Epoch) :
    (l.high_water_of s).as_u64 ≤ ((l.bump sub stamp).high_water_of s).as_u64 := by
  rw [high_water_bump]
  split
  · rename_i h
    subst h
    exact Nat.le_max_left _ _
  · exact Nat.le_refl _

theorem le_high_water_bump (l : EpochLedger) (sub : Subscription) (stamp : Epoch) :
    stamp.as_u64 ≤ ((l.bump sub stamp).high_water_of sub).as_u64 := by
  rw [high_water_bump, if_pos rfl]
  exact Nat.le_max_right _ _

theorem bump_bounded (sub : Subscription) {stamp : Epoch}
    (h : ∀ t, (l.high_water_of t).as_u64 ≤ Proto.u64Max) (hs : stamp.as_u64 ≤ Proto.u64Max) (t : Subscription) :
    ((l.bump sub stamp).high_water_of t).as_u64 ≤ Proto.u64Max := by
  rw [high_water_bump]
  split
  · exact Nat.max_le.mpr ⟨h sub, hs⟩
  · exact h t

theorem next_bounded (e : Epoch) : e.next.as_u64 ≤ Proto.u64Max := Nat.min_le_right _ _

/-- A minted `Rescan` is above everything stamped before, short of the ceiling. -/
theorem lt_next {e : Epoch} {n : Nat} (h : n ≤ e.as_u64) :
    n < e.next.as_u64 ∨ Proto.u64Max ≤ e.next.as_u64 := by
  show n < min (e.as_u64 + 1) Proto.u64Max ∨ Proto.u64Max ≤ min (e.as_u64 + 1) Proto.u64Max
  omega

end EpochLedger

end Umbrella
