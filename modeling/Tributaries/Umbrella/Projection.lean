import Tributaries.Region
import Tributaries.Umbrella.Route

/-! # Projection against restriction

  A consumer reads events into a view, a set of keys.  The umbrella hands
  each subscription a projection of every raw event; the view of the whole
  root, cut down to the subscription's subtree, ought to be the view the
  projections build.  Here is when it is.
-/

open Region

namespace Umbrella

variable {C V H : Type}

/-! ### Reading events into a view -/

/-- What a change of this kind at `key` makes of a view, with `fs` the keys
    the filesystem holds. -/
def EventKind.apply (fs : Set (List C)) (key : List C) (v : Set (List C)) :
    EventKind C → Set (List C)
  | .created | .rescan => reread fs key v
  | .modified => v
  | .removed => delete key v
  | .moved source => relocate source key v

/-- The view after a list of deliveries. -/
def applied (fs : Set (List C)) (v : Set (List C)) (events : List (Event C V)) : Set (List C) :=
  events.foldl (fun v e => e.kind.apply fs e.key v) v

/-- The deliveries made to one subscription. -/
def deliveries_to (sub : Subscription) (events : List (Event C V)) : List (Event C V) :=
  events.filter fun e => e.subscription = sub

/-! ### The condition -/

/-- When the projection of a move from `a` to `b` serves a subscription at `K`. -/
structure MoveSettles (fs v : Set (List C)) (K a b : List C) : Prop where
  /-- The whole subtree left with a directory above it: the view held nothing there. -/
  left : Above a K → Apart b K → ∀ k, K <+: k → k ∉ v
  /-- A subtree arrived from outside: it is on the filesystem what it was in the view. -/
  arrived : K <+: b → ¬ K <+: a → ∀ t, b ++ t ∈ fs ↔ a ++ t ∈ v
  /-- It arrived out of a directory above: the view held nothing beside it. -/
  emptied : K <+: b → Above a K → ∀ k, K <+: k → k ∈ v → b <+: k
  /-- A directory above was replaced: what arrived is what the view is left with. -/
  replaced : ∀ u, u ≠ [] → K = b ++ u →
    ∀ t, a ++ u ++ t ∈ v ↔ K ++ t ∈ v ∧ ¬ (K <+: a ∧ a <+: K ++ t)

/-- When the projection of a change serves a subscription at `K`. -/
def Settles (fs v : Set (List C)) (K key : List C) : EventKind C → Prop
  | .modified | .rescan => True
  | .created => Above key K → ∀ k, K <+: k → (k ∈ v ↔ k ∈ fs)
  | .removed => Above key K → ∀ k, K <+: k → k ∉ v
  | .moved source => MoveSettles fs v K source key

/-! ### What a projection says -/

/-- Whom an event is for, where it is and what it says. -/
def Event.face (e : Event C V) : Subscription × List C × EventKind C :=
  (e.subscription, e.key, e.kind)

@[simp] theorem Event.rebase_location_face (e : Event C V) (strip : Nat) :
    (e.rebase_location strip).face = e.face := by
  unfold Event.rebase_location
  split <;> rfl

@[simp] theorem Event.anchor_location_face (e : Event C V) :
    e.anchor_location_at_root.face = e.face := rfl

/-- Stamping changes neither where an event is nor what it says. -/
theorem stamp_all_face {is_rescan : Bool} {raw : Proto.Epoch} {sub_of : Event C V → Subscription}
    {stamp_into : Event C V → Proto.Epoch → Event C V}
    (hs : ∀ e stamp, (stamp_into e stamp).face = e.face) (l : List (Event C V)) :
    ∀ epochs : EpochLedger,
      (EpochLedger.stamp_all is_rescan raw sub_of stamp_into epochs l).1.map Event.face =
        l.map Event.face := by
  induction l with
  | nil =>
    intro epochs
    rfl
  | cons e l ih =>
    intro epochs
    show (stamp_into e _).face :: List.map _ _ = _
    rw [hs, ih]
    rfl

theorem deliveries_to_face {sub : Subscription} (l : List (Event C V)) :
    (deliveries_to sub l).map Event.face = (l.map Event.face).filter fun f => f.1 = sub := by
  rw [List.filter_map]
  rfl

section

variable [DecidableEq C] {K key : List C} {kind : EventKind C} {fs v : Set (List C)}
  {sub : Subscription}

/-- The key and kind of the projection a subscription at `K` receives. -/
def outline (K key : List C) : EventKind C → Option (List C × EventKind C)
  | .rescan =>
    if K <+: key then some (key, .rescan) else if key <+: K then some (K, .rescan) else none
  | .moved a =>
    if K <+: a then if K <+: key then some (key, .moved a) else some (a, .removed)
    else if K <+: key then some (key, .created) else none
  | kind => if K <+: key then some (key, kind) else none

/-- The projection before it is restated and admitted. -/
def projected (raw : SourceEvent C H) (sub : Subscription) (K : List C) : Option (Event C V) :=
  let event := SourceRoutable raw .none
  if event.is_rescan then project_rescan event sub K event.key
  else project event sub K event.key event.move_from event.reserved

theorem projected_face (raw : SourceEvent C H) (sub : Subscription) (K : List C) :
    (projected (V := V) raw sub K).map Event.face =
      (outline K raw.key raw.kind).map fun d => (sub, d) := by
  unfold projected
  cases hk : raw.kind with
  | rescan =>
    simp only [SourceRoutable, SourceEvent.is_rescan, hk, EventKind.is_rescan, if_true,
      project_rescan, List.isPrefixOf_iff_prefix, outline]
    split_ifs <;> simp [Event.face, Event.from_source, Event.source_rescan_clamped, hk]
  | moved a =>
    simp only [SourceRoutable, SourceEvent.is_rescan, SourceEvent.move_from, hk,
      EventKind.is_rescan, EventKind.moved_from, project, isPrefixOf_eq_decide, outline]
    by_cases ha : K <+: a <;> by_cases hb : K <+: raw.key <;>
      simp [ha, hb, Event.face, Event.from_source, Event.source_move_out, Event.source_move_in,
        SourceEvent.move_from, hk, EventKind.moved_from, ReservedEndpoints.masks_destination,
        ReservedEndpoints.masks_source]
  | created | modified | removed =>
    simp only [SourceRoutable, SourceEvent.is_rescan, SourceEvent.move_from, hk,
      EventKind.is_rescan, EventKind.moved_from, project, isPrefixOf_eq_decide, outline]
    by_cases hb : K <+: raw.key <;>
      simp [hb, Event.face, Event.from_source, hk, ReservedEndpoints.masks_destination]

/-- What leaves `project_for` is the projection, restated and admitted. -/
theorem project_for_eq_some {raw : SourceEvent C H} {admits : Subscription → Event C V → Bool}
    {d : Event C V} (h : project_for (SourceRoutable raw .none) admits sub K = some d) :
    ∃ p : Event C V, projected raw sub K = some p ∧ d.face = p.face := by
  obtain ⟨p, hp, hd⟩ := Option.bind_eq_some_iff.mp h
  refine ⟨p, hp, ?_⟩
  have hd : (if (SourceRoutable (V := V) raw .none).captured_root_depth ≤ K.length
      then p.rebase_location (K.length - (SourceRoutable (V := V) raw .none).captured_root_depth)
      else p.anchor_location_at_root) = d := (Option.ite_none_right_eq_some.mp hd).2 |> Option.some.inj
  rw [← hd]
  split
  · exact Event.rebase_location_face p _
  · exact Event.anchor_location_face p

theorem project_for_subscription {raw : SourceEvent C H}
    {admits : Subscription → Event C V → Bool} {d : Event C V}
    (h : project_for (SourceRoutable raw .none) admits sub K = some d) : d.subscription = sub := by
  obtain ⟨p, hp, hd⟩ := project_for_eq_some h
  have hf := projected_face (V := V) raw sub K
  rw [hp, Option.map_some] at hf
  obtain ⟨o, -, ho⟩ := Option.map_eq_some_iff.mp hf.symm
  calc d.subscription = d.face.1 := rfl
    _ = p.face.1 := by rw [hd]
    _ = sub := by rw [← ho]

/-- Every projection is for its subscription, and says what the outline says. -/
theorem project_for_face (raw : SourceEvent C H) {admits : Subscription → Event C V → Bool}
    (ha : ∀ e, admits sub e = true) :
    (project_for (SourceRoutable raw .none) admits sub K).map Event.face =
      (outline K raw.key raw.kind).map fun d => (sub, d) := by
  rw [← projected_face (V := V)]
  show (Option.bind (projected raw sub K) _).map Event.face = _
  cases projected (V := V) raw sub K with
  | none => rfl
  | some p =>
    simp only [Option.bind_some, ha, Bool.or_true, if_true, Option.map_some]
    split
    · exact congrArg some (Event.rebase_location_face p _)
    · exact congrArg some (Event.anchor_location_face p)

/-! ### What fan-out hands to one subscription -/

/-- A subscription listed once receives the outline of its projection, and
    nothing else. -/
theorem fan_out_face (raw : SourceEvent C H) {admits : Subscription → Event C V → Bool}
    {canonical_of : Subscription → Option (List C)} (ha : ∀ e, admits sub e = true)
    (hK : canonical_of sub = some K) {subs : List Subscription} (hn : subs.Nodup) :
    (deliveries_to sub (fan_out (SourceRoutable raw .none) subs canonical_of admits)).map
        Event.face =
      if sub ∈ subs then ((outline K raw.key raw.kind).map fun d => (sub, d)).toList else [] := by
  induction subs with
  | nil => rfl
  | cons s subs ih =>
    obtain ⟨hs, hn⟩ := List.nodup_cons.mp hn
    have ih := ih hn
    by_cases he : s = sub
    · subst he
      rw [if_neg hs] at ih
      rw [if_pos List.mem_cons_self, ← project_for_face raw ha]
      simp only [fan_out, List.filterMap_cons, hK, Option.bind_some]
      cases hp : project_for (SourceRoutable raw .none) admits s K with
      | none => exact ih
      | some d =>
        have hd := project_for_subscription hp
        simp only [deliveries_to, List.filter_cons, hd, decide_true, if_true, List.map_cons]
        exact congrArg _ ih
    · have hmem : sub ∈ s :: subs ↔ sub ∈ subs := by
        simp [Ne.symm he]
      simp only [hmem]
      rw [← ih]
      simp only [fan_out, List.filterMap_cons]
      split
      · rfl
      · rename_i d hd
        obtain ⟨K', -, hp⟩ := Option.bind_eq_some_iff.mp hd
        have hd := project_for_subscription hp
        simp [deliveries_to, hd, he]

/-- What the owner hands one of the subscriptions of a root. -/
theorem fan_out_raw_face {raw : SourceEvent C H} {admits : Subscription → Event C V → Bool}
    {canonical_of : Subscription → Option (List C)} {value_of : Subscription → Option V}
    (epochs : EpochLedger) (ha : ∀ e, admits sub e = true) (hK : canonical_of sub = some K)
    {subs : List Subscription} (hn : subs.Nodup) (hs : sub ∈ subs) :
    (deliveries_to sub
        (fan_out_raw epochs raw .none subs canonical_of admits value_of).1).map Event.face =
      ((outline K raw.key raw.kind).map fun d => (sub, d)).toList := by
  have hf := fan_out_face raw ha hK hn
  have hst : (fan_out_raw epochs raw .none subs canonical_of admits value_of).1.map Event.face =
      (fan_out (SourceRoutable raw .none) subs canonical_of admits).map Event.face := by
    have hs : ∀ (e : Event C V) stamp,
        ((e.set_epoch stamp).set_value (value_of e.subscription)).face = e.face :=
      fun e stamp => rfl
    exact stamp_all_face hs _ epochs
  rw [if_pos hs, deliveries_to_face] at hf
  rw [deliveries_to_face, hst, hf]

/-! ### The two orders -/

/-- The view an outline leaves of the part below `K`. -/
def outlined (fs v : Set (List C)) (K key : List C) (kind : EventKind C) : Set (List C) :=
  (outline K key kind).elim (clip K v) fun d => d.2.apply fs d.1 (clip K v)

theorem outlined_rescan : outlined fs v K key .rescan = clip K (reread fs key v) := by
  rcases position key K with h | h | h
  · simp only [outlined, outline, if_pos h, Option.elim_some]
    exact (clip_reread_inside h).symm
  · simp only [outlined, outline, if_neg h.not_within, if_pos h.1, Option.elim_some]
    rw [clip_reread_above h.1]
    show reread fs K (clip K v) = _
    rw [← clip_reread_inside List.prefix_rfl, clip_reread_above List.prefix_rfl]
  · simp only [outlined, outline, if_neg h.1, if_neg h.2, Option.elim_none]
    exact (clip_reread_apart h).symm

theorem outlined_created :
    outlined fs v K key .created = clip K (reread fs key v) ↔ Settles fs v K key .created := by
  rcases position key K with h | h | h
  · simp only [outlined, outline, if_pos h, Option.elim_some]
    refine iff_of_true (clip_reread_inside h).symm ?_
    intro ha
    exact absurd h ha.not_within
  · simp only [outlined, outline, if_neg h.not_within, Option.elim_none]
    rw [clip_reread_above h.1, clip_eq_iff]
    exact ⟨fun hk _ => hk, fun hk => hk h⟩
  · simp only [outlined, outline, if_neg h.2, Option.elim_none]
    refine iff_of_true (clip_reread_apart h).symm ?_
    intro ha
    exact absurd ha.1 h.1

theorem outlined_removed :
    outlined fs v K key .removed = clip K (delete key v) ↔ Settles fs v K key .removed := by
  rcases position key K with h | h | h
  · simp only [outlined, outline, if_pos h, Option.elim_some]
    refine iff_of_true (clip_delete_inside h).symm ?_
    intro ha
    exact absurd h ha.not_within
  · simp only [outlined, outline, if_neg h.not_within, Option.elim_none]
    rw [clip_delete_above h.1, clip_eq_empty_iff]
    exact ⟨fun hk _ => hk, fun hk => hk h⟩
  · simp only [outlined, outline, if_neg h.2, Option.elim_none]
    refine iff_of_true (clip_delete_apart h).symm ?_
    intro ha
    exact absurd ha.1 h.1

/-- A move whose target lies in the region. -/
theorem outlined_moved_inside {a : List C} (hb : K <+: key) :
    outlined fs v K key (.moved a) = clip K (relocate a key v) ↔ MoveSettles fs v K a key := by
  have hr : ∀ u, u ≠ [] → K ≠ key ++ u := by
    rintro u hu rfl
    exact (above_append hu).not_within hb
  by_cases ha : K <+: a
  · -- both endpoints lie in it: the whole move is delivered
    simp only [outlined, outline, if_pos ha, if_pos hb, Option.elim_some]
    refine iff_of_true ?_ ⟨?_, ?_, ?_, ?_⟩
    · rw [clip_relocate_inside hb]
      simp only [EventKind.apply, relocate, transplant_clip ha]
    · intro h
      exact absurd ha h.not_within
    · intro _ h
      exact absurd ha h
    · intro _ h
      exact absurd ha h.not_within
    · intro u hu he
      exact absurd he (hr u hu)
  · -- the source does not: the arrival is read from the filesystem
    simp only [outlined, outline, if_neg ha, if_pos hb, Option.elim_some, EventKind.apply, reread]
    have hfs : ∀ t, key ++ t ∈ fs ∩ below key ↔ key ++ t ∈ fs := by
      intro t
      simp
    rw [clip_relocate_inside hb, diff_union_eq_iff Set.inter_subset_right transplant_below,
      eq_transplant_iff Set.inter_subset_right]
    simp only [hfs]
    constructor
    · rintro ⟨hv, ht⟩
      refine ⟨fun _ h => absurd hb h.2, fun _ _ => ht, ?_, fun u hu he => absurd he (hr u hu)⟩
      intro _ h k hk hkv
      by_contra hn
      have hmem : k ∈ clip K v \ below key := ⟨⟨hkv, hk⟩, hn⟩
      rw [hv] at hmem
      exact hmem.1.2 (h.1.trans hk)
    · intro h
      refine ⟨?_, h.arrived hb ha⟩
      rcases position a K with h' | h' | h'
      · exact absurd h' ha
      · -- the region left with the source, so it held nothing else
        rw [clip_diff_above h'.1, Set.empty_sdiff, Set.sdiff_eq_empty]
        rintro k ⟨hkv, hk⟩
        exact h.emptied hb h' k hk hkv
      · rw [clip_diff_apart h']

/-- A move whose target lies strictly above the region. -/
theorem outlined_moved_above {a : List C} (hb : Above key K) :
    outlined fs v K key (.moved a) = clip K (relocate a key v) ↔ MoveSettles fs v K a key := by
  obtain ⟨u, rfl⟩ := hb.1
  have hu : u ≠ [] := by
    rintro rfl
    exact hb.2 (List.append_nil key).symm
  -- what is delivered, if anything, is the departure of the source
  have hv : outlined fs v (key ++ u) key (.moved a) =
      {k | (k ∈ v ∧ key ++ u <+: k) ∧ ¬ (key ++ u <+: a ∧ a <+: k)} := by
    by_cases ha : key ++ u <+: a
    · simp only [outlined, outline, if_neg hb.not_within, ha, true_and]
      rfl
    · simp only [outlined, outline, if_neg hb.not_within, ha, false_and, not_false_eq_true,
        and_true]
      rfl
  have hs : outlined fs v (key ++ u) key (.moved a) ⊆ below (key ++ u) := by
    rw [hv]
    intro k hk
    exact hk.1.2
  have hmem : ∀ t, key ++ u ++ t ∈ outlined fs v (key ++ u) key (.moved a) ↔
      key ++ u ++ t ∈ v ∧ ¬ (key ++ u <+: a ∧ a <+: key ++ u ++ t) := by
    intro t
    rw [hv]
    simp
  rw [clip_relocate_above, eq_transplant_iff hs]
  simp only [hmem]
  constructor
  · intro h
    refine ⟨fun _ h' => absurd hb.1 h'.1, fun h' => absurd h' hb.not_within,
      fun h' => absurd h' hb.not_within, ?_⟩
    intro u' _ he t
    rw [← List.append_cancel_left he]
    exact (h t).symm
  · intro h t
    exact (h.replaced u hu rfl t).symm

/-- A move whose target lies apart from the region. -/
theorem outlined_moved_apart {a : List C} (hb : Apart key K) :
    outlined fs v K key (.moved a) = clip K (relocate a key v) ↔ MoveSettles fs v K a key := by
  have hv : outlined fs v K key (.moved a) = clip K v \ below a ↔
      (Above a K → ∀ k, K <+: k → k ∉ v) := by
    rcases position a K with ha | ha | ha
    · simp only [outlined, outline, if_pos ha, if_neg hb.2, Option.elim_some]
      refine iff_of_true rfl ?_
      intro h
      exact absurd ha h.not_within
    · simp only [outlined, outline, if_neg ha.not_within, if_neg hb.2, Option.elim_none]
      rw [clip_diff_above ha.1, clip_eq_empty_iff]
      exact ⟨fun h _ => h, fun h => h ha⟩
    · simp only [outlined, outline, if_neg ha.2, if_neg hb.2, Option.elim_none]
      refine iff_of_true (clip_diff_apart ha).symm ?_
      intro h
      exact absurd h.1 ha.1
  rw [clip_relocate_apart hb, hv]
  constructor
  · intro h
    refine ⟨fun h' _ => h h', fun h' => absurd h' hb.2, fun h' => absurd h' hb.2, ?_⟩
    rintro u _ rfl
    exact absurd (List.prefix_append key u) hb.1
  · intro h h'
    exact h.left h' hb

/-- An outline serves the region exactly when its change settles there. -/
theorem outlined_iff (kind : EventKind C) :
    outlined fs v K key kind = clip K (kind.apply fs key v) ↔ Settles fs v K key kind := by
  cases kind with
  | rescan => exact iff_of_true outlined_rescan trivial
  | created => exact outlined_created
  | removed => exact outlined_removed
  | modified =>
    refine iff_of_true ?_ trivial
    simp only [outlined, outline]
    by_cases h : K <+: key
    · rw [if_pos h]
      rfl
    · rw [if_neg h]
      rfl
  | moved a =>
    rcases position key K with h | h | h
    · exact outlined_moved_inside h
    · exact outlined_moved_above h
    · exact outlined_moved_apart h

/-! ### The claim about fan-out -/

/-- The deliveries to a subscription, read into its part of the view. -/
theorem applied_outline {l : List (Event C V)}
    (hl : l.map Event.face = ((outline K key kind).map fun d => (sub, d)).toList) :
    applied fs (clip K v) l = outlined fs v K key kind := by
  cases ho : outline K key kind with
  | none =>
    rw [ho] at hl
    rw [List.map_eq_nil_iff.mp hl]
    simp only [outlined, ho, Option.elim_none]
    rfl
  | some d =>
    rw [ho] at hl
    obtain ⟨e, rfl, he⟩ := List.map_eq_singleton_iff.mp hl
    simp only [outlined, ho, Option.elim_some]
    have hk : (e.key, e.kind) = d := congrArg Prod.snd he
    rw [← hk]
    rfl

/-- A `Rescan` is handed out as exactly the part of its region that is the
    subscription's. -/
theorem outline_rescan_region :
    {k | ∃ d, outline K key .rescan = some d ∧ d.1 <+: k} = clip K (below key) := by
  rcases position key K with h | h | h
  · simp only [outline, if_pos h, Option.some.injEq, exists_eq_left']
    exact (Set.inter_eq_left.mpr (below_anti h)).symm
  · simp only [outline, if_neg h.not_within, if_pos h.1, Option.some.injEq, exists_eq_left']
    exact (Set.inter_eq_right.mpr (below_anti h.1)).symm
  · simp only [outline, if_neg h.1, if_neg h.2, reduceCtorEq, false_and, exists_false]
    ext k
    refine iff_of_false (fun hk => hk) ?_
    rintro ⟨hk, hK⟩
    exact h.not_mem hk hK

/-- A live subscription at `K` that admits everything receives at most one
    projection of a change no endpoint of which is reserved.  Reading it into
    the part of the view below `K` is cutting the new view of the whole root
    down to `K` exactly when the change settles at `K`; a `Rescan` always does,
    and is handed out as the intersection of the two subtrees. -/
theorem projection_commutes_iff (epochs : EpochLedger) (raw : SourceEvent C H)
    (subs : List Subscription) (canonical_of : Subscription → Option (List C))
    (admits : Subscription → Event C V → Bool) (value_of : Subscription → Option V)
    (fs v : Set (List C)) (sub : Subscription) (K : List C)
    (hn : subs.Nodup) (hs : sub ∈ subs) (hK : canonical_of sub = some K)
    (ha : ∀ e, admits sub e = true) :
    let out := deliveries_to sub
      (fan_out_raw epochs raw .none subs canonical_of admits value_of).1
    out.length ≤ 1 ∧
      (applied fs (clip K v) out = clip K (raw.kind.apply fs raw.key v) ↔
        Settles fs v K raw.key raw.kind) ∧
      (raw.kind = .rescan → {k | ∃ e ∈ out, e.key <+: k} = clip K (below raw.key)) := by
  intro out
  have hf : out.map Event.face = _ := fan_out_raw_face epochs ha hK hn hs
  refine ⟨?_, ?_, ?_⟩
  · have hl := congrArg List.length hf
    rw [List.length_map] at hl
    rw [hl]
    cases outline K raw.key raw.kind <;> simp
  · rw [applied_outline hf]
    exact outlined_iff raw.kind
  · intro hr
    rw [← outline_rescan_region, ← hr]
    ext k
    constructor
    · rintro ⟨e, he, hk⟩
      have hm : e.face ∈ out.map Event.face := List.mem_map_of_mem he
      rw [hf] at hm
      obtain ⟨d, hd, hde⟩ := Option.map_eq_some_iff.mp (Option.mem_toList.mp hm)
      refine ⟨d, hd, ?_⟩
      rw [show d.1 = e.key from congrArg (fun f => f.2.1) hde]
      exact hk
    · rintro ⟨d, hd, hk⟩
      have hm : (sub, d) ∈ out.map Event.face := by
        rw [hf, hd]
        exact List.mem_singleton.mpr rfl
      obtain ⟨e, he, hde⟩ := List.mem_map.mp hm
      refine ⟨e, he, ?_⟩
      rw [show e.key = d.1 from congrArg (fun f => f.2.1) hde]
      exact hk

end

/-! ### A directory that leaves with a subscription in it -/

/-- The one subscription of the run below. -/
def nested : Subscription := ⟨⟨1, Nat.one_pos⟩, Proto.ProtoId.min⟩

/-- `0` is renamed to `2` in the root. -/
def departed : SourceEvent Nat Unit where
  handle := ()
  key := [2]
  kind := .moved [0]
  location := ["2"]
  move_from_location := some ["0"]
  epoch := Proto.Epoch.START
  change_id := none
  is_dir := some true

/-- What a subscription at `0/1` is told of it. -/
def departed_out : List (Event Nat Unit) :=
  deliveries_to nested
    (fan_out_raw EpochLedger.new departed .none [nested] (fun _ => some [0, 1])
      (fun _ _ => true) fun _ => none).1

/-- The subtree of the subscription is gone from the view of the root; its own
    view keeps it, for it is told nothing. -/
theorem departure_unseen :
    departed_out = [] ∧
      applied ∅ (clip [0, 1] {[0], [0, 1]}) departed_out ≠
        clip [0, 1] (departed.kind.apply ∅ departed.key {[0], [0, 1]}) := by
  have ho : departed_out = [] := by decide
  refine ⟨ho, ?_⟩
  rw [ho]
  intro h
  have hm : [0, 1] ∈ clip [0, 1] (departed.kind.apply ∅ departed.key {[0], [0, 1]}) := by
    rw [← h]
    exact ⟨.inr rfl, List.prefix_rfl⟩
  obtain ⟨⟨⟨-, hd⟩, -⟩ | ⟨t, ht, -⟩, -⟩ := hm
  · exact hd ⟨[1], rfl⟩
  · cases ht

/-- What a subscription at `0` is told of the same rename. -/
def departed_told : List (Event Nat Unit) :=
  deliveries_to nested
    (fan_out_raw EpochLedger.new departed .none [nested] (fun _ => some [0])
      (fun _ _ => true) fun _ => none).1

/-- The condition, at a subscription that is told its subtree was removed. -/
theorem departure_settles : departed_told.map Event.kind = [.removed] ∧
    departed_told.length ≤ 1 ∧
      (applied ∅ (clip [0] {[0], [0, 1]}) departed_told =
          clip [0] (departed.kind.apply ∅ departed.key {[0], [0, 1]}) ↔
        Settles ∅ {[0], [0, 1]} [0] departed.key departed.kind) ∧
      (departed.kind = .rescan →
        {k | ∃ e ∈ departed_told, e.key <+: k} = clip [0] (below departed.key)) :=
  ⟨by decide, projection_commutes_iff EpochLedger.new departed [nested] (fun _ => some [0])
    (fun _ _ => true) (fun _ => none) ∅ {[0], [0, 1]} nested [0] (List.nodup_singleton nested)
    (List.mem_singleton.mpr rfl) rfl fun _ => rfl⟩

end Umbrella
