import Mathlib.Data.List.Forall2
import Tributaries.Umbrella.Presence
import Tributaries.Umbrella.Route

/-! # Coordinates

  A source event states its key whole and its location from the root it was
  captured under, which a widen may since have moved.  A delivery restates
  the location from the subscription's key.  What is delivered, and what the
  coalescer makes of it, names one place.
-/

open Std Collections

namespace Umbrella

open Proto (Location Segment Epoch)

/-! ### The live-root clamp -/

section Clamp

variable {C H : Type}

namespace SourceEvent

/-- The change at a root's own key, where its location is empty. -/
def rekeyed_at_root (event : SourceEvent C H) (root_key : List C) : SourceEvent C H :=
  { event with key := root_key, location := [], move_from_location := none }

end SourceEvent

variable [DecidableEq C]

/-- A `Rescan` apart from the live root is restated at it; `root_key` is the live
    root of the event's handle, if it has one. -/
def clamp_disjoint_live_root_rescan (root_key : Option (List C)) (event : SourceEvent C H) :
    Option (SourceEvent C H) :=
  if event.is_rescan then
    match root_key with
    | none => none
    | some root_key =>
      if root_key.isPrefixOf event.key || event.key.isPrefixOf root_key then none
      else some (event.rekeyed_at_root root_key)
  else none

/-- The event a source event is consumed as. -/
def clamped (root_key : Option (List C)) (event : SourceEvent C H) : SourceEvent C H :=
  (clamp_disjoint_live_root_rescan root_key event).getD event

end Clamp

/-! ### Keys and locations -/

section Located

variable {C V H : Type} {names : C → Segment → Prop} {root K key : List C} {loc : Location}

/-- The key is `root`'s with the components the location names. -/
def Located (names : C → Segment → Prop) (root key : List C) (loc : Location) : Prop :=
  ∃ below, key = root ++ below ∧ List.Forall₂ names below loc

theorem Located.at_root : Located names K K [] := ⟨[], (List.append_nil K).symm, .nil⟩

/-- Seen from a key on the way down, a location loses the components down to it. -/
theorem Located.rebase (h : Located names root key loc) (hr : root <+: K) (hk : K <+: key) :
    Located names K key (loc.drop (K.length - root.length)) := by
  obtain ⟨below, rfl, hb⟩ := h
  obtain ⟨u, rfl⟩ := hr
  obtain ⟨v, hv⟩ := hk
  have hbelow : below = u ++ v := by
    rw [List.append_assoc] at hv
    exact (List.append_cancel_left hv).symm
  subst hbelow
  refine ⟨v, hv.symm, ?_⟩
  have hlen : (root ++ u).length - root.length = u.length := by simp
  rw [hlen]
  have := List.forall₂_drop u.length hb
  rwa [List.drop_left] at this

/-- The root's depth is read off the pair. -/
theorem Located.depth (h : Located names root key loc) : key.length - loc.length = root.length := by
  obtain ⟨below, rfl, hb⟩ := h
  have := hb.length_eq
  simp only [List.length_append]
  omega

/-- An event captured under `root`: its key, and a move's source, are `root` and the
    location stated of them. -/
structure Captured (names : C → Segment → Prop) (root : List C) (raw : SourceEvent C H) : Prop where
  located : Located names root raw.key raw.location
  source : ∀ a, raw.kind = .moved a →
    ∃ loc, raw.move_from_location = some loc ∧ Located names root a loc

/-- What a delivery of `raw` to a subscription at `K` names. -/
structure Coherent (names : C → Segment → Prop) (root : List C) (raw : SourceEvent C H) (K : List C)
    (d : Event C V) : Prop where
  inside : K <+: d.key
  source_inside : ∀ a, d.kind = .moved a → K <+: a
  /-- Below the captured root, the key is the subscription's and the location. -/
  located : root <+: K → Located names K d.key d.location
  /-- Above it there is no coordinate but the subscription's own. -/
  anchored : ¬ root <+: K → d.location = []
  /-- An event outside the subscription's subtree is delivered at the subscription's
      own key, or it is a move that leaves, delivered at its source. -/
  outside : ¬ K <+: raw.key → d.key = K ∧ d.location = [] ∨
    raw.kind = .moved d.key ∧ d.kind = .removed

end Located

/-! ### Deliveries -/

section Deliver

variable {C V H : Type} {names : C → Segment → Prop} {root K : List C}
  {raw : SourceEvent C H} {reserved : ReservedEndpoints} {sub : Subscription}
  {admits : Subscription → Event C V → Bool} {d : Event C V}

theorem rebase_location_location (e : Event C V) (strip : Nat) :
    (e.rebase_location strip).location = e.location.drop strip := by
  unfold Event.rebase_location
  split
  · next h =>
    rcases h with rfl | h
    · simp
    · simp [h]
  · rfl

theorem rebase_location_key (e : Event C V) (strip : Nat) :
    (e.rebase_location strip).key = e.key ∧ (e.rebase_location strip).kind = e.kind ∧
      (e.rebase_location strip).subscription = e.subscription := by
  unfold Event.rebase_location
  split
  · exact ⟨rfl, rfl, rfl⟩
  · exact ⟨rfl, rfl, rfl⟩

/-- What a projection is before it is restated: the whole change, one end of a move,
    or a `Rescan` clamped to the subscription. -/
inductive Projects (raw : SourceEvent C H) (sub : Subscription) (K : List C) : Event C V → Prop where
  | whole (h : K <+: raw.key) (hs : ∀ a, raw.kind = .moved a → K <+: a) :
    Projects raw sub K (.from_source sub raw)
  | move_out {a : List C} (hk : raw.kind = .moved a) (h : K <+: a) :
    Projects raw sub K (.source_move_out sub raw)
  | move_in (h : K <+: raw.key) : Projects raw sub K (.source_move_in sub raw)
  | clamped (hk : raw.kind = .rescan) (hn : ¬ K <+: raw.key) (h : raw.key <+: K) :
    Projects raw sub K (.source_rescan_clamped sub raw K)

theorem project_for_projects [DecidableEq C]
    (h : project_for (SourceRoutable raw reserved) admits sub K = some d) :
    ∃ p : Event C V, Projects raw sub K p ∧
      d = if raw.key.length - raw.location.length ≤ K.length
        then p.rebase_location (K.length - (raw.key.length - raw.location.length))
        else p.anchor_location_at_root := by
  obtain ⟨p, hp, hd⟩ := Option.bind_eq_some_iff.mp h
  refine ⟨p, ?_, (Option.some.inj (Option.ite_none_right_eq_some.mp hd).2).symm⟩
  by_cases hr : raw.kind = .rescan
  · have hres : (SourceRoutable (V := V) raw reserved).is_rescan = true := by
      simp [SourceRoutable, SourceEvent.is_rescan, hr, EventKind.is_rescan]
    rw [if_pos hres] at hp
    simp only [project_rescan, SourceRoutable, List.isPrefixOf_iff_prefix] at hp
    split at hp
    · next hk =>
      obtain rfl := Option.some.inj hp
      exact .whole hk (by simp [hr])
    · next hk =>
      split at hp
      · next hk' =>
        obtain rfl := Option.some.inj hp
        exact .clamped hr hk hk'
      · cases hp
  · have hres : ¬ (SourceRoutable (V := V) raw reserved).is_rescan = true := by
      simp only [SourceRoutable, SourceEvent.is_rescan]
      cases hk : raw.kind with
      | rescan => exact absurd hk hr
      | _ => simp [EventKind.is_rescan]
    rw [if_neg hres] at hp
    simp only [project, SourceRoutable, SourceEvent.move_from] at hp
    cases hm : raw.kind.moved_from with
    | none =>
      rw [hm] at hp
      obtain ⟨hc, hp⟩ := Option.ite_none_right_eq_some.mp hp
      obtain rfl := Option.some.inj hp
      rw [Bool.and_eq_true, List.isPrefixOf_iff_prefix] at hc
      refine .whole hc.1 fun a ha => ?_
      rw [ha] at hm
      cases hm
    | some a =>
      have hk : raw.kind = .moved a := by
        cases hk : raw.kind with
        | moved b =>
          rw [hk] at hm
          exact congrArg _ (Option.some.inj hm)
        | _ => simp [hk, EventKind.moved_from] at hm
      rw [hm] at hp
      dsimp only at hp
      split at hp
      · next hf ht =>
        obtain rfl := Option.some.inj hp
        rw [Bool.and_eq_true, List.isPrefixOf_iff_prefix] at hf ht
        refine .whole ht.1 fun b hb => ?_
        rw [hk] at hb
        cases hb
        exact hf.1
      · next hf _ =>
        obtain rfl := Option.some.inj hp
        rw [Bool.and_eq_true, List.isPrefixOf_iff_prefix] at hf
        exact .move_out hk hf.1
      · next _ ht =>
        obtain rfl := Option.some.inj hp
        rw [Bool.and_eq_true, List.isPrefixOf_iff_prefix] at ht
        exact .move_in ht.1
      · cases hp

/-- A key and its location from the root, restated from a key on the way down. -/
theorem Located.restated {key : List C} {loc : Location} (hl : Located names root key loc)
    (hk : K <+: key) (hkey : d.key = key)
    (hloc : d.location = if root.length ≤ K.length then loc.drop (K.length - root.length) else []) :
    (root <+: K → Located names K d.key d.location) ∧ (¬ root <+: K → d.location = []) := by
  have hrk : root <+: key := by
    obtain ⟨below, hb, -⟩ := hl
    exact ⟨below, hb.symm⟩
  constructor
  · intro hr
    rw [hkey, hloc, if_pos hr.length_le]
    exact hl.rebase hr hk
  · intro hr
    rw [hloc, if_neg]
    intro hle
    exact hr (List.prefix_of_prefix_length_le hrk hk hle)

/-- Every projection of a captured event, restated, is coherent. -/
theorem Projects.coherent {p : Event C V} (hp : Projects raw sub K p) (hc : Captured names root raw)
    (hd : d = if raw.key.length - raw.location.length ≤ K.length
      then p.rebase_location (K.length - (raw.key.length - raw.location.length))
      else p.anchor_location_at_root) : Coherent names root raw K d := by
  rw [hc.located.depth] at hd
  -- restating moves nothing but the location
  have hface : d.key = p.key ∧ d.kind = p.kind ∧
      d.location = if root.length ≤ K.length then p.location.drop (K.length - root.length) else [] := by
    rw [hd]
    split
    · obtain ⟨h₁, h₂, -⟩ := rebase_location_key p (K.length - root.length)
      exact ⟨h₁, h₂, rebase_location_location p _⟩
    · exact ⟨rfl, rfl, rfl⟩
  clear hd
  obtain ⟨hkey, hkind, hloc⟩ := hface
  cases hp with
  | whole h hs =>
    have hkey : d.key = raw.key := hkey
    obtain ⟨h₁, h₂⟩ := hc.located.restated h hkey hloc
    refine ⟨hkey ▸ h, ?_, h₁, h₂, fun hn => absurd h hn⟩
    intro a ha
    exact hs a (hkind.symm.trans ha)
  | @move_out a hk h =>
    obtain ⟨loc, hl, hla⟩ := hc.source a hk
    have hkey : d.key = a := by
      rw [hkey]
      simp [Event.source_move_out, SourceEvent.move_from, hk, EventKind.moved_from]
    have hp : (Event.source_move_out sub raw : Event C V).location = loc := by
      simp [Event.source_move_out, hl]
    rw [hp] at hloc
    obtain ⟨h₁, h₂⟩ := hla.restated h hkey hloc
    refine ⟨hkey ▸ h, ?_, h₁, h₂, fun _ => .inr ⟨?_, hkind⟩⟩
    · intro b hb
      rw [hkind] at hb
      cases hb
    · rw [hkey, hk]
  | move_in h =>
    have hkey : d.key = raw.key := hkey
    obtain ⟨h₁, h₂⟩ := hc.located.restated h hkey hloc
    refine ⟨hkey ▸ h, ?_, h₁, h₂, fun hn => absurd h hn⟩
    intro b hb
    rw [hkind] at hb
    cases hb
  | clamped hk hn h =>
    have hkey : d.key = K := hkey
    have hl : d.location = [] := by
      rw [hloc]
      simp [Event.source_rescan_clamped]
    refine ⟨hkey ▸ List.prefix_rfl, ?_, ?_, fun _ => hl, fun _ => .inl ⟨hkey, hl⟩⟩
    · intro b hb
      rw [hkind] at hb
      cases hb
    · intro _
      rw [hl, hkey]
      exact .at_root

/-- The clamp restates the root with the key. -/
theorem Captured.clamped [DecidableEq C] (h : Captured names root raw) (live : Option (List C)) :
    ∃ root', Captured names root' (clamped live raw) ∧
      (clamped live raw = raw ∧ root' = root ∨
        raw.kind = .rescan ∧ live = some root' ∧ (clamped live raw).key = root') := by
  cases hcl : clamp_disjoint_live_root_rescan live raw with
  | none =>
    have he : Umbrella.clamped live raw = raw := by rw [Umbrella.clamped, hcl]; rfl
    exact ⟨root, he.symm ▸ h, .inl ⟨he, rfl⟩⟩
  | some event =>
    have he : Umbrella.clamped live raw = event := by rw [Umbrella.clamped, hcl]; rfl
    rw [he]
    unfold clamp_disjoint_live_root_rescan at hcl
    split at hcl
    · next hr =>
      have hk : raw.kind = .rescan := by
        unfold SourceEvent.is_rescan at hr
        cases hk : raw.kind with
        | rescan => rfl
        | _ => simp [hk, EventKind.is_rescan] at hr
      cases live with
      | none => cases hcl
      | some live =>
        dsimp only at hcl
        split at hcl
        · cases hcl
        · obtain rfl := Option.some.inj hcl
          refine ⟨live, ⟨.at_root, ?_⟩, .inr ⟨hk, rfl, rfl⟩⟩
          intro a ha
          have ha : raw.kind = .moved a := ha
          rw [hk] at ha
          cases ha
    · cases hcl

end Deliver

/-! ### Fan-out -/

section FanOut

variable {C V H : Type} [DecidableEq C] {names : C → Segment → Prop} {root : List C}
  {raw : SourceEvent C H} {reserved : ReservedEndpoints} {subs : List Subscription}
  {admits : Subscription → Event C V → Bool} {canonical_of : Subscription → Option (List C)}
  {value_of : Subscription → Option V} {d : Event C V}

theorem mem_fan_out (h : d ∈ fan_out (SourceRoutable raw reserved) subs canonical_of admits)
    (hc : Captured names root raw) : d.subscription ∈ subs ∧
      ∃ K, canonical_of d.subscription = some K ∧ Coherent names root raw K d := by
  obtain ⟨sub, hs, hb⟩ := List.mem_filterMap.mp h
  obtain ⟨K, hK, hp⟩ := Option.bind_eq_some_iff.mp hb
  obtain ⟨p, hproj, hd⟩ := project_for_projects hp
  have hsub : d.subscription = sub := by
    have hpsub : p.subscription = sub := by
      cases hproj <;> rfl
    rw [hd, ← hpsub]
    split
    · exact (rebase_location_key p _).2.2
    · rfl
  rw [hsub]
  exact ⟨hs, K, hK, hproj.coherent hc hd⟩

theorem mem_stamp_all {D D' : Type} {is_rescan : Bool} {raw : Epoch} {sub_of : D → Subscription}
    {stamp_into : D → Epoch → D'} {l : List D} {e : D'} :
    ∀ {epochs : EpochLedger},
      e ∈ (EpochLedger.stamp_all is_rescan raw sub_of stamp_into epochs l).1 →
        ∃ d ∈ l, ∃ stamp, e = stamp_into d stamp := by
  induction l with
  | nil =>
    intro epochs h
    cases h
  | cons x l ih =>
    intro epochs h
    have h : e ∈ stamp_into x _ :: (EpochLedger.stamp_all is_rescan raw sub_of stamp_into _ l).1 := h
    rcases List.mem_cons.mp h with he | h
    · exact ⟨x, by simp, _, he⟩
    · obtain ⟨d, hd, hs⟩ := ih h
      exact ⟨d, by simp [hd], hs⟩

/-- What the owner delivers of a captured event is coherent. -/
theorem mem_fan_out_raw {epochs : EpochLedger}
    (h : d ∈ (fan_out_raw epochs raw reserved subs canonical_of admits value_of).1)
    (hc : Captured names root raw) : d.subscription ∈ subs ∧
      ∃ K, canonical_of d.subscription = some K ∧ Coherent names root raw K d := by
  obtain ⟨x, hx, stamp, rfl⟩ := mem_stamp_all h
  obtain ⟨hs, K, hK, hco⟩ := mem_fan_out hx hc
  exact ⟨hs, K, hK, hco.inside, hco.source_inside, hco.located, hco.anchored, hco.outside⟩

end FanOut

/-! ### Through the coalescer -/

/-- An event is an admitted one, but for its epoch, or a `Modified` in its place. -/
structure Stems {C V : Type} (e ev : Event C V) : Prop where
  subscription : e.subscription = ev.subscription
  key : e.key = ev.key
  location : e.location = ev.location
  kind : e.kind = ev.kind ∨ e.kind = .modified

section Settle

variable {C V : Type} [Ord C] [TransOrd C] [LawfulEqOrd C] [DecidableEq C]
  {P : Event C V → Prop} {c c' : Coalescer C V} {ev : Event C V} {now far : Instant}

/-- Everything pending is of one kind. -/
structure Holds (P : Event C V → Prop) (c : Coalescer C V) : Prop where
  buffer : ∀ (k : BufKey C) (b : Buffered C V), c.buffer[k]? = some b → P b.event
  ready : ∀ r ∈ c.ready, P r.2

namespace Holds

theorem take_entry (h : Holds P c) (key : BufKey C) (entry : Buffered C V) :
    Holds P (c.take_entry key entry) where
  buffer := by
    intro k b hb
    rw [Coalescer.take_entry_buffer] at hb
    split at hb
    · cases hb
    · exact h.buffer k b hb
  ready := h.ready

section
omit [DecidableEq C] [LawfulEqOrd C]

theorem dec_per_sub (h : Holds P c) (sub : Subscription) : Holds P (c.dec_per_sub sub) := by
  obtain ⟨per, hper⟩ := c.dec_per_sub_eq sub
  rw [hper]
  exact ⟨h.buffer, h.ready⟩

end

theorem take_all (l : List (BufKey C × Buffered C V)) :
    ∀ {c : Coalescer C V}, Holds P c →
      Holds P (l.foldl (fun c entry => c.take_entry entry.1 entry.2) c) := by
  induction l with
  | nil =>
    intro c h
    exact h
  | cons e l ih =>
    intro c h
    exact ih (h.take_entry e.1 e.2)

section
omit [DecidableEq C]

theorem entries (h : Holds P c) {sub : Subscription} {e : BufKey C × Buffered C V}
    (he : e ∈ c.subscription_entries sub) : P e.2.event := by
  have hm : e ∈ c.buffer.toList := (List.mem_filter.mp he).1
  exact h.buffer e.1 e.2 (mem_toList.mp hm)

end

theorem flush_subscription (h : Holds P c) (sub : Subscription) (now : Instant) :
    Holds P (c.flush_subscription sub now) := by
  have ht := Holds.take_all ((c.subscription_entries sub).insertionSort Coalescer.emission_le) h
  refine ⟨ht.buffer, ?_⟩
  intro r hr
  have hr : r ∈ _ ++ _ := hr
  rcases List.mem_append.mp hr with hr | hr
  · exact ht.ready r hr
  · obtain ⟨e, he, rfl⟩ := List.mem_map.mp hr
    exact h.entries ((List.mem_insertionSort Coalescer.emission_le).mp he)

theorem drop_subscription (h : Holds P c) (sub : Subscription) :
    Holds P (c.drop_subscription sub) := by
  have ht := Holds.take_all (c.subscription_entries sub) h
  refine ⟨ht.buffer, ?_⟩
  intro r hr
  exact ht.ready r (List.mem_filter.mp hr).1

section
omit [DecidableEq C] [LawfulEqOrd C]

theorem push_ready (h : Holds P c) (now : Instant) (hev : P ev) :
    Holds P (c.push_ready now ev) where
  buffer := h.buffer
  ready := by
    intro r hr
    rcases List.mem_append.mp hr with hr | hr
    · exact h.ready r hr
    · exact List.mem_singleton.mp hr ▸ hev

end

/-- A slot's new entry. -/
theorem file (h : Holds P c) {key : BufKey C} {entry : Buffered C V} (he : P entry.event)
    (hb : c'.buffer = c.buffer.insert key entry) (hr : c'.ready = c.ready) : Holds P c' where
  buffer := by
    intro k b hk
    rw [hb, get_insert] at hk
    split at hk
    · exact Option.some.inj hk ▸ he
    · exact h.buffer k b hk
  ready := hr ▸ h.ready

theorem fold_burst (h : Holds P c) (hP : ∀ e ev : Event C V, Stems e ev → P ev → P e) (hev : P ev)
    (config : DebounceConfig) (seq : Nat) {b : Buffered C V} (hb : P b.event) :
    Holds P (c.fold_burst ev now far config seq b) := by
  unfold Coalescer.fold_burst
  dsimp only
  split
  · have hs : Stems (b.event.set_epoch ev.epoch) b.event := ⟨rfl, rfl, rfl, .inl rfl⟩
    refine h.file ?_ rfl rfl
    exact hP _ _ hs hb
  · exact h.file hev rfl rfl
  · exact h.file (hP _ ev ⟨rfl, rfl, rfl, .inr rfl⟩ hev) rfl rfl
  · exact (h.take_entry _ _).dec_per_sub _

theorem coalesce (h : Holds P c) (hP : ∀ e ev : Event C V, Stems e ev → P ev → P e) (hev : P ev)
    (config : DebounceConfig) : Holds P (c.coalesce ev now far config).2 := by
  have hn : Holds P { c with next_seq := c.next_seq + 1 } := ⟨h.buffer, h.ready⟩
  unfold Coalescer.coalesce
  dsimp only
  cases hb : c.buffer[((ev.subscription, ev.key) : BufKey C)]? with
  | none =>
    unfold Coalescer.open_burst
    dsimp only
    split
    · exact hn
    · split
      · exact hn
      · exact hn.file hev rfl rfl
  | some b => exact hn.fold_burst hP hev config _ (h.buffer _ b hb)

theorem admit_event (h : Holds P c) (hP : ∀ e ev : Event C V, Stems e ev → P ev → P e)
    (hev : P ev) : Holds P (c.admit_event ev now far).2 := by
  unfold Coalescer.admit_event
  split
  · exact (h.flush_subscription _ _).push_ready _ hev
  · exact (h.flush_subscription _ _).push_ready _ hev
  all_goals
    split
    · exact h.push_ready _ hev
    · exact h.coalesce hP hev _

theorem release_all (l : List (BufKey C × Buffered C V)) :
    ∀ {c c' : Coalescer C V} {out out' : List (Event C V)}, Holds P c → (∀ e ∈ out, P e) →
      l.foldlM (fun out entry => Coalescer.release out entry.1) (out, c) = some (out', c') →
        Holds P c' ∧ ∀ e ∈ out', P e := by
  induction l with
  | nil =>
    intro c c' out out' h ho hl
    obtain ⟨rfl, rfl⟩ := Prod.mk.inj (Option.some.inj hl)
    exact ⟨h, ho⟩
  | cons e l ih =>
    intro c c' out out' h ho hl
    rw [List.foldlM_cons] at hl
    obtain ⟨⟨out₁, c₁⟩, hr, hl⟩ := Option.bind_eq_some_iff.mp hl
    obtain ⟨b, hb, he⟩ := Option.map_eq_some_iff.mp hr
    obtain ⟨rfl, rfl⟩ := Prod.mk.inj he
    refine ih ((h.take_entry _ _).dec_per_sub _) ?_ hl
    intro x hx
    rcases List.mem_append.mp hx with hx | hx
    · exact ho x hx
    · exact List.mem_singleton.mp hx ▸ h.buffer _ b hb

theorem drain_ready (h : Holds P c) {out : List (Event C V)}
    (hd : c.drain_ready now = some (out, c')) : Holds P c' ∧ ∀ e ∈ out, P e := by
  obtain ⟨due, -, hd⟩ := Option.bind_eq_some_iff.mp hd
  have h' : Holds P { c with ready := c.ready.dropWhile fun r => r.1 ≤ now } := by
    refine ⟨h.buffer, ?_⟩
    intro r hr
    exact h.ready r ((List.dropWhile_sublist _).subset hr)
  refine release_all (due.insertionSort Coalescer.emission_le) h' ?_ hd
  · intro e he
    obtain ⟨r, hr, rfl⟩ := List.mem_map.mp he
    exact h.ready r ((List.takeWhile_sublist _).subset hr)

/-- One call keeps what is pending of the kind of what is admitted, and hands out
    nothing else. -/
theorem step (h : Holds P c) (hP : ∀ e ev : Event C V, Stems e ev → P ev → P e) {op : Op C V}
    (hop : ∀ ev now far, op = .admit_event ev now far → P ev) {obs : List (Obs C V)}
    (hs : c.step op = some (c', obs)) : Holds P c' ∧ ∀ e ∈ emitted obs, P e := by
  have quiet : ∀ {c₁ : Coalescer C V} {obs₁ : List (Obs C V)}, emitted obs₁ = [] → Holds P c₁ →
      some (c₁, obs₁) = some (c', obs) → Holds P c' ∧ ∀ e ∈ emitted obs, P e := by
    intro c₁ obs₁ ho h₁ he
    obtain ⟨rfl, rfl⟩ := Prod.mk.inj (Option.some.inj he)
    rw [ho]
    exact ⟨h₁, nofun⟩
  cases op with
  | admit_event ev now far =>
    have hc : Holds P (c.admit_event ev now far).2 := h.admit_event hP (hop ev now far rfl)
    unfold Coalescer.step at hs
    dsimp only at hs
    split at hs
    · next heq => exact quiet rfl (by rw [heq] at hc; exact hc) hs
    · next heq => exact quiet rfl (by rw [heq] at hc; exact hc) hs
  | drain_ready now =>
    obtain ⟨⟨out, c₁⟩, hd, he⟩ := Option.map_eq_some_iff.mp hs
    obtain ⟨rfl, rfl⟩ := Prod.mk.inj he
    rw [emitted_map_emitted]
    exact h.drain_ready hd
  | flush_all =>
    obtain ⟨rfl, rfl⟩ := Prod.mk.inj (Option.some.inj hs)
    rw [emitted_map_emitted]
    refine ⟨⟨?_, nofun⟩, ?_⟩
    · intro k b hb
      have hb : (∅ : Map (BufKey C) (Buffered C V))[k]? = some b := hb
      simp at hb
    · intro e he
      rcases List.mem_append.mp he with he | he
      · obtain ⟨r, hr, rfl⟩ := List.mem_map.mp he
        exact h.ready r hr
      · obtain ⟨x, hx, rfl⟩ := List.mem_map.mp he
        exact h.buffer x.1 x.2 (mem_toList.mp ((List.mem_insertionSort _).mp hx))
  | set_policy sub policy =>
    refine quiet rfl ?_ hs
    cases policy <;> exact ⟨h.buffer, h.ready⟩
  | flush_subscription sub now => exact quiet rfl (h.flush_subscription sub now) hs
  | drop_subscription sub => exact quiet rfl (h.drop_subscription sub) hs
  | forget_subscription sub =>
    have hd := h.drop_subscription sub
    have hf : Holds P (c.forget_subscription sub) := ⟨hd.buffer, hd.ready⟩
    exact quiet rfl hf hs

theorem run {ops : List (Op C V)} (hP : ∀ e ev : Event C V, Stems e ev → P ev → P e)
    (hops : ∀ ev now far, Op.admit_event ev now far ∈ ops → P ev) :
    ∀ {c : Coalescer C V} {tr : List (Obs C V)}, Holds P c → c.run ops = some (c', tr) →
      ∀ e ∈ emitted tr, P e := by
  induction ops with
  | nil =>
    intro c tr h hr
    obtain ⟨rfl, rfl⟩ := Prod.mk.inj (Option.some.inj hr)
    exact nofun
  | cons op ops ih =>
    intro c tr h hr
    obtain ⟨⟨c₁, obs⟩, hs, hr⟩ := Option.bind_eq_some_iff.mp hr
    obtain ⟨⟨c₂, tr₂⟩, hr₂, he⟩ := Option.map_eq_some_iff.mp hr
    obtain ⟨rfl, rfl⟩ := Prod.mk.inj he
    obtain ⟨h₁, ho⟩ := h.step hP (fun ev now far he => hops ev now far (by simp [he])) hs
    intro e he
    rw [emitted_append] at he
    rcases List.mem_append.mp he with he | he
    · exact ho e he
    · exact ih (fun ev now far hm => hops ev now far (by simp [hm])) h₁ hr₂ e he

end Holds

end Settle

/-! ### The coordinates of what is delivered -/

/-- Every delivery of an event captured under a root, whatever root is live now, is
    coherent: it lies in its subscription's subtree; below the captured root its key is
    the subscription's followed by its location; and one of an event outside the subtree
    is at the subscription's own key, or the source of a move that leaves.  What leaves
    the coalescer is an admitted event, or a `Modified` in the place of one. -/
theorem deliveries_coherent {C V H : Type} [Ord C] [TransOrd C] [LawfulEqOrd C] [DecidableEq C]
    (names : C → Segment → Prop) :
    (∀ (root : List C) (live : Option (List C)) (raw : SourceEvent C H)
      (reserved : ReservedEndpoints) (subs : List Subscription)
      (canonical_of : Subscription → Option (List C)) (admits : Subscription → Event C V → Bool)
      (value_of : Subscription → Option V) (epochs : EpochLedger),
      Captured names root raw →
        ∃ root', Captured names root' (clamped live raw) ∧
          (clamped live raw = raw ∧ root' = root ∨
            raw.kind = .rescan ∧ live = some root' ∧ (clamped live raw).key = root') ∧
          ∀ d ∈ (fan_out_raw epochs (clamped live raw) reserved subs canonical_of admits value_of).1,
            d.subscription ∈ subs ∧ ∃ K, canonical_of d.subscription = some K ∧
              Coherent names root' (clamped live raw) K d) ∧
    ∀ (default : Option DebounceConfig) (ops : List (Op C V)) (c : Coalescer C V)
      (tr : List (Obs C V)), (Coalescer.new default).run ops = some (c, tr) →
        ∀ e ∈ emitted tr, ∃ ev now far, Op.admit_event ev now far ∈ ops ∧ Stems e ev ∧
          ∀ (root : List C) (raw : SourceEvent C H) (K : List C),
            Coherent names root raw K ev → K <+: e.key ∧ (∀ a, e.kind = .moved a → K <+: a) ∧
              (root <+: K → Located names K e.key e.location) ∧
                (¬ root <+: K → e.location = []) := by
  constructor
  · intro root live raw reserved subs canonical_of admits value_of epochs hc
    obtain ⟨root', hc', hcl⟩ := hc.clamped live
    refine ⟨root', hc', hcl, ?_⟩
    intro d hd
    exact mem_fan_out_raw hd hc'
  · intro default ops c tr hr e he
    have hP : ∀ e ev : Event C V, Stems e ev →
        (∃ ev' now far, Op.admit_event ev' now far ∈ ops ∧ Stems ev ev') →
          ∃ ev' now far, Op.admit_event ev' now far ∈ ops ∧ Stems e ev' := by
      intro e ev hs h
      obtain ⟨ev', now, far, hm, hs'⟩ := h
      refine ⟨ev', now, far, hm, hs.subscription.trans hs'.subscription, hs.key.trans hs'.key,
        hs.location.trans hs'.location, ?_⟩
      rcases hs.kind with hk | hk
      · rw [hk]
        exact hs'.kind
      · exact .inr hk
    have hnew : Holds (fun e => ∃ ev' now far, Op.admit_event ev' now far ∈ ops ∧ Stems e ev')
        (Coalescer.new default : Coalescer C V) := by
      refine ⟨?_, nofun⟩
      intro k b hb
      have hb : (∅ : Map (BufKey C) (Buffered C V))[k]? = some b := hb
      simp at hb
    have hops : ∀ ev now far, Op.admit_event ev now far ∈ ops →
        ∃ ev' now far, Op.admit_event ev' now far ∈ ops ∧ Stems ev ev' := by
      intro ev now far hm
      exact ⟨ev, now, far, hm, rfl, rfl, rfl, .inl rfl⟩
    obtain ⟨ev, now, far, hm, hs⟩ := Holds.run hP hops hnew hr e he
    refine ⟨ev, now, far, hm, hs, ?_⟩
    intro root raw K h
    rw [hs.key, hs.location]
    refine ⟨h.inside, ?_, h.located, h.anchored⟩
    intro a ha
    rcases hs.kind with hk | hk
    · exact h.source_inside a (hk ▸ ha)
    · rw [hk] at ha
      cases ha

/-! ### A move that leaves -/

/-- Components that are their own names. -/
def spelt (c : Segment) (segment : Segment) : Prop := segment = c

/-- Under `/r`, `a/x` is moved to `b`. -/
def leaving : SourceEvent Segment Unit where
  handle := ()
  key := ["r", "b"]
  kind := .moved ["r", "a", "x"]
  location := ["b"]
  move_from_location := some ["a", "x"]
  epoch := Epoch.START
  change_id := none
  is_dir := none

theorem leaving_captured : Captured spelt ["r"] leaving where
  located := ⟨["b"], rfl, .cons rfl .nil⟩
  source := by
    intro a ha
    cases ha
    exact ⟨["a", "x"], rfl, ["a", "x"], rfl, .cons rfl (.cons rfl .nil)⟩

/-- What a subscription at `/r/a` is delivered of it. -/
def left_behind : List (Event Segment Unit) :=
  (fan_out_raw EpochLedger.new leaving .none [settling] (fun _ => some ["r", "a"])
    (fun _ _ => true) fun _ => none).1

theorem deliveries_coherent_leaving :
    left_behind ≠ [] ∧ ∀ d ∈ left_behind, d.subscription = settling ∧ ["r", "a"] <+: d.key := by
  refine ⟨by decide, ?_⟩
  obtain ⟨root', -, -, h⟩ := (deliveries_coherent (V := Unit) spelt).1 ["r"] (some ["r"]) leaving .none
    [settling] (fun _ => some ["r", "a"]) (fun _ _ => true) (fun _ => none) EpochLedger.new
    leaving_captured
  intro d hd
  obtain ⟨hs, K, hK, hc⟩ := h d hd
  obtain rfl := Option.some.inj hK
  exact ⟨List.mem_singleton.mp hs, hc.inside⟩

/-- The event ends outside the subscription's subtree, and the delivery is at neither
    the subscription's own key nor an empty location. -/
theorem delivered_at_source :
    Captured spelt ["r"] leaving ∧ ["r"] <+: ["r", "a"] ∧ ¬ ["r", "a"] <+: leaving.key ∧
      ∃ d ∈ left_behind, d.key = ["r", "a", "x"] ∧ d.location = ["x"] :=
  ⟨leaving_captured, by decide, by decide, by decide⟩

end Umbrella
