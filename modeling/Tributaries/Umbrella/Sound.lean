import Tributaries.Umbrella.Paths

/-! # What holds all through a turn

  What the owner holds, owes and has sent is always of a subscription that
  was granted: at or below the key it was granted at, and with its value.
  The coalescer's books are kept, and what is owed lies in the plane of the
  subscription's claim.
-/

open Std Collections

namespace Umbrella

open Proto (Epoch u64Max)

namespace Delivery

variable {C V H : Type} [Ord C] [TransOrd C] [LawfulEqOrd C] [DecidableEq C] [DecidableEq H]

/-- The owner holds an event: in its hands, or settling. -/
def Flight.Holds (F : Flight C V H) (x : Event C V) : Prop :=
  x ∈ F.inbox ∨ x ∈ F.air ∨ x ∈ F.refused ∨ F.d.Waits x

/-- The invariant, where `granted` is the grants made so far. -/
structure Sound (granted : Subscription → Option (List C × V)) (F : Flight C V H) : Prop where
  live : ∀ s g, F.d.grant_of s = some g → granted s = some g
  minted : ∀ s g, granted s = some g → s ∈ F.d.minted
  kept : ∀ c, F.d.coalescer = some c → c.Kept F.d.clock F.d.minted ∧ c.Lifecycle
  held : ∀ x, F.Holds x → (∃ key value, Addressed F.d x key value) ∧
    x.epoch.as_u64 ≤ F.d.mark x.subscription
  owed : ∀ s q, F.d.Owed s q → ∃ key value, granted s = some (key, value) ∧ key <+: q.key ∧
    q.value = some value ∧ (F.d.grant_of s ≠ none → q.epoch.as_u64 ≤ F.d.mark s)
  claimed : ∀ s q, F.d.needs_rescan[s]? = some q → s ∉ F.d.unclaimed
  unclaimed : ∀ s q, F.d.suppressed_rescan[s]? = some q → s ∈ F.d.unclaimed
  sent : ∀ x ∈ F.d.events.sent, ∃ key value, granted x.subscription = some (key, value) ∧
    (∀ spot ∈ x.spots, key <+: spot) ∧ x.value = some value
  bounded : ∀ t, F.d.mark t ≤ u64Max

variable {G : Subscription → Option (List C × V)} {F F' : Flight C V H} {d d' : Delivery C V H}
  {i a r i' a' r' : List (Event C V)} {s : Subscription} {x ev : Event C V}

section
omit [LawfulEqOrd C] [DecidableEq C]

/-- Books that are kept stay so while the clock runs. -/
theorem Kept.wait {last now : Instant} {used : Set Subscription} {c : Coalescer C V}
    (h : c.Kept last used) (hl : last ≤ now) : c.Kept now used where
  indexed := h.indexed
  counts := h.counts
  cap := h.cap
  used := h.used
  settling := h.settling
  ready r hr := Nat.le_trans (h.ready r hr) hl
  queued := h.queued

end

section
omit [TransOrd C] [LawfulEqOrd C] [DecidableEq C] [DecidableEq H]

/-- What is read of an event apart from its kind and epoch. -/
theorem Addressed.congr {key : List C} {value : V} {y : Event C V} (h : Addressed d x key value)
    (hg : d'.grant_of y.subscription = d.grant_of x.subscription) (hs : ∀ spot ∈ y.spots, spot ∈ x.spots)
    (hv : y.value = x.value) : Addressed d' y key value :=
  ⟨hg.trans h.live, fun spot hm => h.inside spot (hs spot hm), hv.trans h.value⟩

end

section
omit [LawfulEqOrd C] [DecidableEq C] [DecidableEq H]

theorem Sound.quiet (h : Sound G ⟨d, i, a, r⟩) (hq : Quiet d d') : Sound G ⟨d', i, a, r⟩ := by
  have hmark : ∀ t, d'.mark t = d.mark t := by
    intro t
    unfold mark
    rw [hq.epochs]
  have hwaits : ∀ x, d'.Waits x ↔ d.Waits x := by
    intro x
    unfold Waits
    rw [hq.coalescer]
  have hminted : d'.minted = d.minted := by
    unfold Delivery.minted
    rw [hq.instance_id, hq.next_sub]
  have howed : ∀ s q, d'.Owed s q ↔ d.Owed s q := by
    intro s q
    unfold Owed
    rw [hq.needs, hq.suppressed]
  refine ⟨?_, ?_, ?_, ?_, ?_, ?_, ?_, ?_, ?_⟩
  · intro s g hg
    exact h.live s g ((hq.grants s).symm.trans hg)
  · intro s g hg
    show s ∈ d'.minted
    rw [hminted]
    exact h.minted s g hg
  · intro c hc
    obtain ⟨hk, hl⟩ := h.kept c (hq.coalescer.symm.trans hc)
    show c.Kept d'.clock d'.minted ∧ _
    rw [hminted]
    -- the clock may have moved on, which only the ready queue reads
    exact ⟨Kept.wait hk hq.clock, hl⟩
  · intro x hx
    have hx : (⟨d, i, a, r⟩ : Flight C V H).Holds x :=
      hx.imp_right fun hx => hx.imp_right fun hx => hx.imp_right (hwaits x).mp
    obtain ⟨⟨key, value, ha⟩, he⟩ := h.held x hx
    refine ⟨⟨key, value, ha.congr (hq.grants _) (fun _ hm => hm) rfl⟩, ?_⟩
    show _ ≤ d'.mark _
    rw [hmark]
    exact he
  · intro s q hs
    obtain ⟨key, value, hg, hk, hv, he⟩ := h.owed s q ((howed s q).mp hs)
    refine ⟨key, value, hg, hk, hv, fun hl => ?_⟩
    show _ ≤ d'.mark s
    rw [hmark]
    exact he fun hn => hl ((hq.grants s).trans hn)
  · intro s q hs
    show s ∉ d'.unclaimed
    rw [hq.unclaimed]
    exact h.claimed s q (hq.needs ▸ hs)
  · intro s q hs
    show s ∈ d'.unclaimed
    rw [hq.unclaimed]
    exact h.unclaimed s q (hq.suppressed ▸ hs)
  · intro x hx
    exact h.sent x (hq.events ▸ hx)
  · intro t
    show d'.mark t ≤ u64Max
    rw [hmark]
    exact h.bounded t

end

section
omit [DecidableEq H]

/-- Owing a live subscription more, at keys of its subtree. -/
theorem Sound.owing {covers : List (List C)} {epoch : Epoch} {key : List C} {value : V}
    (h : Sound G ⟨d, i, a, r⟩) (ho : Owing d d' s covers epoch (some value))
    (hg : d.grant_of s = some (key, value)) (hk : ∀ k ∈ covers, key <+: k)
    (he : epoch.as_u64 ≤ d'.mark s)
    (hf : ∀ x, (⟨d', i', a', r'⟩ : Flight C V H).Holds x → x ∈ i ∨ x ∈ a ∨ x ∈ r ∨ d'.Waits x) :
    Sound G ⟨d', i', a', r'⟩ := by
  have hgrant : ∀ t, d'.grant_of t = d.grant_of t := by
    intro t
    unfold grant_of
    rw [ho.subs]
  have hminted : d'.minted = d.minted := by
    unfold Delivery.minted
    rw [ho.instance_id, ho.next_sub]
  -- what is left settling was settling
  have hwaits : ∀ x, d'.Waits x → d.Waits x := by
    intro x hx
    obtain ⟨c, hc, hw⟩ := hx
    rcases ho.coalescer with he | he
    · exact ⟨c, he.symm.trans hc, hw⟩
    · obtain ⟨c₀, hc₀, rfl⟩ := Option.map_eq_some_iff.mp (he.symm.trans hc)
      exact ⟨c₀, hc₀, ((Coalescer.drop_waits (h.kept c₀ hc₀).1 s).mp hw).1⟩
  -- an entry of either plane, old or new
  have plane : ∀ p p' : ParkedRescans C V, Widens p p' s covers epoch (some value) →
      (∀ t q, p[t]? = some q → d.Owed t q) → ∀ t q, p'[t]? = some q →
      ∃ key value, G t = some (key, value) ∧ key <+: q.key ∧ q.value = some value ∧
        (d.grant_of t ≠ none → q.epoch.as_u64 ≤ d'.mark t) := by
    intro p p' hw hp t q hq
    by_cases ht : t = s
    · subst ht
      -- what is owed to `s` was owed, or is owed by this step
      rcases hw.back q hq with hq | ⟨hbelow, hepoch, hvalue⟩
      · obtain ⟨key, value, hg, hk, hv, he⟩ := h.owed t q (hp t q hq)
        exact ⟨key, value, hg, hk, hv, fun hl => Nat.le_trans (he hl) (ho.marks t)⟩
      -- a new debt is joined from its covers and the debt before: the grant bounds both
      · have hG : G t = some (key, value) := h.live t _ hg
        have hold : ∀ q, p[t]? = some q → key <+: q.key ∧ q.value = some value ∧
            q.epoch.as_u64 ≤ d'.mark t := by
          intro q hq
          obtain ⟨key', value', hg', hk', hv', he'⟩ := h.owed t q (hp t q hq)
          obtain ⟨rfl, rfl⟩ := Prod.mk.inj (Option.some.inj (hG.symm.trans hg'))
          refine ⟨hk', hv', Nat.le_trans (he' ?_) (ho.marks t)⟩
          show d.grant_of t ≠ none
          rw [hg]
          exact fun hn => by cases hn
        refine ⟨key, value, hG, hbelow key hk fun q hq => (hold q hq).1, ?_, fun _ => ?_⟩
        · rcases hvalue with hv | ⟨q', hq', hv⟩
          · exact hv
          · exact hv.trans (hold q' hq').2.1
        · rcases hepoch with hv | ⟨q', hq', hv⟩
          · rw [hv]
            exact he
          · rw [hv]
            exact (hold q' hq').2.2
    -- the debt of another subscription is untouched
    · rw [hw.others t ht] at hq
      obtain ⟨key, value, hg, hk, hv, he⟩ := h.owed t q (hp t q hq)
      exact ⟨key, value, hg, hk, hv, fun hl => Nat.le_trans (he hl) (ho.marks t)⟩
  refine ⟨?_, ?_, ?_, ?_, ?_, ?_, ?_, ?_, ho.bounded h.bounded⟩
  · intro t g hg
    exact h.live t g ((hgrant t).symm.trans hg)
  · intro t g hg
    show t ∈ d'.minted
    rw [hminted]
    exact h.minted t g hg
  · intro c hc
    show c.Kept d'.clock d'.minted ∧ _
    rw [hminted, ho.clock]
    rcases ho.coalescer with he | he
    · exact h.kept c (he.symm.trans hc)
    · obtain ⟨c₀, hc₀, rfl⟩ := Option.map_eq_some_iff.mp (he.symm.trans hc)
      obtain ⟨hk, hl⟩ := h.kept c₀ hc₀
      exact ⟨(hk.drop s).1, Coalescer.drop_lifecycle hk hl s⟩
  · intro x hx
    have hx : (⟨d, i, a, r⟩ : Flight C V H).Holds x :=
      (hf x hx).imp_right fun hx => hx.imp_right fun hx => hx.imp_right (hwaits x)
    obtain ⟨⟨key, value, ha⟩, he⟩ := h.held x hx
    exact ⟨⟨key, value, ha.congr (hgrant _) (fun _ hm => hm) rfl⟩, Nat.le_trans he (ho.marks _)⟩
  · intro t q hq
    have hone : ∃ key value, G t = some (key, value) ∧ key <+: q.key ∧ q.value = some value ∧
        (d.grant_of t ≠ none → q.epoch.as_u64 ≤ d'.mark t) := by
      rcases hq with hq | hq
      · exact plane _ _ ho.needs (fun t q hq => .inl hq) t q hq
      · exact plane _ _ ho.suppressed (fun t q hq => .inr hq) t q hq
    obtain ⟨key, value, hg, hk, hv, he⟩ := hone
    exact ⟨key, value, hg, hk, hv, fun hl => he fun hn => hl ((hgrant t).trans hn)⟩
  · intro t q hq
    show t ∉ d'.unclaimed
    rw [ho.unclaimed]
    by_cases ht : t = s
    · subst ht
      -- a debt is widened in its own plane; a new one goes to the plane of the claim
      cases hn : d.needs_rescan[t]? with
      | some q => exact h.claimed t q hn
      | none =>
        rcases ho.claimed hn with hn' | hc
        · exact absurd (hn'.symm.trans hq) (by simp)
        · exact hc
    · have hq : d'.needs_rescan[t]? = some q := hq
      rw [ho.needs.others t ht] at hq
      exact h.claimed t q hq
  · intro t q hq
    show t ∈ d'.unclaimed
    rw [ho.unclaimed]
    by_cases ht : t = s
    · subst ht
      cases hn : d.suppressed_rescan[t]? with
      | some q => exact h.unclaimed t q hn
      | none =>
        rcases ho.unclaimed_only hn with hn' | hc
        · exact absurd (hn'.symm.trans hq) (by simp)
        · exact hc
    · have hq : d'.suppressed_rescan[t]? = some q := hq
      rw [ho.suppressed.others t ht] at hq
      exact h.unclaimed t q hq
  · intro x hx
    exact h.sent x (ho.events ▸ hx)

end

section
omit [LawfulEqOrd C] [DecidableEq C] [DecidableEq H]

/-- A new epoch and what is minted at it. -/
theorem Sound.stamped {epochs : EpochLedger} {key : List C} {value : V}
    (h : Sound G ⟨d, i, a, r⟩) (hd : Addressed d ev key value) (hs : Stamped d.epochs ev epochs) :
    Sound G ⟨{ d with epochs }, i ++ [ev], a, r⟩ where
  live := h.live
  minted := h.minted
  kept := h.kept
  held x hx := by
    have hx : (⟨d, i, a, r⟩ : Flight C V H).Holds x ∨ x = ev := by
      rcases hx with hx | hx
      · rcases List.mem_append.mp hx with hx | hx
        · exact .inl (.inl hx)
        · exact .inr (List.mem_singleton.mp hx)
      · exact .inl (.inr hx)
    rcases hx with hx | rfl
    · obtain ⟨⟨key, value, ha⟩, he⟩ := h.held x hx
      exact ⟨⟨key, value, ha.live, ha.inside, ha.value⟩, Nat.le_trans he (hs.marks _)⟩
    -- the new one is at the mark, and the marks of the others only grew
    · exact ⟨⟨key, value, hd.live, hd.inside, hd.value⟩, hs.marked⟩
  owed s q hq := by
    obtain ⟨key, value, hg, hk, hv, he⟩ := h.owed s q hq
    exact ⟨key, value, hg, hk, hv, fun hl => Nat.le_trans (he hl) (hs.marks s)⟩
  claimed := h.claimed
  unclaimed := h.unclaimed
  sent := h.sent
  bounded := hs.bounded h.bounded

/-- A coalescer whose books are kept, and which holds nothing but what was held. -/
theorem Sound.recoalesced {c : Option (Coalescer C V)} (h : Sound G ⟨d, i, a, r⟩)
    (hk : ∀ c', c = some c' → c'.Kept d.clock d.minted ∧ c'.Lifecycle)
    (hf : ∀ x, (⟨{ d with coalescer := c }, i', a', r'⟩ : Flight C V H).Holds x →
      ∃ y, (⟨d, i, a, r⟩ : Flight C V H).Holds y ∧ x.subscription = y.subscription ∧
        (∀ spot ∈ x.spots, spot ∈ y.spots) ∧ x.value = y.value ∧
        ∃ z, (⟨d, i, a, r⟩ : Flight C V H).Holds z ∧ z.subscription = x.subscription ∧
          x.epoch = z.epoch) :
    Sound G ⟨{ d with coalescer := c }, i', a', r'⟩ where
  live := h.live
  minted := h.minted
  kept := hk
  held x hx := by
    obtain ⟨y, hy, hsub, hspots, hv, z, hz, hzsub, he⟩ := hf x hx
    obtain ⟨⟨key, value, ha⟩, -⟩ := h.held y hy
    obtain ⟨-, hez⟩ := h.held z hz
    refine ⟨⟨key, value, ha.congr (congrArg d.grant_of hsub) hspots hv⟩, ?_⟩
    rw [he, ← hzsub]
    exact hez
  owed := h.owed
  claimed := h.claimed
  unclaimed := h.unclaimed
  sent := h.sent
  bounded := h.bounded

/-- Nothing but what was held is held. -/
theorem Sound.carried (h : Sound G ⟨d, i, a, r⟩)
    (hf : ∀ x, (⟨d, i', a', r'⟩ : Flight C V H).Holds x → (⟨d, i, a, r⟩ : Flight C V H).Holds x) :
    Sound G ⟨d, i', a', r'⟩ :=
  { h with held := fun x hx => h.held x (hf x hx) }

/-- As `recoalesced`, where every event held was held as it is. -/
theorem Sound.rebuffered {c : Option (Coalescer C V)} (h : Sound G ⟨d, i, a, r⟩)
    (hk : ∀ c', c = some c' → c'.Kept d.clock d.minted ∧ c'.Lifecycle)
    (hf : ∀ x, (⟨{ d with coalescer := c }, i', a', r'⟩ : Flight C V H).Holds x →
      (⟨d, i, a, r⟩ : Flight C V H).Holds x) : Sound G ⟨{ d with coalescer := c }, i', a', r'⟩ :=
  h.recoalesced hk fun x hx =>
    ⟨x, hf x hx, rfl, fun _ hm => hm, rfl, x, hf x hx, rfl, rfl⟩

end

section
omit [DecidableEq H]

theorem Sound.dropped (h : Sound G ⟨d, i, a, r⟩) (s : Subscription) :
    Sound G ⟨d.drop_buffered s, i, a, r⟩ := by
  refine h.rebuffered ?_ ?_
  · intro c' hc
    obtain ⟨c, hc₀, rfl⟩ := Option.map_eq_some_iff.mp hc
    obtain ⟨hk, hl⟩ := h.kept c hc₀
    exact ⟨(hk.drop s).1, Coalescer.drop_lifecycle hk hl s⟩
  · intro x hx
    refine hx.imp_right fun hx => hx.imp_right fun hx => hx.imp_right fun hw => ?_
    obtain ⟨c', hc, hw⟩ := hw
    obtain ⟨c, hc₀, rfl⟩ := Option.map_eq_some_iff.mp hc
    exact ⟨c, hc₀, ((Coalescer.drop_waits (h.kept c hc₀).1 s).mp hw).1⟩

theorem Sound.shed {key : List C} {value : V} (h : Sound G ⟨d, i, a, r⟩)
    (hg : d.grant_of s = some (key, value))
    (hf : ∀ x, (⟨d.shed_whole s key (some value), i', a', r'⟩ : Flight C V H).Holds x →
      x ∈ i ∨ x ∈ a ∨ x ∈ r ∨ (d.shed_whole s key (some value)).Waits x) :
    Sound G ⟨d.shed_whole s key (some value), i', a', r'⟩ := by
  obtain ⟨epoch, -, ho, he, -⟩ := owing_shed d s key (some value)
  refine h.owing ho hg ?_ he hf
  intro k hk
  rw [List.mem_singleton.mp hk]

end

section
omit [Ord C] [TransOrd C] [LawfulEqOrd C] [DecidableEq C]

theorem folds_from {old : Event C V} (hs : old.slot = ev.slot)
    (hl : old.kind.is_lifecycle = true ∧ ev.kind.is_lifecycle = true)
    (hf : Coalescer.Folds old ev x) : x.slot = ev.slot ∧ x.kind.is_lifecycle = true ∧
      x.epoch = ev.epoch ∧ (x.value = ev.value ∨ x.value = old.value) := by
  cases hf with
  | kept => exact ⟨hs, hl.1, rfl, .inr rfl⟩
  | replaced => exact ⟨rfl, hl.2, rfl, .inl rfl⟩
  | churned => exact ⟨rfl, rfl, rfl, .inl rfl⟩

theorem spots_lifecycle (h : x.kind.is_lifecycle = true) : x.spots = [x.key] := by
  unfold Event.spots Event.move_from EventKind.moved_from
  unfold EventKind.is_lifecycle at h
  cases hk : x.kind with
  | moved source =>
    rw [hk] at h
    cases h
  | _ => rfl

/-- Two changes of one slot are at the same places. -/
theorem spots_slot {y : Event C V} (hx : x.kind.is_lifecycle = true) (hs : x.slot = y.slot) :
    ∀ spot ∈ x.spots, spot ∈ y.spots := by
  intro spot hm
  rw [spots_lifecycle hx] at hm
  rw [List.mem_singleton.mp hm, show x.key = y.key from congrArg Prod.snd hs]
  exact List.mem_cons_self

end

section
omit [DecidableEq H]

/-- What settles once the coalescer took an event. -/
theorem taken_waits {c : Coalescer C V} {far : Instant} (h : Sound G ⟨d, ev :: i, a, r⟩)
    (hc : d.coalescer = some c)
    (hx : ({ d with coalescer := some (c.admit_event ev d.clock far).2 } : Delivery C V H).Waits x) :
    d.Waits x ∨ x = ev ∨ ∃ old, d.Waits old ∧ (c.admit_event ev d.clock far).2.Merges old ev ∧
      Coalescer.Folds old ev x := by
  obtain ⟨hk, hl⟩ := h.kept c hc
  obtain ⟨c', hc', hw⟩ := hx
  obtain rfl := Option.some.inj hc'
  rcases (Coalescer.admit_admits hk hl ev d.clock far).back x hw with hw | ⟨-, hx | ⟨old, ho, hm, hf⟩⟩
  · exact .inl ⟨c, hc, hw⟩
  · exact .inr (.inl hx)
  · exact .inr (.inr ⟨old, ⟨c, hc, ho⟩, hm, hf⟩)

/-- What the owner holds then. -/
theorem taken_from {c : Coalescer C V} {far : Instant} (h : Sound G ⟨d, ev :: i, a, r⟩)
    (hc : d.coalescer = some c)
    (hx : (⟨{ d with coalescer := some (c.admit_event ev d.clock far).2 }, i, a,
      r ++ (c.admit_event ev d.clock far).1.toList.map fun _ => ev⟩ : Flight C V H).Holds x) :
    (⟨d, ev :: i, a, r⟩ : Flight C V H).Holds x ∨
      ∃ old, d.Waits old ∧ (c.admit_event ev d.clock far).2.Merges old ev ∧ Coalescer.Folds old ev x := by
  rcases hx with hx | hx | hx | hx
  · exact .inl (.inl (List.mem_cons_of_mem ev hx))
  · exact .inl (.inr (.inl hx))
  · rcases List.mem_append.mp hx with hx | hx
    · exact .inl (.inr (.inr (.inl hx)))
    · obtain ⟨_, -, rfl⟩ := List.mem_map.mp hx
      exact .inl (.inl List.mem_cons_self)
  · rcases taken_waits h hc hx with hx | rfl | hx
    · exact .inl (.inr (.inr (.inr hx)))
    · exact .inl (.inl List.mem_cons_self)
    · exact .inr hx

theorem Sound.taken {c : Coalescer C V} {far : Instant} (h : Sound G ⟨d, ev :: i, a, r⟩)
    (hc : d.coalescer = some c) :
    Sound G ⟨{ d with coalescer := some (c.admit_event ev d.clock far).2 }, i, a,
      r ++ (c.admit_event ev d.clock far).1.toList.map fun _ => ev⟩ := by
  obtain ⟨hk, hl⟩ := h.kept c hc
  have hev : (⟨d, ev :: i, a, r⟩ : Flight C V H).Holds ev := .inl List.mem_cons_self
  refine h.recoalesced ?_ ?_
  · intro c' hc'
    obtain rfl := Option.some.inj hc'
    obtain ⟨s, c', he, -, ha⟩ := hk.admit (Nat.le_refl _) ev far
    -- the subscription admitted was minted
    obtain ⟨⟨key, value, hlive⟩, -⟩ := h.held ev hev
    have hm : insert ev.subscription d.minted = d.minted :=
      Set.insert_eq_of_mem (h.minted _ _ (h.live _ _ hlive.live))
    have hkept := ha.kept
    rw [hm] at hkept
    rw [he]
    refine ⟨hkept, ?_⟩
    have := (Coalescer.admit_admits hk hl ev d.clock far).settling
    rwa [he] at this
  · intro x hx
    rcases taken_from h hc hx with hx | ⟨old, ho, hm, hf⟩
    · exact ⟨x, hx, rfl, fun _ hm => hm, rfl, x, hx, rfl, rfl⟩
    -- folded: the place and epoch of the newcomer, the value of either
    · obtain ⟨hslot, hlife, hepoch, hvalue⟩ := folds_from hm.slot hm.lifecycle hf
      have hsub : x.subscription = ev.subscription := congrArg Prod.fst hslot
      rcases hvalue with hv | hv
      · exact ⟨ev, hev, hsub, spots_slot hlife hslot, hv, ev, hev, hsub.symm, hepoch⟩
      · have hslot' : x.slot = old.slot := hslot.trans hm.slot.symm
        exact ⟨old, .inr (.inr (.inr ho)), congrArg Prod.fst hslot', spots_slot hlife hslot', hv,
          ev, hev, hsub.symm, hepoch⟩

theorem Sound.drained {c c' : Coalescer C V} {out : List (Event C V)} (h : Sound G ⟨d, i, a, r⟩)
    (hc : d.coalescer = some c) (hd : c.drain_ready d.clock = some (out, c')) :
    Sound G ⟨{ d with coalescer := some c' }, i, a ++ out, r⟩ := by
  obtain ⟨hk, hl⟩ := h.kept c hc
  obtain ⟨out', c'', hd', hk', -, hlife, hw⟩ := Coalescer.drain_waits hk (Nat.le_refl _)
  obtain ⟨rfl, rfl⟩ := Prod.mk.inj (Option.some.inj (hd.symm.trans hd'))
  refine h.rebuffered ?_ ?_
  · intro c₀ hc₀
    obtain rfl := Option.some.inj hc₀
    exact ⟨hk', hlife hl⟩
  · intro x hx
    rcases hx with hx | hx | hx | hx
    · exact .inl hx
    · rcases List.mem_append.mp hx with hx | hx
      · exact .inr (.inl hx)
      · exact .inr (.inr (.inr ⟨c, hc, (hw x).mpr (.inr hx)⟩))
    · exact .inr (.inr (.inl hx))
    · obtain ⟨c₀, hc₀, hx⟩ := hx
      obtain rfl := Option.some.inj hc₀
      exact .inr (.inr (.inr ⟨c, hc, (hw x).mpr (.inl hx)⟩))

theorem Sound.flushed {c : Coalescer C V} (h : Sound G ⟨d, i, a, r⟩) (hc : d.coalescer = some c)
    (s : Subscription) :
    Sound G ⟨{ d with coalescer := some (c.flush_subscription s d.clock) }, i, a, r⟩ := by
  obtain ⟨hk, hl⟩ := h.kept c hc
  refine h.rebuffered ?_ ?_
  · intro c₀ hc₀
    obtain rfl := Option.some.inj hc₀
    exact ⟨(hk.flush (Nat.le_refl _) s).1, Coalescer.flush_lifecycle hk hl s d.clock⟩
  · intro x hx
    refine hx.imp_right fun hx => hx.imp_right fun hx => hx.imp_right fun hx => ?_
    obtain ⟨c₀, hc₀, hx⟩ := hx
    obtain rfl := Option.some.inj hc₀
    exact ⟨c, hc, (Coalescer.flush_waits hk s d.clock).mp hx⟩

end

section
omit [DecidableEq C] [DecidableEq H]

theorem Sound.tailed {c : Coalescer C V} (h : Sound G ⟨d, [], [], []⟩) (hc : d.coalescer = some c) :
    Sound G ⟨{ d with coalescer := some c.flush_all.2 }, [],
      c.flush_all.1.filter (fun ev => !d.owes ev.subscription), []⟩ := by
  obtain ⟨hk, hl⟩ := h.kept c hc
  refine h.rebuffered ?_ ?_
  · intro c₀ hc₀
    obtain rfl := Option.some.inj hc₀
    exact ⟨hk.flush_all, Coalescer.flush_all_lifecycle c⟩
  · intro x hx
    rcases hx with hx | hx | hx | hx
    · exact absurd hx List.not_mem_nil
    · exact .inr (.inr (.inr ⟨c, hc, Coalescer.mem_flush_all.mp (List.mem_filter.mp hx).1⟩))
    · exact absurd hx List.not_mem_nil
    · obtain ⟨c₀, hc₀, hx⟩ := hx
      obtain rfl := Option.some.inj hc₀
      exact absurd hx (Coalescer.flush_all_waits c)

end

section
omit [DecidableEq H]

/-- A live subscription's own shed, with one event fewer held. -/
theorem Sound.parked (h : Sound G ⟨d, i, a, r⟩) (hev : (⟨d, i, a, r⟩ : Flight C V H).Holds ev)
    (hf : ∀ x, (⟨d.park_rescan ev.subscription, i', a', r'⟩ : Flight C V H).Holds x →
      x ∈ i ∨ x ∈ a ∨ x ∈ r ∨ (d.park_rescan ev.subscription).Waits x) :
    Sound G ⟨d.park_rescan ev.subscription, i', a', r'⟩ := by
  obtain ⟨⟨key, value, ha⟩, -⟩ := h.held ev hev
  rw [park_rescan_live ha.live] at hf ⊢
  exact h.shed ha.live hf

theorem Sound.emitted (h : Sound G ⟨d, i, ev :: a, r⟩) : Sound G ⟨d.try_emit ev, i, a, r⟩ := by
  have hev : (⟨d, i, ev :: a, r⟩ : Flight C V H).Holds ev := .inr (.inl List.mem_cons_self)
  obtain ⟨⟨key, value, ha⟩, he⟩ := h.held ev hev
  -- what is left in hand was in hand
  have left : ∀ (d' : Delivery C V H) (x : Event C V), (⟨d', i, a, r⟩ : Flight C V H).Holds x →
      x ∈ i ∨ x ∈ ev :: a ∨ x ∈ r ∨ d'.Waits x :=
    fun d' x hx => hx.imp_right fun hx => hx.imp_left (List.mem_cons_of_mem ev)
  have hemits := try_emit_emits d ev
  generalize d.try_emit ev = d' at hemits ⊢
  cases hemits with
  | @sent events ho hsend =>
    obtain ⟨rfl, -⟩ := BoundedChannel.try_send_accepted hsend
    have hone : Sound G ⟨d, i, a, r⟩ := h.carried fun x hx => left d x hx
    refine ⟨hone.live, hone.minted, hone.kept, ?_, hone.owed, hone.claimed, hone.unclaimed, ?_,
      hone.bounded⟩
    · intro x hx
      obtain ⟨⟨key, value, hx⟩, he⟩ := hone.held x hx
      exact ⟨⟨key, value, hx.live, hx.inside, hx.value⟩, he⟩
    · intro x hx
      -- the stream is now one longer
      rcases List.mem_append.mp hx with hx | hx
      · exact h.sent x hx
      · rw [List.mem_singleton.mp hx]
        exact ⟨key, value, h.live _ _ ha.live, ha.inside, ha.value⟩
  | closed hc => exact h.carried fun x hx => left d x hx
  | parked hr =>
    have ho := owing_park_event d ev
    rw [ha.value] at ho
    refine h.owing ho ha.live ?_ (Nat.le_trans he (ho.marks _)) (left _)
    intro k hk
    rw [List.mem_singleton.mp hk]
    exact ha.inside ev.key List.mem_cons_self
  | widened ho hr =>
    obtain ⟨epoch, -, ho, hle, -⟩ := owing_widen d ev ho
    rw [ha.value] at ho
    exact h.owing ho ha.live ha.inside hle (left _)
  | shed ho hr => exact h.parked hev (left _)

end

section
omit [LawfulEqOrd C] [DecidableEq C] [DecidableEq H]

theorem Sound.erased (h : Sound G ⟨d, i, a, r⟩) (s : Subscription) :
    Sound G ⟨{ d with needs_rescan := d.needs_rescan.erase s }, i, a, r⟩ := by
  have hsub : ∀ (t : Subscription) (q : ParkedRescan C V),
      (d.needs_rescan.erase s)[t]? = some q → d.needs_rescan[t]? = some q := by
    intro t q hq
    rw [get_erase] at hq
    split at hq
    · cases hq
    · exact hq
  refine { h with held := ?_, owed := ?_, claimed := ?_ }
  · intro x hx
    obtain ⟨⟨key, value, hx⟩, he⟩ := h.held x hx
    exact ⟨⟨key, value, hx.live, hx.inside, hx.value⟩, he⟩
  · intro t q hq
    exact h.owed t q (hq.imp_left (hsub t q))
  · intro t q hq
    exact h.claimed t q (hsub t q hq)

theorem Sound.published {q : ParkedRescan C V} {events : BoundedChannel (Event C V)}
    (h : Sound G ⟨d, i, a, r⟩) (hq : d.needs_rescan[s]? = some q)
    (ha : d.events.try_send (q.offer s) = .accepted events) :
    Sound G ⟨{ d with events, needs_rescan := d.needs_rescan.erase s }, i, a, r⟩ := by
  obtain ⟨rfl, -⟩ := BoundedChannel.try_send_accepted ha
  have hone := h.erased s
  refine ⟨hone.live, hone.minted, hone.kept, ?_, hone.owed, hone.claimed, hone.unclaimed, ?_,
    hone.bounded⟩
  · intro x hx
    obtain ⟨⟨key, value, hx⟩, he⟩ := hone.held x hx
    exact ⟨⟨key, value, hx.live, hx.inside, hx.value⟩, he⟩
  · intro x hx
    rcases List.mem_append.mp hx with hx | hx
    · exact h.sent x hx
    · rw [List.mem_singleton.mp hx]
      -- the offered `Rescan` is read off the debt, whose place the invariant tells
      obtain ⟨key, value, hg, hk, hv, -⟩ := h.owed s q (.inl hq)
      refine ⟨key, value, hg, ?_, hv⟩
      intro spot hm
      have hm : spot ∈ [q.key] := hm
      rw [List.mem_singleton.mp hm]
      exact hk

end

section
omit [DecidableEq H]

/-- Every move keeps the invariant. -/
theorem Sound.move {act : Act C V} (h : Sound G F) (hm : Move act F F') : Sound G F' := by
  cases hm with
  | quiet hq => exact h.quiet hq
  | mint hd hs => exact h.stamped hd hs
  | rebase hd hs hr hk =>
    exact (h.dropped _).stamped ⟨hd.live, hd.inside, hd.value⟩ hs
  | shed hg => exact h.shed hg fun x hx => hx
  | take hc => exact h.taken hc
  | pass hp =>
    refine h.carried fun x hx => ?_
    rcases hx with hx | hx | hx
    · exact .inl (by grind)
    · rcases List.mem_append.mp hx with hx | hx
      · exact .inr (.inl hx)
      · exact .inl (by grind)
    · exact .inr (.inr hx)
  | drain hc hd => exact h.drained hc hd
  | overflow =>
    refine h.parked (.inr (.inr (.inl List.mem_cons_self))) ?_
    intro x hx
    exact hx.imp_right fun hx => hx.imp_right fun hx => hx.imp_left (List.mem_cons_of_mem _)
  | emit => exact h.emitted
  | publish hq ha hair => exact h.published hq ha
  | discard hc => exact h.erased _
  | flush hc => exact h.flushed hc _
  | tail hc => exact h.tailed hc

end

/-- So does every stretch of a turn. -/
theorem Sound.path {P : Act C V → Prop} (h : Sound G F) (hp : Path P F F') : Sound G F' := by
  induction hp with
  | refl => exact h
  | tail _ hm ih =>
    -- which move it was does not matter
    obtain ⟨act, -, hm⟩ := hm
    exact ih.move hm

end Delivery

end Umbrella
