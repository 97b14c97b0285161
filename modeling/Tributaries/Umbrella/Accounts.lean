import Tributaries.Umbrella.Effects

/-! # No change is lost silently

  A change that the owner takes on is accounted for from then on: it was
  delivered, it is still held, or a `Rescan` that is owed, held or delivered
  stands in for it; a later change of the same slot may stand in its place.
  The one move that undoes an account is a `Removed` that meets the `Created`
  of its slot before it was told.
-/

open Std Collections

namespace Umbrella

open Proto (Epoch u64Max)

namespace Delivery

variable {C V H : Type} [Ord C] [TransOrd C] [LawfulEqOrd C] [DecidableEq C] [DecidableEq H]
  {G : Subscription → Option (List C × V)} {F F' F'' : Flight C V H} {d d' : Delivery C V H}
  {i a r i' a' r' : List (Event C V)} {s : Subscription} {x y z ev : Event C V} {act : Act C V} {n : Nat}

/-! ### Accounts -/

/-- The coalescer folded `x` and another change of its slot into `y`. -/
inductive Merged (x : Event C V) : Event C V → Prop
  /-- `x` settled when the other came. -/
  | settled {ev y : Event C V} (hs : x.slot = ev.slot)
    (hl : x.kind.is_lifecycle = true ∧ ev.kind.is_lifecycle = true)
    (he : x.epoch.as_u64 ≤ ev.epoch.as_u64) (hf : Coalescer.Folds x ev y) : Merged x y
  /-- The other settled when `x` came. -/
  | came {old y : Event C V} (hs : old.slot = x.slot)
    (hl : old.kind.is_lifecycle = true ∧ x.kind.is_lifecycle = true)
    (he : old.epoch.as_u64 ≤ x.epoch.as_u64) (hf : Coalescer.Folds old x y) : Merged x y

/-- `y` stands in the place of `x`: it is `x`, or what the coalescer's folds made of it. -/
def StandsIn (y x : Event C V) : Prop := Relation.ReflTransGen Merged x y

/-- What stands in the place of `x` is held, or was delivered after the stream's first `n`
    events, or the consumer is gone. -/
def Flight.Carried (F : Flight C V H) (n : Nat) (x : Event C V) : Prop :=
  F.d.events.closed = true ∨ ∃ y, StandsIn y x ∧ (y ∈ F.d.events.sent.drop n ∨ F.Holds y)

/-- A `Rescan` that covers `x` is owed or held, or was delivered after the stream's first
    `n` events. -/
def Flight.Covered (F : Flight C V H) (n : Nat) (x : Event C V) : Prop :=
  (∃ q, F.d.Owed x.subscription q ∧ Covers q.key q.epoch x) ∨
    ∃ r : Event C V, r.is_rescan = true ∧ r.subscription = x.subscription ∧
      Covers r.key r.epoch x ∧ (r ∈ F.d.events.sent.drop n ∨ F.Holds r)

/-- What became of a change taken on when the stream had had `n` events: the consumer is
    gone, or what stands in its place was delivered since, is held, or is covered. -/
def Flight.Accounted (F : Flight C V H) (n : Nat) (x : Event C V) : Prop :=
  F.d.events.closed = true ∨
    ∃ y, StandsIn y x ∧ (y ∈ F.d.events.sent.drop n ∨ F.Holds y ∨ F.Covered n y)

/-- The moves that take a change out of the account. -/
inductive Exempt (act : Act C V) (F : Flight C V H) (x : Event C V) : Prop
  /-- A `Removed` met the `Created` of the slot before it was told. -/
  | cancelled {old ev : Event C V} (ha : act = .offer ev) (hold : F.d.Waits old)
    (hk : old.kind = .created) (he : ev.kind = .removed) (hs : old.slot = ev.slot)
    (hx : x.slot = ev.slot) (hl : x.kind.is_lifecycle = true)
  /-- The teardown pass drops the tail of a subscription that is owed a `Rescan`. -/
  | tail (ha : act = .tail) (ho : F.d.owes x.subscription = true)

/-- How a move loses what it held of `s`: both clocks of the loss move, or the subscription
    is told that it was moved to another root. -/
inductive Loses (s : Subscription) (act : Act C V) (F F' : Flight C V H) : Prop
  | noted (hs : F.d.loss_count s < F'.d.loss_count s) (hg : F.d.loss_gen < F'.d.loss_gen)
  | rebased {ev : Event C V} (ha : act = .rebase ev) (hs : ev.subscription = s)

/-- What a move makes of a change that is held. -/
inductive Fate (n : Nat) (act : Act C V) (F F' : Flight C V H) (x : Event C V) : Prop
  | carried (h : F'.Carried n x)
  | covered (h : F'.Covered n x) (hl : Loses x.subscription act F F')
  | exempt (h : Exempt act F x)

section
omit [Ord C] [TransOrd C] [LawfulEqOrd C] [DecidableEq C]

/-- What a fold keeps of either of the two. -/
theorem Merged.same (h : Merged x y) : y.slot = x.slot ∧ x.kind.is_lifecycle = true ∧
    y.kind.is_lifecycle = true ∧ x.epoch.as_u64 ≤ y.epoch.as_u64 := by
  cases h with
  | settled hs hl he hf =>
    obtain ⟨hslot, hlife, hepoch, -⟩ := folds_from hs hl hf
    exact ⟨hslot.trans hs.symm, hl.1, hlife, hepoch ▸ he⟩
  | came hs hl he hf =>
    obtain ⟨hslot, hlife, hepoch, -⟩ := folds_from hs hl hf
    exact ⟨hslot, hl.2, hlife, Nat.le_of_eq (congrArg Epoch.as_u64 hepoch.symm)⟩

theorem StandsIn.refl (x : Event C V) : StandsIn x x := Relation.ReflTransGen.refl

theorem StandsIn.trans (h₁ : StandsIn z y) (h₂ : StandsIn y x) : StandsIn z x :=
  Relation.ReflTransGen.trans h₂ h₁

/-- What stands in the place of a change has its slot, and a stamp no earlier. -/
theorem StandsIn.same (h : StandsIn y x) : y = x ∨ y.slot = x.slot ∧ x.kind.is_lifecycle = true ∧
    y.kind.is_lifecycle = true ∧ x.epoch.as_u64 ≤ y.epoch.as_u64 := by
  induction h with
  | refl => exact .inl rfl
  | tail _ hm ih =>
    obtain ⟨hs, hy, hz, he⟩ := hm.same
    rcases ih with rfl | ⟨hs', hx, -, he'⟩
    · exact .inr ⟨hs, hy, hz, he⟩
    · exact .inr ⟨hs.trans hs', hx, hz, Nat.le_trans he' he⟩

theorem not_lifecycle (hr : x.is_rescan = true) : ¬ x.kind.is_lifecycle = true := by
  unfold Event.is_rescan EventKind.is_rescan at hr
  unfold EventKind.is_lifecycle
  cases hk : x.kind with
  | rescan =>
    intro hl
    cases hl
  | _ =>
    rw [hk] at hr
    cases hr

/-- Only itself stands in for a `Rescan`. -/
theorem StandsIn.of_rescan (h : StandsIn y x) (hr : x.is_rescan = true) : y = x := by
  rcases h.same with h | ⟨-, hl, -⟩
  · exact h
  · exact absurd hl (not_lifecycle hr)

theorem StandsIn.subscription (h : StandsIn y x) : y.subscription = x.subscription := by
  rcases h.same with rfl | ⟨hs, -⟩
  · rfl
  · exact congrArg Prod.fst hs

end

section
omit [LawfulEqOrd C] [DecidableEq C] [DecidableEq H]

theorem Exempt.stands_in (h : Exempt act F y) (hs : StandsIn y x) : Exempt act F x := by
  cases h with
  | cancelled ha hold hk he hs' hx hl =>
    rcases hs.same with rfl | ⟨hslot, hl', -, -⟩
    · exact .cancelled ha hold hk he hs' hx hl
    · exact .cancelled ha hold hk he hs' (hslot.symm.trans hx) hl'
  | tail ha ho => exact .tail ha (hs.subscription ▸ ho)

theorem carried_held (h : F.Holds x) : F.Carried n x := .inr ⟨x, .refl x, .inr h⟩

theorem carried_sent (h : x ∈ F.d.events.sent.drop n) : F.Carried n x := .inr ⟨x, .refl x, .inl h⟩

theorem Flight.Carried.accounted (h : F.Carried n x) : F.Accounted n x :=
  h.imp_right fun ⟨y, hy, hf⟩ => ⟨y, hy, hf.imp_right .inl⟩

theorem accounted_sent (h : x ∈ F.d.events.sent.drop n) : F.Accounted n x :=
  .inr ⟨x, .refl x, .inl h⟩

theorem accounted_covered (h : F.Covered n x) : F.Accounted n x :=
  .inr ⟨x, .refl x, .inr (.inr h)⟩

end

/-- What is sent now was sent since. -/
theorem mem_drop_concat {α : Type} {l : List α} {n : Nat} (h : n ≤ l.length) (x : α) :
    x ∈ (l ++ [x]).drop n := by
  rw [List.drop_append_of_le_length h]
  exact List.mem_append_right _ (List.mem_singleton.mpr rfl)

/-! ### What moves keep of the buffer -/

section
omit [DecidableEq H]

/-- Owing more drops nothing of another subscription. -/
theorem Owing.waits_forth {covers : List (List C)} {epoch : Epoch} {value : Option V}
    (ho : Owing d d' s covers epoch value) (h : Sound G ⟨d, i, a, r⟩) (hx : d.Waits x) :
    d'.Waits x ∨ x.subscription = s ∧
      d'.coalescer = d.coalescer.map fun c => c.drop_subscription s := by
  obtain ⟨c, hc, hw⟩ := hx
  rcases ho.coalescer with he | he
  · exact .inl ⟨c, he.trans hc, hw⟩
  · by_cases hs : x.subscription = s
    · exact .inr ⟨hs, he⟩
    · refine .inl ⟨c.drop_subscription s, ?_, ?_⟩
      · rw [he, hc]
        rfl
      · exact (Coalescer.drop_waits (h.kept c hc).1 s).mpr ⟨hw, hs⟩

theorem Owing.waits_back {covers : List (List C)} {epoch : Epoch} {value : Option V}
    (ho : Owing d d' s covers epoch value) (h : Sound G ⟨d, i, a, r⟩) (hx : d'.Waits x) :
    d.Waits x := by
  obtain ⟨c, hc, hw⟩ := hx
  rcases ho.coalescer with he | he
  · exact ⟨c, he.symm.trans hc, hw⟩
  · obtain ⟨c₀, hc₀, rfl⟩ := Option.map_eq_some_iff.mp (he.symm.trans hc)
    exact ⟨c₀, hc₀, ((Coalescer.drop_waits (h.kept c₀ hc₀).1 s).mp hw).1⟩

end

section
omit [LawfulEqOrd C] [DecidableEq C] [DecidableEq H]

/-- What was owed is owed still, at a key above and an epoch no lower. -/
theorem Owing.owed_forth {covers : List (List C)} {epoch : Epoch} {value : Option V}
    {t : Subscription} {q : ParkedRescan C V} (ho : Owing d d' s covers epoch value) (hq : d.Owed t q) :
    ∃ q', d'.Owed t q' ∧ q'.key <+: q.key ∧ q.epoch.as_u64 ≤ q'.epoch.as_u64 := by
  have plane : ∀ p p' : ParkedRescans C V, Widens p p' s covers epoch value → p[t]? = some q →
      ∃ q', p'[t]? = some q' ∧ q'.key <+: q.key ∧ q.epoch.as_u64 ≤ q'.epoch.as_u64 := by
    intro p p' hw hp
    by_cases ht : t = s
    · subst ht
      exact hw.forth q hp
    · exact ⟨q, (hw.others t ht).trans hp, List.prefix_rfl, Nat.le_refl _⟩
  rcases hq with hq | hq
  · obtain ⟨q', hq', hk, he⟩ := plane _ _ ho.needs hq
    exact ⟨q', .inl hq', hk, he⟩
  · obtain ⟨q', hq', hk, he⟩ := plane _ _ ho.suppressed hq
    exact ⟨q', .inr hq', hk, he⟩

end

section
omit [LawfulEqOrd C] [DecidableEq H]

/-- A change at or below the key of a shed subscription is covered by what is owed. -/
theorem shed_covers {key : List C} {value : V} (h : Sound G ⟨d, i, a, r⟩)
    (hg : d.grant_of x.subscription = some (key, value)) (hx : (⟨d, i, a, r⟩ : Flight C V H).Holds x)
    (i' a' r' : List (Event C V)) :
    (⟨d.shed_whole x.subscription key (some value), i', a', r'⟩ : Flight C V H).Covered n x := by
  obtain ⟨⟨key', value', ha⟩, he⟩ := h.held x hx
  -- the shed is at the key of the grant, above every place of the change
  obtain ⟨rfl, rfl⟩ := Prod.mk.inj (Option.some.inj (hg.symm.trans ha.live))
  obtain ⟨epoch, habove, ho, -, -⟩ := owing_shed d x.subscription key (some value)
  obtain ⟨q, hq, hk, hle⟩ := ho.owed
  refine .inl ⟨q, hq, ?_, ?_⟩
  · intro spot hm
    exact (hk key (List.mem_singleton.mpr rfl)).trans (ha.inside spot hm)
  · have he : x.epoch.as_u64 ≤ d.mark x.subscription := he
    -- its epoch is above the mark, unless the counter is at its end
    rcases habove with hlt | hcap
    · exact .inl (by omega)
    · exact .inr (.inl (by omega))

end

section
omit [LawfulEqOrd C] [DecidableEq C] [DecidableEq H]

/-- Owing more notes the loss on both clocks. -/
theorem Owing.noted {covers : List (List C)} {epoch : Epoch} {value : Option V}
    (ho : Owing d d' s covers epoch value) :
    d.loss_count s < d'.loss_count s ∧ d.loss_gen < d'.loss_gen := by
  rw [ho.serial, if_pos rfl, ho.gen]
  exact ⟨Nat.lt_succ_self _, Nat.lt_succ_self _⟩

end

section
omit [DecidableEq H]

/-- What a shed drops it covers, and notes. -/
theorem shed_fate {key : List C} {value : V} (h : Sound G ⟨d, i, a, r⟩)
    (hg : d.grant_of s = some (key, value)) (hx : d.Waits x) (i' a' r' : List (Event C V)) :
    Fate n act ⟨d, i, a, r⟩ ⟨d.shed_whole s key (some value), i', a', r'⟩ x := by
  obtain ⟨epoch, -, ho, -, -⟩ := owing_shed d s key (some value)
  rcases ho.waits_forth h hx with hw | ⟨hs, -⟩
  · exact .carried (carried_held (.inr (.inr (.inr hw))))
  · subst hs
    exact .covered (shed_covers h hg (.inr (.inr (.inr hx))) i' a' r') (.noted ho.noted.1 ho.noted.2)

end

/-! ### The order of stamps -/

/-- What is still to be pushed was stamped no earlier than what settles. -/
structure Flight.Sorted (F : Flight C V H) : Prop where
  inbox : F.inbox.Pairwise fun x y => x.subscription = y.subscription →
    x.epoch.as_u64 ≤ y.epoch.as_u64
  waiting : ∀ x y, F.d.Waits x → y ∈ F.inbox → x.subscription = y.subscription →
    x.epoch.as_u64 ≤ y.epoch.as_u64

section
omit [LawfulEqOrd C] [DecidableEq C] [DecidableEq H]

theorem Flight.Sorted.fewer (h : F.Sorted) (hi : F'.inbox.Sublist F.inbox)
    (hw : ∀ x, F'.d.Waits x → F.d.Waits x) : F'.Sorted where
  inbox := h.inbox.sublist hi
  waiting x y hx hy := h.waiting x y (hw x hx) (hi.subset hy)

/-- A stamp is no lower than those before it. -/
theorem Stamped.above_held {epochs : EpochLedger} (hs : Stamped d.epochs ev epochs)
    (h : Sound G ⟨d, i, a, r⟩) (hx : (⟨d, i, a, r⟩ : Flight C V H).Holds x)
    (he : x.subscription = ev.subscription) : x.epoch.as_u64 ≤ ev.epoch.as_u64 := by
  have hx : x.epoch.as_u64 ≤ d.mark x.subscription := (h.held x hx).2
  rw [he] at hx
  have hb : d.mark ev.subscription ≤ u64Max := h.bounded _
  -- at the end of the counter every stamp is the cap, which bounds the marks
  rcases hs.floor with hf | hf
  · exact Nat.le_trans hx hf
  · exact Nat.le_trans hx (Nat.le_trans hb hf)

theorem Flight.Sorted.minted {epochs : EpochLedger} (hs : Stamped d.epochs ev epochs)
    (h : Sound G ⟨d, i, a, r⟩) (ho : (⟨d, i, a, r⟩ : Flight C V H).Sorted)
    (hw : ∀ x, d'.Waits x → d.Waits x) : (⟨d', i ++ [ev], a, r⟩ : Flight C V H).Sorted where
  inbox := by
    refine List.pairwise_append.mpr ⟨ho.inbox, List.pairwise_singleton _ _, ?_⟩
    intro x hx y hy he
    rw [List.mem_singleton.mp hy] at he ⊢
    exact hs.above_held h (.inl hx) he
  waiting x y hx hy he := by
    rcases List.mem_append.mp hy with hy | hy
    · exact ho.waiting x y (hw x hx) hy he
    · rw [List.mem_singleton.mp hy] at he ⊢
      exact hs.above_held h (.inr (.inr (.inr (hw x hx)))) he

end

section
omit [DecidableEq H]

theorem park_waits_back (h : Sound G ⟨d, i, a, r⟩) (hev : (⟨d, i, a, r⟩ : Flight C V H).Holds ev)
    (hx : (d.park_rescan ev.subscription).Waits x) : d.Waits x := by
  obtain ⟨⟨key, value, ha⟩, -⟩ := h.held ev hev
  rw [park_rescan_live ha.live] at hx
  obtain ⟨epoch, -, ho, -, -⟩ := owing_shed d ev.subscription key (some value)
  exact ho.waits_back h hx

theorem emit_waits_back (h : Sound G ⟨d, i, ev :: a, r⟩) (hx : (d.try_emit ev).Waits x) :
    d.Waits x := by
  have hemits := try_emit_emits d ev
  generalize d.try_emit ev = d' at hemits hx
  cases hemits with
  | sent ho hsend => exact hx
  | closed hc => exact hx
  | parked hr => exact (owing_park_event d ev).waits_back h hx
  | widened ho hr =>
    obtain ⟨epoch, -, ho, -, -⟩ := owing_widen d ev ho
    exact ho.waits_back h hx
  | shed ho hr => exact park_waits_back h (.inr (.inl List.mem_cons_self)) hx

theorem drop_waits_back (h : Sound G ⟨d, i, a, r⟩) (hx : (d.drop_buffered s).Waits x) :
    d.Waits x := by
  obtain ⟨c', hc, hw⟩ := hx
  obtain ⟨c, hc₀, rfl⟩ := Option.map_eq_some_iff.mp hc
  exact ⟨c, hc₀, ((Coalescer.drop_waits (h.kept c hc₀).1 s).mp hw).1⟩

/-- Every move keeps the order. -/
theorem Flight.Sorted.move (ho : F.Sorted) (h : Sound G F) (hm : Move act F F') : F'.Sorted := by
  cases hm with
  | @quiet d d' i a r hq =>
    refine ho.fewer (List.Sublist.refl _) fun x hx => ?_
    obtain ⟨c, hc, hw⟩ := hx
    exact ⟨c, hq.coalescer.symm.trans hc, hw⟩
  | mint hd hs => exact .minted hs h ho fun x hx => hx
  | rebase hd hs hr hk => exact .minted hs h ho fun x hx => drop_waits_back h hx
  | @shed d i a r s key value hg =>
    obtain ⟨epoch, -, how, -, -⟩ := owing_shed d s key (some value)
    exact ho.fewer (List.Sublist.refl _) fun x hx => how.waits_back h hx
  | @take d i a r ev c far hc =>
    obtain ⟨hhead, hi⟩ := List.pairwise_cons.mp ho.inbox
    refine ⟨hi, fun x y hx hy he => ?_⟩
    rcases taken_waits h hc hx with hx | rfl | ⟨old, hold, hm, hf⟩
    · exact ho.waiting x y hx (List.mem_cons_of_mem ev hy) he
    · exact hhead y hy he
    · obtain ⟨hslot, -, hepoch, -⟩ := folds_from hm.slot hm.lifecycle hf
      rw [hepoch]
      exact hhead y hy ((congrArg Prod.fst hslot).symm.trans he)
  | pass hp => exact ho.fewer (by simp) fun x hx => hx
  | @drain d i a r c c' out hc hd =>
    refine ho.fewer (List.Sublist.refl _) fun x hx => ?_
    obtain ⟨hk, hl⟩ := h.kept c hc
    obtain ⟨out', c'', hd', -, -, -, hw⟩ := Coalescer.drain_waits hk (Nat.le_refl _)
    obtain ⟨rfl, rfl⟩ := Prod.mk.inj (Option.some.inj (hd.symm.trans hd'))
    obtain ⟨c₀, hc₀, hx⟩ := hx
    obtain rfl := Option.some.inj hc₀
    exact ⟨c, hc, (hw x).mpr (.inl hx)⟩
  | overflow =>
    exact ho.fewer (List.Sublist.refl _) fun x hx =>
      park_waits_back h (.inr (.inr (.inl List.mem_cons_self))) hx
  | emit => exact ho.fewer (List.Sublist.refl _) fun x hx => emit_waits_back h hx
  | publish hq ha hair => exact ho.fewer (List.Sublist.refl _) fun x hx => hx
  | discard hc => exact ho.fewer (List.Sublist.refl _) fun x hx => hx
  | @flush d i a r c s hc =>
    refine ho.fewer (List.Sublist.refl _) fun x hx => ?_
    obtain ⟨c₀, hc₀, hx⟩ := hx
    obtain rfl := Option.some.inj hc₀
    exact ⟨c, hc, (Coalescer.flush_waits (h.kept c hc).1 s d.clock).mp hx⟩
  | tail hc => exact ⟨List.Pairwise.nil, fun x y hx hy => absurd hy List.not_mem_nil⟩

end

/-! ### One move -/

section
omit [LawfulEqOrd C] [DecidableEq C] [DecidableEq H]

/-- Only what is in hand changes; what settles and what is owed stays. -/
theorem fate_in_hand (hx : (⟨d, i, a, r⟩ : Flight C V H).Holds x)
    (hf : x ∈ i ∨ x ∈ a ∨ x ∈ r → (⟨d', i', a', r'⟩ : Flight C V H).Holds x)
    (hw : d.Waits x → Fate n act ⟨d, i, a, r⟩ ⟨d', i', a', r'⟩ x) :
    Fate n act ⟨d, i, a, r⟩ ⟨d', i', a', r'⟩ x := by
  rcases hx with hx | hx | hx | hx
  · exact .carried (carried_held (hf (.inl hx)))
  · exact .carried (carried_held (hf (.inr (.inl hx))))
  · exact .carried (carried_held (hf (.inr (.inr hx))))
  · exact hw hx

end

section
omit [DecidableEq H]

theorem taken_fate {c : Coalescer C V} {far : Instant} (h : Sound G ⟨d, ev :: i, a, r⟩)
    (ho : (⟨d, ev :: i, a, r⟩ : Flight C V H).Sorted) (hc : d.coalescer = some c)
    (hx : (⟨d, ev :: i, a, r⟩ : Flight C V H).Holds x) :
    (⟨{ d with coalescer := some (c.admit_event ev d.clock far).2 }, i, a,
      r ++ (c.admit_event ev d.clock far).1.toList.map fun _ => ev⟩ : Flight C V H).Carried n x ∨
      Exempt (.offer ev) ⟨d, ev :: i, a, r⟩ x := by
  obtain ⟨hk, hl⟩ := h.kept c hc
  have ha := Coalescer.admit_admits hk hl ev d.clock far
  generalize c.admit_event ev d.clock far = result at ha ⊢
  obtain ⟨refused, c'⟩ := result
  -- a change that met the one of its slot
  have merged : ∀ old : Event C V, c.Waits old → c'.Merges old ev → ∀ x : Event C V,
      x = old ∨ x = ev →
      (⟨{ d with coalescer := some c' }, i, a, r ++ refused.toList.map fun _ => ev⟩ :
        Flight C V H).Carried n x ∨ Exempt (.offer ev) ⟨d, ev :: i, a, r⟩ x := by
    intro old hold hm x hx
    have hle : old.epoch.as_u64 ≤ ev.epoch.as_u64 :=
      ho.waiting old ev ⟨c, hc, hold⟩ List.mem_cons_self (congrArg Prod.fst hm.slot)
    rcases hm.result with ⟨y, hy, hf⟩ | ⟨hk, he⟩
    · have hmerged : Merged x y := by
        rcases hx with rfl | rfl
        · exact .settled hm.slot hm.lifecycle hle hf
        · exact .came hm.slot hm.lifecycle hle hf
      exact .inl (.inr ⟨y, .single hmerged, .inr (.inr (.inr (.inr ⟨c', rfl, hy⟩)))⟩)
    · have hslot : x.slot = ev.slot ∧ x.kind.is_lifecycle = true := by
        rcases hx with rfl | rfl
        · exact ⟨hm.slot, hm.lifecycle.1⟩
        · exact ⟨rfl, hm.lifecycle.2⟩
      exact .inr (.cancelled rfl ⟨c, hc, hold⟩ hk he hm.slot hslot.1 hslot.2)
  rcases hx with hx | hx | hx | hx
  · rcases List.mem_cons.mp hx with rfl | hx
    -- the newcomer: refused at the cap, or taken, or met by the one of its slot
    · cases refused with
      | some s =>
        refine .inl (carried_held (.inr (.inr (.inl ?_))))
        exact List.mem_append_right _ (List.mem_singleton.mpr rfl)
      | none =>
        rcases ha.taken rfl with hw | ⟨old, hold, hm⟩
        · exact .inl (carried_held (.inr (.inr (.inr ⟨c', rfl, hw⟩))))
        · exact merged old hold hm x (.inr rfl)
    · exact .inl (carried_held (.inl hx))
  · exact .inl (carried_held (.inr (.inl hx)))
  · exact .inl (carried_held (.inr (.inr (.inl (List.mem_append_left _ hx)))))
  · obtain ⟨c₀, hc₀, hw⟩ := hx
    obtain rfl := Option.some.inj (hc.symm.trans hc₀)
    -- one that settles: it stays, or it is the one the newcomer met
    rcases ha.forth x hw with hw | ⟨-, hm⟩
    · exact .inl (carried_held (.inr (.inr (.inr ⟨c', rfl, hw⟩))))
    · exact merged x hw hm x (.inl rfl)

theorem emitted_fate (h : Sound G ⟨d, i, ev :: a, r⟩) (hn : n ≤ d.events.sent.length)
    (hx : (⟨d, i, ev :: a, r⟩ : Flight C V H).Holds x) :
    Fate n act ⟨d, i, ev :: a, r⟩ ⟨d.try_emit ev, i, a, r⟩ x := by
  have hev : (⟨d, i, ev :: a, r⟩ : Flight C V H).Holds ev := .inr (.inl List.mem_cons_self)
  obtain ⟨⟨key, value, ha⟩, he⟩ := h.held ev hev
  have he : ev.epoch.as_u64 ≤ d.mark ev.subscription := he
  have hemits := try_emit_emits d ev
  generalize d.try_emit ev = d' at hemits ⊢
  by_cases hxe : x = ev
  · subst hxe
    -- each way an emission ends accounts for the event itself
    cases hemits with
    | @sent events ho hsend =>
      obtain ⟨rfl, -⟩ := BoundedChannel.try_send_accepted hsend
      exact .carried (carried_sent (mem_drop_concat hn x))
    | closed hc => exact .carried (.inl hc)
    | parked hr =>
      have ho := owing_park_event d x
      obtain ⟨q, hq, hk, hle⟩ := ho.owed
      refine .covered (.inl ⟨q, hq, ?_, .inr (.inr ⟨hr, hle⟩)⟩) (.noted ho.noted.1 ho.noted.2)
      intro spot hm
      rw [Event.spots_rescan hr] at hm
      exact hk spot hm
    | widened ho hr =>
      obtain ⟨epoch, habove, how, -, -⟩ := owing_widen d x ho
      obtain ⟨q, hq, hk, hle⟩ := how.owed
      refine .covered (.inl ⟨q, hq, hk, ?_⟩) (.noted how.noted.1 how.noted.2)
      rcases habove with hlt | hcap
      · exact .inl (by omega)
      · exact .inr (.inl (by omega))
    | shed ho hr =>
      -- a full stream sheds the subscription: its whole subtree is owed
      rw [park_rescan_live ha.live]
      obtain ⟨epoch, -, how, -, -⟩ := owing_shed d x.subscription key (some value)
      exact .covered (shed_covers h ha.live hev _ _ _) (.noted how.noted.1 how.noted.2)
  · -- any other stays in hand, or settles
    have hand : ∀ d' : Delivery C V H, x ∈ i ∨ x ∈ ev :: a ∨ x ∈ r →
        (⟨d', i, a, r⟩ : Flight C V H).Holds x := by
      intro d' hx
      rcases hx with hx | hx | hx
      · exact .inl hx
      · exact .inr (.inl ((List.mem_cons.mp hx).resolve_left hxe))
      · exact .inr (.inr (.inl hx))
    refine fate_in_hand hx (hand d') fun hw => ?_
    have kept : d'.coalescer = d.coalescer →
        Fate n act ⟨d, i, ev :: a, r⟩ ⟨d', i, a, r⟩ x := by
      intro hsame
      obtain ⟨c, hc, hw⟩ := hw
      exact .carried (carried_held (.inr (.inr (.inr ⟨c, hsame.trans hc, hw⟩))))
    cases hemits with
    | sent ho hsend => exact kept rfl
    | closed hc => exact kept rfl
    | parked hr =>
      apply kept
      obtain ⟨needs, suppressed, hm⟩ :=
        merge_owed_rest (d.note_loss ev.subscription) ev.subscription ev.key ev.epoch ev.value
      unfold park_rescan_event
      rw [hm]
      rfl
    | widened ho hr =>
      obtain ⟨epoch, -, how, -, hsame⟩ := owing_widen d ev ho
      exact kept hsame
    | shed ho hr =>
      rw [park_rescan_live ha.live]
      exact shed_fate h ha.live hw _ _ _

/-- What is held before a move is held or sent after it, or is covered and its loss noted. -/
theorem move_fate (h : Sound G F) (ho : F.Sorted) (hn : n ≤ F.d.events.sent.length)
    (hm : Move act F F') (hx : F.Holds x) :
    Fate n act F F' x := by
  have held : F'.Holds x → Fate n act F F' x := fun hx => .carried (carried_held hx)
  cases hm with
  | @quiet d d' i a r hq =>
    refine held (hx.imp_right fun hx => hx.imp_right fun hx => hx.imp_right fun hx => ?_)
    obtain ⟨c, hc, hw⟩ := hx
    exact ⟨c, hq.coalescer.trans hc, hw⟩
  | mint hd hs => exact held (hx.imp_left fun hx => List.mem_append_left _ hx)
  | @rebase d i a r ev key value epochs hd hs hr hk =>
    refine fate_in_hand hx (fun hx => ?_) fun hw => ?_
    · rcases hx with hx | hx | hx
      · exact .inl (List.mem_append_left _ hx)
      · exact .inr (.inl hx)
      · exact .inr (.inr (.inl hx))
    · by_cases hsub : x.subscription = ev.subscription
      · -- the `Rescan` that tells of the move covers what it drops
        obtain ⟨⟨key', value', ha⟩, he⟩ := h.held x hx
        have hlive := hd.live
        rw [← hsub] at hlive
        obtain ⟨rfl, rfl⟩ := Prod.mk.inj (Option.some.inj (hlive.symm.trans ha.live))
        have he : x.epoch.as_u64 ≤ d.mark x.subscription := he
        rw [hsub] at he
        have habove : d.mark ev.subscription < ev.epoch.as_u64 ∨ u64Max ≤ ev.epoch.as_u64 := hs.above hr
        refine .covered (.inr ⟨ev, hr, hsub.symm, ⟨?_, ?_⟩, .inr (.inl ?_)⟩)
          (.rebased rfl hsub.symm)
        · rw [hk]
          exact ha.inside
        · rcases habove with hlt | hcap
          · exact .inl (by omega)
          · exact .inr (.inl hcap)
        · exact List.mem_append_right _ (List.mem_singleton.mpr rfl)
      · obtain ⟨c, hc, hw⟩ := hw
        refine held (.inr (.inr (.inr ⟨c.drop_subscription ev.subscription, ?_, ?_⟩)))
        · show d.coalescer.map _ = _
          rw [hc]
          rfl
        · exact (Coalescer.drop_waits (h.kept c hc).1 _).mpr ⟨hw, hsub⟩
  | shed hg =>
    refine fate_in_hand hx (fun hx => ?_) fun hw => shed_fate h hg hw _ _ _
    exact hx.imp_right fun hx => hx.imp_right fun hx => .inl hx
  | take hc =>
    rcases taken_fate h ho hc hx with hf | he
    · exact .carried hf
    · exact .exempt he
  | pass hp =>
    refine held ?_
    rcases hx with hx | hx | hx
    · rcases List.mem_append.mp hx with hx | hx
      · exact .inl (List.mem_append_left _ hx)
      · rcases List.mem_cons.mp hx with rfl | hx
        · exact .inr (.inl (List.mem_append_right _ (List.mem_singleton.mpr rfl)))
        · exact .inl (List.mem_append_right _ hx)
    · exact .inr (.inl (List.mem_append_left _ hx))
    · exact .inr (.inr hx)
  | @drain d i a r c c' out hc hd =>
    obtain ⟨hk, hl⟩ := h.kept c hc
    obtain ⟨out', c'', hd', -, -, -, hw⟩ := Coalescer.drain_waits hk (Nat.le_refl _)
    obtain ⟨rfl, rfl⟩ := Prod.mk.inj (Option.some.inj (hd.symm.trans hd'))
    refine held ?_
    rcases hx with hx | hx | hx | hx
    · exact .inl hx
    · exact .inr (.inl (List.mem_append_left _ hx))
    · exact .inr (.inr (.inl hx))
    · obtain ⟨c₀, hc₀, hx⟩ := hx
      obtain rfl := Option.some.inj (hc.symm.trans hc₀)
      rcases (hw x).mp hx with hx | hx
      · exact .inr (.inr (.inr ⟨c', rfl, hx⟩))
      · exact .inr (.inl (List.mem_append_right _ hx))
  | @overflow d i a r ev =>
    have hev : (⟨d, i, a, ev :: r⟩ : Flight C V H).Holds ev := .inr (.inr (.inl List.mem_cons_self))
    obtain ⟨⟨key, value, ha⟩, -⟩ := h.held ev hev
    rw [park_rescan_live ha.live]
    by_cases hxe : x = ev
    · subst hxe
      obtain ⟨epoch, -, how, -, -⟩ := owing_shed d x.subscription key (some value)
      exact .covered (shed_covers h ha.live hev _ _ _) (.noted how.noted.1 how.noted.2)
    · refine fate_in_hand hx (fun hx => ?_) fun hw => shed_fate h ha.live hw _ _ _
      rcases hx with hx | hx | hx
      · exact .inl hx
      · exact .inr (.inl hx)
      · exact .inr (.inr (.inl ((List.mem_cons.mp hx).resolve_left hxe)))
  | emit => exact emitted_fate h hn hx
  | publish hq ha hair => exact held hx
  | discard hc => exact held hx
  | @flush d i a r c s hc =>
    refine held (hx.imp_right fun hx => hx.imp_right fun hx => hx.imp_right fun hx => ?_)
    obtain ⟨c₀, hc₀, hx⟩ := hx
    obtain rfl := Option.some.inj (hc.symm.trans hc₀)
    exact ⟨_, rfl, (Coalescer.flush_waits (h.kept c hc).1 s d.clock).mpr hx⟩
  | @tail d c hc =>
    rcases hx with hx | hx | hx | hx
    · exact absurd hx List.not_mem_nil
    · exact absurd hx List.not_mem_nil
    · exact absurd hx List.not_mem_nil
    -- the tail of a subscription that is owed a `Rescan` is dropped, and only that
    · by_cases ho : d.owes x.subscription = true
      · exact .exempt (.tail rfl ho)
      · obtain ⟨c₀, hc₀, hx⟩ := hx
        obtain rfl := Option.some.inj (hc.symm.trans hc₀)
        refine held (.inr (.inl (List.mem_filter.mpr ⟨Coalescer.mem_flush_all.mpr hx, ?_⟩)))
        simpa using ho

end

section
omit [LawfulEqOrd C] [DecidableEq C] [DecidableEq H]

theorem Fate.accounted (h : Fate n act F F' x) : F'.Accounted n x ∨ Exempt act F x := by
  cases h with
  | carried h => exact .inl h.accounted
  | covered h hl => exact .inl (accounted_covered h)
  | exempt h => exact .inr h

end

section
omit [LawfulEqOrd C] [DecidableEq H]

/-- The stream only grows, and a consumer that is gone stays gone. -/
theorem move_extends (h : Sound G F) (hm : Move act F F') :
    F.d.events.Extends F'.d.events := (move_effect h hm).grows

/-- What is owed stays owed, is delivered, or the consumer is gone. -/
theorem move_owed {q : ParkedRescan C V} (h : Sound G F) (hn : n ≤ F.d.events.sent.length)
    (hm : Move act F F') (hq : F.d.Owed s q) :
    F'.d.events.closed = true ∨
      (∃ q', F'.d.Owed s q' ∧ q'.key <+: q.key ∧ q.epoch.as_u64 ≤ q'.epoch.as_u64) ∨
      ∃ r ∈ F'.d.events.sent.drop n, r = q.offer s := by
  have he := move_effect h hm
  generalize F'.d = d' at he ⊢
  cases he with
  | calm hcalm =>
    refine .inr (.inl ⟨q, ?_, List.prefix_rfl, Nat.le_refl _⟩)
    unfold Owed
    rw [hcalm.needs, hcalm.suppressed]
    exact hq
  | owing hg hs ho => exact .inr (.inl (ho.owed_forth hq))
  | sent hev ho hs => exact .inr (.inl ⟨q, hq, List.prefix_rfl, Nat.le_refl _⟩)
  | @published t q' events hq' ha =>
    obtain ⟨rfl, -⟩ := BoundedChannel.try_send_accepted ha
    by_cases ht : t = s
    · subst ht
      -- the debt that was published is this one, for a subscription is owed in one plane
      rcases hq with hq | hq
      · obtain rfl := Option.some.inj (hq'.symm.trans hq)
        exact .inr (.inr ⟨_, mem_drop_concat hn _, rfl⟩)
      · -- the planes do not meet
        exact absurd (h.unclaimed t q hq) (h.claimed t q' hq')
    · refine .inr (.inl ⟨q, hq.imp_left fun hq => ?_, List.prefix_rfl, Nat.le_refl _⟩)
      show (F.d.needs_rescan.erase t)[s]? = some q
      rw [get_erase, if_neg ht]
      exact hq
  | discarded hc => exact .inl hc

end

section
omit [LawfulEqOrd C] [DecidableEq C] [DecidableEq H]

theorem Flight.Accounted.stands_in (h : F.Accounted n y) (hs : StandsIn y x) : F.Accounted n x := by
  rcases h with hc | ⟨z, hz, hf⟩
  · exact .inl hc
  · exact .inr ⟨z, hz.trans hs, hf⟩

/-- What covers a covering `Rescan` covers what it covers. -/
theorem Flight.Accounted.of_rescan {r : Event C V} (h : F.Accounted n r) (hr : r.is_rescan = true)
    (hs : r.subscription = x.subscription) (hx : Covers r.key r.epoch x) : F.Accounted n x := by
  rcases h with hc | ⟨y, hy, hf⟩
  · exact .inl hc
  -- a `Rescan` is never folded into another change
  · obtain rfl := hy.of_rescan hr
    rcases hf with hf | hf | hf
    · exact accounted_covered (.inr ⟨y, hr, hs, hx, .inl hf⟩)
    · exact accounted_covered (.inr ⟨y, hr, hs, hx, .inr hf⟩)
    · rcases hf with ⟨q, hq, hc⟩ | ⟨r', hr', hs', hc, hf⟩
      · exact accounted_covered (.inl ⟨q, hs ▸ hq, hc.trans hr hx⟩)
      · exact accounted_covered (.inr ⟨r', hr', hs'.trans hs, hc.trans hr hx, hf⟩)

end

/-- An account stays open, but for the moves that are exempt. -/
theorem Flight.Accounted.move (hx : F.Accounted n x) (h : Sound G F) (ho : F.Sorted)
    (hn : n ≤ F.d.events.sent.length) (hm : Move act F F') :
    F'.Accounted n x ∨ Exempt act F x := by
  obtain ⟨hsent, hclosed⟩ := move_extends h hm
  have hsince : F.d.events.sent.drop n ⊆ F'.d.events.sent.drop n := (hsent.drop n).subset
  rcases hx with hc | ⟨y, hy, hf⟩
  · exact .inl (.inl (hclosed hc))
  · -- what becomes of `y` becomes of `x`
    suffices hyf : F'.Accounted n y ∨ Exempt act F y by
      exact hyf.imp (fun h => h.stands_in hy) fun h => h.stands_in hy
    rcases hf with hf | hf | hf
    · exact .inl (accounted_sent (hsince hf))
    · exact (move_fate h ho hn hm hf).accounted
    · rcases hf with ⟨q, hq, hc⟩ | ⟨r, hr, hs, hc, hf⟩
      · rcases move_owed h hn hm hq with hg | ⟨q', hq', hk, he⟩ | ⟨_, hr, rfl⟩
        · exact .inl (.inl hg)
        · exact .inl (accounted_covered (.inl ⟨q', hq', hc.widen hk he⟩))
        · exact .inl (accounted_covered (.inr ⟨q.offer y.subscription, rfl, rfl, hc, .inl hr⟩))
      · rcases hf with hf | hf
        · exact .inl (accounted_covered (.inr ⟨r, hr, hs, hc, .inl (hsince hf)⟩))
        · rcases (move_fate h ho hn hm hf).accounted with hf | he
          · exact .inl (hf.of_rescan hr hs hc)
          · -- a `Rescan` cancels with nothing
            cases he with
            | cancelled ha hold hk he hs' hx hl => exact absurd hl (not_lifecycle hr)
            | tail ha ho => exact .inr (.tail ha (hs ▸ ho))

/-! ### A stretch of a turn -/

theorem Flight.Sorted.path {P : Act C V → Prop} (ho : F.Sorted) (h : Sound G F) (hp : Path P F F') :
    F'.Sorted := by
  induction hp with
  | refl => exact ho
  | tail hp hm ih =>
    obtain ⟨act, -, hm⟩ := hm
    exact ih.move (h.path hp) hm

theorem path_extends {P : Act C V → Prop} (h : Sound G F) (hp : Path P F F') :
    F.d.events.Extends F'.d.events :=
  path_effects (I := fun d => F.d.events.Extends d.events)
    (fun _ _ _ _ hd he => hd.trans he.grows) h hp (.refl _)

/-- An account stays open along a path, unless some move of it was exempt. -/
theorem Flight.Accounted.path {P : Act C V → Prop} (hx : F.Accounted n x) (h : Sound G F)
    (ho : F.Sorted) (hn : n ≤ F.d.events.sent.length) (hp : Path P F F') :
    F'.Accounted n x ∨ ∃ F₁ act, Path P F F₁ ∧ P act ∧ Exempt act F₁ x := by
  induction hp with
  | refl => exact .inl hx
  | @tail F₁ F₂ hp hm ih =>
    obtain ⟨act, ha, hm⟩ := hm
    rcases ih with hx₁ | he
    · have hn₁ := Nat.le_trans hn (path_extends h hp).sent.length_le
      rcases hx₁.move (h.path hp) (ho.path h hp) hn₁ hm with hx₂ | he
      · exact .inl hx₂
      · exact .inr ⟨F₁, act, hp, ha, he⟩
    · exact .inr he

/-! ### Losses are noted -/

/-- Both clocks of a subscription's loss moved. -/
def Noted (d d' : Delivery C V H) (s : Subscription) : Prop :=
  d.loss_count s < d'.loss_count s ∧ d.loss_gen < d'.loss_gen

/-- What is carried stays so over a move, or is lost by it. -/
theorem Flight.Carried.move (hx : F.Carried n x) (h : Sound G F) (ho : F.Sorted)
    (hn : n ≤ F.d.events.sent.length) (hm : Move act F F') :
    F'.Carried n x ∨ Exempt act F x ∨ Loses x.subscription act F F' := by
  obtain ⟨hsent, hclosed⟩ := move_extends h hm
  rcases hx with hc | ⟨y, hy, hf | hf⟩
  · exact .inl (.inl (hclosed hc))
  · exact .inl (.inr ⟨y, hy, .inl ((hsent.drop n).subset hf)⟩)
  · cases move_fate h ho hn hm hf with
    | carried hc =>
      refine .inl (hc.imp_right fun hc => ?_)
      obtain ⟨z, hz, hf⟩ := hc
      exact ⟨z, hz.trans hy, hf⟩
    | covered hc hl => exact .inr (.inr (hy.subscription ▸ hl))
    | exempt he => exact .inr (.inl (he.stands_in hy))

/-- The clocks of a path only move on. -/
theorem path_clocks {P : Act C V → Prop} (h : Sound G F) (hp : Path P F F') :
    (∀ t, F.d.loss_count t ≤ F'.d.loss_count t) ∧ F.d.loss_gen ≤ F'.d.loss_gen :=
  path_effects (I := fun d => (∀ t, F.d.loss_count t ≤ d.loss_count t) ∧ F.d.loss_gen ≤ d.loss_gen)
    (fun _ _ _ _ hd he => ⟨fun t => Nat.le_trans (hd.1 t) (he.clocks.1 t), Nat.le_trans hd.2 he.clocks.2⟩)
    h hp ⟨fun _ => Nat.le_refl _, Nat.le_refl _⟩

/-- What is carried stays so along a path that moves no root of its subscription, unless a
    move of it was exempt, or noted its loss. -/
theorem Flight.Carried.path {P : Act C V → Prop} (hx : F.Carried n x) (h : Sound G F)
    (ho : F.Sorted) (hn : n ≤ F.d.events.sent.length) (hp : Path P F F')
    (hP : ∀ ev, P (.rebase ev) → ev.subscription ≠ x.subscription) :
    F'.Carried n x ∨ (∃ F₁ act, Path P F F₁ ∧ P act ∧ Exempt act F₁ x) ∨
      Noted F.d F'.d x.subscription := by
  induction hp with
  | refl => exact .inl hx
  | @tail F₁ F₂ hp hm ih =>
    obtain ⟨act, ha, hm⟩ := hm
    have h₁ := h.path hp
    have hone : Path P F₁ F₂ := .one ha hm
    have hclocks := path_clocks h hp
    have hclocks' := path_clocks h₁ hone
    rcases ih with hx₁ | he | hnoted
    · have hn₁ := Nat.le_trans hn (path_extends h hp).sent.length_le
      rcases hx₁.move h₁ (ho.path h hp) hn₁ hm with hx₂ | he | hl
      · exact .inl hx₂
      · exact .inr (.inl ⟨F₁, act, hp, ha, he⟩)
      · cases hl with
        | noted hs hg =>
          exact .inr (.inr ⟨Nat.lt_of_le_of_lt (hclocks.1 _) hs, Nat.lt_of_le_of_lt hclocks.2 hg⟩)
        | @rebased ev hact hs =>
          subst hact
          exact absurd hs (hP ev ha)
    · exact .inr (.inl he)
    · exact .inr (.inr ⟨Nat.lt_of_lt_of_le hnoted.1 (hclocks'.1 _),
        Nat.lt_of_lt_of_le hnoted.2 hclocks'.2⟩)

/-! ### Where what is held came from -/

section
omit [DecidableEq H]

/-- What is held after a move was held before it, but for what is folded, or was minted
    by it. -/
theorem move_origin (h : Sound G F) (hm : Move act F F') (hx : F'.Holds x) :
    act.minted = some x ∨ ∃ y, F.Holds y ∧ y.slot = x.slot ∧ (x.kind = .created → y.kind = .created) := by
  suffices hf : act.minted = some x ∨ F.Holds x ∨
      ∃ y, F.Holds y ∧ y.slot = x.slot ∧ (x.kind = .created → y.kind = .created) by
    rcases hf with hf | hf | hf
    · exact .inl hf
    · exact .inr ⟨x, hf, rfl, id⟩
    · exact .inr hf
  have minted : ∀ {i : List (Event C V)} {ev : Event C V}, x ∈ i ++ [ev] →
      some ev = some x ∨ x ∈ i := by
    intro i ev hx
    rcases List.mem_append.mp hx with hx | hx
    · exact .inr hx
    · exact .inl (congrArg some (List.mem_singleton.mp hx).symm)
  cases hm with
  | mint hd hs =>
    rcases hx with hx | hx
    · exact (minted hx).imp_right fun hx => .inl (.inl hx)
    · exact .inr (.inl (.inr hx))
  | rebase hd hs hr hk =>
    rcases hx with hx | hx | hx | hx
    · exact (minted hx).imp_right fun hx => .inl (.inl hx)
    · exact .inr (.inl (.inr (.inl hx)))
    · exact .inr (.inl (.inr (.inr (.inl hx))))
    · exact .inr (.inl (.inr (.inr (.inr (drop_waits_back h hx)))))
  | @quiet d d' i a r hq =>
    refine .inr (.inl (hx.imp_right fun hx => hx.imp_right fun hx => hx.imp_right fun hx => ?_))
    obtain ⟨c, hc, hw⟩ := hx
    exact ⟨c, hq.coalescer.symm.trans hc, hw⟩
  | @shed d i a r s key value hg =>
    obtain ⟨epoch, -, how, -, -⟩ := owing_shed d s key (some value)
    exact .inr (.inl (hx.imp_right fun hx => hx.imp_right fun hx => hx.imp_right (how.waits_back h)))
  | take hc =>
    rcases taken_from h hc hx with hx | ⟨old, hold, hm, hf⟩
    · exact .inr (.inl hx)
    · refine .inr (.inr ?_)
      -- a fold has the kind of one of the two it joins; `churned` is `Modified`
      cases hf with
      | kept => exact ⟨old, .inr (.inr (.inr hold)), rfl, id⟩
      | replaced => exact ⟨_, .inl List.mem_cons_self, rfl, id⟩
      | churned => exact ⟨_, .inl List.mem_cons_self, rfl, fun hk => by cases hk⟩
  | pass hp =>
    refine .inr (.inl ?_)
    rcases hx with hx | hx | hx
    · exact .inl (by grind)
    · rcases List.mem_append.mp hx with hx | hx
      · exact .inr (.inl hx)
      · exact .inl (by grind)
    · exact .inr (.inr hx)
  | @drain d i a r c c' out hc hd =>
    obtain ⟨hk, hl⟩ := h.kept c hc
    obtain ⟨out', c'', hd', -, -, -, hw⟩ := Coalescer.drain_waits hk (Nat.le_refl _)
    obtain ⟨rfl, rfl⟩ := Prod.mk.inj (Option.some.inj (hd.symm.trans hd'))
    refine .inr (.inl ?_)
    rcases hx with hx | hx | hx | hx
    · exact .inl hx
    · rcases List.mem_append.mp hx with hx | hx
      · exact .inr (.inl hx)
      · exact .inr (.inr (.inr ⟨c, hc, (hw x).mpr (.inr hx)⟩))
    · exact .inr (.inr (.inl hx))
    · obtain ⟨c₀, hc₀, hx⟩ := hx
      obtain rfl := Option.some.inj hc₀
      exact .inr (.inr (.inr ⟨c, hc, (hw x).mpr (.inl hx)⟩))
  | overflow =>
    refine .inr (.inl ?_)
    rcases hx with hx | hx | hx | hx
    · exact .inl hx
    · exact .inr (.inl hx)
    · exact .inr (.inr (.inl (List.mem_cons_of_mem _ hx)))
    · exact .inr (.inr (.inr (park_waits_back h (.inr (.inr (.inl List.mem_cons_self))) hx)))
  | emit =>
    refine .inr (.inl ?_)
    rcases hx with hx | hx | hx | hx
    · exact .inl hx
    · exact .inr (.inl (List.mem_cons_of_mem _ hx))
    · exact .inr (.inr (.inl hx))
    · exact .inr (.inr (.inr (emit_waits_back h hx)))
  | publish hq ha hair => exact .inr (.inl hx)
  | discard hc => exact .inr (.inl hx)
  | @flush d i a r c s hc =>
    refine .inr (.inl (hx.imp_right fun hx => hx.imp_right fun hx => hx.imp_right fun hx => ?_))
    obtain ⟨c₀, hc₀, hx⟩ := hx
    obtain rfl := Option.some.inj hc₀
    exact ⟨c, hc, (Coalescer.flush_waits (h.kept c hc).1 s d.clock).mp hx⟩
  | @tail d c hc =>
    refine .inr (.inl ?_)
    rcases hx with hx | hx | hx | hx
    · exact absurd hx List.not_mem_nil
    · exact .inr (.inr (.inr ⟨c, hc, Coalescer.mem_flush_all.mp (List.mem_filter.mp hx).1⟩))
    · exact absurd hx List.not_mem_nil
    · obtain ⟨c₀, hc₀, hx⟩ := hx
      obtain rfl := Option.some.inj hc₀
      exact absurd hx (Coalescer.flush_all_waits c)

end

/-- Where nothing is minted, what settles comes from what was held. -/
theorem path_origin {P : Act C V → Prop} (h : Sound G F) (hP : ∀ act, P act → act.minted = none)
    (hp : Path P F F') (hx : F'.Holds x) :
    ∃ y, F.Holds y ∧ y.slot = x.slot ∧ (x.kind = .created → y.kind = .created) := by
  induction hp generalizing x with
  | refl => exact ⟨x, hx, rfl, id⟩
  | @tail F₁ F₂ hp hm ih =>
    obtain ⟨act, ha, hm⟩ := hm
    rcases move_origin (h.path hp) hm hx with hmint | ⟨y, hy, hs, hk⟩
    · rw [hP act ha] at hmint
      cases hmint
    · obtain ⟨z, hz, hs', hk'⟩ := ih hy
      exact ⟨z, hz, hs'.trans hs, fun hc => hk' (hk hc)⟩

end Delivery

end Umbrella
