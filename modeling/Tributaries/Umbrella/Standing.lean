import Tributaries.Umbrella.Accounts

/-! # Turns and runs of the delivery half

  Between two turns the owner has nothing in its hands.  Every turn keeps
  the invariant, with the grant it makes, if it makes one; so does every run.
-/

open Std Collections

namespace Umbrella

open Proto (Epoch u64Max)

namespace Delivery

variable {C V H : Type} [Ord C] [TransOrd C] [LawfulEqOrd C] [DecidableEq C] [DecidableEq H]
  {G : Subscription → Option (List C × V)} {F F' : Flight C V H} {d d' : Delivery C V H}
  {s : Subscription} {x ev : Event C V}

/-- The owner between two turns. -/
abbrev Flight.rest (d : Delivery C V H) : Flight C V H := ⟨d, [], [], []⟩

section
omit [LawfulEqOrd C] [DecidableEq C] [DecidableEq H]

theorem holds_rest : (Flight.rest d).Holds x ↔ d.Waits x := by
  constructor
  · intro h
    rcases h with h | h | h | h
    · exact absurd h List.not_mem_nil
    · exact absurd h List.not_mem_nil
    · exact absurd h List.not_mem_nil
    · exact h
  · exact fun h => .inr (.inr (.inr h))

end

/-! ### Grants -/

/-- The subscription the next commit mints. -/
def next_subscription (d : Delivery C V H) : Subscription := ⟨d.instance_id, d.next_sub⟩

/-- One grant more. -/
def granting (G : Subscription → Option (List C × V)) (s : Subscription) (g : List C × V) :
    Subscription → Option (List C × V) := fun t => if t = s then some g else G t

section
omit [LawfulEqOrd C] [DecidableEq C] [DecidableEq H]

theorem next_fresh (h : Sound G (.rest d)) : G d.next_subscription = none := by
  cases hg : G d.next_subscription with
  | none => rfl
  | some g =>
    have hm : d.next_subscription ∈ d.minted := h.minted _ _ hg
    exact absurd hm.2 (Nat.lt_irrefl _)

end

section
omit [LawfulEqOrd C] [DecidableEq C]

/-- Books over more subscriptions. -/
theorem Kept.more {last : Instant} {used used' : Set Subscription} {c : Coalescer C V}
    (h : c.Kept last used) (hu : used ⊆ used') : c.Kept last used' where
  indexed := h.indexed
  counts := h.counts
  cap := h.cap
  used k b hb := hu (h.used k b hb)
  settling := h.settling
  ready := h.ready
  queued := h.queued

end

section
omit [DecidableEq C] [DecidableEq H]

/-- Registering a posture of a new subscription keeps what settles. -/
theorem register_debounce_coalescer (h : Sound G (.rest d)) (hs : s ∉ d.minted) (debounce : Debounce) :
    ∃ coalescer, d.register_debounce s debounce = { d with coalescer } ∧
      (∀ c', coalescer = some c' → c'.Kept d.clock d.minted ∧ c'.Lifecycle) ∧
      ∀ x, (∃ c', coalescer = some c' ∧ c'.Waits x) ↔ d.Waits x := by
  cases debounce with
  | inherit => exact ⟨d.coalescer, rfl, h.kept, fun x => Iff.rfl⟩
  | off =>
    refine ⟨_, rfl, ?_, ?_⟩
    · intro c' hc
      obtain ⟨c, hc₀, rfl⟩ := Option.map_eq_some_iff.mp hc
      obtain ⟨hk, hl⟩ := h.kept c hc₀
      exact ⟨hk.set_policy hs .off, Coalescer.set_policy_lifecycle hl s .off⟩
    · intro x
      constructor
      · intro hx
        obtain ⟨c', hc, hw⟩ := hx
        obtain ⟨c, hc₀, rfl⟩ := Option.map_eq_some_iff.mp hc
        exact ⟨c, hc₀, (Coalescer.set_policy_waits c s .off).mp hw⟩
      · intro hx
        obtain ⟨c, hc, hw⟩ := hx
        exact ⟨c.set_policy s .off, congrArg _ hc, (Coalescer.set_policy_waits c s .off).mpr hw⟩
  | custom config =>
    refine ⟨_, rfl, ?_, ?_⟩
    · intro c' hc
      obtain rfl := Option.some.inj hc
      -- the first posture of its own makes the coalescer
      cases hc₀ : d.coalescer with
      | none =>
        exact ⟨(Coalescer.Kept.new d.debounce).set_policy hs _,
          Coalescer.set_policy_lifecycle (Coalescer.new_lifecycle d.debounce) s _⟩
      | some c =>
        obtain ⟨hk, hl⟩ := h.kept c hc₀
        exact ⟨hk.set_policy hs _, Coalescer.set_policy_lifecycle hl s _⟩
    · intro x
      cases hc₀ : d.coalescer with
      | none =>
        constructor
        · intro hx
          obtain ⟨c', hc, hw⟩ := hx
          obtain rfl := Option.some.inj hc
          exact absurd ((Coalescer.set_policy_waits _ s _).mp hw) (Coalescer.new_waits d.debounce)
        · intro hx
          obtain ⟨c, hc, -⟩ := hx
          exact absurd (hc₀.symm.trans hc) (by simp)
      | some c =>
        constructor
        · intro hx
          obtain ⟨c', hc, hw⟩ := hx
          obtain rfl := Option.some.inj hc
          exact ⟨c, hc₀, (Coalescer.set_policy_waits c s _).mp hw⟩
        · intro hx
          obtain ⟨c₁, hc, hw⟩ := hx
          obtain rfl := Option.some.inj (hc₀.symm.trans hc)
          exact ⟨_, rfl, (Coalescer.set_policy_waits c s _).mpr hw⟩

/-- What a commit makes of the state. -/
theorem commit_watch_eq (h : Sound G (.rest d)) (root : H) (key : List C) (value : V)
    (debounce : Debounce) : ∃ coalescer, d.commit_watch root key value debounce =
      { d with
        next_sub := d.next_sub.succ
        subs := d.subs.insert d.next_subscription ⟨key, value, root⟩
        coalescer } ∧
      (∀ c', coalescer = some c' → c'.Kept d.clock d.minted ∧ c'.Lifecycle) ∧
      ∀ x, (∃ c', coalescer = some c' ∧ c'.Waits x) ↔ d.Waits x := by
  -- the name given is fresh, so no posture or buffer is under it
  have hs : d.next_subscription ∉ d.minted := fun hm => absurd hm.2 (Nat.lt_irrefl _)
  obtain ⟨coalescer, he, hk, hw⟩ := register_debounce_coalescer h hs debounce
  refine ⟨coalescer, ?_, hk, hw⟩
  cases debounce with
  | inherit =>
    have he : d.coalescer = coalescer := congrArg Delivery.coalescer he
    rw [← he]
    rfl
  | off =>
    have he : (d.coalescer.map fun c => c.set_policy d.next_subscription .off) = coalescer :=
      congrArg Delivery.coalescer he
    rw [← he]
    rfl
  | custom config =>
    have he : some ((d.coalescer.getD (.new d.debounce)).set_policy d.next_subscription
        (.custom config)) = coalescer := congrArg Delivery.coalescer he
    rw [← he]
    rfl

theorem Sound.commit_watch (h : Sound G (.rest d)) (root : H) (key : List C) (value : V)
    (debounce : Debounce) :
    Sound (granting G d.next_subscription (key, value))
      (.rest (d.commit_watch root key value debounce)) := by
  obtain ⟨coalescer, he, hk, hw⟩ := commit_watch_eq h root key value debounce
  have hfresh := next_fresh h
  rw [he]
  have old : ∀ {t g}, G t = some g → granting G d.next_subscription (key, value) t = some g := by
    intro t g hg
    unfold granting
    split
    · rename_i ht
      rw [ht, hfresh] at hg
      cases hg
    · exact hg
  -- nothing but the new subscription's entry is new
  have hget : ∀ t, ({ d with
        next_sub := d.next_sub.succ
        subs := d.subs.insert d.next_subscription ⟨key, value, root⟩
        coalescer } : Delivery C V H).grant_of t =
      if d.next_subscription = t then some (key, value) else d.grant_of t := by
    intro t
    show ((d.subs.insert d.next_subscription ⟨key, value, root⟩)[t]?).map _ = _
    rw [get_insert]
    split
    · rfl
    · rfl
  have hminted : d.minted ⊆ ({ d with
        next_sub := d.next_sub.succ
        subs := d.subs.insert d.next_subscription ⟨key, value, root⟩
        coalescer } : Delivery C V H).minted :=
    fun t ht => ⟨ht.1, Nat.lt_succ_of_lt ht.2⟩
  have hne : ∀ {t g}, G t = some g → d.next_subscription ≠ t := by
    intro t g hg ht
    rw [← ht, hfresh] at hg
    cases hg
  refine ⟨?_, ?_, ?_, ?_, ?_, h.claimed, h.unclaimed, ?_, h.bounded⟩
  · intro t g hg
    rw [hget] at hg
    split at hg
    · rename_i ht
      unfold granting
      rw [if_pos ht.symm]
      exact hg
    · exact old (h.live t g hg)
  · intro t g hg
    unfold granting at hg
    split at hg
    · rename_i ht
      rw [ht]
      exact ⟨rfl, Nat.lt_succ_self _⟩
    · exact hminted (h.minted t g hg)
  · intro c hc
    obtain ⟨hk, hl⟩ := hk c hc
    exact ⟨Kept.more hk hminted, hl⟩
  -- what settles is of subscriptions granted before
  · intro y hy
    have hy : d.Waits y := (hw y).mp (holds_rest.mp hy)
    obtain ⟨⟨k, v, ha⟩, hle⟩ := h.held y (holds_rest.mpr hy)
    refine ⟨⟨k, v, ?_, ha.inside, ha.value⟩, hle⟩
    rw [hget, if_neg (hne (h.live _ _ ha.live))]
    exact ha.live
  · intro t q hq
    obtain ⟨k, v, hg, hk, hv, hle⟩ := h.owed t q hq
    refine ⟨k, v, old hg, hk, hv, fun hl => hle ?_⟩
    rw [hget, if_neg (hne hg)] at hl
    exact hl
  · intro y hy
    obtain ⟨k, v, hg, hin, hv⟩ := h.sent y hy
    exact ⟨k, v, old hg, hin, hv⟩

end

/-! ### Claims -/

section
omit [LawfulEqOrd C] [DecidableEq C] [DecidableEq H]

theorem Sound.grant (h : Sound G (.rest d)) (hn : d.needs_rescan[s]? = none) :
    Sound G (.rest (d.grant s)) := by
  refine { h with held := ?_, claimed := ?_, unclaimed := ?_ }
  · intro y hy
    obtain ⟨⟨k, v, ha⟩, hle⟩ := h.held y hy
    exact ⟨⟨k, v, ha.live, ha.inside, ha.value⟩, hle⟩
  · intro t q hq
    show t ∉ d.unclaimed.insert s
    rw [mem_insert_iff]
    intro ht
    -- the new subscription is owed nothing in the plane of claimed ones
    rcases ht with rfl | ht
    · exact absurd (hn.symm.trans hq) (by simp)
    · exact h.claimed t q hq ht
  · intro t q hq
    exact mem_insert_iff.mpr (.inr (h.unclaimed t q hq))

end

section
omit [LawfulEqOrd C] [DecidableEq H]

/-- A claim moves what is owed from one plane to the other. -/
theorem claim_eq (h : Sound G (.rest d)) (s : Subscription) : ∃ needs suppressed,
    d.claim s =
      { d with unclaimed := d.unclaimed.erase s, suppressed_rescan := suppressed, needs_rescan := needs } ∧
    (∀ t, t ≠ s → needs[t]? = d.needs_rescan[t]? ∧ suppressed[t]? = d.suppressed_rescan[t]?) ∧
    suppressed[s]? = none ∧ ∀ q, needs[s]? = some q ↔ d.Owed s q := by
  cases hq : d.suppressed_rescan[s]? with
  | none =>
    refine ⟨d.needs_rescan, d.suppressed_rescan, ?_, fun t _ => ⟨rfl, rfl⟩, hq, fun q => ?_⟩
    · unfold claim ParkedRescans.promote
      rw [hq]
    · constructor
      · exact .inl
      · intro ho
        rcases ho with ho | ho
        · exact ho
        · exact absurd (hq.symm.trans ho) (by simp)
  | some parked =>
    have hs : s ∈ d.unclaimed := h.unclaimed s parked hq
    have hn : d.needs_rescan[s]? = none := by
      cases hn : d.needs_rescan[s]? with
      | none => rfl
      | some q => exact absurd hs (h.claimed s q hn)
    -- the debt of an unclaimed subscription lies in one plane, so nothing is joined
    refine ⟨d.needs_rescan.insert s parked, d.suppressed_rescan.erase s, ?_, ?_, ?_, fun q => ?_⟩
    · unfold claim ParkedRescans.promote ParkedRescans.merge_max
      rw [hq]
      dsimp only
      rw [hn]
    · intro t ht
      rw [get_insert, get_erase, if_neg (Ne.symm ht), if_neg (Ne.symm ht)]
      exact ⟨rfl, rfl⟩
    · rw [get_erase, if_pos rfl]
    · rw [get_insert, if_pos rfl]
      constructor
      · intro he
        exact .inr (hq.trans he)
      · intro ho
        rcases ho with ho | ho
        · exact absurd (hn.symm.trans ho) (by simp)
        · exact hq.symm.trans ho

theorem claim_owed (h : Sound G (.rest d)) (s t : Subscription) (q : ParkedRescan C V) :
    (d.claim s).Owed t q ↔ d.Owed t q := by
  obtain ⟨needs, suppressed, he, hothers, hnone, hone⟩ := claim_eq h s
  rw [he]
  by_cases ht : t = s
  · subst ht
    constructor
    · intro ho
      rcases ho with ho | ho
      · exact (hone q).mp ho
      · exact absurd (hnone.symm.trans ho) (by simp)
    · exact fun ho => .inl ((hone q).mpr ho)
  · show needs[t]? = some q ∨ suppressed[t]? = some q ↔ _
    rw [(hothers t ht).1, (hothers t ht).2]
    exact Iff.rfl

theorem Sound.claim (h : Sound G (.rest d)) (s : Subscription) : Sound G (.rest (d.claim s)) := by
  have howed := claim_owed h s
  obtain ⟨needs, suppressed, he, hothers, hnone, hone⟩ := claim_eq h s
  rw [he] at howed ⊢
  refine { h with held := ?_, owed := ?_, claimed := ?_, unclaimed := ?_ }
  · intro y hy
    obtain ⟨⟨k, v, ha⟩, hle⟩ := h.held y hy
    exact ⟨⟨k, v, ha.live, ha.inside, ha.value⟩, hle⟩
  · intro t q hq
    exact h.owed t q ((howed t q).mp hq)
  · intro t q hq
    show t ∉ d.unclaimed.erase s
    rw [mem_erase_iff]
    intro ht
    have hq : needs[t]? = some q := hq
    rw [(hothers t (Ne.symm ht.1)).1] at hq
    exact h.claimed t q hq ht.2
  · intro t q hq
    have hq : suppressed[t]? = some q := hq
    by_cases ht : t = s
    · subst ht
      exact absurd (hnone.symm.trans hq) (by simp)
    · rw [(hothers t ht).2] at hq
      exact mem_erase_iff.mpr ⟨Ne.symm ht, h.unclaimed t q hq⟩

end

/-! ### Ends of subscriptions -/

/-- A subscription leaves the tables; what is owed to it stays. -/
def retire_one (d : Delivery C V H) (s : Subscription) : Delivery C V H :=
  ({ d with subs := d.subs.erase s }.forget_buffered s).retire_sub_state s

section
omit [DecidableEq H]

/-- What a retirement leaves of the buffer. -/
theorem retire_waits (h : Sound G (.rest d)) (s : Subscription) :
    (d.retire_one s).Waits x ↔ d.Waits x ∧ x.subscription ≠ s := by
  constructor
  · intro hx
    obtain ⟨c', hc, hw⟩ := hx
    obtain ⟨c, hc₀, rfl⟩ := Option.map_eq_some_iff.mp hc
    obtain ⟨hw, hs⟩ := (Coalescer.forget_waits (h.kept c hc₀).1 s).mp hw
    exact ⟨⟨c, hc₀, hw⟩, hs⟩
  · intro hx
    obtain ⟨⟨c, hc, hw⟩, hs⟩ := hx
    refine ⟨c.forget_subscription s, ?_, (Coalescer.forget_waits (h.kept c hc).1 s).mpr ⟨hw, hs⟩⟩
    show d.coalescer.map _ = _
    rw [hc]
    rfl

end

section
omit [LawfulEqOrd C] [DecidableEq C] [DecidableEq H]

theorem retire_mark (d : Delivery C V H) (s t : Subscription) :
    (d.retire_one s).mark t = if s = t then 0 else d.mark t := by
  show (((d.epochs.high_water.erase s)[t]?).getD Epoch.START).as_u64 = _
  rw [get_erase]
  split
  · rfl
  · rfl

theorem retire_grant (d : Delivery C V H) (s t : Subscription) :
    (d.retire_one s).grant_of t = if s = t then none else d.grant_of t := by
  show ((d.subs.erase s)[t]?).map _ = _
  rw [get_erase]
  split
  · rfl
  · rfl

end

section
omit [DecidableEq H]

theorem Sound.retire (h : Sound G (.rest d)) (s : Subscription) : Sound G (.rest (d.retire_one s)) := by
  have hlive : ∀ {t g}, (d.retire_one s).grant_of t = some g → s ≠ t ∧ d.grant_of t = some g := by
    intro t g hg
    rw [retire_grant] at hg
    split at hg
    · cases hg
    · rename_i hs
      exact ⟨hs, hg⟩
  refine ⟨?_, h.minted, ?_, ?_, ?_, h.claimed, h.unclaimed, h.sent, ?_⟩
  · intro t g hg
    exact h.live t g (hlive hg).2
  · intro c' hc
    obtain ⟨c, hc₀, rfl⟩ := Option.map_eq_some_iff.mp hc
    obtain ⟨hk, hl⟩ := h.kept c hc₀
    exact ⟨hk.forget s, Coalescer.forget_lifecycle hk hl s⟩
  · intro y hy
    obtain ⟨hy, hs⟩ := (retire_waits h s).mp (holds_rest.mp hy)
    obtain ⟨⟨k, v, ha⟩, hle⟩ := h.held y (holds_rest.mpr hy)
    refine ⟨⟨k, v, ?_, ha.inside, ha.value⟩, ?_⟩
    · rw [retire_grant, if_neg (Ne.symm hs)]
      exact ha.live
    · rw [retire_mark, if_neg (Ne.symm hs)]
      exact hle
  · intro t q hq
    obtain ⟨k, v, hg, hk, hv, hle⟩ := h.owed t q hq
    -- the ledger forgets the retired one, whose debt is bounded no more
    refine ⟨k, v, hg, hk, hv, fun hl => ?_⟩
    obtain ⟨g, hl⟩ := Option.ne_none_iff_exists'.mp hl
    obtain ⟨hs, hl⟩ := hlive hl
    rw [retire_mark, if_neg hs]
    exact hle fun hn => by
      have hn : d.grant_of t = none := hn
      rw [hl] at hn
      cases hn
  · intro t
    rw [retire_mark]
    split
    · exact Nat.zero_le _
    · exact h.bounded t

end

/-- A released subscription is owed nothing, and nothing of it is held. -/
def release_one (d : Delivery C V H) (s : Subscription) : Delivery C V H :=
  { d.retire_one s with
    needs_rescan := d.needs_rescan.erase s
    suppressed_rescan := d.suppressed_rescan.erase s
    unclaimed := d.unclaimed.erase s }

section
omit [LawfulEqOrd C] [DecidableEq C] [DecidableEq H]

theorem release_owed (d : Delivery C V H) (s t : Subscription) (q : ParkedRescan C V) :
    (d.release_one s).Owed t q ↔ s ≠ t ∧ d.Owed t q := by
  show (d.needs_rescan.erase s)[t]? = some q ∨ (d.suppressed_rescan.erase s)[t]? = some q ↔ _
  rw [get_erase, get_erase]
  by_cases hs : s = t
  · rw [if_pos hs, if_pos hs]
    simp [hs]
  · rw [if_neg hs, if_neg hs]
    exact ⟨fun ho => ⟨hs, ho⟩, fun ho => ho.2⟩

end

section
omit [DecidableEq H]

theorem Sound.release (h : Sound G (.rest d)) (s : Subscription) : Sound G (.rest (d.release_one s)) := by
  have hr := h.retire s
  refine ⟨hr.live, hr.minted, hr.kept, ?_, ?_, ?_, ?_, hr.sent, hr.bounded⟩
  · intro y hy
    obtain ⟨⟨k, v, ha⟩, hle⟩ := hr.held y hy
    exact ⟨⟨k, v, ha.live, ha.inside, ha.value⟩, hle⟩
  · intro t q hq
    exact hr.owed t q ((release_owed d s t q).mp hq).2
  · intro t q hq
    have hq : (d.needs_rescan.erase s)[t]? = some q := hq
    rw [get_erase] at hq
    split at hq
    · cases hq
    · exact fun hm => h.claimed t q hq (mem_erase_iff.mp hm).2
  · intro t q hq
    have hq : (d.suppressed_rescan.erase s)[t]? = some q := hq
    rw [get_erase] at hq
    split at hq
    · cases hq
    · rename_i hs
      exact mem_erase_iff.mpr ⟨hs, h.unclaimed t q hq⟩

end

section
omit [LawfulEqOrd C] [DecidableEq C] [DecidableEq H]

/-- A release ends the barriers of the subscription, and then the subscription. -/
theorem release_subscription_eq (hr : d.release_subscription s = some d') :
    ∃ d₁, d.retire_syncs_of_subscription s = some d₁ ∧
      (s.instance_id ≠ d₁.instance_id ∧ d' = d₁ ∨
        s.instance_id = d₁.instance_id ∧ d' = d₁.release_one s) := by
  obtain ⟨d₁, hd₁, hr⟩ := Option.bind_eq_some_iff.mp hr
  refine ⟨d₁, hd₁, ?_⟩
  split at hr
  · rename_i hi
    exact .inl ⟨hi, (Option.some.inj hr).symm⟩
  · rename_i hi
    exact .inr ⟨not_not.mp hi, (Option.some.inj hr).symm⟩

end

/-! ### Subscriptions that are left alone -/

/-- Nothing of a subscription is held or owed. -/
structure Flight.Idle (F : Flight C V H) (s : Subscription) : Prop where
  held : ∀ x, F.Holds x → x.subscription ≠ s
  owed : ∀ q, ¬ F.d.Owed s q

section
omit [LawfulEqOrd C] [DecidableEq C] [DecidableEq H]

theorem Owing.owed_others {covers : List (List C)} {epoch : Epoch} {value : Option V}
    {t : Subscription} {q : ParkedRescan C V} (ho : Owing d d' s covers epoch value) (ht : t ≠ s)
    (hq : d'.Owed t q) : d.Owed t q := by
  unfold Owed at hq ⊢
  rwa [ho.needs.others t ht, ho.suppressed.others t ht] at hq

end

section
omit [DecidableEq H]

theorem Flight.Idle.move {act : Act C V} (hi : F.Idle s) (h : Sound G F) (hm : Move act F F')
    (hmint : ∀ ev, act.minted = some ev → ev.subscription ≠ s) (hshed : act ≠ .shed s) : F'.Idle s := by
  refine ⟨fun x hx => ?_, fun q hq => ?_⟩
  · rcases move_origin h hm hx with ha | ⟨y, hy, hslot, -⟩
    · exact hmint x ha
    -- a fold keeps its slot, so what is held of `s` came of what was
    · intro hs
      exact hi.held y hy ((congrArg Prod.fst hslot).trans hs)
  · apply hi.owed q
    have he := move_effect h hm
    generalize F'.d = d' at he hq
    cases he with
    | calm hcalm =>
      unfold Owed at hq ⊢
      rwa [hcalm.needs, hcalm.suppressed] at hq
    | @owing d' t g covers epoch value hg hs ho =>
      refine ho.owed_others (fun ht => ?_) hq
      -- every event the owner holds is of another subscription
      subst ht
      rcases hs with hs | ⟨ev, hev, hs⟩
      · exact hshed hs
      · exact hi.held ev hev hs
    | sent hev ho hs => exact hq
    | published hq' hs =>
      refine hq.imp_left fun hq => ?_
      rw [get_erase] at hq
      split at hq
      · cases hq
      · exact hq
    | discarded hc =>
      refine hq.imp_left fun hq => ?_
      rw [get_erase] at hq
      split at hq
      · cases hq
      · exact hq

end

theorem Flight.Idle.path {P : Act C V → Prop} (hi : F.Idle s) (h : Sound G F) (hp : Path P F F')
    (hmint : ∀ act ev, P act → act.minted = some ev → ev.subscription ≠ s) (hshed : ¬ P (.shed s)) :
    F'.Idle s := by
  induction hp with
  | refl => exact hi
  | @tail F₁ F₂ hp hm ih =>
    obtain ⟨act, ha, hm⟩ := hm
    refine ih.move (h.path hp) hm ?_ ?_
    · exact fun ev he => hmint act ev ha he
    · intro he
      exact hshed (he ▸ ha)

section
omit [Ord C] [TransOrd C] [LawfulEqOrd C] [DecidableEq C]

/-- Pushing puts nothing new on its way. -/
theorem pushes_mint_nothing {rescans : List (Event C V)} (act : Act C V) (ev : Event C V)
    (ha : act = .still ∨ ∃ ev ∈ rescans, act = .offer ev) (hev : act.minted = some ev) :
    ev.subscription ≠ s := by
  rcases ha with rfl | ⟨ev', -, rfl⟩
  · cases hev
  · cases hev

end

/-! ### Turns -/

/-- The grant a turn makes. -/
def Op.grant : Op C V H → Option (List C × V)
  | .commit_watch _ key value _ => some (key, value)
  | .commit_widen _ _ key value _ _ => some (key, value)
  | _ => none

/-- The grants once a turn is taken. -/
def granted (G : Subscription → Option (List C × V)) (d : Delivery C V H) (op : Op C V H) :
    Subscription → Option (List C × V) :=
  match op.grant with
  | none => G
  | some g => granting G d.next_subscription g

section
omit [LawfulEqOrd C] [DecidableEq H]

/-- A widen's commit: the grant, the moves of the subscriptions it takes over, and the claim. -/
theorem commit_widen_eq {handle : H} {fs_key key : List C} {value : V} {debounce : Debounce}
    {repointed : List Subscription}
    (hw : d.commit_widen handle fs_key key value debounce repointed = some d') :
    ∃ d₁, (d.commit_watch handle key value debounce).repoint_and_push handle fs_key
        (repointed.filter fun sub => d.subs.contains sub) = some d₁ ∧
      d' = d₁.grant d.next_subscription := by
  obtain ⟨d₁, hd₁, hw⟩ := Option.bind_eq_some_iff.mp hw
  exact ⟨d₁, hd₁, (Option.some.inj hw).symm⟩

end

section
omit [TransOrd C] [LawfulEqOrd C] [DecidableEq C] [DecidableEq H]

theorem contains_grant (h : d.subs.contains s = true) : ∃ key value, d.grant_of s = some (key, value) := by
  obtain ⟨g, hg⟩ := contains_iff.mp h
  exact ⟨g.key, g.value, grant_of_eq hg⟩

end

section
omit [LawfulEqOrd C] [DecidableEq C] [DecidableEq H]

theorem fresh_ne (h : Sound G (.rest d)) {g : List C × V} (hg : d.grant_of s = some g) :
    s ≠ d.next_subscription := by
  intro hs
  have hlive := h.live s g hg
  rw [hs, next_fresh h] at hlive
  cases hlive

end

section
omit [DecidableEq C] [DecidableEq H]

theorem commit_keeps (h : Sound G (.rest d)) {root : H} {key : List C} {value : V} {debounce : Debounce}
    {g : List C × V} (hg : d.grant_of s = some g) :
    (d.commit_watch root key value debounce).grant_of s = some g ∧ s ≠ d.next_subscription := by
  have hne : s ≠ d.next_subscription := fresh_ne h hg
  obtain ⟨coalescer, he, -, -⟩ := commit_watch_eq h root key value debounce
  rw [he]
  refine ⟨?_, hne⟩
  show ((d.subs.insert d.next_subscription _)[s]?).map _ = _
  rw [get_insert, if_neg hne.symm]
  exact hg

/-- A new subscription is owed nothing. -/
theorem commit_idle (h : Sound G (.rest d)) (root : H) (key : List C) (value : V) (debounce : Debounce) :
    (Flight.rest (d.commit_watch root key value debounce)).Idle d.next_subscription := by
  obtain ⟨coalescer, he, -, hw⟩ := commit_watch_eq h root key value debounce
  rw [he]
  refine ⟨fun x hx hs => ?_, fun q hq => ?_⟩
  · have hx : d.Waits x := (hw x).mp (holds_rest.mp hx)
    obtain ⟨⟨k, v, ha⟩, -⟩ := h.held x (holds_rest.mpr hx)
    have := h.live _ _ ha.live
    rw [hs, next_fresh h] at this
    cases this
  · obtain ⟨k, v, hg, -⟩ := h.owed _ q hq
    rw [next_fresh h] at hg
    cases hg

end

theorem repoint_sound {handle : H} {fs_key : List C} {moved : List Subscription}
    (h : Sound G (.rest d)) (hl : ∀ s ∈ moved, ∃ key value, d.grant_of s = some (key, value))
    (hr : d.repoint_and_push handle fs_key moved = some d') : Sound G (.rest d') := by
  obtain ⟨d₁, rescans, -, hp₁, hp₂⟩ := repoint_and_push_path hl hr
  exact (h.path hp₁).path hp₂

theorem commit_widen_sound {handle : H} {fs_key key : List C} {value : V} {debounce : Debounce}
    {repointed : List Subscription} (h : Sound G (.rest d))
    (hw : d.commit_widen handle fs_key key value debounce repointed = some d') :
    Sound (granting G d.next_subscription (key, value)) (.rest d') := by
  obtain ⟨d₁, hr, rfl⟩ := commit_widen_eq hw
  have hl : ∀ s ∈ repointed.filter (fun sub => d.subs.contains sub), ∃ k v,
      (d.commit_watch handle key value debounce).grant_of s = some (k, v) ∧ s ≠ d.next_subscription := by
    intro s hs
    obtain ⟨k, v, hg⟩ := contains_grant (List.mem_filter.mp hs).2
    exact ⟨k, v, commit_keeps h hg⟩
  have hlive := fun s hs => (hl s hs).imp fun k hk => hk.imp fun v hv => hv.1
  have h₁ := h.commit_watch handle key value debounce
  have h₂ := repoint_sound h₁ hlive hr
  refine h₂.grant ?_
  -- the new subscription is not among those moved
  obtain ⟨d₂, rescans, -, hp₁, hp₂⟩ := repoint_and_push_path hlive hr
  have hi := commit_idle h handle key value debounce
  have hi₁ := hi.path h₁ hp₁ (fun act ev ha hev => ?_) (by simp)
  · have hi₂ := hi₁.path (h₁.path hp₁) hp₂ pushes_mint_nothing (by simp)
    cases hn : d₁.needs_rescan[d.next_subscription]? with
    | none => rfl
    | some q => exact absurd (.inl hn) (hi₂.owed q)
  · rcases ha with rfl | ⟨ev', hm, rfl⟩
    · cases hev
    · cases hev
      obtain ⟨k, v, -, hne⟩ := hl _ hm
      exact hne

section
omit [DecidableEq H]

/-- Retiring subscriptions one by one. -/
theorem retire_all_sound (l : List Subscription) : ∀ d : Delivery C V H, Sound G (.rest d) →
    Sound G (.rest (l.foldl retire_one d)) := by
  induction l with
  | nil => exact fun d h => h
  | cons s l ih => exact fun d h => ih _ (h.retire s)

end

section
omit [LawfulEqOrd C]

theorem retire_root_eq {handle : H} {root_key : List C} {order : List Subscription}
    (hr : d.retire_root_with_terminal_rescan handle root_key order = some d') :
    ∃ d₁, d.rescan_live_root handle root_key order = some d₁ ∧
      d' = (d.subscribers_of handle order).foldl retire_one d₁ := by
  obtain ⟨d₁, hd₁, hr⟩ := Option.bind_eq_some_iff.mp hr
  exact ⟨d₁, hd₁, (Option.some.inj hr).symm⟩

end

theorem retire_root_sound {handle : H} {root_key : List C} {order : List Subscription}
    (h : Sound G (.rest d))
    (hr : d.retire_root_with_terminal_rescan handle root_key order = some d') :
    Sound G (.rest d') := by
  obtain ⟨d₁, hd₁, rfl⟩ := retire_root_eq hr
  have hpath : Path (fun _ => True) (Flight.rest d) (.rest d₁) :=
    rescan_live_root_path trivial (fun _ => trivial) hd₁
  exact retire_all_sound _ _ (h.path hpath)

section
omit [LawfulEqOrd C]

/-- The turn of a source event whose root is live. -/
theorem source_event_eq {event : SourceEvent C H} {root_key : Option (List C)} {recorded : List C}
    {order : List Subscription} {gate : Gate C} (hk : root_key.isNone = false)
    (hr : d.consume_source_event event root_key recorded order gate = some d') :
    ∃ reserved d₁ d₂, d.fan_out_and_push (clamped root_key event) order gate = some (reserved, d₁) ∧
      d₁.drain_coalescer_due = some d₂ ∧
      ((clamped root_key event).is_rescan = true ∧
          d₂.dominate_pending_syncs (clamped root_key event) = some d' ∨
        d₂.resolve_matching_pending_sync (clamped root_key event) reserved = some d' ∨ d' = d₂) := by
  unfold consume_source_event at hr
  rw [if_neg (by rw [hk]; exact Bool.false_ne_true)] at hr
  obtain ⟨⟨reserved, d₁⟩, hd₁, hr⟩ := Option.bind_eq_some_iff.mp hr
  obtain ⟨d₂, hd₂, hr⟩ := Option.bind_eq_some_iff.mp hr
  refine ⟨reserved, d₁, d₂, hd₁, hd₂, ?_⟩
  split at hr
  · rename_i hres
    exact .inl ⟨hres, hr⟩
  · split at hr
    · exact .inr (.inl hr)
    · exact .inr (.inr (Option.some.inj hr).symm)

/-- That of one whose root is gone. -/
theorem source_event_gone {event : SourceEvent C H} {root_key : Option (List C)} {recorded : List C}
    {order : List Subscription} {gate : Gate C} (hk : root_key.isNone = true)
    (hr : d.consume_source_event event root_key recorded order gate = some d') :
    ∃ d₁, d.retire_root_with_terminal_rescan event.handle recorded order = some d₁ ∧
      d₁.drain_coalescer_due = some d' := by
  unfold consume_source_event at hr
  rw [if_pos hk] at hr
  exact Option.bind_eq_some_iff.mp hr

end

/-- The deliveries of a raw event are minted, and then pushed. -/
def Publishes (d : Delivery C V H) (raw : SourceEvent C H) (order : List Subscription) (gate : Gate C)
    (d' : Delivery C V H) : Prop :=
  ∃ d₁, d₁.coalescer = d.coalescer ∧
    Path (fun act => ∃ ev ∈ d.deliveries raw order gate, act = .mint ev)
      (.rest d) ⟨d₁, d.deliveries raw order gate, [], []⟩ ∧
    Path (fun act => act = .still ∨ (∃ s, act = .shed s) ∨
        ∃ ev ∈ d.deliveries raw order gate, act = .offer ev)
      ⟨d₁, d.deliveries raw order gate, [], []⟩ (.rest d')

section
omit [LawfulEqOrd C]

theorem Publishes.still {raw : SourceEvent C H} {order : List Subscription} {gate : Gate C}
    {d₁ : Delivery C V H} (h : Publishes d raw order gate d₁)
    (hp : Path (fun act => act = .still) (Flight.rest d₁) (.rest d')) :
    Publishes d raw order gate d' := by
  obtain ⟨d₀, hc, hmint, hpush⟩ := h
  exact ⟨d₀, hc, hmint, hpush.trans (hp.mono fun act ha => .inl ha)⟩

end

/-- What is due goes with them. -/
theorem publishes_due {raw : SourceEvent C H} {order : List Subscription} {gate : Gate C}
    {reserved : ReservedEndpoints} {d₁ : Delivery C V H}
    (hf : d.fan_out_and_push raw order gate = some (reserved, d₁))
    (hd : d₁.drain_coalescer_due = some d') : Publishes d raw order gate d' := by
  obtain ⟨d₀, hc, hmint, hpush⟩ := fan_out_and_push_path hf
  exact ⟨d₀, hc, hmint, hpush.trans (drain_coalescer_due_path (.inl rfl) hd)⟩

/-- The deliveries are pushed, and then the barriers are answered. -/
theorem source_event_path {event : SourceEvent C H} {root_key : Option (List C)} {recorded : List C}
    {order : List Subscription} {gate : Gate C} (hk : root_key.isNone = false)
    (hr : d.consume_source_event event root_key recorded order gate = some d') :
    Publishes d (clamped root_key event) order gate d' := by
  obtain ⟨reserved, d₁, d₂, hd₁, hd₂, hr⟩ := source_event_eq hk hr
  refine (publishes_due hd₁ hd₂).still ?_
  rcases hr with ⟨-, hr⟩ | hr | rfl
  · exact dominate_pending_syncs_path rfl hr
  · exact resolve_matching_pending_sync_path rfl hr
  · exact .refl

section
omit [TransOrd C] [LawfulEqOrd C] [DecidableEq C]

theorem restore_live {handle : H} {order : List Subscription} :
    ∀ s ∈ d.subscribers_of handle order, ∃ key value, d.grant_of s = some (key, value) :=
  fun _ hs => subscribers_live hs

end

section
omit [LawfulEqOrd C] [DecidableEq C] [DecidableEq H]

/-- A change of the channel that keeps what was sent. -/
theorem Sound.received {events : BoundedChannel (Event C V)} (h : Sound G (.rest d))
    (he : events.sent = d.events.sent) : Sound G (.rest { d with events }) := by
  refine { h with held := ?_, sent := ?_ }
  · intro y hy
    obtain ⟨⟨k, v, ha⟩, hle⟩ := h.held y hy
    exact ⟨⟨k, v, ha.live, ha.inside, ha.value⟩, hle⟩
  · intro y hy
    exact h.sent y (he ▸ hy)

end

section
omit [Ord C] [TransOrd C] [LawfulEqOrd C] [DecidableEq C]

theorem recv_sent (c : BoundedChannel (Event C V)) : c.recv.sent = c.sent := by
  unfold BoundedChannel.recv
  split
  · rfl
  · rfl

end

section
omit [LawfulEqOrd C]

/-- The oldest request is taken up, if there is one. -/
theorem on_sync_turn {begun : Begun C} (hs : d.step (.on_sync begun) = some d') :
    d' = d ∨ ∃ req rest, d.sync_commands = req :: rest ∧
      ({ d with sync_commands := rest } : Delivery C V H).on_sync req begun = some d' := by
  unfold step at hs
  dsimp only at hs
  split at hs
  · exact .inl (Option.some.inj hs).symm
  · rename_i req rest hc
    exact .inr ⟨req, rest, hc, hs⟩

end

/-- Every turn keeps the invariant, with the grant it makes. -/
theorem step_sound {op : Op C V H} (h : Sound G (.rest d)) (hs : d.step op = some d') :
    Sound (granted G d op) (.rest d') := by
  have path : Path (fun _ => True) (Flight.rest d) (.rest d') → Sound G (.rest d') := h.path
  cases op with
  | commit_watch root key value debounce =>
    obtain rfl := Option.some.inj hs
    refine (h.commit_watch root key value debounce).grant ?_
    cases hn : (d.commit_watch root key value debounce).needs_rescan[d.next_subscription]? with
    | none => exact hn
    | some q => exact absurd (.inl hn) ((commit_idle h root key value debounce).owed q)
  | commit_widen handle fs_key key value debounce repointed => exact commit_widen_sound h hs
  | restore_disarmed_root old new_handle root_key order => exact repoint_sound h restore_live hs
  | rescan_live_root root root_key order =>
    exact path (rescan_live_root_path trivial (fun _ => trivial) hs)
  | retire_root handle root_key order => exact retire_root_sound h hs
  | claim sub =>
    obtain rfl := Option.some.inj hs
    exact h.claim sub
  | drop_orphan sub | unwatch sub =>
    obtain ⟨d₁, hd₁, hs⟩ := release_subscription_eq hs
    have h₁ := h.path (retire_syncs_of_subscription_path (P := fun _ => True) trivial hd₁)
    rcases hs with ⟨-, rfl⟩ | ⟨-, rfl⟩
    · exact h₁
    · exact h₁.release sub
  | source_event event root_key recorded order gate =>
    cases hk : root_key.isNone with
    | true =>
      obtain ⟨d₁, hd₁, hs⟩ := source_event_gone hk hs
      exact (retire_root_sound h hd₁).path (drain_coalescer_due_path (P := fun _ => True) trivial hs)
    | false =>
      obtain ⟨d₁, -, hp₁, hp₂⟩ := source_event_path hk hs
      exact (h.path hp₁).path hp₂
  | flush_pending_rescans =>
    obtain rfl := Option.some.inj hs
    exact path (flush_pending_rescans_path trivial fun x hx => absurd hx List.not_mem_nil)
  | drain_coalescer_due => exact path (drain_coalescer_due_path trivial hs)
  | drain_owed_once =>
    obtain rfl := Option.some.inj hs
    exact path (drain_owed_once_path trivial trivial)
  | sync sub =>
    obtain rfl := Option.some.inj hs
    exact h.quiet { Quiet.refl d with }
  | on_sync begun =>
    rcases on_sync_turn hs with rfl | ⟨req, rest, -, hs⟩
    · exact h
    · have hq : Quiet d { d with sync_commands := rest } := { Quiet.refl d with }
      exact (h.quiet hq).path (on_sync_path (P := fun _ => True) trivial hs)
  | abandon ticket =>
    obtain rfl := Option.some.inj hs
    refine h.quiet ?_
    split
    · exact { Quiet.refl d with }
    · exact .refl d
  | prune_abandoned_syncs => exact path (prune_abandoned_syncs_path trivial hs)
  | source_forgot =>
    obtain rfl := Option.some.inj hs
    exact path (quiet_path trivial { Quiet.refl d with })
  | teardown =>
    obtain rfl := Option.some.inj hs
    exact path (teardown_path trivial d)
  | recv =>
    obtain rfl := Option.some.inj hs
    exact h.received (recv_sent d.events)
  | hang_up =>
    obtain rfl := Option.some.inj hs
    exact h.received rfl

/-! ### Runs -/

/-- The brand and the next subscription, which only commits move. -/
def mints (d : Delivery C V H) : InstanceId × Proto.ScopeId := (d.instance_id, d.next_sub)

section
omit [LawfulEqOrd C] [DecidableEq C] [DecidableEq H]

theorem Owing.mints_eq {covers : List (List C)} {epoch : Epoch} {value : Option V}
    (ho : Owing d d' s covers epoch value) : d'.mints = d.mints := by
  unfold mints
  rw [ho.instance_id, ho.next_sub]

end

section
omit [LawfulEqOrd C] [DecidableEq H]

theorem park_mints (d : Delivery C V H) (s : Subscription) : (d.park_rescan s).mints = d.mints := by
  cases hg : d.grant_of s with
  | none =>
    rw [park_rescan_gone hg]
    rfl
  | some g =>
    rw [park_rescan_live hg]
    obtain ⟨epoch, -, ho, -, -⟩ := owing_shed d s g.1 (some g.2)
    exact ho.mints_eq

theorem move_mints {act : Act C V} (hm : Move act F F') : F'.d.mints = F.d.mints := by
  cases hm with
  | @quiet d d' i a r hq =>
    show d'.mints = d.mints
    unfold mints
    rw [hq.instance_id, hq.next_sub]
  | @shed d i a r t key value hg =>
    obtain ⟨epoch, -, ho, -, -⟩ := owing_shed d t key (some value)
    exact ho.mints_eq
  | overflow => exact park_mints _ _
  | @emit d i a r ev =>
    have hemits := try_emit_emits d ev
    show (d.try_emit ev).mints = d.mints
    generalize d.try_emit ev = d' at hemits ⊢
    cases hemits with
    | sent ho hsend => rfl
    | closed hc => rfl
    | parked hr => exact (owing_park_event d ev).mints_eq
    | widened ho hr =>
      obtain ⟨epoch, -, how, -, -⟩ := owing_widen d ev ho
      exact how.mints_eq
    | shed ho hr => exact park_mints _ _
  | _ => rfl

theorem path_mints {P : Act C V → Prop} (hp : Path P F F') : F'.d.mints = F.d.mints := by
  induction hp with
  | refl => rfl
  | tail _ hm ih =>
    obtain ⟨act, -, hm⟩ := hm
    exact (move_mints hm).trans ih

theorem rest_mints (hp : Path (fun _ => True) (Flight.rest d) (.rest d')) : d'.mints = d.mints :=
  path_mints hp

end

section
omit [LawfulEqOrd C] [DecidableEq C] [DecidableEq H]

theorem retire_all_mints (l : List Subscription) : ∀ d : Delivery C V H,
    (l.foldl retire_one d).mints = d.mints := by
  induction l with
  | nil => exact fun d => rfl
  | cons s l ih => exact fun d => (ih _).trans rfl

end

section
omit [DecidableEq C] [DecidableEq H]

theorem commit_mints (h : Sound G (.rest d)) (root : H) (key : List C) (value : V) (debounce : Debounce) :
    (d.commit_watch root key value debounce).mints = (d.instance_id, d.next_sub.succ) := by
  obtain ⟨coalescer, he, -, -⟩ := commit_watch_eq h root key value debounce
  rw [he]
  rfl

end

/-- A turn that grants mints one subscription. -/
theorem step_mints {op : Op C V H} (h : Sound G (.rest d)) (hs : d.step op = some d') :
    d'.mints = (d.instance_id, if op.grant.isSome then d.next_sub.succ else d.next_sub) := by
  have path : Path (fun _ => True) (Flight.rest d) (.rest d') → d'.mints = d.mints := rest_mints
  cases op with
  | commit_watch root key value debounce =>
    obtain rfl := Option.some.inj hs
    exact commit_mints h root key value debounce
  | commit_widen handle fs_key key value debounce repointed =>
    obtain ⟨d₁, hr, rfl⟩ := commit_widen_eq hs
    have hl : ∀ s ∈ repointed.filter (fun sub => d.subs.contains sub), ∃ k v,
        (d.commit_watch handle key value debounce).grant_of s = some (k, v) := by
      intro s hs
      obtain ⟨k, v, hg⟩ := contains_grant (List.mem_filter.mp hs).2
      exact ⟨k, v, (commit_keeps h hg).1⟩
    obtain ⟨d₂, rescans, -, hp₁, hp₂⟩ := repoint_and_push_path hl hr
    exact ((path_mints hp₂).trans (path_mints hp₁)).trans (commit_mints h handle key value debounce)
  | restore_disarmed_root old new_handle root_key order =>
    obtain ⟨d₁, rescans, -, hp₁, hp₂⟩ := repoint_and_push_path restore_live hs
    exact (path_mints hp₂).trans (path_mints hp₁)
  | rescan_live_root root root_key order =>
    exact path (rescan_live_root_path trivial (fun _ => trivial) hs)
  | retire_root handle root_key order =>
    obtain ⟨d₁, hd₁, rfl⟩ := retire_root_eq hs
    exact (retire_all_mints _ _).trans
      (rest_mints (rescan_live_root_path trivial (fun _ => trivial) hd₁))
  | claim sub =>
    obtain rfl := Option.some.inj hs
    rfl
  | drop_orphan sub | unwatch sub =>
    obtain ⟨d₁, hd₁, hs⟩ := release_subscription_eq hs
    have h₁ := rest_mints (retire_syncs_of_subscription_path trivial hd₁)
    rcases hs with ⟨-, rfl⟩ | ⟨-, rfl⟩
    · exact h₁
    · exact h₁
  | source_event event root_key recorded order gate =>
    cases hk : root_key.isNone with
    | true =>
      obtain ⟨d₁, hd₁, hs⟩ := source_event_gone hk hs
      obtain ⟨d₂, hd₂, rfl⟩ := retire_root_eq hd₁
      exact (rest_mints (drain_coalescer_due_path trivial hs)).trans
        ((retire_all_mints _ _).trans
          (rest_mints (rescan_live_root_path trivial (fun _ => trivial) hd₂)))
    | false =>
      obtain ⟨d₁, -, hp₁, hp₂⟩ := source_event_path hk hs
      exact (path_mints hp₂).trans (path_mints hp₁)
  | flush_pending_rescans =>
    obtain rfl := Option.some.inj hs
    exact path (flush_pending_rescans_path trivial fun x hx => absurd hx List.not_mem_nil)
  | drain_coalescer_due => exact path (drain_coalescer_due_path trivial hs)
  | drain_owed_once =>
    obtain rfl := Option.some.inj hs
    exact path (drain_owed_once_path trivial trivial)
  | sync sub =>
    obtain rfl := Option.some.inj hs
    rfl
  | on_sync begun =>
    rcases on_sync_turn hs with rfl | ⟨req, rest, -, hs⟩
    · rfl
    · exact (rest_mints (on_sync_path trivial hs)).trans rfl
  | abandon ticket =>
    obtain rfl := Option.some.inj hs
    show mints (if _ then _ else _) = _
    split
    · rfl
    · rfl
  | prune_abandoned_syncs => exact path (prune_abandoned_syncs_path trivial hs)
  | source_forgot =>
    obtain rfl := Option.some.inj hs
    exact path (quiet_path trivial { Quiet.refl d with })
  | teardown =>
    obtain rfl := Option.some.inj hs
    exact path (teardown_path trivial d)
  | recv =>
    obtain rfl := Option.some.inj hs
    rfl
  | hang_up =>
    obtain rfl := Option.some.inj hs
    rfl

/-- The grants of a run: its `n`th grant is of the `n`th subscription. -/
def grants (instance_id : InstanceId) (ops : List (Op C V H)) (s : Subscription) :
    Option (List C × V) :=
  if s.instance_id = instance_id then (ops.filterMap Op.grant)[s.scope.as_u64 - 1]? else none

section
omit [Ord C] [TransOrd C] [LawfulEqOrd C] [DecidableEq C] [DecidableEq H]

/-- A commit grants the next subscription. -/
theorem granting_grants {instance_id : InstanceId} {ops : List (Op C V H)} {op : Op C V H}
    {g : List C × V} {scope : Proto.ScopeId} (hg : op.grant = some g)
    (hn : scope.as_u64 = (ops.filterMap Op.grant).length + 1) :
    granting (grants instance_id ops) ⟨instance_id, scope⟩ g = grants instance_id (ops ++ [op]) := by
  have hlist : (ops ++ [op]).filterMap Op.grant = ops.filterMap Op.grant ++ [g] := by
    rw [List.filterMap_append]
    simp [hg]
  funext t
  unfold granting grants
  rw [hlist]
  by_cases ht : t = ⟨instance_id, scope⟩
  · subst ht
    rw [if_pos rfl, if_pos rfl, hn, Nat.add_sub_cancel, List.getElem?_append_right (Nat.le_refl _),
      Nat.sub_self]
    rfl
  · rw [if_neg ht]
    by_cases hi : t.instance_id = instance_id
    · rw [if_pos hi, if_pos hi]
      -- any other scope is not the next
      have hne : t.scope.as_u64 ≠ scope.as_u64 := by
        intro he
        apply ht
        rw [← hi, ← Proto.ProtoId.ext he]
      have hpos := t.scope.nonzero
      by_cases hlt : t.scope.as_u64 - 1 < (ops.filterMap Op.grant).length
      · rw [List.getElem?_append_left hlt]
      · rw [List.getElem?_eq_none (Nat.le_of_not_lt hlt), List.getElem?_eq_none]
        rw [List.length_append, List.length_singleton]
        omega
    · rw [if_neg hi, if_neg hi]

end

/-- What holds after every run. -/
structure Standing (instance_id : InstanceId) (ops : List (Op C V H)) (d : Delivery C V H) : Prop where
  sound : Sound (grants instance_id ops) (.rest d)
  sorted : (Flight.rest d).Sorted
  brand : d.instance_id = instance_id
  next : d.next_sub.as_u64 = (ops.filterMap Op.grant).length + 1

section
omit [LawfulEqOrd C] [DecidableEq C] [DecidableEq H]

theorem sorted_rest (d : Delivery C V H) : (Flight.rest d).Sorted :=
  ⟨List.Pairwise.nil, fun _ _ _ hy => absurd hy List.not_mem_nil⟩

theorem standing_new (instance_id : InstanceId) (capacity : Nat) (debounce : Option DebounceConfig)
    (is_sync_artifact : List C → Bool) (elapsed : Nat → Nat) (far_future : Nat → Instant)
    (forgets : Nat → Bool) :
    Standing instance_id []
      (new (V := V) (H := H) instance_id capacity debounce is_sync_artifact elapsed far_future forgets) := by
  refine ⟨⟨?_, ?_, ?_, ?_, ?_, ?_, ?_, ?_, ?_⟩, sorted_rest _, rfl, rfl⟩
  · intro s g hg
    simp [new, grant_of] at hg
  · intro s g hg
    simp [grants] at hg
  · intro c hc
    obtain ⟨config, -, rfl⟩ := Option.map_eq_some_iff.mp hc
    exact ⟨Coalescer.Kept.new _, Coalescer.new_lifecycle _⟩
  · intro x hx
    obtain ⟨c, hc, hw⟩ := holds_rest.mp hx
    obtain ⟨config, -, rfl⟩ := Option.map_eq_some_iff.mp hc
    exact absurd hw (Coalescer.new_waits _)
  · intro s q hq
    simp [new, Owed] at hq
  · intro s q hq
    simp [new] at hq
  · intro s q hq
    simp [new] at hq
  · intro x hx
    exact absurd hx List.not_mem_nil
  · intro t
    simp [new, mark, EpochLedger.new, EpochLedger.high_water_of, Epoch.START]

end

theorem standing_step {instance_id : InstanceId} {ops : List (Op C V H)} {op : Op C V H}
    (h : Standing instance_id ops d) (hs : d.step op = some d') :
    Standing instance_id (ops ++ [op]) d' := by
  have hmints := step_mints h.sound hs
  have hbrand : d'.instance_id = d.instance_id := congrArg Prod.fst hmints
  have hnext : d'.next_sub = if op.grant.isSome then d.next_sub.succ else d.next_sub :=
    congrArg Prod.snd hmints
  have hsound := step_sound h.sound hs
  refine ⟨?_, sorted_rest _, hbrand.trans h.brand, ?_⟩
  · have hscope : d.next_subscription = ⟨instance_id, d.next_sub⟩ := by
      unfold next_subscription
      rw [h.brand]
    unfold granted at hsound
    cases hg : op.grant with
    | none =>
      rw [hg] at hsound
      have he : grants instance_id (ops ++ [op]) = grants instance_id ops := by
        unfold grants
        rw [List.filterMap_append]
        simp [hg]
      rwa [he]
    | some g =>
      rw [hg, hscope] at hsound
      have hsound : Sound (granting (grants instance_id ops) ⟨instance_id, d.next_sub⟩ g) (.rest d') :=
        hsound
      rwa [granting_grants hg h.next] at hsound
  · rw [hnext, List.filterMap_append, List.length_append]
    cases hg : op.grant with
    | none => simpa [hg] using h.next
    | some g =>
      show d.next_sub.as_u64 + 1 = _
      simp [hg, h.next]

/-- Every run keeps the invariant. -/
theorem standing_run {instance_id : InstanceId} (ops : List (Op C V H)) :
    ∀ (done : List (Op C V H)) (d d' : Delivery C V H), Standing instance_id done d →
      d.run ops = some d' → Standing instance_id (done ++ ops) d' := by
  induction ops with
  | nil =>
    intro done d d' h hr
    obtain rfl := Option.some.inj hr
    rwa [List.append_nil]
  | cons op ops ih =>
    intro done d d' h hr
    unfold run at hr
    rw [List.foldlM_cons] at hr
    obtain ⟨d₁, hd₁, hr⟩ := Option.bind_eq_some_iff.mp hr
    have := ih (done ++ [op]) d₁ d' (standing_step h hd₁) hr
    rwa [List.append_assoc] at this

end Delivery

end Umbrella
