import Tributaries.Umbrella.Lossless
import Tributaries.Umbrella.Precedence

/-! # What a barrier certifies

  A caller whose barrier is answered as delivered may rely on it: nothing of
  its subscription settles or is owed at the end of that turn, so every change
  taken on before has been told, or a `Rescan` that was told covers it.
-/

open Std Collections

namespace Umbrella

namespace Delivery

variable {C V H : Type} [Ord C] [TransOrd C] [LawfulEqOrd C] [DecidableEq C] [DecidableEq H]
  {G : Subscription → Option (List C × V)} {F F' : Flight C V H} {d d' d'' d₀ : Delivery C V H}
  {s : Subscription} {x ev : Event C V} {evs : List (Event C V)} {act : Act C V}

/-! ### What a flush leaves -/

theorem try_emit_all_waits (evs : List (Event C V)) : ∀ d : Delivery C V H, Sound G ⟨d, [], evs, []⟩ →
    (d.try_emit_all evs).Waits x → d.Waits x := by
  induction evs with
  | nil => exact fun d _ hx => hx
  | cons ev evs ih =>
    intro d h hx
    exact emit_waits_back h (ih _ (h.move .emit) hx)

/-- Nothing of a flushed subscription settles any more. -/
theorem flush_now_settles {clean : Bool} (h : Sound G (.rest d))
    (hf : d.flush_subscription_now s = some (clean, d')) : d'.Settled s := by
  intro x hx hs
  unfold flush_subscription_now at hf
  dsimp only at hf
  split at hf
  · rename_i hc
    obtain rfl := congrArg Prod.snd (Option.some.inj hf)
    obtain ⟨c, hc', -⟩ := hx
    rw [hc] at hc'
    cases hc'
  · rename_i c hc
    obtain ⟨⟨out, c'⟩, hd, hf⟩ := Option.bind_eq_some_iff.mp hf
    obtain rfl := congrArg Prod.snd (Option.some.inj hf)
    have hnow : Sound G (.rest d.now) := h.quiet (quiet_now d)
    have hflush : Sound G (.rest { d.now with coalescer := some (c.flush_subscription s d.now.clock) }) :=
      hnow.move (.flush hc)
    have hkept := (hnow.kept c hc).1
    have hdrained : Sound G ⟨{ d.now with coalescer := some c' }, [], out, []⟩ := hflush.move (.drain rfl hd)
    -- what settles after the emissions settled before them
    obtain ⟨c'', hc'', hw⟩ := try_emit_all_waits out _ hdrained hx
    obtain rfl := Option.some.inj hc''
    obtain ⟨out', c₁, hd', -, -, -, hleft, hready⟩ := (hflush.kept _ rfl).1.drain (Nat.le_refl _)
    obtain ⟨rfl, rfl⟩ := Prod.mk.inj (Option.some.inj (hd.symm.trans hd'))
    rcases hw with ⟨k, b, hb, rfl⟩ | ⟨r, hr, -⟩
    · -- it settled before the drain, and the flush had left nothing of it
      have hb := ((hleft k b).mp hb).1
      have hk : k.1 = s := by
        rw [← hs, ← ((hflush.kept _ rfl).1.indexed.placed k b hb)]
        rfl
      rw [Coalescer.flush_settled hkept s _ hk] at hb
      cases hb
    · rw [hready] at hr
      exact absurd hr List.not_mem_nil

section
omit [LawfulEqOrd C] [DecidableEq H]

/-- A clean flush found nothing owed in the plane of claimed subscriptions. -/
theorem flush_now_clean (hf : d.flush_subscription_now s = some (true, d')) :
    d'.needs_rescan[s]? = none := by
  have clean : ∀ {d' : Delivery C V H}, (!d'.needs_rescan.contains s) = true →
      d'.needs_rescan[s]? = none := by
    intro d' hc
    exact contains_false_iff.mp (by simpa using hc)
  unfold flush_subscription_now at hf
  dsimp only at hf
  split at hf
  · obtain ⟨hc, rfl⟩ := Prod.mk.inj (Option.some.inj hf)
    exact clean hc
  · obtain ⟨⟨out, c'⟩, hd, hf⟩ := Option.bind_eq_some_iff.mp hf
    obtain ⟨hc, rfl⟩ := Prod.mk.inj (Option.some.inj hf)
    exact clean hc

end

/-! ### The desk -/

/-- What is kept of barriers, and of the subscriptions they are for. -/
structure Desk (C V H : Type) where
  subs : Map Subscription (Granted C V H)
  commands : List SyncRequest
  pending : List (PendingSync C H)
  next_ticket : Nat
  canceled : OSet Nat
  answers : List (Nat × SyncAnswer)
  reaped : List (H × List C)
  source_quarantined : Bool
  forgets : Nat → Bool

def desk (d : Delivery C V H) : Desk C V H :=
  ⟨d.subs, d.sync_commands, d.pending_syncs, d.next_ticket, d.canceled, d.answers, d.reaped,
    d.source_quarantined, d.forgets⟩

section
omit [TransOrd C] [LawfulEqOrd C] [DecidableEq H]

theorem merge_owed_desk (d : Delivery C V H) (s : Subscription) (key : List C) (epoch : Proto.Epoch)
    (value : Option V) : (d.merge_owed s key epoch value).desk = d.desk := by
  unfold merge_owed
  split
  · rfl
  · rfl

end

section
omit [LawfulEqOrd C] [DecidableEq H]

theorem park_rescan_desk (d : Delivery C V H) (s : Subscription) : (d.park_rescan s).desk = d.desk := by
  unfold park_rescan
  dsimp only
  split
  · rfl
  · exact merge_owed_desk ((d.note_loss s).shed s).2 s _ _ _

theorem try_emit_desk (d : Delivery C V H) (ev : Event C V) : (d.try_emit ev).desk = d.desk := by
  have parked : (d.park_rescan_event ev).desk = d.desk :=
    merge_owed_desk (d.note_loss ev.subscription) ev.subscription ev.key ev.epoch ev.value
  unfold try_emit
  split
  · split
    · exact parked
    · rfl
  · split
    · rfl
    · split
      · exact parked
      · exact park_rescan_desk d ev.subscription
    · rfl

theorem try_emit_all_desk (evs : List (Event C V)) : ∀ d : Delivery C V H,
    (d.try_emit_all evs).desk = d.desk := by
  induction evs with
  | nil => exact fun d => rfl
  | cons ev evs ih => exact fun d => (ih _).trans (try_emit_desk d ev)

theorem push_all_desk (hp : d.push_all evs = some d') : d'.desk = d.desk := by
  have overflow : ∀ (l : List Subscription) (d : Delivery C V H), (l.foldl park_rescan d).desk = d.desk := by
    intro l
    induction l with
    | nil => exact fun d => rfl
    | cons s l ih => exact fun d => (ih _).trans (park_rescan_desk d s)
  unfold push_all at hp
  split at hp
  · obtain rfl := Option.some.inj hp
    exact try_emit_all_desk evs d
  · obtain ⟨⟨out, c'⟩, hd, hp⟩ := Option.bind_eq_some_iff.mp hp
    obtain rfl := Option.some.inj hp
    exact (try_emit_all_desk out _).trans (overflow _ _)

theorem drain_coalescer_due_desk (hd : d.drain_coalescer_due = some d') : d'.desk = d.desk := by
  unfold drain_coalescer_due at hd
  split at hd
  · obtain rfl := Option.some.inj hd
    rfl
  · obtain ⟨⟨out, c'⟩, -, hd⟩ := Option.bind_eq_some_iff.mp hd
    obtain rfl := Option.some.inj hd
    exact try_emit_all_desk out _

theorem flush_now_desk {clean : Bool} (hf : d.flush_subscription_now s = some (clean, d')) :
    d'.desk = d.desk := by
  unfold flush_subscription_now at hf
  dsimp only at hf
  split at hf
  · obtain rfl := congrArg Prod.snd (Option.some.inj hf)
    rfl
  · obtain ⟨⟨out, c'⟩, -, hf⟩ := Option.bind_eq_some_iff.mp hf
    obtain rfl := congrArg Prod.snd (Option.some.inj hf)
    exact try_emit_all_desk out _

end

section
omit [TransOrd C] [LawfulEqOrd C] [DecidableEq C] [DecidableEq H]

theorem flush_pending_rescans_desk (d : Delivery C V H) : d.flush_pending_rescans.desk = d.desk := by
  have visits : ∀ (n : Nat) (bound : ParkedRescans.Bound) (d : Delivery C V H),
      (d.flush_visits n bound).desk = d.desk := by
    intro n
    induction n with
    | zero => exact fun bound d => rfl
    | succ n ih =>
      intro bound d
      unfold flush_visits
      split
      · rfl
      · split
        · exact ih _ _
        · split
          · exact ih _ _
          · exact ih _ _
          · rfl
  unfold flush_pending_rescans
  split
  · rfl
  · split
    · rfl
    · exact visits _ _ d

end

section
omit [LawfulEqOrd C] [DecidableEq H]

theorem drain_owed_once_desk (d : Delivery C V H) : d.drain_owed_once.desk = d.desk := by
  unfold drain_owed_once
  dsimp only
  exact (try_emit_all_desk _ _).trans (flush_pending_rescans_desk _)

end

/-! ### Scans -/

theorem swap_remove_perm {α : Type} {l : List α} {i : Nat} {x : α} (h : l[i]? = some x) :
    l.Perm (x :: swap_remove l i) := by
  obtain ⟨hi, rfl⟩ := List.getElem?_eq_some_iff.mp h
  have hne : l ≠ [] := fun hn => by simp [hn] at hi
  have hlast : l.getLast? = some (l.getLast hne) := List.getLast?_eq_some_getLast hne
  unfold swap_remove
  rw [hlast]
  dsimp only
  -- what is dropped is the copy that stays
  have hset : l.set i (l.getLast hne) ≠ [] := by simpa using hne
  have hlast' : (l.set i (l.getLast hne)).getLast hset = l.getLast hne := by
    simp only [List.getLast_eq_getElem, List.length_set, List.getElem_set]
    split
    · rfl
    · rfl
  have h₁ : (l.set i (l.getLast hne)).Perm (l.getLast hne :: (l.set i (l.getLast hne)).dropLast) := by
    have hsplit := List.dropLast_concat_getLast hset
    rw [hlast'] at hsplit
    have hp := List.perm_append_singleton (l.getLast hne) (l.set i (l.getLast hne)).dropLast
    rw [hsplit] at hp
    exact hp
  have h₂ := List.set_perm_cons_eraseIdx hi (l.getLast hne)
  have h₃ := (List.perm_cons _).mp (h₂.symm.trans h₁)
  exact (List.getElem_cons_eraseIdx_perm hi).symm.trans (h₃.cons _)

theorem swap_remove_take {α : Type} {l : List α} {i : Nat} (hi : i < l.length) :
    (swap_remove l i).take i = l.take i := by
  have hne : l ≠ [] := fun hn => by simp [hn] at hi
  have hlast : l.getLast? = some (l.getLast hne) := List.getLast?_eq_some_getLast hne
  unfold swap_remove
  rw [hlast]
  dsimp only
  rw [List.dropLast_eq_take, List.take_take, List.length_set, Nat.min_eq_left (by omega),
    List.take_set_of_le (Nat.le_refl i)]

theorem mem_swap_remove {α : Type} {l : List α} {i : Nat} {x y : α} (h : l[i]? = some x)
    (hy : y ∈ swap_remove l i) : y ∈ l :=
  (swap_remove_perm h).mem_iff.mpr (List.mem_cons_of_mem x hy)

section
omit [TransOrd C] [LawfulEqOrd C] [DecidableEq C] [DecidableEq H]

/-- What taking one barrier out and settling it does, a scan does. -/
theorem sweep_settles {R : Delivery C V H → Delivery C V H → Prop} {hit : PendingSync C H → Bool}
    {settle : Delivery C V H → PendingSync C H → Option (Delivery C V H)} (hrefl : ∀ d, R d d)
    (htrans : ∀ {d₁ d₂ d₃}, R d₁ d₂ → R d₂ d₃ → R d₁ d₃)
    (hone : ∀ d i p d', d.pending_syncs[i]? = some p → hit p = true →
      settle { d with pending_syncs := swap_remove d.pending_syncs i } p = some d' → R d d')
    (fuel : Nat) : ∀ (i : Nat) (d d' : Delivery C V H), sweep hit settle fuel i d = some d' → R d d' := by
  induction fuel with
  | zero =>
    intro i d d' h
    obtain rfl := Option.some.inj h
    exact hrefl d
  | succ fuel ih =>
    intro i d d' h
    unfold sweep at h
    split at h
    · obtain rfl := Option.some.inj h
      exact hrefl d
    · rename_i p hp
      split at h
      · rename_i hit
        obtain ⟨d₁, hd₁, h⟩ := Option.bind_eq_some_iff.mp h
        exact htrans (hone d i p d₁ hp hit hd₁) (ih _ _ _ h)
      · exact ih _ _ _ h

/-- What a scan leaves waiting: every barrier it does not hit. -/
theorem sweep_left {hit : PendingSync C H → Bool}
    {settle : Delivery C V H → PendingSync C H → Option (Delivery C V H)}
    (hsettle : ∀ d p d', settle d p = some d' → d'.pending_syncs = d.pending_syncs) (fuel : Nat) :
    ∀ (i : Nat) (d d' : Delivery C V H), d.pending_syncs.length ≤ i + fuel →
      (∀ p ∈ d.pending_syncs.take i, hit p = false) → sweep hit settle fuel i d = some d' →
      d'.pending_syncs.Perm (d.pending_syncs.filter fun p => !hit p) := by
  have whole : ∀ (i : Nat) (l : List (PendingSync C H)), l.length ≤ i →
      (∀ p ∈ l.take i, hit p = false) → l.Perm (l.filter fun p => !hit p) := by
    intro i l hlen hl
    rw [List.take_of_length_le hlen] at hl
    rw [List.filter_eq_self.mpr fun p hp => by rw [hl p hp]; rfl]
  induction fuel with
  | zero =>
    intro i d d' hlen hl h
    obtain rfl := Option.some.inj h
    exact whole i _ hlen hl
  | succ fuel ih =>
    intro i d d' hlen hl h
    unfold sweep at h
    split at h
    · rename_i hn
      obtain rfl := Option.some.inj h
      exact whole i _ (List.getElem?_eq_none_iff.mp hn) hl
    · rename_i p hp
      obtain ⟨hi, rfl⟩ := List.getElem?_eq_some_iff.mp hp
      split at h
      · rename_i hhit
        obtain ⟨d₁, hd₁, h⟩ := Option.bind_eq_some_iff.mp h
        have hpending : d₁.pending_syncs = swap_remove d.pending_syncs i := hsettle _ _ _ hd₁
        have hperm := swap_remove_perm hp
        have hlen' := hperm.length_eq
        rw [List.length_cons] at hlen'
        have hleft := ih i d₁ d' (by rw [hpending]; omega) ?_ h
        · -- the one taken out was hit
          have hfilter := hperm.filter fun p => !hit p
          rw [List.filter_cons_of_neg (by simp [hhit])] at hfilter
          rw [hpending] at hleft
          exact hleft.trans hfilter.symm
        · rw [hpending, swap_remove_take hi]
          exact hl
      · rename_i hmiss
        refine ih (i + 1) d d' (by omega) (fun p hp => ?_) h
        rw [List.take_succ_eq_append_getElem hi] at hp
        rcases List.mem_append.mp hp with hp | hp
        · exact hl p hp
        · rw [List.mem_singleton.mp hp]
          exact Bool.eq_false_iff.mpr hmiss

end

/-- A relation of one state to the next that holds where nothing is filed, and where a
    barrier is answered and its cookie given up for removal. -/
structure Filing (R : Delivery C V H → Delivery C V H → Prop) : Prop where
  same : ∀ {d d' : Delivery C V H}, d'.desk = d.desk → R d d'
  trans : ∀ {d₁ d₂ d₃ : Delivery C V H}, R d₁ d₂ → R d₂ d₃ → R d₁ d₃
  answered : ∀ {d d' : Delivery C V H} {i : Nat} {p : PendingSync C H} {answer : SyncAnswer},
    d.pending_syncs[i]? = some p → answer ≠ .delivered →
    d'.desk = { (d.reap_cookie p.root p.cookie_key).desk with
      pending := swap_remove d.pending_syncs i
      answers := d.answers ++ [(p.ticket, answer)] } → R d d'

namespace Filing

variable {R : Delivery C V H → Delivery C V H → Prop}

section
omit [TransOrd C] [LawfulEqOrd C] [DecidableEq C] [DecidableEq H]

theorem refl (hR : Filing R) (d : Delivery C V H) : R d d := hR.same rfl

/-- A scan that answers every barrier it takes out. -/
theorem settles (hR : Filing R) {hit : PendingSync C H → Bool} {answer : SyncAnswer}
    (ha : answer ≠ .delivered)
    (h : d.sweep_all hit (fun d p => some (d.settle_sync answer p)) = some d') : R d d' := by
  refine sweep_settles hR.refl hR.trans (fun d i p d' hp _ hs => ?_) _ _ _ _ h
  obtain rfl := Option.some.inj hs
  exact hR.answered hp ha rfl

theorem dominate_subscription (hR : Filing R) (h : d.dominate_syncs_of_subscription s = some d') :
    R d d' := by
  have hn : R d d.note_domination := hR.same rfl
  exact hR.trans hn (hR.settles (by decide) h)

end

section
omit [TransOrd C] [LawfulEqOrd C] [DecidableEq C]

theorem dominate_root (hR : Filing R) {root : H} (h : d.dominate_syncs_of_root root = some d') :
    R d d' := by
  have hn : R d d.note_domination := hR.same rfl
  exact hR.trans hn (hR.settles (by decide) h)

end

section
omit [TransOrd C] [LawfulEqOrd C] [DecidableEq C] [DecidableEq H]

theorem retire_subscription (hR : Filing R) (h : d.retire_syncs_of_subscription s = some d') : R d d' :=
  hR.settles (by decide) h

end

section
omit [LawfulEqOrd C]

theorem dominate_pending (hR : Filing R) {event : SourceEvent C H}
    (h : d.dominate_pending_syncs event = some d') : R d d' := by
  have hn : R d d.note_domination := hR.same rfl
  refine hR.trans hn (sweep_settles hR.refl hR.trans (fun d i p d' hp _ hs => ?_) _ _ _ _ h)
  obtain ⟨⟨clean, d₁⟩, hd₁, hs⟩ := Option.bind_eq_some_iff.mp hs
  obtain rfl := Option.some.inj hs
  have hdesk := flush_now_desk hd₁
  have hne : SyncAnswer.dominated ≠ .delivered := by decide
  apply hR.answered hp hne
  show ({ d₁.desk with answers := d₁.desk.answers ++ [(p.ticket, .dominated)] } : Desk C V H) = _
  rw [hdesk]
  rfl

end

section
omit [TransOrd C] [LawfulEqOrd C] [DecidableEq C] [DecidableEq H]

theorem foldlM (hR : Filing R) {α : Type} {f : Delivery C V H → α → Option (Delivery C V H)}
    (hf : ∀ d d' x, f d x = some d' → R d d') (l : List α) : ∀ d d' : Delivery C V H,
    l.foldlM f d = some d' → R d d' := by
  induction l with
  | nil =>
    intro d d' h
    obtain rfl := Option.some.inj h
    exact hR.refl d
  | cons x l ih =>
    intro d d' h
    rw [List.foldlM_cons] at h
    obtain ⟨d₁, hd₁, h⟩ := Option.bind_eq_some_iff.mp h
    exact hR.trans (hf _ _ _ hd₁) (ih _ _ h)

end

section
omit [LawfulEqOrd C] [DecidableEq H]

theorem quarantine (hR : Filing R) (h : d.quarantine_filter s = some d') : R d d' := by
  unfold quarantine_filter at h
  split at h
  · obtain rfl := Option.some.inj h
    exact hR.refl d
  · split at h
    · obtain rfl := Option.some.inj h
      exact hR.refl d
    · refine hR.trans (hR.same ?_) (hR.dominate_subscription h)
      exact merge_owed_desk _ s _ _ _

end

section
omit [LawfulEqOrd C]

theorem fan_out_and_push (hR : Filing R) {raw : SourceEvent C H} {order : List Subscription}
    {gate : Gate C} {reserved : ReservedEndpoints}
    (h : d.fan_out_and_push raw order gate = some (reserved, d')) : R d d' := by
  unfold Delivery.fan_out_and_push at h
  dsimp only at h
  split at h
  · obtain rfl := congrArg Prod.snd (Option.some.inj h)
    exact hR.refl d
  · have hraw : (d.fan_out_raw raw (d.reserved_endpoints raw) order gate).2.2.desk = d.desk := rfl
    generalize d.fan_out_raw raw (d.reserved_endpoints raw) order gate = result at h hraw
    obtain ⟨fanned, poisoned, d₁⟩ := result
    have hraw : R d d₁ := hR.same hraw
    dsimp only at h
    split at h
    · obtain ⟨d₂, hd₂, h⟩ := Option.map_eq_some_iff.mp h
      obtain rfl := congrArg Prod.snd h
      exact hR.trans hraw (hR.same (push_all_desk hd₂))
    · obtain ⟨d₂, hd₂, h⟩ := Option.bind_eq_some_iff.mp h
      obtain ⟨d₃, hd₃, h⟩ := Option.bind_eq_some_iff.mp h
      obtain rfl := congrArg Prod.snd (Option.some.inj h)
      have hquarantine : R d₁ d₂ := hR.foldlM (fun _ _ _ hq => hR.quarantine hq) poisoned d₁ d₂ hd₂
      exact hR.trans hraw (hR.trans hquarantine
        (hR.same ((push_all_desk hd₃).trans (try_emit_all_desk _ d₂))))

theorem rescan_live_root (hR : Filing R) {root : H} {root_key : List C} {order : List Subscription}
    (h : d.rescan_live_root root root_key order = some d') : R d d' := by
  have rescans : ∀ (l : List Subscription) (d : Delivery C V H),
      (l.foldl (rescan_subscriber root_key) d).desk = d.desk := by
    intro l
    induction l with
    | nil => exact fun d => rfl
    | cons s l ih => exact fun d => (ih _).trans (merge_owed_desk ((d.note_loss s).shed s).2 s _ _ _)
  unfold Delivery.rescan_live_root at h
  dsimp only at h
  split at h
  · obtain rfl := Option.some.inj h
    exact hR.refl d
  · exact hR.trans (hR.same (rescans _ d)) (hR.dominate_root h)

end

end Filing

/-- The subscriptions are of no account to the relation. -/
structure Clerical (R : Delivery C V H → Delivery C V H → Prop) : Prop extends Filing R where
  regranted : ∀ {d d' : Delivery C V H}, d'.desk = { d.desk with subs := d'.subs } → R d d'

namespace Clerical

variable {R : Delivery C V H → Delivery C V H → Prop}

section
omit [LawfulEqOrd C]

theorem retire_root (hR : Clerical R) {handle : H} {root_key : List C} {order : List Subscription}
    (h : d.retire_root_with_terminal_rescan handle root_key order = some d') : R d d' := by
  have retired : ∀ (l : List Subscription) (d : Delivery C V H), R d (l.foldl retire_one d) := by
    intro l
    induction l with
    | nil => exact fun d => hR.refl d
    | cons s l ih =>
      intro d
      have hone : R d (d.retire_one s) := hR.regranted rfl
      exact hR.trans hone (ih _)
  obtain ⟨d₁, hd₁, rfl⟩ := retire_root_eq h
  exact hR.trans (hR.rescan_live_root hd₁) (retired _ d₁)

end

section
omit [LawfulEqOrd C] [DecidableEq H]

theorem repoint_and_push (hR : Clerical R) {handle : H} {fs_key : List C} {moved : List Subscription}
    (h : d.repoint_and_push handle fs_key moved = some d') : R d d' := by
  have repointed : ∀ (l : List Subscription) (acc : List (Event C V) × Delivery C V H),
      R acc.2 (l.foldl (repoint_one handle fs_key) acc).2 := by
    intro l
    induction l with
    | nil => exact fun acc => hR.refl acc.2
    | cons s l ih =>
      intro acc
      have hone : R acc.2 (repoint_one handle fs_key acc s).2 := hR.regranted rfl
      exact hR.trans hone (ih _)
  obtain ⟨d₁, hd₁, h⟩ := Option.bind_eq_some_iff.mp h
  have hpush : R d d₁ := hR.trans (repointed moved ([], d)) (hR.same (push_all_desk hd₁))
  exact hR.trans hpush (hR.foldlM (fun _ _ _ hd => hR.dominate_subscription hd) moved _ _ h)

end

end Clerical

section
omit [DecidableEq C] [DecidableEq H]

theorem commit_desk (h : Sound G (.rest d)) (root : H) (key : List C) (value : V) (debounce : Debounce) :
    (d.commit_watch root key value debounce).desk =
      { d.desk with subs := (d.commit_watch root key value debounce).subs } := by
  obtain ⟨coalescer, he, -, -⟩ := commit_watch_eq h root key value debounce
  rw [he]
  rfl

end

/-- The turns that only file: those that scan or take up barriers are the others. -/
def Op.is_clerical : Op C V H → Bool
  | .source_event .. | .sync _ | .on_sync _ | .abandon _ | .prune_abandoned_syncs
  | .source_forgot | .teardown => false
  | _ => true

/-- What filing does, each of these turns does. -/
theorem Clerical.turn {R : Delivery C V H → Delivery C V H → Prop} (hR : Clerical R) {op : Op C V H}
    (h : Sound G (.rest d)) (hop : op.is_clerical = true) (hs : d.step op = some d') : R d d' := by
  cases op with
  | commit_watch root key value debounce =>
    obtain rfl := Option.some.inj hs
    exact hR.regranted (commit_desk h root key value debounce)
  | commit_widen handle fs_key key value debounce repointed =>
    -- the watch commits, the roots it takes over are told, and the caller is granted it
    obtain ⟨d₁, hr, rfl⟩ := commit_widen_eq hs
    have hcommit : R d _ := hR.regranted (commit_desk h handle key value debounce)
    have hgrant : R d₁ (d₁.grant d.next_subscription) := hR.same rfl
    exact hR.trans (hR.trans hcommit (hR.repoint_and_push hr)) hgrant
  | restore_disarmed_root old new_handle root_key order => exact hR.repoint_and_push hs
  | rescan_live_root root root_key order => exact hR.rescan_live_root hs
  | retire_root handle root_key order => exact hR.retire_root hs
  | claim sub =>
    obtain rfl := Option.some.inj hs
    obtain ⟨needs, suppressed, he, -⟩ := claim_eq h sub
    rw [he]
    exact hR.same rfl
  | drop_orphan sub | unwatch sub =>
    obtain ⟨d₁, hd₁, hs⟩ := release_subscription_eq hs
    have hretire : R d d₁ := hR.retire_subscription hd₁
    rcases hs with ⟨-, rfl⟩ | ⟨-, rfl⟩
    · exact hretire
    · have hrelease : R d₁ (d₁.release_one sub) := hR.regranted rfl
      exact hR.trans hretire hrelease
  | flush_pending_rescans =>
    obtain rfl := Option.some.inj hs
    exact hR.same (flush_pending_rescans_desk d)
  | drain_coalescer_due => exact hR.same (drain_coalescer_due_desk hs)
  | drain_owed_once =>
    obtain rfl := Option.some.inj hs
    exact hR.same (drain_owed_once_desk d)
  | recv | hang_up =>
    obtain rfl := Option.some.inj hs
    exact hR.same rfl
  | source_event | sync | on_sync | abandon | prune_abandoned_syncs | source_forgot | teardown =>
    cases hop

/-! ### Answers -/

/-- No barrier is asked for, begun, or answered as delivered. -/
structure Undelivered (d d' : Delivery C V H) : Prop where
  commands : ∀ req ∈ d'.sync_commands, req ∈ d.sync_commands
  pending : ∀ p ∈ d'.pending_syncs, p ∈ d.pending_syncs
  answers : ∀ t, (t, SyncAnswer.delivered) ∈ d'.answers → (t, SyncAnswer.delivered) ∈ d.answers
  issued : d'.next_ticket = d.next_ticket

theorem mem_reply {answer : SyncAnswer} {answers : List (Nat × SyncAnswer)} {t t' : Nat}
    (ha : answer ≠ .delivered) (h : (t', SyncAnswer.delivered) ∈ answers ++ [(t, answer)]) :
    (t', SyncAnswer.delivered) ∈ answers := by
  rcases List.mem_append.mp h with h | h
  · exact h
  · have he := congrArg Prod.snd (List.mem_singleton.mp h)
    exact absurd he.symm ha

section
omit [TransOrd C] [LawfulEqOrd C] [DecidableEq C] [DecidableEq H]

theorem undelivered_clerical : Clerical (Undelivered (C := C) (V := V) (H := H)) where
  same := by
    intro d d' h
    have hc : d'.sync_commands = d.sync_commands := congrArg Desk.commands h
    have hp : d'.pending_syncs = d.pending_syncs := congrArg Desk.pending h
    have ha : d'.answers = d.answers := congrArg Desk.answers h
    exact ⟨fun req hm => hc ▸ hm, fun p hm => hp ▸ hm, fun t ht => ha ▸ ht, congrArg Desk.next_ticket h⟩
  trans := by
    intro d₁ d₂ d₃ h₁ h₂
    exact ⟨fun req hr => h₁.commands req (h₂.commands req hr),
      fun p hp => h₁.pending p (h₂.pending p hp), fun t ht => h₁.answers t (h₂.answers t ht),
      h₂.issued.trans h₁.issued⟩
  answered := by
    intro d d' i p answer hp ha h
    have hc : d'.sync_commands = d.sync_commands := congrArg Desk.commands h
    have hpending : d'.pending_syncs = swap_remove d.pending_syncs i := congrArg Desk.pending h
    have hanswers : d'.answers = d.answers ++ [(p.ticket, answer)] := congrArg Desk.answers h
    exact ⟨fun req hm => hc ▸ hm, fun p' hm => mem_swap_remove hp (hpending ▸ hm),
      fun t ht => mem_reply ha (hanswers ▸ ht), congrArg Desk.next_ticket h⟩
  regranted := by
    intro d d' h
    have hc : d'.sync_commands = d.sync_commands := congrArg Desk.commands h
    have hp : d'.pending_syncs = d.pending_syncs := congrArg Desk.pending h
    have ha : d'.answers = d.answers := congrArg Desk.answers h
    exact ⟨fun req hm => hc ▸ hm, fun p hm => hp ▸ hm, fun t ht => ha ▸ ht, congrArg Desk.next_ticket h⟩

theorem prune_undelivered (h : d.prune_abandoned_syncs = some d') : Undelivered d d' := by
  have hR := undelivered_clerical (C := C) (V := V) (H := H)
  refine sweep_settles hR.refl hR.trans (fun d i p d' hp _ hs => ?_) _ _ _ _ h
  obtain rfl := Option.some.inj hs
  exact ⟨fun req hm => hm, fun p' hm => mem_swap_remove hp hm, fun t ht => ht, rfl⟩

/-- The end of the task answers every barrier, none as delivered. -/
theorem teardown_undelivered (d : Delivery C V H) :
    Undelivered d d.reap_all_pending_syncs.close_sync_commands := by
  have hR := undelivered_clerical (C := C) (V := V) (H := H)
  refine teardown_keeps hR.refl hR.trans (fun d => ⟨?_, ?_⟩) (fun d p => ?_) (fun d ticket => ?_) d
  · exact ⟨fun req hm => hm, fun p hm => absurd hm List.not_mem_nil, fun t ht => ht, rfl⟩
  · exact ⟨fun req hm => absurd hm List.not_mem_nil, fun p hm => hm, fun t ht => ht, rfl⟩
  · exact ⟨fun req hm => hm, fun p hm => hm, fun t ht => mem_reply (by decide) ht, rfl⟩
  · exact ⟨fun req hm => hm, fun p hm => hm, fun t ht => mem_reply (by decide) ht, rfl⟩

end

/-- The turns that neither ask for a barrier, nor take one up, nor see a cookie. -/
theorem turn_undelivered {op : Op C V H} (h : Sound G (.rest d)) (hs : d.step op = some d')
    (hsync : ∀ sub, op ≠ .sync sub) (hon : ∀ begun, op ≠ .on_sync begun)
    (hev : ∀ event root_key recorded order gate, op ≠ .source_event event root_key recorded order gate) :
    Undelivered d d' := by
  cases hop : op.is_clerical with
  | true => exact undelivered_clerical.turn h hop hs
  | false =>
    cases op with
    | source_event event root_key recorded order gate => exact absurd rfl (hev _ _ _ _ _)
    | sync sub => exact absurd rfl (hsync sub)
    | on_sync begun => exact absurd rfl (hon begun)
    | abandon ticket =>
      obtain rfl := Option.some.inj hs
      split
      · exact ⟨fun req hm => hm, fun p hm => hm, fun t ht => ht, rfl⟩
      · exact undelivered_clerical.refl d
    | prune_abandoned_syncs => exact prune_undelivered hs
    | source_forgot =>
      obtain rfl := Option.some.inj hs
      exact ⟨fun req hm => hm, fun p hm => hm, fun t ht => ht, rfl⟩
    | teardown =>
      obtain rfl := Option.some.inj hs
      exact teardown_undelivered d
    | _ => cases hop

/-! ### Certificates -/

/-- How a barrier comes to be answered as delivered in a scan from `d` to `d'`: it was
    pending, nothing dominated it at its install, its subscription had lost nothing since
    when its cookie was seen, and the flush then was clean. -/
structure Certificate (d d' : Delivery C V H) (p : PendingSync C H) : Prop where
  pending : p ∈ d.pending_syncs
  undominated : p.dominated_at_install = false
  seen : ∃ d₁ d₂, Path (fun act => act = .still) (Flight.rest d) (.rest d₁) ∧
    d₁.loss_serial_of p.sub = p.loss_serial_at_install ∧
    d₁.flush_subscription_now p.sub = some (true, d₂) ∧
    Path (fun act => act = .still) (Flight.rest d₂) (.rest d')

section
omit [LawfulEqOrd C] [DecidableEq H]

theorem Certificate.later {p : PendingSync C H} (h : Certificate d₀ d p)
    (hp : Path (fun act => act = .still) (Flight.rest d) (.rest d')) : Certificate d₀ d' p := by
  obtain ⟨d₁, d₂, h₁, hserial, hf, h₂⟩ := h.seen
  exact ⟨h.pending, h.undominated, d₁, d₂, h₁, hserial, hf, h₂.trans hp⟩

end

end Delivery

end Umbrella
