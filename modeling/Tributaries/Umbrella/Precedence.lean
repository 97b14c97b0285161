import Tributaries.Umbrella.Stages

/-! # What is owed goes first

  While a `Rescan` is owed to a subscription, it is delivered nothing else:
  the next event of it is a `Rescan` at or above the key that was owed.  A
  subscription that has left the tables is delivered what it was owed, once,
  and then nothing.
-/

open Std Collections

namespace Umbrella

open Proto (Epoch)

namespace Delivery

variable {C V H : Type} [Ord C] [TransOrd C] [LawfulEqOrd C] [DecidableEq C] [DecidableEq H]
  {G : Subscription → Option (List C × V)} {F F' : Flight C V H} {d d' : Delivery C V H}
  {s t : Subscription} {x ev : Event C V} {act : Act C V} {base : List (Event C V)}

/-- What a subscription was delivered, oldest first. -/
def told (d : Delivery C V H) (s : Subscription) : List (Event C V) :=
  d.events.sent.filter fun ev => ev.subscription = s

/-! ### What a move tells -/

section
omit [TransOrd C] [LawfulEqOrd C] [DecidableEq C] [DecidableEq H]

theorem told_sent (d : Delivery C V H) (events : BoundedChannel (Event C V)) (s : Subscription)
    (h : d.events.try_send ev = .accepted events) :
    events.sent.filter (fun ev => ev.subscription = s) =
      d.told s ++ if ev.subscription = s then [ev] else [] := by
  obtain ⟨rfl, -⟩ := BoundedChannel.try_send_accepted h
  show (d.events.sent ++ [ev]).filter _ = _
  rw [List.filter_append]
  by_cases hs : ev.subscription = s
  · simp [told, hs]
  · simp [told, hs]

theorem told_congr (h : d'.events = d.events) (s : Subscription) : d'.told s = d.told s := by
  unfold told
  rw [h]

end

section
omit [LawfulEqOrd C] [DecidableEq C] [DecidableEq H]

/-- A debt is in one plane. -/
theorem Sound.owed_needs {q q' : ParkedRescan C V} (h : Sound G F) (hq : F.d.needs_rescan[s]? = some q)
    (hq' : F.d.Owed s q') : q' = q := by
  rcases hq' with hq' | hq'
  · exact Option.some.inj (hq'.symm.trans hq)
  · exact absurd (h.unclaimed s q' hq') (h.claimed s q hq)

/-- Only a subscription that is owed nothing is told of a change, and a `Rescan` that is
    owed is told once. -/
theorem Effect.told (h : Sound G F) (he : Effect act F d') (s : Subscription) :
    d'.told s = F.d.told s ∨ ∃ ev, d'.told s = F.d.told s ++ [ev] ∧ F.d.events.closed = false ∧
      (ev.subscription = s ∧ F.Holds ev ∧ (∀ q, ¬ F.d.Owed s q) ∨
        ∃ q, F.d.Owed s q ∧ ev = q.offer s ∧ ∀ q', ¬ d'.Owed s q') := by
  cases he with
  | calm h => exact .inl (told_congr h.events s)
  | owing hg hs ho => exact .inl (told_congr ho.events s)
  | @sent ev events hev ho hs =>
    have htold := told_sent F.d events s hs
    by_cases hsub : ev.subscription = s
    · rw [if_pos hsub] at htold
      refine .inr ⟨ev, htold, (BoundedChannel.try_send_accepted hs).2, .inl ⟨hsub, hev, fun q hq => ?_⟩⟩
      -- an owed subscription is sent nothing else
      have howes : F.d.owes ev.subscription = true := owes_iff.mpr ⟨q, hsub ▸ hq⟩
      rw [ho] at howes
      cases howes
    · rw [if_neg hsub, List.append_nil] at htold
      exact .inl htold
  | @published t q events hq hs =>
    have htold := told_sent F.d events s hs
    by_cases hsub : t = s
    · subst hsub
      have hsame : (q.offer t).subscription = t := rfl
      rw [if_pos hsame] at htold
      refine .inr ⟨q.offer t, htold, (BoundedChannel.try_send_accepted hs).2,
        .inr ⟨q, .inl hq, rfl, fun q' hq' => ?_⟩⟩
      rcases hq' with hq' | hq'
      · have hq' : (F.d.needs_rescan.erase t)[t]? = some q' := hq'
        rw [get_erase, if_pos rfl] at hq'
        cases hq'
      · exact absurd (h.unclaimed t q' hq') (h.claimed t q hq)
    · have hne : (q.offer t).subscription ≠ s := hsub
      rw [if_neg hne, List.append_nil] at htold
      exact .inl htold
  | discarded hc => exact .inl rfl

/-- What is owed is told, or stays owed and nothing is told, or the consumer is gone. -/
theorem Effect.owed {q : ParkedRescan C V} (h : Sound G F) (he : Effect act F d') (hq : F.d.Owed s q) :
    d'.told s = F.d.told s ++ [q.offer s] ∨ d'.told s = F.d.told s ∧
      (d'.events.closed = true ∨
        ∃ q', d'.Owed s q' ∧ q'.key <+: q.key ∧ q.epoch.as_u64 ≤ q'.epoch.as_u64) := by
  rcases he.told h s with htold | ⟨ev, htold, -, hev⟩
  · refine .inr ⟨htold, ?_⟩
    cases he with
    | calm h =>
      refine .inr ⟨q, ?_, List.prefix_rfl, Nat.le_refl _⟩
      unfold Owed
      rw [h.needs, h.suppressed]
      exact hq
    | owing hg hs ho => exact .inr (ho.owed_forth hq)
    | sent hev ho hs => exact .inr ⟨q, hq, List.prefix_rfl, Nat.le_refl _⟩
    | @published t q' events hq' hs =>
      by_cases hsub : t = s
      · subst hsub
        -- it would have been told
        have hnew := told_sent F.d events t hs
        have hsame : (q'.offer t).subscription = t := rfl
        rw [if_pos hsame] at hnew
        have hlen := congrArg List.length (htold.symm.trans hnew)
        rw [List.length_append, List.length_singleton] at hlen
        omega
      · refine .inr ⟨q, hq.imp_left fun hq => ?_, List.prefix_rfl, Nat.le_refl _⟩
        show (F.d.needs_rescan.erase t)[s]? = some q
        rw [get_erase, if_neg hsub]
        exact hq
    | discarded hc => exact .inl hc
  · rcases hev with ⟨-, -, hnone⟩ | ⟨q', hq', rfl, -⟩
    · exact absurd hq (hnone q)
    · -- the planes do not meet
      have he' : q = q' := by
        rcases hq with hn | hn
        · exact (h.owed_needs hn hq').symm
        · rcases hq' with hn' | hn'
          · exact absurd (h.unclaimed s q hn) (h.claimed s q' hn')
          · exact Option.some.inj (hn.symm.trans hn')
      exact .inl (he' ▸ htold)

end

/-! ### Subscriptions that left the tables -/

/-- A subscription that was minted and is no longer in the tables. -/
structure Departed (d : Delivery C V H) (s : Subscription) : Prop where
  minted : s ∈ d.minted
  dead : d.grant_of s = none

section
omit [LawfulEqOrd C] [DecidableEq C] [DecidableEq H]

theorem Sound.departed_held (h : Sound G F) (hd : F.d.grant_of s = none) (hx : F.Holds x) :
    x.subscription ≠ s := by
  intro hs
  obtain ⟨⟨key, value, ha⟩, -⟩ := h.held x hx
  have hl := ha.live
  rw [hs, hd] at hl
  cases hl

/-- What it is owed changes no more, but for being told. -/
theorem Effect.departed {q : ParkedRescan C V} (he : Effect act F d') (hd : F.d.grant_of s = none)
    (hq : d'.Owed s q) : F.d.Owed s q := by
  cases he with
  | calm h =>
    unfold Owed at hq ⊢
    rwa [h.needs, h.suppressed] at hq
  | @owing d' t g covers epoch value hg hs ho =>
    refine ho.owed_others (fun hs => ?_) hq
    rw [← hs, hd] at hg
    cases hg
  | sent hev ho hs => exact hq
  | @published t q' events hq' hs =>
    refine hq.imp_left fun hq => ?_
    have hq : (F.d.needs_rescan.erase t)[s]? = some q := hq
    rw [get_erase] at hq
    split at hq
    · cases hq
    · exact hq
  | @discarded t hc =>
    refine hq.imp_left fun hq => ?_
    have hq : (F.d.needs_rescan.erase t)[s]? = some q := hq
    rw [get_erase] at hq
    split at hq
    · cases hq
    · exact hq

end

/-- It was told nothing since, and is owed no more than it was; or it was told what it was
    owed, and is owed nothing. -/
def Ending (base : List (Event C V)) (debt : ParkedRescan C V → Prop) (s : Subscription)
    (d : Delivery C V H) : Prop :=
  d.told s = base ∧ (∀ q, d.Owed s q → debt q) ∨
    ∃ q, debt q ∧ d.told s = base ++ [q.offer s] ∧ ∀ q', ¬ d.Owed s q'

section
omit [LawfulEqOrd C] [DecidableEq C] [DecidableEq H]

theorem Ending.effect {debt : ParkedRescan C V → Prop} (h : Sound G F) (he : Effect act F d')
    (hd : F.d.grant_of s = none) (hending : Ending base debt s F.d) : Ending base debt s d' := by
  rcases he.told h s with htold | ⟨ev, htold, -, hev⟩
  · rcases hending with ⟨hbase, hdebt⟩ | ⟨q, hq, hbase, hnone⟩
    · exact .inl ⟨htold.trans hbase, fun q hq => hdebt q (he.departed hd hq)⟩
    · exact .inr ⟨q, hq, htold.trans hbase, fun q' hq' => hnone q' (he.departed hd hq')⟩
  · rcases hev with ⟨hs, hheld, -⟩ | ⟨q, hq, rfl, hnone⟩
    -- nothing is held of a subscription that left
    · exact absurd hs (h.departed_held hd hheld)
    · rcases hending with ⟨hbase, hdebt⟩ | ⟨-, -, -, hnone'⟩
      · exact .inr ⟨q, hdebt q hq, htold.trans (hbase ▸ rfl), hnone⟩
      · exact absurd hq (hnone' q)

end

theorem path_ending {P : Act C V → Prop} {debt : ParkedRescan C V → Prop} (h : Sound G F)
    (hd : F.d.grant_of s = none) (hending : Ending base debt s F.d) (hp : Path P F F') :
    Ending base debt s F'.d := by
  have hkept : F'.d.grant_of s = none ∧ Ending base debt s F'.d :=
    path_effects (I := fun d => d.grant_of s = none ∧ Ending base debt s d)
      (fun F act d' h hi he => ⟨(he.grants s).trans hi.1, hi.2.effect h he hi.1⟩) h hp ⟨hd, hending⟩
  exact hkept.2

/-! ### Stages -/

section
omit [DecidableEq C] [DecidableEq H]

theorem commit_told (h : Sound G (.rest d)) (root : H) (key : List C) (value : V) (debounce : Debounce) :
    (d.commit_watch root key value debounce).told s = d.told s ∧
      ∀ q, (d.commit_watch root key value debounce).Owed s q ↔ d.Owed s q := by
  obtain ⟨coalescer, he, -, -⟩ := commit_watch_eq h root key value debounce
  rw [he]
  exact ⟨rfl, fun q => Iff.rfl⟩

end

section
omit [LawfulEqOrd C] [DecidableEq H]

theorem claim_told (h : Sound G (.rest d)) (t : Subscription) : (d.claim t).told s = d.told s := by
  obtain ⟨needs, suppressed, he, -⟩ := claim_eq h t
  rw [he]
  rfl

theorem claim_grant (h : Sound G (.rest d)) (t : Subscription) :
    (d.claim t).grant_of s = d.grant_of s ∧ (d.claim t).minted = d.minted := by
  obtain ⟨needs, suppressed, he, -⟩ := claim_eq h t
  rw [he]
  exact ⟨rfl, rfl⟩

end

/-- A subscription that left the tables does not come back. -/
theorem Departed.stage {R : Subscription → Prop} (h : Sound G (.rest d)) (hd : d.Departed s)
    (hs : Stage R d d') : d'.Departed s := by
  cases hs with
  | path hp =>
    refine ⟨minted_eq (path_mints hp) ▸ hd.minted, ?_⟩
    exact (path_grants h hp s).trans hd.dead
  | commit root key value debounce =>
    refine ⟨(commit_minted h root key value debounce).2 hd.minted, ?_⟩
    obtain ⟨coalescer, he, -, -⟩ := commit_watch_eq h root key value debounce
    rw [he]
    show ((d.subs.insert d.next_subscription _)[s]?).map _ = none
    rw [get_insert, if_neg]
    · exact hd.dead
    · intro hs
      have hm := hd.minted
      rw [← hs] at hm
      exact Nat.lt_irrefl _ hm.2
  | grant hs hi => exact ⟨hd.minted, hd.dead⟩
  | claim t =>
    obtain ⟨hg, hm⟩ := claim_grant (s := s) h t
    exact ⟨hm ▸ hd.minted, hg.trans hd.dead⟩
  | @retire t hs =>
    refine ⟨hd.minted, ?_⟩
    rw [retire_grant]
    split
    · rfl
    · exact hd.dead
  | @release t hs =>
    refine ⟨hd.minted, ?_⟩
    have hg : (d.retire_one t).grant_of s = none := by
      rw [retire_grant]
      split
      · rfl
      · exact hd.dead
    exact hg
  | channel hs hc => exact ⟨hd.minted, hd.dead⟩

theorem Ending.stage {R : Subscription → Prop} {debt : ParkedRescan C V → Prop} (h : Sound G (.rest d))
    (hd : d.Departed s) (hending : Ending base debt s d) (hs : Stage R d d') : Ending base debt s d' := by
  have congr : ∀ {d' : Delivery C V H}, d'.told s = d.told s → (∀ q, d'.Owed s q → d.Owed s q) →
      Ending base debt s d' := by
    intro d' htold howed
    rcases hending with ⟨hbase, hdebt⟩ | ⟨q, hq, hbase, hnone⟩
    · exact .inl ⟨htold.trans hbase, fun q hq => hdebt q (howed q hq)⟩
    · exact .inr ⟨q, hq, htold.trans hbase, fun q' hq' => hnone q' (howed q' hq')⟩
  cases hs with
  | path hp => exact path_ending h hd.dead hending hp
  | commit root key value debounce =>
    obtain ⟨htold, howed⟩ := commit_told (s := s) h root key value debounce
    exact congr htold fun q => (howed q).mp
  | grant hs hi => exact congr rfl fun q hq => hq
  | claim t => exact congr (claim_told h t) fun q => (claim_owed h t s q).mp
  | retire hs => exact congr rfl fun q hq => hq
  | @release t hs => exact congr rfl fun q hq => ((release_owed d t s q).mp hq).2
  | channel hs hc =>
    refine congr ?_ fun q hq => hq
    unfold told
    rw [hs]

/-! ### What is owed goes first -/

/-- Since a debt was seen, nothing was told and it stands, or the subscription was
    released; or the first event told covers it. -/
def Due (base : List (Event C V)) (key : List C) (epoch : Epoch) (R : Subscription → Prop)
    (s : Subscription) (d : Delivery C V H) : Prop :=
  d.told s = base ∧ (d.events.closed = true ∨
      (∃ q, d.Owed s q ∧ q.key <+: key ∧ epoch.as_u64 ≤ q.epoch.as_u64) ∨
      R s ∧ d.Departed s ∧ ∀ q, ¬ d.Owed s q) ∨
    ∃ r later, d.told s = base ++ r :: later ∧ r.is_rescan = true ∧ r.key <+: key ∧
      epoch.as_u64 ≤ r.epoch.as_u64

section Due

variable {key : List C} {epoch : Epoch} {R : Subscription → Prop}

section
omit [LawfulEqOrd C] [DecidableEq C] [DecidableEq H]

theorem Due.effect (h : Sound G F) (he : Effect act F d')
    (hdue : Due base key epoch R s F.d) : Due base key epoch R s d' := by
  -- until the first event told, and after it
  rcases hdue with ⟨hbase, hstate⟩ | ⟨r, later, hbase, hr⟩
  · rcases hstate with hc | ⟨q, hq, hk, hep⟩ | ⟨hR, hdep, hnone⟩
    · rcases he.told h s with htold | ⟨ev, -, hopen, -⟩
      · exact .inl ⟨htold.trans hbase, .inl (he.grows.closed hc)⟩
      · rw [hc] at hopen
        cases hopen
    -- the debt is what is told next, or it stands
    · rcases he.owed h hq with htold | ⟨htold, hc | ⟨q', hq', hk', hep'⟩⟩
      · exact .inr ⟨q.offer s, [], htold.trans (hbase ▸ rfl), rfl, hk, hep⟩
      · exact .inl ⟨htold.trans hbase, .inl hc⟩
      · exact .inl ⟨htold.trans hbase, .inr (.inl ⟨q', hq', hk'.trans hk, Nat.le_trans hep hep'⟩)⟩
    · rcases he.told h s with htold | ⟨ev, -, -, hev⟩
      · refine .inl ⟨htold.trans hbase, .inr (.inr ⟨hR, ⟨he.minted ▸ hdep.minted, ?_⟩, fun q hq => ?_⟩)⟩
        · exact (he.grants s).trans hdep.dead
        · exact hnone q (he.departed hdep.dead hq)
      · rcases hev with ⟨hs, hheld, -⟩ | ⟨q, hq, -⟩
        · exact absurd hs (h.departed_held hdep.dead hheld)
        · exact absurd hq (hnone q)
  · rcases he.told h s with htold | ⟨ev, htold, -⟩
    · exact .inr ⟨r, later, htold.trans hbase, hr⟩
    · refine .inr ⟨r, later ++ [ev], ?_, hr⟩
      rw [htold, hbase, List.append_assoc]
      rfl

end

theorem Due.stage (h : Sound G (.rest d)) (hdue : Due base key epoch R s d) (hs : Stage R d d') :
    Due base key epoch R s d' := by
  -- a stage that tells nothing, and keeps what is owed
  have congr : ∀ {d' : Delivery C V H}, Stage R d d' → d'.told s = d.told s →
      (d.events.closed = true → d'.events.closed = true) → (∀ q, d'.Owed s q ↔ d.Owed s q) →
      Due base key epoch R s d' := by
    intro d' hs htold hclosed howed
    rcases hdue with ⟨hbase, hstate⟩ | ⟨r, later, hbase, hr⟩
    · refine .inl ⟨htold.trans hbase, ?_⟩
      rcases hstate with hc | ⟨q, hq, hle⟩ | ⟨hR, hdep, hnone⟩
      · exact .inl (hclosed hc)
      · exact .inr (.inl ⟨q, (howed q).mpr hq, hle⟩)
      · exact .inr (.inr ⟨hR, hdep.stage h hs, fun q hq => hnone q ((howed q).mp hq)⟩)
    · exact .inr ⟨r, later, htold.trans hbase, hr⟩
  have hs' := hs
  cases hs with
  | path hp =>
    exact path_effects (I := Due base key epoch R s) (fun F act d' h hd he => hd.effect h he) h hp hdue
  | commit root key value debounce =>
    obtain ⟨htold, howed⟩ := commit_told (s := s) h root key value debounce
    refine congr hs' htold ?_ howed
    obtain ⟨coalescer, he, -, -⟩ := commit_watch_eq h root key value debounce
    rw [he]
    exact id
  | grant hs hi => exact congr hs' rfl id fun q => Iff.rfl
  | claim t =>
    refine congr hs' (claim_told h t) ?_ fun q => claim_owed h t s q
    obtain ⟨needs, suppressed, he, -⟩ := claim_eq h t
    rw [he]
    exact id
  | retire hs => exact congr hs' rfl id fun q => Iff.rfl
  | @release t hR =>
    by_cases ht : t = s
    · subst ht
      rcases hdue with ⟨hbase, hstate⟩ | hr
      · refine .inl ⟨hbase, ?_⟩
        rcases hstate with hc | hrest
        · exact .inl hc
        · refine .inr (.inr ⟨hR, ⟨?_, ?_⟩, fun q hq => ((release_owed d t t q).mp hq).1 rfl⟩)
          · rcases hrest with ⟨q, hq, -⟩ | ⟨-, hdep, -⟩
            · obtain ⟨k, v, hg, -⟩ := h.owed t q hq
              exact h.minted t (k, v) hg
            · exact hdep.minted
          · have hg : (d.retire_one t).grant_of t = none := by
              rw [retire_grant, if_pos rfl]
            exact hg
      · exact .inr hr
    · exact congr hs' rfl id fun q => (release_owed d t s q).trans ⟨fun ho => ho.2, fun ho => ⟨ht, ho⟩⟩
  | channel hsent hc =>
    refine congr hs' ?_ hc fun q => Iff.rfl
    unfold told
    rw [hsent]

end Due

/-! ### Runs -/

/-- While a `Rescan` is owed to a subscription, the next event of it is a `Rescan` at or
    above that key and epoch.  Until then it stays owed, unless the consumer is gone or
    the caller is done with the subscription. -/
theorem owed_goes_first {instance_id : InstanceId} {capacity : Nat}
    {debounce : Option DebounceConfig} {is_sync_artifact : List C → Bool} {elapsed : Nat → Nat}
    {far_future : Nat → Instant} {forgets : Nat → Bool} {pre post : List (Op C V H)} {q : ParkedRescan C V}
    (h : (new (V := V) (H := H) instance_id capacity debounce is_sync_artifact elapsed far_future
      forgets).run pre = some d) (hq : d.Owed s q) (hr : d.run post = some d') :
    d'.told s = d.told s ∧ (d'.events.closed = true ∨
        (∃ q', d'.Owed s q' ∧ q'.key <+: q.key ∧ q.epoch.as_u64 ≤ q'.epoch.as_u64) ∨
        releases post s) ∨
      ∃ r later, d'.told s = d.told s ++ r :: later ∧ r.is_rescan = true ∧ r.key <+: q.key ∧
        q.epoch.as_u64 ≤ r.epoch.as_u64 := by
  have hd := (standing_run pre [] _ _ (standing_new _ _ _ _ _ _ _) h).sound
  have hdue : Due (d.told s) q.key q.epoch (releases post) s d :=
    .inl ⟨rfl, .inr (.inl ⟨q, hq, List.prefix_rfl, Nat.le_refl _⟩)⟩
  rcases run_keeps (fun G d d' h hdue hs => hdue.stage h hs) hd hr hdue with ⟨hbase, hstate⟩ | hr
  · refine .inl ⟨hbase, ?_⟩
    rcases hstate with hc | hq' | ⟨hR, -⟩
    · exact .inl hc
    · exact .inr (.inl hq')
    · exact .inr (.inr hR)
  · exact .inr hr

theorem owed_goes_first_overrun : ∃ d d' q, two_slots.run overrun = some d ∧ d.Owed first_watch q ∧
    d.run [.recv, .flush_pending_rescans] = some d' ∧
    (d'.told first_watch = d.told first_watch ∧ (d'.events.closed = true ∨
        (∃ q', d'.Owed first_watch q' ∧ q'.key <+: q.key ∧ q.epoch.as_u64 ≤ q'.epoch.as_u64) ∨
        releases (C := Nat) (V := Nat) (H := Nat) [.recv, .flush_pending_rescans] first_watch) ∨
      ∃ r later, d'.told first_watch = d.told first_watch ++ r :: later ∧ r.is_rescan = true ∧
        r.key <+: q.key ∧ q.epoch.as_u64 ≤ r.epoch.as_u64) := by
  have hok : ((two_slots.run overrun).any fun d =>
      d.owes first_watch && (d.run [.recv, .flush_pending_rescans]).isSome) = true := by
    decide +kernel
  obtain ⟨d, hd, hrest⟩ := (Option.any_eq_true _ _).mp hok
  rw [Bool.and_eq_true, Option.isSome_iff_exists] at hrest
  obtain ⟨howes, d', hd'⟩ := hrest
  obtain ⟨q, hq⟩ := owes_iff.mp howes
  exact ⟨d, d', q, hd, hq, hd', owed_goes_first hd hq hd'⟩

section
omit [LawfulEqOrd C]

/-- A release of one of the owner's own leaves nothing owed. -/
theorem released_unowed {op : Op C V H} (hop : op.releases s) (hm : s ∈ d'.minted)
    (hs : d.step op = some d') : ∀ q, ¬ d'.Owed s q := by
  have released : d.release_subscription s = some d' → ∀ q, ¬ d'.Owed s q := by
    intro hr q hq
    obtain ⟨d₁, -, hr⟩ := release_subscription_eq hr
    rcases hr with ⟨hi, rfl⟩ | ⟨-, rfl⟩
    · exact hi hm.1
    · exact ((release_owed d₁ s s q).mp hq).1 rfl
  cases op with
  | drop_orphan sub | unwatch sub =>
    obtain rfl := hop
    exact released hs
  | _ => exact hop.elim

end

/-- A subscription that left the tables is told what it is owed then, once, and nothing
    else, whatever the run does; one that was released is told nothing. -/
theorem departed_told_debt {instance_id : InstanceId} {capacity : Nat}
    {debounce : Option DebounceConfig} {is_sync_artifact : List C → Bool} {elapsed : Nat → Nat}
    {far_future : Nat → Instant} {forgets : Nat → Bool} {pre post : List (Op C V H)}
    (h : (new (V := V) (H := H) instance_id capacity debounce is_sync_artifact elapsed far_future
      forgets).run pre = some d) (hg : grants instance_id pre s ≠ none) (hd : d.subs[s]? = none)
    (hr : d.run post = some d') :
    (d'.told s = d.told s ∨ ∃ q, d.Owed s q ∧ d'.told s = d.told s ++ [q.offer s]) ∧
    (∀ before op, pre = before ++ [op] → op.releases s → d'.told s = d.told s) := by
  have hs : Sound (grants instance_id pre) (.rest d) :=
    (standing_run pre [] _ _ (standing_new _ _ _ _ _ _ _) h).sound
  obtain ⟨g, hg⟩ := Option.ne_none_iff_exists'.mp hg
  have hm : s ∈ d.minted := hs.minted s g hg
  have hdead : d.grant_of s = none := by
    unfold grant_of
    rw [hd]
    rfl
  have hkept : d'.Departed s ∧ Ending (d.told s) (d.Owed s) s d' :=
    run_keeps (I := fun d' => d'.Departed s ∧ Ending (d.told s) (d.Owed s) s d')
      (fun G d d' h hi hs => ⟨hi.1.stage h hs, hi.2.stage h hi.1 hs⟩) hs hr
      ⟨⟨hm, hdead⟩, .inl ⟨rfl, fun q hq => hq⟩⟩
  have hended : d'.told s = d.told s ∨ ∃ q, d.Owed s q ∧ d'.told s = d.told s ++ [q.offer s] := by
    rcases hkept.2 with ⟨htold, -⟩ | ⟨q, hq, htold, -⟩
    · exact .inl htold
    · exact .inr ⟨q, hq, htold⟩
  refine ⟨hended, fun before op hpre hop => ?_⟩
  rcases hended with htold | ⟨q, hq, -⟩
  · exact htold
  · -- a release left nothing owed
    subst hpre
    unfold run at h
    rw [List.foldlM_append] at h
    obtain ⟨d₁, -, h⟩ := Option.bind_eq_some_iff.mp h
    obtain ⟨d₂, hd₂, h⟩ := Option.bind_eq_some_iff.mp h
    obtain rfl := Option.some.inj h
    exact absurd hq (released_unowed hop hm hd₂ q)

theorem departed_told_debt_retired : ∃ d d', two_slots.run (overrun ++ [.retire_root 7 [1] [first_watch]]) =
      some d ∧ d.run [.recv, .flush_pending_rescans] = some d' ∧
    (d'.told first_watch = d.told first_watch ∨
      ∃ q, d.Owed first_watch q ∧ d'.told first_watch = d.told first_watch ++ [q.offer first_watch]) ∧
    (∀ before op, overrun ++ [.retire_root 7 [1] [first_watch]] = before ++ [op] →
      op.releases first_watch → d'.told first_watch = d.told first_watch) := by
  have hok : ((two_slots.run (overrun ++ [.retire_root 7 [1] [first_watch]])).any fun d =>
      (d.subs[first_watch]?).isNone && (d.run [.recv, .flush_pending_rescans]).isSome) = true := by
    decide +kernel
  obtain ⟨d, hd, hrest⟩ := (Option.any_eq_true _ _).mp hok
  rw [Bool.and_eq_true, Option.isSome_iff_exists, Option.isNone_iff_eq_none] at hrest
  obtain ⟨hgone, d', hd'⟩ := hrest
  exact ⟨d, d', hd, hd', departed_told_debt hd (by decide +kernel) hgone hd'⟩

end Delivery

end Umbrella
