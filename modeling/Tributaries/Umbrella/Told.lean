import Tributaries.Meter
import Tributaries.Umbrella.Windows

/-! # What a delivered barrier tells

  A barrier answered as delivered read the shared clock when it was asked for,
  and its subscription's when its cookie was installed; neither had moved when
  the cookie was seen.  Read back along the run, both stood still from turn to
  turn, so nothing was lost between.
-/

open Std Collections Meter

namespace Umbrella

namespace Delivery

variable {C V H : Type} [Ord C] [TransOrd C] [LawfulEqOrd C] [DecidableEq C] [DecidableEq H]
  {G : Subscription → Option (List C × V)} {F F' : Flight C V H} {d d' d₀ d₁ : Delivery C V H}
  {s t : Subscription} {x ev : Event C V} {n ticket : Nat}

/-! ### Losses in a flush -/

/-- What a delivery loses of `s` it owes: the clock stands still, or a debt is left. -/
structure OwesLosses (d d' : Delivery C V H) (s : Subscription) : Prop where
  owes : d.owes s = true → d'.owes s = true
  noted : d'.loss_count s = d.loss_count s ∨ d'.owes s = true

section
omit [TransOrd C] [LawfulEqOrd C] [DecidableEq C] [DecidableEq H]

theorem OwesLosses.refl (d : Delivery C V H) (s : Subscription) : OwesLosses d d s := ⟨id, .inl rfl⟩

theorem OwesLosses.trans (h₁ : OwesLosses d₀ d s) (h₂ : OwesLosses d d' s) : OwesLosses d₀ d' s where
  owes ho := h₂.owes (h₁.owes ho)
  noted := by
    rcases h₁.noted with he | ho
    · exact h₂.noted.imp_left fun he' => he'.trans he
    · exact .inr (h₂.owes ho)

end

section
omit [LawfulEqOrd C] [DecidableEq C] [DecidableEq H]

end

section
omit [LawfulEqOrd C] [DecidableEq H]

end

/-- The shared clock counts every loss that a subscription's does. -/
def Counted (d : Delivery C V H) : Prop := ∀ s, d.loss_count s ≤ d.loss_gen

theorem path_counted {P : Act C V → Prop} (h : Sound G F) (hp : Path P F F') (hc : F.d.Counted) :
    F'.d.Counted :=
  path_effects (I := Counted) (fun _ _ _ _ hd he => he.within hd) h hp hc

section
omit [LawfulEqOrd C] [DecidableEq C] [DecidableEq H]

theorem retire_counted (hc : d.Counted) (s : Subscription) : (d.retire_one s).Counted := by
  intro t
  show ((d.loss_serial.erase s)[t]?).getD 0 ≤ d.loss_gen
  rw [get_erase]
  split
  · exact Nat.zero_le _
  · exact hc t

end

theorem Stage.counted {R : Subscription → Prop} (h : Sound G (.rest d)) (hs : Stage R d d')
    (hc : d.Counted) : d'.Counted := by
  cases hs with
  | path hp => exact path_counted h hp hc
  | commit root key value debounce =>
    obtain ⟨coalescer, he, -⟩ := commit_watch_eq h root key value debounce
    rw [he]
    exact hc
  | claim t =>
    obtain ⟨needs, suppressed, he, -⟩ := claim_eq h t
    rw [he]
    exact hc
  | retire hs => exact retire_counted hc _
  | release hs => exact retire_counted hc _
  | grant hs hi => exact hc
  | channel hs hc' => exact hc

theorem path_unclaimed {P : Act C V → Prop} (h : Sound G F) (hp : Path P F F') :
    F'.d.unclaimed = F.d.unclaimed :=
  path_effects (I := fun d => d.unclaimed = F.d.unclaimed) (fun _ _ _ _ hd he => he.unclaimed.trans hd)
    h hp rfl

section
omit [LawfulEqOrd C] [DecidableEq H]

/-- A subscription that is claimed owes nothing past a clean flush. -/
theorem flush_now_owes_nothing (h : Sound G (.rest d')) (hu : s ∉ d'.unclaimed)
    (hf : d.flush_subscription_now s = some (true, d')) (q : ParkedRescan C V) : ¬ d'.Owed s q := by
  intro hq
  rcases hq with hq | hq
  · rw [flush_now_clean hf] at hq
    cases hq
  · exact hu (h.unclaimed s q hq)

end

/-- Nothing of a certified barrier's subscription is held or owed at the end. -/
theorem Certificate.idle {p : PendingSync C H} (hc : Certificate d d' p) (h : Sound G (.rest d))
    (hu : p.sub ∉ d'.unclaimed) : (Flight.rest d').Idle p.sub := by
  obtain ⟨d₁, d₂, hp₁, -, hf, hp₂⟩ := hc.seen
  have h₁ := h.path hp₁
  have h₂ : Sound G (.rest d₂) := h₁.path (flush_subscription_now_path (P := fun _ => True) trivial hf)
  have hu₂ : p.sub ∉ d₂.unclaimed := fun hm => hu ((path_unclaimed h₂ hp₂).symm ▸ hm)
  have hidle : (Flight.rest d₂).Idle p.sub :=
    ⟨fun x hx => flush_now_settles h₁ hf x (holds_rest.mp hx), flush_now_owes_nothing h₂ hu₂ hf⟩
  refine hidle.path h₂ hp₂ (fun act ev ha hev => ?_) (by simp)
  subst ha
  cases hev

/-- A certified barrier's clock stood where the barrier had read it, if it has not wrapped. -/
theorem Certificate.unmoved {p : PendingSync C H} {count : Nat} (hc : Certificate d d' p)
    (h : Sound G (.rest d)) (hcounted : d.Counted) (hb : d'.loss_gen < 2 ^ 64)
    (hle : count ≤ d.loss_count p.sub) (hi : p.loss_serial_at_install = .ofNat count) :
    d.loss_count p.sub = count ∧ ∃ d₁ d₂, Path (fun act => act = .still) (Flight.rest d) (.rest d₁) ∧
      d₁.loss_count p.sub = count ∧ d₁.flush_subscription_now p.sub = some (true, d₂) ∧
      Path (fun act => act = .still) (Flight.rest d₂) (.rest d') := by
  obtain ⟨d₁, d₂, hp₁, hserial, hf, hp₂⟩ := hc.seen
  have h₁ := h.path hp₁
  have hflush : Path (fun _ => True) (Flight.rest d₁) (.rest d₂) := flush_subscription_now_path trivial hf
  have hle₁ : d.loss_count p.sub ≤ d₁.loss_count p.sub := (path_clocks h hp₁).1 p.sub
  have hlast : d₁.loss_count p.sub ≤ d₁.loss_gen := path_counted h hp₁ hcounted p.sub
  have hgen : d₁.loss_gen ≤ d₂.loss_gen := (path_clocks h₁ hflush).2
  have hgen' : d₂.loss_gen ≤ d'.loss_gen := (path_clocks (h₁.path hflush) hp₂).2
  have hcount : d₁.loss_count p.sub = count := by
    refine word_inj (by omega) (by omega) ?_
    rw [← hi]
    exact hserial
  exact ⟨by omega, d₁, d₂, hp₁, hcount, hf, hp₂⟩

/-- What a turn does to barriers: a request is asked for at the clock, and a barrier is
    begun from a request, at the clock of its subscription. -/
structure Turned (d d' : Delivery C V H) : Prop where
  commands : ∀ req ∈ d'.sync_commands, req ∈ d.sync_commands ∨
    req.ticket = d.next_ticket ∧ req.loss_gen_at_call = d'.loss_gen_now
  pending : ∀ p ∈ d'.pending_syncs, p ∈ d.pending_syncs ∨
    p.loss_serial_at_install = d'.loss_serial_of p.sub ∧ ∃ req ∈ d.sync_commands,
      req.ticket = p.ticket ∧ req.sub = p.sub ∧
      (p.dominated_at_install = false → req.loss_gen_at_call = d'.loss_gen_now)
  issued : d.next_ticket ≤ d'.next_ticket

section
omit [TransOrd C] [LawfulEqOrd C] [DecidableEq C] [DecidableEq H]

theorem Undelivered.turned (h : Undelivered d d') : Turned d d' :=
  ⟨fun req hr => .inl (h.commands req hr), fun p hp => .inl (h.pending p hp), Nat.le_of_eq h.issued.symm⟩

theorem Steady.turned (h : Steady d d') : Turned d d' :=
  ⟨fun req hr => .inl (h.commands req hr), fun p hp => .inl (h.pending p hp), Nat.le_of_eq h.issued.symm⟩

end

section
omit [LawfulEqOrd C]

theorem on_sync_turned {begun : Begun C} (hs : d.step (.on_sync begun) = some d') : Turned d d' := by
  rcases on_sync_turn hs with rfl | ⟨req, rest, hc, hs⟩
  · exact ⟨fun req hr => .inl hr, fun p hp => .inl hp, Nat.le_refl _⟩
  have hreq : req ∈ d.sync_commands := hc ▸ List.mem_cons_self
  have hrest : ∀ r ∈ rest, r ∈ d.sync_commands := fun r hr => hc ▸ List.mem_cons_of_mem req hr
  -- one of the first five ends answers it, and the other one installs it
  have undelivered : ∀ {d₁ : Delivery C V H},
      ({ d with sync_commands := rest } : Delivery C V H).prune_abandoned_syncs = some d₁ →
      Turned d d₁ := by
    intro d₁ hd
    have hundelivered := prune_undelivered hd
    exact ⟨fun r hr => .inl (hrest r (hundelivered.commands r hr)),
      fun p hp => .inl (hundelivered.pending p hp), Nat.le_of_eq hundelivered.issued.symm⟩
  cases on_sync_taken hs with
  | gone hc => exact ⟨fun r hr => .inl (hrest r hr), fun p hp => .inl hp, Nat.le_refl _⟩
  | declined hc hq => exact ⟨fun r hr => .inl (hrest r hr), fun p hp => .inl hp, Nat.le_refl _⟩
  | refused hc hq hd ha hw =>
    have ht := undelivered hd
    exact ⟨ht.commands, ht.pending, ht.issued⟩
  | left hc hq hd hroom hg hb =>
    have ht := undelivered hd
    exact ⟨ht.commands, ht.pending, ht.issued⟩
  | @admitted d₁ granted cookie_key hc hq hd hroom hg hb =>
    have ht := undelivered hd
    refine ⟨ht.commands, fun p hp => ?_, ht.issued⟩
    rcases List.mem_append.mp hp with hp | hp
    · exact ht.pending p hp
    · rw [List.mem_singleton.mp hp]
      refine .inr ⟨rfl, req, hreq, rfl, rfl, fun hdominated => ?_⟩
      rw [Bool.or_eq_false_iff, bne_eq_false_iff_eq] at hdominated
      exact hdominated.2.symm
  | given_up hc hq hd hb =>
    have ht := undelivered hd
    exact ⟨ht.commands, ht.pending, ht.issued⟩

end

theorem step_turned {op : Op C V H} (h : Sound G (.rest d)) (hs : d.step op = some d') : Turned d d' := by
  cases op with
  | source_event event root_key recorded order gate =>
    cases hk : root_key.isNone with
    | true =>
      obtain ⟨d₁, hd₁, hs⟩ := source_event_gone hk hs
      have hR := undelivered_clerical (C := C) (V := V) (H := H)
      have hundelivered : Undelivered d d' :=
        hR.trans (hR.retire_root hd₁) (hR.same (drain_coalescer_due_desk hs))
      exact hundelivered.turned
    | false => exact (source_event_steady hk hs).turned
  | sync sub =>
    obtain rfl := Option.some.inj hs
    refine ⟨fun req hr => ?_, fun p hp => .inl hp, Nat.le_succ _⟩
    rcases List.mem_append.mp hr with hr | hr
    · exact .inl hr
    · rw [List.mem_singleton.mp hr]
      exact .inr ⟨rfl, rfl⟩
  | on_sync begun => exact on_sync_turned hs
  | _ => exact (turn_undelivered h hs nofun nofun nofun).turned

/-! ### Clocks -/

/-- No barrier read a clock ahead of what it shows. -/
structure Clocked (d : Delivery C V H) : Prop where
  asked : ∀ req ∈ d.sync_commands, ∃ count ≤ d.loss_gen, req.loss_gen_at_call = .ofNat count
  waits : ∀ p ∈ d.pending_syncs, ∃ count ≤ d.loss_count p.sub, p.loss_serial_at_install = .ofNat count

section
omit [TransOrd C] [LawfulEqOrd C] [DecidableEq C] [DecidableEq H]

theorem Moored.live {p : PendingSync C H} (h : Moored d) (hp : p ∈ d.pending_syncs) :
    d.grant_of p.sub ≠ none := by
  obtain ⟨granted, hg, -⟩ := h p hp
  rw [grant_of_eq hg]
  exact Option.some_ne_none _

end

/-- The barrier of a ticket has lost nothing: the clock it read last stands where it read
    it. -/
inductive Clean (ticket : Nat) (s : Subscription) (d : Delivery C V H) : Prop
  | asked {req : SyncRequest} (hr : req ∈ d.sync_commands) (ht : req.ticket = ticket) (hs : req.sub = s)
    (hc : req.loss_gen_at_call = d.loss_gen_now)
  | waits {p : PendingSync C H} (hp : p ∈ d.pending_syncs) (ht : p.ticket = ticket) (hs : p.sub = s)
    (hu : p.dominated_at_install = false) (hc : p.loss_serial_at_install = d.loss_serial_of s)

/-- A barrier that has lost nothing after a turn had lost nothing before it, if it was asked
    for by then, and the turn lost nothing of its subscription. -/
theorem Clean.back {op : Op C V H} (hclean : Clean ticket s d') (h : Sound G (.rest d)) (hm : Moored d)
    (hc : Clocked d) (hcounted : d'.Counted) (hb : d'.loss_gen < 2 ^ 64) (hs : d.step op = some d')
    (ht : ticket < d.next_ticket) : Clean ticket s d ∧ ¬ Lost d d' s := by
  have hturned := step_turned h hs
  obtain ⟨hgen, hserial⟩ := step_clocks (s := s) h hs
  -- a request that is still at the clock: the shared clock stood still
  have hasked : ∀ req ∈ d.sync_commands, req.ticket = ticket → req.sub = s →
      req.loss_gen_at_call = d'.loss_gen_now → Clean ticket s d ∧ ¬ Lost d d' s := by
    intro req hr hticket hsub hcall
    obtain ⟨count, hle, hread⟩ := hc.asked req hr
    have hstill : d'.loss_gen = count := word_inj (by omega) (by omega) (hcall.symm.trans hread)
    have hnow : d.loss_gen = count := by omega
    refine ⟨.asked hr hticket hsub ?_, fun hl => ?_⟩
    · rw [hread, ← hnow]
      rfl
    · have := hl.1
      omega
  cases hclean with
  | @asked req hr hticket hsub hcall =>
    rcases hturned.commands req hr with hr | ⟨hnew, -⟩
    · exact hasked req hr hticket hsub hcall
    · omega
  | @waits p hp hticket hsub hu hinstall =>
    subst hsub
    rcases hturned.pending p hp with hold | ⟨-, req, hr, hticket', hsub', hcall⟩
    · obtain ⟨count, hle, hread⟩ := hc.waits p hold
      have hclocks := hserial (hm.live hold) ((step_moored h hm hs).live hp)
      have hbound := hcounted p.sub
      have hstill : d'.loss_count p.sub = count :=
        word_inj (by omega) (by omega) (hinstall.symm.trans hread)
      have hnow : d.loss_count p.sub = count := by omega
      refine ⟨.waits hold hticket rfl hu ?_, fun hl => ?_⟩
      · rw [hread, ← hnow]
        rfl
      · rcases hl.2 with hlt | hnone
        · omega
        · exact hnone p hp rfl
    · exact hasked req hr (hticket'.trans hticket) hsub' (hcall hu)

/-! ### Runs -/

section
omit [LawfulEqOrd C] [DecidableEq C] [DecidableEq H]

end

/-- Or a `Rescan` that covers it was. -/
def Told (d : Delivery C V H) (n : Nat) (x : Event C V) : Prop :=
  ∃ y, StandsIn y x ∧ (y ∈ d.events.sent.drop n ∨ ∃ r ∈ d.events.sent.drop n,
    r.is_rescan = true ∧ r.subscription = x.subscription ∧ Covers r.key r.epoch y)

section
omit [LawfulEqOrd C] [DecidableEq C] [DecidableEq H]

/-- Of an idle subscription, what is accounted for was told. -/
theorem Flight.Idle.told (hi : (Flight.rest d).Idle x.subscription)
    (hx : (Flight.rest d).Accounted n x) : d.events.closed = true ∨ d.Told n x := by
  rcases hx with hc | ⟨y, hy, hf⟩
  · exact .inl hc
  · have hs := hy.subscription
    rcases hf with hf | hf | hf
    · exact .inr ⟨y, hy, .inl hf⟩
    · exact absurd hs (hi.held y hf)
    · rcases hf with ⟨q, hq, -⟩ | ⟨r, hr, hrs, hc, hf⟩
      · exact absurd (hs ▸ hq) (hi.owed q)
      · rcases hf with hf | hf
        · exact .inr ⟨y, hy, .inr ⟨r, hf, hr, hrs.trans hs, hc⟩⟩
        · exact absurd (hrs.trans hs) (hi.held r hf)

end

/-- What a turn publishes, and what it moves of the clocks before it answers. -/
theorem Publishes.kept {raw : SourceEvent C H} {order : List Subscription} {gate : Gate C}
    (hp : Publishes d raw order gate d₁) (h : Sound G (.rest d)) :
    Sound G (.rest d₁) ∧ d.events.sent.length ≤ d₁.events.sent.length ∧ (d.Counted → d₁.Counted) ∧
      ∀ s, d.loss_count s ≤ d₁.loss_count s := by
  obtain ⟨d₂, -, hmint, hpush⟩ := hp
  have h₂ := h.path hmint
  exact ⟨h₂.path hpush, ((path_extends h hmint).trans (path_extends h₂ hpush)).sent.length_le,
    fun hc => path_counted h₂ hpush (path_counted h hmint hc),
    fun s => Nat.le_trans ((path_clocks h hmint).1 s) ((path_clocks h₂ hpush).1 s)⟩

/-- An owner that lets changes settle, and whose source reserves the names that hold a 9. -/
def marked : Delivery Nat Nat Nat :=
  new ⟨1, Nat.one_pos⟩ 4 (some ⟨5, 20, 8⟩) (fun key => key.contains 9) (fun _ => 1) (fun _ => 1000)
    (fun _ => false)

/-- A barrier is asked for; its cookie is written when a change settles already. -/
def asked : List (Op Nat Nat Nat) := [.sync first_watch]

def begun : List (Op Nat Nat Nat) := [created_at [1, 2], .on_sync (.installed [1, 9] false)]

end Delivery

end Umbrella
