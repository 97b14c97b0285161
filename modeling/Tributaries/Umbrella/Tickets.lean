import Tributaries.Umbrella.Told

/-! # Barriers are answered once

  A caller's ticket is in one place: with a request, with a barrier that waits
  for its cookie, or with an answer.  A cookie that was written is in one
  place too: its barrier waits for it, or the source was asked to remove it.
  A source that forgot what it unwound with is asked nothing more, and what it
  leaves behind is bounded.
-/

open Std Collections

namespace Umbrella

/-- The cookie a barrier waits for. -/
def PendingSync.cookie {C H : Type} (p : PendingSync C H) : H × List C := (p.root, p.cookie_key)

namespace Delivery

variable {C V H : Type} [Ord C] [TransOrd C] [LawfulEqOrd C] [DecidableEq C] [DecidableEq H]
  {G : Subscription → Option (List C × V)} {d d' d'' : Delivery C V H} {s : Subscription}
  {evs : List (Event C V)}

/-- The tickets of the callers that were not given up. -/
def tickets (d : Delivery C V H) : List Nat :=
  d.sync_commands.map SyncRequest.ticket ++
    (d.pending_syncs.map PendingSync.ticket ++ d.answers.map Prod.fst)

/-- The cookies that were written. -/
def cookies (d : Delivery C V H) : List (H × List C) :=
  d.pending_syncs.map PendingSync.cookie ++ d.reaped

/-! ### Filing -/

/-- Cookies stay with their barriers or are given up for removal; none is left behind while
    the source takes calls. -/
structure Reaped (d d' : Delivery C V H) : Prop where
  cookies : d'.cookies.Subperm d.cookies
  handed : d'.source_quarantined = false → d'.cookies.Perm d.cookies
  latched : d.source_quarantined = true → d'.source_quarantined = true
  waiting : d'.pending_syncs.length ≤ d.pending_syncs.length
  grows : d.reaped.length ≤ d'.reaped.length

section
omit [TransOrd C] [LawfulEqOrd C] [DecidableEq C] [DecidableEq H]

theorem Reaped.unlatched (h : Reaped d d') (hq : d'.source_quarantined = false) :
    d.source_quarantined = false := by
  cases hd : d.source_quarantined with
  | false => rfl
  | true =>
    rw [h.latched hd] at hq
    cases hq

end

/-- Tickets and cookies change places; a ticket is dropped where its caller went away. -/
structure Filed (d d' : Delivery C V H) : Prop extends Reaped d d' where
  tickets : d'.tickets.Subperm d.tickets
  kept : ∀ t ∈ d.tickets, t ∈ d'.tickets ∨ t ∈ d.canceled
  issued : d'.next_ticket = d.next_ticket
  canceled : d'.canceled = d.canceled

namespace Filed

omit [TransOrd C] [LawfulEqOrd C] [DecidableEq C] [DecidableEq H]

theorem trans (h₁ : Filed d d') (h₂ : Filed d' d'') : Filed d d'' where
  cookies := h₂.cookies.trans h₁.cookies
  handed hq := (h₂.handed hq).trans (h₁.handed (h₂.unlatched hq))
  latched hq := h₂.latched (h₁.latched hq)
  waiting := Nat.le_trans h₂.waiting h₁.waiting
  grows := Nat.le_trans h₁.grows h₂.grows
  tickets := h₂.tickets.trans h₁.tickets
  kept t ht := by
    rcases h₁.kept t ht with ht | ht
    · exact (h₂.kept t ht).imp_right fun hc => h₁.canceled ▸ hc
    · exact .inr ht
  issued := h₂.issued.trans h₁.issued
  canceled := h₂.canceled.trans h₁.canceled

/-- Nothing but tickets moves, and all of them stay. -/
theorem of_tickets (ht : d'.tickets.Perm d.tickets) (hp : d'.pending_syncs = d.pending_syncs)
    (hr : d'.reaped = d.reaped) (hq : d.source_quarantined = true → d'.source_quarantined = true)
    (hi : d'.next_ticket = d.next_ticket) (hc : d'.canceled = d.canceled) : Filed d d' where
  cookies := by
    unfold cookies
    rw [hp, hr]
  handed _ := by
    unfold cookies
    rw [hp, hr]
  latched := hq
  waiting := by rw [hp]
  grows := by rw [hr]
  tickets := ht.subperm
  kept t hm := .inl (ht.mem_iff.mpr hm)
  issued := hi
  canceled := hc

theorem of_regranted (h : d'.desk = { d.desk with subs := d'.subs }) : Filed d d' := by
  have ht : d'.tickets = d.tickets :=
    congrArg (fun k : Desk C V H => k.commands.map SyncRequest.ticket ++
      (k.pending.map PendingSync.ticket ++ k.answers.map Prod.fst)) h
  refine of_tickets (ht ▸ List.Perm.refl _) (congrArg Desk.pending h) (congrArg Desk.reaped h)
    (fun hq => ?_) (congrArg Desk.next_ticket h) (congrArg Desk.canceled h)
  exact (congrArg Desk.source_quarantined h).trans hq

theorem of_desk (h : d'.desk = d.desk) : Filed d d' := of_regranted (by rw [← h]; rfl)

theorem refl (d : Delivery C V H) : Filed d d := of_desk rfl

end Filed

/-- One taken out of a list and put behind another. -/
theorem taken_filed {α β : Type} {l left : List α} {x : α} (h : l.Perm (x :: left)) (f : α → β)
    (ys : List β) : (l.map f ++ ys).Perm (left.map f ++ (ys ++ [f x])) := by
  have hmap : (l.map f).Perm (f x :: left.map f) := h.map f
  calc (l.map f ++ ys).Perm (f x :: (left.map f ++ ys)) := hmap.append_right ys
    _ |>.Perm ((left.map f ++ ys) ++ [f x]) := (List.perm_append_singleton _ _).symm
    _ |>.Perm (left.map f ++ (ys ++ [f x])) := by rw [List.append_assoc]

/-- One more in the middle. -/
theorem added_filed {α β : Type} (l₁ l₃ : List β) (l₂ : List α) (x : α) (f : α → β) :
    (l₁ ++ ((l₂ ++ [x]).map f ++ l₃)).Perm (f x :: (l₁ ++ (l₂.map f ++ l₃))) := by
  rw [List.map_append, List.append_assoc, List.map_singleton, List.singleton_append]
  exact (List.perm_middle.append_left l₁).trans List.perm_middle

section
omit [TransOrd C] [LawfulEqOrd C] [DecidableEq C] [DecidableEq H]

/-- A barrier that is over gives its cookie up. -/
theorem taken_reaped {p : PendingSync C H} {left : List (PendingSync C H)}
    (hp : d.pending_syncs.Perm (p :: left)) (hpending : d'.pending_syncs = left)
    (hr : d'.reaped = (d.reap_cookie p.root p.cookie_key).reaped)
    (hq : d'.source_quarantined = (d.reap_cookie p.root p.cookie_key).source_quarantined) :
    Reaped d d' := by
  have hlen := hp.length_eq
  rw [List.length_cons] at hlen
  cases hd : d.source_quarantined with
  | true =>
    -- its cookie is left behind
    have hr : d'.reaped = d.reaped := hr.trans (if_pos hd)
    have hq : d'.source_quarantined = true := by
      rw [hq]
      exact Bool.or_eq_true_iff.mpr (.inl hd)
    refine ⟨?_, fun hf => ?_, fun _ => hq, ?_, hr ▸ Nat.le_refl _⟩
    · unfold cookies
      rw [hpending, hr]
      have hsub : (left.map PendingSync.cookie).Subperm (d.pending_syncs.map PendingSync.cookie) :=
        ((List.sublist_cons_self p left).map _).subperm.trans (hp.map _).symm.subperm
      exact hsub.append (List.Subperm.refl _)
    · rw [hq] at hf
      cases hf
    · rw [hpending]
      omega
  | false =>
    have hr : d'.reaped = d.reaped ++ [p.cookie] :=
      hr.trans (if_neg (Bool.eq_false_iff.mp hd))
    have hperm : d'.cookies.Perm d.cookies := by
      unfold cookies
      rw [hpending, hr]
      exact (taken_filed hp PendingSync.cookie _).symm
    refine ⟨hperm.subperm, fun _ => hperm, fun hf => ?_, ?_, ?_⟩
    · rw [hd] at hf
      cases hf
    · rw [hpending]
      omega
    · rw [hr, List.length_append]
      exact Nat.le_add_right _ _

/-- A barrier is answered, and its cookie given up. -/
theorem answered_filed (answer : SyncAnswer) {p : PendingSync C H} {left : List (PendingSync C H)}
    (hp : d.pending_syncs.Perm (p :: left))
    (h : d'.desk = { (d.reap_cookie p.root p.cookie_key).desk with
      pending := left
      answers := d.answers ++ [(p.ticket, answer)] }) : Filed d d' := by
  have ht : d'.tickets = d.sync_commands.map SyncRequest.ticket ++
      (left.map PendingSync.ticket ++ (d.answers.map Prod.fst ++ [p.ticket])) := by
    have hd := congrArg (fun k : Desk C V H => k.commands.map SyncRequest.ticket ++
      (k.pending.map PendingSync.ticket ++ k.answers.map Prod.fst)) h
    refine Eq.trans hd ?_
    rw [List.map_append]
    rfl
  have hperm : d.tickets.Perm d'.tickets := by
    rw [ht]
    exact (taken_filed hp PendingSync.ticket _).append_left _
  have hreaped : Reaped d d' := taken_reaped hp (congrArg Desk.pending h) (congrArg Desk.reaped h)
    (congrArg Desk.source_quarantined h)
  exact ⟨hreaped, hperm.symm.subperm, fun t hm => .inl (hperm.mem_iff.mp hm),
    congrArg Desk.next_ticket h, congrArg Desk.canceled h⟩

/-- The cookie of a barrier whose caller went away is given up. -/
theorem pruned_filed {p : PendingSync C H} {left : List (PendingSync C H)}
    (hp : d.pending_syncs.Perm (p :: left)) (hc : p.ticket ∈ d.canceled)
    (h : d'.desk = { (d.reap_cookie p.root p.cookie_key).desk with pending := left }) :
    Filed d d' := by
  have ht : d'.tickets = d.sync_commands.map SyncRequest.ticket ++
      (left.map PendingSync.ticket ++ d.answers.map Prod.fst) :=
    congrArg (fun k : Desk C V H => k.commands.map SyncRequest.ticket ++
      (k.pending.map PendingSync.ticket ++ k.answers.map Prod.fst)) h
  have hperm : d.tickets.Perm (p.ticket :: d'.tickets) := by
    have hmap := hp.map PendingSync.ticket
    rw [ht]
    exact ((hmap.append_right _).append_left _).trans List.perm_middle
  have hreaped : Reaped d d' := taken_reaped hp (congrArg Desk.pending h) (congrArg Desk.reaped h)
    (congrArg Desk.source_quarantined h)
  refine ⟨hreaped, ?_, fun t hm => ?_, congrArg Desk.next_ticket h, congrArg Desk.canceled h⟩
  · exact (List.sublist_cons_self _ _).subperm.trans hperm.symm.subperm
  · rcases List.mem_cons.mp (hperm.mem_iff.mp hm) with rfl | hm
    · exact .inr hc
    · exact .inl hm

end

/-! ### Scans -/

section
omit [LawfulEqOrd C] [DecidableEq H]

/-- A flush between the removal of the cookie and the answer. -/
theorem flushed_filed {i : Nat} {p : PendingSync C H} {answer : SyncAnswer} {d₁ : Delivery C V H}
    {clean : Bool} (hp : d.pending_syncs[i]? = some p)
    (hf : (({ d with pending_syncs := swap_remove d.pending_syncs i } : Delivery C V H).reap_cookie
      p.root p.cookie_key).flush_subscription_now p.sub = some (clean, d₁)) :
    Filed d (d₁.reply p.ticket answer) := by
  have hdesk := flush_now_desk hf
  apply answered_filed answer (swap_remove_perm hp)
  show ({ d₁.desk with answers := d₁.desk.answers ++ [(p.ticket, answer)] } : Desk C V H) = _
  rw [hdesk]
  rfl

end

section
omit [TransOrd C] [LawfulEqOrd C] [DecidableEq C] [DecidableEq H]

theorem filed_clerical : Clerical (Filed (C := C) (V := V) (H := H)) where
  same := Filed.of_desk
  trans := Filed.trans
  answered hp _ h := answered_filed _ (swap_remove_perm hp) h
  regranted := Filed.of_regranted

end

theorem resolve_matching_filed {event : SourceEvent C H} {reserved : ReservedEndpoints}
    (h : d.resolve_matching_pending_sync event reserved = some d') : Filed d d' := by
  refine sweep_settles Filed.refl (fun h₁ h₂ => h₁.trans h₂) (fun d i p d' hp _ hs => ?_) _ _ _ _ h
  obtain ⟨⟨clean, d₁⟩, hd₁, hs⟩ := Option.bind_eq_some_iff.mp hs
  obtain rfl := Option.some.inj hs
  exact flushed_filed hp hd₁

section
omit [TransOrd C] [LawfulEqOrd C] [DecidableEq C] [DecidableEq H]

/-- The callers that went away are those of the scan's start. -/
theorem prune_filed (h : d.prune_abandoned_syncs = some d') : Filed d d' := by
  have hscan : d'.canceled = d.canceled ∧ Filed d d' :=
    sweep_settles (R := fun d₁ d₂ => d₁.canceled = d.canceled → d₂.canceled = d.canceled ∧ Filed d₁ d₂)
      (fun _ hc => ⟨hc, .refl _⟩)
      (fun h₁ h₂ hc => ⟨(h₂ (h₁ hc).1).1, (h₁ hc).2.trans (h₂ (h₁ hc).1).2⟩)
      (fun d₁ i p d₂ hp hit hs hc => by
        obtain rfl := Option.some.inj hs
        exact ⟨hc, pruned_filed (swap_remove_perm hp) (hc ▸ ExtTreeSet.mem_iff_contains.mpr hit) rfl⟩)
      _ _ _ _ h rfl
  exact hscan.2

/-- Pruning quarantines the source only by a removal it asked for. -/
theorem prune_latches (h : d.prune_abandoned_syncs = some d') (hq : d.source_quarantined = false)
    (hq' : d'.source_quarantined = true) : d.reaped.length < d'.reaped.length := by
  have hscan : d.reaped.length ≤ d'.reaped.length ∧ (d.source_quarantined = false →
      d'.source_quarantined = true → d.reaped.length < d'.reaped.length) := by
    refine sweep_keeps (R := fun d d' : Delivery C V H => d.reaped.length ≤ d'.reaped.length ∧
      (d.source_quarantined = false → d'.source_quarantined = true → d.reaped.length < d'.reaped.length))
      (fun d => ⟨Nat.le_refl _, fun hf ht => ?_⟩) (fun {d₁ d₂ d₃} h₁ h₂ => ?_)
      (fun d l => ⟨Nat.le_refl _, fun hf ht => ?_⟩) (fun d d' p hs => ?_) _ _ _ _ h
    · rw [hf] at ht
      cases ht
    · refine ⟨Nat.le_trans h₁.1 h₂.1, fun hf ht => ?_⟩
      cases hd : d₂.source_quarantined with
      | true => exact Nat.lt_of_lt_of_le (h₁.2 hf hd) h₂.1
      | false => exact Nat.lt_of_le_of_lt h₁.1 (h₂.2 hd ht)
    · have ht : d.source_quarantined = true := ht
      rw [hf] at ht
      cases ht
    · obtain rfl := Option.some.inj hs
      unfold reap_cookie
      dsimp only
      split
      · rename_i hd
        exact ⟨Nat.le_refl _, fun hf _ => absurd (hf.symm.trans hd) (by decide)⟩
      · rw [List.length_append]
        exact ⟨Nat.le_add_right _ _, fun _ _ => Nat.lt_succ_self _⟩
  exact hscan.2 hq hq'

/-- The end of the task answers what waits. -/
theorem reap_all_filed (l : List (PendingSync C H)) : ∀ d : Delivery C V H, d.pending_syncs = l →
    Filed d (l.foldl (settle_sync .closed) { d with pending_syncs := [] }) := by
  induction l with
  | nil =>
    intro d hl
    exact .of_tickets (by unfold tickets; rw [hl]; exact List.Perm.refl _) hl.symm rfl id rfl rfl
  | cons p l ih =>
    intro d hl
    have hone : Filed d { settle_sync .closed d p with pending_syncs := l } :=
      answered_filed .closed (hl ▸ List.Perm.refl _) rfl
    exact hone.trans (ih { settle_sync .closed d p with pending_syncs := l } rfl)

theorem reply_tickets (d : Delivery C V H) (t : Nat) (answer : SyncAnswer) :
    (d.reply t answer).tickets.Perm (t :: d.tickets) := by
  have he : (d.reply t answer).tickets = d.tickets ++ [t] := by
    simp only [tickets, reply, List.map_append, List.map_cons, List.map_nil, List.append_assoc]
  rw [he]
  exact List.perm_append_singleton t d.tickets

theorem close_commands_filed (l : List SyncRequest) : ∀ d : Delivery C V H, d.sync_commands = l →
    Filed d (l.foldl (fun d req => d.reply req.ticket SyncAnswer.closed)
      { d with sync_commands := [] }) := by
  induction l with
  | nil =>
    intro d hl
    exact .of_tickets (by unfold tickets; rw [hl]; exact List.Perm.refl _) rfl rfl id rfl rfl
  | cons req l ih =>
    intro d hl
    have hone : Filed d { d.reply req.ticket .closed with sync_commands := l } := by
      have ht : d.tickets = req.ticket :: ({ d with sync_commands := l } : Delivery C V H).tickets := by
        unfold tickets
        rw [hl]
        rfl
      refine .of_tickets ?_ rfl rfl id rfl rfl
      rw [ht]
      exact reply_tickets { d with sync_commands := l } _ _
    exact hone.trans (ih { d.reply req.ticket .closed with sync_commands := l } rfl)

theorem teardown_filed (d : Delivery C V H) : Filed d d.reap_all_pending_syncs.close_sync_commands :=
  (reap_all_filed d.pending_syncs d rfl).trans (close_commands_filed _ d.reap_all_pending_syncs rfl)

end

/-! ### Turns -/

/-- Cookies written by a turn: a request that gets as far as its cookie. -/
def writes (d : Delivery C V H) (op : Op C V H) : List (H × List C) :=
  match op, d.sync_commands with
  | .on_sync (.installed cookie_key _), req :: _ =>
    if d.canceled.contains req.ticket || d.source_quarantined then []
    else if MAX_PENDING_SYNCS ≤
        (d.pending_syncs.filter fun p => !d.canceled.contains p.ticket).length then []
    else (d.subs[req.sub]?).toList.map fun granted => (granted.root, cookie_key)
  | _, _ => []

/-- The ticket whose cookie write a turn gives up: its caller is gone. -/
def gives_up (d : Delivery C V H) (op : Op C V H) : List Nat :=
  match op, d.sync_commands with
  | .on_sync (.abandoned _), req :: _ => [req.ticket]
  | _, _ => []

/-- What the turns of a run yield, in order. -/
def along {α : Type} (f : Delivery C V H → Op C V H → List α) (d : Delivery C V H) :
    List (Op C V H) → List α
  | [] => []
  | op :: ops => f d op ++ (d.step op).elim [] fun d' => d'.along f ops

/-- Every ticket is in one place, unless its caller is gone: it left, or its write was given up. -/
structure Booked (given_up : List Nat) (d : Delivery C V H) : Prop where
  once : d.tickets.Nodup
  issued : ∀ t ∈ d.tickets, t < d.next_ticket
  whole : ∀ t < d.next_ticket, t ∈ d.tickets ∨ t ∈ d.canceled ∨ t ∈ given_up

section
omit [TransOrd C] [LawfulEqOrd C] [DecidableEq C] [DecidableEq H]

theorem Filed.booked {given_up : List Nat} (h : Filed d d') (hb : Booked given_up d) :
    Booked given_up d' := by
  refine ⟨?_, fun t ht => ?_, fun t ht => ?_⟩
  · obtain ⟨l, hl, hsub⟩ := h.tickets
    exact (hl.nodup_iff).mp (hb.once.sublist hsub)
  · rw [h.issued]
    exact hb.issued t (h.tickets.subset ht)
  · rw [h.issued] at ht
    rcases hb.whole t ht with ht | ht | hR
    · exact (h.kept t ht).imp_right fun hc => .inl (h.canceled ▸ hc)
    · exact .inr (.inl (h.canceled ▸ ht))
    · exact .inr (.inr hR)

end

/-- Every cookie that was written is in one place, while the source takes calls; those it
    leaves behind are no more than may wait at once. -/
structure Shelved (written : List (H × List C)) (d : Delivery C V H) : Prop where
  cookies : d.cookies.Subperm written
  handed : d.source_quarantined = false → d.cookies.Perm written
  waiting : d.pending_syncs.length ≤ MAX_PENDING_SYNCS
  left_behind : written.length ≤ d.reaped.length + MAX_PENDING_SYNCS

section
omit [TransOrd C] [LawfulEqOrd C] [DecidableEq C] [DecidableEq H]

theorem Reaped.shelved {written : List (H × List C)} (h : Reaped d d') (hs : Shelved written d) :
    Shelved written d' where
  cookies := h.cookies.trans hs.cookies
  handed hq := (h.handed hq).trans (hs.handed (h.unlatched hq))
  waiting := Nat.le_trans h.waiting hs.waiting
  left_behind := Nat.le_trans hs.left_behind (Nat.add_le_add_right h.grows _)

/-- While the source takes calls, what was written waits or was handed over. -/
theorem Shelved.length {written : List (H × List C)} (hs : Shelved written d)
    (hq : d.source_quarantined = false) :
    written.length = d.pending_syncs.length + d.reaped.length := by
  rw [← (hs.handed hq).length_eq]
  unfold Delivery.cookies
  rw [List.length_append, List.length_map]

end

/-! ### Requests -/

section
omit [TransOrd C] [LawfulEqOrd C] [DecidableEq C] [DecidableEq H]

/-- The pruning of a request's turn leaves the barriers of callers that are still there. -/
theorem prune_left (h : d.prune_abandoned_syncs = some d') :
    d'.pending_syncs.length = (d.pending_syncs.filter fun p => !d.canceled.contains p.ticket).length := by
  refine (sweep_left (fun d p d' hs => ?_) d.pending_syncs.length 0 d d' (by omega) (by simp) h).length_eq
  obtain rfl := Option.some.inj hs
  rfl

end

/-- What taking up a request makes of its ticket. -/
structure Handled (d : Delivery C V H) (req : SyncRequest) (begun : Begun C) (d' : Delivery C V H) :
    Prop where
  tickets : d'.tickets.Subperm (req.ticket :: d.tickets)
  kept : ∀ t ∈ req.ticket :: d.tickets, t ∈ d'.tickets ∨ t ∈ d'.canceled ∨
    ∃ forgets, begun = .abandoned forgets ∧ t = req.ticket
  issued : d'.next_ticket = d.next_ticket
  canceled : ∀ t ∈ d.canceled, t ∈ d'.canceled

section
omit [TransOrd C] [LawfulEqOrd C] [DecidableEq C] [DecidableEq H]

theorem Filed.handled {req : SyncRequest} {begun : Begun C} {d₁ : Delivery C V H} (h : Filed d d₁)
    (ht : d'.tickets.Perm (req.ticket :: d₁.tickets)) (hi : d'.next_ticket = d₁.next_ticket)
    (hc : d'.canceled = d₁.canceled) : Handled d req begun d' := by
  have hcanceled : d'.canceled = d.canceled := hc.trans h.canceled
  refine ⟨?_, fun t hm => ?_, hi.trans h.issued, fun t hm => hcanceled ▸ hm⟩
  · exact ht.subperm.trans ((List.subperm_cons req.ticket).mpr h.tickets)
  · rcases List.mem_cons.mp hm with rfl | hm
    · exact .inl (ht.mem_iff.mpr List.mem_cons_self)
    · rcases h.kept t hm with hm | hm
      · exact .inl (ht.mem_iff.mpr (List.mem_cons_of_mem _ hm))
      · exact .inr (.inl (hcanceled ▸ hm))

/-- A caller that is gone, or whose write was abandoned, is dropped. -/
theorem Filed.dropped {req : SyncRequest} {begun : Begun C} {d₁ : Delivery C V H} (h : Filed d d₁)
    (ht : d'.tickets = d₁.tickets) (hi : d'.next_ticket = d₁.next_ticket)
    (hc : ∀ t ∈ d₁.canceled, t ∈ d'.canceled)
    (hd : req.ticket ∈ d'.canceled ∨ ∃ forgets, begun = .abandoned forgets) :
    Handled d req begun d' := by
  have hcanceled : ∀ t ∈ d.canceled, t ∈ d'.canceled := fun t hm => hc t (h.canceled ▸ hm)
  refine ⟨?_, fun t hm => ?_, hi.trans h.issued, hcanceled⟩
  · rw [ht]
    exact h.tickets.trans (List.sublist_cons_self _ _).subperm
  · rcases List.mem_cons.mp hm with rfl | hm
    · exact .inr (hd.imp_right fun ⟨forgets, hb⟩ => ⟨forgets, hb, rfl⟩)
    · exact (h.kept t hm).imp (fun hm => ht ▸ hm) fun hm => .inl (hcanceled t hm)

theorem on_sync_handled {req : SyncRequest} {begun : Begun C} (h : d.on_sync req begun = some d') :
    Handled d req begun d' := by
  cases on_sync_taken h with
  | gone hc =>
    exact (Filed.refl d).dropped rfl rfl (fun _ hm => hm) (.inl (ExtTreeSet.mem_iff_contains.mpr hc))
  | declined hc hq => exact (Filed.refl d).handled (reply_tickets d _ _) rfl rfl
  | @refused d₁ answer hc hq hd ha hw =>
    exact (prune_filed hd).handled (reply_tickets d₁ _ _) rfl rfl
  | left hc hq hd hroom hg hb =>
    exact (prune_filed hd).dropped rfl rfl (fun _ hm => ExtTreeSet.mem_insert.mpr (.inr hm))
      (.inl (ExtTreeSet.mem_insert.mpr (.inl compare_self)))
  | @admitted d₁ granted cookie_key hc hq hd hroom hg hb =>
    -- the ticket waits with its barrier
    exact (prune_filed hd).handled (added_filed _ _ d₁.pending_syncs _ PendingSync.ticket) rfl rfl
  | given_up hc hq hd hb => exact (prune_filed hd).dropped rfl rfl (fun _ hm => hm) (.inr ⟨_, hb⟩)

end

/-- The turn that takes the oldest request up. -/
theorem on_sync_booked {req : SyncRequest} {rest : List SyncRequest} {begun : Begun C}
    {given_up : List Nat} (hcommands : d.sync_commands = req :: rest)
    (h : ({ d with sync_commands := rest } : Delivery C V H).on_sync req begun = some d')
    (hb : Booked given_up d) : Booked (given_up ++ d.gives_up (.on_sync begun)) d' := by
  have hhandled := on_sync_handled h
  have htickets : d.tickets = req.ticket :: ({ d with sync_commands := rest } : Delivery C V H).tickets := by
    unfold tickets
    rw [hcommands]
    rfl
  refine ⟨?_, fun t hm => ?_, fun t hm => ?_⟩
  · obtain ⟨l, hl, hsub⟩ := hhandled.tickets
    exact hl.nodup_iff.mp ((htickets ▸ hb.once).sublist hsub)
  · rw [hhandled.issued]
    exact hb.issued t (htickets ▸ hhandled.tickets.subset hm)
  · rw [hhandled.issued] at hm
    rcases hb.whole t hm with hold | hgone | hold
    · rcases hhandled.kept t (htickets ▸ hold) with hnew | hgone | ⟨forgets, rfl, rfl⟩
      · exact .inl hnew
      · exact .inr (.inl hgone)
      · refine .inr (.inr (List.mem_append_right _ ?_))
        unfold gives_up
        rw [hcommands]
        exact List.mem_singleton.mpr rfl
    · exact .inr (.inl (hhandled.canceled t hgone))
    · exact .inr (.inr (List.mem_append_left _ hold))

section
omit [TransOrd C] [LawfulEqOrd C] [DecidableEq C] [DecidableEq H]

theorem writes_declined {req : SyncRequest} {rest : List SyncRequest} {begun : Begun C}
    (hcommands : d.sync_commands = req :: rest)
    (hd : (d.canceled.contains req.ticket || d.source_quarantined) = true) :
    d.writes (.on_sync begun) = [] := by
  unfold writes
  rw [hcommands]
  cases begun with
  | installed cookie_key left => exact if_pos hd
  | _ => rfl

/-- What a request that is taken up writes, by what pruning leaves. -/
theorem writes_pruned {req : SyncRequest} {rest : List SyncRequest} {d₁ : Delivery C V H}
    {cookie_key : List C} {left : Bool} (hcommands : d.sync_commands = req :: rest)
    (hc : d.canceled.contains req.ticket = false) (hq : d.source_quarantined = false)
    (hd : ({ d with sync_commands := rest } : Delivery C V H).prune_abandoned_syncs = some d₁) :
    d.writes (.on_sync (.installed cookie_key left)) =
      if MAX_PENDING_SYNCS ≤ d₁.pending_syncs.length then []
      else (d₁.subs[req.sub]?).toList.map fun granted => (granted.root, cookie_key) := by
  have hasked : (d.canceled.contains req.ticket || d.source_quarantined) = false := by rw [hc, hq]; rfl
  unfold writes
  rw [hcommands, (prune_pruned hd).subs, prune_left hd]
  exact if_neg (Bool.eq_false_iff.mp hasked)

/-- While the source takes calls, one more cookie may be written after pruning. -/
theorem prune_leaves_room {written : List (H × List C)} {d₁ : Delivery C V H} (hs : Shelved written d)
    (hq : d.source_quarantined = false) (hd : d.prune_abandoned_syncs = some d₁)
    (hroom : d₁.pending_syncs.length < MAX_PENDING_SYNCS) :
    written.length < d₁.reaped.length + MAX_PENDING_SYNCS := by
  cases hq₁ : d₁.source_quarantined with
  | false =>
    have hlen := ((prune_filed hd).shelved hs).length hq₁
    omega
  | true =>
    -- the removal that quarantined the source was asked for
    have hlen := hs.length hq
    have hlatch := prune_latches hd hq hq₁
    have hwaiting := hs.waiting
    omega

/-- A cookie that is written waits, is given up, or is left behind. -/
theorem written_shelved {written : List (H × List C)} {d₁ : Delivery C V H} {cookie : H × List C}
    (hs : Shelved written d₁) (hroom : written.length < d₁.reaped.length + MAX_PENDING_SYNCS)
    (hcookies : d'.cookies.Subperm (d₁.cookies ++ [cookie]))
    (hhanded : d'.source_quarantined = false →
      d₁.source_quarantined = false ∧ d'.cookies.Perm (d₁.cookies ++ [cookie]))
    (hwaiting : d'.pending_syncs.length ≤ MAX_PENDING_SYNCS)
    (hgrows : d₁.reaped.length ≤ d'.reaped.length) : Shelved (written ++ [cookie]) d' where
  cookies := hcookies.trans (hs.cookies.append (List.Subperm.refl _))
  handed hq := (hhanded hq).2.trans ((hs.handed (hhanded hq).1).append_right _)
  waiting := hwaiting
  left_behind := by
    rw [List.length_append, List.length_singleton]
    omega

end

theorem on_sync_shelved {req : SyncRequest} {rest : List SyncRequest} {begun : Begun C}
    {written : List (H × List C)} (hcommands : d.sync_commands = req :: rest)
    (h : ({ d with sync_commands := rest } : Delivery C V H).on_sync req begun = some d')
    (hs : Shelved written d) : Shelved (written ++ d.writes (.on_sync begun)) d' := by
  have hd₀ : Shelved written ({ d with sync_commands := rest } : Delivery C V H) :=
    ⟨hs.cookies, hs.handed, hs.waiting, hs.left_behind⟩
  cases on_sync_taken h with
  | gone hc =>
    rw [writes_declined hcommands (Bool.or_eq_true_iff.mpr (.inl hc)), List.append_nil]
    exact hd₀
  | declined hc hq =>
    rw [writes_declined hcommands (Bool.or_eq_true_iff.mpr (.inr hq)), List.append_nil]
    exact ⟨hs.cookies, hs.handed, hs.waiting, hs.left_behind⟩
  | @refused d₁ answer hc hq hd ha hw =>
    have hnone : d.writes (.on_sync begun) = [] := by
      cases begun with
      | installed cookie_key left =>
        rw [writes_pruned hcommands hc hq hd]
        rcases hw with hfull | hnone | hother
        · exact if_pos hfull
        · rw [hnone]
          exact ite_self _
        · exact absurd rfl (hother cookie_key left)
      | _ =>
        unfold writes
        rw [hcommands]
    have h₁ := (prune_filed hd).shelved hd₀
    rw [hnone, List.append_nil]
    exact ⟨h₁.cookies, h₁.handed, h₁.waiting, h₁.left_behind⟩
  | @left d₁ granted cookie_key hc hq hd hroom hg hb =>
    subst hb
    rw [writes_pruned hcommands hc hq hd, if_neg (Nat.not_le_of_lt hroom), hg]
    have h₁ := (prune_filed hd).shelved hd₀
    have hleft := prune_leaves_room hd₀ hq hd hroom
    cases hq₁ : d₁.source_quarantined with
    | true =>
      have hr : ((d₁.leave req.ticket).reap_cookie granted.root cookie_key).reaped = d₁.reaped := if_pos hq₁
      refine written_shelved h₁ hleft ?_ (fun hq' => ?_) (Nat.le_of_lt hroom) (Nat.le_of_eq (by rw [hr]))
      · unfold cookies
        rw [hr]
        exact (List.sublist_append_left _ _).subperm
      · have hlatched := (Bool.or_eq_false_iff.mp hq').1
        have hlatched : d₁.source_quarantined = false := hlatched
        rw [hq₁] at hlatched
        cases hlatched
    | false =>
      have hr : ((d₁.leave req.ticket).reap_cookie granted.root cookie_key).reaped =
          d₁.reaped ++ [(granted.root, cookie_key)] := if_neg (Bool.eq_false_iff.mp hq₁)
      have he : ((d₁.leave req.ticket).reap_cookie granted.root cookie_key).cookies =
          d₁.cookies ++ [(granted.root, cookie_key)] := by
        unfold cookies
        rw [hr, List.append_assoc]
        rfl
      refine written_shelved h₁ hleft ?_ (fun _ => ⟨hq₁, ?_⟩) (Nat.le_of_lt hroom) ?_
      · exact (he ▸ List.Perm.refl _ : List.Perm _ _).subperm
      · exact he ▸ List.Perm.refl _
      · rw [hr, List.length_append]
        exact Nat.le_add_right _ _
  | @admitted d₁ granted cookie_key hc hq hd hroom hg hb =>
    subst hb
    rw [writes_pruned hcommands hc hq hd, if_neg (Nat.not_le_of_lt hroom), hg]
    have hperm := (added_filed [] d₁.reaped d₁.pending_syncs
      ⟨cookie_key, req.sub, granted.root, d₁.loss_serial_of req.sub,
        d₁.owes req.sub || d₁.loss_gen_now != req.loss_gen_at_call, req.ticket⟩ PendingSync.cookie).trans
      (List.perm_append_singleton _ _).symm
    refine written_shelved ((prune_filed hd).shelved hd₀) (prune_leaves_room hd₀ hq hd hroom)
      hperm.subperm (fun hq' => ⟨hq', hperm⟩) ?_ (Nat.le_refl _)
    rw [List.length_append]
    exact hroom
  | @given_up d₁ forgets hc hq hd hb =>
    subst hb
    have hnone : d.writes (.on_sync (.abandoned forgets)) = [] := by
      unfold writes
      rw [hcommands]
    have h₁ := (prune_filed hd).shelved hd₀
    rw [hnone, List.append_nil]
    refine ⟨h₁.cookies, fun hq' => h₁.handed ?_, h₁.waiting, h₁.left_behind⟩
    exact (Bool.or_eq_false_iff.mp hq').1

/-! ### Runs -/

/-- The turns that take up no request and issue no ticket. -/
def Op.is_plain : Op C V H → Bool
  | .sync _ | .on_sync _ | .abandon _ => false
  | _ => true

/-- Any other turn only files. -/
theorem step_filed {op : Op C V H} (h : Sound G (.rest d)) (hp : op.is_plain = true)
    (hs : d.step op = some d') : Filed d d' := by
  have hR := filed_clerical (C := C) (V := V) (H := H)
  cases hop : op.is_clerical with
  | true => exact hR.turn h hop hs
  | false =>
    cases op with
    | source_event event root_key recorded order gate =>
      cases hk : root_key.isNone with
      | true =>
        obtain ⟨d₁, hd₁, hs⟩ := source_event_gone hk hs
        exact (hR.retire_root hd₁).trans (hR.same (drain_coalescer_due_desk hs))
      | false =>
        obtain ⟨reserved, d₁, d₂, hd₁, hd₂, hs⟩ := source_event_eq hk hs
        have hbefore : Filed d d₂ :=
          (hR.fan_out_and_push hd₁).trans (hR.same (drain_coalescer_due_desk hd₂))
        rcases hs with ⟨-, hs⟩ | hs | rfl
        · exact hbefore.trans (hR.dominate_pending hs)
        · exact hbefore.trans (resolve_matching_filed hs)
        · exact hbefore
    | prune_abandoned_syncs => exact prune_filed hs
    | source_forgot =>
      obtain rfl := Option.some.inj hs
      exact .of_tickets (List.Perm.refl _) rfl rfl (fun _ => rfl) rfl rfl
    | teardown =>
      obtain rfl := Option.some.inj hs
      exact teardown_filed d
    | sync | on_sync | abandon => cases hp
    | _ => cases hop

section
omit [TransOrd C] [LawfulEqOrd C] [DecidableEq C] [DecidableEq H]

theorem plain_writes {op : Op C V H} (hp : op.is_plain = true) :
    d.writes op = [] ∧ d.gives_up op = [] := by
  cases op with
  | on_sync => cases hp
  | _ => exact ⟨rfl, rfl⟩

end

/-- Every turn accounts for every ticket and every cookie. -/
theorem step_booked {op : Op C V H} {given_up : List Nat} {written : List (H × List C)}
    (h : Sound G (.rest d)) (hb : Booked given_up d) (hk : Shelved written d) (hs : d.step op = some d') :
    Booked (given_up ++ d.gives_up op) d' ∧ Shelved (written ++ d.writes op) d' := by
  cases hp : op.is_plain with
  | true =>
    have hfiled := step_filed h hp hs
    rw [(plain_writes hp).1, (plain_writes hp).2, List.append_nil, List.append_nil]
    exact ⟨hfiled.booked hb, hfiled.shelved hk⟩
  | false =>
    cases op with
    | sync sub =>
      obtain rfl := Option.some.inj hs
      rw [show d.writes (.sync sub) = [] from rfl, show d.gives_up (.sync sub) = [] from rfl,
        List.append_nil, List.append_nil]
      refine ⟨?_, hk.cookies, hk.handed, hk.waiting, hk.left_behind⟩
      -- a new ticket, above all that were issued
      have hperm : ((d.sync_commands ++ [(⟨sub, d.loss_gen_now, d.next_ticket⟩ : SyncRequest)]).map
          SyncRequest.ticket ++ (d.pending_syncs.map PendingSync.ticket ++ d.answers.map Prod.fst)).Perm
          (d.next_ticket :: d.tickets) :=
        added_filed [] _ d.sync_commands _ SyncRequest.ticket
      refine ⟨hperm.nodup_iff.mpr (List.nodup_cons.mpr ⟨fun hm => ?_, hb.once⟩), fun t ht => ?_,
        fun t ht => ?_⟩
      · exact Nat.lt_irrefl _ (hb.issued _ hm)
      · show t < d.next_ticket + 1
        rcases List.mem_cons.mp (hperm.mem_iff.mp ht) with rfl | ht
        · exact Nat.lt_succ_self _
        · exact Nat.lt_succ_of_lt (hb.issued t ht)
      · have ht : t < d.next_ticket + 1 := ht
        by_cases hnew : t = d.next_ticket
        · exact .inl (hperm.mem_iff.mpr (hnew ▸ List.mem_cons_self))
        · rcases hb.whole t (by omega) with ht | hrest
          · exact .inl (hperm.mem_iff.mpr (List.mem_cons_of_mem _ ht))
          · exact .inr hrest
    | on_sync begun =>
      cases hcommands : d.sync_commands with
      | nil =>
        have hnone : d.writes (.on_sync begun) = [] ∧ d.gives_up (.on_sync begun) = [] := by
          unfold writes gives_up
          rw [hcommands]
          cases begun <;> exact ⟨rfl, rfl⟩
        unfold step at hs
        rw [hcommands] at hs
        obtain rfl := Option.some.inj hs
        rw [hnone.1, hnone.2, List.append_nil, List.append_nil]
        exact ⟨hb, hk⟩
      | cons req rest =>
        unfold step at hs
        rw [hcommands] at hs
        exact ⟨on_sync_booked hcommands hs hb, on_sync_shelved hcommands hs hk⟩
    | abandon ticket =>
      obtain rfl := Option.some.inj hs
      rw [show d.writes (.abandon ticket) = [] from rfl,
        show d.gives_up (.abandon ticket) = [] from rfl, List.append_nil, List.append_nil]
      split
      · refine ⟨⟨hb.once, hb.issued, fun t ht => ?_⟩, hk.cookies, hk.handed, hk.waiting, hk.left_behind⟩
        rcases hb.whole t ht with hold | hgone | hold
        · exact .inl hold
        · exact .inr (.inl (ExtTreeSet.mem_insert.mpr (.inr hgone)))
        · exact .inr (.inr hold)
      · exact ⟨hb, hk⟩
    | _ => cases hp

/-- Along a run nothing is booked twice and nothing is lost. -/
theorem run_booked {instance_id : InstanceId} (ops : List (Op C V H)) :
    ∀ (done : List (Op C V H)) (given_up : List Nat) (written : List (H × List C)) (d d' : Delivery C V H),
      Standing instance_id done d → Booked given_up d → Shelved written d → d.run ops = some d' →
      Booked (given_up ++ d.along gives_up ops) d' ∧ Shelved (written ++ d.along writes ops) d' := by
  induction ops with
  | nil =>
    intro done given_up written d d' _ hb hk hr
    obtain rfl := Option.some.inj hr
    rw [along, along, List.append_nil, List.append_nil]
    exact ⟨hb, hk⟩
  | cons op ops ih =>
    intro done given_up written d d' hd hb hk hr
    unfold run at hr
    rw [List.foldlM_cons] at hr
    obtain ⟨d₁, hd₁, hr⟩ := Option.bind_eq_some_iff.mp hr
    obtain ⟨hb₁, hk₁⟩ := step_booked hd.sound hb hk hd₁
    have hrest := ih (done ++ [op]) _ _ d₁ d' (standing_step hd hd₁) hb₁ hk₁ hr
    rw [along, along, hd₁, Option.elim_some, Option.elim_some, ← List.append_assoc, ← List.append_assoc]
    exact hrest

/-- In every run each barrier that was asked for is in one place: its request is queued, it
    waits for its cookie, or it was answered, once; only a caller that is gone has none.  Each
    cookie that was written is waited for or was handed over for removal, once, as long as the
    source was not quarantined; what is left behind then is no more than may wait at once. -/
theorem barriers_answered_once {instance_id : InstanceId} {capacity : Nat}
    {debounce : Option DebounceConfig} {is_sync_artifact : List C → Bool} {elapsed : Nat → Nat}
    {far_future : Nat → Instant} {forgets : Nat → Bool} {ops : List (Op C V H)} {d₀ : Delivery C V H}
    (hnew : d₀ = new instance_id capacity debounce is_sync_artifact elapsed far_future forgets)
    (h : d₀.run ops = some d) :
    d.tickets.Nodup ∧ (∀ t ∈ d.tickets, t < d.next_ticket) ∧
    (∀ t < d.next_ticket, t ∈ d.tickets ∨ t ∈ d.canceled ∨ t ∈ d₀.along gives_up ops) ∧
    d.cookies.Subperm (d₀.along writes ops) ∧
    (d.source_quarantined = false → d.cookies.Perm (d₀.along writes ops)) ∧
    (d₀.along writes ops).length ≤ d.reaped.length + MAX_PENDING_SYNCS := by
  subst hnew
  have hb : Booked [] (new (V := V) (H := H) instance_id capacity debounce is_sync_artifact elapsed
      far_future forgets) :=
    ⟨List.nodup_nil, fun t ht => absurd ht List.not_mem_nil, fun t ht => absurd ht (Nat.not_lt_zero t)⟩
  have hk : Shelved [] (new (V := V) (H := H) instance_id capacity debounce is_sync_artifact elapsed
      far_future forgets) :=
    ⟨List.Subperm.refl _, fun _ => List.Perm.refl _, Nat.zero_le _, Nat.zero_le _⟩
  obtain ⟨hbooked, hshelved⟩ := run_booked ops [] [] [] _ _ (standing_new _ _ _ _ _ _ _) hb hk h
  exact ⟨hbooked.once, hbooked.issued, hbooked.whole, hshelved.cookies, hshelved.handed,
    hshelved.left_behind⟩

/-- A barrier answered, one whose caller left before it was taken up, one given up, one whose
    caller left while its cookie was written, one that waits when the source is quarantined,
    and one declined after that; then the task ends. -/
def asked_often : List (Op Nat Nat Nat) :=
  opened ++ asked ++ begun ++ [created_at [1, 9], .sync first_watch, .sync first_watch, .sync first_watch,
    .sync first_watch, .abandon 1, .on_sync (.installed [1, 9, 7] false), .on_sync (.abandoned false),
    .on_sync (.installed [1, 9, 8] true), .on_sync (.installed [1, 9, 9] false), .source_forgot,
    .sync first_watch, .on_sync (.installed [1, 9, 6] false), .teardown]

theorem barriers_answered_once_asked : ∃ d, marked.run asked_often = some d ∧ d.tickets.Nodup ∧
    (∀ t ∈ d.tickets, t < d.next_ticket) ∧
    (∀ t < d.next_ticket, t ∈ d.tickets ∨ t ∈ d.canceled ∨ t ∈ marked.along gives_up asked_often) ∧
    d.cookies.Subperm (marked.along writes asked_often) ∧
    (d.source_quarantined = false → d.cookies.Perm (marked.along writes asked_often)) ∧
    (marked.along writes asked_often).length ≤ d.reaped.length + MAX_PENDING_SYNCS := by
  have hok : (marked.run asked_often).isSome = true := by decide +kernel
  obtain ⟨d, hd⟩ := Option.isSome_iff_exists.mp hok
  exact ⟨d, hd, barriers_answered_once rfl hd⟩

-- the cookie of the barrier that waited is left behind
example : ((marked.run asked_often).map fun d => (d.tickets, d.canceled.toList, d.cookies)) =
    some ([0, 5, 4], [1, 3], [(7, [1, 9]), (7, [1, 9, 8])]) := by decide +kernel

end Delivery

end Umbrella
