import Tributaries.Os.Signals

/-! # Losses and their overflows

  The messages are handled in the order they were sent, and among the batches
  sent each loss has an overflow at its own place whose ack is still to be
  dropped when the loss happens.
-/

namespace Transport

open Machine

variable {E X : Type} {w : Width} {budget : Fin w.limit} {s s' : State E X}

/-! ### Sent and handled -/

/-- What the queue's order is about: a batch by its permit, an overflow by its turn. -/
inductive Mark where
  | batch (permit : Nat)
  | overflow (turn : Nat)
  deriving DecidableEq

def Mark.is_batch : Mark → Bool
  | .batch _ => true
  | .overflow _ => false

def sent (log : List Event) : List Mark :=
  log.filterMap fun
    | .sent_batch permit _ => some (.batch permit)
    | .sent_overflow turn => some (.overflow turn)
    | _ => none

/-- The batches ingested and the overflows whose ack was dropped. -/
def handled (log : List Event) : List Mark :=
  log.filterMap fun
    | .ingested permit _ => some (.batch permit)
    | .acked turn => some (.overflow turn)
    | _ => none

def marks (ms : List (SourceMessage E X)) : List Mark :=
  ms.filterMap fun
    | .batch payload => some (.batch payload.permit)
    | .overflow ack => some (.overflow ack.turn)
    | .fatal _ => none

def shipped (ms : List Mark) : List Mark := ms.filter Mark.is_batch

@[simp] theorem sent_append (l l' : List Event) : sent (l ++ l') = sent l ++ sent l' :=
  List.filterMap_append

@[simp] theorem handled_append (l l' : List Event) :
    handled (l ++ l') = handled l ++ handled l' := List.filterMap_append

@[simp] theorem marks_append (l l' : List (SourceMessage E X)) :
    marks (l ++ l') = marks l ++ marks l' := List.filterMap_append

@[simp] theorem shipped_append (l l' : List Mark) : shipped (l ++ l') = shipped l ++ shipped l' :=
  List.filter_append ..

theorem sent_lost (l : List Event) : sent (.lost :: l) = sent l := rfl

theorem overflow_handled {t : Nat} {log : List Event} :
    .overflow t ∈ handled log ↔ .acked t ∈ log := by
  unfold handled
  rw [List.mem_filterMap]
  constructor
  · rintro ⟨e, he, hs⟩
    cases e <;> cases hs
    exact he
  · intro h
    exact ⟨_, h, rfl⟩

theorem batch_sent {p : Nat} {log : List Event} :
    .batch p ∈ sent log ↔ ∃ r, .sent_batch p r ∈ log := by
  unfold sent
  rw [List.mem_filterMap]
  constructor
  · rintro ⟨e, he, hs⟩
    cases e <;> cases hs
    exact ⟨_, he⟩
  · rintro ⟨r, h⟩
    exact ⟨_, h, rfl⟩

theorem batch_handled {p : Nat} {log : List Event} :
    .batch p ∈ handled log ↔ ∃ r, .ingested p r ∈ log := by
  unfold handled
  rw [List.mem_filterMap]
  constructor
  · rintro ⟨e, he, hs⟩
    cases e <;> cases hs
    exact ⟨_, he⟩
  · rintro ⟨r, h⟩
    exact ⟨_, h, rfl⟩

theorem shipped_marks {ms : List (SourceMessage E X)} (h : batches ms = []) :
    shipped (marks ms) = [] := by
  induction ms with
  | nil => rfl
  | cons m ms ih =>
    cases m with
    | batch b => cases h
    | overflow a => exact ih h
    | fatal e => exact ih h

/-! ### The log of a run -/

/-- Messages are handled in the order they were sent, each once. -/
structure Logged (s : State E X) : Prop where
  fifo : sent s.log = handled s.log ++ marks (outstanding s)
  nodup : (sent s.log).Nodup
  turn : ∀ t, .overflow t ∈ sent s.log →
    t ≤ s.turns ∧ ∀ ack, s.producer = .send_overflow ack → t < ack.turn
  permit : ∀ p, .batch p ∈ sent s.log →
    p < s.issued ∧ ∀ b l, s.producer = .send_batch b l → p < b.permit
  issued : ∀ b l, s.producer = .send_batch b l → b.permit < s.issued
  hand : ∀ ack, s.consumer = .rescan ack → ∃ l, handled s.log = l ++ [.overflow ack.turn]
  rescans : ∀ t, .acked t ∈ s.log →
    .rescanned t ∈ s.log ∨ ∃ ack, s.consumer = .rescan ack ∧ ack.turn = t
  order : ∀ pre post t, s.log = pre ++ .rescanned t :: post → .acked t ∈ pre

namespace Logged

theorem start : Logged (State.start E X) where
  fifo := rfl
  nodup := List.nodup_nil
  turn := fun _ h => by cases h
  permit := fun _ h => by cases h
  issued := fun _ _ h => by cases h
  hand := fun _ h => by cases h
  rescans := fun _ h => by cases h
  order := fun pre _ _ h => by
    have hl := congrArg List.length h
    simp [State.start] at hl

/-- Where the last event of a log stands when the log is cut at another. -/
theorem snoc_cut {log pre post : List Event} {e e' : Event}
    (h : log ++ [e] = pre ++ e' :: post) :
    (∃ post', post = post' ++ [e] ∧ log = pre ++ e' :: post') ∨
      (post = [] ∧ e' = e ∧ pre = log) := by
  rcases List.eq_nil_or_concat post with rfl | ⟨post', last, rfl⟩
  · have h := List.append_inj' h rfl
    exact .inr ⟨rfl, (List.cons.inj h.2).1.symm, h.1.symm⟩
  · have h' : log ++ [e] = (pre ++ e' :: post') ++ [last] := by
      rw [h]
      simp
    have h' := List.append_inj' h' rfl
    have hl := (List.cons.inj h'.2).1
    rw [hl]
    exact .inl ⟨post', by simp, h'.1⟩

theorem order_snoc {log : List Event} {e : Event}
    (h : ∀ pre post t, log = pre ++ .rescanned t :: post → .acked t ∈ pre)
    (he : ∀ t, e = .rescanned t → .acked t ∈ log) :
    ∀ pre post t, log ++ [e] = pre ++ .rescanned t :: post → .acked t ∈ pre := by
  intro pre post t hl
  rcases snoc_cut hl with ⟨post', -, hl⟩ | ⟨-, ht, rfl⟩
  · exact h pre post' t hl
  · exact he t ht.symm

/-- A step that sends and handles nothing. -/
theorem frame (h : Logged s) {events : List Event} (hlog : s'.log = s.log ++ events)
    (hsent : sent events = []) (hhandled : handled events = [])
    (hres : events = [] ∨ ∃ e, events = [e] ∧ ∀ t, e ≠ .rescanned t)
    (hmarks : marks (outstanding s') = marks (outstanding s))
    (hc : ∀ ack, s'.consumer = .rescan ack ↔ s.consumer = .rescan ack)
    (hturns : s.turns ≤ s'.turns) (hissued : s.issued ≤ s'.issued)
    (hover : ∀ ack, s'.producer = .send_overflow ack →
      s.turns < ack.turn ∨ s.producer = .send_overflow ack)
    (hbatch : ∀ b l, s'.producer = .send_batch b l →
      s.issued ≤ b.permit ∧ b.permit < s'.issued ∨ s.producer = .send_batch b l) :
    Logged s' := by
  have hs : sent s'.log = sent s.log := by rw [hlog, sent_append, hsent, List.append_nil]
  have hh : handled s'.log = handled s.log := by
    rw [hlog, handled_append, hhandled, List.append_nil]
  refine ⟨?_, ?_, ?_, ?_, ?_, ?_, ?_, ?_⟩
  · rw [hs, hh, hmarks]
    exact h.fifo
  · rw [hs]
    exact h.nodup
  · intro t ht
    rw [hs] at ht
    obtain ⟨hle, hlt⟩ := h.turn t ht
    refine ⟨Nat.le_trans hle hturns, ?_⟩
    intro ack ha
    rcases hover ack ha with hn | ha
    · omega
    · exact hlt ack ha
  · intro p hp
    rw [hs] at hp
    obtain ⟨hle, hlt⟩ := h.permit p hp
    refine ⟨by omega, ?_⟩
    intro b l hb
    rcases hbatch b l hb with hn | hb
    · omega
    · exact hlt b l hb
  · intro b l hb
    rcases hbatch b l hb with hn | hb
    · exact hn.2
    · have hlt := h.issued b l hb
      omega
  · intro ack ha
    rw [hh]
    exact h.hand ack ((hc ack).mp ha)
  · intro t ht
    rw [← overflow_handled, hh, overflow_handled] at ht
    rcases h.rescans t ht with hr | ⟨ack, ha, hat⟩
    · left
      rw [hlog]
      exact List.mem_append_left _ hr
    · exact .inr ⟨ack, (hc ack).mpr ha, hat⟩
  · rcases hres with rfl | ⟨e, rfl, he⟩
    · rw [hlog, List.append_nil]
      exact h.order
    · rw [hlog]
      exact order_snoc h.order (fun t ht => absurd ht (he t))

/-- One more message at the queue's tail. -/
theorem send (h : Logged s) {m : SourceMessage E X} {e : Event} {k : Mark} {p : Producer E X}
    (hsent : sent [e] = [k]) (hhandled : handled [e] = [])
    (hres : ∀ t, e ≠ .rescanned t ∧ e ≠ .acked t) (hmarks : marks [m] = [k])
    (hfresh : k ∉ sent s.log) (hturn : ∀ t, k = .overflow t → t ≤ s.turns)
    (hpermit : ∀ n, k = .batch n → n < s.issued) (hover : ∀ ack, p ≠ .send_overflow ack)
    (hbatch : ∀ b l, p ≠ .send_batch b l) :
    Logged { s with queue := s.queue ++ [m], producer := p, log := s.log ++ [e] } where
  fifo := by
    have hf := h.fifo
    unfold outstanding at hf ⊢
    show sent (s.log ++ [e]) = handled (s.log ++ [e]) ++ marks (in_hand s.consumer ++ (s.queue ++ [m]))
    rw [sent_append, handled_append, ← List.append_assoc, marks_append, hf, hsent, hhandled, hmarks]
    rw [List.append_nil, List.append_assoc]
  nodup := by
    show (sent (s.log ++ [e])).Nodup
    rw [sent_append, hsent, List.nodup_append]
    refine ⟨h.nodup, List.pairwise_singleton _ _, ?_⟩
    intro a ha b hb hab
    rw [List.mem_singleton] at hb
    rw [hab, hb] at ha
    exact hfresh ha
  turn := fun t ht => by
    have ht : _ ∈ sent (s.log ++ [e]) := ht
    rw [sent_append, hsent, List.mem_append, List.mem_singleton] at ht
    refine ⟨?_, fun ack hn => absurd hn (hover ack)⟩
    rcases ht with ht | ht
    · exact (h.turn t ht).1
    · exact hturn t ht.symm
  permit := fun n hn => by
    have hn : _ ∈ sent (s.log ++ [e]) := hn
    rw [sent_append, hsent, List.mem_append, List.mem_singleton] at hn
    refine ⟨?_, fun b l hb => absurd hb (hbatch b l)⟩
    rcases hn with hn | hn
    · exact (h.permit n hn).1
    · exact hpermit n hn.symm
  issued := fun b l hb => absurd hb (hbatch b l)
  hand := fun ack ha => by
    show ∃ l, handled (s.log ++ [e]) = _
    rw [handled_append, hhandled, List.append_nil]
    exact h.hand ack ha
  rescans := fun t ht => by
    have ht : _ ∈ s.log ++ [e] := ht
    show _ ∈ s.log ++ [e] ∨ _
    rw [List.mem_append, List.mem_singleton] at ht
    rw [List.mem_append]
    rcases ht with ht | ht
    · exact (h.rescans t ht).imp_left .inl
    · exact absurd ht.symm (hres t).2
  order := order_snoc h.order (fun t ht => absurd ht (hres t).1)

/-- The oldest outstanding message is handled. -/
theorem handle (h : Logged s) {m : SourceMessage E X} {e : Event} {k : Mark} {c : Consumer E}
    {held : List (BatchPayload E)} {published : Option ResumeToken} {gen turns : Nat}
    (ho : outstanding s = m :: s.queue) (hsent : sent [e] = []) (hhandled : handled [e] = [k])
    (hres : ∀ t, e ≠ .rescanned t) (hmarks : marks [m] = [k])
    (hc : in_hand c = ([] : List (SourceMessage E X)))
    (hready : ∀ ack, s.consumer ≠ .rescan ack)
    (hhand : ∀ t, k = .overflow t ↔ ∃ ack, c = .rescan ack ∧ ack.turn = t)
    (hturns : s.turns ≤ turns) :
    Logged
      { s with
        overflow_gen := gen, published, held, consumer := c, turns, log := s.log ++ [e] } where
  fifo := by
    have hf := h.fifo
    rw [ho] at hf
    show sent (s.log ++ [e]) = handled (s.log ++ [e]) ++ marks (in_hand c ++ s.queue)
    rw [sent_append, handled_append, hf, hsent, hhandled, hc, List.nil_append, List.append_nil,
      List.append_assoc, ← hmarks, ← marks_append]
    rfl
  nodup := by
    show (sent (s.log ++ [e])).Nodup
    rw [sent_append, hsent, List.append_nil]
    exact h.nodup
  turn := fun t ht => by
    have ht : _ ∈ sent (s.log ++ [e]) := ht
    rw [sent_append, hsent, List.append_nil] at ht
    exact ⟨Nat.le_trans (h.turn t ht).1 hturns, (h.turn t ht).2⟩
  permit := fun n hn => by
    have hn : _ ∈ sent (s.log ++ [e]) := hn
    rw [sent_append, hsent, List.append_nil] at hn
    exact h.permit n hn
  issued := h.issued
  hand := fun ack ha => by
    show ∃ l, handled (s.log ++ [e]) = _
    have hk := (hhand ack.turn).mpr ⟨ack, ha, rfl⟩
    rw [handled_append, hhandled, hk]
    exact ⟨_, rfl⟩
  rescans := fun t ht => by
    have ht : .acked t ∈ s.log ++ [e] := ht
    show _ ∈ s.log ++ [e] ∨ _
    rw [← overflow_handled, handled_append, hhandled, List.mem_append, List.mem_singleton,
      overflow_handled] at ht
    rw [List.mem_append]
    rcases ht with ht | ht
    · rcases h.rescans t ht with hr | ⟨ack, ha, -⟩
      · exact .inl (.inl hr)
      · exact absurd ha (hready ack)
    · exact .inr ((hhand t).mp ht.symm)
  order := order_snoc h.order (fun t ht => absurd ht (hres t))

theorem rescan (h : Logged s) {ack : OverflowAck} (hc : s.consumer = .rescan ack) :
    Logged { s with consumer := .ready, log := s.log ++ [.rescanned ack.turn] } := by
  have hs : sent (s.log ++ [.rescanned ack.turn]) = sent s.log := by
    rw [sent_append]
    exact List.append_nil _
  have hh : handled (s.log ++ [.rescanned ack.turn]) = handled s.log := by
    rw [handled_append]
    exact List.append_nil _
  refine ⟨?_, ?_, ?_, ?_, h.issued, ?_, ?_, ?_⟩
  · have hf := h.fifo
    unfold outstanding at hf ⊢
    rw [hc] at hf
    rw [hs, hh]
    exact hf
  · rw [hs]
    exact h.nodup
  · rw [hs]
    exact h.turn
  · rw [hs]
    exact h.permit
  · intro _ hn
    cases hn
  · intro t ht
    have ht : _ ∈ s.log ++ [_] := ht
    show _ ∈ s.log ++ [_] ∨ _
    rw [List.mem_append] at ht ⊢
    left
    rcases ht with ht | ht
    · rcases h.rescans t ht with hr | ⟨x, hx, rfl⟩
      · exact .inl hr
      · rw [hc] at hx
        cases hx
        exact .inr (List.mem_cons_self ..)
    · cases List.mem_singleton.mp ht
  · apply order_snoc h.order
    intro t ht
    cases ht
    -- the ack in hand was dropped just before
    obtain ⟨l, hl⟩ := h.hand ack hc
    rw [← overflow_handled, hl]
    exact List.mem_append_right _ (List.mem_cons_self ..)

end Logged

/-- Every atomic operation keeps the log in order. -/
theorem Move.logged (hm : Move budget s s') (hn : Counted (w := w) s) (h : Logged s) :
    Logged s' := by
  cases hm with
  | begin hp hq =>
    exact h.frame rfl rfl rfl (.inr ⟨_, rfl, fun _ hn => by cases hn⟩) rfl (fun _ => Iff.rfl)
      (Nat.le_refl _) (Nat.le_refl _) nofun nofun
  | called hp hp' =>
    refine h.frame (List.append_nil _).symm rfl rfl (.inl rfl) rfl (fun _ => Iff.rfl)
      (Nat.le_refl _) (Nat.le_refl _) ?_ ?_
    · intro ack ha
      exact absurd ha ((quiet_call (hp'.imp_right .inr)).2 ack)
    · intro b l hb
      rcases hp' with hi | ⟨_, he⟩
      · rw [is_idle_iff] at hi
        cases hi.symm.trans hb
      · cases he.symm.trans hb
  | nothing hp =>
    exact h.frame (List.append_nil _).symm rfl rfl (.inl rfl) rfl (fun _ => Iff.rfl)
      (Nat.le_refl _) (Nat.le_refl _) nofun nofun
  | lose hp hl =>
    exact h.frame rfl rfl rfl (.inr ⟨_, rfl, fun _ hn => by cases hn⟩) rfl (fun _ => Iff.rfl)
      (Nat.le_refl _) (Nat.le_refl _) nofun nofun
  | acquire hp he hb =>
    refine h.frame (List.append_nil _).symm rfl rfl (.inl rfl) rfl (fun _ => Iff.rfl)
      (Nat.le_refl _) (Nat.le_succ _) nofun ?_
    intro b l hb
    cases hb
    exact .inl ⟨Nat.le_refl _, Nat.lt_succ_self _⟩
  | send_batch hp hr =>
    refine h.send rfl rfl (fun _ => ⟨nofun, nofun⟩) rfl ?_
      nofun ?_ nofun nofun
    · intro hin
      have hlt := (h.permit _ hin).2 _ _ hp
      omega
    · intro n hn
      cases hn
      exact h.issued _ _ hp
  | supersede hp hl =>
    have hturns : s.turns ≤ if s.overflow_gen % 2 = 1 then s.turns + 1 else s.turns := by
      split_ifs <;> omega
    rcases hl with ⟨rfl, rfl, -⟩ | ⟨rfl, rfl, -⟩
    · exact h.frame rfl rfl rfl (.inl rfl) rfl (fun _ => Iff.rfl) hturns (Nat.le_refl _)
        nofun nofun
    · exact h.frame rfl rfl rfl (.inr ⟨_, rfl, fun _ hn => by cases hn⟩) rfl (fun _ => Iff.rfl)
        hturns (Nat.le_refl _) nofun nofun
  | elect hp hg =>
    refine h.frame (List.append_nil _).symm rfl rfl (.inl rfl) rfl (fun _ => Iff.rfl)
      (Nat.le_succ _) (Nat.le_refl _) ?_ nofun
    intro ack ha
    cases ha
    exact .inl (Nat.lt_succ_self _)
  | ride hp hg =>
    exact h.frame (List.append_nil _).symm rfl rfl (.inl rfl) rfl (fun _ => Iff.rfl)
      (Nat.le_refl _) (Nat.le_refl _) nofun nofun
  | send_overflow hp hr =>
    refine h.send rfl rfl (fun _ => ⟨nofun, nofun⟩) rfl ?_ ?_
      nofun nofun nofun
    · intro hin
      have hlt := (h.turn _ hin).2 _ hp
      omega
    · intro t ht
      cases ht
      exact Nat.le_of_eq (hn.elected _ hp).1
  | swap_fatal hp hf =>
    exact h.frame (List.append_nil _).symm rfl rfl (.inl rfl) rfl (fun _ => Iff.rfl)
      (Nat.le_refl _) (Nat.le_refl _) nofun nofun
  | send_fatal hp hr =>
    refine h.frame rfl rfl rfl (.inr ⟨_, rfl, fun _ hn => by cases hn⟩) ?_ (fun _ => Iff.rfl)
      (Nat.le_refl _) (Nat.le_refl _) nofun nofun
    unfold outstanding
    rw [← List.append_assoc, marks_append]
    exact List.append_nil _
  | take_batch hc hq =>
    refine h.frame (List.append_nil _).symm rfl rfl (.inl rfl) ?_ ?_ (Nat.le_refl _)
      (Nat.le_refl _) (fun _ ha => .inr ha) (fun _ _ hb => .inr hb)
    · rw [outstanding_ready hc, hq]
      rfl
    · intro ack
      rw [hc]
      exact ⟨nofun, nofun⟩
  | take_overflow hc hq =>
    refine h.frame (List.append_nil _).symm rfl rfl (.inl rfl) ?_ ?_ (Nat.le_refl _)
      (Nat.le_refl _) (fun _ ha => .inr ha) (fun _ _ hb => .inr hb)
    · rw [outstanding_ready hc, hq]
      rfl
    · intro ack
      rw [hc]
      exact ⟨nofun, nofun⟩
  | take_fatal hc hq =>
    refine h.frame (List.append_nil _).symm rfl rfl (.inl rfl) ?_ (fun _ => Iff.rfl)
      (Nat.le_refl _) (Nat.le_refl _) (fun _ ha => .inr ha) (fun _ _ hb => .inr hb)
    rw [outstanding_ready hc, hq]
    unfold outstanding
    rw [hc]
    rfl
  | ingest hc hp =>
    rename_i payload published
    refine h.handle (m := .batch payload) (k := .batch payload.permit) ?_ rfl rfl
      nofun rfl rfl ?_ ?_ (Nat.le_refl _)
    · unfold outstanding
      rw [hc]
      rfl
    · intro ack ha
      cases hc.symm.trans ha
    · intro t
      exact ⟨nofun, nofun⟩
  | drop_ack hc =>
    rename_i ack
    refine h.handle (m := .overflow ack) (k := .overflow ack.turn) ?_ rfl rfl
      nofun rfl rfl ?_ ?_ ?_
    · unfold outstanding
      rw [hc]
      rfl
    · intro x hx
      cases hc.symm.trans hx
    · intro t
      constructor
      · intro ht
        cases ht
        exact ⟨ack, rfl, rfl⟩
      · rintro ⟨x, hx, rfl⟩
        cases hx
        rfl
    · split_ifs <;> omega
  | rescan hc => exact h.rescan hc
  | release hh =>
    exact h.frame rfl rfl rfl (.inr ⟨_, rfl, fun _ hn => by cases hn⟩) rfl (fun _ => Iff.rfl)
      (Nat.le_refl _) (Nat.le_refl _) (fun _ ha => .inr ha) (fun _ _ hb => .inr hb)

/-! ### Coverage -/

/-- The overflow of turn `o` stands where the loss between `pre` and `post` stands
    among the batches, and its ack was not dropped before that loss. -/
def Covers (pre post : List Event) (o : Nat) : Prop :=
  .acked o ∉ pre ∧ ∃ l₁ l₂, sent (pre ++ post) = l₁ ++ .overflow o :: l₂ ∧
    shipped l₁ = shipped (sent pre) ∧ shipped l₂ = shipped (sent post)

/-- The producer has a loss and has not yet settled which overflow tells of it. -/
def Signalling (p : Producer E X) : Prop := p = .elect ∨ ∃ ack, p = .send_overflow ack

/-- Every loss of the log is covered, up to the one being signalled. -/
def Answered (signalling : Prop) (log : List Event) : Prop :=
  ∀ pre post, log = pre ++ .lost :: post →
    (∃ o, Covers pre post o) ∨ (signalling ∧ sent post = [])

theorem Covers.snoc {pre post : List Event} {o : Nat} (h : Covers pre post o) (e : Event) :
    Covers pre (post ++ [e]) o := by
  obtain ⟨ha, l₁, l₂, hs, h₁, h₂⟩ := h
  refine ⟨ha, l₁, l₂ ++ sent [e], ?_, h₁, ?_⟩
  · rw [← List.append_assoc, sent_append, hs, List.append_assoc]
    rfl
  · rw [shipped_append, h₂, sent_append, shipped_append]

namespace Answered

variable {p q : Prop} {log : List Event}

theorem imp (h : Answered p log) (hpq : p → q) : Answered q log := by
  intro pre post hl
  exact (h pre post hl).imp_right (fun ⟨hp, hs⟩ => ⟨hpq hp, hs⟩)

theorem snoc_quiet (h : Answered p log) {e : Event} (hs : sent [e] = []) (he : e ≠ .lost) :
    Answered p (log ++ [e]) := by
  intro pre post hl
  rcases Logged.snoc_cut hl with ⟨post', rfl, hcut⟩ | ⟨-, hn, -⟩
  · rcases h pre post' hcut with ⟨o, ho⟩ | ⟨hp, hpost⟩
    · exact .inl ⟨o, ho.snoc e⟩
    · refine .inr ⟨hp, ?_⟩
      rw [sent_append, hpost, hs]
      rfl
  · exact absurd hn.symm he

/-- Once nothing is being signalled, whatever is sent is sent behind the cover. -/
theorem snoc_sent (h : Answered False log) {e : Event} (he : e ≠ .lost) :
    Answered False (log ++ [e]) := by
  intro pre post hl
  rcases Logged.snoc_cut hl with ⟨post', rfl, hcut⟩ | ⟨-, hn, -⟩
  · rcases h pre post' hcut with ⟨o, ho⟩ | ⟨hf, -⟩
    · exact .inl ⟨o, ho.snoc e⟩
    · cases hf
  · exact absurd hn.symm he

theorem snoc_lost (h : Answered False log) : Answered True (log ++ [.lost]) := by
  intro pre post hl
  rcases Logged.snoc_cut hl with ⟨post', rfl, hcut⟩ | ⟨rfl, -, -⟩
  · rcases h pre post' hcut with ⟨o, ho⟩ | ⟨hf, -⟩
    · exact .inl ⟨o, ho.snoc .lost⟩
    · cases hf
  · exact .inr ⟨trivial, rfl⟩

/-- The overflow sent covers the loss it was elected for. -/
theorem snoc_overflow (h : Answered True log) {o : Nat} (ho : .acked o ∉ log) :
    Answered False (log ++ [.sent_overflow o]) := by
  intro pre post hl
  left
  rcases Logged.snoc_cut hl with ⟨post', rfl, hcut⟩ | ⟨-, hn, -⟩
  · rcases h pre post' hcut with ⟨x, hx⟩ | ⟨-, hpost⟩
    · exact ⟨x, hx.snoc _⟩
    · refine ⟨o, ?_, sent pre, [], ?_, rfl, ?_⟩
      · intro hin
        apply ho
        rw [hcut]
        exact List.mem_append_left _ hin
      · rw [sent_append, sent_append, hpost]
        rfl
      · rw [sent_append, hpost]
        rfl
  · cases hn

/-- A loss rides an overflow that waits behind every batch. -/
theorem ride (h : Answered True log) {o : Nat} {l₁ l₂ : List Mark}
    (hs : sent log = l₁ ++ .overflow o :: l₂) (hl₂ : shipped l₂ = []) (ho : .acked o ∉ log) :
    Answered False log := by
  intro pre post hl
  left
  rcases h pre post hl with hc | ⟨-, hpost⟩
  · exact hc
  · have hpre : sent pre = l₁ ++ .overflow o :: l₂ := by
      rw [hl, sent_append, sent_lost, hpost, List.append_nil] at hs
      exact hs
    refine ⟨o, ?_, l₁, l₂, ?_, ?_, ?_⟩
    · intro hin
      apply ho
      rw [hl]
      exact List.mem_append_left _ hin
    · rw [sent_append, hpost, List.append_nil, hpre]
    · rw [hpre, shipped_append]
      show _ = shipped l₁ ++ shipped l₂
      rw [hl₂, List.append_nil]
    · rw [hl₂, hpost]
      rfl

end Answered

/-- An overflow still outstanding has its ack. -/
theorem Logged.unacked (h : Logged s) {t : Nat} (ht : .overflow t ∈ marks (outstanding s)) :
    .acked t ∉ s.log := by
  intro ha
  have hd := h.nodup
  rw [h.fifo, List.nodup_append] at hd
  exact hd.2.2 _ (overflow_handled.mpr ha) _ ht rfl

/-- The overflow the generation says is pending stands behind every batch. -/
theorem Counted.pending_last (hn : Counted (w := w) s) (hg : s.overflow_gen % 2 = 1)
    (hp : s.producer = .elect) :
    ∃ a l ms, outstanding s = l ++ .overflow a :: ms ∧ batches ms = [] := by
  rw [hn.gen, mod_limit_parity] at hg
  rcases hn.pending hg with ⟨ack, ha⟩ | ⟨a, ha, hat⟩
  · cases hp.symm.trans ha
  · unfold acks at ha
    rw [List.mem_filterMap] at ha
    obtain ⟨m, hm, hma⟩ := ha
    cases m <;> cases hma
    obtain ⟨l, ms, ho⟩ := List.append_of_mem hm
    have hr := hn.last_elected ho
    refine ⟨a, l, ms, ho, ?_⟩
    rcases hr.passed with hb | hb | hb
    · exact hb
    · rw [hp] at hb
      exact absurd rfl hb
    · omega

/-- Every atomic operation keeps every loss covered. -/
theorem Move.answered (hm : Move budget s s') (hn : Counted (w := w) s) (hl : Logged s)
    (h : Answered (Signalling s.producer) s.log) : Answered (Signalling s'.producer) s'.log := by
  have settled : ∀ {p : Producer E X}, s.producer = p → p ≠ .elect →
      (∀ ack, p ≠ .send_overflow ack) → Answered False s.log := by
    intro p hp he ho
    apply h.imp
    rintro (hs | ⟨ack, hs⟩)
    · exact he (hp.symm.trans hs)
    · exact ho ack (hp.symm.trans hs)
  have quiet : (s.producer.is_idle ∨ (∃ e l r, s.producer = .acquire e l r) ∨
      ∃ err, s.producer = .swap_fatal err) → Answered False s.log := by
    rintro (hi | ⟨_, _, _, hp⟩ | ⟨_, hp⟩)
    · rw [is_idle_iff] at hi
      exact settled hi nofun nofun
    · exact settled hp nofun nofun
    · exact settled hp nofun nofun
  cases hm with
  | begin hp hq =>
    refine Answered.imp ?_ False.elim
    exact (quiet (.inl (is_idle_iff.mpr hp))).snoc_quiet rfl nofun
  | called hp hp' => exact (quiet (hp.imp_right .inr)).imp False.elim
  | nothing hp => exact (quiet (.inr (.inl ⟨_, _, _, hp⟩))).imp False.elim
  | lose hp hl => exact (quiet (.inr (.inl ⟨_, _, _, hp⟩))).snoc_lost.imp (fun _ => .inl rfl)
  | acquire hp he hb => exact (quiet (.inr (.inl ⟨_, _, _, hp⟩))).imp False.elim
  | send_batch hp hr =>
    have hs := settled hp nofun nofun
    refine Answered.imp ?_ False.elim
    exact hs.snoc_sent nofun
  | supersede hp hlost =>
    have hs := settled hp nofun nofun
    rcases hlost with ⟨rfl, rfl, -⟩ | ⟨rfl, rfl, -⟩
    · rw [List.append_nil]
      exact hs.imp False.elim
    · exact hs.snoc_lost.imp (fun _ => .inl rfl)
  | elect hp hg => exact h.imp (fun _ => .inr ⟨_, rfl⟩)
  | ride hp hg =>
    obtain ⟨a, l, ms, ho, hb⟩ := hn.pending_last (by omega) hp
    have hms : marks (outstanding s) = marks l ++ .overflow a.turn :: marks ms := by
      rw [ho, marks_append]
      rfl
    have hs : sent s.log = (handled s.log ++ marks l) ++ .overflow a.turn :: marks ms := by
      rw [hl.fifo, hms, List.append_assoc]
    refine ((h.imp (fun _ => trivial)).ride hs (shipped_marks hb) ?_).imp False.elim
    apply hl.unacked
    rw [hms]
    exact List.mem_append_right _ (List.mem_cons_self ..)
  | send_overflow hp hr =>
    refine ((h.imp (fun _ => trivial)).snoc_overflow ?_).imp False.elim
    intro hin
    have hs := overflow_handled.mpr hin
    have hlt := (hl.turn _ (by
      rw [hl.fifo]
      exact List.mem_append_left _ hs)).2 _ hp
    omega
  | swap_fatal hp hf => exact (quiet (.inr (.inr ⟨_, hp⟩))).imp False.elim
  | send_fatal hp hr =>
    have hs := settled hp nofun nofun
    refine Answered.imp ?_ False.elim
    exact hs.snoc_sent nofun
  | take_batch hc hq => exact h
  | take_overflow hc hq => exact h
  | take_fatal hc hq => exact h
  | ingest hc hp => exact h.snoc_quiet rfl nofun
  | drop_ack hc => exact h.snoc_quiet rfl nofun
  | rescan hc => exact h.snoc_quiet rfl nofun
  | release hh => exact h.snoc_quiet rfl nofun

theorem Answered.start : Answered False [] := by
  intro pre post h
  have hl := congrArg List.length h
  simp at hl

end Transport
