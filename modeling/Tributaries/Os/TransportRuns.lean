import Tributaries.Os.Served

/-! # Runs of the transport

  Every loss is covered at its own place in the queue, over every
  interleaving of the producer, the consumer and the releases.
-/

namespace Transport

open Machine

variable {E X : Type} {w : Width} {budget : Fin w.limit} {s s' : State E X}

/-! ### The resume point -/

namespace ResumeToken

theorem same_scope_refl (t : ResumeToken) : t.same_scope t = true := by
  cases t with
  | fs_events => exact beq_self_eq_true _
  | usn => simp [same_scope]

theorem same_scope_symm {t t' : ResumeToken} (h : t.same_scope t' = true) :
    t'.same_scope t = true := by
  cases t <;> cases t' <;> simp_all [same_scope]

theorem same_scope_trans {t t' t'' : ResumeToken} (h : t.same_scope t' = true)
    (h' : t'.same_scope t'' = true) : t.same_scope t'' = true := by
  cases t <;> cases t' <;> cases t'' <;> simp_all [same_scope]

theorem reaches_refl (t : ResumeToken) : t.reaches t = true := by
  cases t with
  | fs_events a => exact decide_eq_true (UInt64.le_refl a)
  | usn j a v => exact decide_eq_true (Int64.le_refl a)

theorem reaches_trans {t t' t'' : ResumeToken} (h : t.reaches t' = true)
    (h' : t'.reaches t'' = true) : t.reaches t'' = true := by
  cases t <;> cases t' <;> cases t'' <;> simp only [reaches, decide_eq_true_eq,
    Bool.false_eq_true] at h h' ⊢
  · exact UInt64.le_trans h' h
  · exact Int64.le_trans h' h

end ResumeToken

/-- Publishing keeps the slot at or beyond what it held, unless the scope changes. -/
theorem publish_forward {t t' token : ResumeToken} (h : publish (some t) token = some t')
    (hs : t.same_scope t' = true) : t'.reaches t = true := by
  simp only [publish] at h
  split_ifs at h with hk
  · cases h
    exact t.reaches_refl
  · cases h
    simp only [Bool.and_eq_true, Bool.not_eq_true', not_and, Bool.not_eq_false] at hk
    exact hk hs

theorem publish_some (slot : Option ResumeToken) (token : ResumeToken) :
    publish slot token = slot ∨ publish slot token = some token := by
  unfold publish
  cases slot with
  | none => exact .inr rfl
  | some t =>
    dsimp only
    split_ifs
    · exact .inl rfl
    · exact .inr rfl

theorem publish_ne_none (slot : Option ResumeToken) (token : ResumeToken) :
    publish slot token ≠ none := by
  rcases publish_some slot token with h | h
  · intro hn
    rw [h] at hn
    rw [hn] at h
    cases h
  · rw [h]
    exact Option.some_ne_none _

/-- What the slot held after each ingested batch. -/
def stored (log : List Event) : List ResumeToken :=
  log.filterMap fun
    | .ingested _ published => published
    | _ => none

@[simp] theorem stored_append (l l' : List Event) : stored (l ++ l') = stored l ++ stored l' :=
  List.filterMap_append

structure Published (s : State E X) : Prop where
  forward : ∀ pre post p t, s.log = pre ++ .ingested p (some t) :: post →
    (∀ t' ∈ stored post, t.same_scope t' = true) →
      ∃ t', s.published = some t' ∧ t.same_scope t' = true ∧ t'.reaches t = true
  staged : ∀ t, s.published = some t →
    ∃ p r, .sent_batch p (some t) ∈ s.log ∧ .ingested p r ∈ s.log
  queued : ∀ b ∈ batches (outstanding s), .sent_batch b.permit b.resume ∈ s.log

theorem Published.start : Published (State.start E X) where
  forward := by
    intro pre post p t h
    have hl := congrArg List.length h
    simp [State.start] at hl
  staged := nofun
  queued := nofun

/-- A step that ingests nothing. -/
theorem Published.frame (h : Published s) {events : List Event} (hlog : s'.log = s.log ++ events)
    (he : events = [] ∨ ∃ e, events = [e] ∧ ∀ p r, e ≠ .ingested p r)
    (hp : s'.published = s.published)
    (hb : ∀ b ∈ batches (outstanding s'),
      b ∈ batches (outstanding s) ∨ .sent_batch b.permit b.resume ∈ events) :
    Published s' where
  forward := by
    intro pre post p t hl hscope
    rw [hp]
    rw [hlog] at hl
    rcases he with rfl | ⟨e, rfl, he⟩
    · rw [List.append_nil] at hl
      exact h.forward pre post p t hl hscope
    · rcases Logged.snoc_cut hl with ⟨post', rfl, hcut⟩ | ⟨-, hn, -⟩
      · apply h.forward pre post' p t hcut
        intro t' ht'
        apply hscope
        rw [stored_append]
        exact List.mem_append_left _ ht'
      · exact absurd hn.symm (he _ _)
  staged := by
    intro t ht
    rw [hp] at ht
    obtain ⟨p, r, h₁, h₂⟩ := h.staged t ht
    rw [hlog]
    exact ⟨p, r, List.mem_append_left _ h₁, List.mem_append_left _ h₂⟩
  queued := by
    intro b hin
    rw [hlog]
    rcases hb b hin with hin | hin
    · exact List.mem_append_left _ (h.queued b hin)
    · exact List.mem_append_right _ hin

theorem Published.ingest (h : Published s) {payload : BatchPayload E}
    {published : Option ResumeToken} (hc : s.consumer = .ingest payload)
    (hp : published = match payload.resume with
      | some token => publish s.published token
      | none => s.published) :
    Published
      { s with
        published
        held := s.held ++ [payload]
        consumer := .ready
        log := s.log ++ [.ingested payload.permit published] } where
  forward := by
    intro pre post p t hl hscope
    have hl : s.log ++ [_] = _ := hl
    show ∃ t', published = some t' ∧ _
    rcases Logged.snoc_cut hl with ⟨post', rfl, hcut⟩ | ⟨-, hn, -⟩
    · have hold := h.forward pre post' p t hcut (by
        intro t' ht'
        apply hscope
        rw [stored_append]
        exact List.mem_append_left _ ht')
      obtain ⟨t₀, h₀, hs₀, hr₀⟩ := hold
      cases hres : payload.resume with
      | none =>
        rw [hres] at hp
        exact ⟨t₀, hp.trans h₀, hs₀, hr₀⟩
      | some token =>
        rw [hres, h₀] at hp
        cases hpub : published with
        | none =>
          rw [hpub] at hp
          exact absurd hp.symm (publish_ne_none _ _)
        | some t₁ =>
          have hs₁ : t.same_scope t₁ = true := by
            apply hscope
            rw [stored_append, hpub]
            exact List.mem_append_right _ (List.mem_cons_self ..)
          rw [hpub] at hp
          have hfwd := publish_forward hp.symm
            (ResumeToken.same_scope_trans (ResumeToken.same_scope_symm hs₀) hs₁)
          exact ⟨t₁, rfl, hs₁, ResumeToken.reaches_trans hfwd hr₀⟩
    · injection hn with _ hn
      exact ⟨t, hn.symm, t.same_scope_refl, t.reaches_refl⟩
  staged := by
    intro t ht
    have ht : published = some t := ht
    show ∃ p r, .sent_batch p (some t) ∈ s.log ++ [.ingested payload.permit published] ∧
      .ingested p r ∈ s.log ++ [.ingested payload.permit published]
    have hold : s.published = some t →
        ∃ p r, .sent_batch p (some t) ∈ s.log ++ [.ingested payload.permit published] ∧
          .ingested p r ∈ s.log ++ [.ingested payload.permit published] := by
      intro hs
      obtain ⟨p, r, h₁, h₂⟩ := h.staged t hs
      exact ⟨p, r, List.mem_append_left _ h₁, List.mem_append_left _ h₂⟩
    cases hres : payload.resume with
    | none =>
      rw [hres] at hp
      exact hold (hp.symm.trans ht)
    | some token =>
      have hp : published = publish s.published token := by
        rw [hres] at hp
        exact hp
      rcases publish_some s.published token with hk | hk
      · exact hold (by rw [← hk, ← hp, ht])
      · have htok : payload.resume = some t := by rw [hres, ← hk, ← hp, ht]
        have hq := h.queued payload (by
          unfold outstanding
          rw [hc]
          exact List.mem_cons_self ..)
        rw [htok] at hq
        exact ⟨_, _, List.mem_append_left _ hq, List.mem_append_right _ (List.mem_cons_self ..)⟩
  queued := by
    intro b hb
    apply List.mem_append_left
    apply h.queued b
    unfold outstanding at hb ⊢
    rw [hc]
    exact List.mem_cons_of_mem _ hb

theorem Move.published (hm : Move budget s s') (h : Published s) : Published s' := by
  have same : ∀ b ∈ batches (outstanding s),
      b ∈ batches (outstanding s) ∨ Event.sent_batch b.permit b.resume ∈ ([] : List Event) :=
    fun _ hb => .inl hb
  cases hm with
  | begin hp hq => exact h.frame rfl (.inr ⟨_, rfl, nofun⟩) rfl (fun _ hb => .inl hb)
  | called hp hp' => exact h.frame (List.append_nil _).symm (.inl rfl) rfl same
  | nothing hp => exact h.frame (List.append_nil _).symm (.inl rfl) rfl same
  | lose hp hl => exact h.frame rfl (.inr ⟨_, rfl, nofun⟩) rfl (fun _ hb => .inl hb)
  | acquire hp he hb => exact h.frame (List.append_nil _).symm (.inl rfl) rfl same
  | send_batch hp hr =>
    refine h.frame rfl (.inr ⟨_, rfl, nofun⟩) rfl ?_
    intro b hb
    unfold outstanding at hb ⊢
    rw [← List.append_assoc, batches_append, List.mem_append] at hb
    rcases hb with hb | hb
    · exact .inl hb
    · cases List.mem_singleton.mp hb
      exact .inr (List.mem_cons_self ..)
  | supersede hp hl =>
    rcases hl with ⟨rfl, rfl, -⟩ | ⟨rfl, rfl, -⟩
    · exact h.frame rfl (.inl rfl) rfl same
    · exact h.frame rfl (.inr ⟨_, rfl, nofun⟩) rfl (fun _ hb => .inl hb)
  | elect hp hg => exact h.frame (List.append_nil _).symm (.inl rfl) rfl same
  | ride hp hg => exact h.frame (List.append_nil _).symm (.inl rfl) rfl same
  | send_overflow hp hr =>
    refine h.frame rfl (.inr ⟨_, rfl, nofun⟩) rfl ?_
    intro b hb
    unfold outstanding at hb ⊢
    rw [← List.append_assoc, batches_append, List.mem_append] at hb
    rcases hb with hb | hb
    · exact .inl hb
    · cases hb
  | swap_fatal hp hf => exact h.frame (List.append_nil _).symm (.inl rfl) rfl same
  | send_fatal hp hr =>
    refine h.frame rfl (.inr ⟨_, rfl, nofun⟩) rfl ?_
    intro b hb
    unfold outstanding at hb ⊢
    rw [← List.append_assoc, batches_append, List.mem_append] at hb
    rcases hb with hb | hb
    · exact .inl hb
    · cases hb
  | take_batch hc hq =>
    refine h.frame (List.append_nil _).symm (.inl rfl) rfl ?_
    rw [outstanding_ready hc, hq]
    exact fun _ hb => .inl hb
  | take_overflow hc hq =>
    refine h.frame (List.append_nil _).symm (.inl rfl) rfl ?_
    rw [outstanding_ready hc, hq]
    exact fun _ hb => .inl hb
  | take_fatal hc hq =>
    refine h.frame (List.append_nil _).symm (.inl rfl) rfl ?_
    rw [outstanding_ready hc, hq]
    unfold outstanding
    rw [hc]
    exact fun _ hb => .inl hb
  | ingest hc hp => exact h.ingest hc hp
  | drop_ack hc =>
    refine h.frame rfl (.inr ⟨_, rfl, nofun⟩) rfl ?_
    unfold outstanding
    rw [hc]
    exact fun _ hb => .inl hb
  | rescan hc =>
    refine h.frame rfl (.inr ⟨_, rfl, nofun⟩) rfl ?_
    unfold outstanding
    rw [hc]
    exact fun _ hb => .inl hb
  | release hh => exact h.frame rfl (.inr ⟨_, rfl, nofun⟩) rfl (fun _ hb => .inl hb)

/-! ### Reachable states -/

/-- What every state of a run has. -/
structure Sound (budget : Fin w.limit) (s : State E X) : Prop where
  counted : Counted (w := w) s
  logged : Logged s
  answered : Answered (Signalling s.producer) s.log
  budgeted : Budgeted budget s
  terminal : Terminal s
  published : Published s
  served : Served s
  booked : Booked s.log

theorem Sound.start : Sound budget (State.start E X) :=
  ⟨.start, .start, Answered.start.imp False.elim, .start, .start, .start, .start, nofun⟩

theorem Sound.step {a : Action E X} (h : Sound budget s) (hs : step budget s a = some s') :
    Sound budget s' := by
  have hm := step_move hs
  exact ⟨hm.counted h.counted, hm.logged h.counted h.logged,
    hm.answered h.counted h.logged h.answered, hm.budgeted h.budgeted, hm.terminal h.terminal,
    hm.published h.published, hm.served h.served, hm.booked h.served h.booked⟩

theorem Sound.run {acts : List (Action E X)} (h : Sound budget s)
    (hs : run budget s acts = some s') : Sound budget s' := by
  induction acts generalizing s with
  | nil =>
    cases hs
    exact h
  | cons a as ih =>
    obtain ⟨s₁, h₁, h₂⟩ := Option.bind_eq_some_iff.mp hs
    exact ih (h.step h₁) h₂

/-! ### Coverage is read off the invariants -/

/-- No two overflows wait behind the last batch. -/
theorem Sound.single (h : Sound budget s) {l₁ l₂ : List (SourceMessage E X)}
    (ho : outstanding s = l₁ ++ l₂) (hb : batches l₂ = []) : (acks l₂).length ≤ 1 := by
  -- with no batch behind it an overflow was elected at the latest turn
  have latest : ∀ l a ms, l₂ = l ++ .overflow a :: ms → s.turns ≤ a.turn ∧
      ∀ b ∈ acks ms, a.turn < b.turn ∧ b.turn ≤ s.turns := by
    intro l a ms hl
    have hms : batches ms = [] := by
      rw [hl, batches_append] at hb
      exact (List.append_eq_nil_iff.mp hb).2
    rw [hl, ← List.append_assoc] at ho
    have hr := h.counted.last_elected ho
    have hbound := hr.bound
    rw [hms] at hbound
    refine ⟨by simpa using Nat.le_trans (Nat.le_add_right ..) hbound, ?_⟩
    intro b hin
    refine ⟨hr.above b hin, ?_⟩
    apply (Ladder.turn_le h.counted.ladder _).2
    rw [ho, acks_append]
    exact List.mem_append_right _ (List.mem_cons_of_mem _ hin)
  clear ho hb
  induction l₂ with
  | nil => exact Nat.zero_le _
  | cons m ms ih =>
    have hms := ih (fun l a ms' hl => latest (m :: l) a ms' (by rw [hl]; rfl))
    cases m with
    | batch b => exact hms
    | fatal e => exact hms
    | overflow a =>
      have ha := latest [] a ms rfl
      have hnil : acks ms = [] := by
        apply List.eq_nil_iff_forall_not_mem.mpr
        intro b hin
        have hlt := ha.2 b hin
        omega
      show (a :: acks ms).length ≤ 1
      rw [hnil]
      exact Nat.le_refl _

/-- What the log holds and did not hold before a loss, it holds after the loss. -/
theorem mem_after {log pre post : List Event} (hl : log = pre ++ .lost :: post) {e : Event}
    (he : e ∈ log) (hpre : e ∉ pre) (hlost : e ≠ .lost) : e ∈ post := by
  rw [hl] at he
  rcases List.mem_append.mp he with he | he
  · exact absurd he hpre
  · exact (List.mem_cons.mp he).resolve_left hlost

theorem Logged.rescanned_after (h : Logged s) {pre post : List Event} {o : Nat}
    (hl : s.log = pre ++ .lost :: post) (hack : .acked o ∉ pre) (hres : .rescanned o ∈ s.log) :
    .rescanned o ∈ post := by
  apply mem_after hl hres _ nofun
  intro hin
  obtain ⟨a, b, hab⟩ := List.append_of_mem hin
  apply hack
  rw [hab]
  apply List.mem_append_left
  apply h.order a (b ++ .lost :: post) o
  rw [hl, hab, List.append_assoc]
  rfl

/-- A batch sent after a loss is ingested only once the loss's overflow was acted on. -/
theorem Logged.rescanned_first (h : Logged s) {pre post : List Event} {o p : Nat}
    (hl : s.log = pre ++ .lost :: post) (hc : Covers pre post o)
    (hs : .batch p ∈ sent post) (hp : .batch p ∈ handled s.log) :
    .acked o ∈ post ∧ .rescanned o ∈ post := by
  obtain ⟨hack, l₁, l₂, hcut, -, hship⟩ := hc
  have hsent : sent s.log = l₁ ++ .overflow o :: l₂ := by
    rw [← hcut, hl, sent_append, sent_append, sent_lost]
  have hl₂ : .batch p ∈ l₂ := by
    have hin : Mark.batch p ∈ shipped (sent post) := List.mem_filter.mpr ⟨hs, rfl⟩
    rw [← hship] at hin
    exact List.mem_of_mem_filter hin
  have hd := h.nodup
  have hfifo := h.fifo
  rw [hsent] at hd hfifo
  have hl₁ : .batch p ∉ l₁ := by
    intro hin
    exact (List.nodup_append.mp hd).2.2 _ hin _ (List.mem_cons_of_mem _ hl₂) rfl
  -- what was handled reaches beyond the overflow
  obtain ⟨c, hhandled⟩ : ∃ c, handled s.log = l₁ ++ .overflow o :: c := by
    rcases List.append_eq_append_iff.mp hfifo with ⟨c, hc₁, hc₂⟩ | ⟨c, hc₁, -⟩
    · cases c with
      | nil =>
        rw [hc₁, List.append_nil] at hp
        exact absurd hp hl₁
      | cons m c =>
        have hm := (List.cons.inj hc₂).1
        exact ⟨c, by rw [hc₁, hm]⟩
    · apply absurd hp
      intro hin
      apply hl₁
      rw [hc₁]
      exact List.mem_append_left _ hin
  have hcp : .batch p ∈ c := by
    rw [hhandled] at hp
    rcases List.mem_append.mp hp with hin | hin
    · exact absurd hin hl₁
    · rcases List.mem_cons.mp hin with hin | hin
      · cases hin
      · exact hin
  have hacked : .acked o ∈ s.log := by
    rw [← overflow_handled, hhandled]
    exact List.mem_append_right _ (List.mem_cons_self ..)
  refine ⟨mem_after hl hacked hack nofun, ?_⟩
  have hres : .rescanned o ∈ s.log := by
    rcases h.rescans o hacked with hr | ⟨ack, hca, rfl⟩
    · exact hr
    · -- the overflow in hand is the one handled last, and the batch came after it
      obtain ⟨l, hlast⟩ := h.hand ack hca
      have hnd : (handled s.log).Nodup := by
        have hnd := h.nodup
        rw [h.fifo] at hnd
        exact (List.nodup_append.mp hnd).1
      rw [hhandled, List.nodup_append] at hnd
      have hnot := (List.nodup_cons.mp hnd.2.1).1
      have hlc : Mark.overflow ack.turn ∈ c := by
        have hcne : c ≠ [] := List.ne_nil_of_mem hcp
        have h₁ : (handled s.log).getLast? = c.getLast? := by
          rw [hhandled, List.getLast?_append_of_ne_nil _ (List.cons_ne_nil _ _),
            List.getLast?_cons_of_ne_nil hcne]
        have h₂ : (handled s.log).getLast? = some (.overflow ack.turn) := by
          rw [hlast]
          exact List.getLast?_concat ..
        exact List.mem_of_getLast? (h₁.symm.trans h₂)
      exact absurd hlc hnot
  exact h.rescanned_after hl hack hres

/-! ### Finishing the work under way -/

/-- The steps that finish calls and handle messages, against those that begin calls. -/
def Action.is_internal : Action E X → Bool
  | .produce => true
  | .take => true
  | .consume => true
  | _ => false

def Producer.left : Producer E X → Nat
  | .idle => 0
  | .acquire .. => 11
  | .send_batch .. => 10
  | .supersede _ => 6
  | .elect => 5
  | .send_overflow _ => 4
  | .swap_fatal _ => 5
  | .send_fatal _ => 4

def Consumer.left : Consumer E → Nat
  | .ready => 0
  | .ingest _ => 1
  | .drop_ack _ => 2
  | .rescan _ => 1

/-- How many internal steps are left at most: each message in the queue takes three. -/
def work (s : State E X) : Nat := s.producer.left + 3 * s.queue.length + s.consumer.left

theorem produce_work (h : produce budget s = some s') : work s' < work s := by
  unfold produce at h
  split at h
  · cases h
  all_goals rename_i hp
  · split_ifs at h <;> cases h <;> simp [work, hp, Producer.left]
  · split_ifs at h
    cases h
    simp [work, hp, Producer.left]
    omega
  · dsimp only at h
    split_ifs at h <;> cases h <;> simp [work, hp, Producer.left]
  · split_ifs at h <;> cases h <;> simp [work, hp, Producer.left]
  · split_ifs at h
    cases h
    simp [work, hp, Producer.left]
    omega
  · split_ifs at h <;> cases h <;> simp [work, hp, Producer.left]
  · split_ifs at h
    cases h
    simp [work, hp, Producer.left]
    omega

theorem take_work (h : take s = some s') : work s' < work s := by
  unfold take at h
  split at h
  · rename_i hc hq
    cases h
    simp [work, hc, hq, Consumer.left]
    omega
  · rename_i hc hq
    cases h
    simp [work, hc, hq, Consumer.left]
    omega
  · rename_i hc hq
    cases h
    simp [work, hq]
  · cases h

theorem consume_work (h : consume w s = some s') : work s' < work s := by
  unfold consume at h
  split at h
  · cases h
  all_goals
    rename_i hc
    cases h
    simp [work, hc, Consumer.left]

theorem step_work {a : Action E X} (ha : a.is_internal) (h : step budget s a = some s') :
    work s' < work s := by
  cases a with
  | produce => exact produce_work h
  | take => exact take_work h
  | consume => exact consume_work h
  | forward => cases ha
  | signal_loss => cases ha
  | signal_fatal => cases ha
  | release => cases ha

/-- Internal steps come to an end under every schedule. -/
theorem run_work {acts : List (Action E X)} (ha : ∀ a ∈ acts, a.is_internal)
    (h : run budget s acts = some s') : acts.length + work s' ≤ work s := by
  induction acts generalizing s with
  | nil =>
    cases h
    exact Nat.le_of_eq (Nat.zero_add _)
  | cons a as ih =>
    obtain ⟨s₁, h₁, h₂⟩ := Option.bind_eq_some_iff.mp h
    have hlt := step_work (ha a (List.mem_cons_self ..)) h₁
    have hle := ih (fun b hb => ha b (List.mem_cons_of_mem _ hb)) h₂
    rw [List.length_cons]
    omega

/-- No internal step is possible. -/
def AtRest (budget : Fin w.limit) (s : State E X) : Prop :=
  ∀ a : Action E X, a.is_internal → step budget s a = none

/-- At rest every call has returned and every message was handled. -/
theorem AtRest.settled (h : AtRest budget s) :
    s.producer = .idle ∧ s.consumer = .ready ∧ s.queue = [] := by
  have hproduce : produce budget s = none := h .produce rfl
  have htake : take s = none := h .take rfl
  have hconsume : consume w s = none := h .consume rfl
  have hc : s.consumer = .ready := by
    cases hc : s.consumer <;> simp [consume, hc] at hconsume
    rfl
  have hq : s.queue = [] := by
    cases hq : s.queue with
    | nil => rfl
    | cons m ms => cases m <;> simp [take, hc, hq] at htake
  -- an empty queue has room for whatever the producer is sending
  have hroom : Room w s := by
    have hlarge := limit_large w
    unfold Room
    rw [hq, List.length_nil]
    omega
  refine ⟨?_, hc, hq⟩
  cases hp : s.producer with
  | idle => rfl
  | acquire =>
    simp only [produce, hp] at hproduce
    split_ifs at hproduce
  | send_batch => simp [produce, hp, hroom] at hproduce
  | supersede =>
    simp only [produce, hp] at hproduce
    split_ifs at hproduce
  | elect =>
    simp only [produce, hp] at hproduce
    split_ifs at hproduce
  | send_overflow => simp [produce, hp, hroom] at hproduce
  | swap_fatal =>
    simp only [produce, hp] at hproduce
    split_ifs at hproduce
  | send_fatal => simp [produce, hp, hroom] at hproduce

/-! ### The guarantee -/

/-- What the transport promises of a state it has run to by these actions. -/
structure Promised (budget : Fin w.limit) (acts : List (Action E X)) (s : State E X) :
    Prop where
  /-- The log holds every call, in order, with what it was asked. -/
  asked : requests s.log = acts.filterMap Action.request
  /-- A batch past the budget and a lossy one have marked a loss, and a lossy one went
      out without its resume point, unless the call is the newest and still under way. -/
  served : ∀ c ∈ calls s.log,
    c.Fulfilled ∨ ((calls s.log).head? = some c ∧ ¬ Returned s.producer)
  /-- What is published came with a batch that was not lossy. -/
  carried : ∀ token, s.published = some token →
    ∃ events, events ≠ [] ∧ Action.forward events false (some token) ∈ acts
  /-- Each loss has an overflow in its place among the batches, whose ack is dropped
      after the loss, unless its call has sent nothing since. -/
  covered : ∀ pre post, s.log = pre ++ .lost :: post →
    (∃ o, Covers pre post o ∧ (.acked o ∈ post ∨ .overflow o ∈ marks (outstanding s))) ∨
      (Signalling s.producer ∧ sent post = [])
  /-- The calls and messages under way are finished in so many steps, in any order. -/
  finite : ∀ acts s', (∀ a ∈ acts, a.is_internal) → run budget s acts = some s' →
    acts.length ≤ work s
  /-- Then every loss has had its rescan. -/
  settled : AtRest budget s → ∀ pre post, s.log = pre ++ .lost :: post →
    ∃ o, Covers pre post o ∧ .acked o ∈ post ∧ .rescanned o ∈ post
  single : ∀ l₁ l₂, outstanding s = l₁ ++ l₂ → batches l₂ = [] → (acks l₂).length ≤ 1
  bounded : (batches (outstanding s)).length + s.held.length ≤ budget.val
  /-- Each permit was returned once or is still out, never both. -/
  returned : (List.range s.issued).Perm (released s.log ++ permits_out s)
  counted : s.in_flight = (permits_out s).length
  fatal : s.log.count .sent_fatal ≤ 1
  /-- What was published is reached by what is, as long as the scope stays. -/
  forward : ∀ pre post p t, s.log = pre ++ .ingested p (some t) :: post →
    (∀ t' ∈ stored post, t.same_scope t' = true) →
      ∃ t', s.published = some t' ∧ t.same_scope t' = true ∧ t'.reaches t = true
  /-- A position past those of the batches sent before a loss is published only after
      the loss's rescan. -/
  skipped : ∀ pre post position t, s.log = pre ++ .lost :: post →
    (∀ p r, .sent_batch p (some r) ∈ pre → r.same_scope position = true →
      r.reaches position = false) →
    s.published = some t → t.same_scope position = true → t.reaches position = true →
      ∃ o, Covers pre post o ∧ .acked o ∈ post ∧ .rescanned o ∈ post

/-- An overflow sent was acked or still waits. -/
theorem Logged.covering (h : Logged s) {pre post : List Event} {o : Nat}
    (hl : s.log = pre ++ .lost :: post) (hc : Covers pre post o) :
    .acked o ∈ post ∨ .overflow o ∈ marks (outstanding s) := by
  obtain ⟨hack, l₁, l₂, hcut, -, -⟩ := hc
  have hin : .overflow o ∈ sent s.log := by
    rw [hl, sent_append, sent_lost, ← sent_append, hcut]
    exact List.mem_append_right _ (List.mem_cons_self ..)
  rw [h.fifo] at hin
  rcases List.mem_append.mp hin with hin | hin
  · exact .inl (mem_after hl (overflow_handled.mp hin) hack nofun)
  · exact .inr hin

theorem Sound.settled (h : Sound budget s) (hr : AtRest budget s) {pre post : List Event}
    (hl : s.log = pre ++ .lost :: post) :
    ∃ o, Covers pre post o ∧ .acked o ∈ post ∧ .rescanned o ∈ post := by
  obtain ⟨hp, hc, hq⟩ := hr.settled
  rcases h.answered pre post hl with ⟨o, ho⟩ | ⟨hs, -⟩
  · have hack : .acked o ∈ post := by
      rcases h.logged.covering hl ho with ha | ha
      · exact ha
      · rw [outstanding_ready hc, hq] at ha
        cases ha
    refine ⟨o, ho, hack, ?_⟩
    apply h.logged.rescanned_after hl ho.1
    rcases h.logged.rescans o (by
      rw [hl]
      exact List.mem_append_right _ (List.mem_cons_of_mem _ hack)) with hres | ⟨ack, ha, -⟩
    · exact hres
    · cases hc.symm.trans ha
  · rcases hs with hs | ⟨ack, hs⟩
    · cases hp.symm.trans hs
    · cases hp.symm.trans hs

theorem Sound.skipped (h : Sound budget s) {pre post : List Event} {position t : ResumeToken}
    (hl : s.log = pre ++ .lost :: post)
    (hpre : ∀ p r, .sent_batch p (some r) ∈ pre → r.same_scope position = true →
      r.reaches position = false)
    (hp : s.published = some t) (hs : t.same_scope position = true)
    (hr : t.reaches position = true) :
    ∃ o, Covers pre post o ∧ .acked o ∈ post ∧ .rescanned o ∈ post := by
  obtain ⟨p, r, hsent, hin⟩ := h.published.staged t hp
  have hpost : .sent_batch p (some t) ∈ post := by
    apply mem_after hl hsent _ nofun
    intro hbefore
    have hno := hpre p t hbefore hs
    rw [hr] at hno
    cases hno
  have hship := batch_sent.mpr ⟨_, hpost⟩
  rcases h.answered pre post hl with ⟨o, ho⟩ | ⟨-, hnone⟩
  · obtain ⟨h₁, h₂⟩ := h.logged.rescanned_first hl ho hship (batch_handled.mpr ⟨r, hin⟩)
    exact ⟨o, ho, h₁, h₂⟩
  · rw [hnone] at hship
    cases hship

/-- The resume point that is published was asked for, by a batch that was not lossy. -/
theorem Sound.carried (h : Sound budget s) {acts : List (Action E X)}
    (ha : requests s.log = acts.filterMap Action.request) {token : ResumeToken}
    (ht : s.published = some token) :
    ∃ events, events ≠ [] ∧ Action.forward events false (some token) ∈ acts := by
  obtain ⟨permit, r, hsent, -⟩ := h.published.staged token ht
  obtain ⟨c, hc, hin⟩ := h.booked permit (some token) hsent
  have hreq := h.served.resumed hc hin
  have hmem : c.request ∈ requests s.log :=
    List.mem_map_of_mem (List.mem_reverse.mpr hc)
  rw [ha, hreq] at hmem
  obtain ⟨a, hact, hasks⟩ := List.mem_filterMap.mp hmem
  cases a with
  | forward events lossy resume =>
    simp only [Action.request, Option.some.injEq, Request.forward.injEq] at hasks
    obtain ⟨he, rfl, rfl⟩ := hasks
    exact ⟨events, List.isEmpty_eq_false_iff.mp he, hact⟩
  | _ => cases hasks

/-- Over every interleaving the transport keeps its promise. -/
theorem losses_covered_in_place {acts : List (Action E X)}
    (h : run budget (State.start E X) acts = some s) : Promised budget acts s := by
  have hs := Sound.start.run h
  have hasked := run_requests h
  refine
    { asked := hasked
      served := fun _ hc => hs.served.fulfilled_or_newest hc
      carried := fun _ ht => hs.carried hasked ht
      covered := ?_
      finite := ?_
      settled := fun hr _ _ hl => hs.settled hr hl
      single := fun _ _ ho hb => hs.single ho hb
      bounded := hs.budgeted.bounded
      returned := hs.budgeted.perm
      counted := hs.budgeted.count
      fatal := hs.terminal.once
      forward := hs.published.forward
      skipped := fun _ _ _ _ hl hpre hp hscope hr => hs.skipped hl hpre hp hscope hr }
  · intro pre post hl
    exact (hs.answered pre post hl).imp_left
      (fun ⟨o, ho⟩ => ⟨o, ho, hs.logged.covering hl ho⟩)
  · intro acts' s' ha hrun
    have hle := run_work ha hrun
    omega

/-- A batch over the budget and then a lossy one, between two that are sent with their
    resume points, and the rescans that tell of both. -/
def lossy_between (first middle last : ResumeToken) : List (Action Nat Unit) :=
  [.forward [1] false (some first), .produce, .produce, .produce,
   .forward [2] false none, .produce, .produce, .produce,
   .take, .consume, .release 0,
   .forward [3] true (some middle), .produce, .produce, .produce, .produce, .produce,
   .take, .consume, .consume, .take, .consume, .release 1, .take, .consume, .consume,
   .forward [4] false (some last), .produce, .produce, .produce, .take, .consume]

set_option maxRecDepth 8000 in
theorem losses_covered_between :
    ∃ s, run (w := .w64) ⟨1, by decide⟩ (State.start Nat Unit)
        (lossy_between (.fs_events 5 none) (.fs_events 7 none) (.fs_events 9 none)) = some s ∧
      s.log.count .lost = 2 ∧ s.published = some (.fs_events 9 none) ∧
      (calls s.log).all (fun c => !c.sent.contains (some (.fs_events 7 none))) ∧
      Promised (w := .w64) ⟨1, by decide⟩
        (lossy_between (.fs_events 5 none) (.fs_events 7 none) (.fs_events 9 none)) s := by
  have h : ((run (w := .w64) ⟨1, by decide⟩ (State.start Nat Unit)
      (lossy_between (.fs_events 5 none) (.fs_events 7 none) (.fs_events 9 none))).map
        fun s => (s.log.count .lost, s.published,
          (calls s.log).all fun c => !c.sent.contains (some (.fs_events 7 none)))) =
      some (2, some (.fs_events 9 none), true) := by
    decide +kernel
  obtain ⟨s, hs, hl⟩ := Option.map_eq_some_iff.mp h
  injection hl with hl hp
  injection hp with hp hc
  exact ⟨s, hs, hl, hp, hc, losses_covered_in_place hs⟩

end Transport
