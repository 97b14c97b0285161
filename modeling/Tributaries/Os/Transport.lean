import Tributaries.Machine

/-! # The source transport

  One serial producer and one consumer share a queue of messages, a budget
  of batches in flight, a generation that says whether a loss is already
  signalled at the queue's tail, and a published resume point.  Each step
  below is one atomic operation of the code; the two sides interleave.
-/

namespace Transport

open Machine

/-! ### Resume points -/

/-- A journal position and the scope it was minted under. -/
inductive ResumeToken where
  | fs_events (last_good : UInt64) (device_uuid : Option (Vector UInt8 16))
  | usn (journal_id : UInt64) (next_usn : Int64) (volume_serial : UInt64)
  deriving DecidableEq

namespace ResumeToken

def same_scope : ResumeToken → ResumeToken → Bool
  | .fs_events _ left, .fs_events _ right => left == right
  | .usn left_journal _ left_volume, .usn right_journal _ right_volume =>
    left_journal == right_journal && left_volume == right_volume
  | _, _ => false

/-- The first token names a point at or beyond the second's, within one scope. -/
def reaches : ResumeToken → ResumeToken → Bool
  | .fs_events new _, .fs_events old _ => old ≤ new
  | .usn _ new _, .usn _ old _ => old ≤ new
  | _, _ => false

end ResumeToken

/-- `ResumeShared::publish`, on what the slot holds. -/
def publish (slot : Option ResumeToken) (token : ResumeToken) : Option ResumeToken :=
  match slot with
  | some current =>
    if current.same_scope token && !token.reaches current then slot else some token
  | none => some token

/-! ### Messages -/

/-- A batch with its permit, which is known by its number. -/
structure BatchPayload (E : Type) where
  permit : Nat
  events : List E
  resume : Option ResumeToken
  deriving DecidableEq

/-- The generation an overflow was elected at.  `turn` is that generation without
    the wrap of the machine's counter; no step reads it. -/
structure OverflowAck where
  elected : Nat
  turn : Nat
  deriving DecidableEq

inductive SourceMessage (E X : Type) where
  | batch (payload : BatchPayload E)
  | overflow (ack : OverflowAck)
  | fatal (err : X)
  deriving DecidableEq

/-! ### States -/

/-- Where the producer is inside one of its calls. -/
inductive Producer (E X : Type) where
  | idle
  | acquire (events : List E) (lossy : Bool) (resume : Option ResumeToken)
  | send_batch (payload : BatchPayload E) (lossy : Bool)
  | supersede (lossy : Bool)
  | elect
  | send_overflow (ack : OverflowAck)
  | swap_fatal (err : X)
  | send_fatal (err : X)
  deriving DecidableEq

def Producer.is_idle {E X : Type} : Producer E X → Bool
  | .idle => true
  | _ => false

/-- Where the consumer is with the message it took. -/
inductive Consumer (E : Type) where
  | ready
  | ingest (payload : BatchPayload E)
  | drop_ack (ack : OverflowAck)
  | rescan (ack : OverflowAck)
  deriving DecidableEq

/-- What a call of the producer was asked: a batch, of which only whether it is empty
    counts here, or a loss. -/
inductive Request where
  | forward (empty lossy : Bool) (resume : Option ResumeToken)
  | signal_loss
  deriving DecidableEq

/-- What has happened, oldest first. -/
inductive Event where
  | called (request : Request)
  | sent_batch (permit : Nat) (resume : Option ResumeToken)
  | lost
  | sent_overflow (turn : Nat)
  | sent_fatal
  | acked (turn : Nat)
  | rescanned (turn : Nat)
  | ingested (permit : Nat) (published : Option ResumeToken)
  | released (permit : Nat)
  deriving DecidableEq

/-- The shared state and both sides; `turns`, `issued` and `log` only record what
    happened and are read by no step. -/
structure State (E X : Type) where
  queue : List (SourceMessage E X)
  in_flight : Nat
  overflow_gen : Nat
  fatal_sent : Bool
  published : Option ResumeToken
  producer : Producer E X
  consumer : Consumer E
  held : List (BatchPayload E)
  turns : Nat
  issued : Nat
  log : List Event
  deriving DecidableEq

def State.start (E X : Type) : State E X :=
  { queue := [], in_flight := 0, overflow_gen := 0, fatal_sent := false, published := none
    producer := .idle, consumer := .ready, held := [], turns := 0, issued := 0, log := [] }

/-! ### Steps -/

/-- What either side may do next. -/
inductive Action (E X : Type) where
  | forward (events : List E) (lossy : Bool) (resume : Option ResumeToken)
  | signal_loss
  | signal_fatal (err : X)
  | produce
  | take
  | consume
  | release (permit : Nat)
  deriving DecidableEq

variable {E X : Type} {w : Width}

def wrapping_add (w : Width) (a b : Nat) : Nat := (a + b) % w.limit

/-- A queued message takes at least eight bytes of the address space. -/
def Room (w : Width) (s : State E X) : Prop := 8 * (s.queue.length + 1) ≤ w.limit

instance (w : Width) (s : State E X) : Decidable (Room w s) :=
  inferInstanceAs (Decidable (_ ≤ _))

/-- The producer's next atomic operation inside its call. -/
def produce (budget : Fin w.limit) (s : State E X) : Option (State E X) :=
  match s.producer with
  | .idle => none
  | .acquire events lossy resume =>
    if events.isEmpty then
      if lossy then some { s with producer := .elect, log := s.log ++ [.lost] }
      else some { s with producer := .idle }
    else if s.in_flight < budget.val then
      some
        { s with
          in_flight := s.in_flight + 1
          issued := s.issued + 1
          producer := .send_batch
            { permit := s.issued, events, resume := if lossy then none else resume } lossy }
    else
      some { s with producer := .elect, log := s.log ++ [.lost] }
  | .send_batch payload lossy =>
    if Room w s then
      some
        { s with
          queue := s.queue ++ [.batch payload]
          producer := .supersede lossy
          log := s.log ++ [.sent_batch payload.permit payload.resume] }
    else
      none
  | .supersede lossy =>
    -- the batch is the tail now: a pending overflow no longer covers what follows
    let pending := s.overflow_gen % 2 = 1
    let s :=
      { s with
        overflow_gen := if pending then wrapping_add w s.overflow_gen 1 else s.overflow_gen
        turns := if pending then s.turns + 1 else s.turns }
    if lossy then some { s with producer := .elect, log := s.log ++ [.lost] }
    else some { s with producer := .idle }
  | .elect =>
    if s.overflow_gen % 2 = 0 then
      some
        { s with
          overflow_gen := wrapping_add w s.overflow_gen 1
          turns := s.turns + 1
          producer := .send_overflow
            { elected := wrapping_add w s.overflow_gen 1, turn := s.turns + 1 } }
    else
      some { s with producer := .idle }
  | .send_overflow ack =>
    if Room w s then
      some
        { s with
          queue := s.queue ++ [.overflow ack]
          producer := .idle
          log := s.log ++ [.sent_overflow ack.turn] }
    else
      none
  | .swap_fatal err =>
    if s.fatal_sent then some { s with producer := .idle }
    else some { s with fatal_sent := true, producer := .send_fatal err }
  | .send_fatal err =>
    if Room w s then
      some
        { s with
          queue := s.queue ++ [.fatal err]
          producer := .idle
          log := s.log ++ [.sent_fatal] }
    else
      none

/-- The consumer's next atomic operation on the message it took. -/
def consume (w : Width) (s : State E X) : Option (State E X) :=
  match s.consumer with
  | .ready => none
  | .ingest payload =>
    let published := match payload.resume with
      | some token => publish s.published token
      | none => s.published
    some
      { s with
        published
        held := s.held ++ [payload]
        consumer := .ready
        log := s.log ++ [.ingested payload.permit published] }
  | .drop_ack ack =>
    let current := s.overflow_gen = ack.elected
    some
      { s with
        overflow_gen := if current then wrapping_add w ack.elected 1 else s.overflow_gen
        turns := if current then s.turns + 1 else s.turns
        consumer := .rescan ack
        log := s.log ++ [.acked ack.turn] }
  | .rescan ack =>
    some { s with consumer := .ready, log := s.log ++ [.rescanned ack.turn] }

/-- The consumer takes the message at the queue's front. -/
def take (s : State E X) : Option (State E X) :=
  match s.consumer, s.queue with
  | .ready, .batch payload :: queue => some { s with queue, consumer := .ingest payload }
  | .ready, .overflow ack :: queue => some { s with queue, consumer := .drop_ack ack }
  | .ready, .fatal _ :: queue => some { s with queue }
  | _, _ => none

def step (budget : Fin w.limit) (s : State E X) : Action E X → Option (State E X)
  | .forward events lossy resume =>
    if s.producer.is_idle then
      some
        { s with
          producer := .acquire events lossy resume
          log := s.log ++ [.called (.forward events.isEmpty lossy resume)] }
    else
      none
  | .signal_loss =>
    -- what a lossy batch without events comes to
    if s.producer.is_idle then
      some { s with producer := .acquire [] true none, log := s.log ++ [.called .signal_loss] }
    else
      none
  | .signal_fatal err =>
    if s.producer.is_idle then some { s with producer := .swap_fatal err } else none
  | .produce => produce budget s
  | .take => take s
  | .consume => consume w s
  | .release permit =>
    if s.held.any (·.permit = permit) then
      some
        { s with
          in_flight := (s.in_flight + (w.limit - 1)) % w.limit
          held := s.held.eraseP (·.permit = permit)
          log := s.log ++ [.released permit] }
    else
      none

/-- A run of steps. -/
def run (budget : Fin w.limit) (s : State E X) : List (Action E X) → Option (State E X)
  | [] => some s
  | a :: as => (step budget s a).bind fun s' => run budget s' as

/-! ### What a step can do -/

/-- The request a call on these arguments makes. -/
def Request.Asks (events : List E) (lossy : Bool) (resume : Option ResumeToken) :
    Request → Prop
  | .forward empty lossy' resume' => empty = events.isEmpty ∧ lossy' = lossy ∧ resume' = resume
  | .signal_loss => events = [] ∧ lossy = true

/-- The atomic operations, with what each reads and writes.  `called` covers the
    steps that only move the producer between places where nothing is at stake. -/
inductive Move (budget : Fin w.limit) (s : State E X) : State E X → Prop where
  | begin {events : List E} {lossy : Bool} {resume : Option ResumeToken} {request : Request}
      (hp : s.producer = .idle) (hq : request.Asks events lossy resume) :
      Move budget s
        { s with
          producer := .acquire events lossy resume
          log := s.log ++ [.called request] }
  | called {p : Producer E X}
      (hp : s.producer.is_idle ∨ ∃ err, s.producer = .swap_fatal err)
      (hp' : p.is_idle ∨ ∃ err, p = .swap_fatal err) :
      Move budget s { s with producer := p }
  | nothing {resume : Option ResumeToken} (hp : s.producer = .acquire [] false resume) :
      Move budget s { s with producer := .idle }
  | lose {events : List E} {lossy : Bool} {resume : Option ResumeToken}
      (hp : s.producer = .acquire events lossy resume) (hl : events ≠ [] ∨ lossy = true) :
      Move budget s { s with producer := .elect, log := s.log ++ [.lost] }
  | acquire {events : List E} {lossy : Bool} {resume : Option ResumeToken}
      (hp : s.producer = .acquire events lossy resume) (he : events ≠ [])
      (hb : s.in_flight < budget.val) :
      Move budget s
        { s with
          in_flight := s.in_flight + 1
          issued := s.issued + 1
          producer := .send_batch
            { permit := s.issued, events, resume := if lossy then none else resume } lossy }
  | send_batch {payload : BatchPayload E} {lossy : Bool}
      (hp : s.producer = .send_batch payload lossy) (hr : Room w s) :
      Move budget s
        { s with
          queue := s.queue ++ [.batch payload]
          producer := .supersede lossy
          log := s.log ++ [.sent_batch payload.permit payload.resume] }
  | supersede {lossy : Bool} {p : Producer E X} {events : List Event}
      (hp : s.producer = .supersede lossy)
      (hl : (p = .idle ∧ events = [] ∧ lossy = false) ∨
        (p = .elect ∧ events = [.lost] ∧ lossy = true)) :
      Move budget s
        { s with
          overflow_gen :=
            if s.overflow_gen % 2 = 1 then wrapping_add w s.overflow_gen 1 else s.overflow_gen
          turns := if s.overflow_gen % 2 = 1 then s.turns + 1 else s.turns
          producer := p
          log := s.log ++ events }
  | elect (hp : s.producer = .elect) (hg : s.overflow_gen % 2 = 0) :
      Move budget s
        { s with
          overflow_gen := wrapping_add w s.overflow_gen 1
          turns := s.turns + 1
          producer := .send_overflow
            { elected := wrapping_add w s.overflow_gen 1, turn := s.turns + 1 } }
  | ride (hp : s.producer = .elect) (hg : s.overflow_gen % 2 ≠ 0) :
      Move budget s { s with producer := .idle }
  | send_overflow {ack : OverflowAck} (hp : s.producer = .send_overflow ack) (hr : Room w s) :
      Move budget s
        { s with
          queue := s.queue ++ [.overflow ack]
          producer := .idle
          log := s.log ++ [.sent_overflow ack.turn] }
  | swap_fatal {err : X} (hp : s.producer = .swap_fatal err) (hf : s.fatal_sent = false) :
      Move budget s { s with fatal_sent := true, producer := .send_fatal err }
  | send_fatal {err : X} (hp : s.producer = .send_fatal err) (hr : Room w s) :
      Move budget s
        { s with
          queue := s.queue ++ [.fatal err]
          producer := .idle
          log := s.log ++ [.sent_fatal] }
  | take_batch {payload : BatchPayload E} {queue : List (SourceMessage E X)}
      (hc : s.consumer = .ready) (hq : s.queue = .batch payload :: queue) :
      Move budget s { s with queue, consumer := .ingest payload }
  | take_overflow {ack : OverflowAck} {queue : List (SourceMessage E X)}
      (hc : s.consumer = .ready) (hq : s.queue = .overflow ack :: queue) :
      Move budget s { s with queue, consumer := .drop_ack ack }
  | take_fatal {err : X} {queue : List (SourceMessage E X)}
      (hc : s.consumer = .ready) (hq : s.queue = .fatal err :: queue) :
      Move budget s { s with queue }
  | ingest {payload : BatchPayload E} {published : Option ResumeToken}
      (hc : s.consumer = .ingest payload)
      (hp : published = match payload.resume with
        | some token => publish s.published token
        | none => s.published) :
      Move budget s
        { s with
          published
          held := s.held ++ [payload]
          consumer := .ready
          log := s.log ++ [.ingested payload.permit published] }
  | drop_ack {ack : OverflowAck} (hc : s.consumer = .drop_ack ack) :
      Move budget s
        { s with
          overflow_gen :=
            if s.overflow_gen = ack.elected then wrapping_add w ack.elected 1 else s.overflow_gen
          turns := if s.overflow_gen = ack.elected then s.turns + 1 else s.turns
          consumer := .rescan ack
          log := s.log ++ [.acked ack.turn] }
  | rescan {ack : OverflowAck} (hc : s.consumer = .rescan ack) :
      Move budget s { s with consumer := .ready, log := s.log ++ [.rescanned ack.turn] }
  | release {permit : Nat} (hh : s.held.any (·.permit = permit)) :
      Move budget s
        { s with
          in_flight := (s.in_flight + (w.limit - 1)) % w.limit
          held := s.held.eraseP (·.permit = permit)
          log := s.log ++ [.released permit] }

theorem is_idle_iff {p : Producer E X} : p.is_idle = true ↔ p = .idle := by
  cases p <;> simp [Producer.is_idle]

theorem produce_move {budget : Fin w.limit} {s s' : State E X} (h : produce budget s = some s') :
    Move budget s s' := by
  unfold produce at h
  split at h
  · cases h
  · rename_i events lossy resume hp
    by_cases he : events = []
    · subst he
      simp only [List.isEmpty_nil, if_true] at h
      cases lossy with
      | true =>
        cases h
        exact .lose hp (.inr rfl)
      | false =>
        cases h
        exact .nothing hp
    · rw [if_neg (by simpa using he)] at h
      by_cases hb : s.in_flight < budget.val
      · rw [if_pos hb] at h
        cases h
        exact .acquire hp he hb
      · rw [if_neg hb] at h
        cases h
        exact .lose hp (.inl he)
  · rename_i hp
    split_ifs at h with hr
    · cases h
      exact .send_batch hp hr
  · rename_i lossy hp
    cases lossy with
    | true =>
      cases h
      exact .supersede hp (.inr ⟨rfl, rfl, rfl⟩)
    | false =>
      have hm : Move budget s _ := .supersede hp (.inl ⟨rfl, rfl, rfl⟩)
      rw [List.append_nil] at hm
      cases h
      exact hm
  · rename_i hp
    split_ifs at h with hg
    · cases h
      exact .elect hp hg
    · cases h
      exact .ride hp hg
  · rename_i hp
    split_ifs at h with hr
    · cases h
      exact .send_overflow hp hr
  · rename_i hp
    split_ifs at h with hf
    · cases h
      exact .called (.inr ⟨_, hp⟩) (.inl rfl)
    · cases h
      exact .swap_fatal hp (by simpa using hf)
  · rename_i hp
    split_ifs at h with hr
    · cases h
      exact .send_fatal hp hr

theorem consume_move {budget : Fin w.limit} {s s' : State E X} (h : consume w s = some s') :
    Move budget s s' := by
  unfold consume at h
  split at h
  · cases h
  · rename_i hc
    cases h
    exact .ingest hc rfl
  · rename_i hc
    cases h
    exact .drop_ack hc
  · rename_i hc
    cases h
    exact .rescan hc

theorem take_move {budget : Fin w.limit} {s s' : State E X} (h : take s = some s') :
    Move budget s s' := by
  unfold take at h
  split at h
  · rename_i hc hq
    cases h
    exact .take_batch hc hq
  · rename_i hc hq
    cases h
    exact .take_overflow hc hq
  · rename_i hc hq
    cases h
    exact .take_fatal hc hq
  · cases h

/-- Every step is one of the atomic operations. -/
theorem step_move {budget : Fin w.limit} {s s' : State E X} {a : Action E X}
    (h : step budget s a = some s') : Move budget s s' := by
  cases a with
  | forward events lossy resume =>
    simp only [step] at h
    split_ifs at h with hi
    cases h
    exact .begin (is_idle_iff.mp hi) ⟨rfl, rfl, rfl⟩
  | signal_loss =>
    simp only [step] at h
    split_ifs at h with hi
    cases h
    exact .begin (is_idle_iff.mp hi) ⟨rfl, rfl⟩
  | signal_fatal err =>
    simp only [step] at h
    split_ifs at h with hi
    cases h
    exact .called (.inl hi) (.inr ⟨_, rfl⟩)
  | produce => exact produce_move h
  | take => exact take_move h
  | consume => exact consume_move h
  | release permit =>
    simp only [step] at h
    split_ifs at h with hh
    cases h
    exact .release hh

end Transport
