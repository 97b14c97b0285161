import Tributaries.Os.Transport

/-! # The overflow generation

  What the generation counter says of the messages in the queue: its low
  bit is set exactly while an overflow waits behind every batch sent, and
  an acknowledgement moves it only for the overflow it was elected with.
-/

namespace Transport

open Machine

variable {E X : Type} {w : Width} {budget : Fin w.limit} {s s' : State E X}

/-! ### Messages not yet handled -/

def acks (ms : List (SourceMessage E X)) : List OverflowAck :=
  ms.filterMap fun
    | .overflow ack => some ack
    | _ => none

def batches (ms : List (SourceMessage E X)) : List (BatchPayload E) :=
  ms.filterMap fun
    | .batch payload => some payload
    | _ => none

/-- The message in the consumer's hand, while its batch is not ingested or its
    ack not dropped. -/
def in_hand : Consumer E → List (SourceMessage E X)
  | .ingest payload => [.batch payload]
  | .drop_ack ack => [.overflow ack]
  | _ => []

/-- The messages sent and not yet handled, oldest first. -/
def outstanding (s : State E X) : List (SourceMessage E X) := in_hand s.consumer ++ s.queue

@[simp] theorem acks_append (ms ms' : List (SourceMessage E X)) :
    acks (ms ++ ms') = acks ms ++ acks ms' := List.filterMap_append

@[simp] theorem batches_append (ms ms' : List (SourceMessage E X)) :
    batches (ms ++ ms') = batches ms ++ batches ms' := List.filterMap_append

theorem length_batches_le (ms : List (SourceMessage E X)) : (batches ms).length ≤ ms.length :=
  List.length_filterMap_le _ _

/-! ### The generation and the overflows -/

/-- What the generation says of one overflow with messages `ms` behind it: it has
    moved on at most twice for each batch behind, and has moved on once a batch
    behind it is superseding. -/
structure Rung (w : Width) (turns slack : Nat) (ack : OverflowAck)
    (ms : List (SourceMessage E X)) : Prop where
  odd : ack.turn % 2 = 1
  elected : ack.elected = ack.turn % w.limit
  le : ack.turn ≤ turns
  bound : turns + slack ≤ ack.turn + 2 * (batches ms).length
  passed : batches ms = [] ∨ slack ≠ 0 ∨ ack.turn < turns
  above : ∀ b ∈ acks ms, ack.turn < b.turn

def Ladder (w : Width) (turns slack : Nat) : List (SourceMessage E X) → Prop
  | [] => True
  | .overflow ack :: ms => Rung w turns slack ack ms ∧ Ladder w turns slack ms
  | _ :: ms => Ladder w turns slack ms

/-- A sent batch that has not superseded yet gives the generation room for two moves. -/
def slack : Producer E X → Nat
  | .supersede _ => 2
  | _ => 0

section Ladder

variable {turns : Nat} {ms : List (SourceMessage E X)}

theorem Ladder.tail {n : Nat} {m : SourceMessage E X} (h : Ladder w turns n (m :: ms)) :
    Ladder w turns n ms := by
  cases m with
  | overflow => exact h.2
  | batch => exact h
  | fatal => exact h

theorem Ladder.turn_le {n : Nat} (h : Ladder w turns n ms) {a : OverflowAck} (ha : a ∈ acks ms) :
    a.turn % 2 = 1 ∧ a.turn ≤ turns := by
  induction ms with
  | nil => cases ha
  | cons m ms ih =>
    cases m with
    | overflow ack =>
      rcases List.mem_cons.mp ha with rfl | ha
      · exact ⟨h.1.odd, h.1.le⟩
      · exact ih h.2 ha
    | batch => exact ih h ha
    | fatal => exact ih h ha

/-- A batch behind the ladder gives every overflow room for two more moves. -/
theorem Ladder.snoc_batch (h : Ladder w turns 0 ms) (b : BatchPayload E) :
    Ladder w turns 2 (ms ++ [.batch b]) := by
  induction ms with
  | nil => exact trivial
  | cons m ms ih =>
    cases m with
    | overflow ack =>
      show Rung w turns 2 ack (ms ++ [.batch b]) ∧ _
      refine ⟨⟨h.1.odd, h.1.elected, h.1.le, ?_, .inr (.inl (by omega)), ?_⟩, ih h.2⟩
      · have hb := h.1.bound
        have hl : (batches (ms ++ [.batch b])).length = (batches ms).length + 1 := by
          rw [batches_append, List.length_append]
          rfl
        omega
      · intro a ha
        rw [acks_append, List.mem_append] at ha
        rcases ha with ha | ha
        · exact h.1.above a ha
        · cases ha
    | batch => exact ih h
    | fatal => exact ih h

theorem Ladder.snoc_fatal {n : Nat} (h : Ladder w turns n ms) (err : X) :
    Ladder w turns n (ms ++ [.fatal err]) := by
  induction ms with
  | nil => exact trivial
  | cons m ms ih =>
    cases m with
    | overflow ack =>
      have hb : batches (ms ++ [.fatal err]) = batches ms := by
        rw [batches_append]
        exact List.append_nil _
      have ha : acks (ms ++ [.fatal err]) = acks ms := by
        rw [acks_append]
        exact List.append_nil _
      have hr := h.1
      exact ⟨⟨hr.odd, hr.elected, hr.le, hb ▸ hr.bound, hb ▸ hr.passed, ha ▸ hr.above⟩, ih h.2⟩
    | batch => exact ih h
    | fatal => exact ih h

/-- The overflow elected last goes behind all others. -/
theorem Ladder.snoc_overflow (h : Ladder w turns 0 ms) {ack : OverflowAck} (ht : ack.turn = turns)
    (ho : turns % 2 = 1) (he : ack.elected = turns % w.limit)
    (ha : ∀ a ∈ acks ms, a.turn < turns) : Ladder w turns 0 (ms ++ [.overflow ack]) := by
  induction ms with
  | nil =>
    refine ⟨⟨by omega, by rw [he, ht], by omega, by omega, .inl rfl, ?_⟩, trivial⟩
    intro a hm
    cases hm
  | cons m ms ih =>
    cases m with
    | overflow a =>
      have hb : batches (ms ++ [.overflow ack]) = batches ms := by
        rw [batches_append]
        exact List.append_nil _
      have hr := h.1
      show Rung w turns 0 a (ms ++ [.overflow ack]) ∧ _
      refine ⟨⟨hr.odd, hr.elected, hr.le, hb ▸ hr.bound, hb ▸ hr.passed, ?_⟩,
        ih h.2 (fun x hx => ha x (List.mem_cons_of_mem _ hx))⟩
      intro x hx
      rw [acks_append, List.mem_append] at hx
      rcases hx with hx | hx
      · exact hr.above x hx
      · rcases List.mem_cons.mp hx with rfl | hx
        · have hlt := ha a (List.mem_cons_self ..)
          omega
        · cases hx
    | batch => exact ih h ha
    | fatal => exact ih h ha

/-- Superseding moves an odd generation on, past every overflow. -/
theorem Ladder.supersede (h : Ladder w turns 2 ms) :
    Ladder w (if turns % 2 = 1 then turns + 1 else turns) 0 ms := by
  induction ms with
  | nil => exact trivial
  | cons m ms ih =>
    cases m with
    | overflow ack =>
      have hr := h.1
      have ho := hr.odd
      have hl := hr.le
      have hb := hr.bound
      refine ⟨⟨ho, hr.elected, ?_, ?_, .inr (.inr ?_), hr.above⟩, ih h.2⟩
      · split_ifs <;> omega
      · split_ifs <;> omega
      · split_ifs <;> omega
    | batch => exact ih h
    | fatal => exact ih h

/-- An election at an even generation leaves the overflows below it. -/
theorem Ladder.elect (h : Ladder w turns 0 ms) (he : turns % 2 = 0) :
    Ladder w (turns + 1) 0 ms := by
  induction ms with
  | nil => exact trivial
  | cons m ms ih =>
    cases m with
    | overflow ack =>
      have hr := h.1
      have ho := hr.odd
      have hl := hr.le
      have hb := hr.bound
      exact ⟨⟨ho, hr.elected, by omega, by omega, .inr (.inr (by omega)), hr.above⟩, ih h.2⟩
    | batch => exact ih h
    | fatal => exact ih h

/-- Without overflows there is nothing to say. -/
theorem Ladder.of_no_acks {n : Nat} (h : acks ms = []) : Ladder w turns n ms := by
  induction ms with
  | nil => exact trivial
  | cons m ms ih =>
    cases m with
    | overflow ack => cases h
    | batch => exact ih h
    | fatal => exact ih h

end Ladder

/-! ### The counters of a run -/

/-- The generation, the queue and the calls under way agree. -/
structure Counted (s : State E X) : Prop where
  room : 8 * s.queue.length ≤ w.limit
  gen : s.overflow_gen = s.turns % w.limit
  ladder : Ladder w s.turns (slack s.producer) (outstanding s)
  pending : s.turns % 2 = 1 →
    (∃ ack, s.producer = .send_overflow ack) ∨ ∃ a ∈ acks (outstanding s), a.turn = s.turns
  elected : ∀ ack, s.producer = .send_overflow ack →
    ack.turn = s.turns ∧ s.turns % 2 = 1 ∧ ack.elected = s.turns % w.limit ∧
      ∀ a ∈ acks (outstanding s), a.turn < s.turns

theorem limit_even (w : Width) : w.limit % 2 = 0 := by
  cases w <;> decide

theorem limit_large (w : Width) : 16 ≤ w.limit := by
  cases w <;> decide

theorem wrapping_succ (w : Width) (n : Nat) :
    wrapping_add w (n % w.limit) 1 = (n + 1) % w.limit := by
  unfold wrapping_add
  rw [Nat.mod_add_mod]

/-- The low bit survives the wrap. -/
theorem mod_limit_parity (w : Width) (n : Nat) : n % w.limit % 2 = n % 2 :=
  Nat.mod_mod_of_dvd n (Nat.dvd_of_mod_eq_zero (limit_even w))

/-- Two counts less than a wrap apart are told apart by the machine. -/
theorem mod_limit_inj {a b : Nat} (hle : a ≤ b) (hlt : b < a + w.limit)
    (h : b % w.limit = a % w.limit) : b = a := by
  have hz : (b - a) % w.limit = 0 := Nat.sub_mod_eq_zero_of_mod_eq h
  rw [Nat.mod_eq_of_lt (by omega)] at hz
  omega

theorem outstanding_ready (hc : s.consumer = .ready) : outstanding s = s.queue := by
  unfold outstanding
  rw [hc]
  rfl

theorem Counted.start : Counted (w := w) (State.start E X) where
  room := Nat.zero_le _
  gen := (Nat.zero_mod _).symm
  ladder := trivial
  pending := fun h => by cases h
  elected := fun _ h => by cases h

namespace Counted

/-- A call that sends nothing and turns nothing keeps the counters. -/
theorem at_producer (h : Counted (w := w) s) {p : Producer E X} {log : List Event}
    {fatal_sent : Bool} {in_flight issued : Nat}
    (hs : slack s.producer = 0) (hn : ∀ ack, s.producer ≠ .send_overflow ack)
    (hs' : slack p = 0) (hn' : ∀ ack, p ≠ .send_overflow ack) :
    Counted (w := w) { s with producer := p, log, fatal_sent, in_flight, issued } where
  room := h.room
  gen := h.gen
  ladder := by
    have hl := h.ladder
    rw [hs] at hl
    show Ladder w s.turns (slack p) (outstanding s)
    rw [hs']
    exact hl
  pending := fun ho => by
    rcases h.pending ho with ⟨ack, ha⟩ | ha
    · exact absurd ha (hn ack)
    · exact .inr ha
  elected := fun ack ha => absurd ha (hn' ack)

theorem send_batch (h : Counted (w := w) s) {payload : BatchPayload E} {lossy : Bool}
    {log : List Event} (hp : s.producer = .send_batch payload lossy) (hr : Room w s) :
    Counted (w := w)
      { s with queue := s.queue ++ [.batch payload], producer := .supersede lossy, log } where
  room := by
    have hr : 8 * (s.queue.length + 1) ≤ w.limit := hr
    show 8 * (s.queue ++ [_]).length ≤ w.limit
    rw [List.length_append]
    exact hr
  gen := h.gen
  ladder := by
    have hl := h.ladder
    rw [hp] at hl
    have hb := Ladder.snoc_batch hl payload
    unfold outstanding at hb
    rw [List.append_assoc] at hb
    exact hb
  pending := fun ho => by
    rcases h.pending ho with ⟨ack, ha⟩ | ⟨a, ha, ht⟩
    · rw [hp] at ha
      cases ha
    · refine .inr ⟨a, ?_, ht⟩
      unfold outstanding at ha ⊢
      rw [← List.append_assoc, acks_append]
      exact List.mem_append_left _ ha
  elected := fun _ ha => by cases ha

theorem supersede (h : Counted (w := w) s) {lossy : Bool} {p : Producer E X} {log : List Event}
    (hp : s.producer = .supersede lossy) (hl : p = .idle ∨ p = .elect) :
    Counted (w := w)
      { s with
        overflow_gen :=
          if s.overflow_gen % 2 = 1 then wrapping_add w s.overflow_gen 1 else s.overflow_gen
        turns := if s.overflow_gen % 2 = 1 then s.turns + 1 else s.turns
        producer := p
        log } where
  room := h.room
  gen := by
    show (if _ then _ else _) = (if _ then _ else _) % w.limit
    by_cases ho : s.overflow_gen % 2 = 1
    · rw [if_pos ho, if_pos ho, h.gen, wrapping_succ]
    · rw [if_neg ho, if_neg ho, h.gen]
  ladder := by
    have hd := h.ladder
    rw [hp] at hd
    have hd' := Ladder.supersede hd
    rw [← mod_limit_parity w s.turns, ← h.gen] at hd'
    have hz : slack p = 0 := by
      rcases hl with rfl | rfl <;> rfl
    show Ladder w _ (slack p) (outstanding s)
    rw [hz]
    exact hd'
  pending := fun ho => by
    -- the count is even once the batch has superseded
    have ho : (if s.overflow_gen % 2 = 1 then s.turns + 1 else s.turns) % 2 = 1 := ho
    rw [h.gen, mod_limit_parity] at ho
    split_ifs at ho <;> omega
  elected := fun ack ha => by
    have ha : p = .send_overflow ack := ha
    rcases hl with rfl | rfl <;> cases ha

theorem elect (h : Counted (w := w) s) {log : List Event} (hp : s.producer = .elect)
    (hg : s.overflow_gen % 2 = 0) :
    Counted (w := w)
      { s with
        overflow_gen := wrapping_add w s.overflow_gen 1
        turns := s.turns + 1
        producer := .send_overflow
          { elected := wrapping_add w s.overflow_gen 1, turn := s.turns + 1 }
        log } where
  room := h.room
  gen := by
    show wrapping_add w s.overflow_gen 1 = (s.turns + 1) % w.limit
    rw [h.gen, wrapping_succ]
  ladder := by
    have hl := h.ladder
    rw [hp] at hl
    rw [h.gen, mod_limit_parity] at hg
    exact Ladder.elect hl hg
  pending := fun _ => .inl ⟨_, rfl⟩
  elected := fun ack ha => by
    have ha : Producer.send_overflow _ = Producer.send_overflow ack := ha
    cases ha
    rw [h.gen, mod_limit_parity] at hg
    refine ⟨rfl, ?_, ?_, ?_⟩
    · show (s.turns + 1) % 2 = 1
      omega
    · show wrapping_add w s.overflow_gen 1 = (s.turns + 1) % w.limit
      rw [h.gen, wrapping_succ]
    · intro a ha
      have hle := (Ladder.turn_le h.ladder ha).2
      show a.turn < s.turns + 1
      omega

theorem send_overflow (h : Counted (w := w) s) {ack : OverflowAck} {log : List Event}
    (hp : s.producer = .send_overflow ack) (hr : Room w s) :
    Counted (w := w)
      { s with queue := s.queue ++ [.overflow ack], producer := .idle, log } := by
  obtain ⟨ht, ho, he, ha⟩ := h.elected ack hp
  have hl := h.ladder
  rw [hp] at hl
  have hd := Ladder.snoc_overflow hl ht ho he ha
  unfold outstanding at hd
  rw [List.append_assoc] at hd
  refine ⟨?_, h.gen, hd, ?_, ?_⟩
  · have hr : 8 * (s.queue.length + 1) ≤ w.limit := hr
    show 8 * (s.queue ++ [_]).length ≤ w.limit
    rw [List.length_append]
    exact hr
  · intro _
    refine .inr ⟨ack, ?_, ht⟩
    unfold outstanding
    rw [← List.append_assoc, acks_append]
    exact List.mem_append_right _ (List.mem_cons_self ..)
  · intro _ hn
    cases hn

theorem send_fatal (h : Counted (w := w) s) {err : X} {log : List Event}
    (hp : s.producer = .send_fatal err) (hr : Room w s) :
    Counted (w := w)
      { s with queue := s.queue ++ [.fatal err], producer := .idle, log } where
  room := by
    have hr : 8 * (s.queue.length + 1) ≤ w.limit := hr
    show 8 * (s.queue ++ [_]).length ≤ w.limit
    rw [List.length_append]
    exact hr
  gen := h.gen
  ladder := by
    have hl := h.ladder
    rw [hp] at hl
    have hd := Ladder.snoc_fatal hl err
    unfold outstanding at hd
    rw [List.append_assoc] at hd
    exact hd
  pending := fun ho => by
    rcases h.pending ho with ⟨ack, ha⟩ | ⟨a, ha, ht⟩
    · rw [hp] at ha
      cases ha
    · refine .inr ⟨a, ?_, ht⟩
      unfold outstanding at ha ⊢
      rw [← List.append_assoc, acks_append]
      exact List.mem_append_left _ ha
  elected := fun _ ha => by cases ha

/-- Taking a message into the hand changes nothing that is counted. -/
theorem take (h : Counted (w := w) s) {m : SourceMessage E X} {queue : List (SourceMessage E X)}
    {c : Consumer E} (hc : s.consumer = .ready) (hq : s.queue = m :: queue)
    (hm : in_hand c ++ queue = m :: queue) : Counted (w := w) { s with queue, consumer := c } := by
  have ho : outstanding { s with queue, consumer := c } = outstanding s := by
    rw [outstanding_ready hc, hq]
    exact hm
  refine ⟨?_, h.gen, ?_, ?_, ?_⟩
  · have hr := h.room
    rw [hq, List.length_cons] at hr
    show 8 * queue.length ≤ w.limit
    omega
  · rw [ho]
    exact h.ladder
  · rw [ho]
    exact h.pending
  · rw [ho]
    exact h.elected

/-- A message without an ack leaves the ladder as it was. -/
theorem drop_message (h : Counted (w := w) s) {m : SourceMessage E X}
    {ms queue : List (SourceMessage E X)} {c : Consumer E} {held : List (BatchPayload E)}
    {published : Option ResumeToken} {log : List Event} (ho : outstanding s = m :: ms)
    (ha : acks (m :: ms) = acks ms) (hm : in_hand c ++ queue = ms)
    (hl : queue.length ≤ s.queue.length) :
    Counted (w := w) { s with queue, consumer := c, held, published, log } := by
  have ho' : outstanding { s with queue, consumer := c, held, published, log } = ms := hm
  have hacks : acks (outstanding s) = acks ms := by rw [ho, ha]
  refine ⟨?_, h.gen, ?_, ?_, ?_⟩
  · have hr := h.room
    show 8 * queue.length ≤ w.limit
    omega
  · have hd := h.ladder
    rw [ho] at hd
    rw [ho']
    exact Ladder.tail hd
  · rw [ho', ← hacks]
    exact h.pending
  · rw [ho', ← hacks]
    exact h.elected

/-- An overflow with no batch sent behind it was elected last. -/
theorem last_elected (h : Counted (w := w) s) {l : List (SourceMessage E X)} {a : OverflowAck}
    {ms : List (SourceMessage E X)} (ho : outstanding s = l ++ .overflow a :: ms) :
    Rung w s.turns (slack s.producer) a ms := by
  have hd := h.ladder
  rw [ho] at hd
  clear ho
  induction l with
  | nil => exact hd.1
  | cons m l ih => exact ih (Ladder.tail hd)

/-- The ack in the consumer's hand moves the generation only while it is the latest. -/
theorem drop_hits (h : Counted (w := w) s) {ack : OverflowAck} (hc : s.consumer = .drop_ack ack) :
    s.overflow_gen = ack.elected ↔ s.turns = ack.turn := by
  have ho : outstanding s = [] ++ .overflow ack :: s.queue := by
    unfold outstanding
    rw [hc]
    rfl
  have hr := last_elected h ho
  have hb := hr.bound
  have hle := length_batches_le s.queue
  have hroom := h.room
  have hlarge := limit_large w
  rw [h.gen, hr.elected]
  constructor
  · intro he
    exact mod_limit_inj hr.le (by omega) he
  · intro he
    rw [he]

theorem drop_ack (h : Counted (w := w) s) {ack : OverflowAck} {log : List Event}
    (hc : s.consumer = .drop_ack ack) :
    Counted (w := w)
      { s with
        overflow_gen :=
          if s.overflow_gen = ack.elected then wrapping_add w ack.elected 1 else s.overflow_gen
        turns := if s.overflow_gen = ack.elected then s.turns + 1 else s.turns
        consumer := .rescan ack
        log } := by
  have ho : outstanding s = [] ++ .overflow ack :: s.queue := by
    unfold outstanding
    rw [hc]
    rfl
  have hr := last_elected h ho
  have hd := h.ladder
  rw [ho] at hd
  by_cases hg : s.overflow_gen = ack.elected
  · have ht := (drop_hits h hc).mp hg
    -- nothing elected later is left, so no other ack is outstanding
    have hnone : acks s.queue = [] := by
      apply List.eq_nil_iff_forall_not_mem.mpr
      intro a ha
      have hlt := hr.above a ha
      have hle := (Ladder.turn_le hd.2 ha).2
      omega
    have hp : ∀ x, s.producer ≠ .send_overflow x := by
      intro x hx
      have hlt := (h.elected x hx).2.2.2 ack (by
        rw [ho]
        exact List.mem_cons_self ..)
      omega
    simp only [if_pos hg]
    refine ⟨h.room, ?_, Ladder.of_no_acks hnone, ?_, fun x hx => absurd hx (hp x)⟩
    · show wrapping_add w ack.elected 1 = (s.turns + 1) % w.limit
      rw [hr.elected, wrapping_succ, ht]
    · intro hodd
      have hodd : (s.turns + 1) % 2 = 1 := hodd
      have hack := hr.odd
      omega
  · have ht : s.turns ≠ ack.turn := fun ht => hg ((drop_hits h hc).mpr ht)
    simp only [if_neg hg]
    refine ⟨h.room, h.gen, hd.2, ?_, ?_⟩
    · intro hodd
      rcases h.pending hodd with hp | ⟨a, ha, hat⟩
      · exact .inl hp
      · rw [ho] at ha
        rcases List.mem_cons.mp ha with rfl | ha
        · exact absurd hat.symm ht
        · exact .inr ⟨a, ha, hat⟩
    · intro x hx
      obtain ⟨h₁, h₂, h₃, h₄⟩ := h.elected x hx
      refine ⟨h₁, h₂, h₃, ?_⟩
      intro a ha
      apply h₄ a
      rw [ho]
      exact List.mem_cons_of_mem _ ha

/-- What a consumer does with no message in hand. -/
theorem at_consumer (h : Counted (w := w) s) {c : Consumer E} {log : List Event}
    (hc : in_hand s.consumer = ([] : List (SourceMessage E X)))
    (hc' : in_hand c = ([] : List (SourceMessage E X))) :
    Counted (w := w) { s with consumer := c, log } := by
  have ho : outstanding { s with consumer := c, log } = outstanding s := by
    unfold outstanding
    rw [hc, hc']
  refine ⟨h.room, h.gen, ?_, ?_, ?_⟩
  · rw [ho]
    exact h.ladder
  · rw [ho]
    exact h.pending
  · rw [ho]
    exact h.elected

end Counted

theorem quiet_call {p : Producer E X}
    (h : p.is_idle ∨ (∃ e l r, p = .acquire e l r) ∨ ∃ err, p = .swap_fatal err) :
    slack p = 0 ∧ ∀ ack, p ≠ .send_overflow ack := by
  rcases h with h | ⟨_, _, _, rfl⟩ | ⟨_, rfl⟩
  · rw [is_idle_iff] at h
    rw [h]
    exact ⟨rfl, fun _ hn => by cases hn⟩
  · exact ⟨rfl, fun _ hn => by cases hn⟩
  · exact ⟨rfl, fun _ hn => by cases hn⟩

/-- Every atomic operation keeps the counters. -/
theorem Move.counted (hm : Move budget s s') (h : Counted (w := w) s) : Counted (w := w) s' := by
  cases hm with
  | begin hp hq =>
    obtain ⟨h₁, h₂⟩ := quiet_call (.inl (is_idle_iff.mpr hp))
    exact h.at_producer h₁ h₂ rfl (fun _ hn => by cases hn)
  | called hp hp' =>
    obtain ⟨h₁, h₂⟩ := quiet_call (hp.imp_right .inr)
    obtain ⟨h₃, h₄⟩ := quiet_call (hp'.imp_right .inr)
    exact h.at_producer h₁ h₂ h₃ h₄
  | nothing hp =>
    obtain ⟨h₁, h₂⟩ := quiet_call (.inr (.inl ⟨_, _, _, hp⟩))
    exact h.at_producer h₁ h₂ rfl (fun _ hn => by cases hn)
  | lose hp hl =>
    obtain ⟨h₁, h₂⟩ := quiet_call (.inr (.inl ⟨_, _, _, hp⟩))
    exact h.at_producer h₁ h₂ rfl (fun _ hn => by cases hn)
  | acquire hp he hb =>
    obtain ⟨h₁, h₂⟩ := quiet_call (.inr (.inl ⟨_, _, _, hp⟩))
    exact h.at_producer h₁ h₂ rfl (fun _ hn => by cases hn)
  | send_batch hp hr => exact h.send_batch hp hr
  | supersede hp hl => exact h.supersede hp (hl.imp And.left And.left)
  | elect hp hg => exact h.elect hp hg
  | ride hp hg =>
    apply h.at_producer _ _ rfl (fun _ hn => by cases hn)
    · rw [hp]
      rfl
    · intro _ hn
      rw [hp] at hn
      cases hn
  | send_overflow hp hr => exact h.send_overflow hp hr
  | swap_fatal hp hf =>
    obtain ⟨h₁, h₂⟩ := quiet_call (.inr (.inr ⟨_, hp⟩))
    exact h.at_producer h₁ h₂ rfl (fun _ hn => by cases hn)
  | send_fatal hp hr => exact h.send_fatal hp hr
  | take_batch hc hq => exact h.take hc hq rfl
  | take_overflow hc hq => exact h.take hc hq rfl
  | take_fatal hc hq =>
    rename_i err queue
    have ho : outstanding s = .fatal err :: queue := (outstanding_ready hc).trans hq
    refine h.drop_message ho rfl ?_ (by rw [hq]; exact Nat.le_succ _)
    rw [hc]
    rfl
  | ingest hc hp =>
    rename_i payload published
    have ho : outstanding s = .batch payload :: s.queue := by
      unfold outstanding
      rw [hc]
      rfl
    exact h.drop_message ho rfl rfl (Nat.le_refl _)
  | drop_ack hc => exact h.drop_ack hc
  | rescan hc =>
    apply h.at_consumer _ rfl
    rw [hc]
    rfl
  | release hh => exact ⟨h.room, h.gen, h.ladder, h.pending, h.elected⟩

end Transport
