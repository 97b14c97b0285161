import Tributaries.Os.Budget

/-! # What each call comes to

  A batch that is sent goes out under its own resume point, or under none if
  it is lossy; a batch that is not sent, and a lossy one, is a loss.  The
  log of a run holds the calls it made, each with what it came to.
-/

namespace Transport

open Machine

variable {E X : Type} {w : Width} {budget : Fin w.limit} {s s' : State E X}

/-- A call with what it has sent, by resume point, and whether it marked a loss. -/
structure Call where
  request : Request
  sent : List (Option ResumeToken)
  lost : Bool
  deriving DecidableEq

/-- One more event, read into the calls so far, newest first. -/
def note (calls : List Call) (e : Event) : List Call :=
  match e, calls with
  | .called request, calls => ⟨request, [], false⟩ :: calls
  | .sent_batch _ resume, c :: calls => { c with sent := c.sent ++ [resume] } :: calls
  | .lost, c :: calls => { c with lost := true } :: calls
  | _, calls => calls

/-- The calls of a log, newest first. -/
def calls (log : List Event) : List Call := log.foldl note []

@[simp] theorem calls_snoc (log : List Event) (e : Event) :
    calls (log ++ [e]) = note (calls log) e := List.foldl_concat ..

/-- The resume point a batch is sent under. -/
def carried (lossy : Bool) (resume : Option ResumeToken) : Option ResumeToken :=
  if lossy then none else resume

/-- A call that came to what it was asked for: what it did not send it lost, and what it
    was told is lossy it lost as well. -/
def Call.Fulfilled (c : Call) : Prop :=
  match c.request with
  | .signal_loss => c.sent = [] ∧ c.lost = true
  | .forward true lossy _ => c.sent = [] ∧ c.lost = lossy
  | .forward false lossy resume =>
    (c.sent = [] ∧ c.lost = true) ∨ (c.sent = [carried lossy resume] ∧ c.lost = lossy)

/-- How far the newest call is, by where the producer stands in it. -/
def Underway (c : Call) : Producer E X → Prop
  | .acquire events lossy resume =>
    c.request.Asks events lossy resume ∧ c.sent = [] ∧ c.lost = false
  | .send_batch payload lossy => ∃ resume, c.request = .forward false lossy resume ∧
      payload.resume = carried lossy resume ∧ c.sent = [] ∧ c.lost = false
  | .supersede lossy => ∃ resume, c.request = .forward false lossy resume ∧
      c.sent = [carried lossy resume] ∧ c.lost = false
  | _ => c.Fulfilled

/-- The producer is in none of the stages in which a call is still to send or to lose. -/
def Returned : Producer E X → Prop
  | .acquire .. | .send_batch .. | .supersede _ => False
  | _ => True

/-- Every call of the log came to what it was asked for, but for the newest. -/
structure Served (s : State E X) : Prop where
  newest : ∀ c cs, calls s.log = c :: cs → Underway c s.producer
  earlier : ∀ c cs, calls s.log = c :: cs → ∀ c' ∈ cs, c'.Fulfilled
  first : calls s.log = [] → Returned s.producer

namespace Served

theorem start : Served (State.start E X) where
  newest := nofun
  earlier := nofun
  first := fun _ => trivial

/-- What a returned producer's newest call came to. -/
theorem fulfilled (h : Served s) (hr : Returned s.producer) : ∀ c ∈ calls s.log, c.Fulfilled := by
  intro c hc
  cases hl : calls s.log with
  | nil =>
    rw [hl] at hc
    cases hc
  | cons c' cs =>
    rw [hl] at hc
    rcases List.mem_cons.mp hc with rfl | hc
    · have hu := h.newest c cs hl
      cases hp : s.producer with
      | acquire events lossy resume =>
        rw [hp] at hr
        cases hr
      | send_batch payload lossy =>
        rw [hp] at hr
        cases hr
      | supersede lossy =>
        rw [hp] at hr
        cases hr
      | _ =>
        rw [hp] at hu
        exact hu
    · exact h.earlier c' cs hl c hc

/-- Every call but the newest came to what it was asked. -/
theorem fulfilled_or_newest (h : Served s) {c : Call} (hc : c ∈ calls s.log) :
    c.Fulfilled ∨ ((calls s.log).head? = some c ∧ ¬ Returned s.producer) := by
  by_cases hr : Returned s.producer
  · exact .inl (h.fulfilled hr c hc)
  · cases hl : calls s.log with
    | nil =>
      rw [hl] at hc
      cases hc
    | cons d ds =>
      rw [hl] at hc
      rcases List.mem_cons.mp hc with rfl | hin
      · exact .inr ⟨rfl, hr⟩
      · exact .inl (h.earlier d ds hl c hin)

/-- A step that no call sees, between stages in which the newest call is done. -/
theorem frame (h : Served s) (hl : calls s'.log = calls s.log) (hr : Returned s.producer)
    (hr' : Returned s'.producer) : Served s' where
  newest := by
    intro c cs hc
    rw [hl] at hc
    have hf := h.fulfilled hr c (hc ▸ List.mem_cons_self)
    cases hp : s'.producer with
    | acquire events lossy resume =>
      rw [hp] at hr'
      cases hr'
    | send_batch payload lossy =>
      rw [hp] at hr'
      cases hr'
    | supersede lossy =>
      rw [hp] at hr'
      cases hr'
    | _ => exact hf
  earlier := by
    intro c cs hc
    rw [hl] at hc
    exact h.earlier c cs hc
  first := fun _ => hr'

/-- A step of the other side. -/
theorem aside (h : Served s) (hl : calls s'.log = calls s.log) (hp : s'.producer = s.producer) :
    Served s' where
  newest := by
    rw [hl, hp]
    exact h.newest
  earlier := by
    rw [hl]
    exact h.earlier
  first := by
    rw [hl, hp]
    exact h.first

/-- A step of the newest call, which the log holds. -/
theorem advance (h : Served s) (hr : ¬ Returned s.producer) {f : Call → Call}
    (hl : ∀ c cs, calls s.log = c :: cs → calls s'.log = f c :: cs)
    (hu : ∀ c, Underway c s.producer → Underway (f c) s'.producer) : Served s' := by
  cases hc : calls s.log with
  | nil => exact absurd (h.first hc) hr
  | cons c cs =>
    have hc' := hl c cs hc
    refine ⟨fun d ds hd => ?_, fun d ds hd => ?_, fun hn => ?_⟩
    · obtain ⟨rfl, -⟩ := List.cons.inj (hc'.symm.trans hd)
      exact hu c (h.newest c cs hc)
    · obtain ⟨-, rfl⟩ := List.cons.inj (hc'.symm.trans hd)
      exact h.earlier c cs hc
    · rw [hc'] at hn
      cases hn

end Served

theorem returned_of_quiet {p : Producer E X} (h : p.is_idle ∨ ∃ err, p = .swap_fatal err) :
    Returned p := by
  rcases h with h | ⟨_, rfl⟩
  · rw [is_idle_iff] at h
    rw [h]
    trivial
  · trivial

/-- Events that are no call, no batch and no loss leave the calls as they were. -/
theorem calls_aside {e : Event} (h : ∀ cs, note cs e = cs) (log : List Event) :
    calls (log ++ [e]) = calls log := by
  rw [calls_snoc, h]

/-- Every atomic operation brings the newest call on, and leaves the others. -/
theorem Move.served (hm : Move budget s s') (h : Served s) : Served s' := by
  cases hm with
  | begin hp hq =>
    have hf := h.fulfilled (by rw [hp]; trivial)
    refine ⟨fun c cs hc => ?_, fun c cs hc => ?_, fun hn => ?_⟩
    · rw [calls_snoc] at hc
      obtain ⟨rfl, -⟩ := List.cons.inj hc
      exact ⟨hq, rfl, rfl⟩
    · rw [calls_snoc] at hc
      obtain ⟨-, rfl⟩ := List.cons.inj hc
      exact hf
    · rw [calls_snoc] at hn
      cases hn
  | called hp hp' => exact h.frame rfl (returned_of_quiet hp) (returned_of_quiet hp')
  | nothing hp =>
    refine h.advance (f := id) (by rw [hp]; exact id) (fun c cs hc => hc) fun c hu => ?_
    rw [hp] at hu
    obtain ⟨hq, hs, hl⟩ := hu
    show c.Fulfilled
    unfold Call.Fulfilled
    cases hreq : c.request with
    | signal_loss =>
      rw [hreq] at hq
      cases hq.2
    | forward empty lossy resume =>
      rw [hreq] at hq
      obtain ⟨rfl, rfl, rfl⟩ := hq
      exact ⟨hs, hl⟩
  | lose hp hlossy =>
    refine h.advance (f := fun c => { c with lost := true }) (by rw [hp]; exact id)
      (fun c cs hc => by rw [calls_snoc, hc]; rfl) fun c hu => ?_
    rw [hp] at hu
    obtain ⟨hq, hs, -⟩ := hu
    show Call.Fulfilled { c with lost := true }
    unfold Call.Fulfilled
    cases hreq : c.request with
    | signal_loss => exact ⟨hs, rfl⟩
    | forward empty lossy resume =>
      rw [hreq] at hq
      obtain ⟨rfl, rfl, rfl⟩ := hq
      cases hempty : List.isEmpty _ with
      | true =>
        rcases hlossy with he | rfl
        · exact absurd (List.isEmpty_iff.mp hempty) he
        · exact ⟨hs, rfl⟩
      | false => exact .inl ⟨hs, rfl⟩
  | acquire hp he hb =>
    refine h.advance (f := id) (by rw [hp]; exact id) (fun c cs hc => hc) fun c hu => ?_
    rw [hp] at hu
    obtain ⟨hq, hs, hl⟩ := hu
    cases hreq : c.request with
    | signal_loss =>
      rw [hreq] at hq
      exact absurd hq.1 he
    | forward empty lossy resume =>
      rw [hreq] at hq
      obtain ⟨rfl, rfl, rfl⟩ := hq
      refine ⟨_, ?_, rfl, hs, hl⟩
      show c.request = _
      rw [hreq, List.isEmpty_eq_false_iff.mpr he]
  | @send_batch payload lossy hp hr =>
    refine h.advance (f := fun c => { c with sent := c.sent ++ [payload.resume] })
      (by rw [hp]; exact id) (fun c cs hc => by rw [calls_snoc, hc]; rfl) fun c hu => ?_
    rw [hp] at hu
    obtain ⟨resume, hreq, hres, hs, hl⟩ := hu
    refine ⟨resume, hreq, ?_, hl⟩
    show c.sent ++ [payload.resume] = _
    rw [hs, hres]
    rfl
  | supersede hp hl =>
    rcases hl with ⟨rfl, rfl, rfl⟩ | ⟨rfl, rfl, rfl⟩
    · refine h.advance (f := id) (by rw [hp]; exact id)
        (fun c cs hc => by rw [List.append_nil]; exact hc) fun c hu => ?_
      rw [hp] at hu
      obtain ⟨resume, hreq, hs, hlost⟩ := hu
      show c.Fulfilled
      unfold Call.Fulfilled
      rw [hreq]
      exact .inr ⟨hs, hlost⟩
    · refine h.advance (f := fun c => { c with lost := true }) (by rw [hp]; exact id)
        (fun c cs hc => by rw [calls_snoc, hc]; rfl) fun c hu => ?_
      rw [hp] at hu
      obtain ⟨resume, hreq, hs, -⟩ := hu
      show Call.Fulfilled { c with lost := true }
      unfold Call.Fulfilled
      rw [show ({ c with lost := true } : Call).request = c.request from rfl, hreq]
      exact .inr ⟨hs, rfl⟩
  | elect hp hg => exact h.frame rfl (by rw [hp]; trivial) trivial
  | ride hp hg => exact h.frame rfl (by rw [hp]; trivial) trivial
  | send_overflow hp hr =>
    exact h.frame (calls_aside (fun cs => by cases cs <;> rfl) _) (by rw [hp]; trivial) trivial
  | swap_fatal hp hf => exact h.frame rfl (by rw [hp]; trivial) trivial
  | send_fatal hp hr =>
    exact h.frame (calls_aside (fun cs => by cases cs <;> rfl) _) (by rw [hp]; trivial) trivial
  | take_batch hc hq => exact h.aside rfl rfl
  | take_overflow hc hq => exact h.aside rfl rfl
  | take_fatal hc hq => exact h.aside rfl rfl
  | ingest hc hp => exact h.aside (calls_aside (fun cs => by cases cs <;> rfl) _) rfl
  | drop_ack hc => exact h.aside (calls_aside (fun cs => by cases cs <;> rfl) _) rfl
  | rescan hc => exact h.aside (calls_aside (fun cs => by cases cs <;> rfl) _) rfl
  | release hh => exact h.aside (calls_aside (fun cs => by cases cs <;> rfl) _) rfl

/-! ### Each batch is some call's -/

/-- Every batch the log holds was sent by one of its calls. -/
def Booked (log : List Event) : Prop :=
  ∀ permit resume, .sent_batch permit resume ∈ log → ∃ c ∈ calls log, resume ∈ c.sent

/-- No event takes back what a call has sent. -/
theorem note_sent {cs : List Call} {resume : Option ResumeToken} (e : Event)
    (h : ∃ c ∈ cs, resume ∈ c.sent) : ∃ c ∈ note cs e, resume ∈ c.sent := by
  obtain ⟨c, hc, hr⟩ := h
  cases cs with
  | nil => cases hc
  | cons d ds =>
    have behind : c ∈ ds → ∀ d' : Call, ∃ c ∈ d' :: ds, resume ∈ c.sent := by
      intro hin d'
      exact ⟨c, List.mem_cons_of_mem _ hin, hr⟩
    cases e with
    | called request => exact ⟨c, List.mem_cons_of_mem _ hc, hr⟩
    | sent_batch permit resume' =>
      rcases List.mem_cons.mp hc with rfl | hin
      · exact ⟨_, List.mem_cons_self, List.mem_append_left _ hr⟩
      · exact behind hin _
    | lost =>
      rcases List.mem_cons.mp hc with rfl | hin
      · exact ⟨_, List.mem_cons_self, hr⟩
      · exact behind hin _
    | _ => exact ⟨c, hc, hr⟩

theorem Booked.snoc {log : List Event} {e : Event} (h : Booked log)
    (he : ∀ permit resume, e = .sent_batch permit resume → calls log ≠ []) :
    Booked (log ++ [e]) := by
  intro permit resume hin
  rw [calls_snoc]
  rcases List.mem_append.mp hin with hin | hin
  · exact note_sent e (h permit resume hin)
  · obtain rfl := List.mem_singleton.mp hin
    cases hc : calls log with
    | nil => exact absurd hc (he permit resume rfl)
    | cons c cs =>
      exact ⟨_, List.mem_cons_self, List.mem_append_right _ (List.mem_singleton.mpr rfl)⟩

theorem Move.booked (hm : Move budget s s') (hs : Served s) (h : Booked s.log) :
    Booked s'.log := by
  cases hm with
  | send_batch hp hr =>
    apply h.snoc
    intro _ _ _ hc
    have hret := hs.first hc
    rw [hp] at hret
    exact hret
  | supersede hp hl =>
    rcases hl with ⟨-, rfl, -⟩ | ⟨-, rfl, -⟩
    · exact (List.append_nil s.log).symm ▸ h
    · exact h.snoc nofun
  | begin hp hq => exact h.snoc nofun
  | lose hp hl => exact h.snoc nofun
  | send_overflow hp hr => exact h.snoc nofun
  | send_fatal hp hr => exact h.snoc nofun
  | ingest hc hp => exact h.snoc nofun
  | drop_ack hc => exact h.snoc nofun
  | rescan hc => exact h.snoc nofun
  | release hh => exact h.snoc nofun
  | _ => exact h

/-- A batch sent with a resume point was forwarded with it, and was not lossy. -/
theorem Served.resumed (h : Served s) {c : Call} {token : ResumeToken} (hc : c ∈ calls s.log)
    (ht : some token ∈ c.sent) : c.request = .forward false false (some token) := by
  have fulfilled : c.Fulfilled → c.request = .forward false false (some token) := by
    intro hf
    unfold Call.Fulfilled at hf
    cases hreq : c.request with
    | signal_loss =>
      rw [hreq] at hf
      rw [hf.1] at ht
      cases ht
    | forward empty lossy resume =>
      rw [hreq] at hf
      cases empty with
      | true =>
        rw [hf.1] at ht
        cases ht
      | false =>
        rcases hf with ⟨hsent, -⟩ | ⟨hsent, -⟩
        · rw [hsent] at ht
          cases ht
        · rw [hsent] at ht
          have hcar := List.mem_singleton.mp ht
          cases lossy with
          | true => cases hcar
          | false =>
            obtain rfl : some token = resume := hcar
            rfl
  cases hl : calls s.log with
  | nil =>
    rw [hl] at hc
    cases hc
  | cons d ds =>
    rw [hl] at hc
    rcases List.mem_cons.mp hc with rfl | hin
    · have hu := h.newest c ds hl
      cases hp : s.producer with
      | acquire events lossy resume =>
        rw [hp] at hu
        rw [hu.2.1] at ht
        cases ht
      | send_batch payload lossy =>
        rw [hp] at hu
        obtain ⟨resume, -, -, hsent, -⟩ := hu
        rw [hsent] at ht
        cases ht
      | supersede lossy =>
        rw [hp] at hu
        obtain ⟨resume, hreq, hsent, -⟩ := hu
        rw [hsent] at ht
        have hcar := List.mem_singleton.mp ht
        cases lossy with
        | true => cases hcar
        | false =>
          obtain rfl : some token = resume := hcar
          exact hreq
      | _ =>
        rw [hp] at hu
        exact fulfilled hu
    · exact fulfilled (h.earlier d ds hl c hin)

/-! ### The calls of a run -/

/-- What an action asks of the producer. -/
def Action.request : Action E X → Option Request
  | .forward events lossy resume => some (.forward events.isEmpty lossy resume)
  | .signal_loss => some .signal_loss
  | _ => none

/-- What the calls of a log were asked, oldest first. -/
def requests (log : List Event) : List Request := (calls log).reverse.map Call.request

/-- What an event of the log asks, if it begins a call. -/
def Event.request : Event → Option Request
  | .called request => some request
  | _ => none

theorem requests_snoc (log : List Event) (e : Event) :
    requests (log ++ [e]) = requests log ++ e.request.toList := by
  unfold requests
  rw [calls_snoc]
  cases e with
  | called request => simp [note, Event.request]
  | sent_batch permit resume => cases calls log <;> simp [note, Event.request]
  | lost => cases calls log <;> simp [note, Event.request]
  | _ => simp [note, Event.request]

/-- A step adds to the calls what its action asks. -/
theorem step_requests {a : Action E X} (h : step budget s a = some s') :
    requests s'.log = requests s.log ++ a.request.toList := by
  have quiet : ∀ {e : Event}, e.request = none →
      requests (s.log ++ [e]) = requests s.log ++ [] := by
    intro e he
    rw [requests_snoc, he]
    rfl
  cases a with
  | forward events lossy resume =>
    simp only [step] at h
    split_ifs at h
    cases h
    exact requests_snoc ..
  | signal_loss =>
    simp only [step] at h
    split_ifs at h
    cases h
    exact requests_snoc ..
  | signal_fatal err =>
    simp only [step] at h
    split_ifs at h
    cases h
    exact (List.append_nil _).symm
  | produce =>
    simp only [step, produce] at h
    split at h
    · cases h
    all_goals
      split_ifs at h
      all_goals
        cases h
        first
        | exact quiet rfl
        | exact (List.append_nil _).symm
  | take =>
    simp only [step, take] at h
    split at h
    rotate_right
    · cases h
    all_goals
      cases h
      exact (List.append_nil _).symm
  | consume =>
    simp only [step, consume] at h
    split at h
    · cases h
    all_goals
      cases h
      exact quiet rfl
  | release permit =>
    simp only [step] at h
    split_ifs at h
    cases h
    exact quiet rfl

theorem run_requests {acts : List (Action E X)} (h : run budget s acts = some s') :
    requests s'.log = requests s.log ++ acts.filterMap Action.request := by
  induction acts generalizing s with
  | nil =>
    cases h
    exact (List.append_nil _).symm
  | cons a as ih =>
    obtain ⟨s₁, h₁, h₂⟩ := Option.bind_eq_some_iff.mp h
    rw [ih h₂, step_requests h₁, List.append_assoc]
    congr 1
    rw [List.filterMap_cons]
    cases a.request with
    | none => rfl
    | some request => rfl

end Transport
