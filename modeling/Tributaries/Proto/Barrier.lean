import Tributaries.Proto.Session
import Tributaries.Proto.Settlement

/-! # The coverage-work epoch

  A driver that waits for a settled scope reads `coverage_work_epoch` at
  two moments.  While the scope keeps its root, the epoch is a clock over
  the entries that keep the scope unsettled: it advances when a call takes
  an entry on, and stands still when a call only releases entries.
-/

open Std Collections SlotForest Relation Meter

namespace Proto

variable {strict : Bool}

/-! ### Roots that go -/

/-- No effect changes the Monitor its call began with. -/
theorem Effect.start {c c' : Moment} (e : Effect c c') : c'.g.start = c.g.start := by
  cases e with
  | edit e => cases e <;> rfl
  | mark e => cases e <;> rfl
  | _ => rfl

/-- A scope gets a root only when it is registered, by a call that began with
    the scope unregistered. -/
theorem Edit.rootless {c c' : Moment} (h : Inv c) (e : Edit c c') {s : ScopeId}
    (hr : c.m.roots[s]? = none) : c'.m.roots[s]? = none ∨
      c.g.walk = none ∧ c.g.start.roots[s]? = none := by
  have shape : ∀ m : Monitor, m.shape.root s = m.roots[s]? := fun m => rfl
  cases e with
  | @register m g scope mask caps hw hr' hs' =>
    by_cases he : s = scope
    · subst he
      exact .inr ⟨hw, hs'⟩
    · apply Or.inl
      show (m.register_root_with_profile scope mask caps).1.roots[s]? = none
      rw [← shape, Monitor.register_shape mask caps hr', Shape.register_root, if_neg he]
      exact hr
  | @plant m g parent scope name is_dir identity hw hp ha hs' =>
    have hpn : parent ≠ m.watch_ids.next := by
      intro he
      exact Nat.lt_irrefl _ (he ▸ ha.minted)
    apply Or.inl
    show (m.plant parent scope name is_dir identity).roots[s]? = none
    rw [← shape, Monitor.plant_shape hpn, Shape.plant_root]
    exact hr
  | reserve => exact .inl hr
  | @graft m g scope reserved last old_root hw ht hr' hs' =>
    have hne : s ≠ scope := by
      intro he
      subst he
      rw [show m.roots[s]? = none from hr] at hr'
      cases hr'
    apply Or.inl
    show (m.graft scope reserved last old_root).1.roots[s]? = none
    rw [← shape, Monitor.graft_shape (h.sound hw) (h.spare.dead _ hs') hr', Shape.graft_root,
      if_neg hne]
    exact hr
  | @hold m g scope src parent name hw ht hp hs' =>
    apply Or.inl
    show (m.take_source scope src).roots[s]? = none
    rw [← shape, Monitor.take_source_shape _ hp (h.unheld hp hs')]
    exact hr
  | @rekey m g child new_parent new_name scope hw =>
    apply Or.inl
    show (m.rekey child new_parent new_name).roots[s]? = none
    rw [← shape, Monitor.rekey_shape _ _ _ (h.sound hw), Shape.rekey_root]
    exact hr
  | @uproot m g scope root =>
    apply Or.inl
    show (m.roots.erase scope)[s]? = none
    rw [get_erase, show m.roots[s]? = none from hr, ite_self]
  | @remove m g walk id stack node =>
    apply Or.inl
    show (m.remove_node id node walk.erased).1.roots[s]? = none
    rw [← shape, Monitor.remove_shape, Shape.remove_root, show m.shape.root s = none from hr,
      ite_self]

theorem Effect.rootless {c c' : Moment} (h : Inv c) (e : Effect c c') {s : ScopeId}
    (hr : c.m.roots[s]? = none) : c'.m.roots[s]? = none ∨
      c.g.walk = none ∧ c.g.start.roots[s]? = none := by
  rcases e.still with e | ⟨hp, -⟩
  · exact e.rootless h hr
  · rw [hp.roots]
    exact .inl hr

/-- A root that is gone does not come back within the call. -/
theorem Effect.torn {c c' : Moment} (h : Inv c) (e : Effect c c') {s : ScopeId}
    (hr : c.m.roots[s]? = none) (hs : c.g.start.roots[s]? ≠ none) : c'.m.roots[s]? = none :=
  (e.rootless h hr).resolve_right fun hn => hs hn.2

theorem Trace.torn {c c' : Moment} (h : Valid c) (t : Trace c c') {s : ScopeId}
    (hr : c.m.roots[s]? = none) (hs : c.g.start.roots[s]? ≠ none) :
    c'.m.roots[s]? = none ∧ c'.g.start.roots[s]? ≠ none := by
  induction t with
  | refl => exact ⟨hr, hs⟩
  | tail t e ih =>
    obtain ⟨hr', hs'⟩ := ih
    refine ⟨e.torn (Trace.valid h t).toInv hr' hs', ?_⟩
    rw [e.start]
    exact hs'

/-! ### One call -/

/-- A step between two moments after which a store behind the barrier has an
    entry of the scope that it did not have before. -/
def TakesOn (scope : ScopeId) (c c' : Moment) : Prop :=
  ∃ e ∈ c'.m.outstanding scope, e ∉ c.m.outstanding scope

theorem not_takesOn {scope : ScopeId} {c c' : Moment} :
    ¬ TakesOn scope c c' ↔ c'.m.outstanding scope ⊆ c.m.outstanding scope := by
  constructor
  · intro h e he
    by_contra hn
    exact h ⟨e, he, hn⟩
  · rintro h ⟨e, he, hn⟩
    exact hn (h he)

namespace Session

variable (s : Session)

/-- Whether the call leaves a registered scope its root: it neither unregisters
    the scope nor invalidates its root. -/
def Retains (scope : ScopeId) (input : Input) : Prop :=
  s.m.roots[scope]? ≠ none → (s.step input).m.roots[scope]? ≠ none

/-- Every call of the list retains the scope. -/
def RetainsAll (scope : ScopeId) : Session → List Input → Prop
  | _, [] => True
  | s, input :: inputs => s.Retains scope input ∧ RetainsAll scope (s.step input) inputs

/-- Whether the call only releases: it is a path of effects none of which
    takes an entry of the scope on. -/
def Releases (strict : Bool) (scope : ScopeId) (input : Input) : Prop :=
  ReflTransGen (fun c c' => Effect c c' ∧ ¬ TakesOn scope c c')
    (s.during strict s.m input) ((s.step input).during strict s.m input)

/-- Whether nothing the call does takes an entry of the scope on. -/
def Undisturbed (strict : Bool) (scope : ScopeId) (input : Input) : Prop :=
  ∀ c c', Trace (s.during strict s.m input) c → Effect c c' →
    Trace c' ((s.step input).during strict s.m input) → ¬ TakesOn scope c c'

theorem retainsAll_append {scope : ScopeId} (l l' : List Input) :
    s.RetainsAll scope (l ++ l') ↔ s.RetainsAll scope l ∧ (s.run l).RetainsAll scope l' := by
  induction l generalizing s with
  | nil => simp [RetainsAll]
  | cons input l ih => simp [RetainsAll, ih, and_assoc]

variable {s} {scope : ScopeId} {input : Input}

/-- Every effect of a call that retains the scope is metered. -/
theorem Retains.metered (h : Valid (s.moment strict)) (hk : s.Retains scope input)
    {c c' : Moment} (t : Trace (s.during strict s.m input) c) (e : Effect c c')
    (t' : Trace c' ((s.step input).during strict s.m input)) :
    Metered (fun c : Moment => c.m.outstanding scope) (fun c => c.m.coverage_work_count scope)
      c c' := by
  have hv : Valid c := Trace.valid h.during t
  obtain ⟨hm | ⟨hr, hs⟩, -⟩ := e.followed hv scope
  · cases hm with
    | ebb h hc => exact .ebb h hc
    | gain e h h' hc => exact .gain e h h' hc
  · -- the scope was forgotten: its root is gone, and stays gone to the end of the call
    obtain ⟨hr', hs'⟩ := Trace.torn hv (.head e t') hr hs
    have hstart : s.m.roots[scope]? ≠ none := hs'
    have hend : (s.step input).m.roots[scope]? = none := hr'
    exact absurd hend (hk hstart)

/-- A path of effects that take nothing on is a path of effects. -/
theorem quiet_trace {c c' : Moment}
    (t : ReflTransGen (fun c c' => Effect c c' ∧ ¬ TakesOn scope c c') c c') : Trace c c' :=
  t.lift id fun _ _ e => e.1

section Call

variable (h : Valid (s.moment strict)) (ha : s.Admits strict input) (hk : s.Retains scope input)

include h hk

/-- An unchanged epoch says that nothing was taken on. -/
theorem Retains.undisturbed
    (he : (s.step input).m.coverage_work_count scope = s.m.coverage_work_count scope) :
    s.Undisturbed strict scope input := by
  intro c c' t e t'
  rw [not_takesOn]
  exact certified t e t' (fun _ _ t e t' => hk.metered h t e t') he

include ha

theorem Retains.epoch_le :
    s.m.coverage_work_count scope ≤ (s.step input).m.coverage_work_count scope :=
  path_le (path_of (s.call_trace h ha) fun _ _ t e t' => hk.metered h t e t')

/-- The epoch stands still in exactly the calls that only release. -/
theorem Retains.releases_iff : s.Releases strict scope input ↔
    (s.step input).m.coverage_work_count scope = s.m.coverage_work_count scope := by
  constructor
  · intro hr
    have each : ∀ c c', ReflTransGen (fun c c' => Effect c c' ∧ ¬ TakesOn scope c c')
        (s.during strict s.m input) c → Effect c c' ∧ ¬ TakesOn scope c c' →
        ReflTransGen (fun c c' => Effect c c' ∧ ¬ TakesOn scope c c') c'
          ((s.step input).during strict s.m input) →
        Metered (fun c : Moment => c.m.outstanding scope)
          (fun c => c.m.coverage_work_count scope) c c' :=
      fun c c' t e t' => hk.metered h (quiet_trace t) e.1 (quiet_trace t')
    exact idle hr each fun c c' _ e _ => not_takesOn.mp e.2
  · intro he
    have hu := hk.undisturbed h he
    -- every effect on the call's own path is one that takes nothing on
    have path : ∀ {c : Moment}, Trace (s.during strict s.m input) c →
        Trace c ((s.step input).during strict s.m input) →
        ReflTransGen (fun c c' => Effect c c' ∧ ¬ TakesOn scope c c')
          (s.during strict s.m input) c := by
      intro c t
      induction t with
      | refl => exact fun _ => .refl
      | tail t e ih =>
        intro t'
        exact (ih (.head e t')).tail ⟨e, hu _ _ t e t'⟩
    exact path (s.call_trace h ha) .refl

/-- With nothing taken on, what a settled scope owes is still nothing. -/
theorem Retains.settled (ht : Tallied s.m) (ht' : Tallied (s.step input).m)
    (hs : s.m.coverage_settled scope = true)
    (he : (s.step input).m.coverage_work_count scope = s.m.coverage_work_count scope) :
    (s.step input).m.coverage_settled scope = true := by
  rw [settled_iff ht] at hs
  rw [settled_iff ht']
  have hpath := path_of (s.call_trace h ha) fun _ _ t e t' => hk.metered h t e t'
  have hsub := path_ebb hpath (Nat.le_of_eq he)
  exact Set.subset_eq_empty hsub hs

end Call

/-! ### Runs -/

theorem tallied_new (caps : Capabilities) : Tallied (Session.new caps).m := by
  have none : ∀ P : ScopeId → WatchId → Prop, (∀ s x, ¬ P s x) →
      Tally.Counts (∅ : Map ScopeId Nat) fun s => {x | P s x} := by
    intro P hP
    have h : (fun s => {x | P s x}) = fun _ => ∅ := by
      funext s
      exact Set.eq_empty_of_forall_notMem (hP s)
    rw [h]
    exact Tally.empty
  refine ⟨none _ ?_, none _ ?_, none _ ?_⟩ <;> simp [Monitor.counted, Session.new, Monitor.new]

variable {inputs : List Input}

/-- A state of a run: its invariants hold, and its counters are right. -/
structure Kept (strict : Bool) (s : Session) : Prop where
  valid : Valid (s.moment strict)
  tallied : Tallied s.m

theorem Kept.run (h : Kept strict s) (hd : s.Drives strict inputs) :
    Kept strict (s.run inputs) := by
  obtain ⟨h₁, h₂⟩ := run_keeps (P := fun c => Tallied c.m)
    (fun _ _ hv ht e => (e.followed hv ⟨1, Nat.one_pos⟩).2 ht)
    (fun _ _ _ _ ht => ht) h.valid h.tallied hd
  exact ⟨h₁, h₂⟩

theorem Kept.step (h : Kept strict s) (ha : s.Admits strict input) :
    Kept strict (s.step input) :=
  show Kept strict (s.run [input]) from h.run ⟨ha, trivial⟩

theorem kept_new (caps : Capabilities) : Kept strict (Session.new caps) :=
  ⟨valid_new caps, tallied_new caps⟩

theorem Kept.epoch_le (h : Kept strict s) (hd : s.Drives strict inputs)
    (hk : s.RetainsAll scope inputs) :
    s.m.coverage_work_count scope ≤ (s.run inputs).m.coverage_work_count scope := by
  induction inputs generalizing s with
  | nil => exact Nat.le_refl _
  | cons input inputs ih =>
    calc s.m.coverage_work_count scope
        ≤ (s.step input).m.coverage_work_count scope := hk.1.epoch_le h.valid hd.1
      _ ≤ _ := ih (h.step hd.1) hd.2 hk.2

/-- Between two equal readings over a settled scope, each call leaves it settled
    and takes nothing on. -/
theorem Kept.certified (h : Kept strict s) (hd : s.Drives strict inputs)
    (hk : s.RetainsAll scope inputs) (hs : s.m.coverage_settled scope = true)
    (he : (s.run inputs).m.coverage_work_count scope = s.m.coverage_work_count scope)
    {a b : List Input} (hsplit : inputs = a ++ input :: b) :
    ((s.run a).step input).m.coverage_settled scope = true ∧
      (s.run a).Undisturbed strict scope input := by
  induction a generalizing s inputs with
  | nil =>
    subst hsplit
    have hstep := h.step hd.1
    have h₁ := hk.1.epoch_le h.valid hd.1
    have h₂ := hstep.epoch_le hd.2 hk.2
    have heq : (s.step input).m.coverage_work_count scope = s.m.coverage_work_count scope := by
      have : ((s.step input).run b).m.coverage_work_count scope =
          s.m.coverage_work_count scope := he
      omega
    exact ⟨hk.1.settled h.valid hd.1 h.tallied hstep.tallied hs heq,
      hk.1.undisturbed h.valid heq⟩
  | cons first a ih =>
    subst hsplit
    have hstep := h.step hd.1
    have h₁ := hk.1.epoch_le h.valid hd.1
    have h₂ := hstep.epoch_le hd.2 hk.2
    have he' : ((s.step first).run (a ++ input :: b)).m.coverage_work_count scope =
        s.m.coverage_work_count scope := he
    have heq : (s.step first).m.coverage_work_count scope = s.m.coverage_work_count scope := by
      have : ((s.step first).run (a.append (input :: b))).m.coverage_work_count scope =
          s.m.coverage_work_count scope := he
      omega
    exact ih hstep hd.2 hk.2 (hk.1.settled h.valid hd.1 h.tallied hstep.tallied hs heq)
      (he'.trans heq.symm) rfl

end Session

open Session

/-- The epoch certifies a settled interval.  Between two moments of a run with
    the scope retained in between, it never goes back and advances with each
    call that unsettles the scope, until the counter wraps, and it stands still
    in the calls that only release, and in no others that take fewer than 2^64
    entries on.  Two equal readings over a settled scope less than a turn of the
    counter apart say that the scope was settled after every call in between,
    and that no call took an entry on. -/
theorem coverage_work_epoch_certifies {caps : Capabilities} {before between : List Input}
    {scope : ScopeId} (hd : (Session.new caps).Drives false (before ++ between))
    (hk : ((Session.new caps).run before).RetainsAll scope between) :
    (∀ a input b s t, between = a ++ input :: b → s = (Session.new caps).run (before ++ a) →
      t = s.step input →
      (t.m.coverage_work_count scope < 2 ^ 64 →
        s.m.coverage_work_epoch scope ≤ t.m.coverage_work_epoch scope ∧
          (s.m.coverage_settled scope = true → t.m.coverage_settled scope = false →
            s.m.coverage_work_epoch scope < t.m.coverage_work_epoch scope)) ∧
        (s.Releases false scope input →
          t.m.coverage_work_epoch scope = s.m.coverage_work_epoch scope) ∧
        (t.m.coverage_work_count scope < s.m.coverage_work_count scope + 2 ^ 64 →
          t.m.coverage_work_epoch scope = s.m.coverage_work_epoch scope →
          s.Releases false scope input)) ∧
    (∀ start finish, start = (Session.new caps).run before → finish = start.run between →
      start.m.coverage_settled scope = true → finish.m.coverage_settled scope = true →
      finish.m.coverage_work_epoch scope = start.m.coverage_work_epoch scope →
      finish.m.coverage_work_count scope < start.m.coverage_work_count scope + 2 ^ 64 →
      ∀ a input b s, between = a ++ input :: b → s = start.run a →
        (s.step input).m.coverage_settled scope = true ∧ s.Undisturbed false scope input) := by
  obtain ⟨hd₁, hd₂⟩ := (drives_append _ _ _).mp hd
  have h : Kept false ((Session.new caps).run before) := (kept_new caps).run hd₁
  constructor
  · intro a input b s t hsplit hs ht
    subst hsplit
    rw [run_append] at hs
    obtain ⟨hda, hdi⟩ := (drives_append _ _ _).mp hd₂
    obtain ⟨hka, hki⟩ := (retainsAll_append _ _ _).mp hk
    have hat : Kept false s := hs ▸ h.run hda
    rw [← hs] at hdi hki
    have hstep := hat.step hdi.1
    have hle := hki.1.epoch_le hat.valid hdi.1
    have hrel := hki.1.releases_iff hat.valid hdi.1
    subst ht
    refine ⟨fun hb => ⟨word_le hle hb, fun hset hset' => word_lt ?_ hb⟩, ?_, ?_⟩
    · -- an unchanged count would have left the scope settled
      have hne : (s.step input).m.coverage_work_count scope ≠ s.m.coverage_work_count scope := by
        intro he
        rw [hki.1.settled hat.valid hdi.1 hat.tallied hstep.tallied hset he] at hset'
        cases hset'
      omega
    · intro hr
      exact congrArg UInt64.ofNat (hrel.mp hr)
    · intro hb he
      exact hrel.mpr (word_inj hle hb he)
  · intro start finish hstart hfinish hs _ he hb a input b s hsplit hsa
    subst hstart hfinish hsa
    exact h.certified hd₂ hk hs (word_inj (h.epoch_le hd₂ hk) hb he) hsplit

/-! ### A file that leaves again and again -/

/-- A root of which only arrivals are wanted, armed at once. -/
def arrivals_root : List Input :=
  [.register_root ⟨1, Nat.one_pos⟩ ⟨true, false, false, false, false, true⟩, .poll_action,
    .on_watch_result ⟨1, Nat.one_pos⟩ ⟨2, Nat.two_pos⟩ (.ok .installed)]

def departing : Input :=
  .on_os_record
    { watch := ⟨1, Nat.one_pos⟩, kind := .movedFrom, evidence := .of .movedFrom,
      target := some ["a"], is_dir := some false, cookie := some ⟨1, Nat.one_pos⟩, node := none }
    ⟨0⟩

/-- The driver gives up waiting for where the file went. -/
def departed : Input := .consume_pending_move ⟨1, Nat.one_pos⟩ ⟨1, Nat.one_pos⟩

/-- So many departures, each over before the next. -/
def departures (n : Nat) : List Input := (List.replicate n [departing, departed]).flatten

/-- The root with its counter at `n`. -/
def rooted (n : Nat) : Session :=
  { m := { ((Session.new ⟨true, false⟩).run arrivals_root).m with
      coverage_work_epochs := (∅ : Map ScopeId Nat).insert ⟨1, Nat.one_pos⟩ n }
    out := []
    spare := [] }

/-- The root with its counter at `n` while the file's half is parked. -/
def halved (n : Nat) : Session :=
  { rooted n with
    m := { (rooted n).m with
      pending_moves := (∅ : Map PendingKey PendingMove).insert
        (⟨1, Nat.one_pos⟩, ⟨1, Nat.one_pos⟩)
        { from_parent := ⟨1, Nat.one_pos⟩, source := ["a"], scope := ⟨1, Nat.one_pos⟩,
          deadline := Instant.add ⟨0⟩ DEFAULT_MOVE_WINDOW, held := none, is_dir := some false,
          evidence := .of .movedFrom, dirty := false } } }

theorem rooted_start : (Session.new ⟨true, false⟩).run arrivals_root = rooted 1 := by
  with_unfolding_all rfl

theorem rooted_departing (n : Nat) : (rooted n).step departing = halved (n + 1) := by
  with_unfolding_all rfl

theorem halved_departed (n : Nat) : (halved n).step departed = rooted n := by
  with_unfolding_all rfl

theorem rooted_root (n : Nat) : (rooted n).m.roots[(⟨1, Nat.one_pos⟩ : ScopeId)]? ≠ none := by
  show ((Session.new ⟨true, false⟩).run arrivals_root).m.roots[(⟨1, Nat.one_pos⟩ : ScopeId)]? ≠ _
  decide +kernel

theorem rooted_settled (n : Nat) : (rooted n).m.coverage_settled ⟨1, Nat.one_pos⟩ = true := by
  with_unfolding_all rfl

theorem rooted_count (n : Nat) : (rooted n).m.coverage_work_count ⟨1, Nat.one_pos⟩ = n := by
  with_unfolding_all rfl

theorem departures_succ (n : Nat) :
    departures (n + 1) = departing :: departed :: departures n := rfl

/-- Every departure advances the counter and leaves everything else. -/
theorem rooted_departures (n k : Nat) : (rooted n).run (departures k) = rooted (n + k) := by
  induction k generalizing n with
  | zero => rfl
  | succ k ih =>
    rw [departures_succ, run_cons, run_cons, rooted_departing, halved_departed, ih]
    congr 1
    omega

theorem departures_drive (n k : Nat) : (rooted n).Drives false (departures k) := by
  induction k generalizing n with
  | zero => trivial
  | succ k ih =>
    rw [departures_succ]
    refine ⟨trivial, trivial, ?_⟩
    rw [rooted_departing, halved_departed]
    exact ih (n + 1)

theorem departures_retain (n k : Nat) :
    (rooted n).RetainsAll ⟨1, Nat.one_pos⟩ (departures k) := by
  induction k generalizing n with
  | zero => trivial
  | succ k ih =>
    rw [departures_succ]
    refine ⟨fun _ => ?_, fun _ => ?_, ?_⟩
    · rw [rooted_departing]
      exact rooted_root (n + 1)
    · rw [rooted_departing, halved_departed]
      exact rooted_root (n + 1)
    · rw [rooted_departing, halved_departed]
      exact ih (n + 1)

/-- One departure: parking the half advances the epoch, and giving it up only
    releases. -/
theorem departure_certified :
    (rooted 1).m.coverage_work_epoch ⟨1, Nat.one_pos⟩ <
        ((rooted 1).step departing).m.coverage_work_epoch ⟨1, Nat.one_pos⟩ ∧
      ((rooted 1).step departing).Releases false ⟨1, Nat.one_pos⟩ departed := by
  have hd : (Session.new ⟨true, false⟩).Drives false (arrivals_root ++ departures 1) := by
    refine (drives_append _ _ _).mpr ⟨⟨trivial, trivial, trivial, trivial⟩, ?_⟩
    rw [rooted_start]
    exact departures_drive 1 1
  have hk : ((Session.new ⟨true, false⟩).run arrivals_root).RetainsAll ⟨1, Nat.one_pos⟩
      (departures 1) := by
    rw [rooted_start]
    exact departures_retain 1 1
  have h := (coverage_work_epoch_certifies hd hk).1
  have hgain := h [] departing [departed] (rooted 1) ((rooted 1).step departing) rfl
    rooted_start.symm rfl
  have hend := h [departing] departed [] ((rooted 1).step departing)
    (((rooted 1).step departing).step departed) rfl (by rw [run_append, rooted_start]; rfl) rfl
  refine ⟨(hgain.1 (by decide +kernel)).2 (by decide +kernel) (by decide +kernel), ?_⟩
  exact hend.2.2 (by decide +kernel) (by decide +kernel)

/-- After 2^64 departures the epoch reads what it read before the first, over a
    settled scope at both ends, and each of them had unsettled it. -/
theorem coverage_work_epoch_wraps :
    ∃ rest, (Session.new ⟨true, false⟩).Drives false (arrivals_root ++ departing :: rest) ∧
      ((Session.new ⟨true, false⟩).run arrivals_root).RetainsAll ⟨1, Nat.one_pos⟩
        (departing :: rest) ∧
      ∀ start finish, start = (Session.new ⟨true, false⟩).run arrivals_root →
        finish = start.run (departing :: rest) →
        start.m.coverage_settled ⟨1, Nat.one_pos⟩ = true ∧
          finish.m.coverage_settled ⟨1, Nat.one_pos⟩ = true ∧
          finish.m.coverage_work_epoch ⟨1, Nat.one_pos⟩ =
            start.m.coverage_work_epoch ⟨1, Nat.one_pos⟩ ∧
          (start.step departing).m.coverage_settled ⟨1, Nat.one_pos⟩ = false := by
  obtain ⟨k, hk⟩ : ∃ k, k + 1 = 2 ^ 64 := ⟨2 ^ 64 - 1, by decide⟩
  refine ⟨departed :: departures k, ?_, ?_, ?_⟩
  · refine (drives_append _ _ _).mpr ⟨⟨trivial, trivial, trivial, trivial⟩, ?_⟩
    rw [rooted_start, ← departures_succ]
    exact departures_drive 1 (k + 1)
  · rw [rooted_start, ← departures_succ]
    exact departures_retain 1 (k + 1)
  · intro start finish hstart hfinish
    rw [rooted_start] at hstart
    rw [hstart, ← departures_succ, rooted_departures] at hfinish
    subst hstart hfinish
    refine ⟨rooted_settled 1, rooted_settled _, ?_, by decide +kernel⟩
    show UInt64.ofNat ((rooted _).m.coverage_work_count _) = UInt64.ofNat _
    rw [rooted_count, rooted_count, hk]
    exact word_turn 1

end Proto
