import Tributaries.Proto.Roots

/-! # Sessions

  A session is a Monitor with what its driver has in hand: the arms it
  was given and has not answered, and the ids it reserved for a widen.
  Every call a driver may make is a path of effects, so what effects keep
  holds after every run.
-/

open Std Collections SlotForest Forest

namespace Proto

/-- A Monitor and what its driver has in hand. -/
structure Session where
  m : Monitor
  /-- The arms handed out and not answered. -/
  out : List (WatchId × ArmAttempt)
  /-- The reserved ids no widen used. -/
  spare : List WatchId

/-- A root that still bootstraps: nothing hangs below it, and no widen put it
    above an older root. -/
def Bootstraps (m : Monitor) (scope : ScopeId) : Prop :=
  ∀ root node, m.roots[scope]? = some root → m.nodes[root]? = some node →
    node.children = ∅ ∧ m.pending_adoptions[root]? = none

namespace Session

def new (caps : Capabilities) : Session := ⟨.new caps, [], []⟩

variable (s : Session)

/-- The arms in hand after a call. -/
def out_after : Input → Output → List (WatchId × ArmAttempt)
  | .on_watch_result id attempt _, _ => s.out.filter (· ≠ (id, attempt))
  | .rebind_root _, .arm armed | .widen_root _ _ _ _, .arm armed => armed.toList ++ s.out
  | .poll_action, .action action =>
    ((action.bind (·.as_watch)).map fun cmd => (cmd.id, cmd.attempt)).toList ++ s.out
  | _, _ => s.out

/-- The reserved ids in hand after a call. -/
def spare_after : Input → Output → List WatchId
  | .reserve_watch_id, .watch id => id.toList ++ s.spare
  | .widen_root _ reserved _ _, .arm armed =>
    if armed.isSome then s.spare.filter (· ≠ reserved) else s.spare
  | _, _ => s.spare

/-- One call of the driver. -/
def step (input : Input) : Session :=
  ⟨(s.m.step input).1, s.out_after input (s.m.step input).2,
    s.spare_after input (s.m.step input).2⟩

/-- What the interface asks of the driver: a widen takes an id that was
    reserved for it, and a driver that is `strict` reprofiles only roots
    that still bootstrap. -/
def Admits (strict : Bool) : Input → Prop
  | .widen_root _ reserved _ _ => reserved ∈ s.spare
  | .reprofile_root scope _ => strict = true → Bootstraps s.m scope
  | _ => True

/-- The calls of a list, one after the other. -/
def run : Session → List Input → Session
  | s, [] => s
  | s, input :: inputs => run (s.step input) inputs

/-- A list of calls each of which the interface admits. -/
def Drives (strict : Bool) : Session → List Input → Prop
  | _, [] => True
  | s, input :: inputs => s.Admits strict input ∧ Drives strict (s.step input) inputs

@[simp] theorem run_nil : s.run [] = s := rfl

@[simp] theorem run_cons (input : Input) (inputs : List Input) :
    s.run (input :: inputs) = (s.step input).run inputs := rfl

theorem run_append (l l' : List Input) : s.run (l ++ l') = (s.run l).run l' := by
  induction l generalizing s with
  | nil => rfl
  | cons input l ih => exact ih (s.step input)

theorem drives_append {strict : Bool} (l l' : List Input) :
    s.Drives strict (l ++ l') ↔ s.Drives strict l ∧ (s.run l).Drives strict l' := by
  induction l generalizing s with
  | nil => simp [Drives]
  | cons input l ih => simp [Drives, ih, and_assoc]

/-- Between two calls nothing is under way. -/
def moment (strict : Bool) : Moment :=
  ⟨s.m, { Ghost.new strict s.m with out := s.out, spare := s.spare }⟩

/-- The session in a call that began with `start`, before its first effect or
    after its last. -/
def during (strict : Bool) (start : Monitor) (input : Input) : Moment :=
  ⟨s.m, { Ghost.new strict start with call := some input, out := s.out, spare := s.spare }⟩

end Session

variable {s : Session} {strict : Bool} {m : Monitor} {g : Ghost}

/-! ### Calls as paths -/

theorem Valid.during {input : Input} (h : Valid (s.moment strict)) :
    Valid (s.during strict s.m input) := h.recall

theorem Valid.returned {start : Monitor} {input : Input}
    (h : Valid (s.during strict start input)) : Valid (s.moment strict) := h.recall

/-- A flush of the bridge windows touches neither nodes nor actions. -/
theorem settle_bridges_same :
    m.settle_bridges.nodes = m.nodes ∧ m.settle_bridges.actions = m.actions := by
  have each : ∀ (l : List ScopeId) (m : Monitor),
      (l.foldl Monitor.settle_bridge m).nodes = m.nodes ∧
        (l.foldl Monitor.settle_bridge m).actions = m.actions := by
    intro l
    induction l with
    | nil => exact fun _ => ⟨rfl, rfl⟩
    | cons scope l ih =>
      intro m
      have h := (show Deliver m (m.settle_bridge scope) from .settle).shape
      obtain ⟨h₁, h₂⟩ := ih (m.settle_bridge scope)
      have hn : (m.settle_bridge scope).nodes = m.nodes := by rw [h]; rfl
      have ha : (m.settle_bridge scope).actions = m.actions := by rw [h]; rfl
      exact ⟨h₁.trans hn, h₂.trans ha⟩
  exact each _ m

/-- Polling skips superseded arms, then hands out the action in front. -/
theorem poll_action_trace (hc : g.call = some .poll_action) :
    Trace ⟨m, g⟩ ⟨m.poll_action.1,
      { g with out := ((m.poll_action.2.bind (·.as_watch)).map
          fun cmd => (cmd.id, cmd.attempt)).toList ++ g.out }⟩ := by
  unfold Monitor.poll_action
  rcases poll_action_loop_eq (m := m) m.actions with
    ⟨action, rest, skipped, hl, hsk, ha, he⟩ | ⟨hall, he⟩
  · rw [he]
    have h₁ := skip_trace (m := m) hc (action :: rest) hsk
    rw [← hl] at h₁
    exact h₁.tail (Effect.dispatch (m := { m with actions := action :: rest }) hc rfl ha)
  · rw [he]
    have h₁ := skip_trace (m := m) hc [] hall
    rw [List.append_nil] at h₁
    exact h₁

/-- Every call a driver may make is a path of effects. -/
theorem Session.call_trace {input : Input} (h : Valid (s.moment strict))
    (ha : s.Admits strict input) :
    Trace (s.during strict s.m input) ((s.step input).during strict s.m input) := by
  have hv : Valid (s.during strict s.m input) := h.during
  cases input with
  | set_move_window window => exact (Calm.ledger .window).once.trace
  | register_root scope mask => exact register_trace rfl rfl
  | register_root_with_profile scope mask caps => exact register_trace rfl rfl
  | reprofile_root scope caps =>
    exact (Effect.reprofile fun hs => unadopted_of_root hv.toInv rfl (ha hs)).trace
  | unregister_root scope => exact unregister_trace hv rfl rfl
  | drop_watch_subtree watch => exact drop_watch_trace rfl
  | rearm_watch_subtree watch => exact (rearm_watch_calm watch).trace
  | rebind_root scope => exact rebind_trace hv rfl rfl rfl rfl
  | reserve_watch_id => exact (Effect.edit .reserve).trace
  | widen_root scope reserved chain old_identity => exact widen_trace hv rfl rfl ha
  | cover_stat_loss scope => exact (cover_stat_loss_calm scope).trace
  | resignal_coverage_deficits scope =>
    exact Calms.trace
      ((resignal_deficits_calm scope (hv.toInv.sound rfl)).trans settle_bridges_calm)
  | seal_staged_adoptions scope through => exact seal_staged_trace hv rfl
  | on_os_record rec now =>
    exact (ingest_record_trace hv rfl rfl rfl (.refl _)).trans settle_bridges_calm.trace
  | on_stat_result req res =>
    exact (ingest_stat_result_trace hv rfl rfl).trans settle_bridges_calm.trace
  | on_enumerate req res =>
    exact (ingest_enumerate_trace hv rfl rfl rfl).trans settle_bridges_calm.trace
  | on_watch_result id attempt res =>
    obtain ⟨ht, ha⟩ := ingest_watch_result_trace id attempt res hv
      rfl rfl rfl (.refl _) rfl
    obtain ⟨hn, hact⟩ := settle_bridges_same (m := s.m.ingest_watch_result id attempt res)
    have ht' := ht.trans settle_bridges_calm.trace
    exact ht'.tail (.respond (answered_same ha hn hact))
  | on_overflow scope =>
    exact Calms.trace ((ingest_overflow_calm scope).trans settle_bridges_calm)
  | report_loss scope => exact (report_loss_calm scope).trace
  | cover_domination scope => exact (cover_domination_calm scope).trace
  | handle_timeout now => exact handle_timeout_trace rfl rfl
  | consume_pending_move scope cookie => exact consume_half_trace rfl rfl
  | poll_action => exact poll_action_trace rfl
  | poll_event =>
    change Trace _ ⟨s.m.poll_event.1, _⟩
    unfold Monitor.poll_event
    split
    · exact .refl
    · rename_i change rest he
      exact (Effect.poll_event rfl he).trace

/-! ### Runs -/

theorem sound_new (caps : Capabilities) : (Monitor.new caps).shape.Sound ∅ := by
  refine ⟨?_, ?_, ?_, ?_, ?_, ?_, fun x => .root (by simp [Monitor.up_of, Monitor.new])⟩ <;>
    simp [Monitor.shape, Monitor.new]

theorem valid_new (caps : Capabilities) : Valid ((Session.new caps).moment strict) where
  tree := by
    rw [doomed_empty (g := ((Session.new caps).moment strict).g) rfl]
    exact sound_new caps
  minted x hx := by simp [Session.moment, Session.new, Monitor.new] at hx
  spare := ⟨by simp [Session.moment, Session.new], by simp [Session.moment, Session.new]⟩
  holds := by
    constructor <;> simp [Session.moment, Session.new, Monitor.new, Ghost.new, Monitor.slot_of]
  reads := by
    constructor <;> simp [Session.moment, Session.new, Monitor.new, Monitor.state_of]
  stats := by
    intro req slot hs
    simp [Session.moment, Session.new, Monitor.new] at hs
  adopted := by
    constructor <;> simp [Session.moment, Session.new, Monitor.new]

theorem Session.step_valid {input : Input} (h : Valid (s.moment strict))
    (ha : s.Admits strict input) : Valid ((s.step input).moment strict) :=
  (Trace.valid h.during (s.call_trace h ha)).returned

/-- A property that every effect keeps, whatever the call, holds after every run. -/
theorem Session.run_keeps {P : Moment → Prop} {inputs : List Input}
    (step : ∀ c c', Valid c → P c → Effect c c' → P c')
    (again : ∀ m g call start, P ⟨m, g⟩ → P ⟨m, { g with call := call, start := start }⟩)
    (h : Valid (s.moment strict)) (hp : P (s.moment strict)) (hd : s.Drives strict inputs) :
    Valid ((s.run inputs).moment strict) ∧ P ((s.run inputs).moment strict) := by
  have along : ∀ {c c' : Moment}, Trace c c' → Valid c → P c → P c' := by
    intro c c' t hv hc
    induction t with
    | refl => exact hc
    | tail t e ih => exact step _ _ (Trace.valid hv t) ih e
  induction inputs generalizing s with
  | nil => exact ⟨h, hp⟩
  | cons input inputs ih =>
    have hp' : P (s.during strict s.m input) := again _ _ _ _ hp
    have := along (s.call_trace h hd.1) h.during hp'
    exact ih (s.step_valid h hd.1) (again _ _ _ _ this) hd.2

/-- What holds after every run of a new Monitor. -/
theorem Session.run_valid {caps : Capabilities} {inputs : List Input}
    (hd : (Session.new caps).Drives strict inputs) :
    Valid (((Session.new caps).run inputs).moment strict) :=
  (Session.run_keeps (P := fun _ => True) (fun _ _ _ _ _ => trivial) (fun _ _ _ _ _ => trivial)
    (valid_new caps) trivial hd).1

/-- A run that registers a root and widens it under a reserved id. -/
def widening : List Input :=
  [.register_root ⟨1, Nat.one_pos⟩ Interest.all, .reserve_watch_id,
    .widen_root ⟨1, Nat.one_pos⟩ ⟨2, Nat.two_pos⟩ ["old"] (some ⟨7, by decide⟩)]

theorem widening_drives : (Session.new ⟨false, false⟩).Drives strict widening :=
  ⟨trivial, trivial, List.mem_singleton.mpr rfl, trivial⟩

end Proto
