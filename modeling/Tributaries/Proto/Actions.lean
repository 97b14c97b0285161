import Tributaries.Proto.Arms
import Tributaries.Proto.Stream

/-! # The action stream

  All actions a run ever queued, in order.  Each handle sees arms under
  attempts that only grow, then one farewell when its node is removed, and
  nothing after it; a directory is read only after its arm was
  acknowledged.
-/

open Std Collections SlotForest

namespace Proto

variable {m : Monitor} {g : Ghost} {c c' : Moment} {s : Session} {strict : Bool}
  {input : Input} {inputs : List Input} {w : WatchId}

/-! ### Histories -/

/-- Whether an action is addressed to a handle. -/
def Action.Names (w : WatchId) : Action → Prop
  | .watch cmd => cmd.id = w
  | .unwatch id => id = w
  | .enumerate _ dir => dir = w
  | .stat _ parent _ => parent = w

/-- A handle that was given to a node. -/
structure Used (c : Moment) (w : WatchId) : Prop where
  minted : w < c.m.watch_ids.next
  taken : w ∉ c.g.spare

/-- The actions queued up to a moment: arms under growing attempts, and one
    farewell for each node that was removed, after which its handle is
    named no more. -/
structure Clean (history : List Action) (c : Moment) : Prop where
  growing : (history.filterMap (·.as_watch)).Pairwise (·.attempt < ·.attempt)
  issued : ∀ cmd, Action.watch cmd ∈ history → cmd.attempt < c.m.arm_attempts.next
  final : history.Pairwise fun a b => ∀ w, a = .unwatch w → ¬ b.Names w
  buried : ∀ w, Action.unwatch w ∈ history ↔ Used c w ∧ c.m.nodes[w]? = none

/-- A handle is taken by a node that is born under it. -/
theorem Edit.used (h : Inv c) (e : Edit c c') (hw : Used c' w) :
    Used c w ∨ c'.m.nodes[w]? ≠ none := by
  have born : ∀ next : WatchId, w < next.succ → w ∉ c.g.spare → c.m.watch_ids.next = next →
      Used c w ∨ w = next := by
    intro next hlt hsp hn
    rcases Nat.lt_or_ge w.as_u64 next.as_u64 with hl | hl
    · exact .inl ⟨hn ▸ hl, hsp⟩
    · refine .inr (ProtoId.ext ?_)
      have hlt : w.as_u64 < next.as_u64 + 1 := hlt
      omega
  cases e with
  | @register m g scope mask caps hwk hr =>
    obtain ⟨node, _, _, _, -, -, -, -, -, -, -, -, he⟩ := Monitor.register_eq mask caps hr
    obtain ⟨hlt, hsp⟩ := hw
    rw [he] at hlt
    rcases born m.watch_ids.next hlt hsp rfl with hu | rfl
    · exact .inl hu
    · rw [he, get_insert, if_pos rfl]
      exact .inr (by simp)
  | @plant m g parent scope name is_dir identity hwk hp ha hs =>
    have hpn : parent ≠ m.watch_ids.next := by
      intro hp
      exact Nat.lt_irrefl _ (hp ▸ ha.minted)
    have he := Monitor.plant_eq scope name is_dir identity hpn
    obtain ⟨hlt, hsp⟩ := hw
    rw [he] at hlt
    rcases born m.watch_ids.next hlt hsp rfl with hu | rfl
    · exact .inl hu
    · rw [he, get_modify, if_neg hpn, get_insert, if_pos rfl]
      exact .inr (by simp)
  | @reserve m g =>
    obtain ⟨hlt, hsp⟩ := hw
    rcases born m.watch_ids.next hlt (fun hm => hsp (List.mem_cons_of_mem _ hm)) rfl with hu | he
    · exact .inl hu
    · subst he
      exact absurd List.mem_cons_self hsp
  | @graft m g scope reserved last old_root hwk ht hr hs =>
    obtain ⟨nodes, he, hnodes⟩ := m.graft_eq scope reserved last old_root
    obtain ⟨hlt, hsp⟩ := hw
    rw [he] at hlt
    by_cases hx : w = reserved
    · subst hx
      refine .inr ?_
      show (m.graft scope w last old_root).1.nodes[w]? ≠ none
      rw [he, hnodes, Monitor.get_attached]
      simp [Monitor.stocked]
    · refine .inl ⟨hlt, fun hm => hsp (List.mem_filter.mpr ⟨hm, ?_⟩)⟩
      exact decide_eq_true hx
  | @hold m g scope src parent name hwk ht hp hs =>
    obtain ⟨_, _, _, -, -, he⟩ := Monitor.take_source_eq scope hp (h.unheld hp hs)
    obtain ⟨hlt, hsp⟩ := hw
    rw [he] at hlt
    exact .inl ⟨hlt, hsp⟩
  | @rekey m g child new_parent new_name =>
    obtain ⟨_, he⟩ := m.rekey_eq child new_parent new_name
    obtain ⟨hlt, hsp⟩ := hw
    rw [he] at hlt
    exact .inl ⟨hlt, hsp⟩
  | uproot => exact .inl ⟨hw.minted, hw.taken⟩
  | @remove m g walk id stack node hwk hs hid =>
    obtain ⟨hlt, hsp⟩ := hw
    rw [(remove_death walk.erased hid).watch_ids] at hlt
    exact .inl ⟨hlt, hsp⟩

theorem Effect.used (h : Inv c) (e : Effect c c') (hw : Used c' w) :
    Used c w ∨ c'.m.nodes[w]? ≠ none := by
  rcases e.still with e | ⟨hp, hs⟩
  · exact e.used h hw
  · exact .inl ⟨hp.watch_ids ▸ hw.minted, hs ▸ hw.taken⟩

/-- A used handle stays used, and its node is not born again. -/
theorem Effect.still_used (h : Inv c) (e : Effect c c') (hw : Used c w) : Used c' w := by
  rcases e.still with e | ⟨hp, hs⟩
  · obtain ⟨hids, hspare⟩ := e.ids h
    refine ⟨hids w hw.minted, fun hx => ?_⟩
    rcases hspare w hx with hx | hx
    · exact hw.taken hx
    · exact Nat.lt_irrefl _ (hx ▸ hw.minted)
  · exact ⟨hp.watch_ids ▸ hw.minted, hs ▸ hw.taken⟩

theorem Effect.still_dead (h : Inv c) (e : Effect c c') (hw : Used c w)
    (hd : c.m.nodes[w]? = none) : c'.m.nodes[w]? = none := by
  cases hn' : c'.m.nodes[w]? with
  | none => rfl
  | some n' =>
    rcases e.turn h hn' with ⟨n, hn, -⟩ | b
    · rw [hd] at hn
      cases hn
    · rcases b.fresh with hb | hb
      · exact absurd (hb ▸ hw.minted) (Nat.lt_irrefl _)
      · exact absurd hb hw.taken

theorem Inv.used (h : Inv c) {n : WatchNode} (hn : c.m.nodes[w]? = some n) : Used c w := by
  have hlive : c.m.nodes[w]? ≠ none := by simp [hn]
  exact ⟨h.minted w hlive, fun hs => hlive (h.spare.dead w hs)⟩

/-- Only a live handle, before or after the effect, is named by what is queued. -/
theorem Issue.live {l : List Action} (i : Issue c c' l) {a : Action} (ha : a ∈ l)
    (hw : a.Names w) : c.m.nodes[w]? ≠ none ∨ c'.m.nodes[w]? ≠ none := by
  cases i with
  | quiet => simp at ha
  | watch hn' =>
    obtain rfl := List.mem_singleton.mp ha
    obtain rfl : _ = w := hw
    exact .inr (by simp [hn'])
  | unwatch r =>
    obtain rfl := List.mem_singleton.mp ha
    obtain rfl : _ = w := hw
    obtain ⟨-, -, hn⟩ := r
    exact .inl (by simp [hn])
  | enumerate hn =>
    obtain rfl := List.mem_singleton.mp ha
    obtain rfl : _ = w := hw
    exact .inl (by simp [hn])
  | stat hn =>
    obtain rfl := List.mem_singleton.mp ha
    obtain rfl : _ = w := hw
    exact .inl hn

theorem Removal.effect {id : WatchId} {node : WatchNode} (r : Removal c c' id node) :
    c.m.nodes[id]? = some node ∧ c'.m.actions = c.m.actions ++ [.unwatch id] ∧
      ∀ x, c'.m.nodes[x]? = none ↔ x = id ∨ c.m.nodes[x]? = none := by
  obtain @⟨m, g, walk, _, stack, _, -, -, hn⟩ := r
  obtain ⟨_, _, _, -, -, he, -⟩ := m.remove_node_eq id node walk.erased
  refine ⟨hn, ?_, (remove_death _ hn).live_iff⟩
  show (m.remove_node id node walk.erased).1.actions = m.actions ++ [.unwatch id]
  rw [he]

/-- A node disappears with its farewell. -/
theorem Issues.removed (h : Inv c) (e : Effect c c') {l : List Action} (i : Issues c c' l)
    (hd : c'.m.nodes[w]? = none) (hl : c.m.nodes[w]? ≠ none) : l = [.unwatch w] := by
  rcases e.survives h with ⟨id, node, r⟩ | hs
  · obtain ⟨-, hacts, hdead⟩ := r.effect
    rcases (hdead w).mp hd with rfl | hd
    · exact List.append_cancel_left (i.appended.symm.trans hacts)
    · exact absurd hd hl
  · exact absurd (hs w hd) hl

/-- An effect keeps the history clean. -/
theorem Clean.issues {history : List Action} (h : Inv c) (hc : Clean history c)
    (e : Effect c c') {l : List Action} (i : Issues c c' l) : Clean (history ++ l) c' where
  growing := by
    rw [List.filterMap_append, List.pairwise_append]
    refine ⟨hc.growing, ?_, ?_⟩
    · cases i.issue <;> simp [Action.as_watch]
    · intro a ha b hb
      obtain ⟨x, hx, hxa⟩ := List.mem_filterMap.mp ha
      obtain ⟨y, hy, hyb⟩ := List.mem_filterMap.mp hb
      cases i.issue with
      | watch hn' hat hs hlo hhi =>
        obtain rfl := List.mem_singleton.mp hy
        obtain rfl : _ = b := Option.some.inj hyb
        cases x with
        | watch cmd =>
          obtain rfl : cmd = a := Option.some.inj hxa
          exact Nat.lt_of_lt_of_le (hc.issued cmd hx) hlo
        | unwatch => cases hxa
        | enumerate => cases hxa
        | stat => cases hxa
      | quiet => simp at hy
      | unwatch =>
        obtain rfl := List.mem_singleton.mp hy
        cases hyb
      | enumerate =>
        obtain rfl := List.mem_singleton.mp hy
        cases hyb
      | stat =>
        obtain rfl := List.mem_singleton.mp hy
        cases hyb
  issued cmd hm := by
    rcases List.mem_append.mp hm with hm | hm
    · exact Nat.lt_of_lt_of_le (hc.issued cmd hm) i.attempts
    · cases i.issue with
      | watch hn' hat hs hlo hhi =>
        obtain rfl : cmd = _ := by simpa using hm
        exact hhi
      | quiet => simp at hm
      | unwatch => simp at hm
      | enumerate => simp at hm
      | stat => simp at hm
  final := by
    rw [List.pairwise_append]
    refine ⟨hc.final, ?_, ?_⟩
    · cases i.issue <;> simp
    · intro a ha b hb w hw hn
      subst hw
      -- what is queued names a live handle, and the farewell was that of a dead one
      obtain ⟨hu, hd⟩ := (hc.buried w).mp ha
      rcases i.issue.live hb hn with hl | hl
      · exact hl hd
      · exact hl (e.still_dead h hu hd)
  buried w := by
    rw [List.mem_append, hc.buried]
    constructor
    · rintro (⟨hu, hd⟩ | hm)
      · exact ⟨e.still_used h hu, e.still_dead h hu hd⟩
      · cases i.issue with
        | unwatch r =>
          obtain rfl : w = _ := by simpa using hm
          obtain ⟨hn, -, hdead⟩ := r.effect
          exact ⟨e.still_used h (h.used hn), (hdead w).mpr (.inl rfl)⟩
        | quiet => simp at hm
        | watch => simp at hm
        | enumerate => simp at hm
        | stat => simp at hm
    · rintro ⟨hu, hd⟩
      by_cases hl : c.m.nodes[w]? = none
      · rcases e.used h hu with hu | hl'
        · exact .inl ⟨hu, hl⟩
        · exact absurd hd hl'
      · rw [i.removed h e hd hl]
        exact .inr (by simp)

/-- A poll of the queue leaves the history as it was. -/
theorem Clean.same {history : List Action} (hc : Clean history c)
    (ha : c'.m.arm_attempts = c.m.arm_attempts) (hw : c'.m.watch_ids = c.m.watch_ids)
    (hs : c'.g.spare = c.g.spare)
    (hn : ∀ x : WatchId, c'.m.nodes[x]? = none ↔ c.m.nodes[x]? = none) : Clean history c' where
  growing := hc.growing
  issued := by
    rw [ha]
    exact hc.issued
  final := hc.final
  buried w := by
    rw [hc.buried, hn]
    have hu : Used c' w ↔ Used c w := by
      constructor
      · rintro ⟨h₁, h₂⟩
        exact ⟨hw ▸ h₁, hs ▸ h₂⟩
      · rintro ⟨h₁, h₂⟩
        exact ⟨hw.symm ▸ h₁, hs.symm ▸ h₂⟩
    rw [hu]

/-! ### Acknowledged arms -/

/-- An effect that accepts the driver's acknowledgement of a watch's arm: the
    watch armed under the attempt, and does not any more. -/
structure Accepts (c c' : Moment) (w : WatchId) (attempt : ArmAttempt) : Prop where
  call : ∃ ack, c.g.call = some (.on_watch_result w attempt (.ok ack))
  before : ∃ n rearm reprove, c.m.nodes[w]? = some n ∧ n.attempt = attempt ∧
    n.state = .arming rearm reprove
  after : ∃ n', c'.m.nodes[w]? = some n' ∧ n'.attempt = attempt ∧
    ∀ rearm reprove, n'.state ≠ .arming rearm reprove

/-- A path of effects on which the arm of a watch was accepted. -/
def AcceptedOn (c c' : Moment) (w : WatchId) (attempt : ArmAttempt) : Prop :=
  ∃ d d', Trace c d ∧ Effect d d' ∧ Trace d' c' ∧ Accepts d d' w attempt

/-- Each watch that does not arm had its arm accepted, before a moment or since. -/
def Proven (acked : WatchId → ArmAttempt → Prop) (c c' : Moment) : Prop :=
  ∀ (x : WatchId) (n : WatchNode), c'.m.nodes[x]? = some n →
    (∀ rearm reprove, n.state ≠ .arming rearm reprove) →
      acked x n.attempt ∨ AcceptedOn c c' x n.attempt

variable {n n' : WatchNode}

/-- A watch that arms neither before nor after an effect keeps its attempt. -/
theorem Turn.settled (t : Turn c c' w n n')
    (howed : c.g.owed = some w → ∃ rearm reprove, n.state = .arming rearm reprove)
    (hn : ∀ rearm reprove, n.state ≠ .arming rearm reprove)
    (hn' : ∀ rearm reprove, n'.state ≠ .arming rearm reprove) : n'.attempt = n.attempt := by
  cases t with
  | arm h => exact absurd h (hn _ _)
  | reprove => exact absurd rfl (hn' _ _)
  | adopt ho =>
    obtain ⟨rearm, reprove, hs⟩ := howed ho
    exact absurd hs (hn _ _)
  | hold hh ha =>
    rcases ha with ha | ⟨⟨rearm, reprove, hs⟩, -⟩
    · exact ha
    · exact absurd hs (hn _ _)
  | _ => rfl

theorem Proven.tail {acked : WatchId → ArmAttempt → Prop} {d : Moment} (h : Inv c') (hA : Arms c')
    (hp : Proven acked c c') (t : Trace c c') (e : Effect c' d) : Proven acked c d := by
  intro x n' hn' hst
  rcases e.turn h hn' with ⟨n, hn, turn⟩ | b
  · by_cases hs : ∃ rearm reprove, n.state = .arming rearm reprove
    · obtain ⟨rearm, reprove, hs⟩ := hs
      rcases turn.arming hs with ⟨rearm', reprove', hs'⟩ | ⟨-, hat, ack, hc⟩
      · exact absurd hs' (hst _ _)
      · rw [hat]
        refine .inr ⟨c', d, t, e, .refl, ⟨ack, hc⟩, ⟨n, rearm, reprove, hn, rfl, hs⟩, ?_⟩
        exact ⟨n', hn', hat, hst⟩
    · have hs : ∀ rearm reprove, n.state ≠ .arming rearm reprove := by simpa using hs
      rw [turn.settled (fun ho => hA.owed x n ho hn) hs hst]
      rcases hp x n hn hs with ha | ⟨d₁, d₂, t₁, e₁, t₂, ha⟩
      · exact .inl ha
      · exact .inr ⟨d₁, d₂, t₁, e₁, t₂.tail e, ha⟩
  · obtain ⟨rearm, hs⟩ := b.armed
    exact absurd hs (hst _ _)

/-! ### Runs -/

/-- The actions one call puts at the end of the queue. -/
def Session.asks (s : Session) : Input → List Action
  | .poll_action => []
  | input => (s.step input).m.actions.drop s.m.actions.length

/-- All actions ever queued in a run, in order. -/
def Session.history : Session → List Input → List Action
  | _, [] => []
  | s, input :: inputs => s.asks input ++ (s.step input).history inputs

/-- A call in which the arm of a watch was accepted. -/
def Session.Accepts (s : Session) (input : Input) (w : WatchId) (attempt : ArmAttempt) : Prop :=
  AcceptedOn (s.during false s.m input) ((s.step input).during false s.m input) w attempt

/-- A run in which the arm of a watch was accepted. -/
def Session.Acked (s : Session) (inputs : List Input) (w : WatchId) (attempt : ArmAttempt) :
    Prop :=
  ∃ before input after, inputs = before ++ input :: after ∧
    (s.run before).Accepts input w attempt

theorem Session.history_append (s : Session) (l l' : List Input) :
    s.history (l ++ l') = s.history l ++ (s.run l).history l' := by
  induction l generalizing s with
  | nil => rfl
  | cons input l ih =>
    rw [List.cons_append, history, history, ih, List.append_assoc]
    rfl

theorem Trace.clean {history : List Action} (h : Valid c) (hc : Clean history c)
    (hp : c.g.call ≠ some .poll_action) (t : Trace c c') :
    ∃ l, c'.m.actions = c.m.actions ++ l ∧ Clean (history ++ l) c' := by
  induction t with
  | refl => exact ⟨[], by simp, by simpa using hc⟩
  | tail t e ih =>
    obtain ⟨l, ha, hc⟩ := ih
    have hv := Trace.valid h t
    rcases e.issues hv.toInv with ⟨l', i⟩ | p
    · refine ⟨l ++ l', ?_, ?_⟩
      · rw [i.appended, ha, List.append_assoc]
      · rw [← List.append_assoc]
        exact hc.issues hv.toInv e i
    · exact absurd (Trace.call t ▸ p.call) hp

theorem Trace.arms (h : Valid c) (hA : Arms c) (t : Trace c c') : Arms c' := by
  induction t with
  | refl => exact hA
  | tail t e ih => exact e.arms (Trace.valid h t).toInv ih

theorem Trace.proven {a : WatchId → ArmAttempt → Prop} (h : Valid c) (hA : Arms c)
    (hp : Proven a c c) (t : Trace c c') : Proven a c c' := by
  induction t with
  | refl => exact hp
  | tail t e ih => exact ih.tail (Trace.valid h t).toInv (Trace.arms h hA t) t e

/-- Each read a path queues is queued by one of its effects, of a watch that does
    not arm. -/
theorem Trace.reads (h : Valid c) (hp : c.g.call ≠ some .poll_action) (t : Trace c c') :
    ∃ l, c'.m.actions = c.m.actions ++ l ∧ ∀ req w, Action.enumerate req w ∈ l →
      ∃ d d' n, Trace c d ∧ Effect d d' ∧ Trace d' c' ∧
        d'.m.actions = d.m.actions ++ [.enumerate req w] ∧ d.m.nodes[w]? = some n ∧
        ∀ rearm reprove, n.state ≠ .arming rearm reprove := by
  induction t with
  | refl => exact ⟨[], by simp, by simp⟩
  | @tail d d' t e ih =>
    obtain ⟨l, ha, hl⟩ := ih
    rcases e.issues (Trace.valid h t).toInv with ⟨l', i⟩ | p
    · refine ⟨l ++ l', by rw [i.appended, ha, List.append_assoc], fun req w hm => ?_⟩
      rcases List.mem_append.mp hm with hm | hm
      · obtain ⟨d₁, d₂, n, t₁, e₁, t₂, hn⟩ := hl req w hm
        exact ⟨d₁, d₂, n, t₁, e₁, t₂.tail e, hn⟩
      · have happ := i.appended
        cases i.issue with
        | enumerate hn hs =>
          obtain ⟨rfl, rfl⟩ : req = _ ∧ w = _ := by simpa using hm
          exact ⟨d, d', _, t, e, .refl, happ, hn, hs⟩
        | quiet => simp at hm
        | watch => simp at hm
        | unwatch => simp at hm
        | stat => simp at hm
    · exact absurd (Trace.call t ▸ p.call) hp

/-- A read that a call queues: when it is queued its directory does not arm, no
    later arm of it is outstanding, and the arm it stands at was accepted in an
    earlier call of the run or earlier in this one. -/
def Session.ArmedFirst (s₀ : Session) (inputs : List Input) (input : Input) (req : ReqId)
    (w : WatchId) : Prop :=
  ∃ c c' n, Trace ((s₀.run inputs).during false (s₀.run inputs).m input) c ∧ Effect c c' ∧
    Trace c' (((s₀.run inputs).step input).during false (s₀.run inputs).m input) ∧
    c'.m.actions = c.m.actions ++ [.enumerate req w] ∧ c.m.nodes[w]? = some n ∧
    (∀ rearm reprove, n.state ≠ .arming rearm reprove) ∧
    (∀ a, Awaited c.m c.g w a → a ≤ n.attempt) ∧
    (s₀.Acked inputs w n.attempt ∨
      AcceptedOn ((s₀.run inputs).during false (s₀.run inputs).m input) c w n.attempt)

/-- What is known of a run and its history. -/
structure Told (s₀ : Session) (inputs : List Input) : Prop where
  valid : Valid ((s₀.run inputs).moment false)
  arms : Arms ((s₀.run inputs).moment false)
  clean : Clean (s₀.history inputs) ((s₀.run inputs).moment false)
  proven : ∀ (x : WatchId) (n : WatchNode), (s₀.run inputs).m.nodes[x]? = some n →
    (∀ rearm reprove, n.state ≠ .arming rearm reprove) → s₀.Acked inputs x n.attempt
  queue : ∃ gone, s₀.history inputs = gone ++ (s₀.run inputs).m.actions

theorem Session.asks_of {l : List Action} (hp : input ≠ .poll_action)
    (ha : (s.step input).m.actions = s.m.actions ++ l) : s.asks input = l := by
  have he : s.asks input = (s.step input).m.actions.drop s.m.actions.length := by
    cases input with
    | poll_action => exact absurd rfl hp
    | _ => rfl
  rw [he, ha, List.drop_left]

/-- A poll drops a front part of the queue and stamps one node at most. -/
theorem poll_action_eq (m : Monitor) : ∃ gone, m.actions = gone ++ m.poll_action.1.actions ∧
    m.poll_action.1.arm_attempts = m.arm_attempts ∧
    m.poll_action.1.watch_ids = m.watch_ids ∧
    ∀ x : WatchId, m.poll_action.1.nodes[x]? = none ↔ m.nodes[x]? = none := by
  unfold Monitor.poll_action
  rcases poll_action_loop_eq (m := m) m.actions with
    ⟨action, rest, skipped, hl, -, -, he⟩ | ⟨-, he⟩
  · obtain ⟨f, -, hd⟩ := Monitor.dispatch_shape (m := { m with actions := rest }) action
    rw [he]
    dsimp only
    rw [hd]
    refine ⟨skipped ++ [action], by simp [hl], rfl, rfl, fun x => ?_⟩
    cases action.as_watch with
    | none => exact Iff.rfl
    | some cmd =>
      dsimp only
      rw [get_modify]
      split
      · rw [Option.map_eq_none_iff]
      · exact Iff.rfl
  · rw [he]
    exact ⟨m.actions, by simp, rfl, rfl, fun x => Iff.rfl⟩

theorem Session.Acked.more {s₀ : Session} {a : ArmAttempt} (h : s₀.Acked inputs w a) :
    s₀.Acked (inputs ++ [input]) w a := by
  obtain ⟨before, first, after, rfl, ha⟩ := h
  exact ⟨before, first, after ++ [input], by simp, ha⟩

theorem told_new (caps : Capabilities) : Told (Session.new caps) [] where
  valid := valid_new caps
  arms := by
    constructor <;> simp [Session.moment, Session.new, Monitor.new, Ghost.new, Awaited, Queued]
  clean := by
    constructor <;> simp [Session.history]
    intro w hu
    exact absurd hu.minted (Nat.not_lt.mpr w.2)
  proven := by simp [Session.new, Monitor.new]
  queue := ⟨[], by simp [Session.history, Session.new, Monitor.new]⟩

theorem Told.step {s₀ : Session} (h : Told s₀ inputs)
    (ha : (s₀.run inputs).Admits false input) : Told s₀ (inputs ++ [input]) := by
  have hv : Valid ((s₀.run inputs).during false (s₀.run inputs).m input) := h.valid.during
  have hA : Arms ((s₀.run inputs).during false (s₀.run inputs).m input) :=
    ⟨h.arms.minted, h.arms.issued, h.arms.owed, h.arms.awaited⟩
  have t := (s₀.run inputs).call_trace h.valid ha
  have hrun : s₀.run (inputs ++ [input]) = (s₀.run inputs).step input := by
    rw [Session.run_append]
    rfl
  have hhist : s₀.history (inputs ++ [input]) =
      s₀.history inputs ++ (s₀.run inputs).asks input := by
    rw [Session.history_append]
    simp [Session.history]
  have hA' := Trace.arms hv hA t
  have hP := Trace.proven (a := s₀.Acked inputs) hv hA
    (fun x n hn hs => .inl (h.proven x n hn hs)) t
  obtain ⟨gone, hq⟩ := h.queue
  have hclean : Clean (s₀.history inputs ++ (s₀.run inputs).asks input)
      (((s₀.run inputs).step input).moment false) ∧
      ∃ gone, s₀.history inputs ++ (s₀.run inputs).asks input =
        gone ++ ((s₀.run inputs).step input).m.actions := by
    by_cases hp : input = .poll_action
    · subst hp
      obtain ⟨front, hf, harm, hids, hdead⟩ := poll_action_eq (s₀.run inputs).m
      rw [show (s₀.run inputs).asks .poll_action = [] from rfl, List.append_nil]
      refine ⟨h.clean.same harm hids rfl hdead, gone ++ front, ?_⟩
      rw [List.append_assoc, hq]
      congr 1
    · obtain ⟨l, hl, hc⟩ := Trace.clean hv
        (show Clean _ ((s₀.run inputs).during false (s₀.run inputs).m input) from
          ⟨h.clean.growing, h.clean.issued, h.clean.final, fun w => by
            rw [h.clean.buried]
            exact ⟨fun hu => ⟨⟨hu.1.1, hu.1.2⟩, hu.2⟩, fun hu => ⟨⟨hu.1.1, hu.1.2⟩, hu.2⟩⟩⟩)
        (by simpa [Session.during] using hp) t
      rw [Session.asks_of hp hl]
      refine ⟨⟨hc.growing, hc.issued, hc.final, fun w => ?_⟩, gone, ?_⟩
      · rw [hc.buried]
        exact ⟨fun hu => ⟨⟨hu.1.1, hu.1.2⟩, hu.2⟩, fun hu => ⟨⟨hu.1.1, hu.1.2⟩, hu.2⟩⟩
      · rw [show ((s₀.run inputs).step input).m.actions = _ from hl, hq, List.append_assoc]
        rfl
  constructor
  · rw [hrun]
    exact (s₀.run inputs).step_valid h.valid ha
  · rw [hrun]
    exact ⟨hA'.minted, hA'.issued, hA'.owed, hA'.awaited⟩
  · rw [hrun, hhist]
    exact hclean.1
  · intro x n hn hs
    rw [hrun] at hn
    rcases hP x n hn hs with hk | hk
    · exact hk.more
    · exact ⟨inputs, input, [], rfl, hk⟩
  · rw [hrun, hhist]
    exact hclean.2

theorem Told.run {s₀ : Session} (h : Told s₀ inputs) {more : List Input}
    (hd : (s₀.run inputs).Drives false more) : Told s₀ (inputs ++ more) := by
  induction more generalizing inputs with
  | nil => simpa using h
  | cons input more ih =>
    have hstep := h.step hd.1
    have hrun : s₀.run (inputs ++ [input]) = (s₀.run inputs).step input := by
      rw [Session.run_append]
      rfl
    have := ih hstep (hrun ▸ hd.2)
    rwa [List.append_assoc, List.singleton_append] at this

/-- A dead handle stays dead for good. -/
theorem Told.dead {s₀ : Session} (h : Told s₀ inputs) {more : List Input}
    (hd : (s₀.run inputs).Drives false more) (hw : Action.unwatch w ∈ s₀.history inputs) :
    w < (s₀.run (inputs ++ more)).m.watch_ids.next ∧ w ∉ (s₀.run (inputs ++ more)).spare ∧
      (s₀.run (inputs ++ more)).m.nodes[w]? = none := by
  have hm : Action.unwatch w ∈ s₀.history (inputs ++ more) := by
    rw [Session.history_append]
    exact List.mem_append_left _ hw
  obtain ⟨hu, hdead⟩ := ((h.run hd).clean.buried w).mp hm
  exact ⟨hu.minted, hu.taken, hdead⟩

/-- A farewell stands at most once in a clean history. -/
theorem Clean.count {history : List Action} (h : Clean history c) (hw : Action.unwatch w ∈ history) :
    history.count (.unwatch w) = 1 := by
  obtain ⟨before, after, rfl⟩ := List.append_of_mem hw
  have hp := h.final
  rw [List.pairwise_append, List.pairwise_cons] at hp
  obtain ⟨-, ⟨hafter, -⟩, hbefore⟩ := hp
  have h₁ : before.count (.unwatch w) = 0 := by
    rw [List.count_eq_zero]
    intro hm
    exact hbefore _ hm _ List.mem_cons_self w rfl rfl
  have h₂ : after.count (.unwatch w) = 0 := by
    rw [List.count_eq_zero]
    intro hm
    exact hafter _ hm w rfl rfl
  rw [List.count_append, List.count_cons_self, h₁, h₂]

theorem Told.reads {s₀ : Session} (h : Told s₀ inputs)
    (ha : (s₀.run inputs).Admits false input) {req : ReqId}
    (hm : Action.enumerate req w ∈ (s₀.run inputs).asks input) :
    s₀.ArmedFirst inputs input req w := by
  have hv : Valid ((s₀.run inputs).during false (s₀.run inputs).m input) := h.valid.during
  have hA : Arms ((s₀.run inputs).during false (s₀.run inputs).m input) :=
    ⟨h.arms.minted, h.arms.issued, h.arms.owed, h.arms.awaited⟩
  have t := (s₀.run inputs).call_trace h.valid ha
  have hp : input ≠ .poll_action := by
    rintro rfl
    simp [Session.asks] at hm
  obtain ⟨l, hl, hall⟩ := Trace.reads hv (by simpa [Session.during] using hp) t
  rw [Session.asks_of hp hl] at hm
  obtain ⟨d, d', n, t₁, e, t₂, happ, hn, hs⟩ := hall req w hm
  refine ⟨d, d', n, t₁, e, t₂, happ, hn, hs, ?_, ?_⟩
  · intro a haw
    exact ((Trace.arms hv hA t₁).issued w a haw).2 n hn
  · exact Trace.proven (a := s₀.Acked inputs) hv hA
      (fun x n hn hs => .inl (h.proven x n hn hs)) t₁ w n hn hs

/-! ### The action stream of every run -/

/-- The actions of a run are clean.  The queue is the end of the history; the
    attempts in it only grow; nothing names a handle after its farewell; a
    handle has one farewell once its node was removed and none before, and is
    then never given out again. -/
structure ActionStream (s₀ : Session) (inputs : List Input) : Prop where
  queue : ∃ gone, s₀.history inputs = gone ++ (s₀.run inputs).m.actions
  growing : ((s₀.history inputs).filterMap (·.as_watch)).Pairwise (·.attempt < ·.attempt)
  final : ∀ before after w, s₀.history inputs = before ++ .unwatch w :: after →
    ∀ action ∈ after, ¬ action.Names w
  live : ∀ w : WatchId, (s₀.run inputs).m.nodes[w]? ≠ none →
    (s₀.history inputs).count (.unwatch w) = 0
  removed : ∀ w : WatchId, w < (s₀.run inputs).m.watch_ids.next → w ∉ (s₀.run inputs).spare →
    (s₀.run inputs).m.nodes[w]? = none → (s₀.history inputs).count (.unwatch w) = 1
  gone : ∀ w more, Action.unwatch w ∈ s₀.history inputs → (s₀.run inputs).Drives false more →
    w < (s₀.run (inputs ++ more)).m.watch_ids.next ∧ w ∉ (s₀.run (inputs ++ more)).spare ∧
      (s₀.run (inputs ++ more)).m.nodes[w]? = none

/-- What one call of a run queues: arms under attempts that no arm before had, one
    farewell for each node it removes, and reads of directories whose arm was
    accepted first. -/
structure CallAsks (s₀ : Session) (inputs : List Input) (input : Input) : Prop where
  fresh : ∀ cmd, Action.watch cmd ∈ (s₀.run inputs).asks input →
    (s₀.run inputs).m.arm_attempts.next ≤ cmd.attempt ∧
      ∀ x a, Awaited (s₀.run inputs).m ((s₀.run inputs).moment false).g x a → a < cmd.attempt
  farewell : ∀ w : WatchId, (s₀.run inputs).m.nodes[w]? ≠ none →
    ((s₀.run inputs).step input).m.nodes[w]? = none →
      ((s₀.run inputs).asks input).count (.unwatch w) = 1
  armed : ∀ req w, Action.enumerate req w ∈ (s₀.run inputs).asks input →
    s₀.ArmedFirst inputs input req w

theorem Told.stream {s₀ : Session} (h : Told s₀ inputs) : ActionStream s₀ inputs where
  queue := h.queue
  growing := h.clean.growing
  final before after w he action hm := by
    have hp := h.clean.final
    rw [he, List.pairwise_append, List.pairwise_cons] at hp
    exact hp.2.1.1 action hm w rfl
  live w hl := by
    rw [List.count_eq_zero]
    intro hm
    exact hl ((h.clean.buried w).mp hm).2
  removed w hlt hsp hd := h.clean.count ((h.clean.buried w).mpr ⟨⟨hlt, hsp⟩, hd⟩)
  gone w more hm hd := h.dead hd hm

/-- The attempts a path issues are new. -/
theorem Trace.fresh (h : Valid c) (hp : c.g.call ≠ some .poll_action) (t : Trace c c') :
    c.m.arm_attempts.next ≤ c'.m.arm_attempts.next ∧
    ∃ l, c'.m.actions = c.m.actions ++ l ∧
      ∀ cmd, Action.watch cmd ∈ l → c.m.arm_attempts.next ≤ cmd.attempt := by
  induction t with
  | refl => exact ⟨Nat.le_refl _, [], by simp, by simp⟩
  | @tail d d' t e ih =>
    obtain ⟨hle, l, ha, hl⟩ := ih
    rcases e.issues (Trace.valid h t).toInv with ⟨l', i⟩ | p
    · refine ⟨Nat.le_trans hle i.attempts, l ++ l', by rw [i.appended, ha, List.append_assoc],
        fun cmd hm => ?_⟩
      rcases List.mem_append.mp hm with hm | hm
      · exact hl cmd hm
      · cases i.issue with
        | watch hn' hat hs hlo =>
          obtain rfl : cmd = _ := by simpa using hm
          exact Nat.le_trans hle hlo
        | quiet => simp at hm
        | enumerate => simp at hm
        | unwatch => simp at hm
        | stat => simp at hm
    · exact absurd (Trace.call t ▸ p.call) hp

theorem Told.asks {s₀ : Session} (h : Told s₀ inputs)
    (ha : (s₀.run inputs).Admits false input) : CallAsks s₀ inputs input where
  fresh cmd hm := by
    have hp : input ≠ .poll_action := by
      rintro rfl
      simp [Session.asks] at hm
    have hv : Valid ((s₀.run inputs).during false (s₀.run inputs).m input) := h.valid.during
    obtain ⟨-, l, hl, hall⟩ := Trace.fresh hv
      (by simpa [Session.during] using hp) ((s₀.run inputs).call_trace h.valid ha)
    rw [Session.asks_of hp hl] at hm
    refine ⟨hall cmd hm, fun x a haw => ?_⟩
    exact Nat.lt_of_lt_of_le (h.arms.issued x a haw).1 (hall cmd hm)
  farewell w hl hd := by
    have hrun : s₀.run (inputs ++ [input]) = (s₀.run inputs).step input := by
      rw [Session.run_append]
      rfl
    have hstep := h.step ha
    have hu := (h.step ha).clean
    obtain ⟨n, hn⟩ := Option.ne_none_iff_exists'.mp hl
    have hused : Used ((s₀.run inputs).moment false) w :=
      h.valid.toInv.used (c := (s₀.run inputs).moment false) hn
    have before := h.stream.live w hl
    have hm : Action.unwatch w ∈ s₀.history (inputs ++ [input]) := by
      rw [hu.buried, hrun]
      have along : ∀ {c c' : Moment}, Trace c c' → Valid c → Used c w → Used c' w := by
        intro c c' t hv hu
        induction t with
        | refl => exact hu
        | tail t e ih => exact e.still_used (Trace.valid hv t).toInv ih
      have := along ((s₀.run inputs).call_trace h.valid ha) h.valid.during ⟨hused.1, hused.2⟩
      exact ⟨⟨this.1, this.2⟩, hd⟩
    have total := hu.count hm
    rw [Session.history_append, List.count_append, before] at total
    simpa [Session.history] using total
  armed req w hm := h.reads ha hm

/-- A poll hands out an arm of a live handle only under its current attempt. -/
theorem poll_current (m : Monitor) {cmd : WatchCommand}
    (hp : (m.step .poll_action).2 = .action (some (.watch cmd))) {n : WatchNode}
    (hn : m.nodes[cmd.id]? = some n) : n.attempt = cmd.attempt := by
  have hp : m.poll_action.2 = some (.watch cmd) := by simpa [Monitor.step] using hp
  unfold Monitor.poll_action at hp
  rcases poll_action_loop_eq (m := m) m.actions with
    ⟨action, rest, skipped, -, -, hs, he⟩ | ⟨-, he⟩
  · rw [he] at hp
    obtain rfl : action = .watch cmd := Option.some.inj hp
    simpa [Monitor.is_superseded_arm, Action.as_watch, hn] using hs
  · rw [he] at hp
    cases hp

/-- In every run the action stream is clean, each call asks cleanly, and a poll
    hands out an arm of a live handle only under the handle's current attempt. -/
theorem action_stream {caps : Capabilities} {inputs : List Input}
    (hd : (Session.new caps).Drives false inputs) :
    ActionStream (Session.new caps) inputs ∧
    (∀ input, ((Session.new caps).run inputs).Admits false input →
      CallAsks (Session.new caps) inputs input) ∧
    ∀ cmd n, (((Session.new caps).run inputs).m.step .poll_action).2 =
        .action (some (.watch cmd)) →
      ((Session.new caps).run inputs).m.nodes[cmd.id]? = some n → n.attempt = cmd.attempt := by
  have h : Told (Session.new caps) inputs := (told_new caps).run hd
  refine ⟨h.stream, fun input ha => h.asks ha, fun cmd n hp hn => ?_⟩
  exact poll_current _ hp hn

/-- The same, of a root that was widened. -/
theorem widened_action_stream : ActionStream (Session.new ⟨false, false⟩) widening :=
  (action_stream widening_drives).1

end Proto
