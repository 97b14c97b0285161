import Tributaries.Proto.Integrity

/-! # The change stream of a scope

  Epoch exactness: in the sequence of all changes ever queued for a scope,
  a `Rescan` carries the next epoch and every other change the epoch of
  the last `Rescan`.  One effect queues at most one change, under the
  epoch the scope stands at.
-/

open Std Collections SlotForest Forest

namespace Proto

variable {m m' m'' : Monitor} {g g' : Ghost} {scope : ScopeId}

/-! ### Exact sequences -/

/-- The changes of one scope. -/
def of_scope (scope : ScopeId) (changes : List Change) : List Change :=
  changes.filter fun change => change.scope == scope

/-- The epoch a scope stands at after a sequence of its changes. -/
def last_epoch : Epoch → List Change → Epoch
  | e, [] => e
  | _, change :: changes => last_epoch change.epoch changes

/-- Each `Rescan` carries the next epoch, each other change the current one. -/
def Exact : Epoch → List Change → Prop
  | _, [] => True
  | e, change :: changes =>
    change.epoch = (if change.kind.is_rescan then e.next else e) ∧ Exact change.epoch changes

@[simp] theorem of_scope_append (l l' : List Change) :
    of_scope scope (l ++ l') = of_scope scope l ++ of_scope scope l' :=
  List.filter_append ..

theorem last_epoch_append (e : Epoch) (l l' : List Change) :
    last_epoch e (l ++ l') = last_epoch (last_epoch e l) l' := by
  induction l generalizing e with
  | nil => rfl
  | cons change l ih => exact ih change.epoch

theorem exact_append {e : Epoch} {l l' : List Change} :
    Exact e (l ++ l') ↔ Exact e l ∧ Exact (last_epoch e l) l' := by
  induction l generalizing e with
  | nil => simp [Exact, last_epoch]
  | cons change l ih => simp [Exact, last_epoch, ih, and_assoc]

theorem next_cases {e : Epoch} (h : e.as_u64 ≤ u64Max) :
    e.next.as_u64 ≤ u64Max ∧ (e.next.as_u64 = e.as_u64 + 1 ∨ e.next.as_u64 = u64Max) := by
  change min (e.as_u64 + 1) u64Max ≤ u64Max ∧
    (min (e.as_u64 + 1) u64Max = e.as_u64 + 1 ∨ min (e.as_u64 + 1) u64Max = u64Max)
  omega

/-- The epochs of a sequence never go back. -/
theorem Exact.between {e : Epoch} {l : List Change} (h : Exact e l) (he : e.as_u64 ≤ u64Max) :
    (last_epoch e l).as_u64 ≤ u64Max ∧ e.as_u64 ≤ (last_epoch e l).as_u64 ∧
      ∀ change ∈ l, e.as_u64 ≤ change.epoch.as_u64 ∧
        change.epoch.as_u64 ≤ (last_epoch e l).as_u64 := by
  induction l generalizing e with
  | nil => exact ⟨he, Nat.le_refl _, by simp⟩
  | cons change l ih =>
    have hc : e.as_u64 ≤ change.epoch.as_u64 ∧ change.epoch.as_u64 ≤ u64Max := by
      obtain ⟨h₁, h₂⟩ := next_cases he
      rw [h.1]
      split <;> omega
    obtain ⟨h₁, h₂, h₃⟩ := ih h.2 hc.2
    refine ⟨h₁, Nat.le_trans hc.1 h₂, fun c hm => ?_⟩
    rcases List.mem_cons.mp hm with rfl | hm
    · exact ⟨hc.1, h₂⟩
    · exact ⟨Nat.le_trans hc.1 (h₃ c hm).1, (h₃ c hm).2⟩

/-- The last announced epoch of a sequence. -/
def announced (e : Epoch) (l : List Change) : Epoch :=
  (((l.filter (·.kind.is_rescan)).getLast?).map (·.epoch)).getD e

/-- The epoch a scope stands at is the one last announced. -/
theorem Exact.announced {e : Epoch} {l : List Change} (h : Exact e l) :
    last_epoch e l = announced e l := by
  induction l generalizing e with
  | nil => rfl
  | cons change l ih =>
    rw [last_epoch, ih h.2]
    unfold Proto.announced
    cases hk : change.kind.is_rescan with
    | true =>
      simp only [List.filter_cons, hk, if_true, List.getLast?_cons]
      cases (l.filter (·.kind.is_rescan)).getLast? <;> rfl
    | false =>
      have he := h.1
      rw [hk] at he
      simp only [List.filter_cons, hk, Bool.false_eq_true, if_false] at he ⊢
      rw [he]

/-- The epoch a scope stands at is that of its last change. -/
theorem last_epoch_getLast (e : Epoch) (l : List Change) :
    last_epoch e l = ((l.getLast?).map (·.epoch)).getD e := by
  induction l generalizing e with
  | nil => rfl
  | cons change l ih =>
    rw [last_epoch, ih, List.getLast?_cons]
    cases l.getLast? <;> rfl

/-! ### Effects on the stream -/

/-- What a call does to one scope's stream: changes are queued at its end,
    under the epochs they find. -/
def Emits (scope : ScopeId) (m m' : Monitor) : Prop :=
  ∃ fresh, m'.events = m.events ++ fresh ∧ Exact (m.epoch_of scope) (of_scope scope fresh) ∧
    m'.epoch_of scope = last_epoch (m.epoch_of scope) (of_scope scope fresh)

theorem Emits.trans (h : Emits scope m m') (h' : Emits scope m' m'') : Emits scope m m'' := by
  obtain ⟨l, he, hx, hl⟩ := h
  obtain ⟨l', he', hx', hl'⟩ := h'
  refine ⟨l ++ l', by rw [he', he, List.append_assoc], ?_, ?_⟩
  · rw [of_scope_append, exact_append, ← hl]
    exact ⟨hx, hx'⟩
  · rw [of_scope_append, last_epoch_append, ← hl, hl']

/-- Nothing is queued and no epoch moves. -/
theorem Emits.quiet (he : m'.events = m.events) (hs : m'.scope_epochs = m.scope_epochs) :
    Emits scope m m' := by
  refine ⟨[], by rw [he, List.append_nil], trivial, ?_⟩
  simp only [Monitor.epoch_of, hs]
  rfl

theorem emit_emits {scope' : ScopeId} {location : Location} {kind : ChangeKind}
    {evidence : Evidence} {is_dir : Option Bool} (hk : kind.is_rescan = false) :
    Emits scope m (m.emit scope' location kind evidence is_dir).1 := by
  rcases emit_cases (m := m) scope' location kind evidence is_dir with h | h
  · rw [h]
    exact .quiet rfl rfl
  · rw [h]
    refine ⟨_, rfl, ?_, ?_⟩
    · by_cases hs : scope' = scope
      · subst hs
        simp [of_scope, Exact, hk]
      · simp [of_scope, hs, Exact]
    · by_cases hs : scope' = scope
      · subst hs
        simp [of_scope, last_epoch]
        rfl
      · simp [of_scope, hs, last_epoch]
        rfl

theorem mint_emits (scope' : ScopeId) (location : Location) :
    Emits scope m (m.mint_rescan scope' location).1 := by
  rcases mint_cases (m := m) scope' location with ⟨-, h⟩ | h
  · rw [h]
    exact .quiet rfl rfl
  · rw [h]
    have hat : (m.bump_epoch scope').epoch_of scope' = (m.epoch_of scope').next := by
      simp [Monitor.bump_epoch, Monitor.epoch_of]
    have hoff : scope' ≠ scope → (m.bump_epoch scope').epoch_of scope = m.epoch_of scope := by
      intro hs
      simp only [Monitor.bump_epoch, Monitor.epoch_of, get_insert, if_neg hs]
    refine ⟨_, rfl, ?_, ?_⟩
    · by_cases hs : scope' = scope
      · subst hs
        simp [of_scope, Exact, hat, ChangeKind.is_rescan]
      · simp [of_scope, hs, Exact]
    · by_cases hs : scope' = scope
      · subst hs
        simp [of_scope, last_epoch, hat]
        exact hat
      · simp [of_scope, hs, last_epoch]
        exact hoff hs

theorem Deliver.emits (h : Deliver m m') : Emits scope m m' := by
  cases h with
  | emit hk => exact emit_emits hk
  | mint => exact mint_emits _ _
  | raise => exact .quiet rfl rfl
  | @settle scope' =>
    unfold Monitor.settle_bridge
    split
    · exact .quiet rfl rfl
    · dsimp only
      split
      · obtain ⟨b, hb⟩ := m.saw_rescan_shape scope'
        have h₁ : Emits scope m (m.bridge_saw_rescan scope') := by
          rw [hb]
          exact .quiet rfl rfl
        exact (h₁.trans (mint_emits scope' [] (m := m.bridge_saw_rescan scope'))).trans (.quiet rfl rfl)
      · exact .quiet rfl rfl

theorem Edit.emits {c c' : Moment} (h : Inv c) (e : Edit c c') : Emits scope c.m c'.m := by
  cases e with
  | @register m g scope mask caps hw hr =>
    obtain ⟨_, _, _, _, -, -, -, -, -, -, -, -, he⟩ := Monitor.register_eq mask caps hr
    rw [he]
    exact .quiet rfl rfl
  | @plant m g parent scope name is_dir identity hw hp ha hs =>
    have hpn : parent ≠ m.watch_ids.next := by
      rintro rfl
      exact Nat.lt_irrefl _ ha.minted
    rw [Monitor.plant_eq _ _ _ _ hpn]
    exact .quiet rfl rfl
  | reserve => exact .quiet rfl rfl
  | @graft m g scope reserved last old_root =>
    obtain ⟨_, he, -⟩ := m.graft_eq scope reserved last old_root
    rw [he]
    exact .quiet rfl rfl
  | @hold m g scope src parent name hw ht hp hs hsc =>
    have hh := h.unheld hp hs
    obtain ⟨_, _, _, -, -, he⟩ := Monitor.take_source_eq scope hp hh
    rw [he]
    exact .quiet rfl rfl
  | @rekey m g child new_parent new_name =>
    obtain ⟨_, he⟩ := m.rekey_eq child new_parent new_name
    rw [he]
    exact .quiet rfl rfl
  | uproot => exact .quiet rfl rfl
  | @remove m g walk id stack node =>
    obtain ⟨_, _, _, -, -, he, -⟩ := m.remove_node_eq id node walk.erased
    rw [he]
    exact .quiet rfl rfl

theorem Marking.emits {c c' : Moment} (e : Marking c c') : Emits scope c.m c'.m := by
  cases e with
  | record_marker => exact .quiet rfl rfl
  | @stage m g dir scope =>
    obtain ⟨_, _, he, -⟩ := stage_adoption_eq (m := m) dir scope
    rw [he]
    exact .quiet rfl rfl
  | @take_marker m g parent scope =>
    rw [(m.take_adoption_marker_eq parent scope).1]
    exact .quiet rfl rfl
  | unstage => exact .quiet rfl rfl

/-- Every effect but a poll queues exactly. -/
theorem Effect.emits {c c' : Moment} (h : Inv c) (hc : c.g.call ≠ some .poll_event)
    (e : Effect c c') : Emits scope c.m c'.m := by
  have state : ∀ (m : Monitor) id state, Emits scope m (m.set_state id state) := by
    intro m id state
    obtain ⟨_, _, _, he⟩ := m.set_state_shape id state
    rw [he]
    exact .quiet rfl rfl
  cases e with
  | edit e => exact e.emits h
  | mark e => exact e.emits
  | deliver d => exact d.emits
  | ledger l =>
    rw [l.shape]
    exact .quiet rfl rfl
  | work w =>
    rw [w.shape]
    exact .quiet rfl rfl
  | @ask m g parent scope name =>
    obtain ⟨_, _, _, _, _, -, -, -, he⟩ := queue_stat_eq (m := m) parent scope name
    rw [he]
    exact .quiet rfl rfl
  | ack => exact state _ _ _
  | @finish m g req dir =>
    exact .trans (.quiet (m := m) rfl rfl) (state _ _ _)
  | @reset m g root =>
    obtain ⟨_, _, _, _, _, he⟩ := m.reset_root_shape root
    rw [he]
    exact .quiet rfl rfl
  | @close_drop m g walk =>
    rcases discharge_cases (m := m) walk with he | ⟨_, d₁, d₂⟩ | l
    · rw [he]
      exact .quiet rfl rfl
    · exact d₁.emits.trans d₂.emits
    · rw [l.shape]
      exact .quiet rfl rfl
  | @park m g scope cookie pending =>
    obtain ⟨_, he⟩ := m.park_shape scope cookie pending
    rw [he]
    exact .quiet rfl rfl
  | @release m g scope src =>
    obtain ⟨_, _, he⟩ := m.release_hold_shape scope src
    rw [he]
    exact .quiet rfl rfl
  | @reprofile m g scope caps =>
    obtain ⟨_, _, he⟩ := m.reprofile_shape scope caps
    rw [he]
    exact .quiet rfl rfl
  | @dispatch m g action rest =>
    unfold Monitor.stamp_dispatch
    split <;> exact .quiet rfl rfl
  | adopt => exact .quiet rfl rfl
  | rest => exact .quiet rfl rfl
  | respond => exact .quiet rfl rfl
  | identify => exact .quiet rfl rfl
  | land => exact .quiet rfl rfl
  | move_root => exact .quiet rfl rfl
  | open_drop => exact .quiet rfl rfl
  | skip_dead => exact .quiet rfl rfl
  | take => exact .quiet rfl rfl
  | remark => exact .quiet rfl rfl
  | purge => exact .quiet rfl rfl
  | forget_scope => exact .quiet rfl rfl
  | forget_registration => exact .quiet rfl rfl
  | forget_book => exact .quiet rfl rfl
  | skip_action => exact .quiet rfl rfl
  | poll_event hp => exact absurd hp hc

/-! ### A call stays what it is -/

theorem Effect.call {c c' : Moment} (e : Effect c c') : c'.g.call = c.g.call := by
  cases e with
  | edit e => cases e <;> rfl
  | mark e => cases e <;> rfl
  | _ => rfl

theorem Trace.call {c c' : Moment} (t : Trace c c') : c'.g.call = c.g.call := by
  induction t with
  | refl => rfl
  | tail _ e ih => exact e.call.trans ih

theorem Trace.emits {c c' : Moment} (h : Valid c) (hc : c.g.call ≠ some .poll_event)
    (t : Trace c c') : Emits scope c.m c'.m := by
  induction t with
  | refl => exact .quiet rfl rfl
  | tail t e ih => exact ih.trans (e.emits (Trace.valid h t).toInv (Trace.call t ▸ hc))

/-! ### The stream of a run -/

/-- What a poll hands out. -/
def Output.polled : Output → List Change
  | .change polled => polled.toList
  | _ => []

/-- The changes polled in a run, in order. -/
def Session.delivered : Session → List Input → List Change
  | _, [] => []
  | s, input :: inputs => (s.m.step input).2.polled ++ (s.step input).delivered inputs

/-- All changes ever queued in a run, in order. -/
def Session.queued (s : Session) (inputs : List Input) : List Change :=
  s.delivered inputs ++ (s.run inputs).m.events

theorem Session.delivered_append (s : Session) (l l' : List Input) :
    s.delivered (l ++ l') = s.delivered l ++ (s.run l).delivered l' := by
  induction l generalizing s with
  | nil => rfl
  | cons input l ih =>
    rw [List.cons_append, delivered, delivered, ih, List.append_assoc]
    rfl

/-- One call appends to the stream what it queues. -/
theorem Session.step_stream {s : Session} {strict : Bool} {input : Input}
    (h : Valid (s.moment strict)) (ha : s.Admits strict input) :
    ∃ fresh, (s.m.step input).2.polled ++ (s.step input).m.events = s.m.events ++ fresh ∧
      ∀ scope, Exact (s.m.epoch_of scope) (of_scope scope fresh) ∧
        (s.step input).m.epoch_of scope =
          last_epoch (s.m.epoch_of scope) (of_scope scope fresh) := by
  by_cases hp : input = .poll_event
  · subst hp
    refine ⟨[], ?_, fun scope => ⟨trivial, ?_⟩⟩
    · change Output.polled (.change s.m.poll_event.2) ++ s.m.poll_event.1.events = _
      unfold Monitor.poll_event
      split
      · rename_i he
        simp [Output.polled, he]
      · rename_i change rest he
        simp [Output.polled, he]
    · change s.m.poll_event.1.epoch_of scope = _
      unfold Monitor.poll_event
      split <;> rfl
  · have hnone : (s.m.step input).2.polled = [] := by
      cases input with
      | poll_event => exact absurd rfl hp
      | _ => rfl
    have emits : ∀ scope, Emits scope s.m (s.step input).m := fun scope =>
      Trace.emits (c := s.during strict s.m input) h.during (by simpa [Session.during] using hp)
        (s.call_trace h ha)
    obtain ⟨fresh, he, -⟩ := emits ⟨1, Nat.one_pos⟩
    refine ⟨fresh, by rw [hnone, List.nil_append, he], fun scope => ?_⟩
    obtain ⟨fresh', he', hx, hl⟩ := emits scope
    obtain rfl : fresh = fresh' := List.append_cancel_left (he.symm.trans he')
    exact ⟨hx, hl⟩

/-- Every run queues each scope's changes exactly. -/
theorem Session.run_stream {strict : Bool} {inputs : List Input} :
    ∀ {s : Session}, Valid (s.moment strict) → s.Drives strict inputs →
    ∃ fresh, s.queued inputs = s.m.events ++ fresh ∧
      ∀ scope, Exact (s.m.epoch_of scope) (of_scope scope fresh) ∧
        (s.run inputs).m.epoch_of scope =
          last_epoch (s.m.epoch_of scope) (of_scope scope fresh) := by
  induction inputs with
  | nil =>
    intro s _ _
    refine ⟨[], by simp [queued, delivered], fun scope => ⟨trivial, rfl⟩⟩
  | cons input inputs ih =>
    intro s h hd
    obtain ⟨fresh, he, hx⟩ := s.step_stream h hd.1
    obtain ⟨fresh', he', hx'⟩ := ih (s.step_valid h hd.1) hd.2
    refine ⟨fresh ++ fresh', ?_, fun scope => ?_⟩
    · have hq : s.queued (input :: inputs) =
          (s.m.step input).2.polled ++ (s.step input).queued inputs := by
        simp only [queued, delivered, run_cons, List.append_assoc]
      rw [hq, he', ← List.append_assoc, he, List.append_assoc]
    · rw [of_scope_append, exact_append, last_epoch_append, ← (hx scope).2]
      exact ⟨⟨(hx scope).1, (hx' scope).1⟩, (hx' scope).2⟩

/-! ### Epoch exactness -/

/-- The epochs of a scope's whole stream, `standing` the one the scope
    stands at and `delivered` what was polled of it. -/
structure EpochExact (stream delivered : List Change) (standing : Epoch) : Prop where
  rescan : ∀ before change after, stream = before ++ change :: after →
    change.kind = .rescan → change.epoch.as_u64 =
      (((before.getLast?).map (·.epoch)).getD Epoch.START).as_u64 + 1
  other : ∀ before change after, stream = before ++ change :: after →
    change.kind ≠ .rescan → change.epoch = announced Epoch.START before
  stands : standing = announced Epoch.START stream
  ordered : ∀ before change after, stream = before ++ change :: after →
    ∀ earlier ∈ before, earlier.epoch.as_u64 ≤ change.epoch.as_u64 ∧
      (change.kind = .rescan → earlier.epoch.as_u64 < change.epoch.as_u64)
  known : ∀ change ∈ delivered, change.epoch ≠ Epoch.START →
    ∃ rescan ∈ delivered, rescan.kind = .rescan ∧ rescan.epoch = change.epoch

theorem is_rescan_iff {kind : ChangeKind} : kind.is_rescan = true ↔ kind = .rescan := by
  cases kind <;> simp [ChangeKind.is_rescan]

/-- An exact sequence whose last epoch has not saturated, in full. -/
theorem Exact.spelled {stream : List Change} {k : Nat} (h : Exact Epoch.START stream)
    (hm : (last_epoch Epoch.START stream).as_u64 < u64Max) :
    EpochExact stream (stream.take k) (last_epoch Epoch.START stream) := by
  have hstart : Epoch.START.as_u64 ≤ u64Max := Nat.zero_le _
  have cut : ∀ before change after, stream = before ++ change :: after →
      Exact Epoch.START before ∧
        change.epoch = (if change.kind.is_rescan then (last_epoch Epoch.START before).next
          else last_epoch Epoch.START before) ∧ change.epoch.as_u64 < u64Max ∧
        (last_epoch Epoch.START before).as_u64 ≤ u64Max := by
    rintro before change after rfl
    have hall := (h.between hstart).2.2 change (by simp)
    obtain ⟨h₁, h₂, -⟩ := exact_append.mp h
    exact ⟨h₁, h₂, by omega, (h₁.between hstart).1⟩
  have step : ∀ before change after, stream = before ++ change :: after →
      change.kind = .rescan →
        change.epoch.as_u64 = (last_epoch Epoch.START before).as_u64 + 1 := by
    intro before change after he hk
    obtain ⟨-, h₂, h₃, h₄⟩ := cut before change after he
    rw [if_pos (is_rescan_iff.mpr hk)] at h₂
    obtain ⟨-, hn⟩ := next_cases h₄
    rw [← h₂] at hn
    omega
  have level : ∀ before change after, stream = before ++ change :: after →
      change.kind ≠ .rescan → change.epoch = last_epoch Epoch.START before := by
    intro before change after he hk
    obtain ⟨-, h₂, -⟩ := cut before change after he
    rwa [if_neg (by rwa [is_rescan_iff])] at h₂
  refine ⟨fun before change after he hk => ?_, fun before change after he hk => ?_,
    h.announced, fun before change after he earlier hm => ?_, fun change hm hne => ?_⟩
  · rw [← last_epoch_getLast]
    exact step before change after he hk
  · rw [level before change after he hk]
    exact (cut before change after he).1.announced
  · have hle := (((cut before change after he).1.between hstart).2.2 earlier hm).2
    by_cases hk : change.kind = .rescan
    · have := step before change after he hk
      exact ⟨by omega, fun _ => by omega⟩
    · rw [level before change after he hk]
      exact ⟨hle, fun hk' => absurd hk' hk⟩
  · obtain ⟨before, after, he⟩ := List.append_of_mem hm
    have hs : stream = before ++ change :: (after ++ stream.drop k) := by
      have := List.take_append_drop k stream
      rw [he] at this
      rw [List.append_assoc, List.cons_append] at this
      exact this.symm
    by_cases hk : change.kind = .rescan
    · exact ⟨change, hm, hk, rfl⟩
    · -- the epoch of another change is that of the last `Rescan` before it
      have hlast := (level before change _ hs hk).trans (cut before change _ hs).1.announced
      unfold Proto.announced at hlast
      cases hl : (before.filter (·.kind.is_rescan)).getLast? with
      | none =>
        rw [hl] at hlast
        exact absurd hlast hne
      | some r =>
        rw [hl] at hlast
        have hr := List.mem_filter.mp (List.mem_of_getLast? hl)
        exact ⟨r, by rw [he]; simp [hr.1], is_rescan_iff.mp hr.2, hlast.symm⟩

/-- In every run, every scope short of saturation has an exact stream, and a
    call that queues no `Rescan` of the scope leaves its epoch unchanged. -/
theorem epoch_exact {caps : Capabilities} {inputs : List Input} {scope : ScopeId}
    (hd : (Session.new caps).Drives false inputs)
    (hm : (((Session.new caps).run inputs).m.epoch_of scope).as_u64 < u64Max) :
    EpochExact (of_scope scope ((Session.new caps).queued inputs))
      (of_scope scope ((Session.new caps).delivered inputs))
      (((Session.new caps).run inputs).m.epoch_of scope) ∧
    ∀ input, ((Session.new caps).run inputs).Admits false input →
      ∃ fresh, (Session.new caps).queued (inputs ++ [input]) =
          (Session.new caps).queued inputs ++ fresh ∧
        ((∀ change ∈ of_scope scope fresh, change.kind ≠ .rescan) →
          (((Session.new caps).run inputs).step input).m.epoch_of scope =
            ((Session.new caps).run inputs).m.epoch_of scope) := by
  obtain ⟨stream, he, hx⟩ := Session.run_stream (valid_new caps) hd
  have he : (Session.new caps).queued inputs = stream := he
  obtain ⟨hx, hl⟩ := hx scope
  have hl : _ = last_epoch Epoch.START (of_scope scope stream) := hl
  have hx : Exact Epoch.START (of_scope scope stream) := hx
  refine ⟨?_, fun input ha => ?_⟩
  · rw [he, hl]
    have htake : of_scope scope ((Session.new caps).delivered inputs) =
        (of_scope scope stream).take
          (of_scope scope ((Session.new caps).delivered inputs)).length := by
      rw [← he, Session.queued, of_scope_append, List.take_left]
    rw [htake]
    exact hx.spelled (hl ▸ hm)
  · obtain ⟨fresh, hf, hfx⟩ := Session.step_stream (Session.run_valid hd) ha
    obtain ⟨hfx, hfl⟩ := hfx scope
    refine ⟨fresh, ?_, fun hno => ?_⟩
    · rw [Session.queued, Session.queued, Session.delivered_append, Session.run_append,
        List.append_assoc, List.append_assoc]
      congr 1
      simp only [Session.delivered, List.append_nil]
      exact hf
    · rw [hfl, hfx.announced]
      unfold announced
      rw [List.filter_eq_nil_iff.mpr]
      · rfl
      · intro change hc
        rw [is_rescan_iff]
        exact hno change hc

/-- A registered scope that lost something once and was polled. -/
theorem reported_epoch_exact :
    EpochExact (of_scope ⟨1, Nat.one_pos⟩ ((Session.new ⟨false, false⟩).queued
        (widening ++ [.report_loss ⟨1, Nat.one_pos⟩, .poll_event])))
      (of_scope ⟨1, Nat.one_pos⟩ ((Session.new ⟨false, false⟩).delivered
        (widening ++ [.report_loss ⟨1, Nat.one_pos⟩, .poll_event])))
      (((Session.new ⟨false, false⟩).run
        (widening ++ [.report_loss ⟨1, Nat.one_pos⟩, .poll_event])).m.epoch_of
          ⟨1, Nat.one_pos⟩) :=
  have losing : ((Session.new ⟨false, false⟩).run widening).Drives false
      [.report_loss ⟨1, Nat.one_pos⟩, .poll_event] := ⟨trivial, trivial, trivial⟩
  (epoch_exact ((Session.drives_append _ _ _).mpr ⟨widening_drives, losing⟩) (by decide)).1

end Proto
