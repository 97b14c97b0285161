import Tributaries.Proto.Windows

/-! # Halves that an instruction overtakes

  A parked half queues nothing, so an overflow marks the halves its
  `Rescan` runs past.  The mark comes first and nothing in the call takes
  it back; what follows reads again, and reading closes no window.
-/

open Std Collections SlotForest Forest

namespace Proto

variable {m m' m'' : Monitor} {k : Option Answer} {P : ScopeId → Location → Prop}
variable {scope s : ScopeId} {loc source : Location} {cookie : MoveCookie} {half : PendingMove}

/-! ### Marks -/

/-- The mark a half gets. -/
def marked (half : PendingMove) : PendingMove := { half with dirty := true }

theorem foldl_mark {key : PendingKey} (keys : List PendingKey) :
    ∀ (half : PendingMove) {m : Monitor}, m.pending_moves[key]? = some half → (keys.foldl
      (fun m key => m.modify_half key fun p => { p with dirty := true }) m).pending_moves[key]? =
        some (if key ∈ keys then marked half else half) := by
  induction keys with
  | nil => exact fun _ _ h => h
  | cons other keys ih =>
    intro half m hk
    rw [List.foldl_cons]
    by_cases he : other = key
    · subst he
      rw [ih (marked half) (by simp [Monitor.modify_half, hk, marked])]
      simp [marked]
    · rw [ih half (by simp [Monitor.modify_half, get_modify, hk, he])]
      simp [Ne.symm he]

/-- A half whose source touches the place is marked. -/
theorem dirty_touching_marks (hk : m.pending_moves[(scope, cookie)]? = some half)
    (hs : m.live_pending_from half = some source)
    (ht : Monitor.locations_touch source loc = true) :
    (m.dirty_pending_sources_touching scope loc none none).pending_moves[(scope, cookie)]? =
      some (marked half) := by
  unfold Monitor.live_pending_from at hs
  split at hs
  · rename_i hlive
    obtain rfl := Option.some.inj hs
    unfold Monitor.dirty_pending_sources_touching
    rw [foldl_mark _ half hk]
    cases hd : half.dirty with
    | true =>
      -- a half that was marked before is passed over
      have : marked half = half := by rw [marked, ← hd]
      rw [this, ite_self]
    | false =>
      rw [if_pos]
      unfold Monitor.halves_touching
      rw [List.mem_map]
      refine ⟨((scope, cookie), half), ?_, rfl⟩
      rw [List.mem_filter]
      refine ⟨mem_scope_halves.mpr ⟨hk, rfl⟩, ?_⟩
      simp [hd, hlive, ht]
  · cases hs

/-- Calm effects leave a half parked at its anchor, and its mark on it. -/
theorem Calm.keeps_half (h : Calm k m m') {key : PendingKey} (hk : m.pending_moves[key]? = some half) :
    ∃ half', m'.pending_moves[key]? = some half' ∧ half'.from_parent = half.from_parent ∧
      (half.dirty = true → half'.dirty = true) := by
  have same : m'.pending_moves = m.pending_moves →
      ∃ half', m'.pending_moves[key]? = some half' ∧ half'.from_parent = half.from_parent ∧
        (half.dirty = true → half'.dirty = true) :=
    fun he => ⟨half, by rw [he, hk], rfl, fun hd => hd⟩
  cases h with
  | deliver h =>
    apply same
    rw [h.shape]
    rfl
  | ledger h =>
    apply same
    rw [h.shape]
    rfl
  | work h =>
    apply same
    rw [h.shape]
    rfl
  | @remark other f hf =>
    by_cases he : other = key
    · subst he
      refine ⟨f half, ?_, hf.from_parent half, hf.dirty half⟩
      simp [Monitor.modify_half, hk]
    · refine ⟨half, ?_, rfl, fun hd => hd⟩
      simp [Monitor.modify_half, get_modify, hk, he]

theorem Calms.keeps_half (h : Calms k m m') {key : PendingKey}
    (hk : m.pending_moves[key]? = some half) :
    ∃ half', m'.pending_moves[key]? = some half' ∧ half'.from_parent = half.from_parent ∧
      (half.dirty = true → half'.dirty = true) := by
  induction h with
  | refl => exact ⟨half, hk, rfl, fun hd => hd⟩
  | tail _ e ih =>
    obtain ⟨half₁, hk₁, hp₁, hd₁⟩ := ih
    obtain ⟨half₂, hk₂, hp₂, hd₂⟩ := e.keeps_half hk₁
    exact ⟨half₂, hk₂, hp₂.trans hp₁, fun hd => hd₂ (hd₁ hd)⟩

/-- A mark stays on through calm effects. -/
theorem Calms.stays_marked (h : Calms k m m') {key : PendingKey} {half' : PendingMove}
    (hk : m.pending_moves[key]? = some (marked half)) (hk' : m'.pending_moves[key]? = some half') :
    half'.dirty = true := by
  obtain ⟨half₁, hk₁, -, hd⟩ := h.keeps_half hk
  obtain rfl := Option.some.inj (hk'.symm.trans hk₁)
  exact hd rfl

/-! ### What a call instructs -/

/-- The changes queued are at places `P` names, and no window and no settled
    scope is new. -/
structure Instructs (P : ScopeId → Location → Prop) (m m' : Monitor) : Prop where
  events : ∀ change ∈ m'.events, change ∈ m.events ∨ P change.scope change.location
  fresh : ∀ (s : ScopeId) (flags : BridgeFlags), m'.bridge[s]? = some flags →
    flags.fresh_rearm = true →
      ∃ flags' : BridgeFlags, m.bridge[s]? = some flags' ∧ flags'.fresh_rearm = true
  settled : ∀ s, m'.rearm_settled s = true → m.rearm_settled s = true

namespace Instructs

theorem of_eq (he : m'.events = m.events) (hb : m'.bridge = m.bridge)
    (hr : m'.rearm_pending = m.rearm_pending) : Instructs P m m' := by
  refine ⟨fun change hc => .inl (he ▸ hc), fun s flags hf hfr => ⟨flags, hb ▸ hf, hfr⟩, ?_⟩
  intro s hs
  rwa [settled_congr hr] at hs

theorem refl (m : Monitor) : Instructs P m m := of_eq rfl rfl rfl

theorem trans (h : Instructs P m m') (h' : Instructs P m' m'') : Instructs P m m'' := by
  constructor
  · intro change hc
    rcases h'.events change hc with hc | hc
    · exact h.events change hc
    · exact .inr hc
  · intro s flags hf hfr
    obtain ⟨flags', hf', hfr'⟩ := h'.fresh s flags hf hfr
    exact h.fresh s flags' hf' hfr'
  · intro s hs
    exact h.settled s (h'.settled s hs)

theorem queued (h : Instructs P m m') (actions : List Action) :
    Instructs P m { m' with actions := actions } := ⟨h.events, h.fresh, h.settled⟩

theorem foldl {α : Type} {f : Monitor → α → Monitor} (l : List α)
    (h : ∀ m, ∀ a ∈ l, Instructs P m (f m a)) (m : Monitor) : Instructs P m (l.foldl f m) := by
  induction l generalizing m with
  | nil => exact refl m
  | cons a l ih =>
    exact (h m a List.mem_cons_self).trans
      (ih (fun m b hb => h m b (List.mem_cons_of_mem a hb)) (f m a))

theorem backed (h : Instructs P m m') (hb : Backed m) : Backed m' := by
  intro s flags hf hfr
  obtain ⟨flags', hf', hfr'⟩ := h.fresh s flags hf hfr
  have := hb s flags' hf' hfr'
  by_contra hn
  rw [h.settled s (by simpa using hn)] at this
  cases this

end Instructs

/-! ### The steps of a recovery -/

/-- A loss learned by a window is no install in it. -/
theorem saw_rescan_instructs (scope : ScopeId) : Instructs P m (m.bridge_saw_rescan scope) := by
  obtain ⟨bridge, hb⟩ := m.saw_rescan_shape scope
  refine ⟨fun change hc => .inl (by rwa [hb] at hc), ?_, fun s hs => by rwa [hb] at hs⟩
  intro s flags hf hfr
  by_cases he : s = scope
  · subst he
    unfold Monitor.bridge_saw_rescan at hf
    split at hf
    · simp only [Monitor.set_bridge, get_insert, if_true, Option.some.injEq] at hf
      subst hf
      cases hm : m.bridge[s]? with
      | none =>
        rw [hm] at hfr
        cases hfr
      | some flags =>
        rw [hm] at hfr
        exact ⟨flags, rfl, hfr⟩
    · exact ⟨flags, hf, hfr⟩
  · rw [saw_rescan_elsewhere he] at hf
    exact ⟨flags, hf, hfr⟩

theorem emit_rescan_instructs (h : P scope loc) : Instructs P m (m.emit_rescan scope loc).1 := by
  refine (saw_rescan_instructs scope).trans ⟨?_, ?_, ?_⟩
  · intro change hc
    rcases mint_cases (m := m.bridge_saw_rescan scope) scope loc with ⟨-, he⟩ | he
    · rw [Monitor.emit_rescan, he] at hc
      exact .inl hc
    · rw [Monitor.emit_rescan, he, List.mem_append, List.mem_singleton] at hc
      rcases hc with hc | rfl
      · exact .inl hc
      · exact .inr h
  · intro s flags hf hfr
    rw [Monitor.emit_rescan, mint_bridge] at hf
    exact ⟨flags, hf, hfr⟩
  · intro s hs
    rwa [Monitor.emit_rescan, settled_congr (mint_pending loc)] at hs

/-- A state that ends no counted work and enters no window. -/
theorem set_state_instructs {x : WatchId} {state : NodeState}
    (hc : ∀ n, m.nodes[x]? = some n → n.state.is_rearm = true → state.is_rearm = true)
    (hf : ∀ was, Monitor.enters_fresh state was = false) : Instructs P m (m.set_state x state) := by
  cases hn : m.nodes[x]? with
  | none =>
    simp only [Monitor.set_state, hn]
    exact .refl m
  | some n =>
    have hc := hc n hn
    simp only [Monitor.set_state, hn, hf, Bool.false_eq_true, if_false]
    split
    · exact .of_eq rfl rfl rfl
    · rename_i hne
      split
      · refine ⟨fun _ h => .inl h, fun s flags h hfr => ⟨flags, h, hfr⟩, ?_⟩
        intro s hs
        simp only [Monitor.rearm_settled, Monitor.rearm_pending_inc,
          Monitor.acquired_coverage_work, Monitor.count_up, Bool.not_eq_true'] at hs ⊢
        rw [contains_false_iff] at hs ⊢
        rw [get_insert] at hs
        split at hs
        · cases hs
        · exact hs
      · rename_i hnot
        exfalso
        cases hw : n.state.is_rearm with
        | true => exact hnot (hc hw)
        | false =>
          apply hne
          rw [hw]
          simpa using hnot

theorem queue_rearm_instructs {x : WatchId} {reprove : Bool} {attempts : Nat} :
    Instructs P m (m.queue_enumerate x (.rearm reprove) attempts) := by
  cases hn : m.nodes[x]? with
  | none =>
    simp only [Monitor.queue_enumerate, Monitor.state_of, hn, Option.map_none]
    exact .refl m
  | some n =>
    have hs : m.state_of x = some n.state := state_of_node hn
    obtain ⟨_, _, hf⟩ := m.forget_state_shape n.state
    have h₁ : Instructs P m (m.forget_state n.state) := by
      rw [hf]
      exact .of_eq rfl rfl rfl
    have he : m.queue_enumerate x (.rearm reprove) attempts =
        (let m₂ := (m.forget_state n.state).next_req_id.1
         let req := (m.forget_state n.state).next_req_id.2
         let m₃ := { m₂ with pending_enumerate := m₂.pending_enumerate.insert req x }
         let m₄ := m₃.modify_node x fun n => { n with placement := m₃.placement_now }
         let m₅ := m₄.set_state x (.enumerating req (.rearm reprove) attempts false)
         { m₅ with actions := m₅.actions ++ [.enumerate req x] }) := by
      simp only [Monitor.queue_enumerate, hs]
      rfl
    have hset : ∀ (m₄ : Monitor) (req : ReqId),
        Instructs P m₄ (m₄.set_state x (.enumerating req (.rearm reprove) attempts false)) :=
      fun _ _ => set_state_instructs (fun _ _ _ => rfl) fun was => by cases was <;> rfl
    rw [he]
    apply Instructs.queued
    apply Instructs.trans ?_ (hset _ _)
    exact h₁.trans (.of_eq rfl rfl rfl)

theorem start_rearm_instructs (x : WatchId) : Instructs P m (m.start_rearm x).1 := by
  unfold Monitor.start_rearm
  split
  · exact .refl m
  · split
    · exact .refl m
    · split
      · exact queue_rearm_instructs
      · rename_i req kind attempts dirty hst
        have h₁ : Instructs P m (m.set_state x (.enumerating req kind 0 true)) := by
          refine set_state_instructs ?_ fun was => by cases was <;> rfl
          intro n hn hr
          rw [state_of_node hn] at hst
          rw [Option.some.inj hst] at hr
          cases kind with
          | cold => cases hr
          | rearm => rfl
        cases kind with
        | cold =>
          dsimp only
          obtain ⟨_, hl⟩ := (m.set_state x (.enumerating req .cold 0 true)).latent_insert_shape req
            ‹ScopeId›
          rw [hl]
          exact h₁.trans (.of_eq rfl rfl rfl)
        | rearm => exact h₁
      · exact .refl m

theorem queue_reinstall_instructs (x : WatchId) (scope : ScopeId) :
    Instructs P m (m.queue_reinstall x scope) := by
  cases hn : m.nodes[x]? with
  | none =>
    simp only [Monitor.queue_reinstall, Monitor.queue_slot_arm, hn, Bool.not_false, if_true]
    exact .refl m
  | some n =>
    obtain ⟨target, mask, he⟩ := m.queue_reinstall_eq scope hn
    rw [he, Monitor.queue_watch_eq]
    exact .of_eq rfl rfl rfl

theorem reprove_instructs (x : WatchId) : Instructs P m (m.set_state x (.arming true true)) :=
  set_state_instructs (fun _ _ _ => rfl) fun was => by cases was <;> rfl

theorem start_reinstall_instructs (x : WatchId) : Instructs P m (m.start_reinstall x) := by
  unfold Monitor.start_reinstall
  split
  · exact .refl m
  · split
    · exact (reprove_instructs x).trans (queue_reinstall_instructs x _)
    · refine (Instructs.trans ?_ (reprove_instructs x)).trans (queue_reinstall_instructs x _)
      exact .of_eq rfl rfl rfl
    · exact (reprove_instructs x).trans (.of_eq rfl rfl rfl)
    · exact .refl m

/-! ### Overflows -/

theorem dirty_touching_instructs (scope : ScopeId) (loc : Location) (exclude : Option MoveCookie)
    (carried : Option WatchId) :
    Instructs P m (m.dirty_pending_sources_touching scope loc exclude carried) := by
  apply Instructs.foldl
  intro _ _ _
  exact .of_eq rfl rfl rfl

theorem dirty_held_instructs (scope : Option ScopeId) :
    Instructs P m (m.dirty_held_sources scope) := by
  apply Instructs.foldl
  intro _ _ _
  exact .of_eq rfl rfl rfl

theorem overflow_root_instructs (scope : ScopeId) (root : WatchId) (h : ∀ loc, P scope loc) :
    Instructs P m (m.overflow_root scope root) := by
  apply (dirty_touching_instructs scope [] none none).trans
  unfold Monitor.overflow_root Monitor.scope_loss_recovery
  split
  · exact (emit_rescan_instructs (h _)).trans (start_rearm_instructs root)
  · generalize m.dirty_pending_sources_touching scope [] none none = m₁
    have hbump : Instructs P m₁ (m₁.bump_loss_gen scope) := .of_eq rfl rfl rfl
    exact (hbump.trans (emit_rescan_instructs (h _))).trans (start_reinstall_instructs root)

/-- The places an overflow instructs a re-read of. -/
def Overflown (m : Monitor) : Scope → ScopeId → Location → Prop
  | .all, s, _ => ∃ root, m.roots[s]? = some root
  | .root scope, s, _ => s = scope ∧ ∃ root, m.roots[s]? = some root
  | .subtree sub, s, loc =>
    m.scope_of sub.watch = some s ∧ loc = (m.location_of sub.watch).join sub.descent

/-- The slice of an overflow that no held subtree fences off. -/
def Unfenced (m : Monitor) : Scope → Prop
  | .subtree sub => m.in_held_subtree sub.watch = none
  | _ => True

theorem ingest_overflow_instructs {slice : Scope} (hu : Unfenced m slice) :
    Instructs (Overflown m slice) m (m.ingest_overflow slice).1 := by
  cases slice with
  | all =>
    apply Instructs.trans ?_ (dirty_held_instructs none)
    apply Instructs.foldl
    intro m' e he
    apply overflow_root_instructs
    intro _
    exact ⟨e.2, mem_toList.mp he⟩
  | root scope =>
    cases hr : m.roots[scope]? with
    | none =>
      simp only [Monitor.ingest_overflow, hr]
      exact .refl m
    | some root =>
      simp only [Monitor.ingest_overflow, hr]
      apply Instructs.trans ?_ (dirty_held_instructs (some scope))
      apply overflow_root_instructs
      intro _
      exact ⟨rfl, root, hr⟩
  | subtree sub =>
    have hu : m.in_held_subtree sub.watch = none := hu
    cases hsc : m.scope_of sub.watch with
    | none =>
      simp only [Monitor.ingest_overflow, hu, hsc]
      exact .refl m
    | some scope =>
      simp only [Monitor.ingest_overflow, hu, hsc]
      apply (dirty_touching_instructs scope _ none none).trans
      exact (emit_rescan_instructs ⟨hsc, rfl⟩).trans (start_rearm_instructs sub.watch)

/-! ### Marks of an overflow -/

theorem overflow_root_marks (root : WatchId) (hk : m.pending_moves[(scope, cookie)]? = some half)
    (hw : m.is_watched half.from_parent = true) :
    ∃ half', (m.overflow_root scope root).pending_moves[(scope, cookie)]? = some half' ∧
      half'.dirty = true := by
  have ht : Monitor.locations_touch (m.pending_from half) [] = true := by
    simp [Monitor.locations_touch, Location.starts_with]
  have hm := dirty_touching_marks hk (if_pos hw) ht
  have hc : Calms none (m.dirty_pending_sources_touching scope [] none none)
      (m.overflow_root scope root) :=
    scope_loss_recovery_calm scope fun _ hk => absurd hk (Option.some_ne_none _).symm
  obtain ⟨half', hk', -, hd⟩ := hc.keeps_half hm
  exact ⟨half', hk', hd rfl⟩

/-- An overflow of every scope comes to each of them in turn. -/
theorem overflow_all_marks (hr : ∃ root, m.roots[scope]? = some root)
    (hk : m.pending_moves[(scope, cookie)]? = some half)
    (hw : m.is_watched half.from_parent = true) :
    ∃ half', (m.ingest_overflow .all).1.pending_moves[(scope, cookie)]? = some half' ∧
      half'.dirty = true := by
  obtain ⟨root, hr⟩ := hr
  obtain ⟨before, after, hl⟩ := List.append_of_mem (mem_toList.mpr hr)
  have hfold : ∀ (l : List (ScopeId × WatchId)) (m : Monitor),
      Calms none m (l.foldl (fun m e => m.overflow_root e.1 e.2) m) :=
    fun l _ => Calms.foldl l fun _ e _ => overflow_root_calm e.1 e.2
  obtain ⟨half₁, hk₁, hp₁, -⟩ := (hfold before m).keeps_half hk
  have hw₁ : (before.foldl (fun m e => m.overflow_root e.1 e.2) m).is_watched
      half₁.from_parent = true := by
    rw [hp₁, (hfold before m).placed.watched]
    exact hw
  obtain ⟨half₂, hk₂, hd₂⟩ := overflow_root_marks root hk₁ hw₁
  obtain ⟨half₃, hk₃, -, hd₃⟩ :=
    Calms.keeps_half ((hfold after _).trans (dirty_held_calm none)) hk₂
  refine ⟨half₃, ?_, hd₃ hd₂⟩
  show (Monitor.dirty_held_sources (m.roots.toList.foldl _ m) none).pending_moves[_]? = _
  rw [hl, List.foldl_append, List.foldl_cons]
  exact hk₃

/-! ### Halves and instructions -/

/-- The call queued a `Rescan` of the scope at the place. -/
def Queues (m m' : Monitor) (scope : ScopeId) (loc : Location) : Prop :=
  ∃ change ∈ m'.events, change ∉ m.events ∧ change.kind = .rescan ∧ change.scope = scope ∧
    change.location = loc

/-- Every parked half whose source a queued `Rescan` touches is marked. -/
def Dirties (m m' : Monitor) : Prop :=
  ∀ (scope : ScopeId) (cookie : MoveCookie) (half : PendingMove) (source loc : Location),
    m.pending_moves[(scope, cookie)]? = some half → m.live_pending_from half = some source →
    Monitor.locations_touch source loc = true → Queues m m' scope loc →
      ∀ half', m'.pending_moves[(scope, cookie)]? = some half' → half'.dirty = true

/-- An overflow outside the holds marks every half it overtakes, before it flushes. -/
theorem ingest_overflow_dirties {slice : Scope} (hu : Unfenced m slice) :
    Dirties m (m.ingest_overflow slice).1 := by
  intro scope cookie half source loc hk hs ht ⟨change, hc, hnew, _, hcs, hcl⟩ half' hk'
  have hplace : Overflown m slice scope loc := by
    rw [← hcs, ← hcl]
    exact ((ingest_overflow_instructs hu).events change hc).resolve_left hnew
  have hw : m.is_watched half.from_parent = true := by
    unfold Monitor.live_pending_from at hs
    split at hs
    · assumption
    · cases hs
  have same : ∀ {half₁ : PendingMove},
      (m.ingest_overflow slice).1.pending_moves[(scope, cookie)]? = some half₁ →
        half₁.dirty = true → half'.dirty = true := by
    intro half₁ h hd
    obtain rfl := Option.some.inj (hk'.symm.trans h)
    exact hd
  cases slice with
  | all =>
    obtain ⟨half₁, hk₁, hd₁⟩ := overflow_all_marks hplace hk hw
    exact same hk₁ hd₁
  | root other =>
    obtain ⟨rfl, root, hr⟩ := hplace
    obtain ⟨half₁, hk₁, hd₁⟩ := overflow_root_marks root hk hw
    obtain ⟨half₂, hk₂, -, hd₂⟩ := (dirty_held_calm (k := none) (some scope)).keeps_half hk₁
    apply same ?_ (hd₂ hd₁)
    simp only [Monitor.ingest_overflow, hr]
    exact hk₂
  | subtree sub =>
    have hu : m.in_held_subtree sub.watch = none := hu
    obtain ⟨hsc, rfl⟩ := hplace
    have hm := dirty_touching_marks hk hs ht
    simp only [Monitor.ingest_overflow, hu, hsc] at hk'
    exact Calms.stays_marked (k := none)
      ((emit_rescan_calm scope _).trans (start_rearm_calm sub.watch)) hm hk'

/-- In every run an overflow outside the holds marks the halves it overtakes. -/
theorem overflow_dirties {caps : Capabilities} {strict : Bool} {before : List Input}
    (hd : (Session.new caps).Drives strict before) {slice : Scope}
    (hu : Unfenced ((Session.new caps).run before).m slice) :
    Dirties ((Session.new caps).run before).m
      (((Session.new caps).run before).step (.on_overflow slice)).m := by
  -- the flush finds no window to close, so the overflow itself queued what is new
  have hb := (ingest_overflow_instructs hu).backed (run_backed hd)
  obtain ⟨bridge, hq, -⟩ := hb.flushed.quiet
  have he : (((Session.new caps).run before).step (.on_overflow slice)).m =
      { (((Session.new caps).run before).m.ingest_overflow slice).1 with bridge := bridge } := by
    rw [← hq]
    rfl
  rw [he]
  exact ingest_overflow_dirties hu

/-- A root with a file renamed away from it. -/
def renamed_away : List Input :=
  [.register_root ⟨1, Nat.one_pos⟩ Interest.all,
    .on_os_record
      { watch := ⟨1, Nat.one_pos⟩, kind := .movedFrom, evidence := .of .movedFrom,
        target := some ["f"], is_dir := some false, cookie := some ⟨1, Nat.one_pos⟩,
        node := none } ⟨0⟩]

theorem renamed_away_overflow_dirties :
    Dirties ((Session.new ⟨false, false⟩).run renamed_away).m
      (((Session.new ⟨false, false⟩).run renamed_away).step (.on_overflow .all)).m :=
  have hd : (Session.new ⟨false, false⟩).Drives true renamed_away := ⟨trivial, trivial, trivial⟩
  overflow_dirties hd (show Unfenced _ .all from trivial)

/-- The half of that file. -/
def away_half : PendingMove where
  from_parent := ⟨1, Nat.one_pos⟩
  source := ["f"]
  scope := ⟨1, Nat.one_pos⟩
  deadline := ⟨DEFAULT_MOVE_WINDOW⟩
  held := none
  is_dir := some false
  evidence := .of .movedFrom
  dirty := false

/-- A call queues an instruction for the whole root and leaves that half as it is. -/
theorem away_overtaken (id : ChangeId) (epoch : Epoch) {input : Input}
    (he : (((Session.new ⟨false, false⟩).run renamed_away).step input).m.events =
      [⟨id, ⟨1, by decide⟩, [], .rescan, epoch, none⟩])
    (hk : (((Session.new ⟨false, false⟩).run renamed_away).step input).m.pending_moves[((⟨1,
      by decide⟩ : ScopeId), (⟨1, by decide⟩ : MoveCookie))]? = some away_half) :
    ¬ Dirties ((Session.new ⟨false, false⟩).run renamed_away).m
      (((Session.new ⟨false, false⟩).run renamed_away).step input).m := by
  intro h
  have hnone : ((Session.new ⟨false, false⟩).run renamed_away).m.events = [] := by
    decide +kernel
  have hdirty := h ⟨1, by decide⟩ ⟨1, by decide⟩ away_half ["f"] [] (by decide +kernel)
    (by decide +kernel) (by decide +kernel)
    ⟨_, by rw [he]; exact List.mem_singleton_self _, by rw [hnone]; exact List.not_mem_nil,
      rfl, rfl, rfl⟩ away_half hk
  cases hdirty

/-- A loss that is only reported, and a domination, instruct past the half without a
    mark on it. -/
theorem renamed_away_overtaken :
    ¬ Dirties ((Session.new ⟨false, false⟩).run renamed_away).m
      (((Session.new ⟨false, false⟩).run renamed_away).step (.report_loss ⟨1, by decide⟩)).m ∧
    ¬ Dirties ((Session.new ⟨false, false⟩).run renamed_away).m
      (((Session.new ⟨false, false⟩).run renamed_away).step
        (.cover_domination (.root ⟨1, by decide⟩))).m :=
  ⟨away_overtaken ⟨1, by decide⟩ ⟨1⟩ (by decide +kernel) (by decide +kernel),
    away_overtaken ⟨1, by decide⟩ ⟨1⟩ (by decide +kernel) (by decide +kernel)⟩

end Proto
