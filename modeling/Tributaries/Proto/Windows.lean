import Tributaries.Proto.Barrier

/-! # Bridge windows between calls

  A window that saw a loss and a counted install closes with one `Rescan`
  when its scope settles.  Between two calls no settled scope has such a
  window: a call that could settle a scope ends by flushing the windows,
  and the others open a window only over work that is counted.
-/

open Std Collections SlotForest Forest

namespace Proto

variable {m m' : Monitor} {scope s : ScopeId}

/-! ### One window -/

theorem set_bridge_elsewhere {f : BridgeFlags → BridgeFlags} (hs : s ≠ scope) :
    (m.set_bridge scope f).bridge[s]? = m.bridge[s]? := by
  simp only [Monitor.set_bridge, get_insert, if_neg (Ne.symm hs)]

theorem saw_rescan_elsewhere (hs : s ≠ scope) :
    (m.bridge_saw_rescan scope).bridge[s]? = m.bridge[s]? := by
  unfold Monitor.bridge_saw_rescan
  split
  · exact set_bridge_elsewhere hs
  · rfl

theorem fresh_rearm_elsewhere (hs : s ≠ scope) :
    (m.bridge_fresh_rearm scope).bridge[s]? = m.bridge[s]? := by
  unfold Monitor.bridge_fresh_rearm
  split
  · exact set_bridge_elsewhere hs
  · rfl

theorem bootstrap_elsewhere (hs : s ≠ scope) :
    (m.bridge_bootstrap scope).bridge[s]? = m.bridge[s]? := by
  unfold Monitor.bridge_bootstrap
  split
  · exact set_bridge_elsewhere hs
  · rfl

theorem mint_bridge (location : Location) : (m.mint_rescan scope location).1.bridge = m.bridge := by
  rcases mint_cases (m := m) scope location with ⟨-, h⟩ | h
  · rw [h]
  · rw [h]
    rfl

theorem mint_pending (location : Location) :
    (m.mint_rescan scope location).1.rearm_pending = m.rearm_pending := by
  rcases mint_cases (m := m) scope location with ⟨-, h⟩ | h
  · rw [h]
  · rw [h]
    rfl

/-- A flushed window is gone once its scope has settled. -/
theorem settle_bridge_at (hs : m.rearm_settled scope = true) :
    (m.settle_bridge scope).bridge[scope]? = none := by
  unfold Monitor.settle_bridge
  rw [if_neg (by simp [hs])]
  simp

theorem settle_bridge_elsewhere (hs : s ≠ scope) :
    (m.settle_bridge scope).bridge[s]? = m.bridge[s]? := by
  unfold Monitor.settle_bridge
  split
  · rfl
  · simp only [get_erase, if_neg (Ne.symm hs)]
    split
    · unfold Monitor.emit_rescan
      rw [mint_bridge]
      exact saw_rescan_elsewhere hs
    · rfl

theorem settle_bridge_pending (scope : ScopeId) :
    (m.settle_bridge scope).rearm_pending = m.rearm_pending := by
  obtain ⟨_, _, _, _, h⟩ := m.settle_bridge_shape scope
  rw [h]

/-- A flush closes windows, it opens none. -/
theorem settle_bridge_gone (h : m.bridge[s]? = none) (scope : ScopeId) :
    (m.settle_bridge scope).bridge[s]? = none := by
  by_cases hs : s = scope
  · subst hs
    by_cases hset : m.rearm_settled s = true
    · exact settle_bridge_at hset
    · unfold Monitor.settle_bridge
      rw [if_pos (by simpa using hset)]
      exact h
  · rw [settle_bridge_elsewhere hs]
    exact h

/-! ### All windows -/

/-- No window whose scope has settled still owes its closing `Rescan`. -/
def Flushed (m : Monitor) : Prop :=
  ∀ scope flags, m.bridge[scope]? = some flags → flags.saw_rescan = true →
    flags.fresh_rearm = true → m.rearm_settled scope = false

/-- A window that holds an install is one of a scope that has not settled. -/
def Backed (m : Monitor) : Prop :=
  ∀ scope flags, m.bridge[scope]? = some flags → flags.fresh_rearm = true →
    m.rearm_settled scope = false

theorem Backed.flushed (h : Backed m) : Flushed m :=
  fun scope flags hf _ hfresh => h scope flags hf hfresh

theorem settled_congr (hr : m'.rearm_pending = m.rearm_pending) :
    m'.rearm_settled = m.rearm_settled := by
  funext s
  unfold Monitor.rearm_settled
  rw [hr]

theorem Flushed.congr (h : Flushed m) (hb : m'.bridge = m.bridge)
    (hr : m'.rearm_pending = m.rearm_pending) : Flushed m' := by
  intro scope flags hf
  rw [hb] at hf
  rw [settled_congr hr]
  exact h scope flags hf

theorem Backed.congr (h : Backed m) (hb : m'.bridge = m.bridge)
    (hr : m'.rearm_pending = m.rearm_pending) : Backed m' := by
  intro scope flags hf
  rw [hb] at hf
  rw [settled_congr hr]
  exact h scope flags hf

/-- A flush leaves a window only where the scope has not settled. -/
theorem settle_bridges_backed : Backed m.settle_bridges := by
  have each : ∀ (l : List ScopeId) (m : Monitor),
      (l.foldl Monitor.settle_bridge m).rearm_pending = m.rearm_pending ∧
        ∀ s, (m.bridge[s]? = none ∨ s ∈ l ∧ m.rearm_settled s = true) →
          (l.foldl Monitor.settle_bridge m).bridge[s]? = none := by
    intro l
    induction l with
    | nil =>
      intro m
      refine ⟨rfl, fun s hs => ?_⟩
      rcases hs with hs | ⟨hs, -⟩
      · exact hs
      · cases hs
    | cons scope l ih =>
      intro m
      obtain ⟨hp, hb⟩ := ih (m.settle_bridge scope)
      have hset : (m.settle_bridge scope).rearm_settled = m.rearm_settled :=
        settled_congr (settle_bridge_pending scope)
      refine ⟨hp.trans (settle_bridge_pending scope), fun s hs => ?_⟩
      apply hb s
      rcases hs with hs | ⟨hs, hset'⟩
      · exact .inl (settle_bridge_gone hs scope)
      · rcases List.mem_cons.mp hs with rfl | hs
        · exact .inl (settle_bridge_at hset')
        · exact .inr ⟨hs, hset ▸ hset'⟩
  obtain ⟨hp, hb⟩ := each m.bridge.keys m
  intro scope flags hf _
  cases hset : m.settle_bridges.rearm_settled scope with
  | false => rfl
  | true =>
    have hset' : m.rearm_settled scope = true := by
      unfold Monitor.rearm_settled at hset ⊢
      unfold Monitor.settle_bridges at hset
      rwa [hp] at hset
    have hnone : m.settle_bridges.bridge[scope]? = none := by
      apply hb scope
      cases hm : m.bridge[scope]? with
      | none => exact .inl rfl
      | some flags => exact .inr ⟨by rw [ExtTreeMap.mem_keys]; exact contains_iff.mpr ⟨_, hm⟩, hset'⟩
    rw [hnone] at hf
    cases hf

/-- A flush of one flushed window delivers nothing, and closes it if its scope has
    settled. -/
theorem Flushed.quiet_one (h : Flushed m) (scope : ScopeId) :
    ∃ bridge, m.settle_bridge scope = { m with bridge := bridge } ∧
      ∀ s, bridge[s]? = if s = scope ∧ m.rearm_settled s = true then none else m.bridge[s]? := by
  unfold Monitor.settle_bridge
  by_cases hset : m.rearm_settled scope = true
  · rw [if_neg (by simp [hset])]
    dsimp only
    rw [if_neg]
    · refine ⟨_, rfl, fun s => ?_⟩
      rw [get_erase]
      by_cases hs : s = scope
      · rw [if_pos hs.symm, if_pos ⟨hs, hs ▸ hset⟩]
      · rw [if_neg (Ne.symm hs), if_neg fun hc => hs hc.1]
    · intro hc
      rw [Bool.and_eq_true, Bool.and_eq_true] at hc
      obtain ⟨⟨-, hsaw⟩, hfresh⟩ := hc
      cases hm : m.bridge[scope]? with
      | none =>
        rw [hm] at hsaw
        cases hsaw
      | some flags =>
        rw [hm] at hsaw hfresh
        rw [h scope flags hm hsaw hfresh] at hset
        cases hset
  · rw [if_pos (by simpa using hset)]
    refine ⟨m.bridge, rfl, fun s => ?_⟩
    rw [if_neg]
    rintro ⟨rfl, hc⟩
    exact hset hc

/-- A flush of flushed windows delivers nothing: it closes those whose scope has
    settled and leaves the others. -/
theorem Flushed.quiet (h : Flushed m) :
    ∃ bridge, m.settle_bridges = { m with bridge := bridge } ∧
      ∀ s, bridge[s]? = if m.rearm_settled s = true then none else m.bridge[s]? := by
  have each : ∀ (l : List ScopeId) (m : Monitor), Flushed m →
      ∃ bridge, l.foldl Monitor.settle_bridge m = { m with bridge := bridge } ∧
        ∀ s, bridge[s]? = if s ∈ l ∧ m.rearm_settled s = true then none else m.bridge[s]? := by
    intro l
    induction l with
    | nil =>
      intro m _
      refine ⟨m.bridge, rfl, fun s => ?_⟩
      rw [if_neg fun hc => absurd hc.1 List.not_mem_nil]
    | cons scope l ih =>
      intro m h
      obtain ⟨bridge, hb, hone⟩ := h.quiet_one scope
      have hf : Flushed { m with bridge := bridge } := by
        intro s flags hs
        rw [show ({ m with bridge := bridge } : Monitor).bridge[s]? = bridge[s]? from rfl,
          hone] at hs
        split at hs
        · cases hs
        · exact h s flags hs
      obtain ⟨bridge', hb', hrest⟩ := ih { m with bridge := bridge } hf
      refine ⟨bridge', ?_, fun s => ?_⟩
      · rw [List.foldl_cons, hb, hb']
      · rw [hrest]
        change (if s ∈ l ∧ m.rearm_settled s = true then none else bridge[s]?) = _
        rw [hone]
        by_cases hs : s = scope
        · by_cases hset : m.rearm_settled s = true
          · simp [hs, hs ▸ hset]
          · simp [hset]
        · simp [hs]
  obtain ⟨bridge, hb, hall⟩ := each m.bridge.keys m h
  refine ⟨bridge, hb, fun s => ?_⟩
  rw [hall]
  by_cases hk : s ∈ m.bridge.keys
  · simp [hk]
  · -- no window stands at a scope that is not among the keys
    have hn : m.bridge[s]? = none :=
      ExtTreeMap.getElem?_eq_none fun hm => hk (ExtTreeMap.mem_keys.mpr hm)
    simp [hn]

/-! ### The calls that do not flush -/

theorem register_backed (h : Backed m) (mask : Interest) (caps : Capabilities) :
    Backed (m.register_root_with_profile scope mask caps).1 := by
  cases hr : m.roots[scope]? with
  | some root =>
    unfold Monitor.register_root_with_profile
    rw [if_pos (contains_iff.mpr ⟨root, hr⟩)]
    exact h
  | none =>
    have hp : (m.register_root_with_profile scope mask caps).1.rearm_pending =
        Monitor.count_up m.rearm_pending scope :=
      congrArg Prod.fst (register_toll mask caps hr)
    intro s flags hf hfresh
    unfold Monitor.rearm_settled
    rw [hp]
    by_cases hs : s = scope
    · subst hs
      simp [Monitor.count_up]
    · have hb : (m.register_root_with_profile scope mask caps).1.bridge[s]? = m.bridge[s]? := by
        unfold Monitor.register_root_with_profile
        rw [if_neg (by simp [contains_false_iff.mpr hr])]
        change (Monitor.bridge_bootstrap _ scope).bridge[s]? = _
        rw [bootstrap_elsewhere hs]
        change (Monitor.bridge_fresh_rearm _ scope).bridge[s]? = _
        rw [fresh_rearm_elsewhere hs]
        rfl
      rw [hb] at hf
      have := h s flags hf hfresh
      unfold Monitor.rearm_settled at this
      rw [Monitor.count_up]
      simpa [hs, Ne.symm hs] using this

/-- A root that awaits its first arm is counted, so a reprofile opens a window
    only over counted work. -/
theorem reprofile_backed (h : Backed m) (ht : Tallied m) (hs : m.shape.Sound ∅)
    (caps : Capabilities) : Backed (m.reprofile_root scope caps) := by
  unfold Monitor.reprofile_root
  split
  · exact h
  · dsimp only
    split
    · intro s flags hf
      dsimp only at hf
      rw [get_erase] at hf
      split at hf
      · cases hf
      · exact h s flags hf
    · generalize hm₁ : ({ m with scope_profiles := m.scope_profiles.insert scope caps } : Monitor) = m₁
      have h₁ : Backed m₁ := by
        rw [← hm₁]
        exact h
      have h₂ : Backed (m₁.bridge_bootstrap scope) := by
        unfold Monitor.bridge_bootstrap
        split
        · intro s flags hf hfresh
          by_cases he : s = scope
          · subst he
            simp only [Monitor.set_bridge, get_insert, if_true, Option.some.injEq] at hf
            subst hf
            cases hb : m₁.bridge[s]? with
            | none =>
              rw [hb] at hfresh
              cases hfresh
            | some flags =>
              rw [hb] at hfresh
              exact h₁ s flags hb hfresh
          · rw [set_bridge_elsewhere he] at hf
            exact h₁ s flags hf hfresh
        · exact h₁
      split
      · rename_i hfresh
        have hcount : (m₁.bridge_bootstrap scope).rearm_settled scope = false := by
          obtain ⟨bridge, hb⟩ := m₁.bootstrap_shape scope
          rw [hb] at hfresh ⊢
          subst hm₁
          change m.root_arms_fresh scope = true at hfresh
          change m.rearm_settled scope = false
          unfold Monitor.root_arms_fresh at hfresh
          split at hfresh
          · rename_i hst
            obtain ⟨root, hr, hst⟩ := Option.bind_eq_some_iff.mp hst
            obtain ⟨q, hq, -, hsc⟩ := hs.root_up scope root hr
            obtain ⟨n, hn, rfl⟩ := Monitor.place_eq_some.mp hq
            by_contra hset
            rw [Bool.not_eq_false, Monitor.rearm_settled, Bool.not_eq_true', contains_false_iff,
              ht.rearm.settled, Set.eq_empty_iff_forall_notMem] at hset
            apply hset root
            refine ⟨n, hn, hsc, ?_⟩
            simp only [Monitor.state_of, hn, Option.map_some, Option.some.injEq] at hst
            rw [hst]
            rfl
          · cases hfresh
        intro s flags hf hfr
        have hset : ((m₁.bridge_bootstrap scope).bridge_fresh_rearm scope).rearm_settled s =
            (m₁.bridge_bootstrap scope).rearm_settled s := by
          obtain ⟨bridge, hb⟩ := (m₁.bridge_bootstrap scope).fresh_rearm_shape scope
          rw [hb]
          rfl
        rw [hset]
        by_cases he : s = scope
        · subst he
          exact hcount
        · rw [fresh_rearm_elsewhere he] at hf
          exact h₂ s flags hf hfr
      · exact h₂

theorem poll_action_backed (h : Backed m) : Backed m.poll_action.1 := by
  have each : ∀ l, Backed (m.poll_action_loop l).1 := by
    intro l
    induction l with
    | nil => exact h
    | cons action rest ih =>
      unfold Monitor.poll_action_loop
      split
      · exact ih
      · unfold Monitor.stamp_dispatch
        split
        · exact h
        · exact h
  exact each m.actions

/-! ### Runs -/

theorem Session.Kept.backed {s : Session} {strict : Bool} (hk : Session.Kept strict s)
    (h : Backed s.m) (input : Input) : Backed (s.step input).m := by
  change Backed (s.m.step input).1
  cases input with
  | set_move_window window => exact h
  | register_root scope mask => exact register_backed h mask _
  | register_root_with_profile scope mask caps => exact register_backed h mask caps
  | reprofile_root scope caps =>
    exact reprofile_backed h hk.tallied (hk.valid.toInv.sound rfl) caps
  | unregister_root scope => exact settle_bridges_backed
  | drop_watch_subtree watch =>
    change Backed (s.m.drop_watch_subtree watch).1
    unfold Monitor.drop_watch_subtree
    split
    · split
      · exact settle_bridges_backed
      · exact settle_bridges_backed
    · exact settle_bridges_backed
  | rearm_watch_subtree watch =>
    change Backed (s.m.rearm_watch_subtree watch).1
    unfold Monitor.rearm_watch_subtree
    split
    · exact h
    · split
      · exact h
      · exact settle_bridges_backed
  | rebind_root scope =>
    change Backed (s.m.rebind_root scope).1
    unfold Monitor.rebind_root
    split
    · exact h
    · split
      · exact h
      · exact settle_bridges_backed.congr rfl rfl
  | reserve_watch_id => exact h
  | widen_root scope reserved chain old_identity =>
    change Backed (s.m.widen_root scope reserved chain old_identity).1
    unfold Monitor.widen_root
    split
    · split
      · exact h
      · split
        · exact h
        · exact settle_bridges_backed
    · exact h
  | cover_stat_loss scope =>
    change Backed (s.m.cover_stat_loss scope).1
    unfold Monitor.cover_stat_loss
    split
    · exact h
    · exact settle_bridges_backed
  | resignal_coverage_deficits scope => exact settle_bridges_backed
  | seal_staged_adoptions scope through => exact settle_bridges_backed
  | on_os_record rec now => exact settle_bridges_backed
  | on_stat_result req res => exact settle_bridges_backed
  | on_enumerate req res => exact settle_bridges_backed
  | on_watch_result id attempt res => exact settle_bridges_backed
  | on_overflow scope => exact settle_bridges_backed
  | report_loss scope =>
    change Backed (s.m.report_loss scope).1
    unfold Monitor.report_loss
    split
    · exact h
    · exact settle_bridges_backed
  | cover_domination scope =>
    have hmint : ∀ t location, Backed (s.m.mint_rescan t location).1 := fun t location =>
      h.congr (mint_bridge location) (mint_pending location)
    change Backed (s.m.cover_domination scope).1
    cases scope with
    | all => exact h
    | root scope =>
      cases hr : s.m.roots[scope]? with
      | none =>
        simp only [Monitor.cover_domination, hr]
        exact h
      | some root =>
        simp only [Monitor.cover_domination, hr]
        exact hmint _ _
    | subtree sub =>
      cases hsc : s.m.scope_of sub.watch with
      | none =>
        simp only [Monitor.cover_domination, hsc]
        exact h
      | some scope =>
        simp only [Monitor.cover_domination, hsc]
        split
        · split
          · exact h
          · exact hmint _ _
        · exact hmint _ _
  | handle_timeout now => exact settle_bridges_backed
  | consume_pending_move scope cookie =>
    change Backed (s.m.consume_pending_move scope cookie)
    unfold Monitor.consume_pending_move
    split
    · exact settle_bridges_backed
    · exact h
  | poll_action => exact poll_action_backed h
  | poll_event =>
    change Backed s.m.poll_event.1
    unfold Monitor.poll_event
    split
    · exact h
    · exact h

/-- Between the calls of a run a window with an install is backed by counted work. -/
theorem run_backed {caps : Capabilities} {strict : Bool} {inputs : List Input}
    (hd : (Session.new caps).Drives strict inputs) :
    Backed ((Session.new caps).run inputs).m := by
  have along : ∀ (inputs : List Input) {s : Session}, Session.Kept strict s → Backed s.m →
      s.Drives strict inputs → Backed (s.run inputs).m := by
    intro inputs
    induction inputs with
    | nil => exact fun _ h _ => h
    | cons input inputs ih => exact fun hk h hd => ih (hk.step hd.1) (hk.backed h input) hd.2
  refine along inputs (Session.kept_new caps) ?_ hd
  intro scope flags hf
  simp [Session.new, Monitor.new] at hf

/-- Between the calls of a run every window that closed has been flushed. -/
theorem run_flushed {caps : Capabilities} {strict : Bool} {inputs : List Input}
    (hd : (Session.new caps).Drives strict inputs) :
    Flushed ((Session.new caps).run inputs).m :=
  (run_backed hd).flushed

end Proto
