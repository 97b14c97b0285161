import Tributaries.Proto.Answering

/-! # Arm outcomes as paths of effects

  An outcome that matches no current attempt is dropped.  One that does
  leaves its watch dead, out of its arm, or armed again with the new
  attempt in the action queue.
-/

open Std Collections SlotForest Forest

namespace Proto

variable {m m' : Monitor} {g : Ghost} {k : Option Answer}

/-- No arm of the watch waits for the outcome of the attempt. -/
def Answered (m : Monitor) (id : WatchId) (attempt : ArmAttempt) : Prop :=
  ∀ node rearm reprove, m.nodes[id]? = some node → node.state = .arming rearm reprove →
    node.attempt ≠ attempt ∨ Queued m id node.attempt

theorem answered_dead {id : WatchId} {attempt : ArmAttempt} (h : m.nodes[id]? = none) :
    Answered m id attempt := by
  intro node _ _ hn
  rw [h] at hn
  cases hn

theorem answered_state {id : WatchId} {attempt : ArmAttempt} {state : NodeState}
    (h : m.state_of id = some state) (hs : ∀ rearm reprove, state ≠ .arming rearm reprove) :
    Answered m id attempt := by
  intro node rearm reprove hn hst
  rw [state_of_node hn, Option.some.injEq] at h
  exact absurd (h ▸ hst) (hs rearm reprove)

theorem answered_same {id : WatchId} {attempt : ArmAttempt} (h : Answered m id attempt)
    (hn : m'.nodes = m.nodes) (ha : m'.actions = m.actions) : Answered m' id attempt := by
  unfold Answered Queued at *
  rw [hn, ha]
  exact h

/-- A re-issued arm waits in the queue under the watch's new attempt. -/
theorem reissue_queued {id : WatchId} {scope : ScopeId} {node : WatchNode} {attempt : ArmAttempt}
    (hn : m.nodes[id]? = some node) : Answered (m.queue_reinstall id scope) id attempt := by
  obtain ⟨target, mask, he⟩ := m.queue_reinstall_eq scope hn
  rw [he, Monitor.queue_watch_eq]
  intro node' _ _ hn' _
  simp only [get_modify, if_true, hn, Option.map_some, Option.some.injEq] at hn'
  refine .inr ⟨_, List.mem_append_right _ (List.mem_singleton.mpr rfl), rfl, ?_⟩
  rw [← hn']

/-- A watch whose parent or name is missing is the registered root of its scope. -/
theorem unslotted_root (h : Inv ⟨m, g⟩) (hw : g.walk = none) {x : WatchId} {node : WatchNode}
    (hn : m.nodes[x]? = some node) (hs : m.slot_of x = none) :
    m.roots[node.scope]? = some x := by
  refine (h.sound hw).root_of (Monitor.place_of hn) ?_
  cases hp : node.parent with
  | none => exact hp
  | some parent =>
    cases hname : node.name with
    | none =>
      have := ((h.sound hw).named x _ (Monitor.place_of hn)).mpr hname
      exact this
    | some name =>
      have := Monitor.slot_of_eq_some.mpr ⟨node, hn, hp, hname⟩
      rw [hs] at this
      cases this

/-- An invalidated root is dead. -/
theorem invalidate_root_dead {scope : ScopeId} {root : WatchId} :
    (m.invalidate_root scope root).nodes[root]? = none :=
  (drop_subtree_trace (m := m) (g := Ghost.new false m) root .teardown rfl).2.2

/-- The scope is told, and the root with its whole tree is torn down. -/
theorem lose_root_trace {scope : ScopeId} {id : WatchId} (h : Valid ⟨m, g⟩)
    (hw : g.walk = none) (hb : Pruned g.start m) (hr : m.roots[scope]? = some id)
    (location : Location) :
    Trace ⟨m, g⟩ ⟨((m.emit_rescan scope location).1).invalidate_root scope id, g⟩ := by
  have hc := emit_rescan_calm (k := g.answer) (m := m) scope location
  have hstart : g.start.roots[scope]? ≠ none := by simp [hb.roots scope id hr]
  refine hc.trace.trans (invalidate_root_trace (Trace.valid h hc.trace) hw (fun r hr' => ?_)
    hstart)
  have := hc.pruned.roots scope r hr'
  rw [hr] at this
  exact (Option.some.inj this).symm

theorem retire_binding_trace {id : WatchId} {node : WatchNode} (lowering : Lowering)
    (attempt : ArmAttempt) (h : Valid ⟨m, g⟩) (hw : g.walk = none) (hb : Pruned g.start m)
    (hn : m.nodes[id]? = some node) :
    Trace ⟨m, g⟩ ⟨m.retire_unprovable_binding id node.scope lowering, g⟩ ∧
      Answered (m.retire_unprovable_binding id node.scope lowering) id attempt := by
  have ha := h.toInv.anchored (scope_of_node hn)
  unfold Monitor.retire_unprovable_binding
  cases hs : m.slot_of id with
  | none =>
    exact ⟨lose_root_trace h hw hb (unslotted_root h.toInv hw hn hs) _,
      answered_dead invalidate_root_dead⟩
  | some slot =>
    obtain ⟨parent, name⟩ := slot
    obtain ⟨ht, -, hd⟩ := drop_subtree_trace (m := m) id .coveringRescan hw
    rw [hn]
    dsimp only
    split
    · exact ⟨ht, answered_dead hd⟩
    · obtain ⟨n, hn', hp, -⟩ := Monitor.slot_of_eq_some.mp hs
      obtain rfl := Option.some.inj (hn.symm.trans hn')
      obtain ⟨q, hq, hsc, -⟩ :=
        ((h.sound hw).linked id _ parent (Monitor.place_of hn) hp).resolve_right (by simp)
      obtain ⟨pn, hpn, rfl⟩ := Monitor.place_eq_some.mp hq
      have hap := h.toInv.anchored ((scope_of_node hpn).trans (congrArg some hsc))
      have hc := cover_and_rebuild_trace name node.is_dir node.identity (Trace.valid h ht) hw (Trace.anchored h.toInv hap ht)
      have hai := Trace.anchored h.toInv ha ht
      have hgone := Trace.stays_dead (Trace.inv h.toInv ht) hai.minted hai.used hd hc
      exact ⟨ht.trans hc, answered_dead hgone⟩

theorem refuse_arm_trace {id : WatchId} {node : WatchNode} (lowering : Lowering)
    (attempt : ArmAttempt) (h : Valid ⟨m, g⟩) (hw : g.walk = none) (hb : Pruned g.start m)
    (hn : m.nodes[id]? = some node) :
    Trace ⟨m, g⟩ ⟨m.refuse_arm id node.scope lowering, g⟩ ∧
      Answered (m.refuse_arm id node.scope lowering) id attempt := by
  unfold Monitor.refuse_arm
  split
  · obtain ⟨ht, -, hd⟩ := drop_subtree_trace (m := m) id .coveringRescan hw
    exact ⟨ht, answered_dead hd⟩
  · split
    · rename_i hr
      exact ⟨lose_root_trace h hw hb
        (root_registered h.toInv hw hr (scope_of_node hn)) _, answered_dead invalidate_root_dead⟩
    · have h₁ := (emit_rescan_calm (k := g.answer) (m := m) node.scope (m.location_of id)).trace
      dsimp only
      generalize (m.emit_rescan node.scope (m.location_of id)).1 = m₁ at h₁ ⊢
      have tail : ∀ m₂ : Monitor, Trace ⟨m, g⟩ ⟨m₂, g⟩ →
          Trace ⟨m, g⟩ ⟨(m₂.drop_subtree id .coveringRescan).1, g⟩ ∧
            Answered (m₂.drop_subtree id .coveringRescan).1 id attempt := by
        intro m₂ h₂
        obtain ⟨ht, -, hd⟩ := drop_subtree_trace (m := m₂) id .coveringRescan hw
        exact ⟨h₂.trans ht, answered_dead hd⟩
      cases m₁.slot_of id with
      | none => exact tail _ h₁
      | some slot => exact tail _ (h₁.tail (.ledger .record_slot))

/-- A live watch that is read is read, or waits for no arm. -/
theorem reading_answered {id : WatchId} {attempt : ArmAttempt} {kind : EnumKind} {attempts : Nat} :
    Answered (m.queue_enumerate id kind attempts) id attempt := by
  cases hn : m.nodes[id]? with
  | none => exact answered_dead ((queue_enumerate_placed id kind attempts).dead_iff.mpr hn)
  | some node =>
    obtain ⟨_, _, _, he⟩ := m.queue_enumerate_shape hn kind attempts
    have hst := state_of_modify hn (congrArg Monitor.nodes he) id
    rw [if_pos rfl] at hst
    exact answered_state hst fun _ _ => NodeState.noConfusion

/-- The read an accepted arm goes on to, or none where the scope reads none. -/
theorem accept_rest {id : WatchId} (attempt : ArmAttempt) {node : WatchNode} (reprove rearm : Bool)
    (hans : g.answer = none) (hst : m.state_of id = some .live)
    (hn : ∀ n, m.nodes[id]? = some n → n.is_dir = node.is_dir ∧ n.scope = node.scope) :
    Trace ⟨m, g.answering ⟨id, none⟩⟩
      ⟨if node.is_dir && m.scope_descends node.scope then
        if reprove then m.queue_enumerate id (.rearm true) 0
        else if rearm then (m.start_rearm id).1
        else m.queue_enumerate id .cold 0
      else m, g⟩ ∧
    Answered (if node.is_dir && m.scope_descends node.scope then
        if reprove then m.queue_enumerate id (.rearm true) 0
        else if rearm then (m.start_rearm id).1
        else m.queue_enumerate id .cold 0
      else m) id attempt := by
  have read : ∀ kind, Trace ⟨m, g.answering ⟨id, none⟩⟩ ⟨m.queue_enumerate id kind 0, g⟩ ∧
      Answered (m.queue_enumerate id kind 0) id attempt := by
    intro kind
    have e : Work (some ⟨id, none⟩) m (m.queue_enumerate id kind 0) :=
      .read (unarmed_of hst nofun)
    exact ⟨(Effect.work (g := g.answering ⟨id, none⟩) e).trace.trans
      (rest_trace hans (at_rest_read id kind 0)), reading_answered⟩
  obtain ⟨n, hid, hlive⟩ := Option.map_eq_some_iff.mp hst
  obtain ⟨hdir, hsc⟩ := hn n hid
  split
  · rename_i hd
    simp only [Bool.and_eq_true] at hd
    split
    · exact read _
    · split
      · have he : (m.start_rearm id).1 = m.queue_enumerate id (.rearm false) 0 := by
          unfold Monitor.start_rearm
          rw [scope_of_node hid, hst, hsc]
          simp [hd.2]
        rw [he]
        exact read _
      · exact read _
  · rename_i hd
    refine ⟨rest_trace hans ?_, answered_state hst fun _ _ => NodeState.noConfusion⟩
    intro n' hn' hdir' hds
    obtain ⟨h₁, h₂⟩ := hn n' hn'
    rw [h₁] at hdir'
    rw [h₂] at hds
    simp [hdir', hds] at hd

theorem accept_arm_trace {id : WatchId} {node : WatchNode} {rearm reprove : Bool} {ack : WatchAck}
    {attempt : ArmAttempt} (hans : g.answer = none) (ho : g.owed = none)
    (hc : g.call = some (.on_watch_result id attempt (.ok ack))) (hn : m.nodes[id]? = some node)
    (hat : node.attempt = attempt) (hst : node.state = .arming rearm reprove) :
    Trace ⟨m, g⟩ ⟨m.accept_arm id node reprove rearm ack, g⟩ ∧
      Answered (m.accept_arm id node reprove rearm ack) id attempt := by
  have h₁ : Calms g.answer m (if (reprove && ack.is_installed) = true then
      m.bridge_fresh_rearm node.scope else m) ∧
      (if (reprove && ack.is_installed) = true then
      m.bridge_fresh_rearm node.scope else m).nodes = m.nodes := by
    split
    · refine ⟨fresh_rearm_calm _, ?_⟩
      obtain ⟨_, he⟩ := m.fresh_rearm_shape node.scope
      rw [he]
    · exact ⟨.refl, rfl⟩
  unfold Monitor.accept_arm
  generalize (if (reprove && ack.is_installed) = true then
    m.bridge_fresh_rearm node.scope else m) = m₁ at h₁ ⊢
  obtain ⟨h₁, hnodes⟩ := h₁
  have hn₁ : m₁.nodes[id]? = some node := by rw [hnodes, hn]
  have hs₁ : m₁.state_of id = some (.arming rearm reprove) := by rw [state_of_node hn₁, hst]
  dsimp only
  split
  · exact ⟨Calms.trace (h₁.trans (queue_reinstall_calm node.scope hs₁)), reissue_queued hn₁⟩
  · have h₂ : Calms g.answer m (if reprove then
        { m₁ with reprove_stamps := m₁.reprove_stamps.erase id } else m₁) ∧
        (if reprove then
        { m₁ with reprove_stamps := m₁.reprove_stamps.erase id } else m₁).nodes = m₁.nodes := by
      split
      · exact ⟨h₁.tail (.ledger .unstamp), rfl⟩
      · exact ⟨h₁, rfl⟩
    generalize (if reprove then
      { m₁ with reprove_stamps := m₁.reprove_stamps.erase id } else m₁) = m₂ at h₂ ⊢
    obtain ⟨h₂, hnodes₂⟩ := h₂
    have hn₂ : m₂.nodes[id]? = some node := by rw [hnodes₂, hn₁]
    have hs₂ : m₂.state_of id = some (.arming rearm reprove) := by rw [state_of_node hn₂, hst]
    have hat₂ : m₂.arm_attempt id = some attempt := by
      rw [Monitor.arm_attempt, hn₂, ← hat]
      rfl
    have hack : Trace ⟨m, g⟩ ⟨m₂.set_state id .live, g.answering ⟨id, none⟩⟩ :=
      (Calms.trace h₂).tail (.ack hans ho hc hat₂ hs₂)
    obtain ⟨_, _, _, he⟩ := m₂.set_state_shape id .live
    have hlive : (m₂.set_state id .live).state_of id = some .live := by
      rw [state_of_modify hn₂ (congrArg Monitor.nodes he) id, if_pos rfl]
    have hkeep : ∀ n, (m₂.set_state id .live).nodes[id]? = some n →
        n.is_dir = node.is_dir ∧ n.scope = node.scope := by
      intro n hid
      rw [he] at hid
      simp only [get_modify, if_true, hn₂, Option.map_some, Option.some.injEq] at hid
      subst hid
      exact ⟨rfl, rfl⟩
    obtain ⟨ht, hans'⟩ := accept_rest attempt reprove rearm (g := g) hans hlive hkeep
    exact ⟨hack.trans ht, hans'⟩

theorem ingest_watch_result_trace (id : WatchId) (attempt : ArmAttempt)
    (res : Except WatchError WatchAck) (h : Valid ⟨m, g⟩) (hw : g.walk = none)
    (hans : g.answer = none) (ho : g.owed = none) (hb : Pruned g.start m)
    (hc : g.call = some (.on_watch_result id attempt res)) :
    Trace ⟨m, g⟩ ⟨m.ingest_watch_result id attempt res, g⟩ ∧
      Answered (m.ingest_watch_result id attempt res) id attempt := by
  unfold Monitor.ingest_watch_result
  cases hn : m.nodes[id]? with
  | none => exact ⟨.refl, answered_dead hn⟩
  | some node =>
    dsimp only
    split
    · rename_i ha
      refine ⟨.refl, fun node' _ _ hn' _ => .inl ?_⟩
      obtain rfl := Option.some.inj (hn.symm.trans hn')
      exact ha
    · have hat : node.attempt = attempt := of_not_not ‹_›
      have hf := fence_lowering_calm (k := g.answer) (m := m) id node.placement
      have h₁ := hf.trace
      have hb₁ := hb.trans hf.pruned
      obtain ⟨hnodes, -⟩ := fence_nodes (m := m) id node.placement
      generalize m.fence_lowering id node.placement = fenced at h₁ hb₁ hnodes ⊢
      obtain ⟨m₁, lowering⟩ := fenced
      dsimp only at h₁ hb₁ hnodes ⊢
      have hn₁ : m₁.nodes[id]? = some node := by rw [hnodes, hn]
      have h₁v := Trace.valid h h₁
      have readdress : Trace ⟨m, g⟩ ⟨m₁.readdress_outstanding_arm id, g⟩ ∧
          Answered (m₁.readdress_outstanding_arm id) id attempt :=
        ⟨h₁.trans (readdress_calm id).trace, fun _ _ _ hn' hst => .inr (readdress_queued hn' hst)⟩
      cases res with
      | ok ack =>
        cases hst : node.state with
        | arming rearm reprove =>
          dsimp only
          split
          · obtain ⟨ht, ha⟩ := retire_binding_trace lowering attempt
              h₁v hw hb₁ hn₁
            exact ⟨h₁.trans ht, ha⟩
          · obtain ⟨ht, ha⟩ := accept_arm_trace hans ho hc hn₁ hat hst
            exact ⟨h₁.trans ht, ha⟩
        | live =>
          dsimp only
          split
          · exact readdress
          · exact ⟨h₁, answered_state ((state_of_node hn₁).trans (congrArg some hst))
              fun _ _ => NodeState.noConfusion⟩
        | enumerating req kind attempts dirty =>
          dsimp only
          split
          · exact readdress
          · exact ⟨h₁, answered_state ((state_of_node hn₁).trans (congrArg some hst))
              fun _ _ => NodeState.noConfusion⟩
      | error e =>
        dsimp only
        split
        · exact readdress
        · obtain ⟨ht, ha⟩ := refuse_arm_trace lowering attempt
            h₁v hw hb₁ hn₁
          exact ⟨h₁.trans ht, ha⟩

end Proto
